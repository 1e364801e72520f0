import ZnsMint.Live.Ground

/-! # One order per name

`Orderly` is the invariant of the queue of Name Notes inside a step: of two orders for one name the
earlier is seen, and was settled at the later one's origin or before. What "settled" means is a parameter,
`M note origin k`: with the registry's records it survives a reorg, with nothing it survives any run
without one. -/

namespace ZnsMint.Live

open Basic Note Inbound Registry Lib.Machine

variable {params : Params} {sends : Sends} {M : NameNote → ℕ → ℕ → Prop} {p q : Point}

structure Orderly (M : NameNote → ℕ → ℕ → Prop) (p : Point) : Prop where
  queued : p.state.nameNotes.orders.Pairwise fun a c =>
    a.note.name = c.note.name → a.state = .seen ∧ M a.note a.origin c.origin
  seen : ∀ o ∈ p.state.nameNotes.orders, o.state = .seen → M o.note o.origin p.state.tip
  hand : ∀ x ∈ p.hand, ∀ name, x.claims = some name → p.state.registry.record name = none →
    p.state.nameNotes.notePending name = false →
    ∀ o ∈ p.state.nameNotes.orders, o.note.name = name → M o.note o.origin x.height
  apart : p.hand = [] ∨ p.looking = []
  looked : ∀ o ∈ p.looking, o ∈ p.state.nameNotes.orders ∧ o.state = .authorized
  distinct : p.looking.Pairwise fun a c => a.note.name ≠ c.note.name
  acted : ∀ looked on, Event.acted looked on ∈ p.state.log → on = looked

/-! ### The queue's predicates -/

theorem notePending_eq_false {q : NameNoteQueue} {name : Name} :
    q.notePending name = false ↔ ∀ o ∈ q.orders, o.note.name = name → o.state = .seen := by
  unfold NameNoteQueue.notePending Order.unresolved
  rw [List.any_eq_false]
  constructor
  · intro h o ho hname
    have := h o ho
    simp only [hname, beq_self_eq_true, Bool.and_true, bne_iff_ne, ne_eq, not_not] at this
    exact this
  · intro h o ho hboth
    simp only [Bool.and_eq_true, bne_iff_ne, ne_eq, beq_iff_eq] at hboth
    exact hboth.1 (h o ho hboth.2)

theorem isUnresolvedFor_iff {name : Name} {o : Order} :
    NameNoteQueue.isUnresolvedFor name o = true ↔ o.state ≠ .seen ∧ o.note.name = name := by
  simp [NameNoteQueue.isUnresolvedFor, Order.unresolved]

theorem isAuthorizedFor_iff {name : Name} {o : Order} :
    NameNoteQueue.isAuthorizedFor name o = true ↔ o.state = .authorized ∧ o.note.name = name := by
  simp [NameNoteQueue.isAuthorizedFor]

/-- The element a split points at. -/
theorem mem_of_split {l l₁ l₂ : List Order} {on : Order} (h : l = l₁ ++ on :: l₂) : on ∈ l := by
  rw [h]
  exact List.mem_append_right _ (List.mem_cons_self ..)

/-- What is left after the element is taken out. -/
theorem sublist_of_split {l l₁ l₂ : List Order} {on : Order} (h : l = l₁ ++ on :: l₂) :
    (l₁ ++ l₂).Sublist l := by
  rw [h]
  exact (List.Sublist.refl l₁).append (List.sublist_cons_self on l₂)

/-- Any other element is left. -/
theorem mem_left_of_split {l l₁ l₂ : List Order} {on o : Order} (h : l = l₁ ++ on :: l₂) (ho : o ∈ l)
    (hne : o ≠ on) : o ∈ l₁ ++ l₂ := by
  rw [h, List.mem_append, List.mem_cons] at ho
  rcases ho with ho | rfl | ho
  · exact List.mem_append_left _ ho
  · exact (hne rfl).elim
  · exact List.mem_append_right _ ho

@[simp] theorem reauthorize_note (o : Order) : (NameNoteQueue.reauthorize o).note = o.note := by
  unfold NameNoteQueue.reauthorize
  split_ifs <;> rfl

@[simp] theorem reauthorize_origin (o : Order) : (NameNoteQueue.reauthorize o).origin = o.origin := by
  unfold NameNoteQueue.reauthorize
  split_ifs <;> rfl

@[simp] theorem reauthorize_payment (o : Order) :
    (NameNoteQueue.reauthorize o).payment = o.payment := by
  unfold NameNoteQueue.reauthorize
  split_ifs <;> rfl

@[simp] theorem expireOrder_note (tip : ℕ) (o : Order) :
    (NameNoteQueue.expireOrder tip o).note = o.note := by
  unfold NameNoteQueue.expireOrder
  split
  · split_ifs <;> rfl
  · rfl

@[simp] theorem expireOrder_origin (tip : ℕ) (o : Order) :
    (NameNoteQueue.expireOrder tip o).origin = o.origin := by
  unfold NameNoteQueue.expireOrder
  split
  · split_ifs <;> rfl
  · rfl

@[simp] theorem expireOrder_payment (tip : ℕ) (o : Order) :
    (NameNoteQueue.expireOrder tip o).payment = o.payment := by
  unfold NameNoteQueue.expireOrder
  split
  · split_ifs <;> rfl
  · rfl

theorem expireOrder_seen {tip : ℕ} {o : Order} :
    (NameNoteQueue.expireOrder tip o).state = .seen ↔ o.state = .seen := by
  unfold NameNoteQueue.expireOrder
  split
  · rename_i expiry hstate
    split_ifs <;> simp [hstate]
  · rfl

theorem expireOrder_of_authorized {tip : ℕ} {o : Order} (h : o.state = .authorized) :
    NameNoteQueue.expireOrder tip o = o := by
  unfold NameNoteQueue.expireOrder
  rw [h]

/-- An order that is still broadcast was left alone. -/
theorem expireOrder_of_sent {tip expiry : ℕ} {o : Order}
    (h : (NameNoteQueue.expireOrder tip o).state = .sent expiry) :
    NameNoteQueue.expireOrder tip o = o := by
  unfold NameNoteQueue.expireOrder at h ⊢
  split at h
  · split_ifs at h with hle
    exact if_neg hle
  · rfl

theorem notePending_expireSent (q : NameNoteQueue) (tip : ℕ) (name : Name) :
    (q.expireSent tip).notePending name = q.notePending name := by
  unfold NameNoteQueue.notePending NameNoteQueue.expireSent
  rw [List.any_map]
  congr 1
  funext o
  have : (NameNoteQueue.expireOrder tip o).unresolved = o.unresolved := by
    rw [Bool.eq_iff_iff]
    simp [Order.unresolved, expireOrder_seen]
  simp [this]

theorem notePending_append {q : NameNoteQueue} {o : Order} {name : Name} (ho : o.state = .authorized)
    (h : NameNoteQueue.notePending ⟨q.orders ++ [o]⟩ name = false) :
    o.note.name ≠ name ∧ q.notePending name = false := by
  rw [notePending_eq_false] at h ⊢
  constructor
  · intro hname
    have := h o (by simp) hname
    rw [ho] at this
    cases this
  · exact fun o' ho' hname => h o' (by simp [ho']) hname

/-- Two elements of a list related pairwise are equal or related one way or the other. -/
theorem pairwise_cases {α : Type} {R : α → α → Prop} {l : List α} (h : l.Pairwise R) {a c : α}
    (ha : a ∈ l) (hc : c ∈ l) : a = c ∨ R a c ∨ R c a := by
  induction h with
  | nil => cases ha
  | cons hx _ ih =>
    rcases List.mem_cons.mp ha with rfl | ha'
    · rcases List.mem_cons.mp hc with rfl | hc'
      · exact Or.inl rfl
      · exact Or.inr (Or.inl (hx c hc'))
    · rcases List.mem_cons.mp hc with rfl | hc'
      · exact Or.inr (Or.inr (hx a ha'))
      · exact ih ha' hc'

/-- **At most one unresolved order per name.** -/
theorem Orderly.unique (h : Orderly M p) {a c : Order} (ha : a ∈ p.state.nameNotes.orders)
    (hc : c ∈ p.state.nameNotes.orders) (hstate : a.state ≠ .seen) (hstate' : c.state ≠ .seen)
    (hname : a.note.name = c.note.name) : a = c := by
  rcases pairwise_cases h.queued ha hc with heq | hr | hr
  · exact heq
  · exact (hstate (hr hname).1).elim
  · exact (hstate' (hr hname.symm).1).elim

theorem Orderly.length_le_one (h : Orderly M p) (name : Name) :
    (p.state.nameNotes.orders.filter (NameNoteQueue.isUnresolvedFor name)).length ≤ 1 := by
  have hpair := h.queued.filter (NameNoteQueue.isUnresolvedFor name)
  have hmem : ∀ o ∈ p.state.nameNotes.orders.filter (NameNoteQueue.isUnresolvedFor name),
      o.state ≠ .seen ∧ o.note.name = name :=
    fun o ho => isUnresolvedFor_iff.mp (List.mem_filter.mp ho).2
  match hl : p.state.nameNotes.orders.filter (NameNoteQueue.isUnresolvedFor name) with
  | [] => simp
  | [_] => simp
  | a :: c :: l =>
    rw [hl] at hpair hmem
    obtain ⟨ha, hna⟩ := hmem a (by simp)
    obtain ⟨-, hnc⟩ := hmem c (by simp)
    have := List.rel_of_pairwise_cons hpair (List.mem_cons_self ..)
    exact (ha (this (hna.trans hnc.symm)).1).elim

/-! ### The moves keep it -/

/-- A move that leaves the orders alone. -/
theorem Orderly.frame (h : Orderly M p) (hst : SameTip p.state q.state)
    (horders : q.state.nameNotes = p.state.nameNotes) (hhand : q.hand <:+ p.hand)
    (hlooking : q.looking <:+ p.looking)
    (hlog : ∀ looked on, Event.acted looked on ∈ q.state.log → Event.acted looked on ∈ p.state.log) :
    Orderly M q where
  queued := horders ▸ h.queued
  seen := by
    rw [horders, hst.tip]
    exact h.seen
  hand x hx name hclaims hfree := by
    rw [horders]
    exact h.hand x (hhand.subset hx) name hclaims ((hst.registry.record name).symm.trans hfree)
  apart := by
    rcases h.apart with hnil | hnil
    · exact Or.inl (List.suffix_nil.mp (hnil ▸ hhand))
    · exact Or.inr (List.suffix_nil.mp (hnil ▸ hlooking))
  looked o ho := horders ▸ h.looked o (hlooking.subset ho)
  distinct := h.distinct.sublist hlooking.sublist
  acted looked on hmem := h.acted looked on (hlog looked on hmem)

/-- A new order, settled after every earlier one of its name. -/
theorem pairwise_admit {l : List Order} {o : Order}
    (h : l.Pairwise fun a c => a.note.name = c.note.name → a.state = .seen ∧ M a.note a.origin c.origin)
    (hnew : ∀ a ∈ l, a.note.name = o.note.name → a.state = .seen ∧ M a.note a.origin o.origin) :
    (l ++ [o]).Pairwise fun a c =>
      a.note.name = c.note.name → a.state = .seen ∧ M a.note a.origin c.origin :=
  List.pairwise_append.mpr ⟨h, by simp, fun a ha c hc => by
    rw [List.mem_singleton.mp hc]
    exact hnew a ha⟩

theorem Orderly.claim {s : Live} {held : Held} {hand : List Held} {looking : List Order} {b : Bool}
    (h : Orderly M ⟨s, held :: hand, looking, b⟩) {note : NameNote} (hname : held.claims = some note.name)
    (hfree : s.registry.record note.name = none)
    (hpending : s.nameNotes.notePending note.name = false) :
    Orderly M
      ⟨{ s with nameNotes :=
          ⟨s.nameNotes.orders ++ [⟨note, held.height, .authorized, some held.payment⟩]⟩ },
        hand, looking, b⟩ where
  queued := pairwise_admit h.queued fun a ha han =>
    ⟨notePending_eq_false.mp hpending a ha han,
      h.hand held (List.mem_cons_self ..) note.name hname hfree hpending a ha han⟩
  seen o ho hseen := by
    rcases List.mem_append.mp ho with ho | ho
    · exact h.seen o ho hseen
    · rw [List.mem_singleton.mp ho] at hseen
      cases hseen
  hand x hx name hclaims hfree' hpending' o ho hon := by
    obtain ⟨hne, hpending'⟩ := notePending_append rfl hpending'
    rcases List.mem_append.mp ho with ho | ho
    · exact h.hand x (List.mem_cons_of_mem _ hx) name hclaims hfree' hpending' o ho hon
    · rw [List.mem_singleton.mp ho] at hon
      exact (hne hon).elim
  apart := by
    rcases h.apart with hnil | hnil
    · cases hnil
    · exact Or.inr hnil
  looked o ho := ⟨List.mem_append_left _ (h.looked o ho).1, (h.looked o ho).2⟩
  distinct := h.distinct
  acted := h.acted

theorem Orderly.transition {s : Live} {hand : List Held} {looking : List Order} {b : Bool}
    (h : Orderly M ⟨s, hand, looking, b⟩) {note : NameNote}
    (hpending : s.nameNotes.notePending note.name = false) :
    Orderly M
      ⟨{ s with nameNotes := ⟨s.nameNotes.orders ++ [⟨note, s.tip, .authorized, none⟩]⟩ },
        hand, looking, b⟩ where
  queued := pairwise_admit h.queued fun a ha han => by
    have hseen := notePending_eq_false.mp hpending a ha han
    exact ⟨hseen, h.seen a ha hseen⟩
  seen o ho hseen := by
    rcases List.mem_append.mp ho with ho | ho
    · exact h.seen o ho hseen
    · rw [List.mem_singleton.mp ho] at hseen
      cases hseen
  hand x hx name hclaims hfree hpending' o ho hon := by
    obtain ⟨hne, hpending'⟩ := notePending_append rfl hpending'
    rcases List.mem_append.mp ho with ho | ho
    · exact h.hand x hx name hclaims hfree hpending' o ho hon
    · rw [List.mem_singleton.mp ho] at hon
      exact (hne hon).elim
  apart := h.apart
  looked o ho := ⟨List.mem_append_left _ (h.looked o ho).1, (h.looked o ho).2⟩
  distinct := h.distinct
  acted := h.acted

theorem Orderly.expireSent {s : Live} {hand : List Held} {looking : List Order} {b b' : Bool}
    (h : Orderly M ⟨s, hand, looking, b⟩) :
    Orderly M ⟨{ s with nameNotes := s.nameNotes.expireSent s.tip }, hand, looking, b'⟩ where
  queued := by
    refine List.pairwise_map.mpr (h.queued.imp fun {a c} hac hname => ?_)
    rw [expireOrder_note, expireOrder_note] at hname
    rw [expireOrder_seen, expireOrder_note, expireOrder_origin, expireOrder_origin]
    exact hac hname
  seen o ho hseen := by
    obtain ⟨o', ho', rfl⟩ := List.mem_map.mp ho
    rw [expireOrder_note, expireOrder_origin]
    exact h.seen o' ho' (expireOrder_seen.mp hseen)
  hand x hx name hclaims hfree hpending o ho hon := by
    obtain ⟨o', ho', rfl⟩ := List.mem_map.mp ho
    rw [expireOrder_note] at hon
    rw [expireOrder_note, expireOrder_origin]
    exact h.hand x hx name hclaims hfree ((notePending_expireSent ..).symm.trans hpending) o' ho' hon
  apart := h.apart
  looked o ho := by
    obtain ⟨hmem, hstate⟩ := h.looked o ho
    exact ⟨List.mem_map.mpr ⟨o, hmem, expireOrder_of_authorized hstate⟩, hstate⟩
  distinct := h.distinct
  acted := h.acted

theorem Orderly.look {s : Live} {b : Bool} (h : Orderly M ⟨s, [], [], b⟩) :
    Orderly M ⟨s, [], s.nameNotes.authorizedOrders, b⟩ where
  queued := h.queued
  seen := h.seen
  hand := by simp
  apart := Or.inl rfl
  looked o ho := by
    obtain ⟨hmem, hstate⟩ := List.mem_filter.mp ho
    exact ⟨hmem, by simpa using hstate⟩
  distinct := by
    refine (h.queued.filter _).imp_of_mem fun {a c} ha _ hac hname => ?_
    have hstate : a.state = .authorized := by simpa using (List.mem_filter.mp ha).2
    have := (hac hname).1
    rw [hstate] at this
    cases this
  acted := h.acted

/-- The order a look-up by name acts on is the one the loop looks at, and the others stay. -/
theorem Orderly.on_eq {s : Live} {hand : List Held} {looked : Order} {looking : List Order} {b : Bool}
    (h : Orderly M ⟨s, hand, looked :: looking, b⟩) {on : Order} {l₁ l₂ : List Order}
    (horders : s.nameNotes.orders = l₁ ++ on :: l₂) (hstate : on.state ≠ .seen)
    (hname : on.note.name = looked.note.name) :
    on = looked ∧ ∀ o ∈ looking, o ∈ l₁ ++ l₂ ∧ o.state = .authorized := by
  obtain ⟨hmem, hauth⟩ := h.looked looked (List.mem_cons_self ..)
  have heq := h.unique (mem_of_split horders) hmem hstate (by simp [hauth]) hname
  refine ⟨heq, fun o ho => ?_⟩
  obtain ⟨hmem', hauth'⟩ := h.looked o (List.mem_cons_of_mem _ ho)
  have hne : o ≠ on := by
    rintro rfl
    exact List.rel_of_pairwise_cons h.distinct ho hname.symm
  exact ⟨mem_left_of_split horders hmem' hne, hauth'⟩

theorem Orderly.drop {s : Live} {hand : List Held} {looked : Order} {looking : List Order} {b : Bool}
    (h : Orderly M ⟨s, hand, looked :: looking, b⟩) {on : Order} {l₁ l₂ : List Order}
    (horders : s.nameNotes.orders = l₁ ++ on :: l₂)
    (hon : NameNoteQueue.isUnresolvedFor looked.note.name on = true) :
    Orderly M ⟨{ s with nameNotes := ⟨l₁ ++ l₂⟩ }.record (.acted looked on), hand, looking, b⟩ := by
  obtain ⟨hstate, hname⟩ := isUnresolvedFor_iff.mp hon
  obtain ⟨heq, hkept⟩ := h.on_eq horders hstate hname
  have hsub := sublist_of_split horders
  have hnil : hand = [] := by
    rcases h.apart with hnil | hnil
    · exact hnil
    · cases hnil
  exact {
    queued := h.queued.sublist hsub
    seen := fun o ho => h.seen o (hsub.subset ho)
    hand := by simp [hnil]
    apart := Or.inl hnil
    looked := hkept
    distinct := h.distinct.of_cons
    acted := fun looked' on' hmem => by
      rcases List.mem_append.mp hmem with hmem | hmem
      · exact h.acted looked' on' hmem
      · cases List.mem_singleton.mp hmem
        exact heq }

/-- The orders after one of them changed its state. -/
theorem mem_replaced {l₁ l₂ : List Order} {on o : Order} {state : NameNoteState}
    (ho : o ∈ l₁ ++ { on with state := state } :: l₂) :
    o = { on with state := state } ∨ o ∈ l₁ ++ on :: l₂ := by
  simp only [List.mem_append, List.mem_cons] at ho ⊢
  rcases ho with ho | ho | ho
  · exact Or.inr (Or.inl ho)
  · exact Or.inl ho
  · exact Or.inr (Or.inr (Or.inr ho))

theorem pairwise_replace {l₁ l₂ : List Order} {on : Order} {state : NameNoteState}
    (hon : on.state ≠ .seen)
    (h : (l₁ ++ on :: l₂).Pairwise fun a c =>
      a.note.name = c.note.name → a.state = .seen ∧ M a.note a.origin c.origin) :
    (l₁ ++ { on with state := state } :: l₂).Pairwise fun a c =>
      a.note.name = c.note.name → a.state = .seen ∧ M a.note a.origin c.origin := by
  rw [List.pairwise_append, List.pairwise_cons] at h ⊢
  obtain ⟨h₁, ⟨hcons, h₂⟩, hcross⟩ := h
  refine ⟨h₁, ⟨fun c hc hname => (hon (hcons c hc hname).1).elim, h₂⟩, fun a ha c hc => ?_⟩
  rcases List.mem_cons.mp hc with rfl | hc
  · exact hcross a ha on (List.mem_cons_self ..)
  · exact hcross a ha c (List.mem_cons_of_mem _ hc)

theorem Orderly.send {s : Live} {hand : List Held} {looked : Order} {looking : List Order} {b : Bool}
    (h : Orderly M ⟨s, hand, looked :: looking, b⟩) {on : Order} {l₁ l₂ : List Order} {expiry : ℕ}
    {w : RegistryWallet} {bc : Broadcast} (horders : s.nameNotes.orders = l₁ ++ on :: l₂)
    (hon : NameNoteQueue.isAuthorizedFor looked.note.name on = true) :
    Orderly M
      ⟨({ s with
          nameNotes := ⟨l₁ ++ { on with state := .sent expiry } :: l₂⟩
          wallet := w }.record (.acted looked on)).record (.broadcast bc), hand, looking, b⟩ := by
  obtain ⟨hstate, hname⟩ := isAuthorizedFor_iff.mp hon
  have hunseen : on.state ≠ .seen := by simp [hstate]
  obtain ⟨heq, hkept⟩ := h.on_eq horders hunseen hname
  have hnil : hand = [] := by
    rcases h.apart with hnil | hnil
    · exact hnil
    · cases hnil
  exact {
    queued := pairwise_replace hunseen (horders ▸ h.queued)
    seen := fun o ho hseen => by
      rcases mem_replaced ho with rfl | ho
      · cases hseen
      · exact h.seen o (horders ▸ ho) hseen
    hand := by simp [hnil]
    apart := Or.inl hnil
    looked := fun o ho => by
      obtain ⟨hmem, hauth⟩ := hkept o ho
      refine ⟨?_, hauth⟩
      rcases List.mem_append.mp hmem with hmem | hmem
      · exact List.mem_append_left _ hmem
      · exact List.mem_append_right _ (List.mem_cons_of_mem _ hmem)
    distinct := h.distinct.of_cons
    acted := fun looked' on' hmem => by
      simp only [Live.record, List.mem_append, List.mem_singleton] at hmem
      rcases hmem with (hmem | hmem) | hmem
      · exact h.acted looked' on' hmem
      · cases hmem
        exact heq
      · cases hmem }

/-- Every move keeps the queue orderly. -/
theorem Orderly.move (h : Orderly M p) (hm : Move params sends p q) : Orderly M q := by
  have hst := hm.sameTip
  cases hm with
  | market | rates | challenge | relay | thin =>
    exact h.frame hst rfl (List.suffix_refl _) (List.suffix_refl _) fun _ _ hmem => hmem
  | keep | record | refund =>
    exact h.frame hst rfl (List.suffix_cons ..) (List.suffix_refl _) fun _ _ hmem => hmem
  | skip => exact h.frame hst rfl (List.suffix_refl _) (List.suffix_cons ..) fun _ _ hmem => hmem
  | authorize | pay =>
    refine h.frame hst rfl (List.suffix_refl _) (List.suffix_refl _) fun _ _ hmem => ?_
    simpa [Live.record] using hmem
  | lost txid e hlost he =>
    refine h.frame hst rfl (List.suffix_refl _) (List.suffix_refl _) fun _ _ hmem => ?_
    cases he <;> simpa [Live.record] using hmem
  | claim note hclaim hname hfree hpending => exact h.claim hname hfree hpending
  | transition note e hrecord hprev hpending => exact h.transition hpending
  | expireSent => exact h.expireSent
  | look => exact h.look
  | drop on l₁ l₂ horders hon hfirst hreason => exact h.drop horders hon
  | send on l₁ l₂ txid nf expiry hbuilt hexpiry horders hon hfirst hauthority hspendable =>
    exact h.send horders hon

end ZnsMint.Live
