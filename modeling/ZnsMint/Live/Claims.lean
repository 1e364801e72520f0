import ZnsMint.Live.Orders

/-! # What becomes of a paid claim

An order leaves the queue by `reconcile_seen`, `rewind_to` or `drop_note`. The first never drops a claim
and the second only one whose block was orphaned. The third drops a claim, without a refund, when the
name has become live by a claim this process did not send. `ClaimsFree` is the condition that no pass
finds a claim order in that place. -/

namespace ZnsMint.Live

open Basic Note Inbound Registry Lib.Machine

variable {params : Params} {keys : Keys} {sends : Sends} {s t : Live} {p q : Point}
  {start : List Order}

/-- At a tip pass the name of every unresolved claim order is free, or the order is broadcast, outlives
the pass and is the only unresolved one of its name. -/
def ClaimsFree (s : Live) : Step → Prop
  | .tipPass _ => ∀ o ∈ s.nameNotes.orders, o.note.action = .claim → o.state ≠ .seen →
      s.registry.record o.note.name = none ∨
        ∃ expiry, o.state = .sent expiry ∧ s.tip + 1 < expiry ∧
          ∀ o' ∈ s.nameNotes.orders, o'.state ≠ .seen → o'.note.name = o.note.name → o' = o
  | _ => True

instance {state : NameNoteState} {P : ℕ → Prop} [DecidablePred P] :
    Decidable (∃ expiry, state = .sent expiry ∧ P expiry) :=
  match state with
  | .authorized => isFalse (by rintro ⟨_, hstate, -⟩; cases hstate)
  | .sent expiry => decidable_of_iff (P expiry) ⟨fun h => ⟨expiry, rfl, h⟩, by rintro ⟨_, ⟨⟩, h⟩; exact h⟩
  | .seen => isFalse (by rintro ⟨_, hstate, -⟩; cases hstate)

instance (s : Live) : ∀ a, Decidable (ClaimsFree s a)
  | .tipPass _ => inferInstanceAs (Decidable (∀ o ∈ s.nameNotes.orders, o.note.action = .claim →
    o.state ≠ .seen →
      s.registry.record o.note.name = none ∨
        ∃ expiry, o.state = .sent expiry ∧ s.tip + 1 < expiry ∧
          ∀ o' ∈ s.nameNotes.orders, o'.state ≠ .seen → o'.note.name = o.note.name → o' = o))
  | .block _ => isTrue trivial
  | .skipped _ => isTrue trivial
  | .reorg _ _ => isTrue trivial

/-- The order is in the queue, in whatever state. -/
def Kept (o : Order) (q : NameNoteQueue) : Prop :=
  ∃ o' ∈ q.orders, o'.note = o.note ∧ o'.origin = o.origin ∧ o'.payment = o.payment

/-- An order of the state before a step is in the queue after it, or its own note is confirmed, or the
block of its payment was orphaned, or a refund of its payment is queued. -/
def Accounted (params : Params) (o : Order) (a : Step) (t : Live) : Prop :=
  Kept o t.nameNotes ∨ NameNoteQueue.confirmedBy params t.registry o = true ∨
    (∃ rewound mtp, a = .reorg rewound mtp ∧ rewound < o.origin) ∨
    ∃ r ∈ t.refunds.refundsDue, some r.payment = o.payment

/-! ### Orders that own their name -/

/-- The order's predecessor is the live record of its name. -/
def Owns (r : Registry) (o : Order) : Prop :=
  ∃ e, r.record o.note.name = some e ∧ o.note.prevRcm = some e.commitment

/-- Every unresolved order but a claim owns its name. -/
def Owned (s : Live) : Prop :=
  ∀ o ∈ s.nameNotes.orders, o.note.action ≠ .claim → o.state ≠ .seen → Owns s.registry o

theorem Owns.listings {r r' : Registry} {o : Order} (h : Owns r o) (hr : ListingsOnly r r') :
    Owns r' o := by
  obtain ⟨e, he, hprev⟩ := h
  exact ⟨e, (hr.record _).trans he, hprev⟩

theorem Owned.listings (h : s.Owned) (hst : SameTip s t) (horders : t.nameNotes = s.nameNotes) :
    t.Owned := by
  intro o ho hclaim hstate
  rw [horders] at ho
  exact (h o ho hclaim hstate).listings hst.registry

theorem action_of_prevRcm {note : NameNote} {c : NameCommitment} (h : note.prevRcm = some c) :
    note.action ≠ .claim := by
  intro hclaim
  rw [(note.prevRcm_eq_none_iff).mpr hclaim] at h
  cases h

/-- `reconcile_seen` leaves no other. -/
theorem owned_reconcileSeen {r : Registry} {q : NameNoteQueue} {o : Order}
    (ho : o ∈ (q.reconcileSeen params r).orders) (hclaim : o.note.action ≠ .claim)
    (hstate : o.state ≠ .seen) : Owns r o := by
  obtain ⟨o', -, -, hkeep⟩ := mem_reconcileSeen.mp ho
  unfold NameNoteQueue.keepsName Action.isClaim at hkeep
  simp only [Bool.or_eq_true, beq_iff_eq, hstate, hclaim, false_or, Option.any_eq_true] at hkeep
  obtain ⟨e, he, hprev⟩ := hkeep
  exact ⟨e, he, hprev.symm⟩

theorem Owned.move (h : p.state.Owned) (hm : Move params sends p q) : q.state.Owned := by
  have hst := hm.sameTip
  cases hm with
  | claim note hclaim hname hfree hpending =>
    intro o ho hother hstate
    rcases List.mem_append.mp ho with ho | ho
    · exact h o ho hother hstate
    · rw [List.mem_singleton.mp ho] at hother
      exact (hother hclaim).elim
  | transition note e hrecord hprev hpending =>
    intro o ho hother hstate
    rcases List.mem_append.mp ho with ho | ho
    · exact h o ho hother hstate
    · rw [List.mem_singleton.mp ho]
      exact ⟨e, hrecord, hprev⟩
  | expireSent =>
    intro o ho hother hstate
    obtain ⟨o', ho', rfl⟩ := List.mem_map.mp ho
    rw [expireOrder_note] at hother
    have := h o' ho' hother (fun hseen => hstate (expireOrder_seen.mpr hseen))
    unfold Owns at this ⊢
    rwa [expireOrder_note]
  | drop on l₁ l₂ horders hon hfirst hreason =>
    intro o ho hother hstate
    exact h o ((sublist_of_split horders).subset ho) hother hstate
  | send on l₁ l₂ txid nf expiry hbuilt hexpiry horders hon hfirst hauthority hspendable =>
    intro o ho hother hstate
    rcases mem_replaced ho with rfl | ho
    · have hauth := (isAuthorizedFor_iff.mp hon).1
      exact h on (mem_of_split horders) hother (by simp [hauth])
    · exact h o (horders ▸ ho) hother hstate
  | market | rates | keep | record | refund | challenge | relay | thin | authorize | look | skip | pay
  | lost =>
    exact h.listings hst rfl

/-! ### Inside a tip pass -/

/-- What holds of the claim orders inside a tip pass that meets the condition. -/
structure ClaimsInv (start : List Order) (p : Point) : Prop where
  kept : ∀ o ∈ start, o.note.action = .claim → Kept o p.state.nameNotes
  owned : p.state.Owned
  free : ∀ o ∈ p.state.nameNotes.orders, o.note.action = .claim → o.state ≠ .seen →
    p.state.registry.record o.note.name = none ∨
      ∃ expiry, o.state = .sent expiry ∧ p.state.tip + 1 < expiry ∧
        ∀ o' ∈ p.state.nameNotes.orders, o'.state ≠ .seen → o'.note.name = o.note.name → o' = o
  lookedOwned : ∀ o ∈ p.looking, o.note.action ≠ .claim → Owns p.state.registry o
  lookedFree : ∀ l ∈ p.looking, ∀ o ∈ p.state.nameNotes.orders, o.note.action = .claim → o.state ≠ .seen →
    o.note.name = l.note.name → p.state.registry.record l.note.name = none

theorem ClaimsInv.frame (h : ClaimsInv start p) (hst : SameTip p.state q.state)
    (horders : q.state.nameNotes = p.state.nameNotes) (hlooking : q.looking ⊆ p.looking) :
    ClaimsInv start q where
  kept := horders ▸ h.kept
  owned := h.owned.listings hst horders
  free := by
    rw [horders, hst.tip]
    intro o ho hclaim hstate
    rw [hst.registry.record]
    exact h.free o ho hclaim hstate
  lookedOwned o ho hclaim := (h.lookedOwned o (hlooking ho) hclaim).listings hst.registry
  lookedFree l hl o ho hclaim hstate hname := by
    rw [horders] at ho
    rw [hst.registry.record]
    exact h.lookedFree l (hlooking hl) o ho hclaim hstate hname

/-- A new authorized order: a claim of a free name, or an order that owns its name. -/
theorem ClaimsInv.append {s : Live} {hand hand' : List Held} {looking : List Order} {b : Bool}
    (h : ClaimsInv start ⟨s, hand, looking, b⟩) {o : Order}
    (hpending : s.nameNotes.notePending o.note.name = false)
    (hnew : (o.note.action = .claim ∧ s.registry.record o.note.name = none) ∨ Owns s.registry o) :
    ClaimsInv start ⟨{ s with nameNotes := ⟨s.nameNotes.orders ++ [o]⟩ }, hand', looking, b⟩ := by
  have hfree : o.note.action = .claim → s.registry.record o.note.name = none := by
    intro hclaim
    rcases hnew with hnew | ⟨e, -, hprev⟩
    · exact hnew.2
    · exact (action_of_prevRcm hprev hclaim).elim
  exact {
    kept := fun x hx hclaim => by
      obtain ⟨o', ho', hsame⟩ := h.kept x hx hclaim
      exact ⟨o', List.mem_append_left _ ho', hsame⟩
    owned := fun x hx hclaim hstate => by
      rcases List.mem_append.mp hx with hx | hx
      · exact h.owned x hx hclaim hstate
      · rw [List.mem_singleton.mp hx] at hclaim ⊢
        rcases hnew with hnew | howns
        · exact (hclaim hnew.1).elim
        · exact howns
    free := fun x hx hclaim hstate => by
      rcases List.mem_append.mp hx with hx | hx
      · rcases h.free x hx hclaim hstate with hnone | ⟨expiry, hsent, hlt, huniq⟩
        · exact Or.inl hnone
        · refine Or.inr ⟨expiry, hsent, hlt, fun y hy hystate hyname => ?_⟩
          rcases List.mem_append.mp hy with hy | hy
          · exact huniq y hy hystate hyname
          · -- `x` is unresolved, so no order of its name was admitted
            rw [List.mem_singleton.mp hy] at hyname
            exact (hstate (notePending_eq_false.mp hpending x hx hyname.symm)).elim
      · rw [List.mem_singleton.mp hx] at hclaim ⊢
        exact Or.inl (hfree hclaim)
    lookedOwned := h.lookedOwned
    lookedFree := fun l hl x hx hclaim hstate hname => by
      rcases List.mem_append.mp hx with hx | hx
      · exact h.lookedFree l hl x hx hclaim hstate hname
      · rw [List.mem_singleton.mp hx] at hclaim hname
        exact hname ▸ hfree hclaim }

theorem ClaimsInv.expireSent {s : Live} {hand : List Held} {looking : List Order} {b b' : Bool}
    (h : ClaimsInv start ⟨s, hand, looking, b⟩) (howned : (({ s with
      nameNotes := s.nameNotes.expireSent s.tip } : Live)).Owned) :
    ClaimsInv start ⟨{ s with nameNotes := s.nameNotes.expireSent s.tip }, hand, looking, b'⟩ where
  kept x hx hclaim := by
    obtain ⟨o', ho', hnote, horigin, hpayment⟩ := h.kept x hx hclaim
    refine ⟨NameNoteQueue.expireOrder s.tip o', List.mem_map_of_mem ho', ?_⟩
    simp [hnote, horigin, hpayment]
  owned := howned
  free x hx hclaim hstate := by
    obtain ⟨o, ho, rfl⟩ := List.mem_map.mp hx
    rw [expireOrder_note] at hclaim ⊢
    have hunseen : o.state ≠ .seen := fun hseen => hstate (expireOrder_seen.mpr hseen)
    rcases h.free o ho hclaim hunseen with hnone | ⟨expiry, hsent, hlt, huniq⟩
    · exact Or.inl hnone
    · have hself : NameNoteQueue.expireOrder s.tip o = o := by
        unfold NameNoteQueue.expireOrder
        rw [hsent]
        exact if_neg (by simpa using hlt)
      refine Or.inr ⟨expiry, by rw [hself, hsent], hlt, fun y hy hystate hyname => ?_⟩
      obtain ⟨o', ho', rfl⟩ := List.mem_map.mp hy
      rw [expireOrder_note] at hyname
      rw [huniq o' ho' (fun hseen => hystate (expireOrder_seen.mpr hseen)) hyname]
  lookedOwned := h.lookedOwned
  lookedFree l hl x hx hclaim hstate hname := by
    obtain ⟨o, ho, rfl⟩ := List.mem_map.mp hx
    rw [expireOrder_note] at hclaim hname
    exact h.lookedFree l hl o ho hclaim (fun hseen => hstate (expireOrder_seen.mpr hseen)) hname

theorem ClaimsInv.look {s : Live} (h : ClaimsInv start ⟨s, [], [], true⟩) :
    ClaimsInv start ⟨s, [], s.nameNotes.authorizedOrders, true⟩ where
  kept := h.kept
  owned := h.owned
  free := h.free
  lookedOwned o ho hclaim := by
    obtain ⟨hmem, hauth⟩ := List.mem_filter.mp ho
    refine h.owned o hmem hclaim ?_
    rw [show o.state = .authorized by simpa using hauth]
    exact NameNoteState.noConfusion
  lookedFree l hl o ho hclaim hstate hname := by
    obtain ⟨hmem, hauth⟩ := List.mem_filter.mp hl
    have hauth : l.state = .authorized := by simpa using hauth
    rcases h.free o ho hclaim hstate with hnone | ⟨expiry, hsent, -, huniq⟩
    · exact hname ▸ hnone
    · -- the order looked at is authorized, so it is not the one that outlives the pass
      have heq := huniq l hmem (by simp [hauth]) hname.symm
      rw [heq, hsent] at hauth
      cases hauth

/-- A pass that meets the condition drops no claim. -/
theorem ClaimsInv.drop {s : Live} {hand : List Held} {looked : Order} {looking : List Order} {b : Bool}
    (h : ClaimsInv start ⟨s, hand, looked :: looking, b⟩) {on : Order} {l₁ l₂ : List Order}
    (horders : s.nameNotes.orders = l₁ ++ on :: l₂)
    (hon : NameNoteQueue.isUnresolvedFor looked.note.name on = true) (hreason : s.DropReason looked) :
    ClaimsInv start
      ⟨{ s with nameNotes := ⟨l₁ ++ l₂⟩ }.record (.acted looked on), hand, looking, b⟩ := by
  obtain ⟨hstate, hname⟩ := isUnresolvedFor_iff.mp hon
  have hmem := mem_of_split horders
  have hclaim : on.note.action ≠ .claim := by
    intro hclaim
    have hnone := h.lookedFree looked (List.mem_cons_self ..) on hmem hclaim hstate hname
    rcases hreason with ⟨-, hlive⟩ | ⟨hother, hstale⟩
    · rw [hnone] at hlive
      cases hlive
    · obtain ⟨e, he, hprev⟩ := h.lookedOwned looked (List.mem_cons_self ..) hother
      exact hstale e he hprev
  have hsub := (sublist_of_split horders).subset
  exact {
    kept := fun x hx hx' => by
      obtain ⟨o', ho', hnote, hrest⟩ := h.kept x hx hx'
      refine ⟨o', ?_, hnote, hrest⟩
      have hne : o' ≠ on := by
        rintro rfl
        exact hclaim (hnote ▸ hx')
      exact mem_left_of_split horders ho' hne
    owned := fun o ho => h.owned o (hsub ho)
    free := fun o ho hc hs => by
      rcases h.free o (hsub ho) hc hs with hnone | ⟨expiry, hsent, hlt, huniq⟩
      · exact Or.inl hnone
      · exact Or.inr ⟨expiry, hsent, hlt, fun y hy => huniq y (hsub hy)⟩
    lookedOwned := fun o ho => h.lookedOwned o (List.mem_cons_of_mem _ ho)
    lookedFree := fun l hl o ho => h.lookedFree l (List.mem_cons_of_mem _ hl) o (hsub ho) }

theorem ClaimsInv.send {s : Live} {hand : List Held} {looked : Order} {looking : List Order} {b : Bool}
    (h : ClaimsInv start ⟨s, hand, looked :: looking, b⟩) {on : Order} {l₁ l₂ : List Order} {expiry : ℕ}
    (horders : s.nameNotes.orders = l₁ ++ on :: l₂) (hauth : on.state = .authorized)
    (hst : SameTip s t) (hnotes : t.nameNotes = ⟨l₁ ++ { on with state := .sent expiry } :: l₂⟩)
    (howned : t.Owned) : ClaimsInv start ⟨t, hand, looking, b⟩ := by
  have hmem := mem_of_split horders
  have hunseen : on.state ≠ .seen := by simp [hauth]
  -- a claim that is authorized has a free name
  have honfree : on.note.action = .claim → s.registry.record on.note.name = none := by
    intro hclaim
    rcases h.free on hmem hclaim hunseen with hnone | ⟨_, hsent, -⟩
    · exact hnone
    · rw [hauth] at hsent
      cases hsent
  refine ⟨fun x hx hclaim => ?_, howned, fun x hx hclaim hstate => ?_, fun o ho hclaim => ?_,
    fun l hl o ho hclaim hstate hname => ?_⟩
  · obtain ⟨o', ho', hsame⟩ := h.kept x hx hclaim
    rw [hnotes]
    rw [horders] at ho'
    simp only [List.mem_append, List.mem_cons] at ho'
    rcases ho' with ho' | rfl | ho'
    · exact ⟨o', by simp [ho'], hsame⟩
    · exact ⟨{ o' with state := .sent expiry }, by simp, hsame⟩
    · exact ⟨o', by simp [ho'], hsame⟩
  · simp only [hnotes] at hx ⊢
    rw [hst.registry.record, hst.tip]
    rcases mem_replaced hx with rfl | hx
    · exact Or.inl (honfree hclaim)
    · rcases h.free x (horders ▸ hx) hclaim hstate with hnone | ⟨expiry', hsent, hlt, huniq⟩
      · exact Or.inl hnone
      · refine Or.inr ⟨expiry', hsent, hlt, fun y hy hystate hyname => ?_⟩
        rcases mem_replaced hy with rfl | hy
        · have heq := huniq on hmem hunseen hyname
          rw [heq, hsent] at hauth
          cases hauth
        · exact huniq y (horders ▸ hy) hystate hyname
  · exact (h.lookedOwned o (List.mem_cons_of_mem _ ho) hclaim).listings hst.registry
  · rw [hst.registry.record]
    simp only [hnotes] at ho
    rcases mem_replaced ho with rfl | ho
    · exact hname ▸ honfree hclaim
    · exact h.lookedFree l (List.mem_cons_of_mem _ hl) o (horders ▸ ho) hclaim hstate hname

theorem ClaimsInv.move (h : ClaimsInv start p) (hm : Move params sends p q) : ClaimsInv start q := by
  have hst := hm.sameTip
  have howned := h.owned.move hm
  cases hm with
  | claim note hclaim hname hfree hpending => exact h.append hpending (Or.inl ⟨hclaim, hfree⟩)
  | transition note e hrecord hprev hpending =>
    exact h.append hpending (Or.inr ⟨e, hrecord, hprev⟩)
  | expireSent => exact h.expireSent howned
  | look => exact h.look
  | skip => exact h.frame hst rfl (List.subset_cons_self ..)
  | drop on l₁ l₂ horders hon hfirst hreason => exact h.drop horders hon hreason
  | send on l₁ l₂ txid nf expiry hbuilt hexpiry horders hon hfirst hauthority hspendable =>
    exact h.send horders (isAuthorizedFor_iff.mp hon).1 hst rfl howned
  | market | rates | keep | record | refund | challenge | relay | thin | authorize | pay | lost =>
    exact h.frame hst rfl (List.Subset.refl _)

/-! ### Inside a block -/

/-- Before `expire_sent` nothing leaves the queue. -/
def NothingLeaves (start : List Order) (p : Point) : Prop :=
  p.expired = false → p.looking = [] ∧ ∀ o ∈ start, Kept o p.state.nameNotes

theorem Kept.append {o : Order} {q : NameNoteQueue} (h : Kept o q) (l : List Order) :
    Kept o ⟨q.orders ++ l⟩ := by
  obtain ⟨o', ho', hsame⟩ := h
  exact ⟨o', List.mem_append_left _ ho', hsame⟩

theorem NothingLeaves.move (h : NothingLeaves start p) (hm : Move params sends p q) :
    NothingLeaves start q := by
  cases hm with
  | claim | transition =>
    intro hexp
    obtain ⟨hnil, hkept⟩ := h hexp
    exact ⟨hnil, fun o ho => (hkept o ho).append _⟩
  | expireSent | look | send =>
    intro hexp
    cases hexp
  | skip | drop =>
    intro hexp
    cases (h hexp).1
  | market | rates | keep | record | refund | challenge | relay | thin | authorize | pay | lost => exact h

theorem kept_reconcileSeen {r : Registry} {q : NameNoteQueue} {o : Order} (ho : o ∈ q.orders)
    (hclaim : o.note.action = .claim) : Kept o (q.reconcileSeen params r) := by
  refine ⟨NameNoteQueue.seeOne params r o, mem_reconcileSeen.mpr ⟨o, ho, rfl, ?_⟩, by simp⟩
  unfold NameNoteQueue.keepsName Action.isClaim
  simp [hclaim]

/-! ### The steps -/

theorem Owned.step (h : s.Owned) {a : Step} (hstep : s.step params keys a = some t) : t.Owned := by
  rcases step_cases hstep with ⟨b, rfl, rfl⟩ | ⟨env, rfl, ht⟩ | ⟨rate, rfl, rfl⟩ |
    ⟨rewound, mtp, rfl, ⟨-, rfl⟩ | ⟨-, rfl⟩⟩
  · refine block_invariant (I := fun p => p.state.Owned) (fun _ _ hp hm => hp.move hm) ?_
    intro o ho hclaim hstate
    have hst := sameTip_meetBlock params (s.applyBlock params b)
    exact (owned_reconcileSeen ho hclaim hstate).listings hst.registry
  · exact tipPass_invariant (I := fun p => p.state.Owned) (fun _ _ hp hm => hp.move hm) ht h
  · exact h
  · intro o ho hclaim hstate
    exact owned_reconcileSeen ho hclaim hstate
  · exact h

/-- One step that meets the condition accounts for every claim order. -/
theorem accounted_step (h : s.Owned) {a : Step} (hcond : ClaimsFree s a)
    (hstep : s.step params keys a = some t) {o : Order} (ho : o ∈ s.nameNotes.orders)
    (hclaim : o.note.action = .claim) : Accounted params o a t := by
  rcases step_cases hstep with ⟨b, rfl, rfl⟩ | ⟨env, rfl, ht⟩ | ⟨rate, rfl, rfl⟩ |
    ⟨rewound, mtp, rfl, ⟨hlt, rfl⟩ | ⟨-, rfl⟩⟩
  · have hstart : NothingLeaves (s.nameNotes.orders.filter fun o => o.note.action == .claim)
        ⟨(s.applyBlock params b).meetBlock params, b.arrivals.map (heldArrival (s.tip + 1)),
          [], false⟩ := by
      refine fun _ => ⟨rfl, fun x hx => ?_⟩
      obtain ⟨hx, hxclaim⟩ := List.mem_filter.mp hx
      exact kept_reconcileSeen hx (by simpa using hxclaim)
    have hend : NothingLeaves _ ⟨s.block params keys b, [], [], false⟩ :=
      block_invariant (fun _ _ hp hm => hp.move hm) hstart
    exact Or.inl ((hend rfl).2 o (List.mem_filter.mpr ⟨ho, by simp [hclaim]⟩))
  · have hstart : ClaimsInv s.nameNotes.orders s.taken :=
      { kept := fun x hx _ => ⟨x, hx, rfl, rfl, rfl⟩
        owned := h
        free := hcond
        lookedOwned := by simp [taken]
        lookedFree := by simp [taken] }
    have hend := tipPass_invariant (fun _ _ hp hm => hp.move hm) ht hstart
    exact Or.inl (hend.kept o ho hclaim)
  · exact Or.inl ⟨o, ho, rfl, rfl, rfl⟩
  · by_cases hkept : o.origin ≤ rewound
    · have hre : NameNoteQueue.reauthorize o ∈ (s.nameNotes.rewindTo rewound).orders :=
        List.mem_map_of_mem (List.mem_filter.mpr ⟨ho, by simpa using hkept⟩)
      have hkeep : Kept (NameNoteQueue.reauthorize o) (s.reorg params rewound mtp).nameNotes :=
        kept_reconcileSeen hre (by simpa using hclaim)
      obtain ⟨o', ho', hsame⟩ := hkeep
      rw [reauthorize_note, reauthorize_origin, reauthorize_payment] at hsame
      exact Or.inl ⟨o', ho', hsame⟩
    · exact Or.inr (Or.inr (Or.inl ⟨rewound, mtp, rfl, by omega⟩))
  · exact Or.inl ⟨o, ho, rfl, rfl, rfl⟩

/-- **A paid claim is accounted for.** In every run whose tip passes find the name of every unresolved
claim order free, a claim order leaves the queue only because the block of its payment was orphaned,
because its own note was confirmed, or with a refund. -/
theorem claims_accounted (params : Params) (keys : Keys) (origin : ℕ) (mtp : ℤ) (blocks : List Block)
    (market : Market) (listings : NameMap Listing) (rate fee : Zatoshis) (steps : List Step) (a : Step)
    (s t : Live)
    (hcond : Along (Live.step params keys) ClaimsFree
      (boot params origin mtp blocks market listings rate fee) (steps ++ [a]))
    (hrun : run (Live.step params keys) (boot params origin mtp blocks market listings rate fee) steps =
      some s)
    (hstep : s.step params keys a = some t) :
    ∀ o ∈ s.nameNotes.orders, o.note.action = .claim → Accounted params o a t := by
  have hboot : (boot params origin mtp blocks market listings rate fee).Owned := by
    obtain ⟨-, hnotes, -⟩ := boot_queues params origin mtp blocks market listings rate fee
    intro o ho
    rw [hnotes] at ho
    cases ho
  exact run_last (I := Owned)
    (R := fun s a t => ∀ o ∈ s.nameNotes.orders, o.note.action = .claim → Accounted params o a t)
    (fun s a u hs _ hu => hs.step hu) (fun s a u hs hc hu o ho hclaim =>
    accounted_step hs hc hu ho hclaim)
    steps _ hboot hcond hrun hstep

/-! ### Where the condition fails -/

def pricedBoot : Live := boot Params.sample 99 0 [ceremonyBlock] .new ∅ unitRate .zero

/-- A claim is paid in full, and the next pass admits it. -/
def paidClaimSteps : List Step :=
  [.block ⟨[], 10, [claimArrival 20 (sampleUa 1)], []⟩, .tipPass sampleEnv]

/-- A pass finds the order unresolved and sends it, the next finds it sent, and a block confirms it. -/
def confirmedClaimSteps : List Step :=
  paidClaimSteps ++ [.block ⟨[], 20, [], []⟩,
    .tipPass { sampleEnv with prepared := fun _ => some (sampleTxid 10) },
    .block ⟨[], 20, [], []⟩, .tipPass sampleEnv,
    .block ⟨[claimTx 10 (.claim alice (sampleUa 1) .never) 0 50 60 143], 20, [], []⟩]

/-- The order stays through the pass after its confirmation. A reorg below its payment takes it away. -/
theorem claims_accounted_confirmed :
    ∃ s, run (Live.step Params.sample sampleKeys) pricedBoot confirmedClaimSteps = some s ∧
      (s.nameNotes.orders.map Order.state) = [.seen] ∧
      (∃ t, s.step Params.sample sampleKeys (.tipPass sampleEnv) = some t ∧
        t.nameNotes.orders.length = 1 ∧
        ∀ o ∈ s.nameNotes.orders, o.note.action = .claim →
          Accounted Params.sample o (.tipPass sampleEnv) t) ∧
      ∃ t, s.step Params.sample sampleKeys (.reorg 100 0) = some t ∧ t.nameNotes.orders.length = 0 ∧
        ∀ o ∈ s.nameNotes.orders, o.note.action = .claim →
          Accounted Params.sample o (.reorg 100 0) t := by
  have hstates : (run (Live.step Params.sample sampleKeys) pricedBoot confirmedClaimSteps).map
      (fun s => s.nameNotes.orders.map Order.state) = some [.seen] := by
    decide +kernel
  obtain ⟨s, hs, hstates⟩ := Option.map_eq_some_iff.mp hstates
  have hcond : ∀ a, a = .tipPass sampleEnv ∨ a = .reorg 100 0 →
      Along (Live.step Params.sample sampleKeys) ClaimsFree pricedBoot (confirmedClaimSteps ++ [a]) := by
    rintro a (rfl | rfl) <;> decide +kernel
  have hlast : ∀ a n, ((run (Live.step Params.sample sampleKeys) pricedBoot confirmedClaimSteps).bind
      fun s =>
      s.step Params.sample sampleKeys a).map (fun t => t.nameNotes.orders.length) = some n →
      ∃ t, s.step Params.sample sampleKeys a = some t ∧ t.nameNotes.orders.length = n := by
    intro a n hlength
    rw [hs] at hlength
    exact Option.map_eq_some_iff.mp hlength
  obtain ⟨t, ht, hkept⟩ := hlast (.tipPass sampleEnv) 1 (by decide +kernel)
  obtain ⟨u, hu, hgone⟩ := hlast (.reorg 100 0) 0 (by decide +kernel)
  refine ⟨s, hs, hstates, ⟨t, ht, hkept, ?_⟩, u, hu, hgone, ?_⟩
  · exact claims_accounted _ _ _ _ _ _ _ _ _ confirmedClaimSteps _ s t (hcond _ (.inl rfl)) hs ht
  · exact claims_accounted _ _ _ _ _ _ _ _ _ confirmedClaimSteps _ s u (hcond _ (.inr rfl)) hs hu

/-- A claim of the name for another address, which this process did not send, confirms first. -/
def foreignClaim : Step :=
  .block ⟨[claimTx 11 (.claim alice (sampleUa 2) .never) 0 50 60 141], 20, [], []⟩

/-- The next pass drops the paid order, and no refund is queued. -/
theorem claims_accounted_foreignClaim :
    ∃ s t, run (Live.step Params.sample sampleKeys) pricedBoot (paidClaimSteps ++ [foreignClaim]) =
      some s ∧
      s.step Params.sample sampleKeys (.tipPass sampleEnv) = some t ∧
      ¬ ∀ o ∈ s.nameNotes.orders, o.note.action = .claim →
        Accounted Params.sample o (.tipPass sampleEnv) t := by
  have hbefore : (run (Live.step Params.sample sampleKeys) pricedBoot
      (paidClaimSteps ++ [foreignClaim])).map (fun s => s.nameNotes.orders) =
        some [⟨.claim alice (sampleUa 1) .never, 101, .authorized, some ⟨sampleTxid 20, 0⟩⟩] := by
    decide +kernel
  have hafter : ((run (Live.step Params.sample sampleKeys) pricedBoot
      (paidClaimSteps ++ [foreignClaim])).bind fun s =>
        s.step Params.sample sampleKeys (.tipPass sampleEnv)).map
      (fun t => (t.nameNotes.orders, t.refunds.refundsDue,
        NameNoteQueue.confirmedBy Params.sample t.registry
        ⟨.claim alice (sampleUa 1) .never, 101, .authorized, some ⟨sampleTxid 20, 0⟩⟩)) =
        some ([], [], false) := by
    decide +kernel
  obtain ⟨s, hs, horders⟩ := Option.map_eq_some_iff.mp hbefore
  rw [hs, Option.bind_some] at hafter
  obtain ⟨t, ht, hafter⟩ := Option.map_eq_some_iff.mp hafter
  obtain ⟨hnone, hdue, hconfirmed⟩ : t.nameNotes.orders = [] ∧ t.refunds.refundsDue = [] ∧ _ := by
    simpa using hafter
  refine ⟨s, t, hs, ht, fun hall => ?_⟩
  rcases hall _ (by rw [horders]; exact List.mem_singleton_self _) rfl with
    ⟨o', ho', -⟩ | hseen | ⟨_, _, hreorg, -⟩ | ⟨r, hr, -⟩
  · rw [hnone] at ho'
    cases ho'
  · rw [hconfirmed] at hseen
    cases hseen
  · cases hreorg
  · rw [hdue] at hr
    cases hr

end ZnsMint.Live
