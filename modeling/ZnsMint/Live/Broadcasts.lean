import ZnsMint.Live.Payments

/-! # Transactions that were sent

The log keeps every Name Note transaction that was sent. One of them is minable while a block above the
tip can still hold it: it is in no block yet, its expiry height is not past (the block at that height is
its last), and what it spends is not spent. The three invariants of this module say what the queue, the
wallet and the payments know of these transactions at every point of a step. -/

namespace ZnsMint

open Basic Note Inbound Registry Lib.Machine

/-- The order as the queue holds it after the broadcast. -/
def Broadcast.sent (bc : Broadcast) : Order := { bc.order with state := .sent bc.expiry }

namespace Live

variable {params : Params} {keys : Keys} {sends : Sends} {s t : Live} {p q : Point}

/-- A block above the tip can hold the transaction. -/
def Minable (s : Live) (bc : Broadcast) : Prop :=
  ¬ s.OnChain bc.txid ∧ s.tip < bc.expiry ∧ ∀ e ∈ s.chain, ∀ tx ∈ e.2.txs, bc.authority ∉ tx.2.nfs

/-- The transaction is past its expiry height, and was never mined. -/
def Lapsed (s : Live) (bc : Broadcast) : Prop := bc.expiry ≤ s.tip ∧ ¬ s.OnChain bc.txid

/-- No broadcast order expires in the very next block, and none that has expired was mined. -/
def Clear (s : Live) : Prop :=
  ∀ bc ∈ broadcasts s.log, bc.sent ∈ s.nameNotes.orders →
    bc.expiry ≠ s.tip + 1 ∧ (bc.expiry ≤ s.tip → ¬ s.OnChain bc.txid)

instance (s : Live) (txid : TxId) : Decidable (s.OnChain txid) :=
  inferInstanceAs (Decidable (∃ e ∈ s.chain, ∃ tx ∈ e.2.txs, tx.1 = txid))

instance (s : Live) (bc : Broadcast) : Decidable (s.Minable bc) :=
  inferInstanceAs (Decidable (¬ s.OnChain bc.txid ∧ s.tip < bc.expiry ∧
    ∀ e ∈ s.chain, ∀ tx ∈ e.2.txs, bc.authority ∉ tx.2.nfs))

instance (s : Live) : Decidable s.Clear :=
  inferInstanceAs (Decidable (∀ bc ∈ broadcasts s.log, bc.sent ∈ s.nameNotes.orders →
    bc.expiry ≠ s.tip + 1 ∧ (bc.expiry ≤ s.tip → ¬ s.OnChain bc.txid)))

theorem SameTip.onChain (h : SameTip s t) (txid : TxId) : t.OnChain txid ↔ s.OnChain txid := by
  unfold OnChain
  rw [h.chain]

theorem SameTip.minable (h : SameTip s t) (bc : Broadcast) : t.Minable bc ↔ s.Minable bc := by
  unfold Minable
  rw [h.onChain, h.tip, h.chain]

theorem SameTip.lapsed (h : SameTip s t) (bc : Broadcast) : t.Lapsed bc ↔ s.Lapsed bc := by
  unfold Lapsed
  rw [h.onChain, h.tip]

theorem broadcasts_sent (s : Live) (looked on : Order) (bc : Broadcast) :
    broadcasts ((s.record (.acted looked on)).record (.broadcast bc)).log = broadcasts s.log ++ [bc] := by
  simp [Live.record, broadcasts]

/-! ### The queue -/

/-- What the queue knows of the broadcasts. -/
structure QueueKnows (p : Point) : Prop where
  alive : ∀ bc ∈ broadcasts p.state.log, p.state.Minable bc → bc.sent ∈ p.state.nameNotes.orders
  source : ∀ o ∈ p.state.nameNotes.orders, ∀ expiry, o.state = .sent expiry →
    ∃ bc ∈ broadcasts p.state.log, bc.sent = o
  current : ∀ bc ∈ broadcasts p.state.log, p.state.Minable bc → bc.order.note.action = .claim ∨
    ∃ e, p.state.registry.record bc.order.note.name = some e ∧
      bc.order.note.prevRcm = some e.commitment ∧ bc.authority = e.predecessorNullifier
  replaced : (broadcasts p.state.log).Pairwise fun bc bc' =>
    bc.order.note.name = bc'.order.note.name → ¬ p.state.Minable bc

/-- A move that broadcasts nothing, and keeps the orders whose transaction is minable. -/
theorem QueueKnows.frame (h : QueueKnows p) (hst : SameTip p.state q.state)
    (hlog : broadcasts q.state.log = broadcasts p.state.log)
    (hkeep : ∀ bc ∈ broadcasts p.state.log, p.state.Minable bc → bc.sent ∈ p.state.nameNotes.orders →
      bc.sent ∈ q.state.nameNotes.orders)
    (hsource : ∀ o ∈ q.state.nameNotes.orders, ∀ expiry, o.state = .sent expiry →
      o ∈ p.state.nameNotes.orders) : QueueKnows q where
  alive bc hbc hmin := by
    rw [hlog] at hbc
    rw [hst.minable] at hmin
    exact hkeep bc hbc hmin (h.alive bc hbc hmin)
  source o ho expiry hstate := by
    rw [hlog]
    exact h.source o (hsource o ho expiry hstate) expiry hstate
  current bc hbc hmin := by
    rw [hlog] at hbc
    rw [hst.minable] at hmin
    rw [hst.registry.record]
    exact h.current bc hbc hmin
  replaced := by
    rw [hlog]
    refine h.replaced.imp fun hpair hname => ?_
    rw [hst.minable]
    exact hpair hname

/-- A broadcast is sent for an order that has no minable transaction. -/
theorem QueueKnows.send {s : Live} {hand : List Held} {looked : Order} {looking : List Order}
    {M : NameNote → ℕ → ℕ → Prop} (h : QueueKnows ⟨s, hand, looked :: looking, true⟩)
    (horderly : Orderly M ⟨s, hand, looked :: looking, true⟩) {on : Order} {l₁ l₂ : List Order}
    {txid : TxId} {nf : Nullifier} {expiry : ℕ} (horders : s.nameNotes.orders = l₁ ++ on :: l₂)
    (hon : NameNoteQueue.isAuthorizedFor looked.note.name on = true) (hauthority : s.Authority looked nf)
    (hst : SameTip s t) (hnotes : t.nameNotes = ⟨l₁ ++ { on with state := .sent expiry } :: l₂⟩)
    (hlog : broadcasts t.log = broadcasts s.log ++ [⟨txid, looked, nf, expiry, s.tip⟩]) :
    QueueKnows ⟨t, hand, looking, true⟩ := by
  obtain ⟨hauth, hname⟩ := isAuthorizedFor_iff.mp hon
  have hunseen : on.state ≠ .seen := by simp [hauth]
  obtain ⟨rfl, -⟩ := horderly.on_eq horders hunseen hname
  have hmem := mem_of_split horders
  -- a minable transaction of this name would have a broadcast order beside the authorized one
  have hdead : ∀ bc ∈ broadcasts s.log, bc.order.note.name = on.note.name → ¬ s.Minable bc := by
    intro bc hbc hbcname hmin
    have hsent := h.alive bc hbc hmin
    have heq := horderly.unique hsent hmem (by simp [Broadcast.sent]) hunseen hbcname
    rw [← heq] at hauth
    cases hauth
  refine ⟨fun bc hbc hmin => ?_, fun o ho e hstate => ?_, fun bc hbc hmin => ?_, ?_⟩
  · simp only [hlog, List.mem_append, List.mem_singleton] at hbc
    rw [hst.minable] at hmin
    simp only [hnotes, List.mem_append, List.mem_cons]
    rcases hbc with hbc | rfl
    · have hne : bc.sent ≠ on := by
        rintro rfl
        cases hauth
      have hleft := mem_left_of_split horders (h.alive bc hbc hmin) hne
      exact (List.mem_append.mp hleft).imp_right Or.inr
    · exact Or.inr (Or.inl rfl)
  · simp only [hnotes] at ho
    simp only [hlog, List.mem_append, List.mem_singleton]
    rcases mem_replaced ho with rfl | ho
    · exact ⟨_, Or.inr rfl, rfl⟩
    · obtain ⟨bc, hbc, heq⟩ := h.source o (horders ▸ ho) e hstate
      exact ⟨bc, Or.inl hbc, heq⟩
  · simp only [hlog, List.mem_append, List.mem_singleton] at hbc
    rw [hst.minable] at hmin
    rw [hst.registry.record]
    rcases hbc with hbc | rfl
    · exact h.current bc hbc hmin
    · rcases hauthority with ⟨hclaim, -⟩ | ⟨e, he, hprev, hnf⟩
      · exact Or.inl hclaim
      · exact Or.inr ⟨e, he, hprev, hnf⟩
  · simp only [hlog]
    refine List.pairwise_append.mpr ⟨?_, List.pairwise_singleton _ _, fun bc hbc bc' hbc' hbcname => ?_⟩
    · refine h.replaced.imp fun hpair hpname => ?_
      rw [hst.minable]
      exact hpair hpname
    · rw [List.mem_singleton.mp hbc'] at hbcname
      rw [hst.minable]
      exact hdead bc hbc hbcname

theorem QueueKnows.move {M : NameNote → ℕ → ℕ → Prop} (h : QueueKnows p) (horderly : Orderly M p)
    (hclear : p.expired = false → q.expired = true → p.state.Clear) (hm : Move params sends p q) :
    QueueKnows q := by
  have hst := hm.sameTip
  cases hm with
  | market | rates | keep | record | refund | challenge | relay | thin | look | skip =>
    exact h.frame hst rfl (fun _ _ _ hsent => hsent) (fun _ ho _ _ => ho)
  | authorize | pay =>
    exact h.frame hst (by simp [Live.record, broadcasts]) (fun _ _ _ hsent => hsent) (fun _ ho _ _ => ho)
  | lost txid e hlost he =>
    exact h.frame hst (broadcasts_lost he) (fun _ _ _ hsent => hsent) (fun _ ho _ _ => ho)
  | claim | transition =>
    refine h.frame hst rfl (fun _ _ _ hsent => List.mem_append_left _ hsent)
      (fun o ho expiry hstate => ?_)
    rcases List.mem_append.mp ho with ho | ho
    · exact ho
    · rw [List.mem_singleton.mp ho] at hstate
      cases hstate
  | expireSent =>
    refine h.frame hst rfl (fun bc hbc hmin hsent => ?_) (fun o ho expiry hstate => ?_)
    · have hnext := (hclear rfl rfl bc hbc hsent).1
      have hlt := hmin.2.1
      refine List.mem_map.mpr ⟨bc.sent, hsent, ?_⟩
      exact if_neg (by dsimp only at hnext hlt; omega)
    · obtain ⟨o', ho', rfl⟩ := List.mem_map.mp ho
      rw [expireOrder_of_sent hstate]
      exact ho'
  | drop on l₁ l₂ horders hon hfirst hreason =>
    obtain ⟨hunseen, hname⟩ := isUnresolvedFor_iff.mp hon
    obtain ⟨heq, -⟩ := horderly.on_eq horders hunseen hname
    have hauth := (horderly.looked _ (List.mem_cons_self ..)).2
    rw [← heq] at hauth
    refine h.frame hst (by simp [Live.record, broadcasts]) (fun bc hbc hmin hsent => ?_)
      (fun o ho _ _ => ?_)
    · refine mem_left_of_split horders hsent ?_
      rintro rfl
      cases hauth
    · exact (sublist_of_split horders).subset ho
  | send on l₁ l₂ txid nf expiry hbuilt hexpiry horders hon hfirst hauthority hspendable =>
    exact h.send horderly horders hon hauthority hst rfl (broadcasts_sent ..)

/-! ### The wallet -/

/-- What the wallet knows of the broadcasts. A transaction the pass builds that has the id of an earlier
one has its expiry too. -/
structure WalletKnows (params : Params) (sends : Sends) (p : Point) : Prop where
  known : ∀ bc ∈ broadcasts p.state.log, 0 < bc.expiry ∧
    p.state.wallet.transactions bc.txid = some bc.expiry ∧ (p.state.wallet.statuses bc.txid).isSome = true
  mined : ∀ txid, p.state.wallet.isMined txid = true ↔ p.state.OnChain txid
  commits : ∀ note txid, sends.built note = some txid → ∀ bc ∈ broadcasts p.state.log, bc.txid = txid →
    bc.expiry = p.state.tip + 1 + params.txExpiryDelta (p.state.tip + 1)

theorem WalletKnows.frame (h : WalletKnows params sends p) (hst : SameTip p.state q.state)
    (hwallet : q.state.wallet = p.state.wallet)
    (hlog : broadcasts q.state.log = broadcasts p.state.log) : WalletKnows params sends q where
  known := by
    rw [hlog, hwallet]
    exact h.known
  mined txid := by
    rw [hwallet, hst.onChain]
    exact h.mined txid
  commits := by
    rw [hlog, hst.tip]
    exact h.commits

theorem WalletKnows.send {s : Live} {hand : List Held} {looked : Order} {looking : List Order} {b : Bool}
    (h : WalletKnows params sends ⟨s, hand, looked :: looking, b⟩) {txid : TxId}
    {nf : Nullifier} {expiry : ℕ}
    (hbuilt : sends.built looked.note = some txid)
    (hexpiry : expiry = s.tip + 1 + params.txExpiryDelta (s.tip + 1)) (hst : SameTip s t)
    (hwallet : t.wallet = s.wallet.recordSent txid expiry nf)
    (hlog : broadcasts t.log = broadcasts s.log ++ [⟨txid, looked, nf, expiry, s.tip⟩]) :
    WalletKnows params sends ⟨t, hand, looking, b⟩ := by
  refine ⟨fun bc hbc => ?_, fun txid' => ?_, fun note txid' hnote bc hbc hid => ?_⟩
  · simp only [hlog, List.mem_append, List.mem_singleton] at hbc
    simp only [hwallet, RegistryWallet.recordSent, RegistryWallet.spend]
    rcases hbc with hbc | rfl
    · obtain ⟨hpos, htx, hstatus⟩ := h.known bc hbc
      by_cases hid : bc.txid = txid
      · have hsame := h.commits _ _ hbuilt bc hbc hid
        simp [hid, hsame, hexpiry]
      · rw [Function.update_of_ne hid, Function.update_of_ne hid]
        exact ⟨hpos, htx, hstatus⟩
    · simp [hexpiry]
  · simp only [hwallet, RegistryWallet.isMined_recordSent]
    rw [hst.onChain]
    exact h.mined txid'
  · simp only [hlog, List.mem_append, List.mem_singleton] at hbc
    simp only [hst.tip]
    rcases hbc with hbc | rfl
    · exact h.commits note txid' hnote bc hbc hid
    · exact hexpiry

theorem WalletKnows.move (h : WalletKnows params sends p) (hm : Move params sends p q) :
    WalletKnows params sends q := by
  have hst := hm.sameTip
  cases hm with
  | market | rates | keep | record | refund | claim | transition | challenge | relay | thin | expireSent
  | look | skip => exact h.frame hst rfl rfl
  | authorize | drop | pay => exact h.frame hst rfl (by simp [Live.record, broadcasts])
  | lost txid e hlost he => exact h.frame hst rfl (broadcasts_lost he)
  | send on l₁ l₂ txid nf expiry hbuilt hexpiry horders hon hfirst hauthority hspendable =>
    exact h.send hbuilt hexpiry hst rfl (broadcasts_sent ..)

/-! ### The payments -/

/-- No two orders are made of one payment, and a transaction of an order is its last one, or the order is
confirmed, or the transaction has lapsed. -/
structure ClaimsOnce (p : Point) : Prop where
  single : (p.state.nameNotes.orders.filterMap Order.payment).Nodup
  sent : ∀ o ∈ p.state.nameNotes.orders, ∀ x, o.payment = some x → ∀ bc ∈ broadcasts p.state.log,
    bc.order.payment = some x → bc.sent = o ∨ o.state = .seen ∨ p.state.Lapsed bc
  replaced : (broadcasts p.state.log).Pairwise fun bc bc' =>
    ∀ x, bc.order.payment = some x → bc'.order.payment = some x → p.state.Lapsed bc

theorem ClaimsOnce.frame (h : ClaimsOnce p) (hst : SameTip p.state q.state)
    (hlog : broadcasts q.state.log = broadcasts p.state.log)
    (hsingle : (q.state.nameNotes.orders.filterMap Order.payment).Nodup)
    (hsent : ∀ o ∈ q.state.nameNotes.orders, ∀ x, o.payment = some x → ∀ bc ∈ broadcasts p.state.log,
      bc.order.payment = some x → bc.sent = o ∨ o.state = .seen ∨ p.state.Lapsed bc) : ClaimsOnce q where
  single := hsingle
  sent o ho x hx bc hbc hbcx := by
    rw [hlog] at hbc
    rw [hst.lapsed]
    exact hsent o ho x hx bc hbc hbcx
  replaced := by
    rw [hlog]
    refine h.replaced.imp fun hpair x hx hx' => ?_
    rw [hst.lapsed]
    exact hpair x hx hx'

theorem ClaimsOnce.claim {s : Live} {held : Held} {hand : List Held} {looking : List Order} {b : Bool}
    (h : ClaimsOnce ⟨s, held :: hand, looking, b⟩) (hpayments : PaymentsInv ⟨s, held :: hand, looking, b⟩)
    (note : NameNote) (hst : SameTip s t) (hlog : t.log = s.log)
    (hnotes : t.nameNotes =
      ⟨s.nameNotes.orders ++ [⟨note, held.height, .authorized, some held.payment⟩]⟩) :
    ClaimsOnce ⟨t, hand, looking, b⟩ := by
  have hfresh : ¬ Claimed ⟨s, held :: hand, looking, b⟩ held.payment :=
    fun hclaimed => hpayments.apart _ hclaimed (List.mem_cons_self ..)
  refine h.frame hst (by rw [hlog]) ?_ fun o ho x hx bc hbc hbcx => ?_
  · simp only [hnotes, List.filterMap_append]
    refine h.single.append (List.nodup_singleton _) fun x hx hx' => ?_
    obtain ⟨o, ho, heq⟩ := List.mem_filterMap.mp hx
    rw [show x = held.payment by simpa using hx'] at heq
    exact hfresh (Or.inl ⟨o, ho, heq⟩)
  · simp only [hnotes, List.mem_append, List.mem_singleton] at ho
    rcases ho with ho | rfl
    · exact h.sent o ho x hx bc hbc hbcx
    · cases hx
      exact (hfresh (Or.inr (Or.inr ⟨bc, hbc, hbcx⟩))).elim

theorem ClaimsOnce.expireSent {s : Live} {hand : List Held} {looking : List Order}
    (h : ClaimsOnce ⟨s, hand, looking, false⟩) (hclear : s.Clear) (hst : SameTip s t)
    (hlog : t.log = s.log)
    (hnotes : t.nameNotes = s.nameNotes.expireSent s.tip) : ClaimsOnce ⟨t, hand, looking, true⟩ := by
  refine h.frame hst (by rw [hlog]) ?_ fun o ho x hx bc hbc hbcx => ?_
  · simp only [hnotes, NameNoteQueue.expireSent, List.filterMap_map]
    simpa [Function.comp_def] using h.single
  · simp only [hnotes] at ho
    obtain ⟨o', ho', rfl⟩ := List.mem_map.mp ho
    rw [expireOrder_payment] at hx
    rcases h.sent o' ho' x hx bc hbc hbcx with rfl | hseen | hlapsed
    · obtain ⟨hnext, hmined⟩ := hclear bc hbc ho'
      by_cases hle : bc.expiry ≤ s.tip + 1
      · have hlt : bc.expiry ≤ s.tip := by omega
        exact Or.inr (Or.inr ⟨hlt, hmined hlt⟩)
      · exact Or.inl (if_neg hle).symm
    · exact Or.inr (Or.inl (expireOrder_seen.mpr hseen))
    · exact Or.inr (Or.inr hlapsed)

theorem ClaimsOnce.send {s : Live} {hand : List Held} {looked : Order} {looking : List Order}
    {M : NameNote → ℕ → ℕ → Prop} (h : ClaimsOnce ⟨s, hand, looked :: looking, true⟩)
    (horderly : Orderly M ⟨s, hand, looked :: looking, true⟩) {on : Order} {l₁ l₂ : List Order}
    {txid : TxId} {nf : Nullifier} {expiry : ℕ} (horders : s.nameNotes.orders = l₁ ++ on :: l₂)
    (hon : NameNoteQueue.isAuthorizedFor looked.note.name on = true) (hst : SameTip s t)
    (hnotes : t.nameNotes = ⟨l₁ ++ { on with state := .sent expiry } :: l₂⟩)
    (hlog : broadcasts t.log = broadcasts s.log ++ [⟨txid, looked, nf, expiry, s.tip⟩]) :
    ClaimsOnce ⟨t, hand, looking, true⟩ := by
  obtain ⟨hauth, hname⟩ := isAuthorizedFor_iff.mp hon
  obtain ⟨rfl, -⟩ := horderly.on_eq horders (by simp [hauth]) hname
  have hmem := mem_of_split horders
  -- whatever was sent of this payment before has lapsed, since the order is authorized
  have hlapsed : ∀ x, on.payment = some x → ∀ bc ∈ broadcasts s.log, bc.order.payment = some x →
      s.Lapsed bc := by
    intro x hx bc hbc hbcx
    rcases h.sent on hmem x hx bc hbc hbcx with heq | hseen | hlapsed
    · rw [← heq] at hauth
      cases hauth
    · rw [hauth] at hseen
      cases hseen
    · exact hlapsed
  have hsingle : ((l₁ ++ on :: l₂).filterMap Order.payment).Nodup := horders ▸ h.single
  refine ⟨?_, fun o ho x hx bc hbc hbcx => ?_, ?_⟩
  · simp only [hnotes]
    simpa [List.filterMap_cons] using hsingle
  · simp only [hnotes] at ho
    simp only [hlog, List.mem_append, List.mem_singleton] at hbc
    rw [hst.lapsed]
    simp only [List.mem_append, List.mem_cons] at ho
    by_cases hself : o = { on with state := .sent expiry }
    · subst hself
      rcases hbc with hbc | rfl
      · exact Or.inr (Or.inr (hlapsed x hx bc hbc hbcx))
      · exact Or.inl rfl
    · have hother : o ∈ l₁ ++ l₂ := by
        simp only [hself, false_or] at ho
        exact List.mem_append.mpr ho
      have ho := (sublist_of_split horders).subset hother
      rcases hbc with hbc | rfl
      · exact h.sent o ho x hx bc hbc hbcx
      · -- two orders of one payment
        have hbcx : on.payment = some x := hbcx
        simp only [List.filterMap_append, List.filterMap_cons, hbcx, List.nodup_middle, List.nodup_cons,
          List.mem_append, List.mem_filterMap, not_or] at hsingle
        rcases List.mem_append.mp hother with ho | ho
        · exact (hsingle.1.1 ⟨o, ho, hx⟩).elim
        · exact (hsingle.1.2 ⟨o, ho, hx⟩).elim
  · simp only [hlog]
    refine List.pairwise_append.mpr ⟨?_, List.pairwise_singleton _ _, fun bc hbc bc' hbc' x hx hx' => ?_⟩
    · refine h.replaced.imp fun hpair x hx hx' => ?_
      rw [hst.lapsed]
      exact hpair x hx hx'
    · rw [List.mem_singleton.mp hbc'] at hx'
      rw [hst.lapsed]
      exact hlapsed x hx' bc hbc hx

theorem ClaimsOnce.move {M : NameNote → ℕ → ℕ → Prop} (h : ClaimsOnce p) (horderly : Orderly M p)
    (hpayments : PaymentsInv p) (hclear : p.expired = false → q.expired = true → p.state.Clear)
    (hm : Move params sends p q) : ClaimsOnce q := by
  have hst := hm.sameTip
  cases hm with
  | market | rates | keep | record | refund | challenge | relay | thin | look | skip =>
    exact h.frame hst rfl h.single h.sent
  | authorize | pay => exact h.frame hst (by simp [Live.record, broadcasts]) h.single h.sent
  | lost txid e hlost he => exact h.frame hst (broadcasts_lost he) h.single h.sent
  | claim note hclaim hname hfree hpending => exact h.claim hpayments note hst rfl rfl
  | transition note e hrecord hprev hpending =>
    refine h.frame hst rfl ?_ fun o ho x hx bc hbc hbcx => ?_
    · simpa using h.single
    · rcases List.mem_append.mp ho with ho | ho
      · exact h.sent o ho x hx bc hbc hbcx
      · rw [List.mem_singleton.mp ho] at hx
        cases hx
  | expireSent => exact h.expireSent (hclear rfl rfl) hst rfl rfl
  | drop on l₁ l₂ horders hon hfirst hreason =>
    have hsub := sublist_of_split horders
    exact h.frame hst (by simp [Live.record, broadcasts]) (h.single.sublist (hsub.filterMap _))
      fun o ho => h.sent o (hsub.subset ho)
  | send on l₁ l₂ txid nf expiry hbuilt hexpiry horders hon hfirst hauthority hspendable =>
    exact h.send horderly horders hon hst rfl (broadcasts_sent ..)

end Live

end ZnsMint
