import ZnsMint.Live.Broadcasts

/-! # When a broadcast is dead

Three rules compare a tip with an expiry height: `expire_sent` of the queue, and the wallet's
`expired_unmined_at` and `unmined_spend_still_blocks`. A block at the expiry height may still hold the
transaction. The wallet's rules wait for that block and the queue's does not: `expire_sent` at the tip
below it lets the order be signed again, beside a transaction that can still be mined. -/

namespace ZnsMint.Live

open Basic Note Inbound Registry Lib.Machine

variable {params : Params} {keys : Keys} {sends : Sends} {s t : Live} {p q : Point}
  {bc : Broadcast} {b : Block}

/-- The queue and the wallet's two rules agree at the applied tip on the transaction of a broadcast order,
and the queue gives it up only when it is past the last block that could hold it. -/
structure ExpiryAgrees (s : Live) (bc : Broadcast) : Prop where
  expired : (NameNoteQueue.expireOrder s.tip bc.sent).state = .authorized ↔
    s.wallet.expiredUnminedAt bc.txid s.tip = true
  unblocked : (NameNoteQueue.expireOrder s.tip bc.sent).state = .authorized ↔
    s.wallet.spendConfirmsOrBlocks bc.txid (s.tip + 1) = false
  unminable : (NameNoteQueue.expireOrder s.tip bc.sent).state = .authorized →
    ∀ height, s.tip < height → bc.expiry < height

/-- There is no reorg. A block holds a broadcast transaction only while it is minable, pays each output
once, and confirms the note of a broadcast order by its own transaction. At a pass no broadcast order
expires in the very next block, none that has expired was mined, what the pass builds has the id of
no transaction with another expiry, and the loop hears of what the node takes. -/
def ExpiryClear (params : Params) (s : Live) : Step → Prop
  | .block b => PaymentsFresh s (.block b) ∧ ∀ bc ∈ broadcasts s.log,
      (∀ tx ∈ b.txs, tx.1 = bc.txid → s.Minable bc) ∧
        (bc.sent ∈ s.nameNotes.orders →
          NameNoteQueue.confirmedBy params (s.applyBlock params b).registry bc.sent = true →
          ¬ (s.applyBlock params b).Minable bc)
  | .tipPass env => env.Heard ∧ s.Clear ∧ ∀ note txid, env.prepared note = some txid →
    ∀ bc ∈ broadcasts s.log,
      bc.txid = txid → bc.expiry = s.tip + 1 + params.txExpiryDelta (s.tip + 1)
  | .skipped _ => True
  | .reorg rewound _ => s.tip ≤ rewound

instance (params : Params) (s : Live) (b : Block) : Decidable (ExpiryClear params s (.block b)) :=
  inferInstanceAs (Decidable (PaymentsFresh s (.block b) ∧ ∀ bc ∈ broadcasts s.log,
    (∀ tx ∈ b.txs, tx.1 = bc.txid → s.Minable bc) ∧
      (bc.sent ∈ s.nameNotes.orders →
        NameNoteQueue.confirmedBy params (s.applyBlock params b).registry bc.sent = true →
        ¬ (s.applyBlock params b).Minable bc)))

/-! ### The three rules -/

theorem expireOrder_sent_iff (tip : ℕ) (bc : Broadcast) :
    (NameNoteQueue.expireOrder tip bc.sent).state = .authorized ↔ bc.expiry ≤ tip + 1 := by
  show (if bc.expiry ≤ tip + 1 then _ else bc.sent).state = _ ↔ _
  split_ifs with h
  · simp [h]
  · simp [h, Broadcast.sent]

/-- The rules agree but for the last block, and for a transaction that was mined and did not confirm its
order. -/
theorem expiryAgrees_iff {hand : List Held} {looking : List Order} {e : Bool}
    (h : WalletKnows params sends ⟨s, hand, looking, e⟩) (hbc : bc ∈ broadcasts s.log) :
    s.ExpiryAgrees bc ↔ bc.expiry ≠ s.tip + 1 ∧ (bc.expiry ≤ s.tip → ¬ s.OnChain bc.txid) := by
  obtain ⟨hpos, htx, hstatus⟩ := h.known bc hbc
  have hmined : s.wallet.isMined bc.txid = false ↔ ¬ s.OnChain bc.txid := by
    rw [← h.mined bc.txid]
    simp
  have hqueue := expireOrder_sent_iff s.tip bc
  have hexpired : s.wallet.expiredUnminedAt bc.txid s.tip = true ↔ ¬ s.OnChain bc.txid ∧
      bc.expiry ≤ s.tip := by
    rw [RegistryWallet.expiredUnminedAt_iff htx hpos, hmined]
  have hblocks : s.wallet.spendConfirmsOrBlocks bc.txid (s.tip + 1) = false ↔
      ¬ s.OnChain bc.txid ∧ bc.expiry < s.tip + 1 := by
    rw [RegistryWallet.spendConfirmsOrBlocks_eq_false_iff htx hpos hstatus, hmined]
  constructor
  · rintro ⟨hagree, -, -⟩
    rw [hqueue, hexpired] at hagree
    refine ⟨fun hnext => ?_, fun hle => ?_⟩
    · have := (hagree.mp (by omega)).2
      omega
    · exact (hagree.mp (by omega)).1
  · rintro ⟨hnext, hdead⟩
    refine ⟨?_, ?_, ?_⟩
    · rw [hqueue, hexpired]
      exact ⟨fun hle => ⟨hdead (by omega), by omega⟩, fun hboth => by omega⟩
    · rw [hqueue, hblocks]
      exact ⟨fun hle => ⟨hdead (by omega), by omega⟩, fun hboth => by omega⟩
    · rw [hqueue]
      intro hle height hheight
      omega

/-! ### A block -/

theorem onChain_applyBlock (params : Params) (s : Live) (b : Block) (txid : TxId) :
    (s.applyBlock params b).OnChain txid ↔ s.OnChain txid ∨ ∃ tx ∈ b.txs, tx.1 = txid := by
  show (∃ e ∈ s.chain ++ [(s.tip + 1, b)], ∃ tx ∈ e.2.txs, tx.1 = txid) ↔ _
  constructor
  · rintro ⟨e, he, htx⟩
    rcases List.mem_append.mp he with he | he
    · exact Or.inl ⟨e, he, htx⟩
    · rw [List.mem_singleton.mp he] at htx
      exact Or.inr htx
  · rintro (⟨e, he, htx⟩ | htx)
    · exact ⟨e, List.mem_append_left _ he, htx⟩
    · exact ⟨_, List.mem_append_right _ (List.mem_singleton_self _), htx⟩

/-- What is minable after a block was so before, and the block spends nothing of it. -/
theorem Minable.of_applyBlock (h : (s.applyBlock params b).Minable bc) :
    s.Minable bc ∧ ∀ tx ∈ b.txs, bc.authority ∉ tx.2.nfs := by
  obtain ⟨hchain, htip, hspent⟩ := h
  rw [onChain_applyBlock] at hchain
  refine ⟨⟨fun hon => hchain (Or.inl hon), ?_, fun e he => hspent e (List.mem_append_left _ he)⟩, ?_⟩
  · have : s.tip + 1 < bc.expiry := htip
    omega
  · exact hspent _ (List.mem_append_right _ (List.mem_singleton_self _))

theorem Lapsed.applyBlock (h : s.Lapsed bc) (hmined : ∀ tx ∈ b.txs, tx.1 = bc.txid → s.Minable bc) :
    (s.applyBlock params b).Lapsed bc := by
  obtain ⟨hle, hchain⟩ := h
  refine ⟨hle.trans (Nat.le_succ _), fun hon => ?_⟩
  rcases (onChain_applyBlock params s b bc.txid).mp hon with hon | ⟨tx, htx, hid⟩
  · exact hchain hon
  · have := (hmined tx htx hid).2.1
    omega

theorem wallet_applyBlock (params : Params) (s : Live) (b : Block) :
    (s.applyBlock params b).wallet.transactions = s.wallet.transactions ∧
      ∀ txid, (s.applyBlock params b).wallet.statuses txid =
        if ∃ tx ∈ b.txs, tx.1 = txid then some (.mined (s.tip + 1)) else s.wallet.statuses txid := by
  obtain ⟨htxs, hstatuses⟩ := RegistryWallet.storeNameNotes_keep
    (acceptedNotes params (s.tip + 1) b.mtp s.registry b.txs) (s.wallet.putBlock b.txs (s.tip + 1))
  refine ⟨htxs.trans (RegistryWallet.transactions_putBlock ..), fun txid => ?_⟩
  exact (congrFun hstatuses txid).trans (RegistryWallet.statuses_putBlock ..)

/-- The wallet follows the chain. -/
theorem isMined_applyBlock (h : ∀ txid, s.wallet.isMined txid = true ↔ s.OnChain txid) (txid : TxId) :
    (s.applyBlock params b).wallet.isMined txid = true ↔ (s.applyBlock params b).OnChain txid := by
  rw [onChain_applyBlock, ← h txid]
  unfold RegistryWallet.isMined
  rw [(wallet_applyBlock params s b).2 txid]
  split_ifs with hmined
  · simp [hmined]
  · simp [hmined]

theorem WalletKnows.applyBlock {hand hand' : List Held}
    (h : WalletKnows params sends ⟨s, hand, [], false⟩) :
    WalletKnows params .nothing
      ⟨(s.applyBlock params b).meetBlock params, hand', [], false⟩ where
  known bc hbc := by
    obtain ⟨hpos, htx, hstatus⟩ := h.known bc hbc
    obtain ⟨htxs, hstatuses⟩ := wallet_applyBlock params s b
    refine ⟨hpos, (congrFun htxs bc.txid).trans htx, ?_⟩
    show ((s.applyBlock params b).wallet.statuses bc.txid).isSome = true
    rw [hstatuses]
    split_ifs
    · rfl
    · exact hstatus
  mined txid := by
    rw [(sameTip_meetBlock params (s.applyBlock params b)).onChain]
    exact isMined_applyBlock h.mined txid
  commits note txid hbuilt := by cases hbuilt

/-- A broadcast order whose transaction stays minable stays in the queue. -/
theorem QueueKnows.applyBlock {hand hand' : List Held} (h : QueueKnows ⟨s, hand, [], false⟩)
    (hground : s.Grounded) (hclear : ExpiryClear params s (.block b)) :
    QueueKnows ⟨(s.applyBlock params b).meetBlock params, hand', [], false⟩ := by
  have hst := sameTip_meetBlock params (s.applyBlock params b)
  have hcurrent : ∀ bc ∈ broadcasts s.log, (s.applyBlock params b).Minable bc →
      bc.order.note.action = .claim ∨ ∃ e, (s.applyBlock params b).registry.record bc.order.note.name =
        some e ∧
        bc.order.note.prevRcm = some e.commitment ∧ bc.authority = e.predecessorNullifier := by
    intro bc hbc hmin
    obtain ⟨hold, hspent⟩ := hmin.of_applyBlock
    rcases h.current bc hbc hold with hclaim | ⟨e, he, hprev, hnf⟩
    · exact Or.inl hclaim
    · refine Or.inr ⟨e, record_confirmBlock_kept hground.keyed he fun tx htx => ?_, hprev, hnf⟩
      obtain ⟨tx', htx', rfl⟩ := List.mem_map.mp htx
      exact hnf ▸ hspent tx' htx'
  refine ⟨fun bc hbc hmin => ?_, fun o ho expiry hstate => ?_, fun bc hbc hmin => ?_, ?_⟩
  · rw [hst.minable] at hmin
    have hsent := h.alive bc hbc hmin.of_applyBlock.1
    have hunseen : NameNoteQueue.seeOne params (s.applyBlock params b).registry bc.sent = bc.sent :=
      if_neg fun hconf => (hclear.2 bc hbc).2 hsent hconf hmin
    refine mem_reconcileSeen.mpr ⟨bc.sent, hsent, hunseen, ?_⟩
    unfold NameNoteQueue.keepsName
    rcases hcurrent bc hbc hmin with hclaim | ⟨e, he, hprev, -⟩
    · simp [Broadcast.sent, Action.isClaim, hclaim]
    · simp [Broadcast.sent, he, hprev]
  · obtain ⟨o', ho', rfl, -⟩ := mem_reconcileSeen.mp ho
    have hself : NameNoteQueue.seeOne params (s.applyBlock params b).registry o' = o' := by
      unfold NameNoteQueue.seeOne at hstate ⊢
      split_ifs at hstate with hconf
      exact if_neg hconf
    rw [hself] at hstate ⊢
    exact h.source o' ho' expiry hstate
  · rw [hst.minable] at hmin
    rw [hst.registry.record]
    exact hcurrent bc hbc hmin
  · refine h.replaced.imp fun hpair hname hmin => ?_
    rw [hst.minable] at hmin
    exact hpair hname hmin.of_applyBlock.1

theorem ClaimsOnce.applyBlock {hand hand' : List Held} (h : ClaimsOnce ⟨s, hand, [], false⟩)
    (hclear : ExpiryClear params s (.block b)) :
    ClaimsOnce ⟨(s.applyBlock params b).meetBlock params, hand', [], false⟩ := by
  have hst := sameTip_meetBlock params (s.applyBlock params b)
  have hlapsed : ∀ bc ∈ broadcasts s.log, s.Lapsed bc →
      ((s.applyBlock params b).meetBlock params).Lapsed bc := by
    intro bc hbc hlapsed
    rw [hst.lapsed]
    exact hlapsed.applyBlock (hclear.2 bc hbc).1
  refine ⟨?_, fun o ho x hx bc hbc hbcx => ?_, ?_⟩
  · have hsub : ((s.nameNotes.reconcileSeen params (s.applyBlock params b).registry).orders.filterMap
        Order.payment).Sublist
        ((s.nameNotes.orders.map (NameNoteQueue.seeOne params (s.applyBlock params b).registry)).filterMap
          Order.payment) :=
      List.filter_sublist.filterMap _
    refine List.Nodup.sublist hsub ?_
    simpa [List.filterMap_map, Function.comp_def] using h.single
  · obtain ⟨o', ho', rfl, -⟩ := mem_reconcileSeen.mp ho
    rw [seeOne_payment] at hx
    rcases h.sent o' ho' x hx bc hbc hbcx with rfl | hseen | hdead
    · unfold NameNoteQueue.seeOne
      split_ifs
      · exact Or.inr (Or.inl rfl)
      · exact Or.inl rfl
    · exact Or.inr (Or.inl (seeOne_seen.mpr (Or.inr hseen)))
    · exact Or.inr (Or.inr (hlapsed bc hbc hdead))
  · refine h.replaced.imp_of_mem fun {bc bc'} hbc _ hpair x hx hx' => ?_
    exact hlapsed bc hbc (hpair x hx hx')

/-! ### Points -/

/-- What holds at every point of a run that meets the condition. -/
structure ExpiryInv (params : Params) (sends : Sends) (p : Point) : Prop where
  grounded : p.state.Grounded
  orderly : Orderly (fun _ _ _ => True) p
  payments : PaymentsInv p
  queue : QueueKnows p
  wallet : WalletKnows params sends p
  claims : ClaimsOnce p

theorem ExpiryInv.move (h : ExpiryInv params sends p)
    (hclear : p.expired = false → q.expired = true → p.state.Clear) (hm : Move params sends p q) :
    ExpiryInv params sends q where
  grounded := h.grounded.sameTip hm.sameTip
  orderly := h.orderly.move hm
  payments := h.payments.move hm
  queue := h.queue.move h.orderly hclear hm
  wallet := h.wallet.move hm
  claims := h.claims.move h.orderly h.payments hclear hm

theorem Move.expired (hm : Move params sends p q) (h : q.expired = false) : p.expired = false := by
  cases hm <;> first | exact h | cases h

/-- Before `expire_sent` a pass sends nothing, so what was clear stays so. -/
theorem Clear.move (h : p.state.Clear) (hm : Move params sends p q) (hq : q.expired = false) :
    q.state.Clear := by
  cases hm with
  | expireSent | look | send => cases hq
  | market | rates | keep | record | refund | challenge | relay | thin | skip => exact h
  | authorize | pay =>
    intro bc hbc
    refine h bc ?_
    simpa [Live.record, broadcasts] using hbc
  | lost txid e hlost he =>
    intro bc hbc
    refine h bc ?_
    rwa [broadcasts_lost he] at hbc
  | claim | transition =>
    intro bc hbc hsent
    refine h bc hbc ?_
    rcases List.mem_append.mp hsent with hsent | hsent
    · exact hsent
    · have hstate := congrArg Order.state (List.mem_singleton.mp hsent)
      cases hstate
  | drop on l₁ l₂ horders hon hfirst hreason =>
    intro bc hbc hsent
    exact h bc (by simpa [Live.record, broadcasts] using hbc) ((sublist_of_split horders).subset hsent)

/-! ### The steps -/

/-- The invariant between two steps. -/
def ExpiryKept (params : Params) (s : Live) : Prop := ExpiryInv params .nothing ⟨s, [], [], false⟩

theorem ExpiryKept.block (h : s.ExpiryKept params) (hclear : ExpiryClear params s (.block b)) :
    (s.block params keys b).ExpiryKept params := by
  refine block_invariant (I := fun p => p.expired = false → ExpiryInv params .nothing p)
    (fun p q hp hm hq => (hp (hm.expired hq)).move (fun _ hq' => ?_) hm) (fun _ => ?_) rfl
  · rw [hq] at hq'
    cases hq'
  · have hst := sameTip_meetBlock params (s.applyBlock params b)
    refine ⟨(h.grounded.applyBlock params b).sameTip hst, ?_, PaymentsKept.arrivals h.payments hclear.1,
      h.queue.applyBlock h.grounded hclear, h.wallet.applyBlock, h.claims.applyBlock hclear⟩
    refine ⟨?_, fun _ _ _ => trivial, fun _ _ _ _ _ _ _ _ _ => trivial, Or.inr rfl, by simp,
      List.Pairwise.nil, h.orderly.acted⟩
    refine List.Pairwise.filter _ (List.pairwise_map.mpr (h.orderly.queued.imp fun hac hname => ?_))
    rw [seeOne_note, seeOne_note] at hname
    exact ⟨seeOne_seen.mpr (Or.inr (hac hname).1), trivial⟩

theorem ExpiryKept.tipPass (h : s.ExpiryKept params) {env : TipEnv}
    (hclear : ExpiryClear params s (.tipPass env)) (ht : s.tipPass params keys env = some t) :
    t.ExpiryKept params := by
  have htaken : ExpiryInv params env.sends s.taken :=
    { grounded := h.grounded
      orderly := ⟨h.orderly.queued, h.orderly.seen, fun _ _ _ _ _ _ _ _ _ =>
        trivial, Or.inr rfl, by simp [taken],
        List.Pairwise.nil, h.orderly.acted⟩
      payments := PaymentsKept.taken h.payments
      queue := ⟨h.queue.alive, h.queue.source, h.queue.current, h.queue.replaced⟩
      wallet := ⟨h.wallet.known, h.wallet.mined, hclear.2.2⟩
      claims := ⟨h.claims.single, h.claims.sent, h.claims.replaced⟩ }
  have hend := tipPass_invariant
    (I := fun p => ExpiryInv params env.sends p ∧ (p.expired = false → p.state.Clear))
    (fun p q hp hm => ⟨hp.1.move (fun hexp _ => hp.2 hexp) hm,
      fun hq => (hp.2 (hm.expired hq)).move hm hq⟩) ht ⟨htaken, fun _ => hclear.2.1⟩
  obtain ⟨hend, -⟩ := hend
  exact
    { grounded := hend.grounded
      orderly := ⟨hend.orderly.queued, hend.orderly.seen, by simp, Or.inr rfl, by simp, List.Pairwise.nil,
        hend.orderly.acted⟩
      payments := ⟨hend.payments.once, hend.payments.apart, hend.payments.held, hend.payments.requests,
        hend.payments.refunds, hend.payments.orders⟩
      queue := ⟨hend.queue.alive, hend.queue.source, hend.queue.current, hend.queue.replaced⟩
      wallet := ⟨hend.wallet.known, hend.wallet.mined, fun _ _ hbuilt => by cases hbuilt⟩
      claims := ⟨hend.claims.single, hend.claims.sent, hend.claims.replaced⟩ }

theorem ExpiryKept.step (h : s.ExpiryKept params) {a : Step} (hclear : ExpiryClear params s a)
    (hstep : s.step params keys a = some t) : t.ExpiryKept params := by
  rcases step_cases hstep with ⟨b, rfl, rfl⟩ | ⟨env, rfl, ht⟩ | ⟨rate, rfl, rfl⟩ |
    ⟨rewound, mtp, rfl, ⟨hlt, rfl⟩ | ⟨-, rfl⟩⟩
  · exact h.block hclear
  · exact h.tipPass hclear ht
  · exact ExpiryInv.move h (fun _ hq => by cases hq) (.rates rate s.marginalFee)
  · have hle : s.tip ≤ rewound := hclear
    omega
  · exact h

theorem expiryKept_boot (params : Params) (origin : ℕ) (mtp : ℤ) (blocks : List Block) (market : Market)
    (listings : NameMap Listing) (rate fee : Zatoshis) :
    (boot params origin mtp blocks market listings rate fee).ExpiryKept params := by
  obtain ⟨-, hnotes, -, -, hlog⟩ := boot_queues params origin mtp blocks market listings rate fee
  have hmined : ∀ txid, (boot params origin mtp blocks market listings rate fee).wallet.isMined txid =
    true ↔
      (boot params origin mtp blocks market listings rate fee).OnChain txid :=
    foldl_invariant (f := Live.applyBlock params)
      (I := fun _ (s : Live) => ∀ txid, s.wallet.isMined txid = true ↔ s.OnChain txid)
      (fun b _ s hs txid => isMined_applyBlock hs txid) blocks _
      (fun txid => by simp [RegistryWallet.isMined, RegistryWallet.new, OnChain])
  refine ⟨grounded_boot .., ?_, paymentsKept_boot .., ?_, ⟨?_, hmined, fun _ _ hbuilt => by cases hbuilt⟩,
    ?_⟩
  · constructor <;> simp [hnotes, hlog, NameNoteQueue.empty]
  · constructor <;> simp [hnotes, hlog, NameNoteQueue.empty, broadcasts]
  · simp [hlog, broadcasts]
  · constructor <;> simp [hnotes, hlog, NameNoteQueue.empty, broadcasts]

/-- **Queue, wallet and consensus on a dead broadcast.** In every run that meets the condition, every
broadcast order has its transaction, on which the three rules agree exactly where the next tip pass would
meet the condition; of what the node took, no name has two minable transactions, and no two transactions
made of one payment are both mined. -/
theorem expiry_agrees (params : Params) (keys : Keys) (origin : ℕ) (mtp : ℤ) (blocks : List Block)
    (market : Market) (listings : NameMap Listing) (rate fee : Zatoshis) (steps : List Step) (t : Live)
    (hcond : Along (Live.step params keys) (ExpiryClear params)
      (boot params origin mtp blocks market listings rate fee) steps)
    (hrun : run (Live.step params keys) (boot params origin mtp blocks market listings rate fee) steps =
      some t) :
    (∀ o ∈ t.nameNotes.orders, ∀ expiry, o.state = .sent expiry → ∃ bc ∈ broadcasts t.log, bc.sent = o ∧
      (t.ExpiryAgrees bc ↔ expiry ≠ t.tip + 1 ∧ (expiry ≤ t.tip → ¬ t.OnChain bc.txid))) ∧
    ((takenBroadcasts t.log).Pairwise fun bc bc' => bc.order.note.name = bc'.order.note.name →
      ¬ (t.Minable bc ∧ t.Minable bc')) ∧
    (takenBroadcasts t.log).Pairwise fun bc bc' => ∀ x, bc.order.payment = some x →
      bc'.order.payment = some x → ¬ (t.OnChain bc.txid ∧ t.OnChain bc'.txid) := by
  obtain ⟨hinv, hheard⟩ := run_invariant (I := fun s : Live => s.ExpiryKept params ∧ AllHeard s.log)
    (fun s a u hs hc hu => ⟨hs.1.step hc hu, hs.2.step (fun env henv => by subst henv; exact hc.1) hu⟩)
    steps _ t
    ⟨expiryKept_boot params origin mtp blocks market listings rate fee,
      allHeard_boot params origin mtp blocks market listings rate fee⟩ hcond hrun
  rw [takenBroadcasts_of_allHeard hheard]
  refine ⟨fun o ho expiry hstate => ?_, ?_, ?_⟩
  · obtain ⟨bc, hbc, rfl⟩ := hinv.queue.source o ho expiry hstate
    cases hstate
    exact ⟨bc, hbc, rfl, expiryAgrees_iff hinv.wallet hbc⟩
  · exact hinv.queue.replaced.imp fun hpair hname hboth => hpair hname hboth.1
  · exact hinv.claims.replaced.imp fun hpair x hx hx' hboth => (hpair x hx hx').2 hboth.1

/-! ### One resend, and where the condition fails -/

/-- A pass that builds the same transaction, if any, for every note. -/
def passOf (built : Option TxId) : Step := .tipPass { sampleEnv with prepared := fun _ => built }

theorem passOf_heard (built : Option TxId) : { sampleEnv with prepared := fun _ => built }.Heard :=
  heard_of_submit sampleEnv_submit

def firstClaim : TxId × ScannedTx := claimTx 10 (.claim alice (sampleUa 1) .never) 0 50 60 142

/-- A claim is paid, and sent at 101 with the expiry height 142. The pass at 140 finds it sent, the pass
at 142 sends it again, and the second transaction is mined. -/
def resentOnceSteps : List Step :=
  [.block ⟨[], 10, [claimArrival 20 (sampleUa 1)], []⟩, passOf (some (sampleTxid 10))] ++
    List.replicate 39 (.block ⟨[], 20, [], []⟩) ++
    [passOf none, .block ⟨[], 20, [], []⟩, .block ⟨[], 20, [], []⟩, passOf (some (sampleTxid 11)),
      .block ⟨[], 20, [], []⟩]

/-- The condition as it is checked of such a pass. -/
def ExpiryChecked (s : Live) : Step → Prop
  | .block b => ExpiryClear Params.sample s (.block b)
  | .tipPass env => s.Clear ∧ ∀ txid ∈ env.prepared (.claim alice (sampleUa 1) .never),
    ∀ bc ∈ broadcasts s.log,
      bc.txid = txid → bc.expiry = s.tip + 1 + Params.sample.txExpiryDelta (s.tip + 1)
  | .skipped _ => True
  | .reorg rewound _ => s.tip ≤ rewound

instance (s : Live) : ∀ a, Decidable (ExpiryChecked s a)
  | .block b => inferInstanceAs (Decidable (ExpiryClear Params.sample s (.block b)))
  | .tipPass env => inferInstanceAs (Decidable (s.Clear ∧
      ∀ txid ∈ env.prepared (.claim alice (sampleUa 1) .never), ∀ bc ∈ broadcasts s.log,
        bc.txid = txid → bc.expiry = s.tip + 1 + Params.sample.txExpiryDelta (s.tip + 1)))
  | .skipped _ => isTrue trivial
  | .reorg rewound _ => inferInstanceAs (Decidable (s.tip ≤ rewound))

theorem expiry_agrees_mined :
    ∃ t, run (Live.step Params.sample sampleKeys) pricedBoot resentOnceSteps = some t ∧
      (t.nameNotes.orders.map Order.state, (takenBroadcasts t.log).map Broadcast.expiry) =
        ([.sent 183], [142, 183]) ∧
      (∀ o ∈ t.nameNotes.orders, ∀ expiry, o.state = .sent expiry → ∃ bc ∈ broadcasts t.log, bc.sent = o ∧
        (t.ExpiryAgrees bc ↔ expiry ≠ t.tip + 1 ∧ (expiry ≤ t.tip → ¬ t.OnChain bc.txid))) ∧
      ((takenBroadcasts t.log).Pairwise fun bc bc' => bc.order.note.name = bc'.order.note.name →
        ¬ (t.Minable bc ∧ t.Minable bc')) ∧
      (takenBroadcasts t.log).Pairwise fun bc bc' => ∀ x, bc.order.payment = some x →
        bc'.order.payment = some x → ¬ (t.OnChain bc.txid ∧ t.OnChain bc'.txid) := by
  have hends : (run (Live.step Params.sample sampleKeys) pricedBoot resentOnceSteps).map
      (fun t => (t.nameNotes.orders.map Order.state, (takenBroadcasts t.log).map Broadcast.expiry)) =
        some ([.sent 183], [142, 183]) := by
    decide +kernel
  obtain ⟨t, ht, hends⟩ := Option.map_eq_some_iff.mp hends
  have hchecked : Along (Live.step Params.sample sampleKeys) ExpiryChecked pricedBoot
      resentOnceSteps := by
    decide +kernel
  have hcond : Along (Live.step Params.sample sampleKeys) (ExpiryClear Params.sample) pricedBoot
      resentOnceSteps := by
    refine hchecked.imp fun s a ha hc => ?_
    have hsteps : (∃ b, a = .block b) ∨ ∃ built, a = passOf built := by
      simp only [resentOnceSteps, List.mem_append, List.mem_cons, List.mem_replicate, List.not_mem_nil,
        or_false] at ha
      rcases ha with ((rfl | rfl) | ⟨-, rfl⟩) | rfl | rfl | rfl | rfl | rfl
      all_goals first | exact .inl ⟨_, rfl⟩ | exact .inr ⟨_, rfl⟩
    rcases hsteps with ⟨b, rfl⟩ | ⟨built, rfl⟩
    · exact hc
    · exact ⟨passOf_heard built, hc.1, fun note txid hbuilt => hc.2 txid hbuilt⟩
  exact ⟨t, ht, hends, expiry_agrees _ _ _ _ _ _ _ _ _ resentOnceSteps t hcond ht⟩

/-- The claim is sent at 101, forty blocks do not mine it, and the pass at 141 sends it again. -/
def resentSteps : List Step :=
  [.block ⟨[], 10, [claimArrival 20 (sampleUa 1)], []⟩, passOf (some (sampleTxid 10))] ++
    List.replicate 40 (.block ⟨[], 20, [], []⟩) ++ [passOf (some (sampleTxid 11))]

/-- The block at 142 mines both. -/
def bothMined : Step :=
  .block ⟨[firstClaim, claimTx 11 (.claim alice (sampleUa 1) .never) 1 51 61 182], 20, [], []⟩

/-- Both transactions are minable, and the next block spends two anchors on one order. -/
theorem expiry_agrees_resent :
    (∃ t, run (Live.step Params.sample sampleKeys) pricedBoot resentSteps = some t ∧
      ¬ (takenBroadcasts t.log).Pairwise fun bc bc' => bc.order.note.name = bc'.order.note.name →
        ¬ (t.Minable bc ∧ t.Minable bc')) ∧
    ∃ t, run (Live.step Params.sample sampleKeys) pricedBoot (resentSteps ++ [bothMined]) = some t ∧
      ¬ (takenBroadcasts t.log).Pairwise fun bc bc' => ∀ x, bc.order.payment = some x →
        bc'.order.payment = some x → ¬ (t.OnChain bc.txid ∧ t.OnChain bc'.txid) := by
  constructor
  · have hboth : (run (Live.step Params.sample sampleKeys) pricedBoot resentSteps).map
        (fun t => decide ((takenBroadcasts t.log).Pairwise fun bc bc' =>
          bc.order.note.name = bc'.order.note.name → ¬ (t.Minable bc ∧ t.Minable bc'))) = some false := by
      decide +kernel
    obtain ⟨t, ht, hboth⟩ := Option.map_eq_some_iff.mp hboth
    exact ⟨t, ht, of_decide_eq_false hboth⟩
  · have hboth : (run (Live.step Params.sample sampleKeys) pricedBoot (resentSteps ++ [bothMined])).map
        (fun t => ((takenBroadcasts t.log).map fun bc => bc.order.payment,
          (takenBroadcasts t.log).all fun bc => decide (t.OnChain bc.txid))) =
        some ([some ⟨sampleTxid 20, 0⟩, some ⟨sampleTxid 20, 0⟩], true) := by
      decide +kernel
    obtain ⟨t, ht, hboth⟩ := Option.map_eq_some_iff.mp hboth
    simp only [Prod.mk.injEq, List.all_eq_true, decide_eq_true_eq] at hboth
    obtain ⟨hpayments, hmined⟩ := hboth
    refine ⟨t, ht, fun hpair => ?_⟩
    match hl : takenBroadcasts t.log with
    | [bc, bc'] =>
      rw [hl] at hpair hpayments hmined
      simp only [List.map_cons, List.map_nil, List.cons.injEq, and_true] at hpayments
      exact List.rel_of_pairwise_cons hpair (List.mem_singleton_self _) _ hpayments.1 hpayments.2
        ⟨hmined bc (by simp), hmined bc' (by simp)⟩
    | [] | [_] | _ :: _ :: _ :: _ => simp [hl] at hpayments

end ZnsMint.Live
