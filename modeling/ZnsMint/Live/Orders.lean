import ZnsMint.Live.Queue

/-! # At most one unresolved order per name

`admit` checks a new order against the unresolved ones only, and a reorg turns seen orders back into
unresolved ones. What keeps two orders of one name from being unresolved together is that the earlier
one's record lies at the later one's origin or below: a reorg that spares the later order then spares that
record too. Orders from responses, sales and the lifecycle have the tip for origin. A claim has the
block of its payment, which may lie below the record: `ClaimsSettled` is the condition that it does
not. -/

namespace ZnsMint.Live

open Basic Note Inbound Registry Lib.Machine

variable {params : Params} {keys : Keys} {s t : Live}

/-- A record of the note is confirmed between its origin and height `k`. -/
def Settled (params : Params) (r : Registry) (note : NameNote) (origin k : ℕ) : Prop :=
  ∃ e ∈ r.recordHistory note.name,
    origin ≤ e.confirmedHeight ∧ e.confirmedHeight ≤ k ∧ e.commitment = note.commitment params

/-- At a tip pass, every order of a name for which a pending claim is about to be admitted was confirmed
at the block that carried the claim's payment, or below it. -/
def ClaimsSettled (params : Params) (s : Live) : Step → Prop
  | .tipPass _ => ∀ e ∈ s.requests.requests, ∀ name, claimed e.request = some name →
      s.registry.record name = none → s.nameNotes.notePending name = false →
      ∀ o ∈ s.nameNotes.orders, o.note.name = name → Settled params s.registry o.note o.origin e.height
  | _ => True

instance (params : Params) (r : Registry) (note : NameNote) (origin k : ℕ) :
    Decidable (Settled params r note origin k) :=
  inferInstanceAs (Decidable (∃ e ∈ r.recordHistory note.name,
    origin ≤ e.confirmedHeight ∧ e.confirmedHeight ≤ k ∧ e.commitment = note.commitment params))

instance (params : Params) (s : Live) : ∀ a, Decidable (ClaimsSettled params s a)
  | .tipPass _ => inferInstanceAs (Decidable (∀ e ∈ s.requests.requests, ∀ name ∈ claimed e.request,
      s.registry.record name = none → s.nameNotes.notePending name = false →
      ∀ o ∈ s.nameNotes.orders, o.note.name = name → Settled params s.registry o.note o.origin e.height))
  | .block _ => isTrue trivial
  | .skipped _ => isTrue trivial
  | .reorg _ _ => isTrue trivial

/-! ### Settled orders -/

theorem Settled.mono {r r' : Registry} {note : NameNote} {origin k k' : ℕ}
    (h : Settled params r note origin k)
    (hr : r.recordHistory note.name ⊆ r'.recordHistory note.name) (hk : k ≤ k') :
    Settled params r' note origin k' := by
  obtain ⟨e, he, ho, hle, hc⟩ := h
  exact ⟨e, hr he, ho, hle.trans hk, hc⟩

theorem Settled.listings {r r' : Registry} {note : NameNote} {origin k : ℕ}
    (h : Settled params r note origin k) (hr : ListingsOnly r r') : Settled params r' note origin k :=
  h.mono (by rw [hr.recordHistory]; exact List.Subset.refl _) le_rfl

/-- A truncation spares the records at its height and below. -/
theorem Settled.truncate {r : Registry} {lo : ℕ} {note : NameNote} {origin k rewound : ℕ}
    (h : Settled params r note origin k) (hr : r.WellFormed lo) (hk : k ≤ rewound) :
    Settled params (r.truncateToHeight rewound) note origin k := by
  obtain ⟨e, he, ho, hle, hc⟩ := h
  exact ⟨e, mem_recordHistory_truncateToHeight hr he (hle.trans hk), ho, hle, hc⟩

theorem confirmedBy_of_settled {r : Registry} {o : Order} {k : ℕ}
    (h : Settled params r o.note o.origin k) : NameNoteQueue.confirmedBy params r o = true := by
  obtain ⟨e, he, ho, -, hc⟩ := h
  unfold NameNoteQueue.confirmedBy
  rw [List.any_eq_true]
  exact ⟨e, he, by simp [ho, hc]⟩

theorem settled_of_confirmedBy {r : Registry} {lo : ℕ} (hr : r.WellFormed lo) {o : Order}
    (h : NameNoteQueue.confirmedBy params r o = true) : Settled params r o.note o.origin lo := by
  unfold NameNoteQueue.confirmedBy at h
  rw [List.any_eq_true] at h
  obtain ⟨e, he, hboth⟩ := h
  simp only [Bool.and_eq_true, decide_eq_true_eq, beq_iff_eq] at hboth
  exact ⟨e, he, hboth.1, hr.stamped _ e he, hboth.2⟩

/-! ### `reconcile_seen` -/

@[simp] theorem seeOne_note (params : Params) (r : Registry) (o : Order) :
    (NameNoteQueue.seeOne params r o).note = o.note := by
  unfold NameNoteQueue.seeOne
  split_ifs <;> rfl

@[simp] theorem seeOne_origin (params : Params) (r : Registry) (o : Order) :
    (NameNoteQueue.seeOne params r o).origin = o.origin := by
  unfold NameNoteQueue.seeOne
  split_ifs <;> rfl

@[simp] theorem seeOne_payment (params : Params) (r : Registry) (o : Order) :
    (NameNoteQueue.seeOne params r o).payment = o.payment := by
  unfold NameNoteQueue.seeOne
  split_ifs <;> rfl

theorem seeOne_seen {r : Registry} {o : Order} :
    (NameNoteQueue.seeOne params r o).state = .seen ↔
      NameNoteQueue.confirmedBy params r o = true ∨ o.state = .seen := by
  unfold NameNoteQueue.seeOne
  split_ifs with h <;> simp [h]

theorem mem_reconcileSeen {r : Registry} {q : NameNoteQueue} {o : Order} :
    o ∈ (q.reconcileSeen params r).orders ↔
      ∃ o' ∈ q.orders, NameNoteQueue.seeOne params r o' = o ∧ NameNoteQueue.keepsName r o = true := by
  unfold NameNoteQueue.reconcileSeen
  rw [List.mem_filter, List.mem_map]
  constructor
  · rintro ⟨⟨o', ho', rfl⟩, hkeep⟩
    exact ⟨o', ho', rfl, hkeep⟩
  · rintro ⟨o', ho', rfl, hkeep⟩
    exact ⟨⟨o', ho', rfl⟩, hkeep⟩

theorem confirmedBy_listings {r r' : Registry} (hr : ListingsOnly r r') (o : Order) :
    NameNoteQueue.confirmedBy params r' o = NameNoteQueue.confirmedBy params r o := by
  unfold NameNoteQueue.confirmedBy
  rw [hr.recordHistory]

/-- `reconcile_seen` reads no listing, so that it may as well come after the market. -/
theorem reconcileSeen_listings {r r' : Registry} (hr : ListingsOnly r r') (q : NameNoteQueue) :
    q.reconcileSeen params r' = q.reconcileSeen params r := by
  have hsee : NameNoteQueue.seeOne params r' = NameNoteQueue.seeOne params r := by
    funext o
    unfold NameNoteQueue.seeOne
    rw [confirmedBy_listings hr]
  have hkeep : NameNoteQueue.keepsName r' = NameNoteQueue.keepsName r := by
    funext o
    unfold NameNoteQueue.keepsName
    rw [hr.record]
  unfold NameNoteQueue.reconcileSeen
  rw [hsee, hkeep]

/-- A queue whose orders were settled in turn is orderly once it is reconciled, whatever state its
orders were in. -/
theorem orderly_reconcileSeen {r : Registry} {q : NameNoteQueue} {x : Live} {hand : List Held}
    (hr : r.WellFormed x.tip) (hx : x.nameNotes = q.reconcileSeen params r)
    (hqueued : q.orders.Pairwise fun a c => a.note.name = c.note.name →
      Settled params r a.note a.origin c.origin)
    (hseen : ∀ o ∈ q.orders, o.state = .seen → NameNoteQueue.confirmedBy params r o = true)
    (hhand : ∀ y ∈ hand, y.claims = none)
    (hacted : ∀ looked on, Event.acted looked on ∈ x.log → on = looked) :
    Orderly (Settled params r) ⟨x, hand, [], false⟩ where
  queued := by
    rw [hx]
    refine List.Pairwise.filter _ (List.pairwise_map.mpr (hqueued.imp fun {a c} hac hname => ?_))
    rw [seeOne_note, seeOne_note] at hname
    have hset := hac hname
    rw [seeOne_note, seeOne_origin, seeOne_origin]
    exact ⟨seeOne_seen.mpr (Or.inl (confirmedBy_of_settled hset)), hset⟩
  seen o ho hstate := by
    rw [hx, mem_reconcileSeen] at ho
    obtain ⟨o', ho', rfl, -⟩ := ho
    rw [seeOne_note, seeOne_origin]
    rcases seeOne_seen.mp hstate with hconf | hold
    · exact settled_of_confirmedBy hr hconf
    · exact settled_of_confirmedBy hr (hseen o' ho' hold)
  hand y hy name hclaims := by
    rw [hhand y hy] at hclaims
    cases hclaims
  apart := Or.inr rfl
  looked := by simp
  distinct := List.Pairwise.nil
  acted := hacted

/-! ### The steps -/

/-- What holds of the orders between two steps. -/
structure OrdersInv (params : Params) (s : Live) : Prop where
  grounded : s.Grounded
  orderly : Orderly (Settled params s.registry) ⟨s, [], [], true⟩

theorem OrdersInv.of_orderly {r : Registry} {b : Bool} (hs : s.Grounded)
    (hr : ListingsOnly r s.registry) (h : Orderly (Settled params r) ⟨s, [], [], b⟩) :
    OrdersInv params s where
  grounded := hs
  orderly :=
    { queued := h.queued.imp fun hac hname => ⟨(hac hname).1, (hac hname).2.listings hr⟩
      seen := fun o ho hstate => (h.seen o ho hstate).listings hr
      hand := by simp
      apart := Or.inl rfl
      looked := by simp
      distinct := List.Pairwise.nil
      acted := h.acted }

theorem OrdersInv.block (h : OrdersInv params s) (b : Block) :
    OrdersInv params (s.block params keys b) := by
  set r' := (s.applyBlock params b).registry with hr'
  have hground := h.grounded.applyBlock params b
  have hgrow : ∀ n, s.registry.recordHistory n ⊆ r'.recordHistory n := fun n =>
    (recordHistory_micros (micros_confirmBlock b.mtp _ _ h.grounded.keyed) n).subset
  have hmeet : Orderly (Settled params r')
      ⟨(s.applyBlock params b).meetBlock params, b.arrivals.map (heldArrival (s.tip + 1)),
        [], false⟩ := by
    refine orderly_reconcileSeen (q := s.nameNotes) hground rfl ?_ ?_ ?_ h.orderly.acted
    · exact h.orderly.queued.imp fun hac hname => (hac hname).2.mono (hgrow _) le_rfl
    · exact fun o ho hstate => confirmedBy_of_settled ((h.orderly.seen o ho hstate).mono (hgrow _) le_rfl)
    · intro y hy
      obtain ⟨a, -, rfl⟩ := List.mem_map.mp hy
      rfl
  have hst := sameTip_block params keys s b
  exact .of_orderly (hground.sameTip hst) hst.registry
    (block_invariant (fun _ _ hp hm => hp.move hm) hmeet)

theorem OrdersInv.tipPass (h : OrdersInv params s) {env : TipEnv}
    (hsettled : ClaimsSettled params s (.tipPass env)) (ht : s.tipPass params keys env = some t) :
    OrdersInv params t := by
  have htaken : Orderly (Settled params s.registry) s.taken :=
    { queued := h.orderly.queued
      seen := h.orderly.seen
      hand := fun x hx name hclaims hfree hpending o ho hname => by
        obtain ⟨e, he, rfl⟩ := List.mem_map.mp hx
        exact hsettled e he name hclaims hfree hpending o ho hname
      apart := Or.inr rfl
      looked := by simp [taken]
      distinct := List.Pairwise.nil
      acted := h.orderly.acted }
  have hst := sameTip_tipPass ht
  exact .of_orderly (h.grounded.sameTip hst) hst.registry
    (tipPass_invariant (fun _ _ hp hm => hp.move hm) ht htaken)

theorem OrdersInv.reorg (h : OrdersInv params s) (rewound : ℕ) (mtp : ℤ) :
    OrdersInv params (s.reorg params rewound mtp) := by
  have hlist := listingsOnly_reorg params s rewound mtp
  have hground := h.grounded.reorg params rewound mtp
  refine .of_orderly hground (.refl _)
    (orderly_reconcileSeen (q := s.nameNotes.rewindTo rewound) hground rfl ?_ ?_ (by simp)
      h.orderly.acted)
  · refine List.pairwise_map.mpr ((h.orderly.queued.filter _).imp_of_mem fun {a c} _ hc hac hname => ?_)
    have hkept : c.origin ≤ rewound := by simpa using (List.mem_filter.mp hc).2
    rw [reauthorize_note, reauthorize_note] at hname
    rw [reauthorize_note, reauthorize_origin, reauthorize_origin]
    exact ((hac hname).2.truncate h.grounded hkept).listings hlist
  · intro o ho hstate
    obtain ⟨o', -, rfl⟩ := List.mem_map.mp ho
    unfold NameNoteQueue.reauthorize at hstate
    split_ifs at hstate with hseen
    exact (hseen hstate).elim

theorem OrdersInv.step (h : OrdersInv params s) {a : Step} (hcond : ClaimsSettled params s a)
    (hstep : s.step params keys a = some t) : OrdersInv params t := by
  rcases step_cases hstep with ⟨b, rfl, rfl⟩ | ⟨env, rfl, ht⟩ | ⟨rate, rfl, rfl⟩ |
    ⟨rewound, mtp, rfl, ⟨-, rfl⟩ | ⟨-, rfl⟩⟩
  · exact h.block b
  · exact h.tipPass hcond ht
  · exact ⟨h.grounded, h.orderly.frame ⟨rfl, rfl, rfl, .refl _⟩ rfl (List.suffix_refl _)
      (List.suffix_refl _) fun _ _ hmem => hmem⟩
  · exact h.reorg rewound mtp
  · exact h

theorem ordersInv_boot (params : Params) (origin : ℕ) (mtp : ℤ) (blocks : List Block) (market : Market)
    (listings : NameMap Listing) (rate fee : Zatoshis) :
    OrdersInv params (boot params origin mtp blocks market listings rate fee) := by
  obtain ⟨-, hnotes, -, -, hlog⟩ := boot_queues params origin mtp blocks market listings rate fee
  refine ⟨grounded_boot .., ?_, ?_, by simp, Or.inl rfl, by simp, List.Pairwise.nil, ?_⟩
  · rw [hnotes]
    exact List.Pairwise.nil
  · rw [hnotes]
    intro o ho
    cases ho
  · rw [hlog]
    intro looked on hmem
    cases hmem

/-- **One unresolved order per name.** In every run whose tip passes admit a claim only after the earlier
orders of its name were confirmed at the claim's own block or below, no name ever has two unresolved
orders, and every `mark_sent` and `drop_note` acts on the order the loop looks at. -/
theorem one_unresolved (params : Params) (keys : Keys) (origin : ℕ) (mtp : ℤ) (blocks : List Block)
    (market : Market) (listings : NameMap Listing) (rate fee : Zatoshis) (steps : List Step) (t : Live)
    (hcond : Along (Live.step params keys) (ClaimsSettled params)
      (boot params origin mtp blocks market listings rate fee) steps)
    (hrun : run (Live.step params keys) (boot params origin mtp blocks market listings rate fee) steps =
      some t) :
    (∀ name, (t.nameNotes.orders.filter (NameNoteQueue.isUnresolvedFor name)).length ≤ 1) ∧
      ∀ looked on, Event.acted looked on ∈ t.log → on = looked := by
  have hinv := run_invariant (I := OrdersInv params) (fun s a t hs hc ht => hs.step hc ht) steps _ t
    (ordersInv_boot params origin mtp blocks market listings rate fee) hcond hrun
  exact ⟨fun name => hinv.orderly.length_le_one name, hinv.orderly.acted⟩

/-! ### Where the condition fails -/

/-- Alice holds her name for a hundred seconds. -/
def dueBoot : Live :=
  sampleBoot [ceremonyBlock, ⟨[claimTx 1 (.claim alice (sampleUa 1) (.at 100)) 0 50 60 140], 0, [], []⟩]

/-- Her release falls due at height 102, and the pass there admits and sends it. -/
def releaseSteps : List Step :=
  [.block ⟨[], 200, [], []⟩,
    .tipPass { sampleEnv with prepared := fun _ => some (sampleTxid 10) }]

/-- A free claim of Alice's name. -/
def freeClaim : Arrival := ⟨⟨sampleTxid 20, 0⟩, .request (.claim alice (sampleUa 2) .forever none), .zero⟩

/-- The transaction of the release. -/
def releaseTx : TxId × ScannedTx :=
  successorTx 10 (.release alice (sampleUa 1)
    ((NameNote.claim alice (sampleUa 1) (.at 100)).commitment Params.sample)) 50 51 143

/-- The release confirms at 103, a claim of the name arrives at 104, the pass there admits it, and a
reorg orphans the block. -/
def settledSteps : List Step :=
  releaseSteps ++ [.block ⟨[releaseTx], 200, [], []⟩, .block ⟨[], 200, [freeClaim], []⟩,
    .tipPass sampleEnv,
    .reorg 103 200]

theorem one_unresolved_release :
    ∃ t, run (Live.step Params.sample sampleKeys) dueBoot settledSteps = some t ∧
      (t.nameNotes.orders.map fun o => (o.origin, o.state)) = [(102, .seen)] ∧
      (∀ name, (t.nameNotes.orders.filter (NameNoteQueue.isUnresolvedFor name)).length ≤ 1) ∧
        ∀ looked on, Event.acted looked on ∈ t.log → on = looked := by
  have horders : (run (Live.step Params.sample sampleKeys) dueBoot settledSteps).map
      (fun t => t.nameNotes.orders.map fun o => (o.origin, o.state)) = some [(102, .seen)] := by
    decide +kernel
  obtain ⟨t, ht, horders⟩ := Option.map_eq_some_iff.mp horders
  have hcond : Along (Live.step Params.sample sampleKeys) (ClaimsSettled Params.sample) dueBoot
      settledSteps := by
    decide +kernel
  exact ⟨t, ht, horders, one_unresolved _ _ _ _ _ _ _ _ _ settledSteps t hcond ht⟩

/-- Then a claim of the name arrives at 103, the release confirms at 104, the pass at 104 admits the claim
with origin 103, and a reorg orphans 104. -/
def orphanedReleaseSteps : List Step :=
  releaseSteps ++
    [.block ⟨[], 200, [freeClaim], []⟩, .block ⟨[releaseTx], 200, [], []⟩, .tipPass sampleEnv,
    .reorg 103 200]

/-- The release and the claim are both unresolved, and the next pass, looking at the claim, drops the
release. -/
theorem one_unresolved_orphanedRelease :
    (∃ t, run (Live.step Params.sample sampleKeys) dueBoot orphanedReleaseSteps = some t ∧
      ¬ ∀ name, (t.nameNotes.orders.filter (NameNoteQueue.isUnresolvedFor name)).length ≤ 1) ∧
    ∃ t, run (Live.step Params.sample sampleKeys) dueBoot
        (orphanedReleaseSteps ++ [.tipPass sampleEnv]) = some t ∧
      ¬ ∀ looked on, Event.acted looked on ∈ t.log → on = looked := by
  constructor
  · have hlen : (run (Live.step Params.sample sampleKeys) dueBoot orphanedReleaseSteps).map
        (fun t => (t.nameNotes.orders.filter (NameNoteQueue.isUnresolvedFor alice)).length) = some 2 := by
      decide +kernel
    obtain ⟨t, ht, hlen⟩ := Option.map_eq_some_iff.mp hlen
    refine ⟨t, ht, fun hall => ?_⟩
    have := hall alice
    omega
  · have hlog : (run (Live.step Params.sample sampleKeys) dueBoot
        (orphanedReleaseSteps ++ [.tipPass sampleEnv])).map
        (fun t => t.log.all fun e => match e with
          | .acted looked on => decide (on = looked)
          | _ => true) = some false := by
      decide +kernel
    obtain ⟨t, ht, hlog⟩ := Option.map_eq_some_iff.mp hlog
    refine ⟨t, ht, fun hall => ?_⟩
    obtain ⟨e, he, hfalse⟩ := List.all_eq_false.mp hlog
    refine hfalse ?_
    split
    · exact decide_eq_true (hall _ _ he)
    · rfl

end ZnsMint.Live
