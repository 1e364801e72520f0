import ZnsMint.Registry.Steps
import ZnsMint.Registry.Chains

/-! # Claim authority is succeeded, never minted

The anchor pool over whole runs of the registry: its size, when adoption is closed, where every live
anchor comes from, and what a claim does to the pool on either verdict. None of this needs the heights
of a run to follow the chain. -/

namespace ZnsMint.Registry

open Basic Note Inbound Lib.Rollback AnchorPool

variable {params : Params} {r r' : Registry} {nfs : List Nullifier} {height : ℕ} {mtp : ℤ}

/-! ### One operation on the pool -/

/-- Every checkpoint is an old one or the live set of now. -/
def Snapshots (r r' : Registry) : Prop :=
  ∀ (k : ℕ) (c : Finset Nullifier), r'.anchors.checkpoints[k]? = some c →
    r.anchors.checkpoints[k]? = some c ∨ c = r'.anchors.live

/-- How an operation left the pool: only retirements, one adoption into an open pool, or a claim
accepted. -/
inductive PoolStep (params : Params) (r r' : Registry) (o : RegOp) : Prop
  | shrink (hlive : r'.anchors.live ⊆ r.anchors.live)
      (hest : r'.anchors.established = r.anchors.established)
      (hcp : Snapshots r r')
  | adopt (height : ℕ) (nf : Nullifier) (ho : o = .adoptAnchor height nf)
      (hopen : r.anchors.established = none) (hsize : r.anchors.live.card < ANCHOR_POOL_SIZE)
      (hlive : r'.anchors.live = insert nf r.anchors.live)
      (hcp : Snapshots r r')
  | succeed (a s : Nullifier)
      (ho : ∃ note nf nfs height mtp expiry, o = .acceptClaim note nf (some s) nfs height mtp expiry)
      (hverdict : (o.apply params r).2 = true) (ha : a ∈ r.anchors.live)
      (hlive : r'.anchors.live = insert s (r.anchors.live.erase a))
      (hest : r'.anchors.established = r.anchors.established)
      (hcp : Snapshots r r')

theorem retireSpent_snapshot (p : AnchorPool) (nfs : List Nullifier) (succ : Option Nullifier)
    (height k : ℕ) (c : Finset Nullifier)
    (h : (p.retireSpent nfs succ height).checkpoints[k]? = some c) :
    p.checkpoints[k]? = some c ∨ c = (p.retireSpent nfs succ height).live := by
  rcases p.retireSpent_cases nfs succ height with heq | ⟨live, heq⟩
  · rw [heq] at h; exact Or.inl h
  · rw [heq] at h ⊢
    rw [Std.ExtTreeMap.getElem?_insert] at h
    split_ifs at h
    · exact Or.inr (Option.some.inj h).symm
    · exact Or.inl h

theorem adopt_snapshot (p : AnchorPool) (nf : Nullifier) (height k : ℕ) (c : Finset Nullifier)
    (h : (p.adopt height nf).checkpoints[k]? = some c) :
    p.checkpoints[k]? = some c ∨ c = (p.adopt height nf).live := by
  rcases p.adopt_cases height nf with heq | ⟨-, -, -, heq⟩
  · rw [heq] at h; exact Or.inl h
  · rw [heq] at h ⊢
    rw [Std.ExtTreeMap.getElem?_insert] at h
    split_ifs at h
    · exact Or.inr (Option.some.inj h).symm
    · exact Or.inl h

theorem acceptSuccessor_anchors (params : Params) (r : Registry) (note : NameNote) (nf : Nullifier)
    (nfs : List Nullifier) (height : ℕ) (mtp : ℤ) :
    (acceptSuccessor params r note nf nfs height mtp).1.anchors = r.anchors ∨
      (acceptSuccessor params r note nf nfs height mtp).1.anchors =
        r.anchors.retireSpent nfs none height := by
  unfold acceptSuccessor
  split
  · exact Or.inr (by rw [followSpends, markReleased_anchors])
  · split_ifs <;> exact Or.inl rfl

/-- A nullifier list with one live member: that member, and nothing else live. -/
theorem inter_eq_singleton {live : Finset Nullifier} {p : Nullifier → Bool}
    (hp : ∀ nf, p nf = true ↔ nf ∈ live) (h : (nfs.filter p).length = 1) :
    ∃ a, nfs.filter p = [a] ∧ a ∈ live ∧ live ∩ nfs.toFinset = {a} := by
  obtain ⟨a, ha⟩ := List.length_eq_one_iff.mp h
  have hmem : ∀ x, x ∈ live ∧ x ∈ nfs ↔ x = a := by
    intro x
    rw [← List.mem_singleton, ← ha, List.mem_filter, hp, and_comm]
  refine ⟨a, ha, ((hmem a).mpr rfl).1, ?_⟩
  ext x
  simpa using hmem x

/-- What an accepted claim did, and what it did to the pool. -/
theorem acceptClaim_true {note : NameNote} {nf : Nullifier} {succ : Option Nullifier} {expiry : ℕ}
    (hok : (acceptClaim params r note nf succ nfs height mtp expiry).2 = true) :
    ∃ a s, succ = some s ∧ nfs.filter r.anchors.contains = [a] ∧ a ∈ r.anchors.live ∧
      r.namesSpentBy nfs = [] ∧ r.record note.name = none ∧
      (acceptClaim params r note nf succ nfs height mtp expiry).1.anchors =
        r.anchors.retireSpent nfs (some s) height ∧
      (acceptClaim params r note nf succ nfs height mtp expiry).1.anchors.live =
        insert s (r.anchors.live.erase a) := by
  rcases acceptClaim_cases params r note nf succ nfs height mtp expiry with
    ⟨-, heq⟩ | ⟨-, -, heq⟩ | ⟨s, hs, hone, hnames, hfree, -, heq⟩
  · rw [heq] at hok; cases hok
  · rw [heq] at hok; cases hok
  · obtain ⟨a, hfilter, ha, hinter⟩ := inter_eq_singleton
      (fun nf => show r.anchors.contains nf = true ↔ nf ∈ r.anchors.live by simp [AnchorPool.contains])
      hone
    refine ⟨a, s, hs, hfilter, ha, hnames, hfree, by rw [heq, setRecord_anchors], ?_⟩
    rw [heq, setRecord_anchors, AnchorPool.retireSpent_live, hinter, if_pos (Finset.card_singleton a),
      Option.elim_some, ← Finset.sdiff_inter_self_left, hinter, Finset.sdiff_singleton_eq_erase]

theorem acceptClaim_false {note : NameNote} {nf : Nullifier} {succ : Option Nullifier} {expiry : ℕ}
    (hno : (acceptClaim params r note nf succ nfs height mtp expiry).2 = false) :
    (acceptClaim params r note nf succ nfs height mtp expiry).1.anchors =
      r.anchors.retireSpent nfs none height := by
  rcases acceptClaim_cases params r note nf succ nfs height mtp expiry with
    ⟨-, heq⟩ | ⟨-, -, heq⟩ | ⟨s, -, -, -, -, -, heq⟩
  · rw [heq, markReleased_anchors]
  · rw [heq]
  · rw [heq] at hno; cases hno

theorem poolStep_retire {o : RegOp} (h : r'.anchors = r.anchors.retireSpent nfs none height) :
    PoolStep params r r' o :=
  .shrink (by rw [h, AnchorPool.retireSpent_none_live]; exact Finset.sdiff_subset)
    (by rw [h, AnchorPool.retireSpent_established])
    fun k c hc => by rw [h] at hc ⊢; exact retireSpent_snapshot _ _ _ _ k c hc

theorem poolStep_same {o : RegOp} (h : r'.anchors = r.anchors) : PoolStep params r r' o :=
  .shrink (by rw [h]) (by rw [h]) fun k c hc => by rw [h] at hc; exact Or.inl hc

/-- **What one operation can do to the pool.** -/
theorem poolStep (params : Params) (r : Registry) (o : RegOp) :
    PoolStep params r (o.apply params r).1 o := by
  have hsuccessor : ∀ (note : NameNote) nf nfs height mtp,
      PoolStep params r (acceptSuccessor params r note nf nfs height mtp).1 o := by
    intro note nf nfs height mtp
    rcases acceptSuccessor_anchors params r note nf nfs height mtp with h | h
    · exact poolStep_same h
    · exact poolStep_retire h
  cases o with
  | adoptAnchor height nf =>
    rcases r.anchors.adopt_cases height nf with heq | ⟨hopen, hsize, -, heq⟩
    · exact poolStep_same heq
    · exact .adopt height nf rfl hopen hsize
        (by rw [RegOp.apply, adoptAnchor, heq]) (adopt_snapshot r.anchors nf height)
  | acceptClaim note nf succ nfs height mtp expiry =>
    cases hv : (acceptClaim params r note nf succ nfs height mtp expiry).2 with
    | false => exact poolStep_retire (acceptClaim_false hv)
    | true =>
      obtain ⟨a, s, rfl, -, ha, -, -, hanchors, hlive⟩ := acceptClaim_true hv
      refine .succeed a s ⟨note, nf, nfs, height, mtp, expiry, rfl⟩ hv ha hlive ?_ fun k c hc => ?_
      · rw [RegOp.apply, hanchors, AnchorPool.retireSpent_established]
      · rw [RegOp.apply, hanchors] at hc ⊢
        exact retireSpent_snapshot _ _ _ _ k c hc
  | acceptUpdate note nf nfs height mtp => exact hsuccessor note nf nfs height mtp
  | acceptRelease note nf nfs height mtp => exact hsuccessor note nf nfs height mtp
  | acceptSale note nf nfs height mtp => exact hsuccessor note nf nfs height mtp
  | followSpends nfs height =>
    exact poolStep_retire (by rw [RegOp.apply, followSpends, markReleased_anchors])

/-! ### What one transaction adds -/

theorem ceremony_worthless {tx : ScannedTx} {nf : Nullifier} (h : nf ∈ tx.ceremony) :
    ∃ o ∈ tx.registryOutputs, o.value = 0 ∧ o.nf = some nf := by
  obtain ⟨o, ho, hnf⟩ := List.mem_filterMap.mp h
  obtain ⟨hmem, hzero⟩ := List.mem_filter.mp ho
  exact ⟨o, hmem, by simpa using hzero, hnf⟩

theorem successor_worthless {tx : ScannedTx} {nf : Nullifier} (h : tx.successor = some nf) :
    ∃ o ∈ tx.registryOutputs, o.value = 0 ∧ o.nf = some nf := by
  unfold ScannedTx.successor at h
  split at h
  · rename_i o houtputs
    split_ifs at h with hzero
    exact ⟨o, by rw [houtputs]; exact List.mem_singleton_self o, hzero, h⟩
  · cases h

theorem mem_live_adoptCeremony {tx : ScannedTx} {nf : Nullifier}
    (h : nf ∈ (r.adoptCeremony tx height).anchors.live) :
    nf ∈ r.anchors.live ∨ nf ∈ tx.ceremony := by
  have hfold : ∀ (l : List Nullifier) (r : Registry),
      nf ∈ (l.foldl (fun r nf => r.adoptAnchor height nf) r).anchors.live →
        nf ∈ r.anchors.live ∨ nf ∈ l := by
    intro l
    induction l with
    | nil => exact fun r h => Or.inl h
    | cons x l ih =>
      intro r h
      rcases ih _ h with h | h
      · have hadopt : nf ∈ (r.anchors.adopt height x).live := h
        rcases r.anchors.adopt_cases height x with heq | ⟨-, -, -, heq⟩
        · rw [heq] at hadopt
          exact Or.inl hadopt
        · rw [heq, Finset.mem_insert] at hadopt
          rcases hadopt with rfl | h
          · exact Or.inr (List.mem_cons_self ..)
          · exact Or.inl h
      · exact Or.inr (List.mem_cons_of_mem _ h)
  unfold adoptCeremony at h
  split_ifs at h
  · exact hfold _ r h
  · exact Or.inl h

theorem mem_live_dispatch {tx : ScannedTx} {nf : Nullifier}
    (h : nf ∈ (dispatch params r tx height mtp).1.anchors.live) :
    nf ∈ r.anchors.live ∨ tx.successor = some nf := by
  have hretire : ∀ {r' : Registry}, r'.anchors = r.anchors.retireSpent tx.nfs none height →
      nf ∈ r'.anchors.live → nf ∈ r.anchors.live := by
    intro r' heq h
    rw [heq, AnchorPool.retireSpent_none_live] at h
    exact (Finset.mem_sdiff.mp h).1
  have hfollow : (r.followSpends tx.nfs height).anchors = r.anchors.retireSpent tx.nfs none height := by
    rw [followSpends, markReleased_anchors]
  have hsuccessor : ∀ (note : NameNote) x, nf ∈
    (acceptSuccessor params r note x tx.nfs height mtp).1.anchors.live →
      nf ∈ r.anchors.live := by
    intro note x h
    rcases acceptSuccessor_anchors params r note x tx.nfs height mtp with heq | heq
    · rwa [heq] at h
    · exact hretire heq h
  have hclaim : ∀ (note : NameNote) x expiry,
      nf ∈ (acceptClaim params r note x tx.successor tx.nfs height mtp expiry).1.anchors.live →
      nf ∈ r.anchors.live ∨ tx.successor = some nf := by
    intro note x expiry h
    by_cases hok : (acceptClaim params r note x tx.successor tx.nfs height mtp expiry).2 = true
    · obtain ⟨a, s, hs, -, -, -, -, -, hlive⟩ := acceptClaim_true hok
      rw [hlive, Finset.mem_insert] at h
      rcases h with rfl | h
      · exact Or.inr hs
      · exact Or.inl (Finset.mem_of_mem_erase h)
    · rw [Bool.not_eq_true] at hok
      exact Or.inl (hretire (acceptClaim_false hok) h)
  unfold dispatch at h
  split at h
  · split at h
    · exact hclaim _ _ _ h
    · exact Or.inl (hsuccessor _ _ h)
    · exact Or.inl (hsuccessor _ _ h)
    · exact Or.inl (hsuccessor _ _ h)
  · exact Or.inl (hretire hfollow h)

/-- A claim anchor is worth nothing: a transaction adds to the pool only nullifiers of its zero-value
outputs. -/
theorem mem_live_confirmTx {tx : ScannedTx} {nf : Nullifier}
    (h : nf ∈ (confirmTx params r tx height mtp).1.anchors.live) :
    nf ∈ r.anchors.live ∨ ∃ o ∈ tx.registryOutputs, o.value = 0 ∧ o.nf = some nf := by
  rcases mem_live_dispatch h with h | h
  · rcases mem_live_adoptCeremony h with h | h
    · exact Or.inl h
    · exact Or.inr (ceremony_worthless h)
  · exact Or.inr (successor_worthless h)

/-- Neither is one that a block adds. -/
theorem mem_live_confirmBlock {nf : Nullifier} :
    ∀ (txs : List ScannedTx) (r : Registry), nf ∈ (confirmBlock params r txs height mtp).anchors.live →
      nf ∈ r.anchors.live ∨ ∃ tx ∈ txs, ∃ o ∈ tx.registryOutputs, o.value = 0 ∧ o.nf = some nf := by
  intro txs
  induction txs with
  | nil => exact fun r h => Or.inl h
  | cons tx txs ih =>
    intro r h
    rcases ih _ h with h | ⟨tx', htx', hout⟩
    · rcases mem_live_confirmTx h with h | hout
      · exact Or.inl h
      · exact Or.inr ⟨tx, List.mem_cons_self .., hout⟩
    · exact Or.inr ⟨tx', List.mem_cons_of_mem _ htx', hout⟩

/-! ### Runs -/

theorem PoolStep.snapshots {o : RegOp} (h : PoolStep params r r' o) : Snapshots r r' := by
  rcases h with ⟨-, -, h⟩ | ⟨_, _, -, -, -, -, h⟩ | ⟨_, _, -, -, -, -, -, h⟩ <;> exact h

theorem PoolStep.card_le {o : RegOp} (h : PoolStep params r r' o) (hr : r.anchors.established ≠ none) :
    r'.anchors.live.card ≤ r.anchors.live.card := by
  rcases h with ⟨hlive, -, -⟩ | ⟨_, _, -, hopen, -, -, -⟩ | ⟨a, s, -, -, ha, hlive, -, -⟩
  · exact Finset.card_le_card hlive
  · exact absurd hopen hr
  · have h1 := Finset.card_insert_le s (r.anchors.live.erase a)
    have h2 := Finset.card_erase_lt_of_mem ha
    rw [hlive]
    omega

/-- Live set and checkpoints have at most standing size. -/
def Bounded (r : Registry) : Prop :=
  r.anchors.live.card ≤ ANCHOR_POOL_SIZE ∧
    ∀ (k : ℕ) (c : Finset Nullifier), r.anchors.checkpoints[k]? = some c → c.card ≤ ANCHOR_POOL_SIZE

theorem PoolStep.bounded {o : RegOp} (h : PoolStep params r r' o) (hr : r.Bounded) : r'.Bounded := by
  have hsize : r'.anchors.live.card ≤ ANCHOR_POOL_SIZE := by
    rcases h with ⟨hlive, -, -⟩ | ⟨_, nf, -, -, hsize, hlive, -⟩ | ⟨a, s, -, -, ha, hlive, -, -⟩
    · exact le_trans (Finset.card_le_card hlive) hr.1
    · have := Finset.card_insert_le nf r.anchors.live
      rw [hlive]
      omega
    · have h1 := Finset.card_insert_le s (r.anchors.live.erase a)
      have h2 := Finset.card_erase_lt_of_mem ha
      have h3 := hr.1
      rw [hlive]
      omega
  refine ⟨hsize, fun k c hc => ?_⟩
  rcases h.snapshots k c hc with h | rfl
  · exact hr.2 k c h
  · exact hsize

/-- A rewound pool is empty or one of the checkpoints. -/
theorem truncate_live_cases (r : Registry) (k : ℕ) :
    (r.truncateToHeight k).anchors.live = ∅ ∨
      ∃ (j : ℕ) (c : Finset Nullifier), r.anchors.checkpoints[j]? = some c ∧
        (r.truncateToHeight k).anchors.live = c := by
  simp only [truncateToHeight, AnchorPool.truncateTo]
  cases h : Lib.Checkpoints.latest (Lib.Checkpoints.cut r.anchors.checkpoints k) with
  | none => exact Or.inl rfl
  | some c =>
    obtain ⟨j, hj⟩ := Lib.Checkpoints.exists_of_latest h
    rw [Lib.Checkpoints.getElem?_cut] at hj
    split_ifs at hj
    exact Or.inr ⟨j, c, hj, rfl⟩

theorem truncate_checkpoints {k j : ℕ} {c : Finset Nullifier}
    (h : (r.truncateToHeight k).anchors.checkpoints[j]? = some c) :
    r.anchors.checkpoints[j]? = some c := by
  simp only [truncateToHeight, AnchorPool.truncateTo, Lib.Checkpoints.getElem?_cut] at h
  split_ifs at h
  exact h

theorem Bounded.truncate (hr : r.Bounded) (k : ℕ) : (r.truncateToHeight k).Bounded := by
  refine ⟨?_, fun j c hc => hr.2 j c (truncate_checkpoints hc)⟩
  rcases truncate_live_cases r k with h | ⟨j, c, hc, h⟩
  · rw [h]; exact Nat.zero_le _
  · rw [h]; exact hr.2 j c hc

theorem bounded_run (acts : List (Act RegOp)) : ((system params).run new acts).Bounded := by
  induction acts using List.reverseRecOn with
  | nil => exact ⟨Nat.zero_le _, fun k c hc => by simp [new, AnchorPool.empty] at hc⟩
  | append_singleton acts a ih =>
    rw [System.run_append]
    cases a with
    | op o => exact (poolStep params _ o).bounded ih
    | truncate k => exact ih.truncate k

/-- Closed at `e`, and so while no truncation cuts below `e`. -/
theorem established_run (params : Params) {e : ℕ} :
    ∀ (acts : List (Act RegOp)) (r : Registry), r.anchors.established = some e →
      (∀ k, Act.truncate k ∈ acts → e ≤ k) →
      ((system params).run r acts).anchors.established = some e
  | [], _, hr, _ => hr
  | .op o :: acts, r, hr, hk => by
    refine established_run params acts _ ?_ fun k hmem => hk k (List.mem_cons_of_mem _ hmem)
    rcases poolStep params r o with ⟨-, hest, -⟩ | ⟨_, _, -, hopen, -, -, -⟩ | ⟨_, _, -, -, -, -, hest, -⟩
    · exact hest.trans hr
    · rw [hr] at hopen; cases hopen
    · exact hest.trans hr
  | .truncate k :: acts, r, hr, hk => by
    refine established_run params acts _ ?_ fun k hmem => hk k (List.mem_cons_of_mem _ hmem)
    exact AnchorPool.truncateTo_established.mpr ⟨hr, hk k (by simp)⟩

theorem adoptAnchor_of_established {e : ℕ} (hr : r.anchors.established = some e) (height : ℕ)
    (nf : Nullifier) : r.adoptAnchor height nf = r := by
  rcases r.anchors.adopt_cases height nf with heq | ⟨hnone, -, -, -⟩
  · rw [adoptAnchor, heq]
  · rw [hr] at hnone; cases hnone

/-- `nf` joined the pool by an adoption of the run, while adoption was open. -/
def Adopted (params : Params) (acts : List (Act RegOp)) (nf : Nullifier) : Prop :=
  ∃ pre height post, acts = pre ++ .op (.adoptAnchor height nf) :: post ∧
    ((system params).run new pre).anchors.established = none ∧
    nf ∈ (((system params).run new pre).adoptAnchor height nf).anchors.live

/-- `nf` was the successor of a claim accepted in the run. -/
def Succeeded (params : Params) (acts : List (Act RegOp)) (nf : Nullifier) : Prop :=
  ∃ pre, ∃ note : { n : NameNote // n.action = .claim }, ∃ x nfs height mtp expiry post,
    acts = pre ++ .op (.acceptClaim note x (some nf) nfs height mtp expiry) :: post ∧
    (acceptClaim params ((system params).run new pre) note x (some nf) nfs height mtp expiry).2 = true

theorem Adopted.append {acts : List (Act RegOp)} {nf : Nullifier} (h : Adopted params acts nf)
    (more : List (Act RegOp)) : Adopted params (acts ++ more) nf := by
  obtain ⟨pre, height, post, rfl, hopen, hjoin⟩ := h
  exact ⟨pre, height, post ++ more, by simp, hopen, hjoin⟩

theorem Succeeded.append {acts : List (Act RegOp)} {nf : Nullifier} (h : Succeeded params acts nf)
    (more : List (Act RegOp)) : Succeeded params (acts ++ more) nf := by
  obtain ⟨pre, note, x, nfs, height, mtp, expiry, post, rfl, hok⟩ := h
  exact ⟨pre, note, x, nfs, height, mtp, expiry, post ++ more, by simp, hok⟩

/-- Every member of the live set and of every checkpoint was adopted or succeeded. -/
theorem provenance_run (acts : List (Act RegOp)) (nf : Nullifier) :
    (nf ∈ ((system params).run new acts).anchors.live ∨
      ∃ (k : ℕ) (c : Finset Nullifier),
        ((system params).run new acts).anchors.checkpoints[k]? = some c ∧ nf ∈ c) →
    Adopted params acts nf ∨ Succeeded params acts nf := by
  induction acts using List.reverseRecOn with
  | nil => simp [new, AnchorPool.empty]
  | append_singleton acts a ih =>
    have ih' := fun h => (ih h).imp (fun h => h.append [a]) (fun h => h.append [a])
    rw [System.run_append]
    cases a with
    | op o =>
      have hstep := poolStep params ((system params).run new acts) o
      -- the live set is the only place a new member can come from
      have hlive : nf ∈ (o.apply params ((system params).run new acts)).1.anchors.live →
          Adopted params (acts ++ [.op o]) nf ∨ Succeeded params (acts ++ [.op o]) nf := by
        intro h
        rcases hstep with ⟨hsub, -, -⟩ | ⟨height, x, rfl, hopen, -, heq, -⟩ |
          ⟨b, s, ⟨note, x, nfs, height, mtp, expiry, rfl⟩, hok, -, heq, -, -⟩
        · exact ih' (Or.inl (hsub h))
        · rw [heq, Finset.mem_insert] at h
          rcases h with rfl | h
          · refine Or.inl ⟨acts, height, [], rfl, hopen, ?_⟩
            exact heq ▸ Finset.mem_insert_self nf _
          · exact ih' (Or.inl h)
        · rw [heq, Finset.mem_insert] at h
          rcases h with rfl | h
          · exact Or.inr ⟨acts, note, x, nfs, height, mtp, expiry, [], rfl, hok⟩
          · exact ih' (Or.inl (Finset.mem_of_mem_erase h))
      rintro (h | ⟨k, c, hc, h⟩)
      · exact hlive h
      · rcases hstep.snapshots k c hc with hc | rfl
        · exact ih' (Or.inr ⟨k, c, hc, h⟩)
        · exact hlive h
    | truncate k =>
      rintro (h | ⟨j, c, hc, h⟩)
      · rcases truncate_live_cases ((system params).run new acts) k with hempty | ⟨j, c, hc, heq⟩
        · exact absurd (hempty ▸ h : nf ∈ (∅ : Finset Nullifier)) (by simp)
        · exact ih' (Or.inr ⟨j, c, hc, heq ▸ h⟩)
      · exact ih' (Or.inr ⟨j, c, truncate_checkpoints hc, h⟩)

/-! ### Registration -/

theorem record_markReleased_none {n : Name} (h : r.record n = none) (nfs : List Nullifier) (height : ℕ) :
    (r.markReleased nfs height).record n = none := by
  suffices hfold : ∀ (names : List Name) (r : Registry), r.record n = none →
      (names.foldl (markReleasedOne height) r).record n = none from hfold _ r h
  intro names
  induction names with
  | nil => exact fun r h => h
  | cons m names ih =>
    refine fun r h => ih _ ?_
    unfold markReleasedOne
    split
    · exact h
    · rw [record_setRecord]
      split_ifs with h1 h2
      · rfl
      · exact absurd rfl h2
      · exact h

theorem record_followSpends_none {n : Name} (h : r.record n = none) (nfs : List Nullifier) (height : ℕ) :
    (r.followSpends nfs height).record n = none := by
  refine record_markReleased_none ?_ nfs height
  exact h

theorem acceptSuccessor_record_none {note : NameNote} {nf : Nullifier} {n : Name}
    (h : r.record n = none) :
    (acceptSuccessor params r note nf nfs height mtp).1.record n = none := by
  unfold acceptSuccessor
  split
  · exact record_followSpends_none h nfs height
  · rename_i record hspent
    have hlive := (record_of_predecessorSpent hspent).1
    have hne : note.name ≠ n := fun heq => by rw [heq, h] at hlive; cases hlive
    split_ifs
    · exact (record_setRecord _ _ _).trans ((if_neg hne).trans h)
    · exact (record_setRecord _ _ _).trans ((if_neg hne).trans h)

/-- A name becomes live only by an accepted claim. -/
theorem registers_only_by_claim {o : RegOp} {n : Name} (h : r.record n = none)
    (h' : (o.apply params r).1.record n ≠ none) :
    ∃ note nf succ nfs height mtp expiry, o = .acceptClaim note nf succ nfs height mtp expiry ∧
      note.1.name = n ∧ (acceptClaim params r note nf succ nfs height mtp expiry).2 = true := by
  cases o with
  | adoptAnchor height nf => exact absurd h h'
  | acceptClaim note nf succ nfs height mtp expiry =>
    refine ⟨note, nf, succ, nfs, height, mtp, expiry, rfl, ?_⟩
    rw [RegOp.apply] at h'
    rcases acceptClaim_cases params r note nf succ nfs height mtp expiry with
      ⟨-, heq⟩ | ⟨-, -, heq⟩ | ⟨s, -, -, -, -, -, heq⟩
    · rw [heq] at h'
      exact absurd (record_followSpends_none h nfs height) h'
    · rw [heq] at h'
      exact absurd h h'
    · rw [heq] at h' ⊢
      refine ⟨?_, rfl⟩
      by_contra hne
      exact h' ((record_setRecord _ _ _).trans ((if_neg hne).trans h))
  | acceptUpdate note nf nfs height mtp => exact absurd (acceptSuccessor_record_none h) h'
  | acceptRelease note nf nfs height mtp => exact absurd (acceptSuccessor_record_none h) h'
  | acceptSale note nf nfs height mtp => exact absurd (acceptSuccessor_record_none h) h'
  | followSpends nfs height =>
    exact absurd (record_followSpends_none h nfs height) h'

/-- **Claim authority is never minted, only succeeded**, in every registry a run reaches. -/
theorem reachable_authority (acts : List (Act RegOp)) :
    let r := (system params).run new acts
    r.anchors.live.card ≤ ANCHOR_POOL_SIZE ∧
    (∀ e, r.anchors.established = some e →
      (∀ more, (∀ k, Act.truncate k ∈ more → e ≤ k) →
        ((system params).run r more).anchors.established = some e ∧
        ∀ height nf, ((system params).run r more).adoptAnchor height nf = (system params).run r more) ∧
      ∀ o : RegOp, (o.apply params r).1.anchors.live.card ≤ r.anchors.live.card) ∧
    (∀ nf ∈ r.anchors.live, Adopted params acts nf ∨ Succeeded params acts nf) ∧
    (∀ note nf succ nfs height mtp expiry,
      ((acceptClaim params r note nf succ nfs height mtp expiry).2 = true →
        ∃ a s, succ = some s ∧ nfs.filter r.anchors.contains = [a] ∧ a ∈ r.anchors.live ∧
          (acceptClaim params r note nf succ nfs height mtp expiry).1.anchors.live =
            insert s (r.anchors.live.erase a) ∧
          (s ∉ r.anchors.live →
            (acceptClaim params r note nf succ nfs height mtp expiry).1.anchors.live.card =
              r.anchors.live.card)) ∧
      ((acceptClaim params r note nf succ nfs height mtp expiry).2 = false →
        (acceptClaim params r note nf succ nfs height mtp expiry).1.anchors.live =
          r.anchors.live \ nfs.toFinset)) ∧
    ∀ (o : RegOp) (n : Name), r.record n = none → (o.apply params r).1.record n ≠ none →
      ∃ note nf succ nfs height mtp expiry a, o = .acceptClaim note nf succ nfs height mtp expiry ∧
        note.1.name = n ∧ (o.apply params r).2 = true ∧ nfs.filter r.anchors.contains = [a] ∧
        r.namesSpentBy nfs = [] := by
  intro r
  refine ⟨(bounded_run acts).1, fun e he => ⟨fun more hmore => ?_, fun o => ?_⟩,
    fun nf hnf => provenance_run acts nf (Or.inl hnf), fun note nf succ nfs height mtp expiry =>
      ⟨fun hok => ?_, fun hno => ?_⟩, fun o n hn hn' => ?_⟩
  · have hest := established_run params more r he hmore
    exact ⟨hest, fun height nf => adoptAnchor_of_established hest height nf⟩
  · exact (poolStep params r o).card_le (by rw [he]; simp)
  · obtain ⟨a, s, hs, hfilter, ha, -, -, -, hlive⟩ := acceptClaim_true hok
    refine ⟨a, s, hs, hfilter, ha, hlive, fun hfresh => ?_⟩
    have hfresh' : s ∉ r.anchors.live.erase a := fun h => hfresh (Finset.mem_of_mem_erase h)
    rw [hlive, Finset.card_insert_of_notMem hfresh', Finset.card_erase_add_one ha]
  · rw [acceptClaim_false hno, AnchorPool.retireSpent_none_live]
  · obtain ⟨note, nf, succ, nfs, height, mtp, expiry, rfl, hname, hok⟩ := registers_only_by_claim hn hn'
    obtain ⟨a, -, -, hfilter, -, hnames, -⟩ := acceptClaim_true hok
    exact ⟨note, nf, succ, nfs, height, mtp, expiry, a, rfl, hname, hok, hfilter, hnames⟩

end ZnsMint.Registry
