import ZnsMint.Registry.Chains

/-! # The registry follows every spend

Whatever the verdict on a transaction, what it spent is no longer authority afterwards: no live anchor
and no live record is left on a spent nullifier, and everything else stays. `Followed` states this for
one transaction; each of the early returns of the `accept_*` functions has to establish it on its own. -/

namespace ZnsMint.Registry

open Basic Note Inbound Lib.Rollback

variable {params : Params} {r : Registry} {nfs : List Nullifier} {height : ℕ} {mtp : ℤ}

/-- `r'` is `r` after a transaction that spent `nfs`: the authority it spent is gone, and the rest is
as it was. -/
structure Followed (nfs : List Nullifier) (r r' : Registry) : Prop where
  anchors_gone : ∀ nf ∈ nfs, nf ∉ r'.anchors.live
  records_gone : ∀ n e, r'.record n = some e → e.predecessorNullifier ∉ nfs
  anchors_kept : ∀ nf ∉ nfs, nf ∈ r.anchors.live → nf ∈ r'.anchors.live
  records_kept : ∀ n e, r.record n = some e → e.predecessorNullifier ∉ nfs → r'.record n = some e

/-- The live anchors once the spent ones are retired without a successor. -/
theorem mem_retired {nf : Nullifier} :
    nf ∈ ({ r with anchors := r.anchors.retireSpent nfs none height } : Registry).anchors.live ↔
      nf ∈ r.anchors.live ∧ nf ∉ nfs := by
  simp

theorem followed_followSpends (h : r.Keyed) (nfs : List Nullifier) (height : ℕ) :
    Followed nfs r (r.followSpends nfs height) where
  anchors_gone nf hnf hlive := by
    rw [followSpends, markReleased_anchors, mem_retired] at hlive
    exact hlive.2 hnf
  records_gone n e he := by
    rw [followSpends, record_markReleased (h.with_anchors _), Option.filter_eq_some_iff] at he
    simpa using he.2
  anchors_kept nf hnf hlive := by
    rw [followSpends, markReleased_anchors, mem_retired]
    exact ⟨hlive, hnf⟩
  records_kept n e he hnf := by
    rw [followSpends, record_markReleased (h.with_anchors _), record_with_anchors, he]
    simp [Option.filter, hnf]

/-- An entry written over a name whose note was the one spent, when no live anchor was. -/
theorem followed_write {e : NameRecord} (hname : r.namesSpentBy nfs = [e.name])
    (hanchors : ∀ nf ∈ nfs, nf ∉ r.anchors.live) (hfresh : e.predecessorNullifier ∉ nfs) :
    Followed nfs r (r.setRecord e) where
  anchors_gone := hanchors
  records_gone n x hx := by
    rw [record_setRecord] at hx
    split_ifs at hx with hn
    · cases hx; exact hfresh
    · intro hspent
      have : n ∈ r.namesSpentBy nfs := mem_namesSpentBy.mpr ⟨x, hx, hspent⟩
      rw [hname, List.mem_singleton] at this
      exact hn this.symm
  anchors_kept _ _ hlive := hlive
  records_kept n x hx hnf := by
    have hn : e.name ≠ n := by
      rintro rfl
      have hmem : e.name ∈ r.namesSpentBy nfs := by rw [hname]; exact List.mem_singleton_self _
      obtain ⟨y, hy, hspent⟩ := mem_namesSpentBy.mp hmem
      rw [hx] at hy
      cases hy
      exact hnf hspent
    rw [record_setRecord, if_neg hn]
    exact hx

theorem followed_acceptSuccessor (h : r.Keyed) {note : NameNote} {nf : Nullifier} (hfresh : nf ∉ nfs) :
    Followed nfs r (acceptSuccessor params r note nf nfs height mtp).1 := by
  unfold acceptSuccessor
  split
  · exact followed_followSpends h nfs height
  · rename_i record hspent
    obtain ⟨-, hname, hanchors⟩ := record_of_predecessorSpent hspent
    split_ifs
    · exact followed_write hname hanchors hfresh
    · exact followed_write hname hanchors hfresh

/-- A claim that spent no Name Note, seated `s` or nothing, and wrote `e` or nothing. -/
theorem followed_acceptClaim (h : r.Keyed) {note : NameNote} {nf : Nullifier} {expiry : ℕ}
    {succ : Option Nullifier} (hfresh : nf ∉ nfs) (hsucc : ∀ s, succ = some s → s ∉ nfs) :
    Followed nfs r (acceptClaim params r note nf succ nfs height mtp expiry).1 := by
  rcases acceptClaim_cases params r note nf succ nfs height mtp expiry with
    ⟨-, heq⟩ | ⟨hnone, -, heq⟩ | ⟨s, hs, -, hnone, hfree, -, heq⟩
  · rw [heq]
    exact followed_followSpends h nfs height
  · have hunspent := namesSpentBy_isEmpty.mp (List.isEmpty_iff.mpr hnone)
    rw [heq]
    refine ⟨fun nf hnf hlive => (mem_retired.mp hlive).2 hnf, hunspent,
      fun nf hnf hlive => mem_retired.mpr ⟨hlive, hnf⟩, fun n e he _ => he⟩
  · have hunspent := namesSpentBy_isEmpty.mp (List.isEmpty_iff.mpr hnone)
    rw [heq]
    refine ⟨fun nf hnf hlive => ?_, fun n e he => ?_, fun nf hnf hlive => ?_, fun n e he _ => ?_⟩
    · rw [setRecord_anchors, AnchorPool.retireSpent_live] at hlive
      have hnf' : nf ≠ s := fun h => hsucc s hs (h ▸ hnf)
      split_ifs at hlive <;> simp [hnf, hnf'] at hlive
    · rw [record_setRecord] at he
      split_ifs at he
      · cases he; exact hfresh
      · exact hunspent n e he
    · rw [setRecord_anchors, AnchorPool.retireSpent_live]
      split_ifs <;> simp [hnf, hlive]
    · rw [record_setRecord, if_neg]
      · exact he
      · rintro rfl
        rw [show r.record (NameRecord.create params note nf height mtp).name = none from hfree] at he
        cases he

theorem followed_dispatch (params : Params) (height : ℕ) (mtp : ℤ) (h : r.Keyed) {tx : ScannedTx}
    (hfresh : ∀ c ∈ tx.notes, c.nullifier ∉ tx.nfs) (hsucc : ∀ s, tx.successor = some s → s ∉ tx.nfs) :
    Followed tx.nfs r (dispatch params r tx height mtp).1 := by
  unfold dispatch
  split
  · rename_i c hc
    have hc' : c.nullifier ∉ tx.nfs := hfresh c (by rw [hc]; exact List.mem_singleton_self _)
    split
    · exact followed_acceptClaim h hc' hsucc
    · exact followed_acceptSuccessor h hc'
    · exact followed_acceptSuccessor h hc'
    · exact followed_acceptSuccessor h hc'
  · exact followed_followSpends h tx.nfs height

/-! ### What a transaction can add -/

theorem adoptCeremony_spec (r : Registry) (tx : ScannedTx) (height : ℕ) :
    (∀ n, (r.adoptCeremony tx height).record n = r.record n) ∧
      (∀ nf ∈ r.anchors.live, nf ∈ (r.adoptCeremony tx height).anchors.live) ∧
      ∀ nf ∈ (r.adoptCeremony tx height).anchors.live, nf ∈ r.anchors.live ∨ nf ∈ tx.ceremony := by
  unfold adoptCeremony
  split_ifs
  · generalize tx.ceremony = nfs
    induction nfs generalizing r with
    | nil => exact ⟨fun _ => rfl, fun _ h => h, fun _ h => Or.inl h⟩
    | cons a nfs ih =>
      obtain ⟨h1, h2, h3⟩ := ih (r.adoptAnchor height a)
      have hsub : ∀ nf ∈ r.anchors.live, nf ∈ (r.adoptAnchor height a).anchors.live := by
        intro nf hnf
        rcases r.anchors.adopt_cases height a with heq | ⟨-, -, -, heq⟩
        · rw [adoptAnchor, heq]; exact hnf
        · rw [adoptAnchor, heq]; exact Finset.mem_insert_of_mem hnf
      have hsup : ∀ nf ∈ (r.adoptAnchor height a).anchors.live, nf ∈ r.anchors.live ∨ nf = a := by
        intro nf hnf
        rcases r.anchors.adopt_cases height a with heq | ⟨-, -, -, heq⟩
        · rw [adoptAnchor, heq] at hnf; exact Or.inl hnf
        · rw [adoptAnchor, heq] at hnf; exact (Finset.mem_insert.mp hnf).symm
      refine ⟨h1, fun nf hnf => h2 nf (hsub nf hnf), fun nf hnf => ?_⟩
      rcases h3 nf hnf with h | h
      · rcases hsup nf h with h | rfl
        · exact Or.inl h
        · exact Or.inr (by simp)
      · exact Or.inr (List.mem_cons_of_mem _ h)
  · exact ⟨fun _ => rfl, fun _ h => h, fun _ h => Or.inl h⟩

/-- Only a claim's own successor joins the pool. -/
theorem dispatch_live {tx : ScannedTx} {nf : Nullifier}
    (hnf : nf ∈ (dispatch params r tx height mtp).1.anchors.live) :
    nf ∈ r.anchors.live ∨ tx.successor = some nf := by
  have hfollow : nf ∈ (r.followSpends tx.nfs height).anchors.live → nf ∈ r.anchors.live := by
    rw [followSpends, markReleased_anchors, mem_retired]
    exact fun h => h.1
  have hsuccessor : ∀ {note : NameNote} {x : Nullifier},
      nf ∈ (acceptSuccessor params r note x tx.nfs height mtp).1.anchors.live →
      nf ∈ r.anchors.live := by
    intro note x h
    unfold acceptSuccessor at h
    split at h
    · exact hfollow h
    · split_ifs at h <;> exact h
  unfold dispatch at hnf
  split at hnf
  · rename_i c _
    split at hnf
    · rcases acceptClaim_cases params r c.payload c.nullifier tx.successor tx.nfs height mtp tx.expiry
        with ⟨-, heq⟩ | ⟨-, -, heq⟩ | ⟨s, hs, -, -, -, -, heq⟩
      · rw [heq] at hnf; exact Or.inl (hfollow hnf)
      · rw [heq] at hnf; exact Or.inl (mem_retired.mp hnf).1
      · rw [heq, setRecord_anchors, AnchorPool.retireSpent_live] at hnf
        split_ifs at hnf
        · rcases Finset.mem_insert.mp hnf with rfl | hnf
          · exact Or.inr hs
          · exact Or.inl (Finset.mem_sdiff.mp hnf).1
        · exact Or.inl (Finset.mem_sdiff.mp hnf).1
    · exact Or.inl (hsuccessor hnf)
    · exact Or.inl (hsuccessor hnf)
    · exact Or.inl (hsuccessor hnf)
  · exact Or.inl (hfollow hnf)

/-- **The registry follows every spend.** After any scanned transaction on any reachable registry no
live anchor and no live record is on a spent nullifier, and every anchor and every record that is not on
one is as it was; what is new is the ceremony's or the claim's own. -/
theorem confirmTx_follows_spends {acts : List (Act RegOp)} (hf : (system params).Follows 0 acts)
    (tx : ScannedTx) (height : ℕ) (mtp : ℤ) (hfresh : ∀ c ∈ tx.notes, c.nullifier ∉ tx.nfs)
    (hsucc : ∀ s, tx.successor = some s → s ∉ tx.nfs) :
    let r := (system params).run new acts
    let r' := (confirmTx params r tx height mtp).1
    (∀ nf ∈ tx.nfs, nf ∉ r'.anchors.live) ∧
    (∀ n e, r'.record n = some e → e.predecessorNullifier ∉ tx.nfs) ∧
    (∀ nf ∉ tx.nfs, nf ∈ r.anchors.live → nf ∈ r'.anchors.live) ∧
    (∀ nf ∈ r'.anchors.live, nf ∈ r.anchors.live ∨
      (AnchorPool.isCeremonyFill tx.ceremony.length tx.notes.length = true ∧ nf ∈ tx.ceremony) ∨
      tx.successor = some nf) ∧
    ∀ n e, r.record n = some e → e.predecessorNullifier ∉ tx.nfs → r'.record n = some e := by
  intro r r'
  obtain ⟨lo, hwf⟩ := wellFormed_run hf
  obtain ⟨hrec, hkept, hnew⟩ := adoptCeremony_spec r tx height
  have hkeyed : (r.adoptCeremony tx height).Keyed := fun n e he => hwf.keyed n e (hrec n ▸ he)
  have h := followed_dispatch params height mtp hkeyed hfresh hsucc
  refine ⟨h.anchors_gone, h.records_gone, fun nf hnf hlive => h.anchors_kept nf hnf (hkept nf hlive),
    fun nf hnf => ?_, fun n e he hnf => h.records_kept n e ((hrec n).trans he) hnf⟩
  rcases dispatch_live hnf with hnf | hnf
  · by_cases hfill : AnchorPool.isCeremonyFill tx.ceremony.length tx.notes.length = true
    · rcases hnew nf hnf with hnf | hnf
      · exact Or.inl hnf
      · exact Or.inr (Or.inl ⟨hfill, hnf⟩)
    · rw [adoptCeremony, if_neg hfill] at hnf
      exact Or.inl hnf
  · exact Or.inr (Or.inr hnf)

/-- A claim of a second name on the successor anchor of the first, which it spends and replaces. -/
def secondClaim : ScannedTx :=
  ⟨[⟨12⟩], [⟨0, some ⟨15⟩⟩], [⟨.claim alicia (sampleUa 3) .never, ⟨14⟩⟩], 44⟩

/-- The spent anchor is gone, its successor alone is live, and the first name's record is as it was. -/
theorem confirmTx_follows_spends_sample :
    let r := (system Params.sample).run new sampleActs.dropLast
    let r' := (confirmTx Params.sample r secondClaim 4 0).1
    r.anchors.live = {⟨12⟩} ∧ r'.anchors.live = {⟨15⟩} ∧ (r'.record alicia).isSome = true ∧
      (∀ nf ∈ secondClaim.nfs, nf ∉ r'.anchors.live) ∧
      (∀ n e, r'.record n = some e → e.predecessorNullifier ∉ secondClaim.nfs) ∧
      ∀ n e, r.record n = some e → e.predecessorNullifier ∉ secondClaim.nfs → r'.record n = some e :=
  have hf : (system Params.sample).Follows 0 sampleActs.dropLast := by
    simp [System.Follows, system, sampleActs, RegOp.height]
  have h := confirmTx_follows_spends hf secondClaim 4 0 (by decide) (by decide)
  ⟨by decide +kernel, by decide +kernel, by decide +kernel, h.1, h.2.1, h.2.2.2.2⟩

end ZnsMint.Registry
