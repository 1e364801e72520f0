import ZnsMint.Registry.Spends

/-! # What a block does to the registry

The confirmation pass over the transactions of a block: it is made of micro steps at the block's height,
it appends to the chains, and a live record stays until a transaction spends its note. Then what a
truncation keeps of a chain. -/

namespace ZnsMint.Registry

open Basic Note

variable {params : Params} {r r' : Registry} {nfs : List Nullifier} {height lo : ℕ} {mtp : ℤ}

/-! ### Micro steps -/

theorem micros_adoptCeremony (r : Registry) (tx : ScannedTx) (height : ℕ) :
    Micros height r (r.adoptCeremony tx height) := by
  unfold adoptCeremony
  split_ifs
  · generalize tx.ceremony = nfs
    induction nfs generalizing r with
    | nil => exact .refl
    | cons nf nfs ih => exact .head (.adopt r nf) (ih _)
  · exact .refl

theorem micros_dispatch (h : r.Keyed) (tx : ScannedTx) (mtp : ℤ) :
    Micros height r (dispatch params r tx height mtp).1 := by
  unfold dispatch
  split
  · rename_i c _
    split
    · rename_i heq
      rw [heq]
      exact micros_acceptClaim h rfl _ _ _ _ _
    · rename_i heq
      rw [heq]
      exact micros_acceptSuccessor h (Or.inl rfl) _ _ _
    · rename_i heq
      rw [heq]
      exact micros_acceptSuccessor h (Or.inr (Or.inl rfl)) _ _ _
    · rename_i heq
      rw [heq]
      exact micros_acceptSuccessor h (Or.inr (Or.inr rfl)) _ _ _
  · exact micros_followSpends h tx.nfs height

theorem keyed_adoptCeremony (h : r.Keyed) (tx : ScannedTx) (height : ℕ) :
    (r.adoptCeremony tx height).Keyed :=
  fun n e he => h n e (((adoptCeremony_spec r tx height).1 n).symm.trans he)

theorem micros_confirmTx (h : r.Keyed) (tx : ScannedTx) (mtp : ℤ) :
    Micros height r (confirmTx params r tx height mtp).1 :=
  (micros_adoptCeremony r tx height).trans (micros_dispatch (keyed_adoptCeremony h tx height) tx mtp)

theorem Keyed.micros (h : r.Keyed) (hm : Micros height r r') : r'.Keyed := by
  induction hm with
  | refl => exact h
  | tail _ hstep ih =>
    cases hstep with
    | write record => exact ih.setRecord record
    | adopt nf => exact ih
    | retire nfs succ => exact ih

theorem micros_confirmBlock (mtp : ℤ) :
    ∀ (txs : List ScannedTx) (r : Registry), r.Keyed →
      Micros height r (confirmBlock params r txs height mtp)
  | [], _, _ => .refl
  | tx :: txs, _, h =>
    have htx := micros_confirmTx h tx mtp
    htx.trans (micros_confirmBlock mtp txs _ (h.micros htx))

theorem WellFormed.confirmBlock (h : WellFormed lo r) (hlo : lo ≤ height) (txs : List ScannedTx)
    (mtp : ℤ) : WellFormed height (confirmBlock params r txs height mtp) :=
  (h.mono hlo).micros (micros_confirmBlock mtp txs r h.keyed)

/-- The chains only grow. -/
theorem recordHistory_micros (hm : Micros height r r') (n : Name) :
    r.recordHistory n <+: r'.recordHistory n := by
  induction hm with
  | refl => exact List.prefix_rfl
  | tail _ hstep ih =>
    cases hstep with
    | write record =>
      refine ih.trans ?_
      rw [recordHistory_setRecord]
      split_ifs with hn
      · rw [hn]
        exact List.prefix_append _ _
      · exact List.prefix_rfl
    | adopt nf => exact ih
    | retire nfs succ => exact ih

/-! ### Records whose note is not spent -/

theorem record_acceptSuccessor_kept {note : NameNote} {nf : Nullifier} {n : Name} {e : NameRecord}
    (h : r.Keyed) (he : r.record n = some e) (hnf : e.predecessorNullifier ∉ nfs) :
    (acceptSuccessor params r note nf nfs height mtp).1.record n = some e := by
  unfold acceptSuccessor
  split
  · exact (followed_followSpends h nfs height).records_kept n e he hnf
  · rename_i live hspent
    obtain ⟨-, hspentBy, -⟩ := record_of_predecessorSpent hspent
    have hne : note.name ≠ n := by
      rintro rfl
      obtain ⟨e', he', hnf'⟩ := mem_namesSpentBy.mp
        (show note.name ∈ r.namesSpentBy nfs by rw [hspentBy]; exact List.mem_singleton_self _)
      rw [he] at he'
      cases he'
      exact hnf hnf'
    split_ifs
    · rw [releasePredecessor, record_setRecord]
      exact (if_neg hne).trans he
    · rw [record_setRecord]
      exact (if_neg hne).trans he

theorem record_acceptClaim_kept {note : NameNote} {nf : Nullifier} {succ : Option Nullifier} {expiry : ℕ}
    {n : Name} {e : NameRecord} (h : r.Keyed) (he : r.record n = some e)
    (hnf : e.predecessorNullifier ∉ nfs) :
    (acceptClaim params r note nf succ nfs height mtp expiry).1.record n = some e := by
  rcases acceptClaim_cases params r note nf succ nfs height mtp expiry with
    ⟨-, heq⟩ | ⟨-, -, heq⟩ | ⟨s, -, -, -, hfree, -, heq⟩
  · rw [heq]
    exact (followed_followSpends h nfs height).records_kept n e he hnf
  · rw [heq]
    exact he
  · rw [heq, record_setRecord]
    refine (if_neg ?_).trans he
    rintro rfl
    rw [show r.record (NameRecord.create params note nf height mtp).name = none from hfree] at he
    cases he

theorem record_confirmTx_kept {tx : ScannedTx} {n : Name} {e : NameRecord} (h : r.Keyed)
    (he : r.record n = some e) (hnf : e.predecessorNullifier ∉ tx.nfs) :
    (confirmTx params r tx height mtp).1.record n = some e := by
  have hkeyed := keyed_adoptCeremony h tx height
  have he' := ((adoptCeremony_spec r tx height).1 n).trans he
  unfold confirmTx dispatch
  split
  · split
    · exact record_acceptClaim_kept hkeyed he' hnf
    · exact record_acceptSuccessor_kept hkeyed he' hnf
    · exact record_acceptSuccessor_kept hkeyed he' hnf
    · exact record_acceptSuccessor_kept hkeyed he' hnf
  · exact (followed_followSpends hkeyed tx.nfs height).records_kept n e he' hnf

/-- A live record stays until a transaction of the block spends its note. -/
theorem record_confirmBlock_kept {n : Name} {e : NameRecord} {txs : List ScannedTx} (h : r.Keyed)
    (he : r.record n = some e) (hnf : ∀ tx ∈ txs, e.predecessorNullifier ∉ tx.nfs) :
    (confirmBlock params r txs height mtp).record n = some e := by
  induction txs generalizing r with
  | nil => exact he
  | cons tx txs ih =>
    refine ih (h.micros (micros_confirmTx h tx mtp)) ?_ fun tx' htx' => hnf tx' (by simp [htx'])
    exact record_confirmTx_kept h he (hnf tx (by simp))

/-! ### What a truncation keeps -/

theorem mem_recordHistory_truncateToHeight (h : WellFormed lo r) {n : Name} {e : NameRecord} {k : ℕ}
    (he : e ∈ r.recordHistory n) (hk : e.confirmedHeight ≤ k) :
    e ∈ (r.truncateToHeight k).recordHistory n := by
  rw [recordHistory_truncateToHeight]
  have hord := h.ordered n
  revert he hord
  generalize r.recordHistory n = l
  induction l using List.reverseRecOn with
  | nil => exact fun he _ => he
  | append_singleton l x ih =>
    intro he hord
    by_cases hx : k < x.confirmedHeight
    · rw [List.rdropWhile_concat_pos _ _ _ (by simpa using hx)]
      refine ih ?_ (hord.sublist (List.sublist_append_left _ _))
      rcases List.mem_append.mp he with he | he
      · exact he
      · rw [List.mem_singleton.mp he] at hk
        omega
    · rw [List.rdropWhile_concat_neg _ _ _ (by simpa using hx)]
      exact he

end ZnsMint.Registry
