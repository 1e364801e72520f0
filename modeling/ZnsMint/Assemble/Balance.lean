import ZnsMint.Assemble.Funding

/-! # Whether the staged transaction balances

The builder asks that what is left over be the fee of the actions that were in fact staged. The plan
counts a change output in; where there is none, a claim has one output less than planned. With two fee
notes or more the spends make up for it. With one they do not: a claim whose largest fee note is worth
the planned three actions to the zatoshi stages two, and is refused (`staged_balance`). -/

namespace ZnsMint.Assemble

open Basic Note

/-- The value of what is spent. -/
def Staged.inputs {π σ : Type} (s : Staged π σ) : ℕ := (s.spends.map fun x => x.value.val).sum

/-- The value of what is created. -/
def Staged.created {π σ : Type} (s : Staged π σ) : ℕ := (s.outputs.map fun x => x.value.val).sum

/-- The fee of ZIP 317 for the actions staged. -/
def Staged.required {π σ : Type} (s : Staged π σ) (marginal : Zatoshis) : ℕ :=
  marginal.val * max 2 (max s.spends.length s.outputs.length)

/-- What the builder requires. -/
def Staged.Balanced {π σ : Type} (s : Staged π σ) (marginal : Zatoshis) : Prop :=
  (s.inputs : ℤ) - s.created = s.required marginal

instance {π σ : Type} (s : Staged π σ) (marginal : Zatoshis) : Decidable (s.Balanced marginal) :=
  inferInstanceAs (Decidable ((s.inputs : ℤ) - s.created = s.required marginal))

/-- The largest of the values. -/
def LargestIs (values : List ℕ) (v : ℕ) : Prop := v ∈ values ∧ ∀ x ∈ values, x ≤ v

namespace Desk

variable {ε π σ τ : Type} {d : Desk ε π σ τ} {note : NameNote} {authority : OwnedNote} {res : Funded π}
  {marginal change : Zatoshis} {anchor : σ} {spend : StagedSpend π} {path : π}

/-! ### What was staged -/

theorem value_authoritySpend (h : d.authoritySpend note authority path = pure spend) :
    spend.value = authority.value := by
  unfold authoritySpend at h
  split at h
  · cases h
    rfl
  · split at h
    · cases h
    · cases h
    · cases h
      rfl

/-- The outputs of a claim, or of any other note, beside the change. -/
def plainOutputs (note : NameNote) : ℕ := if note.action.isClaim then 2 else 1

theorem fixedOutputs_eq (note : NameNote) : fixedOutputs note = plainOutputs note + 1 := by
  unfold fixedOutputs plainOutputs
  split_ifs
  · rfl
  · rfl

theorem length_spends (note : NameNote) (anchor : σ) (spend : StagedSpend π) (res : Funded π)
    (change : Zatoshis) :
    (stage note anchor spend res change).spends.length = 1 + res.feeNotes.length := by
  unfold stage
  rw [List.length_cons, List.length_map, Nat.add_comm]

theorem length_outputs (note : NameNote) (anchor : σ) (spend : StagedSpend π) (res : Funded π)
    (change : Zatoshis) :
    (stage note anchor spend res change).outputs.length = plainOutputs note + if 0 <
    change.val then 1 else 0 := by
  unfold stage plainOutputs
  split_ifs
  · rfl
  · rfl
  · rfl
  · rfl

theorem inputs_stage (note : NameNote) (anchor : σ) (hspend : spend.value = .zero) (res : Funded π)
    (change : Zatoshis) :
    (stage note anchor spend res change).inputs = (worth (res.feeNotes.map Prod.fst)).sum := by
  have hzero : spend.value.val = 0 := by
    rw [hspend]
    rfl
  unfold stage Staged.inputs worth
  rw [List.map_cons, List.sum_cons, hzero, Nat.zero_add, List.map_map, List.map_map]
  rfl

theorem created_stage (note : NameNote) (anchor : σ) (spend : StagedSpend π) (res : Funded π)
    (change : Zatoshis) :
    (stage note anchor spend res change).created = change.val := by
  have hzero : Zatoshis.zero.val = 0 := rfl
  unfold stage Staged.created
  split_ifs with hclaim hchange hchange
  · simp [StagedOutput.value, hzero]
  · simp [StagedOutput.value, hzero]
    omega
  · simp [StagedOutput.value, hzero]
  · simp [StagedOutput.value, hzero]
    omega

theorem sub_eq_some {a b c : Zatoshis} (h : a.sub b = some c) : c.val + b.val = a.val := by
  unfold Zatoshis.sub at h
  split_ifs at h with hle
  cases h
  exact Nat.sub_add_cancel hle

/-! ### When it balances -/

/-- The plan is one output too many for a claim without change, and one fee note does not make up for
it. -/
theorem balanced_iff (hpos : 0 < marginal.val) (hspend : spend.value = .zero)
    (hfee : res.fee.val = planned marginal note res.feeNotes.length)
    (hfunding : res.funding.val = (worth (res.feeNotes.map Prod.fst)).sum)
    (hchange : res.funding.sub res.fee = some change) :
    (stage note anchor spend res change).Balanced marginal ↔
      ¬ (note.action.isClaim = true ∧ res.feeNotes.length ≤ 1 ∧ change.val = 0) := by
  have hsub := sub_eq_some hchange
  have hleft : ((stage note anchor spend res change).inputs : ℤ) -
    (stage note anchor spend res change).created =
      (marginal.val * actionCount note res.feeNotes.length : ℕ) := by
    have hplan : res.fee.val = marginal.val * actionCount note res.feeNotes.length := hfee
    rw [inputs_stage note anchor hspend, created_stage, ← hfunding, ← hplan]
    omega
  unfold Staged.Balanced Staged.required
  rw [hleft, length_spends, length_outputs, Int.natCast_inj, Nat.mul_right_inj hpos.ne']
  unfold actionCount FIXED_SPENDS
  rw [fixedOutputs_eq]
  unfold plainOutputs
  constructor
  · rintro heq ⟨hclaim, hone, hnone⟩
    rw [if_pos hclaim, if_neg (by omega)] at heq
    omega
  · intro hnot
    by_cases hclaim : note.action.isClaim = true
    · by_cases hnone : change.val = 0
      · have htwo : ¬ res.feeNotes.length ≤ 1 := fun hone => hnot ⟨hclaim, hone, hnone⟩
        rw [if_pos hclaim, if_neg (by omega)]
        omega
      · rw [if_pos hclaim, if_pos (by omega)]
        omega
    · rw [if_neg hclaim]
      split_ifs
      · omega
      · omega

/-- A claim ends with one fee note or less and no change exactly when the largest candidate is worth
three actions. -/
theorem exact_iff (hpos : 0 < marginal.val) (hprice : d.Priced marginal)
    (hclaim : note.action.isClaim = true)
    (hfunded : d.funded note authority = pure res) (hchange : res.funding.sub res.fee = some change) :
    res.feeNotes.length ≤ 1 ∧ change.val = 0 ↔
      LargestIs (worth (d.candidates authority)) (3 * marginal.val) := by
  obtain ⟨j, hj, hnotes, hfunding, hfee, hle, hbefore⟩ := funded_ok hprice hfunded
  have hlen := length_feeNotes hj hnotes
  have hsub := sub_eq_some hchange
  have hthree : ∀ i ≤ 1, planned marginal note i = 3 * marginal.val := by
    intro i hi
    have hcount : actionCount note i = 3 := by
      unfold actionCount fixedOutputs FIXED_SPENDS
      rw [if_pos hclaim]
      omega
    unfold planned
    rw [hcount, Nat.mul_comm]
  have hsorted := d.worth_candidates authority
  rw [hlen]
  generalize worth (d.candidates authority) = values at *
  constructor
  · rintro ⟨hone, hnone⟩
    rw [hthree j hone] at hfee
    rcases values with _ | ⟨v, values⟩
    · rw [List.take_nil, List.sum_nil] at hfunding
      omega
    · obtain rfl : j = 1 := by
        by_contra hne
        obtain rfl : j = 0 := by omega
        rw [List.take_zero, List.sum_nil] at hfunding
        omega
      have hv : v = 3 * marginal.val := by
        rw [List.take_succ_cons, List.take_zero, List.sum_singleton] at hfunding
        omega
      subst hv
      refine ⟨List.mem_cons_self .., fun x hx => ?_⟩
      rcases List.mem_cons.mp hx with rfl | hx
      · exact le_rfl
      · exact (List.pairwise_cons.mp hsorted).1 x hx
  · rintro ⟨hmem, hmax⟩
    rcases values with _ | ⟨v, values⟩
    · cases hmem
    have hv : v = 3 * marginal.val := by
      refine le_antisymm (hmax v (List.mem_cons_self ..)) ?_
      rcases List.mem_cons.mp hmem with heq | hmem
      · exact heq.le
      · exact (List.pairwise_cons.mp hsorted).1 _ hmem
    have hfirst : ((v :: values).take 1).sum = 3 * marginal.val := by
      rw [List.take_succ_cons, List.take_zero, List.sum_singleton, hv]
    have hone : j ≤ 1 := by
      by_contra hmore
      have hlt := hbefore 1 (by omega)
      rw [hthree 1 le_rfl, hfirst] at hlt
      omega
    rw [hthree j hone] at hfee
    refine ⟨hone, ?_⟩
    rcases Nat.eq_zero_or_pos j with rfl | hj
    · rw [List.take_zero, List.sum_nil] at hfunding
      omega
    · obtain rfl : j = 1 := by omega
      omega

/-- **When a funded Name Note transaction balances.** Let the fee rule answer as ZIP 317 with a positive
marginal fee, and let the authority note be worth nothing, as an anchor and a Name Note are. Where the
funding loop succeeds, the transaction staged balances, and a builder that refuses just what does not
balance takes it, if and only if it is not so that the order is a claim and the largest candidate is
worth exactly three marginal fees. -/
theorem staged_balance (hpos : 0 < marginal.val) (hprice : d.Priced marginal)
    (hauthority : authority.value = .zero)
    (hfunded : d.funded note authority = pure res)
    (hspend : d.authoritySpend note authority path = pure spend)
    (anchor : σ) :
    ∃ change, res.funding.sub res.fee = some change ∧
      ((stage note anchor spend res change).Balanced marginal ↔
        ¬ (note.action = .claim ∧ LargestIs (worth (d.candidates authority)) (3 * marginal.val))) ∧
      ∀ imbalance, (∀ s, d.build s = .error imbalance ↔ ¬ s.Balanced marginal) →
        (d.build (stage note anchor spend res change) ≠ .error imbalance ↔
          ¬ (note.action = .claim ∧ LargestIs (worth (d.candidates authority)) (3 * marginal.val))) := by
  obtain ⟨j, hj, hnotes, hfunding, hfee, hle, -⟩ := funded_ok hprice hfunded
  have hlen := length_feeNotes hj hnotes
  have hzero : spend.value = .zero := (value_authoritySpend hspend).trans hauthority
  have hworth : res.funding.val = (worth (res.feeNotes.map Prod.fst)).sum := by
    rw [hnotes, worth_take, hfunding]
  obtain ⟨change, hchange⟩ : ∃ change, res.funding.sub res.fee = some change := ⟨_, if_pos hle⟩
  have hiff : (stage note anchor spend res change).Balanced marginal ↔
      ¬ (note.action = .claim ∧ LargestIs (worth (d.candidates authority)) (3 * marginal.val)) := by
    rw [balanced_iff hpos hzero (by rw [hlen, hfee]) hworth hchange]
    refine not_congr ?_
    have haction : note.action.isClaim = true ↔ note.action = .claim := by
      unfold Action.isClaim
      exact beq_iff_eq
    constructor
    · rintro ⟨hclaim, hexact⟩
      exact ⟨haction.mp hclaim, (exact_iff hpos hprice hclaim hfunded hchange).mp hexact⟩
    · rintro ⟨hclaim, hlargest⟩
      have hclaim' := haction.mpr hclaim
      exact ⟨hclaim', (exact_iff hpos hprice hclaim' hfunded hchange).mpr hlargest⟩
  refine ⟨change, hchange, hiff, fun imbalance hbuild => ?_⟩
  rw [ne_eq, hbuild, not_not]
  exact hiff

/-- A builder that asks for the exact balance. -/
def exactBuilder (s : Staged Unit Unit) : Except Unit Unit :=
  if s.Balanced sampleFee then .ok () else .error ()

/-- Two notes fund this claim, with change. -/
theorem staged_balance_two :
    ∃ res change, (sampleDesk [4000, 12000] exactBuilder).funded (.claim alice (sampleUa 1) .never)
      (sampleNote 0) =
        pure res ∧ res.funding.sub res.fee = some change ∧
      (stage (.claim alice (sampleUa 1) .never) () (.ironwood (sampleNote 0) ()) res change).Balanced
        sampleFee := by
  set d := sampleDesk [4000, 12000] exactBuilder with hd
  have hvalues : worth (d.candidates (sampleNote 0)) = [12000, 4000] := by decide +kernel
  have hsome : (d.funded (.claim alice (sampleUa 1) .never) (sampleNote 0)).run.isSome = true := by
    decide +kernel
  obtain ⟨out, hout⟩ := Option.isSome_iff_exists.mp hsome
  have hok : (d.funded (.claim alice (sampleUa 1) .never) (sampleNote 0)).run.all Except.isOk = true := by
    decide +kernel
  rw [hout] at hok
  rcases out with e | res
  · cases hok
  have hfunded : d.funded (.claim alice (sampleUa 1) .never) (sampleNote 0) = pure res := hout
  have hpos : 0 < sampleFee.val := by decide +kernel
  obtain ⟨change, hchange, hiff, -⟩ := staged_balance hpos
    (sampleDesk_priced [4000, 12000] exactBuilder) rfl hfunded
    (show d.authoritySpend _ (sampleNote 0) () = pure (.ironwood (sampleNote 0) ()) from rfl) ()
  refine ⟨res, change, hfunded, hchange, hiff.mpr ?_⟩
  rintro ⟨-, hmem, -⟩
  rw [hvalues] at hmem
  revert hmem
  decide +kernel

/-- One note is worth the three planned actions of the claim to the zatoshi. Two actions are staged, and
the builder refuses what is left over. -/
theorem staged_balance_exact :
    ∃ res change, (sampleDesk [15000] exactBuilder).funded (.claim alice (sampleUa 1) .never)
      (sampleNote 0) =
        pure res ∧ res.funding.sub res.fee = some change ∧
      ¬ (stage (.claim alice (sampleUa 1) .never) () (.ironwood (sampleNote 0) ()) res change).Balanced
        sampleFee ∧
      (sampleDesk [15000] exactBuilder).prepare (.claim alice (sampleUa 1) .never) =
        throw (.builder ()) := by
  set fee : Zatoshis := (sampleNote 15000).value with hfee
  refine ⟨⟨[(sampleNote 15000, ())], fee, fee⟩, .zero, ?_, ?_, ?_, ?_⟩
  · show (_ : Option (Except (PrepareError Unit) (Funded Unit))) = some (.ok _)
    decide +kernel
  · decide +kernel
  · decide +kernel
  · show (_ : Option (Except (PrepareError Unit) (Unit × Zatoshis))) = some (.error _)
    decide +kernel

end Desk

end ZnsMint.Assemble
