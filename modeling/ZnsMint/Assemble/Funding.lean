import ZnsMint.Assemble
import ZnsMint.Lib.LargestFirst

/-! # What the funding loop comes to

The loop takes the candidates largest first and stops at the first number of them that covers its own
planned fee. Each note raises the fee as well as the funding, but every number is tried, and no other
choice of as many notes is worth more; so the loop finds a choice that covers its fee whenever there is
one, of the least size (`fee_funding`). -/

namespace ZnsMint.Assemble

open Basic Note Lib.LargestFirst

/-! ### Computations that may fail -/

theorem bind_eq_pure {ε α β : Type} {x : Prepare ε α} {k : α → Prepare ε β} {b : β}
    (h : x >>= k = pure b) :
    ∃ a, x = pure a ∧ k a = pure b := by
  rcases x with _ | e | a
  · cases h
  · cases h
  · exact ⟨a, rfl, h⟩

theorem bind_eq_throw {ε α β : Type} {x : Prepare ε α} {k : α → Prepare ε β} {e : PrepareError ε}
    (h : x >>= k = throw e) : x = throw e ∨ ∃ a, x = pure a ∧ k a = throw e := by
  rcases x with _ | e' | a
  · cases h
  · cases h
    exact Or.inl rfl
  · exact Or.inr ⟨a, rfl, h⟩

theorem pure_ne_throw {ε α : Type} {a : α} {e : PrepareError ε} : (pure a : Prepare ε α) ≠ throw e :=
  fun h => by cases h

theorem expect_eq_pure {ε α : Type} {o : Option α} {a : α} (h : (expect o : Prepare ε α) = pure a) :
    o = some a := by
  rcases o with _ | b
  · cases h
  · cases h
    rfl

theorem expect_ne_throw {ε α : Type} {o : Option α} {e : PrepareError ε} :
    (expect o : Prepare ε α) ≠ throw e := by
  rcases o with _ | b
  · exact fun h => by cases h
  · exact fun h => by cases h

namespace Desk

/-! ### One turn of the funding loop -/

variable {ε π σ τ : Type} {d : Desk ε π σ τ} {note : NameNote} {authority candidate : OwnedNote}
  {rest : List OwnedNote}
  {feeNotes : List (OwnedNote × π)} {funding f : Zatoshis} {res : Funded π} {marginal : Zatoshis}

theorem fund_fee_error {e : ε} (hfee : d.feeRequired (actionCount note feeNotes.length) = .error e) :
    d.fund note rest feeNotes funding = throw (.fee e) := by
  unfold fund fee
  rw [hfee]
  rfl

theorem fund_covered (hfee : d.feeRequired (actionCount note feeNotes.length) = .ok f)
    (hcovered : f.val ≤ funding.val) :
    d.fund note rest feeNotes funding = pure ⟨feeNotes, funding, f⟩ := by
  unfold fund fee
  rw [hfee, pure_bind, if_pos hcovered]

theorem fund_nil (hfee : d.feeRequired (actionCount note feeNotes.length) = .ok f)
    (hopen : ¬ f.val ≤ funding.val) :
    d.fund note [] feeNotes funding = throw .feeUnfunded := by
  unfold fund fee
  rw [hfee, pure_bind, if_neg hopen]

theorem fund_cons (hfee : d.feeRequired (actionCount note feeNotes.length) = .ok f)
    (hopen : ¬ f.val ≤ funding.val) :
    d.fund note (candidate :: rest) feeNotes funding = (do
      let funding ← expect (funding.add candidate.value)
      let path ← d.witnessAt candidate
      d.fund note rest (feeNotes ++ [(candidate, path)]) funding) := by
  rw [fund, fee, hfee, pure_bind, if_neg hopen]

/-- A turn that the fee rule does not stop has asked for a fee: it ends there with what it has, or what
it has does not cover the fee. -/
theorem fund_asked {r : Prepare ε (Funded π)} (h : d.fund note rest feeNotes funding = r)
    (hanswered : ∀ e, r ≠ throw (.fee e)) :
    ∃ f, d.feeRequired (actionCount note feeNotes.length) = .ok f ∧
      (f.val ≤ funding.val ∧ r = pure ⟨feeNotes, funding, f⟩ ∨ ¬ f.val ≤ funding.val) := by
  rcases hfee : d.feeRequired (actionCount note feeNotes.length) with e | f
  · exact absurd (h.symm.trans (fund_fee_error hfee)) (hanswered e)
  · refine ⟨f, rfl, ?_⟩
    by_cases hcovered : f.val ≤ funding.val
    · exact Or.inl ⟨hcovered, h.symm.trans (fund_covered hfee hcovered)⟩
    · exact Or.inr hcovered

/-! ### The whole loop -/

/-- The fee rule answers with the fee of ZIP 317, where it answers. -/
def Priced (d : Desk ε π σ τ) (marginal : Zatoshis) : Prop :=
  ∀ n f, d.feeRequired n = .ok f → f.val = marginal.val * max 2 n

/-- The planned fee with `n` fee notes. -/
def planned (marginal : Zatoshis) (note : NameNote) (n : ℕ) : ℕ := marginal.val * actionCount note n

/-- The values of the notes. -/
def worth (l : List OwnedNote) : List ℕ := l.map fun n => n.value.val

theorem Priced.planned (h : d.Priced marginal) {n : ℕ}
    (hfee : d.feeRequired (actionCount note n) = .ok f) :
    f.val = Desk.planned marginal note n := by
  have hmin : max 2 (actionCount note n) = actionCount note n := max_eq_right (le_max_right _ _)
  rw [h _ _ hfee, hmin]
  rfl

theorem witnessAt_ne_unfunded : d.witnessAt candidate ≠ throw .feeUnfunded := by
  unfold witnessAt
  split
  · exact fun h => by cases h
  · exact fun h => by cases h
  · exact pure_ne_throw

theorem anchorAt_ne_unfunded : d.anchorAt ≠ throw .feeUnfunded := by
  unfold anchorAt
  split
  · exact fun h => by cases h
  · exact fun h => by cases h
  · exact pure_ne_throw

theorem add_eq_some {a b c : Zatoshis} (h : a.add b = some c) : c.val = a.val + b.val := by
  unfold Zatoshis.add Zatoshis.fromU64 at h
  split_ifs at h
  cases h
  rfl

/-- Where the loop goes on, the notes it has do not cover their planned fee. -/
theorem short_zero (hprice : d.Priced marginal)
    (hfee : d.feeRequired (actionCount note feeNotes.length) = .ok f)
    (hopen : ¬ f.val ≤ funding.val) (rest : List OwnedNote) :
    funding.val + (worth (rest.take 0)).sum < planned marginal note (feeNotes.length + 0) := by
  have hplan := hprice.planned hfee
  have hnone : (worth (rest.take 0)).sum = 0 := by
    rw [List.take_zero]
    rfl
  rw [hnone, Nat.add_zero, Nat.add_zero]
  omega

/-- What is short after the next candidate is short with that candidate counted among the rest. -/
theorem short_succ {funding' : Zatoshis} {path : π} {i : ℕ}
    (hadd : funding'.val = funding.val + candidate.value.val)
    (h : funding'.val + (worth (rest.take i)).sum <
      planned marginal note ((feeNotes ++ [(candidate, path)]).length + i)) :
    funding.val + (worth ((candidate :: rest).take (i + 1))).sum < planned marginal note
      (feeNotes.length + (i + 1)) := by
  have hcount : (feeNotes ++ [(candidate, path)]).length + i = feeNotes.length + (i + 1) := by
    rw [List.length_append, List.length_singleton]
    omega
  have hsum : (worth ((candidate :: rest).take (i + 1))).sum =
      candidate.value.val + (worth (rest.take i)).sum := by
    rw [List.take_succ_cons]
    rfl
  rw [hcount] at h
  rw [hsum]
  omega

/-- The loop ends with the first notes that cover their own planned fee. -/
theorem fund_ok (hprice : d.Priced marginal) :
    ∀ (rest : List OwnedNote) (feeNotes : List (OwnedNote × π)) (funding : Zatoshis),
      d.fund note rest feeNotes funding = pure res →
      ∃ j ≤ rest.length, res.feeNotes.map Prod.fst = feeNotes.map Prod.fst ++ rest.take j ∧
        res.funding.val = funding.val + (worth (rest.take j)).sum ∧
        res.fee.val = planned marginal note (feeNotes.length + j) ∧ res.fee.val ≤ res.funding.val ∧
        ∀ i < j, funding.val + (worth (rest.take i)).sum < planned marginal note
          (feeNotes.length + i) := by
  intro rest
  induction rest with
  | nil =>
    intro feeNotes funding h
    obtain ⟨f, hfee, ⟨hcovered, hres⟩ | hopen⟩ := fund_asked h fun _ => pure_ne_throw
    · cases hres
      exact ⟨0, le_rfl, by simp, by simp [worth], hprice.planned hfee, hcovered, by simp⟩
    · rw [fund_nil hfee hopen] at h
      cases h
  | cons candidate rest ih =>
    intro feeNotes funding h
    obtain ⟨f, hfee, ⟨hcovered, hres⟩ | hopen⟩ := fund_asked h fun _ => pure_ne_throw
    · cases hres
      exact ⟨0, Nat.zero_le _, by simp, by simp [worth], hprice.planned hfee, hcovered, by simp⟩
    rw [fund_cons hfee hopen] at h
    obtain ⟨funding', hadd, h⟩ := bind_eq_pure h
    obtain ⟨path, -, h⟩ := bind_eq_pure h
    have hfunding := add_eq_some (expect_eq_pure hadd)
    obtain ⟨j, hj, hnotes, hsum, hplan, hle, hbefore⟩ := ih _ _ h
    refine ⟨j + 1, Nat.succ_le_succ hj, ?_, ?_, ?_, hle, ?_⟩
    · rw [hnotes, List.map_append, List.append_assoc]
      rfl
    · rw [hsum, hfunding, List.take_succ_cons]
      simp [worth, Nat.add_assoc]
    · rw [hplan, List.length_append, List.length_singleton]
      congr 1
      omega
    · rintro (_ | i) hi
      · exact short_zero hprice hfee hopen _
      · exact short_succ hfunding (hbefore i (by omega))

/-- The loop gives up only when no number of notes covered its planned fee. -/
theorem fund_unfunded (hprice : d.Priced marginal) :
    ∀ (rest : List OwnedNote) (feeNotes : List (OwnedNote × π)) (funding : Zatoshis),
      d.fund note rest feeNotes funding = throw .feeUnfunded →
      ∀ i ≤ rest.length, funding.val + (worth (rest.take i)).sum < planned marginal note
        (feeNotes.length + i) := by
  intro rest
  induction rest with
  | nil =>
    intro feeNotes funding h i hi
    obtain ⟨f, hfee, ⟨-, hres⟩ | hopen⟩ := fund_asked h fun _ he => by cases he
    · exact absurd hres.symm pure_ne_throw
    · obtain rfl : i = 0 := Nat.le_zero.mp hi
      exact short_zero hprice hfee hopen _
  | cons candidate rest ih =>
    intro feeNotes funding h i hi
    obtain ⟨f, hfee, ⟨-, hres⟩ | hopen⟩ := fund_asked h fun _ he => by cases he
    · exact absurd hres.symm pure_ne_throw
    rcases i with _ | i
    · exact short_zero hprice hfee hopen _
    rw [fund_cons hfee hopen] at h
    rcases bind_eq_throw h with h | ⟨funding', hadd, h⟩
    · exact absurd h expect_ne_throw
    rcases bind_eq_throw h with h | ⟨path, -, h⟩
    · exact absurd h witnessAt_ne_unfunded
    have hfunding := add_eq_some (expect_eq_pure hadd)
    exact short_succ hfunding (ih _ _ h i (Nat.le_of_succ_le_succ hi))

/-- The loop comes to one of the two ends. -/
theorem fund_total (hwitness : ∀ c ∈ rest, ∃ path, d.witness c = .ok (some path))
    (hanswers : ∀ i ≤ rest.length, ∃ f, d.feeRequired (actionCount note (feeNotes.length + i)) = .ok f)
    (hsum : funding.val + (worth rest).sum ≤ MAX_MONEY) :
    d.fund note rest feeNotes funding = throw .feeUnfunded ∨ ∃ res, d.fund note rest feeNotes funding =
      pure res := by
  induction rest generalizing feeNotes funding with
  | nil =>
    obtain ⟨f, hfee⟩ := hanswers 0 le_rfl
    by_cases hcovered : f.val ≤ funding.val
    · exact Or.inr ⟨_, fund_covered hfee hcovered⟩
    · exact Or.inl (fund_nil hfee hcovered)
  | cons candidate rest ih =>
    obtain ⟨f, hfee⟩ := hanswers 0 (Nat.zero_le _)
    by_cases hcovered : f.val ≤ funding.val
    · exact Or.inr ⟨_, fund_covered hfee hcovered⟩
    obtain ⟨path, hpath⟩ := hwitness candidate (List.mem_cons_self ..)
    have hparts : funding.val + (candidate.value.val + (worth rest).sum) ≤ MAX_MONEY := hsum
    have hfits : funding.val + candidate.value.val ≤ MAX_MONEY := by omega
    have hadd : funding.add candidate.value = some ⟨funding.val + candidate.value.val, hfits⟩ :=
      dif_pos hfits
    have hwit : d.witnessAt candidate = pure path := by
      unfold witnessAt
      rw [hpath]
    have hnext : d.fund note (candidate :: rest) feeNotes funding =
        d.fund note rest (feeNotes ++ [(candidate, path)])
          ⟨funding.val + candidate.value.val, hfits⟩ := by
      rw [fund_cons hfee hcovered, hadd, hwit]
      rfl
    rw [hnext]
    refine ih (fun c hc => hwitness c (List.mem_cons_of_mem _ hc)) (fun i hi => ?_) ?_
    · obtain ⟨f', hf'⟩ := hanswers (i + 1) (Nat.succ_le_succ hi)
      refine ⟨f', ?_⟩
      rw [List.length_append, List.length_singleton, Nat.add_assoc, Nat.add_comm 1 i]
      exact hf'
    · show funding.val + candidate.value.val + (worth rest).sum ≤ MAX_MONEY
      omega

theorem worth_candidates (d : Desk ε π σ τ) (authority : OwnedNote) :
    (worth (d.candidates authority)).Pairwise (· ≥ ·) :=
  List.pairwise_map.mpr (List.pairwise_insertionSort Worthier _)

/-- The values meet the fee of ZIP 317 for a spend each beside the authority's, against the planned
outputs. -/
def Covers (marginal : Zatoshis) (note : NameNote) (m : Multiset ℕ) : Prop :=
  marginal.val * max (max (1 + m.card) (fixedOutputs note)) 2 ≤ m.sum

theorem worth_take (l : List OwnedNote) (k : ℕ) : worth (l.take k) = (worth l).take k := List.map_take

/-- What the loop ends with over all candidates: the least number of the largest notes that cover their
fee. -/
theorem funded_ok (hprice : d.Priced marginal) (h : d.funded note authority = pure res) :
    ∃ j ≤ (d.candidates authority).length, res.feeNotes.map Prod.fst = (d.candidates authority).take j ∧
      res.funding.val = ((worth (d.candidates authority)).take j).sum ∧
      res.fee.val = planned marginal note j ∧ res.fee.val ≤ res.funding.val ∧
      ∀ i < j, ((worth (d.candidates authority)).take i).sum < planned marginal note i := by
  obtain ⟨j, hj, hnotes, hfunding, hfee, hle, hbefore⟩ := fund_ok hprice _ _ _ h
  have hzero : Zatoshis.zero.val = 0 := rfl
  rw [worth_take, hzero, Nat.zero_add] at hfunding
  rw [List.length_nil, Nat.zero_add] at hfee
  refine ⟨j, hj, hnotes, hfunding, hfee, hle, fun i hi => ?_⟩
  have hlt := hbefore i hi
  rwa [worth_take, hzero, Nat.zero_add, List.length_nil, Nat.zero_add] at hlt

/-- The number of notes taken, where they are the first `j`. -/
theorem length_feeNotes {l : List OwnedNote} {j : ℕ} (hj : j ≤ l.length)
    (h : res.feeNotes.map Prod.fst = l.take j) :
    res.feeNotes.length = j := by
  have hmapped := congrArg List.length h
  rwa [List.length_map, List.length_take, min_eq_left hj] at hmapped

/-- Some of the candidates cover their fee exactly when some number of the largest do. -/
theorem exists_covers_iff (d : Desk ε π σ τ) (marginal : Zatoshis) (note : NameNote)
    (authority : OwnedNote) (k : ℕ) :
    (∃ m ≤ (worth (d.candidates authority) : Multiset ℕ), m.card = k ∧ Covers marginal note m) ↔
      k ≤ (d.candidates authority).length ∧
        planned marginal note k ≤ ((worth (d.candidates authority)).take k).sum := by
  have hlen : (worth (d.candidates authority)).length = (d.candidates authority).length :=
    List.length_map ..
  rw [← hlen]
  exact exists_choice_iff (d.worth_candidates authority) (planned marginal note) k

theorem funded_unfunded_iff (hprice : d.Priced marginal)
    (hends : d.funded note authority = throw .feeUnfunded ∨ ∃ res, d.funded note authority = pure res) :
    d.funded note authority = throw .feeUnfunded ↔
      ∀ m ≤ (worth (d.candidates authority) : Multiset ℕ), ¬ Covers marginal note m := by
  constructor
  · intro h m hm hcovers
    obtain ⟨hk, hle⟩ := (d.exists_covers_iff marginal note authority m.card).mp ⟨m, hm, rfl, hcovers⟩
    have hlt := fund_unfunded hprice _ _ _ h m.card hk
    have hzero : Zatoshis.zero.val = 0 := rfl
    rw [worth_take, hzero, Nat.zero_add, List.length_nil, Nat.zero_add] at hlt
    omega
  · intro hnone
    rcases hends with h | ⟨res, h⟩
    · exact h
    · obtain ⟨j, hj, -, hfunding, hfee, hle, -⟩ := funded_ok hprice h
      have hcovered : planned marginal note j ≤ ((worth (d.candidates authority)).take j).sum := by omega
      obtain ⟨m, hm, -, hcovers⟩ := (d.exists_covers_iff marginal note authority j).mpr ⟨hj, hcovered⟩
      exact absurd hcovers (hnone m hm)

/-! ### `prepare` -/

theorem authoritySpend_ne_unfunded {path : π} :
    d.authoritySpend note authority path ≠ throw .feeUnfunded := by
  unfold authoritySpend
  split
  · exact pure_ne_throw
  · split
    · exact fun h => by cases h
    · exact fun h => by cases h
    · exact pure_ne_throw

/-- `prepare` reports missing funds for the loop and for nothing else. -/
theorem prepare_unfunded_iff (hauthority : d.authority = some authority) :
    d.prepare note = throw .feeUnfunded ↔ d.funded note authority = throw .feeUnfunded := by
  unfold prepare
  rw [hauthority]
  constructor
  · intro h
    rcases bind_eq_throw h with h | ⟨res, -, h⟩
    · exact h
    rcases bind_eq_throw h with h | ⟨change, -, h⟩
    · exact absurd h expect_ne_throw
    rcases bind_eq_throw h with h | ⟨anchor, -, h⟩
    · exact absurd h anchorAt_ne_unfunded
    rcases bind_eq_throw h with h | ⟨path, -, h⟩
    · exact absurd h witnessAt_ne_unfunded
    rcases bind_eq_throw h with h | ⟨spend, -, h⟩
    · exact absurd h authoritySpend_ne_unfunded
    split at h
    · cases h
    · cases h
  · intro h
    dsimp only
    rw [h]
    rfl

/-- **Fee funding is complete and minimal.** With witnesses at hand, a fee rule that answers as ZIP 317
and candidates worth no more than there is money, the loop comes to an end; it lacks funds, and `prepare`
says so, exactly when no choice of candidates covers the fee for its size; and otherwise the notes it
took are such a choice, of the least size, and leave a change that is not negative. -/
theorem fee_funding (hprice : d.Priced marginal)
    (hanswers : ∀ n ≤ max (1 + d.treasuryNotes.length) 3, ∃ f, d.feeRequired n = .ok f)
    (hwitness : ∀ c ∈ d.candidates authority, ∃ path, d.witness c = .ok (some path))
    (hsum : (worth (d.candidates authority)).sum ≤ MAX_MONEY) (note : NameNote) :
    let values : Multiset ℕ := (worth (d.candidates authority) : Multiset ℕ)
    (d.funded note authority = throw .feeUnfunded ∨ ∃ res, d.funded note authority = pure res) ∧
    (d.funded note authority = throw .feeUnfunded ↔ ∀ m ≤ values, ¬ Covers marginal note m) ∧
    (d.authority = some authority →
      (d.prepare note = throw .feeUnfunded ↔ ∀ m ≤ values, ¬ Covers marginal note m)) ∧
    ∀ res, d.funded note authority = pure res →
      let used : Multiset ℕ := (worth (res.feeNotes.map Prod.fst) : Multiset ℕ)
      used ≤ values ∧ Covers marginal note used ∧
        (∀ m ≤ values, Covers marginal note m → res.feeNotes.length ≤ m.card) ∧
        res.funding.val = used.sum ∧ ∃ change, res.funding.sub res.fee = some change := by
  intro values
  have hcount : (d.candidates authority).length ≤ d.treasuryNotes.length := by
    unfold candidates
    rw [List.length_insertionSort]
    exact List.length_filter_le _ _
  have hends : d.funded note authority = throw .feeUnfunded ∨ ∃ res, d.funded note authority =
      pure res := by
    refine fund_total hwitness (fun i hi => ?_) ?_
    · have hplanned : fixedOutputs note ≤ 3 := by
        unfold fixedOutputs
        split_ifs
        · omega
        · omega
      refine hanswers _ ?_
      unfold actionCount FIXED_SPENDS
      rw [List.length_nil]
      omega
    · show 0 + (worth (d.candidates authority)).sum ≤ MAX_MONEY
      omega
  have hiff := funded_unfunded_iff hprice hends
  refine ⟨hends, hiff, fun hauthority => (prepare_unfunded_iff hauthority).trans hiff, fun res hres => ?_⟩
  intro used
  obtain ⟨j, hj, hnotes, hfunding, hfee, hle, hbefore⟩ := funded_ok hprice hres
  have hused : used = ((worth (d.candidates authority)).take j : Multiset ℕ) := by
    show ((worth (res.feeNotes.map Prod.fst) : List ℕ) : Multiset ℕ) = _
    rw [hnotes, worth_take]
  have hlen := length_feeNotes hj hnotes
  have hcard : used.card = j := by
    show (worth (res.feeNotes.map Prod.fst)).length = j
    rw [worth, List.length_map, List.length_map, hlen]
  refine ⟨?_, ?_, fun m hm hcovers => ?_, ?_, ?_⟩
  · rw [hused]
    exact Multiset.coe_le.mpr (List.take_sublist j _).subperm
  · show marginal.val * max (max (1 + used.card) (fixedOutputs note)) 2 ≤ used.sum
    rw [hcard, hused, Multiset.sum_coe, ← hfunding]
    exact hfee.symm.le.trans hle
  · by_contra hfewer
    obtain ⟨-, hcovered⟩ := (d.exists_covers_iff marginal note authority m.card).mp ⟨m, hm, rfl, hcovers⟩
    have hlt := hbefore m.card (by omega)
    omega
  · rw [hused, Multiset.sum_coe, hfunding]
  · exact ⟨_, if_pos hle⟩

/-! ### A small Treasury -/

/-- The fee of one action. -/
def sampleFee : Zatoshis := (Zatoshis.fromU64 5000).getD .zero

/-- A note of this value. -/
def sampleNote (value : ℕ) : OwnedNote :=
  ⟨⟨⟨Vector.replicate 32 0⟩, .ironwood, value.toUInt16⟩, (Zatoshis.fromU64 value).getD .zero⟩

/-- An authority note worth nothing, Treasury notes of these values, and a builder. -/
def sampleDesk (values : List ℕ) (build : Staged Unit Unit → Except Unit Unit) :
    Desk Unit Unit Unit Unit where
  authority := some (sampleNote 0)
  treasuryNotes := values.map sampleNote
  witness _ := .ok (some ())
  ironwoodAnchor := .ok (some ())
  predecessor := .ok none
  feeRequired n := (Zatoshis.fromU64 (sampleFee.val * max 2 n)).elim (.error ()) .ok
  build := build

theorem sampleDesk_priced (values : List ℕ) (build : Staged Unit Unit → Except Unit Unit) :
    (sampleDesk values build).Priced sampleFee := by
  intro n f h
  unfold sampleDesk Zatoshis.fromU64 at h
  dsimp only at h
  split_ifs at h
  · cases h
    rfl
  · cases h

/-- A claim that one note cannot fund and two can. -/
theorem fee_funding_two :
    ∃ res, (sampleDesk [4000, 12000] fun _ => .ok ()).funded (.claim alice (sampleUa 1) .never)
      (sampleNote 0) =
        pure res ∧
      res.funding.val = ((worth (res.feeNotes.map Prod.fst) : List ℕ) : Multiset ℕ).sum ∧
        ∃ change, res.funding.sub res.fee = some change := by
  set d := sampleDesk [4000, 12000] fun _ => .ok () with hd
  have hvalues : worth (d.candidates (sampleNote 0)) = [12000, 4000] := by decide +kernel
  have hanswers : ∀ n ≤ max (1 + d.treasuryNotes.length) 3, ∃ f, d.feeRequired n = .ok f := by
    intro n hn
    have hlen : d.treasuryNotes.length = 2 := rfl
    have hfee : sampleFee.val = 5000 := by decide +kernel
    have hfits : sampleFee.val * max 2 n ≤ MAX_MONEY := by
      rw [hfee]
      unfold MAX_MONEY
      omega
    refine ⟨⟨_, hfits⟩, ?_⟩
    rw [hd]
    unfold sampleDesk Zatoshis.fromU64
    dsimp only
    rw [dif_pos hfits]
    rfl
  have hsum : (worth (d.candidates (sampleNote 0))).sum ≤ MAX_MONEY := by
    rw [hvalues]
    decide
  obtain ⟨hends, hiff, -, hres⟩ := fee_funding (sampleDesk_priced _ _) hanswers
    (fun _ _ => ⟨(), rfl⟩) hsum
    (.claim alice (sampleUa 1) .never)
  rcases hends with hshort | ⟨res, hfunded⟩
  · have hcovers : Covers sampleFee (.claim alice (sampleUa 1) .never) ([12000, 4000] : List ℕ) := by
      unfold Covers
      decide +kernel
    exact absurd hcovers (hiff.mp hshort _ (by rw [hvalues]))
  · obtain ⟨-, -, -, hfunding, hchange⟩ := hres res hfunded
    exact ⟨res, hfunded, hfunding, hchange⟩

end Desk

end ZnsMint.Assemble
