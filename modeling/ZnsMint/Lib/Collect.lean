import Mathlib.Tactic
import Mathlib.Data.List.Infix

/-! # Collecting until there is enough

Items are taken from the front of a list while what has been accumulated still asks for more; the item
that meets the demand is taken. `collect` is that walk. Where more value never raises the demand again,
walking two lists one after the other is walking their concatenation (`collect_append`). A demand for at
least `t` takes the shortest beginning worth `t` (`collect_shortest`), a demand that never ends takes
everything. -/

namespace ZnsMint.Lib.Collect

variable {α : Type*} {value : α → ℕ} {wants : ℕ → Bool} {acc acc' t : ℕ} {l l' p : List α}

/-- The worth of a list. -/
def total (value : α → ℕ) (l : List α) : ℕ := (l.map value).sum

@[simp] theorem total_nil : total value [] = 0 := rfl

@[simp] theorem total_cons (x : α) (l : List α) : total value (x :: l) = value x + total value l := by
  simp [total]

@[simp] theorem total_append (l l' : List α) :
    total value (l ++ l') = total value l + total value l' := by
  simp [total]

theorem total_perm (h : l.Perm l') : total value l = total value l' := (h.map value).sum_eq

theorem total_map {β : Type*} (f : β → α) (l : List β) : total value (l.map f) = total (value ∘ f) l := by
  rw [total, total, List.map_map]

/-- What a walk with `acc` in hand takes of a list. -/
def collect (value : α → ℕ) (wants : ℕ → Bool) : ℕ → List α → List α
  | _, [] => []
  | acc, x :: l => if wants acc then x :: collect value wants (acc + value x) l else []

theorem collect_of_not (h : wants acc = false) (l : List α) : collect value wants acc l = [] := by
  cases l with
  | nil => rfl
  | cons x l => rw [collect, h, if_neg Bool.false_ne_true]

theorem collect_map {β : Type*} (f : β → α) (l : List β) :
    collect value wants acc (l.map f) = (collect (value ∘ f) wants acc l).map f := by
  induction l generalizing acc with
  | nil => rfl
  | cons x l ih =>
    rw [List.map_cons, collect, collect, ih]
    by_cases hw : wants acc = true
    · rw [if_pos hw, if_pos hw, List.map_cons]
      rfl
    · rw [if_neg hw, if_neg hw, List.map_nil]

/-- More in hand does not ask for more. -/
def Sated (wants : ℕ → Bool) : Prop := ∀ a b, a ≤ b → wants b = true → wants a = true

theorem Sated.not (h : Sated wants) (hle : acc ≤ acc') (ha : wants acc = false) : wants acc' = false := by
  by_contra hb
  have := h acc acc' hle (by simpa using hb)
  rw [ha] at this
  exact absurd this Bool.false_ne_true

theorem collect_append (h : Sated wants) (l l' : List α) :
    collect value wants acc (l ++ l') = collect value wants acc l ++ collect value wants
      (acc + total value l) l' := by
  induction l generalizing acc with
  | nil => rfl
  | cons x l ih =>
    rw [List.cons_append, collect, collect]
    by_cases hw : wants acc = true
    · rw [if_pos hw, if_pos hw, ih, List.cons_append, total_cons, Nat.add_assoc]
    · have hstop : wants (acc + total value (x :: l)) = false :=
        h.not (Nat.le_add_right _ _) (by simpa using hw)
      rw [if_neg hw, if_neg hw, collect_of_not hstop, List.append_nil]

/-- A demand that never ends takes everything. -/
theorem collect_all (h : ∀ a, wants a = true) (l : List α) : collect value wants acc l = l := by
  induction l generalizing acc with
  | nil => rfl
  | cons x l ih => rw [collect, if_pos (h acc), ih]

/-- The shortest beginning of `l` worth at least `t`, or all of `l` where it is worth less. -/
structure Shortest (value : α → ℕ) (t : ℕ) (l p : List α) : Prop where
  initial : p <+: l
  enough : t ≤ total value p ∨ total value l < t ∧ p = l
  least : ∀ q, q <+: l → t ≤ total value q → p.length ≤ q.length

theorem sated_atLeast (t : ℕ) : Sated fun a => decide (a < t) := by
  intro a b hab hb
  rw [decide_eq_true_eq] at hb ⊢
  omega

/-- **A demand for at least `t` takes the shortest beginning worth what is missing.** -/
theorem collect_shortest (t acc : ℕ) (l : List α) :
    Shortest value (t - acc) l (collect value (fun a => decide (a < t)) acc l) := by
  induction l generalizing acc with
  | nil =>
    refine ⟨List.nil_prefix, ?_, fun q _ _ => Nat.zero_le _⟩
    rcases Nat.eq_zero_or_pos (t - acc) with h | h
    · exact Or.inl h.le
    · exact Or.inr ⟨h, rfl⟩
  | cons x l ih =>
    by_cases hw : acc < t
    · have hstep : collect value (fun a => decide (a < t)) acc (x :: l) =
          x :: collect value (fun a => decide (a < t)) (acc + value x) l := by
        rw [collect, if_pos (decide_eq_true hw)]
      obtain ⟨hinit, henough, hleast⟩ := ih (acc + value x)
      rw [hstep]
      refine ⟨List.cons_prefix_cons.mpr ⟨rfl, hinit⟩, ?_, ?_⟩
      · rw [total_cons, total_cons]
        rcases henough with h | ⟨h, he⟩
        · left
          omega
        · right
          exact ⟨by omega, by rw [he]⟩
      · intro q hq ht
        -- a beginning worth something holds the first item
        cases q with
        | nil =>
          rw [total_nil] at ht
          omega
        | cons y q =>
          obtain ⟨rfl, hrest⟩ := List.cons_prefix_cons.mp hq
          rw [total_cons] at ht
          have := hleast q hrest (by omega)
          simpa using this
    · have hstop : collect value (fun a => decide (a < t)) acc (x :: l) = [] :=
        collect_of_not (decide_eq_false hw) _
      rw [hstop]
      refine ⟨List.nil_prefix, Or.inl ?_, fun q _ _ => Nat.zero_le _⟩
      rw [total_nil]
      omega

end ZnsMint.Lib.Collect
