import Mathlib.Tactic
import Mathlib.Order.Lattice

/-! # Raising the values of a function

`raise t (k, v)` lifts the value of `t` at `k` to its join with `v`, and `raiseAll` does so with every
pair of a list. What lies below a bound afterwards lay below it before and was raised by nothing above it
(`raiseAll_le_iff`), so neither the order of the pairs nor how often one occurs matters
(`raiseAll_congr`). -/

namespace ZnsMint.Lib.Joins

variable {κ α : Type*} [DecidableEq κ] [SemilatticeSup α] {t : κ → α} {ps ps' : List (κ × α)}
  {k : κ} {b : α}

def raise (t : κ → α) (p : κ × α) : κ → α := Function.update t p.1 (t p.1 ⊔ p.2)

def raiseAll (t : κ → α) (ps : List (κ × α)) : κ → α := ps.foldl raise t

@[simp] theorem raiseAll_nil (t : κ → α) : raiseAll t [] = t := rfl

@[simp] theorem raiseAll_cons (t : κ → α) (p : κ × α) (ps : List (κ × α)) :
    raiseAll t (p :: ps) = raiseAll (raise t p) ps := rfl

theorem raise_le_iff {p : κ × α} : raise t p k ≤ b ↔ t k ≤ b ∧ (p.1 = k → p.2 ≤ b) := by
  unfold raise
  by_cases h : k = p.1
  · subst h
    rw [Function.update_self, sup_le_iff]
    simp
  · rw [Function.update_of_ne h]
    simp [Ne.symm h]

theorem raiseAll_le_iff : raiseAll t ps k ≤ b ↔ t k ≤ b ∧ ∀ p ∈ ps, p.1 = k → p.2 ≤ b := by
  induction ps generalizing t with
  | nil => simp
  | cons p ps ih => rw [raiseAll_cons, ih, raise_le_iff, List.forall_mem_cons, and_assoc]

/-- Only which pairs there are matters. -/
theorem raiseAll_congr (h : ∀ p, p ∈ ps ↔ p ∈ ps') : raiseAll t ps = raiseAll t ps' := by
  funext k
  refine eq_of_forall_ge_iff fun b => ?_
  rw [raiseAll_le_iff, raiseAll_le_iff]
  simp only [h]

end ZnsMint.Lib.Joins
