import Mathlib.Tactic
import Mathlib.Algebra.BigOperators.Group.Multiset.Basic

/-! # Taking the largest first

Of all choices of `k` entries of a list, the first `k` of the list sorted downward add up to the most. So
a need that depends on the number of entries only is met by some choice of `k` entries exactly when those
first `k` meet it (`exists_choice_iff`). -/

namespace ZnsMint.Lib.LargestFirst

variable {α : Type*} [AddCommMonoid α] [PartialOrder α] [IsOrderedAddMonoid α] {l s : List α} {x : α}

/-- A list sorted downward gains by its own larger head. -/
theorem sum_take_le_cons : ∀ {l : List α} {x : α}, (x :: l).Pairwise (· ≥ ·) → ∀ k, k ≤ l.length →
    (l.take k).sum ≤ ((x :: l).take k).sum
  | _, _, _, 0, _ => by rw [List.take_zero, List.take_zero]
  | y :: l, x, h, k + 1, hk => by
    have hyx : y ≤ x := (List.pairwise_cons.mp h).1 y (List.mem_cons_self ..)
    have ih := sum_take_le_cons (List.pairwise_cons.mp h).2 k (Nat.le_of_succ_le_succ hk)
    rw [List.take_succ_cons, List.take_succ_cons, List.sum_cons, List.sum_cons]
    exact add_le_add hyx ih

theorem sum_sublist_le (h : s.Sublist l) (hl : l.Pairwise (· ≥ ·)) : s.sum ≤ (l.take s.length).sum := by
  induction h with
  | slnil => exact le_refl _
  | cons x h ih =>
    have htail := (List.pairwise_cons.mp hl).2
    exact (ih htail).trans (sum_take_le_cons hl _ h.length_le)
  | cons_cons x h ih =>
    have htail := (List.pairwise_cons.mp hl).2
    rw [List.length_cons, List.take_succ_cons, List.sum_cons, List.sum_cons]
    exact add_le_add (le_refl x) (ih htail)

theorem sum_le_sum_take {m : Multiset α} (hm : m ≤ (l : Multiset α)) (hl : l.Pairwise (· ≥ ·)) :
    m.sum ≤ (l.take m.card).sum := by
  induction m using Quotient.inductionOn with
  | h s =>
    obtain ⟨s', hperm, hsub⟩ := Multiset.coe_le.mp hm
    have hle := sum_sublist_le hsub hl
    rw [hperm.length_eq, hperm.sum_eq] at hle
    exact hle

/-- **Some choice of `k` entries meets the need exactly when the `k` largest do.** -/
theorem exists_choice_iff (hl : l.Pairwise (· ≥ ·)) (need : ℕ → α) (k : ℕ) :
    (∃ m ≤ (l : Multiset α), m.card = k ∧ need m.card ≤ m.sum) ↔ k ≤ l.length ∧
    need k ≤ (l.take k).sum := by
  constructor
  · rintro ⟨m, hm, rfl, hneed⟩
    exact ⟨Multiset.card_le_card hm, hneed.trans (sum_le_sum_take hm hl)⟩
  · rintro ⟨hk, hneed⟩
    have hcard : (l.take k).length = k := by
      rw [List.length_take, min_eq_left hk]
    refine ⟨(l.take k : Multiset α), Multiset.coe_le.mpr (List.take_sublist k l).subperm, hcard, ?_⟩
    rw [Multiset.coe_card, hcard]
    exact hneed

end ZnsMint.Lib.LargestFirst
