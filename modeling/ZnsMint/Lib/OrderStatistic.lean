import Mathlib.Tactic
import Mathlib.Data.List.Sort

/-! # Order statistics

The entry at place `k` of a list once sorted. It is known by counting: it is at least `m` exactly when no
more than `k` entries lie below `m` (`le_nth_iff`). So what an edit of the list does to the entry is a
matter of how many small entries it adds, and a few entries of whatever value do not move it past the
rest (`le_nth_of_countP`, `nth_le_of_countP`). -/

namespace ZnsMint.Lib.OrderStatistic

variable {α : Type*} [LinearOrder α] {l l' : List α} {k k' : ℕ} {x y m : α}

/-- The entry at place `k`, smallest first. -/
def nth (l : List α) (k : ℕ) : Option α := (l.insertionSort (· ≤ ·))[k]?

theorem nth_isSome_iff : (nth l k).isSome ↔ k < l.length := by
  unfold nth
  rw [isSome_getElem?, List.length_insertionSort]

theorem mem_of_nth (h : nth l k = some x) : x ∈ l :=
  (List.mem_insertionSort (· ≤ ·)).mp (List.mem_of_getElem? h)

/-- The number of entries below `m`. -/
def below (m : α) (l : List α) : ℕ := l.countP fun y => decide (y < m)

theorem below_append (m : α) (l l' : List α) : below m (l ++ l') = below m l + below m l' :=
  List.countP_append

theorem below_singleton (h : m ≤ x) : below m [x] = 0 := by
  unfold below
  rw [List.countP_eq_zero]
  intro y hy
  rw [List.mem_singleton.mp hy]
  simpa using h

theorem below_drop_le (m : α) (l : List α) (n : ℕ) : below m (l.drop n) ≤ below m l :=
  (List.drop_sublist n l).countP_le

theorem le_nth_iff (h : nth l k = some x) : m ≤ x ↔ below m l ≤ k := by
  have hsorted : (l.insertionSort (· ≤ ·)).Pairwise (· ≤ ·) := List.pairwise_insertionSort _ l
  have hcount : below m l = below m (l.insertionSort (· ≤ ·)) :=
    ((List.perm_insertionSort (· ≤ ·) l).countP_eq _).symm
  rw [hcount]
  unfold nth at h
  generalize l.insertionSort (· ≤ ·) = s at h hsorted
  obtain ⟨hk, rfl⟩ := List.getElem?_eq_some_iff.mp h
  rw [List.pairwise_iff_getElem] at hsorted
  have hsplit : below m s = below m (s.take k) + below m (s.drop k) := by
    rw [← below_append, List.take_append_drop]
  constructor
  · -- from place `k` on nothing is below `m`
    intro hle
    have hdrop : below m (s.drop k) = 0 := by
      unfold below
      rw [List.countP_eq_zero]
      intro y hy
      obtain ⟨j, hj, rfl⟩ := List.getElem_of_mem hy
      rw [List.getElem_drop, decide_eq_true_eq, not_lt]
      rcases Nat.eq_zero_or_pos j with rfl | hpos
      · exact hle
      · exact hle.trans (hsorted k (k + j) hk _ (by omega))
    have htake : below m (s.take k) ≤ (s.take k).length := List.countP_le_length
    rw [List.length_take] at htake
    omega
  · -- up to place `k` everything is
    intro hle
    by_contra hlt
    have htake : below m (s.take (k + 1)) = k + 1 := by
      have hlen : (s.take (k + 1)).length = k + 1 := by
        rw [List.length_take]
        omega
      unfold below
      rw [List.countP_eq_length.mpr, hlen]
      intro y hy
      obtain ⟨j, hj, rfl⟩ := List.getElem_of_mem hy
      rw [List.getElem_take, decide_eq_true_eq]
      rw [hlen] at hj
      rcases Nat.lt_or_ge j k with hjk | hjk
      · exact (hsorted j k _ hk hjk).trans_lt (not_le.mp hlt)
      · obtain rfl : j = k := by omega
        exact not_le.mp hlt
    have hsub : below m (s.take (k + 1)) ≤ below m s := (List.take_sublist (k + 1) s).countP_le
    omega

/-- An edit that leaves no more small entries than the new place allows does not lower the entry. -/
theorem nth_le_nth (h : nth l k = some x) (h' : nth l' k' = some y)
    (hle : below x l' ≤ below x l + (k' - k))
    (hk : k ≤ k') : x ≤ y := by
  rw [le_nth_iff h']
  have hx := (le_nth_iff h).mp (le_refl x)
  omega

/-- The order of the list does not matter. -/
theorem nth_perm (h : l.Perm l') (k : ℕ) : nth l k = nth l' k := by
  have hs : (l.insertionSort (· ≤ ·)).Perm (l'.insertionSort (· ≤ ·)) :=
    ((List.perm_insertionSort _ l).trans h).trans (List.perm_insertionSort _ l').symm
  unfold nth
  rw [hs.eq_of_pairwise' (List.pairwise_insertionSort _ l) (List.pairwise_insertionSort _ l')]

/-! ### Entries of which some are exempt

The entries are values of items, and `p` marks the items nothing is known of. -/

section Exempt

variable {β : Type*} {f : β → α} {p : β → Bool} {s : List β}

/-- With no more exempt items than the place, a bound from below on the others bounds the entry. -/
theorem le_nth_of_countP (hm : ∀ b ∈ s, p b = false → m ≤ f b) (hc : s.countP p ≤ k)
    (h : nth (s.map f) k = some x) : m ≤ x := by
  rw [le_nth_iff h]
  refine le_trans ?_ hc
  unfold below
  rw [List.countP_map]
  refine List.countP_mono_left fun b hb hlt => ?_
  by_contra hp
  have hle := hm b hb (Bool.not_eq_true _ ▸ hp)
  rw [Function.comp_apply, decide_eq_true_eq] at hlt
  exact absurd hlt (not_lt.mpr hle)

/-- With fewer exempt items than there are places above, a bound from above on the others bounds the
entry. -/
theorem nth_le_of_countP (hm : ∀ b ∈ s, p b = false → f b ≤ m) (hc : s.countP p + k < s.length)
    (h : nth (s.map f) k = some x) : x ≤ m := by
  by_contra hlt
  rw [not_le] at hlt
  -- everything that is not exempt lies below the entry, so too much does
  have hbelow := (le_nth_iff h).mp le_rfl
  have hsplit := List.length_eq_countP_add_countP p (l := s)
  have hrest : s.countP (fun b => !p b) ≤ below x (s.map f) := by
    unfold below
    rw [List.countP_map]
    refine List.countP_mono_left fun b hb hp => ?_
    rw [Function.comp_apply, decide_eq_true_eq]
    exact (hm b hb (by simpa using hp)).trans_lt hlt
  have hnot : s.countP (fun a => decide (¬ p a = true)) = s.countP (fun b => !p b) := by
    congr 1
    funext b
    simp
  omega

end Exempt

end ZnsMint.Lib.OrderStatistic
