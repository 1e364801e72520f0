import Mathlib.Tactic

/-! # Strikes against keys

A record of keys that are opened and struck, in the order it happened. `strikes k` is how often `k` was
struck since it was last opened; where every entry of a list has a key of its own, striking the keys of
some of them strikes each of these once (`count_keys`). -/

namespace ZnsMint.Lib.Strikes

variable {κ α : Type*}

/-- A key is opened, or struck. -/
inductive Mark (κ : Type*) where
  | opened (k : κ)
  | struck (k : κ)
  deriving DecidableEq

section

variable [DecidableEq κ]

def Mark.count (k : κ) (n : ℕ) : Mark κ → ℕ
  | .opened k' => if k' = k then 0 else n
  | .struck k' => if k' = k then n + 1 else n

/-- The strikes against a key since it was last opened. -/
def strikes (k : κ) (l : List (Mark κ)) : ℕ := l.foldl (Mark.count k) 0

theorem foldl_struck (k : κ) (ks : List κ) (n : ℕ) : (ks.map Mark.struck).foldl (Mark.count k) n =
    n + ks.count k := by
  induction ks generalizing n with
  | nil => rfl
  | cons k' ks ih =>
    rw [List.map_cons, List.foldl_cons, ih, Mark.count, List.count_cons]
    by_cases h : k' = k
    · simp only [h, if_true, beq_self_eq_true]
      omega
    · simp [h]

theorem strikes_append_struck (k : κ) (l : List (Mark κ)) (ks : List κ) :
    strikes k (l ++ ks.map .struck) = strikes k l + ks.count k := by
  unfold strikes
  rw [List.foldl_append, foldl_struck]

/-- A key that is opened starts anew. -/
theorem strikes_append_opened_self (k : κ) (l : List (Mark κ)) : strikes k (l ++ [.opened k]) = 0 := by
  unfold strikes
  rw [List.foldl_append]
  exact if_pos rfl

theorem strikes_append_opened_of_ne {k k' : κ} (h : k' ≠ k) (l : List (Mark κ)) :
    strikes k (l ++ [.opened k']) = strikes k l := by
  unfold strikes
  rw [List.foldl_append]
  exact if_neg h

end

/-- Among entries with keys of their own, each is once among the keys of those that pass `p`, or not at
all. -/
theorem count_keys [DecidableEq κ] {key : α → κ} {l : List α} (hnodup : (l.map key).Nodup)
    (p : α → Bool) {x : α}
    (hx : x ∈ l) : ((l.filter p).map key).count (key x) = if p x then 1 else 0 := by
  have hkeys : ((l.filter p).map key).Nodup := hnodup.sublist (List.filter_sublist.map _)
  rw [hkeys.count]
  refine if_congr ?_ rfl rfl
  constructor
  · intro hmem
    obtain ⟨y, hy, hkey⟩ := List.mem_map.mp hmem
    obtain ⟨hyl, hpy⟩ := List.mem_filter.mp hy
    rwa [List.inj_on_of_nodup_map hnodup hyl hx hkey] at hpy
  · intro hpx
    exact List.mem_map_of_mem (List.mem_filter.mpr ⟨hx, hpx⟩)

end ZnsMint.Lib.Strikes
