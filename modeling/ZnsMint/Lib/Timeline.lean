import Mathlib.Tactic

/-! # Spans on a line

Entries that each cover a half-open span, one beginning where the last one ended. Such a run covers every
point between its ends once and no other point (`Tiles.covers_once`). And the mean of the values that
entries carry, weighted by what they cover, lies between the bounds of the values (`mean_bounds`). -/

namespace ZnsMint.Lib.Timeline

variable {α β : Type*} [LinearOrder β] {start stop : α → β} {a b c : β} {x : α} {l m : List α}

/-- The spans of the entries follow one another from `a` to `b`. -/
def Tiles (start stop : α → β) : β → List α → β → Prop
  | a, [], b => a = b
  | a, x :: l, b => start x = a ∧ a ≤ stop x ∧ Tiles start stop (stop x) l b

theorem Tiles.le : ∀ {a : β} {l : List α}, Tiles start stop a l b → a ≤ b
  | _, [], h => le_of_eq h
  | _, _ :: _, h => h.2.1.trans (Tiles.le h.2.2)

theorem Tiles.append : ∀ {a : β} {l : List α}, Tiles start stop a l b → Tiles start stop b m c →
    Tiles start stop a (l ++ m) c
  | _, [], h, h' => by
    obtain rfl := h
    exact h'
  | _, _ :: _, h, h' => ⟨h.1, h.2.1, Tiles.append h.2.2 h'⟩

theorem Tiles.concat (h : Tiles start stop a l b) (hstart : start x = b) (hle : b ≤ stop x) :
    Tiles start stop a (l ++ [x]) (stop x) :=
  h.append ⟨hstart, hle, rfl⟩

/-- No entry ends before it starts. -/
theorem Tiles.start_le : ∀ {a : β} {l : List α}, Tiles start stop a l b → ∀ x ∈ l, start x ≤ stop x
  | _, y :: l, h, x, hx => by
    rcases List.mem_cons.mp hx with rfl | hx
    · rw [h.1]
      exact h.2.1
    · exact Tiles.start_le h.2.2 x hx

/-- The entry's span has the point. -/
def Covers (start stop : α → β) (s : β) (x : α) : Prop := start x ≤ s ∧ s < stop x

instance (start stop : α → β) (s : β) : DecidablePred (Covers start stop s) := fun x =>
  inferInstanceAs (Decidable (start x ≤ s ∧ s < stop x))

/-- **A point between the ends is covered by exactly one entry**, and any other point by none. -/
theorem Tiles.covers_once (s : β) : ∀ {a : β} {l : List α}, Tiles start stop a l b →
    l.countP (fun x => decide (Covers start stop s x)) = if a ≤ s ∧ s < b then 1 else 0
  | a, [], h => by
    obtain rfl := h
    have hempty : ¬ (a ≤ s ∧ s < a) := fun hs => absurd hs.2 (not_lt.mpr hs.1)
    rw [if_neg hempty, List.countP_nil]
  | a, x :: l, h => by
    have ih := Tiles.covers_once s h.2.2
    have hle := h.2.2.le
    rw [List.countP_cons, ih]
    by_cases hfirst : Covers start stop s x
    · have hrest : ¬ (stop x ≤ s ∧ s < b) := fun hs => absurd hfirst.2 (not_lt.mpr hs.1)
      have hall : a ≤ s ∧ s < b := ⟨h.1 ▸ hfirst.1, hfirst.2.trans_le hle⟩
      have hyes : decide (Covers start stop s x) = true := by simpa using hfirst
      rw [if_neg hrest, if_pos hall, if_pos hyes]
    · have hiff : (stop x ≤ s ∧ s < b) ↔ (a ≤ s ∧ s < b) := by
        constructor
        · rintro ⟨hs, hb⟩
          exact ⟨h.2.1.trans hs, hb⟩
        · rintro ⟨hs, hb⟩
          refine ⟨not_lt.mp fun hlt => hfirst ⟨h.1.symm ▸ hs, hlt⟩, hb⟩
      have hno : ¬ decide (Covers start stop s x) = true := by simpa using hfirst
      rw [if_neg hno, Nat.add_zero]
      simp only [hiff]

section Mean

variable {K : Type*} [Field K] [LinearOrder K] [IsStrictOrderedRing K] {w v : α → K} {lo hi : K}

theorem sum_bounds (hw : ∀ x ∈ l, 0 ≤ w x) (hv : ∀ x ∈ l, lo ≤ v x ∧ v x ≤ hi) :
    lo * (l.map w).sum ≤ (l.map fun x => v x * w x).sum ∧ (l.map fun x => v x * w x).sum ≤
      hi * (l.map w).sum := by
  induction l with
  | nil => simp
  | cons x l ih =>
    obtain ⟨hlo, hhi⟩ := ih (fun y hy => hw y (List.mem_cons_of_mem _ hy)) fun y hy =>
      hv y (List.mem_cons_of_mem _ hy)
    have hx := hv x (List.mem_cons_self ..)
    have hwx := hw x (List.mem_cons_self ..)
    have hlox := mul_le_mul_of_nonneg_right hx.1 hwx
    have hhix := mul_le_mul_of_nonneg_right hx.2 hwx
    rw [List.map_cons, List.map_cons, List.sum_cons, List.sum_cons, mul_add, mul_add]
    exact ⟨add_le_add hlox hlo, add_le_add hhix hhi⟩

/-- **A weighted mean lies between the bounds of its values.** -/
theorem mean_bounds (hw : ∀ x ∈ l, 0 ≤ w x) (hpos : 0 < (l.map w).sum)
    (hv : ∀ x ∈ l, lo ≤ v x ∧ v x ≤ hi) :
    lo ≤ (l.map fun x => v x * w x).sum / (l.map w).sum ∧
      (l.map fun x => v x * w x).sum / (l.map w).sum ≤ hi := by
  obtain ⟨hlo, hhi⟩ := sum_bounds hw hv
  exact ⟨(le_div_iff₀ hpos).mpr hlo, (div_le_iff₀ hpos).mpr hhi⟩

end Mean

end ZnsMint.Lib.Timeline
