import Mathlib.Tactic

/-! # Checkpoints by height

A map from heights to snapshots, the last snapshot of it, and the cut that a rewind makes. A value that
is written to the checkpoint of its own height at every change, at heights that do not decrease, is the
last snapshot (`latest_insert`), and cutting a later map back gives the earlier one (`cut_eq`). -/

namespace ZnsMint.Lib.Checkpoints

variable {α : Type} {m s : Std.ExtTreeMap ℕ α compare} {h k : ℕ} {v : α}

/-- The snapshot at the greatest height. -/
def latest (m : Std.ExtTreeMap ℕ α compare) : Option α := m.toList.getLast?.map Prod.snd

/-- The snapshots at `h` and below. -/
def cut (m : Std.ExtTreeMap ℕ α compare) (h : ℕ) : Std.ExtTreeMap ℕ α compare :=
  m.filter fun k _ => decide (k ≤ h)

@[simp] theorem latest_empty : latest (∅ : Std.ExtTreeMap ℕ α compare) = none := by
  simp [latest]

/-- The key of the last entry bounds every key. -/
theorem le_of_getLast? {p : ℕ × α} (hp : m.toList.getLast? = some p) {j : ℕ} (hj : j ∈ m) :
    j ≤ p.1 := by
  obtain ⟨l, hl⟩ := List.getLast?_eq_some_iff.mp hp
  have hord := Std.ExtTreeMap.ordered_keys_toList (t := m)
  obtain ⟨w, hw⟩ : ∃ w, m[j]? = some w := Option.isSome_iff_exists.mp (by simpa using hj)
  have hmem := Std.ExtTreeMap.mem_toList_iff_getElem?_eq_some.mpr hw
  rw [hl] at hord hmem
  rcases List.mem_append.mp hmem with hmem | hmem
  · have := (List.pairwise_append.mp hord).2.2 _ hmem p (by simp)
    exact le_of_lt (Nat.compare_eq_lt.mp this)
  · rw [List.mem_singleton] at hmem
    exact le_of_eq (congrArg Prod.fst hmem)

/-- The last entry is the one at a key that bounds every key. -/
theorem getLast?_eq_some_of (hk : m[k]? = some v) (hmax : ∀ j ∈ m, j ≤ k) :
    m.toList.getLast? = some (k, v) := by
  have hmem := Std.ExtTreeMap.mem_toList_iff_getElem?_eq_some.mpr hk
  obtain ⟨p, hp⟩ : ∃ p, m.toList.getLast? = some p :=
    Option.isSome_iff_exists.mp (by simpa using List.ne_nil_of_mem hmem)
  have hpm := Std.ExtTreeMap.mem_toList_iff_getElem?_eq_some.mp
    (show (p.1, p.2) ∈ m.toList from List.mem_of_getLast? hp)
  have hkm : k ∈ m := by
    rw [← Std.ExtTreeMap.isSome_getElem?_iff_mem, hk]; rfl
  have hpm' : p.1 ∈ m := by
    rw [← Std.ExtTreeMap.isSome_getElem?_iff_mem, hpm]; rfl
  have hpk : p.1 = k := le_antisymm (hmax _ hpm') (le_of_getLast? hp hkm)
  rw [hpk, hk] at hpm
  rw [hp, Option.some.inj hpm, ← hpk]

theorem latest_eq_some_of (hk : m[k]? = some v) (hmax : ∀ j ∈ m, j ≤ k) : latest m = some v := by
  rw [latest, getLast?_eq_some_of hk hmax, Option.map_some]

/-- The last snapshot is a snapshot. -/
theorem exists_of_latest (hm : latest m = some v) : ∃ k : ℕ, m[k]? = some v := by
  obtain ⟨p, hp, rfl⟩ := Option.map_eq_some_iff.mp hm
  exact ⟨p.1, Std.ExtTreeMap.mem_toList_iff_getElem?_eq_some.mp (List.mem_of_getLast? hp)⟩

/-- A write at or above every height is the last entry. -/
theorem getLast?_insert (hmax : ∀ j ∈ m, j ≤ k) : (m.insert k v).toList.getLast? = some (k, v) := by
  refine getLast?_eq_some_of (by simp) fun j hj => ?_
  rcases Std.ExtTreeMap.mem_insert.mp hj with hj | hj
  · exact le_of_eq (Nat.compare_eq_eq.mp hj).symm
  · exact hmax j hj

/-- A write at or above every height is the last snapshot. -/
theorem latest_insert (hmax : ∀ j ∈ m, j ≤ k) : latest (m.insert k v) = some v := by
  rw [latest, getLast?_insert hmax, Option.map_some]

theorem getElem?_cut (m : Std.ExtTreeMap ℕ α compare) (h k : ℕ) :
    (cut m h)[k]? = if k ≤ h then m[k]? else none := by
  rw [cut, Std.ExtTreeMap.getElem?_filter']
  split_ifs with hk <;> cases m[k]? <;> simp [Option.filter, hk]

theorem le_of_mem_cut (hk : k ∈ cut m h) : k ≤ h ∧ k ∈ m := by
  rw [← Std.ExtTreeMap.isSome_getElem?_iff_mem, getElem?_cut] at hk
  split_ifs at hk with hle
  · exact ⟨hle, Std.ExtTreeMap.isSome_getElem?_iff_mem.mp hk⟩
  · exact absurd hk (by simp)

/-- **The cut is exact.** Where `m` agrees with `s` up to `h` and `s` has nothing above, cutting `m`
gives `s`. -/
theorem cut_eq (hs : ∀ j ∈ s, j ≤ h) (hagree : ∀ j ≤ h, m[j]? = s[j]?) : cut m h = s := by
  refine Std.ExtTreeMap.ext_getElem? fun k => ?_
  rw [getElem?_cut]
  split_ifs with hk
  · exact hagree k hk
  · refine (Std.ExtTreeMap.getElem?_eq_none fun hmem => hk (hs k hmem)).symm

end ZnsMint.Lib.Checkpoints
