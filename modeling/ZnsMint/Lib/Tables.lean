import Mathlib.Tactic

/-! # Tables and what grows on them

A keyed table by its lookups: writing an entry, dropping entries, and what holds of every entry. A table
grows out of another when it keeps the other's entries and adds entries of a kind. Where the entries of
that kind are the ones a filter drops, and the filter keeps what was there before, dropping them gives
the table back (`Grown.retain_eq`). `Entries` is a table of finitely many entries with a list of them. -/

namespace ZnsMint.Lib.Tables

variable {κ α : Type*}

/-- An ordered map by its lookups. -/
abbrev Table (κ α : Type*) := κ → Option α

namespace Table

def empty : Table κ α := fun _ => none

/-- The entry of `k` is `v`, whatever it was. -/
def insert [DecidableEq κ] (t : Table κ α) (k : κ) (v : α) : Table κ α := Function.update t k (some v)

def remove [DecidableEq κ] (t : Table κ α) (k : κ) : Table κ α := Function.update t k none

/-- The entries that meet `p`. -/
def retain (t : Table κ α) (p : κ → α → Bool) : Table κ α := fun k => (t k).filter (p k)

variable {t u : Table κ α} {p : κ → α → Bool} {k l : κ} {v w : α}

@[simp] theorem empty_apply (k : κ) : (empty : Table κ α) k = none := rfl

@[simp] theorem insert_same [DecidableEq κ] (t : Table κ α) (k : κ) (v : α) : t.insert k v k = some v :=
  Function.update_self ..

theorem insert_of_ne [DecidableEq κ] (h : l ≠ k) : t.insert k v l = t l := Function.update_of_ne h ..

theorem insert_eq_some [DecidableEq κ] :
    t.insert k v l = some w ↔ l = k ∧ v = w ∨ l ≠ k ∧ t l = some w := by
  by_cases h : l = k
  · subst h
    simp
  · rw [insert_of_ne h]
    simp [h]

theorem retain_eq_some : t.retain p k = some v ↔ t k = some v ∧ p k v = true := by
  unfold retain
  rw [Option.filter_eq_some_iff]

/-- An entry that the filter keeps, whatever it is. -/
theorem retain_of (h : ∀ v, p k v = true) : t.retain p k = t k := by
  unfold retain
  rcases t k with - | v
  · rfl
  · simp [Option.filter, h v]

theorem retain_isSome_of (h : t k = some v) (hp : p k v = true) : (t.retain p k).isSome = true := by
  rw [retain_eq_some.mpr ⟨h, hp⟩]
  rfl

end Table

open Table

variable {t u s : Table κ α} {p : κ → α → Bool} {k : κ} {v : α}

/-! ### What holds of every entry -/

/-- Every entry of the table meets `P`. -/
def Every (P : κ → α → Prop) (t : Table κ α) : Prop := ∀ k v, t k = some v → P k v

variable {P Q : κ → α → Prop}

theorem Every.empty : Every P Table.empty := fun _ _ h => nomatch h

theorem Every.mono (h : Every P t) (hPQ : ∀ k v, P k v → Q k v) : Every Q t :=
  fun k v hv => hPQ k v (h k v hv)

theorem Every.insert [DecidableEq κ] (h : Every P t) (hv : P k v) : Every P (t.insert k v) := by
  intro l w hw
  rcases insert_eq_some.mp hw with ⟨rfl, rfl⟩ | ⟨-, hw⟩
  · exact hv
  · exact h l w hw

/-- What is retained met the filter besides. -/
theorem Every.retain (h : Every P t) : Every (fun k v => P k v ∧ p k v = true) (t.retain p) := by
  intro k v hv
  obtain ⟨hv, hp⟩ := retain_eq_some.mp hv
  exact ⟨h k v hv, hp⟩

/-! ### Growth -/

/-- `u` holds the entries of `t`, and others of the kind `new`. -/
structure Grown (new : κ → α → Prop) (t u : Table κ α) : Prop where
  kept : ∀ k v, t k = some v → u k = some v
  added : ∀ k v, u k = some v → t k = some v ∨ new k v

namespace Grown

variable {new new' : κ → α → Prop}

theorem refl (new : κ → α → Prop) (t : Table κ α) : Grown new t t :=
  ⟨fun _ _ h => h, fun _ _ h => .inl h⟩

theorem mono (h : Grown new t u) (hnew : ∀ k v, new k v → new' k v) : Grown new' t u where
  kept := h.kept
  added k v hv := (h.added k v hv).imp_right (hnew k v)

/-- A new entry, where the first table has none. -/
theorem insert [DecidableEq κ] (h : Grown new t u) (hk : t k = none) (hv : new k v) :
    Grown new t (u.insert k v) where
  kept l w hw := by
    have hl : l ≠ k := by
      rintro rfl
      rw [hk] at hw
      exact nomatch hw
    rw [insert_of_ne hl]
    exact h.kept l w hw
  added l w hw := by
    rcases insert_eq_some.mp hw with ⟨rfl, rfl⟩ | ⟨-, hw⟩
    · exact .inr hv
    · exact h.added l w hw

/-- **Dropping what was added gives the table back.** -/
theorem retain_eq (h : Grown new t u) (hkeep : Every (fun k v => p k v = true) t)
    (hdrop : ∀ k v, new k v → p k v = false) : u.retain p = t := by
  funext k
  rcases ht : t k with - | v
  · rcases hr : u.retain p k with - | w
    · rfl
    · obtain ⟨hu, hp⟩ := retain_eq_some.mp hr
      rcases h.added k w hu with hw | hw
      · rw [ht] at hw
        exact nomatch hw
      · rw [hdrop k w hw] at hp
        exact nomatch hp
  · exact retain_eq_some.mpr ⟨h.kept k v ht, hkeep k v ht⟩

end Grown

/-! ### The entries of a finite table -/

/-- The entries of a table, each once, as an iterator over it gives them. -/
structure Entries (t : Table κ α) where
  list : List (κ × α)
  nodup : (list.map Prod.fst).Nodup
  mem_iff : ∀ k v, (k, v) ∈ list ↔ t k = some v

namespace Entries

def empty : Entries (Table.empty : Table κ α) where
  list := []
  nodup := List.nodup_nil
  mem_iff _ _ := by simp

/-- A new entry comes last. -/
def insert [DecidableEq κ] (e : Entries t) (h : t k = none) (v : α) : Entries (t.insert k v) where
  list := e.list ++ [(k, v)]
  nodup := by
    rw [List.map_append, List.map_singleton, List.nodup_append]
    refine ⟨e.nodup, List.nodup_singleton k, ?_⟩
    rintro l hl l' hl' rfl
    obtain rfl := List.mem_singleton.mp hl'
    obtain ⟨⟨_, w⟩, hw, rfl⟩ := List.mem_map.mp hl
    rw [e.mem_iff, h] at hw
    exact nomatch hw
  mem_iff l w := by
    rw [List.mem_append, e.mem_iff, List.mem_singleton, Table.insert_eq_some, Prod.mk.injEq]
    by_cases hl : l = k
    · subst hl
      simp [h, eq_comm]
    · simp [hl]

end Entries

end ZnsMint.Lib.Tables
