import Mathlib.Tactic

/-! # Chains of blocks that name their predecessor

A chain is a list of blocks from its first one up, the block at a place naming the one below it by its
hash (`Linked`). Where no two blocks of two chains share a hash (`Apart`), a hash that both give at one
place pins all that lies below it: the chains agree up to there (`agree_of_hash`), so that the places
where they agree form a beginning, and the last of them, where the chains fork, is found by walking down
from above (`Forks`). -/

namespace ZnsMint.Lib.HashChain

variable {B H : Type*} {hash prev : B → H} {l m n : List B} {k j : ℕ} {x : H}

/-- Every block but the first names the block below it. -/
def Linked (hash prev : B → H) (l : List B) : Prop := l.IsChain fun a b => prev b = hash a

instance [DecidableEq H] (hash prev : B → H) (l : List B) : Decidable (Linked hash prev l) :=
  inferInstanceAs (Decidable (l.IsChain fun a b => prev b = hash a))

/-- Blocks of the two chains with one hash are one block. -/
def Apart (hash : B → H) (l m : List B) : Prop := ∀ a ∈ l, ∀ b ∈ m, hash a = hash b → a = b

instance [DecidableEq B] [DecidableEq H] (hash : B → H) (l m : List B) : Decidable (Apart hash l m) :=
  inferInstanceAs (Decidable (∀ a ∈ l, ∀ b ∈ m, hash a = hash b → a = b))

/-- The hash at a place of the chain. -/
def named (hash : B → H) (l : List B) (k : ℕ) : Option H := l[k]?.map hash

theorem named_eq_some : named hash l k = some x ↔ ∃ b, l[k]? = some b ∧ hash b = x := by
  unfold named
  rw [Option.map_eq_some_iff]

theorem lt_of_named (h : named hash l k = some x) : k < l.length := by
  obtain ⟨b, hb, -⟩ := named_eq_some.mp h
  exact (List.getElem?_eq_some_iff.mp hb).1

theorem named_isSome (hash : B → H) (h : k < l.length) : ∃ x, named hash l k = some x :=
  ⟨hash l[k], named_eq_some.mpr ⟨l[k], List.getElem?_eq_getElem h, rfl⟩⟩

theorem Linked.prev_eq (h : Linked hash prev l) {a b : B} (ha : l[k]? = some a)
    (hb : l[k + 1]? = some b) :
    prev b = hash a := by
  obtain ⟨hlt, rfl⟩ := List.getElem?_eq_some_iff.mp ha
  obtain ⟨hlt', rfl⟩ := List.getElem?_eq_some_iff.mp hb
  exact List.isChain_iff_getElem.mp h k hlt'

theorem Linked.of_isPrefix (h : Linked hash prev m) (hlm : l <+: m) : Linked hash prev l :=
  List.IsChain.prefix h hlm

theorem Apart.of_isPrefix (h : Apart hash l m) (hn : n <+: l) : Apart hash n m :=
  fun a ha => h a (hn.subset ha)

theorem Apart.symm (h : Apart hash l m) : Apart hash m l :=
  fun a ha b hb hab => (h b hb a ha hab.symm).symm

theorem named_of_isPrefix (hlm : l <+: m) (hk : k < l.length) : named hash m k = named hash l k := by
  obtain ⟨r, rfl⟩ := hlm
  unfold named
  rw [List.getElem?_append_left hk]

theorem named_take (hk : k < j) : named hash (l.take j) k = named hash l k := by
  unfold named
  rw [List.getElem?_take_of_lt hk]

/-- **A hash pins what lies below it.** -/
theorem getElem?_agree (hl : Linked hash prev l) (hm : Linked hash prev m) (happart : Apart hash l m)
    (hlk : named hash l k = some x) (hmk : named hash m k = some x) : ∀ j ≤ k, l[j]? = m[j]? := by
  induction k generalizing x with
  | zero =>
    intro j hj
    obtain rfl : j = 0 := by omega
    obtain ⟨a, ha, hax⟩ := named_eq_some.mp hlk
    obtain ⟨b, hb, hbx⟩ := named_eq_some.mp hmk
    rw [ha, hb, happart a (List.mem_of_getElem? ha) b (List.mem_of_getElem? hb) (hax.trans hbx.symm)]
  | succ k ih =>
    obtain ⟨a, ha, hax⟩ := named_eq_some.mp hlk
    obtain ⟨b, hb, hbx⟩ := named_eq_some.mp hmk
    have hab : a = b := happart a (List.mem_of_getElem? ha) b (List.mem_of_getElem? hb)
      (hax.trans hbx.symm)
    have hlt : k + 1 < l.length := (List.getElem?_eq_some_iff.mp ha).1
    have hlt' : k + 1 < m.length := (List.getElem?_eq_some_iff.mp hb).1
    have hbelow : l[k]? = some l[k] := List.getElem?_eq_getElem (by omega)
    have hbelow' : m[k]? = some m[k] := List.getElem?_eq_getElem (by omega)
    -- the one block names both of its predecessors
    have hprev : hash l[k] = hash m[k] := by
      rw [← hl.prev_eq hbelow ha, ← hm.prev_eq hbelow' hb, hab]
    have hlower := ih (named_eq_some.mpr ⟨_, hbelow, hprev⟩) (named_eq_some.mpr ⟨_, hbelow', rfl⟩)
    intro j hj
    rcases Nat.lt_or_ge k j with hkj | hjk
    · obtain rfl : j = k + 1 := by omega
      rw [ha, hb, hab]
    · exact hlower j hjk

/-- Two chains that give one hash at a place are one chain up to it. -/
theorem agree_of_hash (hl : Linked hash prev l) (hm : Linked hash prev m) (happart : Apart hash l m)
    (hlk : named hash l k = some x) (hmk : named hash m k = some x) :
    l.take (k + 1) = m.take (k + 1) := by
  have hagree := getElem?_agree hl hm happart hlk hmk
  refine List.ext_getElem? fun j => ?_
  rcases Nat.lt_or_ge j (k + 1) with hj | hj
  · rw [List.getElem?_take_of_lt hj, List.getElem?_take_of_lt hj]
    exact hagree j (by omega)
  · rw [List.getElem?_eq_none (by rw [List.length_take]; omega),
      List.getElem?_eq_none (by rw [List.length_take]; omega)]

/-- A chain whose last block another chain has at the same place is a beginning of it. -/
theorem isPrefix_of_hash (hl : Linked hash prev l) (hm : Linked hash prev m) (happart : Apart hash l m)
    (hlen : l.length = k + 1) (hlk : named hash l k = some x) (hmk : named hash m k = some x) :
    l <+: m := by
  have hagree := agree_of_hash hl hm happart hlk hmk
  rw [List.take_of_length_le hlen.le] at hagree
  rw [hagree]
  exact List.take_prefix _ _

/-- **A block that extends a chain.** The next block of `m` names the last one of `l`, so that `l` is
what `m` holds below it. -/
theorem take_of_prev (hl : Linked hash prev l) (hm : Linked hash prev m) (happart : Apart hash l m)
    (hlen : l.length = k + 1) (hlk : named hash l k = some x) {b : B} (hb : m[k + 1]? = some b)
    (hprev : prev b = x) :
    l ++ [b] = m.take (k + 2) := by
  have hlt : k + 1 < m.length := (List.getElem?_eq_some_iff.mp hb).1
  have hbelow : m[k]? = some m[k] := List.getElem?_eq_getElem (by omega)
  have hmk : named hash m k = some x := by
    rw [named_eq_some]
    exact ⟨_, hbelow, by rw [← hm.prev_eq hbelow hb, hprev]⟩
  have hagree := agree_of_hash hl hm happart hlk hmk
  rw [List.take_of_length_le hlen.le] at hagree
  rw [List.take_add_one, ← hagree, hb, Option.toList_some]

/-! ### Where two chains fork -/

/-- `k` is the last place at which the chains agree. -/
structure Forks (hash : B → H) (l m : List B) (k : ℕ) : Prop where
  agree : ∃ x, named hash l k = some x ∧ named hash m k = some x
  above : ∀ j, k < j → ∀ x, named hash l j = some x → named hash m j ≠ some x

/-- Chains with one first block fork somewhere. -/
theorem exists_forks {x : H} (hl : named hash l 0 = some x) (hm : named hash m 0 = some x) :
    ∃ k, Forks hash l m k := by
  classical
  have hbound : ∀ j, (∃ x, named hash l j = some x ∧ named hash m j = some x) → j ≤ l.length := by
    rintro j ⟨y, hy, -⟩
    exact (lt_of_named hy).le
  refine ⟨Nat.findGreatest (fun j => ∃ x, named hash l j = some x ∧ named hash m j = some x) l.length, ?_,
    ?_⟩
  · exact Nat.findGreatest_spec (P := fun j => ∃ x, named hash l j = some x ∧ named hash m j = some x)
      (Nat.zero_le _) ⟨x, hl, hm⟩
  · intro j hj y hy hy'
    exact Nat.findGreatest_is_greatest hj (hbound j ⟨y, hy, hy'⟩) ⟨y, hy, hy'⟩

/-- The chains agree exactly up to the fork. -/
theorem Forks.agree_iff (h : Forks hash l m k) (hl : Linked hash prev l) (hm : Linked hash prev m)
    (happart : Apart hash l m) : (∃ x, named hash l j = some x ∧ named hash m j = some x) ↔ j ≤ k := by
  obtain ⟨y, hly, hmy⟩ := h.agree
  constructor
  · rintro ⟨x, hx, hx'⟩
    by_contra hlt
    exact h.above j (by omega) x hx hx'
  · intro hle
    obtain ⟨x, hx⟩ := named_isSome hash (Nat.lt_of_le_of_lt hle (lt_of_named hly))
    have hsame : named hash m j = named hash l j := by
      unfold named
      rw [getElem?_agree hl hm happart hly hmy j hle]
    exact ⟨x, hx, hsame.trans hx⟩

end ZnsMint.Lib.HashChain
