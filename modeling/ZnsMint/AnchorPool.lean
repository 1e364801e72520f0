import ZnsMint.Basic
import ZnsMint.Lib.Checkpoints
import Mathlib.Data.Finset.Card

/-! # The claim-anchor pool

The height-checkpointed set of nullifiers that confer claim authority
(`src/mint/registry/anchor_pool.rs`). A pool is filled once by the ceremony; after that a nullifier
joins only by succeeding one live anchor. -/

namespace ZnsMint

open Basic Lib.Checkpoints

namespace AnchorPool

/-- Standing size of the pool. -/
def ANCHOR_POOL_SIZE : ℕ := 40

/-- The keygen ceremony is one transaction: the whole standing set of zero-value outputs, and no
name note. -/
def isCeremonyFill (zeroValueOutputs nameNotes : ℕ) : Bool :=
  zeroValueOutputs == ANCHOR_POOL_SIZE && nameNotes == 0

end AnchorPool

@[ext]
structure AnchorPool where
  live : Finset Nullifier
  checkpoints : HeightMap (Finset Nullifier)
  established : Option ℕ

namespace AnchorPool

/-- `AnchorPool::default`. -/
def empty : AnchorPool := ⟨∅, ∅, none⟩

def contains (p : AnchorPool) (nf : Nullifier) : Bool := decide (nf ∈ p.live)

def isFull (p : AnchorPool) : Bool := decide (ANCHOR_POOL_SIZE ≤ p.live.card)

def adoptionClosed (p : AnchorPool) : Bool := p.established.isSome

/-- Ceremony filling. -/
def adopt (p : AnchorPool) (height : ℕ) (nf : Nullifier) : AnchorPool :=
  if p.adoptionClosed || p.isFull then p
  else if nf ∈ p.live then p
  else
    { live := insert nf p.live
      checkpoints := p.checkpoints.insert height (insert nf p.live)
      established := if (insert nf p.live).card = ANCHOR_POOL_SIZE then some height
        else p.established }

/-- The removal loop of `retire_spent`: what is left of the live set, and how many anchors went. -/
def retire (live : Finset Nullifier) (nfs : List Nullifier) : Finset Nullifier × ℕ :=
  nfs.foldl (fun acc nf => if nf ∈ acc.1 then (acc.1.erase nf, acc.2 + 1) else acc) (live, 0)

/-- The pool follows one transaction: spent anchors retire, and a successor joins only when exactly
one of them did. -/
def retireSpent (p : AnchorPool) (nfs : List Nullifier) (successor : Option Nullifier)
    (height : ℕ) : AnchorPool :=
  let (left, retired) := retire p.live nfs
  -- `changed |= live.insert(nf)` matters only when nothing retired, and then no successor joins
  let live := if retired = 1 then successor.elim left fun nf => insert nf left else left
  if 0 < retired then
    { p with live := live, checkpoints := p.checkpoints.insert height live }
  else p

/-- Rewinds to the pool state at `height`. -/
def truncateTo (p : AnchorPool) (height : ℕ) : AnchorPool where
  live := (latest (cut p.checkpoints height)).getD ∅
  checkpoints := cut p.checkpoints height
  established := if p.established.any (fun e => decide (height < e)) then none else p.established

/-! ### What the operations do to the live set -/

theorem retire_spec (live : Finset Nullifier) (nfs : List Nullifier) (n : ℕ) :
    nfs.foldl (fun acc nf => if nf ∈ acc.1 then (acc.1.erase nf, acc.2 + 1) else acc) (live, n) =
      (live \ nfs.toFinset, n + (live ∩ nfs.toFinset).card) := by
  induction nfs generalizing live n with
  | nil => simp
  | cons a l ih =>
    rw [List.foldl_cons, List.toFinset_cons]
    split_ifs with ha
    · rw [ih]
      refine Prod.ext ?_ ?_
      · simp only
        rw [Finset.erase_sdiff_comm, Finset.sdiff_insert]
      · have hsplit : live ∩ insert a l.toFinset = insert a (live.erase a ∩ l.toFinset) := by
          ext x
          by_cases hx : x = a <;> simp [hx, ha]
        simp only
        rw [hsplit, Finset.card_insert_of_notMem (by simp)]
        omega
    · rw [ih, Finset.sdiff_insert_of_notMem ha, Finset.inter_insert_of_notMem ha]

theorem retire_eq (live : Finset Nullifier) (nfs : List Nullifier) :
    retire live nfs = (live \ nfs.toFinset, (live ∩ nfs.toFinset).card) := by
  rw [retire, retire_spec, Nat.zero_add]

/-- The live set after one transaction. -/
theorem retireSpent_live (p : AnchorPool) (nfs : List Nullifier) (successor : Option Nullifier)
    (height : ℕ) :
    (p.retireSpent nfs successor height).live =
      if (p.live ∩ nfs.toFinset).card = 1 then
        successor.elim (p.live \ nfs.toFinset) fun nf => insert nf (p.live \ nfs.toFinset)
      else p.live \ nfs.toFinset := by
  unfold retireSpent
  rw [retire_eq]
  simp only
  split_ifs with h1 h2 h3
  · rfl
  · rfl
  · omega
  · have hempty : p.live ∩ nfs.toFinset = ∅ := Finset.card_eq_zero.mp (by omega)
    rw [Finset.sdiff_eq_self_of_disjoint (Finset.disjoint_iff_inter_eq_empty.mpr hempty)]

@[simp] theorem retireSpent_none_live (p : AnchorPool) (nfs : List Nullifier) (height : ℕ) :
    (p.retireSpent nfs none height).live = p.live \ nfs.toFinset := by
  rw [retireSpent_live]
  simp

@[simp] theorem retireSpent_established (p : AnchorPool) (nfs : List Nullifier)
    (successor : Option Nullifier) (height : ℕ) :
    (p.retireSpent nfs successor height).established = p.established := by
  unfold retireSpent
  rw [retire_eq]
  split
  split_ifs <;> rfl

/-- A transaction either leaves the pool alone or writes the checkpoint of its own height. -/
theorem retireSpent_cases (p : AnchorPool) (nfs : List Nullifier) (successor : Option Nullifier)
    (height : ℕ) :
    p.retireSpent nfs successor height = p ∨
      ∃ live, p.retireSpent nfs successor height =
        { p with live := live, checkpoints := p.checkpoints.insert height live } := by
  unfold retireSpent
  rw [retire_eq]
  simp only
  split
  · exact Or.inr ⟨_, rfl⟩
  · exact Or.inl rfl

/-- Adoption either leaves the pool alone, or adds one member to an open pool below standing size. -/
theorem adopt_cases (p : AnchorPool) (height : ℕ) (nf : Nullifier) :
    p.adopt height nf = p ∨
      (p.established = none ∧ p.live.card < ANCHOR_POOL_SIZE ∧ nf ∉ p.live ∧
        p.adopt height nf =
          { live := insert nf p.live
            checkpoints := p.checkpoints.insert height (insert nf p.live)
            established := if p.live.card + 1 = ANCHOR_POOL_SIZE then some height else none }) := by
  unfold adopt
  by_cases h1 : (p.adoptionClosed || p.isFull) = true
  · rw [if_pos h1]; exact Or.inl rfl
  rw [if_neg h1]
  by_cases h2 : nf ∈ p.live
  · rw [if_pos h2]; exact Or.inl rfl
  refine Or.inr ?_
  simp only [adoptionClosed, isFull, Bool.or_eq_true, Option.isSome_iff_ne_none, ne_eq,
    decide_eq_true_eq, not_or, not_not, not_le] at h1
  refine ⟨h1.1, h1.2, h2, ?_⟩
  rw [if_neg h2, Finset.card_insert_of_notMem h2, h1.1]

/-- Either operation rewrites at most the checkpoint of its own height. -/
theorem adopt_checkpoints (p : AnchorPool) {height j : ℕ} (nf : Nullifier) (hj : j ≠ height) :
    (p.adopt height nf).checkpoints[j]? = p.checkpoints[j]? := by
  rcases p.adopt_cases height nf with h | ⟨-, -, -, h⟩
  · rw [h]
  · rw [h, Std.ExtTreeMap.getElem?_insert, if_neg]
    exact fun hc => hj (Nat.compare_eq_eq.mp hc).symm

theorem retireSpent_checkpoints (p : AnchorPool) (nfs : List Nullifier) (successor : Option Nullifier)
    {height j : ℕ} (hj : j ≠ height) :
    (p.retireSpent nfs successor height).checkpoints[j]? = p.checkpoints[j]? := by
  rcases p.retireSpent_cases nfs successor height with h | ⟨live, h⟩
  · rw [h]
  · rw [h, Std.ExtTreeMap.getElem?_insert, if_neg]
    exact fun hc => hj (Nat.compare_eq_eq.mp hc).symm

/-! ### The pool at a height -/

/-- What holds of a pool whose blocks so far lie at `lo` or below: the live set is the last checkpoint,
and nothing is stamped above `lo`. -/
structure AtHeight (lo : ℕ) (p : AnchorPool) : Prop where
  live_eq : p.live = (latest p.checkpoints).getD ∅
  keys_le : ∀ k ∈ p.checkpoints, k ≤ lo
  established_le : ∀ e, p.established = some e → e ≤ lo

theorem AtHeight.empty (lo : ℕ) : AtHeight lo AnchorPool.empty :=
  ⟨by simp [AnchorPool.empty], by simp [AnchorPool.empty], by simp [AnchorPool.empty]⟩

theorem AtHeight.insert {lo height : ℕ} {p : AnchorPool} (hp : AtHeight lo p)
    (hlo : lo ≤ height) (live : Finset Nullifier) (est : Option ℕ)
    (hest : ∀ e, est = some e → e ≤ height) :
    AtHeight height ⟨live, p.checkpoints.insert height live, est⟩ where
  live_eq := by
    rw [latest_insert fun j hj => le_trans (hp.keys_le j hj) hlo, Option.getD_some]
  keys_le k hk := by
    rcases Std.ExtTreeMap.mem_insert.mp hk with hk | hk
    · exact le_of_eq (Nat.compare_eq_eq.mp hk).symm
    · exact le_trans (hp.keys_le k hk) hlo
  established_le := hest

theorem AtHeight.mono {lo hi : ℕ} {p : AnchorPool} (hp : AtHeight lo p) (h : lo ≤ hi) :
    AtHeight hi p :=
  ⟨hp.live_eq, fun k hk => le_trans (hp.keys_le k hk) h,
    fun e he => le_trans (hp.established_le e he) h⟩

theorem AtHeight.adopt {lo height : ℕ} {p : AnchorPool} (hp : AtHeight lo p)
    (hlo : lo ≤ height) (nf : Nullifier) : AtHeight height (p.adopt height nf) := by
  rcases p.adopt_cases height nf with h | ⟨-, -, -, h⟩
  · rw [h]; exact hp.mono hlo
  · rw [h]
    refine hp.insert hlo _ _ fun e he => ?_
    split_ifs at he
    exact le_of_eq (Option.some.inj he).symm

theorem AtHeight.retireSpent {lo height : ℕ} {p : AnchorPool} (hp : AtHeight lo p)
    (hlo : lo ≤ height) (nfs : List Nullifier) (successor : Option Nullifier) :
    AtHeight height (p.retireSpent nfs successor height) := by
  rcases p.retireSpent_cases nfs successor height with h | ⟨live, h⟩
  · rw [h]; exact hp.mono hlo
  · rw [h]
    exact hp.insert hlo live _ fun e he => le_trans (hp.established_le e he) hlo

theorem truncateTo_established {p : AnchorPool} {k e : ℕ} :
    (p.truncateTo k).established = some e ↔ p.established = some e ∧ e ≤ k := by
  unfold truncateTo
  cases p.established with
  | none => simp
  | some e' =>
    by_cases h : k < e'
    · simp only [Option.any_some, h, decide_true, if_true, Option.some.injEq]
      constructor
      · rintro ⟨⟩
      · rintro ⟨rfl, hle⟩
        omega
    · simp only [Option.any_some, h, decide_false, Bool.false_eq_true, if_false, Option.some.injEq]
      constructor
      · rintro rfl
        exact ⟨rfl, by omega⟩
      · exact fun h => h.1

theorem AtHeight.truncateTo (p : AnchorPool) (k : ℕ) : AtHeight k (p.truncateTo k) where
  live_eq := rfl
  keys_le _ hj := (le_of_mem_cut hj).1
  established_le _ he := (truncateTo_established.mp he).2

theorem AtHeight.truncateTo_keep {lo : ℕ} {p : AnchorPool} (hp : AtHeight lo p) (k : ℕ) :
    AtHeight lo (p.truncateTo k) where
  live_eq := rfl
  keys_le _ hj := hp.keys_le _ (le_of_mem_cut hj).2
  established_le _ he := hp.established_le _ (truncateTo_established.mp he).1

end AnchorPool

end ZnsMint
