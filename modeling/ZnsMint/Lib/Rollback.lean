import Mathlib.Tactic
import Mathlib.Data.List.DropRight

/-! # Rewinding a state machine

A machine whose operations carry a height and which can be cut back to a height. `System.exact` is the
rule every rollback result is an instance of: find a relation `E` between the state at height `h` and
a later one that every operation above `h` and every truncation to `h` or more keeps, and that a
truncation to `h` undoes.

The second part is about the lists such machines keep: entries stamped with a height, cut either by
popping the tail (`List.rdropWhile`) or by filtering. -/

namespace ZnsMint.Lib.Rollback

variable {σ ω τ α : Type*}

/-- One action on a rewindable machine. -/
inductive Act (ω : Type*) where
  | op (o : ω)
  | truncate (k : ℕ)

/-- A rewindable machine. -/
structure System (σ ω : Type*) where
  step : σ → ω → σ
  height : ω → ℕ
  truncate : σ → ℕ → σ

namespace System

variable (S : System σ ω)

def act (s : σ) : Act ω → σ
  | .op o => S.step s o
  | .truncate k => S.truncate s k

def run (s : σ) (acts : List (Act ω)) : σ := acts.foldl S.act s

@[simp] theorem run_nil (s : σ) : S.run s [] = s := rfl

@[simp] theorem run_cons (s : σ) (a : Act ω) (l : List (Act ω)) :
    S.run s (a :: l) = S.run (S.act s a) l := rfl

theorem run_append (s : σ) (l m : List (Act ω)) : S.run s (l ++ m) = S.run (S.run s l) m :=
  List.foldl_append

/-- The heights of the operations follow a chain whose next block is at `lo` or above: they do not
decrease, and after a truncation to `k` they are above `k`. -/
def Follows : ℕ → List (Act ω) → Prop
  | _, [] => True
  | lo, .op o :: l => lo ≤ S.height o ∧ Follows (S.height o) l
  | _, .truncate k :: l => Follows (k + 1) l

/-- The heights of the operations climb from `lo` on, and after a truncation to `k` from `k` on: the
height a machine was cut back to may be worked at again. -/
def Climbs : ℕ → List (Act ω) → Prop
  | _, [] => True
  | lo, .op o :: l => lo ≤ S.height o ∧ Climbs (S.height o) l
  | _, .truncate k :: l => Climbs k l

/-- The operations are at `h` or below. -/
def Below (h : ℕ) (acts : List (Act ω)) : Prop := ∀ o, Act.op o ∈ acts → S.height o ≤ h

/-- The operations are above `h`, and nothing is cut below `h`. -/
def Above (h : ℕ) (acts : List (Act ω)) : Prop :=
  (∀ o, Act.op o ∈ acts → h < S.height o) ∧ ∀ k, Act.truncate k ∈ acts → h ≤ k

/-- The height the next operation has to respect after these actions. -/
def floor : ℕ → List (Act ω) → ℕ
  | lo, [] => lo
  | _, .op o :: l => floor (S.height o) l
  | _, .truncate k :: l => floor (k + 1) l

theorem follows_append : ∀ (l m : List (Act ω)) (lo : ℕ),
    S.Follows lo (l ++ m) ↔ S.Follows lo l ∧ S.Follows (S.floor lo l) m
  | [], _, _ => (iff_of_eq (true_and _)).symm
  | .op _ :: l, m, _ => (and_congr_right fun _ => follows_append l m _).trans and_assoc.symm
  | .truncate _ :: l, m, _ => follows_append l m _

/-- An invariant that mentions the floor the next operation has to respect. -/
theorem run_invariant {P : ℕ → σ → Prop} {Q : ω → Prop} {T : ℕ → Prop}
    (hop : ∀ lo s o, P lo s → lo ≤ S.height o → Q o → P (S.height o) (S.step s o))
    (htr : ∀ lo s k, P lo s → T k → P (k + 1) (S.truncate s k)) :
    ∀ (acts : List (Act ω)) (lo : ℕ) (s : σ), P lo s → S.Follows lo acts →
      (∀ o, Act.op o ∈ acts → Q o) → (∀ k, Act.truncate k ∈ acts → T k) →
        P (S.floor lo acts) (S.run s acts)
  | [], _, _, hs, _, _, _ => hs
  | .op o :: l, lo, s, hs, hf, hq, ht =>
    run_invariant hop htr l _ _ (hop lo s o hs hf.1 (hq o (by simp))) hf.2
      (fun o' ho' => hq o' (List.mem_cons_of_mem _ ho')) fun k hk => ht k (List.mem_cons_of_mem _ hk)
  | .truncate k :: l, lo, s, hs, hf, hq, ht =>
    run_invariant hop htr l _ _ (htr lo s k hs (ht k (by simp))) hf
      (fun o' ho' => hq o' (List.mem_cons_of_mem _ ho')) fun k' hk' => ht k' (List.mem_cons_of_mem _ hk')

/-- A relation that the actions above `h` keep holds after all of them. -/
theorem run_above {E : σ → Prop} {h : ℕ}
    (hop : ∀ t o, E t → h < S.height o → E (S.step t o))
    (htr : ∀ t k, E t → h ≤ k → E (S.truncate t k)) :
    ∀ (acts : List (Act ω)) (t : σ), E t → S.Above h acts → E (S.run t acts)
  | [], _, ht, _ => ht
  | .op o :: l, t, ht, ha =>
    run_above hop htr l _ (hop t o ht (ha.1 o (by simp)))
      ⟨fun o' ho' => ha.1 o' (List.mem_cons_of_mem _ ho'),
        fun k hk => ha.2 k (List.mem_cons_of_mem _ hk)⟩
  | .truncate k :: l, t, ht, ha =>
    run_above hop htr l _ (htr t k ht (ha.2 k (by simp)))
      ⟨fun o' ho' => ha.1 o' (List.mem_cons_of_mem _ ho'),
        fun k' hk' => ha.2 k' (List.mem_cons_of_mem _ hk')⟩

/-- **Exact rollback.** What a truncation to `h` shows of the state, after any actions above `h`, is
what it showed before them. -/
theorem exact {E : σ → Prop} {h : ℕ} {s : σ} {v : σ → τ}
    (hop : ∀ t o, E t → h < S.height o → E (S.step t o))
    (htr : ∀ t k, E t → h ≤ k → E (S.truncate t k))
    (hcut : ∀ t, E t → v (S.truncate t h) = v s) (hs : E s)
    {acts : List (Act ω)} (ha : S.Above h acts) :
    v (S.truncate (S.run s acts) h) = v s :=
  hcut _ (S.run_above hop htr acts s hs ha)

end System

/-! ### Stamped lists -/

/-- Popping the entries above `h` off the tail undoes every append above `h`. -/
theorem rdropWhile_append_above {stamp : α → ℕ} {h : ℕ} {l m : List α}
    (hl : ∀ x ∈ l, stamp x ≤ h) (hm : ∀ x ∈ m, h < stamp x) :
    (l ++ m).rdropWhile (fun x => decide (h < stamp x)) = l := by
  induction m using List.reverseRecOn with
  | nil =>
    rw [List.append_nil, List.rdropWhile_eq_self_iff]
    intro hne
    have := hl _ (List.getLast_mem hne)
    simpa using this
  | append_singleton m x ih =>
    rw [← List.append_assoc, List.rdropWhile_concat_pos]
    · exact ih fun y hy => hm y (by simp [hy])
    · simpa using hm x (by simp)

/-- Popping above `k` keeps a prefix that lies at `h ≤ k` or below. -/
theorem rdropWhile_append_prefix {stamp : α → ℕ} {h k : ℕ} (hk : h ≤ k) {l m : List α}
    (hl : ∀ x ∈ l, stamp x ≤ h) (hm : ∀ x ∈ m, h < stamp x) :
    ∃ m', (l ++ m).rdropWhile (fun x => decide (k < stamp x)) = l ++ m' ∧ ∀ x ∈ m', h < stamp x := by
  induction m using List.reverseRecOn with
  | nil =>
    refine ⟨[], ?_, by simp⟩
    rw [List.append_nil, List.rdropWhile_eq_self_iff]
    intro hne
    have := hl _ (List.getLast_mem hne)
    simpa using by omega
  | append_singleton m x ih =>
    by_cases hx : k < stamp x
    · obtain ⟨m', h1, h2⟩ := ih fun y hy => hm y (by simp [hy])
      refine ⟨m', ?_, h2⟩
      rw [← List.append_assoc, List.rdropWhile_concat_pos _ _ _ (by simpa using hx), h1]
    · refine ⟨m ++ [x], ?_, hm⟩
      rw [← List.append_assoc, List.rdropWhile_concat_neg _ _ _ (by simpa using hx)]

/-- Filtering by the stamp undoes every append above `h`. -/
theorem filter_append_above {stamp : α → ℕ} {h : ℕ} {l m : List α}
    (hl : ∀ x ∈ l, stamp x ≤ h) (hm : ∀ x ∈ m, h < stamp x) :
    (l ++ m).filter (fun x => decide (stamp x ≤ h)) = l := by
  rw [List.filter_append, List.filter_eq_self.mpr (by simpa using hl),
    List.filter_eq_nil_iff.mpr (by simpa using hm), List.append_nil]

end ZnsMint.Lib.Rollback
