import ZnsMint.Lib.Machine

/-! # Simulation

A machine seen through another one. Each step of the first shows a list of inputs of the second, read off
the state it is taken in; `shownAlong` is what a whole run shows. A relation that every step keeps, with
the second machine taken through what was shown, holds after every run. -/

namespace ZnsMint.Lib.Simulation

open Lib.Machine

variable {σ τ α β : Type*}

/-- What the steps of a run show, in order. A run that stops shows nothing further. -/
def shownAlong (step : σ → α → Option σ) (shown : σ → α → List β) : σ → List α → List β
  | _, [] => []
  | s, a :: l => shown s a ++ (step s a).elim [] fun t => shownAlong step shown t l

variable {step : σ → α → Option σ} {shown : σ → α → List β} {C : σ → α → Prop} {R : σ → τ → Prop}
  {apply : τ → β → τ}
  {s t : σ}

theorem shownAlong_cons {a : α} {l : List α} (h : step s a = some t) :
    shownAlong step shown s (a :: l) = shown s a ++ shownAlong step shown t l := by
  rw [shownAlong, h]
  rfl

theorem shownAlong_append {l l' : List α} (h : run step s l = some t) :
    shownAlong step shown s (l ++ l') = shownAlong step shown s l ++ shownAlong step shown t l' := by
  induction l generalizing s with
  | nil =>
    cases h
    rfl
  | cons a l ih =>
    obtain ⟨u, hu, hrest⟩ := run_cons h
    rw [List.cons_append, shownAlong_cons hu, shownAlong_cons hu, ih hrest, List.append_assoc]

/-- The condition along a run holds along its end. -/
theorem along_append {l l' : List α} (h : Along step C s (l ++ l')) (hrun : run step s l = some t) :
    Along step C s l ∧ Along step C t l' := by
  induction l generalizing s with
  | nil =>
    cases hrun
    exact ⟨trivial, h⟩
  | cons a l ih =>
    obtain ⟨u, hu, hrest⟩ := run_cons hrun
    obtain ⟨hl, hl'⟩ := ih (h.2 u hu) hrest
    refine ⟨⟨h.1, fun v hv => ?_⟩, hl'⟩
    obtain rfl := Option.some.inj (hu.symm.trans hv)
    exact hl

/-- **The simulation rule.** -/
theorem run_simulates
    (hstep : ∀ s a t r, R s r → C s a → step s a = some t → R t ((shown s a).foldl apply r)) :
    ∀ (l : List α) (s t : σ) (r : τ), R s r → Along step C s l → run step s l = some t →
      R t ((shownAlong step shown s l).foldl apply r)
  | [], s, t, r, hs, _, hr => by
    cases hr
    exact hs
  | a :: l, s, t, r, hs, hl, hr => by
    obtain ⟨u, hu, hrest⟩ := run_cons hr
    rw [shownAlong_cons hu, List.foldl_append]
    exact run_simulates hstep l u t _ (hstep s a u r hs hl.1 hu) (hl.2 u hu) hrest

end ZnsMint.Lib.Simulation
