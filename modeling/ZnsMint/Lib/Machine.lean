import Mathlib.Tactic

/-! # Runs of a partial state machine

A machine whose steps may fail, the condition that every step of a run meets (`Along`), and the rule
that an invariant of the conditioned steps holds after every run. Below it, loops: what a body keeps,
a whole loop keeps. -/

namespace ZnsMint.Lib.Machine

variable {σ α : Type*}

/-- The run of a machine over a list of inputs. -/
def run (step : σ → α → Option σ) (s : σ) (l : List α) : Option σ := l.foldlM step s

/-- Every step of the run meets `C`, a condition on the state before it and on its input. -/
def Along (step : σ → α → Option σ) (C : σ → α → Prop) : σ → List α → Prop
  | _, [] => True
  | s, a :: l => C s a ∧ ∀ t, step s a = some t → Along step C t l

variable {step : σ → α → Option σ} {C : σ → α → Prop} {s t : σ}

/-- The condition is checked by running the machine. -/
instance decidableAlong (step : σ → α → Option σ) (C : σ → α → Prop) [∀ s a, Decidable (C s a)] :
    ∀ (l : List α) (s : σ), Decidable (Along step C s l)
  | [], _ => isTrue trivial
  | a :: l, s =>
    match h : step s a with
    | none => decidable_of_iff (C s a) ⟨fun hc => ⟨hc, fun t ht => by simp [h] at ht⟩, And.left⟩
    | some t =>
      have : Decidable (Along step C t l) := decidableAlong step C l t
      decidable_of_iff (C s a ∧ Along step C t l)
        ⟨fun hc => ⟨hc.1, fun u hu => (Option.some.inj (h.symm.trans hu)) ▸ hc.2⟩, fun hc =>
          ⟨hc.1, hc.2 t h⟩⟩

/-- No condition holds along every run. -/
theorem along_true (step : σ → α → Option σ) : ∀ (l : List α) (s : σ), Along step (fun _ _ => True) s l
  | [], _ => trivial
  | _ :: l, _ => ⟨trivial, fun t _ => along_true step l t⟩

/-- A condition on the inputs alone. -/
theorem along_of_forall {D : α → Prop} (step : σ → α → Option σ) :
    ∀ (l : List α) (s : σ), (∀ a ∈ l, D a) → Along step (fun _ a => D a) s l
  | [], _, _ => trivial
  | a :: l, _, h => ⟨h a (by simp), fun t _ => along_of_forall step l t fun b hb =>
    h b (List.mem_cons_of_mem _ hb)⟩

/-- A stronger condition on the steps that are taken. -/
theorem Along.imp {D : σ → α → Prop} : ∀ {l : List α} {s : σ}, Along step C s l →
    (∀ s, ∀ a ∈ l, C s a → D s a) → Along step D s l
  | [], _, _, _ => trivial
  | a :: _, s, h, himp => ⟨himp s a List.mem_cons_self h.1, fun t ht =>
      (h.2 t ht).imp fun s b hb => himp s b (List.mem_cons_of_mem _ hb)⟩

@[simp] theorem run_nil : run step s [] = some s := rfl

theorem run_cons {a : α} {l : List α} (h : run step s (a :: l) = some t) :
    ∃ u, step s a = some u ∧ run step u l = some t := by
  unfold run at h
  rw [List.foldlM_cons] at h
  exact Option.bind_eq_some_iff.mp h

/-- **The invariant rule.** -/
theorem run_invariant {I : σ → Prop}
    (hstep : ∀ s a t, I s → C s a → step s a = some t → I t) :
    ∀ (l : List α) (s t : σ), I s → Along step C s l → run step s l = some t → I t
  | [], s, t, hs, _, hr => by
    cases hr
    exact hs
  | a :: l, s, t, hs, hl, hr => by
    obtain ⟨u, hu, hrun⟩ := run_cons hr
    exact run_invariant hstep l u t (hstep s a u hs hl.1 hu) (hl.2 u hu) hrun

/-- The same for the last step of a run: what holds between its two ends. -/
theorem run_last {I : σ → Prop} {R : σ → α → σ → Prop}
    (hstep : ∀ s a t, I s → C s a → step s a = some t → I t)
    (hlast : ∀ s a t, I s → C s a → step s a = some t → R s a t) {a : α} {u : σ} :
    ∀ (l : List α) (s : σ), I s → Along step C s (l ++ [a]) → run step s l = some t →
      step t a = some u → R t a u
  | [], _, hs, hl, hr, hu => by
    cases hr
    exact hlast t a u hs hl.1 hu
  | b :: l, s, hs, hl, hr, hu => by
    obtain ⟨v, hv, hrun⟩ := run_cons hr
    exact run_last hstep hlast l v (hstep s b v hs hl.1 hv) (hl.2 v hv) hrun hu

/-! ### Steps in sequence -/

/-- A result of two steps in sequence is a result of each. -/
theorem ok_of_bind {ε α β : Type} {x : Except ε α} {f : α → Except ε β} {b : β}
    (h : x >>= f = .ok b) : ∃ a, x = .ok a ∧ f a = .ok b := by
  rcases x with e | a
  · cases h
  · exact ⟨a, rfl, h⟩

theorem ok_of_toOption {ε α : Type} {x : Except ε α} {a : α} (h : x.toOption = some a) : x = .ok a := by
  rcases x with e | b
  · cases h
  · exact congrArg _ (Option.some.inj h)

/-! ### Loops -/

/-- A relation between what is left to do and the state, kept by every turn of a loop. -/
theorem foldl_invariant {f : σ → α → σ} {I : List α → σ → Prop}
    (hf : ∀ a l s, I (a :: l) s → I l (f s a)) : ∀ (l : List α) (s : σ), I l s → I [] (l.foldl f s)
  | [], _, hs => hs
  | a :: l, s, hs => foldl_invariant hf l (f s a) (hf a l s hs)

/-- The same for a loop that may fail. -/
theorem foldlM_invariant {f : σ → α → Option σ} {I : List α → σ → Prop}
    (hf : ∀ a l s t, I (a :: l) s → f s a = some t → I l t) :
    ∀ (l : List α) (s t : σ), I l s → l.foldlM f s = some t → I [] t
  | [], s, t, hs, h => by
    cases h
    exact hs
  | a :: l, s, t, hs, h => by
    rw [List.foldlM_cons] at h
    obtain ⟨u, hu, hrest⟩ := Option.bind_eq_some_iff.mp h
    exact foldlM_invariant hf l u t (hf a l s u hs hu) hrest

/-- A loop none of whose turns fails. -/
theorem foldlM_isSome {f : σ → α → Option σ} (hf : ∀ s a, (f s a).isSome = true) :
    ∀ (l : List α) (s : σ), (l.foldlM f s).isSome = true
  | [], _ => rfl
  | a :: l, s => by
    obtain ⟨t, ht⟩ := Option.isSome_iff_exists.mp (hf s a)
    rw [List.foldlM_cons, ht]
    exact foldlM_isSome hf l t

/-! ### Traces -/

/-- The items of the list are handled one after the other, each once, and `R` relates the states before
and after each. -/
inductive Trace (R : σ → α → σ → Prop) : σ → List α → σ → Prop
  | nil (s : σ) : Trace R s [] s
  | cons {s t u : σ} {a : α} {l : List α} (head : R s a t) (tail : Trace R t l u) : Trace R s (a :: l) u

/-- A loop is a trace of what its turns do. -/
theorem trace_foldl {f : σ → α → σ} {R : σ → α → σ → Prop} (hf : ∀ s a, R s a (f s a)) :
    ∀ (l : List α) (s : σ), Trace R s l (l.foldl f s)
  | [], s => .nil s
  | a :: l, s => .cons (hf s a) (trace_foldl hf l (f s a))

/-- The same for a loop that may fail. -/
theorem trace_foldlM {f : σ → α → Option σ} {R : σ → α → σ → Prop}
    (hf : ∀ s a t, f s a = some t → R s a t) :
    ∀ (l : List α) (s t : σ), l.foldlM f s = some t → Trace R s l t
  | [], s, t, h => by
    cases h
    exact .nil s
  | a :: l, s, t, h => by
    rw [List.foldlM_cons] at h
    obtain ⟨u, hu, hrest⟩ := Option.bind_eq_some_iff.mp h
    exact .cons (hf s a u hu) (trace_foldlM hf l u t hrest)

end ZnsMint.Lib.Machine
