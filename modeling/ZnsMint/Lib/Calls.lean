import Mathlib.Tactic

/-! # Calls that write in place

A call on a state it may write, which can fail: what it has written by then stays written. A call that
first only reads and then writes without failing (`Reads`, `Writes`) is all or nothing: it refines a
function of the state with the same failures (`Settles`), and a failure leaves the state as it was
(`Settles.of_error`). -/

namespace ZnsMint.Lib.Calls

variable {ε σ α : Type}

/-- A call on the state in place. -/
abbrev Call (ε σ α : Type) := EStateM ε σ α

/-- A result of a call that wrote nothing. -/
def outcome (s : σ) : Except ε α → EStateM.Result ε σ α
  | .ok a => .ok a s
  | .error e => .error e s

/-- The new state, or the failure with the state as it was. -/
def settle (s : σ) : Except ε σ → EStateM.Result ε σ Unit
  | .ok t => .ok () t
  | .error e => .error e s

/-- The call writes nothing, and its result is `r` of the state. -/
def Reads (x : Call ε σ α) (r : σ → Except ε α) : Prop := ∀ s, x.run s = outcome s (r s)

/-- The call does not fail, and writes `f` of the state. -/
def Writes (x : Call ε σ Unit) (f : σ → σ) : Prop := ∀ s, x.run s = .ok () (f s)

/-- The call does what `f` does, all of it or nothing. -/
def Settles (x : Call ε σ Unit) (f : σ → Except ε σ) : Prop := ∀ s, x.run s = settle s (f s)

/-! ### Calls that read -/

theorem Reads.pure (a : α) : Reads (ε := ε) (σ := σ) (Pure.pure a) fun _ => .ok a := fun _ => rfl

theorem Reads.get : Reads (ε := ε) (σ := σ) get .ok := fun _ => rfl

theorem Reads.ofExcept (r : Except ε α) : Reads (σ := σ) (MonadExcept.ofExcept r) fun _ => r := by
  intro s
  rcases r with e | a
  · rfl
  · rfl

theorem Reads.throw (e : ε) : Reads (σ := σ) (α := α) (MonadExcept.throw e) fun _ => .error e :=
  fun _ => rfl

theorem Reads.bind {β : Type} {x : Call ε σ α} {y : α → Call ε σ β} {r : σ → Except ε α}
    {q : α → σ → Except ε β}
    (hx : Reads x r) (hy : ∀ a, Reads (y a) (q a)) : Reads (x >>= y) fun s => r s >>= fun a => q a s := by
  intro s
  show (x >>= y).run s = outcome s (r s >>= fun a => q a s)
  rw [EStateM.run_bind, hx s]
  rcases r s with e | a
  · rfl
  · exact hy a s

/-- What a call reads first is the state it runs on. -/
theorem Reads.get_bind {y : σ → Call ε σ α} {r : σ → Except ε α}
    (hy : ∀ s, (y s).run s = outcome s (r s)) :
    Reads (MonadState.get >>= y) r := hy

theorem Reads.ite {c : Prop} [Decidable c] {x y : Call ε σ α} {r q : σ → Except ε α} (hx : c → Reads x r)
    (hy : ¬c → Reads y q) : Reads (if c then x else y) fun s => if c then r s else q s := by
  by_cases hc : c
  · simp only [if_pos hc]
    exact hx hc
  · simp only [if_neg hc]
    exact hy hc

/-! ### Calls that write -/

section Writes

variable {x y : Call ε σ Unit} {f g : σ → σ}

theorem Writes.pure : Writes (ε := ε) (σ := σ) (Pure.pure ()) id := fun _ => rfl

theorem Writes.modify (f : σ → σ) : Writes (ε := ε) (modify f) f := fun _ => rfl

theorem Writes.bind (hx : Writes x f) (hy : Writes y g) : Writes (x >>= fun _ => y) fun s => g (f s) := by
  intro s
  rw [EStateM.run_bind, hx s]
  exact hy (f s)

theorem Writes.congr (hx : Writes x f) (h : ∀ s, f s = g s) : Writes x g := by
  intro s
  rw [hx s, h s]

/-- A loop of writes. -/
theorem Writes.forM {x : α → Call ε σ Unit} {f : σ → α → σ} (hx : ∀ a, Writes (x a) fun s => f s a)
    (l : List α) :
    Writes (ForM.forM l x) fun s => l.foldl f s := by
  induction l with
  | nil => exact Writes.pure
  | cons a l ih =>
    rw [List.forM_cons]
    exact (hx a).bind ih

end Writes

/-! ### All or nothing -/

section Settles

variable {x : Call ε σ Unit} {f : σ → Except ε σ}

theorem Writes.settles {f : σ → σ} (hx : Writes x f) : Settles x fun s => .ok (f s) := hx

theorem Settles.throw (e : ε) : Settles (σ := σ) (MonadExcept.throw e) fun _ => .error e := fun _ => rfl

theorem Settles.ite {c : Prop} [Decidable c] {y : Call ε σ Unit} {g : σ → Except ε σ}
    (hx : c → Settles x f)
    (hy : ¬c → Settles y g) : Settles (if c then x else y) fun s => if c then f s else g s := by
  by_cases hc : c
  · simp only [if_pos hc]
    exact hx hc
  · simp only [if_neg hc]
    exact hy hc

theorem Settles.congr {g : σ → Except ε σ} (hx : Settles x f) (h : ∀ s, f s = g s) : Settles x g := by
  intro s
  rw [hx s, h s]

/-- Reading first, and then all or nothing. -/
theorem Reads.settles {x : Call ε σ α} {r : σ → Except ε α} (hx : Reads x r) {y : α → Call ε σ Unit}
    {g : α → σ → Except ε σ} (hy : ∀ a, Settles (y a) (g a)) :
    Settles (x >>= y) fun s => r s >>= fun a => g a s := by
  intro s
  show (x >>= y).run s = settle s (r s >>= fun a => g a s)
  rw [EStateM.run_bind, hx s]
  rcases r s with e | a
  · rfl
  · exact hy a s

/-- **A failure leaves the state as it was.** -/
theorem Settles.of_error (hx : Settles x f) {s t : σ} {e : ε} (h : x.run s = .error e t) : t = s := by
  rw [hx s] at h
  rcases hf : f s with e' | u
  · rw [hf] at h
    exact (EStateM.Result.error.inj h).2.symm
  · rw [hf] at h
    exact nomatch h

theorem Settles.ok_iff (hx : Settles x f) {s t : σ} : x.run s = .ok () t ↔ f s = .ok t := by
  rw [hx s]
  rcases f s with e | u
  · constructor
    · intro h
      exact nomatch h
    · intro h
      exact nomatch h
  · constructor
    · intro h
      exact congrArg Except.ok (EStateM.Result.ok.inj h).2
    · intro h
      exact congrArg (EStateM.Result.ok ()) (Except.ok.inj h)

end Settles

end ZnsMint.Lib.Calls
