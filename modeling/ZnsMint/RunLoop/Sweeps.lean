import ZnsMint.RunLoop.Refinement

/-! # One sweep a day

A rule pass sweeps the Treasury when its blocks have led into a new day of the mint. The day does not go
back along accepted headers, so that a day is swept once, unless a rewind takes the clock back below a
day that was swept. -/

namespace ZnsMint.RunLoop

open Basic Wallet Lib.Machine

variable {β : Type} {cfg : Config β} {s t : RunLoop} {r : Reply β}

/-- The day the pass began on, once it is known. -/
def Phase.since : Phase → Option ℤ
  | .catchUp _ previousDay => some previousDay
  | .price previousDay => some previousDay
  | .exactTip previousDay => some previousDay
  | .rules previousDay => some previousDay
  | _ => none

/-- Nothing was swept after `day`. -/
def SweptBy (s : RunLoop) (day : ℤ) : Prop := ∀ x ∈ s.sweeps, x ≤ day

/-- No clock is rebuilt before a day that was swept. -/
def KeepsDay (cfg : Config β) (s : RunLoop) (r : Reply β) : Prop :=
  s.phase.Filling → ∀ day ∈ (s.step cfg r).mtp.currentDay cfg.birthday, s.SweptBy day

instance (s : RunLoop) (day : ℤ) : Decidable (s.SweptBy day) :=
  inferInstanceAs (Decidable (∀ x ∈ s.sweeps, x ≤ day))

instance (cfg : Config β) (s : RunLoop) (r : Reply β) : Decidable (KeepsDay cfg s r) :=
  inferInstanceAs (Decidable (_ → _))

/-- The days swept are in order, and none lies after the day of the clock or the one its pass began on. -/
structure SweepsInOrder (cfg : Config β) (s : RunLoop) : Prop where
  sorted : s.sweeps.Pairwise (· < ·)
  today : ¬ s.phase.Filling → ¬ s.phase.Stopped → ∃ day, s.mtp.currentDay cfg.birthday = some day ∧
    s.SweptBy day
  since : ∀ day, s.phase.since = some day → s.SweptBy day

theorem currentDay_isSome {m : MtpTracker} {now : ℤ} (h : m.current = some now) (birthday : ℤ) :
    ∃ day, m.currentDay birthday = some day := by
  unfold MtpTracker.currentDay
  rw [h]
  exact ⟨_, rfl⟩

/-- An await that follows a settled one begins its pass on the day of the clock. -/
theorem SweepsInOrder.idle {p : Phase} {day : ℤ} (hsorted : s.sweeps.Pairwise (· < ·))
    (hday : s.mtp.currentDay cfg.birthday = some day) (hswept : s.SweptBy day) {began : ℤ}
    (hbegan : s.SweptBy began)
    (hp : p.Idle (some began)) : SweepsInOrder cfg { s with phase := p } where
  sorted := hsorted
  today _ _ := ⟨day, hday, hswept⟩
  since day hsince := by
    have hsame : some began = some day := by
      cases p with
      | catchUp best previousDay => exact hp.trans hsince
      | price previousDay => exact hp.trans hsince
      | exactTip previousDay => exact hp.elim
      | rules previousDay => exact hp.elim
      | nextTip | canonicalTip | walk | backfill | fatal => cases hsince
    rw [← Option.some.inj hsame]
    exact hbegan

theorem SweepsInOrder.fatal {why : Fatal} (h : SweepsInOrder cfg s) :
    SweepsInOrder cfg { s with phase := .fatal why } where
  sorted := h.sorted
  today _ hrunning := absurd trivial hrunning
  since _ hsince := nomatch hsince

theorem SweepsInOrder.move (h : SweepsInOrder cfg s) (hday : KeepsDay cfg s r) (hmove : Moves cfg s r t)
    (hstep : s.step cfg r = t) : SweepsInOrder cfg t := by
  have htoday : ∀ {p : Phase}, s.phase = p → ¬ p.Filling → ¬ p.Stopped →
      ∃ day, s.mtp.currentDay cfg.birthday = some day ∧ s.SweptBy day := by
    rintro p rfl hfilling hstopped
    exact h.today hfilling hstopped
  cases hmove with
  | stays => exact h
  | goes r hclean hp =>
    obtain ⟨day, hcurrent, hswept⟩ := h.today hclean.not_filling hclean.not_stopped
    rw [hcurrent] at hp
    exact .idle h.sorted hcurrent hswept hswept hp
  | fails => exact h.fatal
  | rewinds => exact ⟨h.sorted, fun hno => absurd trivial hno, fun _ hsince => nomatch hsince⟩
  | reads => exact ⟨h.sorted, fun hno => absurd trivial hno, fun _ hsince => nomatch hsince⟩
  | rebuilds hphase ha heq hcurrent hp =>
    have hfilling : s.phase.Filling := by
      rw [hphase]
      exact trivial
    obtain ⟨day, hnow⟩ := currentDay_isSome hcurrent cfg.birthday
    have hkept : s.SweptBy day := by
      refine hday hfilling day ?_
      rw [hstep]
      exact hnow
    rw [hnow] at hp
    exact SweepsInOrder.idle (s := { s with mtp := _, live := _ }) h.sorted hnow hkept hkept hp
  | «extends» hphase ha hprev htime hcurrent hp =>
    rename_i best previousDay now a block p
    obtain ⟨day, hbefore, hswept⟩ := htoday hphase id id
    have haccept : s.mtp.accept (s.cursor.tip.1 + 1, block.time) =
        some (s.mtp.update (s.cursor.tip.1 + 1) block.time) := by
      unfold MtpTracker.accept
      rw [htime]
    obtain ⟨median, hmedian, -⟩ := MtpTracker.of_headerTimeOk htime
    obtain ⟨day₁, day₂, hday₁, hday₂, hle⟩ := MtpTracker.currentDay_accept haccept hmedian cfg.birthday
    obtain rfl : day = day₁ := Option.some.inj (hbefore.symm.trans hday₁)
    have hbegan : s.SweptBy previousDay := by
      refine h.since previousDay ?_
      rw [hphase]
      rfl
    exact SweepsInOrder.idle (s := { s with cursor := _, mtp := _, live := _ }) h.sorted hday₂
      (fun x hx => (hswept x hx).trans hle) hbegan hp
  | prices hphase =>
    rename_i previousDay today now price rows hnow hnowday
    refine ⟨h.sorted, fun _ _ => htoday hphase id id, fun day hsince => ?_⟩
    refine h.since day ?_
    rw [hphase]
    exact hsince
  | checks hphase =>
    refine ⟨h.sorted, fun _ _ => htoday hphase id id, fun day hsince => ?_⟩
    refine h.since day ?_
    rw [hphase]
    exact hsince
  | skips hphase => exact ⟨h.sorted, fun _ _ => htoday hphase id id, fun _ hsince => nomatch hsince⟩
  | rules hphase hnow hpass =>
    rename_i previousDay today fee env live
    obtain ⟨day, hcurrent, hswept⟩ := htoday hphase id id
    obtain rfl : day = today := Option.some.inj (hcurrent.symm.trans hnow)
    have hbegan : s.SweptBy previousDay := by
      refine h.since previousDay ?_
      rw [hphase]
      rfl
    refine ⟨?_, fun _ _ => ⟨day, hcurrent, ?_⟩, fun _ hsince => nomatch hsince⟩
    · dsimp only
      split_ifs with hnew
      · rw [List.pairwise_append]
        refine ⟨h.sorted, List.pairwise_singleton _ _, fun x hx y hy => ?_⟩
        obtain rfl := List.mem_singleton.mp hy
        exact (hbegan x hx).trans_lt hnew.1
      · exact h.sorted
    · unfold SweptBy
      dsimp only
      split_ifs
      · rintro x hx
        rcases List.mem_append.mp hx with hx | hx
        · exact hswept x hx
        · exact (List.mem_singleton.mp hx).le
      · exact hswept

/-- **One sweep a day.** Whatever comes back, as long as no rewind takes the clock back before a day that
was swept, the days swept are in order and none is swept twice. -/
theorem sweeps_once (cfg : Config β) (hsorted : s.sweeps = []) (hphase : s.phase = .nextTip)
    (haligned : s.Aligned) {replies : List (Reply β)}
    (hdays : Along (fun s r => some (step cfg s r)) (KeepsDay cfg) s replies)
    (hrun : run (fun s r => some (step cfg s r)) s replies = some t) : t.sweeps.Pairwise (· < ·) := by
  have hsettled : ¬ s.phase.Filling ∧ ¬ s.phase.Stopped := by
    rw [hphase]
    exact ⟨id, id⟩
  obtain ⟨day, hday⟩ := currentDay_isSome (haligned.tip hsettled.1 hsettled.2).2 cfg.birthday
  have hstart : SweepsInOrder cfg s := by
    refine ⟨?_, fun _ _ => ⟨day, hday, ?_⟩, ?_⟩
    · rw [hsorted]
      exact .nil
    · rintro x hx
      rw [hsorted] at hx
      exact nomatch hx
    · rintro d hsince
      rw [hphase] at hsince
      exact nomatch hsince
  refine (run_invariant (C := KeepsDay cfg) (I := SweepsInOrder cfg) ?_ replies s t hstart
    hdays hrun).sorted
  rintro u r v hu hkeeps hv
  obtain rfl := Option.some.inj hv
  exact hu.move hkeeps (moves_step cfg u r) rfl

/-- Midnight falls between the first two blocks. -/
def sampleMidnight : Config Unit := { sampleConfig with birthday := -86395 }

theorem sweeps_once_midnight :
    ∃ t, run (fun s r => some (step sampleMidnight s r)) sampleStart sampleReplies = some t ∧
      t.sweeps = [1] ∧
      t.sweeps.Pairwise (· < ·) := by
  have hsweeps : (run (fun s r => some (step sampleMidnight s r)) sampleStart sampleReplies).map sweeps =
      some [1] := by
    decide +kernel
  obtain ⟨t, hrun, ht⟩ := Option.map_eq_some_iff.mp hsweeps
  exact ⟨t, hrun, ht, sweeps_once sampleMidnight rfl rfl sampleStart_aligned (by decide +kernel) hrun⟩

end ZnsMint.RunLoop
