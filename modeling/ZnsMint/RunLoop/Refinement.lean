import ZnsMint.Live.Rates
import ZnsMint.RunLoop.Steps

/-! # The run loop refines its faculties

Whatever the node answers, in whatever order, what the loop does with its faculties is a run of `Live`:
each reply makes at most one block, one rewind, one skipped pass or one rule pass of it. In between, the
wallet's cursor, the clock and the rate are those of the faculties, but for the two places where the loop
is ahead of them: the cursor is cut before the clock is filled again, and the oracle takes its round
before the tip is checked. -/

namespace ZnsMint

open Basic Wallet Lib.Checkpoints Lib.Machine

/-! ### The cursor's tip -/

namespace Cursor

variable {c c' : Cursor} {h : ℕ}

/-- No block is applied above the tip. -/
theorem le_tip (hmem : h ∈ c.blocks) : h ≤ c.tip.1 := by
  unfold tip
  rcases hlast : c.blocks.toList.getLast? with - | p
  · rw [List.getLast?_eq_none_iff, Std.ExtTreeMap.toList_eq_nil_iff] at hlast
    rw [hlast] at hmem
    exact absurd hmem Std.ExtTreeMap.not_mem_empty
  · exact le_of_getLast? hlast hmem

theorem tip_push (c : Cursor) (hash : BlockHash) : (c.push hash).tip = (c.tip.1 + 1, hash) := by
  have hlast : (c.blocks.insert (c.tip.1 + 1) hash).toList.getLast? = some (c.tip.1 + 1, hash) :=
    getLast?_insert fun j hj => (le_tip hj).trans (Nat.le_succ _)
  show (c.blocks.insert (c.tip.1 + 1) hash).toList.getLast?.getD c.seed = _
  rw [hlast]
  rfl

/-- What is left of a rewind ends at or below the height asked for. -/
theorem tip_truncateTo {retains : ℕ → Bool} (hbelow : h < c.tip.1)
    (ht : c.truncateTo retains h = some c') :
    c'.tip.1 ≤ h := by
  have hcut : ∀ a ≤ h, c.seed.1 ≤ h → ({ c with blocks := cut c.blocks a } : Cursor).tip.1 ≤ h := by
    intro a ha hseed
    show ((cut c.blocks a).toList.getLast?.getD c.seed).1 ≤ h
    rcases hlast : (cut c.blocks a).toList.getLast? with - | p
    · exact hseed
    · have hmem := Std.ExtTreeMap.mem_toList_iff_getElem?_eq_some.mp
        (show (p.1, p.2) ∈ (cut c.blocks a).toList from List.mem_of_getLast? hlast)
      have hp := le_of_mem_cut (Std.ExtTreeMap.isSome_getElem?_iff_mem.mp
        (Option.isSome_iff_exists.mpr ⟨_, hmem⟩))
      exact hp.1.trans ha
  unfold truncateTo at ht
  split at ht
  · rename_i target htarget
    split_ifs at ht
    obtain rfl := Option.some.inj ht
    -- the entry it is cut at is the last one left
    have hmem := Std.ExtTreeMap.mem_toList_iff_getElem?_eq_some.mp
      (show (target.1, target.2) ∈ (cut c.blocks h).toList from List.mem_of_getLast? htarget)
    have hle := (le_of_mem_cut (Std.ExtTreeMap.isSome_getElem?_iff_mem.mp
      (Option.isSome_iff_exists.mpr ⟨_, hmem⟩))).1
    have hentry : (cut c.blocks target.1)[target.1]? = some target.2 := by
      rw [getElem?_cut, if_pos le_rfl]
      rw [getElem?_cut, if_pos hle] at hmem
      exact hmem
    have hlast := getLast?_eq_some_of hentry fun j hj => (le_of_mem_cut hj).1
    show ((cut c.blocks target.1).toList.getLast?.getD c.seed).1 ≤ h
    rw [hlast]
    exact hle
  · split_ifs at ht with hempty hsame hretained
    · -- at the origin with nothing applied there is nothing below the tip
      have htip : c.tip = c.seed := by
        unfold tip
        rw [Std.ExtTreeMap.isEmpty_iff.mp hempty]
        rfl
      rw [htip] at hbelow
      omega
    · obtain rfl := Option.some.inj ht
      exact hcut c.seed.1 hretained.1 hretained.1

end Cursor

namespace RunLoop

variable {β : Type} {cfg : Config β} {s t : RunLoop} {r : Reply β}

/-! ### In step with the faculties -/

/-- The loop is filling its clock. -/
def Phase.Filling : Phase → Prop
  | .backfill .. => True
  | _ => False

instance : ∀ p : Phase, Decidable p.Filling
  | .backfill .. => isTrue trivial
  | .nextTip | .canonicalTip | .walk .. | .catchUp .. | .price _ | .exactTip _ | .rules _ | .fatal _ =>
    isFalse id

/-- The process has stopped. -/
def Phase.Stopped : Phase → Prop
  | .fatal _ => True
  | _ => False

structure Aligned (s : RunLoop) : Prop where
  tip : ¬ s.phase.Filling → ¬ s.phase.Stopped → s.live.tip = s.cursor.tip.1 ∧ s.mtp.current =
    some s.live.mtp
  filling : s.phase.Filling → s.cursor.tip.1 < s.live.tip
  rate : s.phase.Clean ∨ s.phase.Filling → s.live.rate = s.oracle.current

namespace Phase

variable {p : Phase}

theorem Idle.not_filling {day : Option ℤ} (h : p.Idle day) : ¬ p.Filling := by
  rintro hfilling
  cases p <;> first | exact h | exact hfilling

theorem Clean.not_filling (h : p.Clean) : ¬ p.Filling := by
  rintro hfilling
  cases p <;> first | exact h | exact hfilling

theorem Clean.not_stopped (h : p.Clean) : ¬ p.Stopped := by
  rintro hstopped
  cases p <;> first | exact h | exact hstopped

end Phase

/-- A stopped loop promises nothing. -/
theorem aligned_fatal {why : Fatal} (hphase : s.phase = .fatal why) : s.Aligned := by
  refine ⟨fun _ hrunning => ?_, ?_, ?_⟩
  · rw [hphase] at hrunning
    exact absurd trivial hrunning
  · rw [hphase]
    exact False.elim
  · rw [hphase]
    rintro (h | h)
    · exact h.elim
    · exact h.elim

/-- Outside the clock's filling the faculties are at the applied tip. -/
theorem aligned_of {p : Phase} {day : Option ℤ} (hp : p.Idle day) (htip : s.live.tip = s.cursor.tip.1)
    (hmtp : s.mtp.current = some s.live.mtp) (hrate : s.live.rate = s.oracle.current) :
    Aligned { s with phase := p } where
  tip _ _ := ⟨htip, hmtp⟩
  filling h := absurd h hp.not_filling
  rate _ := hrate

/-! ### Steps -/

/-- What a reply does with the faculties is at most one step of them. -/
theorem Aligned.moves (h : s.Aligned) (hmove : Moves cfg s r t) :
    t.Aligned ∧ ∃ steps : List Live.Step, run (Live.step cfg.params cfg.keys) s.live steps =
      some t.live := by
  have hfill : ∀ {best height : ℕ} {window : MtpTracker}, s.phase = .backfill best window height →
      s.cursor.tip.1 < s.live.tip ∧ s.live.rate = s.oracle.current := by
    intro best height window hs
    have hfilling : s.phase.Filling := by
      rw [hs]
      exact trivial
    exact ⟨h.filling hfilling, h.rate (.inr hfilling)⟩
  have hrun : ∀ {p : Phase}, s.phase = p → ¬ p.Filling → ¬ p.Stopped →
      s.live.tip = s.cursor.tip.1 ∧ s.mtp.current = some s.live.mtp := by
    rintro p rfl hfilling hstopped
    exact h.tip hfilling hstopped
  cases hmove with
  | stays => exact ⟨h, [], rfl⟩
  | goes r hs hp =>
    obtain ⟨htip, hmtp⟩ := h.tip hs.not_filling hs.not_stopped
    exact ⟨aligned_of hp htip hmtp (h.rate (.inl hs)), [], rfl⟩
  | fails => exact ⟨aligned_fatal rfl, [], rfl⟩
  | rewinds hs ha hash_eq below htruncate =>
    have hclean : s.phase.Clean := by
      rw [hs]
      exact trivial
    rename_i best ancestor a hash cursor
    obtain ⟨htip, -⟩ := h.tip hclean.not_filling hclean.not_stopped
    have hle := Cursor.tip_truncateTo below htruncate
    refine ⟨⟨fun hno => absurd trivial hno, fun _ => ?_, fun _ => h.rate (.inl hclean)⟩, [], rfl⟩
    show cursor.tip.1 < s.live.tip
    omega
  | reads hs ha hne =>
    obtain ⟨hlt, hrate⟩ := hfill hs
    exact ⟨⟨fun hno => absurd trivial hno, fun _ => hlt, fun _ => hrate⟩, [], rfl⟩
  | rebuilds hs ha heq hcurrent hp =>
    rename_i mtp p
    obtain ⟨hlt, hrate⟩ := hfill hs
    refine ⟨?_, [.reorg s.cursor.tip.1 mtp], ?_⟩
    · exact aligned_of (s := { s with mtp := _, live := s.live.reorg cfg.params s.cursor.tip.1 mtp })
        hp rfl hcurrent
        hrate
    · exact congrArg some (if_pos hlt)
  | «extends» hs ha hprev htime hcurrent hp =>
    rename_i best previousDay now a block p
    obtain ⟨htip, -⟩ := hrun hs id id
    have hclean : s.phase.Clean := by
      rw [hs]
      exact trivial
    set b : Block := ⟨(cfg.scan s.live block).txs, now, (cfg.scan s.live block).arrivals,
      (cfg.scan s.live block).payments⟩
    have hsame := Live.sameTip_block cfg.params cfg.keys s.live b
    have hrates := Live.SameRates.block cfg.params cfg.keys s.live b
    refine ⟨aligned_of (s := { s with cursor := _, mtp := _, live := s.live.block cfg.params cfg.keys b })
      hp ?_ ?_ ?_,
      [.block b], rfl⟩
    · show (s.live.block cfg.params cfg.keys b).tip = (s.cursor.push block.hash).tip.1
      rw [hsame.tip, Cursor.tip_push]
      exact congrArg (· + 1) htip
    · show _ = some (s.live.block cfg.params cfg.keys b).mtp
      rw [hsame.mtp]
      exact hcurrent
    · exact hrates.1.trans (h.rate (.inl hclean))
  | prices hs hnow htoday =>
    have hkept := hrun hs id id
    exact ⟨⟨fun _ _ => hkept, False.elim, fun h => h.elim False.elim False.elim⟩, [], rfl⟩
  | checks hs ha =>
    have hkept := hrun hs id id
    exact ⟨⟨fun _ _ => hkept, False.elim, fun h => h.elim False.elim False.elim⟩, [], rfl⟩
  | skips hs =>
    obtain ⟨htip, hmtp⟩ := hrun hs id id
    exact ⟨⟨fun _ _ => ⟨htip, hmtp⟩, False.elim, fun _ => rfl⟩, [.skipped s.oracle.current], rfl⟩
  | rules hs htoday hpass =>
    rename_i day today fee env live
    obtain ⟨htip, hmtp⟩ := hrun hs id id
    have hsame := Live.sameTip_tipPass hpass
    refine ⟨⟨fun _ _ => ⟨?_, ?_⟩, False.elim, fun _ => ?_⟩, [.tipPass (s.tipEnv fee env)], ?_⟩
    · show live.tip = s.cursor.tip.1
      rw [hsame.tip]
      exact htip
    · show s.mtp.current = some live.mtp
      rw [hsame.mtp]
      exact hmtp
    · exact (Live.rates_tipPass hpass).1
    · show run _ s.live [_] = some live
      unfold run
      rw [List.foldlM_cons]
      exact (congrArg (· >>= _) hpass).trans rfl

/-- **The run loop refines its faculties.** Whatever comes back, the faculties have made a run of their
own, and are at the applied tip with the clock of that tip. -/
theorem refines_live (cfg : Config β) (h : s.Aligned) (replies : List (Reply β)) :
    (replies.foldl (step cfg) s).Aligned ∧
      ∃ steps : List Live.Step,
        run (Live.step cfg.params cfg.keys) s.live steps = some (replies.foldl (step cfg) s).live := by
  refine foldl_invariant (f := step cfg)
    (I := fun _ u => u.Aligned ∧ ∃ steps : List Live.Step,
      run (Live.step cfg.params cfg.keys) s.live steps = some u.live) ?_ replies s ⟨h, [], rfl⟩
  rintro r - u ⟨hu, steps, hsteps⟩
  obtain ⟨haligned, more, hmore⟩ := hu.moves (moves_step cfg u r)
  refine ⟨haligned, steps ++ more, ?_⟩
  unfold run at hsteps hmore ⊢
  rw [List.foldlM_append, hsteps]
  exact hmore

theorem sampleStart_aligned : sampleStart.Aligned :=
  aligned_of (s := { sampleStart with phase := .nextTip })
    (show Phase.Idle none .nextTip from trivial) rfl rfl rfl

/-- The replies of the node that reorganises, and what the faculties have made of them. -/
def sampleReplies : List (Reply Unit) := sampleEvents.filterMap fun
  | .replied r => some r
  | .moved _ => none

theorem refines_live_fork :
    (sampleReplies.foldl (step sampleConfig) sampleStart).live.tip = 3 ∧
      ∃ steps : List Live.Step, run (Live.step Note.Params.sample Live.sampleKeys)
        sampleStart.live steps =
        some (sampleReplies.foldl (step sampleConfig) sampleStart).live :=
  ⟨by decide +kernel, (refines_live sampleConfig sampleStart_aligned sampleReplies).2⟩

end RunLoop

end ZnsMint
