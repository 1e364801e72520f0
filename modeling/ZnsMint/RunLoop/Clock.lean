import ZnsMint.RunLoop.Agreement
import ZnsMint.RunLoop.Refinement

/-! # The clock is the applied chain's

A rewind fills the clock again from headers asked for by height, one answer after the other, and an
answer names no block. Where the node's best chain goes through the tip rewound to at each of these
answers, the clock that all faculties read is the window of the applied chain, however often the node has
reorganised; it may have left that tip and come back in between. -/

namespace ZnsMint

open Basic Wallet Zebra Lib.HashChain Lib.Machine RunLoop

variable {β : Type} {cfg : Config β}

namespace System

/-- The header times of a chain. -/
def times (chain : List (RawBlock β)) (height : ℕ) : ℕ := (chain[height]?.map RawBlock.time).getD 0

/-- Whenever the node gives a header for the clock, its best chain goes through the tip rewound to. -/
def Steady (s : System β) : Event β → Prop
  | .replied (.header _) => s.loop.phase.Filling → named RawBlock.hash s.best s.loop.cursor.tip.1 =
    some s.loop.cursor.tip.2
  | _ => True

instance (s : System β) : ∀ e : Event β, Decidable (s.Steady e)
  | .replied (.header _) => inferInstanceAs (Decidable (_ → _))
  | .replied (.announced _) | .replied (.tip _) | .replied (.block _) | .replied
    (.round ..) | .replied (.rules ..)
  | .moved _ => isTrue trivial

/-- The first height of the window at `till`. -/
def windowStart (till : ℕ) : ℕ := till - (MTP_WINDOW - 1)

/-- The clock at a height of a chain. -/
def clockAt (c : List (RawBlock β)) (height : ℕ) : MtpTracker :=
  MtpTracker.empty.follow (times c) (List.range' (windowStart height) (height + 1 - windowStart height))

/-- Every header of the chain is accepted at the clock below it. -/
def Timely (c : List (RawBlock β)) : Prop :=
  ∀ height < c.length - 1, (clockAt c height).headerTimeOk (times c (height + 1)) = .ok ()

instance (c : List (RawBlock β)) : Decidable (Timely c) :=
  inferInstanceAs (Decidable (∀ height < c.length - 1, _ = _))

/-- The clock is the window of the applied tip, or is being filled to it. -/
structure Timed (c : List (RawBlock β)) (l : RunLoop) : Prop where
  clock : ¬ l.phase.Filling → ¬ l.phase.Stopped → l.mtp.blocktimes =
    MtpTracker.window (times c) l.cursor.tip.1
  filling : ∀ best window height, l.phase = .backfill best window height →
    windowStart l.cursor.tip.1 ≤ height ∧ height ≤ l.cursor.tip.1 ∧
      window = MtpTracker.empty.follow (times c)
        (List.range' (windowStart l.cursor.tip.1) (height - windowStart l.cursor.tip.1))

variable {s t : System β} {c d : List (RawBlock β)} {l l' : RunLoop} {height till : ℕ}

/-! ### Header times -/

theorem times_of_isPrefix (h : c <+: d) (hlt : height < c.length) : times d height = times c height := by
  obtain ⟨r, rfl⟩ := h
  unfold times
  rw [List.getElem?_append_left hlt]

theorem times_concat (c : List (RawBlock β)) (block : RawBlock β) : times (c ++ [block]) c.length =
    block.time := by
  unfold times
  rw [List.getElem?_concat_length]
  rfl

/-- A header of a best chain that goes through the applied tip is one of the applied chain. -/
theorem times_of_through (hs : s.Sound) (h : s.Follows c)
    (hthrough : named RawBlock.hash s.best s.loop.cursor.tip.1 = some s.loop.cursor.tip.2)
    (hle : height ≤ s.loop.cursor.tip.1) {time : ℕ}
    (htime : s.best[height]?.map RawBlock.time = some time) :
    times c height = time := by
  obtain ⟨d, hd, hcd⟩ := h.held
  have htip := h.applied.tip
  have hagree := getElem?_agree ((hs.linked d hd).of_isPrefix hcd) (hs.linked s.best hs.best)
    ((hs.apart d hd s.best hs.best).of_isPrefix hcd) htip.2 hthrough height hle
  unfold times
  rw [hagree, htime]
  rfl

/-- A clock that is the window of the height. -/
theorem Timely.headerTimeOk (h : Timely c) {m : MtpTracker} (hlt : height + 1 < c.length)
    (hm : m.blocktimes = MtpTracker.window (times c) height) :
    m.headerTimeOk (times c (height + 1)) = .ok () := by
  obtain rfl : m = clockAt c height := MtpTracker.ext
    (hm.trans (MtpTracker.blocktimes_backfill (times c) height).symm)
  exact h height (by omega)

/-! ### Moves -/

/-- Where neither the applied chain nor the clock moves and the loop is neither filling nor stopped. -/
theorem Timed.of_clock {p : RunLoop.Phase} (h : Timed c l) (hp : ¬ p.Filling)
    (hfilling : ¬ l.phase.Filling)
    (hstopped : ¬ l.phase.Stopped) (hcursor : l'.cursor = l.cursor) (hmtp : l'.mtp = l.mtp)
    (hphase : l'.phase = p) :
    Timed c l' where
  clock _ _ := by
    rw [hmtp, hcursor]
    exact h.clock hfilling hstopped
  filling best window height hfill := by
    rw [← hphase, hfill] at hp
    exact absurd trivial hp

theorem Timed.of_window (hp : ¬ l.phase.Filling)
    (h : l.mtp.blocktimes = MtpTracker.window (times c) l.cursor.tip.1) :
    Timed c l where
  clock _ _ := h
  filling best window height hfill := by
    rw [hfill] at hp
    exact absurd trivial hp

/-- The next header of the window. -/
theorem follow_next (headers : ℕ → ℕ) {start : ℕ} (hle : start ≤ height) :
    (MtpTracker.empty.follow headers (List.range' start (height - start))).update height
    (headers height) =
      MtpTracker.empty.follow headers (List.range' start (height + 1 - start)) := by
  have hcount : height + 1 - start = height - start + 1 := by omega
  have hlast : start + 1 * (height - start) = height := by omega
  rw [hcount, List.range'_concat, hlast, MtpTracker.follow_concat]

theorem Timed.move (hs : s.Sound) (hc : s.Follows c) (h : Timed c s.loop) {r : Reply β}
    (he : Honest cfg s (.replied r))
    (hsteady : s.Steady (.replied r)) (hmove : RunLoop.Moves cfg s.loop r l) :
    ∃ c', Follows c' { s with loop := l } ∧ Timed c' l := by
  have hkept : ∀ {p q : RunLoop.Phase} {l : RunLoop}, s.loop.phase = p → ¬ p.Filling → ¬ p.Stopped →
      l.cursor = s.loop.cursor → l.mtp = s.loop.mtp → l.phase = q → ¬ q.Filling →
      ∃ c', Follows c' { s with loop := l } ∧ Timed c' l := by
    rintro p q l rfl hfilling hstopped hcursor hmtp hphase hq
    exact ⟨c, hc.of_cursor hcursor, h.of_clock hq hfilling hstopped hcursor hmtp hphase⟩
  cases hmove with
  | stays => exact ⟨c, hc, h⟩
  | goes r hclean hp => exact hkept rfl hclean.not_filling hclean.not_stopped rfl rfl rfl hp.not_filling
  | fails r why =>
    refine ⟨c, hc.of_cursor rfl, fun _ hrunning => absurd trivial hrunning, ?_⟩
    rintro best window height hfill
    exact nomatch hfill
  | rewinds hphase ha hsame hbelow htruncate =>
    rename_i best ancestor a hash cursor
    refine ⟨_, hc.truncate hsame hbelow htruncate, fun hno => absurd trivial hno, ?_⟩
    rintro best' window height hfill
    obtain ⟨rfl, rfl, rfl⟩ := RunLoop.Phase.backfill.inj hfill
    refine ⟨le_rfl, Nat.sub_le _ _, ?_⟩
    rw [show cursor.tip.1 - (MTP_WINDOW - 1) - windowStart cursor.tip.1 = 0 from Nat.sub_self _]
    rfl
  | reads hphase ha hne =>
    rename_i best height time window a
    obtain ⟨hstart, hle, hwindow⟩ := h.filling _ _ _ hphase
    have hfilling : s.loop.phase.Filling := by
      rw [hphase]
      exact trivial
    have htime : times c height = time :=
      times_of_through hs hc (hsteady hfilling) hle (RunLoop.Truthful.of_backfill he hphase ha)
    refine ⟨c, hc.of_cursor rfl, fun hno => absurd trivial hno, ?_⟩
    rintro best' window' height' hfill
    obtain ⟨rfl, rfl, rfl⟩ := RunLoop.Phase.backfill.inj hfill
    have hstart' : windowStart s.loop.cursor.tip.1 ≤ height + 1 := by omega
    have hle' : height + 1 ≤ s.loop.cursor.tip.1 := by omega
    refine ⟨hstart', hle', ?_⟩
    rw [hwindow, ← htime]
    exact follow_next (times c) hstart
  | rebuilds hphase ha heq hcurrent hp =>
    rename_i best height time window a mtp p
    obtain ⟨hstart, hle, hwindow⟩ := h.filling _ _ _ hphase
    have hfilling : s.loop.phase.Filling := by
      rw [hphase]
      exact trivial
    have htime : times c height = time :=
      times_of_through hs hc (hsteady hfilling) hle (RunLoop.Truthful.of_backfill he hphase ha)
    refine ⟨c, hc.of_cursor rfl, Timed.of_window hp.not_filling ?_⟩
    show (window.update height time).blocktimes = MtpTracker.window (times c) s.loop.cursor.tip.1
    rw [hwindow, ← htime, follow_next (times c) hstart, heq]
    exact MtpTracker.blocktimes_backfill (times c) s.loop.cursor.tip.1
  | «extends» hphase ha hprev htime hcurrent hp =>
    rename_i best previousDay now a block p
    have htold : s.loop.Truthful cfg s.best (.block a) := he
    have hnext := hc.extend hs (htold.of_catchUp hphase ha) hprev
      (l := { s.loop with
        cursor := s.loop.cursor.push block.hash
        mtp := s.loop.mtp.update (s.loop.cursor.tip.1 + 1) block.time
        live := s.loop.live.block cfg.params cfg.keys
          ⟨(cfg.scan s.loop.live block).txs, now, (cfg.scan s.loop.live block).arrivals,
            (cfg.scan s.loop.live block).payments⟩
        phase := p }) rfl
    refine ⟨_, hnext.1, Timed.of_window hp.not_filling ?_⟩
    have hlen := hc.applied.tip.1
    have hclock := h.clock (by rw [hphase]; exact id) (by rw [hphase]; exact id)
    have hbelow : s.loop.mtp.blocktimes = MtpTracker.window
        (times (c ++ [block])) s.loop.cursor.tip.1 := by
      rw [hclock]
      refine MtpTracker.window_congr fun k hk => ?_
      exact (times_of_isPrefix (List.prefix_append c [block]) (by omega)).symm
    have hnew := MtpTracker.window_update hbelow
    rw [hlen, times_concat] at hnew
    show (s.loop.mtp.update (s.loop.cursor.tip.1 + 1) block.time).blocktimes =
      MtpTracker.window (times (c ++ [block])) (s.loop.cursor.push block.hash).tip.1
    rw [Cursor.tip_push, hlen]
    exact hnew
  | prices hphase => exact hkept hphase id id rfl rfl rfl id
  | checks hphase => exact hkept hphase id id rfl rfl rfl id
  | skips hphase => exact hkept hphase id id rfl rfl rfl id
  | rules hphase => exact hkept hphase id id rfl rfl rfl id

/-! ### Runs -/

/-- What a run keeps: the applied chain is on one the node has held, and the clock is its own. -/
structure OnTime (s : System β) : Prop where
  sound : s.Sound
  aligned : s.loop.Aligned
  timed : ∃ c, s.Follows c ∧ Timed c s.loop

theorem OnTime.step (h : s.OnTime) {e : Event β} (he : Honest cfg s e ∧ s.Steady e)
    (hstep : s.step cfg e = some t) :
    t.OnTime := by
  obtain ⟨c, hc, htimed⟩ := h.timed
  have hsound := h.sound.step he.1 hstep
  rcases e with best | r
  · obtain rfl := Option.some.inj hstep
    obtain ⟨d, hd, hcd⟩ := hc.held
    exact ⟨hsound, h.aligned, c, ⟨⟨d, List.mem_cons_of_mem _ hd, hcd⟩, hc.applied⟩, htimed⟩
  · obtain rfl := Option.some.inj hstep
    have hmove := RunLoop.moves_step cfg s.loop r
    exact ⟨hsound, (h.aligned.moves hmove).1, htimed.move h.sound hc he.1 he.2 hmove⟩

theorem Starts.onTime (h : s.Starts c) (haligned : s.loop.Aligned)
    (hclock : s.loop.mtp.blocktimes = MtpTracker.window (times c) s.loop.cursor.tip.1) : s.OnTime := by
  refine ⟨h.inStep.sound, haligned, c, h.follows, Timed.of_window ?_ hclock⟩
  rw [h.phase]
  exact id

/-- **The clock forgets every other chain.** After any run beside such a node, the clock is the window of
the header times of the applied chain, and the faculties tell the time by its median. -/
theorem clock_of_applied (cfg : Config β) {s t : System β} {c : List (RawBlock β)} (h : s.Starts c)
    (haligned : s.loop.Aligned) (hclock : s.loop.mtp.blocktimes =
    MtpTracker.window (times c) s.loop.cursor.tip.1)
    {events : List (Event β)} (honest : Along (step cfg)
    (fun s e => Honest cfg s e ∧ s.Steady e) s events)
    (hrun : run (step cfg) s events = some t) :
    ∃ c', t.Follows c' ∧ (¬ t.loop.phase.Filling → ¬ t.loop.phase.Stopped →
      t.loop.mtp.blocktimes = MtpTracker.window (times c') t.loop.cursor.tip.1 ∧
        t.loop.mtp.current = some t.loop.live.mtp) := by
  obtain ⟨-, haligned', c', hc', htimed⟩ :=
    run_invariant (fun _ _ _ hs he hstep => hs.step he hstep) events s t
      (h.onTime haligned hclock) honest hrun
  exact ⟨c', hc', fun hfilling hstopped =>
    ⟨htimed.clock hfilling hstopped, (haligned'.tip hfilling hstopped).2⟩⟩

theorem clock_of_applied_fork :
    ∃ t, run (step sampleConfig) sampleSystem sampleEvents = some t ∧
      t.loop.mtp.blocktimes = [(0, 0), (1, 10), (2, 20), (3, 30)] ∧
        ∃ c', t.Follows c' ∧ (¬ t.loop.phase.Filling → ¬ t.loop.phase.Stopped →
          t.loop.mtp.blocktimes = MtpTracker.window (times c') t.loop.cursor.tip.1 ∧
            t.loop.mtp.current = some t.loop.live.mtp) := by
  have hmtp : (run (step sampleConfig) sampleSystem sampleEvents).map (fun t => t.loop.mtp.blocktimes) =
      some [(0, 0), (1, 10), (2, 20), (3, 30)] := by
    decide +kernel
  have honest : Along (step sampleConfig) (fun s e => Honest sampleConfig s e ∧ s.Steady e) sampleSystem
      sampleEvents := by
    decide +kernel
  obtain ⟨t, hrun, ht⟩ := Option.map_eq_some_iff.mp hmtp
  exact ⟨t, hrun, ht, clock_of_applied sampleConfig sampleSystem_starts sampleStart_aligned
    (by decide) honest hrun⟩

end System

end ZnsMint
