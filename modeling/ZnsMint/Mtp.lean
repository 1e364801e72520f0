import ZnsMint.Basic
import ZnsMint.Lib.Machine
import ZnsMint.Lib.OrderStatistic

/-! # The median clock

`MtpTracker` (`src/mint/mtp.rs`) keeps the header times of the last eleven blocks and tells the time by
their median. Boot and a reorg fill it from the headers that end at a height, an applied block pushes it
on by one; all three leave the window of that height (`window`), so the clock does not remember how it
got there. It never goes back along headers that `header_time_ok` accepts: such a header is later than
the median, so that it adds nothing below it. -/

namespace ZnsMint

open Lib.Machine Lib.OrderStatistic

/-- The window size, a consensus constant. -/
def MTP_WINDOW : ℕ := 11

/-- Consensus upper bound on a header's time relative to its preceding median. -/
def MAX_TIME_SINCE_MEDIAN : ℤ := 90 * 60

/-- Up to the last eleven block timestamps, each under its height. -/
@[ext]
structure MtpTracker where
  blocktimes : List (ℕ × ℕ)
  bounded : blocktimes.length ≤ MTP_WINDOW

namespace MtpTracker

/-- A fresh tracker. -/
def empty : MtpTracker := ⟨[], Nat.zero_le _⟩

/-- Records a block's header timestamp. The source checks the order of the heights in debug builds
only. -/
def update (t : MtpTracker) (height timestamp : ℕ) : MtpTracker where
  blocktimes :=
    (if MTP_WINDOW ≤ t.blocktimes.length then t.blocktimes.drop 1 else t.blocktimes) ++
    [(height, timestamp)]
  bounded := by
    have hlen := t.bounded
    rw [List.length_append, List.length_singleton]
    unfold MTP_WINDOW at *
    split_ifs with hfull
    · rw [List.length_drop]
      omega
    · omega

/-- Fills the tracker with the timestamps ending at `till`, or stops at the first failed fetch. -/
def backfill {ε : Type} (t : MtpTracker) (till : ℕ) (fetch : ℕ → Except ε ℕ) : Except ε MtpTracker :=
  let start := till - (MTP_WINDOW - 1)
  (List.range' start (till + 1 - start)).foldlM (fun t height => (fetch height).map (t.update height)) t

/-- The recorded timestamps. -/
def stamps (t : MtpTracker) : List ℕ := t.blocktimes.map Prod.snd

/-- The current median, absent when no timestamps have been recorded. -/
def current (t : MtpTracker) : Option ℤ := (nth t.stamps (t.stamps.length / 2)).map Nat.cast

/-- Days since the mint's birthday. -/
def currentDay (birthday : ℤ) (t : MtpTracker) : Option ℤ :=
  t.current.map fun mtp => (mtp - birthday).tdiv 86400

/-- Checks the next header against the preceding median. -/
def headerTimeOk (t : MtpTracker) (timestamp : ℕ) : Except String Unit :=
  match t.current with
  | none => .error "preceding median unavailable"
  | some median =>
    if (timestamp : ℤ) ≤ median then .error "block time is not after the previous median"
    else if median + MAX_TIME_SINCE_MEDIAN < timestamp then
      .error "block time is more than 90 minutes past the previous median"
    else .ok ()

/-- One header met by the loop: recorded where it is accepted, fatal otherwise. -/
def accept (t : MtpTracker) (header : ℕ × ℕ) : Option MtpTracker :=
  match t.headerTimeOk header.2 with
  | .ok () => some (t.update header.1 header.2)
  | .error _ => none

/-! ### The window of a height -/

/-- Headers recorded one after the other, as blocks are applied. -/
def follow (headers : ℕ → ℕ) (t : MtpTracker) (heights : List ℕ) : MtpTracker :=
  heights.foldl (fun t height => t.update height (headers height)) t

/-- The last eleven heights up to `till`, or all of them near genesis, each with its header time. -/
def window (headers : ℕ → ℕ) (till : ℕ) : List (ℕ × ℕ) :=
  (List.range' (till - (MTP_WINDOW - 1)) (till + 1 - (till - (MTP_WINDOW - 1)))).map fun h =>
    (h, headers h)

variable {headers : ℕ → ℕ} {t u : MtpTracker} {till height timestamp : ℕ}

theorem backfill_ok (ε : Type) (headers : ℕ → ℕ) (t : MtpTracker) (till : ℕ) :
    t.backfill till (fun h => (.ok (headers h) : Except ε ℕ)) =
      .ok (t.follow headers (List.range' (till - (MTP_WINDOW - 1))
        (till + 1 - (till - (MTP_WINDOW - 1))))) := by
  unfold backfill follow
  dsimp only
  generalize List.range' _ _ = heights
  induction heights generalizing t with
  | nil => rfl
  | cons h heights ih => exact ih (t.update h (headers h))

theorem follow_concat (headers : ℕ → ℕ) (t : MtpTracker) (heights : List ℕ) (height : ℕ) :
    t.follow headers (heights ++ [height]) = (t.follow headers heights).update height (headers height) :=
  List.foldl_concat _ _ _ _

/-- A window that is still filling loses nothing. -/
theorem blocktimes_follow (headers : ℕ → ℕ) (start : ℕ) :
    ∀ n ≤ MTP_WINDOW, (empty.follow headers (List.range' start n)).blocktimes =
      (List.range' start n).map fun h => (h, headers h)
  | 0, _ => rfl
  | n + 1, hn => by
    have ih := blocktimes_follow headers start n (by omega)
    have hroom : ¬ MTP_WINDOW ≤ (empty.follow headers (List.range' start n)).blocktimes.length := by
      rw [ih, List.length_map, List.length_range']
      omega
    rw [List.range'_concat, List.map_append, ← ih, follow_concat]
    unfold update
    dsimp only
    rw [if_neg hroom]
    rfl

/-- A fresh tracker is filled to the window of the height. -/
theorem blocktimes_backfill (headers : ℕ → ℕ) (till : ℕ) :
    (empty.follow headers (List.range' (till - (MTP_WINDOW - 1))
    (till + 1 - (till - (MTP_WINDOW - 1))))).blocktimes =
      window headers till :=
  blocktimes_follow headers _ _ (by unfold MTP_WINDOW; omega)

/-- The next block pushes the window on. -/
theorem window_update (h : t.blocktimes = window headers till) :
    (t.update (till + 1) (headers (till + 1))).blocktimes = window headers (till + 1) := by
  have hlen : (window headers till).length = till + 1 - (till - (MTP_WINDOW - 1)) := by
    unfold window
    rw [List.length_map, List.length_range']
  unfold update
  simp only [h, hlen]
  unfold window MTP_WINDOW
  by_cases hfull : 10 ≤ till
  · have hpop : 11 ≤ till + 1 - (till - (11 - 1)) := by omega
    have hcount : till + 1 - (till - (11 - 1)) = 10 + 1 := by omega
    have hcount' : till + 1 + 1 - (till + 1 - (11 - 1)) = 10 + 1 := by omega
    have hnext : till + 1 - (11 - 1) = till - (11 - 1) + 1 := by omega
    have hlast : List.range' (till - (11 - 1) + 1) (10 + 1) = List.range' (till - (11 - 1) + 1) 10 ++
        [till + 1] := by
      rw [List.range'_concat]
      congr 2
      omega
    rw [if_pos hpop, hcount, hcount', hnext, hlast, List.range'_succ, List.map_cons, List.drop_one,
      List.tail_cons,
      List.map_append]
    rfl
  · have hroom : ¬ 11 ≤ till + 1 - (till - (11 - 1)) := by omega
    have hstart : till - (11 - 1) = 0 := by omega
    have hstart' : till + 1 - (11 - 1) = 0 := by omega
    have hlast : List.range' 0 (till + 1 + 1) = List.range' 0 (till + 1) ++ [till + 1] := by
      rw [List.range'_concat, Nat.zero_add, Nat.one_mul]
    rw [if_neg hroom, hstart, hstart', Nat.sub_zero, Nat.sub_zero, hlast, List.map_append]
    rfl

theorem window_follow (h : t.blocktimes = window headers till) :
    ∀ n, (t.follow headers (List.range' (till + 1) n)).blocktimes = window headers (till + n)
  | 0 => h
  | n + 1 => by
    have ih := window_follow h n
    have hnext : till + 1 + 1 * n = till + n + 1 := by omega
    rw [List.range'_concat, follow_concat, hnext]
    exact window_update ih

/-! ### Time does not go back -/

theorem length_stamps (t : MtpTracker) : t.stamps.length ≤ MTP_WINDOW := by
  unfold stamps
  rw [List.length_map]
  exact t.bounded

theorem stamps_update (t : MtpTracker) (height timestamp : ℕ) :
    (t.update height timestamp).stamps =
      (if MTP_WINDOW ≤ t.stamps.length then t.stamps.drop 1 else t.stamps) ++ [timestamp] := by
  unfold stamps update
  simp only [List.map_append, List.map_cons, List.map_nil, List.length_map]
  split_ifs
  · rw [List.map_drop]
  · rfl

theorem current_eq_some {m : ℤ} :
    t.current = some m ↔ ∃ s : ℕ, nth t.stamps (t.stamps.length / 2) = some s ∧ (s : ℤ) = m := by
  unfold current
  rw [Option.map_eq_some_iff]

theorem of_headerTimeOk (h : t.headerTimeOk timestamp = .ok ()) :
    ∃ median, t.current = some median ∧ median < timestamp ∧
      timestamp ≤ median + MAX_TIME_SINCE_MEDIAN := by
  unfold headerTimeOk at h
  split at h
  · cases h
  · rename_i median hmedian
    split_ifs at h with hearly hlate
    exact ⟨median, hmedian, not_le.mp hearly, not_lt.mp hlate⟩

/-- A header later than the median does not lower it: what leaves the window and what enters it add
nothing below the median, and its place does not fall. -/
theorem current_update {m : ℤ} (hcurrent : t.current = some m) (hlater : m ≤ timestamp) (height : ℕ) :
    ∃ m', (t.update height timestamp).current = some m' ∧ m ≤ m' := by
  obtain ⟨s, hs, rfl⟩ := current_eq_some.mp hcurrent
  have hlen := t.length_stamps
  have hplace : t.stamps.length / 2 < t.stamps.length := nth_isSome_iff.mp (by rw [hs]; rfl)
  set kept := if MTP_WINDOW ≤ t.stamps.length then t.stamps.drop 1 else t.stamps with hkept
  have hstamps : (t.update height timestamp).stamps = kept ++ [timestamp] :=
    stamps_update t height timestamp
  have hkeptlen : t.stamps.length ≤ kept.length + 1 ∧ t.stamps.length / 2 ≤ (kept.length + 1) / 2 := by
    unfold MTP_WINDOW at hkept hlen
    rw [hkept]
    split_ifs with hfull
    · rw [List.length_drop]
      omega
    · omega
  have hbelow : below s (kept ++ [timestamp]) ≤ below s t.stamps := by
    have hnew : below s [timestamp] = 0 := below_singleton (by exact_mod_cast hlater)
    rw [below_append, hnew, Nat.add_zero, hkept]
    split_ifs
    · exact below_drop_le s _ 1
    · exact le_rfl
  obtain ⟨s', hs'⟩ : ∃ s', nth (kept ++ [timestamp]) ((kept ++ [timestamp]).length / 2) = some s' := by
    rw [← Option.isSome_iff_exists, nth_isSome_iff, List.length_append, List.length_singleton]
    omega
  have hle : s ≤ s' := by
    refine nth_le_nth hs hs' (by omega) ?_
    rw [List.length_append, List.length_singleton]
    exact hkeptlen.2
  refine ⟨s', ?_, by exact_mod_cast hle⟩
  rw [current_eq_some, hstamps]
  exact ⟨s', hs', rfl⟩

theorem current_accept {header : ℕ × ℕ} {m : ℤ} (haccept : t.accept header = some u)
    (hcurrent : t.current = some m) :
    ∃ m', u.current = some m' ∧ m ≤ m' := by
  unfold accept at haccept
  split at haccept
  · rename_i hok
    cases haccept
    obtain ⟨median, hmedian, hlater, -⟩ := of_headerTimeOk hok
    rw [hcurrent] at hmedian
    cases hmedian
    exact current_update hcurrent hlater.le header.1
  · cases haccept

/-- The day of the mint does not go back either. -/
theorem currentDay_accept {header : ℕ × ℕ} {m : ℤ} (haccept : t.accept header = some u)
    (hcurrent : t.current = some m)
    (birthday : ℤ) :
    ∃ day day', t.currentDay birthday = some day ∧ u.currentDay birthday = some day' ∧ day ≤ day' := by
  obtain ⟨m', hm', hle⟩ := current_accept haccept hcurrent
  refine ⟨(m - birthday).tdiv 86400, (m' - birthday).tdiv 86400, ?_, ?_, ?_⟩
  · unfold currentDay
    rw [hcurrent]
    rfl
  · unfold currentDay
    rw [hm']
    rfl
  · exact Int.tdiv_le_tdiv (by omega) (by omega)

/-! ### The clock of the loop -/

/-- The applied tip, the header times of the applied chain and the tracker of the loop. -/
structure Clock where
  tip : ℕ
  headers : ℕ → ℕ
  tracker : MtpTracker

/-- The next block, with its header time, or a reorg, which rebuilds the window at the height rewound
to. -/
inductive ClockStep where
  | block (timestamp : ℕ)
  | reorg (rewound : ℕ)

/-- The tracker filled through the origin, before the first scan. -/
def Clock.boot (headers : ℕ → ℕ) (origin : ℕ) : Option Clock :=
  ((empty.backfill origin fun h => (.ok (headers h) : Except Unit ℕ)).toOption).map fun t =>
    ⟨origin, headers, t⟩

def Clock.step (c : Clock) : ClockStep → Option Clock
  | .block timestamp =>
    (c.tracker.accept (c.tip + 1, timestamp)).map fun t =>
      ⟨c.tip + 1, Function.update c.headers (c.tip + 1) timestamp, t⟩
  | .reorg rewound =>
    if rewound < c.tip then
      ((empty.backfill rewound fun h => (.ok (c.headers h) : Except Unit ℕ)).toOption).map fun t =>
        ⟨rewound, c.headers, t⟩
    else some c

/-- A window reads no header above its height. -/
theorem window_congr {headers headers' : ℕ → ℕ} (h : ∀ k ≤ till, headers k = headers' k) :
    window headers till = window headers' till := by
  unfold window
  refine List.map_congr_left fun k hk => ?_
  obtain ⟨i, hi, rfl⟩ := List.mem_range'.mp hk
  rw [h _ (by omega)]

/-- The tracker holds the window of the tip. -/
def Clock.InStep (c : Clock) : Prop := c.tracker.blocktimes = window c.headers c.tip

theorem Clock.inStep_filled (headers : ℕ → ℕ) {c : Clock}
    (h : ((empty.backfill till fun h => (.ok (headers h) : Except Unit ℕ)).toOption).map
      (fun t => (⟨till, headers, t⟩ : Clock)) = some c) : c.InStep := by
  rw [backfill_ok] at h
  cases h
  exact blocktimes_backfill headers till

theorem Clock.InStep.step {c d : Clock} (h : c.InStep) {s : ClockStep} (hstep : c.step s = some d) :
    d.InStep := by
  cases s with
  | block timestamp =>
    obtain ⟨t, haccept, rfl⟩ := Option.map_eq_some_iff.mp hstep
    have ht : t = c.tracker.update (c.tip + 1) timestamp := by
      unfold accept at haccept
      split at haccept
      · exact (Option.some.inj haccept).symm
      · cases haccept
    have hold : c.tracker.blocktimes = window
        (Function.update c.headers (c.tip + 1) timestamp) c.tip := by
      rw [h]
      refine window_congr fun k hk => ?_
      rw [Function.update_of_ne (by omega)]
    have hnew := window_update hold
    rw [Function.update_self] at hnew
    rw [ht]
    exact hnew
  | reorg rewound =>
    unfold Clock.step at hstep
    dsimp only at hstep
    split_ifs at hstep with hbelow
    · exact inStep_filled c.headers hstep
    · cases hstep
      exact h

/-- **Boot, the loop and a reorg agree on the time**: after any run, the window is the one that a fresh
tracker would be filled with at the tip. -/
theorem Clock.inStep_run {headers : ℕ → ℕ} {origin : ℕ} {c d : Clock}
    (hboot : Clock.boot headers origin = some c)
    {steps : List ClockStep} (hrun : run Clock.step c steps = some d) : d.InStep :=
  run_invariant (C := fun _ _ => True) (fun _ _ _ hs _ ht => hs.step ht) steps c d
    (inStep_filled headers hboot)
    (along_true ..) hrun

/-- **The median clock.** A tracker filled through `till` is the one filled through any earlier origin
and pushed on block by block from there. A header the check accepts does not lower the median, and so no
chain of accepted headers does. -/
theorem median_clock :
    (∀ (ε : Type) (headers : ℕ → ℕ) (origin till : ℕ), origin ≤ till →
      ∃ t : MtpTracker, empty.backfill till (fun h => (.ok (headers h) : Except ε ℕ)) = .ok t ∧
        (empty.backfill origin (fun h => (.ok (headers h) : Except ε ℕ))).map
          (fun s => s.follow headers (List.range' (origin + 1) (till - origin))) = .ok t) ∧
    (∀ (t : MtpTracker) (height timestamp : ℕ), t.blocktimes ≠ [] → t.headerTimeOk timestamp = .ok () →
      ∃ m m', t.current = some m ∧ (t.update height timestamp).current = some m' ∧ m ≤ m') ∧
    ∀ (t u : MtpTracker) (chain : List (ℕ × ℕ)) (m : ℤ), run accept t chain = some u →
      t.current = some m →
      ∃ m', u.current = some m' ∧ m ≤ m' := by
  refine ⟨fun ε headers origin till hle => ?_, fun t height timestamp _ hok =>
    ?_, fun t u chain m hrun hcurrent => ?_⟩
  · refine ⟨_, backfill_ok ε headers empty till, ?_⟩
    rw [backfill_ok]
    refine congrArg Except.ok (MtpTracker.ext ?_)
    rw [window_follow (blocktimes_backfill headers origin), blocktimes_backfill, Nat.add_sub_cancel' hle]
  · obtain ⟨m, hm, hlater, -⟩ := of_headerTimeOk hok
    obtain ⟨m', hm', hle⟩ := current_update hm hlater.le height
    exact ⟨m, m', hm, hm', hle⟩
  · refine run_invariant (C := fun _ _ => True) (I := fun v => ∃ m', v.current = some m' ∧ m ≤ m')
      (fun v header w hv _ hw => ?_) chain t u ⟨m, hcurrent, le_rfl⟩ (along_true ..) hrun
    obtain ⟨m', hm', hle⟩ := hv
    obtain ⟨m'', hm'', hle'⟩ := current_accept hw hm'
    exact ⟨m'', hm'', hle.trans hle'⟩

/-- Ten seconds a block. -/
def sampleHeaders (height : ℕ) : ℕ := 10 * height

/-- Near genesis: the window is filling from block 4 on, and the next header is not far ahead of the
median. -/
theorem median_clock_genesis :
    ∃ t u m m', run accept (empty.follow sampleHeaders (List.range' 0 5)) [(5, 21), (6, 22)] = some u ∧
      empty.backfill 4 (fun h => (.ok (sampleHeaders h) : Except Unit ℕ)) = .ok t ∧
        t.current = some m ∧ u.current = some m' ∧ m ≤ m' := by
  obtain ⟨t, ht, -⟩ := median_clock.1 Unit sampleHeaders 0 4 (by omega)
  have ht' : empty.follow sampleHeaders (List.range' 0 5) = t :=
    Except.ok.inj ((backfill_ok Unit sampleHeaders empty 4).symm.trans ht)
  have hsome : (run accept (empty.follow sampleHeaders (List.range' 0 5)) [(5, 21), (6, 22)]).isSome =
      true := by
    decide +kernel
  obtain ⟨u, hu⟩ := Option.isSome_iff_exists.mp hsome
  have hm : (empty.follow sampleHeaders (List.range' 0 5)).current = some 20 := by decide +kernel
  obtain ⟨m', hm', hle⟩ := median_clock.2.2 _ u _ 20 hu hm
  exact ⟨t, u, 20, m', hu, ht, ht' ▸ hm, hm', hle⟩

end MtpTracker

end ZnsMint
