import ZnsMint.Pricing
import ZnsMint.Lib.OrderStatistic
import ZnsMint.Lib.Timeline

/-! # The daily rate

The oracle of `src/mint/pricing.rs`, with exact rationals for its decimals. A round bills the time since
the last one at the price that stood, to the day the round falls in; the first round of a later day
publishes what was billed to the day before it, if enough of that day's rounds landed.

The `Ledger` is the oracle beside a record of its rounds that no operation reads. On it the intervals
billed tile the oracle's life, the accumulator is the part of the record that bears the current day, and
a published rate is the mean of a day's part. -/

namespace ZnsMint.Pricing

open Basic Note Lib.OrderStatistic Lib.Timeline

/-- Zatoshis in one ZEC. -/
def COIN : ℕ := 100000000

/-- A day publishes only when at least this share of its attempts landed a price. -/
def MIN_DAY_SUCCESS_PERCENT : ℕ := 50

/-- The top of the plausible price band. -/
def MAX_USD_PRICE : ℚ := 1000000

/-- The source's counters of rounds are `u32` and saturate. -/
def COUNTER_MAX : ℕ := 2 ^ 32 - 1

/-! ### Rounds -/

/-- The check each venue's price passes before its round. -/
def inBand (price : ℚ) : Bool := decide (1 < price) && decide (price < MAX_USD_PRICE)

/-- The venue whose quote publishes alone below the quorum. -/
def TRUSTED : String := "gemini"

def aggregate (quotes : List (String × ℚ)) : Option ℚ :=
  match quotes.length with
  | 0 => none
  | 1 | 2 => (quotes.find? fun q => q.1 == TRUSTED).map Prod.snd
  | _ =>
    let rates := quotes.map Prod.snd
    let mid := rates.length / 2
    if rates.length % 2 = 1 then nth rates mid
    else do
      let low ← nth rates (mid - 1)
      let high ← nth rates mid
      return (low + high) / 2

/-- What the venues' checks promise of a round: a plausible price, if any. -/
theorem aggregate_inBand {quotes : List (String × ℚ)} (h : ∀ q ∈ quotes, inBand q.2 = true) {price : ℚ}
    (hprice : aggregate quotes = some price) : inBand price = true := by
  have hrate : ∀ {k : ℕ} {rate : ℚ}, nth (quotes.map Prod.snd) k = some rate → inBand rate = true := by
    intro k rate hk
    obtain ⟨q, hq, rfl⟩ := List.mem_map.mp (mem_of_nth hk)
    exact h q hq
  have hfind : (quotes.find? fun q => q.1 == TRUSTED).map Prod.snd = some price →
      inBand price = true := by
    intro hfound
    obtain ⟨q, hq, rfl⟩ := Option.map_eq_some_iff.mp hfound
    exact h q (List.mem_of_find?_eq_some hq)
  unfold aggregate at hprice
  split at hprice
  · cases hprice
  · exact hfind hprice
  · exact hfind hprice
  · dsimp only at hprice
    split_ifs at hprice with hodd
    · exact hrate hprice
    · obtain ⟨low, hlow, hprice⟩ := Option.bind_eq_some_iff.mp hprice
      obtain ⟨high, hhigh, hprice⟩ := Option.bind_eq_some_iff.mp hprice
      obtain rfl := Option.some.inj hprice
      have hl := hrate hlow
      have hh := hrate hhigh
      unfold inBand at hl hh ⊢
      simp only [Bool.and_eq_true, decide_eq_true_eq] at hl hh ⊢
      constructor
      · linarith [hl.1, hh.1]
      · linarith [hl.2, hh.2]

/-! ### The oracle -/

/-- Price of a ZEC in dollars to zatoshis per dollar, rounded up. -/
def zatsPerUsd (usdPerZec : ℚ) : Option Zatoshis :=
  if usdPerZec ≤ 0 then none else Zatoshis.fromU64 ⌈(COIN : ℚ) / usdPerZec⌉.toNat

structure Oracle where
  dailyRate : Zatoshis
  currentDay : ℤ
  accSum : ℚ
  accSeconds : ℕ
  lastPrice : ℚ
  lastTs : ℤ
  roundsAttempted : ℕ
  roundsSeen : ℕ
  deriving DecidableEq

/-- One call of `accumulate`. -/
structure Round where
  price : Option ℚ
  today : ℤ
  now : ℤ
  deriving DecidableEq

namespace Oracle

/-- The oracle of the first successful round. Absent where the source panics. -/
def new (initialPrice : ℚ) (today now : ℤ) : Option Oracle :=
  (zatsPerUsd initialPrice).map fun rate =>
    { dailyRate := rate, currentDay := today, accSum := 0, accSeconds := 0, lastPrice :=
    initialPrice, lastTs := now,
      roundsAttempted := 0, roundsSeen := 0 }

def current (o : Oracle) : Zatoshis := o.dailyRate

/-- The first part of `accumulate`: a new day publishes the day it ends, and clears the accumulator. -/
def rollover (o : Oracle) (today : ℤ) : Oracle :=
  if o.currentDay < today then
    { o with
      dailyRate :=
        if 0 < o.accSeconds ∧ o.roundsAttempted * MIN_DAY_SUCCESS_PERCENT ≤ o.roundsSeen * 100 then
          (zatsPerUsd (o.accSum / o.accSeconds)).getD o.dailyRate
        else o.dailyRate
      accSum := 0
      accSeconds := 0
      roundsAttempted := 0
      roundsSeen := 0
      currentDay := today }
  else o

/-- A saturating `u32` counter. -/
def count (n : ℕ) : ℕ := min (n + 1) COUNTER_MAX

/-- Folds one round into the day. -/
def accumulate (o : Oracle) (r : Round) : Oracle :=
  if r.now < o.lastTs then o
  else
    let o := o.rollover r.today
    let o := { o with roundsAttempted := count o.roundsAttempted }
    match r.price with
    | none => o
    | some price =>
      if price ≤ 0 then o
      else
        let elapsed := (r.now - o.lastTs).toNat
        { o with
          accSum := o.accSum + o.lastPrice * elapsed
          accSeconds := o.accSeconds + elapsed
          lastPrice := price
          lastTs := r.now
          roundsSeen := count o.roundsSeen }

/-- `Oracle::quote`. -/
def quote (o : Oracle) (name : Name) (term : Term) : Option Zatoshis := quoteAt o.current name term

end Oracle

/-! ### What was billed -/

/-- The time between two rounds that landed, at the price of the first. -/
structure Bill where
  price : ℚ
  start : ℤ
  stop : ℤ
  deriving DecidableEq

def Bill.seconds (b : Bill) : ℚ := (b.stop - b.start : ℤ)

/-- A round that was not rewound: the day it counts toward, and what it billed where it landed. -/
structure Attempt where
  day : ℤ
  bill : Option Bill
  deriving DecidableEq

/-- What a round adds to the record. -/
def attempt (o : Oracle) (r : Round) : Option Attempt :=
  if r.now < o.lastTs then none
  else some ⟨max o.currentDay r.today,
    (r.price.filter fun price => decide (0 < price)).map fun _ => ⟨o.lastPrice, o.lastTs, r.now⟩⟩

/-- The oracle beside the record of its rounds. -/
structure Ledger where
  oracle : Oracle
  attempts : List Attempt

def Ledger.step (l : Ledger) (r : Round) : Ledger :=
  ⟨l.oracle.accumulate r, l.attempts ++ (attempt l.oracle r).toList⟩

/-- The intervals billed, oldest first. -/
def bills (l : List Attempt) : List Bill := l.filterMap Attempt.bill

def ofDay (day : ℤ) (l : List Attempt) : List Attempt := l.filter fun x => decide (x.day = day)

/-- Price times seconds. -/
def billedSum (l : List Bill) : ℚ := (l.map fun b => b.price * b.seconds).sum

def billedSeconds (l : List Bill) : ℚ := (l.map Bill.seconds).sum

/-- The day's share of rounds that landed reached the threshold, as far as the counters go. -/
def Enough (l : List Attempt) : Prop :=
  min l.length COUNTER_MAX * MIN_DAY_SUCCESS_PERCENT ≤ min (bills l).length COUNTER_MAX * 100

/-- The price behind the published rate: the initial one, or the time-weighted average of the intervals
billed to one earlier day with enough rounds. -/
def Published (initial : ℚ) (l : List Attempt) (today : ℤ) (p : ℚ) : Prop :=
  p = initial ∨ ∃ day < today, 0 < billedSeconds (bills (ofDay day l)) ∧ Enough (ofDay day l) ∧
    p = billedSum (bills (ofDay day l)) / billedSeconds (bills (ofDay day l))

theorem enough_iff {l : List Attempt} (h : l.length ≤ COUNTER_MAX) :
    Enough l ↔ l.length * MIN_DAY_SUCCESS_PERCENT ≤ (bills l).length * 100 := by
  have hbills : (bills l).length ≤ COUNTER_MAX := (List.length_filterMap_le _ _).trans h
  unfold Enough
  rw [min_eq_left h, min_eq_left hbills]

theorem oracle_run (rounds : List Round) (l : Ledger) :
    (rounds.foldl Ledger.step l).oracle = rounds.foldl Oracle.accumulate l.oracle := by
  induction rounds generalizing l with
  | nil => rfl
  | cons r rounds ih => exact ih (l.step r)

theorem ofDay_concat (day : ℤ) (l : List Attempt) (x : Attempt) :
    ofDay day (l ++ [x]) = if x.day = day then ofDay day l ++ [x] else ofDay day l := by
  unfold ofDay
  rw [List.filter_append, List.filter_singleton]
  by_cases h : x.day = day
  · simp [h]
  · simp [h]

theorem bills_concat (l : List Attempt) (x : Attempt) : bills (l ++ [x]) = bills l ++ x.bill.toList := by
  unfold bills
  rw [List.filterMap_append]
  rcases h : x.bill with _ | b
  · simp [h]
  · simp [h]

theorem ofDay_eq_nil {day : ℤ} {l : List Attempt} (h : ∀ x ∈ l, x.day < day) : ofDay day l = [] := by
  unfold ofDay
  rw [List.filter_eq_nil_iff]
  intro x hx
  have hlt := h x hx
  rw [decide_eq_true_eq]
  omega

/-- A later attempt does not change what an earlier day published. -/
theorem Published.concat {initial p : ℚ} {l : List Attempt} {today : ℤ} (h : Published initial l today p)
    {x : Attempt}
    (hx : today ≤ x.day) : Published initial (l ++ [x]) today p := by
  refine h.imp_right ?_
  rintro ⟨day, hlt, hday⟩
  have hne : x.day ≠ day := by omega
  refine ⟨day, hlt, ?_⟩
  rwa [ofDay_concat, if_neg hne]

/-! ### The invariant -/

/-- What holds of the oracle and its record: the intervals billed tile the time since `start`, the
accumulator is the part of the current day, the rate is that of a published price, and no price comes
from outside `observed`. -/
structure Kept (observed : ℚ → Prop) (initial : ℚ) (start : ℤ) (l : Ledger) : Prop where
  last : observed l.oracle.lastPrice
  prices : ∀ b ∈ bills l.attempts, observed b.price
  tiles : Tiles Bill.start Bill.stop start (bills l.attempts) l.oracle.lastTs
  days : ∀ x ∈ l.attempts, x.day ≤ l.oracle.currentDay
  sum : l.oracle.accSum = billedSum (bills (ofDay l.oracle.currentDay l.attempts))
  seconds : (l.oracle.accSeconds : ℚ) = billedSeconds (bills (ofDay l.oracle.currentDay l.attempts))
  attempted : l.oracle.roundsAttempted = min (ofDay l.oracle.currentDay l.attempts).length COUNTER_MAX
  seen : l.oracle.roundsSeen = min (bills (ofDay l.oracle.currentDay l.attempts)).length COUNTER_MAX
  rate : ∃ p, Published initial l.attempts l.oracle.currentDay p ∧ zatsPerUsd p = some l.oracle.dailyRate

variable {observed : ℚ → Prop} {initial : ℚ} {start today now : ℤ} {o : Oracle} {l : Ledger} {r : Round}

theorem kept_new (hinitial : observed initial) (hnew : Oracle.new initial today now = some o) :
    Kept observed initial now ⟨o, []⟩ := by
  obtain ⟨rate, hrate, rfl⟩ := Option.map_eq_some_iff.mp hnew
  exact {
    last := hinitial
    prices := by simp [bills]
    tiles := rfl
    days := by simp
    sum := rfl
    seconds := Nat.cast_zero
    attempted := rfl
    seen := rfl
    rate := ⟨initial, Or.inl rfl, hrate⟩ }

/-- A new day finds the accumulator holding the day it ends. -/
theorem Kept.rollover (h : Kept observed initial start l) (today : ℤ) :
    Kept observed initial start ⟨l.oracle.rollover today, l.attempts⟩ := by
  unfold Oracle.rollover
  by_cases hday : l.oracle.currentDay < today
  swap
  · rw [if_neg hday]
    exact h
  rw [if_pos hday]
  have hnone : ofDay today l.attempts = [] := ofDay_eq_nil fun x hx => (h.days x hx).trans_lt hday
  refine ⟨h.last, h.prices, h.tiles, fun x hx => (h.days x hx).trans hday.le, ?_, ?_, ?_, ?_, ?_⟩
  · rw [hnone]
    rfl
  · rw [hnone]
    exact Nat.cast_zero
  · rw [hnone]
    rfl
  · rw [hnone]
    rfl
  · obtain ⟨p, hp, hrate⟩ := h.rate
    have hold : Published initial l.attempts today p := by
      refine hp.imp_right ?_
      rintro ⟨day, hlt, hrest⟩
      exact ⟨day, hlt.trans hday, hrest⟩
    dsimp only
    split_ifs with hpublish
    swap
    · exact ⟨p, hold, hrate⟩
    obtain ⟨hseconds, henough⟩ := hpublish
    rcases hmean : zatsPerUsd (l.oracle.accSum / l.oracle.accSeconds) with _ | rate
    · exact ⟨p, hold, hrate⟩
    · refine ⟨_, Or.inr ⟨l.oracle.currentDay, hday, ?_, ?_, ?_⟩, hmean⟩
      · rw [← h.seconds]
        exact_mod_cast hseconds
      · unfold Enough
        rw [← h.attempted, ← h.seen]
        exact henough
      · rw [h.sum, h.seconds]

theorem rollover_frame (o : Oracle) (today : ℤ) :
    (o.rollover today).currentDay = max o.currentDay today ∧ (o.rollover today).lastTs = o.lastTs ∧
      (o.rollover today).lastPrice = o.lastPrice := by
  unfold Oracle.rollover
  by_cases hday : o.currentDay < today
  · rw [if_pos hday, max_eq_right hday.le]
    exact ⟨rfl, rfl, rfl⟩
  · rw [if_neg hday, max_eq_left (not_lt.mp hday)]
    exact ⟨rfl, rfl, rfl⟩

theorem count_min (n : ℕ) : Oracle.count (min n COUNTER_MAX) = min (n + 1) COUNTER_MAX := by
  unfold Oracle.count
  omega

/-- A round without a price counts as an attempt. -/
theorem Kept.miss (h : Kept observed initial start l) :
    Kept observed initial start
      ⟨{ l.oracle with roundsAttempted := Oracle.count l.oracle.roundsAttempted },
        l.attempts ++ [⟨l.oracle.currentDay, none⟩]⟩ := by
  have hbills : bills (l.attempts ++ [⟨l.oracle.currentDay, none⟩]) = bills l.attempts := by
    rw [bills_concat, Option.toList_none, List.append_nil]
  have hday : ofDay l.oracle.currentDay (l.attempts ++ [⟨l.oracle.currentDay, none⟩]) =
      ofDay l.oracle.currentDay l.attempts ++ [⟨l.oracle.currentDay, none⟩] := by
    rw [ofDay_concat, if_pos rfl]
  have hdaybills : bills (ofDay l.oracle.currentDay l.attempts ++ [⟨l.oracle.currentDay, none⟩]) =
      bills (ofDay l.oracle.currentDay l.attempts) := by
    rw [bills_concat, Option.toList_none, List.append_nil]
  constructor
  · exact h.last
  · rw [hbills]
    exact h.prices
  · rw [hbills]
    exact h.tiles
  · rintro x hx
    rcases List.mem_append.mp hx with hx | hx
    · exact h.days x hx
    · rw [List.mem_singleton.mp hx]
  · rw [hday, hdaybills]
    exact h.sum
  · rw [hday, hdaybills]
    exact h.seconds
  · rw [hday, List.length_append, List.length_singleton, ← count_min, ← h.attempted]
  · rw [hday, hdaybills]
    exact h.seen
  · obtain ⟨p, hp, hrate⟩ := h.rate
    exact ⟨p, hp.concat le_rfl, hrate⟩

/-- A round that lands bills the time since the last one to the current day. -/
theorem Kept.land (h : Kept observed initial start l) {price : ℚ} (hprice : observed price)
    (hnow : l.oracle.lastTs ≤ now) :
    Kept observed initial start
      ⟨{ l.oracle with
          roundsAttempted := Oracle.count l.oracle.roundsAttempted
          accSum := l.oracle.accSum + l.oracle.lastPrice * ((now - l.oracle.lastTs).toNat : ℕ)
          accSeconds := l.oracle.accSeconds + (now - l.oracle.lastTs).toNat
          lastPrice := price
          lastTs := now
          roundsSeen := Oracle.count l.oracle.roundsSeen },
        l.attempts ++ [⟨l.oracle.currentDay, some ⟨l.oracle.lastPrice, l.oracle.lastTs, now⟩⟩]⟩ := by
  set bill : Bill := ⟨l.oracle.lastPrice, l.oracle.lastTs, now⟩ with hbill
  have hbills : bills (l.attempts ++ [⟨l.oracle.currentDay, some bill⟩]) = bills l.attempts ++ [bill] :=
    bills_concat _ _
  have hday : ofDay l.oracle.currentDay (l.attempts ++ [⟨l.oracle.currentDay, some bill⟩]) =
      ofDay l.oracle.currentDay l.attempts ++ [⟨l.oracle.currentDay, some bill⟩] := by
    rw [ofDay_concat, if_pos rfl]
  have hdaybills : bills (ofDay l.oracle.currentDay l.attempts ++ [⟨l.oracle.currentDay, some bill⟩]) =
      bills (ofDay l.oracle.currentDay l.attempts) ++ [bill] := bills_concat _ _
  have helapsed : (((now - l.oracle.lastTs).toNat : ℕ) : ℚ) = bill.seconds := by
    have hcast : (((now - l.oracle.lastTs).toNat : ℕ) : ℤ) = now - l.oracle.lastTs :=
      Int.toNat_of_nonneg (by omega)
    rw [← Int.cast_natCast, hcast]
    rfl
  constructor
  · exact hprice
  · rw [hbills]
    rintro b hb
    rcases List.mem_append.mp hb with hb | hb
    · exact h.prices b hb
    · rw [List.mem_singleton.mp hb]
      exact h.last
  · rw [hbills]
    exact h.tiles.concat rfl hnow
  · rintro x hx
    rcases List.mem_append.mp hx with hx | hx
    · exact h.days x hx
    · rw [List.mem_singleton.mp hx]
  · rw [hday, hdaybills]
    unfold billedSum
    rw [List.map_append, List.sum_append, List.map_singleton, List.sum_singleton, helapsed, h.sum]
    rfl
  · rw [hday, hdaybills]
    unfold billedSeconds
    rw [List.map_append, List.sum_append, List.map_singleton, List.sum_singleton, Nat.cast_add,
      helapsed, h.seconds]
    rfl
  · rw [hday, List.length_append, List.length_singleton, ← count_min, ← h.attempted]
  · rw [hday, hdaybills, List.length_append, List.length_singleton, ← count_min, ← h.seen]
  · obtain ⟨p, hp, hrate⟩ := h.rate
    exact ⟨p, hp.concat le_rfl, hrate⟩

theorem Kept.step (h : Kept observed initial start l)
    (hr : ∀ price, r.price = some price → observed price) :
    Kept observed initial start (l.step r) := by
  unfold Ledger.step Oracle.accumulate attempt
  by_cases hrewound : r.now < l.oracle.lastTs
  · rw [if_pos hrewound, if_pos hrewound, Option.toList_none, List.append_nil]
    exact h
  rw [if_neg hrewound, if_neg hrewound, Option.toList_some]
  obtain ⟨hday, hts, hlast⟩ := rollover_frame l.oracle r.today
  have hrolled := h.rollover r.today
  have hmissed := hrolled.miss
  dsimp only at hmissed ⊢
  rw [← hday, ← hlast, ← hts]
  rcases hprice : r.price with _ | price
  · exact hmissed
  · by_cases hpos : price ≤ 0
    · have hdropped : ¬ decide (0 < price) = true := by simpa using hpos
      dsimp only
      rw [if_pos hpos, Option.filter_some, if_neg hdropped]
      exact hmissed
    · have hlanded : decide (0 < price) = true := by simpa using hpos
      have hnow : (l.oracle.rollover r.today).lastTs ≤ r.now := by
        rw [hts]
        exact not_lt.mp hrewound
      dsimp only
      rw [if_neg hpos, Option.filter_some, if_pos hlanded]
      exact hrolled.land (hr price hprice) hnow

theorem kept_run (rounds : List Round) (hrounds : ∀ r ∈ rounds, ∀ price, r.price = some price →
    observed price) :
    ∀ {l : Ledger}, Kept observed initial start l →
      Kept observed initial start (rounds.foldl Ledger.step l) := by
  induction rounds with
  | nil => exact fun h => h
  | cons r rounds ih =>
    intro l h
    exact ih (fun r' hr' => hrounds r' (List.mem_cons_of_mem _ hr'))
      (h.step (hrounds r (List.mem_cons_self ..)))

/-! ### Rates and quotes -/

theorem zatsPerUsd_spec {p : ℚ} {rate : Zatoshis} (h : zatsPerUsd p = some rate) :
    0 < p ∧ (rate.val : ℤ) = ⌈(COIN : ℚ) / p⌉ := by
  unfold zatsPerUsd Zatoshis.fromU64 at h
  split_ifs at h with hp hle
  cases h
  have hpos : 0 < p := not_le.mp hp
  have hcoin : (0 : ℚ) ≤ (COIN : ℚ) / p := div_nonneg (Nat.cast_nonneg _) hpos.le
  exact ⟨hpos, Int.toNat_of_nonneg (Int.ceil_nonneg hcoin)⟩

/-- Above a dollar a ZEC buys no more than its zatoshis a dollar. -/
theorem ceil_le_coin {p : ℚ} (h : 1 < p) : ⌈(COIN : ℚ) / p⌉ ≤ COIN := by
  have hdiv : (COIN : ℚ) / p ≤ COIN := div_le_self (Nat.cast_nonneg _) h.le
  have hcast : (COIN : ℚ) / p ≤ ((COIN : ℤ) : ℚ) := by exact_mod_cast hdiv
  exact Int.ceil_le.mpr hcast

theorem zatsPerUsd_isSome {p : ℚ} (h : 1 < p) : (zatsPerUsd p).isSome := by
  have hpos : ¬ p ≤ 0 := by linarith
  have hle := ceil_le_coin h
  have hfits : ⌈(COIN : ℚ) / p⌉.toNat ≤ MAX_MONEY := by
    unfold COIN MAX_MONEY at *
    omega
  unfold zatsPerUsd Zatoshis.fromU64
  rw [if_neg hpos, dif_pos hfits]
  rfl

/-- A dearer ZEC buys no more. -/
theorem ceil_anti {p q : ℚ} (hp : 0 < p) (hle : p ≤ q) : ⌈(COIN : ℚ) / q⌉ ≤ ⌈(COIN : ℚ) / p⌉ :=
  Int.ceil_le_ceil (div_le_div_of_nonneg_left (Nat.cast_nonneg _) hp hle)

/-- A published price lies between the bounds of the observed ones. -/
theorem Kept.bounds (h : Kept observed initial start l) (hinitial : observed initial) {lo hi p : ℚ}
    (hobserved : ∀ x, observed x → lo ≤ x ∧ x ≤ hi)
    (hp : Published initial l.attempts l.oracle.currentDay p) :
    lo ≤ p ∧ p ≤ hi := by
  rcases hp with rfl | ⟨day, -, hseconds, -, rfl⟩
  · exact hobserved p hinitial
  · have hsub : ∀ b ∈ bills (ofDay day l.attempts), b ∈ bills l.attempts := fun b hb =>
      (List.filter_sublist.filterMap Attempt.bill).subset hb
    refine mean_bounds (fun b hb => ?_) hseconds fun b hb => hobserved _ (h.prices b (hsub b hb))
    have hle := h.tiles.start_le b (hsub b hb)
    have hnonneg : (0 : ℤ) ≤ b.stop - b.start := by omega
    unfold Bill.seconds
    exact_mod_cast hnonneg

/-- The tariff of a term in dollars. -/
def tariffUsd (name : Name) : Term → ℕ
  | .forever => foreverUsd name
  | .years n => annualUsd name * n

theorem quoteAt_eq (rate : Zatoshis) (name : Name) (term : Term) :
    quoteAt rate name term = Zatoshis.fromU64 (tariffUsd name term * rate.val) := by
  cases term <;> rfl

theorem annualUsd_le (name : Name) : annualUsd name ≤ 10000 := by
  unfold annualUsd
  rcases h : ANNUAL_USD[name.bytes.length - 1]? with _ | usd
  · exact (by decide : MINIMUM_USD ≤ 10000)
  · have hmem : usd ∈ ANNUAL_USD := List.mem_of_getElem? h
    exact (by decide : ∀ usd ∈ ANNUAL_USD, usd ≤ 10000) usd hmem

/-- A term a request can carry. -/
def Offered (term : Term) : Prop := ∀ n, term = .years n → 1 ≤ n ∧ n ≤ MAX_TERM_YEARS

theorem tariffUsd_le {term : Term} (h : Offered term) (name : Name) : tariffUsd name term ≤ 990000 := by
  have hannual := annualUsd_le name
  cases term with
  | forever =>
    show annualUsd name * FOREVER_MULTIPLE ≤ 990000
    unfold FOREVER_MULTIPLE
    omega
  | years n =>
    have hn : n ≤ 99 := (h n rfl).2
    exact (Nat.mul_le_mul hannual hn).trans (by norm_num)

/-- At a rate of no more than a ZEC a dollar every tariff fits, and the quote covers it. -/
theorem quoteAt_covers {rate : Zatoshis} {p : ℚ} (hrate : (rate.val : ℤ) = ⌈(COIN : ℚ) / p⌉) (hp : 1 < p)
    {term : Term}
    (hterm : Offered term) (name : Name) :
    ∃ z, quoteAt rate name term = some z ∧ (tariffUsd name term : ℚ) * COIN / p ≤ z.val := by
  have hsmall : rate.val ≤ COIN := by
    have hle := ceil_le_coin hp
    omega
  have hfits : tariffUsd name term * rate.val ≤ MAX_MONEY := by
    have hprod := Nat.mul_le_mul (tariffUsd_le hterm name) hsmall
    exact hprod.trans (by decide)
  refine ⟨⟨tariffUsd name term * rate.val, hfits⟩, ?_, ?_⟩
  · rw [quoteAt_eq]
    unfold Zatoshis.fromU64
    rw [dif_pos hfits]
  · have hceil : (COIN : ℚ) / p ≤ (rate.val : ℚ) := by
      have hle := Int.le_ceil ((COIN : ℚ) / p)
      rw [← hrate] at hle
      exact_mod_cast hle
    have hmul := mul_le_mul_of_nonneg_left hceil (Nat.cast_nonneg (α := ℚ) (tariffUsd name term))
    rw [mul_div_assoc]
    exact_mod_cast hmul

/-- The prices the oracle was ever given. -/
def observedPrices (initial : ℚ) (rounds : List Round) : List ℚ := initial :: rounds.filterMap Round.price

/-- **Published rates are averages of observed prices, and quotes cover the tariff.** For an initial
price and rounds whose prices are plausible, of any days at any times: the oracle exists, and after the
rounds the intervals billed tile the time from the start to the last round that landed, each second of it
once; the rate is that of a price that was initial or the average of one earlier day with enough rounds;
it lies between the rates of the highest and the lowest price observed; and every name has a quote for
every term, which is worth its tariff at that price. -/
theorem published_rates {initial : ℚ} (today now : ℤ) {rounds : List Round}
    (hinitial : inBand initial = true)
    (hrounds : ∀ r ∈ rounds, ∀ price, r.price = some price → inBand price = true) :
    ∃ o, Oracle.new initial today now = some o ∧
      let l := rounds.foldl Ledger.step ⟨o, []⟩
      l.oracle = rounds.foldl Oracle.accumulate o ∧
      Tiles Bill.start Bill.stop now (bills l.attempts) l.oracle.lastTs ∧
      (∀ s, (bills l.attempts).countP (fun b => decide (Covers Bill.start Bill.stop s b)) =
        if now ≤ s ∧ s < l.oracle.lastTs then 1 else 0) ∧
      ∃ p, Published initial l.attempts l.oracle.currentDay p ∧
        (l.oracle.current.val : ℤ) = ⌈(COIN : ℚ) / p⌉ ∧
        (∃ lo ∈ observedPrices initial rounds, ∃ hi ∈ observedPrices initial rounds,
          (∀ x ∈ observedPrices initial rounds, lo ≤ x ∧ x ≤ hi) ∧
            ⌈(COIN : ℚ) / hi⌉ ≤ l.oracle.current.val ∧ (l.oracle.current.val : ℤ) ≤ ⌈(COIN : ℚ) / lo⌉) ∧
        ∀ name term, Offered term →
          ∃ z, l.oracle.quote name term = some z ∧ (tariffUsd name term : ℚ) * COIN / p ≤ z.val := by
  have habove : ∀ x ∈ observedPrices initial rounds, 1 < x := by
    have hband : ∀ x, inBand x = true → 1 < x := fun x hx => by
      unfold inBand at hx
      exact of_decide_eq_true (Bool.and_eq_true_iff.mp hx).1
    rintro x hx
    rcases List.mem_cons.mp hx with rfl | hx
    · exact hband x hinitial
    · obtain ⟨r, hr, hprice⟩ := List.mem_filterMap.mp hx
      exact hband x (hrounds r hr x hprice)
  have hfirst : initial ∈ observedPrices initial rounds := List.mem_cons_self ..
  obtain ⟨rate, hrate⟩ := Option.isSome_iff_exists.mp (zatsPerUsd_isSome (habove initial hfirst))
  obtain ⟨o, ho⟩ : ∃ o, Oracle.new initial today now = some o := by
    unfold Oracle.new
    rw [hrate]
    exact ⟨_, rfl⟩
  refine ⟨o, ho, ?_⟩
  intro l
  have hkept : Kept (fun x => x ∈ observedPrices initial rounds) initial now l := by
    refine kept_run rounds (fun r hr price hprice => ?_) (kept_new hfirst ho)
    exact List.mem_cons_of_mem _ (List.mem_filterMap.mpr ⟨r, hr, hprice⟩)
  obtain ⟨p, hp, hcurrent⟩ := hkept.rate
  obtain ⟨-, hval⟩ := zatsPerUsd_spec hcurrent
  obtain ⟨lo, hlo, hmin⟩ := (observedPrices initial rounds).toFinset.exists_min_image id
    ⟨initial, List.mem_toFinset.mpr hfirst⟩
  obtain ⟨hi, hhi, hmax⟩ := (observedPrices initial rounds).toFinset.exists_max_image id
    ⟨initial, List.mem_toFinset.mpr hfirst⟩
  rw [List.mem_toFinset] at hlo hhi
  have hbetween : ∀ x ∈ observedPrices initial rounds, lo ≤ x ∧ x ≤ hi := fun x hx =>
    ⟨hmin x (List.mem_toFinset.mpr hx), hmax x (List.mem_toFinset.mpr hx)⟩
  obtain ⟨hlop, hphi⟩ := hkept.bounds hfirst hbetween hp
  have hlopos : 0 < lo := lt_trans one_pos (habove lo hlo)
  refine ⟨oracle_run rounds ⟨o, []⟩, hkept.tiles, fun s => hkept.tiles.covers_once s, p, hp, hval, ?_, ?_⟩
  · refine ⟨lo, hlo, hi, hhi, hbetween, ?_, ?_⟩
    · exact (ceil_anti (hlopos.trans_le hlop) hphi).trans hval.ge
    · exact hval.le.trans (ceil_anti hlopos hlop)
  · exact fun name term hterm => quoteAt_covers hval ((habove lo hlo).trans_le hlop) hterm name

/-- A day at 800 dollars and one at 900, the second with one miss. -/
def sampleRounds : List Round :=
  [⟨some 900, 0, 43200⟩, ⟨some 900, 1, 86400⟩, ⟨none, 1, 86401⟩, ⟨some 800, 2, 172800⟩]

theorem published_rates_day :
    ∃ o, Oracle.new 800 0 0 = some o ∧ (sampleRounds.foldl Oracle.accumulate o).current.val = 111112 ∧
      Tiles Bill.start Bill.stop 0 (bills (sampleRounds.foldl Ledger.step ⟨o, []⟩).attempts)
        (sampleRounds.foldl Ledger.step ⟨o, []⟩).oracle.lastTs := by
  have hinitial : inBand 800 = true := by decide +kernel
  have hrounds : ∀ r ∈ sampleRounds, ∀ price, r.price = some price → inBand price = true := by
    intro r hr price hprice
    have hall : ∀ price ∈ sampleRounds.filterMap Round.price, inBand price = true := by decide +kernel
    exact hall price (List.mem_filterMap.mpr ⟨r, hr, hprice⟩)
  have hrate : (Oracle.new 800 0 0).map (fun o => (sampleRounds.foldl Oracle.accumulate o).current.val) =
      some 111112 := by
    decide +kernel
  obtain ⟨o, ho, -, htiles, -⟩ := published_rates 0 0 hinitial hrounds
  rw [ho] at hrate
  exact ⟨o, ho, Option.some.inj hrate, htiles⟩

end ZnsMint.Pricing
