import ZnsMint.Pricing.Oracle

/-! # The price of a round

What `aggregate` of `src/mint/pricing.rs` makes of the venues' quotes. Each venue quotes at most once, so
a list of quotes has distinct names.

* `aggregate_perm`: the order the fetches finish in does not matter.
* `aggregate_below_quorum`: one or two quotes publish the trusted venue's own quote, or nothing.
* `aggregate_between`: from three quotes on, any minority of them may hold any value, and the price stays
  between two of the others. The places the median reads are the middle ones, so a minority reaches past
  them on neither side; that is counted in `le_nth_of_countP` and `nth_le_of_countP`. -/

namespace ZnsMint.Pricing

open Lib.OrderStatistic

/-- `fetch_round` once its tasks have finished, in the order they did: a task that panicked has no name, a
venue that failed has no rate. -/
def fetchRound (joined : List (Option (String × Option ℚ))) : Option ℚ :=
  aggregate (joined.filterMap fun task => task.bind fun (name, rate) => rate.map fun r => (name, r))

variable {quotes quotes' : List (String × ℚ)}

/-- The quotes the corruption left alone. -/
def honestRates (corrupt : String → Bool) (quotes : List (String × ℚ)) : List ℚ :=
  (quotes.filter fun q => !corrupt q.1).map Prod.snd

/-! ### The three sizes of a round -/

theorem aggregate_of_le_two (h1 : 1 ≤ quotes.length) (h2 : quotes.length ≤ 2) :
    aggregate quotes = (quotes.find? fun q => q.1 == TRUSTED).map Prod.snd := by
  rcases (show quotes.length = 1 ∨ quotes.length = 2 by omega) with h | h
  · simp [aggregate, h]
  · simp [aggregate, h]

/-- An odd number of rates has a middle one. -/
theorem aggregate_of_odd (h3 : 3 ≤ quotes.length) (hodd : quotes.length % 2 = 1) :
    aggregate quotes = nth (quotes.map Prod.snd) (quotes.length / 2) := by
  obtain ⟨n, hn⟩ : ∃ n, quotes.length = n + 3 := ⟨quotes.length - 3, by omega⟩
  have hodd' : (n + 3) % 2 = 1 := hn ▸ hodd
  simp [aggregate, hn, hodd']

/-- An even number of them has two, and their mean is taken. -/
theorem aggregate_of_even (h3 : 3 ≤ quotes.length) (heven : quotes.length % 2 = 0) :
    ∃ low high, nth (quotes.map Prod.snd) (quotes.length / 2 - 1) = some low ∧
      nth (quotes.map Prod.snd) (quotes.length / 2) = some high ∧ aggregate quotes =
        some ((low + high) / 2) := by
  have hlow : (nth (quotes.map Prod.snd) (quotes.length / 2 - 1)).isSome = true := by
    rw [nth_isSome_iff, List.length_map]
    omega
  have hhigh : (nth (quotes.map Prod.snd) (quotes.length / 2)).isSome = true := by
    rw [nth_isSome_iff, List.length_map]
    omega
  obtain ⟨low, hl⟩ := Option.isSome_iff_exists.mp hlow
  obtain ⟨high, hh⟩ := Option.isSome_iff_exists.mp hhigh
  refine ⟨low, high, hl, hh, ?_⟩
  obtain ⟨n, hn⟩ : ∃ n, quotes.length = n + 3 := ⟨quotes.length - 3, by omega⟩
  have heven' : ¬ (n + 3) % 2 = 1 := by omega
  rw [hn] at hl hh
  simp [aggregate, hn, heven', hl, hh]

/-! ### Below the quorum -/

/-- With distinct names `find` answers with the quote of that name. -/
theorem find_trusted_iff (hd : (quotes.map Prod.fst).Nodup) {rate : ℚ} :
    (quotes.find? fun q => q.1 == TRUSTED).map Prod.snd = some rate ↔ (TRUSTED, rate) ∈ quotes := by
  constructor
  · intro h
    obtain ⟨q, hq, rfl⟩ := Option.map_eq_some_iff.mp h
    have hname : q.1 = TRUSTED := by simpa using List.find?_some hq
    rw [← hname]
    exact List.mem_of_find?_eq_some hq
  · intro hm
    cases hf : quotes.find? fun q => q.1 == TRUSTED with
    | none =>
      have := List.find?_eq_none.mp hf _ hm
      simp at this
    | some q =>
      have hname : q.1 = TRUSTED := by simpa using List.find?_some hf
      have hq := List.mem_of_find?_eq_some hf
      rw [List.inj_on_of_nodup_map hd hq hm hname]
      rfl

theorem aggregate_below_quorum (hd : (quotes.map Prod.fst).Nodup) (h1 : 1 ≤ quotes.length)
    (h2 : quotes.length ≤ 2) {rate : ℚ} : aggregate quotes = some rate ↔ (TRUSTED, rate) ∈ quotes := by
  rw [aggregate_of_le_two h1 h2, find_trusted_iff hd]

/-! ### Any order -/

theorem aggregate_perm (hd : (quotes.map Prod.fst).Nodup) (hp : quotes.Perm quotes') :
    aggregate quotes = aggregate quotes' := by
  have hlen := hp.length_eq
  have hd' : (quotes'.map Prod.fst).Nodup := (hp.map Prod.fst).nodup_iff.mp hd
  have hnth := nth_perm (hp.map Prod.snd)
  rcases Nat.lt_or_ge quotes.length 3 with hsmall | h3
  · rcases Nat.eq_zero_or_pos quotes.length with h0 | h1
    · rw [List.eq_nil_of_length_eq_zero h0, List.eq_nil_of_length_eq_zero (hlen.symm.trans h0)]
    · refine Option.ext fun rate => ?_
      rw [aggregate_below_quorum hd h1 (by omega), aggregate_below_quorum hd' (by omega)
        (by omega), hp.mem_iff]
  · rcases Nat.mod_two_eq_zero_or_one quotes.length with heven | hodd
    · obtain ⟨low, high, hl, hh, ha⟩ := aggregate_of_even h3 heven
      obtain ⟨low', high', hl', hh', ha'⟩ := aggregate_of_even (hlen ▸ h3) (hlen ▸ heven)
      rw [← hlen, ← hnth, hl] at hl'
      rw [← hlen, ← hnth, hh] at hh'
      rw [ha, ha', Option.some.inj hl', Option.some.inj hh']
    · rw [aggregate_of_odd h3 hodd, aggregate_of_odd (hlen ▸ h3) (hlen ▸ hodd), hnth, hlen]

/-- The order the venues' tasks finish in does not change the round. -/
theorem fetchRound_perm {joined joined' : List (Option (String × Option ℚ))}
    (hd : (joined.filterMap fun task => task.map Prod.fst).Nodup) (hp : joined.Perm joined') :
    fetchRound joined = fetchRound joined' := by
  refine aggregate_perm (hd.sublist ?_) (hp.filterMap _)
  clear hd hp
  induction joined with
  | nil => exact List.Sublist.refl _
  | cons task joined ih =>
    rcases task with _ | ⟨name, _ | rate⟩
    · exact ih
    · exact ih.trans (List.sublist_cons_self _ _)
    · exact ih.cons_cons name

/-! ### A corrupt minority -/

/-- A place with as many honest quotes on either side as there are corrupt ones holds a rate between two
honest ones. -/
theorem nth_between {corrupt : String → Bool} {k : ℕ} {rate lo hi : ℚ}
    (hlo : ∀ q ∈ quotes, corrupt q.1 = false → lo ≤ q.2)
    (hhi : ∀ q ∈ quotes, corrupt q.1 = false → q.2 ≤ hi)
    (hbelow : quotes.countP (fun q => corrupt q.1) ≤ k)
    (habove : quotes.countP (fun q => corrupt q.1) + k < quotes.length)
    (h : nth (quotes.map Prod.snd) k = some rate) : lo ≤ rate ∧ rate ≤ hi :=
  ⟨le_nth_of_countP hlo hbelow h, nth_le_of_countP hhi habove h⟩

/-- A minority of corrupt quotes does not move the price past the honest ones. -/
theorem aggregate_between {corrupt : String → Bool} {lo hi : ℚ} (h3 : 3 ≤ quotes.length)
    (hc : 2 * quotes.countP (fun q => corrupt q.1) < quotes.length)
    (hlo : ∀ q ∈ quotes, corrupt q.1 = false → lo ≤ q.2)
    (hhi : ∀ q ∈ quotes, corrupt q.1 = false → q.2 ≤ hi) :
    ∃ price, aggregate quotes = some price ∧ lo ≤ price ∧ price ≤ hi := by
  rcases Nat.mod_two_eq_zero_or_one quotes.length with heven | hodd
  · obtain ⟨low, high, hl, hh, ha⟩ := aggregate_of_even h3 heven
    obtain ⟨hl1, hl2⟩ := nth_between hlo hhi (by omega) (by omega) hl
    obtain ⟨hh1, hh2⟩ := nth_between hlo hhi (by omega) (by omega) hh
    exact ⟨_, ha, by linarith, by linarith⟩
  · have hsome : (nth (quotes.map Prod.snd) (quotes.length / 2)).isSome = true := by
      rw [nth_isSome_iff, List.length_map]
      omega
    obtain ⟨price, hp⟩ := Option.isSome_iff_exists.mp hsome
    obtain ⟨h1, h2⟩ := nth_between hlo hhi (by omega) (by omega) hp
    exact ⟨price, (aggregate_of_odd h3 hodd).trans hp, h1, h2⟩

/-- Some quote is honest, so there is a smallest and a largest honest rate. -/
theorem honestRates_ne_nil {corrupt : String → Bool}
    (hc : 2 * quotes.countP (fun q => corrupt q.1) < quotes.length) :
    honestRates corrupt quotes ≠ [] := by
  intro hnil
  have hall : quotes.countP (fun q => corrupt q.1) = quotes.length := by
    rw [List.countP_eq_length]
    intro q hq
    by_contra hn
    have hmem : q ∈ quotes.filter fun q => !corrupt q.1 := List.mem_filter.mpr ⟨hq, by simpa using hn⟩
    rw [List.map_eq_nil_iff.mp hnil] at hmem
    exact List.not_mem_nil hmem
  omega

theorem mem_honestRates {corrupt : String → Bool} {q : String × ℚ} (hq : q ∈ quotes)
    (hc : corrupt q.1 = false) :
    q.2 ∈ honestRates corrupt quotes :=
  List.mem_map_of_mem (List.mem_filter.mpr ⟨hq, by simp [hc]⟩)

/-- **Aggregation is order-free and robust.** -/
theorem aggregate_robust (quotes : List (String × ℚ)) (hd : (quotes.map Prod.fst).Nodup) :
    (∀ quotes', quotes.Perm quotes' → aggregate quotes' = aggregate quotes) ∧
      (∀ corrupt : String → Bool, 3 ≤ quotes.length →
        2 * quotes.countP (fun q => corrupt q.1) < quotes.length →
          ∃ price lo hi, aggregate quotes = some price ∧ (honestRates corrupt quotes).min? = some lo ∧
            (honestRates corrupt quotes).max? = some hi ∧ lo ≤ price ∧ price ≤ hi) ∧
        (1 ≤ quotes.length → quotes.length ≤ 2 →
          ∀ rate, aggregate quotes = some rate ↔ (TRUSTED, rate) ∈ quotes) := by
  refine ⟨fun _ hp => (aggregate_perm hd hp).symm, ?_, fun h1 h2 _ => aggregate_below_quorum hd h1 h2⟩
  intro corrupt h3 hc
  have hne := honestRates_ne_nil hc
  obtain ⟨lo, hlo⟩ : ∃ lo, (honestRates corrupt quotes).min? = some lo :=
    Option.isSome_iff_exists.mp (List.isSome_min?_iff.mpr hne)
  obtain ⟨hi, hhi⟩ : ∃ hi, (honestRates corrupt quotes).max? = some hi :=
    Option.isSome_iff_exists.mp (List.isSome_max?_iff.mpr hne)
  have hmin := (List.min?_eq_some_iff.mp hlo).2
  have hmax := (List.max?_eq_some_iff.mp hhi).2
  obtain ⟨price, hp, h1, h2⟩ := aggregate_between h3 hc (fun q hq hq' => hmin _ (mem_honestRates hq hq'))
    (fun q hq hq' => hmax _ (mem_honestRates hq hq'))
  exact ⟨price, lo, hi, hp, hlo, hhi, h1, h2⟩

/-- A corrupt venue out of four, far above the others. -/
theorem aggregate_robust_four :
    ∃ price lo hi, aggregate [("gemini", 40), ("okx", 900000), ("kraken", 41), ("mexc", 43)] =
      some price ∧
      (honestRates (· == "okx") [("gemini", 40), ("okx", 900000), ("kraken", 41), ("mexc", 43)]).min? =
        some lo ∧
        (honestRates (· == "okx") [("gemini", 40), ("okx", 900000), ("kraken", 41), ("mexc", 43)]).max? =
          some hi ∧
          lo ≤ price ∧ price ≤ hi :=
  (aggregate_robust [("gemini", 40), ("okx", 900000), ("kraken", 41), ("mexc", 43)] (by decide)).2.1
    (· == "okx") (by decide) (by decide)

end ZnsMint.Pricing
