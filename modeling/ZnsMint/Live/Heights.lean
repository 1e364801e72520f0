import ZnsMint.Live.Boot
import ZnsMint.Registry.Rewind

/-! # The market at an earlier height

A reorg cuts two components back separately: the registry by the heights of its records, the market by
the heights of its events. `bookAt` is what the market would show at a height. `Throughout` says of every
height below the tip that the two would agree there; an operation at the tip does not touch it, a block
adds the tip to it, and a reorg reads it off. -/

namespace ZnsMint.Registry

open Basic Note

variable {params : Params} {r r' : Registry} {h k lo : ℕ}

/-- A registry is its own truncation and things above. -/
theorem extends_truncateToHeight (hr : WellFormed lo r) (h : ℕ) : Extends h (r.truncateToHeight h) r where
  keyed := hr.keyed
  history n := by
    rw [recordHistory_truncateToHeight]
    refine ⟨(r.recordHistory n).rtakeWhile fun e => decide (h < e.confirmedHeight), ?_, ?_⟩
    · exact (List.rdropWhile_append_rtakeWhile).symm
    · intro e he
      simpa using List.mem_rtakeWhile_imp he
  checkpoints j hj := by
    rw [truncateToHeight, AnchorPool.truncateTo, Lib.Checkpoints.getElem?_cut, if_pos hj]
  established := by
    rcases hest : r.anchors.established with _ | e
    · left
      rcases hcut : (r.anchors.truncateTo h).established with _ | e
      · exact hcut.symm
      · rw [AnchorPool.truncateTo_established, hest] at hcut
        cases hcut.1
    · by_cases hle : e ≤ h
      · left
        exact (AnchorPool.truncateTo_established.mpr ⟨hest, hle⟩).symm
      · right
        refine ⟨?_, e, rfl, by omega⟩
        rcases hcut : (r.anchors.truncateTo h).established with _ | e'
        · exact hcut
        · rw [AnchorPool.truncateTo_established, hest] at hcut
          obtain ⟨heq, hle'⟩ := hcut
          cases heq
          exact absurd hle' hle
  listings := rfl

/-- What a block writes at its height is not seen below it. -/
theorem truncateToHeight_confirmBlock (hr : WellFormed lo r) {height : ℕ} (hlt : h < height)
    (txs : List ScannedTx)
    (mtp : ℤ) : (confirmBlock params r txs height mtp).truncateToHeight h = r.truncateToHeight h :=
  ((extends_truncateToHeight hr h).micros hlt (micros_confirmBlock mtp txs r hr.keyed)).truncate_eq
    (hr.truncate h)

theorem truncateToHeight_truncateToHeight (hr : WellFormed lo r) (hk : h ≤ k) :
    (r.truncateToHeight k).truncateToHeight h = r.truncateToHeight h :=
  ((extends_truncateToHeight hr h).truncate (hr.truncate h) hk).truncate_eq (hr.truncate h)

theorem truncateToHeight_self (hr : WellFormed h r) : r.truncateToHeight h = r :=
  (Extends.refl hr.keyed).truncate_eq hr

end ZnsMint.Registry

namespace ZnsMint.Live

open Basic Note Inbound Registry Market Lib.Machine Lib.EventLog

variable {params : Params} {keys : Keys} {s t : Live} {h : ℕ}

/-- The events of the market at `h` and below, replayed. -/
def bookAt (s : Live) (h : ℕ) : Book :=
  sourced.replay ((sourced.log (s.market, s.registry)).filter fun e => decide (e.1 ≤ h))

/-- The book the market shows. -/
def bookNow (s : Live) : Book := book (s.market, s.registry)

/-- The registry is sound, the market is the replay of its log, and no event is above the tip. -/
structure Sound (s : Live) : Prop where
  grounded : s.Grounded
  replays : sourced.Replays (s.market, s.registry)
  stamped : ∀ e ∈ sourced.log (s.market, s.registry), e.1 ≤ s.tip

/-- `P` of the book and of the registry at every height below the tip. -/
def Throughout (P : ℕ → Book → Registry → Prop) (s : Live) : Prop :=
  ∀ h < s.tip, P h (s.bookAt h) (s.registry.truncateToHeight h)

/-- `P` does not read the registry's listings: those are in the book. -/
def ReadsRecords (P : ℕ → Book → Registry → Prop) : Prop :=
  ∀ h b r r', ListingsOnly r r' → P h b r → P h b r'

theorem Sound.bookAt_tip (hs : s.Sound) : s.bookAt s.tip = s.bookNow := by
  have hall : (sourced.log (s.market, s.registry)).filter (fun e => decide (e.1 ≤ s.tip)) =
      sourced.log (s.market, s.registry) :=
    List.filter_eq_self.mpr fun e he => by simpa using hs.stamped e he
  rw [bookAt, hall]
  exact hs.replays.symm

/-- The registry cut at its own tip is the registry. -/
theorem Sound.registry_tip (hs : s.Sound) : s.registry.truncateToHeight s.tip = s.registry :=
  truncateToHeight_self hs.grounded

theorem book_congr (hmarket : t.market = s.market) (hregistry : t.registry = s.registry) :
    (∀ j, t.bookAt j = s.bookAt j) ∧ t.bookNow = s.bookNow := by
  unfold bookAt bookNow
  rw [hmarket, hregistry]
  exact ⟨fun _ => rfl, rfl⟩

theorem Sound.congr (hs : s.Sound) (htip : t.tip = s.tip) (hmarket : t.market = s.market)
    (hregistry : t.registry = s.registry) : t.Sound := by
  refine ⟨?_, ?_, ?_⟩
  · unfold Grounded
    rw [htip, hregistry]
    exact hs.grounded
  · rw [hmarket, hregistry]
    exact hs.replays
  · rw [hmarket, hregistry, htip]
    exact hs.stamped

theorem sound_origin (height : ℕ) (mtp : ℤ) (rate fee : Zatoshis) : (origin height mtp rate fee).Sound :=
  ⟨.new height, rfl, by simp [origin, sourced, Market.new]⟩

theorem listingsOnly_truncateToHeight {r r' : Registry} (hr : ListingsOnly r r') (h : ℕ) :
    ListingsOnly (r.truncateToHeight h) (r'.truncateToHeight h) := by
  rw [hr]
  rfl

/-! ### Operations at the tip -/

/-- A step of the market at the tip of a chain. -/
structure Traded (s t : Live) : Prop where
  sameTip : SameTip s t
  traced : Traced s.tip (s.market, s.registry) (t.market, t.registry)

theorem Traded.trans {u : Live} (hst : Traded s t) (htu : Traded t u) : Traded s u where
  sameTip := hst.sameTip.trans htu.sameTip
  traced := hst.traced.trans (hst.sameTip.tip ▸ htu.traced)

theorem Traded.log (hst : Traded s t) :
    ∃ es : List MarketEvent, sourced.log (t.market, t.registry) =
      sourced.log (s.market, s.registry) ++ es.map (Prod.mk s.tip) := by
  obtain ⟨es, hlog, -⟩ := hst.traced
  exact ⟨es, hlog⟩

theorem Sound.traded (hs : s.Sound) (hst : Traded s t) : t.Sound := by
  obtain ⟨es, hlog, hbook⟩ := hst.traced
  refine ⟨hs.grounded.sameTip hst.sameTip, ?_, ?_⟩
  · have hshown : sourced.view (t.market, t.registry) =
        es.foldl sourced.apply (sourced.view (s.market, s.registry)) :=
          hbook (distinct_of_replays hs.replays)
    have hreplays : sourced.view (s.market, s.registry) =
        sourced.replay (sourced.log (s.market, s.registry)) :=
      hs.replays
    unfold Sourced.Replays
    rw [hshown, hreplays, hlog, Sourced.replay_append]
  · intro e he
    rw [hlog] at he
    rw [hst.sameTip.tip]
    rcases List.mem_append.mp he with he | he
    · exact hs.stamped e he
    · obtain ⟨x, -, rfl⟩ := List.mem_map.mp he
      exact le_rfl

/-- What lies below the tip does not move. -/
theorem Traded.bookAt (hst : Traded s t) (hh : h < s.tip) : t.bookAt h = s.bookAt h := by
  obtain ⟨es, hlog⟩ := hst.log
  have hnone : (es.map (Prod.mk s.tip)).filter (fun e => decide (e.1 ≤ h)) = [] :=
    List.filter_eq_nil_iff.mpr fun e he => by
      obtain ⟨x, -, rfl⟩ := List.mem_map.mp he
      simpa using hh
  rw [Live.bookAt, hlog, List.filter_append, hnone, List.append_nil]
  rfl

theorem Throughout.traded {P : ℕ → Book → Registry → Prop} (hP : ReadsRecords P) (hs : s.Throughout P)
    (hst : Traded s t) : t.Throughout P := by
  intro h hh
  rw [hst.sameTip.tip] at hh
  rw [hst.bookAt hh]
  exact hP h _ _ _ (listingsOnly_truncateToHeight hst.sameTip.registry h) (hs h hh)

/-! ### Blocks and reorgs -/

/-- A block touches no listing. -/
theorem listings_applyBlock (hs : s.Grounded) (b : Block) :
    (s.applyBlock params b).registry.listings = s.registry.listings := by
  have hmicros : Micros (s.tip + 1) s.registry (s.applyBlock params b).registry :=
    micros_confirmBlock b.mtp (b.txs.map Prod.snd) s.registry hs.keyed
  have hext := (Extends.refl (h := s.tip) hs.keyed).micros (Nat.lt_succ_self s.tip) hmicros
  exact hext.listings

theorem Sound.applyBlock (params : Params) (hs : s.Sound) (b : Block) :
    (s.applyBlock params b).Sound := by
  refine ⟨hs.grounded.applyBlock params b, ?_, fun e he => le_trans (hs.stamped e he) (Nat.le_succ _)⟩
  have hbook : book ((s.applyBlock params b).market, (s.applyBlock params b).registry) =
      book (s.market, s.registry) := Book.ext (listings_applyBlock hs.grounded b) rfl rfl
  exact hbook.trans hs.replays

/-- A block adds the old tip to the heights. -/
theorem Throughout.applyBlock {P : ℕ → Book → Registry → Prop} (params : Params) (hk : s.Sound)
    (hs : s.Throughout P)
    (hnow : P s.tip s.bookNow s.registry) (b : Block) : (s.applyBlock params b).Throughout P := by
  intro h hh
  have hle : h ≤ s.tip := Nat.lt_succ_iff.mp hh
  have hregistry : (s.applyBlock params b).registry.truncateToHeight h = s.registry.truncateToHeight h :=
    truncateToHeight_confirmBlock hk.grounded hh (b.txs.map Prod.snd) b.mtp
  have hbook : (s.applyBlock params b).bookAt h = s.bookAt h := rfl
  rw [hregistry, hbook]
  rcases Nat.lt_or_eq_of_le hle with hlt | rfl
  · exact hs h hlt
  · rw [hk.bookAt_tip, hk.registry_tip]
    exact hnow

/-- The state a reorg passes through after the two truncations. -/
def cutTo (s : Live) (rewound : ℕ) : Live :=
  let (market, registry) := s.market.truncateTo (s.registry.truncateToHeight rewound) rewound
  { s with tip := rewound, market := market, registry := registry }

/-- The last step of the rewind: the sales and challenges that have run out at its height. -/
def expireAt (s : Live) (mtp : ℤ) : Live :=
  { s with
    market := (s.market.expire s.registry mtp s.tip).1
    registry := (s.market.expire s.registry mtp s.tip).2 }

theorem market_reorg (params : Params) (s : Live) (rewound : ℕ) (mtp : ℤ) :
    (s.reorg params rewound mtp).market = ((s.cutTo rewound).expireAt mtp).market := rfl

theorem registry_reorg (params : Params) (s : Live) (rewound : ℕ) (mtp : ℤ) :
    (s.reorg params rewound mtp).registry = ((s.cutTo rewound).expireAt mtp).registry := rfl

theorem log_cutTo (s : Live) (k : ℕ) : sourced.log ((s.cutTo k).market, (s.cutTo k).registry) =
    (sourced.log (s.market, s.registry)).filter fun e => decide (e.1 ≤ k) :=
  lawful.truncate_log (s.market, s.registry.truncateToHeight k) k

theorem Sound.cutTo (hs : s.Sound) (k : ℕ) : (s.cutTo k).Sound where
  grounded := wellFormed_listings (hs.grounded.truncate k)
    (ListingsOnly.truncateTo s.market (s.registry.truncateToHeight k) k)
  replays := lawful.truncate_view (s.market, s.registry.truncateToHeight k) k
  stamped := by
    intro e he
    rw [log_cutTo] at he
    have hle : e.1 ≤ k := by simpa using (List.mem_filter.mp he).2
    exact hle

theorem bookNow_cutTo (hs : s.Sound) (k : ℕ) : (s.cutTo k).bookNow = s.bookAt k := by
  have hcut := (hs.cutTo k).replays
  have hlog := log_cutTo s k
  unfold bookNow Live.bookAt
  rw [← hlog]
  exact hcut

theorem bookAt_cutTo (s : Live) {h k : ℕ} (hle : h ≤ k) : (s.cutTo k).bookAt h = s.bookAt h := by
  unfold Live.bookAt
  rw [log_cutTo, List.filter_filter]
  congr 1
  refine List.filter_congr fun e _ => ?_
  by_cases he : e.1 ≤ h
  · simp [he, le_trans he hle]
  · simp [he]

theorem listingsOnly_cutTo (s : Live) (k : ℕ) :
    ListingsOnly (s.registry.truncateToHeight k) (s.cutTo k).registry :=
  ListingsOnly.truncateTo s.market _ k

theorem traded_expireAt (s : Live) (mtp : ℤ) : Traded s (s.expireAt mtp) :=
  ⟨⟨rfl, rfl, rfl, .expire s.market s.registry mtp s.tip⟩, traced_expire s.market s.registry mtp⟩

/-- A reorg shows at its height what stood there. -/
theorem now_cutTo {P : ℕ → Book → Registry → Prop} (hP : ReadsRecords P) (hk : s.Sound)
    (hs : s.Throughout P) {k : ℕ}
    (hlt : k < s.tip) : P k (s.cutTo k).bookNow (s.cutTo k).registry := by
  rw [bookNow_cutTo hk]
  exact hP k _ _ _ (listingsOnly_cutTo s k) (hs k hlt)

theorem Throughout.cutTo {P : ℕ → Book → Registry → Prop} (hP : ReadsRecords P) (hk : s.Sound)
    (hs : s.Throughout P)
    {k : ℕ} (hlt : k < s.tip) : (s.cutTo k).Throughout P := by
  intro h hh
  have hle : h ≤ k := le_of_lt hh
  rw [bookAt_cutTo s hle]
  have hcut := listingsOnly_truncateToHeight (listingsOnly_cutTo s k) h
  rw [truncateToHeight_truncateToHeight hk.grounded hle] at hcut
  exact hP h _ _ _ hcut (hs h (by omega))

end ZnsMint.Live
