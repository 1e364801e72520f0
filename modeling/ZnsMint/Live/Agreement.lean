import ZnsMint.Live.Trades
import ZnsMint.Market.Agreement
import ZnsMint.Registry.Notes

/-! # The market never disagrees with the registry

At the tip the trades keep the two in agreement, a block breaks it for the names it moves and
`Market.reconcile` restores it, and a reorg goes back to a height at which they agreed. That last step is
why the invariant speaks of every height below the tip: the registry and the market are cut back
separately, and the replay of the market's events checks no owner. -/

namespace ZnsMint.Live

open Basic Note Inbound Registry Market Lib.Machine

variable {params : Params} {keys : Keys} {k : OtpKeys} {N : NameNote → Prop} {s t : Live}

/-! ### The invariant -/

/-- The book and the records agree, terms included. -/
def InStep (b : Book) (r : Registry) : Prop := Agrees b r ∧ Termed b r

structure Agreed (params : Params) (N : NameNote → Prop) (s : Live) : Prop where
  sound : s.Sound
  noted : Noted params N s.registry
  now : InStep s.bookNow s.registry
  past : s.Throughout fun _ b r => InStep b r

theorem inStep_records {b : Book} {r r' : Registry} (hr : ListingsOnly r r') (h : InStep b r) :
    InStep b r' :=
  ⟨h.1.records hr.record, h.2.records hr.record⟩

theorem inStep_readsRecords : ReadsRecords fun _ b r => InStep b r :=
  fun _ _ _ _ hr h => inStep_records hr h

theorem InStep.less {b b' : Book} {r : Registry} (h : InStep b r) (hless : Less b b') : InStep b' r :=
  ⟨h.1.less hless, h.2.less hless⟩

theorem Noted.listings {r r' : Registry} (h : Noted params N r) (hr : ListingsOnly r r') :
    Noted params N r' := by
  intro n e he
  rw [hr.recordHistory] at he
  exact h n e he

/-- Nothing but the tip, the market and the registry matters. -/
theorem Agreed.congr (h : Agreed params N s) (htip : t.tip = s.tip) (hmarket : t.market = s.market)
    (hregistry : t.registry = s.registry) : Agreed params N t := by
  obtain ⟨hbookAt, hbook⟩ := book_congr hmarket hregistry
  refine ⟨h.sound.congr htip hmarket hregistry, hregistry ▸ h.noted, ?_, ?_⟩
  · rw [hbook, hregistry]
    exact h.now
  · intro j hj
    rw [htip] at hj
    rw [hbookAt, hregistry]
    exact h.past j hj

/-- A step at the tip has to restore the agreement at the tip only. -/
theorem Agreed.traded (h : Agreed params N s) (hst : Traded s t) (hnow : InStep t.bookNow t.registry) :
    Agreed params N t where
  sound := h.sound.traded hst
  noted := Noted.listings h.noted hst.sameTip.registry
  now := hnow
  past := h.past.traded inStep_readsRecords hst

/-! ### Trades -/

/-- A condition on the book and the records that entries leaving the book do not break. -/
structure Loosens (P : Book → Registry → Prop) : Prop where
  less : ∀ {b b' r}, P b r → Less b b' → P b' r
  records : ∀ {b r r'}, P b r → ListingsOnly r r' → P b r'

theorem loosens_agrees : Loosens Agrees := ⟨fun h hless => h.less hless, fun h hr => h.records hr.record⟩

theorem loosens_inStep : Loosens InStep := ⟨fun h hless => h.less hless, fun h hr => inStep_records hr h⟩

/-- Such a condition only has to be shown of memos and of answers. -/
theorem now_trade {P : Book → Registry → Prop} (hP : Loosens P)
    (hmemo : ∀ m r txid request paid fee height mtp pending, P (raw (m, r)) r →
      P (raw ((Market.admitRequest k m txid request paid r fee height mtp pending).1, r)) r)
    (hanswer : ∀ m r response height, P (raw (m, r)) r →
      P (raw (m.answer r response height).1) (m.answer r response height).1.2)
    (h : P s.bookNow s.registry) (hst : Trade k s t) : P t.bookNow t.registry := by
  have hraw : P (raw (s.market, s.registry)) s.registry := hP.less h (less_raw _)
  cases hst with
  | other sameTip hmarket hregistry horders =>
    unfold bookNow
    rw [hmarket, hregistry]
    exact h
  | memo txid request paid =>
    exact hP.less (hmemo _ _ txid request paid s.marginalFee s.tip s.mtp s.nameNotes.notePending hraw)
      (less_book _)
  | answer response => exact hP.less (hanswer _ _ response s.tip hraw) (less_book _)
  | observe payments =>
    exact hP.less (hP.less hraw (less_observe s.market s.registry
      (fun name => (s.registry.record name).map NameRecord.ua) payments s.mtp s.tip)) (less_book _)
  | relayed m hlog hbook =>
    have hsame : P (book (m, s.registry)) s.registry := (hbook s.registry).symm ▸ h
    exact hsame
  | poll =>
    exact hP.less (hP.less hraw (less_poll s.market s.registry s.nameNotes.notePending s.tip))
      (less_book _)
  | sale | transition | claim | orders => exact h

theorem agrees_trade (h : Agrees s.bookNow s.registry) (hst : Trade k s t) :
    Agrees t.bookNow t.registry :=
  now_trade loosens_agrees
    (fun _ _ txid request paid fee height mtp pending h =>
      agrees_admitRequest k txid request paid fee height mtp pending h)
    (fun _ _ response height h => agrees_answer response height h) h hst

theorem agrees_trades (h : Agrees s.bookNow s.registry) (hst : Trades k s t) :
    Agrees t.bookNow t.registry :=
  hst.invariant (I := fun u => Agrees u.bookNow u.registry) (fun _ _ hu hv => agrees_trade hu hv) h

theorem inStep_trade (h : InStep s.bookNow s.registry) (hst : Trade k s t) :
    InStep t.bookNow t.registry := by
  refine now_trade loosens_inStep ?_ ?_ h hst
  · intro m r txid request paid fee height mtp pending h
    exact ⟨agrees_admitRequest k txid request paid fee height mtp pending h.1,
      termed_admitRequest k txid request paid fee height mtp pending h.2⟩
  · intro m r response height h
    refine ⟨agrees_answer response height h.1, ?_⟩
    have hr : ListingsOnly r (m.answer r response height).1.2 := .answer _ _ _ _
    refine Termed.records (r := r) ?_ hr.record
    intro sale hsale
    rw [raw_sales, (answer_cases m r response height).1] at hsale
    exact h.2 sale hsale

theorem Agreed.trade (h : Agreed params N s) (hst : Trade k s t) : Agreed params N t :=
  h.traded hst.traded (inStep_trade h.now hst)

theorem Agreed.trades (h : Agreed params N s) (hst : Trades k s t) : Agreed params N t :=
  hst.invariant (fun _ _ hu hv => hu.trade hv) h

/-! ### Blocks -/

theorem pair_syncMarket (s : Live) : (s.syncMarket.market, s.syncMarket.registry) =
    (s.market.expire s.registry s.mtp s.tip).1.reconcile
    (s.market.expire s.registry s.mtp s.tip).2 s.tip := by
  unfold syncMarket
  generalize s.market.expire s.registry s.mtp s.tip = expired
  generalize hreconciled : expired.1.reconcile expired.2 s.tip = reconciled
  dsimp only
  rw [hreconciled]

theorem traded_syncMarket (s : Live) : Traded s s.syncMarket where
  sameTip := (scanned_syncMarket s).sameTip
  traced := by
    rw [pair_syncMarket]
    exact (traced_expire s.market s.registry s.mtp).trans (traced_reconcile _ _)

theorem less_syncMarket (s : Live) :
    Less (raw (s.market, s.registry)) (raw (s.syncMarket.market, s.syncMarket.registry)) := by
  rw [pair_syncMarket]
  exact (less_expire s.market s.registry s.mtp s.tip).trans (less_reconcile _ _ s.tip)

/-- Whatever the block did to the records. -/
theorem agrees_syncMarket (hs : s.Sound) (h : Agrees s.bookNow s.registry) (b : Block) :
    Agrees (raw ((s.applyBlock params b).syncMarket.market, (s.applyBlock params b).syncMarket.registry))
      (s.applyBlock params b).syncMarket.registry := by
  set u := s.applyBlock params b with hu
  have hlistings : u.registry.listings = s.registry.listings := listings_applyBlock hs.grounded b
  have hregistry := congrArg Prod.snd (pair_syncMarket u)
  dsimp only at hregistry
  rw [pair_syncMarket, hregistry]
  refine agrees_reconcile _ _ u.tip ?_
  intro name l hl
  have hl' : s.registry.listings[name]? = some l := hlistings ▸ (listing_filter hl).1
  obtain ⟨hname, hpay, -⟩ := h.listings name l hl'
  exact ⟨hname, hpay⟩

/-- **The market meets a block.** The sales that stay hold the note they held, so their term is still the
record's: the commitment says what the note is. -/
theorem Agreed.syncMarket (hN : NoCollision params N) (h : Agreed params N s) {b : Block}
    (hb : ∀ note ∈ scannedNotes (b.txs.map Prod.snd), N note) :
    Agreed params N (s.applyBlock params b).syncMarket := by
  set u := s.applyBlock params b with hu
  have hsound : u.Sound := h.sound.applyBlock params b
  have hnoted : Noted params N u.registry := h.noted.confirmBlock hb
  have hpast : u.Throughout fun _ b r => InStep b r := h.past.applyBlock params h.sound h.now b
  have htraded := traded_syncMarket u
  have hold : InStep (raw (s.market, s.registry)) s.registry := h.now.less (less_raw _)
  have hagrees : Agrees (raw (u.syncMarket.market, u.syncMarket.registry)) u.syncMarket.registry :=
    agrees_syncMarket h.sound h.now.1 b
  have htermed : Termed (raw (u.syncMarket.market, u.syncMarket.registry)) u.syncMarket.registry := by
    intro sale' hsale' e' he'
    obtain ⟨e'', he'', -, hheld'⟩ := hagrees.sales sale' hsale'
    cases he'.symm.trans he''
    obtain ⟨sale, hsale, hdeal⟩ := (less_syncMarket u).sales sale' hsale'
    obtain ⟨e, he, -, hheld⟩ := hold.1.sales sale hsale
    rw [htraded.sameTip.registry.record] at he'
    have hterm := expiresAt_of_commitment hN hsound.grounded h.sound.grounded hnoted h.noted he' he
      (by rw [hheld', hheld, hdeal.held])
    rw [hterm, hdeal.term]
    exact hold.2 sale hsale e he
  exact ⟨hsound.traded htraded, Noted.listings hnoted htraded.sameTip.registry,
    InStep.less ⟨hagrees, htermed⟩ (less_book _), hpast.traded inStep_readsRecords htraded⟩

theorem Agreed.block (hN : NoCollision params N) (h : Agreed params N s) {b : Block}
    (hb : ∀ note ∈ scannedNotes (b.txs.map Prod.snd), N note) :
    Agreed params N (s.block params keys b) := by
  have hmet : Agreed params N ((s.applyBlock params b).meetBlock params) :=
    (h.syncMarket hN hb).congr rfl rfl rfl
  exact hmet.trades (trades_block params keys s b)

theorem Agreed.syncBlock (hN : NoCollision params N) (h : Agreed params N s) {b : Block}
    (hs : s.nameNotes = .empty)
    (hb : ∀ note ∈ scannedNotes (b.txs.map Prod.snd), N note) :
    Agreed params N (s.syncBlock params keys b) :=
  (h.syncMarket hN hb).trades (trades_syncBlock params keys b hs)

/-! ### Reorgs and runs -/

/-- The rewind up to the last expiry. -/
theorem Agreed.cutTo (h : Agreed params N s) {j : ℕ} (hlt : j < s.tip) : Agreed params N (s.cutTo j) where
  sound := h.sound.cutTo j
  noted := Noted.listings (h.noted.truncate j) (listingsOnly_cutTo s j)
  now := now_cutTo inStep_readsRecords h.sound h.past hlt
  past := h.past.cutTo inStep_readsRecords h.sound hlt

theorem less_expireAt (s : Live) (mtp : ℤ) : Less s.bookNow (s.expireAt mtp).bookNow := by
  have hexpire := less_expire s.market s.registry mtp s.tip
  exact ((less_raw (s.market, s.registry)).trans hexpire).trans
    (less_book (s.market.expire s.registry mtp s.tip))

theorem Agreed.expireAt (h : Agreed params N s) (mtp : ℤ) : Agreed params N (s.expireAt mtp) := by
  have hnow : InStep (s.expireAt mtp).bookNow (s.expireAt mtp).registry :=
    inStep_records (traded_expireAt s mtp).sameTip.registry (h.now.less (less_expireAt s mtp))
  exact h.traded (traded_expireAt s mtp) hnow

theorem Agreed.reorg (h : Agreed params N s) {rewound : ℕ} (hlt : rewound < s.tip) (mtp : ℤ) :
    Agreed params N (s.reorg params rewound mtp) := by
  have hexpired : Agreed params N ((s.cutTo rewound).expireAt mtp) := (h.cutTo hlt).expireAt mtp
  exact hexpired.congr rfl (market_reorg params s rewound mtp) (registry_reorg params s rewound mtp)

/-- The blocks a step applies. -/
def Step.blocks : Step → List Block
  | .block b => [b]
  | _ => []

/-- The notes that the transactions of some blocks carry. -/
def notesOf (blocks : List Block) : List NameNote :=
  blocks.flatMap fun b => scannedNotes (b.txs.map Prod.snd)

theorem Agreed.step (hN : NoCollision params N) (h : Agreed params N s) {a : Step}
    (ha : ∀ note ∈ notesOf a.blocks, N note) (hstep : s.step params keys a = some t) :
    Agreed params N t := by
  rcases step_cases hstep with ⟨b, rfl, rfl⟩ | ⟨env, rfl, ht⟩ | ⟨rate, rfl, rfl⟩ |
    ⟨rewound, mtp, rfl, ⟨hlt, rfl⟩ | ⟨-, rfl⟩⟩
  · exact h.block hN fun note hnote => ha note (by simpa [notesOf, Step.blocks] using hnote)
  · have htrades : Trades keys.toOtpKeys s t := trades_tipPass ht
    exact h.trades htrades
  · exact h.congr rfl rfl rfl
  · exact h.reorg hlt mtp
  · exact h

theorem agreed_origin (height : ℕ) (mtp : ℤ) (rate fee : Zatoshis) :
    Agreed params N (origin height mtp rate fee) := by
  have hempty : InStep ⟨∅, [], []⟩ Registry.new := ⟨agrees_empty _, by simp [Termed]⟩
  refine ⟨sound_origin height mtp rate fee, noted_new, hempty, ?_⟩
  intro j _
  exact ⟨agrees_empty _, fun sale hsale => by cases hsale⟩

/-- Boot hands over a market that agrees with the registry. -/
theorem agreed_sync (params : Params) (keys : Keys) (hN : NoCollision params N) (height : ℕ) (mtp : ℤ)
    {blocks : List Block} (hblocks : ∀ note ∈ notesOf blocks, N note) (rate fee : Zatoshis) :
    Agreed params N (sync params keys height mtp blocks rate fee) := by
  have hloop := foldl_invariant (f := Live.syncBlock params keys)
    (I := fun l (s : Live) => (∀ note ∈ notesOf l, N note) ∧ s.nameNotes = .empty ∧ Agreed params N s)
    (fun b l s hs => ?_) blocks (origin height mtp rate fee)
    ⟨hblocks, rfl, agreed_origin height mtp rate fee⟩
  · exact hloop.2.2.trades (trades_sealReplayedBuys _ (k := keys.toOtpKeys))
  · obtain ⟨hnotes, hempty, hagreed⟩ := hs
    have hsplit : ∀ note, note ∈ notesOf (b :: l) ↔
        note ∈ scannedNotes (b.txs.map Prod.snd) ∨ note ∈ notesOf l := by
      intro note
      simp [notesOf]
    refine ⟨fun note hnote => hnotes note ((hsplit note).mpr (Or.inr hnote)),
      (scanned_syncBlock params keys s b).nameNotes.trans hempty, ?_⟩
    exact hagreed.syncBlock hN hempty fun note hnote => hnotes note ((hsplit note).mpr (Or.inl hnote))

/-! ### The result -/

/-- What the market says is what the registry says. -/
structure MarketAgrees (s : Live) : Prop where
  listings : ∀ name l, s.registry.listing name = some l → l.name = name ∧
    ∃ e, s.registry.record name = some e ∧ l.ua = e.ua ∧ e.ua.transparent = some l.payTo
  sales : ∀ sale ∈ s.market.sales.sales, ∃ e, s.registry.record sale.name = some e ∧ e.ua = sale.alice ∧
    e.commitment = sale.held ∧ e.expiresAt = sale.term
  challenges : ∀ c ∈ s.market.challenges, ∃ e, s.registry.record c.name = some e ∧ c.ua = e.ua
  names : s.market.names.Nodup

theorem Agreed.marketAgrees (h : Agreed params N s) : MarketAgrees s := by
  have hraw : InStep (raw (s.market, s.registry)) s.registry := h.now.less (less_raw _)
  refine ⟨?_, ?_, ?_, ?_⟩
  · intro name l hl
    obtain ⟨hname, hpay, e, he, hua⟩ := hraw.1.listings name l hl
    exact ⟨hname, e, he, hua.symm, hua ▸ hpay⟩
  · intro sale hsale
    obtain ⟨e, he, hua, hheld⟩ := hraw.1.sales sale hsale
    exact ⟨e, he, hua, hheld, hraw.2 sale hsale e he⟩
  · intro c hc
    obtain ⟨e, he, hua⟩ := hraw.1.challenges c hc
    exact ⟨e, he, hua.symm⟩
  · have hnames := (distinct_of_replays h.sound.replays).names
    rwa [book, map_eraseSale_name] at hnames

/-- **The market never disagrees with the registry**: after every block, tip pass and reorg of every run
from boot, where the notes the run scans have different commitments. -/
theorem market_agrees (params : Params) (keys : Keys) (height : ℕ) (mtp : ℤ) (blocks : List Block)
    (rate fee : Zatoshis) (steps : List Step) {t : Live}
    (hN : NoCollision params fun note => note ∈ notesOf (blocks ++ steps.flatMap Step.blocks))
    (hrun : run (Live.step params keys) (sync params keys height mtp blocks rate fee) steps = some t) :
    MarketAgrees t := by
  have hboot : ∀ note ∈ notesOf blocks, note ∈ notesOf (blocks ++ steps.flatMap Step.blocks) := by
    intro note hnote
    simp only [notesOf, List.flatMap_append, List.mem_append]
    exact Or.inl hnote
  have hsteps : ∀ a ∈ steps, ∀ note ∈ notesOf a.blocks,
      note ∈ notesOf (blocks ++ steps.flatMap Step.blocks) := by
    intro a ha note hnote
    obtain ⟨b, hb, hin⟩ := List.mem_flatMap.mp hnote
    refine List.mem_flatMap.mpr ⟨b, ?_, hin⟩
    exact List.mem_append_right _ (List.mem_flatMap.mpr ⟨a, ha, hb⟩)
  have hstep : ∀ (s : Live) (a : Step) (t : Live), Agreed params _ s → (∀ note ∈ notesOf a.blocks, _) →
      s.step params keys a = some t → Agreed params _ t := fun _ _ _ hs ha ht => hs.step hN ha ht
  have hagreed := run_invariant hstep steps _ t (agreed_sync params keys hN height mtp hboot rate fee)
    (along_of_forall _ steps _ hsteps) hrun
  exact hagreed.marketAgrees

/-- Alice's name is claimed before the mint starts. -/
def heldBlocks : List Block := [ceremonyBlock,
    ⟨[claimTx 10 (.claim alice (sampleUa 1) .never) 0 50 60 141], 20, [], []⟩]

def heldSync : Live := sync Params.sample sampleKeys 99 0 heldBlocks .zero .zero

/-- A block with one memo. -/
def memoStep (mtp : ℤ) (inbound : MintInbound) : Step :=
  .block ⟨[], mtp, [⟨⟨sampleTxid 20, 0⟩, inbound, .zero⟩], []⟩

/-- She lists it in block 102, answers in block 103, and it is bought in block 104. -/
def boughtSteps : List Step :=
  [memoStep 30 (.market (.list sampleListing)), .tipPass sampleEnv,
    memoStep 40 (.response (newChallenge (.list sampleListing) Market.listingCode 30).memo),
    memoStep 50 (.market (.buy alice (sampleUa 2)))]

/-- Block 105 is rolled back and leaves the buy open. -/
def boughtReorg : List Step := boughtSteps ++ [.block ⟨[], 60, [], []⟩, .reorg 104 50]

theorem market_agrees_bought :
    ∃ t, run (Live.step Params.sample sampleKeys) heldSync boughtReorg = some t ∧
      t.market.names = [alice] ∧ MarketAgrees t := by
  have hnames : (run (Live.step Params.sample sampleKeys) heldSync boughtReorg).map
    (fun t => t.market.names) =
      some [alice] := by decide +kernel
  obtain ⟨t, ht, hnames⟩ := Option.map_eq_some_iff.mp hnames
  have hnotes : notesOf (heldBlocks ++ boughtReorg.flatMap Step.blocks) =
    [.claim alice (sampleUa 1) .never] := rfl
  refine ⟨t, ht, hnames, market_agrees Params.sample sampleKeys 99 0 heldBlocks .zero .zero
    boughtReorg ?_ ht⟩
  intro note note' hnote hnote' _
  rw [hnotes, List.mem_singleton] at hnote hnote'
  rw [hnote, hnote']

end ZnsMint.Live
