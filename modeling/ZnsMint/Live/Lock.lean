import ZnsMint.Live.Agreement
import ZnsMint.Live.Orders

/-! # An open buy locks its name

The market and the queue of Name Notes check each other before either takes a name: a buy opens while no
order of the name is unresolved, and an order other than a claim or the sale's own note is admitted while
no buy is open. A reorg cuts the market by the heights of its events and the queue by the origins of its
orders, and it makes seen orders unresolved again. Then an order that was seen when the sale stood at the
height of the reorg has its record at that height or below, and is seen again at once. -/

namespace ZnsMint.Live

open Basic Note Inbound Registry Market Lib.Machine

variable {params : Params} {keys : Keys} {k : OtpKeys} {s t : Live}

/-! ### The invariant -/

/-- The note is the one the sale owes, and the sale is paid. -/
def OwedBy (sale : Sale) (note : NameNote) : Prop :=
  note = .sale sale.name sale.bob sale.term sale.held ∧ sale.phase = .paid

/-- An unresolved order of the name of an open sale is a claim, or the sale's own. -/
def Locks (b : Book) (q : NameNoteQueue) : Prop :=
  ∀ sale ∈ b.sales, ∀ o ∈ q.orders, o.unresolved = true → o.note.name = sale.name →
    o.note.action ≠ .claim →
    OwedBy sale o.note

/-- The same of a height that lies below the tip, for the orders whose origin a reorg to it spares: those
that the reorg would leave unresolved are the sale's own. -/
def LocksAt (params : Params) (q : NameNoteQueue) (h : ℕ) (b : Book) (r : Registry) : Prop :=
  ∀ sale ∈ b.sales, ∀ o ∈ q.orders, o.origin ≤ h → o.note.name = sale.name → o.note.action ≠ .claim →
    NameNoteQueue.confirmedBy params r o = true ∨ OwedBy sale o.note

structure Locked (params : Params) (s : Live) : Prop where
  sound : s.Sound
  seen : ∀ o ∈ s.nameNotes.orders, o.state = .seen → NameNoteQueue.confirmedBy params s.registry o = true
  now : Locks s.bookNow s.nameNotes
  past : s.Throughout (LocksAt params s.nameNotes)

theorem OwedBy.same {sale sale' : Sale} {note : NameNote} (h : OwedBy sale note)
    (hdeal : SameDeal sale sale') :
    OwedBy sale' note := by
  refine ⟨?_, hdeal.paid h.2⟩
  rw [hdeal.name, hdeal.bob, hdeal.term, hdeal.held]
  exact h.1

theorem Locks.less {b b' : Book} {q : NameNoteQueue} (h : Locks b q) (hless : Less b b') :
    Locks b' q := by
  intro sale' hsale' o ho hopen hname hclaim
  obtain ⟨sale, hsale, hdeal⟩ := hless.sales sale' hsale'
  exact (h sale hsale o ho hopen (hname.trans hdeal.name) hclaim).same hdeal

theorem Locks.fewer {b : Book} {q q' : NameNoteQueue} (h : Locks b q) (hq : FewerOrders q q') :
    Locks b q' := by
  intro sale hsale o ho hopen hname hclaim
  obtain ⟨o', ho', hnote, -, hstate⟩ := hq o ho
  have hopen' : o'.unresolved = true := by
    simp only [Order.unresolved, bne_iff_ne] at hopen ⊢
    exact fun hseen => hopen (hstate.mpr hseen)
  rw [hnote] at hname hclaim ⊢
  exact h sale hsale o' ho' hopen' hname hclaim

theorem confirmedBy_congr {r : Registry} {o o' : Order} (hnote : o.note = o'.note)
    (horigin : o.origin = o'.origin) :
    NameNoteQueue.confirmedBy params r o = NameNoteQueue.confirmedBy params r o' := by
  unfold NameNoteQueue.confirmedBy
  rw [hnote, horigin]

theorem locksAt_readsRecords (q : NameNoteQueue) : ReadsRecords (LocksAt params q) := by
  intro h b r r' hr hb sale hsale o ho horigin hname hclaim
  rw [confirmedBy_listings hr]
  exact hb sale hsale o ho horigin hname hclaim

/-- A height below the tip sees the orders with an origin below the tip only, and of those their notes. -/
theorem LocksAt.orders {q q' : NameNoteQueue} {h : ℕ} {b : Book} {r : Registry}
    (hb : LocksAt params q h b r)
    (hq : ∀ o ∈ q'.orders, o.origin ≤ h → o.note.action ≠ .claim →
      ∃ o' ∈ q.orders, o.note = o'.note ∧ o.origin = o'.origin) : LocksAt params q' h b r := by
  intro sale hsale o ho horigin hname hclaim
  obtain ⟨o', ho', hnote, horigin'⟩ := hq o ho horigin hclaim
  rw [confirmedBy_congr hnote horigin']
  rw [hnote] at hname hclaim ⊢
  exact hb sale hsale o' ho' (horigin' ▸ horigin) hname hclaim

/-! ### Trades -/

/-- What a trade does to the queue: an order comes in at the tip, or as a claim; or some leave. -/
theorem Trade.orders_cases (hst : Trade k s t) :
    FewerOrders s.nameNotes t.nameNotes ∨
      ∃ o, t.nameNotes = ⟨s.nameNotes.orders ++ [o]⟩ ∧ o.state = .authorized ∧
        (o.note.action = .claim ∨ o.origin = s.tip) := by
  have hsame : FewerOrders s.nameNotes s.nameNotes := fun o ho => ⟨o, ho, rfl, rfl, Iff.rfl⟩
  cases hst with
  | other sameTip hmarket hregistry horders =>
    left
    rw [horders]
    exact hsame
  | memo | answer | observe | relayed | poll => exact Or.inl hsame
  | sale | transition => exact Or.inr ⟨_, rfl, rfl, Or.inr rfl⟩
  | claim note origin payment hclaim => exact Or.inr ⟨_, rfl, rfl, Or.inl hclaim⟩
  | orders q hq => exact Or.inl hq

theorem Locked.seen_trade (h : Locked params s) (hst : Trade k s t) :
    ∀ o ∈ t.nameNotes.orders, o.state = .seen → NameNoteQueue.confirmedBy params t.registry o = true := by
  intro o ho hstate
  rw [confirmedBy_listings hst.traded.sameTip.registry]
  rcases hst.orders_cases with hfewer | ⟨o', hq, hauthorized, -⟩
  · obtain ⟨o', ho', hnote, horigin, hseen⟩ := hfewer o ho
    rw [confirmedBy_congr hnote horigin]
    exact h.seen o' ho' (hseen.mp hstate)
  · rw [hq] at ho
    rcases List.mem_append.mp ho with ho | ho
    · exact h.seen o ho hstate
    · rw [List.mem_singleton.mp ho, hauthorized] at hstate
      cases hstate

theorem Locked.past_trade (h : Locked params s) (hst : Trade k s t) :
    t.Throughout (LocksAt params t.nameNotes) := by
  have hpast : t.Throughout (LocksAt params s.nameNotes) :=
    h.past.traded (locksAt_readsRecords _) hst.traded
  intro j hj
  refine (hpast j hj).orders fun o ho horigin hclaim => ?_
  rcases hst.orders_cases with hfewer | ⟨o', hq, -, hnew⟩
  · obtain ⟨o', ho', hnote, horigin', -⟩ := hfewer o ho
    exact ⟨o', ho', hnote, horigin'⟩
  · rw [hq] at ho
    rcases List.mem_append.mp ho with ho | ho
    · exact ⟨o, ho, rfl, rfl⟩
    · rw [List.mem_singleton] at ho
      subst ho
      rw [hst.traded.sameTip.tip] at hj
      rcases hnew with hnew | hnew
      · exact (hclaim hnew).elim
      · omega

/-- A name has one sale. -/
theorem sale_unique (hs : s.Sound) {sale sale' : Sale} (h : sale ∈ s.market.sales.sales)
    (h' : sale' ∈ s.market.sales.sales) (hname : sale.name = sale'.name) : sale = sale' := by
  have hnames := (distinct_of_replays hs.replays).names
  rw [book, map_eraseSale_name] at hnames
  exact List.inj_on_of_nodup_map hnames h h' hname

theorem locks_append {b : Book} {q : NameNoteQueue} (h : Locks b q) {o : Order}
    (ho : ∀ sale ∈ b.sales, o.note.name = sale.name → o.note.action ≠ .claim → OwedBy sale o.note) :
    Locks b ⟨q.orders ++ [o]⟩ := by
  intro sale hsale o' ho' hopen hname hclaim
  rcases List.mem_append.mp ho' with ho' | ho'
  · exact h sale hsale o' ho' hopen hname hclaim
  · rw [List.mem_singleton] at ho'
    subst ho'
    exact ho sale hsale hname hclaim

/-- What the checks of the loop keep. -/
theorem Locked.now_trade (h : Locked params s) (hst : Trade k s t) :
    Locks (raw (t.market, t.registry)) t.nameNotes := by
  have hraw : Locks (raw (s.market, s.registry)) s.nameNotes := h.now.less (less_raw _)
  cases hst with
  | other sameTip hmarket hregistry horders =>
    rw [hmarket, hregistry, horders]
    exact hraw
  | memo txid request paid =>
    obtain ⟨hsales, -⟩ := admitRequest_adds k s.market txid request paid s.registry
      s.marginalFee s.tip s.mtp
      s.nameNotes.notePending
    intro sale hsale o ho hopen hname hclaim
    rcases hsales sale hsale with hold | ⟨hpending, -⟩
    · exact hraw sale hold o ho hopen hname hclaim
    · -- a buy that opens finds no unresolved order
      have hnone : s.nameNotes.notePending sale.name = true := by
        unfold NameNoteQueue.notePending
        rw [List.any_eq_true]
        exact ⟨o, ho, by simp [hopen, hname]⟩
      rw [hpending] at hnone
      cases hnone
  | answer response =>
    intro sale hsale
    rw [raw_sales, (answer_cases s.market s.registry response s.tip).1] at hsale
    exact hraw sale hsale
  | observe payments =>
    exact hraw.less (less_observe s.market s.registry
      (fun name => (s.registry.record name).map NameRecord.ua)
      payments s.mtp s.tip)
  | relayed m hlog hbook =>
    have hbook' : Locks (book (m, s.registry)) s.nameNotes := (hbook s.registry).symm ▸ h.now
    exact hbook'.less (less_raw (m, s.registry))
  | poll => exact hraw.less (less_poll s.market s.registry s.nameNotes.notePending s.tip)
  | sale sale note hsale hpaid howed =>
    have hnote := (owedNote_spec howed).1
    refine locks_append hraw fun sale' hsale' hname _ => ?_
    have hsame : sale = sale' := sale_unique h.sound hsale hsale' (by rw [← hname, hnote]; rfl)
    subst hsame
    exact ⟨hnote, hpaid⟩
  | transition note hopen =>
    refine locks_append hraw fun sale hsale hname _ => ?_
    -- no buy is open on the name of a transition
    have hfree : s.market.sales.sales.any (fun x => x.name == note.name) = false := hopen
    rw [List.any_eq_false] at hfree
    exact (hfree sale hsale (by simp [hname])).elim
  | claim note origin payment hclaim => exact locks_append hraw fun _ _ _ h => (h hclaim).elim
  | orders q hq => exact hraw.fewer hq

theorem Locked.trade (h : Locked params s) (hst : Trade k s t) : Locked params t where
  sound := h.sound.traded hst.traded
  seen := h.seen_trade hst
  now := (h.now_trade hst).less (less_book _)
  past := h.past_trade hst

theorem Locked.trades (h : Locked params s) (hst : Trades k s t) : Locked params t :=
  hst.invariant (fun _ _ hu hv => hu.trade hv) h

/-! ### Blocks and reorgs -/

/-- At the tip the two conditions say the same of the orders that are not seen. -/
theorem Locked.locksAt_tip (h : Locked params s) :
    LocksAt params s.nameNotes s.tip s.bookNow s.registry := by
  intro sale hsale o ho _ hname hclaim
  by_cases hstate : o.state = .seen
  · exact Or.inl (h.seen o ho hstate)
  · exact Or.inr (h.now sale hsale o ho (by simpa [Order.unresolved] using hstate) hname hclaim)

/-- The queue met a registry that confirms at least what it did: whatever is unresolved was. -/
theorem unresolved_reconcileSeen {r : Registry} {q : NameNoteQueue} {o : Order}
    (ho : o ∈ (q.reconcileSeen params r).orders) :
    ∃ o' ∈ q.orders, o.note = o'.note ∧ o.origin = o'.origin ∧
      (o.unresolved = true → o'.unresolved = true ∧ NameNoteQueue.confirmedBy params r o' = false) := by
  obtain ⟨o', ho', rfl, -⟩ := mem_reconcileSeen.mp ho
  refine ⟨o', ho', seeOne_note .., seeOne_origin .., fun hopen => ?_⟩
  simp only [Order.unresolved, bne_iff_ne, ne_eq, seeOne_seen, not_or, Bool.not_eq_true] at hopen ⊢
  exact ⟨hopen.2, hopen.1⟩

theorem seen_reconcileSeen {r : Registry} {q : NameNoteQueue}
    (hq : ∀ o ∈ q.orders, o.state = .seen → NameNoteQueue.confirmedBy params r o = true) {o : Order}
    (ho : o ∈ (q.reconcileSeen params r).orders) (hstate : o.state = .seen) :
    NameNoteQueue.confirmedBy params r o = true := by
  obtain ⟨o', ho', rfl, -⟩ := mem_reconcileSeen.mp ho
  rw [confirmedBy_congr (seeOne_note ..) (seeOne_origin ..)]
  rcases seeOne_seen.mp hstate with hconfirmed | hold
  · exact hconfirmed
  · exact hq o' ho' hold

theorem Locked.applyBlock (h : Locked params s) (b : Block) : Locked params (s.applyBlock params b) where
  sound := h.sound.applyBlock params b
  seen := by
    intro o ho hstate
    have hmicros : Micros (s.tip + 1) s.registry (s.applyBlock params b).registry :=
      micros_confirmBlock b.mtp (b.txs.map Prod.snd) s.registry h.sound.grounded.keyed
    have hconfirmed := h.seen o ho hstate
    unfold NameNoteQueue.confirmedBy at hconfirmed ⊢
    rw [List.any_eq_true] at hconfirmed ⊢
    obtain ⟨e, he, hboth⟩ := hconfirmed
    exact ⟨e, (recordHistory_micros hmicros o.note.name).subset he, hboth⟩
  now := by
    intro sale hsale
    exact h.now sale hsale
  past := h.past.applyBlock params h.sound h.locksAt_tip b

/-- The market alone, when it adds no sale. -/
theorem Locked.traded (h : Locked params s) (hst : Traded s t) (horders : t.nameNotes = s.nameNotes)
    (hless : Less (raw (s.market, s.registry)) (raw (t.market, t.registry))) : Locked params t := by
  refine ⟨h.sound.traded hst, ?_, ?_, ?_⟩
  · intro o ho hstate
    rw [horders] at ho
    rw [confirmedBy_listings hst.sameTip.registry]
    exact h.seen o ho hstate
  · rw [horders]
    exact ((h.now.less (less_raw _)).less hless).less (less_book _)
  · rw [horders]
    exact h.past.traded (locksAt_readsRecords _) hst

/-- Nothing but the tip, the market, the registry and the orders matters. -/
theorem Locked.of_orders (hsound : s.Sound) (htip : t.tip = s.tip) (hmarket : t.market = s.market)
    (hregistry : t.registry = s.registry)
    (hseen : ∀ o ∈ t.nameNotes.orders, o.state = .seen →
    NameNoteQueue.confirmedBy params s.registry o = true)
    (hnow : Locks s.bookNow t.nameNotes) (hpast : s.Throughout (LocksAt params t.nameNotes)) :
    Locked params t := by
  obtain ⟨hbookAt, hbook⟩ := book_congr hmarket hregistry
  refine ⟨hsound.congr htip hmarket hregistry, ?_, ?_, ?_⟩
  · rw [hregistry]
    exact hseen
  · rw [hbook]
    exact hnow
  · intro j hj
    rw [htip] at hj
    rw [hbookAt, hregistry]
    exact hpast j hj

theorem Locked.congr (h : Locked params s) (htip : t.tip = s.tip) (hmarket : t.market = s.market)
    (hregistry : t.registry = s.registry) (horders : t.nameNotes = s.nameNotes) : Locked params t := by
  refine .of_orders h.sound htip hmarket hregistry ?_ ?_ ?_ <;> rw [horders]
  · exact h.seen
  · exact h.now
  · exact h.past

/-- The orders meet the block. -/
theorem Locked.reconcileSeen (h : Locked params s) (htip : t.tip = s.tip) (hmarket : t.market = s.market)
    (hregistry : t.registry = s.registry) (horders : t.nameNotes =
    s.nameNotes.reconcileSeen params s.registry) :
    Locked params t := by
  refine .of_orders h.sound htip hmarket hregistry ?_ ?_ ?_ <;> rw [horders]
  · exact fun _ ho hstate => seen_reconcileSeen h.seen ho hstate
  · intro sale hsale o ho hopen hname hclaim
    obtain ⟨o', ho', hnote, -, hunresolved⟩ := unresolved_reconcileSeen ho
    rw [hnote] at hname hclaim ⊢
    exact h.now sale hsale o' ho' (hunresolved hopen).1 hname hclaim
  · refine fun j hj => (h.past j hj).orders fun o ho _ _ => ?_
    obtain ⟨o', ho', hnote, horigin, -⟩ := unresolved_reconcileSeen ho
    exact ⟨o', ho', hnote, horigin⟩

theorem Locked.block (h : Locked params s) (b : Block) : Locked params (s.block params keys b) := by
  set u := s.applyBlock params b with hu
  have htraded := traded_syncMarket u
  have hmarket : Locked params u.syncMarket :=
    (h.applyBlock b).traded htraded (scanned_syncMarket u).nameNotes (less_syncMarket u)
  have hmet : Locked params (u.meetBlock params) := by
    refine hmarket.reconcileSeen rfl rfl rfl ?_
    exact (reconcileSeen_listings htraded.sameTip.registry u.nameNotes).symm
  exact hmet.trades (trades_block params keys s b)

theorem Locked.syncBlock (h : Locked params s) (hs : s.nameNotes = .empty) (b : Block) :
    Locked params (s.syncBlock params keys b) := by
  set u := s.applyBlock params b with hu
  have hmarket : Locked params u.syncMarket :=
    (h.applyBlock b).traded (traded_syncMarket u) (scanned_syncMarket u).nameNotes (less_syncMarket u)
  exact hmarket.trades (trades_syncBlock params keys b hs)

/-- What a rewind leaves of the orders, and that the ones left unresolved are not confirmed. -/
theorem rewound_orders {r : Registry} {q : NameNoteQueue} {rewound : ℕ} {o : Order}
    (ho : o ∈ ((q.rewindTo rewound).reconcileSeen params r).orders) :
    ∃ o' ∈ q.orders, o.note = o'.note ∧ o.origin = o'.origin ∧ o'.origin ≤ rewound ∧
      (o.unresolved = true → NameNoteQueue.confirmedBy params r o' = false) := by
  obtain ⟨o₁, ho₁, hnote, horigin, hopen⟩ := unresolved_reconcileSeen ho
  obtain ⟨o', ho', rfl⟩ := List.mem_map.mp ho₁
  obtain ⟨hmem, hle⟩ := List.mem_filter.mp ho'
  rw [reauthorize_note] at hnote
  rw [reauthorize_origin] at horigin
  refine ⟨o', hmem, hnote, horigin, by simpa using hle, fun hunresolved => ?_⟩
  rw [← (hopen hunresolved).2]
  exact confirmedBy_congr (reauthorize_note o').symm (reauthorize_origin o').symm

/-- A rewind reopens every order. -/
theorem not_seen_rewindTo {q : NameNoteQueue} {rewound : ℕ} {o : Order}
    (ho : o ∈ (q.rewindTo rewound).orders) :
    o.state ≠ .seen := by
  obtain ⟨o', -, rfl⟩ := List.mem_map.mp ho
  unfold NameNoteQueue.reauthorize
  split_ifs with hseen
  · simp
  · exact hseen

/-- **A reorg keeps the lock.** At its height an order was confirmed or the sale's own; the confirmed
ones are seen again. -/
theorem Locked.reorg (h : Locked params s) {rewound : ℕ} (hlt : rewound < s.tip) (mtp : ℤ) :
    Locked params (s.reorg params rewound mtp) := by
  have htraded : Traded (s.cutTo rewound) ((s.cutTo rewound).expireAt mtp) :=
    traded_expireAt (s.cutTo rewound) mtp
  have hpast : ((s.cutTo rewound).expireAt mtp).Throughout (LocksAt params s.nameNotes) :=
    (h.past.cutTo (locksAt_readsRecords _) h.sound hlt).traded (locksAt_readsRecords _) htraded
  have hcut : LocksAt params s.nameNotes rewound (s.cutTo rewound).bookNow (s.cutTo rewound).registry :=
    now_cutTo (locksAt_readsRecords _) h.sound h.past hlt
  have hless : Less (s.cutTo rewound).bookNow ((s.cutTo rewound).expireAt mtp).bookNow :=
    less_expireAt _ mtp
  have horders : (s.reorg params rewound mtp).nameNotes =
      (s.nameNotes.rewindTo rewound).reconcileSeen params ((s.cutTo rewound).expireAt mtp).registry := rfl
  refine .of_orders ((h.sound.cutTo rewound).traded htraded) rfl (market_reorg params s rewound mtp)
    (registry_reorg params s rewound mtp) ?_ ?_ ?_ <;> rw [horders]
  · exact fun o ho hstate => seen_reconcileSeen
      (fun o' ho' hseen => (not_seen_rewindTo ho' hseen).elim) ho hstate
  · intro sale' hsale' o ho hopen hname hclaim
    obtain ⟨o', ho', hnote, -, hle, hunconfirmed⟩ := rewound_orders ho
    obtain ⟨sale, hsale, hdeal⟩ := hless.sales sale' hsale'
    rw [hnote] at hname hclaim ⊢
    rcases hcut sale hsale o' ho' hle (hname.trans hdeal.name) hclaim with hconfirmed | howed
    · rw [← confirmedBy_listings htraded.sameTip.registry, hunconfirmed hopen] at hconfirmed
      cases hconfirmed
    · exact howed.same hdeal
  · refine fun j hj => (hpast j hj).orders fun o ho _ _ => ?_
    obtain ⟨o', ho', hnote, horigin, -⟩ := rewound_orders ho
    exact ⟨o', ho', hnote, horigin⟩

/-! ### Runs -/

theorem Locked.step (h : Locked params s) {a : Step} (hstep : s.step params keys a = some t) :
    Locked params t := by
  rcases step_cases hstep with ⟨b, rfl, rfl⟩ | ⟨env, rfl, ht⟩ | ⟨rate, rfl, rfl⟩ |
    ⟨rewound, mtp, rfl, ⟨hlt, rfl⟩ | ⟨-, rfl⟩⟩
  · exact h.block b
  · have htrades : Trades keys.toOtpKeys s t := trades_tipPass ht
    exact h.trades htrades
  · exact h.congr rfl rfl rfl rfl
  · exact h.reorg hlt mtp
  · exact h

theorem locked_origin (height : ℕ) (mtp : ℤ) (rate fee : Zatoshis) :
    Locked params (origin height mtp rate fee) := by
  refine ⟨sound_origin height mtp rate fee, ?_, ?_, ?_⟩
  · intro o ho
    cases ho
  · intro sale hsale
    cases hsale
  · intro j _ sale hsale
    cases hsale

theorem locked_sync (params : Params) (keys : Keys) (height : ℕ) (mtp : ℤ) (blocks : List Block)
    (rate fee : Zatoshis) : Locked params (sync params keys height mtp blocks rate fee) := by
  have hloop := foldl_invariant (f := Live.syncBlock params keys)
    (I := fun _ (s : Live) => s.nameNotes = .empty ∧ Locked params s)
    (fun b _ s hs => ⟨(scanned_syncBlock params keys s b).nameNotes.trans hs.1, hs.2.syncBlock hs.1 b⟩)
    blocks
    (origin height mtp rate fee) ⟨rfl, locked_origin height mtp rate fee⟩
  exact hloop.2.trades (trades_sealReplayedBuys _ (k := keys.toOtpKeys))

/-- **An open buy locks its name**: in every state of every run from boot, an unresolved order of the
name of an open sale is a claim, or it is the note that this sale owes and the sale is paid. -/
theorem open_buy_locks (params : Params) (keys : Keys) (height : ℕ) (mtp : ℤ) (blocks : List Block)
    (rate fee : Zatoshis) (steps : List Step) {t : Live}
    (hrun : run (Live.step params keys) (sync params keys height mtp blocks rate fee) steps = some t) :
    ∀ sale ∈ t.market.sales.sales, ∀ o ∈ t.nameNotes.orders, o.unresolved = true →
      o.note.name = sale.name →
      o.note.action ≠ .claim → o.note = .sale sale.name sale.bob sale.term sale.held ∧
        sale.phase = .paid := by
  have hlocked : Locked params t :=
    run_invariant (I := Locked params) (fun _ _ _ hs _ ht => hs.step ht) steps _ t
      (locked_sync params keys height mtp blocks rate fee) (along_true _ steps _) hrun
  have hraw : Locks (raw (t.market, t.registry)) t.nameNotes := hlocked.now.less (less_raw _)
  exact hraw

/-- The buy is paid in block 105, its note is admitted and confirmed in block 106, and that block is
rolled back. -/
def soldReorg : List Step :=
  boughtSteps ++ [.block ⟨[], 60, [], [(.publicKeyHash (Vector.replicate 20 1), unitRate)]⟩,
    .tipPass sampleEnv,
    .block ⟨[successorTx 30 (.sale alice (sampleUa 2) .never
      ((NameNote.claim alice (sampleUa 1) .never).commitment Params.sample)) 50 51 143], 70, [], []⟩,
        .reorg 105 60]

/-- The sale and its order are open again, and nothing else is. -/
theorem open_buy_locks_reopened :
    ∃ t, run (Live.step Params.sample sampleKeys) heldSync soldReorg = some t ∧ t.market.names = [alice] ∧
      (t.nameNotes.orders.filter (NameNoteQueue.isUnresolvedFor alice)).length = 1 ∧
      ∀ sale ∈ t.market.sales.sales, ∀ o ∈ t.nameNotes.orders, o.unresolved = true →
        o.note.name = sale.name →
        o.note.action ≠ .claim → o.note = .sale sale.name sale.bob sale.term sale.held ∧
          sale.phase = .paid := by
  have hopen : (run (Live.step Params.sample sampleKeys) heldSync soldReorg).map (fun t =>
      (t.market.names, (t.nameNotes.orders.filter (NameNoteQueue.isUnresolvedFor alice)).length)) =
        some ([alice], 1) := by
    decide +kernel
  obtain ⟨t, ht, hopen⟩ := Option.map_eq_some_iff.mp hopen
  rw [Prod.mk.injEq] at hopen
  exact ⟨t, ht, hopen.1, hopen.2, open_buy_locks _ _ _ _ _ _ _ _ ht⟩

end ZnsMint.Live
