import ZnsMint.Live.Ground

/-! # The boot sync loop

What `src/boot.rs` does with the chain before the run loop starts: the same `apply_block` as the run loop,
the market's own steps, and of a block's arrivals the list, delist and buy memos and the answers to market
challenges. No queue exists yet, so no name is spoken for, no challenge is relayed and nothing is owed. -/

namespace ZnsMint.Live

open Basic Note Inbound Registry Lib.Machine

/-- One arrival of a block read from history. -/
def syncArrival (keys : Keys) (s : Live) (a : Arrival) : Live :=
  match a.inbound with
  | .response response =>
    if response.action.isList || response.action.isDelist || response.action.isAuction then
      let ((market, registry), _) := s.market.answer s.registry response s.tip
      { s with market := market, registry := registry }
    else s
  | .market request =>
    { s with market := (Market.admitRequest keys.toOtpKeys s.market a.payment.txid request
    a.paid s.registry
        s.marginalFee s.tip s.mtp fun _ => false).1 }
  | _ => s

/-- What follows `apply_block` before the arrivals. -/
def syncMarket (s : Live) : Live :=
  let (market, registry) := s.market.expire s.registry s.mtp s.tip
  let (market, registry) := market.reconcile registry s.tip
  { s with market := market, registry := registry }

/-- One block of the sync loop. -/
def syncBlock (params : Params) (keys : Keys) (s : Live) (b : Block) : Live :=
  (b.arrivals.foldl (syncArrival keys) (s.applyBlock params b).syncMarket).observePayments b.payments

/-- Where the loop starts: nothing is known above the origin. -/
def origin (height : ℕ) (mtp : ℤ) (rate marginalFee : Zatoshis) : Live :=
  ⟨height, mtp, .new, .new, .new, .new, .empty, .empty, .empty, rate, marginalFee, [], []⟩

/-- What boot hands to the run loop. The passcodes of the buys it read stay unsent. -/
def sync (params : Params) (keys : Keys) (height : ℕ) (mtp : ℤ) (blocks : List Block)
    (rate marginalFee : Zatoshis) : Live :=
  let s := blocks.foldl (syncBlock params keys) (origin height mtp rate marginalFee)
  { s with market := s.market.sealReplayedBuys }

variable {params : Params} {keys : Keys} {s t : Live}

/-! ### The tip and the queues -/

/-- The same chain, and no queue has changed. -/
structure Scanned (s t : Live) : Prop where
  sameTip : SameTip s t
  wallet : t.wallet = s.wallet
  challenges : t.challenges = s.challenges
  nameNotes : t.nameNotes = s.nameNotes
  requests : t.requests = s.requests
  refunds : t.refunds = s.refunds
  rates : t.rate = s.rate ∧ t.marginalFee = s.marginalFee
  log : t.log = s.log

theorem Scanned.of_market {m : Market} {r : Registry} (h : ListingsOnly s.registry r) :
    Scanned s { s with market := m, registry := r } :=
  ⟨⟨rfl, rfl, rfl, h⟩, rfl, rfl, rfl, rfl, rfl, ⟨rfl, rfl⟩, rfl⟩

theorem Scanned.trans {u : Live} (h : Scanned s t) (h' : Scanned t u) : Scanned s u where
  sameTip := h.sameTip.trans h'.sameTip
  wallet := h'.wallet.trans h.wallet
  challenges := h'.challenges.trans h.challenges
  nameNotes := h'.nameNotes.trans h.nameNotes
  requests := h'.requests.trans h.requests
  refunds := h'.refunds.trans h.refunds
  rates := ⟨h'.rates.1.trans h.rates.1, h'.rates.2.trans h.rates.2⟩
  log := h'.log.trans h.log

theorem scanned_syncArrival (keys : Keys) (s : Live) (a : Arrival) :
    Scanned s (s.syncArrival keys a) := by
  unfold syncArrival
  split
  · rename_i response _
    split_ifs
    · exact .of_market (.answer s.market s.registry response s.tip)
    · exact .of_market (.refl _)
  · exact .of_market (.refl _)
  · exact .of_market (.refl _)

theorem scanned_syncArrivals (keys : Keys) (l : List Arrival) (s : Live) :
    Scanned s (l.foldl (syncArrival keys) s) :=
  foldl_invariant (I := fun _ u => Scanned s u)
    (fun a _ u hu => hu.trans (scanned_syncArrival keys u a)) l s
    (.of_market (.refl _))

theorem scanned_syncMarket (s : Live) : Scanned s s.syncMarket :=
  let expired := s.market.expire s.registry s.mtp s.tip
  .of_market ((ListingsOnly.expire s.market s.registry s.mtp s.tip).trans
    (.reconcile expired.1 expired.2 s.tip))

theorem scanned_syncBlock (params : Params) (keys : Keys) (s : Live) (b : Block) :
    Scanned (s.applyBlock params b) (s.syncBlock params keys b) :=
  ((scanned_syncMarket _).trans (scanned_syncArrivals keys b.arrivals _)).trans (.of_market (.refl _))

end ZnsMint.Live
