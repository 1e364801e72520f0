import ZnsMint.OrderBook
import ZnsMint.Pricing
import ZnsMint.RegistryWallet
import ZnsMint.Treasury
import ZnsMint.Zebra

/-! # The live loop

The run loop of `src/main.rs` as a state machine. Its state is what the loop owns between two awaits: the
applied tip, the registry, the wallet's Registry notes, the market and the four queues. A step is one
applied block, one tip pass, a tip pass that was skipped after the price round, or a reorg. What the loop
asks of the node and of the generator is an input of the step: which memos were accepted, what the node
did and answered at each attempt to send a transaction, which codes were drawn, the fee rate and the next
published rate.

`chain` and `log` are ghosts. The first keeps the blocks of the applied chain, the second what happened
that leaves no trace in the loop's own state: which record a code spent, which order a look-up by name
acted on, which transactions and refunds the node took, whether or not the loop was told. No operation
reads either. -/

namespace ZnsMint

open Basic Note Inbound Registry Pricing

/-! ### Inputs -/

/-- One payment to the Treasury with the memo it carried, in the shape `apply_block` returns it. -/
structure Arrival where
  payment : PaymentRef
  inbound : MintInbound
  paid : Zatoshis
  deriving DecidableEq

/-- What the loop reads of one block: the transactions that touch the mint's keys, the median time past
after it, the Treasury payments and the transparent payments. -/
structure Block where
  txs : List (TxId × ScannedTx)
  mtp : ℤ
  arrivals : List Arrival
  payments : List (TransparentAddress × Zatoshis)
  deriving DecidableEq

/-- The mint's keys, by what it derives from them. -/
structure Keys extends OtpKeys where
  accessCode : Name → AccessCode

/-- A missing access code never matches. -/
def Keys.accepts (keys : Keys) (name : Name) (offered : Option AccessCode) : Bool :=
  offered == some (keys.accessCode name)

/-- What a tip pass asks of the world. `prepared` is the transaction `prepare` builds once the authority
is at hand, and `issued` the one `issue_refund` builds, absent where the fee is not funded or the builder
fails. `attempts` is what comes of sending a transaction, attempt by attempt; `txidFromHex` reads the id
in the node's answer. -/
structure TipEnv where
  rate : Zatoshis
  marginalFee : Zatoshis
  isProtected : Name → ℤ → Bool
  draws : PaymentRef → List OtpCode
  relayed : OtpMemo → Bool
  relayedBuy : BuyOtp → Bool
  prepared : NameNote → Option TxId
  issued : RefundRequest → Option TxId
  txidFromHex : List UInt8 → Option TxId
  attempts : TxId → List Zebra.Attempt

namespace TipEnv

/-- What the loop is told of a transaction it submits. Absent while the node has not decided. -/
def submit (env : TipEnv) (txid : TxId) : Option Bool :=
  Zebra.submit env.txidFromHex txid ((env.attempts txid).map Zebra.Attempt.answer)

/-- Whether the node has the transaction after that. -/
def takes (env : TipEnv) (txid : TxId) : Bool := Zebra.taken env.txidFromHex txid (env.attempts txid)

/-- The acceptance of the transaction was lost on the way back, and the resend was refused. -/
def Lost (env : TipEnv) (txid : TxId) : Prop := Zebra.Lost env.txidFromHex txid (env.attempts txid)

instance (env : TipEnv) (txid : TxId) : Decidable (env.Lost txid) :=
  inferInstanceAs (Decidable (Zebra.Lost env.txidFromHex txid (env.attempts txid)))

/-- The loop is told that the node took the refund. -/
def refundTold (env : TipEnv) (built : RefundRequest) : Bool :=
  (env.issued built).any fun txid => env.submit txid == some true

/-- The node takes the refund. -/
def refundTaken (env : TipEnv) (built : RefundRequest) : Bool := (env.issued built).any env.takes

/-- No acceptance of what the pass builds is lost. -/
def Heard (env : TipEnv) : Prop :=
  (∀ note txid, env.prepared note = some txid → ¬ env.Lost txid) ∧
    ∀ refund txid, env.issued refund = some txid → ¬ env.Lost txid

end TipEnv

/-! ### State -/

/-- A Name Note transaction the node took at `tip`, for an order of the queue. -/
structure Broadcast where
  txid : TxId
  order : Order
  authority : Nullifier
  expiry : ℕ
  tip : ℕ
  deriving DecidableEq

inductive Event where
  /-- A response authorized `note`, which spends the record `spent`. -/
  | authorized (note : NameNote) (spent relayedTo : Option NameRecord)
  /-- `mark_sent` or `drop_note` was called for `looked` and acted on `on`. -/
  | acted (looked on : Order)
  | broadcast (b : Broadcast)
  /-- The node took the transaction, and `submit` said it did not. -/
  | broadcastLost (b : Broadcast)
  /-- `submit` said that the node took a refund, and the entry of this payment left the queue. -/
  | refunded (payment : PaymentRef)
  /-- The node took a refund of this payment, and `submit` said it did not. -/
  | refundLost (payment : PaymentRef)
  deriving DecidableEq

structure Live where
  tip : ℕ
  mtp : ℤ
  registry : Registry
  wallet : RegistryWallet
  market : Market
  challenges : OtpQueue
  nameNotes : NameNoteQueue
  requests : RequestQueue
  refunds : RefundQueue
  rate : Zatoshis
  marginalFee : Zatoshis
  chain : List (ℕ × Block)
  log : List Event

namespace Live

def record (s : Live) (e : Event) : Live := { s with log := s.log ++ [e] }

/-- Owes a refund at the current fee rate. -/
def refund (s : Live) (payment : PaymentRef) (recipient : UnifiedAddress) (name : Name) (height : ℕ)
    (refundable : Zatoshis) (note : Option (List UInt8)) : Live :=
  { s with refunds :=
      s.refunds.admitWithNote s.marginalFee payment recipient name height refundable note }

/-- Admits an order that spends the name's record; the name's challenges go with it. -/
def admitTransition (s : Live) (note : NameNote) : Live :=
  let (q, admitted) := s.nameNotes.admitNote s.tip note none
  if admitted then { s with nameNotes := q, challenges := s.challenges.dropChallenges note.name } else s

/-! ### Applying a block -/

/-- The Name Notes the registry accepts from the transactions of a block. -/
def acceptedNotes (params : Params) (height : ℕ) (mtp : ℤ) :
    Registry → List (TxId × ScannedTx) → List (TxId × Nullifier)
  | _, [] => []
  | r, e :: txs =>
    let (r', accepted) := confirmTx params r e.2 height mtp
    (if accepted then e.2.notes.map fun c => (e.1, c.nullifier) else []) ++
      acceptedNotes params height mtp r' txs

/-- `apply_block`: the wallet, the registry and the clock move to the next height. -/
def applyBlock (params : Params) (s : Live) (b : Block) : Live :=
  let height := s.tip + 1
  { s with
    tip := height
    mtp := b.mtp
    registry := confirmBlock params s.registry (b.txs.map Prod.snd) height b.mtp
    wallet := (acceptedNotes params height b.mtp s.registry b.txs).foldl RegistryWallet.storeNameNote
      (s.wallet.putBlock b.txs height)
    chain := s.chain ++ [(height, b)] }

/-- A response that authorizes nothing goes back to the memo's address. -/
def returned (s : Live) (a : Arrival) (response : OtpMemo) : Live :=
  s.refund a.payment response.ua response.name s.tip a.paid none

/-- What is left to return once a transition is authorized: nothing for a term that the payment covers,
all of it without a term. Absent when the payment does not cover the term. -/
def restOf (s : Live) (request : Request) (paid : Zatoshis) : Option Zatoshis :=
  match request with
  | .update name _ (some term) =>
    ((quoteAt s.rate name term).filter fun price => decide (price.val ≤ paid.val)).map
      fun _ => Zatoshis.zero
  | _ => some paid

/-- The transition law of the request a code answers. A claim has none. -/
def authorize (s : Live) (challenge : OtpChallenge) : Option NameNote :=
  match challenge.request with
  | .update .. => s.registry.authorizeUpdate challenge s.mtp
  | .release .. => s.registry.authorizeRelease challenge
  | .claim .. => none

/-- The right code was returned: rule on the transition at this block. -/
def enactResponse (s : Live) (a : Arrival) (response : OtpMemo) (sent : OtpEntry) : Live :=
  match s.restOf sent.challenge.request a.paid with
  | none => s.returned a response
  | some rest =>
    if s.nameNotes.notePending sent.name then s.returned a response
    else if sent.challenge.request.action.isClaim then s
    else
      match s.authorize sent.challenge with
      | none => s.returned a response
      | some note =>
        let s := (s.record (.authorized note (s.registry.record sent.name)
          sent.relayedTo)).admitTransition note
        if 0 < rest.val then s.refund a.payment response.ua sent.name s.tip rest none else s

def respond (s : Live) (a : Arrival) (response : OtpMemo) : Live :=
  if response.action.isList || response.action.isDelist || response.action.isAuction then
    let ((market, registry), _) := s.market.answer s.registry response s.tip
    { s with market := market, registry := registry }.returned a response
  else if !s.market.allowsTransition response.name then
    { s with challenges := s.challenges.dropChallenges response.name }.returned a response
  else
    match s.challenges.complete response with
    | (challenges, none) => { s with challenges := challenges }.returned a response
    | (challenges, some sent) => { s with challenges := challenges }.enactResponse a response sent

/-- One market memo. -/
def admitMarket (keys : Keys) (s : Live) (a : Arrival) (request : MarketRequest) : Live :=
  let (market, admitted) := Market.admitRequest keys.toOtpKeys s.market a.payment.txid request a.paid
    s.registry s.marginalFee s.tip s.mtp s.nameNotes.notePending
  let s := { s with
    market := market
    challenges := admitted.opened.elim s.challenges s.challenges.dropChallenges }
  match admitted.returned with
  | some back => s.refund a.payment back.recipient back.name s.tip a.paid (some back.note)
  | none => s

/-- One arrival of the block just applied. -/
def arrive (keys : Keys) (s : Live) (a : Arrival) : Live :=
  match a.inbound with
  | .market request => s.admitMarket keys a request
  | .request request =>
    { s with requests := s.requests.record ⟨a.payment, request, a.paid, s.tip⟩ }
  | .response response => s.respond a response
  | .unrecognized => s

/-- What follows `apply_block` before the arrivals: orders, challenges and the market meet the block. -/
def meetBlock (params : Params) (s : Live) : Live :=
  let (market, registry) := s.market.expire s.registry s.mtp s.tip
  let (market, registry) := market.reconcile registry s.tip
  { s with
    nameNotes := s.nameNotes.reconcileSeen params s.registry
    challenges := s.challenges.expire s.mtp
    market := market
    registry := registry }

def observePayments (s : Live) (payments : List (TransparentAddress × Zatoshis)) : Live :=
  { s with market :=
      s.market.observe (fun name => (s.registry.record name).map NameRecord.ua) payments s.mtp s.tip }

/-- One block of the catch-up loop. -/
def block (params : Params) (keys : Keys) (s : Live) (b : Block) : Live :=
  (b.arrivals.foldl (arrive keys) ((s.applyBlock params b).meetBlock params)).observePayments b.payments

/-! ### The tip pass: deciding requests -/

inductive Ruling where
  | keep
  | refund (refundable : Zatoshis)
  | claim (note : NameNote)
  | challenge
  deriving DecidableEq

/-- The ruling on a claim at the rate its request was first seen at. -/
def ruleClaim (keys : Keys) (env : TipEnv) (rate : Zatoshis) (s : Live) (name : Name)
    (ua : UnifiedAddress) (term : Term) (code : Option AccessCode) (paid : Zatoshis) : Ruling :=
  let isProtected := env.isProtected name s.mtp
  if isProtected && code.isNone then .refund paid
  else
    match quoteAt rate name term with
    | none => .keep
    | some price =>
      if paid.val < price.val then .refund paid
      else if isProtected && !keys.accepts name code then
        .refund ((paid.sub (accessCodePenalty price)).getD .zero)
      else
        match s.registry.authorizeClaim name ua term s.mtp with
        | none => if !s.registry.isAvailable name then .refund paid else .keep
        | some note => .claim note

/-- The ruling on an update or a release: whether it earns a challenge. -/
def ruleChallenge (s : Live) (request : Request) (paid : Zatoshis) : Ruling :=
  if !s.market.allowsTransition request.name then .keep
  else if (s.registry.authorizeChallenge s.nameNotes request (s.tip + 1) s.mtp).isNone then .keep
  else if (s.marginalFee.mul FEE_ACTIONS).all fun fee => decide (paid.val < fee.val) then .keep
  else .challenge

def rule (keys : Keys) (env : TipEnv) (rate : Zatoshis) (s : Live) (e : PendingRequest) : Ruling :=
  match e.request with
  | .claim name ua term code => s.ruleClaim keys env rate name ua term code e.paid
  | request => s.ruleChallenge request e.paid

/-- Carries a ruling out. Absent when the code generator has not ended. -/
def enact (env : TipEnv) (s : Live) (e : PendingRequest) : Ruling → Option Live
  | .keep => some s
  | .refund refundable =>
    some (s.refund e.payment e.request.ua e.request.name e.height refundable none)
  | .claim note =>
    let (q, admitted) := s.nameNotes.admitNote e.height note (some e.payment)
    if admitted then
      some { s with nameNotes := q, challenges := s.challenges.dropChallenges e.request.name }
    else some (s.refund e.payment e.request.ua e.request.name e.height e.paid none)
  | .challenge =>
    (s.challenges.admitRequest e.request s.mtp (env.draws e.payment)).map fun q =>
      { s with challenges := q }

/-- One turn of the deciding loop. -/
def decideOne (keys : Keys) (env : TipEnv) (rate : Zatoshis) (s : Live) (e : PendingRequest) :
    Option Live :=
  let s := { s with requests := s.requests.resolved e.payment.txid }
  s.enact env e (s.rule keys env rate e)

/-! ### The tip pass: relaying and sending -/

/-- One requested challenge, sent to the controller's address. -/
def relayOne (env : TipEnv) (s : Live) (pending : OtpChallenge) : Live :=
  if !s.market.allowsTransition pending.request.name then s
  else
    match s.registry.authorizeChallenge s.nameNotes pending.request (s.tip + 1) s.mtp with
    | none => s
    | some record =>
      if env.relayed pending.memo then
        { s with challenges := s.challenges.challengeIssued pending.request record }
      else s

/-- The market's own challenges and passcodes. -/
def relayMarket (env : TipEnv) (s : Live) : Live :=
  let owner := fun name =>
    (s.registry.challengeable s.nameNotes name (s.tip + 1) s.mtp).map NameRecord.ua
  let market := (s.market.unrelayedChallenges owner).foldl
    (fun m memo => if env.relayed memo then m.challengeRelayed memo.code else m) s.market
  let market := market.sales.unrelayed.foldl
    (fun m otp => if env.relayedBuy otp then m.relayed otp.name else m) market
  { s with market := market }

/-- Paid sales are signed. -/
def pollSales (s : Live) : Live :=
  let (market, notes) := s.market.poll s.registry s.nameNotes.notePending s.tip
  notes.foldl admitTransition { s with market := market }

/-- `drop_note` for the order the loop looks at. Absent where the source panics. -/
def dropOrder (s : Live) (looked : Order) : Option Live := do
  let on ← s.nameNotes.orders.find? (NameNoteQueue.isUnresolvedFor looked.note.name)
  let q ← s.nameNotes.dropNote looked.note.name
  return { s with nameNotes := q }.record (.acted looked on)

/-- Drops an update of a name that the tip median would already release. -/
def dropDueOne (s : Live) (looked : Order) : Option Live :=
  if looked.note.action.isUpdate &&
      (s.registry.record looked.note.name).any (fun record => record.isReleaseDue s.mtp) then
    s.dropOrder looked
  else some s

/-- One lifecycle release. -/
def admitRelease (s : Live) (e : Name × NameNote) : Live :=
  if s.nameNotes.notePending e.1 || !s.market.allowsTransition e.1 then s else s.admitTransition e.2

/-- The node accepted the transaction: the wallet and the queue record it. Absent where the source
panics. -/
def markOrder (s : Live) (looked : Order) (txid : TxId) (authority : Nullifier) (expiry : ℕ) :
    Option Live := do
  let on ← s.nameNotes.orders.find? (NameNoteQueue.isAuthorizedFor looked.note.name)
  let q ← s.nameNotes.markSent looked.note.name expiry
  return ({ s with nameNotes := q, wallet := s.wallet.recordSent txid expiry authority }.record
    (.acted looked on)).record (.broadcast ⟨txid, looked, authority, expiry, s.tip⟩)

/-- Builds and submits the transaction of an order with its authority. The authority has to be
spendable at the tip, and the transaction expires one window after the height it is built for. Absent
where the source panics or the submission has not ended. -/
def submit (params : Params) (env : TipEnv) (s : Live) (looked : Order) (authority : Nullifier) :
    Option Live :=
  if !s.wallet.unspentNote authority s.tip then some s
  else
    match env.prepared looked.note with
    | none => some s
    | some txid =>
      let expiry := s.tip + 1 + params.txExpiryDelta (s.tip + 1)
      match env.submit txid with
      | none => none
      | some true => s.markOrder looked txid authority expiry
      -- the order will retry, also where the node has the transaction
      | some false =>
        some (if env.takes txid then s.record
          (.broadcastLost ⟨txid, looked, authority, expiry, s.tip⟩) else s)

/-- One authorized order: a claim spends an anchor, any other the name's own note. -/
def sendOne (params : Params) (env : TipEnv) (s : Live) (looked : Order) : Option Live :=
  if looked.note.action.isClaim then
    if !s.registry.isAvailable looked.note.name then s.dropOrder looked
    else
      match s.registry.spendableClaimAnchor fun nf => s.wallet.unspentNote nf s.tip with
      | none => some s
      | some authority => s.submit params env looked authority
  else
    match (s.registry.record looked.note.name).bind fun record => record.nullifier looked.note with
    | none => s.dropOrder looked
    | some authority => s.submit params env looked authority

/-- One refund due. The entry that leaves is the first one equal to the refund that was built. Absent
where the submission has not ended. -/
def payOne (env : TipEnv) (s : Live) (built : RefundRequest) : Option Live :=
  match env.issued built with
  | none => some s
  | some txid =>
    match env.submit txid with
    | none => none
    | some true => some ({ s with refunds := s.refunds.paid built }.record
        (.refunded ((s.refunds.settledBy built).getD built).payment))
    -- the refund stays due, also where the node has the transaction
    | some false => some (if env.takes txid then s.record (.refundLost built.payment) else s)

/-! ### The steps of the loop -/

/-- The rule pass at the applied tip. The requests are priced at the rate that stood before the price
round. Absent where the source panics, or a code generator or a submission has not ended. -/
def tipPass (params : Params) (keys : Keys) (env : TipEnv) (s : Live) : Option Live := do
  let rate := s.rate
  let s := { s with rate := env.rate, marginalFee := env.marginalFee }
  let s ← s.requests.requests.foldlM (decideOne keys env rate) s
  let s := s.challenges.requested.foldl (relayOne env) s
  let s := (s.relayMarket env).pollSales
  let s := { s with nameNotes := s.nameNotes.expireSent s.tip }
  let s ← s.nameNotes.authorizedOrders.foldlM dropDueOne s
  let s := (s.registry.releasesDue s.mtp).foldl admitRelease s
  let s ← s.nameNotes.authorizedOrders.foldlM (sendOne params env) s
  (s.refunds.due s.tip).foldlM (payOne env) s

/-- The rewind to the height the wallet committed, with the median time past at that height. -/
def reorg (params : Params) (s : Live) (rewound : ℕ) (mtp : ℤ) : Live :=
  let (market, registry) := s.market.truncateTo (s.registry.truncateToHeight rewound) rewound
  let (market, registry) := market.expire registry mtp rewound
  { s with
    tip := rewound
    mtp := mtp
    wallet := s.wallet.truncateTo rewound
    registry := registry
    challenges := .new
    market := market
    nameNotes := (s.nameNotes.rewindTo rewound).reconcileSeen params registry
    requests := s.requests.truncateTo rewound
    refunds := s.refunds.truncateTo rewound
    chain := s.chain.filter fun e => decide (e.1 ≤ rewound) }

/-- One step of the loop. -/
inductive Step where
  | block (b : Block)
  | tipPass (env : TipEnv)
  /-- The price round was taken and the rules were skipped. -/
  | skipped (rate : Zatoshis)
  /-- The ancestor walk ended below the applied tip. -/
  | reorg (rewound : ℕ) (mtp : ℤ)

def step (params : Params) (keys : Keys) (s : Live) : Step → Option Live
  | .block b => some (s.block params keys b)
  | .tipPass env => s.tipPass params keys env
  | .skipped rate => some { s with rate := rate }
  | .reorg rewound mtp => some (if rewound < s.tip then s.reorg params rewound mtp else s)

/-- What boot hands to the loop: the chain applied block by block from below `origin`, the market and
the listings it rebuilt, and empty queues. -/
def boot (params : Params) (origin : ℕ) (mtp : ℤ) (blocks : List Block) (market : Market)
    (listings : NameMap Listing) (rate marginalFee : Zatoshis) : Live :=
  let s := blocks.foldl (applyBlock params)
    ⟨origin, mtp, .new, .new, market, .new, .empty, .empty, .empty, rate, marginalFee, [], []⟩
  { s with registry := { s.registry with listings := listings } }

/-! ### A small world for concrete runs -/

def sampleTxid (n : UInt8) : TxId := ⟨Vector.replicate 32 n⟩

def sampleKeys : Keys where
  buyOtp _ _ := ⟨1, by decide⟩
  listOtp _ _ _ _ := ⟨2, by decide⟩
  auctionOtp _ _ _ _ := ⟨3, by decide⟩
  delistOtp _ _ := ⟨4, by decide⟩
  accessCode _ := ⟨5, by decide⟩

/-- The code the generator draws. -/
def sampleCode : OtpCode := ⟨7, by decide⟩

/-- The keygen ceremony: one transaction that creates the anchors `0` to `39`. -/
def ceremonyBlock : Block :=
  ⟨[(sampleTxid 0, ⟨[], (List.range 40).map fun n => ⟨0, some ⟨n⟩⟩, [], 0⟩)], 0, [], []⟩

/-- A claim of `note` on the anchor `anchor`, succeeded by `successor`. -/
def claimTx (id : UInt8) (note : NameNote) (anchor nullifier successor expiry : ℕ) : TxId × ScannedTx :=
  (sampleTxid id, ⟨[⟨anchor⟩], [⟨0, some ⟨successor⟩⟩], [⟨note, ⟨nullifier⟩⟩], expiry⟩)

/-- A transaction that spends the note `spent` of a name for its successor `note`. -/
def successorTx (id : UInt8) (note : NameNote) (spent nullifier expiry : ℕ) : TxId × ScannedTx :=
  (sampleTxid id, ⟨[⟨spent⟩], [], [⟨note, ⟨nullifier⟩⟩], expiry⟩)

/-- A pass in which the node takes everything and no Name Note can be funded: names and fees are free of
charge. -/
def sampleEnv : TipEnv where
  rate := .zero
  marginalFee := .zero
  isProtected _ _ := false
  draws _ := [sampleCode]
  relayed _ := true
  relayedBuy _ := true
  prepared _ := none
  issued _ := some (sampleTxid 99)
  txidFromHex bytes := if h : bytes.toArray.size = 32 then some ⟨bytes.toArray, h⟩ else none
  attempts txid := [⟨.ok (some txid.bytes.toList), false⟩]

/-- Where everything is accepted, nothing is lost. -/
theorem heard_of_submit {env : TipEnv} (h : ∀ txid, env.submit txid = some true) : env.Heard := by
  have hnever : ∀ txid, ¬ env.Lost txid := by
    intro txid hlost
    have htold : env.submit txid = some false := (Zebra.lost_iff.mp hlost).1
    rw [h txid] at htold
    cases htold
  exact ⟨fun _ txid _ => hnever txid, fun _ txid _ => hnever txid⟩

theorem sampleEnv_submit (txid : TxId) : sampleEnv.submit txid = some true := by
  have hread : sampleEnv.txidFromHex txid.bytes.toList = some txid := by
    have hsize : txid.bytes.toList.toArray.size = 32 := by simp
    refine (dif_pos hsize).trans ?_
    rcases txid with ⟨⟨⟨bytes⟩, hbytes⟩⟩
    rfl
  have hsend : Zebra.sendTransaction sampleEnv.txidFromHex txid (.ok (some txid.bytes.toList)) =
      .ok .accepted :=
    if_pos hread
  show Zebra.submit sampleEnv.txidFromHex txid [.ok (some txid.bytes.toList)] = some true
  unfold Zebra.submit
  rw [hsend]

theorem sampleEnv_heard : sampleEnv.Heard := heard_of_submit sampleEnv_submit

/-- A pass in which the node takes every transaction at once, answers too late, and refuses the resend. -/
def lostEnv : TipEnv :=
  { sampleEnv with attempts := fun _ =>
      [⟨.error .timeout, true⟩, ⟨.error (.rpc ⟨-1, "inputs already spent"⟩), false⟩] }

def sampleBoot (blocks : List Block) : Live :=
  boot Params.sample 99 0 blocks .new ∅ .zero .zero

/-- One zatoshi for a dollar. -/
def unitRate : Zatoshis := ⟨1, by decide⟩

/-- The price of five letters for good at that rate. -/
def foreverPrice : Zatoshis := ⟨300, by decide⟩

/-- A claim of Alice's name for `ua`, paid in full. -/
def claimArrival (id : UInt8) (ua : UnifiedAddress) : Arrival :=
  ⟨⟨sampleTxid id, 0⟩, .request (.claim alice ua .forever none), foreverPrice⟩

end Live

end ZnsMint
