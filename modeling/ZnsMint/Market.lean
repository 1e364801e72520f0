import ZnsMint.Registry

/-! # The market

Listings, the buys against them, and the controller challenges that gate a listing (`src/mint/sale.rs`).
A buy holds its name from the passcode until it expires unpaid or the sale note lands. Every change is
logged as a `MarketEvent`; `Market.truncateTo` drops the events above a height and replays the rest. -/

namespace ZnsMint

open Basic Note Inbound

/-- Thirty minutes: how long a controller challenge and a flat quote stay open. -/
def D_OTP : ℤ := 1800

/-- Ten minutes. A clock quote stays payable for this long. -/
def D_DUTCH : ℤ := 600

/-- Wrong responses tolerated per challenge. -/
def MAX_ATTEMPTS : ℕ := 6

/-- The actions a withheld fee covers, at the node's rate. -/
def FEE_ACTIONS : ℕ := 100

/-! ### Sales -/

/-- The mint's reply to an intent. -/
structure BuyOtp where
  code : OtpCode
  name : Name
  ua : UnifiedAddress
  dutch : Option (Zatoshis × ℤ)
  deriving DecidableEq

/-- `value - price` equals the passcode read as zatoshis. -/
def paymentIsPricePlusOtp (value price : Zatoshis) (code : OtpCode) : Bool :=
  decide (price.val ≤ value.val) && value.val - price.val == code.val

/-- What a buyer pays in all. The sum of two amounts stays far inside 64 bits. -/
def paymentTotal (price : Zatoshis) (code : OtpCode) : ℕ := price.val + code.val

inductive Phase where
  | paying (code : OtpCode) (payTo : TransparentAddress) (price : Zatoshis) (expiresAt : ℤ)
      (relayed : Bool)
  | paid
  deriving DecidableEq

structure Sale where
  name : Name
  bob : UnifiedAddress
  alice : UnifiedAddress
  held : NameCommitment
  term : Expiry
  dutch : Bool
  til : ℤ
  phase : Phase
  deriving DecidableEq

/-- Open sales, one per name. -/
structure SaleQueue where
  sales : List Sale

namespace SaleQueue

def new : SaleQueue := ⟨[]⟩

def isOpen (q : SaleQueue) (name : Name) : Bool := q.sales.any fun s => s.name == name

def get (q : SaleQueue) (name : Name) : Option Sale := q.sales.find? fun s => s.name == name

/-- Opens a sale and returns the passcode to send. -/
def openSale (q : SaleQueue) (name : Name) (bob alice : UnifiedAddress) (payTo : TransparentAddress)
    (price : Zatoshis) (term : Expiry) (held : NameCommitment) (code : OtpCode) (dutch : Bool)
    (mtp : ℤ) : Option (SaleQueue × BuyOtp) :=
  if q.isOpen name then none
  else do
    let expiresAt ← fromSeconds (mtp + if dutch then D_DUTCH else D_OTP)
    return (⟨q.sales ++ [⟨name, bob, alice, held, term, dutch, expiresAt,
        .paying code payTo price expiresAt false⟩]⟩,
      ⟨code, name, bob, if dutch then some (price, expiresAt) else none⟩)

/-- Buy passcodes not yet submitted. -/
def unrelayed (q : SaleQueue) : List BuyOtp :=
  q.sales.filterMap fun s =>
    match s.phase with
    | .paying code _ price expiresAt false =>
      some ⟨code, s.name, s.bob, if s.dutch then some (price, expiresAt) else none⟩
    | _ => none

/-- A buy already open pays `payTo` the same total. -/
def samePayment (q : SaleQueue) (payTo : TransparentAddress) (price : Zatoshis) (code : OtpCode) :
    Bool :=
  q.sales.any fun s =>
    match s.phase with
    | .paying code' addr price' _ _ =>
      addr == payTo && paymentTotal price' code' == paymentTotal price code
    | .paid => false

/-- The passcode of one sale counts as sent. -/
def relay (s : Sale) : Sale :=
  match s.phase with
  | .paying code payTo price expiresAt _ => { s with phase := .paying code payTo price expiresAt true }
  | .paid => s

def relayed (q : SaleQueue) (name : Name) : SaleQueue :=
  ⟨q.sales.map fun s => if s.name = name then relay s else s⟩

def sealRelayed (q : SaleQueue) : SaleQueue := ⟨q.sales.map relay⟩

/-- The first unused payment that pays the named address the price and the code. -/
def findPayment (payments : List (TransparentAddress × Zatoshis)) (used : List Bool)
    (payTo : TransparentAddress) (price : Zatoshis) (code : OtpCode) : Option ℕ :=
  (payments.zip used).findIdx? fun p =>
    !p.2 && p.1.1 == payTo && paymentIsPricePlusOtp p.1.2 price code

/-- One turn of the loop of `observe`: the payment that settles this sale, with its code. -/
def observeOne (holder : Name → Option UnifiedAddress)
    (payments : List (TransparentAddress × Zatoshis)) (mtp : ℤ) (used : List Bool) (s : Sale) :
    Option (ℕ × OtpCode) :=
  match s.phase with
  | .paying code payTo price expiresAt _ =>
    if expiresAt ≤ mtp then none
    else if holder s.name ≠ some s.alice then none
    else (findPayment payments used payTo price code).map fun index => (index, code)
  | .paid => none

def observeLoop (holder : Name → Option UnifiedAddress)
    (payments : List (TransparentAddress × Zatoshis)) (mtp : ℤ) :
    List Bool → List Sale → List Sale × List (Name × OtpCode)
  | _, [] => ([], [])
  | used, s :: sales =>
    match observeOne holder payments mtp used s with
    | none =>
      let (sales', paid) := observeLoop holder payments mtp used sales
      (s :: sales', paid)
    | some (index, code) =>
      let (sales', paid) := observeLoop holder payments mtp (used.set index true) sales
      ({ s with phase := .paid } :: sales', (s.name, code) :: paid)

/-- Marks the sales the payments settle, and returns them with their codes. -/
def observe (q : SaleQueue) (holder : Name → Option UnifiedAddress)
    (payments : List (TransparentAddress × Zatoshis)) (mtp : ℤ) : SaleQueue × List (Name × OtpCode) :=
  let (sales, paid) := observeLoop holder payments mtp (List.replicate payments.length false) q.sales
  (⟨sales⟩, paid)

/-- The deadline on an open clock sale. -/
def dutchHold (q : SaleQueue) (name : Name) : Option ℤ :=
  (q.get name).bind fun s => if s.dutch then some s.til else none

def restore (q : SaleQueue) (s : Sale) : SaleQueue :=
  if q.isOpen s.name then q else ⟨q.sales ++ [s]⟩

/-- `mark_paid` on one sale. -/
def markPaidOne (name : Name) (code : OtpCode) (s : Sale) : Sale :=
  if s.name = name then
    match s.phase with
    | .paying code' .. => if code' = code then { s with phase := .paid } else s
    | .paid => s
  else s

def markPaid (q : SaleQueue) (name : Name) (code : OtpCode) : SaleQueue :=
  ⟨q.sales.map (markPaidOne name code)⟩

def close (q : SaleQueue) (name : Name) : SaleQueue :=
  ⟨q.sales.filter fun s => decide (s.name ≠ name)⟩

/-- The payment has matched and the sale note is still owed. -/
def isPaid (q : SaleQueue) (name : Name) : Bool :=
  q.sales.any fun s => s.name == name && s.phase == .paid

/-- The sale outlives `mtp`. -/
def unexpired (mtp : ℤ) (s : Sale) : Bool :=
  match s.phase with
  | .paying _ _ _ expiresAt _ => decide (mtp < expiresAt)
  | .paid => true

/-- What `retain` keeps of the sales, and the names it drops, in order. -/
def retain (q : SaleQueue) (keep : Sale → Bool) : SaleQueue × List Name :=
  (⟨q.sales.filter keep⟩, (q.sales.filter fun s => !keep s).map Sale.name)

/-- Drops an unpaid sale whose code has expired. -/
def expire (q : SaleQueue) (mtp : ℤ) : SaleQueue × List Name := q.retain (unexpired mtp)

/-- The captured note is still the live one. -/
def unmoved (live : Name → Option (UnifiedAddress × NameCommitment)) (s : Sale) : Bool :=
  match live s.name with
  | some (ua, commitment) => !(ua != s.alice || commitment != s.held)
  | none => false

/-- Drops a sale whose captured note is gone. -/
def reconcile (q : SaleQueue) (live : Name → Option (UnifiedAddress × NameCommitment)) :
    SaleQueue × List Name :=
  q.retain (unmoved live)

/-- The sale note owed for one sale. -/
def owedNote (registry : Registry) (s : Sale) : Option NameNote := do
  let record ← registry.record s.name
  if record.ua == s.bob || record.ua != s.alice || record.commitment != s.held then none
  else registry.saleTransfer s.name s.bob s.term s.held

/-- The sale is paid and its name is not spoken for, so that `poll` rules on it. -/
def pollable (pending : Name → Bool) (s : Sale) : Bool := s.phase == .paid && !pending s.name

/-- Signs every paid sale whose captured note is live, and drops the others. -/
def poll (q : SaleQueue) (registry : Registry) (pending : Name → Bool) :
    SaleQueue × List NameNote × List Name :=
  let (q', closed) := q.retain fun s => !pollable pending s || (owedNote registry s).isSome
  (q', (q.sales.filter (pollable pending)).filterMap (owedNote registry), closed)

end SaleQueue

/-! ### Challenges and events -/

inductive ChallengeKind where
  | list (listing : Listing)
  | delist (name : Name) (ua : UnifiedAddress)
  deriving DecidableEq

/-- A list or delist waiting for the controller's code. -/
structure MarketChallenge where
  kind : ChallengeKind
  code : OtpCode
  expiresAt : ℤ
  relayed : Bool
  attempts : ℕ
  deriving DecidableEq

namespace MarketChallenge

def name (c : MarketChallenge) : Name :=
  match c.kind with
  | .list l => l.name
  | .delist n _ => n

def ua (c : MarketChallenge) : UnifiedAddress :=
  match c.kind with
  | .list l => l.ua
  | .delist _ u => u

def action (c : MarketChallenge) : Action :=
  match c.kind with
  | .list l =>
    match l.ask with
    | .flat _ => .list
    | .dutch _ => .auction
  | .delist .. => .delist

def memo (c : MarketChallenge) : OtpMemo where
  code := c.code
  name := c.name
  action := c.action
  ua := c.ua
  listing :=
    match c.kind with
    | .list ⟨_, _, payTo, .flat price⟩ => some (payTo, price)
    | _ => none
  clock :=
    match c.kind with
    | .list ⟨_, _, payTo, .dutch clock⟩ => some (payTo, clock)
    | _ => none

def heldBy (c : MarketChallenge) (owner : UnifiedAddress) : Bool :=
  match c.kind with
  | .list l => isOwnerListing owner l.ua l.payTo
  | .delist _ ua => ua == owner

def sameList (c : MarketChallenge) (listing : Listing) : Bool :=
  match c.kind with
  | .list l => l == listing
  | .delist .. => false

def sameTerms (c : MarketChallenge) (response : OtpMemo) : Bool :=
  match c.kind with
  | .list ⟨_, _, payTo, .flat price⟩ => response.clock.isNone && response.listing == some (payTo, price)
  | .list ⟨_, _, payTo, .dutch clock⟩ => response.clock == some (payTo, clock)
  | .delist .. => response.listing.isNone && response.clock.isNone

def sameDelist (c : MarketChallenge) (name : Name) (ua : UnifiedAddress) : Bool :=
  match c.kind with
  | .delist n u => n == name && u == ua
  | .list _ => false

end MarketChallenge

inductive MarketEvent where
  | list (listing : Listing)
  | delist (name : Name)
  | opened (sale : Sale)
  | paid (name : Name) (code : OtpCode)
  | expire (name : Name)
  | close (name : Name)
  | challenge (challenge : MarketChallenge)
  | challengeClosed (code : OtpCode)

structure Stamped where
  height : ℕ
  event : MarketEvent

/-- The codes the mint derives from its key; each is an HMAC over a tag and its arguments. -/
structure OtpKeys where
  buyOtp : TxId → Name → OtpCode
  listOtp : TxId → Name → Zatoshis → TransparentAddress → OtpCode
  auctionOtp : TxId → Name → Clock → TransparentAddress → OtpCode
  delistOtp : TxId → Name → OtpCode

/-- An intent that did not win, and the sentence that goes back with it. -/
structure ReturnedIntent where
  recipient : UnifiedAddress
  name : Name
  note : List UInt8
  deriving DecidableEq

/-- What one market memo changed. -/
structure Admission where
  opened : Option Name
  returned : Option ReturnedIntent
  deriving DecidableEq

def returnedIntent (name : Name) (bob : UnifiedAddress) : MarketRefusal → Option ReturnedIntent
  | .held til => some ⟨bob, name, ascii "ZNS:held:" ++ name.bytes ++ ascii ":" ++ decimalInt til⟩
  | .early start => some ⟨bob, name, ascii "ZNS:wait:" ++ name.bytes ++ ascii ":" ++ decimal start⟩
  | _ => none

/-- A clock lists through its end block. -/
def clockReady (ask : Ask) (height : ℕ) : Except MarketRefusal Unit :=
  match ask with
  | .flat _ => .ok ()
  | .dutch clock =>
    if !clock.isValid then .error .badClock
    else if clock.finish < height then .error .ended else .ok ()

/-! ### The market -/

structure Market where
  sales : SaleQueue
  challenges : List MarketChallenge
  events : List Stamped

namespace Market

def new : Market := ⟨.new, [], []⟩

def names (m : Market) : List Name := m.sales.sales.map Sale.name

def isOpen (m : Market) (name : Name) : Bool := m.sales.isOpen name

def isPaid (m : Market) (name : Name) : Bool := m.sales.isPaid name

/-- False while a buy is open. -/
def allowsTransition (m : Market) (name : Name) : Bool := !m.sales.isOpen name

def relayed (m : Market) (name : Name) : Market := { m with sales := m.sales.relayed name }

def sealEvent : MarketEvent → MarketEvent
  | .opened sale => .opened (SaleQueue.relay sale)
  | e => e

/-- An unpaid buy read from the chain at startup stays payable and unsent. -/
def sealReplayedBuys (m : Market) : Market :=
  { m with
    sales := m.sales.sealRelayed
    events := m.events.map fun e => { e with event := sealEvent e.event } }

def record (m : Market) (height : ℕ) (event : MarketEvent) : Market :=
  { m with events := m.events ++ [⟨height, event⟩] }

def codeIsOpen (m : Market) (code : OtpCode) : Bool := m.challenges.any fun c => c.code == code

def pushChallenge (m : Market) (c : MarketChallenge) (height : ℕ) : Market :=
  { m.record height (.challenge c) with challenges := m.challenges ++ [c] }

def restoreChallenge (m : Market) (c : MarketChallenge) : Market :=
  if m.challenges.any fun held => held.code == c.code then m
  else { m with challenges := m.challenges ++ [c] }

def dropChallenge (m : Market) (code : OtpCode) : Market :=
  { m with challenges := m.challenges.filter fun c => decide (c.code ≠ code) }

def closeChallenge (height : ℕ) (m : Market) (code : OtpCode) : Market :=
  (m.dropChallenge code).record height (.challengeClosed code)

/-- Closes the challenges that `stale` accepts. -/
def closeChallengesWhere (m : Market) (stale : MarketChallenge → Bool) (height : ℕ) : Market :=
  ((m.challenges.filter stale).map MarketChallenge.code).foldl (closeChallenge height) m

def closeChallengesFor (m : Market) (name : Name) (height : ℕ) : Market :=
  m.closeChallengesWhere (fun c => c.name == name) height

/-- Records one event for each of a list. -/
def recordAll (m : Market) (height : ℕ) (events : List MarketEvent) : Market :=
  events.foldl (fun m e => m.record height e) m

def observe (m : Market) (holder : Name → Option UnifiedAddress)
    (payments : List (TransparentAddress × Zatoshis)) (mtp : ℤ) (height : ℕ) : Market :=
  let (sales, paid) := m.sales.observe holder payments mtp
  recordAll { m with sales := sales } height (paid.map fun p => .paid p.1 p.2)

/-- Drops unpaid sales and challenges whose time has passed, and a clock listing past its end. -/
def expire (m : Market) (registry : Registry) (mtp : ℤ) (height : ℕ) : Market × Registry :=
  let (registry, done) := registry.finishClocks height
  let m := m.recordAll height (done.map .delist)
  let (sales, dropped) := m.sales.expire mtp
  let m := recordAll { m with sales := sales } height (dropped.map .expire)
  (m.closeChallengesWhere (fun c => decide (c.expiresAt ≤ mtp)) height, registry)

/-- The challenge's controller is no longer the live record's. -/
def staleChallenge (registry : Registry) (c : MarketChallenge) : Bool :=
  match registry.record c.name with
  | some record => record.ua != c.ua
  | none => true

/-- Drops a listing whose owner no longer holds the name, a challenge whose controller no longer does,
and a sale whose captured note is no longer live. -/
def reconcile (m : Market) (registry : Registry) (height : ℕ) : Market × Registry :=
  let (registry, lost) := registry.reconcileListings
  let m := m.recordAll height (lost.map .delist)
  let m := m.closeChallengesWhere (staleChallenge registry) height
  let (sales, closed) := m.sales.reconcile fun name =>
    (registry.record name).map fun record => (record.ua, record.commitment)
  (recordAll { m with sales := sales } height (closed.map .close), registry)

/-- The replay of one event. -/
def replayEvent (s : Market × Registry) : MarketEvent → Market × Registry
  | .list listing => (s.1, s.2.restoreListing listing)
  | .delist name => (s.1, (s.2.removeListing name).1)
  | .opened sale => ({ s.1 with sales := s.1.sales.restore sale }, s.2)
  | .paid name code => ({ s.1 with sales := s.1.sales.markPaid name code }, s.2)
  | .expire name => ({ s.1 with sales := s.1.sales.close name }, s.2)
  | .close name => ({ s.1 with sales := s.1.sales.close name }, s.2)
  | .challenge c => (s.1.restoreChallenge c, s.2)
  | .challengeClosed code => (s.1.dropChallenge code, s.2)

/-- Drops entries from blocks above `height` and rebuilds the rest. -/
def truncateTo (m : Market) (registry : Registry) (height : ℕ) : Market × Registry :=
  let events := m.events.filter fun e => decide (e.height ≤ height)
  let (m', registry') := events.foldl (fun s e => replayEvent s e.event)
    ((⟨.new, [], []⟩ : Market), registry.clearListings)
  ({ m' with events := events }, registry')

def poll (m : Market) (registry : Registry) (pending : Name → Bool) (height : ℕ) :
    Market × List NameNote :=
  let (sales, notes, closed) := m.sales.poll registry pending
  (recordAll { m with sales := sales } height (closed.map .close), notes)

/-- Lists when the registry confirms the controller and no buy is open. -/
def list (m : Market) (registry : Registry) (listing : Listing) (height : ℕ) :
    Except MarketRefusal (Market × Registry) := do
  clockReady listing.ask height
  if m.sales.isOpen listing.name then .error .buyOpen
  else
    let registry ← registry.list listing
    return (m.record height (.list listing), registry)

/-- Delists when `ua` still owns the name and no buy is open. -/
def delist (m : Market) (registry : Registry) (name : Name) (ua : UnifiedAddress) (height : ℕ) :
    Except MarketRefusal (Market × Registry) := do
  if m.sales.isOpen name then .error .buyOpen
  else
    let registry ← registry.delist name ua
    return (m.record height (.delist name), registry)

/-- The address, the price and the kind of quote of the current listing. -/
def quoteFor (registry : Registry) (name : Name) (owner : UnifiedAddress) (height : ℕ) :
    Except MarketRefusal (TransparentAddress × Zatoshis × Bool) :=
  match registry.listing name with
  | none => .error .notListed
  | some listing =>
    if !isOwnerListing owner listing.ua listing.payTo then .error .notOwner
    else
      match listing.ask with
      | .flat price => .ok (listing.payTo, price, false)
      | .dutch clock =>
        if height < clock.start then .error (.early clock.start)
        else
          match clock.priceAt height with
          | none => .error .notListed
          | some price => .ok (listing.payTo, price, true)

/-- Opens a buy from the current listing. -/
def openBuy (m : Market) (registry : Registry) (name : Name) (bob owner : UnifiedAddress)
    (term : Expiry) (held : NameCommitment) (releaseDue notePending : Bool) (code : OtpCode)
    (mtp : ℤ) (height : ℕ) : Except MarketRefusal (Market × BuyOtp) :=
  if m.sales.isOpen name then
    match m.sales.dutchHold name with
    | some til => .error (.held til)
    | none => .error .alreadyOpen
  else do
    let (payTo, price, dutch) ← quoteFor registry name owner height
    if releaseDue then .error .releaseDue
    else if notePending then .error .inFlight
    else if m.sales.samePayment payTo price code then .error .paymentTaken
    else
      match m.sales.openSale name bob owner payTo price term held code dutch mtp with
      | none => .error .alreadyOpen
      | some (sales, otp) =>
        match sales.get name with
        | none => .error .alreadyOpen  -- unreachable: the sale was just opened
        | some sale =>
          return ((record { m with sales := sales } height (.opened sale)).closeChallengesFor name height,
            otp)

/-- Controller challenges not yet sent, while `owner` still holds the name on the terms each names. -/
def unrelayedChallenges (m : Market) (owner : Name → Option UnifiedAddress) : List OtpMemo :=
  ((m.challenges.filter fun c => !c.relayed && !m.sales.isOpen c.name).filter fun c =>
    (owner c.name).any c.heldBy).map MarketChallenge.memo

def challengeRelayed (m : Market) (code : OtpCode) : Market :=
  { m with challenges := m.challenges.map fun c => if c.code =
    code then { c with relayed := true } else c }

/-- The challenge that `propose_list` and `propose_delist` push. -/
def newChallenge (kind : ChallengeKind) (code : OtpCode) (mtp : ℤ) : MarketChallenge :=
  ⟨kind, code, mtp + D_OTP, false, 0⟩

/-- Records a list challenge. -/
def proposeList (m : Market) (listing : Listing) (owner : UnifiedAddress) (code : OtpCode) (mtp : ℤ)
    (height : ℕ) : Except MarketRefusal Market := do
  clockReady listing.ask height
  if !isOwnerListing owner listing.ua listing.payTo then .error .notOwner
  else if m.sales.isOpen listing.name then .error .buyOpen
  else if m.challenges.any fun c => c.sameList listing then return m
  else if m.codeIsOpen code then .error .codeTaken
  else return m.pushChallenge (newChallenge (.list listing) code mtp) height

/-- Records a delist challenge. -/
def proposeDelist (m : Market) (registry : Registry) (name : Name) (ua : UnifiedAddress)
    (code : OtpCode) (mtp : ℤ) (height : ℕ) : Except MarketRefusal Market :=
  if !(registry.record name).any (fun record => record.ua == ua) then .error .notOwner
  else if m.sales.isOpen name then .error .buyOpen
  else if (registry.listing name).isNone then .error .notListed
  else if m.challenges.any fun c => c.sameDelist name ua then .ok m
  else if m.codeIsOpen code then .error .codeTaken
  else .ok (m.pushChallenge (newChallenge (.delist name ua) code mtp) height)

/-- One turn of the loop that counts a wrong code against a challenge. -/
def answerMiss (height : ℕ) (m : Market) (index : ℕ) : Market :=
  let m := { m with challenges := m.challenges.modify index fun c =>
    { c with attempts := c.attempts + 1 } }
  match m.challenges[index]? with
  | none => m
  | some c => if MAX_ATTEMPTS ≤ c.attempts then closeChallenge height m c.code else m

/-- The challenge names what the response names. -/
def answers (response : OtpMemo) (c : MarketChallenge) : Bool :=
  c.name == response.name && c.ua == response.ua && c.action == response.action

/-- Applies a challenge that was answered, and that has just left the list. -/
def enactChallenge (m : Market) (registry : Registry) (kind : ChallengeKind) (height : ℕ) :
    Market × Registry :=
  match kind with
  | .list listing => (m.list registry listing height).toOption.getD (m, registry)
  | .delist name ua => (m.delist registry name ua height).toOption.getD (m, registry)

/-- Applies the challenge the response names, when the code matches. -/
def answer (m : Market) (registry : Registry) (response : OtpMemo) (height : ℕ) :
    (Market × Registry) × Bool :=
  if !response.action.isList && !response.action.isDelist && !response.action.isAuction then
    ((m, registry), false)
  else
    let named := (m.challenges.zipIdx.filter fun p => answers response p.1).map Prod.snd
    if named.isEmpty then ((m, registry), false)
    else
      match named.find? fun index =>
          (m.challenges[index]?).any fun c => c.code == response.code && c.sameTerms response with
      | some index =>
        match m.challenges[index]? with
        | none => ((m, registry), false)  -- unreachable: `named` holds indices of the list
        | some c =>
          let m := record { m with challenges := m.challenges.eraseIdx index } height
            (.challengeClosed c.code)
          if m.sales.isOpen c.name then ((m, registry), true)
          else (m.enactChallenge registry c.kind height, true)
      | none => ((named.reverse.foldl (answerMiss height) m, registry), false)

/-- The code of a list or auction challenge. -/
def listCode (keys : OtpKeys) (txid : TxId) (listing : Listing) : OtpCode :=
  match listing.ask with
  | .flat price => keys.listOtp txid listing.name price listing.payTo
  | .dutch clock => keys.auctionOtp txid listing.name clock listing.payTo

/-- Applies one list, delist, or buy. -/
def admitRequest (keys : OtpKeys) (m : Market) (txid : TxId) (request : MarketRequest) (paid : Zatoshis)
    (registry : Registry) (marginalFee : Zatoshis) (height : ℕ) (mtp : ℤ) (pending : Name → Bool) :
    Market × Admission :=
  let feeOk := (marginalFee.mul FEE_ACTIONS).any fun fee => decide (fee.val ≤ paid.val)
  match request with
  | .list listing =>
    match registry.record listing.name with
    | none => (m, ⟨none, none⟩)
    | some record =>
      if !feeOk || record.isReleaseDue mtp || pending listing.name then (m, ⟨none, none⟩)
      else
        let code := listCode keys txid listing
        ((m.proposeList listing record.ua code mtp height).toOption.getD m, ⟨none, none⟩)
  | .delist name ua =>
    if !(registry.record name).any (fun record => record.ua == ua) then (m, ⟨none, none⟩)
    else if !feeOk || pending name then (m, ⟨none, none⟩)
    else
      let code := keys.delistOtp txid name
      ((m.proposeDelist registry name ua code mtp height).toOption.getD m, ⟨none, none⟩)
  | .buy name bob =>
    match registry.record name with
    | none => (m, ⟨none, none⟩)
    | some record =>
      if !feeOk then (m, ⟨none, none⟩)
      else
        match m.openBuy registry name bob record.ua record.expiresAt record.commitment
            (record.isReleaseDue mtp) (pending name) (keys.buyOtp txid name) mtp height with
        | .ok (m, _) => (m, ⟨some name, none⟩)
        | .error refusal => (m, ⟨none, returnedIntent name bob refusal⟩)

end Market

end ZnsMint
