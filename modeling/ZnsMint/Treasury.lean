import ZnsMint.Market

/-! # The Treasury's queues

Controller challenges (`OtpQueue` in `src/mint/treasury/otp.rs`), requests waiting for a decision
(`RequestQueue` in `src/mint/treasury.rs`) and refunds due (`RefundQueue` in
`src/mint/treasury/refund.rs`). -/

namespace ZnsMint

open Basic Note Inbound

/-! ### Controller challenges -/

inductive ChallengeState where
  | requested
  | relayed
  deriving DecidableEq

/-- One entry of the queue. `relayedTo` is a ghost: the record whose address the challenge memo was
relayed to, which the mint does not keep and no operation reads. -/
structure OtpEntry where
  challenge : OtpChallenge
  state : ChallengeState
  relayedTo : Option NameRecord
  deriving DecidableEq

def OtpEntry.name (e : OtpEntry) : Name := e.challenge.request.name

/-- Issued challenges, in order. -/
structure OtpQueue where
  challenges : List OtpEntry
  deriving DecidableEq

namespace OtpQueue

def new : OtpQueue := ⟨[]⟩

/-- No open challenge that a response to `request` could also name has this code. -/
def codeFree (q : OtpQueue) (request : Request) (code : OtpCode) : Bool :=
  !q.challenges.any fun e =>
    e.challenge.request.name == request.name && e.challenge.request.action == request.action &&
      e.challenge.request.ua == request.ua && e.challenge.code == code

/-- Issues a challenge for `request` unless one is live. `draws` are the codes the generator gives,
in order; absent when none of them ends the loop. -/
def admitRequest (q : OtpQueue) (request : Request) (mtp : ℤ) (draws : List OtpCode) :
    Option OtpQueue :=
  if q.challenges.any fun e => e.challenge.request == request then some q
  else
    (draws.find? (q.codeFree request)).map fun code =>
      ⟨q.challenges ++ [⟨⟨request, code, mtp + D_OTP, 0⟩, .requested, none⟩]⟩

/-- The node accepted the memo of a challenge for `request`, sent to the address of `record`. -/
def challengeIssued (q : OtpQueue) (request : Request) (record : NameRecord) : OtpQueue :=
  ⟨q.challenges.map fun e =>
    if e.challenge.request = request then { e with state := .relayed, relayedTo := some record } else e⟩

/-- Challenges not yet relayed. -/
def requested (q : OtpQueue) : List OtpChallenge :=
  (q.challenges.filter fun e => e.state == .requested).map OtpEntry.challenge

/-- Drops every challenge whose window closed by `mtp`. -/
def expire (q : OtpQueue) (mtp : ℤ) : OtpQueue :=
  ⟨q.challenges.filter fun e => decide (mtp < e.challenge.expiresAt)⟩

/-- Drops every challenge for `name`. -/
def dropChallenges (q : OtpQueue) (name : Name) : OtpQueue :=
  ⟨q.challenges.filter fun e => decide (e.name ≠ name)⟩

/-- The challenge was relayed, and is for what the response names. -/
def named (response : OtpMemo) (e : OtpEntry) : Bool :=
  e.state == .relayed && e.challenge.request.name == response.name &&
    e.challenge.request.action == response.action && e.challenge.request.ua == response.ua

/-- A wrong code counts against one challenge. -/
def missed (e : OtpEntry) : OtpEntry :=
  { e with challenge := { e.challenge with attempts := e.challenge.attempts + 1 } }

/-- What `complete` keeps of one challenge after a wrong code. -/
def missOne (response : OtpMemo) (e : OtpEntry) : Option OtpEntry :=
  if !named response e then some e
  else if e.challenge.code = response.code then some e
  else if e.challenge.attempts + 1 < MAX_ATTEMPTS then some (missed e) else none

/-- The right code removes and returns its challenge. A wrong one counts against every challenge the
response names. -/
def complete (q : OtpQueue) (response : OtpMemo) : OtpQueue × Option OtpEntry :=
  let right := fun e => named response e && e.challenge.code == response.code
  match q.challenges.find? right with
  | some e => (⟨q.challenges.eraseP right⟩, some e)
  | none => (⟨q.challenges.filterMap (missOne response)⟩, none)

end OtpQueue

/-! ### Requests -/

/-- A request waiting for its decision: what the memo said, what it paid, the block that carried it. -/
structure PendingRequest where
  payment : PaymentRef
  request : Request
  paid : Zatoshis
  height : ℕ
  deriving DecidableEq

structure RequestQueue where
  requests : List PendingRequest
  deriving DecidableEq

namespace RequestQueue

def empty : RequestQueue := ⟨[]⟩

def record (q : RequestQueue) (e : PendingRequest) : RequestQueue := ⟨q.requests ++ [e]⟩

/-- The request is decided; every entry of its transaction leaves. -/
def resolved (q : RequestQueue) (txid : TxId) : RequestQueue :=
  ⟨q.requests.filter fun e => decide (e.payment.txid ≠ txid)⟩

/-- Reorg: entries whose block was orphaned fall with it. -/
def truncateTo (q : RequestQueue) (ancestor : ℕ) : RequestQueue :=
  ⟨q.requests.filter fun e => decide (e.height ≤ ancestor)⟩

end RequestQueue

/-! ### Refunds -/

/-- `paid` minus the withheld fee, when that remainder is positive. -/
def refundOutput (paid marginalFee : Zatoshis) : Option Zatoshis := do
  let fee ← marginalFee.mul FEE_ACTIONS
  (paid.sub fee).filter fun output => decide (0 < output.val)

/-- One percent of `price`, rounded down. -/
def accessCodePenalty (price : Zatoshis) : Zatoshis := price.div 100

/-- One refund due. -/
structure RefundRequest where
  payment : PaymentRef
  recipient : UnifiedAddress
  amount : Zatoshis
  name : Name
  height : ℕ
  note : Option (List UInt8)
  deriving DecidableEq

/-- The entry as the mint stores it, which keeps of the payment its transaction alone. -/
def RefundRequest.key (r : RefundRequest) :
    TxId × UnifiedAddress × Zatoshis × Name × ℕ × Option (List UInt8) :=
  (r.payment.txid, r.recipient, r.amount, r.name, r.height, r.note)

/-- Refunds due, in admission order. -/
structure RefundQueue where
  refundsDue : List RefundRequest
  deriving DecidableEq

namespace RefundQueue

def empty : RefundQueue := ⟨[]⟩

/-- Owes `recipient` what `refundable` leaves after the withheld fee, with a sentence. -/
def admitWithNote (q : RefundQueue) (marginalFee : Zatoshis) (payment : PaymentRef)
    (recipient : UnifiedAddress) (name : Name) (height : ℕ) (refundable : Zatoshis)
    (note : Option (List UInt8)) : RefundQueue :=
  match refundOutput refundable marginalFee with
  | none => q
  | some amount => ⟨q.refundsDue ++ [⟨payment, recipient, amount, name, height, note⟩]⟩

/-- The refunds whose payment is below `tip`. -/
def due (q : RefundQueue) (tip : ℕ) : List RefundRequest :=
  q.refundsDue.filter fun r => decide (r.height < tip)

/-- The entry that equals `built`, the one that `paid` removes. -/
def settledBy (q : RefundQueue) (built : RefundRequest) : Option RefundRequest :=
  q.refundsDue.find? fun r => r.key == built.key

/-- `built` is built and `submit` said that the node accepted it: the first entry equal to it leaves. -/
def paid (q : RefundQueue) (built : RefundRequest) : RefundQueue :=
  ⟨q.refundsDue.eraseP fun r => r.key == built.key⟩

/-- Reorg: refunds whose payment's block was orphaned fall with it. -/
def truncateTo (q : RefundQueue) (ancestor : ℕ) : RefundQueue :=
  ⟨q.refundsDue.filter fun r => decide (r.height ≤ ancestor)⟩

end RefundQueue

end ZnsMint
