import ZnsMint.Note

/-! # What users say to the Treasury

Requests, listings, one-time passcodes and the memos that carry them, as `src/mint.rs`,
`src/mint/sale.rs` and `src/mint/treasury/otp.rs` declare them. A memo is classified once, at block
application, into a `MintInbound`. -/

namespace ZnsMint.Inbound

open ZnsMint.Basic ZnsMint.Note

/-! ### Listings -/

/-- A falling price. The start block quotes `startPrice`, the end block `minPrice`. -/
structure Clock where
  startPrice : Zatoshis
  minPrice : Zatoshis
  start : ℕ
  finish : ℕ
  deriving DecidableEq

namespace Clock

/-- The end is after the start, and the price falls. -/
def isValid (c : Clock) : Bool :=
  decide (c.start < c.finish) && decide (c.minPrice.val < c.startPrice.val)

/-- Whole-zatoshis fall. A height outside the span has no price. -/
def priceAt (c : Clock) (height : ℕ) : Option Zatoshis :=
  if !c.isValid || decide (height < c.start) || decide (c.finish < height) then none
  else
    Zatoshis.fromU64 (c.startPrice.val -
      (c.startPrice.val - c.minPrice.val) * (height - c.start) / (c.finish - c.start))

end Clock

/-- What the buyer pays. -/
inductive Ask where
  | flat (price : Zatoshis)
  | dutch (clock : Clock)
  deriving DecidableEq

/-- One listing per name. -/
structure Listing where
  name : Name
  ua : UnifiedAddress
  payTo : TransparentAddress
  ask : Ask
  deriving DecidableEq

/-- The listing is from the current owner, and the transparent address is the receiver on her
controller address. -/
def isOwnerListing (owner ua : UnifiedAddress) (payTo : TransparentAddress) : Bool :=
  owner == ua && owner.transparent == some payTo

/-- Why a list, delist, or buy did not change the market. -/
inductive MarketRefusal where
  | buyOpen
  | notOwner
  | notListed
  | inFlight
  | releaseDue
  | alreadyOpen
  | codeTaken
  | paymentTaken
  | early (start : ℕ)
  | held (til : ℤ)
  | badClock
  | ended
  deriving DecidableEq

/-! ### Requests, codes and memos -/

/-- A six-digit one-time passcode. -/
abbrev OtpCode := Fin 1000000

/-- A six-digit pre-sale code. -/
abbrev AccessCode := Fin 1000000

/-- A proposed transition, decoded from a Treasury memo. -/
inductive Request where
  | claim (name : Name) (ua : UnifiedAddress) (term : Term) (code : Option AccessCode)
  | update (name : Name) (ua : UnifiedAddress) (term : Option Term)
  | release (name : Name) (ua : UnifiedAddress)
  deriving DecidableEq

namespace Request

def name : Request → Name
  | claim n _ _ _ => n
  | update n _ _ => n
  | release n _ => n

def action : Request → Action
  | claim .. => .claim
  | update .. => .update
  | release .. => .release

def ua : Request → UnifiedAddress
  | claim _ u _ _ => u
  | update _ u _ => u
  | release _ u => u

end Request

/-- A mint-issued challenge to a wallet, and the wallet's answer, which returns it. -/
structure OtpMemo where
  code : OtpCode
  name : Name
  action : Action
  ua : UnifiedAddress
  listing : Option (TransparentAddress × Zatoshis)
  clock : Option (TransparentAddress × Clock)
  deriving DecidableEq

/-- An issued, pending challenge: the request it answers, and the code that answers it. -/
structure OtpChallenge where
  request : Request
  code : OtpCode
  expiresAt : ℤ
  attempts : ℕ
  deriving DecidableEq

/-- The controller-facing projection. -/
def OtpChallenge.memo (c : OtpChallenge) : OtpMemo where
  code := c.code
  name := c.request.name
  action := c.request.action
  ua := c.request.ua
  listing := none
  clock := none

/-- A list, delist, or buy, decoded before the market rules on it. -/
inductive MarketRequest where
  | list (listing : Listing)
  | delist (name : Name) (ua : UnifiedAddress)
  | buy (name : Name) (ua : UnifiedAddress)
  deriving DecidableEq

/-- What a user said to the Treasury, in the shape each consumer takes. -/
inductive MintInbound where
  | request (request : Request)
  | market (request : MarketRequest)
  | response (memo : OtpMemo)
  | unrecognized
  deriving DecidableEq

end ZnsMint.Inbound
