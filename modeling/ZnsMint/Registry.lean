import ZnsMint.Inbound
import ZnsMint.AnchorPool
import ZnsMint.NameNoteQueue
import ZnsMint.Lib.Rollback
import Mathlib.Data.Finset.Max

/-! # The registry

The name-chain state machine and the transition laws (`src/mint/registry.rs`), and the step of the
confirmation pass of `apply_block` (`src/mint.rs`) that offers it one scanned transaction. -/

namespace ZnsMint

open Basic Note Inbound

/-- One confirmed state in a name's chain. `predecessorNullifier` is the nullifier the note reveals
when it is next spent. -/
structure NameRecord where
  name : Name
  action : Action
  ua : UnifiedAddress
  expiresAt : Expiry
  commitment : NameCommitment
  confirmedHeight : ℕ
  releaseDeadline : ℤ
  predecessorNullifier : Nullifier
  deriving DecidableEq

namespace NameRecord

/-- The term test at `mtp`. -/
def hasExpired (r : NameRecord) (mtp : ℤ) : Bool := r.expiresAt.expired mtp

/-- The term lapsed or the liveness deadline reached at `mtp`. -/
def isReleaseDue (r : NameRecord) (mtp : ℤ) : Bool :=
  r.hasExpired mtp || decide (r.releaseDeadline ≤ mtp)

/-- The name's state as of `note` taking effect. The source panics where the deadline leaves the
range of `Timestamp`, which a 32-bit block time cannot reach. -/
def create (params : Params) (note : NameNote) (spent : Nullifier) (confirmedHeight : ℕ) (mtp : ℤ) :
    NameRecord where
  name := note.name
  action := note.action
  ua := note.ua
  expiresAt := note.expiresAt.getD .never
  commitment := note.commitment params
  confirmedHeight := confirmedHeight
  releaseDeadline := mtp + LIVENESS_INTERVAL
  predecessorNullifier := spent

/-- Both clocks live, and the trigger is newer than this record. -/
def isChallengeable (r : NameRecord) (triggerHeight : ℕ) (mtpNow : ℤ) : Bool :=
  !r.isReleaseDue mtpNow && decide (r.confirmedHeight < triggerHeight)

/-- The clock-and-verb check behind `authorize_challenge`. -/
def allowsChallenge (r : NameRecord) (request : Request) (triggerHeight : ℕ) (mtpNow : ℤ) : Bool :=
  r.isChallengeable triggerHeight mtpNow &&
    match request with
    | .update _ _ term => !(r.expiresAt == .never && term.isSome)
    | .release _ ua => ua == r.ua
    | .claim .. => false

/-- This record's nullifier, when `note` still names this exact state. -/
def nullifier (r : NameRecord) (note : NameNote) : Option Nullifier :=
  if some r.commitment = note.prevRcm then some r.predecessorNullifier else none

end NameRecord

/-- Name ownership and history, current listings, and the anchor pool. -/
@[ext]
structure Registry where
  records : NameMap NameRecord
  history : NameMap (List NameRecord)
  listings : NameMap Listing
  anchors : AnchorPool

namespace Registry

def new : Registry := ⟨∅, ∅, ∅, .empty⟩

/-! ### Reading the registry -/

def record (r : Registry) (name : Name) : Option NameRecord := r.records[name]?

/-- The confirmed record chain for a name, oldest first. -/
def recordHistory (r : Registry) (name : Name) : List NameRecord := (r.history[name]?).getD []

def isAvailable (r : Registry) (name : Name) : Bool := (r.record name).isNone

/-- The names whose current notes these nullifiers spend, in name order. -/
def namesSpentBy (r : Registry) (nfs : List Nullifier) : List Name :=
  (r.records.toList.filter fun e => nfs.contains e.2.predecessorNullifier).map Prod.fst

/-- The first anchor in pool order that `spendable` accepts: the least of them. -/
def spendableClaimAnchor (r : Registry) (spendable : Nullifier → Bool) : Option Nullifier :=
  let anchors := r.anchors.live.filter fun nf => spendable nf = true
  if h : anchors.Nonempty then some (anchors.min' h) else none

def listing (r : Registry) (name : Name) : Option Listing := r.listings[name]?

/-- The price a buyer would be quoted for an intent in `height`. -/
def quote (r : Registry) (name : Name) (height : ℕ) : Option Zatoshis :=
  (r.listing name).bind fun l =>
    match l.ask with
    | .flat price => some price
    | .dutch clock => clock.priceAt height

/-! ### Listings -/

def restoreListing (r : Registry) (l : Listing) : Registry :=
  { r with listings := r.listings.insert l.name l }

def removeListing (r : Registry) (name : Name) : Registry × Bool :=
  ({ r with listings := r.listings.erase name }, r.listings.contains name)

def clearListings (r : Registry) : Registry := { r with listings := ∅ }

/-- A clock listing leaves on the block after its end. -/
def clockDone (height : ℕ) (l : Listing) : Bool :=
  match l.ask with
  | .dutch clock => decide (clock.finish < height)
  | .flat _ => false

def finishClocks (r : Registry) (height : ℕ) : Registry × List Name :=
  ({ r with listings := r.listings.filter fun _ l => !clockDone height l },
    (r.listings.toList.filter fun e => clockDone height e.2).map Prod.fst)

/-- The controller named by a listing still holds the name. -/
def listingLive (r : Registry) (name : Name) (l : Listing) : Bool :=
  (r.record name).any fun record => record.ua == l.ua

/-- Remove listings whose controller no longer holds the name. -/
def reconcileListings (r : Registry) : Registry × List Name :=
  ({ r with listings := r.listings.filter fun name l => r.listingLive name l },
    (r.listings.toList.filter fun e => !r.listingLive e.1 e.2).map Prod.fst)

def list (r : Registry) (l : Listing) : Except MarketRefusal Registry :=
  match r.record l.name with
  | none => .error .notOwner
  | some owner =>
    if isOwnerListing owner.ua l.ua l.payTo then .ok (r.restoreListing l) else .error .notOwner

def delist (r : Registry) (name : Name) (ua : UnifiedAddress) : Except MarketRefusal Registry :=
  match r.record name with
  | none => .error .notOwner
  | some record =>
    if record.ua != ua then .error .notOwner
    else if (r.removeListing name).2 then .ok (r.removeListing name).1 else .error .notListed

/-! ### The transition laws -/

/-- The claim law. -/
def authorizeClaim (r : Registry) (name : Name) (ua : UnifiedAddress) (term : Term) (mtp : ℤ) :
    Option NameNote :=
  if !r.isAvailable name then none
  else (term.claimExpiry mtp).map fun expiresAt => .claim name ua expiresAt

/-- The update law: action, term, liveness. -/
def authorizeUpdate (r : Registry) (pending : OtpChallenge) (mtp : ℤ) : Option NameNote :=
  match pending.request with
  | .update name ua term => do
    let record ← r.record name
    if record.isReleaseDue mtp then none
    else
      let expiresAt ← record.expiresAt.extend term mtp
      return .update name ua expiresAt record.commitment
  | _ => none

/-- The release law: action, address. -/
def authorizeRelease (r : Registry) (pending : OtpChallenge) : Option NameNote :=
  match pending.request with
  | .release name ua => do
    let record ← r.record name
    if record.ua != ua then none else return .release name ua record.commitment
  | _ => none

/-- The note a sale signs, while `held` is still the live record. -/
def saleTransfer (r : Registry) (name : Name) (bob : UnifiedAddress) (expiresAt : Expiry)
    (held : NameCommitment) : Option NameNote := do
  let record ← r.record name
  if record.commitment != held then none else return .sale name bob expiresAt record.commitment

/-- The request gate. -/
def authorizeChallenge (r : Registry) (nameNotes : NameNoteQueue) (request : Request)
    (triggerHeight : ℕ) (mtpNow : ℤ) : Option NameRecord := do
  let record ← r.record request.name
  if nameNotes.notePending request.name then none
  else if record.allowsChallenge request triggerHeight mtpNow then return record else none

/-- The record a market challenge goes to, under the same gate. -/
def challengeable (r : Registry) (nameNotes : NameNoteQueue) (name : Name) (triggerHeight : ℕ)
    (mtpNow : ℤ) : Option NameRecord :=
  if nameNotes.notePending name then none
  else (r.record name).filter fun record => record.isChallengeable triggerHeight mtpNow

/-- Every live name whose term or liveness deadline has passed, with the release note it is owed. -/
def releasesDue (r : Registry) (mtp : ℤ) : List (Name × NameNote) :=
  (r.records.toList.filter fun e => e.2.isReleaseDue mtp).map fun e =>
    (e.1, .release e.1 e.2.ua e.2.commitment)

/-! ### Following the chain -/

def adoptAnchor (r : Registry) (height : ℕ) (nf : Nullifier) : Registry :=
  { r with anchors := r.anchors.adopt height nf }

def setRecord (r : Registry) (record : NameRecord) : Registry :=
  { r with
    history := r.history.insert record.name (r.recordHistory record.name ++ [record])
    records := if record.action.isRelease then r.records.erase record.name
      else r.records.insert record.name record }

/-- What `mark_released` writes over a live record. -/
def released (record : NameRecord) (height : ℕ) : NameRecord :=
  { record with action := .release, confirmedHeight := height }

/-- One turn of the loop of `mark_released`. -/
def markReleasedOne (height : ℕ) (r : Registry) (name : Name) : Registry :=
  match r.record name with
  | none => r
  | some record => r.setRecord (released record height)

/-- Marks every live name released whose current note these nullifiers spent. -/
def markReleased (r : Registry) (nfs : List Nullifier) (height : ℕ) : Registry :=
  (r.namesSpentBy nfs).foldl (markReleasedOne height) r

/-- A registry spend landed without a single usable Name Note. -/
def followSpends (r : Registry) (nfs : List Nullifier) (height : ℕ) : Registry :=
  { r with anchors := r.anchors.retireSpent nfs none height }.markReleased nfs height

/-- The claim's transaction sits inside the expiry window of the release it follows. -/
def builtBeforeRelease (params : Params) (r : Registry) (name : Name) (expiry : ℕ) : Bool :=
  match (r.recordHistory name).getLast? with
  | none => false
  | some latest =>
    latest.action.isRelease &&
      decide (expiry ≤ latest.confirmedHeight + params.txExpiryDelta latest.confirmedHeight)

/-- Offers a confirmed claim candidate. -/
def acceptClaim (params : Params) (r : Registry) (note : NameNote) (nullifier : Nullifier)
    (successor : Option Nullifier) (nfs : List Nullifier) (height : ℕ) (mtp : ℤ) (expiry : ℕ) :
    Registry × Bool :=
  let spent := nfs.filter r.anchors.contains
  let nameFree := (r.record note.name).isNone
  let builtAfterRelease := !builtBeforeRelease params r note.name expiry
  let seated := successor.filter fun _ =>
    spent.length == 1 && (r.namesSpentBy nfs).isEmpty && nameFree && builtAfterRelease
  let r' := { r with anchors := r.anchors.retireSpent nfs seated height }
  if successor.isNone || spent.length != 1 || !(r'.namesSpentBy nfs).isEmpty then
    (r'.markReleased nfs height, false)
  else if !nameFree then (r', false)
  else if !builtAfterRelease then (r', false)
  else (r'.setRecord (.create params note nullifier height mtp), true)

/-- The live predecessor this transaction spent, when it is this note's own current note. -/
def predecessorSpent (r : Registry) (note : NameNote) (nfs : List Nullifier) : Option NameRecord :=
  let spent := r.namesSpentBy nfs
  if spent.isEmpty then none
  else if nfs.any r.anchors.contains then none
  else if spent ≠ [note.name] then none
  else r.record note.name

/-- The name's live note was spent but no renewal lands. -/
def releasePredecessor (params : Params) (r : Registry) (name : Name) (record : NameRecord)
    (nullifier : Nullifier) (height : ℕ) (mtp : ℤ) : Registry :=
  r.setRecord (.create params (.release name record.ua record.commitment) nullifier height mtp)

/-- The body that `accept_update`, `accept_release` and `accept_sale` share. -/
def acceptSuccessor (params : Params) (r : Registry) (note : NameNote) (nullifier : Nullifier)
    (nfs : List Nullifier) (height : ℕ) (mtp : ℤ) : Registry × Bool :=
  match r.predecessorSpent note nfs with
  | none => (r.followSpends nfs height, false)
  | some record =>
    if note.prevRcm ≠ some record.commitment then
      (releasePredecessor params r note.name record nullifier height mtp, false)
    else (r.setRecord (.create params note nullifier height mtp), true)

def acceptUpdate (params : Params) (r : Registry) (note : NameNote) (nullifier : Nullifier)
    (nfs : List Nullifier) (height : ℕ) (mtp : ℤ) : Registry × Bool :=
  acceptSuccessor params r note nullifier nfs height mtp

def acceptRelease (params : Params) (r : Registry) (note : NameNote) (nullifier : Nullifier)
    (nfs : List Nullifier) (height : ℕ) (mtp : ℤ) : Registry × Bool :=
  acceptSuccessor params r note nullifier nfs height mtp

def acceptSale (params : Params) (r : Registry) (note : NameNote) (nullifier : Nullifier)
    (nfs : List Nullifier) (height : ℕ) (mtp : ℤ) : Registry × Bool :=
  acceptSuccessor params r note nullifier nfs height mtp

/-! ### One scanned transaction -/

/-- A zero-value or other output to the registry account. -/
structure RegistryOutput where
  value : ℕ
  nf : Option Nullifier
  deriving DecidableEq

/-- A Name Note the mint's keys opened in a transaction, with the nullifier it will reveal. -/
structure Candidate where
  payload : NameNote
  nullifier : Nullifier
  deriving DecidableEq

/-- What the confirmation pass reads of one transaction. -/
structure ScannedTx where
  nfs : List Nullifier
  registryOutputs : List RegistryOutput
  notes : List Candidate
  expiry : ℕ
  deriving DecidableEq

/-- The nullifiers of the zero-value registry outputs. -/
def ScannedTx.ceremony (tx : ScannedTx) : List Nullifier :=
  (tx.registryOutputs.filter fun o => o.value == 0).filterMap RegistryOutput.nf

/-- A backed claim creates exactly one zero-value registry output: its successor anchor. -/
def ScannedTx.successor (tx : ScannedTx) : Option Nullifier :=
  match tx.registryOutputs with
  | [o] => if o.value = 0 then o.nf else none
  | _ => none

/-- The ceremony fill, before the transaction's Name Notes are offered. -/
def adoptCeremony (r : Registry) (tx : ScannedTx) (height : ℕ) : Registry :=
  if AnchorPool.isCeremonyFill tx.ceremony.length tx.notes.length then
    tx.ceremony.foldl (fun r nf => r.adoptAnchor height nf) r
  else r

/-- The one Name Note of a transaction, by its kind; anything else is followed as a spend. -/
def dispatch (params : Params) (r : Registry) (tx : ScannedTx) (height : ℕ) (mtp : ℤ) :
    Registry × Bool :=
  match tx.notes with
  | [c] =>
    match c.payload with
    | .claim .. => acceptClaim params r c.payload c.nullifier tx.successor tx.nfs height mtp tx.expiry
    | .update .. => acceptUpdate params r c.payload c.nullifier tx.nfs height mtp
    | .release .. => acceptRelease params r c.payload c.nullifier tx.nfs height mtp
    | .sale .. => acceptSale params r c.payload c.nullifier tx.nfs height mtp
  | _ => (r.followSpends tx.nfs height, false)

/-- The confirmation pass on one transaction. -/
def confirmTx (params : Params) (r : Registry) (tx : ScannedTx) (height : ℕ) (mtp : ℤ) :
    Registry × Bool :=
  dispatch params (r.adoptCeremony tx height) tx height mtp

/-- The confirmation pass on the transactions of one block, in order. -/
def confirmBlock (params : Params) (r : Registry) (txs : List ScannedTx) (height : ℕ) (mtp : ℤ) :
    Registry :=
  txs.foldl (fun r tx => (confirmTx params r tx height mtp).1) r

/-! ### Rewinding -/

/-- Pops the records above `height`, and drops the chain when nothing is left. -/
def cutChain (height : ℕ) (records : List NameRecord) : Option (List NameRecord) :=
  let kept := records.rdropWhile fun record => decide (height < record.confirmedHeight)
  if kept.isEmpty then none else some kept

/-- The live record of a chain: the last one, unless it is a release. -/
def liveOf (records : List NameRecord) : Option NameRecord :=
  records.getLast?.filter fun record => !record.action.isRelease

/-- One turn of the rebuilding loop of `truncate_to_height`. -/
def rebuildOne (live : NameMap NameRecord) (e : Name × List NameRecord) : NameMap NameRecord :=
  match liveOf e.2 with
  | some record => live.insert record.name record
  | none => live

/-- The rebuild of the live map from the chains. -/
def rebuild (history : NameMap (List NameRecord)) : NameMap NameRecord :=
  history.toList.foldl rebuildOne ∅

/-- Truncates every name's chain to `height` and rebuilds the records live at that tip. -/
def truncateToHeight (r : Registry) (height : ℕ) : Registry :=
  let history := r.history.filterMap fun _ records => cutChain height records
  { records := rebuild history
    history := history
    listings := r.listings
    anchors := r.anchors.truncateTo height }

end Registry

end ZnsMint
