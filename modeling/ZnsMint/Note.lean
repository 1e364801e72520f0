import ZnsMint.Basic

/-! # Name Notes

The transitions of a name (`src/mint/note.rs`): the four kinds of Name Note, the expiry and the term
they carry, and the commitment that identifies a note. The commitment is a hash of the transition's
fields, so two notes of the same content have the same commitment, whichever transaction carries
them. -/

namespace ZnsMint.Note

open ZnsMint.Basic

/-- ZNS action kinds. The last three are controller challenges of the market, never a Name Note. -/
inductive Action where
  | claim
  | update
  | release
  | sale
  | list
  | delist
  | auction
  deriving DecidableEq

namespace Action

/-- The canonical ASCII verb. -/
def asStr : Action → String
  | claim => "claim"
  | update => "update"
  | release => "release"
  | sale => "sale"
  | list => "list"
  | delist => "delist"
  | auction => "auction"

def isRelease (a : Action) : Bool := a == release
def isClaim (a : Action) : Bool := a == claim
def isUpdate (a : Action) : Bool := a == update
def isList (a : Action) : Bool := a == list
def isDelist (a : Action) : Bool := a == delist
def isAuction (a : Action) : Bool := a == auction

end Action

/-! ### Expiry and term -/

/-- A request term: `forever`, or a number of Julian years. -/
inductive Term where
  | forever
  | years (n : ℕ)
  deriving DecidableEq

/-- The longest single term. -/
def MAX_TERM_YEARS : ℕ := 99

/-- The term in seconds. Nothing reads the duration of `forever`. -/
def Term.duration : Term → ℤ
  | .forever => 0
  | .years n => n * LIVENESS_INTERVAL

/-- The expiry field of a transition: a fixed instant, or `none`. -/
inductive Expiry where
  | never
  | at (t : ℤ)
  deriving DecidableEq

namespace Expiry

/-- The canonical memo field. -/
def fieldBytes : Expiry → List UInt8
  | never => ascii "none"
  | .at t => decimalInt t

/-- The term has passed at `mtp`. -/
def expired : Expiry → ℤ → Bool
  | never, _ => false
  | .at t, mtp => decide (t ≤ mtp)

/-- The expiry before the horizon check of `extend`: no term carries it forward, `forever` converts a
fixed expiry, years are banked on top of it, and a forever name takes no term. -/
def extended : Expiry → Option Term → Option Expiry
  | e, none => some e
  | never, some _ => none
  | .at _, some .forever => some never
  | .at t, some term => (fromSeconds (t + term.duration)).map .at

/-- The successor expiry of an update. -/
def extend (e : Expiry) (term : Option Term) (mtp : ℤ) : Option Expiry :=
  match e.extended term with
  | none => none
  | some never => some never
  | some (.at t) => if mtp + MAX_TERM_YEARS * LIVENESS_INTERVAL < t then none else some (.at t)

end Expiry

/-- Claim expiry: `forever` never expires, years run from `mtp`. -/
def Term.claimExpiry (term : Term) (mtp : ℤ) : Option Expiry :=
  match term with
  | .forever => some .never
  | .years _ => (fromSeconds (mtp + term.duration)).map .at

/-! ### The notes -/

/-- A Name transition. Every action carries exactly its legal fields. -/
inductive NameNote where
  | claim (name : Name) (ua : UnifiedAddress) (expiresAt : Expiry)
  | update (name : Name) (ua : UnifiedAddress) (expiresAt : Expiry) (prev : NameCommitment)
  | release (name : Name) (ua : UnifiedAddress) (prev : NameCommitment)
  | sale (name : Name) (ua : UnifiedAddress) (expiresAt : Expiry) (prev : NameCommitment)
  deriving DecidableEq

namespace NameNote

def name : NameNote → Name
  | claim n _ _ => n
  | update n _ _ _ => n
  | release n _ _ => n
  | sale n _ _ _ => n

def action : NameNote → Action
  | claim .. => .claim
  | update .. => .update
  | release .. => .release
  | sale .. => .sale

def ua : NameNote → UnifiedAddress
  | claim _ u _ => u
  | update _ u _ _ => u
  | release _ u _ => u
  | sale _ u _ _ => u

/-- The committed expiration; absent only for a release. -/
def expiresAt : NameNote → Option Expiry
  | claim _ _ e => some e
  | update _ _ e _ => some e
  | release .. => none
  | sale _ _ e _ => some e

/-- The predecessor's commitment; absent only for a claim. -/
def prevRcm : NameNote → Option NameCommitment
  | claim .. => none
  | update _ _ _ p => some p
  | release _ _ p => some p
  | sale _ _ _ p => some p

end NameNote

/-! ### The commitment -/

/-- One field of the hash: its length in four bytes, then the field. -/
def absorb (b : List UInt8) : List UInt8 := leBytes 4 b.length ++ b

/-- What `tagged_zns_hash` feeds to BLAKE2b. -/
def znsPreimage (fieldTag verb name ua expiresAt prevRcm : List UInt8) : List UInt8 :=
  absorb (ascii "ZcashName/v1") ++ absorb fieldTag ++ absorb verb ++ absorb name ++ absorb ua ++
    absorb expiresAt ++ prevRcm

/-- The preimage of one note under a derivation tag. -/
def NameNote.preimage (params : Params) (fieldTag : List UInt8) (note : NameNote) : List UInt8 :=
  znsPreimage fieldTag (ascii note.action.asStr) note.name.bytes (params.encodeUa note.ua)
    (note.expiresAt.getD .never).fieldBytes
    ((note.prevRcm.map NameCommitment.toBytes).getD (List.replicate 32 0))

/-- The note's ZNS commitment: the digest under the tag `rcm`, reduced into the scalar field. -/
def NameNote.commitment (params : Params) (note : NameNote) : NameCommitment :=
  ⟨⟨params.blake2b (note.preimage params (ascii "rcm")) % PALLAS_ORDER,
    Nat.mod_lt _ (by decide)⟩⟩

/-! ### A small world for concrete runs -/

/-- Receivers written one after the other, a polynomial for a digest, and the expiry window before
NU7. -/
def Params.sample : Params where
  encodeUa ua := ua.orchard.elim [] Vector.toList ++ ua.sapling.elim [] Vector.toList ++
    ua.transparent.elim [] (fun t => t.hash.toList) ++ (ua.unknown.map Prod.snd).flatten
  blake2b b := b.foldl (fun acc x => (acc * 257 + x.toNat + 1) % 2 ^ 512) 0
  txExpiryDelta _ := 40

def alice : Name := ⟨ascii "alice", by decide⟩

def alicia : Name := ⟨ascii "alicia", by decide⟩

/-- A unified address with an Orchard receiver and a transparent one, both of one byte repeated. -/
def sampleUa (seed : UInt8) : UnifiedAddress :=
  ⟨some (Vector.replicate 43 seed), none, some (.publicKeyHash (Vector.replicate 20 seed)), []⟩

theorem NameNote.prevRcm_eq_none_iff (note : NameNote) :
    note.prevRcm = none ↔ note.action = .claim := by
  cases note <;> simp [NameNote.prevRcm, NameNote.action]

end ZnsMint.Note
