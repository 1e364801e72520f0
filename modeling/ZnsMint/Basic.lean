import Mathlib.Tactic

/-! # The data every faculty of the mint shares

Heights, amounts, addresses, names and the opaque identifiers of the chain, as `src/mint.rs` and the
crates it builds on define them. Block heights are natural numbers and timestamps whole seconds; an
amount of zatoshis and a name carry the bound their constructor checks, so that a value outside the
monetary range or outside the name grammar cannot be written.

What the mint takes from other crates and this development does not open (the text encoding of a
unified address, BLAKE2b, the expiry window of the network) is a field of `Params`. -/

namespace ZnsMint.Basic

/-- The ASCII bytes of a text. -/
def ascii (s : String) : List UInt8 := s.toList.map fun c => c.toNat.toUInt8

/-- The `k` low bytes of `n`, least significant first. -/
def leBytes : ℕ → ℕ → List UInt8
  | 0, _ => []
  | k + 1, n => (n % 256).toUInt8 :: leBytes k (n / 256)

/-- The number a run of bytes writes, least significant first. -/
def leValue : List UInt8 → ℕ
  | [] => 0
  | b :: s => b.toNat + 256 * leValue s

@[simp] theorem length_leBytes (k n : ℕ) : (leBytes k n).length = k := by
  induction k generalizing n with
  | zero => rfl
  | succ k ih => rw [leBytes, List.length_cons, ih]

theorem leValue_leBytes (k n : ℕ) : leValue (leBytes k n) = n % 256 ^ k := by
  induction k generalizing n with
  | zero => simp [leBytes, leValue, Nat.mod_one]
  | succ k ih =>
    have h : (n % 256).toUInt8.toNat = n % 256 := by
      simp only [Nat.toUInt8, UInt8.toNat_ofNat']
      omega
    rw [leBytes, leValue, ih, h, Nat.pow_succ', Nat.mod_mul]

theorem leBytes_leValue (s : List UInt8) : leBytes s.length (leValue s) = s := by
  induction s with
  | nil => rfl
  | cons b s ih =>
    have hb : b.toNat < 256 := b.toNat_lt
    have h : ((b.toNat + 256 * leValue s) % 256).toUInt8 = b := by
      apply UInt8.toNat_inj.mp
      simp only [Nat.toUInt8, UInt8.toNat_ofNat']
      omega
    rw [List.length_cons, leValue, leBytes, h, show (b.toNat + 256 * leValue s) / 256 =
      leValue s by omega, ih]

theorem leValue_lt (s : List UInt8) : leValue s < 256 ^ s.length := by
  have h := leValue_leBytes s.length (leValue s)
  rw [leBytes_leValue] at h
  rw [h]
  exact Nat.mod_lt _ (Nat.pow_pos (by decide))

/-- A number written in decimal. -/
def decimal (n : ℕ) : List UInt8 := (Nat.toDigits 10 n).map fun c => c.toNat.toUInt8

/-- A signed number written in decimal, as `i64::to_string`. -/
def decimalInt (n : ℤ) : List UInt8 :=
  if n < 0 then ascii "-" ++ decimal n.natAbs else decimal n.natAbs

/-! ### Heights, times and amounts -/

/-- The first and the last instant a `time::Timestamp` holds. -/
def TIMESTAMP_MIN : ℤ := -377705116800
def TIMESTAMP_MAX : ℤ := 253402300799

/-- `Timestamp::from_seconds`: refuses an instant outside the range. -/
def fromSeconds (s : ℤ) : Option ℤ :=
  if TIMESTAMP_MIN ≤ s ∧ s ≤ TIMESTAMP_MAX then some s else none

/-- The liveness interval: one Julian year, in seconds. -/
def LIVENESS_INTERVAL : ℤ := 31557600

/-- 21 million coins of `10^8` zatoshis. -/
def MAX_MONEY : ℕ := 2100000000000000

/-- An amount within the monetary range. -/
structure Zatoshis where
  val : ℕ
  le : val ≤ MAX_MONEY
  deriving DecidableEq

namespace Zatoshis

def zero : Zatoshis := ⟨0, Nat.zero_le _⟩

/-- `Zatoshis::from_u64`. -/
def fromU64 (n : ℕ) : Option Zatoshis := if h : n ≤ MAX_MONEY then some ⟨n, h⟩ else none

/-- `a + b`, absent above the monetary range. -/
def add (a b : Zatoshis) : Option Zatoshis := fromU64 (a.val + b.val)

/-- `a - b`, absent below zero. -/
def sub (a b : Zatoshis) : Option Zatoshis :=
  if b.val ≤ a.val then some ⟨a.val - b.val, le_trans (Nat.sub_le _ _) a.le⟩ else none

/-- `a * k`, absent above the monetary range. -/
def mul (a : Zatoshis) (k : ℕ) : Option Zatoshis := fromU64 (a.val * k)

/-- `a / k`, rounded down. -/
def div (a : Zatoshis) (k : ℕ) : Zatoshis := ⟨a.val / k, le_trans (Nat.div_le_self _ _) a.le⟩

end Zatoshis

/-! ### Identifiers of the chain -/

structure TxId where
  bytes : Vector UInt8 32
  deriving DecidableEq

/-- The nullifier a note reveals when it is spent, by its field element. -/
structure Nullifier where
  base : ℕ
  deriving DecidableEq

instance : LinearOrder Nullifier :=
  LinearOrder.lift' Nullifier.base fun a b h => by cases a; cases b; cases h; rfl

/-- A Treasury payment output: its transaction, and which of that transaction's Treasury outputs
it is. The mint keeps the transaction alone; the index beside it is a ghost that no operation
reads, and that lets a result speak of one payment where two share a transaction. -/
structure PaymentRef where
  txid : TxId
  output : ℕ
  deriving DecidableEq

/-- The order of the Pallas scalar field. -/
def PALLAS_ORDER : ℕ :=
  0x40000000000000000000000000000000224698fc0994a8dd8c46eb2100000001

/-- The trapdoor that links consecutive Name Notes. -/
structure NameCommitment where
  scalar : Fin PALLAS_ORDER
  deriving DecidableEq

def NameCommitment.toBytes (c : NameCommitment) : List UInt8 := leBytes 32 c.scalar.val

/-- `NameCommitment::from_bytes`: the canonical representation of a scalar, nothing else. -/
def NameCommitment.fromBytes (s : List UInt8) : Option NameCommitment :=
  if h : s.length = 32 ∧ leValue s < PALLAS_ORDER then some ⟨⟨leValue s, h.2⟩⟩ else none

@[simp] theorem NameCommitment.length_toBytes (c : NameCommitment) : c.toBytes.length = 32 :=
  length_leBytes _ _

theorem NameCommitment.leValue_toBytes (c : NameCommitment) : leValue c.toBytes = c.scalar.val := by
  have h : PALLAS_ORDER < 256 ^ 32 := by decide
  rw [toBytes, leValue_leBytes, Nat.mod_eq_of_lt (lt_trans c.scalar.isLt h)]

@[simp] theorem NameCommitment.fromBytes_toBytes (c : NameCommitment) : fromBytes c.toBytes = some c := by
  have hv := c.leValue_toBytes
  have h : c.toBytes.length = 32 ∧ leValue c.toBytes < PALLAS_ORDER :=
    ⟨c.length_toBytes, by rw [hv]; exact c.scalar.isLt⟩
  have hs : (⟨leValue c.toBytes, h.2⟩ : Fin PALLAS_ORDER) = c.scalar := Fin.ext hv
  rw [fromBytes, dif_pos h, hs]

theorem NameCommitment.toBytes_injective : Function.Injective toBytes := by
  intro a b h
  have := congrArg fromBytes h
  simpa using this

/-! ### Addresses -/

inductive TransparentAddress where
  | publicKeyHash (hash : Vector UInt8 20)
  | scriptHash (hash : Vector UInt8 20)
  deriving DecidableEq

/-- The twenty bytes either kind of transparent address carries. -/
def TransparentAddress.hash : TransparentAddress → Vector UInt8 20
  | publicKeyHash h => h
  | scriptHash h => h

/-- A unified address by its receivers. -/
structure UnifiedAddress where
  orchard : Option (Vector UInt8 43)
  sapling : Option (Vector UInt8 43)
  transparent : Option TransparentAddress
  unknown : List (ℕ × List UInt8)
  deriving DecidableEq

/-! ### Names -/

/-- The longest name a memo accepts. -/
def MAX_NAME_LEN : ℕ := 63

/-- `b'a'..=b'z' | b'0'..=b'9'`. -/
def isNameByte (b : UInt8) : Bool := (97 ≤ b && b ≤ 122) || (48 ≤ b && b ≤ 57)

/-- What `Name::parse` checks of the text. -/
def nameOk (s : List UInt8) : Bool :=
  !s.isEmpty && decide (s.length ≤ MAX_NAME_LEN) && s.all isNameByte

structure Name where
  bytes : List UInt8
  ok : nameOk bytes = true
  deriving DecidableEq

/-- `Name::parse`. -/
def Name.parse (s : List UInt8) : Option Name := if h : nameOk s = true then some ⟨s, h⟩ else none

instance : Ord Name := ⟨compareOn Name.bytes⟩

instance : Std.TransOrd Name := inferInstanceAs (Std.TransCmp (compareOn Name.bytes))

instance : Std.LawfulEqOrd Name where
  eq_of_compare {a b} h := by
    have h' : compare a.bytes b.bytes = .eq := h
    cases a
    cases b
    congr
    exact Std.LawfulEqOrd.eq_of_compare h'

/-- `BTreeMap<Name, _>`. -/
abbrev NameMap (α : Type) := Std.ExtTreeMap Name α compare

/-- `BTreeMap<BlockHeight, _>`. -/
abbrev HeightMap (α : Type) := Std.ExtTreeMap ℕ α compare

/-! ### What the other crates supply -/

/-- The network and the primitives of other crates. `blake2b` is the 64-byte digest read as a
little-endian number, the form `from_uniform_bytes` reduces; `txExpiryDelta h` is
`default_tx_expiry_delta(BranchId::for_height(params, h))`. -/
structure Params where
  encodeUa : UnifiedAddress → List UInt8
  blake2b : List UInt8 → ℕ
  txExpiryDelta : ℕ → ℕ

end ZnsMint.Basic
