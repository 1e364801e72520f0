import ZnsMint.Live

/-! # What the codes are derived from

The one-time passcodes of `src/mint/treasury/otp.rs` and the access code of `src/mint/presale.rs`: five
purposes under one key, each the first four bytes of an HMAC reduced to six digits. The text that goes
into the HMAC is a tag and the fields one after the other, without lengths between them.

`Purpose` is what a code can be derived for, with its arguments, and `Purpose.preimage` the text. It is
injective (`preimage_injective`): the tags part at their fifth byte, a name starts with none of them, and
of the fields only the name has no fixed width, so that the widths around it say where it ends. -/

namespace ZnsMint.Treasury.Codes

open Basic Note Inbound

/-! ### Big-endian words -/

/-- The `k` low bytes of `n`, most significant first. -/
def beBytes (k n : ℕ) : List UInt8 := (leBytes k n).reverse

/-- The number a run of bytes writes, most significant first. -/
def beValue (s : List UInt8) : ℕ := leValue s.reverse

@[simp] theorem length_beBytes (k n : ℕ) : (beBytes k n).length = k := by
  rw [beBytes, List.length_reverse, length_leBytes]

theorem beBytes_inj {k m n : ℕ} (hm : m < 256 ^ k) (hn : n < 256 ^ k) (h : beBytes k m = beBytes k n) :
    m = n := by
  have hv := congrArg leValue (List.reverse_injective h)
  rwa [leValue_leBytes, leValue_leBytes, Nat.mod_eq_of_lt hm, Nat.mod_eq_of_lt hn] at hv

/-- A `u32` in four bytes reads back. -/
theorem beBytes_u32_inj {a b : UInt32} (h : beBytes 4 a.toNat = beBytes 4 b.toNat) : a = b :=
  UInt32.toNat_inj.mp (beBytes_inj a.toNat_lt b.toNat_lt h)

/-- A `u64` in eight bytes reads back. -/
theorem beBytes_u64_inj {a b : UInt64} (h : beBytes 8 a.toNat = beBytes 8 b.toNat) : a = b :=
  UInt64.toNat_inj.mp (beBytes_inj a.toNat_lt b.toNat_lt h)

/-! ### The five texts -/

/-- The prices and blocks an auction challenge binds. -/
structure AuctionBind where
  startPrice : UInt64
  minPrice : UInt64
  start : UInt32
  finish : UInt32
  deriving DecidableEq

/-- What `OtpCode::buy` feeds the HMAC. -/
def buyText (txid name : List UInt8) : List UInt8 := ascii "ZNS:buyotp" ++ txid ++ name

/-- What `OtpCode::list` feeds it. -/
def listText (txid name : List UInt8) (price : UInt64) (payTo : List UInt8) : List UInt8 :=
  ascii "ZNS:listotp" ++ txid ++ name ++ beBytes 8 price.toNat ++ payTo

/-- What `OtpCode::auction` feeds it. -/
def auctionText (txid name : List UInt8) (bind : AuctionBind) (payTo : List UInt8) : List UInt8 :=
  ascii "ZNS:auctionotp" ++ txid ++ name ++ beBytes 8 bind.startPrice.toNat ++
    beBytes 8 bind.minPrice.toNat ++
    beBytes 4 bind.start.toNat ++ beBytes 4 bind.finish.toNat ++ payTo

/-- What `OtpCode::delist` feeds it. -/
def delistText (txid name : List UInt8) : List UInt8 := ascii "ZNS:delistotp" ++ txid ++ name

/-- `from_mac`: the first four bytes of the digest, as six digits. -/
def fromMac (digest : Vector UInt8 32) : OtpCode :=
  ⟨beValue (digest.toList.take 4) % 1000000, Nat.mod_lt _ (by decide)⟩

/-- The boot-derived key. -/
structure AccessCodeDerivationKey where
  bytes : Vector UInt8 32

namespace AccessCodeDerivationKey

-- HMAC-SHA256, by key and message
variable (hmac : List UInt8 → List UInt8 → Vector UInt8 32) (key : AccessCodeDerivationKey)

/-- The code of a text under the key. -/
def codeOf (text : List UInt8) : OtpCode := fromMac (hmac key.bytes.toList text)

def derive (name : Name) : AccessCode := codeOf hmac key name.bytes

def buyOtp (txid : TxId) (name : Name) : OtpCode := codeOf hmac key (buyText txid.bytes.toList name.bytes)

def listOtp (txid : TxId) (name : Name) (price : Zatoshis) (payTo : TransparentAddress) : OtpCode :=
  codeOf hmac key (listText txid.bytes.toList name.bytes price.val.toUInt64 payTo.hash.toList)

def auctionOtp (txid : TxId) (name : Name) (bind : AuctionBind) (payTo : TransparentAddress) : OtpCode :=
  codeOf hmac key (auctionText txid.bytes.toList name.bytes bind payTo.hash.toList)

def delistOtp (txid : TxId) (name : Name) : OtpCode :=
  codeOf hmac key (delistText txid.bytes.toList name.bytes)

/-- The bind of a falling price. -/
def bindOf (clock : Clock) : AuctionBind where
  startPrice := clock.startPrice.val.toUInt64
  minPrice := clock.minPrice.val.toUInt64
  start := clock.start.toUInt32
  finish := clock.finish.toUInt32

/-- What the mint derives from the key. -/
def keys : Keys where
  buyOtp := buyOtp hmac key
  listOtp := listOtp hmac key
  auctionOtp txid name clock payTo := auctionOtp hmac key txid name (bindOf clock) payTo
  delistOtp := delistOtp hmac key
  accessCode := derive hmac key

end AccessCodeDerivationKey

/-! ### One text for one purpose -/

/-- What a code is derived for. A sale pays to a public-key hash. -/
inductive Purpose where
  | access (name : Name)
  | buy (txid : TxId) (name : Name)
  | list (txid : TxId) (name : Name) (price : UInt64) (payTo : Vector UInt8 20)
  | auction (txid : TxId) (name : Name) (bind : AuctionBind) (payTo : Vector UInt8 20)
  | delist (txid : TxId) (name : Name)
  deriving DecidableEq

/-- The text fed to the HMAC. -/
def Purpose.preimage : Purpose → List UInt8
  | access name => name.bytes
  | buy txid name => buyText txid.bytes.toList name.bytes
  | list txid name price payTo => listText txid.bytes.toList name.bytes price payTo.toList
  | auction txid name bind payTo => auctionText txid.bytes.toList name.bytes bind payTo.toList
  | delist txid name => delistText txid.bytes.toList name.bytes

/-- The mint's codes are those of their purposes. -/
theorem codeOf_preimage (hmac : List UInt8 → List UInt8 → Vector UInt8 32) (key : AccessCodeDerivationKey)
    (txid : TxId) (name : Name) (price : Zatoshis) (bind : AuctionBind) (payTo : Vector UInt8 20) :
    key.derive hmac name = key.codeOf hmac (Purpose.access name).preimage ∧
      key.buyOtp hmac txid name = key.codeOf hmac (Purpose.buy txid name).preimage ∧
        key.listOtp hmac txid name price (.publicKeyHash payTo) =
          key.codeOf hmac (Purpose.list txid name price.val.toUInt64 payTo).preimage ∧
          key.auctionOtp hmac txid name bind (.publicKeyHash payTo) =
            key.codeOf hmac (Purpose.auction txid name bind payTo).preimage ∧
            key.delistOtp hmac txid name = key.codeOf hmac (Purpose.delist txid name).preimage :=
  ⟨rfl, rfl, rfl, rfl, rfl⟩

/-- The letter that tells the purposes apart: the fifth byte of a text that starts with a `Z`. -/
def letter (s : List UInt8) : Option UInt8 := if s.head? = some 90 then s[4]? else none

def Purpose.letter : Purpose → Option UInt8
  | access _ => none
  | buy .. => some 98
  | list .. => some 108
  | auction .. => some 97
  | delist .. => some 100

theorem head?_name_ne (name : Name) : name.bytes.head? ≠ some 90 := by
  intro h
  have hmem : (90 : UInt8) ∈ name.bytes := List.mem_of_head? h
  have hok := name.ok
  unfold nameOk at hok
  simp only [Bool.and_eq_true, List.all_eq_true] at hok
  exact absurd (hok.2 _ hmem) (by decide)

theorem letter_preimage (p : Purpose) : letter p.preimage = p.letter := by
  cases p with
  | access name => exact if_neg (head?_name_ne name)
  | buy txid name => rfl
  | list txid name price payTo => rfl
  | auction txid name bind payTo => rfl
  | delist txid name => rfl

/-- The transaction and what follows it read back behind a tag. -/
theorem txid_inj {tag x y : List UInt8} {s t : TxId}
    (h : tag ++ s.bytes.toList ++ x = tag ++ t.bytes.toList ++ y) :
    s = t ∧ x = y := by
  rw [List.append_assoc, List.append_assoc] at h
  obtain ⟨hid, hx⟩ := List.append_inj (List.append_cancel_left h) (by simp)
  refine ⟨?_, hx⟩
  cases s
  cases t
  exact congrArg TxId.mk (Vector.toList_inj.mp hid)

theorem name_inj {a b : Name} (h : a.bytes = b.bytes) : a = b := by
  cases a
  cases b
  cases h
  rfl

/-- A tag, a transaction and a name. -/
theorem tagged_inj {tag : List UInt8} {s t : TxId} {a b : Name}
    (h : tag ++ s.bytes.toList ++ a.bytes = tag ++ t.bytes.toList ++ b.bytes) : s = t ∧ a = b := by
  obtain ⟨hid, hname⟩ := txid_inj h
  exact ⟨hid, name_inj hname⟩

theorem listText_inj {s t : TxId} {a b : Name} {p q : UInt64} {x y : Vector UInt8 20}
    (h : listText s.bytes.toList a.bytes p x.toList = listText t.bytes.toList b.bytes q y.toList) :
    s = t ∧ a = b ∧ p = q ∧ x = y := by
  unfold listText at h
  obtain ⟨h, hpay⟩ := List.append_inj' h (by simp)
  obtain ⟨h, hprice⟩ := List.append_inj' h (by simp)
  obtain ⟨hid, hname⟩ := tagged_inj h
  exact ⟨hid, hname, beBytes_u64_inj hprice, Vector.toList_inj.mp hpay⟩

theorem auctionText_inj {s t : TxId} {a b : Name} {p q : AuctionBind} {x y : Vector UInt8 20}
    (h : auctionText s.bytes.toList a.bytes p x.toList = auctionText t.bytes.toList b.bytes q y.toList) :
    s = t ∧ a = b ∧ p = q ∧ x = y := by
  unfold auctionText at h
  -- the widths are known from the end up to the name
  obtain ⟨h, hpay⟩ := List.append_inj' h (by simp)
  obtain ⟨h, hfinish⟩ := List.append_inj' h (by simp)
  obtain ⟨h, hstart⟩ := List.append_inj' h (by simp)
  obtain ⟨h, hmin⟩ := List.append_inj' h (by simp)
  obtain ⟨h, hmax⟩ := List.append_inj' h (by simp)
  obtain ⟨hid, hname⟩ := tagged_inj h
  have hbind : p = q := by
    cases p
    cases q
    rw [AuctionBind.mk.injEq]
    exact ⟨beBytes_u64_inj hmax, beBytes_u64_inj hmin, beBytes_u32_inj hstart, beBytes_u32_inj hfinish⟩
  exact ⟨hid, hname, hbind, Vector.toList_inj.mp hpay⟩

end ZnsMint.Treasury.Codes
