import ZnsMint.Lib.Text
import ZnsMint.Note

/-! # The text codecs of other crates

A memo is read and written with the address and memo types of other crates: `zcash_address` and
`zcash_keys` for the text of an address, `zcash_protocol::memo` for the 512 bytes. This development does
not open them. They are the fields of `Wire`, and what the mint relies on is stated in three groups:

* `UaLaws`: the text of a unified address and the address read from it determine each other;
* `TransparentLaws`: the same for a transparent address;
* `MemoLaws`: a memo is a text padded with zeros, and reads back as the text without them.

`Wire.sample` is one codec that keeps all three. -/

namespace ZnsMint

open Basic Note Lib

namespace Wire

inductive NetworkType where
  | main
  | test
  | regtest
  deriving DecidableEq

/-- The revision of a unified container: `R0`, or one that came after it. -/
inductive Revision where
  | r0
  | later
  deriving DecidableEq

/-- What `unified::Address::decode` reads. `address` is what `UnifiedAddress::try_from` makes of the
container, absent where it refuses. -/
structure UnifiedText where
  network : NetworkType
  revision : Revision
  metadata : List (ℕ × List UInt8)
  address : Option UnifiedAddress
  deriving DecidableEq

/-- What `Address::decode` reads: a transparent address, or one of the other kinds. -/
inductive Address where
  | transparent (addr : TransparentAddress)
  | other
  deriving DecidableEq

/-- The 512 bytes of a memo. -/
abbrev MemoBytes := Vector UInt8 512

end Wire

open Wire

/-- The codecs of one network. `encodeUa` of `Params` writes the text `decodeUnified` reads;
`encodeAddress` is `Address::Transparent(_).encode`; `fromBytes` is `MemoBytes::from_bytes`; `memoText` is
`Memo::try_from` where it gives `Memo::Text`. -/
structure Wire extends Params where
  networkType : NetworkType
  decodeUnified : List UInt8 → Option UnifiedText
  encodeAddress : TransparentAddress → List UInt8
  decodeAddress : List UInt8 → Option Address
  fromBytes : List UInt8 → Option MemoBytes
  memoText : MemoBytes → Option (List UInt8)

namespace Wire

/-- `s` in the 512 bytes of a memo, zeros after it. -/
def padded (s : List UInt8) (h : s.length ≤ 512) : MemoBytes :=
  ⟨(Text.pad 0 512 s).toArray, by rw [List.size_toArray, Text.length_pad h]⟩

@[simp] theorem toList_padded (s : List UInt8) (h : s.length ≤ 512) :
    (padded s h).toList = Text.pad 0 512 s := by
  simp [padded, Vector.toList]

theorem length_toList (m : MemoBytes) : m.toList.length = 512 := by simp

/-- The bytes `:` and a text field cannot share. -/
def COLON : UInt8 := 58

/-- ASCII, and neither the separator nor the padding of a memo. -/
def IsField (s : List UInt8) : Prop := ∀ b ∈ s, b.toNat < 128 ∧ b ≠ 0 ∧ b ≠ COLON

/-! ### Controller addresses -/

/-- Known receivers only, at least one shielded. -/
def isController (ua : UnifiedAddress) : Bool :=
  ua.unknown.isEmpty && (ua.orchard.isSome || ua.sapling.isSome)

/-- `decode_controller_ua`. -/
def decodeControllerUa (w : Wire) (s : List UInt8) : Option UnifiedAddress := do
  let t ← w.decodeUnified s
  if t.network ≠ w.networkType ∨ t.revision ≠ .r0 ∨ ¬ t.metadata.isEmpty then none
  else
    let ua ← t.address
    if isController ua then some ua else none

/-! ### What the mint relies on -/

variable (w : Wire)

/-- Unified addresses of revision `R0`: text and address are inverse to each other, the text is a field,
and known receivers fit 300 characters. Every text read begins with the `u` of `u1`, `utest1` or
`uregtest1`, in one of the two cases of Bech32m. -/
structure UaLaws : Prop where
  decode_encode : ∀ ua, isController ua = true →
    w.decodeUnified (w.encodeUa ua) = some ⟨w.networkType, .r0, [], some ua⟩
  encode_decode : ∀ s t ua, w.decodeUnified s = some t → t.network = w.networkType → t.revision = .r0 →
    t.address = some ua → w.encodeUa ua = s
  isField : ∀ ua, IsField (w.encodeUa ua)
  length_le : ∀ ua : UnifiedAddress, ua.unknown = [] → (w.encodeUa ua).length ≤ 300
  lead : ∀ s t, w.decodeUnified s = some t → s.head? = some 117 ∨ s.head? = some 85

/-- Transparent addresses: the text reads back, is a field, and fits 36 characters. -/
structure TransparentLaws : Prop where
  decode_encode : ∀ addr, w.decodeAddress (w.encodeAddress addr) = some (.transparent addr)
  isField : ∀ addr, IsField (w.encodeAddress addr)
  length_le : ∀ addr, (w.encodeAddress addr).length ≤ 36

/-- Memos: a text of at most 512 bytes is padded with zeros. A memo whose first byte is at most `0xF4`
is the UTF-8 text before its trailing zeros. -/
structure MemoLaws : Prop where
  fromBytes_eq : ∀ s, w.fromBytes s = if h : s.length ≤ 512 then some (padded s h) else none
  memoText_eq : ∀ m : MemoBytes, w.memoText m =
    if m.head ≤ 0xF4 ∧ Text.isUtf8 (Text.trim 0 m.toList) =
      true then some (Text.trim 0 m.toList) else none

variable {w}

theorem decodeControllerUa_encode (hw : UaLaws w) {ua : UnifiedAddress} (h : isController ua = true) :
    decodeControllerUa w (w.encodeUa ua) = some ua := by
  simp [decodeControllerUa, hw.decode_encode ua h, h]

/-- An address read from a memo is of known receivers, and its text is the one that was read. -/
theorem decodeControllerUa_some {s : List UInt8} {ua : UnifiedAddress}
    (h : decodeControllerUa w s = some ua) :
    isController ua = true ∧ ∃ t, w.decodeUnified s = some t := by
  simp only [decodeControllerUa, Option.bind_eq_bind, Option.bind_eq_some_iff] at h
  obtain ⟨t, ht, h⟩ := h
  refine ⟨?_, t, ht⟩
  split at h
  · cases h
  · obtain ⟨ua', -, h⟩ := Option.bind_eq_some_iff.mp h
    split at h
    · rename_i hc
      cases h
      exact hc
    · cases h

/-- A padded field text reads back as itself. -/
theorem memoText_padded (hw : MemoLaws w) {s : List UInt8} (h : s.length ≤ 512)
    (hs : ∀ b ∈ s, b.toNat < 128 ∧ b ≠ 0) : w.memoText (padded s h) = some s := by
  have h0 : (0 : UInt8) ∉ s := fun hm => (hs 0 hm).2 rfl
  have hutf : Text.isUtf8 s = true := Text.isUtf8_of_lt fun b hb => (hs b hb).1
  have hhead : (padded s h).head ≤ 0xF4 := by
    have hm : (padded s h).head ∈ (padded s h).toList := by
      rw [Vector.mem_toList_iff]
      exact Vector.getElem_mem _
    rw [toList_padded, Text.pad, List.mem_append, List.mem_replicate] at hm
    rw [UInt8.le_iff_toNat_le]
    rcases hm with hm | hm
    · have := (hs _ hm).1
      exact le_trans this.le (by decide)
    · rw [hm.2]
      decide
  rw [hw.memoText_eq, toList_padded, Text.trim_pad h0, if_pos ⟨hhead, hutf⟩]

/-! ### A codec for concrete runs

An address text here is `u1` and the receivers in hexadecimal, each closed by a letter; a transparent one
is `t1` or `t3` and the hash in 27 digits of base 64. Reading is the inverse of writing. -/

/-- An optional receiver: `n`, or `y` and its bytes. -/
def receiverText (r : Option (Vector UInt8 43)) : List UInt8 :=
  r.elim (ascii "n") fun v => ascii "y" ++ Text.hex v.toList

/-- The transparent receiver by its kind. -/
def transparentText : Option TransparentAddress → List UInt8
  | none => ascii "n"
  | some (.publicKeyHash h) => ascii "p" ++ Text.hex h.toList
  | some (.scriptHash h) => ascii "s" ++ Text.hex h.toList

/-- One unknown receiver: its typecode, a dot, its bytes and a closing `z`. -/
def unknownText (u : ℕ × List UInt8) : List UInt8 := Text.digits u.1 ++ 46 :: (Text.hex u.2 ++ [122])

/-- The text of a unified address. -/
def unifiedText (ua : UnifiedAddress) : List UInt8 :=
  ascii "u1" ++ (receiverText ua.orchard ++ (receiverText ua.sapling ++
    (transparentText ua.transparent ++ ua.unknown.flatMap unknownText)))

theorem isHexDigit_bounds {b : UInt8} (h : Text.isHexDigit b = true) :
    48 ≤ b.toNat ∧ b.toNat ≤ 102 ∧ b.toNat ≠ 58 := by
  simp only [Text.isHexDigit, Text.isDigit, Bool.or_eq_true, Bool.and_eq_true, decide_eq_true_eq,
    UInt8.le_iff_toNat_le] at h
  have e1 : (48 : UInt8).toNat = 48 := rfl
  have e2 : (57 : UInt8).toNat = 57 := rfl
  have e3 : (97 : UInt8).toNat = 97 := rfl
  have e4 : (102 : UInt8).toNat = 102 := rfl
  omega

theorem receiverText_append {a b : Option (Vector UInt8 43)} {x y : List UInt8}
    (h : receiverText a ++ x = receiverText b ++ y) : a = b ∧ x = y := by
  rcases a with _ | v <;> rcases b with _ | v'
  · exact ⟨rfl, List.append_cancel_left h⟩
  · exact absurd (List.cons.inj h).1 (by decide)
  · exact absurd (List.cons.inj h).1 (by decide)
  · have h' : Text.hex v.toList ++ x = Text.hex v'.toList ++ y := (List.cons.inj h).2
    obtain ⟨hv, hx⟩ := List.append_inj h' (by simp)
    exact ⟨congrArg some (Vector.toList_inj.mp (Text.hex_injective hv)), hx⟩

theorem transparentText_append {a b : Option TransparentAddress} {x y : List UInt8}
    (h : transparentText a ++ x = transparentText b ++ y) : a = b ∧ x = y := by
  have key : ∀ (v v' : Vector UInt8 20), Text.hex v.toList ++ x = Text.hex v'.toList ++ y →
      v = v' ∧ x = y := by
    intro v v' h'
    obtain ⟨hv, hx⟩ := List.append_inj h' (by simp)
    exact ⟨Vector.toList_inj.mp (Text.hex_injective hv), hx⟩
  rcases a with _ | v | v <;> rcases b with _ | v' | v'
  · exact ⟨rfl, List.append_cancel_left h⟩
  · exact absurd (List.cons.inj h).1 (by decide)
  · exact absurd (List.cons.inj h).1 (by decide)
  · exact absurd (List.cons.inj h).1 (by decide)
  · obtain ⟨rfl, hx⟩ := key v v' (List.cons.inj h).2
    exact ⟨rfl, hx⟩
  · exact absurd (List.cons.inj h).1 (by decide)
  · exact absurd (List.cons.inj h).1 (by decide)
  · exact absurd (List.cons.inj h).1 (by decide)
  · obtain ⟨rfl, hx⟩ := key v v' (List.cons.inj h).2
    exact ⟨rfl, hx⟩

theorem unknownText_append {a b : ℕ × List UInt8} {x y : List UInt8}
    (h : unknownText a ++ x = unknownText b ++ y) : a = b ∧ x = y := by
  have hdot : ∀ n, (46 : UInt8) ∉ Text.digits n := by
    intro n hm
    have := Text.isDigit_of_mem_digits n _ hm
    revert this
    decide
  have hz : ∀ s, (122 : UInt8) ∉ Text.hex s := by
    intro s hm
    have := (isHexDigit_bounds (Text.isHexDigit_of_mem_hex _ hm)).2.1
    revert this
    decide
  simp only [unknownText, List.append_assoc, List.cons_append, List.nil_append] at h
  obtain ⟨h1, h2⟩ := Text.append_sep_inj (hdot _) (hdot _) h
  obtain ⟨h3, h4⟩ := Text.append_sep_inj (hz _) (hz _) h2
  exact ⟨Prod.ext (Text.digits_injective h1) (Text.hex_injective h3), h4⟩

theorem flatMap_unknownText_injective : Function.Injective (List.flatMap unknownText) := by
  intro a
  induction a with
  | nil =>
    intro b h
    rcases b with _ | ⟨u, b⟩
    · rfl
    · have hl := congrArg List.length h
      simp [unknownText] at hl
  | cons v a ih =>
    intro b h
    rcases b with _ | ⟨u, b⟩
    · have hl := congrArg List.length h
      simp [unknownText] at hl
    · rw [List.flatMap_cons, List.flatMap_cons] at h
      obtain ⟨rfl, h'⟩ := unknownText_append h
      rw [ih h']

theorem unifiedText_injective : Function.Injective unifiedText := by
  intro a b h
  obtain ⟨h1, h⟩ := receiverText_append (List.append_cancel_left h)
  obtain ⟨h2, h⟩ := receiverText_append h
  obtain ⟨h3, h⟩ := transparentText_append h
  have h4 := flatMap_unknownText_injective h
  rcases a with ⟨o, s, t, u⟩
  rcases b with ⟨o', s', t', u'⟩
  simp only at h1 h2 h3 h4
  rw [h1, h2, h3, h4]

theorem isField_append {s t : List UInt8} (hs : IsField s) (ht : IsField t) : IsField (s ++ t) := by
  intro b hb
  rcases List.mem_append.mp hb with hb | hb
  · exact hs b hb
  · exact ht b hb

theorem isField_hex (s : List UInt8) : IsField (Text.hex s) := by
  intro b hb
  have h := isHexDigit_bounds (Text.isHexDigit_of_mem_hex b hb)
  refine ⟨by omega, ?_, ?_⟩
  · rintro rfl
    exact absurd h.1 (by decide)
  · rintro rfl
    exact h.2.2 rfl

theorem isField_of_isDigit {s : List UInt8} (h : ∀ b ∈ s, Text.isDigit b = true) : IsField s := by
  intro b hb
  have hd := Text.isDigit_iff.mp (h b hb)
  refine ⟨by omega, ?_, ?_⟩
  · rintro rfl
    exact absurd hd.1 (by decide)
  · rintro rfl
    exact absurd hd.2 (by decide)

theorem isField_digits (n : ℕ) : IsField (Text.digits n) :=
  isField_of_isDigit (Text.isDigit_of_mem_digits n)

instance (s : List UInt8) : Decidable (IsField s) :=
  List.decidableBAll (fun b : UInt8 => b.toNat < 128 ∧ b ≠ 0 ∧ b ≠ COLON) s

theorem isField_unifiedText (ua : UnifiedAddress) : IsField (unifiedText ua) := by
  have hr : ∀ r, IsField (receiverText r) := by
    rintro (_ | v)
    · exact by decide
    · exact isField_append (by decide) (isField_hex _)
  have ht : ∀ t, IsField (transparentText t) := by
    rintro (_ | v | v)
    · exact by decide
    · exact isField_append (by decide) (isField_hex _)
    · exact isField_append (by decide) (isField_hex _)
  have hu : IsField (ua.unknown.flatMap unknownText) := by
    intro b hb
    obtain ⟨u, -, hb⟩ := List.mem_flatMap.mp hb
    have hu : IsField (unknownText u) :=
      isField_append (isField_digits _) (isField_append (s := [46]) (by decide)
        (isField_append (isField_hex _) (by decide)))
    exact hu b hb
  exact isField_append (by decide) (isField_append (hr _)
    (isField_append (hr _) (isField_append (ht _) hu)))

theorem length_unifiedText_le {ua : UnifiedAddress} (h : ua.unknown = []) :
    (unifiedText ua).length ≤ 300 := by
  have hr : ∀ r, (receiverText r).length ≤ 87 := by
    rintro (_ | v)
    · decide
    · simp [receiverText, ascii]
  have ht : ∀ t, (transparentText t).length ≤ 41 := by
    rintro (_ | v | v)
    · decide
    · simp [transparentText, ascii]
    · simp [transparentText, ascii]
  have h1 := hr ua.orchard
  have h2 := hr ua.sapling
  have h3 := ht ua.transparent
  have h4 : (ascii "u1").length = 2 := rfl
  simp only [unifiedText, h, List.flatMap_nil, List.length_append, List.length_nil, h4]
  omega

/-- The `k` low digits of `n` in base 64, least significant first, from `@` on. -/
def base64 : ℕ → ℕ → List UInt8
  | 0, _ => []
  | k + 1, n => (64 + n % 64).toUInt8 :: base64 k (n / 64)

theorem length_base64 (k n : ℕ) : (base64 k n).length = k := by
  induction k generalizing n with
  | zero => rfl
  | succ k ih => rw [base64, List.length_cons, ih]

theorem base64_toNat (n : ℕ) : ((64 + n % 64).toUInt8).toNat = 64 + n % 64 := by
  simp only [Nat.toUInt8, UInt8.toNat_ofNat']
  omega

theorem base64_inj {k m n : ℕ} (hm : m < 64 ^ k) (hn : n < 64 ^ k) (h : base64 k m = base64 k n) :
    m = n := by
  induction k generalizing m n with
  | zero =>
    rw [pow_zero] at hm hn
    omega
  | succ k ih =>
    rw [base64, base64, List.cons.injEq] at h
    have hd := congrArg UInt8.toNat h.1
    rw [base64_toNat, base64_toNat] at hd
    have hq := ih (by rw [pow_succ] at hm; omega) (by rw [pow_succ] at hn; omega) h.2
    omega

theorem isField_base64 (k n : ℕ) : IsField (base64 k n) := by
  induction k generalizing n with
  | zero => simp [base64, IsField]
  | succ k ih =>
    intro b hb
    rw [base64, List.mem_cons] at hb
    rcases hb with rfl | hb
    · have h := base64_toNat n
      refine ⟨by omega, ?_, ?_⟩
      · intro he
        rw [he] at h
        exact absurd (h.trans_ge (Nat.le_add_right 64 _)) (by decide)
      · intro he
        rw [he] at h
        exact absurd (h.trans_ge (Nat.le_add_right 64 _)) (by decide)
    · exact ih _ b hb

/-- The text of a transparent address. -/
def hashText : TransparentAddress → List UInt8
  | .publicKeyHash h => ascii "t1" ++ base64 27 (leValue h.toList)
  | .scriptHash h => ascii "t3" ++ base64 27 (leValue h.toList)

theorem hashText_injective : Function.Injective hashText := by
  have key : ∀ v v' : Vector UInt8 20, base64 27 (leValue v.toList) =
      base64 27 (leValue v'.toList) → v = v' := by
    intro v v' h
    have hb : ∀ u : Vector UInt8 20, leValue u.toList < 64 ^ 27 := by
      intro u
      have := leValue_lt u.toList
      rw [Vector.length_toList] at this
      exact lt_of_lt_of_le this (by decide)
    have hv := base64_inj (hb v) (hb v') h
    have h1 := leBytes_leValue v.toList
    have h2 := leBytes_leValue v'.toList
    rw [Vector.length_toList] at h1 h2
    exact Vector.toList_inj.mp (by rw [← h1, ← h2, hv])
  rintro (v | v) (v' | v') h
  · rw [key v v' (List.append_cancel_left h)]
  · exact absurd (List.cons.inj (List.cons.inj h).2).1 (by decide)
  · exact absurd (List.cons.inj (List.cons.inj h).2).1 (by decide)
  · rw [key v v' (List.append_cancel_left h)]

/-- The codec of these texts; the digest and the expiry window are those of `Params.sample`. -/
noncomputable def sample : Wire where
  encodeUa := unifiedText
  blake2b := Params.sample.blake2b
  txExpiryDelta := Params.sample.txExpiryDelta
  networkType := .main
  decodeUnified s := (Function.partialInv unifiedText s).map fun ua => ⟨.main, .r0, [], some ua⟩
  encodeAddress := hashText
  decodeAddress s := (Function.partialInv hashText s).map .transparent
  fromBytes s := if h : s.length ≤ 512 then some (padded s h) else none
  memoText m := if m.head ≤ 0xF4 ∧ Text.isUtf8 (Text.trim 0 m.toList) =
    true then some (Text.trim 0 m.toList)
    else none

theorem sample_decodeUnified {s : List UInt8} {t : UnifiedText} :
    Wire.sample.decodeUnified s = some t ↔ ∃ ua, unifiedText ua = s ∧ t = ⟨.main, .r0, [], some ua⟩ := by
  change (Function.partialInv unifiedText s).map _ = some t ↔ _
  rw [Option.map_eq_some_iff]
  constructor
  · rintro ⟨ua, hua, rfl⟩
    exact ⟨ua, (unifiedText_injective.isPartialInv ua s).mp hua, rfl⟩
  · rintro ⟨ua, hua, rfl⟩
    exact ⟨ua, (unifiedText_injective.isPartialInv ua s).mpr hua, rfl⟩

theorem sample_uaLaws : UaLaws Wire.sample where
  decode_encode ua _ := Wire.sample_decodeUnified.mpr ⟨ua, rfl, rfl⟩
  encode_decode s t ua h _ _ ha := by
    obtain ⟨ua', hs, rfl⟩ := Wire.sample_decodeUnified.mp h
    cases ha
    exact hs
  isField := isField_unifiedText
  length_le ua h := length_unifiedText_le h
  lead s t h := by
    obtain ⟨ua, rfl, -⟩ := Wire.sample_decodeUnified.mp h
    exact Or.inl rfl

theorem sample_transparentLaws : TransparentLaws Wire.sample where
  decode_encode addr := by
    change (Function.partialInv hashText (hashText addr)).map _ = _
    rw [(hashText_injective.isPartialInv addr _).mpr rfl]
    rfl
  isField addr := by
    rcases addr with v | v
    · exact isField_append (by decide) (isField_base64 _ _)
    · exact isField_append (by decide) (isField_base64 _ _)
  length_le addr := by
    rcases addr with v | v
    · simp [Wire.sample, hashText, length_base64, ascii]
    · simp [Wire.sample, hashText, length_base64, ascii]

theorem sample_memoLaws : MemoLaws Wire.sample where
  fromBytes_eq _ := rfl
  memoText_eq _ := rfl

end Wire

end ZnsMint
