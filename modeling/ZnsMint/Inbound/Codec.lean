import ZnsMint.Inbound
import ZnsMint.Note.Codec

/-! # The memos users send

The three decoders a Treasury memo is tried with, and the challenge memo that is sent out and comes back
(`src/mint.rs` and `src/mint/sale.rs`). All of them read the text of the memo as fields between colons,
`ZNS` and a verb first. A parser takes the fields it has not read and returns those it leaves; a field
left unread refuses the memo.

The amounts and heights of a challenge are written and read by `encodeZec`, `decodeZec` and
`decodeHeight`; each reads back what was written. -/

namespace ZnsMint.Inbound.Codec

open ZnsMint.Basic ZnsMint.Note ZnsMint.Inbound ZnsMint.Lib ZnsMint.Wire
open ZnsMint.Note.Preimage ZnsMint.Note.Codec

def U32_MAX : ℕ := 2 ^ 32 - 1
def U64_MAX : ℕ := 2 ^ 64 - 1

/-! ### Field values -/

/-- `Term::parse`: `forever`, or a number of years from 1 to 99 and a `y`. -/
def Term.parse (field : List UInt8) : Option Term :=
  if field = ascii "forever" then some .forever
  else if field.getLast? ≠ some 121 then none
  else
    let years := field.dropLast
    if years.isEmpty || years.head? == some 48 || !years.all Text.isDigit then none
    else if Text.value years ≤ U64_MAX then
      if 1 ≤ Text.value years ∧ Text.value years ≤ MAX_TERM_YEARS then some (.years (Text.value years))
      else none
    else none

/-- Exactly six digits, as `AccessCode::parse` and `OtpCode::from_digits` read them. -/
def sixDigits (s : List UInt8) : Option (Fin 1000000) :=
  if s.length ≠ 6 ∨ ¬ s.all Text.isDigit then none
  else if h : Text.value s < 1000000 then some ⟨Text.value s, h⟩ else none

/-- `AccessCode::parse`. -/
def AccessCode.parse (s : List UInt8) : Option AccessCode := sixDigits s

/-- `OtpCode::from_digits`. -/
def OtpCode.fromDigits (s : List UInt8) : Option OtpCode := sixDigits s

/-- `OtpCode::digits`. -/
def OtpCode.digits (code : OtpCode) : List UInt8 := Text.fixed 6 code.val

/-- `str::split_once`: the text around the first `sep`. -/
def splitOnce (sep : UInt8) (s : List UInt8) : Option (List UInt8 × List UInt8) :=
  match s.dropWhile (· != sep) with
  | [] => none
  | _ :: rest => some (s.takeWhile (· != sep), rest)

/-- Decimal digits without a zero before another digit. -/
def isCanonical (s : List UInt8) : Bool :=
  !(s.isEmpty || (decide (1 < s.length) && s.head? == some 48) || !s.all Text.isDigit)

/-- `decode_zec`: ZEC with at most eight decimal places, as zatoshis. -/
def decodeZec (text : List UInt8) : Option Zatoshis :=
  let (whole, frac) := (splitOnce 46 text).getD (text, [])
  if !isCanonical whole || decide (8 < frac.length) || !frac.all Text.isDigit then none
  else
    let fracZats := if frac.isEmpty then 0 else Text.value (Text.pad 48 8 frac)
    if Text.value whole ≤ U64_MAX ∧ Text.value whole * 100000000 ≤ U64_MAX ∧
        Text.value whole * 100000000 + fracZats ≤ U64_MAX then
      Zatoshis.fromU64 (Text.value whole * 100000000 + fracZats)
    else none

/-- `decode_height`. -/
def decodeHeight (text : List UInt8) : Option ℕ :=
  if !isCanonical text then none
  else if Text.value text ≤ U32_MAX then some (Text.value text) else none

/-- `encode_zec`. Whole zatoshis stay an integer; a fraction drops trailing zeros. -/
def encodeZec (price : Zatoshis) : List UInt8 :=
  let whole := price.val / 100000000
  let frac := price.val % 100000000
  if frac = 0 then Text.digits whole
  else Text.digits whole ++ 46 :: Text.trim 48 (Text.fixed 8 frac)

/-- `decode_t1`: a public-key-hash address on this network. -/
def decodeT1 (w : Wire) (text : List UInt8) : Option TransparentAddress :=
  match w.decodeAddress text with
  | some (.transparent (.publicKeyHash h)) => some (.publicKeyHash h)
  | _ => none

/-! ### Requests -/

/-- `fields.next()`. -/
def next : List (List UInt8) → Option (List UInt8 × List (List UInt8))
  | [] => none
  | f :: fs => some (f, fs)

/-- `decode_zns`: the verb and the fields after it go to `parse`, which has to read them all. -/
def decodeZns {α : Type} (w : Wire) (memo : MemoBytes)
    (parse : List UInt8 → List (List UInt8) → Option (α × List (List UInt8))) : Option α := do
  let text ← w.memoText memo
  let (zns, fields) ← next (text.splitOn COLON)
  if zns ≠ ascii "ZNS" then none
  else
    let (verb, fields) ← next fields
    let (value, rest) ← parse verb fields
    if rest.isEmpty then some value else none

/-- `decode_name_and_ua`. -/
def decodeNameAndUa (w : Wire) (fields : List (List UInt8)) :
    Option ((Name × UnifiedAddress) × List (List UInt8)) := do
  let (name, fields) ← next fields
  let n ← Name.parse name
  let (ua, fields) ← next fields
  if ua.isEmpty then none
  else
    let u ← decodeControllerUa w ua
    return ((n, u), fields)

/-- The leading fields of a claim: a term, or an access code and a term. -/
def decodeCodeAndTerm (fields : List (List UInt8)) :
    Option ((Option AccessCode × Term) × List (List UInt8)) := do
  let (first, fields) ← next fields
  match Term.parse first with
  | some term => return ((none, term), fields)
  | none =>
    let code ← AccessCode.parse first
    let (second, fields) ← next fields
    let term ← Term.parse second
    return ((some code, term), fields)

/-- The term of an update: `none`, or a term. -/
def decodeUpdateTerm (field : List UInt8) : Option (Option Term) :=
  if field = ascii "none" then some none
  else if field = ascii "forever" then some (some .forever)
  else (Term.parse field).map some

/-- The verbs of a request. -/
def Request.parse (w : Wire) (verb : List UInt8) (fields : List (List UInt8)) :
    Option (Request × List (List UInt8)) :=
  if verb = ascii "claim" then do
    let ((code, term), fields) ← decodeCodeAndTerm fields
    let ((name, ua), fields) ← decodeNameAndUa w fields
    return (.claim name ua term code, fields)
  else if verb = ascii "update" then do
    let (field, fields) ← next fields
    let term ← decodeUpdateTerm field
    let ((name, ua), fields) ← decodeNameAndUa w fields
    return (.update name ua term, fields)
  else if verb = ascii "release" then do
    let ((name, ua), fields) ← decodeNameAndUa w fields
    return (.release name ua, fields)
  else none

/-- `Request::decode`. -/
def Request.decode (w : Wire) (memo : MemoBytes) : Option Request := decodeZns w memo (Request.parse w)

/-- The verbs of a market request. -/
def MarketRequest.parse (w : Wire) (verb : List UInt8) (fields : List (List UInt8)) :
    Option (MarketRequest × List (List UInt8)) :=
  if verb = ascii "list" then do
    let ((name, ua), fields) ← decodeNameAndUa w fields
    let (t1, fields) ← next fields
    let payTo ← decodeT1 w t1
    let (zec, fields) ← next fields
    let price ← decodeZec zec
    return (.list ⟨name, ua, payTo, .flat price⟩, fields)
  else if verb = ascii "auction" then do
    let ((name, ua), fields) ← decodeNameAndUa w fields
    let (t1, fields) ← next fields
    let payTo ← decodeT1 w t1
    let (startZec, fields) ← next fields
    let startPrice ← decodeZec startZec
    let (minZec, fields) ← next fields
    let minPrice ← decodeZec minZec
    let (startText, fields) ← next fields
    let start ← decodeHeight startText
    let (finishText, fields) ← next fields
    let finish ← decodeHeight finishText
    let clock : Clock := ⟨startPrice, minPrice, start, finish⟩
    if !clock.isValid then none else return (.list ⟨name, ua, payTo, .dutch clock⟩, fields)
  else if verb = ascii "delist" then do
    let ((name, ua), fields) ← decodeNameAndUa w fields
    return (.delist name ua, fields)
  else if verb = ascii "buy" then do
    let ((name, ua), fields) ← decodeNameAndUa w fields
    return (.buy name ua, fields)
  else none

/-- `MarketRequest::decode`. -/
def MarketRequest.decode (w : Wire) (memo : MemoBytes) : Option MarketRequest :=
  decodeZns w memo (MarketRequest.parse w)

/-! ### Challenges -/

/-- A challenge is an update, a release, a list, a delist or an auction. -/
def isChallengeAction (a : Action) : Bool :=
  a.isUpdate || a.isRelease || a.isList || a.isDelist || a.isAuction

/-- What follows the verb of a challenge: the address, and on a list or an auction the terms. -/
def OtpMemo.parseTerms (w : Wire) (code : OtpCode) (name : Name) (action : Action) (ua : List UInt8)
    (rest : List (List UInt8)) : Option OtpMemo :=
  if action.isList then
    match rest with
    | [t1, zec] => do
      let u ← decodeControllerUa w ua
      let payTo ← decodeT1 w t1
      let price ← decodeZec zec
      return ⟨code, name, action, u, some (payTo, price), none⟩
    | _ => none
  else if action.isAuction then
    match rest with
    | [t1, startZec, minZec, startText, finishText] => do
      let u ← decodeControllerUa w ua
      let payTo ← decodeT1 w t1
      let startPrice ← decodeZec startZec
      let minPrice ← decodeZec minZec
      let start ← decodeHeight startText
      let finish ← decodeHeight finishText
      let clock : Clock := ⟨startPrice, minPrice, start, finish⟩
      if !clock.isValid then none else return ⟨code, name, action, u, none, some (payTo, clock)⟩
    | _ => none
  else
    match rest with
    | [] => do
      let u ← decodeControllerUa w ua
      return ⟨code, name, action, u, none, none⟩
    | _ => none

/-- The grammar of a challenge: six fields or more. -/
def OtpMemo.parse (w : Wire) : List (List UInt8) → Option OtpMemo
  | zns :: otp :: digits :: name :: verb :: ua :: rest =>
    if zns ≠ ascii "ZNS" ∨ otp ≠ ascii "otp" then none
    else do
      let code ← OtpCode.fromDigits digits
      let n ← Name.parse name
      let action ← (Action.parse verb).filter isChallengeAction
      OtpMemo.parseTerms w code n action ua rest
  | _ => none

/-- `OtpMemo::decode`. -/
def OtpMemo.decode (w : Wire) (memo : MemoBytes) : Option OtpMemo := do
  let text ← w.memoText memo
  OtpMemo.parse w (text.splitOn COLON)

/-- The fields of a challenge memo. Claims are never challenged. -/
def OtpMemo.fields (w : Wire) (m : OtpMemo) : Option (List (List UInt8)) :=
  if m.action.isClaim then none
  else if m.action.isList then
    m.listing.map fun (payTo, price) =>
      [ascii "ZNS", ascii "otp", OtpCode.digits m.code, m.name.bytes, ascii "list", w.encodeUa m.ua,
        w.encodeAddress payTo, encodeZec price]
  else if m.action.isAuction then
    m.clock.map fun (payTo, clock) =>
      [ascii "ZNS", ascii "otp", OtpCode.digits m.code, m.name.bytes, ascii "auction", w.encodeUa m.ua,
        w.encodeAddress payTo, encodeZec clock.startPrice, encodeZec clock.minPrice, decimal clock.start,
        decimal clock.finish]
  else
    some [ascii "ZNS", ascii "otp", OtpCode.digits m.code, m.name.bytes, ascii m.action.asStr,
      w.encodeUa m.ua]

/-- `OtpMemo::encode`. -/
def OtpMemo.encode (w : Wire) (m : OtpMemo) : Option MemoBytes := do
  let fs ← OtpMemo.fields w m
  w.fromBytes ([COLON].intercalate fs)

/-- `MintInbound::decode`: OTP response, name request, market request, or an unrecognized payment. -/
def MintInbound.decode (w : Wire) (memo : MemoBytes) : MintInbound :=
  match OtpMemo.decode w memo with
  | some response => .response response
  | none =>
    match Request.decode w memo with
    | some request => .request request
    | none =>
      match MarketRequest.decode w memo with
      | some request => .market request
      | none => .unrecognized

/-! ### Each value reads back -/

theorem sixDigits_fixed (code : Fin 1000000) : sixDigits (Text.fixed 6 code.val) = some code := by
  have hall : (Text.fixed 6 code.val).all Text.isDigit = true :=
    List.all_eq_true.mpr Text.isDigit_of_mem_fixed
  have hv : Text.value (Text.fixed 6 code.val) = code.val := by
    rw [Text.value_fixed]
    exact Nat.mod_eq_of_lt code.isLt
  have hlt : Text.value (Text.fixed 6 code.val) < 1000000 := by
    rw [hv]
    exact code.isLt
  rw [sixDigits, if_neg (by simp [hall]), dif_pos hlt]
  exact congrArg some (Fin.ext hv)

theorem fromDigits_digits (code : OtpCode) : OtpCode.fromDigits (OtpCode.digits code) = some code :=
  sixDigits_fixed code

theorem isCanonical_digits (n : ℕ) : isCanonical (Text.digits n) = true := by
  have hc := Text.canonical_digits n
  have hall : (Text.digits n).all Text.isDigit = true := List.all_eq_true.mpr hc.digit
  have hlead : (decide (1 < (Text.digits n).length) && (Text.digits n).head? == some 48) = false := by
    by_cases hl : 1 < (Text.digits n).length
    · simp [hc.lead hl]
    · simp [hl]
  simp [isCanonical, hall, hlead, hc.ne_nil]

theorem decodeHeight_decimal {h : ℕ} (hh : h ≤ U32_MAX) : decodeHeight (decimal h) = some h := by
  simp [decodeHeight, decimal_eq, isCanonical_digits, hh]

theorem splitOnce_of_not_mem {sep : UInt8} {s : List UInt8} (h : sep ∉ s) : splitOnce sep s = none := by
  have hd : s.dropWhile (· != sep) = [] := by
    rw [List.dropWhile_eq_nil_iff]
    intro b hb
    simp only [bne_iff_ne]
    rintro rfl
    exact h hb
  rw [splitOnce, hd]

theorem splitOnce_append {sep : UInt8} {a : List UInt8} (h : sep ∉ a) (b : List UInt8) :
    splitOnce sep (a ++ sep :: b) = some (a, b) := by
  have ha : ∀ x ∈ a, (x != sep) = true := by
    intro x hx
    simp only [bne_iff_ne]
    rintro rfl
    exact h hx
  have hd : (a ++ sep :: b).dropWhile (· != sep) = sep :: b := by
    rw [List.dropWhile_append_of_pos ha, List.dropWhile_cons_of_neg (by simp)]
  have ht : (a ++ sep :: b).takeWhile (· != sep) = a := by
    rw [List.takeWhile_append_of_pos ha, List.takeWhile_cons_of_neg (by simp), List.append_nil]
  rw [splitOnce, hd, ht]

theorem dot_not_mem_digits (n : ℕ) : (46 : UInt8) ∉ Text.digits n := by
  intro hm
  exact absurd (Text.isDigit_of_mem_digits n _ hm) (by decide)

/-- The fraction of an amount: padding puts back the zeros that were dropped. -/
theorem pad_trim_fixed (frac : ℕ) : Text.pad 48 8 (Text.trim 48 (Text.fixed 8 frac)) =
    Text.fixed 8 frac := by
  have h := Text.trim_append 48 (Text.fixed 8 frac)
  rwa [Text.length_fixed] at h

theorem trim_fixed_ne_nil {frac : ℕ} (h0 : frac ≠ 0) (h : frac < 100000000) :
    Text.trim 48 (Text.fixed 8 frac) ≠ [] := by
  intro he
  have hp := pad_trim_fixed frac
  rw [he] at hp
  have hv := Text.value_fixed 8 frac
  have hm : frac % 10 ^ 8 = frac := Nat.mod_eq_of_lt h
  rw [← hp, hm] at hv
  exact h0 (hv.symm.trans (by decide))

/-- What `decode_zec` makes of a text, from the two sides of its point. -/
theorem decodeZec_parts {text frac : List UInt8} {n : ℕ} {price : Zatoshis}
    (hsplit : (splitOnce 46 text).getD (text, []) = (Text.digits n, frac)) (hlen : frac.length ≤ 8)
    (hdigit : frac.all Text.isDigit = true)
    (hval : n * 100000000 + (if frac.isEmpty then 0 else Text.value (Text.pad 48 8 frac)) = price.val) :
    decodeZec text = some price := by
  have hmax : price.val ≤ 2100000000000000 := price.le
  have hu : U64_MAX = 18446744073709551615 := rfl
  have hbound : n ≤ U64_MAX ∧ n * 100000000 ≤ U64_MAX ∧ price.val ≤ U64_MAX := by omega
  have hlen' : ¬ 8 < frac.length := by omega
  have hfrom : Zatoshis.fromU64 price.val = some price := dif_pos price.le
  simp only [decodeZec, hsplit, isCanonical_digits, hdigit, hlen', Text.value_digits, hval, hbound, hfrom,
    Bool.not_true, Bool.false_or, decide_false, and_self, if_true, Bool.false_eq_true, if_false]

/-- **An amount reads back.** -/
theorem decodeZec_encodeZec (price : Zatoshis) : decodeZec (encodeZec price) = some price := by
  have hdiv := Nat.div_add_mod price.val 100000000
  by_cases h0 : price.val % 100000000 = 0
  · rw [encodeZec, if_pos h0]
    have hsplit : (splitOnce 46 (Text.digits (price.val / 100000000))).getD
      (Text.digits (price.val / 100000000), []) =
        (Text.digits (price.val / 100000000), []) := by
      rw [splitOnce_of_not_mem (dot_not_mem_digits _)]
      rfl
    exact decodeZec_parts hsplit (by simp) (by simp) (by simp; omega)
  · have hlt : price.val % 100000000 < 100000000 := Nat.mod_lt _ (by decide)
    have hne := trim_fixed_ne_nil h0 hlt
    have hfix : Text.value (Text.fixed 8 (price.val % 100000000)) = price.val % 100000000 := by
      rw [Text.value_fixed]
      exact Nat.mod_eq_of_lt hlt
    have hpre := List.rdropWhile_prefix (· == (48 : UInt8)) (Text.fixed 8 (price.val % 100000000))
    rw [encodeZec, if_neg h0]
    have hsplit : (splitOnce 46 (Text.digits (price.val / 100000000) ++ 46 ::
        Text.trim 48 (Text.fixed 8 (price.val % 100000000)))).getD
          (Text.digits (price.val / 100000000) ++ 46 ::
          Text.trim 48 (Text.fixed 8 (price.val % 100000000)), []) =
        (Text.digits (price.val / 100000000), Text.trim 48 (Text.fixed 8 (price.val % 100000000))) := by
      rw [splitOnce_append (dot_not_mem_digits _)]
      rfl
    refine decodeZec_parts hsplit ?_ ?_ ?_
    · have := hpre.length_le
      rwa [Text.length_fixed] at this
    · exact List.all_eq_true.mpr fun b hb => Text.isDigit_of_mem_fixed b (hpre.subset hb)
    · rw [if_neg (by simpa using hne), pad_trim_fixed, hfix]
      omega

theorem decodeT1_encode {w : Wire} (hw : TransparentLaws w) (h : Vector UInt8 20) :
    decodeT1 w (w.encodeAddress (.publicKeyHash h)) = some (.publicKeyHash h) := by
  simp [decodeT1, hw.decode_encode]

/-! ### The fields of a challenge as text -/

theorem isField_encodeZec (price : Zatoshis) : IsField (encodeZec price) := by
  rw [encodeZec]
  split
  · exact isField_digits _
  · have hpre := List.rdropWhile_prefix (· == (48 : UInt8)) (Text.fixed 8 (price.val % 100000000))
    have hfrac : IsField (Text.trim 48 (Text.fixed 8 (price.val % 100000000))) :=
      isField_of_isDigit fun b hb => Text.isDigit_of_mem_fixed b (hpre.subset hb)
    exact isField_append (isField_digits _) (isField_append (s := [46]) (by decide) hfrac)

/-- An amount takes at most 17 characters. -/
theorem length_encodeZec_le (price : Zatoshis) : (encodeZec price).length ≤ 17 := by
  have hmax : price.val ≤ 2100000000000000 := price.le
  have hw : (Text.digits (price.val / 100000000)).length ≤ 8 :=
    Text.length_digits_le (by decide) (by omega)
  rw [encodeZec]
  split
  · omega
  · have hpre := List.rdropWhile_prefix (· == (48 : UInt8)) (Text.fixed 8 (price.val % 100000000))
    have hl := hpre.length_le
    rw [Text.length_fixed] at hl
    simp only [List.length_append, List.length_cons, Text.trim]
    omega

theorem length_decimal_height {h : ℕ} (hh : h ≤ U32_MAX) : (decimal h).length ≤ 10 := by
  have hu : U32_MAX = 4294967295 := rfl
  exact Text.length_digits_le (by decide) (by omega)

end ZnsMint.Inbound.Codec
