import ZnsMint.Note.Preimage

/-! # The memo of a Name Note

A Name Note travels in a memo of 512 bytes (`src/mint/note.rs`): six fields between colons, zeros after
them. `encode` copies the text into the buffer and fails where the text is too long; `decode` accepts the
canonical text and nothing else, and its last act is to encode what it read and compare.

A run of `encode` or `decode` that panics is `none`; `some none` is a memo that `decode` refuses. -/

namespace ZnsMint.Note.Codec

open ZnsMint.Basic ZnsMint.Note ZnsMint.Lib ZnsMint.Wire ZnsMint.Note.Preimage

/-! ### Reading the fields -/

/-- `Action::parse`, the inverse of `asStr`. -/
def Action.parse (verb : List UInt8) : Option Action :=
  if verb = ascii "claim" then some .claim
  else if verb = ascii "update" then some .update
  else if verb = ascii "release" then some .release
  else if verb = ascii "sale" then some .sale
  else if verb = ascii "list" then some .list
  else if verb = ascii "delist" then some .delist
  else if verb = ascii "auction" then some .auction
  else none

def I64_MAX : ℕ := 2 ^ 63 - 1

/-- `Expiry::parse`: exactly `none`, or a canonical decimal that a `Timestamp` holds. -/
def Expiry.parse (field : List UInt8) : Option Expiry :=
  if field = ascii "none" then some .never
  else if field.isEmpty || decide (20 < field.length) || !field.all Text.isDigit then none
  else if decide (1 < field.length) && field.head? == some 48 then none
  else if Text.value field ≤ I64_MAX then (fromSeconds (Text.value field)).map .at
  else none

/-- The address field of a Name Note: any address of this network in revision `R0`. -/
def decodeNoteUa (w : Wire) (s : List UInt8) : Option UnifiedAddress := do
  let t ← w.decodeUnified s
  if t.network ≠ w.networkType ∨ t.revision ≠ .r0 then none else t.address

/-- `[0u8; 32]`. -/
def ZERO_RCM : List UInt8 := List.replicate 32 0

/-- The predecessor field: 64 lower-case hexadecimal digits. -/
def decodePrev (s : List UInt8) : Option (List UInt8) :=
  if s.length ≠ 64 ∨ ¬ s.all Text.isHexDigit then none else Text.unhex s

/-- What each action makes of its fields: a claim has no predecessor, the others have one, and a release
has no expiry. -/
def NameNote.ofFields (action : Action) (name : Name) (uaStr : List UInt8) (ua : UnifiedAddress)
    (expiresAt : Expiry) (prev : List UInt8) : Option NameNote :=
  match action with
  | .list | .delist | .auction => none
  | .claim => if prev ≠ ZERO_RCM ∨ uaStr.isEmpty then none else some (.claim name ua expiresAt)
  | .update =>
    if prev = ZERO_RCM ∨ uaStr.isEmpty then none
    else (NameCommitment.fromBytes prev).map (.update name ua expiresAt)
  | .sale =>
    if prev = ZERO_RCM ∨ uaStr.isEmpty then none
    else (NameCommitment.fromBytes prev).map (.sale name ua expiresAt)
  | .release =>
    if uaStr.isEmpty ∨ expiresAt ≠ .never ∨ prev = ZERO_RCM then none
    else (NameCommitment.fromBytes prev).map (.release name ua)

/-- The six-field grammar. -/
def NameNote.parse (w : Wire) : List (List UInt8) → Option NameNote
  | [zns, verb, name, ua, expires, prev] =>
    if zns ≠ ascii "ZNS" then none
    else do
      let n ← Name.parse name
      let u ← decodeNoteUa w ua
      let e ← Expiry.parse expires
      let p ← decodePrev prev
      let a ← Action.parse verb
      NameNote.ofFields a n ua u e p
  | _ => none

/-! ### The codec -/

/-- The fields of the memo. -/
def NameNote.fields (params : Params) (note : NameNote) : List (List UInt8) :=
  [ascii "ZNS", ascii note.action.asStr, note.name.bytes, params.encodeUa note.ua,
    (expiryField note).fieldBytes, Text.hex (prevField note)]

/-- The text of the memo. -/
def NameNote.text (params : Params) (note : NameNote) : List UInt8 :=
  [COLON].intercalate (NameNote.fields params note)

/-- `NameNote::encode`. The copy into the buffer panics past 512 bytes. -/
def NameNote.encode (params : Params) (note : NameNote) : Option MemoBytes :=
  if h : (NameNote.text params note).length ≤
    512 then some (padded (NameNote.text params note) h) else none

/-- The text of a memo: what stands before its first zero, where only zeros follow and the text is
UTF-8. -/
def noteText (memo : MemoBytes) : Option (List UInt8) :=
  let stop := memo.toList.findIdx (· == 0)
  if (memo.toList.drop stop).any (· != 0) then none
  else if !Text.isUtf8 (memo.toList.take stop) then none
  else some (memo.toList.take stop)

/-- `NameNote::decode`. -/
def NameNote.decode (w : Wire) (memo : MemoBytes) : Option (Option NameNote) :=
  match (noteText memo).bind fun s => NameNote.parse w (s.splitOn COLON) with
  | none => some none
  | some note => (NameNote.encode w.toParams note).map fun m => if m = memo then some note else none

/-! ### Each field reads back -/

theorem Action.parse_asStr (a : Action) : Action.parse (ascii a.asStr) = some a := by
  cases a <;> rfl

theorem Action.asStr_parse {s : List UInt8} {a : Action} (h : Action.parse s = some a) :
    ascii a.asStr = s := by
  simp only [Action.parse] at h
  split_ifs at h with h1 h2 h3 h4 h5 h6 h7
  all_goals
    cases h
    first
    | exact h1.symm | exact h2.symm | exact h3.symm | exact h4.symm | exact h5.symm | exact h6.symm
    | exact h7.symm

theorem Name.parse_bytes (n : Name) : Name.parse n.bytes = some n := by
  rw [Name.parse, dif_pos n.ok]

theorem Name.bytes_parse {s : List UInt8} {n : Name} (h : Name.parse s = some n) : n.bytes = s := by
  rw [Name.parse] at h
  split at h
  · cases h
    rfl
  · cases h

/-- The expiries a memo can carry: `none`, or an instant from the epoch on. -/
def isMemoExpiry : Expiry → Bool
  | .never => true
  | .at t => decide (0 ≤ t ∧ t ≤ TIMESTAMP_MAX)

theorem inRange_of_isMemoExpiry {e : Expiry} (h : isMemoExpiry e = true) : inRange e = true := by
  rcases e with _ | t
  · rfl
  · simp only [isMemoExpiry, decide_eq_true_eq] at h
    have hmin : TIMESTAMP_MIN ≤ 0 := by decide
    exact decide_eq_true ⟨le_trans hmin h.1, h.2⟩

theorem fieldBytes_at {t : ℤ} (h : 0 ≤ t) : (Expiry.at t).fieldBytes = Text.digits t.toNat := by
  have hn : t.natAbs = t.toNat := by omega
  rw [Expiry.fieldBytes, decimalInt, if_neg (by omega), hn]
  rfl

theorem digits_ne_none (n : ℕ) : Text.digits n ≠ ascii "none" := by
  have h := decimalInt_ne_none n
  rwa [decimalInt, if_neg (by omega), Int.natAbs_natCast] at h

/-- **The expiry field reads back.** -/
theorem Expiry.parse_fieldBytes {e : Expiry} (h : isMemoExpiry e = true) :
    Expiry.parse e.fieldBytes = some e := by
  rcases e with _ | t
  · rfl
  · simp only [isMemoExpiry, decide_eq_true_eq] at h
    have hmax : TIMESTAMP_MAX = 253402300799 := rfl
    have hmin : TIMESTAMP_MIN = -377705116800 := rfl
    have hc := Text.canonical_digits t.toNat
    have hlen : (Text.digits t.toNat).length ≤ 12 := Text.length_digits_le (by decide) (by omega)
    have hall : (Text.digits t.toNat).all Text.isDigit = true := List.all_eq_true.mpr hc.digit
    have hbad : ((Text.digits t.toNat).isEmpty || decide (20 < (Text.digits t.toNat).length) ||
        !(Text.digits t.toNat).all Text.isDigit) = false := by
      simp [hall, hc.ne_nil]
      omega
    have hlead : (decide (1 < (Text.digits t.toNat).length) && (Text.digits t.toNat).head? == some 48) =
        false := by
      by_cases hl : 1 < (Text.digits t.toNat).length
      · simp [hc.lead hl]
      · simp [hl]
    have hval : ((t.toNat : ℕ) : ℤ) = t := by omega
    rw [fieldBytes_at h.1, Expiry.parse, if_neg (digits_ne_none _), hbad, hlead, Text.value_digits,
      if_neg Bool.false_ne_true, if_neg Bool.false_ne_true, if_pos (by rw [I64_MAX]; omega),
        hval, fromSeconds,
      if_pos (by omega)]
    rfl

/-- A field `Expiry::parse` accepts is the canonical one of the expiry it gives. -/
theorem Expiry.fieldBytes_parse {s : List UInt8} {e : Expiry} (h : Expiry.parse s = some e) :
    e.fieldBytes = s := by
  simp only [Expiry.parse] at h
  split_ifs at h with h1 h2 h3 h4
  · cases h
    exact h1.symm
  · obtain ⟨t, ht, rfl⟩ := Option.map_eq_some_iff.mp h
    rw [fromSeconds] at ht
    split at ht
    · cases ht
      simp only [Bool.not_eq_true, Bool.or_eq_false_iff, List.isEmpty_eq_false_iff,
        decide_eq_false_iff_not,
        Bool.not_eq_false', List.all_eq_true] at h2
      have hc : Text.Canonical s := by
        refine ⟨h2.1.1, h2.2, ?_⟩
        intro hl he
        exact h3 (by simp [hl, he])
      rw [fieldBytes_at (by omega), Int.toNat_natCast, Text.digits_value hc]
    · cases ht

theorem decodeNoteUa_encode {w : Wire} (hw : UaLaws w) {ua : UnifiedAddress}
    (h : isController ua = true) :
    decodeNoteUa w (w.encodeUa ua) = some ua := by
  simp [decodeNoteUa, hw.decode_encode ua h]

theorem encode_decodeNoteUa {w : Wire} (hw : UaLaws w) {s : List UInt8} {ua : UnifiedAddress}
    (h : decodeNoteUa w s = some ua) : w.encodeUa ua = s := by
  simp only [decodeNoteUa, Option.bind_eq_bind, Option.bind_eq_some_iff] at h
  obtain ⟨t, ht, h⟩ := h
  split at h
  · cases h
  · rename_i hn
    push Not at hn
    exact hw.encode_decode s t ua ht hn.1 hn.2 h

theorem decodePrev_hex {p : List UInt8} (h : p.length = 32) : decodePrev (Text.hex p) = some p := by
  have hall : (Text.hex p).all Text.isHexDigit = true := List.all_eq_true.mpr Text.isHexDigit_of_mem_hex
  rw [decodePrev, if_neg (by simp [hall, h]), Text.unhex_hex]

theorem decodePrev_length {s p : List UInt8} (h : decodePrev s = some p) : s.length = 64 := by
  rw [decodePrev] at h
  split at h
  · cases h
  · rename_i hn
    push Not at hn
    exact hn.1

/-! ### The fields of a note as text -/

theorem isField_name (n : Name) : IsField n.bytes := by
  have hok := n.ok
  simp only [nameOk, Bool.and_eq_true, List.all_eq_true] at hok
  intro b hb
  have h := hok.2 b hb
  simp only [isNameByte, Bool.or_eq_true, Bool.and_eq_true, decide_eq_true_eq, UInt8.le_iff_toNat_le] at h
  have e1 : (97 : UInt8).toNat = 97 := rfl
  have e2 : (122 : UInt8).toNat = 122 := rfl
  have e3 : (48 : UInt8).toNat = 48 := rfl
  have e4 : (57 : UInt8).toNat = 57 := rfl
  refine ⟨by omega, ?_, ?_⟩
  · rintro rfl
    exact absurd h (by decide)
  · rintro rfl
    exact absurd h (by decide)

theorem isField_fieldBytes {e : Expiry} : IsField e.fieldBytes := by
  rcases e with _ | t
  · exact by decide
  · rw [Expiry.fieldBytes, decimalInt]
    split
    · exact isField_append (by decide) (isField_digits _)
    · exact isField_digits _

theorem isField_asStr (a : Action) : IsField (ascii a.asStr) := by
  cases a <;> exact by decide

theorem isField_fields {params : Params} (hua : ∀ ua, IsField (params.encodeUa ua)) (note : NameNote) :
    ∀ s ∈ NameNote.fields params note, IsField s := by
  intro s hs
  simp only [NameNote.fields, List.mem_cons, List.not_mem_nil, or_false] at hs
  rcases hs with rfl | rfl | rfl | rfl | rfl | rfl
  · exact by decide
  · exact isField_asStr _
  · exact isField_name _
  · exact hua _
  · exact isField_fieldBytes
  · exact isField_hex _

/-- Fields between colons are ASCII, without a zero. -/
theorem intercalate_bounds {fs : List (List UInt8)} (h : ∀ s ∈ fs, IsField s) :
    ∀ b ∈ [COLON].intercalate fs, b.toNat < 128 ∧ b ≠ 0 := by
  induction fs with
  | nil => simp
  | cons s fs ih =>
    have hs := h s (by simp)
    have ih' := ih fun t ht => h t (by simp [ht])
    rcases fs with _ | ⟨t, fs⟩
    · intro b hb
      rw [List.intercalate_singleton] at hb
      exact ⟨(hs b hb).1, (hs b hb).2.1⟩
    · intro b hb
      rw [List.intercalate_cons_cons, List.mem_append, List.mem_append, List.mem_singleton] at hb
      rcases hb with (hb | rfl) | hb
      · exact ⟨(hs b hb).1, (hs b hb).2.1⟩
      · decide
      · exact ih' b hb

/-- Fields between colons split back into themselves. -/
theorem splitOn_fields {fs : List (List UInt8)} (hne : fs ≠ []) (h : ∀ s ∈ fs, IsField s) :
    ([COLON].intercalate fs).splitOn COLON = fs := by
  refine List.splitOn_intercalate COLON ?_ hne
  intro s hs hm
  exact (h s hs COLON hm).2.2 rfl

/-- The memo of field texts is read back by the Name Note scan. -/
theorem noteText_padded {s : List UInt8} (h : s.length ≤ 512) (hs : ∀ b ∈ s, b.toNat < 128 ∧ b ≠ 0) :
    noteText (padded s h) = some s := by
  have h0 : (0 : UInt8) ∉ s := fun hm => (hs 0 hm).2 rfl
  have hutf : Text.isUtf8 s = true := Text.isUtf8_of_lt fun b hb => (hs b hb).1
  have hdrop : (Text.pad 0 512 s).drop s.length = List.replicate (512 - s.length) 0 := List.drop_left
  have htake : (Text.pad 0 512 s).take s.length = s := List.take_left
  simp [noteText, Text.findIdx_pad h0, hdrop, htake, hutf]

/-- What the scan reads is the memo without its trailing zeros. -/
theorem noteText_some {memo : MemoBytes} {s : List UInt8} (h : noteText memo = some s) :
    s = Text.trim 0 memo.toList ∧ Text.isUtf8 s = true ∧ s.length ≤ 512 := by
  simp only [noteText] at h
  split_ifs at h with h1 h2
  cases h
  refine ⟨?_, by simpa using h2, ?_⟩
  · refine Text.take_findIdx_eq_trim ?_
    intro b hb
    by_contra hne
    exact h1 (List.any_eq_true.mpr ⟨b, hb, by simpa using hne⟩)
  · rw [List.length_take, length_toList]
    exact min_le_right _ _

/-! ### Round trip -/

/-- The text of a note of known receivers fits the memo. -/
theorem length_text_le {w : Wire} (hw : UaLaws w) {note : NameNote} (hua : isController note.ua = true)
    (hexp : isMemoExpiry (expiryField note) = true) : (NameNote.text w.toParams note).length ≤ 512 := by
  have hunk : note.ua.unknown = [] := by
    simp only [isController, Bool.and_eq_true, List.isEmpty_iff] at hua
    exact hua.1
  have h1 := length_asStr_le note.action
  have h2 := length_name_le note.name
  have h3 := hw.length_le note.ua hunk
  have h4 := length_fieldBytes_le (inRange_of_isMemoExpiry hexp)
  have h5 := length_prevField note
  have h6 : (ascii "ZNS").length = 3 := rfl
  have h7 : MAX_NAME_LEN = 63 := rfl
  simp only [NameNote.text, NameNote.fields, List.intercalate_cons_cons, List.intercalate_singleton,
    List.length_append, List.length_singleton, Text.length_hex, h5, h6]
  omega

theorem ofFields_note {note : NameNote} {uaStr : List UInt8} (hua : uaStr ≠ [])
    (hprev : ∀ p, note.prevRcm = some p → p.toBytes ≠ ZERO_RCM) :
    NameNote.ofFields note.action note.name uaStr note.ua (expiryField note) (prevField note) =
      some note := by
  have he : uaStr.isEmpty = false := by simpa using hua
  rcases note with ⟨n, u, e⟩ | ⟨n, u, e, p⟩ | ⟨n, u, p⟩ | ⟨n, u, e, p⟩
  · change (if ZERO_RCM ≠ ZERO_RCM ∨ uaStr.isEmpty = true then _ else _) = _
    rw [if_neg (by simp [he])]
    rfl
  all_goals
    have hp : p.toBytes ≠ ZERO_RCM := hprev p rfl
    simp [NameNote.ofFields, NameNote.action, expiryField, prevField, NameNote.expiresAt,
      NameNote.prevRcm,
      NameNote.name, NameNote.ua, he, hp]

theorem parse_fields {w : Wire} (hw : UaLaws w) {note : NameNote} (hua : isController note.ua = true)
    (hexp : isMemoExpiry (expiryField note) = true)
    (hprev : ∀ p, note.prevRcm = some p → p.toBytes ≠ ZERO_RCM) :
    NameNote.parse w (NameNote.fields w.toParams note) = some note := by
  have hne : w.encodeUa note.ua ≠ [] := by
    intro he
    have hl := hw.lead _ _ (hw.decode_encode note.ua hua)
    rw [he] at hl
    rcases hl with hl | hl <;> cases hl
  simp [NameNote.fields, NameNote.parse, Name.parse_bytes, decodeNoteUa_encode hw hua,
    Expiry.parse_fieldBytes hexp, decodePrev_hex (length_prevField note), Action.parse_asStr,
    ofFields_note hne hprev]

/-- A note made of fields has those fields. -/
theorem ofFields_some {a : Action} {n : Name} {uaStr p : List UInt8} {u : UnifiedAddress} {e : Expiry}
    {note : NameNote} (h : NameNote.ofFields a n uaStr u e p = some note) :
    note.action = a ∧ note.name = n ∧ note.ua = u ∧ expiryField note = e := by
  cases a <;> simp only [NameNote.ofFields, reduceCtorEq] at h
  case claim =>
    split at h
    · cases h
    · cases h
      exact ⟨rfl, rfl, rfl, rfl⟩
  case release =>
    split at h
    · cases h
    · rename_i hn
      push Not at hn
      obtain ⟨c, -, rfl⟩ := Option.map_eq_some_iff.mp h
      exact ⟨rfl, rfl, rfl, hn.2.1.symm⟩
  all_goals
    split at h
    · cases h
    · obtain ⟨c, -, rfl⟩ := Option.map_eq_some_iff.mp h
      exact ⟨rfl, rfl, rfl, rfl⟩

/-- The fields `parse` reads, each with the value it gave. -/
theorem parse_some {w : Wire} {fs : List (List UInt8)} {note : NameNote}
    (h : NameNote.parse w fs = some note) :
    ∃ verb name ua expires prev p, fs = [ascii "ZNS", verb, name, ua, expires, prev] ∧
      Action.parse verb = some note.action ∧ Name.parse name = some note.name ∧
      decodeNoteUa w ua = some note.ua ∧ Expiry.parse expires = some (expiryField note) ∧
      decodePrev prev = some p := by
  rw [NameNote.parse.eq_def] at h
  split at h
  · rename_i zns verb name ua expires prev
    split at h
    · cases h
    · rename_i hz
      simp only [ne_eq, not_not] at hz
      simp only [Option.bind_eq_bind, Option.bind_eq_some_iff] at h
      obtain ⟨n, hn, u, hu, e, he, p, hp, a, ha, h⟩ := h
      obtain ⟨rfl, rfl, rfl, rfl⟩ := ofFields_some h
      exact ⟨verb, name, ua, expires, prev, p, by rw [hz], ha, hn, hu, he, hp⟩
  · cases h

/-- What `parse` accepts is as long as the text it read. -/
theorem length_text_parse {w : Wire} (hw : UaLaws w) {fs : List (List UInt8)} {note : NameNote}
    (h : NameNote.parse w fs = some note) :
    (NameNote.text w.toParams note).length = ([COLON].intercalate fs).length := by
  obtain ⟨verb, name, ua, expires, prev, p, rfl, ha, hn, hu, he, hp⟩ := parse_some h
  have hprev : (Text.hex (prevField note)).length = prev.length := by
    rw [Text.length_hex, length_prevField, decodePrev_length hp]
  simp only [NameNote.text, NameNote.fields, List.intercalate_cons_cons, List.intercalate_singleton,
    List.length_append, Action.asStr_parse ha, Name.bytes_parse hn, encode_decodeNoteUa hw hu,
    Expiry.fieldBytes_parse he, hprev]

/-- `decode` never panics: what it encodes to compare is as long as what it read. -/
theorem decode_ne_none {w : Wire} (hw : UaLaws w) (memo : MemoBytes) : NameNote.decode w memo ≠ none := by
  rw [NameNote.decode]
  split
  · exact Option.some_ne_none _
  · rename_i note hnote
    obtain ⟨s, hs, hp⟩ := Option.bind_eq_some_iff.mp hnote
    have hlen := length_text_parse hw hp
    rw [List.intercalate_splitOn] at hlen
    rw [NameNote.encode, dif_pos (by rw [hlen]; exact (noteText_some hs).2.2)]
    exact Option.some_ne_none _

/-- What `decode` accepts, it read from the memo and encodes to it. -/
theorem decode_some {w : Wire} {memo : MemoBytes} {note : NameNote}
    (h : NameNote.decode w memo = some (some note)) :
    NameNote.encode w.toParams note = some memo ∧
      ∃ s, noteText memo = some s ∧ NameNote.parse w (s.splitOn COLON) = some note := by
  rw [NameNote.decode] at h
  split at h
  · cases h
  · rename_i note' hnote
    obtain ⟨m, hm, he⟩ := Option.map_eq_some_iff.mp h
    split at he
    · rename_i hmm
      cases he
      rw [hm, hmm]
      exact ⟨rfl, Option.bind_eq_some_iff.mp hnote⟩
    · cases he

/-- **The Name Note memo round-trips.** Every note with a controller address, an expiry from the epoch on
and a predecessor that is not all zeros is encoded, and its memo is the one memo `decode` reads it from.
`decode` panics on no memo, and what it accepts encodes back to the memo. -/
theorem memo_round_trip (w : Wire) (hw : UaLaws w) :
    (∀ note : NameNote, isController note.ua = true → isMemoExpiry (expiryField note) = true →
      (∀ p, note.prevRcm = some p → p.toBytes ≠ ZERO_RCM) →
      ∃ memo, NameNote.encode w.toParams note = some memo ∧ NameNote.decode w memo = some (some note) ∧
        ∀ memo', NameNote.decode w memo' = some (some note) → memo' = memo) ∧
    (∀ memo, NameNote.decode w memo ≠ none) ∧
    (∀ memo note, NameNote.decode w memo = some (some note) → NameNote.encode w.toParams note =
    some memo) := by
  refine ⟨?_, decode_ne_none hw, fun memo note h => (decode_some h).1⟩
  intro note hua hexp hprev
  have hlen := length_text_le hw hua hexp
  have henc : NameNote.encode w.toParams note = some (padded _ hlen) := dif_pos hlen
  have hfields := isField_fields hw.isField note
  have htext : noteText (padded _ hlen) = some (NameNote.text w.toParams note) :=
    noteText_padded hlen (intercalate_bounds hfields)
  have hsplit : (NameNote.text w.toParams note).splitOn COLON = NameNote.fields w.toParams note :=
    splitOn_fields (List.cons_ne_nil _ _) hfields
  refine ⟨padded _ hlen, henc, ?_, ?_⟩
  · have hparse : (noteText (padded _ hlen)).bind (fun s => NameNote.parse w (s.splitOn COLON)) =
        some note := by
      rw [htext, Option.bind_some, hsplit, parse_fields hw hua hexp hprev]
    rw [NameNote.decode, hparse]
    simp [henc]
  · intro memo' h'
    have h := (decode_some h').1
    rw [henc] at h
    exact (Option.some.inj h).symm

/-- A sale of `alice` with a term, through the sample codec. -/
theorem memo_round_trip_sale :
    ∃ memo, NameNote.encode Wire.sample.toParams
        (.sale alice (sampleUa 1) (.at 1775000000) ⟨⟨7, by decide⟩⟩) = some memo ∧
      NameNote.decode Wire.sample memo =
        some (some (.sale alice (sampleUa 1) (.at 1775000000) ⟨⟨7, by decide⟩⟩)) := by
  obtain ⟨memo, henc, hdec, -⟩ := (memo_round_trip Wire.sample Wire.sample_uaLaws).1
    (.sale alice (sampleUa 1) (.at 1775000000) ⟨⟨7, by decide⟩⟩) rfl rfl (by
      intro p hp
      cases hp
      decide +kernel)
  exact ⟨memo, henc, hdec⟩

end ZnsMint.Note.Codec
