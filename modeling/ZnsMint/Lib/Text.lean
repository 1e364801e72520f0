import Mathlib.Tactic
import Mathlib.Data.List.DropRight

/-! # Texts as bytes

What a line protocol is written with: decimal numbers, fixed-width digits, hexadecimal, fields between
separators, padding. A text is the list of its bytes.

* `Canonical`: a run of digits without a leading zero. `digits_value` and `value_digits`: the canonical
  runs are the decimals of the natural numbers, one each.
* `fixed`: the `k` low digits of a number, and `value_fixed`: their value.
* `hex` and `unhex`, inverse to each other on lower-case text.
* `pad` fills a text up with one byte and `trim` drops the run of it at the end; `value_pad`: the value
  of a run filled up with zeros.
* `isUtf8_of_lt`: text below 128 is UTF-8.
* `append_sep_inj`: a field ends at its first separator, and `splitOn_two`: the first two fields of a text
  are those before its first two separators. -/

namespace ZnsMint.Lib.Text

/-! ### Decimal numbers -/

/-- `b'0'..=b'9'`. -/
def isDigit (b : UInt8) : Bool := 48 ≤ b && b ≤ 57

theorem isDigit_iff {b : UInt8} : isDigit b = true ↔ 48 ≤ b.toNat ∧ b.toNat ≤ 57 := by
  simp [isDigit, UInt8.le_iff_toNat_le]

/-- The number a run of digits writes. -/
def value (s : List UInt8) : ℕ := s.foldl (fun acc b => 10 * acc + (b.toNat - 48)) 0

@[simp] theorem value_nil : value [] = 0 := rfl

theorem value_concat (s : List UInt8) (b : UInt8) : value (s ++ [b]) = 10 * value s + (b.toNat - 48) := by
  simp [value, List.foldl_append]

/-- The byte of one digit. -/
def digit (d : ℕ) : UInt8 := (48 + d).toUInt8

theorem digit_toNat {d : ℕ} (h : d < 10) : (digit d).toNat = 48 + d := by
  simp only [digit, Nat.toUInt8, UInt8.toNat_ofNat']
  omega

theorem isDigit_digit {d : ℕ} (h : d < 10) : isDigit (digit d) = true := by
  rw [isDigit_iff, digit_toNat h]
  omega

theorem digit_sub {b : UInt8} (h : isDigit b = true) : digit (b.toNat - 48) = b := by
  rw [isDigit_iff] at h
  apply UInt8.toNat_inj.mp
  rw [digit_toNat (by omega)]
  omega

/-- A number in decimal. -/
def digits (n : ℕ) : List UInt8 := (Nat.toDigits 10 n).map fun c => c.toNat.toUInt8

theorem digitChar_toUInt8 {d : ℕ} (h : d < 10) : d.digitChar.toNat.toUInt8 = digit d := by
  interval_cases d <;> rfl

theorem digits_of_lt {n : ℕ} (h : n < 10) : digits n = [digit n] := by
  rw [digits, Nat.toDigits_of_lt_base h, List.map_singleton, digitChar_toUInt8 h]

theorem digits_of_le {n : ℕ} (h : 10 ≤ n) : digits n = digits (n / 10) ++ [digit (n % 10)] := by
  rw [digits, Nat.toDigits_of_base_le (by decide) h, List.map_append, List.map_singleton,
    digitChar_toUInt8 (Nat.mod_lt _ (by decide))]
  rfl

theorem digits_ne_nil (n : ℕ) : digits n ≠ [] := by
  simp [digits, Nat.toDigits_ne_nil]

theorem isDigit_of_mem_digits (n : ℕ) : ∀ b ∈ digits n, isDigit b = true := by
  induction n using Nat.strong_induction_on with
  | _ n ih =>
    intro b hb
    by_cases h : n < 10
    · rw [digits_of_lt h, List.mem_singleton] at hb
      rw [hb]
      exact isDigit_digit h
    · rw [digits_of_le (by omega), List.mem_append, List.mem_singleton] at hb
      rcases hb with hb | hb
      · exact ih (n / 10) (by omega) b hb
      · rw [hb]
        exact isDigit_digit (Nat.mod_lt _ (by decide))

@[simp] theorem value_digits (n : ℕ) : value (digits n) = n := by
  induction n using Nat.strong_induction_on with
  | _ n ih =>
    by_cases h : n < 10
    · rw [digits_of_lt h]
      simp [value, digit_toNat h]
    · have hlt : n % 10 < 10 := Nat.mod_lt _ (by decide)
      rw [digits_of_le (by omega), value_concat, ih (n / 10) (by omega), digit_toNat hlt]
      omega

theorem digits_injective : Function.Injective digits := Function.LeftInverse.injective value_digits

/-- A decimal of at most `k` digits, from a bound on the number. -/
theorem length_digits_le {n k : ℕ} (hk : 0 < k) (h : n < 10 ^ k) : (digits n).length ≤ k := by
  rw [digits, List.length_map]
  exact (Nat.length_toDigits_le_iff (by decide) hk).mpr h

/-- Digits only, at least one, and no zero before another digit. -/
structure Canonical (s : List UInt8) : Prop where
  ne_nil : s ≠ []
  digit : ∀ b ∈ s, isDigit b = true
  lead : 1 < s.length → s.head? ≠ some 48

theorem head?_digits_ne {n : ℕ} (h : 0 < n) : (digits n).head? ≠ some 48 := by
  induction n using Nat.strong_induction_on with
  | _ n ih =>
    by_cases hn : n < 10
    · rw [digits_of_lt hn, List.head?_singleton]
      intro he
      have hd : (digit n).toNat = 48 := by rw [Option.some.inj he]; rfl
      rw [digit_toNat hn] at hd
      omega
    · rw [digits_of_le (by omega), List.head?_append_of_ne_nil _ (digits_ne_nil _)]
      exact ih (n / 10) (by omega) (by omega)

theorem canonical_digits (n : ℕ) : Canonical (digits n) where
  ne_nil := digits_ne_nil n
  digit := isDigit_of_mem_digits n
  lead := by
    intro hl
    refine head?_digits_ne (Nat.pos_of_ne_zero ?_)
    rintro rfl
    simp [digits_of_lt (show 0 < 10 by decide)] at hl

theorem value_pos {s : List UInt8} (hs : s ≠ []) (hd : ∀ b ∈ s, isDigit b = true)
    (h0 : s.head? ≠ some 48) : 0 < value s := by
  induction s using List.reverseRecOn with
  | nil => exact absurd rfl hs
  | append_singleton t b ih =>
    rw [value_concat]
    by_cases ht : t = []
    · subst ht
      have hb := isDigit_iff.mp (hd b (by simp))
      have hne : b.toNat ≠ 48 := by
        intro he
        exact h0 (by simpa using UInt8.toNat_inj.mp (by simpa using he))
      omega
    · rw [List.head?_append_of_ne_nil _ ht] at h0
      have := ih ht (fun x hx => hd x (by simp [hx])) h0
      omega

/-- **A canonical run is the decimal of its value.** -/
theorem digits_value {s : List UInt8} (h : Canonical s) : digits (value s) = s := by
  obtain ⟨hs, hd, hl⟩ := h
  induction s using List.reverseRecOn with
  | nil => exact absurd rfl hs
  | append_singleton t b ih =>
    have hb := hd b (by simp)
    have hb' := isDigit_iff.mp hb
    rw [value_concat]
    by_cases ht : t = []
    · subst ht
      rw [value_nil, digits_of_lt (by omega)]
      simpa using digit_sub hb
    · have hdt : ∀ x ∈ t, isDigit x = true := fun x hx => hd x (by simp [hx])
      have hlen : 0 < t.length := List.length_pos_of_ne_nil ht
      have h0 : t.head? ≠ some 48 := by
        have := hl (by rw [List.length_append, List.length_singleton]; omega)
        rwa [List.head?_append_of_ne_nil _ ht] at this
      have hpos := value_pos ht hdt h0
      rw [digits_of_le (by omega), show (10 * value t + (b.toNat - 48)) / 10 = value t by omega,
        show (10 * value t + (b.toNat - 48)) % 10 = b.toNat - 48 by omega, digit_sub hb,
        ih ht hdt fun _ => h0]

/-! ### Fixed width -/

/-- The `k` low digits of `n`, most significant first. -/
def fixed : ℕ → ℕ → List UInt8
  | 0, _ => []
  | k + 1, n => fixed k (n / 10) ++ [digit (n % 10)]

@[simp] theorem length_fixed (k n : ℕ) : (fixed k n).length = k := by
  induction k generalizing n with
  | zero => rfl
  | succ k ih => simp [fixed, ih]

theorem isDigit_of_mem_fixed {k n : ℕ} : ∀ b ∈ fixed k n, isDigit b = true := by
  induction k generalizing n with
  | zero => simp [fixed]
  | succ k ih =>
    intro b hb
    rw [fixed, List.mem_append, List.mem_singleton] at hb
    rcases hb with hb | hb
    · exact ih b hb
    · rw [hb]
      exact isDigit_digit (Nat.mod_lt _ (by decide))

theorem value_fixed (k n : ℕ) : value (fixed k n) = n % 10 ^ k := by
  induction k generalizing n with
  | zero => simp [fixed, Nat.mod_one]
  | succ k ih =>
    rw [fixed, value_concat, ih, digit_toNat (Nat.mod_lt _ (by decide)), Nat.pow_succ', Nat.mod_mul]
    omega

/-! ### Hexadecimal -/

/-- One lower-case hexadecimal digit. -/
def hexDigit (d : ℕ) : UInt8 := if d < 10 then (48 + d).toUInt8 else (87 + d).toUInt8

/-- Bytes in lower-case hexadecimal, two digits each. -/
def hex (s : List UInt8) : List UInt8 := s.flatMap fun b =>
    [hexDigit (b.toNat / 16), hexDigit (b.toNat % 16)]

/-- `b'0'..=b'9' | b'a'..=b'f'`. -/
def isHexDigit (b : UInt8) : Bool := isDigit b || (97 ≤ b && b ≤ 102)

/-- The value of a hexadecimal digit of either case. -/
def hexVal (b : UInt8) : Option ℕ :=
  if isDigit b then some (b.toNat - 48)
  else if 97 ≤ b && b ≤ 102 then some (b.toNat - 87)
  else if 65 ≤ b && b ≤ 70 then some (b.toNat - 55)
  else none

/-- The bytes a hexadecimal text writes; an odd length or another byte is refused. -/
def unhex : List UInt8 → Option (List UInt8)
  | [] => some []
  | [_] => none
  | a :: b :: s => do
    let hi ← hexVal a
    let lo ← hexVal b
    let rest ← unhex s
    return (16 * hi + lo).toUInt8 :: rest

theorem hexVal_hexDigit {d : ℕ} (h : d < 16) : hexVal (hexDigit d) = some d := by
  interval_cases d <;> rfl

theorem isHexDigit_hexDigit {d : ℕ} (h : d < 16) : isHexDigit (hexDigit d) = true := by
  interval_cases d <;> rfl

@[simp] theorem hex_nil : hex [] = [] := rfl

@[simp] theorem hex_cons (b : UInt8) (s : List UInt8) :
    hex (b :: s) = hexDigit (b.toNat / 16) :: hexDigit (b.toNat % 16) :: hex s := rfl

@[simp] theorem length_hex (s : List UInt8) : (hex s).length = 2 * s.length := by
  induction s with
  | nil => rfl
  | cons b s ih =>
    rw [hex_cons, List.length_cons, List.length_cons, ih, List.length_cons]
    omega

theorem isHexDigit_of_mem_hex {s : List UInt8} : ∀ b ∈ hex s, isHexDigit b = true := by
  induction s with
  | nil => simp
  | cons c s ih =>
    have hc : c.toNat < 256 := c.toNat_lt
    intro b hb
    rw [hex_cons, List.mem_cons, List.mem_cons] at hb
    rcases hb with rfl | rfl | hb
    · exact isHexDigit_hexDigit (by omega)
    · exact isHexDigit_hexDigit (by omega)
    · exact ih b hb

/-- **Reading back what `hex` wrote.** -/
@[simp] theorem unhex_hex (s : List UInt8) : unhex (hex s) = some s := by
  induction s with
  | nil => rfl
  | cons c s ih =>
    have hc : c.toNat < 256 := c.toNat_lt
    have hv : (16 * (c.toNat / 16) + c.toNat % 16).toUInt8 = c := by
      rw [Nat.div_add_mod]
      exact UInt8.toNat_inj.mp (by simp)
    rw [hex_cons, unhex, hexVal_hexDigit (by omega), hexVal_hexDigit (by omega), ih]
    exact congrArg (fun b => some (b :: s)) hv

theorem hex_injective : Function.Injective hex := by
  intro a b h
  have := congrArg unhex h
  simpa using this

/-! ### Padding -/

/-- `s` filled up to `k` bytes. -/
def pad (fill : UInt8) (k : ℕ) (s : List UInt8) : List UInt8 := s ++ List.replicate (k - s.length) fill

theorem length_pad {fill : UInt8} {k : ℕ} {s : List UInt8} (h : s.length ≤ k) :
    (pad fill k s).length = k := by
  simp only [pad, List.length_append, List.length_replicate]
  omega

/-- Zeros at the end multiply by ten each. -/
theorem value_append_zeros (s : List UInt8) (k : ℕ) : value (s ++ List.replicate k 48) =
    value s * 10 ^ k := by
  induction k with
  | zero => simp
  | succ k ih =>
    have hz : (48 : UInt8).toNat - 48 = 0 := rfl
    rw [List.replicate_succ', ← List.append_assoc, value_concat, ih, hz, pow_succ]
    ring

theorem value_pad (k : ℕ) (s : List UInt8) : value (pad 48 k s) = value s * 10 ^ (k - s.length) :=
  value_append_zeros s _

/-- `s` without the run of `fill` at its end. -/
def trim (fill : UInt8) (s : List UInt8) : List UInt8 := s.rdropWhile (· == fill)

theorem trim_append_replicate (fill : UInt8) (s : List UInt8) (k : ℕ) :
    trim fill (s ++ List.replicate k fill) = trim fill s := by
  induction k with
  | zero => simp
  | succ k ih =>
    rw [List.replicate_succ', ← List.append_assoc, trim, List.rdropWhile_concat_pos _ _ _ (by simp)]
    exact ih

theorem trim_of_not_mem {fill : UInt8} {s : List UInt8} (h : fill ∉ s) : trim fill s = s := by
  rw [trim, List.rdropWhile_eq_self_iff]
  intro hs he
  exact h (by rw [← eq_of_beq he]; exact List.getLast_mem hs)

@[simp] theorem trim_pad {fill : UInt8} {k : ℕ} {s : List UInt8} (h : fill ∉ s) :
    trim fill (pad fill k s) = s := by
  rw [pad, trim_append_replicate, trim_of_not_mem h]

/-- What `trim` took away comes back by padding. -/
theorem trim_append (fill : UInt8) (s : List UInt8) :
    trim fill s ++ List.replicate (s.length - (trim fill s).length) fill = s := by
  induction s using List.reverseRecOn with
  | nil => rfl
  | append_singleton t b ih =>
    by_cases hb : b = fill
    · have hle : (trim fill t).length ≤ t.length := (List.rdropWhile_prefix _ _).length_le
      have ht : trim fill (t ++ [b]) = trim fill t :=
        List.rdropWhile_concat_pos _ _ _ (by simp [hb])
      rw [ht, List.length_append, List.length_singleton, Nat.succ_sub hle, List.replicate_succ',
        ← List.append_assoc, ih, hb]
    · have ht : trim fill (t ++ [b]) = t ++ [b] := List.rdropWhile_concat_neg _ _ _ (by simp [hb])
      rw [ht]
      simp

/-- A text that stops at its first `fill` byte is its trimmed text. -/
theorem take_findIdx_eq_trim {fill : UInt8} {s : List UInt8}
    (h : ∀ b ∈ s.drop (s.findIdx (· == fill)), b = fill) : s.take (s.findIdx (· == fill)) =
    trim fill s := by
  have hd : s.drop (s.findIdx (· == fill)) = List.replicate
      (s.drop (s.findIdx (· == fill))).length fill :=
    List.eq_replicate_of_mem h
  have hn : fill ∉ s.take (s.findIdx (· == fill)) := by
    intro hm
    obtain ⟨i, hi, he⟩ := List.getElem_of_mem hm
    rw [List.length_take] at hi
    have := List.not_of_lt_findIdx (show i < s.findIdx (· == fill) by omega)
    simp [List.getElem_take] at he
    simp [he] at this
  conv_rhs => rw [← List.take_append_drop (s.findIdx (· == fill)) s, hd, trim_append_replicate]
  exact (trim_of_not_mem hn).symm

theorem findIdx_pad {fill : UInt8} {k : ℕ} {s : List UInt8} (h : fill ∉ s) :
    (pad fill k s).findIdx (· == fill) = s.length := by
  have hs : s.findIdx (· == fill) = s.length := by
    rw [List.findIdx_eq_length]
    intro b hb
    simp only [beq_eq_false_iff_ne]
    rintro rfl
    exact h hb
  have hr : (List.replicate (k - s.length) fill).findIdx (· == fill) = 0 := by
    rcases k - s.length with _ | n
    · rfl
    · simp [List.replicate_succ, List.findIdx_cons]
  rw [pad, List.findIdx_append, hs, if_neg (lt_irrefl _), hr, zero_add]

/-! ### Fields -/

/-- A field ends at its first separator. -/
theorem append_sep_inj {sep : UInt8} {a b x y : List UInt8} (ha : sep ∉ a) (hb : sep ∉ b)
    (h : a ++ sep :: x = b ++ sep :: y) : a = b ∧ x = y := by
  have hs := congrArg (List.splitOn sep) h
  rw [List.splitOn_append_cons_self_of_not_mem ha, List.splitOn_append_cons_self_of_not_mem hb,
    List.cons.injEq] at hs
  obtain ⟨rfl, -⟩ := hs
  have hx := List.append_cancel_left h
  exact ⟨rfl, (List.cons.inj hx).2⟩

/-- The first two fields are the text before the first two separators. -/
theorem splitOn_two {sep : UInt8} {a b : List UInt8} (ha : sep ∉ a) (hb : sep ∉ b) (s : List UInt8) :
    (a ++ sep :: (b ++ sep :: s)).splitOn sep = a :: b :: s.splitOn sep := by
  rw [List.splitOn_append_cons_self_of_not_mem ha, List.splitOn_append_cons_self_of_not_mem hb]

/-! ### UTF-8 -/

/-- The bytes are valid UTF-8. -/
def isUtf8 (s : List UInt8) : Bool := (ByteArray.mk s.toArray).validateUTF8

/-- **Text below 128 is UTF-8**: every byte is a character of its own. -/
theorem isUtf8_of_lt {s : List UInt8} (h : ∀ b ∈ s, b.toNat < 128) : isUtf8 s = true := by
  rw [isUtf8, ByteArray.validateUTF8_eq_true_iff]
  induction s using List.reverseRecOn with
  | nil => exact ByteArray.isValidUTF8_empty
  | append_singleton t b ih =>
    have hb := h b (by simp)
    have hc : (Char.ofUInt8 b).utf8Size = 1 := by
      rw [Char.utf8Size_eq_one_iff]
      change b.toUInt32 ≤ 127
      rw [UInt32.le_iff_toNat_le, UInt8.toNat_toUInt32]
      exact Nat.le_of_lt_succ hb
    have hp := (ih fun x hx => h x (by simp [hx])).push hc
    have he : (ByteArray.mk t.toArray).push (Char.ofUInt8 b).toUInt8 =
        ByteArray.mk (t ++ [b]).toArray := by
      have hbyte : (Char.ofUInt8 b).toUInt8 = b := UInt8.toUInt8_toUInt32 b
      rw [hbyte, ← List.push_toArray]
      rfl
    rwa [he] at hp

end ZnsMint.Lib.Text
