import ZnsMint.Inbound.Codec
import Mathlib.Algebra.Order.Floor.Semifield
import Mathlib.Data.Rat.Floor

/-! # Prices

A price as text and a price that falls (`src/mint/sale.rs`).

* `ZecText` is the grammar of an amount: a whole part without a superfluous zero, and after a point at
  most eight digits. `decode_zec` reads exactly these texts, each at its value (`decodeZec_iff`).
* `priceAtChecked` is `price_at` with every machine operation it does: a subtraction below zero, a
  product above `u128` and a division by zero stop it. None of them happens (`priceAtChecked_eq`), and
  the price it quotes is the start price less the part of the fall that has gone by, rounded down. -/

namespace ZnsMint.Inbound

open ZnsMint.Basic ZnsMint.Lib

/-! ### Amounts as text -/

namespace Codec

/-- The text of an amount in ZEC. The point may stand without a digit after it. -/
structure ZecText where
  whole : List UInt8
  frac : Option (List UInt8)
  canonical : Text.Canonical whole
  digit : ∀ b ∈ frac.getD [], Text.isDigit b = true
  length_le : (frac.getD []).length ≤ 8

namespace ZecText

/-- The text itself. -/
def text (t : ZecText) : List UInt8 := t.whole ++ t.frac.elim [] (46 :: ·)

/-- What it writes, in zatoshis: a digit after the point is worth a tenth of the one before it. -/
def zats (t : ZecText) : ℕ :=
  Text.value t.whole * 10 ^ 8 + Text.value (t.frac.getD []) * 10 ^ (8 - (t.frac.getD []).length)

end ZecText

theorem isCanonical_iff {s : List UInt8} : isCanonical s = true ↔ Text.Canonical s := by
  constructor
  · intro h
    simp only [isCanonical, Bool.not_eq_true', Bool.or_eq_false_iff, List.isEmpty_eq_false_iff,
      Bool.and_eq_false_iff, decide_eq_false_iff_not, beq_eq_false_iff_ne, Bool.not_eq_false'] at h
    obtain ⟨⟨hne, hlead⟩, hall⟩ := h
    refine ⟨hne, List.all_eq_true.mp hall, ?_⟩
    intro hl
    rcases hlead with hlead | hlead
    · exact absurd hl hlead
    · exact hlead
  · intro h
    rw [← Text.digits_value h]
    exact isCanonical_digits _

/-- `split_once` cuts at the separator. -/
theorem splitOnce_eq_some {sep : UInt8} {s a b : List UInt8} (h : splitOnce sep s = some (a, b)) :
    s = a ++ sep :: b := by
  by_cases hm : sep ∈ s
  · obtain ⟨x, y, rfl, hx⟩ := List.eq_append_cons_of_mem hm
    rw [splitOnce_append hx] at h
    obtain ⟨rfl, rfl⟩ := Prod.mk.inj (Option.some.inj h)
    rfl
  · rw [splitOnce_of_not_mem hm] at h
    exact absurd h (by simp)

theorem dot_not_mem {s : List UInt8} (h : ∀ b ∈ s, Text.isDigit b = true) : (46 : UInt8) ∉ s := by
  intro hm
  exact absurd (h _ hm) (by decide)

/-- The two sides of the point of an amount. -/
theorem ZecText.split (t : ZecText) : (splitOnce 46 t.text).getD (t.text, []) =
    (t.whole, t.frac.getD []) := by
  have hdot := dot_not_mem t.canonical.digit
  unfold ZecText.text
  cases t.frac with
  | none =>
    have h : t.whole ++ (none : Option (List UInt8)).elim [] (46 :: ·) = t.whole := List.append_nil _
    rw [h, splitOnce_of_not_mem hdot]
    rfl
  | some f =>
    have h : t.whole ++ (some f).elim [] (46 :: ·) = t.whole ++ 46 :: f := rfl
    rw [h, splitOnce_append hdot]
    rfl

/-- What is read after the point is the fraction in zatoshis. -/
theorem ZecText.fraction (t : ZecText) :
    (if (t.frac.getD []).isEmpty then 0 else Text.value (Text.pad 48 8 (t.frac.getD []))) =
      Text.value (t.frac.getD []) * 10 ^ (8 - (t.frac.getD []).length) := by
  by_cases he : t.frac.getD [] = []
  · simp [he]
  · rw [if_neg (by simpa using he), Text.value_pad]

/-- **A text of the grammar is read at its value**, or refused above the monetary range: no check on a
machine word refuses it before. -/
theorem decodeZec_text (t : ZecText) : decodeZec t.text = Zatoshis.fromU64 t.zats := by
  have hcan : isCanonical t.whole = true := isCanonical_iff.mpr t.canonical
  have hall : (t.frac.getD []).all Text.isDigit = true := List.all_eq_true.mpr t.digit
  have hlen : ¬ 8 < (t.frac.getD []).length := by
    have := t.length_le
    omega
  have hz : Text.value t.whole * 100000000 +
      Text.value (t.frac.getD []) * 10 ^ (8 - (t.frac.getD []).length) = t.zats := rfl
  simp only [decodeZec, t.split, hcan, hall, hlen, t.fraction, hz, Bool.not_true, Bool.false_or,
    decide_false,
    Bool.false_eq_true, if_false]
  by_cases hw : t.zats ≤ U64_MAX
  · have hle : Text.value t.whole * 100000000 ≤ t.zats := Nat.le_add_right _ _
    rw [if_pos ⟨by omega, by omega, hw⟩]
  · -- what does not fit a `u64` is above the monetary range too
    have hm : ¬ t.zats ≤ MAX_MONEY := by
      have hu : U64_MAX = 18446744073709551615 := rfl
      have hmax : MAX_MONEY = 2100000000000000 := rfl
      omega
    rw [if_neg (fun h => hw h.2.2), Zatoshis.fromU64, dif_neg hm]

/-- Whatever is read is a text of the grammar. -/
theorem exists_zecText {s : List UInt8} (h : (decodeZec s).isSome = true) : ∃ t :
    ZecText, t.text = s := by
  obtain ⟨whole, frac, hsplit, htext⟩ : ∃ (whole : List UInt8) (frac : Option (List UInt8)),
      (splitOnce 46 s).getD (s, []) = (whole, frac.getD []) ∧ whole ++ frac.elim [] (46 :: ·) = s := by
    cases hs : splitOnce 46 s with
    | none => exact ⟨s, none, rfl, List.append_nil _⟩
    | some p => exact ⟨p.1, some p.2, rfl, (splitOnce_eq_some hs).symm⟩
  have hcheck : (!isCanonical whole || decide (8 < (frac.getD []).length) ||
      !(frac.getD []).all Text.isDigit) = false := by
    by_contra hc
    rw [Bool.not_eq_false] at hc
    simp [decodeZec, hsplit, hc] at h
  simp only [Bool.or_eq_false_iff, Bool.not_eq_false', decide_eq_false_iff_not] at hcheck
  obtain ⟨⟨hcan, hlen⟩, hall⟩ := hcheck
  exact ⟨⟨whole, frac, isCanonical_iff.mp hcan, List.all_eq_true.mp hall, not_lt.mp hlen⟩, htext⟩

/-- **Amounts are read and written exactly.** -/
theorem decodeZec_exact :
    (∀ z : Zatoshis, decodeZec (encodeZec z) = some z) ∧
      (∀ s, (decodeZec s).isSome = true ↔ ∃ t : ZecText, t.text = s ∧ t.zats ≤ MAX_MONEY) ∧
        ∀ (t : ZecText) (z : Zatoshis), decodeZec t.text = some z → z.val = t.zats := by
  refine ⟨decodeZec_encodeZec, ?_, ?_⟩
  · intro s
    constructor
    · intro h
      obtain ⟨t, rfl⟩ := exists_zecText h
      rw [decodeZec_text, Zatoshis.fromU64] at h
      by_cases hm : t.zats ≤ MAX_MONEY
      · exact ⟨t, rfl, hm⟩
      · rw [dif_neg hm] at h
        exact absurd h (by simp)
    · rintro ⟨t, rfl, hm⟩
      rw [decodeZec_text, Zatoshis.fromU64, dif_pos hm]
      rfl
  · intro t z h
    rw [decodeZec_text, Zatoshis.fromU64] at h
    by_cases hm : t.zats ≤ MAX_MONEY
    · rw [dif_pos hm] at h
      rw [← Option.some.inj h]
    · rw [dif_neg hm] at h
      exact absurd h (by simp)

end Codec

/-! ### The falling price -/

/-- `a - b` on unsigned words; absent below zero. -/
def checkedSub (a b : ℕ) : Option ℕ := if b ≤ a then some (a - b) else none

/-- `a * b` on words of `w` bits; absent above them. -/
def checkedMul (w a b : ℕ) : Option ℕ := if a * b < 2 ^ w then some (a * b) else none

/-- `a / b`; absent for a zero divisor. -/
def checkedDiv (a b : ℕ) : Option ℕ := if b = 0 then none else some (a / b)

namespace Clock

/-- `price_at` operation by operation. The outer option is absent where the program would stop; the inner
one is its answer. -/
def priceAtChecked (c : Clock) (height : ℕ) : Option (Option Zatoshis) :=
  if !c.isValid || decide (height < c.start) || decide (c.finish < height) then some none
  else do
    let span ← checkedSub c.finish c.start
    let elapsed ← checkedSub height c.start
    let drop ← checkedSub c.startPrice.val c.minPrice.val
    let product ← checkedMul 128 drop elapsed
    let fallen ← checkedDiv product span
    -- `u64::try_from(..).ok()?`
    if Codec.U64_MAX < fallen then some none
    else
      let price ← checkedSub c.startPrice.val fallen
      return Zatoshis.fromU64 price

theorem isValid_iff {c : Clock} : c.isValid = true ↔ c.start < c.finish ∧
    c.minPrice.val < c.startPrice.val := by
  simp [isValid]

/-- How far the price has fallen at `height`. -/
def fallen (c : Clock) (height : ℕ) : ℕ :=
  (c.startPrice.val - c.minPrice.val) * (height - c.start) / (c.finish - c.start)

theorem fallen_mono (c : Clock) {h k : ℕ} (hk : h ≤ k) : c.fallen h ≤ c.fallen k := by
  have he : h - c.start ≤ k - c.start := Nat.sub_le_sub_right hk _
  exact Nat.div_le_div_right (Nat.mul_le_mul_left _ he)

theorem fallen_start (c : Clock) : c.fallen c.start = 0 := by
  simp [fallen]

theorem fallen_finish {c : Clock} (hv : c.start < c.finish) :
    c.fallen c.finish = c.startPrice.val - c.minPrice.val :=
  Nat.mul_div_cancel _ (by omega)

/-- Within the span the price falls by the drop at most. -/
theorem fallen_le {c : Clock} (hv : c.start < c.finish) {h : ℕ} (hf : h ≤ c.finish) :
    c.fallen h ≤ c.startPrice.val - c.minPrice.val := by
  rw [← fallen_finish hv]
  exact c.fallen_mono hf

/-- The fall as the rounded-down rational share of the drop. -/
theorem fallen_eq_floor {c : Clock} (hp : c.minPrice.val ≤ c.startPrice.val) {h : ℕ} (hs : c.start ≤ h)
    (hv : c.start ≤ c.finish) :
    (c.fallen h : ℤ) = ⌊((c.startPrice.val : ℚ) - c.minPrice.val) * ((h : ℚ) - c.start) /
      ((c.finish : ℚ) - c.start)⌋ := by
  rw [← Nat.cast_sub hp, ← Nat.cast_sub hs, ← Nat.cast_sub hv, ← Nat.cast_mul,
    Rat.floor_natCast_div_natCast]
  rfl

theorem priceAt_eq {c : Clock} {h : ℕ} (hv : c.isValid = true) (hs : c.start ≤ h) (hf : h ≤ c.finish) :
    c.priceAt h = Zatoshis.fromU64 (c.startPrice.val - c.fallen h) := by
  simp [priceAt, hv, not_lt.mpr hs, not_lt.mpr hf, fallen]

/-- Outside the span there is no price. -/
theorem priceAt_eq_none {c : Clock} {h : ℕ} (hh : ¬ (c.start ≤ h ∧ h ≤ c.finish)) :
    c.priceAt h = none := by
  have hc : (decide (h < c.start) || decide (c.finish < h)) = true := by
    simp only [Bool.or_eq_true, decide_eq_true_eq]
    omega
  rw [priceAt, if_pos (by rw [Bool.or_assoc, hc, Bool.or_true])]

/-- Inside it there is one, short of the start price by the fall. -/
theorem exists_priceAt {c : Clock} {h : ℕ} (hv : c.isValid = true) (hs : c.start ≤ h)
    (hf : h ≤ c.finish) :
    ∃ p : Zatoshis, c.priceAt h = some p ∧ p.val + c.fallen h = c.startPrice.val := by
  obtain ⟨hspan, hdrop⟩ := isValid_iff.mp hv
  have hle := fallen_le hspan hf
  have hmax : c.startPrice.val - c.fallen h ≤ MAX_MONEY := le_trans (Nat.sub_le _ _) c.startPrice.le
  refine ⟨⟨c.startPrice.val - c.fallen h, hmax⟩, ?_, ?_⟩
  · rw [priceAt_eq hv hs hf, Zatoshis.fromU64, dif_pos hmax]
  · show c.startPrice.val - c.fallen h + c.fallen h = c.startPrice.val
    omega

/-- **No operation of `price_at` overflows, goes below zero or divides by zero.** -/
theorem priceAtChecked_eq {c : Clock} {h : ℕ} (hh : h ≤ Codec.U32_MAX) :
    c.priceAtChecked h = some (c.priceAt h) := by
  by_cases hc : (!c.isValid || decide (h < c.start) || decide (c.finish < h)) = true
  · rw [priceAtChecked, priceAt, if_pos hc, if_pos hc]
  · have hin := hc
    simp only [Bool.not_eq_true, Bool.or_eq_false_iff, Bool.not_eq_false', decide_eq_false_iff_not,
      not_lt] at hin
    obtain ⟨⟨hv, hs⟩, hf⟩ := hin
    obtain ⟨hspan, hdrop⟩ := isValid_iff.mp hv
    have hle := fallen_le hspan hf
    have hmax : c.startPrice.val ≤ 2100000000000000 := c.startPrice.le
    have hu32 : Codec.U32_MAX = 4294967295 := rfl
    have hu64 : Codec.U64_MAX = 18446744073709551615 := rfl
    have hprod : (c.startPrice.val - c.minPrice.val) * (h - c.start) < 2 ^ 128 := by
      calc (c.startPrice.val - c.minPrice.val) * (h - c.start)
          ≤ 2100000000000000 * 4294967295 := Nat.mul_le_mul (by omega) (by omega)
        _ < 2 ^ 128 := by norm_num
    have hfit : ¬ Codec.U64_MAX < c.fallen h := by omega
    have hsub : c.fallen h ≤ c.startPrice.val := by omega
    have hne : ¬ c.finish - c.start = 0 := by omega
    have hquot : (c.startPrice.val - c.minPrice.val) * (h - c.start) / (c.finish - c.start) =
      c.fallen h := rfl
    rw [priceAtChecked, if_neg hc, priceAt_eq hv hs hf]
    simp only [checkedSub, checkedMul, checkedDiv, if_pos hspan.le, if_pos hs, if_pos hdrop.le,
      if_pos hprod,
      if_neg hne, Option.bind_eq_bind, Option.bind_some, hquot, if_neg hfit, if_pos hsub]
    rfl

/-- What a quoted price says of its height. -/
theorem of_priceAt {c : Clock} {h : ℕ} {p : Zatoshis} (hv : c.isValid = true)
    (hp : c.priceAt h = some p) :
    c.start ≤ h ∧ h ≤ c.finish ∧ p.val + c.fallen h = c.startPrice.val := by
  have hin : c.start ≤ h ∧ h ≤ c.finish := by
    by_contra hn
    rw [priceAt_eq_none hn] at hp
    exact absurd hp (by simp)
  obtain ⟨q, hq, hsum⟩ := exists_priceAt hv hin.1 hin.2
  obtain rfl : q = p := Option.some.inj (hq.symm.trans hp)
  exact ⟨hin.1, hin.2, hsum⟩

theorem priceAt_isSome_iff {c : Clock} (hv : c.isValid = true) {h : ℕ} :
    (c.priceAt h).isSome = true ↔ c.start ≤ h ∧ h ≤ c.finish := by
  constructor
  · intro hs
    obtain ⟨p, hp⟩ := Option.isSome_iff_exists.mp hs
    obtain ⟨h1, h2, -⟩ := of_priceAt hv hp
    exact ⟨h1, h2⟩
  · rintro ⟨h1, h2⟩
    obtain ⟨p, hp, -⟩ := exists_priceAt hv h1 h2
    rw [hp]
    rfl

theorem priceAt_start {c : Clock} (hv : c.isValid = true) : c.priceAt c.start = some c.startPrice := by
  obtain ⟨hspan, -⟩ := isValid_iff.mp hv
  rw [priceAt_eq hv le_rfl hspan.le, fallen_start, Nat.sub_zero]
  exact dif_pos c.startPrice.le

theorem priceAt_finish {c : Clock} (hv : c.isValid = true) : c.priceAt c.finish = some c.minPrice := by
  obtain ⟨hspan, hdrop⟩ := isValid_iff.mp hv
  have hlast : c.startPrice.val - (c.startPrice.val - c.minPrice.val) = c.minPrice.val := by omega
  rw [priceAt_eq hv hspan.le le_rfl, fallen_finish hspan, hlast]
  exact dif_pos c.minPrice.le

end Clock

/-- **The falling clock.** -/
theorem clock_falls (c : Clock) (hv : c.isValid = true) :
    (∀ h ≤ Codec.U32_MAX, c.priceAtChecked h = some (c.priceAt h)) ∧
      (∀ h, (c.priceAt h).isSome = true ↔ c.start ≤ h ∧ h ≤ c.finish) ∧
        c.priceAt c.start = some c.startPrice ∧ c.priceAt c.finish = some c.minPrice ∧
          (∀ h k p q, h ≤ k → c.priceAt h = some p → c.priceAt k = some q → q.val ≤ p.val) ∧
            ∀ h p, c.priceAt h = some p → c.minPrice.val ≤ p.val ∧ p.val ≤ c.startPrice.val ∧
              (p.val : ℤ) = c.startPrice.val - ⌊((c.startPrice.val : ℚ) - c.minPrice.val) *
                ((h : ℚ) - c.start) / ((c.finish : ℚ) - c.start)⌋ := by
  obtain ⟨hspan, hdrop⟩ := Clock.isValid_iff.mp hv
  refine ⟨fun h hh => Clock.priceAtChecked_eq hh, fun h => Clock.priceAt_isSome_iff hv,
    Clock.priceAt_start hv,
    Clock.priceAt_finish hv, ?_, ?_⟩
  · intro h k p q hk hp hq
    obtain ⟨-, -, hsum⟩ := Clock.of_priceAt hv hp
    obtain ⟨-, -, hsum'⟩ := Clock.of_priceAt hv hq
    have hmono := c.fallen_mono hk
    omega
  · intro h p hp
    obtain ⟨hs, hf, hsum⟩ := Clock.of_priceAt hv hp
    have hle := Clock.fallen_le hspan hf
    rw [← Clock.fallen_eq_floor hdrop.le hs hspan.le]
    omega

/-- A fall of 10 over 3 blocks: 100, 97, 94, 90. -/
theorem clock_falls_thirds :
    (⟨(Zatoshis.fromU64 100).getD .zero, (Zatoshis.fromU64 90).getD .zero, 7, 10⟩ : Clock).priceAt 10 =
      some ((Zatoshis.fromU64 90).getD .zero) :=
  (clock_falls ⟨(Zatoshis.fromU64 100).getD .zero, (Zatoshis.fromU64 90).getD .zero, 7, 10⟩ rfl).2.2.2.1

end ZnsMint.Inbound
