import ZnsMint.Wire

/-! # What a commitment commits to

The digest of a Name Note is taken over six fields (`tagged_zns_hash` of `src/mint/note.rs`): five of them
behind their length in four bytes, the predecessor's 32 bytes last. The bytes that are hashed determine
the fields, and the fields of a note determine the note.

* `absorb_append`: a length-prefixed field reads back, with the text that follows it;
* `znsPreimage_inj`: the whole preimage reads back, field by field;
* `NameNote.ext_fields`: a note is its verb, name, address, expiry and predecessor. -/

namespace ZnsMint.Note.Preimage

open ZnsMint.Basic ZnsMint.Note ZnsMint.Lib ZnsMint.Wire

/-- The order of the Pallas base field. -/
def PALLAS_BASE : ℕ := 0x40000000000000000000000000000000224698fc094cf91b992d30ed00000001

/-- The `ψ` of the note: the digest under the tag `psi`, reduced into the base field. -/
def psi (params : Params) (note : NameNote) : Fin PALLAS_BASE :=
  ⟨params.blake2b (note.preimage params (ascii "psi")) % PALLAS_BASE, Nat.mod_lt _ (by decide)⟩

/-! ### Fields behind their length -/

/-- Equal bytes have equal lengths up to the width of the prefix, and equal texts behind it. -/
theorem absorb_append_mod {a b x y : List UInt8} (h : absorb a ++ x = absorb b ++ y) :
    a.length % 2 ^ 32 = b.length % 2 ^ 32 ∧ a ++ x = b ++ y := by
  simp only [absorb, List.append_assoc] at h
  obtain ⟨hl, hx⟩ := List.append_inj h (by simp)
  have hv := congrArg leValue hl
  rw [leValue_leBytes, leValue_leBytes] at hv
  exact ⟨hv, hx⟩

/-- **A field shorter than `2 ^ 32` reads back.** -/
theorem absorb_append {a b x y : List UInt8} (ha : a.length < 2 ^ 32) (hb : b.length < 2 ^ 32)
    (h : absorb a ++ x = absorb b ++ y) : a = b ∧ x = y := by
  obtain ⟨hl, hx⟩ := absorb_append_mod h
  rw [Nat.mod_eq_of_lt ha, Nat.mod_eq_of_lt hb] at hl
  exact List.append_inj hx hl

theorem length_absorb (a : List UInt8) : (absorb a).length = 4 + a.length := by
  simp [absorb]

/-- **The preimage determines its fields.** -/
theorem znsPreimage_inj {t v n u e p t' v' n' u' e' p' : List UInt8}
    (ht : t.length < 2 ^ 32) (ht' : t'.length < 2 ^ 32) (hv : v.length < 2 ^ 32)
    (hv' : v'.length < 2 ^ 32)
    (hn : n.length < 2 ^ 32) (hn' : n'.length < 2 ^ 32) (hu : u.length < 2 ^ 32)
    (hu' : u'.length < 2 ^ 32)
    (he : e.length < 2 ^ 32) (he' : e'.length < 2 ^ 32)
    (h : znsPreimage t v n u e p = znsPreimage t' v' n' u' e' p') :
    t = t' ∧ v = v' ∧ n = n' ∧ u = u' ∧ e = e' ∧ p = p' := by
  simp only [znsPreimage, List.append_assoc] at h
  have h0 := List.append_cancel_left h
  obtain ⟨h1, h0⟩ := absorb_append ht ht' h0
  obtain ⟨h2, h0⟩ := absorb_append hv hv' h0
  obtain ⟨h3, h0⟩ := absorb_append hn hn' h0
  obtain ⟨h4, h0⟩ := absorb_append hu hu' h0
  obtain ⟨h5, h0⟩ := absorb_append he he' h0
  exact ⟨h1, h2, h3, h4, h5, h0⟩

/-! ### The fields of a note -/

/-- The expiry is one a `Timestamp` holds. -/
def inRange : Expiry → Bool
  | .never => true
  | .at t => decide (TIMESTAMP_MIN ≤ t ∧ t ≤ TIMESTAMP_MAX)

/-- The expiry field as every action writes it: a release writes `none`. -/
def expiryField (note : NameNote) : Expiry := note.expiresAt.getD .never

/-- The predecessor field as every action writes it: a claim writes zeros. -/
def prevField (note : NameNote) : List UInt8 :=
  (note.prevRcm.map NameCommitment.toBytes).getD (List.replicate 32 0)

theorem length_prevField (note : NameNote) : (prevField note).length = 32 := by
  rcases note with ⟨n, u, e⟩ | ⟨n, u, e, p⟩ | ⟨n, u, p⟩ | ⟨n, u, e, p⟩
  all_goals simp [prevField, NameNote.prevRcm]

theorem decimal_eq (n : ℕ) : decimal n = Text.digits n := rfl

theorem decimalInt_inj {s t : ℤ} (h : decimalInt s = decimalInt t) : s = t := by
  have hdash : ∀ n x, Text.digits n ≠ ascii "-" ++ x := by
    intro n x he
    have hm : (45 : UInt8) ∈ Text.digits n := by
      rw [he]
      exact List.mem_append_left _ (by decide)
    exact absurd (Text.isDigit_of_mem_digits n _ hm) (by decide)
  simp only [decimalInt, decimal_eq] at h
  by_cases hs : s < 0 <;> by_cases ht : t < 0
  · rw [if_pos hs, if_pos ht] at h
    have := Text.digits_injective (List.append_cancel_left h)
    omega
  · rw [if_pos hs, if_neg ht] at h
    exact absurd h.symm (hdash _ _)
  · rw [if_neg hs, if_pos ht] at h
    exact absurd h (hdash _ _)
  · rw [if_neg hs, if_neg ht] at h
    have := Text.digits_injective h
    omega

theorem decimalInt_ne_none (t : ℤ) : decimalInt t ≠ ascii "none" := by
  have hd : (ascii "none").getLast? = some 101 := rfl
  intro h
  have hm : (101 : UInt8) ∈ Text.digits t.natAbs := by
    have hg : (decimalInt t).getLast? = some 101 := by rw [h, hd]
    rw [decimalInt, decimal_eq] at hg
    split at hg
    · rw [List.getLast?_append_of_ne_nil _ (Text.digits_ne_nil _)] at hg
      exact List.mem_of_getLast? hg
    · exact List.mem_of_getLast? hg
  exact absurd (Text.isDigit_of_mem_digits _ _ hm) (by decide)

theorem fieldBytes_injective : Function.Injective Expiry.fieldBytes := by
  rintro (_ | s) (_ | t) h
  · rfl
  · exact absurd h.symm (decimalInt_ne_none t)
  · exact absurd h (decimalInt_ne_none s)
  · rw [decimalInt_inj h]

/-- A timestamp takes at most thirteen characters. -/
theorem length_fieldBytes_le {e : Expiry} (h : inRange e = true) : e.fieldBytes.length ≤ 13 := by
  rcases e with _ | t
  · decide
  · have ht : TIMESTAMP_MIN ≤ t ∧ t ≤ TIMESTAMP_MAX := by simpa [inRange] using h
    have hmin : TIMESTAMP_MIN = -377705116800 := rfl
    have hmax : TIMESTAMP_MAX = 253402300799 := rfl
    have hd := Text.length_digits_le (n := t.natAbs) (k := 12) (by decide) (by omega)
    rw [Expiry.fieldBytes, decimalInt]
    split
    · rw [List.length_append, decimal_eq]
      have : (ascii "-").length = 1 := rfl
      omega
    · rw [decimal_eq]
      omega

theorem asStr_injective {a b : Action} (h : ascii a.asStr = ascii b.asStr) : a = b := by
  cases a <;> cases b <;> first | rfl | exact absurd h (by decide)

theorem length_asStr_le (a : Action) : (ascii a.asStr).length ≤ 7 := by
  cases a <;> decide

theorem length_name_le (n : Name) : n.bytes.length ≤ MAX_NAME_LEN := by
  have h := n.ok
  simp only [nameOk, Bool.and_eq_true, decide_eq_true_eq] at h
  exact h.1.2

/-- **A note is its verb, name, address, expiry and predecessor.** -/
theorem NameNote.ext_fields {a b : NameNote} (hact : a.action = b.action) (hname : a.name = b.name)
    (hua : a.ua = b.ua) (hexp : expiryField a = expiryField b) (hprev : prevField a = prevField b) :
    a = b := by
  rcases a with ⟨n, u, e⟩ | ⟨n, u, e, p⟩ | ⟨n, u, p⟩ | ⟨n, u, e, p⟩ <;>
    rcases b with ⟨n', u', e'⟩ | ⟨n', u', e', p'⟩ | ⟨n', u', p'⟩ | ⟨n', u', e', p'⟩
  -- Two notes of different actions have different verbs.
  all_goals cases hact
  · cases hname; cases hua; cases hexp
    rfl
  all_goals
    cases hname; cases hua; cases hexp
    rw [NameCommitment.toBytes_injective hprev]

/-- Equal preimages under one tag come from one note. The address may be of any length: the fields around
it are short, so the total length decides its own. -/
theorem preimage_inj {params : Params} (hinj : Function.Injective params.encodeUa) {tag : List UInt8}
    {a b : NameNote} (ha : inRange (expiryField a) = true) (hb : inRange (expiryField b) = true)
    (h : a.preimage params tag = b.preimage params tag) : a = b := by
  have hlen := congrArg List.length h
  simp only [NameNote.preimage, znsPreimage, List.append_assoc] at h
  have h0 := List.append_cancel_left (List.append_cancel_left h)
  have hverb : ∀ c : Action, (ascii c.asStr).length < 2 ^ 32 := by
    intro c
    exact lt_of_le_of_lt (length_asStr_le c) (by decide)
  have hname : ∀ n : Name, n.bytes.length < 2 ^ 32 := by
    intro n
    exact lt_of_le_of_lt (length_name_le n) (by decide)
  obtain ⟨h1, h0⟩ := absorb_append (hverb _) (hverb _) h0
  obtain ⟨h2, h0⟩ := absorb_append (hname _) (hname _) h0
  have hea : (expiryField a).fieldBytes.length ≤ 13 := length_fieldBytes_le ha
  have heb : (expiryField b).fieldBytes.length ≤ 13 := length_fieldBytes_le hb
  have hu : (params.encodeUa a.ua).length = (params.encodeUa b.ua).length := by
    obtain ⟨hmod, htail⟩ := absorb_append_mod h0
    have hl := congrArg List.length htail
    have hpa := length_prevField a
    have hpb := length_prevField b
    simp only [prevField] at hpa hpb
    simp only [expiryField] at hea heb
    simp only [List.length_append, length_absorb, hpa, hpb] at hl
    omega
  obtain ⟨h3, h0⟩ := List.append_inj (absorb_append_mod h0).2 hu
  obtain ⟨h4, h5⟩ := absorb_append (lt_of_le_of_lt hea (by decide)) (lt_of_le_of_lt heb (by decide)) h0
  have hnm : a.name = b.name := by
    rcases hna : a.name with ⟨x, hx⟩
    rcases hnb : b.name with ⟨y, hy⟩
    rw [hna, hnb] at h2
    cases h2
    rfl
  exact NameNote.ext_fields (asStr_injective h1) hnm (hinj h3) (fieldBytes_injective h4) h5

/-- **The commitment preimage is injective.** The bytes determine the tag and the five fields; a note is
determined by its `rcm` preimage and by its `psi` preimage; no note's `rcm` preimage is a `psi`
preimage. -/
theorem preimage_determines (params : Params) (hinj : Function.Injective params.encodeUa) :
    (∀ t v n u e p t' v' n' u' e' p' : List UInt8,
      t.length < 2 ^ 32 → v.length < 2 ^ 32 → n.length < 2 ^ 32 → u.length < 2 ^ 32 → e.length < 2 ^ 32 →
      t'.length < 2 ^ 32 → v'.length < 2 ^ 32 → n'.length < 2 ^ 32 → u'.length < 2 ^ 32 →
      e'.length < 2 ^ 32 → p.length = 32 → p'.length = 32 →
      znsPreimage t v n u e p = znsPreimage t' v' n' u' e' p' →
      t = t' ∧ v = v' ∧ n = n' ∧ u = u' ∧ e = e' ∧ p = p') ∧
    (∀ a b : NameNote, inRange (expiryField a) = true → inRange (expiryField b) = true →
      a.preimage params (ascii "rcm") = b.preimage params (ascii "rcm") ∨
        a.preimage params (ascii "psi") = b.preimage params (ascii "psi") → a = b) ∧
    (∀ a b : NameNote, a.preimage params (ascii "rcm") ≠ b.preimage params (ascii "psi")) := by
  refine ⟨?_, ?_, ?_⟩
  · intro t v n u e p t' v' n' u' e' p' ht hv hn hu he ht' hv' hn' hu' he' _ _ h
    exact znsPreimage_inj ht ht' hv hv' hn hn' hu hu' he he' h
  · rintro a b ha hb (h | h)
    · exact preimage_inj hinj ha hb h
    · exact preimage_inj hinj ha hb h
  · intro a b h
    simp only [NameNote.preimage, znsPreimage, List.append_assoc] at h
    have htag := absorb_append (by decide) (by decide) (List.append_cancel_left h)
    exact absurd htag.1 (by decide)

/-- A release of `alice` and an update to no expiry, with one predecessor: different preimages. -/
theorem preimage_determines_release_update :
    (NameNote.release alice (sampleUa 1) ⟨⟨7, by decide⟩⟩).preimage Wire.sample.toParams (ascii "psi") ≠
      (NameNote.update alice (sampleUa 1) .never ⟨⟨7, by decide⟩⟩).preimage Wire.sample.toParams
        (ascii "psi") := by
  intro h
  have := (preimage_determines Wire.sample.toParams unifiedText_injective).2.1 _ _ rfl rfl (Or.inr h)
  cases this

end ZnsMint.Note.Preimage
