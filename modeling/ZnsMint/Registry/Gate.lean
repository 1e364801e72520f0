import ZnsMint.Registry

/-! # The gate and the law

`authorize_challenge` rules on a request before its code is sent, `authorize_update` and
`authorize_release` when the code comes back. At one median and over one record they agree on the clocks,
on the address of a release and on a forever name. They part on the horizon: the law refuses an update
whose expiry would lie more than `MAX_TERM_YEARS` ahead of the median, and the gate does not look
(`challenge_gate`). -/

namespace ZnsMint.Registry

open Basic Note Inbound

/-- The law a request is held to when its code comes back. -/
def ruling (r : Registry) (pending : OtpChallenge) (mtp : ℤ) : Option NameNote :=
  match pending.request with
  | .update .. => r.authorizeUpdate pending mtp
  | .release .. => r.authorizeRelease pending
  | .claim .. => none

/-- The expiry that an update of a fixed term asks for is an instant, at most the longest term ahead of
the median. -/
def WithinHorizon (expiry : Expiry) (request : Request) (mtp : ℤ) : Prop :=
  match request, expiry with
  | .update _ _ none, .at t => t ≤ mtp + MAX_TERM_YEARS * LIVENESS_INTERVAL
  | .update _ _ (some (.years n)), .at t =>
    (fromSeconds (t + n * LIVENESS_INTERVAL)).isSome ∧
      t + n * LIVENESS_INTERVAL ≤ mtp + MAX_TERM_YEARS * LIVENESS_INTERVAL
  | _, _ => True

/-- What the gate checks of the verb. -/
def VerbAllowed (record : NameRecord) : Request → Prop
  | .update _ _ term => record.expiresAt = .never → term = none
  | .release _ ua => ua = record.ua
  | .claim .. => False

/-- What the gate has checked of a request it lets through. -/
theorem authorizeChallenge_ok {r : Registry} {nameNotes : NameNoteQueue} {request : Request}
    {triggerHeight : ℕ}
    {mtp : ℤ} {record : NameRecord} (h : r.authorizeChallenge nameNotes request triggerHeight mtp =
    some record) :
    r.record request.name = some record ∧ record.isReleaseDue mtp = false ∧
      VerbAllowed record request := by
  unfold authorizeChallenge at h
  obtain ⟨e, he, h⟩ := Option.bind_eq_some_iff.mp h
  split_ifs at h with hpending hallows
  cases h
  simp only [NameRecord.allowsChallenge, NameRecord.isChallengeable, Bool.and_eq_true,
    Bool.not_eq_true'] at hallows
  refine ⟨he, hallows.1.1, ?_⟩
  rcases request with ⟨name, ua, term, code⟩ | ⟨name, ua, term⟩ | ⟨name, ua⟩
  · exact absurd hallows.2 Bool.false_ne_true
  · intro hnever
    have hterm := hallows.2
    simp only [hnever, beq_self_eq_true, Bool.true_and, Bool.not_eq_true', Option.isSome_eq_false_iff,
      Option.isNone_iff_eq_none] at hterm
    exact hterm
  · simpa [VerbAllowed] using hallows.2

/-- The law extends an expiry where the horizon allows it, and a forever name where it takes no term. -/
theorem extend_isSome_iff {expiry : Expiry} {name : Name} {ua : UnifiedAddress}
    {term : Option Term} (mtp : ℤ)
    (h : expiry = .never → term = none) :
    (expiry.extend term mtp).isSome ↔ WithinHorizon expiry (.update name ua term) mtp := by
  rcases expiry with _ | t
  · rw [h rfl]
    simp [Expiry.extend, Expiry.extended, WithinHorizon]
  · rcases term with _ | _ | n
    · simp [Expiry.extend, Expiry.extended, WithinHorizon]
    · simp [Expiry.extend, Expiry.extended, WithinHorizon]
    · have hsum : ∀ s, fromSeconds (t + (Term.years n).duration) = some s →
          s = t + n * LIVENESS_INTERVAL := by
        intro s hs
        unfold fromSeconds at hs
        split_ifs at hs
        exact (Option.some.inj hs).symm
      have hduration : fromSeconds (t + n * LIVENESS_INTERVAL) =
        fromSeconds (t + (Term.years n).duration) := rfl
      simp only [Expiry.extend, Expiry.extended, WithinHorizon, hduration]
      rcases hs : fromSeconds (t + (Term.years n).duration) with _ | s
      · simp
      · rw [hsum s hs]
        simp

/-- **Where the gate and the law agree.** A request the gate lets through is ruled on over the same
record and at the same median: the law grants it a note that spends that record if and only if it is a
release, an update of a forever name or to one, or an update whose expiry the horizon allows. -/
theorem challenge_gate {r r' : Registry} {nameNotes : NameNoteQueue} {request : Request}
    {triggerHeight : ℕ} {mtp : ℤ}
    {record : NameRecord} (hgate : r.authorizeChallenge nameNotes request triggerHeight mtp = some record)
    (hsame : r'.record request.name = some record) (pending : OtpChallenge)
    (hpending : pending.request = request) :
    (∃ note, r'.ruling pending mtp = some note ∧ note.prevRcm = some record.commitment) ↔
      WithinHorizon record.expiresAt request mtp := by
  obtain ⟨-, hdue, hverb⟩ := authorizeChallenge_ok hgate
  subst hpending
  unfold ruling
  rcases hreq : pending.request with ⟨name, ua, term, code⟩ | ⟨name, ua, term⟩ | ⟨name, ua⟩
  · rw [hreq] at hverb
    exact hverb.elim
  · rw [hreq] at hverb hsame
    have hrecord : r'.record name = some record := hsame
    rw [← extend_isSome_iff mtp hverb]
    simp only [authorizeUpdate, hreq, hrecord, Option.bind_eq_bind, Option.bind_some, hdue,
      Bool.false_eq_true, if_false]
    constructor
    · rintro ⟨note, hnote, -⟩
      obtain ⟨expiresAt, hextend, -⟩ := Option.bind_eq_some_iff.mp hnote
      rw [hextend]
      rfl
    · intro hextend
      obtain ⟨expiresAt, hextend⟩ := Option.isSome_iff_exists.mp hextend
      exact ⟨.update name ua expiresAt record.commitment, by rw [hextend]; rfl, rfl⟩
  · rw [hreq] at hverb hsame
    have hrecord : r'.record name = some record := hsame
    have hua : ua = record.ua := hverb
    simp only [authorizeRelease, hreq, hrecord, Option.bind_eq_bind, Option.bind_some, hua,
      bne_self_eq_false,
      Bool.false_eq_true, if_false, WithinHorizon, iff_true]
    exact ⟨.release name record.ua record.commitment, rfl, rfl⟩

/-- Alice's name, claimed at the median zero for a number of years. -/
def sampleTerm (years : ℕ) : NameRecord :=
  .create Params.sample (.claim alice (sampleUa 1) (.at (years * LIVENESS_INTERVAL))) ⟨11⟩ 3 0

/-- Her update, for one year more. -/
def sampleRenewal : OtpChallenge := ⟨.update alice (sampleUa 1) (some (.years 1)),
    Fin.last 999999, 1810, 0⟩

/-- Five years and one. -/
theorem challenge_gate_granted :
    (new.setRecord (sampleTerm 5)).authorizeChallenge .empty sampleRenewal.request 4 10 =
    some (sampleTerm 5) ∧
      ∃ note, (new.setRecord (sampleTerm 5)).ruling sampleRenewal 10 = some note ∧
        note.prevRcm = some (sampleTerm 5).commitment := by
  have hgate : (new.setRecord (sampleTerm 5)).authorizeChallenge .empty sampleRenewal.request 4 10 =
      some (sampleTerm 5) := by decide +kernel
  have hsame : (new.setRecord (sampleTerm 5)).record sampleRenewal.request.name =
      some (sampleTerm 5) := by
    decide +kernel
  exact ⟨hgate, (challenge_gate hgate hsame sampleRenewal rfl).mpr ⟨by decide, by decide⟩⟩

/-- Ninety-nine years and one: the gate lets the request through, and the law refuses it at the same
median. -/
theorem challenge_gate_refused :
    (new.setRecord (sampleTerm 99)).authorizeChallenge .empty sampleRenewal.request 4 10 =
    some (sampleTerm 99) ∧
      (new.setRecord (sampleTerm 99)).authorizeUpdate sampleRenewal 10 = none :=
  ⟨by decide +kernel, by decide +kernel⟩

end ZnsMint.Registry
