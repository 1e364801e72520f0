import ZnsMint.Wallet.Spends
import ZnsMint.Lib.Collect

/-! # Selecting notes for a payment

`select_spendable_notes` of `src/wallet/input.rs`: the eligible notes of each pool in order, and the loop
that takes them until the target is met. The order the notes are stored in is that of the ordered map,
given by the `Entries` of each table; the values of the notes and the policy for locks belong to other
crates.

`poolNotes` is one pool's eligible notes above the marginal fee in the order they are offered, and
`offered` those of all sources. The loop over one pool collects from its notes with what the pools before
left in hand (`takeNotes_spec`), so the loops of all pools together collect from `offered`
(`takePools_spec`). -/

namespace ZnsMint.Wallet

open Basic Lib.Tables Lib.Collect

variable {X : Backend}

/-! ### What a caller asks for -/

/-- A policy for locked notes, by what the wallet asks of it. -/
structure LockedInputPolicy where
  overridableOwners : LockOwner → Bool
  admitsLocked : Bool
  prefersLocked : Bool

/-- Locked notes are never selected. -/
def LockedInputPolicy.exclude : LockedInputPolicy := ⟨fun _ => false, false, false⟩

/-- The lock filter of a policy; without one locks are not looked at. -/
def LockFilter.of : Option LockedInputPolicy → LockFilter
  | none => .unfiltered
  | some p => .policy p.overridableOwners

inductive MaxSpendMode where
  | maxSpendable
  | everything
  deriving DecidableEq

inductive TargetValue where
  | atLeast (target : Zatoshis)
  | allFunds (mode : MaxSpendMode)
  deriving DecidableEq

/-- Whether a note is taken with this much accumulated. -/
def TargetValue.takes (targetValue : TargetValue) (accumulated : ℕ) : Bool :=
  match targetValue with
  | atLeast target => decide (accumulated < target.val)
  | allFunds _ => true

/-- The fee of ZIP 317 for one action more. -/
def MARGINAL_FEE : ℕ := 5000

inductive SelectError where
  | accountUnknown (account : AccountId)
  | unspendableFunds
  deriving DecidableEq

structure ReceivedNotes (X : Backend) where
  sapling : List (ReceivedNote X)
  ironwood : List (ReceivedNote X)

/-! ### The order of the notes -/

/-- Whether `output` has a lock that has not yet lapsed at `target`. -/
def lockIsLive (w : Wallet X) (output : OutputRef) (target : ℕ) : Bool :=
  (w.locks output).any fun (_, expiry) => decide (target ≤ expiry)

/-- Preferred lock bucket first. -/
def lockTierOrder (w : Wallet X) (left right : NoteId) (target : ℕ) : Option LockedInputPolicy → Ordering
  | none => .eq
  | some policy =>
    if !policy.admitsLocked then .eq
    else
      let leftLocked := w.lockIsLive (.ofNoteId left) target
      let rightLocked := w.lockIsLive (.ofNoteId right) target
      if policy.prefersLocked then compare rightLocked leftLocked else compare leftLocked rightLocked

/-- The order notes are sorted by: lock tier, then position in the commitment tree. -/
def noteOrder (w : Wallet X) (target : ℕ) (policy : Option LockedInputPolicy) (a b : ReceivedNote X) :
    Ordering :=
  (w.lockTierOrder a.noteId b.noteId target policy).then
    (compare a.noteCommitmentTreePosition b.noteCommitmentTreePosition)

/-- `a` does not come after `b`. -/
def noteLE (w : Wallet X) (target : ℕ) (policy : Option LockedInputPolicy) (a b : ReceivedNote X) :
    Prop :=
  (w.noteOrder target policy a b).isLE = true

instance (w : Wallet X) (target : ℕ) (policy : Option LockedInputPolicy) :
    DecidableRel (w.noteLE target policy) :=
  fun a b => inferInstanceAs (Decidable ((w.noteOrder target policy a b).isLE = true))

section

variable (w : Wallet X) (entries : ∀ p, Entries (w.lanes p).notes) (account : AccountId) (target : ℕ)
  (confirmationsPolicy : ConfirmationsPolicy) (exclude : List NoteId) (policy : Option LockedInputPolicy)
  (noteValue : X.Note → ℕ) (targetValue : TargetValue)

/-- `eligible_sapling` and `eligible_ironwood`: filtered, and sorted with notes that compare equal left
in place. -/
def eligibleNotes (p : OwnedPool) : List (ReceivedNote X) :=
  (((entries p).list.filter fun (id, output) =>
    w.isEligible p account target (some confirmationsPolicy) exclude
    (.of policy) id output).filterMap fun (id, _) => w.receivedNote p id).insertionSort
    (w.noteLE target policy)

/-- Whether every unspent note of the sources that is no dust is eligible. -/
def everythingSpendable (sources : List ShieldedPool) : Bool :=
  let covered (p : OwnedPool) : Bool :=
    !(entries p).list.any fun (id, output) =>
      decide (output.accountId = account) && !exclude.contains id && output.recipientKeyScope.isSome &&
        decide (MARGINAL_FEE < noteValue output.note) && !w.noteIsSpent p id target &&
        !((w.eligibleNotes entries account target confirmationsPolicy exclude policy p).map
          ReceivedNote.noteId).contains id
  sources.all fun
    | .sapling => covered .sapling
    | .ironwood => covered .ironwood
    | .orchard => true

/-! ### The loop -/

/-- One pool's loop: whether a note is taken is settled before the accumulator is raised. Absent where a
value or the accumulator leaves the monetary range. -/
def takeNotes : Zatoshis → List (ReceivedNote X) → Option (Zatoshis × List (ReceivedNote X))
  | accumulated, [] => some (accumulated, [])
  | accumulated, note :: notes => do
    let take := targetValue.takes accumulated.val
    let value ← Zatoshis.fromU64 (noteValue note.note)
    if value.val ≤ MARGINAL_FEE then takeNotes accumulated notes
    else
      let accumulated ← accumulated.add value
      if !take then return (accumulated, [])
      else
        let (accumulated, taken) ← takeNotes accumulated notes
        return (accumulated, note :: taken)

/-- One source of `select_spendable_notes`. -/
def takePool (st : Zatoshis × ReceivedNotes X) (pool : ShieldedPool) :
    Option (Zatoshis × ReceivedNotes X) :=
  match pool with
  | .sapling => do
    let (accumulated, taken) ← takeNotes noteValue targetValue st.1
      (w.eligibleNotes entries account target confirmationsPolicy exclude policy .sapling)
    return (accumulated, { st.2 with sapling := st.2.sapling ++ taken })
  | .ironwood => do
    let (accumulated, taken) ← takeNotes noteValue targetValue st.1
      (w.eligibleNotes entries account target confirmationsPolicy exclude policy .ironwood)
    return (accumulated, { st.2 with ironwood := st.2.ironwood ++ taken })
  | .orchard => some st

/-- `select_spendable_notes`. `ufvks` says which accounts the wallet has; the inner option is absent
where an `expect` of the source fails. -/
def selectSpendableNotes (ufvks : AccountId → Bool) (sources : List ShieldedPool) :
    Except SelectError (Option (ReceivedNotes X)) :=
  if !ufvks account then .error (.accountUnknown account)
  else if decide (targetValue = .allFunds .everything) &&
      !w.everythingSpendable entries account target confirmationsPolicy exclude policy
        noteValue sources then
    .error .unspendableFunds
  else
    .ok ((sources.foldlM (w.takePool entries account target confirmationsPolicy exclude policy
      noteValue targetValue)
      (.zero, ⟨[], []⟩)).map Prod.snd)

/-! ### What is offered -/

/-- The pool of a source that the wallet owns notes of. -/
def ShieldedPool.owned : ShieldedPool → Option OwnedPool
  | sapling => some .sapling
  | orchard => none
  | ironwood => some .ironwood

/-- What a note is worth. -/
def noteWorth (noteValue : X.Note → ℕ) (note : ReceivedNote X) : ℕ := noteValue note.note

/-- A note that is no dust. -/
def aboveFee (noteValue : X.Note → ℕ) (note : ReceivedNote X) : Bool :=
  decide (MARGINAL_FEE < noteWorth noteValue note)

/-- One pool's eligible notes above the marginal fee, in order. -/
def poolNotes (p : OwnedPool) : List (ReceivedNote X) :=
  (w.eligibleNotes entries account target confirmationsPolicy exclude policy p).filter
    (aboveFee noteValue)

/-- The notes of all sources, in source order. -/
def offered (sources : List ShieldedPool) : List (OwnedPool × ReceivedNote X) :=
  (sources.filterMap ShieldedPool.owned).flatMap fun p =>
    (w.poolNotes entries account target confirmationsPolicy exclude policy noteValue p).map fun note =>
    (p, note)

/-- What a note offered is worth. -/
def worth (noteValue : X.Note → ℕ) (offer : OwnedPool × ReceivedNote X) : ℕ := noteWorth noteValue offer.2

/-- Notes sorted into the lists of their pools. -/
def ReceivedNotes.of (offers : List (OwnedPool × ReceivedNote X)) : ReceivedNotes X where
  sapling := offers.filterMap fun offer => if offer.1 = .sapling then some offer.2 else none
  ironwood := offers.filterMap fun offer => if offer.1 = .ironwood then some offer.2 else none

end

/-! ### One order -/

/-- The bucket a note's lock puts it in. -/
def lockTier (w : Wallet X) (id : NoteId) (target : ℕ) : Option LockedInputPolicy → ℕ
  | none => 0
  | some policy =>
    if !policy.admitsLocked then 0
    else if w.lockIsLive (.ofNoteId id) target = policy.prefersLocked then 0 else 1

variable {w : Wallet X} {target : ℕ} {policy : Option LockedInputPolicy}

theorem lockTierOrder_eq (w : Wallet X) (left right : NoteId) (target : ℕ)
    (policy : Option LockedInputPolicy) :
    w.lockTierOrder left right target policy =
      compare (w.lockTier left target policy) (w.lockTier right target policy) := by
  cases policy with
  | none => rfl
  | some policy =>
    obtain ⟨owners, admits, prefers⟩ := policy
    unfold lockTierOrder lockTier
    generalize w.lockIsLive (.ofNoteId left) target = a
    generalize w.lockIsLive (.ofNoteId right) target = b
    cases admits with
    | false => rfl
    | true => cases prefers <;> cases a <;> cases b <;> rfl

theorem noteLE_iff {a b : ReceivedNote X} :
    w.noteLE target policy a b ↔
      w.lockTier a.noteId target policy < w.lockTier b.noteId target policy ∨
        w.lockTier a.noteId target policy = w.lockTier b.noteId target policy ∧
          a.noteCommitmentTreePosition ≤ b.noteCommitmentTreePosition := by
  unfold noteLE noteOrder
  rw [lockTierOrder_eq]
  rcases lt_trichotomy (w.lockTier a.noteId target policy)
    (w.lockTier b.noteId target policy) with h | h | h
  · rw [compare_lt_iff_lt.mpr h]
    simp [h]
  · rw [compare_eq_iff_eq.mpr h]
    simp [h, Ordering.isLE_iff_ne_gt, compare_gt_iff_gt]
  · rw [compare_gt_iff_gt.mpr h]
    simp [h.not_gt, h.ne']

instance : IsTrans (ReceivedNote X) (w.noteLE target policy) where
  trans a b c hab hbc := by
    rw [noteLE_iff] at hab hbc ⊢
    omega

instance : Std.Total (w.noteLE target policy) where
  total a b := by
    rw [noteLE_iff, noteLE_iff]
    omega

/-! ### One pool's notes -/

section

variable {entries : ∀ p, Entries (w.lanes p).notes} {account : AccountId}
  {confirmationsPolicy : ConfirmationsPolicy}
  {exclude : List NoteId} {noteValue : X.Note → ℕ} {targetValue : TargetValue} {p : OwnedPool}

/-- Each eligible note is listed, and no other. -/
theorem mem_eligibleNotes {note : ReceivedNote X} :
    note ∈ w.eligibleNotes entries account target confirmationsPolicy exclude policy p ↔
      w.eligible p account target (some confirmationsPolicy) exclude (.of policy) note.noteId =
        some note := by
  unfold eligibleNotes
  rw [(List.perm_insertionSort _ _).mem_iff, List.mem_filterMap]
  constructor
  · rintro ⟨⟨id, output⟩, hmem, hnote⟩
    obtain ⟨hentry, heligible⟩ := List.mem_filter.mp hmem
    have hid : note.noteId = id := by
      obtain ⟨output', -, hscope⟩ := Option.bind_eq_some_iff.mp hnote
      obtain ⟨scope, -, rfl⟩ := Option.map_eq_some_iff.mp hscope
      rfl
    rw [hid]
    exact Option.bind_eq_some_iff.mpr
      ⟨output, Table.retain_eq_some.mpr ⟨((entries p).mem_iff id output).mp hentry, heligible⟩, hnote⟩
  · intro h
    obtain ⟨output, hretain, hnote⟩ := Option.bind_eq_some_iff.mp h
    obtain ⟨hentry, heligible⟩ := Table.retain_eq_some.mp hretain
    exact ⟨(note.noteId, output), List.mem_filter.mpr ⟨((entries p).mem_iff _ _).mpr hentry, heligible⟩,
      hnote⟩

/-- They are listed by lock tier and then by position. -/
theorem eligibleNotes_sorted :
    (w.eligibleNotes entries account target confirmationsPolicy exclude policy p).Pairwise fun a b =>
      w.lockTier a.noteId target policy < w.lockTier b.noteId target policy ∨
        w.lockTier a.noteId target policy = w.lockTier b.noteId target policy ∧
          a.noteCommitmentTreePosition ≤ b.noteCommitmentTreePosition := by
  have h := List.pairwise_insertionSort (w.noteLE target policy)
    (((entries p).list.filter fun (id, output) =>
    w.isEligible p account target (some confirmationsPolicy) exclude
      (.of policy) id output).filterMap fun (id, _) => w.receivedNote p id)
  exact h.imp fun hab => noteLE_iff.mp hab

/-- They are listed once. -/
theorem eligibleNotes_nodup :
    ((w.eligibleNotes entries account target confirmationsPolicy exclude policy p).map
    ReceivedNote.noteId).Nodup := by
  unfold eligibleNotes
  rw [((List.perm_insertionSort _ _).map _).nodup_iff, List.Nodup, List.pairwise_map,
    List.pairwise_filterMap]
  have hkeys := (List.pairwise_map.mp (entries p).nodup).filter fun (id, output) =>
    w.isEligible p account target (some confirmationsPolicy) exclude (.of policy) id output
  refine hkeys.imp fun {a b} hab x hx y hy => ?_
  have hid : ∀ {id : NoteId} {note : ReceivedNote X}, w.receivedNote p id = some note →
      note.noteId = id := by
    intro id note hnote
    obtain ⟨output, -, hscope⟩ := Option.bind_eq_some_iff.mp hnote
    obtain ⟨scope, -, rfl⟩ := Option.map_eq_some_iff.mp hscope
    rfl
  rw [hid hx, hid hy]
  exact hab

/-! ### One pool's loop -/

theorem takes_sated (targetValue : TargetValue) : Sated targetValue.takes := by
  cases targetValue with
  | atLeast target => exact sated_atLeast target.val
  | allFunds mode => exact fun _ _ _ _ => rfl

theorem fromU64_val {n : ℕ} {z : Zatoshis} (h : Zatoshis.fromU64 n = some z) : z.val = n := by
  unfold Zatoshis.fromU64 at h
  split_ifs at h
  rw [← Option.some.inj h]

/-- **One pool's loop collects from its notes above the fee.** It leaves their total in hand, or no more
than that and enough already. -/
theorem takeNotes_spec {notes taken : List (ReceivedNote X)} {acc acc' : Zatoshis}
    (h : takeNotes noteValue targetValue acc notes = some (acc', taken)) :
    taken = collect (noteWorth noteValue) targetValue.takes acc.val (notes.filter (aboveFee noteValue)) ∧
      (acc'.val = acc.val + total (noteWorth noteValue) (notes.filter (aboveFee noteValue)) ∨
        targetValue.takes acc'.val = false ∧
          acc'.val ≤ acc.val + total (noteWorth noteValue) (notes.filter (aboveFee noteValue))) := by
  induction notes generalizing acc taken with
  | nil =>
    obtain ⟨rfl, rfl⟩ := Prod.mk.inj (Option.some.inj h)
    exact ⟨rfl, Or.inl rfl⟩
  | cons note notes ih =>
    unfold takeNotes at h
    obtain ⟨value, hvalue, h⟩ := Option.bind_eq_some_iff.mp h
    have hval : value.val = noteWorth noteValue note := fromU64_val hvalue
    by_cases hfee : MARGINAL_FEE < value.val
    · have habove : aboveFee noteValue note = true := by
        unfold aboveFee
        rw [← hval]
        exact decide_eq_true hfee
      rw [if_neg (not_le.mpr hfee)] at h
      obtain ⟨raised, hraised, h⟩ := Option.bind_eq_some_iff.mp h
      have hsum : raised.val = acc.val + noteWorth noteValue note := by
        rw [← hval]
        exact fromU64_val hraised
      rw [List.filter_cons_of_pos habove, collect, total_cons]
      by_cases htake : targetValue.takes acc.val = true
      · rw [htake, Bool.not_true, if_neg Bool.false_ne_true] at h
        obtain ⟨⟨last, rest⟩, hrest, h⟩ := Option.bind_eq_some_iff.mp h
        obtain ⟨rfl, rfl⟩ := Prod.mk.inj (Option.some.inj h)
        obtain ⟨hcollect, hlast⟩ := ih hrest
        rw [if_pos htake, hcollect, ← hsum]
        refine ⟨rfl, ?_⟩
        rw [← Nat.add_assoc, ← hsum]
        exact hlast
      · -- enough was in hand before the note; the accumulator has gone up all the same
        rw [Bool.not_eq_true] at htake
        rw [htake, Bool.not_false, if_pos rfl] at h
        obtain ⟨rfl, rfl⟩ := Prod.mk.inj (Option.some.inj h)
        have hle : acc.val ≤ raised.val := by omega
        rw [htake, if_neg Bool.false_ne_true]
        exact ⟨rfl, Or.inr ⟨(takes_sated targetValue).not hle htake, by omega⟩⟩
    · have hdust : ¬ aboveFee noteValue note = true := by
        unfold aboveFee
        rw [← hval, decide_eq_true_eq]
        exact hfee
      rw [if_pos (not_lt.mp hfee)] at h
      rw [List.filter_cons_of_neg hdust]
      exact ih h

/-- **It stops nowhere while the total is within the monetary range.** -/
theorem takeNotes_isSome {notes : List (ReceivedNote X)} {acc : Zatoshis}
    (hsum : acc.val + total (noteWorth noteValue) (notes.filter (aboveFee noteValue)) ≤ MAX_MONEY) :
    (takeNotes noteValue targetValue acc notes).isSome = true := by
  induction notes generalizing acc with
  | nil => rfl
  | cons note notes ih =>
    by_cases hfee : MARGINAL_FEE < noteWorth noteValue note
    · rw [List.filter_cons_of_pos (show aboveFee noteValue note = true from decide_eq_true hfee),
        total_cons] at hsum
      have hvalue : Zatoshis.fromU64 (noteValue note.note) = some ⟨noteWorth noteValue note, by omega⟩ :=
        dif_pos (by unfold noteWorth at hsum; omega)
      have hraised : acc.add ⟨noteWorth noteValue note, by omega⟩ =
          some ⟨acc.val + noteWorth noteValue note, by omega⟩ :=
        dif_pos (show acc.val + noteWorth noteValue note ≤ MAX_MONEY by omega)
      have hrest : (takeNotes noteValue targetValue ⟨acc.val + noteWorth noteValue note, by omega⟩
          notes).isSome = true :=
        ih (by dsimp only; omega)
      obtain ⟨⟨last, rest⟩, hrest⟩ := Option.isSome_iff_exists.mp hrest
      simp only [takeNotes, hvalue, hraised, hrest, Option.bind_eq_bind, Option.bind_some,
        not_le.mpr hfee, if_false]
      by_cases htake : (!targetValue.takes acc.val) = true
      · rw [if_pos htake]
        rfl
      · rw [if_neg htake]
        rfl
    · have hdust : ¬ aboveFee noteValue note = true := fun h => hfee (of_decide_eq_true h)
      have hmax : noteWorth noteValue note ≤ MAX_MONEY := by
        have hm : MARGINAL_FEE = 5000 := rfl
        have hx : MAX_MONEY = 2100000000000000 := rfl
        omega
      have hvalue : Zatoshis.fromU64 (noteValue note.note) = some ⟨noteWorth noteValue note, hmax⟩ :=
        dif_pos hmax
      rw [List.filter_cons_of_neg hdust] at hsum
      simp only [takeNotes, hvalue, Option.bind_eq_bind, Option.bind_some, not_lt.mp hfee, if_true]
      exact ih hsum

/-! ### All sources -/

theorem of_append (a b : List (OwnedPool × ReceivedNote X)) :
    ReceivedNotes.of (a ++ b) = ⟨(ReceivedNotes.of a).sapling ++ (ReceivedNotes.of b).sapling,
      (ReceivedNotes.of a).ironwood ++ (ReceivedNotes.of b).ironwood⟩ := by
  simp only [ReceivedNotes.of, List.filterMap_append]

theorem of_sapling (notes : List (ReceivedNote X)) :
    ReceivedNotes.of (notes.map fun note => (OwnedPool.sapling, note)) = ⟨notes, []⟩ := by
  simp [ReceivedNotes.of, List.filterMap_map]

theorem of_ironwood (notes : List (ReceivedNote X)) :
    ReceivedNotes.of (notes.map fun note => (OwnedPool.ironwood, note)) = ⟨[], notes⟩ := by
  simp [ReceivedNotes.of, List.filterMap_map]

theorem offered_cons (source : ShieldedPool) (sources : List ShieldedPool) :
    w.offered entries account target confirmationsPolicy exclude policy noteValue (source :: sources) =
      w.offered entries account target confirmationsPolicy exclude policy noteValue [source] ++
        w.offered entries account target confirmationsPolicy exclude policy noteValue sources := by
  unfold offered
  rw [← List.singleton_append, List.filterMap_append, List.flatMap_append]

/-- A step of one loop or of all of them: what was taken, and what is left in hand. -/
structure Taken (noteValue : X.Note → ℕ) (targetValue : TargetValue) (acc : Zatoshis)
    (offers : List (OwnedPool × ReceivedNote X)) (acc' : Zatoshis)
    (taken : List (OwnedPool × ReceivedNote X)) :
    Prop where
  taken : taken = collect (worth noteValue) targetValue.takes acc.val offers
  inHand : acc'.val = acc.val + total (worth noteValue) offers ∨
    targetValue.takes acc'.val = false ∧ acc'.val ≤ acc.val + total (worth noteValue) offers

theorem Taken.refl (acc : Zatoshis) : Taken noteValue targetValue acc [] acc [] := ⟨rfl, Or.inl rfl⟩

/-- One pool after the other collects from the notes of both. -/
theorem Taken.trans {acc acc' acc'' : Zatoshis} {l l' a b : List (OwnedPool × ReceivedNote X)}
    (h : Taken noteValue targetValue acc l acc' a) (h' : Taken noteValue targetValue acc' l' acc'' b) :
    Taken noteValue targetValue acc (l ++ l') acc'' (a ++ b) := by
  have hsated := takes_sated targetValue
  obtain ⟨ha, hacc⟩ := h
  obtain ⟨hb, hacc'⟩ := h'
  rcases hacc with he | ⟨hstop, hle⟩
  · refine ⟨?_, ?_⟩
    · rw [collect_append hsated, ← ha, ← he, ← hb]
    · rw [total_append, ← Nat.add_assoc, ← he]
      exact hacc'
  · -- the first pool had enough: nothing more is taken, whatever the second one adds
    have hstop' := hsated.not hle hstop
    refine ⟨?_, Or.inr ⟨?_, ?_⟩⟩
    · rw [collect_append hsated, ← ha, collect_of_not hstop', hb, collect_of_not hstop]
    · rcases hacc' with h | ⟨h, -⟩
      · exact hsated.not (by omega) hstop
      · exact h
    · rw [total_append]
      rcases hacc' with h | h <;> omega

theorem offered_of_owned {source : ShieldedPool} (h : source.owned = some p) :
    w.offered entries account target confirmationsPolicy exclude policy noteValue [source] =
      (w.poolNotes entries account target confirmationsPolicy exclude policy noteValue p).map fun note =>
        (p, note) := by
  unfold offered
  rw [List.filterMap_cons_some h, List.filterMap_nil, List.flatMap_cons, List.flatMap_nil,
    List.append_nil]

theorem total_offered {source : ShieldedPool} (h : source.owned = some p) :
    total (worth noteValue) (w.offered entries account target confirmationsPolicy exclude policy noteValue
      [source]) =
      total (noteWorth noteValue)
        ((w.eligibleNotes entries account target confirmationsPolicy exclude policy p).filter
          (aboveFee noteValue)) := by
  rw [offered_of_owned h, total_map]
  rfl

/-- A pool's loop as a step over what its source offers. -/
theorem taken_of_takeNotes {source : ShieldedPool} (h : source.owned = some p) {acc acc' : Zatoshis}
    {taken : List (ReceivedNote X)}
    (ht : takeNotes noteValue targetValue acc
      (w.eligibleNotes entries account target confirmationsPolicy exclude policy p) =
        some (acc', taken)) :
    Taken noteValue targetValue acc (w.offered entries account target confirmationsPolicy exclude
      policy noteValue
      [source]) acc' (taken.map fun note => (p, note)) := by
  obtain ⟨hcollect, hacc⟩ := takeNotes_spec ht
  refine ⟨?_, ?_⟩
  · rw [offered_of_owned h, collect_map, hcollect]
    rfl
  · rw [total_offered h]
    exact hacc

/-- One source. -/
theorem takePool_spec {source : ShieldedPool} {acc acc' : Zatoshis}
    {done : List (OwnedPool × ReceivedNote X)}
    {r : ReceivedNotes X}
    (h : w.takePool entries account target confirmationsPolicy exclude policy noteValue targetValue
      (acc, .of done) source = some (acc', r)) :
    ∃ taken, Taken noteValue targetValue acc
      (w.offered entries account target confirmationsPolicy exclude policy noteValue [source]) acc'
        taken ∧
        r = .of (done ++ taken) := by
  cases source with
  | sapling =>
    obtain ⟨⟨last, taken⟩, ht, h⟩ := Option.bind_eq_some_iff.mp h
    obtain ⟨rfl, rfl⟩ := Prod.mk.inj (Option.some.inj h)
    refine ⟨_, taken_of_takeNotes rfl ht, ?_⟩
    rw [of_append, of_sapling, List.append_nil]
  | ironwood =>
    obtain ⟨⟨last, taken⟩, ht, h⟩ := Option.bind_eq_some_iff.mp h
    obtain ⟨rfl, rfl⟩ := Prod.mk.inj (Option.some.inj h)
    refine ⟨_, taken_of_takeNotes rfl ht, ?_⟩
    rw [of_append, of_ironwood, List.append_nil]
  | orchard =>
    obtain ⟨rfl, rfl⟩ := Prod.mk.inj (Option.some.inj h)
    exact ⟨[], Taken.refl acc, by rw [List.append_nil]⟩

theorem takePool_isSome {source : ShieldedPool} {acc : Zatoshis} {r : ReceivedNotes X}
    (hsum : acc.val + total (worth noteValue)
      (w.offered entries account target confirmationsPolicy exclude policy noteValue [source]) ≤
        MAX_MONEY) :
    (w.takePool entries account target confirmationsPolicy exclude policy noteValue targetValue (acc, r)
      source).isSome = true := by
  cases source with
  | sapling =>
    rw [total_offered (show ShieldedPool.sapling.owned = some .sapling from rfl)] at hsum
    have hsome : (takeNotes noteValue targetValue acc
        (w.eligibleNotes entries account target confirmationsPolicy exclude policy .sapling)).isSome =
          true :=
      takeNotes_isSome hsum
    obtain ⟨x, hx⟩ := Option.isSome_iff_exists.mp hsome
    simp only [takePool, hx, Option.bind_eq_bind, Option.bind_some]
    rfl
  | ironwood =>
    rw [total_offered (show ShieldedPool.ironwood.owned = some .ironwood from rfl)] at hsum
    have hsome : (takeNotes noteValue targetValue acc
        (w.eligibleNotes entries account target confirmationsPolicy exclude policy .ironwood)).isSome =
          true :=
      takeNotes_isSome hsum
    obtain ⟨x, hx⟩ := Option.isSome_iff_exists.mp hsome
    simp only [takePool, hx, Option.bind_eq_bind, Option.bind_some]
    rfl
  | orchard => rfl

/-- **The loops of all sources collect from what all of them offer.** -/
theorem takePools_spec {sources : List ShieldedPool} {acc acc' : Zatoshis}
    {done : List (OwnedPool × ReceivedNote X)} {r : ReceivedNotes X}
    (h : sources.foldlM (w.takePool entries account target confirmationsPolicy exclude policy
    noteValue targetValue)
      (acc, .of done) = some (acc', r)) :
    ∃ taken, Taken noteValue targetValue acc
      (w.offered entries account target confirmationsPolicy exclude policy noteValue sources) acc' taken ∧
        r = .of (done ++ taken) := by
  induction sources generalizing acc done with
  | nil =>
    obtain ⟨rfl, rfl⟩ := Prod.mk.inj (Option.some.inj h)
    exact ⟨[], Taken.refl acc, by rw [List.append_nil]⟩
  | cons source sources ih =>
    rw [List.foldlM_cons] at h
    obtain ⟨⟨acc₁, r₁⟩, hfirst, h⟩ := Option.bind_eq_some_iff.mp h
    obtain ⟨taken, htaken, rfl⟩ := takePool_spec hfirst
    obtain ⟨rest, hrest, rfl⟩ := ih h
    refine ⟨taken ++ rest, ?_, by rw [List.append_assoc]⟩
    rw [offered_cons]
    exact htaken.trans hrest

theorem takePools_isSome {sources : List ShieldedPool} {acc : Zatoshis}
    {done : List (OwnedPool × ReceivedNote X)}
    (hsum : acc.val + total (worth noteValue)
      (w.offered entries account target confirmationsPolicy exclude policy noteValue sources) ≤
        MAX_MONEY) :
    (sources.foldlM (w.takePool entries account target confirmationsPolicy exclude policy
    noteValue targetValue)
      (acc, .of done)).isSome = true := by
  induction sources generalizing acc done with
  | nil => rfl
  | cons source sources ih =>
    rw [offered_cons, total_append] at hsum
    have hfits : acc.val + total (worth noteValue)
        (w.offered entries account target confirmationsPolicy exclude policy noteValue [source]) ≤
          MAX_MONEY := by
      omega
    have hsome : (w.takePool entries account target confirmationsPolicy exclude policy
      noteValue targetValue
        (acc, .of done) source).isSome = true := takePool_isSome hfits
    obtain ⟨⟨acc₁, r₁⟩, hfirst⟩ := Option.isSome_iff_exists.mp hsome
    obtain ⟨taken, htaken, rfl⟩ := takePool_spec hfirst
    have hle : acc₁.val ≤ acc.val + total (worth noteValue)
        (w.offered entries account target confirmationsPolicy exclude policy noteValue [source]) := by
      rcases htaken.inHand with he | ⟨-, hle⟩
      · exact he.le
      · exact hle
    rw [List.foldlM_cons, hfirst]
    exact ih (by omega)

/-- What a selection that is not for everything answers. -/
theorem selectSpendableNotes_eq {ufvks : AccountId → Bool} {sources : List ShieldedPool}
    (hknown : ufvks account = true)
    (hmode : targetValue ≠ .allFunds .everything) :
    w.selectSpendableNotes entries account target confirmationsPolicy exclude policy noteValue targetValue
      ufvks sources =
      .ok ((sources.foldlM (w.takePool entries account target confirmationsPolicy exclude policy
        noteValue targetValue)
        (.zero, .of [])).map Prod.snd) := by
  have hdecide : decide (targetValue = .allFunds .everything) = false := decide_eq_false hmode
  unfold selectSpendableNotes
  rw [hknown, Bool.not_true, if_neg Bool.false_ne_true, hdecide, Bool.false_and,
    if_neg Bool.false_ne_true]
  rfl

/-- A selection takes a beginning of what is offered. -/
theorem selectSpendableNotes_spec {ufvks : AccountId → Bool} {sources : List ShieldedPool}
    {r : ReceivedNotes X}
    (hknown : ufvks account = true) (hmode : targetValue ≠ .allFunds .everything)
    (h : w.selectSpendableNotes entries account target confirmationsPolicy exclude policy noteValue
    targetValue ufvks
      sources = .ok (some r)) :
    r = .of (collect (worth noteValue) targetValue.takes 0
      (w.offered entries account target confirmationsPolicy exclude policy noteValue sources)) := by
  rw [selectSpendableNotes_eq hknown hmode] at h
  obtain ⟨⟨acc, r'⟩, hfold, rfl⟩ := Option.map_eq_some_iff.mp (Except.ok.inj h)
  obtain ⟨taken, htaken, rfl⟩ := takePools_spec hfold
  rw [htaken.taken, List.nil_append]
  rfl

theorem selectSpendableNotes_isOk {ufvks : AccountId → Bool} {sources : List ShieldedPool}
    (hknown : ufvks account = true) (hmode : targetValue ≠ .allFunds .everything)
    (hsum : total (worth noteValue)
      (w.offered entries account target confirmationsPolicy exclude policy noteValue sources) ≤
        MAX_MONEY) :
    ∃ r, w.selectSpendableNotes entries account target confirmationsPolicy exclude policy noteValue
      targetValue ufvks
      sources = .ok (some r) := by
  have hfits : Zatoshis.zero.val + total (worth noteValue)
      (w.offered entries account target confirmationsPolicy exclude policy noteValue sources) ≤
        MAX_MONEY := by
    rwa [show Zatoshis.zero.val = 0 from rfl, Nat.zero_add]
  have hsome : (sources.foldlM (w.takePool entries account target confirmationsPolicy exclude
    policy noteValue
      targetValue) (.zero, .of [])).isSome = true := takePools_isSome hfits
  obtain ⟨st, hst⟩ := Option.isSome_iff_exists.mp hsome
  exact ⟨st.2, by rw [selectSpendableNotes_eq hknown hmode, hst]; rfl⟩

end

/-- **Targeted selection takes the shortest sufficient beginning of what is offered**, over all sources
and in their order; each pool offers its eligible notes above the marginal fee, sorted. -/
theorem selects_shortest (w : Wallet X) (entries : ∀ p, Entries (w.lanes p).notes)
    (ufvks : AccountId → Bool)
    (account : AccountId) (hknown : ufvks account = true) (sources : List ShieldedPool) (target : ℕ)
    (confirmationsPolicy : ConfirmationsPolicy) (exclude : List NoteId)
    (policy : Option LockedInputPolicy)
    (noteValue : X.Note → ℕ) :
    (∀ t r, w.selectSpendableNotes entries account target confirmationsPolicy exclude policy noteValue
    (.atLeast t)
        ufvks sources = .ok (some r) →
      ∃ taken, r = .of taken ∧ Shortest (worth noteValue) t.val
        (w.offered entries account target confirmationsPolicy exclude policy noteValue sources) taken) ∧
      (∀ r, w.selectSpendableNotes entries account target confirmationsPolicy exclude policy noteValue
          (.allFunds .maxSpendable) ufvks sources = .ok (some r) →
        r = .of (w.offered entries account target confirmationsPolicy exclude policy noteValue sources)) ∧
        (total (worth noteValue)
            (w.offered entries account target confirmationsPolicy exclude policy noteValue sources) ≤
              MAX_MONEY →
          ∀ targetValue, targetValue ≠ .allFunds .everything →
            ∃ r, w.selectSpendableNotes entries account target confirmationsPolicy exclude policy
              noteValue targetValue
              ufvks sources = .ok (some r)) ∧
          ∀ p, ((w.poolNotes entries account target confirmationsPolicy exclude policy noteValue p).map
              ReceivedNote.noteId).Nodup ∧
            (∀ note, note ∈ w.poolNotes entries account target confirmationsPolicy exclude policy
              noteValue p ↔
              w.eligible p account target (some confirmationsPolicy) exclude (.of policy) note.noteId =
                some note ∧
                MARGINAL_FEE < noteValue note.note) ∧
              (w.poolNotes entries account target confirmationsPolicy exclude policy noteValue p).Pairwise
                fun a b =>
                w.lockTier a.noteId target policy < w.lockTier b.noteId target policy ∨
                  w.lockTier a.noteId target policy = w.lockTier b.noteId target policy ∧
                    a.noteCommitmentTreePosition ≤ b.noteCommitmentTreePosition := by
  refine ⟨?_, ?_, ?_, ?_⟩
  · intro t r h
    exact ⟨_, selectSpendableNotes_spec hknown (by simp) h, collect_shortest t.val 0 _⟩
  · intro r h
    have hall : ∀ a, (TargetValue.allFunds .maxSpendable).takes a = true := fun _ => rfl
    rw [selectSpendableNotes_spec hknown (by simp) h, collect_all hall]
  · intro hsum targetValue hmode
    exact selectSpendableNotes_isOk hknown hmode hsum
  · intro p
    refine ⟨?_, ?_, eligibleNotes_sorted.filter _⟩
    · exact eligibleNotes_nodup.sublist (List.filter_sublist.map _)
    · intro note
      rw [poolNotes, List.mem_filter, mem_eligibleNotes]
      exact and_congr_right fun _ => decide_eq_true_iff

def heldId (tx : ℕ) (index : UInt16) (pool : ShieldedPool) : NoteId := ⟨sampleTxid tx, pool, index⟩

/-- A note of so many units, at a place of its tree. -/
def heldNote (index : UInt16) (value position : ℕ) : WalletOutput sampleBackend :=
  { sampleNote with
    index := index
    note := value
    noteCommitmentTreePosition := position
    nf := some ⟨20 + position⟩ }

/-- The Sapling notes: the second is spent, and the third is of a transaction that is not mined. -/
def sampleSapling : Table NoteId (WalletOutput sampleBackend) :=
  ((Table.empty.insert sampleId sampleNote).insert (heldId 1 1 .sapling) (heldNote 1 20 1)).insert
    (heldId 2 0 .sapling) (heldNote 0 30 4)

/-- The Ironwood notes: the second is locked. -/
def sampleIronwood : Table NoteId (WalletOutput sampleBackend) :=
  ((Table.empty.insert (heldId 1 0 .ironwood) (heldNote 0 9 2)).insert (heldId 1 1 .ironwood)
    (heldNote 1 40 3)).insert
    (heldId 1 2 .ironwood) (heldNote 2 25 5)

/-- A wallet that knows the chain up to height 50 and holds these notes; the second transaction is not
mined. -/
def sampleHolding : Wallet sampleBackend :=
  { sampleNew with
    zebraTip := some 50
    transactionStatuses := (Table.empty.insert (sampleTxid 1) (.mined 3)).insert (sampleTxid 3) (.mined 5)
    locks := Table.empty.insert (.ofNoteId (heldId 1 1 .ironwood)) (Vector.replicate 32 0, 60)
    lanes := fun
      | .sapling => ⟨sampleSapling, Table.empty.insert (heldId 1 1 .sapling) (sampleTxid 3), .empty⟩
      | .ironwood => ⟨sampleIronwood, .empty, .empty⟩ }

def sampleEntries : ∀ p, Entries (sampleHolding.lanes p).notes
  | .sapling => ((Entries.empty.insert rfl sampleNote).insert rfl (heldNote 1 20 1)).insert rfl
    (heldNote 0 30 4)
  | .ironwood => ((Entries.empty.insert rfl (heldNote 0 9 2)).insert rfl (heldNote 1 40 3)).insert rfl
    (heldNote 2 25 5)

/-- Of what is neither spent, unmined nor locked, twelve thousand zatoshis take the first note of each
pool. -/
theorem selects_shortest_one :
    ∃ r taken, sampleHolding.selectSpendableNotes sampleEntries 0 51 ⟨3, 10⟩ [] (some .exclude)
        (fun n : ℕ => 1000 * n) (.atLeast ⟨12000, by decide⟩) (fun account => decide (account < 2))
        [.sapling, .ironwood] = .ok (some r) ∧
      r = .of taken ∧
      Shortest (worth fun n : ℕ => 1000 * n) 12000 (sampleHolding.offered sampleEntries 0 51 ⟨3, 10⟩ []
        (some .exclude) (fun n : ℕ => 1000 * n) [.sapling, .ironwood]) taken ∧
      (r.sapling.map ReceivedNote.note : List ℕ) = [7] ∧
        (r.ironwood.map ReceivedNote.note : List ℕ) = [9] := by
  obtain ⟨hshortest, -, hanswers, -⟩ := selects_shortest sampleHolding sampleEntries
    (fun account => decide (account < 2)) 0 rfl [.sapling, .ironwood] 51 ⟨3, 10⟩ [] (some .exclude)
    fun n : ℕ => 1000 * n
  obtain ⟨r, hr⟩ := hanswers (by decide +kernel) (.atLeast ⟨12000, by decide⟩) (by simp)
  obtain ⟨taken, htaken, hfirst⟩ := hshortest _ r hr
  have hnotes : ((sampleHolding.selectSpendableNotes sampleEntries 0 51 ⟨3, 10⟩ [] (some .exclude)
      (fun n : ℕ => 1000 * n) (.atLeast ⟨12000, by decide⟩) (fun account => decide (account < 2))
      [.sapling, .ironwood]).toOption.map (Option.map fun r =>
        ((r.sapling.map ReceivedNote.note : List ℕ), (r.ironwood.map ReceivedNote.note : List ℕ)))) =
      some (some ([(7 : ℕ)], [(9 : ℕ)])) := by
    decide +kernel
  rw [hr] at hnotes
  simp only [Except.toOption, Option.map_some, Option.some.injEq, Prod.mk.injEq] at hnotes
  exact ⟨r, taken, hr, htaken, hfirst, hnotes.1, hnotes.2⟩

end ZnsMint.Wallet
