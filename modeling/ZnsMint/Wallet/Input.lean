import ZnsMint.Wallet

/-! # Which notes can be selected

The selection rules of `src/wallet/input.rs`: when a recorded spend still stands, when a lock admits a
note, and when a note has its confirmations. `eligible` is the notes the source collects for an account,
by their id; the order in which it then lists them is left out. What the rules read of a wallet is
`SameSelection`. -/

namespace ZnsMint.Wallet

open Basic Lib.Tables

variable {X : Backend}

/-! ### The policies of a caller -/

/-- The owners whose locks a selection may take over, unless locks are not looked at. -/
inductive LockFilter where
  | unfiltered
  | policy (overridableOwners : LockOwner → Bool)

structure ConfirmationsPolicy where
  trusted : ℕ
  untrusted : ℕ

structure ReceivedNote (X : Backend) where
  noteId : NoteId
  txid : TxId
  outputIndex : UInt16
  note : X.Note
  spendingKeyScope : Scope
  noteCommitmentTreePosition : ℕ
  minedHeight : Option ℕ

/-! ### Spends -/

/-- Whether an unmined spending transaction still blocks its inputs at `target`. Expiry height zero
means no expiry; no raw transaction means that the spend still stands. -/
def unminedSpendStillBlocks (w : Wallet X) (txid : TxId) (target : ℕ) : Bool :=
  match w.transactions txid with
  | some tx => tx.expiryHeight == 0 || decide (target ≤ tx.expiryHeight)
  | none => true

/-- Whether a recorded spending transaction confirms the spend or still potentially stands at `target`. -/
def spendConfirmsOrBlocks (w : Wallet X) (txid : TxId) (target : ℕ) : Bool :=
  match w.transactionStatuses txid with
  | some (.mined _) => true
  | some .notInMainChain => w.unminedSpendStillBlocks txid target
  | some .txidNotRecognized => w.unminedSpendStillBlocks txid target
  | none => true

def noteIsSpent (w : Wallet X) (p : OwnedPool) (id : NoteId) (target : ℕ) : Bool :=
  ((w.lanes p).noteSpends id).any fun txid => w.spendConfirmsOrBlocks txid target

def saplingNoteIsSpent (w : Wallet X) : NoteId → ℕ → Bool := w.noteIsSpent .sapling

def ironwoodNoteIsSpent (w : Wallet X) : NoteId → ℕ → Bool := w.noteIsSpent .ironwood

/-! ### Locks and confirmations -/

/-- Whether the lock on `output`, if any, admits selection at `target`. -/
def lockAdmits (w : Wallet X) (output : OutputRef) (target : ℕ) (lockFilter : LockFilter) : Bool :=
  match w.locks output with
  | none => true
  | some (owner, expiry) =>
    if expiry < target then true
    else match lockFilter with
      | .unfiltered => true
      | .policy overridableOwners => overridableOwners owner

/-- Change, and the notes of trusted transactions, need only the trusted depth. -/
def requiredConfirmations (w : Wallet X) (txid : TxId) (isChange : Bool) (policy : ConfirmationsPolicy) :
    ℕ :=
  if isChange || w.trustedTransactions txid then policy.trusted else policy.untrusted

def confirmationsSatisfied (w : Wallet X) (txid : TxId) (isChange : Bool) (target : ℕ)
    (policy : ConfirmationsPolicy) : Bool :=
  match w.minedHeight txid with
  | some mined => decide (mined ≤ target - w.requiredConfirmations txid isChange policy)
  | none => false

/-! ### Selection -/

/-- A retained output as a note to spend, if its key scope was retained. -/
def receivedNote (w : Wallet X) (p : OwnedPool) (id : NoteId) : Option (ReceivedNote X) :=
  ((w.lanes p).notes id).bind fun output =>
    output.recipientKeyScope.map fun scope =>
      ⟨id, id.txid, id.outputIndex, output.note, scope, output.noteCommitmentTreePosition,
        w.minedHeight id.txid⟩

/-- What selection asks of one note. Without a confirmations policy every unspent note will do. -/
def isEligible (w : Wallet X) (p : OwnedPool) (account : AccountId) (target : ℕ)
    (confirmationsPolicy : Option ConfirmationsPolicy) (exclude : List NoteId) (lockFilter : LockFilter)
    (id : NoteId) (output : WalletOutput X) : Bool :=
  decide (output.accountId = account) && !exclude.contains id && output.recipientKeyScope.isSome &&
    !w.noteIsSpent p id target && w.lockAdmits (.ofNoteId id) target lockFilter &&
    confirmationsPolicy.all fun policy =>
      w.confirmationsSatisfied id.txid (output.isChange || output.recipientKeyScope == some .internal)
        target policy

/-- The notes of `account` in one pool that can be selected at `target`. -/
def eligible (w : Wallet X) (p : OwnedPool) (account : AccountId) (target : ℕ)
    (confirmationsPolicy : Option ConfirmationsPolicy) (exclude : List NoteId) (lockFilter : LockFilter) :
    Table NoteId (ReceivedNote X) := fun id =>
  ((w.lanes p).notes.retain (w.isEligible p account target confirmationsPolicy exclude lockFilter)
    id).bind
    fun _ => w.receivedNote p id

def eligibleSapling (w : Wallet X) := w.eligible .sapling

def eligibleIronwood (w : Wallet X) := w.eligible .ironwood

/-! ### What selection depends on -/

/-- A stored transaction on record as a note's spender blocks the note through its expiry height,
whatever is known of it. -/
theorem noteIsSpent_of_recorded {w : Wallet X} {p : OwnedPool} {id : NoteId} {txid : TxId}
    {tx : Transaction}
    {target : ℕ} (hspend : (w.lanes p).noteSpends id = some txid) (htx : w.transactions txid = some tx)
    (htarget : target ≤ tx.expiryHeight) : w.noteIsSpent p id target = true := by
  have hblocks : w.unminedSpendStillBlocks txid target = true := by
    unfold unminedSpendStillBlocks
    simp [htx, htarget]
  unfold noteIsSpent spendConfirmsOrBlocks
  rw [hspend, Option.any_some]
  split
  · rfl
  · exact hblocks
  · exact hblocks
  · rfl

theorem eligible_of_spent {w : Wallet X} {p : OwnedPool} {id : NoteId} {target : ℕ}
    (hspent : w.noteIsSpent p id target = true) (account : AccountId)
    (confirmationsPolicy : Option ConfirmationsPolicy) (exclude : List NoteId) (lockFilter : LockFilter) :
    w.eligible p account target confirmationsPolicy exclude lockFilter id = none := by
  have hretain : (w.lanes p).notes.retain
      (w.isEligible p account target confirmationsPolicy exclude lockFilter) id = none := by
    refine Option.eq_none_iff_forall_ne_some.mpr fun output houtput => ?_
    have heligible := (Table.retain_eq_some.mp houtput).2
    unfold isEligible at heligible
    simp [hspent] at heligible
  unfold eligible
  rw [hretain, Option.bind_none]

/-- The two wallets hold the same notes, and know the same of what selection looks up for a note held:
its transaction, its spender and its lock. -/
structure SameSelection (w v : Wallet X) : Prop where
  lanes : v.lanes = w.lanes
  transactions : v.transactions = w.transactions
  trusted : v.trustedTransactions = w.trustedTransactions
  notes : ∀ p, Every (fun id _ => v.transactionStatuses id.txid = w.transactionStatuses id.txid)
    (w.lanes p).notes
  spenders : ∀ p, Every (fun _ txid => v.transactionStatuses txid = w.transactionStatuses txid)
    (w.lanes p).noteSpends
  locks : ∀ p, Every (fun id _ => v.locks (.ofNoteId id) = w.locks (.ofNoteId id)) (w.lanes p).notes

namespace SameSelection

variable {w v : Wallet X}

theorem noteIsSpent (h : SameSelection w v) (p : OwnedPool) (id : NoteId) (target : ℕ) :
    v.noteIsSpent p id target = w.noteIsSpent p id target := by
  unfold Wallet.noteIsSpent
  rw [h.lanes]
  rcases hspend : (w.lanes p).noteSpends id with - | txid
  · rfl
  · have hstatus := h.spenders p id txid hspend
    simp only [Option.any_some, spendConfirmsOrBlocks, unminedSpendStillBlocks, hstatus, h.transactions]

theorem minedHeight (h : SameSelection w v) {p : OwnedPool} {id : NoteId} {output : WalletOutput X}
    (hnote : (w.lanes p).notes id = some output) : v.minedHeight id.txid = w.minedHeight id.txid := by
  unfold Wallet.minedHeight
  rw [h.notes p id output hnote]

theorem isEligible (h : SameSelection w v) {p : OwnedPool} {id : NoteId} {output : WalletOutput X}
    (hnote : (w.lanes p).notes id = some output) (account : AccountId) (target : ℕ)
    (confirmationsPolicy : Option ConfirmationsPolicy) (exclude : List NoteId) (lockFilter : LockFilter) :
    v.isEligible p account target confirmationsPolicy exclude lockFilter id output =
      w.isEligible p account target confirmationsPolicy exclude lockFilter id output := by
  have hlock : v.lockAdmits (.ofNoteId id) target lockFilter =
      w.lockAdmits (.ofNoteId id) target lockFilter := by
    unfold lockAdmits
    rw [h.locks p id output hnote]
  have hconfirmed : ∀ isChange policy, v.confirmationsSatisfied id.txid isChange target policy =
      w.confirmationsSatisfied id.txid isChange target policy := by
    intro isChange policy
    unfold confirmationsSatisfied requiredConfirmations
    rw [h.minedHeight hnote, h.trusted]
  unfold Wallet.isEligible
  simp only [h.noteIsSpent, hlock, hconfirmed]

/-- **The same notes can be selected**, for every account, height and policy. -/
theorem eligible (h : SameSelection w v) : v.eligible = w.eligible := by
  funext p account target confirmationsPolicy exclude lockFilter id
  unfold Wallet.eligible Table.retain receivedNote
  rw [h.lanes]
  rcases hnote : (w.lanes p).notes id with - | output
  · rfl
  · simp only [Option.filter, h.isEligible hnote, h.minedHeight hnote]

end SameSelection

end ZnsMint.Wallet
