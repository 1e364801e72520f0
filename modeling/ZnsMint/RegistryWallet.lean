import ZnsMint.Registry

/-! # The wallet's view of the Registry's notes

The part of the wallet that decides whether a claim anchor or a Name Note can be spent
(`src/wallet/input.rs`, `src/wallet/read.rs`, `src/wallet/write.rs`): the notes of the Registry account by
their nullifier, the transactions that spend them, and what is known of those transactions. The
Treasury's notes, the commitment trees and the locks, which no caller takes on a Registry note, are
left out. -/

namespace ZnsMint

open Basic Note Registry

inductive TransactionStatus where
  | mined (height : ℕ)
  | notInMainChain
  | txidNotRecognized
  deriving DecidableEq

/-- `transactions` is the expiry height of each raw transaction retained, `notes` the transaction
that created each note, `noteSpends` the transaction that spends it. -/
structure RegistryWallet where
  transactions : TxId → Option ℕ
  statuses : TxId → Option TransactionStatus
  notes : Nullifier → Option TxId
  noteSpends : Nullifier → Option TxId

namespace RegistryWallet

def new : RegistryWallet := ⟨fun _ => none, fun _ => none, fun _ => none, fun _ => none⟩

/-! ### The three rules on expiry -/

/-- Whether an unmined spending transaction still blocks its inputs at `target`. Expiry height zero
means no expiry; no raw transaction means that the spend still stands. -/
def unminedSpendStillBlocks (w : RegistryWallet) (txid : TxId) (target : ℕ) : Bool :=
  match w.transactions txid with
  | some expiry => expiry == 0 || decide (target ≤ expiry)
  | none => true

/-- Whether a spending transaction confirms the spend or still potentially stands at `target`. -/
def spendConfirmsOrBlocks (w : RegistryWallet) (txid : TxId) (target : ℕ) : Bool :=
  match w.statuses txid with
  | some (.mined _) => true
  | some .notInMainChain => w.unminedSpendStillBlocks txid target
  | some .txidNotRecognized => w.unminedSpendStillBlocks txid target
  | none => true

/-- The transaction is mined, as far as the wallet knows. -/
def isMined (w : RegistryWallet) (txid : TxId) : Bool :=
  match w.statuses txid with
  | some (.mined _) => true
  | _ => false

/-- Known, unmined, and past expiry at `tip`. -/
def expiredUnminedAt (w : RegistryWallet) (txid : TxId) (tip : ℕ) : Bool :=
  !w.isMined txid &&
    match w.transactions txid with
    | some expiry => decide (0 < expiry) && decide (expiry ≤ tip)
    | none => false

def noteIsSpent (w : RegistryWallet) (nf : Nullifier) (target : ℕ) : Bool :=
  (w.noteSpends nf).any fun txid => w.spendConfirmsOrBlocks txid target

/-- An owned note with this nullifier that is selectable at `target`. -/
def unspentNote (w : RegistryWallet) (nf : Nullifier) (target : ℕ) : Bool :=
  (w.notes nf).isSome && !w.noteIsSpent nf target

/-- The two rules on a transaction of known status, with an expiry: it is expired at `tip`, and stops
blocking at `tip + 1`, in the same case. -/
theorem expiredUnminedAt_iff {w : RegistryWallet} {txid : TxId} {expiry tip : ℕ}
    (htx : w.transactions txid = some expiry) (hpos : 0 < expiry) :
    w.expiredUnminedAt txid tip = true ↔ w.isMined txid = false ∧ expiry ≤ tip := by
  unfold expiredUnminedAt
  simp [htx, hpos]

theorem spendConfirmsOrBlocks_eq_false_iff {w : RegistryWallet} {txid : TxId} {expiry target : ℕ}
    (htx : w.transactions txid = some expiry) (hpos : 0 < expiry)
    (hstatus : (w.statuses txid).isSome = true) :
    w.spendConfirmsOrBlocks txid target = false ↔ w.isMined txid = false ∧ expiry < target := by
  obtain ⟨status, hstatus⟩ := Option.isSome_iff_exists.mp hstatus
  have hne : expiry ≠ 0 := by omega
  unfold spendConfirmsOrBlocks isMined unminedSpendStillBlocks
  cases status <;> simp [hstatus, htx, hne]

/-! ### Writing -/

/-- Records the spends of owned notes. -/
def spend (w : RegistryWallet) (txid : TxId) (nfs : List Nullifier) : RegistryWallet :=
  { w with noteSpends := fun nf =>
      if nf ∈ nfs ∧ (w.notes nf).isSome = true then some txid else w.noteSpends nf }

/-- A transaction of the mint, built and accepted by the node. A mined status is never downgraded. -/
def recordSent (w : RegistryWallet) (txid : TxId) (expiry : ℕ) (authority : Nullifier) :
    RegistryWallet :=
  spend
    { w with
      transactions := Function.update w.transactions txid (some expiry)
      statuses := Function.update w.statuses txid (some ((w.statuses txid).getD .notInMainChain)) }
    txid [authority]

/-- The status and the notes of one mined transaction. -/
def receive (height : ℕ) (w : RegistryWallet) (e : TxId × ScannedTx) : RegistryWallet :=
  { w with
    statuses := Function.update w.statuses e.1 (some (.mined height))
    notes := fun nf => if some nf ∈ e.2.registryOutputs.map RegistryOutput.nf then
      some e.1 else w.notes nf }

/-- A Name Note the registry accepted. -/
def storeNameNote (w : RegistryWallet) (e : TxId × Nullifier) : RegistryWallet :=
  { w with notes := Function.update w.notes e.2 (some e.1) }

/-- The transactions of one block: first what they create, then what they spend. -/
def putBlock (w : RegistryWallet) (txs : List (TxId × ScannedTx)) (height : ℕ) : RegistryWallet :=
  txs.foldl (fun w e => w.spend e.1 e.2.nfs) (txs.foldl (receive height) w)

/-- The transaction was mined above `height`. -/
def orphaned (w : RegistryWallet) (height : ℕ) (txid : TxId) : Bool :=
  match w.statuses txid with
  | some (.mined mined) => decide (height < mined)
  | _ => false

/-- Forgets the blocks above `height`. A spend that was only scanned goes; one the mint built stays
until it expires. -/
def truncateTo (w : RegistryWallet) (height : ℕ) : RegistryWallet where
  transactions := w.transactions
  statuses := fun txid =>
    if w.orphaned height txid then some .notInMainChain else w.statuses txid
  notes := fun nf => (w.notes nf).filter fun txid => !w.orphaned height txid
  noteSpends := fun nf =>
    if ((w.notes nf).filter fun txid => !w.orphaned height txid).isSome then
      (w.noteSpends nf).filter fun txid => !(w.orphaned height txid && (w.transactions txid).isNone)
    else none

/-! ### What the writes do to transactions and statuses -/

theorem spends_keep (l : List (TxId × ScannedTx)) (w : RegistryWallet) :
    (l.foldl (fun w e => w.spend e.1 e.2.nfs) w).transactions = w.transactions ∧
      (l.foldl (fun w e => w.spend e.1 e.2.nfs) w).statuses = w.statuses := by
  induction l generalizing w with
  | nil => exact ⟨rfl, rfl⟩
  | cons e l ih => exact ih _

theorem transactions_putBlock (w : RegistryWallet) (txs : List (TxId × ScannedTx)) (height : ℕ) :
    (w.putBlock txs height).transactions = w.transactions := by
  have hreceive : ∀ (l : List (TxId × ScannedTx)) (w : RegistryWallet),
      (l.foldl (receive height) w).transactions = w.transactions := by
    intro l
    induction l with
    | nil => exact fun _ => rfl
    | cons e l ih => exact fun w => ih _
  exact (spends_keep txs _).1.trans (hreceive txs w)

/-- A block tells of its own transactions that they are mined, and nothing of the others. -/
theorem statuses_putBlock (w : RegistryWallet) (txs : List (TxId × ScannedTx)) (height : ℕ)
    (txid : TxId) :
    (w.putBlock txs height).statuses txid =
      if ∃ tx ∈ txs, tx.1 = txid then some (.mined height) else w.statuses txid := by
  have hreceive : ∀ (l : List (TxId × ScannedTx)) (w : RegistryWallet),
      (l.foldl (receive height) w).statuses txid =
        if ∃ tx ∈ l, tx.1 = txid then some (.mined height) else w.statuses txid := by
    intro l
    induction l with
    | nil => simp
    | cons e l ih =>
      intro w
      rw [List.foldl_cons, ih]
      by_cases hl : ∃ tx ∈ l, tx.1 = txid
      · rw [if_pos hl, if_pos]
        obtain ⟨tx, htx, hid⟩ := hl
        exact ⟨tx, List.mem_cons_of_mem _ htx, hid⟩
      · by_cases he : e.1 = txid
        · simp [receive, he]
        · have hcons : ¬ ∃ tx ∈ e :: l, tx.1 = txid := by
            rintro ⟨tx, htx, hid⟩
            rcases List.mem_cons.mp htx with rfl | htx
            · exact he hid
            · exact hl ⟨tx, htx, hid⟩
          rw [if_neg hl, if_neg hcons]
          exact Function.update_of_ne (Ne.symm he) ..
  unfold putBlock
  rw [(spends_keep txs _).2, hreceive]

theorem storeNameNotes_keep (l : List (TxId × Nullifier)) (w : RegistryWallet) :
    (l.foldl storeNameNote w).transactions = w.transactions ∧
      (l.foldl storeNameNote w).statuses = w.statuses := by
  induction l generalizing w with
  | nil => exact ⟨rfl, rfl⟩
  | cons e l ih => exact ih _

theorem isMined_recordSent (w : RegistryWallet) (txid : TxId) (expiry : ℕ) (authority : Nullifier)
    (txid' : TxId) : (w.recordSent txid expiry authority).isMined txid' = w.isMined txid' := by
  unfold isMined recordSent spend
  by_cases h : txid' = txid
  · subst h
    cases w.statuses txid' <;> simp
  · simp [Function.update_of_ne h]

end RegistryWallet

end ZnsMint
