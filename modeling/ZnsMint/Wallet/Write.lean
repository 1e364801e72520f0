import ZnsMint.Wallet.Input

/-! # Writing the wallet

The write-side operations of `src/wallet/write.rs` that change a table: scanned blocks and the Name Notes
stored after them, transactions built or seen, trust, locks, and the truncation to an earlier height. An
operation is a function of the wallet, and one that fails gives none. That the first two, which write
table by table, come to the same is `Wallet.Commit`; the cloning of a commitment tree and the caching of
a witness are there too. -/

namespace ZnsMint.Wallet

open Basic Lib.Tables Lib.Checkpoints

variable {X : Backend}

inductive WalletError (X : Backend) where
  | chainDiscontinuity (height : ℕ)
  | truncationTargetUnavailable (height : ℕ)
  | commitmentTree (error : X.TreeError)
  | unexpectedOrchardReceive
  | invalidNameNote (reason : String)

/-- A failure of a commitment tree, as the wallet's own. -/
def treeResult {α : Type} (r : Except X.TreeError α) : Except (WalletError X) α :=
  r.mapError .commitmentTree

/-! ### Scanned blocks -/

/-- Checkpoints `height` in one pool, if the appends of its block did not. -/
def ensureBlockCheckpoint (tree : X.Tree) (height : ℕ) : Except (WalletError X) X.Tree :=
  if X.getCheckpoint tree height then .ok tree
  else if (X.maxCheckpointId tree).any fun id => decide (height ≤ id) then .error
    (.chainDiscontinuity height)
  else do
    let (added, tree) ← treeResult (X.checkpoint tree height)
    if added then .ok tree else .error (.chainDiscontinuity height)

/-- Appends one block's commitments to one tree, marking those in `marks`, checks where the tree ended up,
and checkpoints the height. -/
def appendBlockCommitments (tree : X.Tree) (bundles : ScannedBundles X) (height : ℕ)
    (marks : List X.Node) :
    Except (WalletError X) X.Tree := do
  let tree ← bundles.commitments.foldlM (fun tree (commitment, retention) =>
    treeResult (X.append tree commitment (if commitment ∈ marks then .marked else retention))) tree
  let expected := if bundles.finalTreeSize = 0 then none else some (bundles.finalTreeSize - 1)
  let position ← treeResult (X.maxLeafPosition tree)
  if position = expected then ensureBlockCheckpoint tree height else .error (.chainDiscontinuity height)

/-- The three trees after one block. Only accepted Name Notes, which are Ironwood, are marked. -/
def appendBlock (trees : ShieldedPool → X.Tree) (block : ScannedBlock X) (marks : List X.Node) :
    Except (WalletError X) (ShieldedPool → X.Tree) := do
  let sapling ← appendBlockCommitments (trees .sapling) (block.bundles .sapling) block.height []
  let orchard ← appendBlockCommitments (trees .orchard) (block.bundles .orchard) block.height []
  let ironwood ← appendBlockCommitments (trees .ironwood) (block.bundles .ironwood) block.height marks
  return fun | .sapling => sapling | .orchard => orchard | .ironwood => ironwood

/-- The first height at which the batch is not sequential. -/
def firstGap : List (ScannedBlock X) → Option ℕ
  | a :: b :: rest => if nextHeight a.height = b.height then firstGap (b :: rest) else some b.height
  | _ => none

/-- The batch starts after `fromTip`, is sequential, and `fromTip` is the wallet's applied tip. -/
def checkContinuity (w : Wallet X) (fromTip : BlockMetadata) (first : ScannedBlock X)
    (blocks : List (ScannedBlock X)) :
    Except (WalletError X) Unit :=
  if nextHeight fromTip.blockHeight ≠ first.height then .error (.chainDiscontinuity first.height)
  else match firstGap blocks with
    | some height => .error (.chainDiscontinuity height)
    | none => match w.blocks.toList.getLast? with
      | some (appliedTip, metadata) =>
        if appliedTip = fromTip.blockHeight ∧ metadata.blockHash = fromTip.blockHash then .ok ()
        else .error (.chainDiscontinuity appliedTip)
      | none =>
        if fromTip.blockHeight = w.seed.blockHeight ∧ fromTip.blockHash = w.seed.blockHash then .ok ()
        else .error (.chainDiscontinuity fromTip.blockHeight)

/-- A received output and the nullifier it will reveal. -/
def Lane.receive (lane : Lane X) (id : NoteId) (output : WalletOutput X) : Lane X where
  notes := lane.notes.insert id output
  noteSpends := lane.noteSpends
  nullifiers := match output.nf with
    | some nf => lane.nullifiers.insert nf id
    | none => lane.nullifiers

/-- A nullifier revealed by `txid`: the spend of the note it identifies, if it is one of ours. -/
def Lane.spend (txid : TxId) (lane : Lane X) (nf : Nullifier) : Lane X :=
  match lane.nullifiers nf with
  | some id => { lane with noteSpends := lane.noteSpends.insert id txid }
  | none => lane

/-- The id of an output of a scanned transaction. -/
def WalletTx.noteId (tx : WalletTx X) (p : OwnedPool) (output : WalletOutput X) : NoteId :=
  ⟨tx.txid, p.shielded, output.index⟩

/-- A scanned transaction: it is mined, and its outputs are received. -/
def receiveTx (height : ℕ) (w : Wallet X) (tx : WalletTx X) : Wallet X :=
  { w with
    transactionStatuses := w.transactionStatuses.insert tx.txid (.mined height)
    transactionIndices := w.transactionIndices.insert tx.txid tx.blockIndex
    lanes := fun p => (tx.outputs p).foldl (fun lane output => lane.receive (tx.noteId p output) output)
      (w.lanes p) }

/-- The spends of a scanned transaction. -/
def spendTx (w : Wallet X) (tx : WalletTx X) : Wallet X :=
  { w with lanes := fun p => (tx.spends p).foldl (Lane.spend tx.txid) (w.lanes p) }

/-- One block of a batch: what its transactions receive, then what they spend. -/
def applyBlock (w : Wallet X) (block : ScannedBlock X) : Wallet X :=
  let w := block.transactions.foldl spendTx (block.transactions.foldl (receiveTx block.height) w)
  { w with blocks := w.blocks.insert block.height block.toBlockMetadata }

/-- `update_chain_tip`, the one writer of what is known of the chain. -/
def updateChainTip (w : Wallet X) (tipHeight : ℕ) : Wallet X := { w with zebraTip := some tipHeight }

/-- The batch, after its checks: blocks in order, then the known tip follows. -/
def applyBlocks (w : Wallet X) (blocks : List (ScannedBlock X)) : Wallet X :=
  let w := blocks.foldl applyBlock w
  match w.blocks.toList.getLast? with
  | some (applied, _) => w.updateChainTip applied
  | none => w

/-- `put_blocks`, with the commitments of accepted Name Notes marked. -/
def putBlocksMarked (w : Wallet X) (fromTip : BlockMetadata) (blocks : List (ScannedBlock X))
    (marks : List X.Node) :
    Except (WalletError X) (Wallet X) :=
  match blocks with
  | [] => .ok w
  | first :: _ => do
    w.checkContinuity fromTip first blocks
    if blocks.any fun block => block.transactions.any fun tx => !tx.orchardOutputs.isEmpty then
      .error .unexpectedOrchardReceive
    else
      let trees ← blocks.foldlM (fun trees block => appendBlock trees block marks) w.trees
      return { w with trees := trees }.applyBlocks blocks

/-! ### Name Notes -/

/-- What the run loop knows of an accepted Name Note: where it was mined, its place in the Ironwood tree,
and what its decryption gave. -/
structure NameNoteArgs (X : Backend) where
  height : ℕ
  position : ℕ
  txid : TxId
  actionIndex : ℕ
  note : X.Note
  rcm : NameCommitment
  psi : ℕ
  nullifier : Nullifier
  ephemeralKey : Vector UInt8 32
  memo : MemoBytes

def NameNoteArgs.noteId (a : NameNoteArgs X) : NoteId := ⟨a.txid, .ironwood, a.actionIndex.toUInt16⟩

/-- The note as a received output of the Registry account. -/
def NameNoteArgs.output (a : NameNoteArgs X) : WalletOutput X where
  index := a.actionIndex.toUInt16
  ephemeralKey := a.ephemeralKey
  note := a.note
  isChange := false
  noteCommitmentTreePosition := a.position
  nf := some a.nullifier
  accountId := REGISTRY_ACCOUNT
  recipientKeyScope := some .external

/-- The transaction is mined at the height given, in a block that is applied. -/
def checkNameNoteHeight (w : Wallet X) (a : NameNoteArgs X) : Except (WalletError X) Unit :=
  if w.blocks[a.height]?.isNone then .error (.invalidNameNote "height is not an applied block")
  else match w.transactionStatuses a.txid with
    | some (.mined mined) =>
      if mined = a.height then .ok ()
      else .error (.invalidNameNote "txid is mined at a different height")
    | some _ => .error (.invalidNameNote "txid is not mined in the main chain")
    | none => .error (.invalidNameNote "txid was not applied with put_blocks")

/-- The leaf at the position is the commitment the arguments make. -/
def checkNameNoteLeaf (w : Wallet X) (a : NameNoteArgs X) : Except (WalletError X) Unit := do
  let path ← treeResult (X.witnessAtCheckpointId (w.trees .ironwood) a.position a.height)
  match path with
  | none => .error (.invalidNameNote "no Ironwood witness at position for this height")
  | some path => match X.znsCmx a.note a.rcm a.psi with
    | none => .error (.invalidNameNote "ZNS commitment is the identity")
    | some leaf => do
      let anchor ← treeResult (X.rootAtCheckpointId (w.trees .ironwood) a.height)
      match anchor with
      | none => .error (.invalidNameNote "no Ironwood anchor at height for binding check")
      | some anchor =>
        if X.pathRoot path leaf = anchor then .ok ()
        else .error (.invalidNameNote "note commitment does not match tree root at height")

/-- Stores one decrypted Name Note, or finds it stored already, field by field. -/
def storeNameNote (w : Wallet X) (a : NameNoteArgs X) : Except (WalletError X) (Wallet X) := do
  w.checkNameNoteHeight a
  if a.actionIndex < 65536 then
    if ((w.lanes .ironwood).nullifiers a.nullifier).any fun owner => decide (owner ≠ a.noteId) then
      .error (.invalidNameNote "nullifier already identifies a different Ironwood note")
    else do
      w.checkNameNoteLeaf a
      match (w.lanes .ironwood).notes a.noteId with
      | some existing =>
        if existing.noteCommitmentTreePosition ≠ a.position ∨ existing.nf ≠ some a.nullifier ∨
            existing.note ≠ a.note ∨ existing.ephemeralKey ≠ a.ephemeralKey ∨
            existing.accountId ≠ REGISTRY_ACCOUNT ∨ existing.recipientKeyScope ≠ some .external then
          .error (.invalidNameNote "NoteId exists with divergent fields")
        else if w.memos a.noteId ≠ some (X.memoFuture a.memo) then
          .error (.invalidNameNote "NoteId exists with divergent memo")
        else .ok w
      | none =>
        .ok { w.setLane .ironwood ((w.lanes .ironwood).receive a.noteId a.output) with
          memos := w.memos.insert a.noteId (X.memoFuture a.memo) }
  else .error (.invalidNameNote "Ironwood action index does not fit u16")

/-! ### Transactions built or seen -/

/-- Which table of notes a sent output belongs to. -/
def SentTransactionOutput.pool (o : SentTransactionOutput) : Option ShieldedPool :=
  match o.recipient with
  | .external (.shielded pool) => some pool
  | .internalShielded notePool => some notePool
  | _ => none

/-- The memo of a sent output, if it goes to a shielded pool, has an index of 16 bits and reads as one. -/
def storeSentMemo (txid : TxId) (memos : Table NoteId X.Memo) (o : SentTransactionOutput) :
    Table NoteId X.Memo :=
  match o.pool, o.memo.bind X.memoFromBytes with
  | some pool, some memo =>
    if o.outputIndex < 65536 then memos.insert ⟨txid, pool, o.outputIndex.toUInt16⟩ memo else memos
  | _, _ => memos

/-- The spend of a wallet note by a transaction built here, which releases the note's lock. -/
def recordSpend (p : OwnedPool) (txid : TxId) (w : Wallet X) (nf : Nullifier) : Wallet X :=
  match (w.lanes p).nullifiers nf with
  | some id =>
    { w.setLane p ((w.lanes p).spend txid nf) with locks := w.locks.remove (.ofNoteId id) }
  | none => w

/-- One transaction to be sent. A status already learned is not downgraded. -/
def storeTransactionToBeSent (w : Wallet X) (sent : SentTransaction) : Wallet X :=
  let txid := sent.tx.txid
  let w := { w with
    transactions := w.transactions.insert txid sent.tx
    transactionStatuses :=
      w.transactionStatuses.insert txid ((w.transactionStatuses txid).getD .notInMainChain)
    sentOutputs := w.sentOutputs.insert txid sent.outputs
    memos := sent.outputs.foldl (storeSentMemo txid) w.memos }
  let w := (sent.tx.nullifiers .sapling).foldl (recordSpend .sapling txid) w
  (sent.tx.nullifiers .ironwood).foldl (recordSpend .ironwood txid) w

def storeTransactionsToBeSent (w : Wallet X) (transactions : List SentTransaction) : Wallet X :=
  transactions.foldl storeTransactionToBeSent w

/-- `record_sent`: a transaction of the mint, without its outputs. -/
def recordSent (w : Wallet X) (tx : Transaction) : Wallet X := w.storeTransactionsToBeSent [⟨tx, []⟩]

def storeDecryptedMemo (txid : TxId) (p : OwnedPool) (memos : Table NoteId X.Memo)
    (o : UInt16 × MemoBytes) :
    Table NoteId X.Memo :=
  match X.memoFromBytes o.2 with
  | some memo => memos.insert ⟨txid, p.shielded, o.1⟩ memo
  | none => memos

/-- A transaction seen and decrypted: its raw form, its status and its memos. It creates no note and
records no spend. -/
def storeDecryptedTx (w : Wallet X) (received : DecryptedTransaction) : Wallet X :=
  let txid := received.tx.txid
  let status := match received.minedHeight with
    | some height => .mined height
    | none => (w.transactionStatuses txid).getD .notInMainChain
  let memos := (received.outputs .sapling).foldl (storeDecryptedMemo txid .sapling) w.memos
  { w with
    transactions := w.transactions.insert txid received.tx
    transactionStatuses := w.transactionStatuses.insert txid status
    memos := (received.outputs .ironwood).foldl (storeDecryptedMemo txid .ironwood) memos }

def setTxTrust (w : Wallet X) (txid : TxId) (trusted : Bool) : Wallet X :=
  { w with trustedTransactions := Function.update w.trustedTransactions txid trusted }

def setTransactionStatus (w : Wallet X) (txid : TxId) (status : TransactionStatus) : Wallet X :=
  { w with transactionStatuses := w.transactionStatuses.insert txid status }

/-! ### Locks -/

/-- A foreign lock outlives the wallet's position. -/
def isForeignLockActive (w : Wallet X) (output : OutputRef) (owner : LockOwner) : Bool :=
  match w.locks output with
  | some (existingOwner, expiry) => decide (existingOwner ≠ owner) && decide (w.tip.blockHeight < expiry)
  | none => false

/-- All the outputs are locked, or none and the first that cannot be is named. -/
def lockOutputs (w : Wallet X) (outputs : List OutputRef) (owner : LockOwner) (lockExpiryHeight : ℕ) :
    Except OutputRef (Wallet X) :=
  match outputs.find? fun output => (w.outputAccount output).isNone || w.isForeignLockActive
    output owner with
  | some output => .error output
  | none => .ok { w with
      locks := outputs.foldl (fun locks output => locks.insert output (owner, lockExpiryHeight)) w.locks }

def unlockOutput (w : Wallet X) (output : OutputRef) (owner : LockOwner) : Wallet X :=
  if (w.locks output).any fun lock => decide (lock.1 = owner) then
    { w with locks := w.locks.remove output } else w

def clearLockedOutputs (w : Wallet X) (account : AccountId) : Wallet X :=
  { w with locks := w.locks.retain fun output _ => decide (w.outputAccount output ≠ some account) }

/-! ### Truncation -/

/-- The transaction is mined above `height`. -/
def orphaned (w : Wallet X) (height : ℕ) (txid : TxId) : Bool :=
  match w.transactionStatuses txid with
  | some (.mined mined) => decide (height < mined)
  | _ => false

/-- Drops what the orphaned transactions created, and the spends by those of them that were only scanned
(or of a note that goes). -/
def Lane.dropOrphaned (lane : Lane X) (orphaned scannedOnly : TxId → Bool) : Lane X :=
  let notes := lane.notes.retain fun id _ => !orphaned id.txid
  { notes := notes
    noteSpends := lane.noteSpends.retain fun id txid => (notes id).isSome && !scannedOnly txid
    nullifiers := lane.nullifiers.retain fun _ id => !orphaned id.txid }

/-- Drops applied blocks above `height` and the effects that belonged only to the abandoned branch. A
spend that was only scanned is cleared; one by a retained raw transaction stays, and blocks until it
expires. -/
def dropAppliedAbove (w : Wallet X) (height : ℕ) : Wallet X :=
  let scannedOnly txid := w.orphaned height txid && (w.transactions txid).isNone
  let v := { w with
    lanes := fun p => (w.lanes p).dropOrphaned (w.orphaned height) scannedOnly
    memos := w.memos.retain fun id _ => !w.orphaned height id.txid
    transactionIndices := w.transactionIndices.retain fun txid _ => !w.orphaned height txid
    sentOutputs := w.sentOutputs.retain fun txid _ =>
      (w.transactions txid).isSome || !w.orphaned height txid
    transactionStatuses := fun txid =>
      if w.orphaned height txid then some .notInMainChain else w.transactionStatuses txid
    treeShardEndHeights := fun pool => (w.treeShardEndHeights pool).retain fun _ e => decide (e ≤ height)
    blocks := cut w.blocks height }
  { v with locks := v.locks.retain fun output _ => (v.outputAccount output).isSome }

/-- The deepest applied block at or below `maxHeight`. -/
def commonTruncationHeight (w : Wallet X) (maxHeight : ℕ) : Option ℕ :=
  (cut w.blocks maxHeight).toList.getLast?.map Prod.fst

/-- The trees truncated to `height`, where all three retain it as a checkpoint. -/
def tryTruncateTreesTo (w : Wallet X) (height : ℕ) : Except (WalletError X) (Option (Wallet X)) :=
  if X.getCheckpoint (w.trees .sapling) height && X.getCheckpoint (w.trees .orchard) height &&
      X.getCheckpoint (w.trees .ironwood) height then do
    let (done, sapling) ← treeResult (X.truncateToCheckpoint (w.trees .sapling) height)
    if done then
      let (done, orchard) ← treeResult (X.truncateToCheckpoint (w.trees .orchard) height)
      if done then
        let (done, ironwood) ← treeResult (X.truncateToCheckpoint (w.trees .ironwood) height)
        if done then
          return some { w with
            trees := fun | .sapling => sapling | .orchard => orchard | .ironwood => ironwood }
        else return none
      else return none
    else return none
  else return none

/-- Rewinds to the boot origin, when the request reaches it and it is still a checkpoint. -/
def truncateToOrigin (w : Wallet X) (maxHeight : ℕ) : Except (WalletError X) (ℕ × Wallet X) :=
  if w.seed.blockHeight ≤ maxHeight then do
    match ← w.tryTruncateTreesTo w.seed.blockHeight with
    | some v => .ok (w.seed.blockHeight, v.dropAppliedAbove w.seed.blockHeight)
    | none => .error (.truncationTargetUnavailable maxHeight)
  else .error (.truncationTargetUnavailable maxHeight)

/-- Rewinds to the applied block at or below `maxHeight`, and returns the height rewound to. -/
def truncateToHeight (w : Wallet X) (maxHeight : ℕ) : Except (WalletError X) (ℕ × Wallet X) :=
  match w.commonTruncationHeight maxHeight with
  | none => if w.blocks.isEmpty then .ok (maxHeight, w) else w.truncateToOrigin maxHeight
  | some target => do
    match ← w.tryTruncateTreesTo target with
    | some v => .ok (target, v.dropAppliedAbove target)
    | none => .error (.truncationTargetUnavailable target)

end ZnsMint.Wallet
