import ZnsMint.Lib.Calls
import ZnsMint.Wallet.Spends

/-! # Writing the wallet in place

`put_blocks_marked` and `store_name_note` of `src/wallet/write.rs` as they write: table by table, on a
wallet that keeps what was written when a later check fails. Each refines its function of the wallet
(`settles_*`), so that a failure leaves every table and tree as it was, and `commits_all_or_nothing` says
what a call that returns has done. -/

namespace ZnsMint.Wallet

open Basic Lib.Tables Lib.Checkpoints Lib.Machine Lib.Calls

variable {X : Backend}

/-! ### The trees in place -/

/-- How the wallet reaches its commitment trees: by cloning one, and by a witness and a root, which may
write what they computed into the tree. -/
structure TreeAccess (X : Backend) where
  cloneShardTree : X.Tree → Except X.TreeError X.Tree
  witnessCaching : X.Tree → ℕ → ℕ → Except X.TreeError (Option X.Path) × X.Tree
  rootCaching : X.Tree → ℕ → Except X.TreeError (Option X.Node) × X.Tree

/-- A clone is equivalent to the tree, and a witness or a root changes nothing that can be observed. -/
structure TreeAccess.Lawful (T : TreeAccess X) : Prop where
  clone : ∀ {tree tree'}, T.cloneShardTree tree = .ok tree' → tree' = tree
  witness : ∀ tree position height,
    T.witnessCaching tree position height = (X.witnessAtCheckpointId tree position height, tree)
  root : ∀ tree height, T.rootCaching tree height = (X.rootAtCheckpointId tree height, tree)

/-- A call on the wallet in place. -/
abbrev WalletCall (X : Backend) (α : Type) := Call (WalletError X) (Wallet X) α

namespace InPlace

def setTree (pool : ShieldedPool) (tree : X.Tree) : WalletCall X Unit :=
  modify fun w => { w with trees := Function.update w.trees pool tree }

/-- A call on the live Ironwood tree: what it leaves of the tree stays, also when it fails. -/
def withIronwoodTreeMut {α : Type} (callback : X.Tree → Except X.TreeError α × X.Tree) :
    WalletCall X α := do
  let w ← get
  let called := callback (w.trees .ironwood)
  setTree .ironwood called.2
  MonadExcept.ofExcept (treeResult called.1)

def ironwoodWitness (T : TreeAccess X) (position anchorHeight : ℕ) : WalletCall X (Option X.Path) :=
  withIronwoodTreeMut fun tree => T.witnessCaching tree position anchorHeight

def ironwoodAnchor (T : TreeAccess X) (anchorHeight : ℕ) : WalletCall X (Option X.Node) :=
  withIronwoodTreeMut fun tree => T.rootCaching tree anchorHeight

/-! ### Scanned blocks -/

/-- A received output: the note, then its nullifier. -/
def receiveOutput (p : OwnedPool) (id : NoteId) (output : WalletOutput X) : WalletCall X Unit := do
  modify fun w => w.setLane p { w.lanes p with notes := (w.lanes p).notes.insert id output }
  match output.nf with
  | some nf =>
    modify fun w => w.setLane p { w.lanes p with nullifiers := (w.lanes p).nullifiers.insert nf id }
  | none => pure ()

def receiveTx (height : ℕ) (tx : WalletTx X) : WalletCall X Unit := do
  modify fun w => { w with transactionStatuses := w.transactionStatuses.insert tx.txid (.mined height) }
  modify fun w => { w with transactionIndices := w.transactionIndices.insert tx.txid tx.blockIndex }
  forM (tx.outputs .sapling) fun output => receiveOutput .sapling (tx.noteId .sapling output) output
  forM (tx.outputs .ironwood) fun output => receiveOutput .ironwood (tx.noteId .ironwood output) output

def recordNoteSpend (p : OwnedPool) (txid : TxId) (nf : Nullifier) : WalletCall X Unit := do
  let w ← get
  match (w.lanes p).nullifiers nf with
  | some id =>
    modify fun w => w.setLane p { w.lanes p with noteSpends := (w.lanes p).noteSpends.insert id txid }
  | none => pure ()

def spendTx (tx : WalletTx X) : WalletCall X Unit := do
  forM (tx.spends .sapling) (recordNoteSpend .sapling tx.txid)
  forM (tx.spends .ironwood) (recordNoteSpend .ironwood tx.txid)

/-- One block of a batch: the pass over what its transactions receive, the pass over what they spend, and
the block itself. -/
def applyBlock (block : ScannedBlock X) : WalletCall X Unit := do
  forM block.transactions (receiveTx block.height)
  forM block.transactions spendTx
  modify fun w => { w with blocks := w.blocks.insert block.height block.toBlockMetadata }

def updateChainTip (tipHeight : ℕ) : WalletCall X Unit :=
  modify fun w => { w with zebraTip := some tipHeight }

/-- The tip known follows the highest block applied. -/
def followApplied : WalletCall X Unit := do
  let w ← get
  match w.blocks.toList.getLast? with
  | some (applied, _) => updateChainTip applied
  | none => pure ()

/-- Clones of the three trees. -/
def cloneTrees (T : TreeAccess X) (w : Wallet X) : Except (WalletError X) (ShieldedPool → X.Tree) := do
  let sapling ← treeResult (T.cloneShardTree (w.trees .sapling))
  let orchard ← treeResult (T.cloneShardTree (w.trees .orchard))
  let ironwood ← treeResult (T.cloneShardTree (w.trees .ironwood))
  return fun | .sapling => sapling | .orchard => orchard | .ironwood => ironwood

/-- The checks, the appends on clones of the three trees, and only then the first write. -/
def putBlocksMarked (T : TreeAccess X) (fromTip : BlockMetadata) (blocks : List (ScannedBlock X))
    (marks : List X.Node) : WalletCall X Unit :=
  match blocks with
  | [] => pure ()
  | first :: _ => do
    let w ← get
    MonadExcept.ofExcept (w.checkContinuity fromTip first blocks)
    if blocks.any fun block => block.transactions.any fun tx => !tx.orchardOutputs.isEmpty then
      MonadExcept.throw .unexpectedOrchardReceive
    else do
      let cloned ← MonadExcept.ofExcept (cloneTrees T w)
      let trees ← MonadExcept.ofExcept (blocks.foldlM
        (fun trees block => appendBlock trees block marks) cloned)
      setTree .sapling (trees .sapling)
      setTree .orchard (trees .orchard)
      setTree .ironwood (trees .ironwood)
      forM blocks applyBlock
      followApplied

/-! ### Name Notes -/

def checkNameNoteLeaf (T : TreeAccess X) (a : NameNoteArgs X) : WalletCall X Unit := do
  let path ← ironwoodWitness T a.position a.height
  match path with
  | none => MonadExcept.throw (.invalidNameNote "no Ironwood witness at position for this height")
  | some path => match X.znsCmx a.note a.rcm a.psi with
    | none => MonadExcept.throw (.invalidNameNote "ZNS commitment is the identity")
    | some leaf => do
      let anchor ← ironwoodAnchor T a.height
      match anchor with
      | none => MonadExcept.throw (.invalidNameNote "no Ironwood anchor at height for binding check")
      | some anchor =>
        if X.pathRoot path leaf = anchor then pure ()
        else MonadExcept.throw (.invalidNameNote "note commitment does not match tree root at height")

/-- The note, its nullifier and its memo, unless the note is stored already. -/
def storeOrRepeat (a : NameNoteArgs X) : WalletCall X Unit := do
  let w ← get
  match (w.lanes .ironwood).notes a.noteId with
  | some existing => MonadExcept.ofExcept (w.checkStored a existing)
  | none => do
    receiveOutput .ironwood a.noteId a.output
    modify fun w => { w with memos := w.memos.insert a.noteId (X.memoFuture a.memo) }

def checkNameNote (T : TreeAccess X) (a : NameNoteArgs X) : WalletCall X Unit := do
  let w ← get
  MonadExcept.ofExcept (w.checkNameNoteHeight a)
  if a.actionIndex < 65536 then
    if ((w.lanes .ironwood).nullifiers a.nullifier).any fun owner => decide (owner ≠ a.noteId) then
      MonadExcept.throw (.invalidNameNote "nullifier already identifies a different Ironwood note")
    else checkNameNoteLeaf T a
  else MonadExcept.throw (.invalidNameNote "Ironwood action index does not fit u16")

/-- The checks, and only then the first write. -/
def storeNameNote (T : TreeAccess X) (a : NameNoteArgs X) : WalletCall X Unit := do
  checkNameNote T a
  storeOrRepeat a

end InPlace

/-! ### What the writes are -/

theorem setLane_setLane (w : Wallet X) (p : OwnedPool) (lane lane' : Lane X) :
    (w.setLane p lane).setLane p lane' = w.setLane p lane' := by
  unfold setLane
  rw [Function.update_idem]

theorem setLane_self (w : Wallet X) (p : OwnedPool) : w.setLane p (w.lanes p) = w := by
  unfold setLane
  rw [Function.update_eq_self]

theorem setLane_each (w : Wallet X) (lanes : OwnedPool → Lane X) :
    (w.setLane .sapling (lanes .sapling)).setLane .ironwood (lanes .ironwood) =
    { w with lanes := lanes } := by
  have hlanes : Function.update (Function.update w.lanes .sapling (lanes .sapling)) .ironwood
    (lanes .ironwood) =
      lanes := by
    funext p
    cases p with
    | sapling => rfl
    | ironwood => rfl
  unfold setLane
  rw [hlanes]

/-- A loop over one lane writes the lane once. -/
theorem foldl_setLane {α : Type} (p : OwnedPool) (f : Lane X → α → Lane X) (l : List α) (w : Wallet X) :
    l.foldl (fun w a => w.setLane p (f (w.lanes p) a)) w = w.setLane p (l.foldl f (w.lanes p)) := by
  induction l generalizing w with
  | nil => exact (setLane_self w p).symm
  | cons a l ih =>
    rw [List.foldl_cons, ih, setLane_setLane, List.foldl_cons, lanes_setLane, if_pos rfl]

theorem writes_receiveOutput (p : OwnedPool) (id : NoteId) (output : WalletOutput X) :
    Writes (InPlace.receiveOutput p id output) fun w => w.setLane p ((w.lanes p).receive id output) := by
  intro w
  unfold InPlace.receiveOutput Lane.receive
  rcases output.nf with - | nf
  · rfl
  · show EStateM.Result.ok () ((w.setLane p _).setLane p _) = _
    rw [setLane_setLane, lanes_setLane, if_pos rfl]

theorem writes_receiveTx (height : ℕ) (tx : WalletTx X) :
    Writes (InPlace.receiveTx height tx) fun w => receiveTx height w tx := by
  unfold InPlace.receiveTx
  refine Writes.congr ((Writes.modify _).bind ((Writes.modify _).bind
    ((Writes.forM (fun output => writes_receiveOutput .sapling (tx.noteId .sapling output) output) _).bind
      (Writes.forM (fun output => writes_receiveOutput .ironwood (tx.noteId .ironwood output) output)
        _)))) fun w => ?_
  rw [foldl_setLane .sapling (fun lane output => lane.receive (tx.noteId .sapling output) output),
    foldl_setLane .ironwood (fun lane output => lane.receive (tx.noteId .ironwood output) output)]
  exact setLane_each _ fun p => (tx.outputs p).foldl
    (fun lane output => lane.receive (tx.noteId p output) output) (w.lanes p)

theorem writes_recordNoteSpend (p : OwnedPool) (txid : TxId) (nf : Nullifier) :
    Writes (InPlace.recordNoteSpend (X := X) p txid nf) fun w =>
      w.setLane p ((w.lanes p).spend txid nf) := by
  intro w
  unfold InPlace.recordNoteSpend Lane.spend
  rw [EStateM.run_bind, EStateM.run_get]
  rcases hid : (w.lanes p).nullifiers nf with - | id
  · simp only [hid, setLane_self]
    rfl
  · simp only [hid]
    rfl

theorem writes_spendTx (tx : WalletTx X) : Writes (InPlace.spendTx tx) fun w => spendTx w tx := by
  unfold InPlace.spendTx
  refine Writes.congr ((Writes.forM (writes_recordNoteSpend .sapling tx.txid) _).bind
    (Writes.forM (writes_recordNoteSpend .ironwood tx.txid) _)) fun w => ?_
  rw [foldl_setLane .sapling (Lane.spend tx.txid), foldl_setLane .ironwood (Lane.spend tx.txid)]
  exact setLane_each w fun p => (tx.spends p).foldl (Lane.spend tx.txid) (w.lanes p)

theorem writes_applyBlock (block : ScannedBlock X) :
    Writes (InPlace.applyBlock block) fun w => w.applyBlock block :=
  (Writes.forM (writes_receiveTx block.height) _).bind
    ((Writes.forM writes_spendTx _).bind (Writes.modify _))

/-- The blocks of a batch, and the tip known after them. -/
theorem writes_applyBlocks (blocks : List (ScannedBlock X)) :
    Writes (do forM blocks InPlace.applyBlock; InPlace.followApplied) fun w => w.applyBlocks blocks := by
  have hfollow : Writes (InPlace.followApplied (X := X)) fun w => w.applyBlocks [] := by
    intro w
    unfold InPlace.followApplied applyBlocks
    rw [EStateM.run_bind, EStateM.run_get]
    simp only [List.foldl_nil]
    rcases w.blocks.toList.getLast? with - | ⟨applied, md⟩
    · rfl
    · rfl
  exact (Writes.forM writes_applyBlock blocks).bind hfollow

/-! ### A batch in place -/

/-- The three trees are replaced one after the other. -/
theorem writes_setTrees (trees : ShieldedPool → X.Tree) {y : WalletCall X Unit} {g : Wallet X → Wallet X}
    (hy : Writes y g) :
    Writes (do
      InPlace.setTree .sapling (trees .sapling)
      InPlace.setTree .orchard (trees .orchard)
      InPlace.setTree .ironwood (trees .ironwood)
      y) fun w => g { w with trees := trees } := by
  refine Writes.congr ((Writes.modify _).bind ((Writes.modify _).bind ((Writes.modify _).bind hy)))
    fun w => ?_
  have htrees : Function.update (Function.update (Function.update w.trees .sapling (trees .sapling))
      .orchard (trees .orchard)) .ironwood (trees .ironwood) = trees := by
    funext pool
    cases pool with
    | sapling => rfl
    | orchard => rfl
    | ironwood => rfl
  rw [htrees]

/-- The batch as a function of the wallet, with its appends on clones. -/
def putBlocksCloned (T : TreeAccess X) (fromTip : BlockMetadata) (blocks : List (ScannedBlock X))
    (marks : List X.Node) (w : Wallet X) : Except (WalletError X) (Wallet X) :=
  match blocks with
  | [] => .ok w
  | first :: _ => do
    w.checkContinuity fromTip first blocks
    if blocks.any fun block => block.transactions.any fun tx => !tx.orchardOutputs.isEmpty then
      .error .unexpectedOrchardReceive
    else do
      let cloned ← InPlace.cloneTrees T w
      let trees ← blocks.foldlM (fun trees block => appendBlock trees block marks) cloned
      return { w with trees := trees }.applyBlocks blocks

theorem settles_putBlocksMarked (T : TreeAccess X) (fromTip : BlockMetadata)
    (blocks : List (ScannedBlock X))
    (marks : List X.Node) :
    Settles (InPlace.putBlocksMarked T fromTip blocks marks)
      (putBlocksCloned T fromTip blocks marks) := by
  rcases blocks with - | ⟨first, blocks⟩
  · exact fun _ => rfl
  · unfold InPlace.putBlocksMarked
    -- all that can fail only reads, and stands before the first tree is replaced
    exact Settles.congr (Reads.get.settles fun w => (Reads.ofExcept _).settles fun _ =>
      Settles.ite (fun _ => Settles.throw _) fun _ => (Reads.ofExcept _).settles fun cloned =>
        (Reads.ofExcept _).settles fun trees => (writes_setTrees trees (writes_applyBlocks _)).settles)
      fun w => rfl

theorem ok_of_treeResult {α : Type} {r : Except X.TreeError α} {a : α} (h : treeResult r = .ok a) :
    r = .ok a := by
  rcases r with e | b
  · exact nomatch h
  · exact congrArg Except.ok (Except.ok.inj h)

theorem cloneTrees_ok {T : TreeAccess X} (hT : T.Lawful) {w : Wallet X} {trees : ShieldedPool → X.Tree}
    (hok : InPlace.cloneTrees T w = .ok trees) : trees = w.trees := by
  unfold InPlace.cloneTrees at hok
  obtain ⟨sapling, hsapling, hok⟩ := ok_of_bind hok
  obtain ⟨orchard, horchard, hok⟩ := ok_of_bind hok
  obtain ⟨ironwood, hironwood, hok⟩ := ok_of_bind hok
  rw [← Except.ok.inj hok]
  funext pool
  cases pool with
  | sapling => exact hT.clone (ok_of_treeResult hsapling)
  | orchard => exact hT.clone (ok_of_treeResult horchard)
  | ironwood => exact hT.clone (ok_of_treeResult hironwood)

/-- **The batch in place is the batch**, where the trees can be cloned. -/
theorem putBlocksCloned_eq {T : TreeAccess X} {w : Wallet X}
    (hclones : InPlace.cloneTrees T w = .ok w.trees)
    (fromTip : BlockMetadata) (blocks : List (ScannedBlock X)) (marks : List X.Node) :
    putBlocksCloned T fromTip blocks marks w = w.putBlocksMarked fromTip blocks marks := by
  rcases blocks with - | ⟨first, blocks⟩
  · rfl
  · unfold putBlocksCloned putBlocksMarked
    simp only [hclones]
    rfl

theorem putBlocksCloned_ok {T : TreeAccess X} (hT : T.Lawful) {fromTip : BlockMetadata}
    {blocks : List (ScannedBlock X)} {marks : List X.Node} {w v : Wallet X}
    (hok : putBlocksCloned T fromTip blocks marks w = .ok v) :
    w.putBlocksMarked fromTip blocks marks = .ok v := by
  have hbatch := hok
  rcases blocks with - | ⟨first, blocks⟩
  · exact hok
  · unfold putBlocksCloned at hok
    obtain ⟨⟨⟩, -, hok⟩ := ok_of_bind hok
    split_ifs at hok
    obtain ⟨cloned, hcloned, -⟩ := ok_of_bind hok
    have hclones : InPlace.cloneTrees T w = .ok w.trees := cloneTrees_ok hT hcloned ▸ hcloned
    rwa [putBlocksCloned_eq hclones] at hbatch

/-! ### A Name Note in place -/

/-- A call that leaves the tree as it was only reads. -/
theorem reads_withIronwoodTreeMut {α : Type} {callback : X.Tree → Except X.TreeError α × X.Tree}
    {r : X.Tree → Except X.TreeError α} (h : ∀ tree, callback tree = (r tree, tree)) :
    Reads (InPlace.withIronwoodTreeMut callback) fun w => treeResult (r (w.trees .ironwood)) := by
  unfold InPlace.withIronwoodTreeMut
  refine Reads.get_bind fun w => ?_
  have hkept : (InPlace.setTree .ironwood (w.trees .ironwood)).run w = .ok () w := by
    show EStateM.Result.ok () { w with trees := Function.update w.trees .ironwood (w.trees .ironwood) } =
      _
    rw [Function.update_eq_self]
  simp only [h]
  rw [EStateM.run_bind, hkept]
  exact Reads.ofExcept _ w

theorem reads_checkNameNoteLeaf {T : TreeAccess X} (hT : T.Lawful) (a : NameNoteArgs X) :
    Reads (InPlace.checkNameNoteLeaf T a) fun w => w.checkNameNoteLeaf a := by
  unfold InPlace.checkNameNoteLeaf checkNameNoteLeaf
  refine (reads_withIronwoodTreeMut fun tree => hT.witness tree a.position a.height).bind fun path => ?_
  rcases path with - | path
  · exact Reads.throw _
  rcases X.znsCmx a.note a.rcm a.psi with - | leaf
  · exact Reads.throw _
  refine (reads_withIronwoodTreeMut fun tree => hT.root tree a.height).bind fun anchor => ?_
  rcases anchor with - | anchor
  · exact Reads.throw _
  exact Reads.ite (fun _ => Reads.pure ()) fun _ => Reads.throw _

theorem settles_storeOrRepeat (a : NameNoteArgs X) :
    Settles (InPlace.storeOrRepeat a) fun w => w.storeOrRepeat a := by
  intro w
  unfold InPlace.storeOrRepeat storeOrRepeat
  rw [EStateM.run_bind, EStateM.run_get]
  rcases hnote : (w.lanes .ironwood).notes a.noteId with - | existing
  · simp only [hnote]
    exact ((writes_receiveOutput .ironwood a.noteId a.output).bind (Writes.modify _)) w
  · simp only [hnote]
    rcases w.checkStored a existing with e | _
    · rfl
    · rfl

theorem reads_checkNameNote {T : TreeAccess X} (hT : T.Lawful) (a : NameNoteArgs X) :
    Reads (InPlace.checkNameNote T a) fun w => w.checkNameNote a := by
  unfold InPlace.checkNameNote checkNameNote
  refine Reads.get_bind fun w => ?_
  rcases w.checkNameNoteHeight a with e | _
  · rfl
  · exact Reads.ite (fun _ => Reads.ite (fun _ => Reads.throw _) fun _ => reads_checkNameNoteLeaf hT a)
      (fun _ => Reads.throw _) w

/-- **The Name Note in place is the Name Note.** -/
theorem settles_storeNameNote {T : TreeAccess X} (hT : T.Lawful) (a : NameNoteArgs X) :
    Settles (InPlace.storeNameNote T a) fun w => w.storeNameNote a :=
  Settles.congr ((reads_checkNameNote hT a).settles fun _ => settles_storeOrRepeat a)
    fun w => (storeNameNote_eq w a).symm

/-! ### What a batch has done -/

theorem last_applyBlock {w : Wallet X} {block : ScannedBlock X} (hle : w.appliedTip.1 ≤ block.height) :
    (w.applyBlock block).blocks.toList.getLast? = some (block.height, block.toBlockMetadata) := by
  rw [blocks_applyBlock]
  exact getLast?_insert fun j hj => (le_appliedTip hj).trans hle

/-- The highest block after a batch is the last of the batch. -/
theorem last_applyEach {w : Wallet X} {blocks : List (ScannedBlock X)} (hne : blocks ≠ [])
    (hmax : w.appliedTip.1 ≤ MAX_HEIGHT) (hfollows : Follows w.appliedTip.1 blocks) :
    (blocks.foldl applyBlock w).blocks.toList.getLast? =
      some ((blocks.getLast hne).height, (blocks.getLast hne).toBlockMetadata) := by
  induction blocks generalizing w with
  | nil => exact absurd rfl hne
  | cons block blocks ih =>
    obtain ⟨hheight, hrest⟩ := hfollows
    have hle : w.appliedTip.1 ≤ block.height := hheight ▸ le_nextHeight hmax
    have hlast := last_applyBlock hle
    -- the block is the applied tip that the rest follows
    rcases blocks with - | ⟨next, blocks⟩
    · exact hlast
    · have htip : (w.applyBlock block).appliedTip.1 = block.height := by rw [appliedTip_of_last hlast]
      rw [List.foldl_cons, List.getLast_cons (List.cons_ne_nil next blocks)]
      refine ih (List.cons_ne_nil next blocks) ?_ ?_
      · rw [htip, hheight]
        exact nextHeight_le _
      · rwa [htip]

/-- **A batch that is accepted** starts after `fromTip`, which is the applied tip, goes on height by
height, and leaves its last block as the applied tip and as what is known of the chain. -/
theorem putBlocksMarked_applied {w v : Wallet X} {fromTip : BlockMetadata}
    {blocks : List (ScannedBlock X)}
    {marks : List X.Node} (hne : blocks ≠ []) (hmax : fromTip.blockHeight ≤ MAX_HEIGHT)
    (hok : w.putBlocksMarked fromTip blocks marks = .ok v) :
    Follows fromTip.blockHeight blocks ∧ w.appliedTip = (fromTip.blockHeight, fromTip.blockHash) ∧
      v.appliedTip = ((blocks.getLast hne).height, (blocks.getLast hne).blockHash) ∧
      v.tip = (blocks.getLast hne).toBlockMetadata ∧ v.zebraTip = some (blocks.getLast hne).height := by
  rcases blocks with - | ⟨first, blocks⟩
  · exact absurd rfl hne
  obtain ⟨hcontinuity, trees, rfl⟩ := putBlocksMarked_cons hok
  obtain ⟨hfollows, happlied⟩ := checkContinuity_applied hcontinuity
  have happlied' : ({ w with trees := trees } : Wallet X).appliedTip =
      (fromTip.blockHeight, fromTip.blockHash) :=
    happlied
  have hlast : ((first :: blocks).foldl applyBlock { w with trees := trees }).blocks.toList.getLast? =
      some (((first :: blocks).getLast hne).height, ((first :: blocks).getLast hne).toBlockMetadata) := by
    refine last_applyEach hne ?_ ?_
    · rwa [happlied']
    · rwa [happlied']
  have hv : { w with trees := trees }.applyBlocks (first :: blocks) =
      { (first :: blocks).foldl applyBlock { w with trees := trees } with
        zebraTip := some ((first :: blocks).getLast hne).height } := by
    unfold applyBlocks
    simp only [hlast]
    rfl
  rw [hv]
  exact ⟨hfollows, happlied, appliedTip_of_last hlast, tip_of_last hlast, rfl⟩

/-! ### What a Name Note that is stored has done -/

/-- Every note with a nullifier is found under it. -/
def Lane.Indexed (lane : Lane X) : Prop :=
  Every (fun id output => ∀ nf, output.nf = some nf → lane.nullifiers nf = some id) lane.notes

/-- A note arrives whose nullifier is no other note's. -/
theorem Lane.Indexed.receive {lane : Lane X} (h : lane.Indexed) {id : NoteId} {output : WalletOutput X}
    {nf : Nullifier} (hnf : output.nf = some nf)
    (howner : ∀ owner, lane.nullifiers nf = some owner → owner = id) :
    (lane.receive id output).Indexed := by
  intro id' output' hnote nf' hnf'
  unfold Lane.receive at hnote ⊢
  simp only [hnf] at hnote ⊢
  rcases Table.insert_eq_some.mp hnote with ⟨rfl, rfl⟩ | ⟨hne, hnote⟩
  · obtain rfl : nf = nf' := Option.some.inj (hnf.symm.trans hnf')
    exact Table.insert_same ..
  · have hfound : lane.nullifiers nf' = some id' := h id' output' hnote nf' hnf'
    rw [Table.insert_of_ne]
    · exact hfound
    · rintro rfl
      exact hne (howner id' hfound)

section Stored

variable {w : Wallet X} {a : NameNoteArgs X}

theorem nullifiers_withNameNote (w : Wallet X) (a : NameNoteArgs X) :
    ((w.withNameNote a).lanes .ironwood).nullifiers =
    (w.lanes .ironwood).nullifiers.insert a.nullifier a.noteId := by
  show ((w.setLane .ironwood _).lanes .ironwood).nullifiers = _
  rw [lanes_setLane, if_pos rfl]
  rfl

theorem notes_withNameNote (w : Wallet X) (a : NameNoteArgs X) :
    ((w.withNameNote a).lanes .ironwood).notes = (w.lanes .ironwood).notes.insert a.noteId a.output := by
  show ((w.setLane .ironwood _).lanes .ironwood).notes = _
  rw [lanes_setLane, if_pos rfl]
  rfl

/-- What the checks read is the same once the note is stored, but for its own nullifier. -/
theorem checkNameNote_withNameNote (hok : w.checkNameNote a = .ok ()) :
    (w.withNameNote a).checkNameNote a = .ok () := by
  unfold checkNameNote at hok ⊢
  obtain ⟨⟨⟩, hheight, hok⟩ := ok_of_bind hok
  split_ifs at hok with hindex howner
  have hleaf : (w.withNameNote a).checkNameNoteLeaf a = .ok () := hok
  have hown : ¬((((w.withNameNote a).lanes .ironwood).nullifiers a.nullifier).any
      fun owner => decide (owner ≠ a.noteId)) = true := by
    rw [nullifiers_withNameNote, Table.insert_same]
    simp
  have hheight' : (w.withNameNote a).checkNameNoteHeight a = .ok () := hheight
  rw [hheight', if_pos hindex, if_neg hown]
  exact hleaf

theorem storeOrRepeat_withNameNote (w : Wallet X) (a : NameNoteArgs X) :
    (w.withNameNote a).storeOrRepeat a = .ok (w.withNameNote a) := by
  have hmemo : (w.withNameNote a).memos a.noteId = some (X.memoFuture a.memo) := Table.insert_same ..
  have hstored : (w.withNameNote a).checkStored a a.output = .ok () := by
    unfold checkStored NameNoteArgs.output
    simp [hmemo]
  have hnote : ((w.withNameNote a).lanes .ironwood).notes a.noteId = some a.output := by
    rw [notes_withNameNote, Table.insert_same]
  unfold storeOrRepeat
  simp only [hnote, hstored]
  rfl

/-- The note of the arguments is stored, for the Registry account and with its nullifier, place and
memo. -/
def HoldsNameNote (w : Wallet X) (a : NameNoteArgs X) : Prop :=
  ∃ output, (w.lanes .ironwood).notes a.noteId = some output ∧ output.note = a.note ∧
    output.nf = some a.nullifier ∧ output.noteCommitmentTreePosition = a.position ∧
    output.accountId = REGISTRY_ACCOUNT ∧ w.memos a.noteId = some (X.memoFuture a.memo)

theorem holds_of_checkStored {existing : WalletOutput X}
    (hnote : (w.lanes .ironwood).notes a.noteId = some existing)
    (hok : w.checkStored a existing = .ok ()) :
    w.HoldsNameNote a := by
  unfold checkStored at hok
  split_ifs at hok with hfields hmemo
  simp only [not_or, not_not] at hfields hmemo
  obtain ⟨hposition, hnf, hsame, -, haccount, -⟩ := hfields
  exact ⟨existing, hnote, hsame, hnf, hposition, haccount, hmemo⟩

theorem holds_withNameNote (w : Wallet X) (a : NameNoteArgs X) : (w.withNameNote a).HoldsNameNote a := by
  refine ⟨a.output, ?_, rfl, rfl, rfl, rfl, Table.insert_same ..⟩
  rw [notes_withNameNote, Table.insert_same]

/-- **A Name Note that is accepted** passes its checks, and is found stored or is new. -/
theorem storeNameNote_cases {v : Wallet X} (hok : w.storeNameNote a = .ok v) :
    w.checkNameNote a = .ok () ∧
      (w.HoldsNameNote a ∧ v = w ∨ (w.lanes .ironwood).notes a.noteId = none ∧ v = w.withNameNote a) := by
  rw [storeNameNote_eq] at hok
  obtain ⟨⟨⟩, hcheck, hok⟩ := ok_of_bind hok
  refine ⟨hcheck, ?_⟩
  rcases storeOrRepeat_ok hok with ⟨existing, hnote, hstored, hv⟩ | hnew
  · exact .inl ⟨holds_of_checkStored hnote hstored, hv⟩
  · exact .inr hnew

/-- **A Name Note that was stored can be stored again**, and that changes nothing. -/
theorem storeNameNote_repeat {v : Wallet X} (hok : w.storeNameNote a = .ok v) :
    v.storeNameNote a = .ok v := by
  obtain ⟨hcheck, ⟨-, rfl⟩ | ⟨-, rfl⟩⟩ := storeNameNote_cases hok
  · exact hok
  · rw [storeNameNote_eq, checkNameNote_withNameNote hcheck]
    exact storeOrRepeat_withNameNote w a

/-- A note that is stored stays as it is. -/
theorem storeNameNote_keeps {v : Wallet X} (hok : w.storeNameNote a = .ok v) {p : OwnedPool} {id : NoteId}
    {output : WalletOutput X} (hnote : (w.lanes p).notes id = some output) :
    (v.lanes p).notes id = some output := by
  obtain ⟨-, ⟨-, rfl⟩ | ⟨hnew, rfl⟩⟩ := storeNameNote_cases hok
  · exact hnote
  · cases p with
    | sapling => exact hnote
    | ironwood =>
      have hne : id ≠ a.noteId := by
        rintro rfl
        exact nomatch hnew.symm.trans hnote
      rw [notes_withNameNote, Table.insert_of_ne hne]
      exact hnote

/-- **The nullifier leads to the note**, unless the note was there without it, and then nothing
changes. -/
theorem storeNameNote_found {v : Wallet X} (hok : w.storeNameNote a = .ok v) :
    (v.lanes .ironwood).nullifiers a.nullifier = some a.noteId ∨
      v = w ∧ ((w.lanes .ironwood).notes a.noteId).isSome = true ∧
        (w.lanes .ironwood).nullifiers a.nullifier = none := by
  have howner := (storeNameNote_ok hok).2.2.1
  obtain ⟨-, ⟨⟨existing, hnote, -⟩, rfl⟩ | ⟨-, rfl⟩⟩ := storeNameNote_cases hok
  · rcases hnf : (v.lanes .ironwood).nullifiers a.nullifier with - | owner
    · exact .inr ⟨rfl, by rw [hnote]; rfl, rfl⟩
    · exact .inl (congrArg some (howner owner hnf))
  · refine .inl ?_
    rw [nullifiers_withNameNote, Table.insert_same]

/-- **Where every note is found under its nullifier**, every note still is, and this one too. -/
theorem storeNameNote_indexed {v : Wallet X} (hok : w.storeNameNote a = .ok v)
    (h : (w.lanes .ironwood).Indexed) :
    (v.lanes .ironwood).Indexed ∧ (v.lanes .ironwood).nullifiers a.nullifier = some a.noteId := by
  have howner := (storeNameNote_ok hok).2.2.1
  obtain ⟨-, ⟨⟨existing, hnote, -, hnf, -⟩, rfl⟩ | ⟨-, rfl⟩⟩ := storeNameNote_cases hok
  · exact ⟨h, h a.noteId existing hnote a.nullifier hnf⟩
  · constructor
    · have hreceived : ((w.lanes .ironwood).receive a.noteId a.output).Indexed := h.receive rfl howner
      show ((w.setLane .ironwood _).lanes .ironwood).Indexed
      rwa [lanes_setLane, if_pos rfl]
    · rw [nullifiers_withNameNote, Table.insert_same]

theorem storeNameNote_holds {v : Wallet X} (hok : w.storeNameNote a = .ok v) : v.HoldsNameNote a := by
  obtain ⟨-, ⟨hholds, rfl⟩ | ⟨-, rfl⟩⟩ := storeNameNote_cases hok
  · exact hholds
  · exact holds_withNameNote w a

end Stored

/-! ### Commits -/

/-- **Wallet commits are all or nothing.** A batch or a Name Note that fails leaves every table and tree
as it was. A batch that is accepted starts at the height after `fromTip`, which is the applied tip, goes
on height by height and leaves its last block as the applied tip. A Name Note that was stored is found
unchanged when it is stored again, no note is overwritten, and its nullifier leads to it: always where
every note is found under its nullifier, which is kept, and otherwise unless the note was there before
without its nullifier. -/
theorem commits_all_or_nothing {T : TreeAccess X} (hT : T.Lawful) (w : Wallet X) :
    (∀ fromTip blocks marks e v, (InPlace.putBlocksMarked T fromTip blocks marks).run w =
    .error e v → v = w) ∧
    (∀ a e v, (InPlace.storeNameNote T a).run w = .error e v → v = w) ∧
    (∀ fromTip blocks marks v, fromTip.blockHeight ≤ MAX_HEIGHT →
      (InPlace.putBlocksMarked T fromTip blocks marks).run w = .ok () v → ∀ hne : blocks ≠ [],
        Follows fromTip.blockHeight blocks ∧ w.appliedTip = (fromTip.blockHeight, fromTip.blockHash) ∧
        v.appliedTip = ((blocks.getLast hne).height, (blocks.getLast hne).blockHash) ∧
        v.tip = (blocks.getLast hne).toBlockMetadata ∧ v.zebraTip = some (blocks.getLast hne).height) ∧
    (∀ a v, (InPlace.storeNameNote T a).run w = .ok () v →
      (InPlace.storeNameNote T a).run v = .ok () v ∧ v.HoldsNameNote a ∧
      (∀ p id output, (w.lanes p).notes id = some output → (v.lanes p).notes id = some output) ∧
      ((v.lanes .ironwood).nullifiers a.nullifier = some a.noteId ∨
        v = w ∧ ((w.lanes .ironwood).notes a.noteId).isSome = true ∧
          (w.lanes .ironwood).nullifiers a.nullifier = none) ∧
      ((w.lanes .ironwood).Indexed →
        (v.lanes .ironwood).Indexed ∧ (v.lanes .ironwood).nullifiers a.nullifier = some a.noteId)) := by
  refine ⟨fun fromTip blocks marks e v herror => ?_, fun a e v herror => ?_,
    fun fromTip blocks marks v hmax hrun hne => ?_, fun a v hrun => ?_⟩
  · exact (settles_putBlocksMarked T fromTip blocks marks).of_error herror
  · exact (settles_storeNameNote hT a).of_error herror
  · have hok := putBlocksCloned_ok hT ((settles_putBlocksMarked T fromTip blocks marks).ok_iff.mp hrun)
    exact putBlocksMarked_applied hne hmax hok
  · have hok : w.storeNameNote a = .ok v := (settles_storeNameNote hT a).ok_iff.mp hrun
    exact ⟨(settles_storeNameNote hT a).ok_iff.mpr (storeNameNote_repeat hok), storeNameNote_holds hok,
      fun _ _ _ => storeNameNote_keeps hok, storeNameNote_found hok, storeNameNote_indexed hok⟩

/-! ### One wallet -/

/-- Clones that are the tree itself, and queries that write nothing. -/
def TreeAccess.direct (X : Backend) : TreeAccess X where
  cloneShardTree := .ok
  witnessCaching tree position height := (X.witnessAtCheckpointId tree position height, tree)
  rootCaching tree height := (X.rootAtCheckpointId tree height, tree)

theorem TreeAccess.lawful_direct (X : Backend) : (TreeAccess.direct X).Lawful where
  clone h := (Except.ok.inj h).symm
  witness _ _ _ := rfl
  root _ _ := rfl

theorem pallas_order_pos : 0 < PALLAS_ORDER := by decide

/-- The Name Note of transaction 1, at the one leaf of the Ironwood tree. -/
def sampleNameNote : NameNoteArgs sampleBackend where
  height := 1
  position := 0
  txid := sampleTxid 1
  actionIndex := 0
  note := (7 : ℕ)
  rcm := ⟨⟨0, pallas_order_pos⟩⟩
  psi := 0
  nullifier := ⟨11⟩
  ephemeralKey := Vector.replicate 32 0
  memo := Vector.replicate 512 0

/-- A transaction that creates these Ironwood notes. -/
def sampleIronwoodTx (n : ℕ) (outputs : List (WalletOutput sampleBackend)) : WalletTx sampleBackend where
  txid := sampleTxid n
  blockIndex := 1
  outputs := fun | .sapling => [] | .ironwood => outputs
  spends := fun _ => []
  orchardOutputs := []

/-- Blocks of one Ironwood commitment each, from height 1 on. -/
def sampleIronwoodBlock (height : ℕ) (tx : WalletTx sampleBackend) : ScannedBlock sampleBackend where
  height := height
  blockHash := Vector.replicate 32 height.toUInt8
  transactions := [tx]
  bundles
    | .ironwood => ⟨[([6 + height], .checkpoint height .none)], height⟩
    | _ => ⟨[], 0⟩

def sampleNoteBlock : ScannedBlock sampleBackend := sampleIronwoodBlock 1 (sampleIronwoodTx 1 [])

def sampleMined : Wallet sampleBackend :=
  (putBlocksCloned (TreeAccess.direct sampleBackend) sampleOrigin [sampleNoteBlock]
    [] sampleNew).toOption.get
    (by decide +kernel)

def sampleNoted : Wallet sampleBackend := (sampleMined.storeNameNote sampleNameNote).toOption.get
    (by decide +kernel)

/-- The same trees, with room for one leaf. -/
def fullBackend : Backend :=
  { sampleBackend with
    append := fun (tree : List ℕ × List (ℕ × ℕ)) (leaf : List ℕ) retention =>
      if tree.1.isEmpty then sampleBackend.append tree leaf retention else .error () }

def fullNew : Wallet fullBackend := new sampleOrigin (fun _ => ([], [(0, 0)])) fun _ => .empty

/-- A block of one Ironwood commitment for those trees. -/
def fullBlock (height : ℕ) : ScannedBlock fullBackend where
  height := height
  blockHash := Vector.replicate 32 height.toUInt8
  transactions := []
  bundles
    | .ironwood => ⟨[(([6 + height] : List ℕ), .checkpoint height .none)], height⟩
    | _ => ⟨[], 0⟩

/-- The Name Note's block arrives, and then the Name Note, twice. And of two blocks of which the second
finds no room, the first does not arrive either, which alone does. -/
theorem commits_all_or_nothing_noted :
    (sampleMined.tip = sampleNoteBlock.toBlockMetadata ∧
      (sampleNoted.lanes .ironwood).nullifiers sampleNameNote.nullifier = some sampleNameNote.noteId ∧
      (InPlace.storeNameNote (TreeAccess.direct sampleBackend) sampleNameNote).run sampleNoted =
        .ok () sampleNoted) ∧
    (putBlocksCloned (TreeAccess.direct fullBackend) sampleOrigin [fullBlock 1]
    [] fullNew).toOption.isSome = true ∧
    ∃ e, (InPlace.putBlocksMarked (TreeAccess.direct fullBackend) sampleOrigin
      [fullBlock 1, fullBlock 2] []).run
      fullNew = .error e fullNew := by
  refine ⟨?_, by decide +kernel, ?_⟩
  · have hlawful := TreeAccess.lawful_direct sampleBackend
    have hmined : (InPlace.putBlocksMarked (TreeAccess.direct sampleBackend) sampleOrigin
      [sampleNoteBlock] []).run
        sampleNew = .ok () sampleMined :=
      (settles_putBlocksMarked _ sampleOrigin _ _).ok_iff.mpr (ok_of_toOption (Option.some_get _).symm)
    have hnoted : (InPlace.storeNameNote (TreeAccess.direct sampleBackend) sampleNameNote).run
      sampleMined =
        .ok () sampleNoted :=
      (settles_storeNameNote hlawful _).ok_iff.mpr (ok_of_toOption (Option.some_get _).symm)
    have hbatch := (commits_all_or_nothing hlawful sampleNew).2.2.1 _ _ _ _ (by decide) hmined (by simp)
    have hstored := (commits_all_or_nothing hlawful sampleMined).2.2.2 _ _ hnoted
    have hindexed : (sampleMined.lanes .ironwood).Indexed := Every.empty
    exact ⟨hbatch.2.2.2.1, (hstored.2.2.2.2 hindexed).2, hstored.1⟩
  · have hfails : (putBlocksCloned (TreeAccess.direct fullBackend) sampleOrigin
      [fullBlock 1, fullBlock 2] []
        fullNew).toOption.isNone = true := by
      decide +kernel
    rcases hrun : (InPlace.putBlocksMarked (TreeAccess.direct fullBackend) sampleOrigin
      [fullBlock 1, fullBlock 2]
        []).run fullNew with ⟨⟨⟩, v⟩ | ⟨e, v⟩
    · rw [(settles_putBlocksMarked _ sampleOrigin _ _).ok_iff.mp hrun] at hfails
      cases hfails
    · rw [(commits_all_or_nothing (TreeAccess.lawful_direct fullBackend) fullNew).1 _ _ _ _ _ hrun]
      exact ⟨e, rfl⟩

/-- A block whose transaction receives an Ironwood note with the nullifier of the Name Note. -/
def sampleTwinBlock : ScannedBlock sampleBackend :=
  sampleIronwoodBlock 2 (sampleIronwoodTx 2 [sampleNote])

/-- The wallet once that block is applied and abandoned: the nullifier went with it. -/
def sampleForgetful : Wallet sampleBackend :=
  (run step sampleNoted [samplePut sampleNoteBlock.toBlockMetadata sampleTwinBlock, .truncate 1]).get
    (by decide +kernel)

def sampleRepeated : Wallet sampleBackend := (sampleForgetful.storeNameNote sampleNameNote).toOption.get
    (by decide +kernel)

/-- A wallet born at the last height there is. -/
def sampleEdgeOrigin : BlockMetadata := ⟨MAX_HEIGHT, Vector.replicate 32 0, some 0, some 0, some 0⟩

def sampleEdge : Wallet sampleBackend := new sampleEdgeOrigin (fun _ => ([], [(MAX_HEIGHT, 0)])) fun _ =>
    .empty

def sampleEdgeBlock : ScannedBlock sampleBackend :=
  ⟨MAX_HEIGHT, Vector.replicate 32 1, [], fun _ => ⟨[], 0⟩⟩

def sampleEdgeApplied : Wallet sampleBackend :=
  (putBlocksCloned (TreeAccess.direct sampleBackend) sampleEdgeOrigin [sampleEdgeBlock]
    [] sampleEdge).toOption.get
    (by decide +kernel)

/-- At the last height a batch starts where `fromTip` is. And a Name Note whose nullifier another note
took and lost is stored again, with the nullifier leading nowhere. -/
theorem commits_at_the_edges :
    (InPlace.putBlocksMarked (TreeAccess.direct sampleBackend) sampleEdgeOrigin [sampleEdgeBlock] []).run
    sampleEdge =
      .ok () sampleEdgeApplied ∧
    sampleEdgeBlock.height ≠ sampleEdgeOrigin.blockHeight + 1 ∧
    run step sampleNoted [samplePut sampleNoteBlock.toBlockMetadata sampleTwinBlock, .truncate 1] =
      some sampleForgetful ∧
    (InPlace.storeNameNote (TreeAccess.direct sampleBackend) sampleNameNote).run sampleForgetful =
      .ok () sampleRepeated ∧
    (sampleRepeated.lanes .ironwood).nullifiers sampleNameNote.nullifier = none := by
  refine ⟨?_, by decide, (Option.some_get _).symm, ?_, by decide +kernel⟩
  · exact (settles_putBlocksMarked _ sampleEdgeOrigin _ _).ok_iff.mpr
      (ok_of_toOption (Option.some_get _).symm)
  · exact (settles_storeNameNote (TreeAccess.lawful_direct _) _).ok_iff.mpr
      (ok_of_toOption (Option.some_get _).symm)

end ZnsMint.Wallet
