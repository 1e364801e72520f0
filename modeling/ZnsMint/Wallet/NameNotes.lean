import ZnsMint.Wallet.Decrypt
import ZnsMint.Wallet.RegistryView

/-! # A block is applied with its Name Notes

`apply_block` (`src/mint.rs`) on the wallet and the Registry: the Name Notes of the block are decrypted,
the Registry accepts some of them, their commitments are marked as the block goes into the wallet, and
each is stored at its place in the Ironwood tree. Every failure of the wallet on the way is fatal there.
None happens: for the next block of the chain, after any run of the wallet, each note accepted is stored,
and keeps its witness for as long as its block is applied. -/

namespace ZnsMint.Wallet

open Basic Note Registry Lib.Tables Lib.Checkpoints Lib.Machine

variable {X : Backend} {D : NoteDomain X} {params : Wire} {w v : Wallet X}

/-! ### The confirmation pass -/

/-- The Name Notes of one transaction, in the order of their actions. -/
def notesByTx (candidates : List (DecryptedNameNote X)) (txid : TxId) : List (DecryptedNameNote X) :=
  (candidates.filter fun c => decide (c.txid = txid)).mergeSort fun a b =>
    decide (a.actionIndex ≤ b.actionIndex)

def expiryByTxid (vtx : List (BlockTx D)) (txid : TxId) : Option ℕ :=
  (vtx.reverse.find? fun tx => decide (tx.txid = txid)).map BlockTx.expiryHeight

/-- What the pass reads of the block besides its scan. -/
def blockReading (D : NoteDomain X) (vtx : List (BlockTx D)) (candidates : List (DecryptedNameNote X)) :
    Reading X where
  noteValue := D.value
  candidates txid := (notesByTx candidates txid).map fun c => ⟨c.payload, c.nullifier⟩
  expiry txid := (expiryByTxid vtx txid).getD 0

/-- The only Name Note of its transaction, and a claim: its expiry height is looked up. -/
def isLoneClaim : List (DecryptedNameNote X) → Bool
  | [c] => c.payload.action = .claim
  | _ => false

/-- The pass on one transaction. What the Registry accepts is the only Name Note of its transaction. -/
def confirmNotes (D : NoteDomain X) (params : Wire) (vtx : List (BlockTx D))
    (candidates : List (DecryptedNameNote X)) (height : ℕ) (mtp : ℤ)
    (state : Registry × List (DecryptedNameNote X))
    (tx : WalletTx X) : Option (Registry × List (DecryptedNameNote X)) :=
  let notes := notesByTx candidates tx.txid
  let (registry, accepted) :=
    confirmTx params.toParams state.1 (tx.scannedTx (blockReading D vtx candidates)).2 height mtp
  if isLoneClaim notes && (expiryByTxid vtx tx.txid).isNone then none
  else some (registry, if accepted then state.2 ++ notes else state.2)

/-- The Registry after a block, and the Name Notes it accepted. Before its birthday it sees nothing. -/
def confirmPass (D : NoteDomain X) (params : Wire) (birthday : ℕ) (vtx : List (BlockTx D))
    (scanned : ScannedBlock X) (mtp : ℤ) (registry : Registry) :
    Option (Registry × List (DecryptedNameNote X)) :=
  if birthday ≤ scanned.height then do
    let candidates ← decryptNameNotes D params vtx
    scanned.transactions.foldlM (confirmNotes D params vtx candidates scanned.height mtp) (registry, [])
  else some (registry, [])

/-! ### The commit -/

/-- Where the block starts in the Ironwood tree. -/
def ironwoodStart (scanned : ScannedBlock X) : Option ℕ :=
  if (scanned.bundles .ironwood).commitments.length ≤ (scanned.bundles .ironwood).finalTreeSize then
    some ((scanned.bundles .ironwood).finalTreeSize - (scanned.bundles .ironwood).commitments.length)
  else none

/-- A note as it is stored. -/
def DecryptedNameNote.args (params : Wire) (height start : ℕ) (c : DecryptedNameNote X) :
    NameNoteArgs X where
  height := height
  position := start + c.ordinal
  txid := c.txid
  actionIndex := c.actionIndex
  note := c.note
  rcm := c.payload.commitment params.toParams
  psi := (Preimage.psi params.toParams c.payload).val
  nullifier := c.nullifier
  ephemeralKey := c.ephemeralKey
  memo := c.memo

/-- The block goes into the wallet with the commitments of the notes marked, and then the notes. -/
def commitNotes (params : Wire) (scanned : ScannedBlock X) (accepted : List (DecryptedNameNote X))
    (w : Wallet X) :
    Option (Wallet X) := do
  let start ← ironwoodStart scanned
  let put ← (w.putBlocksMarked w.tip [scanned] (accepted.map DecryptedNameNote.cmx)).toOption
  accepted.foldlM (fun w c => (w.storeNameNote (c.args params scanned.height start)).toOption) put

/-- A block as it is fetched. -/
structure FetchedBlock (D : NoteDomain X) where
  prevBlock : BlockHash
  vtx : List (BlockTx D)

/-- What a block is applied to. -/
structure Faculties (X : Backend) where
  wallet : Wallet X
  registry : Registry

/-- `apply_block`, with the block as it was scanned and the median time past at it. `none` is a panic. -/
def Faculties.applyBlock (D : NoteDomain X) (params : Wire) (birthday : ℕ) (block : FetchedBlock D)
    (scanned : ScannedBlock X) (mtp : ℤ) (s : Faculties X) : Option (Faculties X) :=
  if scanned.height = s.wallet.tip.blockHeight + 1 ∧ block.prevBlock = s.wallet.tip.blockHash then do
    let (registry, accepted) ← confirmPass D params birthday block.vtx scanned mtp s.registry
    let wallet ← s.wallet.commitNotes params scanned accepted
    return ⟨wallet, registry⟩
  else none

/-! ### What the pass accepts -/

theorem mem_notesByTx {candidates : List (DecryptedNameNote X)} {txid : TxId} {c : DecryptedNameNote X} :
    c ∈ notesByTx candidates txid ↔ c ∈ candidates ∧ c.txid = txid := by
  unfold notesByTx
  rw [List.mem_mergeSort, List.mem_filter, decide_eq_true_eq]

/-- The Registry accepts a note only where its transaction has no other. -/
theorem eq_singleton_of_accepted {r : Registry} {tx : ScannedTx} {height : ℕ} {mtp : ℤ}
    (h : (confirmTx params.toParams r tx height mtp).2 = true) : ∃ c, tx.notes = [c] := by
  unfold confirmTx dispatch at h
  rcases hnotes : tx.notes with - | ⟨c, - | ⟨c', rest⟩⟩
  · simp [hnotes] at h
  · exact ⟨c, rfl⟩
  · simp [hnotes] at h

/-- The notes accepted so far are Name Notes of the block, of transactions that are past, one for each at
most. -/
structure AcceptedOf (candidates : List (DecryptedNameNote X)) (txs : List (WalletTx X))
    (rest : List (WalletTx X))
    (accepted : List (DecryptedNameNote X)) : Prop where
  mem : ∀ c ∈ accepted, c ∈ candidates ∧ ∃ tx ∈ txs, tx.txid = c.txid
  ahead : ∀ tx ∈ rest, tx ∈ txs
  once : (accepted.map DecryptedNameNote.txid ++ rest.map WalletTx.txid).Nodup

section Pass

variable {vtx : List (BlockTx D)} {candidates : List (DecryptedNameNote X)} {height : ℕ} {mtp : ℤ}
  {txs rest : List (WalletTx X)} {tx : WalletTx X} {state state' : Registry × List (DecryptedNameNote X)}

theorem confirmNotes_eq_some (h : confirmNotes D params vtx candidates height mtp state tx =
    some state') :
    state'.1 = (confirmTx params.toParams state.1 (tx.scannedTx (blockReading D vtx candidates)).2
      height mtp).1 ∧
      (state'.2 = state.2 ∨ ∃ c ∈ candidates, c.txid = tx.txid ∧ state'.2 = state.2 ++ [c]) := by
  unfold confirmNotes at h
  simp only at h
  split_ifs at h with hmissing haccepted
  · obtain rfl := Option.some.inj h
    refine ⟨rfl, .inr ?_⟩
    obtain ⟨c', hc'⟩ := eq_singleton_of_accepted haccepted
    obtain ⟨c, hc, -⟩ := List.map_eq_singleton_iff.mp hc'
    have hmem : c ∈ notesByTx candidates tx.txid := hc ▸ List.mem_singleton_self c
    exact ⟨c, (mem_notesByTx.mp hmem).1, (mem_notesByTx.mp hmem).2, congrArg (state.2 ++ ·) hc⟩
  · obtain rfl := Option.some.inj h
    exact ⟨rfl, .inl rfl⟩

theorem AcceptedOf.next (h : AcceptedOf candidates txs (tx :: rest) state.2)
    (hnext : confirmNotes D params vtx candidates height mtp state tx = some state') :
    AcceptedOf candidates txs rest state'.2 := by
  have hrest : ∀ tx' ∈ rest, tx' ∈ txs := fun tx' htx' => h.ahead tx' (List.mem_cons_of_mem _ htx')
  rcases (confirmNotes_eq_some hnext).2 with hsame | ⟨c, hc, htxid, hadded⟩
  · rw [hsame]
    refine ⟨h.mem, hrest, h.once.sublist ?_⟩
    exact List.Sublist.append_left (List.sublist_cons_self ..) _
  · rw [hadded]
    refine ⟨fun c' hc' => ?_, hrest, ?_⟩
    · rcases List.mem_append.mp hc' with hold | hnew
      · exact h.mem c' hold
      · obtain rfl := List.mem_singleton.mp hnew
        exact ⟨hc, tx, h.ahead tx List.mem_cons_self, htxid.symm⟩
    · rw [List.map_append, List.map_singleton, htxid, List.append_assoc]
      exact h.once

theorem AcceptedOf.run (h : AcceptedOf candidates txs rest state.2)
    (hrun : rest.foldlM (confirmNotes D params vtx candidates height mtp) state = some state') :
    AcceptedOf candidates txs [] state'.2 :=
  foldlM_invariant (I := fun rest state => AcceptedOf candidates txs rest state.2)
    (fun _ _ _ _ h hnext => h.next hnext) rest state state' h hrun

/-- The Registry it ends with is that of the pass over the scanned transactions. -/
theorem confirmNotes_registry (hrun : rest.foldlM (confirmNotes D params vtx candidates height mtp)
    state = some state') :
    state'.1 = confirmBlock params.toParams state.1
      (rest.map fun tx => (tx.scannedTx (blockReading D vtx candidates)).2) height mtp := by
  induction rest generalizing state with
  | nil =>
    obtain rfl := Option.some.inj hrun
    rfl
  | cons tx rest ih =>
    rw [List.foldlM_cons] at hrun
    obtain ⟨next, hnext, hrun⟩ := Option.bind_eq_some_iff.mp hrun
    rw [ih hrun, (confirmNotes_eq_some hnext).1]
    rfl

/-- From its birthday on, the Registry sees the scanned transactions of each block, with the Name Notes
found there. -/
theorem confirmPass_registry {birthday : ℕ} {scanned : ScannedBlock X} {mtp : ℤ}
    {registry registry' : Registry}
    {accepted : List (DecryptedNameNote X)} (hbirthday : birthday ≤ scanned.height)
    (hpass : confirmPass D params birthday vtx scanned mtp registry = some (registry', accepted)) :
    ∃ candidates, decryptNameNotes D params vtx = some candidates ∧
      registry' = confirmBlock params.toParams registry
        (scanned.transactions.map fun tx => (tx.scannedTx (blockReading D vtx candidates)).2)
          scanned.height mtp := by
  unfold confirmPass at hpass
  rw [if_pos hbirthday] at hpass
  obtain ⟨candidates, hcandidates, hrun⟩ := Option.bind_eq_some_iff.mp hpass
  exact ⟨candidates, hcandidates, confirmNotes_registry hrun⟩

theorem isSome_expiryByTxid {tx : BlockTx D} (htx : tx ∈ vtx) :
    (expiryByTxid vtx tx.txid).isSome = true := by
  unfold expiryByTxid
  rw [Option.isSome_map, List.find?_isSome]
  exact ⟨tx, List.mem_reverse.mpr htx, decide_eq_true rfl⟩

/-- The expiry height of a claim is never missing. -/
theorem confirmNotes_isSome (hcandidates : ∀ c ∈ candidates, ∃ tx ∈ vtx, tx.txid = c.txid)
    (state : Registry × List (DecryptedNameNote X)) (tx : WalletTx X) :
    (confirmNotes D params vtx candidates height mtp state tx).isSome = true := by
  have hpresent : (isLoneClaim (notesByTx candidates tx.txid) && (expiryByTxid vtx tx.txid).isNone) =
      false := by
    rcases hnotes : notesByTx candidates tx.txid with - | ⟨c, rest⟩
    · rfl
    · have hmem : c ∈ notesByTx candidates tx.txid := hnotes ▸ List.mem_cons_self
      obtain ⟨hc, htxid⟩ := mem_notesByTx.mp hmem
      obtain ⟨tx', htx', htxid'⟩ := hcandidates c hc
      have hsome := isSome_expiryByTxid htx'
      rw [htxid', htxid] at hsome
      rw [Option.isNone_eq_false_iff.mpr hsome, Bool.and_false]
  unfold confirmNotes
  simp only [hpresent]
  rfl

end Pass

/-! ### Notes that wait to be stored -/

/-- A Name Note that passes its checks, and is new. -/
structure Awaited (w : Wallet X) (a : NameNoteArgs X) : Prop where
  height : w.checkNameNoteHeight a = .ok ()
  index : a.actionIndex < 65536
  leaf : w.checkNameNoteLeaf a = .ok ()
  note : (w.lanes .ironwood).notes a.noteId = none
  nullifier : (w.lanes .ironwood).nullifiers a.nullifier = none

/-- A note that is stored, with its memo and under its nullifier. -/
structure Stored (w : Wallet X) (a : NameNoteArgs X) : Prop where
  note : (w.lanes .ironwood).notes a.noteId = some a.output
  memo : w.memos a.noteId = some (X.memoFuture a.memo)
  nullifier : (w.lanes .ironwood).nullifiers a.nullifier = some a.noteId

/-- Neither the one's id nor its nullifier is the other's. -/
def Apart (a b : NameNoteArgs X) : Prop := a.noteId ≠ b.noteId ∧ a.nullifier ≠ b.nullifier

section Store

variable {a b : NameNoteArgs X}

theorem Apart.symm (h : Apart a b) : Apart b a := ⟨h.1.symm, h.2.symm⟩

theorem Awaited.store (h : Awaited w a) : w.storeNameNote a = .ok (w.withNameNote a) := by
  have hcheck : w.checkNameNote a = .ok () := by
    unfold checkNameNote
    rw [h.height, h.nullifier, if_pos h.index, h.leaf]
    rfl
  rw [storeNameNote_eq, hcheck]
  show w.storeOrRepeat a = _
  unfold storeOrRepeat
  rw [h.note]

theorem Awaited.withNameNote (h : Awaited w b) (hapart : Apart b a) : Awaited (w.withNameNote a) b := by
  refine ⟨h.height, h.index, h.leaf, ?_, ?_⟩
  · rw [notes_withNameNote, Table.insert_of_ne hapart.1]
    exact h.note
  · rw [nullifiers_withNameNote, Table.insert_of_ne hapart.2]
    exact h.nullifier

theorem Stored.withNameNote (h : Stored w b) (hapart : Apart b a) : Stored (w.withNameNote a) b := by
  refine ⟨?_, ?_, ?_⟩
  · rw [notes_withNameNote, Table.insert_of_ne hapart.1]
    exact h.note
  · show w.memos.insert a.noteId _ b.noteId = _
    rw [Table.insert_of_ne hapart.1]
    exact h.memo
  · rw [nullifiers_withNameNote, Table.insert_of_ne hapart.2]
    exact h.nullifier

theorem stored_withNameNote (w : Wallet X) (a : NameNoteArgs X) : Stored (w.withNameNote a) a := by
  refine ⟨?_, Table.insert_same .., ?_⟩
  · rw [notes_withNameNote, Table.insert_same]
  · rw [nullifiers_withNameNote, Table.insert_same]

/-- A note stored before stays stored. -/
theorem Stored.all (h : Stored w b) {l : List (NameNoteArgs X)} (hapart : ∀ a ∈ l, Apart b a) :
    Stored (l.foldl Wallet.withNameNote w) b := by
  induction l generalizing w with
  | nil => exact h
  | cons a l ih =>
    exact ih (h.withNameNote (hapart a List.mem_cons_self)) fun a' ha' =>
      hapart a' (List.mem_cons_of_mem _ ha')

/-- **Notes that wait are stored one after the other**, each under its nullifier. -/
theorem store_all {l : List (NameNoteArgs X)} (hawaited : ∀ a ∈ l, Awaited w a)
    (hapart : l.Pairwise Apart) :
    l.foldlM (fun w a => (w.storeNameNote a).toOption) w = some (l.foldl Wallet.withNameNote w) ∧
      ∀ a ∈ l, Stored (l.foldl Wallet.withNameNote w) a := by
  induction l generalizing w with
  | nil => exact ⟨rfl, fun a ha => absurd ha List.not_mem_nil⟩
  | cons a l ih =>
    obtain ⟨hfirst, hrest⟩ := List.pairwise_cons.mp hapart
    have hnext : ∀ b ∈ l, Awaited (w.withNameNote a) b := fun b hb =>
      (hawaited b (List.mem_cons_of_mem _ hb)).withNameNote (hfirst b hb).symm
    obtain ⟨hstore, hstored⟩ := ih hnext hrest
    constructor
    · rw [List.foldlM_cons, (hawaited a List.mem_cons_self).store]
      exact hstore
    · intro b hb
      rcases List.mem_cons.mp hb with rfl | hb
      · exact (stored_withNameNote w b).all hfirst
      · exact hstored b hb

/-- The trees, the blocks and the statuses play no part in storing. -/
theorem foldl_withNameNote_frame (l : List (NameNoteArgs X)) (w : Wallet X) :
    (l.foldl Wallet.withNameNote w).trees = w.trees ∧ (l.foldl Wallet.withNameNote w).blocks = w.blocks :=
  List.foldlRecOn l Wallet.withNameNote (motive := fun v : Wallet X => v.trees = w.trees ∧ v.blocks =
    w.blocks) ⟨rfl, rfl⟩
    fun _ hv _ _ => hv

end Store

/-! ### The block in the tables -/

theorem lanes_spendAll (txs : List (WalletTx X)) (w : Wallet X) (p : OwnedPool) :
    ((txs.foldl Wallet.spendTx w).lanes p).notes = (w.lanes p).notes ∧
      ((txs.foldl Wallet.spendTx w).lanes p).nullifiers = (w.lanes p).nullifiers := by
  refine List.foldlRecOn txs Wallet.spendTx (motive := fun v : Wallet X =>
    (v.lanes p).notes = (w.lanes p).notes ∧ (v.lanes p).nullifiers = (w.lanes p).nullifiers) ⟨rfl, rfl⟩
    fun v hv tx _ => ?_
  refine List.foldlRecOn (tx.spends p) (Lane.spend tx.txid) (motive := fun lane : Lane X =>
    lane.notes = (w.lanes p).notes ∧ lane.nullifiers = (w.lanes p).nullifiers) hv fun lane hlane nf _ =>
      ?_
  rw [Lane.nullifiers_spend]
  refine ⟨?_, hlane.2⟩
  unfold Lane.spend
  split
  · exact hlane.1
  · exact hlane.1

/-- A block that does not receive a note leaves its entry, and a nullifier that is none of its notes'. -/
theorem lanes_applyBlock (w : Wallet X) (block : ScannedBlock X) (p : OwnedPool) (id : NoteId)
    (nf : Nullifier)
    (hid : ∀ tx ∈ block.transactions, ∀ output ∈ tx.outputs p, tx.noteId p output ≠ id)
    (hnf : ∀ tx ∈ block.transactions, ∀ output ∈ tx.outputs p, output.nf ≠ some nf) :
    ((w.applyBlock block).lanes p).notes id = (w.lanes p).notes id ∧
      ((w.applyBlock block).lanes p).nullifiers nf = (w.lanes p).nullifiers nf := by
  have hreceived : ((block.transactions.foldl (Wallet.receiveTx block.height) w).lanes p).notes id =
    (w.lanes p).notes id ∧
      ((block.transactions.foldl (Wallet.receiveTx block.height) w).lanes p).nullifiers nf =
        (w.lanes p).nullifiers nf := by
    refine List.foldlRecOn block.transactions (Wallet.receiveTx block.height)
      (motive := fun v : Wallet X =>
      (v.lanes p).notes id = (w.lanes p).notes id ∧ (v.lanes p).nullifiers nf = (w.lanes p).nullifiers nf)
        ⟨rfl, rfl⟩
      fun v hv tx htx => ?_
    refine List.foldlRecOn (tx.outputs p) _ (motive := fun lane : Lane X =>
      lane.notes id = (w.lanes p).notes id ∧ lane.nullifiers nf = (w.lanes p).nullifiers nf) hv
      fun lane hlane output houtput => ?_
    unfold Lane.receive
    constructor
    · show lane.notes.insert _ _ id = _
      rw [Table.insert_of_ne (hid tx htx output houtput).symm]
      exact hlane.1
    · rcases hsome : output.nf with - | nf'
      · exact hlane.2
      · show lane.nullifiers.insert nf' _ nf = _
        rw [Table.insert_of_ne]
        · exact hlane.2
        · rintro rfl
          exact hnf tx htx output houtput hsome
  obtain ⟨hnotes, hnullifiers⟩ :=
    lanes_spendAll block.transactions (block.transactions.foldl (Wallet.receiveTx block.height) w) p
  constructor
  · show ((block.transactions.foldl Wallet.spendTx _).lanes p).notes id = _
    rw [hnotes]
    exact hreceived.1
  · show ((block.transactions.foldl Wallet.spendTx _).lanes p).nullifiers nf = _
    rw [hnullifiers]
    exact hreceived.2

/-- A transaction mined in an applied block passes. -/
theorem checkNameNoteHeight_of {a : NameNoteArgs X} (happlied : a.height ∈ w.blocks)
    (hmined : w.minedHeight a.txid = some a.height) : w.checkNameNoteHeight a = .ok () := by
  obtain ⟨md, hmd⟩ := Option.isSome_iff_exists.mp (Std.ExtTreeMap.isSome_getElem?_iff_mem.mpr happlied)
  unfold checkNameNoteHeight
  rw [hmd, minedHeight_eq_some.mp hmined]
  simp

/-- A commitment with its witness passes. -/
theorem checkNameNoteLeaf_of {a : NameNoteArgs X} {leaf root : X.Node} {path : X.Path}
    (hcmx : X.znsCmx a.note a.rcm a.psi = some leaf)
    (hpath : X.witnessAtCheckpointId (w.trees .ironwood) a.position a.height = .ok (some path))
    (hroot : X.rootAtCheckpointId (w.trees .ironwood) a.height = .ok (some root))
    (hsame : X.pathRoot path leaf = root) : w.checkNameNoteLeaf a = .ok () := by
  unfold checkNameNoteLeaf
  rw [hpath, hroot]
  simp only [treeResult, Except.mapError, hcmx]
  exact if_pos hsame

/-! ### The next block of the chain -/

/-- The scan of a block, as `zcash_client_backend` documents it: the Ironwood commitments are those of
the block's actions, in order; a transaction is listed once; and no key of the wallet opens a Name
Note. -/
structure ScanOf (D : NoteDomain X) (params : Wire) (vtx : List (BlockTx D)) (scanned : ScannedBlock X) :
    Prop where
  commitments : (scanned.bundles .ironwood).commitments.map Prod.fst = (ironwoodActions vtx).map D.cmx
  once : (scanned.transactions.map WalletTx.txid).Nodup
  unopened : ∀ note, Located D params vtx note → ∀ tx ∈ scanned.transactions,
    ∀ output ∈ tx.outputs .ironwood,
    tx.txid = note.txid → output.index ≠ note.actionIndex.toUInt16

/-- What consensus says of a block the wallet has not seen: its transactions are mined here for the first
time, a bundle has no more actions than 16 bits count, and the nullifier of a Name Note is no other
note's. -/
structure Unseen (D : NoteDomain X) (params : Wire) (w : Wallet X) (vtx : List (BlockTx D))
    (scanned : ScannedBlock X) : Prop where
  unmined : ∀ tx ∈ scanned.transactions, w.minedHeight tx.txid = none
  actions : ∀ tx ∈ vtx, tx.actions.length ≤ 65536
  unknown : ∀ note, Located D params vtx note → (w.lanes .ironwood).nullifiers note.nullifier = none
  unscanned : ∀ note, Located D params vtx note → ∀ tx ∈ scanned.transactions,
    ∀ output ∈ tx.outputs .ironwood,
    output.nf ≠ some note.nullifier
  distinct : ∀ a b, Located D params vtx a → Located D params vtx b → a.nullifier = b.nullifier →
    a.ordinal = b.ordinal

section Next

variable {M : TreeModel X} {vtx : List (BlockTx D)} {scanned : ScannedBlock X}
  {candidates accepted : List (DecryptedNameNote X)}

/-- Two notes accepted have neither an id nor a nullifier in common. -/
theorem pairwise_apart (hcandidates : decryptNameNotes D params vtx = some candidates)
    (hunseen : Unseen D params w vtx scanned)
    (haccepted : AcceptedOf candidates scanned.transactions [] accepted) (height start : ℕ) :
    (accepted.map (DecryptedNameNote.args params height start)).Pairwise Apart := by
  obtain ⟨count, hscanned⟩ := scannedTxs_of_some hcandidates
  have honce : accepted.Pairwise fun a b => a.txid ≠ b.txid := by
    have hnodup := haccepted.once
    rw [List.map_nil, List.append_nil] at hnodup
    exact List.pairwise_map.mp hnodup
  have hordinals : (candidates.map DecryptedNameNote.ordinal).Nodup :=
    List.pairwise_map.mpr (hscanned.sorted.imp fun hlt => hlt.ne)
  refine List.pairwise_map.mpr (honce.imp_of_mem fun {a b} ha hb hne => ⟨?_, ?_⟩)
  · exact fun hid => hne (congrArg NoteId.txid hid)
  · intro hnf
    have ha' := (haccepted.mem a ha).1
    have hb' := (haccepted.mem b hb).1
    have hordinal := hunseen.distinct a b ((hscanned.mem a).mp ha') ((hscanned.mem b).mp hb') hnf
    exact hne (congrArg DecryptedNameNote.txid (List.inj_on_of_nodup_map hordinals ha' hb' hordinal))

/-- The commitment of a Name Note is at its ordinal in the block. -/
theorem commitment_of_located (hscan : ScanOf D params vtx scanned) {c : DecryptedNameNote X}
    (hc : Located D params vtx c) :
    ∃ e, (scanned.bundles .ironwood).commitments[c.ordinal]? = some e ∧ e.1 = c.cmx ∧
      X.znsCmx c.note (c.payload.commitment params.toParams)
        (Preimage.psi params.toParams c.payload).val = some c.cmx := by
  obtain ⟨tx, -, -, action, -, haction, hauthored⟩ := hc.action
  have hat : ((scanned.bundles .ironwood).commitments.map Prod.fst)[c.ordinal]? = some c.cmx := by
    rw [hscan.commitments, List.getElem?_map, haction, hauthored.cmx]
    rfl
  rw [List.getElem?_map] at hat
  obtain ⟨e, he, hcmx⟩ := Option.map_eq_some_iff.mp hat
  exact ⟨e, he, hcmx, hauthored.authored⟩

/-- The action of a Name Note has an index of 16 bits. -/
theorem actionIndex_lt (hunseen : Unseen D params w vtx scanned) {c : DecryptedNameNote X}
    (hc : Located D params vtx c) : c.actionIndex < 65536 := by
  obtain ⟨tx, htx, -, action, haction, -⟩ := hc.action
  have hlt := (List.getElem?_eq_some_iff.mp haction).1
  have hle := hunseen.actions tx htx
  omega

/-- The block starts where the Ironwood tree ends. -/
theorem ironwoodStart_eq (hs : InStep M w) (hnext : NextBlock w scanned) {start : ℕ}
    (hstart : ironwoodStart scanned = some start) : start = (M.leaves (w.trees .ironwood)).length := by
  have hsame := Option.some.inj ((hs.size .ironwood).symm.trans (hnext.sizes .ironwood))
  unfold ironwoodStart at hstart
  rw [if_pos (hnext.grows .ironwood)] at hstart
  rw [hsame]
  exact (Option.some.inj hstart).symm

/-- The commitment of each note accepted is marked in its place. -/
theorem placed_applyBlocks (hM : M.Lawful) (hs : InStep M w) (hnext : NextBlock w scanned)
    (hscan : ScanOf D params vtx scanned) {trees : ShieldedPool → X.Tree}
    (htrees : Wallet.appendBlock w.trees scanned (accepted.map DecryptedNameNote.cmx) = .ok trees)
    {start : ℕ}
    (hstart : ironwoodStart scanned = some start) {c : DecryptedNameNote X} (hc : c ∈ accepted)
    (hlocated : Located D params vtx c) :
    Placed M ({ w with trees := trees }.applyBlocks [scanned]) scanned.height
      (start + c.ordinal) c.cmx := by
  obtain ⟨trees', htrees', hextends, -⟩ := hs.appendBlock hM hnext (accepted.map DecryptedNameNote.cmx)
  obtain rfl := Except.ok.inj (htrees'.symm.trans htrees)
  obtain ⟨zebraTip, hzebra⟩ := applyBlocks_eq { w with trees := trees' } [scanned]
  obtain ⟨hframe, -⟩ := applyBlock_frame { w with trees := trees' } scanned
  obtain ⟨e, he, hcmx, -⟩ := commitment_of_located hscan hlocated
  rw [hzebra, ironwoodStart_eq hs hnext hstart]
  refine Placed.frame (w := { w with trees := trees' }.applyBlock scanned) ?_ rfl rfl
  refine ⟨?_, ?_, ?_, fun k size hsize hle => ?_⟩
  · rw [blocks_applyBlock]
    exact Std.ExtTreeMap.mem_insert_self
  · rw [hframe, (hextends .ironwood).leaves, List.getElem?_append_right (Nat.le_add_right ..),
      Nat.add_sub_cancel_left, List.getElem?_map, he, ← hcmx]
    rfl
  · rw [hframe]
    refine (hextends .ironwood).marked c.ordinal e he ?_
    rw [hcmx]
    exact List.mem_map_of_mem hc
  · rw [hframe] at hsize
    rcases (hextends .ironwood).sizes k size hsize with hold | ⟨-, rfl⟩
    · have hbelow := (hs.checkpoints .ironwood k size hold).1
      have hheight := hnext.height
      omega
    · have hlt := (List.getElem?_eq_some_iff.mp he).1
      omega

/-- **After the block, each note accepted waits to be stored**, and its leaf is marked in its place. -/
theorem awaited_applyBlocks (hM : M.Lawful) (hs : w.WellFormed ∧ InStep M w) (hnext : NextBlock w scanned)
    (hscan : ScanOf D params vtx scanned) (hunseen : Unseen D params w vtx scanned)
    (hcandidates : decryptNameNotes D params vtx = some candidates)
    (haccepted : AcceptedOf candidates scanned.transactions [] accepted) {trees : ShieldedPool → X.Tree}
    (htrees : Wallet.appendBlock w.trees scanned (accepted.map DecryptedNameNote.cmx) = .ok trees)
    {start : ℕ}
    (hstart : ironwoodStart scanned = some start) {c : DecryptedNameNote X} (hc : c ∈ accepted) :
    Awaited ({ w with trees := trees }.applyBlocks [scanned]) (c.args params scanned.height start) ∧
      Placed M ({ w with trees := trees }.applyBlocks [scanned]) scanned.height
        (start + c.ordinal) c.cmx := by
  obtain ⟨count, hscannedTxs⟩ := scannedTxs_of_some hcandidates
  obtain ⟨hmem, tx, htx, htxid⟩ := haccepted.mem c hc
  have hlocated := (hscannedTxs.mem c).mp hmem
  have hplaced := placed_applyBlocks hM hs.2 hnext hscan htrees hstart hc hlocated
  obtain ⟨trees', htrees', -, hcheckpoint⟩ :=
    hs.2.appendBlock hM hnext (accepted.map DecryptedNameNote.cmx)
  obtain rfl := Except.ok.inj (htrees'.symm.trans htrees)
  obtain ⟨zebraTip, hzebra⟩ := applyBlocks_eq { w with trees := trees' } [scanned]
  obtain ⟨-, -, -, hauthored⟩ := commitment_of_located hscan hlocated
  have hlane := lanes_applyBlock { w with trees := trees' } scanned .ironwood
    (c.args params scanned.height start).noteId c.nullifier
    (fun tx' htx' output houtput hid => hscan.unopened c hlocated tx' htx' output houtput
      (congrArg NoteId.txid hid) (congrArg NoteId.outputIndex hid))
    (hunseen.unscanned c hlocated)
  refine ⟨⟨?_, actionIndex_lt hunseen hlocated, ?_, ?_, ?_⟩, hplaced⟩
  · refine checkNameNoteHeight_of hplaced.applied ?_
    rw [hzebra]
    show ({ w with trees := trees' }.applyBlock scanned).minedHeight c.txid = _
    rw [minedHeight_applyBlock, if_pos ⟨tx, htx, htxid⟩]
    rfl
  · have htrees : ({ w with trees := trees' }.applyBlocks [scanned]).trees = trees' := by
      rw [hzebra]
      exact (applyBlock_frame { w with trees := trees' } scanned).1
    have hsize : M.sizeAt (({ w with trees := trees' }.applyBlocks [scanned]).trees .ironwood)
      scanned.height =
        some (scanned.bundles .ironwood).finalTreeSize := by
      rw [htrees]
      exact hcheckpoint .ironwood
    have hvalid := (hs.2.applyBlocks hs.1 hnext hM htrees').1.valid .ironwood
    obtain ⟨path, root, hpath, hroot, hsame⟩ :=
      hM.witness _ scanned.height _ (start + c.ordinal) c.cmx hvalid hsize
      hplaced.marked (hplaced.below _ _ hsize le_rfl) hplaced.leaf
    exact checkNameNoteLeaf_of (a := c.args params scanned.height start) hauthored hpath hroot hsame
  · rw [hzebra]
    have hunmined : w.minedHeight c.txid = none := htxid ▸ hunseen.unmined tx htx
    exact hlane.1.trans (Branched.not_held hs.1 hunmined)
  · rw [hzebra]
    exact hlane.2.trans (hunseen.unknown c hlocated)

/-- The calls of the wallet that a block makes. -/
def commitOps (params : Wire) (w : Wallet X) (scanned : ScannedBlock X) (start : ℕ)
    (accepted : List (DecryptedNameNote X)) : List (Op X) :=
  .putBlocks w.tip [scanned] (accepted.map DecryptedNameNote.cmx) ::
    accepted.map fun c => .nameNote (c.args params scanned.height start)

/-- The commit is these calls. -/
theorem run_commitOps {start : ℕ} (hstart : ironwoodStart scanned = some start) (w : Wallet X)
    (accepted : List (DecryptedNameNote X)) :
    run Wallet.step w (commitOps params w scanned start accepted) =
      w.commitNotes params scanned accepted := by
  unfold commitOps commitNotes
  rw [hstart, run, List.foldlM_cons]
  refine congrArg (_ >>= ·) (funext fun put => ?_)
  rw [List.foldlM_map]
  rfl

theorem inOrder_commitOps (hnext : NextBlock w scanned) (start : ℕ)
    (accepted : List (DecryptedNameNote X)) :
    Along Wallet.step InOrder w (commitOps params w scanned start accepted) := by
  refine ⟨⟨le_rfl, fun block hblock => ?_⟩, fun put _ => ?_⟩
  · obtain rfl := List.mem_singleton.mp hblock
    exact hnext
  · have hnotes : ∀ (l : List (DecryptedNameNote X)) (u : Wallet X), Along Wallet.step InOrder u
        (l.map fun c => Op.nameNote (c.args params scanned.height start)) := by
      intro l
      induction l with
      | nil => exact fun _ => trivial
      | cons c l ih => exact fun _ => ⟨trivial, fun v _ => ih v⟩
    exact hnotes accepted put

/-- **The notes that the Registry accepts are committed.** -/
theorem commitNotes_ok (hM : M.Lawful) (hs : w.WellFormed ∧ InStep M w) (hnext : NextBlock w scanned)
    (hscan : ScanOf D params vtx scanned) (hunseen : Unseen D params w vtx scanned)
    (hcandidates : decryptNameNotes D params vtx = some candidates)
    (haccepted : AcceptedOf candidates scanned.transactions [] accepted) {start : ℕ}
    (hstart : ironwoodStart scanned = some start) :
    ∃ v, w.commitNotes params scanned accepted = some v ∧ ∀ c ∈ accepted,
      Stored v (c.args params scanned.height start) ∧
        Placed M v scanned.height (start + c.ordinal) c.cmx := by
  obtain ⟨trees, htrees, hput⟩ := hs.2.accepts hM hs.1 hnext (accepted.map DecryptedNameNote.cmx)
  have hwaits : ∀ c ∈ accepted,
      Awaited ({ w with trees := trees }.applyBlocks [scanned]) (c.args params scanned.height start) ∧
        Placed M ({ w with trees := trees }.applyBlocks [scanned]) scanned.height
          (start + c.ordinal) c.cmx :=
    fun c hc => awaited_applyBlocks hM hs hnext hscan hunseen hcandidates haccepted htrees hstart hc
  have hapart := pairwise_apart hcandidates hunseen haccepted scanned.height start
  obtain ⟨hstore, hstored⟩ := store_all (l :=
    accepted.map (DecryptedNameNote.args params scanned.height start))
    (fun a ha => by
      obtain ⟨c, hc, rfl⟩ := List.mem_map.mp ha
      exact (hwaits c hc).1) hapart
  refine ⟨_, ?_, fun c hc => ⟨hstored _ (List.mem_map_of_mem hc), ?_⟩⟩
  · rw [List.foldlM_map] at hstore
    unfold commitNotes
    rw [hstart, hput]
    exact hstore
  · obtain ⟨hframe, hblocks⟩ := foldl_withNameNote_frame
      (accepted.map (DecryptedNameNote.args params scanned.height start))
        ({ w with trees := trees }.applyBlocks [scanned])
    exact (hwaits c hc).2.frame hframe hblocks

/-- The pass panics on no block, and accepts Name Notes of the block. -/
theorem confirmPass_ok (hua : Wire.UaLaws params) (hD : D.Lawful) (birthday : ℕ) (vtx : List (BlockTx D))
    (scanned : ScannedBlock X) (mtp : ℤ) (registry : Registry)
    (honce : (scanned.transactions.map WalletTx.txid).Nodup) :
    ∃ registry' accepted candidates,
      confirmPass D params birthday vtx scanned mtp registry = some (registry', accepted) ∧
        decryptNameNotes D params vtx = some candidates ∧ AcceptedOf candidates scanned.transactions
          [] accepted := by
  obtain ⟨candidates, hcandidates⟩ := Option.isSome_iff_exists.mp (decryptNameNotes_isSome hua hD vtx)
  obtain ⟨count, hscanned⟩ := scannedTxs_of_some hcandidates
  have hpresent : ∀ c ∈ candidates, ∃ tx ∈ vtx, tx.txid = c.txid := by
    rintro c hc
    obtain ⟨tx, htx, htxid, -⟩ := ((hscanned.mem c).mp hc).action
    exact ⟨tx, htx, htxid⟩
  have hstart : AcceptedOf candidates scanned.transactions scanned.transactions [] :=
    ⟨fun c hc => absurd hc List.not_mem_nil, fun _ htx => htx, honce⟩
  by_cases hbirthday : birthday ≤ scanned.height
  · have hnever : ∀ state tx, (confirmNotes D params vtx candidates scanned.height mtp state tx).isSome =
        true :=
      confirmNotes_isSome hpresent
    obtain ⟨⟨registry', accepted⟩, hpass⟩ :=
      Option.isSome_iff_exists.mp (foldlM_isSome hnever scanned.transactions (registry, []))
    refine ⟨registry', accepted, candidates, ?_, hcandidates, hstart.run hpass⟩
    unfold confirmPass
    rw [if_pos hbirthday, hcandidates]
    exact hpass
  · refine ⟨registry, [], candidates, if_neg hbirthday, hcandidates, ?_⟩
    exact ⟨hstart.mem, fun tx htx => absurd htx List.not_mem_nil, List.nodup_nil⟩

/-- **Every Name Note accepted is committed, and keeps its witness.** After any run of the wallet from
boot, the next block of the chain is applied without a panic, by calls of the wallet that are in order
again; each note the Registry accepts is stored under its nullifier; and in every run from there on that
keeps the block, its commitment has a witness at every checkpoint kept from its block on. -/
theorem name_notes_committed (hua : Wire.UaLaws params) (hD : D.Lawful) (hM : M.Lawful)
    {origin : BlockMetadata}
    (horigin : origin.blockHeight ≤ MAX_HEIGHT) {trees : ShieldedPool → X.Tree}
    (hboot : M.Booted origin trees)
    (ends : ShieldedPool → Table (ℕ × ℕ) ℕ) {ops : List (Op X)}
    (hops : Along Wallet.step InOrder (new origin trees ends) ops)
    (hrun : run Wallet.step (new origin trees ends) ops = some w) (registry : Registry)
    (birthday : ℕ) (mtp : ℤ)
    {block : FetchedBlock D} (hprev : block.prevBlock = w.tip.blockHash) (hnext : NextBlock w scanned)
    (hscan : ScanOf D params block.vtx scanned) (hunseen : Unseen D params w block.vtx scanned) :
    ∃ start registry' accepted v, ironwoodStart scanned = some start ∧
      confirmPass D params birthday block.vtx scanned mtp registry = some (registry', accepted) ∧
      Faculties.applyBlock D params birthday block scanned mtp ⟨w, registry⟩ = some ⟨v, registry'⟩ ∧
      Along Wallet.step InOrder w (commitOps params w scanned start accepted) ∧
      run Wallet.step w (commitOps params w scanned start accepted) = some v ∧
      ∀ c ∈ accepted, Stored v (c.args params scanned.height start) ∧
        ∀ later u, Along Wallet.step (KeepsTo scanned.height) v later → run Wallet.step v later = some u →
          ∀ k, scanned.height ≤ k → X.getCheckpoint (u.trees .ironwood) k = true →
            ∃ path root, X.witnessAtCheckpointId (u.trees .ironwood) (start + c.ordinal) k =
              .ok (some path) ∧
              X.rootAtCheckpointId (u.trees .ironwood) k = .ok (some root) ∧
                X.pathRoot path c.cmx = root := by
  have hs : w.WellFormed ∧ InStep M w := InStep.run hM
    ⟨wellFormed_new horigin trees ends, .new hboot ends⟩ hops hrun
  obtain ⟨registry', accepted, candidates, hpass, hcandidates, haccepted⟩ :=
    confirmPass_ok hua hD birthday block.vtx scanned mtp registry hscan.once
  have hstart : ironwoodStart scanned =
      some ((scanned.bundles .ironwood).finalTreeSize - (scanned.bundles .ironwood).commitments.length) :=
    if_pos (hnext.grows .ironwood)
  obtain ⟨v, hcommit, hnotes⟩ := commitNotes_ok hM hs hnext hscan hunseen hcandidates haccepted hstart
  have hrun' : run Wallet.step w (commitOps params w scanned _ accepted) = some v :=
    (run_commitOps hstart w accepted).trans hcommit
  have hsv : v.WellFormed ∧ InStep M v := InStep.run hM hs (inOrder_commitOps hnext _ accepted) hrun'
  refine ⟨_, registry', accepted, v, hstart, hpass, ?_, inOrder_commitOps hnext _ accepted, hrun',
    fun c hc => ?_⟩
  · unfold Faculties.applyBlock
    rw [if_pos ⟨hnext.height, hprev⟩, hpass]
    simp only [Option.bind_eq_bind, Option.bind_some, hcommit]
    rfl
  · obtain ⟨hstored, hplaced⟩ := hnotes c hc
    exact ⟨hstored, fun later u hlater hrunLater k hk hcheckpoint =>
      hplaced.witnessed hM hsv hlater hrunLater hk hcheckpoint⟩

end Next

/-! ### One claim -/

/-- The transaction of `leafTx` as the wallet scans it: it spends an anchor and receives its successor. -/
def leafWalletTx : WalletTx leafBackend where
  txid := sampleTxid 1
  blockIndex := 0
  outputs
    | .sapling => []
    | .ironwood =>
      [{ index := 0, ephemeralKey := Vector.replicate 32 0, note := (7 : ℕ), isChange := false,
         noteCommitmentTreePosition := 0, nf := some ⟨60⟩, accountId := REGISTRY_ACCOUNT,
         recipientKeyScope := some .external }]
  spends
    | .sapling => []
    | .ironwood => [⟨9⟩]
  orchardOutputs := []

/-- Its two commitments, the last of which is checkpointed. -/
def leafScanned : ScannedBlock leafBackend where
  height := 1
  blockHash := Vector.replicate 32 1
  transactions := [leafWalletTx]
  bundles
    | .ironwood => ⟨[([7], .ephemeral), ([5], .checkpoint 1 .none)], 2⟩
    | _ => ⟨[], 0⟩

noncomputable def leafFetched : FetchedBlock leafDomain := ⟨Vector.replicate 32 0, [leafTx]⟩

def leafOrigin : BlockMetadata := ⟨0, Vector.replicate 32 0, some 0, some 0, some 0⟩

def leafTrees : ShieldedPool → leafBackend.Tree := fun _ => ([], ∅)

def leafWallet : Wallet leafBackend := new leafOrigin leafTrees fun _ => .empty

/-- The Registry with the anchor that the claim spends. -/
def leafRegistry : Registry := Registry.new.adoptAnchor 0 ⟨9⟩

theorem leafTrees_booted : leafModel.Booted leafOrigin leafTrees := by
  refine ⟨fun _ => ⟨fun h n hn => ?_, fun h n h' n' hn => ?_⟩, fun pool =>
    ?_, fun pool height size hsize => ?_⟩
  · simp [leafTrees] at hn
  · simp [leafTrees] at hn
  · cases pool <;> rfl
  · simp [leafTrees, leafModel] at hsize

theorem leafScanned_next : NextBlock leafWallet leafScanned := by
  have htip : leafWallet.tip = leafOrigin := by simp [leafWallet, tip, Wallet.new]
  refine ⟨?_, by decide, ?_, fun pool => ?_, fun pool => ?_, fun pool => ?_, fun pool => ?_⟩
  · rw [htip]
    rfl
  · intro tx htx
    obtain rfl := List.mem_singleton.mp htx
    rfl
  · rw [htip]
    cases pool <;> rfl
  · cases pool <;> decide
  · cases pool <;> decide
  · intro i e he id hid
    rcases pool
    · cases he
    · cases he
    · rcases i with - | - | i
      · obtain rfl := Option.some.inj he
        cases hid
      · obtain rfl := Option.some.inj he
        exact ⟨(Option.some.inj hid).symm, rfl⟩
      · cases he

/-- The claim, as it is read from the block. -/
noncomputable def leafNote : DecryptedNameNote leafBackend where
  txid := sampleTxid 1
  actionIndex := 1
  ordinal := 1
  cmx := [5]
  note := (5 : ℕ)
  nullifier := ⟨5⟩
  ephemeralKey := Vector.replicate 32 0
  memo := leafMemo
  payload := leafPayload

theorem decryptAction_leaf :
    decryptAction leafDomain Wire.sample (sampleTxid 1) 1 1 ([5], some (5, leafMemo)) =
      some (some leafNote) := by
  have hvalue : leafDomain.value (5 : ℕ) = 0 := Nat.div_eq_of_lt (show 5 < 100 by decide)
  exact decryptAction_eq rfl decode_leafMemo hvalue rfl rfl (sampleTxid 1) 1 1

theorem decryptNameNotes_leaf : decryptNameNotes leafDomain Wire.sample [leafTx] = some [leafNote] := by
  -- for any memo, so that nothing evaluates the one of the claim
  have hscan : ∀ memo note, decryptAction leafDomain Wire.sample (sampleTxid 1) 1 1
    ([5], some (5, memo)) =
      some (some note) → decryptNameNotes leafDomain Wire.sample
        [⟨sampleTxid 1, 40, some ⟨true, true, [([7], none), ([5], some (5, memo))]⟩⟩] = some [note] := by
    intro memo note hnote
    have hfirst : scanAction leafDomain Wire.sample (sampleTxid 1) true ([], 0) (([7], none), 0) =
        some ([], 1) :=
      rfl
    have hsecond : scanAction leafDomain Wire.sample (sampleTxid 1) true ([], 1)
      (([5], some (5, memo)), 1) =
        some ([note], 2) := by
      simp [scanAction, hnote]
    show ((scanAction leafDomain Wire.sample (sampleTxid 1) true ([], 0) (([7], none), 0) >>= fun found =>
      scanAction leafDomain Wire.sample (sampleTxid 1) true found (([5], some (5, memo)), 1) >>= pure) >>=
        pure).map Prod.fst = _
    rw [hfirst, Option.bind_eq_bind, Option.bind_some, hsecond]
    rfl
  exact hscan leafMemo leafNote decryptAction_leaf

/-- It is the only one of the block. -/
theorem eq_leafNote {note : DecryptedNameNote leafBackend}
    (h : Located leafDomain Wire.sample [leafTx] note) :
    note = leafNote := by
  obtain ⟨_, hscanned⟩ := scannedTxs_of_some decryptNameNotes_leaf
  exact List.mem_singleton.mp ((hscanned.mem note).mpr h)

theorem leafScanned_scanOf : ScanOf leafDomain Wire.sample [leafTx] leafScanned := by
  refine ⟨rfl, List.nodup_singleton _, fun note hnote tx htx output houtput _ => ?_⟩
  obtain rfl := eq_leafNote hnote
  obtain rfl := List.mem_singleton.mp htx
  obtain rfl := List.mem_singleton.mp houtput
  exact (by decide : (0 : UInt16) ≠ (1 : ℕ).toUInt16)

theorem leafScanned_unseen : Unseen leafDomain Wire.sample leafWallet [leafTx] leafScanned := by
  refine ⟨fun tx _ => ?_, fun tx htx => ?_, fun note _ => rfl, fun note hnote tx htx output houtput =>
    ?_, ?_⟩
  · simp [leafWallet, Wallet.new, minedHeight]
  · obtain rfl := List.mem_singleton.mp htx
    exact (by decide : 2 ≤ 65536)
  · obtain rfl := eq_leafNote hnote
    obtain rfl := List.mem_singleton.mp htx
    obtain rfl := List.mem_singleton.mp houtput
    exact (by decide : some (⟨60⟩ : Nullifier) ≠ some ⟨5⟩)
  · rintro a b ha hb -
    rw [eq_leafNote ha, eq_leafNote hb]

/-- The Registry accepts the claim. -/
theorem confirmPass_leaf : ∃ registry,
    confirmPass leafDomain Wire.sample 0 [leafTx] leafScanned 0 leafRegistry =
      some (registry, [leafNote]) := by
  have hnotes : notesByTx [leafNote] leafWalletTx.txid = [leafNote] := by
    simp [notesByTx, leafNote, leafWalletTx]
  have hexpiry : expiryByTxid [leafTx] leafWalletTx.txid = some 40 := by
    simp [expiryByTxid, leafTx, leafWalletTx]
  have hscanned : (leafWalletTx.scannedTx (blockReading leafDomain [leafTx] [leafNote])).2 =
      ⟨[⟨9⟩], [⟨0, some ⟨60⟩⟩], [⟨leafPayload, ⟨5⟩⟩], 40⟩ := by
    simp only [WalletTx.scannedTx, blockReading, hnotes, hexpiry]
    rfl
  have haccepted : (confirmTx Wire.sample.toParams leafRegistry
      ⟨[⟨9⟩], [⟨0, some ⟨60⟩⟩], [⟨leafPayload, ⟨5⟩⟩], 40⟩ 1 0).2 = true := by
    decide +kernel
  rcases hconfirm : confirmTx Wire.sample.toParams leafRegistry
      ⟨[⟨9⟩], [⟨0, some ⟨60⟩⟩], [⟨leafPayload, ⟨5⟩⟩], 40⟩ 1 0 with ⟨registry, accepted⟩
  rw [hconfirm] at haccepted
  obtain rfl : accepted = true := haccepted
  have htx : confirmNotes leafDomain Wire.sample [leafTx] [leafNote] 1 0 (leafRegistry, []) leafWalletTx =
      some (registry, [leafNote]) := by
    unfold confirmNotes
    rw [hscanned, hconfirm, hnotes, hexpiry]
    simp
  refine ⟨registry, ?_⟩
  unfold confirmPass
  rw [if_pos (Nat.zero_le _), decryptNameNotes_leaf]
  exact congrArg (fun state => state >>= pure) htx

/-- A claim that spends an anchor is stored. -/
theorem name_notes_committed_claim : ∃ v registry,
    Faculties.applyBlock leafDomain Wire.sample 0 leafFetched leafScanned 0 ⟨leafWallet, leafRegistry⟩ =
      some ⟨v, registry⟩ ∧ Stored v (leafNote.args Wire.sample 1 0) := by
  have hops : Along Wallet.step InOrder leafWallet [] := trivial
  have hrun : run Wallet.step leafWallet [] = some leafWallet := rfl
  have hprev : leafFetched.prevBlock = leafWallet.tip.blockHash := rfl
  obtain ⟨start, registry, accepted, v, hstart, hpass, happly, -, -, hnotes⟩ :=
    name_notes_committed Wire.sample_uaLaws leafDomain_lawful leafModel_lawful
      (by decide) leafTrees_booted
      (fun _ => .empty) hops hrun leafRegistry 0 0 hprev leafScanned_next leafScanned_scanOf
        leafScanned_unseen
  obtain ⟨_, hclaim⟩ := confirmPass_leaf
  obtain rfl : accepted = [leafNote] := congrArg Prod.snd (Option.some.inj (hpass.symm.trans hclaim))
  obtain rfl : start = 0 := (Option.some.inj (hstart.symm.trans rfl : some start = some 0))
  exact ⟨v, registry, happly, (hnotes leafNote (List.mem_singleton.mpr rfl)).1⟩

end ZnsMint.Wallet
