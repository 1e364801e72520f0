import ZnsMint.Wallet.Steps

/-! # The wallet in every run

The operations beside the scanning of blocks, each said as what it does and shown to keep the agreement of
the tables, and from them the invariant of every run. -/

namespace ZnsMint.Wallet

open Basic Lib.Tables Lib.Checkpoints Lib.Machine

variable {X : Backend} {w v : Wallet X}

/-! ### Name Notes -/

/-- A retry repeats every field stored, or is refused. -/
def checkStored (w : Wallet X) (a : NameNoteArgs X) (existing : WalletOutput X) :
    Except (WalletError X) Unit :=
  if existing.noteCommitmentTreePosition ≠ a.position ∨ existing.nf ≠ some a.nullifier ∨
      existing.note ≠ a.note ∨ existing.ephemeralKey ≠ a.ephemeralKey ∨
      existing.accountId ≠ REGISTRY_ACCOUNT ∨ existing.recipientKeyScope ≠ some .external then
    .error (.invalidNameNote "NoteId exists with divergent fields")
  else if w.memos a.noteId ≠ some (X.memoFuture a.memo) then
    .error (.invalidNameNote "NoteId exists with divergent memo")
  else .ok ()

/-- The wallet with the note of the arguments. -/
def withNameNote (w : Wallet X) (a : NameNoteArgs X) : Wallet X :=
  { w.setLane .ironwood ((w.lanes .ironwood).receive a.noteId a.output) with
    memos := w.memos.insert a.noteId (X.memoFuture a.memo) }

/-- What a Name Note that passes its checks does. -/
def storeOrRepeat (w : Wallet X) (a : NameNoteArgs X) : Except (WalletError X) (Wallet X) :=
  match (w.lanes .ironwood).notes a.noteId with
  | some existing => (w.checkStored a existing).map fun _ => w
  | none => .ok (w.withNameNote a)

/-- The checks of a Name Note, which only read. -/
def checkNameNote (w : Wallet X) (a : NameNoteArgs X) : Except (WalletError X) Unit := do
  w.checkNameNoteHeight a
  if a.actionIndex < 65536 then
    if ((w.lanes .ironwood).nullifiers a.nullifier).any fun owner => decide (owner ≠ a.noteId) then
      .error (.invalidNameNote "nullifier already identifies a different Ironwood note")
    else w.checkNameNoteLeaf a
  else .error (.invalidNameNote "Ironwood action index does not fit u16")

/-- The call is its checks, and then the retry or the note. -/
theorem storeNameNote_eq (w : Wallet X) (a : NameNoteArgs X) :
    w.storeNameNote a = w.checkNameNote a >>= fun _ => w.storeOrRepeat a := by
  unfold storeNameNote checkNameNote
  rcases w.checkNameNoteHeight a with e | _
  · rfl
  by_cases hindex : a.actionIndex < 65536
  · simp only [if_pos hindex]
    by_cases howner : ((w.lanes .ironwood).nullifiers a.nullifier).any fun owner =>
      decide (owner ≠ a.noteId)
    · simp only [if_pos howner]
      rfl
    · simp only [if_neg howner]
      rcases w.checkNameNoteLeaf a with e | _
      · rfl
      unfold storeOrRepeat checkStored
      rcases (w.lanes .ironwood).notes a.noteId with - | existing
      · rfl
      · simp only
        split_ifs
        · rfl
        · rfl
        · rfl
  · simp only [if_neg hindex]
    rfl

theorem checkNameNoteHeight_ok {a : NameNoteArgs X} (hok : w.checkNameNoteHeight a = .ok ()) :
    a.height ∈ w.blocks ∧ w.minedHeight a.txid = some a.height := by
  unfold checkNameNoteHeight at hok
  by_cases hblock : w.blocks[a.height]?.isNone = true
  · rw [if_pos hblock] at hok
    exact nomatch hok
  · rw [if_neg hblock] at hok
    have happlied : a.height ∈ w.blocks := by
      rw [← Std.ExtTreeMap.isSome_getElem?_iff_mem]
      simpa using hblock
    rcases hstatus : w.transactionStatuses a.txid with - | ⟨m⟩ | - | -
    · simp [hstatus] at hok
    · rw [hstatus] at hok
      by_cases hm : m = a.height
      · exact ⟨happlied, minedHeight_eq_some.mpr (hm ▸ hstatus)⟩
      · simp [hm] at hok
    · simp [hstatus] at hok
    · simp [hstatus] at hok

theorem checkNameNote_ok {a : NameNoteArgs X} (hok : w.checkNameNote a = .ok ()) :
    a.height ∈ w.blocks ∧ w.minedHeight a.txid = some a.height ∧
      ∀ owner, (w.lanes .ironwood).nullifiers a.nullifier = some owner → owner = a.noteId := by
  unfold checkNameNote at hok
  obtain ⟨⟨⟩, hheight, hok⟩ := ok_of_bind hok
  obtain ⟨happlied, hmined⟩ := checkNameNoteHeight_ok hheight
  split_ifs at hok with hindex howner
  refine ⟨happlied, hmined, fun owner hnf => ?_⟩
  rw [hnf] at howner
  simpa using howner

theorem storeOrRepeat_ok {a : NameNoteArgs X} (hok : w.storeOrRepeat a = .ok v) :
    (∃ existing, (w.lanes .ironwood).notes a.noteId = some existing ∧ w.checkStored a existing =
    .ok () ∧ v = w) ∨
      (w.lanes .ironwood).notes a.noteId = none ∧ v = w.withNameNote a := by
  unfold storeOrRepeat at hok
  rcases hnote : (w.lanes .ironwood).notes a.noteId with - | existing
  · rw [hnote] at hok
    exact .inr ⟨rfl, (Except.ok.inj hok).symm⟩
  · simp only [hnote] at hok
    rcases hstored : w.checkStored a existing with e | u
    · rw [hstored] at hok
      exact nomatch hok
    · rw [hstored] at hok
      exact .inl ⟨existing, rfl, hstored, (Except.ok.inj hok).symm⟩

/-- **A Name Note that is accepted** belongs to a transaction mined at its height, its nullifier is not
another note's, and it is found stored or received as a new note. -/
theorem storeNameNote_ok {a : NameNoteArgs X} (hok : w.storeNameNote a = .ok v) :
    a.height ∈ w.blocks ∧ w.minedHeight a.txid = some a.height ∧
      (∀ owner, (w.lanes .ironwood).nullifiers a.nullifier = some owner → owner = a.noteId) ∧
      (v = w ∨ (w.lanes .ironwood).notes a.noteId = none ∧
        v = { w.setLane .ironwood ((w.lanes .ironwood).receive a.noteId a.output) with
          memos := w.memos.insert a.noteId (X.memoFuture a.memo) }) := by
  rw [storeNameNote_eq] at hok
  obtain ⟨⟨⟩, hcheck, hok⟩ := ok_of_bind hok
  obtain ⟨happlied, hmined, howner⟩ := checkNameNote_ok hcheck
  exact ⟨happlied, hmined, howner, (storeOrRepeat_ok hok).imp_left fun ⟨_, _, _, hv⟩ => hv⟩

theorem lanes_setLane (w : Wallet X) (p q : OwnedPool) (lane : Lane X) :
    (w.setLane p lane).lanes q = if q = p then lane else w.lanes q :=
  Function.update_apply ..

theorem WellFormed.storeNameNote (h : w.WellFormed) {a : NameNoteArgs X}
    (hok : w.storeNameNote a = .ok v) :
    v.WellFormed := by
  obtain ⟨-, hheight, -, rfl | ⟨-, rfl⟩⟩ := storeNameNote_ok hok
  · exact h
  have hmined : w.Mined a.txid := by
    unfold Mined
    rw [hheight]
    rfl
  refine ⟨⟨fun p => ?_, ?_, h.indices⟩, h.keyed, h.bounded, h.mined⟩
  · change ((w.setLane .ironwood _).lanes p).Sound w.Mined w.Known p
    rw [lanes_setLane]
    split_ifs with hp
    · subst hp
      exact (h.lanes .ironwood).receive rfl hmined
    · exact h.lanes p
  · exact h.memos.insert (.inl hmined)

/-! ### Transactions built or seen -/

/-- A change of the tables that leaves the blocks, takes nothing mined back and mines nothing above the
tip. -/
theorem WellFormed.frame (h : w.WellFormed) (hblocks : v.blocks = w.blocks) (hseed : v.seed = w.seed)
    (hbound : ∀ txid m, v.minedHeight txid = some m → m ≤ w.tip.blockHeight)
    (hmined : ∀ txid, w.Mined txid → v.Mined txid)
    (hlanes : ∀ p, (v.lanes p).Sound v.Mined v.Known p)
    (hmemos : Every (fun id _ => v.Known id.txid) v.memos)
    (hindices : v.transactionIndices = w.transactionIndices) : v.WellFormed := by
  have htip : v.tip = w.tip := by
    unfold tip
    rw [hblocks, hseed]
  refine ⟨⟨hlanes, hmemos, ?_⟩, ?_, ?_, ?_⟩
  · rw [hindices]
    exact h.indices.mono fun txid _ => hmined txid
  · rw [hblocks]
    exact h.keyed
  · rw [htip]
    exact h.bounded
  · rw [htip]
    exact hbound

/-- A status that is not new leaves what is mined. -/
theorem minedHeight_insert_getD (w : Wallet X) (txid : TxId)
    (hv : v.transactionStatuses =
      w.transactionStatuses.insert txid ((w.transactionStatuses txid).getD .notInMainChain)) :
    v.minedHeight = w.minedHeight := by
  funext txid'
  by_cases hid : txid' = txid
  · subst hid
    unfold minedHeight
    rw [hv, Table.insert_same]
    rcases w.transactionStatuses txid' with - | status
    · rfl
    · rfl
  · exact minedHeight_insert hv hid

theorem isSome_transactions_insert {txid txid' : TxId} {tx : Transaction}
    (h : (w.transactions txid').isSome = true) : (w.transactions.insert txid tx txid').isSome = true := by
  by_cases hid : txid' = txid
  · rw [hid, Table.insert_same]
    rfl
  · rwa [Table.insert_of_ne hid]

theorem isSome_insert_same (w : Wallet X) (tx : Transaction) :
    (w.transactions.insert tx.txid tx tx.txid).isSome = true := by
  rw [Table.insert_same]
  rfl

theorem lanes_recordSpend (p q : OwnedPool) (txid : TxId) (w : Wallet X) (nf : Nullifier) :
    (recordSpend p txid w nf).lanes q = if q = p then (w.lanes p).spend txid nf else w.lanes q := by
  unfold recordSpend
  split
  · exact lanes_setLane w p q _
  · rename_i hnf
    have hspend : (w.lanes p).spend txid nf = w.lanes p := by
      unfold Lane.spend
      rw [hnf]
    split_ifs with hq
    · rw [hspend, hq]
    · rfl

/-- The recorded spend of one nullifier changes the tables of its pool, and locks. -/
theorem recordSpend_frame (p : OwnedPool) (txid : TxId) (w : Wallet X) (nf : Nullifier) :
    ∃ lanes locks, recordSpend p txid w nf = { w with lanes := lanes, locks := locks } := by
  unfold recordSpend
  split
  · exact ⟨_, _, rfl⟩
  · exact ⟨w.lanes, w.locks, rfl⟩

theorem WellFormed.recordSpend (h : w.WellFormed) (p : OwnedPool) {txid : TxId} (hknown : w.Known txid)
    (nf : Nullifier) : (recordSpend p txid w nf).WellFormed ∧ (recordSpend p txid w nf).Known txid := by
  have hlanes := fun q => lanes_recordSpend p q txid w nf
  obtain ⟨lanes, locks, heq⟩ := recordSpend_frame p txid w nf
  rw [heq] at hlanes ⊢
  refine ⟨⟨⟨fun q => ?_, h.memos, h.indices⟩, h.keyed, h.bounded, h.mined⟩, hknown⟩
  change (lanes q).Sound w.Mined w.Known q
  rw [show lanes q = _ from hlanes q]
  split_ifs with hq
  · subst hq
    exact (h.lanes q).spend hknown nf
  · exact h.lanes q

theorem WellFormed.recordSpends (h : w.WellFormed) (p : OwnedPool) {txid : TxId} (hknown : w.Known txid)
    (nfs : List Nullifier) :
    (nfs.foldl (Wallet.recordSpend p txid) w).WellFormed ∧
    (nfs.foldl (Wallet.recordSpend p txid) w).Known txid :=
  List.foldlRecOn nfs _ (motive := fun w : Wallet X => w.WellFormed ∧ w.Known txid) ⟨h, hknown⟩
    fun _ hw nf _ => hw.1.recordSpend p hw.2 nf

theorem every_storeSentMemo {P : TxId → Prop} {txid : TxId} {memos : Table NoteId X.Memo}
    (h : Every (fun id _ => P id.txid) memos) (htxid : P txid) (o : SentTransactionOutput) :
    Every (fun id _ => P id.txid) (storeSentMemo txid memos o) := by
  unfold storeSentMemo
  split
  · split_ifs
    · exact h.insert htxid
    · exact h
  · exact h

theorem every_storeDecryptedMemo {P : TxId → Prop} {txid : TxId} {p : OwnedPool}
    {memos : Table NoteId X.Memo}
    (h : Every (fun id _ => P id.txid) memos) (htxid : P txid) (o : UInt16 × MemoBytes) :
    Every (fun id _ => P id.txid) (storeDecryptedMemo txid p memos o) := by
  unfold storeDecryptedMemo
  split
  · exact h.insert htxid
  · exact h

/-- The part of storing a built transaction before its spends. -/
def storeRaw (w : Wallet X) (sent : SentTransaction) : Wallet X :=
  { w with
    transactions := w.transactions.insert sent.tx.txid sent.tx
    transactionStatuses :=
      w.transactionStatuses.insert sent.tx.txid
        ((w.transactionStatuses sent.tx.txid).getD .notInMainChain)
    sentOutputs := w.sentOutputs.insert sent.tx.txid sent.outputs
    memos := sent.outputs.foldl (storeSentMemo sent.tx.txid) w.memos }

theorem storeTransactionToBeSent_eq (w : Wallet X) (sent : SentTransaction) :
    w.storeTransactionToBeSent sent =
      (sent.tx.nullifiers .ironwood).foldl (Wallet.recordSpend .ironwood sent.tx.txid)
        ((sent.tx.nullifiers .sapling).foldl (Wallet.recordSpend .sapling sent.tx.txid)
          (w.storeRaw sent)) := rfl

theorem WellFormed.storeRaw (h : w.WellFormed) (sent : SentTransaction) :
    (w.storeRaw sent).WellFormed ∧ (w.storeRaw sent).Known sent.tx.txid := by
  have hmined : (w.storeRaw sent).minedHeight = w.minedHeight :=
    minedHeight_insert_getD w sent.tx.txid rfl
  have hraw : (w.storeRaw sent).Known sent.tx.txid := .inr (isSome_insert_same w sent.tx)
  have hm : ∀ txid, w.Mined txid → (w.storeRaw sent).Mined txid := by
    intro txid htxid
    unfold Mined
    rw [hmined]
    exact htxid
  have hknown : ∀ txid, w.Known txid → (w.storeRaw sent).Known txid :=
    fun txid htxid => htxid.imp (hm txid) isSome_transactions_insert
  refine ⟨h.frame rfl rfl ?_ hm (fun p => (h.lanes p).mono hm hknown) ?_ rfl, hraw⟩
  · rw [hmined]
    exact h.mined
  · exact List.foldlRecOn sent.outputs _ (motive := Every fun id _ => (w.storeRaw sent).Known id.txid)
      (h.memos.mono fun id _ => hknown id.txid)
      fun _ hmemos o _ => every_storeSentMemo (P := (w.storeRaw sent).Known) hmemos hraw o

theorem WellFormed.storeTransactionsToBeSent (h : w.WellFormed) (transactions : List SentTransaction) :
    (w.storeTransactionsToBeSent transactions).WellFormed :=
  List.foldlRecOn transactions _ (motive := WellFormed) h fun w hw sent _ => by
    rw [storeTransactionToBeSent_eq]
    obtain ⟨hraw, hknown⟩ := hw.storeRaw sent
    obtain ⟨hsapling, hknown⟩ := hraw.recordSpends .sapling hknown (sent.tx.nullifiers .sapling)
    exact (hsapling.recordSpends .ironwood hknown _).1

theorem minedHeight_storeDecryptedTx (w : Wallet X) (received : DecryptedTransaction) (txid : TxId) :
    (w.storeDecryptedTx received).minedHeight txid =
      if txid = received.tx.txid then received.minedHeight.or
        (w.minedHeight txid) else w.minedHeight txid := by
  rcases hheight : received.minedHeight with - | height
  · rw [minedHeight_insert_getD w received.tx.txid (by simp [Wallet.storeDecryptedTx, hheight]),
      Option.none_or,
      ite_self]
  · have hstatus : (w.storeDecryptedTx received).transactionStatuses =
        w.transactionStatuses.insert received.tx.txid (.mined height) := by
      simp [Wallet.storeDecryptedTx, hheight]
    split_ifs with hid
    · rw [hid, minedHeight_insert_mined hstatus, Option.some_or]
    · exact minedHeight_insert hstatus hid

theorem WellFormed.storeDecryptedTx (h : w.WellFormed) {received : DecryptedTransaction}
    (hm : ∀ m, received.minedHeight = some m → m ≤ w.tip.blockHeight) :
    (w.storeDecryptedTx received).WellFormed := by
  have hkept : ∀ txid, w.Mined txid → (w.storeDecryptedTx received).Mined txid := by
    intro txid htxid
    unfold Mined at htxid ⊢
    rw [minedHeight_storeDecryptedTx]
    split_ifs
    · simp [htxid]
    · exact htxid
  have hknown : ∀ txid, w.Known txid → (w.storeDecryptedTx received).Known txid :=
    fun txid htxid => htxid.imp (hkept txid) isSome_transactions_insert
  have hraw : (w.storeDecryptedTx received).Known received.tx.txid :=
    .inr (isSome_insert_same w received.tx)
  refine h.frame rfl rfl ?_ hkept (fun p => (h.lanes p).mono hkept hknown) ?_ rfl
  · intro txid m htxid
    rw [minedHeight_storeDecryptedTx] at htxid
    split_ifs at htxid
    · rcases Option.or_eq_some_iff.mp htxid with hheight | ⟨-, hheight⟩
      · exact hm m hheight
      · exact h.mined txid m hheight
    · exact h.mined txid m htxid
  · have hmemos : Every (fun id _ => (w.storeDecryptedTx received).Known id.txid) w.memos :=
      h.memos.mono fun id _ => hknown id.txid
    have hsapling := List.foldlRecOn (received.outputs .sapling)
      (storeDecryptedMemo received.tx.txid .sapling)
      (motive := Every fun id _ => (w.storeDecryptedTx received).Known id.txid) hmemos
      fun _ hmemos o _ => every_storeDecryptedMemo (P := (w.storeDecryptedTx received).Known)
        hmemos hraw o
    exact List.foldlRecOn (received.outputs .ironwood) (storeDecryptedMemo received.tx.txid .ironwood)
      (motive := Every fun id _ => (w.storeDecryptedTx received).Known id.txid) hsapling
      fun _ hmemos o _ => every_storeDecryptedMemo (P := (w.storeDecryptedTx received).Known)
        hmemos hraw o

theorem WellFormed.setTransactionStatus (h : w.WellFormed) {txid : TxId} {status : TransactionStatus}
    (hunmined : w.minedHeight txid = none) (hstatus : ∀ m, status ≠ .mined m) :
    (w.setTransactionStatus txid status).WellFormed := by
  have hmined : (w.setTransactionStatus txid status).minedHeight = w.minedHeight := by
    funext txid'
    by_cases hid : txid' = txid
    · subst hid
      rw [hunmined]
      refine Option.eq_none_iff_forall_ne_some.mpr fun m hm => hstatus m ?_
      have hnew : (w.setTransactionStatus txid' status).transactionStatuses txid' = some status :=
        Table.insert_same ..
      rw [minedHeight_eq_some, hnew] at hm
      exact Option.some.inj hm
    · exact minedHeight_insert rfl hid
  have hm : (w.setTransactionStatus txid status).Mined = w.Mined := by
    unfold Mined
    rw [hmined]
  have hknown : (w.setTransactionStatus txid status).Known = w.Known := by
    unfold Known
    rw [hm]
    rfl
  refine h.frame rfl rfl ?_ (fun txid htxid => hm ▸ htxid) ?_ ?_ rfl
  · rw [hmined]
    exact h.mined
  · rw [hm, hknown]
    exact h.lanes
  · rw [hknown]
    exact h.memos

/-! ### Locks -/

theorem lockOutputs_ok {outputs : List OutputRef} {owner : LockOwner} {expiry : ℕ}
    (hok : w.lockOutputs outputs owner expiry = .ok v) : ∃ locks, v = { w with locks := locks } := by
  unfold lockOutputs at hok
  split at hok
  · exact nomatch hok
  · exact ⟨_, (Except.ok.inj hok).symm⟩

theorem unlockOutput_eq (w : Wallet X) (output : OutputRef) (owner : LockOwner) :
    ∃ locks, w.unlockOutput output owner = { w with locks := locks } := by
  unfold unlockOutput
  split_ifs
  · exact ⟨_, rfl⟩
  · exact ⟨w.locks, rfl⟩

/-! ### Truncation -/

theorem minedHeight_dropAppliedAbove (w : Wallet X) (height : ℕ) (txid : TxId) :
    (w.dropAppliedAbove height).minedHeight txid = (w.minedHeight txid).filter fun m =>
    decide (m ≤ height) := by
  have hstatus : (w.dropAppliedAbove height).transactionStatuses txid =
      if w.orphaned height txid then some .notInMainChain else w.transactionStatuses txid := rfl
  unfold minedHeight
  rw [hstatus]
  unfold orphaned
  rcases w.transactionStatuses txid with - | ⟨m⟩ | - | -
  · simp
  · by_cases hm : m ≤ height
    · simp [Option.filter, hm, Nat.not_lt.mpr hm]
    · simp [Option.filter, hm, Nat.lt_of_not_le hm]
  · simp
  · simp

theorem mined_dropAppliedAbove {height : ℕ} {txid : TxId} (h : w.Mined txid)
    (horphaned : w.orphaned height txid = false) : (w.dropAppliedAbove height).Mined txid := by
  obtain ⟨m, hm⟩ := Option.isSome_iff_exists.mp h
  have hle : m ≤ height := by
    by_contra hlt
    have horphan : w.orphaned height txid = true := orphaned_iff.mpr ⟨m, hm, Nat.lt_of_not_le hlt⟩
    rw [horphan] at horphaned
    exact nomatch horphaned
  unfold Mined
  rw [minedHeight_dropAppliedAbove, hm]
  simp [hle]

theorem WellFormed.dropAppliedAbove (h : w.WellFormed) {height : ℕ}
    (htip : (w.dropAppliedAbove height).tip.blockHeight = height) (hmax : height ≤ MAX_HEIGHT) :
    (w.dropAppliedAbove height).WellFormed where
  lanes p := by
    refine (h.lanes p).dropOrphaned (fun txid hmined horphaned => mined_dropAppliedAbove hmined horphaned)
      ?_
    intro txid hknown hscanned
    by_cases hraw : (w.transactions txid).isSome = true
    · exact .inr hraw
    · have horphaned : w.orphaned height txid = false := by simpa [hraw] using hscanned
      exact .inl (mined_dropAppliedAbove (hknown.resolve_right hraw) horphaned)
  memos := h.memos.retain.mono fun id _ hid => by
    rcases hid.1 with hmined | hraw
    · exact .inl (mined_dropAppliedAbove hmined (by simpa using hid.2))
    · exact .inr hraw
  indices := h.indices.retain.mono fun txid _ htxid =>
    mined_dropAppliedAbove htxid.1 (by simpa using htxid.2)
  keyed k md hk := by
    change (cut w.blocks height)[k]? = some md at hk
    rw [getElem?_cut] at hk
    split_ifs at hk
    exact h.keyed k md hk
  bounded := by
    rw [htip]
    exact hmax
  mined txid m hm := by
    rw [minedHeight_dropAppliedAbove] at hm
    rw [htip]
    simpa using (Option.filter_eq_some_iff.mp hm).2

theorem tryTruncateTreesTo_ok {height : ℕ} (hok : w.tryTruncateTreesTo height = .ok (some v)) :
    ∃ trees, v = { w with trees := trees } := by
  unfold tryTruncateTreesTo at hok
  split at hok
  · obtain ⟨⟨done, sapling⟩, -, hok⟩ := ok_of_bind hok
    cases done
    · exact nomatch hok
    obtain ⟨⟨done, orchard⟩, -, hok⟩ := ok_of_bind hok
    cases done
    · exact nomatch hok
    obtain ⟨⟨done, ironwood⟩, -, hok⟩ := ok_of_bind hok
    cases done
    · exact nomatch hok
    exact ⟨_, (Option.some.inj (Except.ok.inj hok)).symm⟩
  · exact nomatch hok

/-- The highest block at or below `maxHeight`. -/
theorem commonTruncationHeight_eq_some {maxHeight target : ℕ}
    (h : w.commonTruncationHeight maxHeight = some target) :
    target ≤ maxHeight ∧ target ∈ w.blocks := by
  obtain ⟨⟨k, md⟩, hlast, rfl⟩ := Option.map_eq_some_iff.mp h
  have hk := Std.ExtTreeMap.mem_toList_iff_getElem?_eq_some.mp (List.mem_of_getLast? hlast)
  refine le_of_mem_cut (m := w.blocks) ?_
  rw [← Std.ExtTreeMap.isSome_getElem?_iff_mem, hk]
  rfl

theorem lt_of_commonTruncationHeight {maxHeight k : ℕ} (h : w.commonTruncationHeight maxHeight = none)
    (hk : k ∈ w.blocks) : maxHeight < k := by
  by_contra hle
  obtain ⟨md, hmd⟩ := Option.isSome_iff_exists.mp (Std.ExtTreeMap.isSome_getElem?_iff_mem.mpr hk)
  have hcut : (cut w.blocks maxHeight)[k]? = some md := by
    rw [getElem?_cut, if_pos (Nat.le_of_not_lt hle), hmd]
  have hmem := Std.ExtTreeMap.mem_toList_iff_getElem?_eq_some.mpr hcut
  have hempty : (cut w.blocks maxHeight).toList.getLast? = none := Option.map_eq_none_iff.mp h
  rw [List.getLast?_eq_none_iff.mp hempty] at hmem
  exact nomatch hmem

/-- **A truncation that succeeds** finds nothing applied, or drops everything above the height it returns,
which is then the tip. -/
theorem truncateToHeight_ok (h : w.WellFormed) {maxHeight k : ℕ}
    (hok : w.truncateToHeight maxHeight = .ok (k, v)) :
    v = w ∨ ∃ trees, v = { w with trees := trees }.dropAppliedAbove k ∧ v.tip.blockHeight = k ∧
      k ≤ MAX_HEIGHT := by
  unfold truncateToHeight at hok
  rcases htarget : w.commonTruncationHeight maxHeight with - | target
  · simp only [htarget] at hok
    split_ifs at hok with hempty
    · exact .inl (Prod.mk.inj (Except.ok.inj hok)).2.symm
    unfold truncateToOrigin at hok
    split_ifs at hok with horigin
    obtain ⟨u, htrees, hok⟩ := ok_of_bind hok
    rcases u with - | u
    · exact nomatch hok
    obtain ⟨rfl, rfl⟩ := Prod.mk.inj (Except.ok.inj hok)
    obtain ⟨trees, rfl⟩ := tryTruncateTreesTo_ok htrees
    have habove := fun k => lt_of_commonTruncationHeight (k := k) htarget
    have hcut : (cut w.blocks w.seed.blockHeight).toList.getLast? = none := by
      refine Option.eq_none_iff_forall_ne_some.mpr fun ⟨k, md⟩ hlast => ?_
      have hk : k ≤ w.seed.blockHeight ∧ k ∈ w.blocks :=
        commonTruncationHeight_eq_some (Option.map_eq_some_iff.mpr ⟨(k, md), hlast, rfl⟩)
      exact absurd (hk.1.trans horigin) (Nat.not_le.mpr (habove k hk.2))
    refine .inr ⟨trees, rfl, ?_, ?_⟩
    · rw [tip_of_empty hcut]
      rfl
    · obtain ⟨k, hk⟩ : ∃ k : ℕ, k ∈ w.blocks := by
        by_contra hnone
        exact hempty (Std.ExtTreeMap.isEmpty_iff.mpr
          (Std.ExtTreeMap.eq_empty_iff_forall_not_mem.mpr fun k hk => hnone ⟨k, hk⟩))
      have hbound := (h.le_tip hk).trans h.bounded
      have hlt := habove k hk
      omega
  · simp only [htarget] at hok
    obtain ⟨u, htrees, hok⟩ := ok_of_bind hok
    rcases u with - | u
    · exact nomatch hok
    obtain ⟨rfl, rfl⟩ := Prod.mk.inj (Except.ok.inj hok)
    obtain ⟨trees, rfl⟩ := tryTruncateTreesTo_ok htrees
    obtain ⟨-, happlied⟩ := commonTruncationHeight_eq_some htarget
    refine .inr ⟨trees, rfl, ?_, (h.le_tip happlied).trans h.bounded⟩
    obtain ⟨md, hmd⟩ := Option.isSome_iff_exists.mp (Std.ExtTreeMap.isSome_getElem?_iff_mem.mpr happlied)
    have hlatest : latest (cut w.blocks target) = some md := by
      refine latest_eq_some_of (k := target) ?_ fun j hj => (le_of_mem_cut hj).1
      rw [getElem?_cut, if_pos le_rfl, hmd]
    change ((latest (cut w.blocks target)).getD w.seed).blockHeight = target
    rw [hlatest]
    exact h.keyed target md hmd

theorem WellFormed.truncateToHeight (h : w.WellFormed) {maxHeight k : ℕ}
    (hok : w.truncateToHeight maxHeight = .ok (k, v)) : v.WellFormed := by
  rcases truncateToHeight_ok h hok with rfl | ⟨trees, rfl, htip, hmax⟩
  · exact h
  · exact (h.with_rest trees w.zebraTip w.trustedTransactions w.locks).dropAppliedAbove htip hmax

/-! ### Runs -/

theorem WellFormed.step (h : w.WellFormed) {op : Op X} (hop : Grounded w op) (hv : step w op = some v) :
    v.WellFormed := by
  cases op with
  | putBlocks fromTip blocks marks => exact h.putBlocksMarked (ok_of_toOption hv)
  | nameNote a => exact h.storeNameNote (ok_of_toOption hv)
  | toBeSent transactions =>
    cases hv
    exact h.storeTransactionsToBeSent transactions
  | decrypted received =>
    cases hv
    exact h.storeDecryptedTx hop
  | status txid status =>
    cases hv
    exact h.setTransactionStatus hop.1 hop.2
  | trust txid trusted =>
    cases hv
    exact h.with_rest w.trees w.zebraTip _ w.locks
  | lock outputs owner expiry =>
    obtain ⟨locks, rfl⟩ := lockOutputs_ok (ok_of_toOption hv)
    exact h.with_rest w.trees w.zebraTip w.trustedTransactions locks
  | unlock output owner =>
    obtain ⟨locks, hlocks⟩ := unlockOutput_eq w output owner
    obtain rfl : { w with locks := locks } = v := hlocks.symm.trans (Option.some.inj hv)
    exact h.with_rest w.trees w.zebraTip w.trustedTransactions locks
  | clearLocks account =>
    cases hv
    exact h.with_rest w.trees w.zebraTip w.trustedTransactions _
  | truncate maxHeight =>
    obtain ⟨⟨k, u⟩, hu, rfl⟩ := Option.map_eq_some_iff.mp hv
    exact h.truncateToHeight (ok_of_toOption hu)

/-- **In every run the tables agree.** -/
theorem WellFormed.run (h : w.WellFormed) {ops : List (Op X)} (hops : Along Wallet.step Grounded w ops)
    (hrun : Lib.Machine.run Wallet.step w ops = some v) : v.WellFormed :=
  run_invariant (fun _ _ _ hs hop hstep => hs.step hop hstep) ops w v h hops hrun

end ZnsMint.Wallet
