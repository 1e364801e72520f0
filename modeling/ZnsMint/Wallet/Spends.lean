import ZnsMint.Wallet.Rollback

/-! # The spends of stored transactions

A transaction that is built here is recorded as the spender of its inputs, and stays so across every
truncation that keeps them. Two ways are left around the record: a note that arrives, for the first time
or again, after a transaction that spends it was stored; and a transaction that is stored because it was
seen. Along the runs that take neither, the inputs of a stored transaction stay blocked. -/

namespace ZnsMint.Wallet

open Basic Lib.Tables Lib.Checkpoints Lib.Machine

variable {X : Backend} {w v : Wallet X} {p : OwnedPool} {txid : TxId} {id : NoteId}

/-! ### What a run must not do -/

/-- The note `id` does not newly arrive under a nullifier that the stored transaction `txid` reveals. -/
def ArrivesFirst (p : OwnedPool) (txid : TxId) (id : NoteId) (w : Wallet X) (nf : Nullifier) : Prop :=
  (w.lanes p).nullifiers nf = some id ∨ ∀ tx ∈ w.transactions txid, nf ∉ tx.nullifiers p

/-- The call leaves no spend of `id` by `txid` off the record: it does not bring the note after the
transaction, and a transaction it stores because it was seen has its spend of the note on record. -/
def SpendKnown (p : OwnedPool) (txid : TxId) (id : NoteId) (w : Wallet X) : Op X → Prop
  | .putBlocks _ blocks _ => ∀ block ∈ blocks, ∀ tx ∈ block.transactions, ∀ output ∈ tx.outputs p,
      tx.noteId p output = id → ∀ nf ∈ output.nf, ArrivesFirst p txid id w nf
  | .nameNote a => p = .ironwood → a.noteId = id → ArrivesFirst p txid id w a.nullifier
  | .decrypted received => received.tx.txid = txid →
      ∀ nf ∈ received.tx.nullifiers p, (w.lanes p).nullifiers nf = some id →
        (w.lanes p).noteSpends id ≠ none
  | _ => True

/-- No transaction but `txid` has a spend of the note on record. -/
def OnlySpender (p : OwnedPool) (txid : TxId) (id : NoteId) (w : Wallet X) : Prop :=
  ∀ spender ∈ (w.lanes p).noteSpends id, spender = txid

instance (p : OwnedPool) (txid : TxId) (id : NoteId) (w : Wallet X) (nf : Nullifier) :
    Decidable (ArrivesFirst p txid id w nf) :=
  inferInstanceAs (Decidable (_ ∨ _))

instance (p : OwnedPool) (txid : TxId) (id : NoteId) (w : Wallet X) :
    ∀ op, Decidable (SpendKnown p txid id w op)
  | .putBlocks _ blocks _ => inferInstanceAs (Decidable (∀ block ∈ blocks, ∀ tx ∈ block.transactions,
      ∀ output ∈ tx.outputs p, tx.noteId p output = id → ∀ nf ∈ output.nf, ArrivesFirst p txid id w nf))
  | .nameNote a => inferInstanceAs (Decidable
    (p = .ironwood → a.noteId = id → ArrivesFirst p txid id w a.nullifier))
  | .decrypted received => inferInstanceAs (Decidable (received.tx.txid = txid →
      ∀ nf ∈ received.tx.nullifiers p, (w.lanes p).nullifiers nf = some id →
        (w.lanes p).noteSpends id ≠ none))
  | .toBeSent _ => isTrue trivial
  | .status .. => isTrue trivial
  | .trust .. => isTrue trivial
  | .lock .. => isTrue trivial
  | .unlock .. => isTrue trivial
  | .clearLocks _ => isTrue trivial
  | .truncate _ => isTrue trivial

instance (w : Wallet X) (height : ℕ) : Decidable (w.Retained height) :=
  decidable_of_iff (X.getCheckpoint (w.trees .sapling) height = true ∧
    X.getCheckpoint (w.trees .orchard) height = true ∧ X.getCheckpoint (w.trees .ironwood) height = true)
    ⟨fun h pool => by cases pool <;> simp [h], fun h => ⟨h .sapling, h .orchard, h .ironwood⟩⟩

instance (p : OwnedPool) (txid : TxId) (id : NoteId) (w : Wallet X) :
    Decidable (OnlySpender p txid id w) :=
  inferInstanceAs (Decidable (∀ spender ∈ (w.lanes p).noteSpends id, spender = txid))

/-! ### The record -/

/-- A spend of the note is on record, wherever one of these nullifiers identifies it. -/
def Lane.OnRecord (nfs : List Nullifier) (id : NoteId) (lane : Lane X) : Prop :=
  ∀ nf ∈ nfs, lane.nullifiers nf = some id → (lane.noteSpends id).isSome = true

/-- The spend of the note by `txid`, if it is stored and spends it, is on record. -/
def OnRecord (p : OwnedPool) (txid : TxId) (id : NoteId) (w : Wallet X) : Prop :=
  ∀ tx, w.transactions txid = some tx → (w.lanes p).OnRecord (tx.nullifiers p) id

namespace Lane

variable {lane : Lane X} {nfs : List Nullifier}

theorem isSome_spend {spender : TxId} {nf : Nullifier} (h : (lane.noteSpends id).isSome = true) :
    ((lane.spend spender nf).noteSpends id).isSome = true := by
  unfold spend
  split
  · rename_i id' _
    by_cases hid : id = id'
    · subst hid
      simp
    · change (lane.noteSpends.insert id' spender id).isSome = true
      rwa [Table.insert_of_ne hid]
  · exact h

theorem isSome_spends {spender : TxId} (l : List Nullifier) (h : (lane.noteSpends id).isSome = true) :
    ((l.foldl (Lane.spend spender) lane).noteSpends id).isSome = true :=
  List.foldlRecOn l _ (motive := fun lane : Lane X => (lane.noteSpends id).isSome = true) h
    fun _ h _ _ => isSome_spend h

theorem nullifiers_spends {spender : TxId} (l : List Nullifier) (lane : Lane X) :
    (l.foldl (Lane.spend spender) lane).nullifiers = lane.nullifiers :=
  List.foldlRecOn l _ (motive := fun lane' : Lane X => lane'.nullifiers = lane.nullifiers) rfl
    fun _ h nf _ => (nullifiers_spend spender nf).trans h

/-- A nullifier in the list puts a spend of its note on record. -/
theorem isSome_of_mem_spends {spender : TxId} {l : List Nullifier} {nf : Nullifier} (hnf : nf ∈ l)
    (hid : lane.nullifiers nf = some id) : ((l.foldl (Lane.spend spender) lane).noteSpends id).isSome =
    true := by
  induction l generalizing lane with
  | nil => exact nomatch hnf
  | cons nf' l ih =>
    rw [List.foldl_cons]
    rcases List.mem_cons.mp hnf with rfl | hnf
    · refine isSome_spends l ?_
      have hspend : (lane.spend spender nf).noteSpends = lane.noteSpends.insert id spender := by
        unfold Lane.spend
        rw [hid]
      rw [hspend, Table.insert_same]
      rfl
    · exact ih hnf (by rw [nullifiers_spend, hid])

theorem OnRecord.spend (h : lane.OnRecord nfs id) (spender : TxId) (nf : Nullifier) :
    (lane.spend spender nf).OnRecord nfs id := by
  intro nf' hnf' hid
  rw [nullifiers_spend] at hid
  exact isSome_spend (h nf' hnf' hid)

/-- A note received under a nullifier of the list has a spend on record already. -/
theorem OnRecord.receive (h : lane.OnRecord nfs id) {id' : NoteId} {output : WalletOutput X}
    (hnew : id' = id → ∀ nf ∈ output.nf, nf ∈ nfs → (lane.noteSpends id).isSome = true) :
    (lane.receive id' output).OnRecord nfs id := by
  intro nf hnf hid
  change (lane.noteSpends id).isSome = true
  unfold Lane.receive at hid
  rcases houtput : output.nf with - | nf'
  · simp only [houtput] at hid
    exact h nf hnf hid
  · simp only [houtput] at hid
    rcases Table.insert_eq_some.mp hid with ⟨rfl, hsame⟩ | ⟨-, hold⟩
    · exact hnew hsame nf houtput hnf
    · exact h nf hnf hold

theorem noteSpends_of_dropOrphaned {orphaned scannedOnly : TxId → Bool} {spender : TxId}
    (h : (lane.dropOrphaned orphaned scannedOnly).noteSpends id = some spender) :
    lane.noteSpends id = some spender :=
  (Table.retain_eq_some (t := lane.noteSpends) (p := fun id txid =>
    (lane.notes.retain (fun id _ => !orphaned id.txid) id).isSome && !scannedOnly txid)).mp h |>.1

/-- What is dropped with the orphaned transactions takes no record of a note that stays, where the one
spender on record is not only scanned. -/
theorem OnRecord.dropOrphaned {mined known : TxId → Prop} {orphaned scannedOnly : TxId → Bool}
    (h : lane.OnRecord nfs id) (hlane : lane.Sound mined known p)
    (hspender : ∀ spender ∈ lane.noteSpends id, scannedOnly spender = false) :
    (lane.dropOrphaned orphaned scannedOnly).OnRecord nfs id := by
  intro nf hnf hid
  obtain ⟨hid, hkept⟩ :=
    (Table.retain_eq_some (t := lane.nullifiers) (p := fun _ (id : NoteId) => !orphaned id.txid)).mp hid
  obtain ⟨output, houtput⟩ := Option.isSome_iff_exists.mp (hlane.nullifiers nf id hid)
  obtain ⟨spender, hspend⟩ := Option.isSome_iff_exists.mp (h nf hnf hid)
  have hheld : (lane.notes.retain (fun id _ => !orphaned id.txid) id).isSome = true :=
    Table.retain_isSome_of (p := fun id _ => !orphaned id.txid) houtput hkept
  refine Table.retain_isSome_of (p := fun id txid =>
    (lane.notes.retain (fun id _ => !orphaned id.txid) id).isSome && !scannedOnly txid) hspend ?_
  rw [hheld, hspender spender hspend]
  rfl

end Lane

/-! ### The record along a run -/

/-- `v` comes from `w` with the raw transactions as they were and, if `w` has a spend of the note on
record, with one too. -/
structure Tracks (p : OwnedPool) (txid : TxId) (id : NoteId) (w v : Wallet X) : Prop where
  transactions : v.transactions = w.transactions
  onRecord : OnRecord p txid id v
  kept : ((w.lanes p).noteSpends id).isSome = true → ((v.lanes p).noteSpends id).isSome = true

namespace Tracks

theorem receiveTx (h : OnRecord p txid id w) (hv : Tracks p txid id w v) {tx : WalletTx X} (height : ℕ)
    (htx : ∀ output ∈ tx.outputs p, tx.noteId p output = id →
    ∀ nf ∈ output.nf, ArrivesFirst p txid id w nf) :
    Tracks p txid id w (receiveTx height v tx) := by
  have hlane : ∀ raw, w.transactions txid = some raw → ((Wallet.receiveTx height v tx).lanes p).OnRecord
      (raw.nullifiers p) id ∧ ((Wallet.receiveTx height v tx).lanes p).noteSpends =
        (v.lanes p).noteSpends := by
    intro raw hraw
    refine List.foldlRecOn (tx.outputs p) _ (motive := fun lane : Lane X =>
      lane.OnRecord (raw.nullifiers p) id ∧ lane.noteSpends = (v.lanes p).noteSpends)
      ⟨hv.onRecord raw (by rw [hv.transactions, hraw]), rfl⟩ ?_
    rintro lane ⟨hlane, hsame⟩ output houtput
    refine ⟨hlane.receive fun hid nf hnf hreveals => ?_, hsame⟩
    rw [hsame]
    rcases htx output houtput hid nf hnf with hheld | hnot
    · exact hv.kept (h raw hraw nf hreveals hheld)
    · exact absurd hreveals (hnot raw hraw)
  have hspends : ((Wallet.receiveTx height v tx).lanes p).noteSpends = (v.lanes p).noteSpends :=
    List.foldlRecOn (tx.outputs p) _
      (motive := fun lane : Lane X => lane.noteSpends = (v.lanes p).noteSpends) rfl fun _ hlane _ _ =>
        hlane
  refine ⟨hv.transactions, fun raw hraw => (hlane raw ?_).1, fun hspend => ?_⟩
  · rw [← hv.transactions]
    exact hraw
  · rw [hspends]
    exact hv.kept hspend

theorem spendTx (hv : Tracks p txid id w v) (tx : WalletTx X) : Tracks p txid id w (spendTx v tx) where
  transactions := hv.transactions
  onRecord raw hraw := List.foldlRecOn (tx.spends p) _
    (motive := fun lane : Lane X => lane.OnRecord (raw.nullifiers p) id) (hv.onRecord raw hraw)
    fun _ hlane nf _ => hlane.spend tx.txid nf
  kept hspend := Lane.isSome_spends _ (hv.kept hspend)

theorem applyBlock (h : OnRecord p txid id w) (hv : Tracks p txid id w v) {block : ScannedBlock X}
    (hblock : ∀ tx ∈ block.transactions, ∀ output ∈ tx.outputs p, tx.noteId p output = id →
      ∀ nf ∈ output.nf, ArrivesFirst p txid id w nf) : Tracks p txid id w (v.applyBlock block) := by
  have hreceived := List.foldlRecOn block.transactions (Wallet.receiveTx block.height)
    (motive := fun v : Wallet X => Tracks p txid id w v) hv
    fun _ hv tx htx => hv.receiveTx h block.height (hblock tx htx)
  have hspent := List.foldlRecOn block.transactions Wallet.spendTx
    (motive := fun v : Wallet X => Tracks p txid id w v) hreceived fun _ hv tx _ => hv.spendTx tx
  exact ⟨hspent.transactions, hspent.onRecord, hspent.kept⟩

end Tracks

theorem OnRecord.putBlocksMarked (h : OnRecord p txid id w) (hw : w.WellFormed) {fromTip : BlockMetadata}
    {blocks : List (ScannedBlock X)} {marks : List X.Node}
    (hop : SpendKnown p txid id w (.putBlocks fromTip blocks marks))
    (hok : w.putBlocksMarked fromTip blocks marks = .ok v) : OnRecord p txid id v := by
  rcases putBlocksMarked_ok hw hok with ⟨-, rfl⟩ | ⟨-, -, trees, zebraTip, rfl⟩
  · exact h
  · exact (List.foldlRecOn blocks Wallet.applyBlock (motive := fun v : Wallet X => Tracks p txid id w v)
      (b := { w with trees := trees }) ⟨rfl, h, fun hspend => hspend⟩
      fun _ hv block hblock => hv.applyBlock h (hop block hblock)).onRecord

theorem OnRecord.storeNameNote (h : OnRecord p txid id w) {a : NameNoteArgs X}
    (hop : SpendKnown p txid id w (.nameNote a))
    (hok : w.storeNameNote a = .ok v) : OnRecord p txid id v := by
  obtain ⟨-, -, -, rfl | ⟨-, rfl⟩⟩ := storeNameNote_ok hok
  · exact h
  intro raw hraw
  change ((w.setLane .ironwood _).lanes p).OnRecord (raw.nullifiers p) id
  rw [lanes_setLane]
  split_ifs with hp
  · subst hp
    refine (h raw hraw).receive fun hid nf hnf hreveals => ?_
    obtain rfl : a.nullifier = nf := Option.some.inj hnf
    rcases hop rfl hid with hheld | hnot
    · exact h raw hraw a.nullifier hreveals hheld
    · exact absurd hreveals (hnot raw hraw)
  · exact h raw hraw

theorem lanes_recordSpends (q : OwnedPool) (spender : TxId) (nfs : List Nullifier) (w : Wallet X)
    (p : OwnedPool) :
    (nfs.foldl (recordSpend q spender) w).lanes p =
      if p = q then nfs.foldl (Lane.spend spender) (w.lanes p) else w.lanes p := by
  induction nfs generalizing w with
  | nil => simp
  | cons nf nfs ih =>
    rw [List.foldl_cons, ih, lanes_recordSpend, List.foldl_cons]
    split_ifs with hp
    · rw [hp]
    · rfl

theorem transactions_recordSpends (q : OwnedPool) (spender : TxId) (nfs : List Nullifier) (w : Wallet X) :
    (nfs.foldl (recordSpend q spender) w).transactions = w.transactions := by
  induction nfs generalizing w with
  | nil => rfl
  | cons nf nfs ih =>
    obtain ⟨lanes, locks, hframe⟩ := recordSpend_frame q spender w nf
    rw [List.foldl_cons, ih, hframe]

/-- The tables of a pool after a built transaction: its spends of that pool are recorded. -/
theorem lanes_storeTransactionToBeSent (w : Wallet X) (sent : SentTransaction) (p : OwnedPool) :
    (w.storeTransactionToBeSent sent).lanes p =
      (sent.tx.nullifiers p).foldl (Lane.spend sent.tx.txid) (w.lanes p) := by
  rw [storeTransactionToBeSent_eq, lanes_recordSpends, lanes_recordSpends]
  cases p with
  | sapling => rfl
  | ironwood => rfl

theorem transactions_storeTransactionToBeSent (w : Wallet X) (sent : SentTransaction) :
    (w.storeTransactionToBeSent sent).transactions = w.transactions.insert sent.tx.txid sent.tx := by
  rw [storeTransactionToBeSent_eq, transactions_recordSpends, transactions_recordSpends]
  rfl

/-- **A built transaction is put on record** as the spender of every input held. -/
theorem OnRecord.storeTransactionToBeSent (h : OnRecord p txid id w) (sent : SentTransaction) :
    OnRecord p txid id (w.storeTransactionToBeSent sent) := by
  intro raw hraw
  rw [lanes_storeTransactionToBeSent]
  rw [transactions_storeTransactionToBeSent] at hraw
  rcases Table.insert_eq_some.mp hraw with ⟨-, rfl⟩ | ⟨-, hraw⟩
  · intro nf hnf hid
    rw [Lane.nullifiers_spends] at hid
    exact Lane.isSome_of_mem_spends hnf hid
  · exact List.foldlRecOn (sent.tx.nullifiers p) _
      (motive := fun lane : Lane X => lane.OnRecord (raw.nullifiers p) id) (h raw hraw)
      fun _ hlane nf _ => hlane.spend sent.tx.txid nf

theorem OnRecord.storeDecryptedTx (h : OnRecord p txid id w) {received : DecryptedTransaction}
    (hop : SpendKnown p txid id w (.decrypted received)) :
    OnRecord p txid id (w.storeDecryptedTx received) := by
  intro raw hraw
  change w.transactions.insert received.tx.txid received.tx txid = some raw at hraw
  change (w.lanes p).OnRecord (raw.nullifiers p) id
  rcases Table.insert_eq_some.mp hraw with ⟨htxid, rfl⟩ | ⟨-, hraw⟩
  · intro nf hnf hid
    exact Option.isSome_iff_ne_none.mpr (hop htxid.symm nf hnf hid)
  · exact h raw hraw

/-- **The record survives a rollback** that keeps the note. -/
theorem OnRecord.truncateToHeight (h : OnRecord p txid id w) (hw : w.WellFormed)
    (honly : OnlySpender p txid id w)
    {maxHeight k : ℕ} (hok : w.truncateToHeight maxHeight = .ok (k, v)) : OnRecord p txid id v := by
  rcases truncateToHeight_ok hw hok with rfl | ⟨trees, rfl, -, -⟩
  · exact h
  intro raw hraw
  refine (h raw hraw).dropOrphaned (hw.lanes p) fun spender hspender => ?_
  rw [honly spender hspender]
  have hkept : w.transactions txid = some raw := hraw
  simp [hkept]

theorem OnRecord.step (h : OnRecord p txid id w) (hw : w.WellFormed) {op : Op X}
    (hop : SpendKnown p txid id w op)
    (honly : OnlySpender p txid id w) (hv : step w op = some v) : OnRecord p txid id v := by
  cases op with
  | putBlocks fromTip blocks marks => exact h.putBlocksMarked hw hop (ok_of_toOption hv)
  | nameNote a => exact h.storeNameNote hop (ok_of_toOption hv)
  | toBeSent transactions =>
    cases hv
    exact List.foldlRecOn transactions _ (motive := fun w : Wallet X => OnRecord p txid id w) h
      fun _ hw sent _ => hw.storeTransactionToBeSent sent
  | decrypted received =>
    cases hv
    exact h.storeDecryptedTx hop
  | status txid' status =>
    cases hv
    exact h
  | trust txid' trusted =>
    cases hv
    exact h
  | lock outputs owner expiry =>
    obtain ⟨locks, rfl⟩ := lockOutputs_ok (ok_of_toOption hv)
    exact h
  | unlock output owner =>
    obtain ⟨locks, hlocks⟩ := unlockOutput_eq w output owner
    obtain rfl : { w with locks := locks } = v := hlocks.symm.trans (Option.some.inj hv)
    exact h
  | clearLocks account =>
    cases hv
    exact h
  | truncate maxHeight =>
    obtain ⟨⟨k, u⟩, hu, rfl⟩ := Option.map_eq_some_iff.mp hv
    exact h.truncateToHeight hw honly (ok_of_toOption hu)

theorem OnRecord.run {ops : List (Op X)} (h : OnRecord p txid id w) (hw : w.WellFormed)
    (hops : Along Wallet.step Grounded w ops)
    (hknown : Along Wallet.step (fun v op => SpendKnown p txid id v op ∧ OnlySpender p txid id v) w ops)
    (hrun : Lib.Machine.run Wallet.step w ops = some v) : OnRecord p txid id v := by
  induction ops generalizing w with
  | nil =>
    cases hrun
    exact h
  | cons op ops ih =>
    obtain ⟨u, hu, hrun⟩ := run_cons hrun
    exact ih (h.step hw hknown.1.1 hknown.1.2 hu) (hw.step hops.1 hu) (hops.2 u hu) (hknown.2 u hu) hrun

theorem onlySpender_truncateToHeight (hw : w.WellFormed) (honly : OnlySpender p txid id w)
    {maxHeight k : ℕ}
    (hok : w.truncateToHeight maxHeight = .ok (k, v)) : OnlySpender p txid id v := by
  rcases truncateToHeight_ok hw hok with rfl | ⟨trees, rfl, -, -⟩
  · exact honly
  · intro spender hspender
    exact honly spender (Lane.noteSpends_of_dropOrphaned hspender)

/-- **A rollback forgets the abandoned branch, and keeps the inputs of stored transactions blocked.**
From every wallet a run reaches, the blocks of a branch whose transactions were only scanned are
forgotten by truncating to the height they start from. And where no call of the run left the spend of a
note by a stored transaction off the record, and no other transaction's spend of it is on record, a note
that survives any truncation cannot be selected through the transaction's expiry height. -/
theorem rollback_forgets (hX : TruncatesToCheckpoints X) {origin : BlockMetadata}
    (horigin : origin.blockHeight ≤ MAX_HEIGHT) (trees : ShieldedPool → X.Tree)
    (ends : ShieldedPool → Table (ℕ × ℕ) ℕ) (ops : List (Op X)) {w : Wallet X}
    (hops : Along step Grounded (new origin trees ends) ops)
    (hrun : run step (new origin trees ends) ops = some w) :
    (∀ (branch : List (Op X)) (v : Wallet X), (∀ op ∈ branch, OfBranch w op) →
    run step w branch = some v →
      v.Retained w.tip.blockHeight →
      ∃ u, v.truncateToHeight w.tip.blockHeight = .ok (w.tip.blockHeight, u) ∧ Restored w u) ∧
    ∀ (p : OwnedPool) (txid : TxId) (id : NoteId),
      Along step (fun v op => SpendKnown p txid id v op ∧ OnlySpender p txid id v)
        (new origin trees ends) ops →
      OnlySpender p txid id w →
      ∀ (maxHeight k : ℕ) (u : Wallet X), w.truncateToHeight maxHeight = .ok (k, u) →
      ∀ tx, u.transactions txid = some tx → ∀ nf ∈ tx.nullifiers p, (u.lanes p).nullifiers nf = some id →
      ∀ target ≤ tx.expiryHeight, u.noteIsSpent p id target = true ∧
        ∀ account confirmationsPolicy exclude lockFilter,
          u.eligible p account target confirmationsPolicy exclude lockFilter id = none := by
  have hnew : (new origin trees ends : Wallet X).WellFormed := wellFormed_new horigin trees ends
  have hw : w.WellFormed := hnew.run hops hrun
  refine ⟨fun branch v hbranch hv hretained => ?_, ?_⟩
  · exact (OnBranch.run hw hbranch hv).truncateToHeight hX hw hretained
  · intro p txid id hknown honly maxHeight k u hu tx htx nf hnf hid target htarget
    have hempty : OnRecord p txid id (new origin trees ends) := by
      intro raw hraw
      simp [new] at hraw
    have hrecord : OnRecord p txid id w := hempty.run hnew hops hknown hrun
    have hrecord' : OnRecord p txid id u := hrecord.truncateToHeight hw honly hu
    obtain ⟨spender, hspender⟩ := Option.isSome_iff_exists.mp (hrecord' tx htx nf hnf hid)
    obtain rfl : spender = txid := onlySpender_truncateToHeight hw honly hu spender hspender
    have hspent : u.noteIsSpent p id target = true := noteIsSpent_of_recorded hspender htx htarget
    exact ⟨hspent, eligible_of_spent hspent⟩

/-! ### One wallet -/

/-- The checkpoint an append asks for. -/
def sampleCheckpoint (size : ℕ) : Retention → Option (ℕ × ℕ)
  | .checkpoint height _ => some (height, size)
  | _ => none

/-- Trees as lists of leaves with their checkpoints, none of them pruned: a checkpoint is a height and the
number of leaves below it, a root is the list of the leaves, and a path the leaves on either side. -/
def sampleBackend : Backend where
  Note := ℕ
  Node := List ℕ
  Path := List ℕ × List ℕ
  Tree := List ℕ × List (ℕ × ℕ)
  TreeError := Unit
  Memo := Unit
  decNote := inferInstance
  decNode := inferInstance
  decMemo := inferInstance
  append tree leaf retention := .ok (tree.1 ++ leaf, tree.2 ++
    (sampleCheckpoint (tree.1.length + 1) retention).toList)
  maxLeafPosition tree := .ok (if tree.1.isEmpty then none else some (tree.1.length - 1))
  getCheckpoint tree height := tree.2.any fun c => c.1 == height
  maxCheckpointId tree := tree.2.getLast?.map Prod.fst
  checkpoint tree height := .ok (true, (tree.1, tree.2 ++ [(height, tree.1.length)]))
  truncateToCheckpoint tree height := .ok <|
    match tree.2.find? fun c => c.1 == height with
    | some c => (true, (tree.1.take c.2, tree.2.filter fun c => decide (c.1 ≤ height)))
    | none => (false, tree)
  witnessAtCheckpointId tree position height := .ok <|
    (tree.2.find? fun c => c.1 == height).map fun c =>
    (tree.1.take position, (tree.1.take c.2).drop (position + 1))
  rootAtCheckpointId tree height := .ok ((tree.2.find? fun c => c.1 == height).map fun c =>
    tree.1.take c.2)
  pathRoot path leaf := path.1 ++ leaf ++ path.2
  znsCmx note _ _ := some [note]
  memoFromBytes _ := some ()
  memoFuture _ := ()

theorem sampleBackend_truncates : TruncatesToCheckpoints sampleBackend := by
  intro tree height h
  obtain ⟨c, hc, hheight⟩ := List.any_eq_true.mp h
  rcases hfind : tree.2.find? fun c => c.1 == height with - | c'
  · exact absurd hheight (List.find?_eq_none.mp hfind c hc)
  · refine ⟨(tree.1.take c'.2, tree.2.filter fun c => decide (c.1 ≤ height)), ?_⟩
    change Except.ok _ = _
    rw [hfind]
    rfl

def sampleTxid (n : ℕ) : TxId := ⟨Vector.replicate 32 n.toUInt8⟩

/-- A Sapling note of the Treasury account, created by transaction 1 and spent by transaction 2. -/
def sampleNote : WalletOutput sampleBackend where
  index := 0
  ephemeralKey := Vector.replicate 32 0
  note := (7 : ℕ)
  isChange := false
  noteCommitmentTreePosition := 0
  nf := some ⟨11⟩
  accountId := 0
  recipientKeyScope := some .external

def sampleId : NoteId := ⟨sampleTxid 1, .sapling, 0⟩

/-- The transaction that creates the note. -/
def sampleFunding : WalletTx sampleBackend where
  txid := sampleTxid 1
  blockIndex := 1
  outputs := fun | .sapling => [sampleNote] | .ironwood => []
  spends := fun _ => []
  orchardOutputs := []

/-- A transaction of the branch that is only scanned, and spends the note. -/
def sampleScanned : WalletTx sampleBackend where
  txid := sampleTxid 3
  blockIndex := 1
  outputs := fun _ => []
  spends := fun | .sapling => [⟨11⟩] | .ironwood => []
  orchardOutputs := []

/-- The transaction built here, which expires at height 40. -/
def samplePayment : SentTransaction where
  tx := ⟨sampleTxid 2, 40, fun | .sapling => [⟨11⟩] | .ironwood => []⟩
  outputs := []

/-- A block with these transactions. The Sapling tree holds the funding's one output from height 1 on. -/
def sampleBlock (height hash : ℕ) (transactions : List (WalletTx sampleBackend)) :
    ScannedBlock sampleBackend where
  height := height
  blockHash := Vector.replicate 32 hash.toUInt8
  transactions := transactions
  bundles
    | .sapling => ⟨if height = 1 then [([7], .checkpoint 1 .marked)] else [], 1⟩
    | _ => ⟨[], 0⟩

def sampleOrigin : BlockMetadata := ⟨0, Vector.replicate 32 0, some 0, some 0, some 0⟩

def sampleNew : Wallet sampleBackend :=
  new sampleOrigin (fun _ => ([], [(0, 0)])) fun _ => .empty

def samplePut (fromTip : BlockMetadata) (block : ScannedBlock sampleBackend) : Op sampleBackend :=
  .putBlocks fromTip [block] []

/-- The wallet once the note has arrived. -/
def sampleFunded : Wallet sampleBackend :=
  (run step sampleNew [samplePut sampleOrigin (sampleBlock 1 1 [sampleFunding])]).get (by decide +kernel)

/-- The wallet after a branch on top of it, whose one transaction spends the note. -/
def sampleBranched : Wallet sampleBackend :=
  (run step sampleFunded [samplePut (sampleBlock 1 1 []).toBlockMetadata
    (sampleBlock 2 2 [sampleScanned])]).get
    (by decide +kernel)

/-- The note arrives, the payment that spends it is built, and a block follows. -/
def sampleOps : List (Op sampleBackend) :=
  [samplePut sampleOrigin (sampleBlock 1 1 [sampleFunding]), .toBeSent [samplePayment],
    samplePut (sampleBlock 1 1 []).toBlockMetadata (sampleBlock 2 2 [])]

def sampleSent : Wallet sampleBackend := (run step sampleNew sampleOps).get (by decide +kernel)

def sampleRewound : ℕ × Wallet sampleBackend :=
  (sampleSent.truncateToHeight 1).toOption.get (by decide +kernel)

def sampleStored : Transaction := (sampleRewound.2.transactions (sampleTxid 2)).get (by decide +kernel)

theorem rollback_forgets_payment :
    (∃ u, sampleBranched.truncateToHeight sampleFunded.tip.blockHeight =
    .ok (sampleFunded.tip.blockHeight, u) ∧
      Restored sampleFunded u) ∧
    sampleRewound.2.noteIsSpent .sapling sampleId 40 = true := by
  constructor
  · have horigin : sampleOrigin.blockHeight ≤ MAX_HEIGHT := by decide
    refine (rollback_forgets sampleBackend_truncates horigin _ _
      [samplePut sampleOrigin (sampleBlock 1 1 [sampleFunding])] ⟨trivial, fun _ _ => trivial⟩
      (Option.some_get _).symm).1
      [samplePut (sampleBlock 1 1 []).toBlockMetadata (sampleBlock 2 2 [sampleScanned])] sampleBranched ?_
      (Option.some_get _).symm ?_
    · intro op hop
      obtain rfl := List.mem_singleton.mp hop
      intro block hblock
      obtain rfl := List.mem_singleton.mp hblock
      refine ⟨by decide +kernel, fun tx htx => ?_⟩
      obtain rfl := List.mem_singleton.mp htx
      refine ⟨Option.isNone_iff_eq_none.mp (by decide +kernel), ?_, by decide +kernel,
        fun p output houtput => ?_⟩
      · rintro (_ | _)
        · decide +kernel
        · decide +kernel
      · cases p <;> exact nomatch houtput
    · rintro (_ | _ | _)
      · decide +kernel
      · decide +kernel
      · decide +kernel
  · have hok : sampleSent.truncateToHeight 1 = .ok (sampleRewound.1, sampleRewound.2) :=
      ok_of_toOption (Option.some_get _).symm
    have horigin : sampleOrigin.blockHeight ≤ MAX_HEIGHT := by decide
    exact ((rollback_forgets sampleBackend_truncates horigin _ _ sampleOps
      ⟨trivial, fun _ _ => ⟨trivial, fun _ _ => ⟨trivial, fun _ _ => trivial⟩⟩⟩
        (Option.some_get _).symm).2
      .sapling (sampleTxid 2) sampleId (by decide +kernel) (by decide +kernel) 1 _ _ hok _
      (show _ = some sampleStored from (Option.some_get _).symm) ⟨11⟩ (by decide +kernel)
        (by decide +kernel) 40 (by decide +kernel)).1

/-- The branch with the note and the payment is abandoned, and the next one brings the note again. -/
def sampleReorged : List (Op sampleBackend) :=
  [samplePut sampleOrigin (sampleBlock 1 1 [sampleFunding]), .toBeSent [samplePayment], .truncate 0,
    samplePut sampleOrigin (sampleBlock 1 3 [sampleFunding]),
    samplePut (sampleBlock 1 3 []).toBlockMetadata (sampleBlock 2 4 [])]

def sampleReturned : Wallet sampleBackend := (run step sampleNew sampleReorged).get (by decide +kernel)

def sampleKept : ℕ × Wallet sampleBackend := (sampleReturned.truncateToHeight 1).toOption.get
    (by decide +kernel)

/-- A rollback to a height that keeps the note: the payment that spends it is stored, unmined and good
until height 40, nothing else ever spent the note, and the note can be selected at height 2. -/
theorem rollback_forgets_rearrived :
    run step sampleNew sampleReorged = some sampleReturned ∧
    Along step (fun v _ => OnlySpender .sapling (sampleTxid 2) sampleId v) sampleNew sampleReorged ∧
    OnlySpender .sapling (sampleTxid 2) sampleId sampleReturned ∧
    sampleReturned.Retained 1 ∧ sampleReturned.truncateToHeight 1 = .ok (1, sampleKept.2) ∧
    ((sampleKept.2.transactions (sampleTxid 2)).any fun tx =>
      decide (⟨11⟩ ∈ tx.nullifiers .sapling) && decide (2 ≤ tx.expiryHeight)) = true ∧
    sampleKept.2.minedHeight (sampleTxid 2) = none ∧
    (sampleKept.2.lanes .sapling).nullifiers ⟨11⟩ = some sampleId ∧
    sampleKept.2.noteIsSpent .sapling sampleId 2 = false ∧
    (sampleKept.2.eligibleSapling 0 2 (some ⟨1, 1⟩) [] (.policy fun _ => false) sampleId).isSome =
    true := by
  have hheight : sampleKept.1 = 1 := by decide +kernel
  refine ⟨(Option.some_get _).symm, by decide +kernel, by decide +kernel, by decide +kernel, ?_,
    by decide +kernel, by decide +kernel, by decide +kernel, by decide +kernel, by decide +kernel⟩
  have hok : sampleReturned.truncateToHeight 1 = .ok (sampleKept.1, sampleKept.2) :=
    ok_of_toOption (Option.some_get _).symm
  rwa [hheight] at hok

end ZnsMint.Wallet
