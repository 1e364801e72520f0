import ZnsMint.Wallet.Write
import ZnsMint.Lib.Machine

/-! # What every run of the wallet keeps

The operations as steps of a machine, and the agreement of the tables that every run keeps
(`WellFormed`): what is mined is mined at the tip or below; a note held, a nullifier and a spend on record
belong to one another; what is on record of a transaction comes from a block that mined it or from its
raw form. Each operation is first said as what it does to the tables (`*_ok`), once. -/

namespace ZnsMint.Wallet

open Basic Lib.Tables Lib.Checkpoints Lib.Machine

variable {X : Backend} {w v : Wallet X}

/-! ### The machine -/

inductive Op (X : Backend) where
  | putBlocks (fromTip : BlockMetadata) (blocks : List (ScannedBlock X)) (marks : List X.Node)
  | nameNote (a : NameNoteArgs X)
  | toBeSent (transactions : List SentTransaction)
  | decrypted (received : DecryptedTransaction)
  | status (txid : TxId) (status : TransactionStatus)
  | trust (txid : TxId) (trusted : Bool)
  | lock (outputs : List OutputRef) (owner : LockOwner) (expiry : ℕ)
  | unlock (output : OutputRef) (owner : LockOwner)
  | clearLocks (account : AccountId)
  | truncate (maxHeight : ℕ)

/-- One call that succeeds. A call that fails changes nothing. -/
def step (w : Wallet X) : Op X → Option (Wallet X)
  | .putBlocks fromTip blocks marks => (w.putBlocksMarked fromTip blocks marks).toOption
  | .nameNote a => (w.storeNameNote a).toOption
  | .toBeSent transactions => some (w.storeTransactionsToBeSent transactions)
  | .decrypted received => some (w.storeDecryptedTx received)
  | .status txid status => some (w.setTransactionStatus txid status)
  | .trust txid trusted => some (w.setTxTrust txid trusted)
  | .lock outputs owner expiry => (w.lockOutputs outputs owner expiry).toOption
  | .unlock output owner => some (w.unlockOutput output owner)
  | .clearLocks account => some (w.clearLockedOutputs account)
  | .truncate maxHeight => (w.truncateToHeight maxHeight).toOption.map Prod.snd

/-- What the wallet is told of mined transactions, other than by a block, agrees with the blocks it has
applied: a decrypted transaction is not mined above the tip, and a status that is set by itself neither
mines a transaction nor takes a mined one back. The mint makes neither call. -/
def Grounded (w : Wallet X) : Op X → Prop
  | .decrypted received => ∀ m, received.minedHeight = some m → m ≤ w.tip.blockHeight
  | .status txid status => w.minedHeight txid = none ∧ ∀ m, status ≠ .mined m
  | _ => True

/-! ### Mined and known transactions -/

def Mined (w : Wallet X) (txid : TxId) : Prop := (w.minedHeight txid).isSome = true

/-- Mined, or kept in its raw form. -/
def Known (w : Wallet X) (txid : TxId) : Prop := w.Mined txid ∨ (w.transactions txid).isSome = true

theorem minedHeight_eq_some {txid : TxId} {m : ℕ} :
    w.minedHeight txid = some m ↔ w.transactionStatuses txid = some (.mined m) := by
  unfold minedHeight
  split <;> simp_all

theorem minedHeight_congr {txid : TxId} (h : v.transactionStatuses txid = w.transactionStatuses txid) :
    v.minedHeight txid = w.minedHeight txid := by
  unfold minedHeight
  rw [h]

theorem not_mined {txid : TxId} (h : w.minedHeight txid = none) : ¬ w.Mined txid := by
  unfold Mined
  rw [h]
  exact Bool.false_ne_true

theorem orphaned_iff {height : ℕ} {txid : TxId} :
    w.orphaned height txid = true ↔ ∃ m, w.minedHeight txid = some m ∧ height < m := by
  unfold orphaned minedHeight
  rcases w.transactionStatuses txid with - | ⟨m⟩ | - | - <;> simp

/-! ### The tables of one pool -/

/-- Every note is of the pool and mined, every nullifier identifies a note held, and every spend on record
is of a note held and by a known transaction. -/
structure Lane.Sound (mined known : TxId → Prop) (p : OwnedPool) (lane : Lane X) : Prop where
  notes : Every (fun id _ => id.pool = p.shielded ∧ mined id.txid) lane.notes
  nullifiers : Every (fun _ id => (lane.notes id).isSome = true) lane.nullifiers
  noteSpends : Every (fun id txid => (lane.notes id).isSome = true ∧ known txid) lane.noteSpends

namespace Lane

variable {mined known mined' known' : TxId → Prop} {p : OwnedPool} {lane : Lane X}

theorem Sound.mono (h : lane.Sound mined known p) (hmined : ∀ txid, mined txid → mined' txid)
    (hknown : ∀ txid, known txid → known' txid) : lane.Sound mined' known' p where
  notes := h.notes.mono fun id _ hid => ⟨hid.1, hmined id.txid hid.2⟩
  nullifiers := h.nullifiers
  noteSpends := h.noteSpends.mono fun _ txid hs => ⟨hs.1, hknown txid hs.2⟩

theorem notes_receive (lane : Lane X) (id : NoteId) (output : WalletOutput X) :
    (lane.receive id output).notes = lane.notes.insert id output := rfl

theorem isSome_receive {id id' : NoteId} {output : WalletOutput X} (h : (lane.notes id').isSome = true) :
    ((lane.receive id output).notes id').isSome = true := by
  rw [notes_receive]
  by_cases hid : id' = id
  · subst hid
    simp
  · rwa [Table.insert_of_ne hid]

theorem Sound.receive (h : lane.Sound mined known p) {id : NoteId} {output : WalletOutput X}
    (hpool : id.pool = p.shielded) (hmined : mined id.txid) :
    (lane.receive id output).Sound mined known p where
  notes := h.notes.insert ⟨hpool, hmined⟩
  nullifiers := by
    have hheld : Every (fun _ id' => ((lane.receive id output).notes id').isSome = true)
        lane.nullifiers :=
      h.nullifiers.mono fun _ _ => isSome_receive
    have hnew : ((lane.receive id output).notes id).isSome = true := by simp [Lane.receive]
    unfold Lane.receive at hheld hnew ⊢
    split
    · exact hheld.insert hnew
    · exact hheld
  noteSpends := h.noteSpends.mono fun _ _ hs => ⟨isSome_receive hs.1, hs.2⟩

theorem nullifiers_spend (txid : TxId) (nf : Nullifier) : (lane.spend txid nf).nullifiers =
    lane.nullifiers := by
  unfold spend
  split <;> rfl

theorem Sound.spend (h : lane.Sound mined known p) {txid : TxId} (hknown : known txid) (nf : Nullifier) :
    (lane.spend txid nf).Sound mined known p := by
  unfold Lane.spend
  split
  · rename_i id hid
    exact ⟨h.notes, h.nullifiers, h.noteSpends.insert ⟨h.nullifiers nf id hid, hknown⟩⟩
  · exact h

/-- What is left after the orphaned transactions: their notes go, with everything that names them. -/
theorem Sound.dropOrphaned (h : lane.Sound mined known p) {orphaned scannedOnly : TxId → Bool}
    (hmined : ∀ txid, mined txid → orphaned txid = false → mined' txid)
    (hknown : ∀ txid, known txid → scannedOnly txid = false → known' txid) :
    (lane.dropOrphaned orphaned scannedOnly).Sound mined' known' p where
  notes := h.notes.retain.mono fun id _ hid =>
    ⟨hid.1.1, hmined id.txid hid.1.2 (by simpa using hid.2)⟩
  nullifiers := h.nullifiers.retain.mono fun _ id hid => by
    obtain ⟨output, houtput⟩ := Option.isSome_iff_exists.mp hid.1
    exact Table.retain_isSome_of (p := fun id _ => !orphaned id.txid) houtput hid.2
  noteSpends := h.noteSpends.retain.mono fun _ txid hs => by
    obtain ⟨hheld, hspender⟩ := Bool.and_eq_true_iff.mp hs.2
    exact ⟨hheld, hknown txid hs.1.2 (by simpa using hspender)⟩

end Lane

/-! ### The tables together -/

/-- The tables agree on what is mined and known. -/
structure Consistent (w : Wallet X) : Prop where
  lanes : ∀ p, (w.lanes p).Sound w.Mined w.Known p
  memos : Every (fun id _ => w.Known id.txid) w.memos
  indices : Every (fun txid _ => w.Mined txid) w.transactionIndices

/-- And they agree with the blocks: each is keyed by its height, and nothing is mined above the tip. -/
structure WellFormed (w : Wallet X) : Prop extends Consistent w where
  keyed : ∀ (k : ℕ) (md : BlockMetadata), w.blocks[k]? = some md → md.blockHeight = k
  bounded : w.tip.blockHeight ≤ MAX_HEIGHT
  mined : ∀ txid m, w.minedHeight txid = some m → m ≤ w.tip.blockHeight

theorem wellFormed_new {origin : BlockMetadata} (h : origin.blockHeight ≤ MAX_HEIGHT)
    (trees : ShieldedPool → X.Tree) (ends : ShieldedPool → Table (ℕ × ℕ) ℕ) :
    (new origin trees ends : Wallet X).WellFormed where
  lanes p := ⟨.empty, .empty, .empty⟩
  memos := .empty
  indices := .empty
  keyed k md hk := by simp [new] at hk
  bounded := by simpa [tip, new] using h
  mined txid m hm := by simp [minedHeight, new] at hm

/-- The tip is the entry of the highest block. -/
theorem tip_of_last {k : ℕ} {md : BlockMetadata} (h : w.blocks.toList.getLast? = some (k, md)) :
    w.tip = md := by
  unfold tip latest
  rw [h]
  rfl

theorem tip_of_empty (h : w.blocks.toList.getLast? = none) : w.tip = w.seed := by
  unfold tip latest
  rw [h]
  rfl

theorem getElem?_of_last {k : ℕ} {md : BlockMetadata} (h : w.blocks.toList.getLast? = some (k, md)) :
    w.blocks[k]? = some md :=
  Std.ExtTreeMap.mem_toList_iff_getElem?_eq_some.mp (List.mem_of_getLast? h)

theorem WellFormed.last (h : w.WellFormed) {k : ℕ} {md : BlockMetadata}
    (hlast : w.blocks.toList.getLast? = some (k, md)) : w.tip.blockHeight = k := by
  rw [tip_of_last hlast]
  exact h.keyed k md (getElem?_of_last hlast)

/-- The height and the hash of the applied tip: of the boot origin, before the first block. -/
def appliedTip (w : Wallet X) : ℕ × BlockHash :=
  match w.blocks.toList.getLast? with
  | some (height, metadata) => (height, metadata.blockHash)
  | none => (w.seed.blockHeight, w.seed.blockHash)

theorem appliedTip_of_last {k : ℕ} {md : BlockMetadata} (h : w.blocks.toList.getLast? = some (k, md)) :
    w.appliedTip = (k, md.blockHash) := by
  unfold appliedTip
  rw [h]

theorem WellFormed.tip_appliedTip (h : w.WellFormed) : w.tip.blockHeight = w.appliedTip.1 := by
  rcases hlast : w.blocks.toList.getLast? with - | ⟨k, md⟩
  · rw [tip_of_empty hlast]
    unfold appliedTip
    rw [hlast]
  · rw [h.last hlast, appliedTip_of_last hlast]

/-- No block lies above the applied tip. -/
theorem le_appliedTip {k : ℕ} (hk : k ∈ w.blocks) : k ≤ w.appliedTip.1 := by
  rcases hlast : w.blocks.toList.getLast? with - | ⟨j, md⟩
  · obtain ⟨md, hmd⟩ := Option.isSome_iff_exists.mp (Std.ExtTreeMap.isSome_getElem?_iff_mem.mpr hk)
    have hmem := Std.ExtTreeMap.mem_toList_iff_getElem?_eq_some.mpr hmd
    rw [List.getLast?_eq_none_iff.mp hlast] at hmem
    exact nomatch hmem
  · rw [appliedTip_of_last hlast]
    exact le_of_getLast? hlast hk

theorem WellFormed.le_tip (h : w.WellFormed) {k : ℕ} (hk : k ∈ w.blocks) : k ≤ w.tip.blockHeight := by
  rw [h.tip_appliedTip]
  exact le_appliedTip hk

/-- The trees, the height known of the node, trust and locks play no part. -/
theorem WellFormed.with_rest (h : w.WellFormed) (trees : ShieldedPool → X.Tree) (zebraTip : Option ℕ)
    (trusted : TxId → Bool) (locks : Table OutputRef (LockOwner × ℕ)) :
    { w with trees := trees, zebraTip := zebraTip, trustedTransactions := trusted, locks :=
    locks }.WellFormed :=
  ⟨⟨h.lanes, h.memos, h.indices⟩, h.keyed, h.bounded, h.mined⟩

/-! ### Scanned blocks -/

theorem minedHeight_insert {txid txid' : TxId} {status : TransactionStatus}
    (hv : v.transactionStatuses = w.transactionStatuses.insert txid status) (hne : txid' ≠ txid) :
    v.minedHeight txid' = w.minedHeight txid' :=
  minedHeight_congr (by rw [hv, Table.insert_of_ne hne])

theorem minedHeight_insert_mined {txid : TxId} {height : ℕ}
    (hv : v.transactionStatuses = w.transactionStatuses.insert txid (.mined height)) :
    v.minedHeight txid = some height :=
  minedHeight_eq_some.mpr (by rw [hv, Table.insert_same])

/-- After the first pass over a block's transactions, these are mined at its height. -/
theorem minedHeight_receive (height : ℕ) (txs : List (WalletTx X)) (w : Wallet X) (txid : TxId) :
    (txs.foldl (receiveTx height) w).minedHeight txid =
      if ∃ tx ∈ txs, tx.txid = txid then some height else w.minedHeight txid := by
  induction txs generalizing w with
  | nil => simp
  | cons tx txs ih =>
    rw [List.foldl_cons, ih]
    by_cases htxs : ∃ tx ∈ txs, tx.txid = txid
    · rw [if_pos htxs, if_pos]
      obtain ⟨tx', htx', hid⟩ := htxs
      exact ⟨tx', List.mem_cons_of_mem _ htx', hid⟩
    rw [if_neg htxs]
    by_cases hid : tx.txid = txid
    · rw [if_pos ⟨tx, List.mem_cons_self, hid⟩, ← hid]
      exact minedHeight_insert_mined rfl
    · have hcons : ¬ ∃ tx' ∈ tx :: txs, tx'.txid = txid := by
        rintro ⟨tx', htx', hid'⟩
        rcases List.mem_cons.mp htx' with rfl | htx'
        · exact hid hid'
        · exact htxs ⟨tx', htx', hid'⟩
      rw [if_neg hcons]
      exact minedHeight_insert rfl (Ne.symm hid)

theorem mined_receiveTx_self {height : ℕ} (w : Wallet X) (tx : WalletTx X) :
    (receiveTx height w tx).Mined tx.txid := by
  have hmined : (receiveTx height w tx).minedHeight tx.txid = some height := minedHeight_insert_mined rfl
  unfold Mined
  rw [hmined]
  rfl

theorem mined_receiveTx {height : ℕ} {tx : WalletTx X} {txid : TxId} (h : w.Mined txid) :
    (receiveTx height w tx).Mined txid := by
  unfold Mined at h
  by_cases hid : txid = tx.txid
  · rw [hid]
    exact mined_receiveTx_self w tx
  · have hframe : (receiveTx height w tx).minedHeight txid = w.minedHeight txid :=
      minedHeight_insert rfl hid
    unfold Mined
    rw [hframe]
    exact h

theorem known_receiveTx {height : ℕ} {tx : WalletTx X} {txid : TxId} (h : w.Known txid) :
    (receiveTx height w tx).Known txid :=
  h.imp_left mined_receiveTx

theorem Consistent.receiveTx (h : w.Consistent) (height : ℕ) (tx : WalletTx X) :
    (receiveTx height w tx).Consistent where
  lanes p := by
    refine List.foldlRecOn (tx.outputs p) _ (motive := fun lane : Lane X => lane.Sound _ _ p)
      ((h.lanes p).mono (fun _ => mined_receiveTx) fun _ => known_receiveTx) ?_
    intro lane hlane output _
    exact hlane.receive rfl (mined_receiveTx_self w tx)
  memos := h.memos.mono fun _ _ => known_receiveTx
  indices := (h.indices.mono fun _ _ => mined_receiveTx).insert (mined_receiveTx_self w tx)

theorem Consistent.spendTx (h : w.Consistent) {tx : WalletTx X} (hknown : w.Known tx.txid) :
    (spendTx w tx).Consistent where
  lanes p := by
    refine List.foldlRecOn (tx.spends p) _ (motive := fun lane : Lane X => lane.Sound _ _ p)
      (h.lanes p) ?_
    intro lane hlane nf _
    exact hlane.spend hknown nf
  memos := h.memos
  indices := h.indices

/-- The second pass changes the recorded spends, and nothing else. -/
theorem spends_frame (txs : List (WalletTx X)) (w : Wallet X) :
    ∃ lanes, txs.foldl Wallet.spendTx w = { w with lanes := lanes } := by
  induction txs generalizing w with
  | nil => exact ⟨w.lanes, rfl⟩
  | cons tx txs ih =>
    obtain ⟨lanes, hlanes⟩ := ih (Wallet.spendTx w tx)
    exact ⟨lanes, hlanes⟩

/-- **A block mines its transactions**, and changes nothing for the others. -/
theorem minedHeight_applyBlock (w : Wallet X) (block : ScannedBlock X) (txid : TxId) :
    (w.applyBlock block).minedHeight txid =
      if ∃ tx ∈ block.transactions, tx.txid = txid then some block.height else w.minedHeight txid := by
  obtain ⟨lanes, hlanes⟩ := spends_frame block.transactions
    (block.transactions.foldl (Wallet.receiveTx block.height) w)
  have hstatus : (w.applyBlock block).transactionStatuses =
      (block.transactions.foldl (Wallet.receiveTx block.height) w).transactionStatuses := by
    unfold applyBlock
    rw [hlanes]
  rw [minedHeight_congr (congrFun hstatus txid), minedHeight_receive]

theorem Consistent.applyBlock (h : w.Consistent) (block : ScannedBlock X) :
    (w.applyBlock block).Consistent := by
  have hreceived : (block.transactions.foldl (Wallet.receiveTx block.height) w).Consistent :=
    List.foldlRecOn block.transactions _ (motive := Consistent) h fun _ hw tx _ =>
      hw.receiveTx block.height tx
  have hspent : (block.transactions.foldl Wallet.spendTx
      (block.transactions.foldl (Wallet.receiveTx block.height) w)).Consistent := by
    refine (List.foldlRecOn block.transactions _
      (motive := fun w : Wallet X => w.Consistent ∧ ∀ tx ∈ block.transactions, w.Mined tx.txid) ?_ ?_).1
    · refine ⟨hreceived, fun tx htx => ?_⟩
      unfold Mined
      rw [minedHeight_receive, if_pos ⟨tx, htx, rfl⟩]
      rfl
    · intro w hw tx htx
      exact ⟨hw.1.spendTx (.inl (hw.2 tx htx)), hw.2⟩
  exact ⟨hspent.lanes, hspent.memos, hspent.indices⟩

theorem blocks_applyBlock (w : Wallet X) (block : ScannedBlock X) :
    (w.applyBlock block).blocks = w.blocks.insert block.height block.toBlockMetadata := by
  have hreceive : (block.transactions.foldl (Wallet.receiveTx block.height) w).blocks = w.blocks :=
    List.foldlRecOn block.transactions _ (motive := fun v : Wallet X => v.blocks = w.blocks) rfl
      fun _ hv _ _ => hv
  obtain ⟨lanes, hlanes⟩ := spends_frame block.transactions
    (block.transactions.foldl (Wallet.receiveTx block.height) w)
  unfold Wallet.applyBlock
  rw [hlanes, hreceive]

theorem tip_applyBlock (h : w.WellFormed) {block : ScannedBlock X}
    (hle : w.tip.blockHeight ≤ block.height) :
    (w.applyBlock block).tip = block.toBlockMetadata := by
  unfold tip
  rw [blocks_applyBlock, latest_insert fun j hj => (h.le_tip hj).trans hle]
  rfl

/-- A block at the tip or above, within the height space. -/
theorem WellFormed.applyBlock (h : w.WellFormed) {block : ScannedBlock X}
    (hle : w.tip.blockHeight ≤ block.height)
    (hmax : block.height ≤ MAX_HEIGHT) : (w.applyBlock block).WellFormed where
  toConsistent := h.toConsistent.applyBlock block
  keyed k md hk := by
    rw [blocks_applyBlock, Std.ExtTreeMap.getElem?_insert] at hk
    split_ifs at hk with hkey
    · rw [← Option.some.inj hk, ← Nat.compare_eq_eq.mp hkey]
      rfl
    · exact h.keyed k md hk
  bounded := by
    rw [tip_applyBlock h hle]
    exact hmax
  mined txid m hm := by
    rw [tip_applyBlock h hle]
    rw [minedHeight_applyBlock] at hm
    split_ifs at hm with hmined
    · exact le_of_eq (Option.some.inj hm).symm
    · exact (h.mined txid m hm).trans hle

/-- Each block is the next after the one before it, and the first after `height`. -/
def Follows : ℕ → List (ScannedBlock X) → Prop
  | _, [] => True
  | height, block :: blocks => block.height = nextHeight height ∧ Follows block.height blocks

theorem le_nextHeight {height : ℕ} (h : height ≤ MAX_HEIGHT) : height ≤ nextHeight height := by
  unfold nextHeight
  omega

theorem nextHeight_le (height : ℕ) : nextHeight height ≤ MAX_HEIGHT := min_le_right _ _

/-- The blocks of a batch, in order. -/
theorem WellFormed.applyEach {blocks : List (ScannedBlock X)} (h : w.WellFormed)
    (hblocks : Follows w.tip.blockHeight blocks) : (blocks.foldl Wallet.applyBlock w).WellFormed := by
  induction blocks generalizing w with
  | nil => exact h
  | cons block blocks ih =>
    obtain ⟨hheight, hrest⟩ := hblocks
    have hle : w.tip.blockHeight ≤ block.height := hheight ▸ le_nextHeight h.bounded
    have hmax : block.height ≤ MAX_HEIGHT := hheight ▸ nextHeight_le _
    refine ih (h.applyBlock hle hmax) ?_
    rw [tip_applyBlock h hle]
    exact hrest

theorem follows_of_firstGap {block : ScannedBlock X} {blocks : List (ScannedBlock X)} {height : ℕ}
    (hfirst : nextHeight height = block.height) (hgap : firstGap (block :: blocks) = none) :
    Follows height (block :: blocks) := by
  induction blocks generalizing block height with
  | nil => exact ⟨hfirst.symm, trivial⟩
  | cons next blocks ih =>
    unfold firstGap at hgap
    split_ifs at hgap with hnext
    exact ⟨hfirst.symm, ih hnext hgap⟩

/-- **A batch is accepted only** where it follows `fromTip`, and `fromTip` is the applied tip. -/
theorem checkContinuity_applied {fromTip : BlockMetadata} {first : ScannedBlock X}
    {blocks : List (ScannedBlock X)}
    (hok : w.checkContinuity fromTip first (first :: blocks) = .ok ()) :
    Follows fromTip.blockHeight (first :: blocks) ∧ w.appliedTip =
      (fromTip.blockHeight, fromTip.blockHash) := by
  unfold checkContinuity at hok
  by_cases hfirst : nextHeight fromTip.blockHeight = first.height
  · rw [if_neg (not_not.mpr hfirst)] at hok
    rcases hgap : firstGap (first :: blocks) with - | height
    · refine ⟨follows_of_firstGap hfirst hgap, ?_⟩
      rw [hgap] at hok
      unfold appliedTip
      rcases hlast : w.blocks.toList.getLast? with - | ⟨k, md⟩
      · simp only [hlast] at hok ⊢
        by_cases hseed : fromTip.blockHeight = w.seed.blockHeight ∧ fromTip.blockHash = w.seed.blockHash
        · rw [hseed.1, hseed.2]
        · rw [if_neg hseed] at hok
          exact nomatch hok
      · simp only [hlast] at hok ⊢
        by_cases htip : k = fromTip.blockHeight ∧ md.blockHash = fromTip.blockHash
        · rw [htip.1, htip.2]
        · rw [if_neg htip] at hok
          exact nomatch hok
    · rw [hgap] at hok
      exact nomatch hok
  · rw [if_pos hfirst] at hok
    exact nomatch hok

theorem checkContinuity_ok (h : w.WellFormed) {fromTip : BlockMetadata} {first : ScannedBlock X}
    {blocks : List (ScannedBlock X)} (hok : w.checkContinuity fromTip first (first :: blocks) = .ok ()) :
    Follows w.tip.blockHeight (first :: blocks) := by
  obtain ⟨hfollows, happlied⟩ := checkContinuity_applied hok
  rwa [h.tip_appliedTip, happlied]

theorem applyBlocks_eq (w : Wallet X) (blocks : List (ScannedBlock X)) :
    ∃ zebraTip, w.applyBlocks blocks = { blocks.foldl Wallet.applyBlock w with zebraTip :=
      zebraTip } := by
  unfold applyBlocks
  simp only
  split
  · exact ⟨_, rfl⟩
  · exact ⟨_, rfl⟩

/-- A batch that is accepted passed the check of its heights, and its blocks are applied. -/
theorem putBlocksMarked_cons {fromTip : BlockMetadata} {first : ScannedBlock X}
    {blocks : List (ScannedBlock X)}
    {marks : List X.Node} (hok : w.putBlocksMarked fromTip (first :: blocks) marks = .ok v) :
    w.checkContinuity fromTip first (first :: blocks) = .ok () ∧
      ∃ trees, v = { w with trees := trees }.applyBlocks (first :: blocks) := by
  unfold putBlocksMarked at hok
  obtain ⟨⟨⟩, hcontinuity, hok⟩ := ok_of_bind hok
  split_ifs at hok
  obtain ⟨trees, -, hok⟩ := ok_of_bind hok
  exact ⟨hcontinuity, trees, (Except.ok.inj hok).symm⟩

/-- **A batch that is accepted** follows the tip, and is applied block by block. -/
theorem putBlocksMarked_ok (h : w.WellFormed) {fromTip : BlockMetadata} {blocks : List (ScannedBlock X)}
    {marks : List X.Node} (hok : w.putBlocksMarked fromTip blocks marks = .ok v) :
    blocks = [] ∧ v = w ∨ blocks ≠ [] ∧ Follows w.tip.blockHeight blocks ∧
      ∃ trees zebraTip, v = { blocks.foldl Wallet.applyBlock { w with trees := trees } with zebraTip :=
        zebraTip } := by
  rcases blocks with - | ⟨first, blocks⟩
  · exact .inl ⟨rfl, (Except.ok.inj hok).symm⟩
  · obtain ⟨hcontinuity, trees, rfl⟩ := putBlocksMarked_cons hok
    obtain ⟨zebraTip, hzebra⟩ := applyBlocks_eq { w with trees := trees } (first :: blocks)
    exact .inr ⟨by simp, checkContinuity_ok h hcontinuity, trees, zebraTip, hzebra⟩

theorem WellFormed.putBlocksMarked (h : w.WellFormed) {fromTip : BlockMetadata}
    {blocks : List (ScannedBlock X)}
    {marks : List X.Node} (hok : w.putBlocksMarked fromTip blocks marks = .ok v) : v.WellFormed := by
  rcases putBlocksMarked_ok h hok with ⟨-, rfl⟩ | ⟨-, hfollows, trees, zebraTip, rfl⟩
  · exact h
  · have htrees := h.with_rest trees w.zebraTip w.trustedTransactions w.locks
    exact (htrees.applyEach hfollows).with_rest _ zebraTip _ _

end ZnsMint.Wallet
