import ZnsMint.Wallet.Reachable

/-! # A rollback forgets the abandoned branch

What the blocks of a branch, and the Name Notes stored after them, add to the wallet's tables is marked
by the transactions mined above the height they start from (`Branched`), and truncating to that height
takes it away again: `Restored`. The spend of a note by a transaction kept in its raw form stays on
record across any truncation that keeps the note, so the note stays blocked until the transaction
expires. The record is lost with a note that goes, though, and a note that comes back is not looked up
among the transactions kept. -/

namespace ZnsMint.Wallet

open Basic Lib.Tables Lib.Checkpoints Lib.Machine

variable {X : Backend} {w v : Wallet X}

/-! ### The blocks of a branch -/

/-- A transaction of the branch that was only scanned: it is not kept in its raw form, and it spends no
note that has a spend on record. The other two fields are consensus: a chain mines a transaction once,
and the nullifier of a note it creates is no other note's. -/
structure ScannedOnly (w : Wallet X) (tx : WalletTx X) : Prop where
  unstored : w.transactions tx.txid = none
  unspent : ∀ p, ∀ nf ∈ tx.spends p, ∀ id ∈ (w.lanes p).nullifiers nf, (w.lanes p).noteSpends id = none
  unmined : w.minedHeight tx.txid = none
  fresh : ∀ p, ∀ output ∈ tx.outputs p, ∀ nf ∈ output.nf, (w.lanes p).nullifiers nf = none

/-- A call of the branch above the tip of `w`: blocks above it with transactions only scanned, or the Name
Note of a block above it. -/
def OfBranch (w : Wallet X) : Op X → Prop
  | .putBlocks _ blocks _ =>
    ∀ block ∈ blocks, w.tip.blockHeight < block.height ∧ ∀ tx ∈ block.transactions, ScannedOnly w tx
  | .nameNote a => w.tip.blockHeight < a.height
  | _ => False

/-- The tables of one pool, and what transactions that are `fresh` added to them. -/
structure Lane.Branched (fresh : TxId → Prop) (lane lane' : Lane X) : Prop where
  notes : Grown (fun id _ => fresh id.txid) lane.notes lane'.notes
  noteSpends : Grown (fun _ txid => fresh txid) lane.noteSpends lane'.noteSpends
  nullifiers : Grown (fun _ id => fresh id.txid) lane.nullifiers lane'.nullifiers

/-- `v` is `w` with what transactions mined above `height` added to its tables. -/
structure Branched (w v : Wallet X) (height : ℕ) : Prop where
  seed : v.seed = w.seed
  transactions : v.transactions = w.transactions
  trusted : v.trustedTransactions = w.trustedTransactions
  locks : v.locks = w.locks
  statuses : ∀ txid, v.orphaned height txid = false → v.transactionStatuses txid =
    w.transactionStatuses txid
  fresh : ∀ txid, v.orphaned height txid = true → w.transactions txid = none ∧ w.minedHeight txid = none
  lanes : ∀ p, (w.lanes p).Branched (fun txid => v.orphaned height txid = true) (v.lanes p)
  memos : Grown (fun id _ => v.orphaned height id.txid = true) w.memos v.memos
  indices : Grown (fun txid _ => v.orphaned height txid = true) w.transactionIndices v.transactionIndices
  blocks : ∀ j ≤ height, v.blocks[j]? = w.blocks[j]?

namespace Lane.Branched

variable {fresh fresh' : TxId → Prop} {lane lane' : Lane X}

theorem refl (fresh : TxId → Prop) (lane : Lane X) : lane.Branched fresh lane :=
  ⟨.refl _ _, .refl _ _, .refl _ _⟩

theorem mono (h : lane.Branched fresh lane') (hfresh : ∀ txid, fresh txid → fresh' txid) :
    lane.Branched fresh' lane' where
  notes := h.notes.mono fun id _ => hfresh id.txid
  noteSpends := h.noteSpends.mono fun _ => hfresh
  nullifiers := h.nullifiers.mono fun _ id => hfresh id.txid

theorem receive (h : lane.Branched fresh lane') {id : NoteId} {output : WalletOutput X}
    (hid : lane.notes id = none)
    (hfresh : fresh id.txid) (hnf : ∀ nf, output.nf = some nf → lane.nullifiers nf = none) :
    lane.Branched fresh (lane'.receive id output) where
  notes := h.notes.insert hid hfresh
  noteSpends := h.noteSpends
  nullifiers := by
    unfold Lane.receive
    rcases houtput : output.nf with - | nf
    · exact h.nullifiers
    · exact h.nullifiers.insert (hnf nf houtput) hfresh

theorem spend (h : lane.Branched fresh lane') {txid : TxId} {nf : Nullifier} (hfresh : fresh txid)
    (hid : ∀ id, lane'.nullifiers nf = some id → lane.noteSpends id = none) :
    lane.Branched fresh (lane'.spend txid nf) := by
  unfold Lane.spend
  split
  · rename_i id hnf
    exact ⟨h.notes, h.noteSpends.insert (hid id hnf) hfresh, h.nullifiers⟩
  · exact h

/-- **Dropping the branch gives the tables back**, where they agree and none of what they name is
fresh. -/
theorem dropOrphaned {mined known : TxId → Prop} {p : OwnedPool} {orphaned scannedOnly : TxId → Bool}
    (h : lane.Branched (fun txid => orphaned txid = true) lane') (hlane : lane.Sound mined known p)
    (hmined : ∀ txid, mined txid → orphaned txid = false)
    (hknown : ∀ txid, known txid → scannedOnly txid = false)
    (hscanned : ∀ txid, orphaned txid = true → scannedOnly txid = true) :
    lane'.dropOrphaned orphaned scannedOnly = lane := by
  have hnotes : lane'.notes.retain (fun id _ => !orphaned id.txid) = lane.notes :=
    h.notes.retain_eq (hlane.notes.mono fun id _ hid => by simp [hmined id.txid hid.2]) fun id _
      hid => by simp [hid]
  have hnullifiers : lane'.nullifiers.retain (fun _ id => !orphaned id.txid) = lane.nullifiers := by
    refine h.nullifiers.retain_eq (hlane.nullifiers.mono fun _ id hid => ?_) fun _ id hid => by simp [hid]
    obtain ⟨output, houtput⟩ := Option.isSome_iff_exists.mp hid
    simp [hmined id.txid (hlane.notes id output houtput).2]
  have hspends : lane'.noteSpends.retain (fun id txid => (lane.notes id).isSome && !scannedOnly txid) =
      lane.noteSpends :=
    h.noteSpends.retain_eq (hlane.noteSpends.mono fun _ txid hs => by simp [hs.1, hknown txid hs.2])
      fun _ txid htxid => by simp [hscanned txid htxid]
  unfold Lane.dropOrphaned
  simp only [hnotes, hnullifiers, hspends]

end Lane.Branched

namespace Branched

variable {height : ℕ}

theorem refl (h : w.WellFormed) (hheight : w.tip.blockHeight ≤ height) : Branched w w height where
  seed := rfl
  transactions := rfl
  trusted := rfl
  locks := rfl
  statuses _ _ := rfl
  fresh txid htxid := by
    obtain ⟨m, hm, hlt⟩ := orphaned_iff.mp htxid
    have := h.mined txid m hm
    omega
  lanes p := .refl _ _
  memos := .refl _ _
  indices := .refl _ _
  blocks _ _ := rfl

/-- The trees and the height known of the node play no part. -/
theorem with_trees (h : Branched w v height) (trees : ShieldedPool → X.Tree) (zebraTip : Option ℕ) :
    Branched w { v with trees := trees, zebraTip := zebraTip } height :=
  ⟨h.seed, h.transactions, h.trusted, h.locks, h.statuses, h.fresh, h.lanes, h.memos, h.indices, h.blocks⟩

end Branched

theorem orphaned_receiveTx {height h' : ℕ} (hh : height < h') (v : Wallet X) (tx : WalletTx X)
    (txid : TxId) :
    (receiveTx h' v tx).orphaned height txid = true ↔ txid = tx.txid ∨ v.orphaned height txid = true := by
  rw [orphaned_iff, orphaned_iff]
  by_cases hid : txid = tx.txid
  · have hmined : (receiveTx h' v tx).minedHeight tx.txid = some h' := minedHeight_insert_mined rfl
    rw [hid, hmined]
    simp [hh]
  · have hframe : (receiveTx h' v tx).minedHeight txid = v.minedHeight txid := minedHeight_insert rfl hid
    rw [hframe]
    simp [hid]

namespace Branched

variable {height : ℕ}

/-- A note held before has a transaction that is not of the branch. -/
theorem not_held (h : w.WellFormed) {p : OwnedPool} {id : NoteId} (hid : w.minedHeight id.txid = none) :
    (w.lanes p).notes id = none := by
  refine Option.eq_none_iff_forall_ne_some.mpr fun output houtput => ?_
  exact not_mined hid ((h.lanes p).notes id output houtput).2

theorem receiveTx (hb : Branched w v height) (h : w.WellFormed) {tx : WalletTx X}
    (htx : ScannedOnly w tx) {h' : ℕ}
    (hh : height < h') : Branched w (receiveTx h' v tx) height := by
  have horphaned := orphaned_receiveTx hh v tx
  have hself : (Wallet.receiveTx h' v tx).orphaned height tx.txid = true :=
    (horphaned tx.txid).mpr (.inl rfl)
  have hmono : ∀ txid, v.orphaned height txid = true → (Wallet.receiveTx h' v tx).orphaned height txid =
      true :=
    fun txid htxid => (horphaned txid).mpr (.inr htxid)
  refine ⟨hb.seed, hb.transactions, hb.trusted, hb.locks, ?_, ?_, ?_, ?_, ?_, hb.blocks⟩
  · intro txid htxid
    have hne : txid ≠ tx.txid := by
      rintro rfl
      rw [hself] at htxid
      exact nomatch htxid
    have hold : v.orphaned height txid = false := by
      refine Bool.eq_false_iff.mpr fun hold => ?_
      rw [hmono txid hold] at htxid
      exact nomatch htxid
    exact (Table.insert_of_ne hne).trans (hb.statuses txid hold)
  · intro txid htxid
    rcases (horphaned txid).mp htxid with rfl | htxid
    · exact ⟨htx.unstored, htx.unmined⟩
    · exact hb.fresh txid htxid
  · intro p
    refine List.foldlRecOn (tx.outputs p) _ (motive := fun lane : Lane X => (w.lanes p).Branched _ lane)
      ((hb.lanes p).mono hmono) ?_
    intro lane hlane output houtput
    exact hlane.receive (not_held h htx.unmined) hself (htx.fresh p output houtput)
  · exact hb.memos.mono fun id _ => hmono id.txid
  · refine (hb.indices.mono fun txid _ => hmono txid).insert ?_ hself
    refine Option.eq_none_iff_forall_ne_some.mpr fun index hindex => ?_
    exact not_mined htx.unmined (h.indices tx.txid index hindex)

theorem spendTx (hb : Branched w v height) (h : w.WellFormed) {tx : WalletTx X} (htx : ScannedOnly w tx)
    (hself : v.orphaned height tx.txid = true) : Branched w (spendTx v tx) height := by
  refine ⟨hb.seed, hb.transactions, hb.trusted, hb.locks, hb.statuses, hb.fresh, ?_, hb.memos,
    hb.indices, hb.blocks⟩
  intro p
  refine List.foldlRecOn (tx.spends p) _
    (motive := fun lane : Lane X => (w.lanes p).Branched (fun txid => v.orphaned height txid = true) lane)
    (hb.lanes p) ?_
  intro lane hlane nf hnf
  refine hlane.spend hself fun id hid => ?_
  rcases hlane.nullifiers.added nf id hid with hold | hnew
  · exact htx.unspent p nf hnf id hold
  · -- a note of the branch: nothing was on record for it
    refine Option.eq_none_iff_forall_ne_some.mpr fun spender hspender => ?_
    have hheld := ((h.lanes p).noteSpends id spender hspender).1
    rw [not_held h (hb.fresh id.txid hnew).2] at hheld
    exact nomatch hheld

theorem applyBlock (hb : Branched w v height) (h : w.WellFormed) {block : ScannedBlock X}
    (hh : height < block.height)
    (htxs : ∀ tx ∈ block.transactions, ScannedOnly w tx) : Branched w (v.applyBlock block) height := by
  have hreceived : Branched w (block.transactions.foldl (Wallet.receiveTx block.height) v) height :=
    List.foldlRecOn block.transactions _ (motive := fun v : Wallet X => Branched w v height) hb
      fun _ hv tx htx => hv.receiveTx h (htxs tx htx) hh
  have hself : ∀ tx ∈ block.transactions,
      (block.transactions.foldl (Wallet.receiveTx block.height) v).orphaned height tx.txid = true := by
    intro tx htx
    refine orphaned_iff.mpr ⟨block.height, ?_, hh⟩
    rw [minedHeight_receive, if_pos ⟨tx, htx, rfl⟩]
  have hspent := (List.foldlRecOn block.transactions Wallet.spendTx
    (motive := fun v : Wallet X => Branched w v height ∧ ∀ tx ∈ block.transactions,
    v.orphaned height tx.txid = true)
    ⟨hreceived, hself⟩ fun _ hv tx htx => ⟨hv.1.spendTx h (htxs tx htx) (hv.2 tx htx), hv.2⟩).1
  refine ⟨hspent.seed, hspent.transactions, hspent.trusted, hspent.locks, hspent.statuses, hspent.fresh,
    hspent.lanes, hspent.memos, hspent.indices, fun j hj => ?_⟩
  rw [blocks_applyBlock, Std.ExtTreeMap.getElem?_insert]
  have hne : compare block.height j ≠ .eq := by
    intro heq
    have := Nat.compare_eq_eq.mp heq
    omega
  rw [if_neg hne]
  exact hb.blocks j hj

theorem storeNameNote (hb : Branched w v height) (h : w.WellFormed) {a : NameNoteArgs X}
    (hh : height < a.height)
    {u : Wallet X} (hok : v.storeNameNote a = .ok u) : Branched w u height := by
  obtain ⟨-, hmined, howner, rfl | ⟨-, rfl⟩⟩ := storeNameNote_ok hok
  · exact hb
  have hself : v.orphaned height a.txid = true := orphaned_iff.mpr ⟨a.height, hmined, hh⟩
  have hunmined : w.minedHeight a.noteId.txid = none := (hb.fresh a.txid hself).2
  refine ⟨hb.seed, hb.transactions, hb.trusted, hb.locks, hb.statuses, hb.fresh, fun p =>
    ?_, ?_, hb.indices, hb.blocks⟩
  · change (w.lanes p).Branched (fun txid => v.orphaned height txid = true)
      ((v.setLane .ironwood _).lanes p)
    rw [lanes_setLane]
    split_ifs with hp
    · subst hp
      refine (hb.lanes .ironwood).receive (not_held h hunmined) hself fun nf hnf => ?_
      obtain rfl : a.nullifier = nf := Option.some.inj hnf
      refine Option.eq_none_iff_forall_ne_some.mpr fun owner hold => ?_
      -- the owner of the nullifier would be this note, which was not held
      have heq := howner owner ((hb.lanes .ironwood).nullifiers.kept a.nullifier owner hold)
      have hheld := (h.lanes .ironwood).nullifiers a.nullifier owner hold
      rw [heq, not_held h hunmined] at hheld
      exact nomatch hheld
    · exact hb.lanes p
  · refine hb.memos.insert ?_ hself
    refine Option.eq_none_iff_forall_ne_some.mpr fun memo hmemo => ?_
    rcases h.memos a.noteId memo hmemo with hm | hraw
    · exact not_mined hunmined hm
    · rw [show w.transactions a.noteId.txid = none from (hb.fresh a.txid hself).1] at hraw
      exact nomatch hraw

end Branched

/-! ### Truncating to the height of the branch -/

/-- What a rollback gives back of `w`. The tables of each pool are its received notes, its spends and its
nullifiers. -/
structure Restored (w v : Wallet X) : Prop where
  blocks : v.blocks = w.blocks
  lanes : v.lanes = w.lanes
  memos : v.memos = w.memos
  transactionIndices : v.transactionIndices = w.transactionIndices
  eligible : v.eligible = w.eligible

theorem Restored.refl (w : Wallet X) : Restored w w := ⟨rfl, rfl, rfl, rfl, rfl⟩

theorem cut_blocks (h : w.WellFormed) (hb : Branched w v w.tip.blockHeight) :
    cut v.blocks w.tip.blockHeight = w.blocks :=
  cut_eq (fun _ hj => h.le_tip hj) hb.blocks

/-- **Dropping what is applied above the height of the branch restores the wallet.** -/
theorem Branched.restored (h : w.WellFormed) (hb : Branched w v w.tip.blockHeight) :
    Restored w (v.dropAppliedAbove w.tip.blockHeight) := by
  have hmined : ∀ txid, w.Mined txid → v.orphaned w.tip.blockHeight txid = false := by
    intro txid htxid
    refine Bool.eq_false_iff.mpr fun horphaned => ?_
    exact not_mined (hb.fresh txid horphaned).2 htxid
  have hknown : ∀ txid, w.Known txid → v.orphaned w.tip.blockHeight txid = false := by
    rintro txid (htxid | hraw)
    · exact hmined txid htxid
    · refine Bool.eq_false_iff.mpr fun horphaned => ?_
      rw [(hb.fresh txid horphaned).1] at hraw
      exact nomatch hraw
  have hstatus : ∀ txid, w.Known txid →
      (v.dropAppliedAbove w.tip.blockHeight).transactionStatuses txid = w.transactionStatuses txid := by
    intro txid htxid
    have hkept : (v.dropAppliedAbove w.tip.blockHeight).transactionStatuses txid =
        if v.orphaned w.tip.blockHeight txid then some .notInMainChain else v.transactionStatuses txid :=
          rfl
    rw [hkept, hknown txid htxid]
    exact hb.statuses txid (hknown txid htxid)
  have hlanes : (v.dropAppliedAbove w.tip.blockHeight).lanes = w.lanes := by
    funext p
    refine (hb.lanes p).dropOrphaned (h.lanes p) hmined (fun txid htxid => ?_) fun txid htxid => ?_
    · simp [hknown txid htxid]
    · simp [htxid, hb.transactions, (hb.fresh txid htxid).1]
  refine ⟨cut_blocks h hb, hlanes, ?_, ?_, ?_⟩
  · exact hb.memos.retain_eq (h.memos.mono fun id _ hid => by simp [hknown id.txid hid]) fun id _
      hid => by simp [hid]
  · exact hb.indices.retain_eq (h.indices.mono fun txid _ hid => by simp [hmined txid hid])
      fun txid _ hid => by simp [hid]
  · refine SameSelection.eligible ⟨hlanes, hb.transactions, hb.trusted, fun p => ?_, fun p =>
      ?_, fun p => ?_⟩
    · exact (h.lanes p).notes.mono fun id _ hid => hstatus id.txid (.inl hid.2)
    · exact (h.lanes p).noteSpends.mono fun _ txid hs => hstatus txid hs.2
    · -- the lock of a note that stays is not stale
      intro id output houtput
      have hheld : ((v.dropAppliedAbove w.tip.blockHeight).lanes p).notes id = some output := by
        rw [hlanes]
        exact houtput
      have haccount := outputAccount_ofNoteId ((h.lanes p).notes id output houtput).1 hheld
      have hkept : ((v.dropAppliedAbove w.tip.blockHeight).outputAccount (.ofNoteId id)).isSome =
          true := by
        rw [haccount]
        rfl
      exact (Table.retain_of (p := fun output _ =>
        ((v.dropAppliedAbove w.tip.blockHeight).outputAccount output).isSome) fun _ => hkept).trans
          (congrFun hb.locks _)

/-- A block leaves blocks. -/
theorem blocks_applyEach_ne {blocks : List (ScannedBlock X)} (hne : blocks ≠ []) (v : Wallet X) :
    (blocks.foldl Wallet.applyBlock v).blocks ≠ ∅ := by
  rcases blocks with - | ⟨block, blocks⟩
  · exact absurd rfl hne
  have hblock : ∀ (v : Wallet X) (block : ScannedBlock X), (v.applyBlock block).blocks ≠ ∅ := by
    intro v block
    rw [blocks_applyBlock]
    exact Std.ExtTreeMap.insert_ne_empty
  exact List.foldlRecOn blocks Wallet.applyBlock (motive := fun v : Wallet X => v.blocks ≠ ∅)
    (hblock v block)
    fun v _ block _ => hblock v block

/-- The state along a branch: what it added is marked, and it has blocks unless it has added nothing. -/
structure OnBranch (w v : Wallet X) : Prop where
  wellFormed : v.WellFormed
  branched : Branched w v w.tip.blockHeight
  applied : v = w ∨ v.blocks ≠ ∅

theorem OnBranch.step (h : w.WellFormed) {op : Op X} (hop : OfBranch w op) {u : Wallet X}
    (hv : OnBranch w v)
    (hu : step v op = some u) : OnBranch w u := by
  cases op with
  | putBlocks fromTip blocks marks =>
    have hok := ok_of_toOption hu
    refine ⟨hv.wellFormed.putBlocksMarked hok, ?_, ?_⟩
    · rcases putBlocksMarked_ok hv.wellFormed hok with ⟨-, rfl⟩ | ⟨-, -, trees, zebraTip, rfl⟩
      · exact hv.branched
      · refine Branched.with_trees ?_ _ zebraTip
        exact List.foldlRecOn blocks Wallet.applyBlock
          (motive := fun v : Wallet X => Branched w v w.tip.blockHeight)
            (hv.branched.with_trees trees v.zebraTip)
          fun _ hv block hblock => hv.applyBlock h (hop block hblock).1 (hop block hblock).2
    · rcases putBlocksMarked_ok hv.wellFormed hok with ⟨-, rfl⟩ | ⟨hne, -, trees, zebraTip, rfl⟩
      · exact hv.applied
      · exact .inr (blocks_applyEach_ne hne _)
  | nameNote a =>
    have hok := ok_of_toOption hu
    refine ⟨hv.wellFormed.storeNameNote hok, hv.branched.storeNameNote h hop hok, ?_⟩
    obtain ⟨happlied, -, -, rfl | ⟨-, rfl⟩⟩ := storeNameNote_ok hok
    · exact hv.applied
    · exact .inr (Std.ExtTreeMap.ne_empty_of_mem happlied)
  | toBeSent | decrypted | status | trust | lock | unlock | clearLocks | truncate => exact hop.elim

theorem OnBranch.run (h : w.WellFormed) {branch : List (Op X)} (hbranch : ∀ op ∈ branch, OfBranch w op)
    (hrun : Lib.Machine.run Wallet.step w branch = some v) : OnBranch w v :=
  run_invariant (C := fun _ op => OfBranch w op)
    (fun _ _ _ hs hop hstep => hs.step h hop hstep) branch w v
    ⟨h, .refl h le_rfl, .inl rfl⟩ (along_of_forall Wallet.step branch w hbranch) hrun

/-- `shardtree` truncates to every checkpoint it retains. -/
def TruncatesToCheckpoints (X : Backend) : Prop :=
  ∀ tree height, X.getCheckpoint tree height = true → ∃ tree', X.truncateToCheckpoint tree height =
    .ok (true, tree')

/-- Every tree retains `height` as a checkpoint. -/
def Retained (w : Wallet X) (height : ℕ) : Prop := ∀ pool, X.getCheckpoint (w.trees pool) height = true

theorem tryTruncateTreesTo_of_retained (hX : TruncatesToCheckpoints X) {height : ℕ}
    (hv : v.Retained height) :
    ∃ trees, v.tryTruncateTreesTo height = .ok (some { v with trees := trees }) := by
  obtain ⟨sapling, hsapling⟩ := hX _ _ (hv .sapling)
  obtain ⟨orchard, horchard⟩ := hX _ _ (hv .orchard)
  obtain ⟨ironwood, hironwood⟩ := hX _ _ (hv .ironwood)
  unfold tryTruncateTreesTo treeResult
  rw [hv .sapling, hv .orchard, hv .ironwood, hsapling, horchard, hironwood]
  exact ⟨_, rfl⟩

/-- **A branch that is abandoned is forgotten.** -/
theorem OnBranch.truncateToHeight (hX : TruncatesToCheckpoints X) (h : w.WellFormed) (hv : OnBranch w v)
    (hretained : v.Retained w.tip.blockHeight) :
    ∃ u, v.truncateToHeight w.tip.blockHeight = .ok (w.tip.blockHeight, u) ∧ Restored w u := by
  obtain ⟨trees, htrees⟩ := tryTruncateTreesTo_of_retained hX hretained
  have hrestored := (hv.branched.with_trees trees v.zebraTip).restored h
  have htarget : v.commonTruncationHeight w.tip.blockHeight = w.blocks.toList.getLast?.map Prod.fst := by
    unfold commonTruncationHeight
    rw [cut_blocks h hv.branched]
  unfold Wallet.truncateToHeight
  rw [htarget]
  rcases hlast : w.blocks.toList.getLast? with - | ⟨k, md⟩
  · simp only [Option.map_none]
    by_cases hempty : v.blocks.isEmpty = true
    · rw [if_pos hempty]
      obtain rfl : v = w := hv.applied.resolve_right fun hne => hne (Std.ExtTreeMap.isEmpty_iff.mp hempty)
      exact ⟨v, rfl, .refl v⟩
    · rw [if_neg hempty]
      have hseed : v.seed.blockHeight = w.tip.blockHeight := by rw [hv.branched.seed, tip_of_empty hlast]
      unfold truncateToOrigin
      rw [hseed, if_pos le_rfl, htrees]
      exact ⟨_, rfl, hrestored⟩
  · simp only [Option.map_some]
    rw [← h.last hlast, htrees]
    exact ⟨_, rfl, hrestored⟩

end ZnsMint.Wallet
