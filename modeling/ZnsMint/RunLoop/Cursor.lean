import ZnsMint.Live.Tables
import ZnsMint.RunLoop.Refinement

/-! # The wallet's cursor

The loop of `RunLoop` asks a `Cursor` for its tip, its block hashes and its rewinds. The source asks the
wallet. Here the wallet's own answers are modelled (`blockHashAt`, `blockMetadataAt`, `truncateTo`), the
cursor is read off the tables, and each call of the mint changes it as the loop changes its own. -/

namespace ZnsMint

open Basic Note Registry Wallet Lib.Checkpoints Lib.Machine Lib.Simulation

/-- A block of a given height is applied. -/
def Cursor.put (c : Cursor) (e : ℕ × BlockHash) : Cursor := { c with blocks := c.blocks.insert e.1 e.2 }

namespace Wallet

variable {X : Backend} {w v : Wallet X}

/-! ### The applied chain -/

/-- The block hash at `height`: an applied block, or the boot origin. -/
def blockHashAt (w : Wallet X) (height : ℕ) : Option BlockHash :=
  (w.blocks[height]?.map BlockMetadata.blockHash).or
    (if height = w.seed.blockHeight then some w.seed.blockHash else none)

/-- Rewinds to the applied block at or below `maxHeight` and returns that block's metadata. -/
def truncateTo (w : Wallet X) (maxHeight : ℕ) : Except (WalletError X) (BlockMetadata × Wallet X) := do
  let (height, w) ← w.truncateToHeight maxHeight
  match w.blockMetadataAt height with
  | some metadata => .ok (metadata, w)
  | none => .error (.truncationTargetUnavailable height)

/-- The applied chain by its hashes. -/
def cursor (w : Wallet X) : Cursor where
  seed := (w.seed.blockHeight, w.seed.blockHash)
  blocks := w.blocks.map fun _ metadata => metadata.blockHash

/-- Every tree retains `height` as a checkpoint. -/
def retains (w : Wallet X) (height : ℕ) : Bool :=
  X.getCheckpoint (w.trees .sapling) height && X.getCheckpoint (w.trees .orchard) height &&
    X.getCheckpoint (w.trees .ironwood) height

theorem getLast?_map_blocks (m : HeightMap BlockMetadata) :
    (m.map fun _ metadata => metadata.blockHash).toList.getLast? =
      m.toList.getLast?.map fun p => (p.1, p.2.blockHash) := by
  rw [Std.ExtTreeMap.toList_map, List.getLast?_map]

theorem cut_map_blocks (m : HeightMap BlockMetadata) (height : ℕ) :
    cut (m.map fun _ metadata => metadata.blockHash) height =
      (cut m height).map fun _ metadata => metadata.blockHash := by
  refine Std.ExtTreeMap.ext_getElem? fun k => ?_
  rw [getElem?_cut, Std.ExtTreeMap.getElem?_map, Std.ExtTreeMap.getElem?_map, getElem?_cut]
  split_ifs <;> rfl

/-- The cursor's tip is the wallet's. -/
theorem tip_cursor (h : w.WellFormed) : w.cursor.tip = (w.tip.blockHeight, w.tip.blockHash) := by
  show (w.blocks.map fun _ metadata => metadata.blockHash).toList.getLast?.getD _ = _
  rw [getLast?_map_blocks]
  rcases hlast : w.blocks.toList.getLast? with - | ⟨k, md⟩
  · rw [tip_of_empty hlast]
    rfl
  · rw [h.last hlast, tip_of_last hlast]
    rfl

/-- And so are its hashes. -/
theorem blockHashAt_cursor (w : Wallet X) (height : ℕ) : w.cursor.blockHashAt height =
    w.blockHashAt height := by
  have hblocks : w.cursor.blocks[height]? = w.blocks[height]?.map BlockMetadata.blockHash :=
    Std.ExtTreeMap.getElem?_map
  unfold Cursor.blockHashAt blockHashAt
  rw [hblocks]
  rcases w.blocks[height]? with - | md <;> rfl

/-! ### The cursor follows -/

theorem seed_applyBlock (w : Wallet X) (block : ScannedBlock X) : (w.applyBlock block).seed = w.seed := by
  have hreceive : (block.transactions.foldl (receiveTx block.height) w).seed = w.seed :=
    List.foldlRecOn block.transactions _ (motive := fun v : Wallet X => v.seed = w.seed) rfl
      fun _ hv _ _ => hv
  obtain ⟨lanes, hlanes⟩ := spends_frame block.transactions
    (block.transactions.foldl (receiveTx block.height) w)
  unfold applyBlock
  rw [hlanes]
  exact hreceive

theorem cursor_applyBlock (w : Wallet X) (block : ScannedBlock X) :
    (w.applyBlock block).cursor = w.cursor.put (block.height, block.blockHash) := by
  unfold cursor Cursor.put
  rw [seed_applyBlock, blocks_applyBlock]
  refine congrArg (Cursor.mk _) (Std.ExtTreeMap.ext_getElem? fun k => ?_)
  rw [Std.ExtTreeMap.getElem?_map, Std.ExtTreeMap.getElem?_insert, Std.ExtTreeMap.getElem?_insert,
    Std.ExtTreeMap.getElem?_map]
  split_ifs <;> rfl

theorem retained_of_retains {height : ℕ} (h : w.retains height = true) : w.Retained height := by
  unfold retains at h
  simp only [Bool.and_eq_true] at h
  intro pool
  cases pool with
  | sapling => exact h.1.1
  | orchard => exact h.1.2
  | ironwood => exact h.2

theorem tryTruncateTreesTo_of_not_retains {height : ℕ} (h : w.retains height = false) :
    w.tryTruncateTreesTo height = .ok none := by
  unfold tryTruncateTreesTo
  unfold retains at h
  rw [h]
  rfl

/-- What is dropped is cut from the cursor. -/
theorem cursor_dropAppliedAbove (w : Wallet X) (height : ℕ) :
    (w.dropAppliedAbove height).cursor = { w.cursor with blocks := cut w.cursor.blocks height } :=
  congrArg (Cursor.mk w.cursor.seed) (cut_map_blocks w.blocks height).symm

/-- The tree truncation succeeds where all three trees retain the height, and leaves the applied chain. -/
theorem tryTruncateTreesTo_cases (hX : TruncatesToCheckpoints X) (w : Wallet X) (height : ℕ) :
    (w.retains height = true ∧ ∃ trees, w.tryTruncateTreesTo height =
    .ok (some { w with trees := trees })) ∨
      w.retains height = false ∧ w.tryTruncateTreesTo height = .ok none := by
  rcases hretains : w.retains height with - | -
  · exact .inr ⟨rfl, tryTruncateTreesTo_of_not_retains hretains⟩
  · exact .inl ⟨rfl, tryTruncateTreesTo_of_retained hX (retained_of_retains hretains)⟩

/-- At a block the wallet holds, the metadata is the block's. -/
theorem blockMetadataAt_dropAppliedAbove {k : ℕ} {md : BlockMetadata} (h : w.blocks[k]? = some md) :
    (w.dropAppliedAbove k).blockMetadataAt k = some md := by
  have hcut : (cut w.blocks k)[k]? = some md := by
    rw [getElem?_cut, if_pos le_rfl, h]
  show ((cut w.blocks k)[k]?).or _ = some md
  rw [hcut]
  rfl

/-- At its origin it is the origin's, or that of a block there. -/
theorem blockMetadataAt_origin (w : Wallet X) : (w.blockMetadataAt w.seed.blockHeight).isSome = true := by
  unfold blockMetadataAt
  rw [if_pos rfl]
  rcases w.blocks[w.seed.blockHeight]? with - | md <;> rfl

theorem truncateTo_of_ok {maxHeight k : ℕ} {md : BlockMetadata}
    (hok : w.truncateToHeight maxHeight = .ok (k, v))
    (hmetadata : v.blockMetadataAt k = some md) : w.truncateTo maxHeight = .ok (md, v) := by
  unfold truncateTo
  simp only [hok, bind, Except.bind, hmetadata]

theorem truncateTo_of_none {maxHeight k : ℕ} (hok : w.truncateToHeight maxHeight = .ok (k, v))
    (hmetadata : v.blockMetadataAt k = none) : w.truncateTo maxHeight =
    .error (.truncationTargetUnavailable k) := by
  unfold truncateTo
  simp only [hok, bind, Except.bind, hmetadata]

theorem truncateTo_of_error {maxHeight : ℕ} {e : WalletError X}
    (herror : w.truncateToHeight maxHeight = .error e) :
    w.truncateTo maxHeight = .error e := by
  unfold truncateTo
  rw [herror]
  rfl

/-- A rewind to an applied block. -/
theorem truncateTo_applied (hX : TruncatesToCheckpoints X) {maxHeight k : ℕ} {md : BlockMetadata}
    (hlast : (cut w.blocks maxHeight).toList.getLast? = some (k, md)) :
    (w.truncateTo maxHeight).toOption.map (fun p => p.2.cursor) =
      if w.retains k = true then some { w.cursor with blocks := cut w.cursor.blocks k } else none := by
  have hk := Std.ExtTreeMap.mem_toList_iff_getElem?_eq_some.mp (List.mem_of_getLast? hlast)
  rw [getElem?_cut] at hk
  split_ifs at hk with hle
  have htarget : w.commonTruncationHeight maxHeight = some k := by
    unfold commonTruncationHeight
    rw [hlast]
    rfl
  rcases tryTruncateTreesTo_cases hX w k with ⟨hretains, trees, htrees⟩ | ⟨hretains, htrees⟩
  · have hok : w.truncateToHeight maxHeight = .ok (k, { w with trees := trees }.dropAppliedAbove k) := by
      unfold truncateToHeight
      rw [htarget]
      simp only [htrees]
      rfl
    rw [if_pos hretains, truncateTo_of_ok hok (blockMetadataAt_dropAppliedAbove hk)]
    exact congrArg some (cursor_dropAppliedAbove { w with trees := trees } k)
  · have herror : w.truncateToHeight maxHeight = .error (.truncationTargetUnavailable k) := by
      unfold truncateToHeight
      rw [htarget]
      simp only [htrees]
      rfl
    rw [if_neg (Bool.eq_false_iff.mp hretains), truncateTo_of_error herror]
    rfl

/-- A rewind below all applied blocks. -/
theorem truncateTo_origin (hX : TruncatesToCheckpoints X) {maxHeight : ℕ}
    (hlast : (cut w.blocks maxHeight).toList.getLast? = none) :
    (w.truncateTo maxHeight).toOption.map (fun p => p.2.cursor) =
      if w.blocks.isEmpty = true then if maxHeight = w.seed.blockHeight then some w.cursor else none
      else if w.seed.blockHeight ≤ maxHeight ∧ w.retains w.seed.blockHeight = true then
        some { w.cursor with blocks := cut w.cursor.blocks w.seed.blockHeight }
      else none := by
  have htarget : w.commonTruncationHeight maxHeight = none := by
    unfold commonTruncationHeight
    rw [hlast]
    rfl
  by_cases hempty : w.blocks.isEmpty = true
  · have hmetadata : w.blockMetadataAt maxHeight = if maxHeight =
        w.seed.blockHeight then some w.seed else none := by
      unfold blockMetadataAt
      rw [Std.ExtTreeMap.isEmpty_iff.mp hempty, Std.ExtTreeMap.getElem?_empty]
      rfl
    have hok : w.truncateToHeight maxHeight = .ok (maxHeight, w) := by
      unfold truncateToHeight
      rw [htarget]
      exact if_pos hempty
    rw [if_pos hempty]
    split_ifs at hmetadata ⊢ with hseed
    · rw [truncateTo_of_ok hok hmetadata]
      rfl
    · rw [truncateTo_of_none hok hmetadata]
      rfl
  have hheight : w.truncateToHeight maxHeight = w.truncateToOrigin maxHeight := by
    unfold truncateToHeight
    rw [htarget]
    exact if_neg hempty
  rw [if_neg hempty]
  by_cases horigin : w.seed.blockHeight ≤ maxHeight
  · rcases tryTruncateTreesTo_cases hX w w.seed.blockHeight with
      ⟨hretains, trees, htrees⟩ | ⟨hretains, htrees⟩
    · obtain ⟨md, hmd⟩ := Option.isSome_iff_exists.mp
        (blockMetadataAt_origin ({ w with trees := trees }.dropAppliedAbove w.seed.blockHeight))
      have hok : w.truncateToHeight maxHeight =
          .ok (w.seed.blockHeight, { w with trees := trees }.dropAppliedAbove w.seed.blockHeight) := by
        rw [hheight]
        unfold truncateToOrigin
        rw [if_pos horigin, htrees]
        rfl
      rw [if_pos ⟨horigin, hretains⟩, truncateTo_of_ok hok hmd]
      exact congrArg some (cursor_dropAppliedAbove { w with trees := trees } w.seed.blockHeight)
    · have herror : w.truncateToHeight maxHeight = .error (.truncationTargetUnavailable maxHeight) := by
        rw [hheight]
        unfold truncateToOrigin
        rw [if_pos horigin, htrees]
        rfl
      rw [if_neg fun h => Bool.eq_false_iff.mp hretains h.2, truncateTo_of_error herror]
      rfl
  · have herror : w.truncateToHeight maxHeight = .error (.truncationTargetUnavailable maxHeight) := by
      rw [hheight]
      unfold truncateToOrigin
      exact if_neg horigin
    rw [if_neg fun h => horigin h.1, truncateTo_of_error herror]
    rfl

/-- **The cursor is rewound as the wallet is**, and refused where the wallet refuses. -/
theorem cursor_truncateTo (hX : TruncatesToCheckpoints X) (w : Wallet X) (maxHeight : ℕ) :
    (w.truncateTo maxHeight).toOption.map (fun p => p.2.cursor) =
    w.cursor.truncateTo w.retains maxHeight := by
  have hcut : (cut w.cursor.blocks maxHeight).toList.getLast? =
      (cut w.blocks maxHeight).toList.getLast?.map fun p => (p.1, p.2.blockHash) := by
    rw [← getLast?_map_blocks, ← cut_map_blocks]
    rfl
  have hempty : w.cursor.blocks.isEmpty = w.blocks.isEmpty := by
    rw [Bool.eq_iff_iff, Std.ExtTreeMap.isEmpty_iff, Std.ExtTreeMap.isEmpty_iff]
    exact Std.ExtTreeMap.map_eq_empty_iff
  unfold Cursor.truncateTo
  rw [hcut, hempty]
  rcases hlast : (cut w.blocks maxHeight).toList.getLast? with - | ⟨k, md⟩
  · exact truncateTo_origin hX hlast
  · exact truncateTo_applied hX hlast

/-! ### Along a run -/

/-- The heights and the hashes that a call adds to the applied chain. -/
def appended : Op X → List (ℕ × BlockHash)
  | .putBlocks _ blocks _ => blocks.map fun block => (block.height, block.blockHash)
  | .nameNote _ | .toBeSent _ | .decrypted _ | .status _ _ | .trust _ _ | .lock _ _ _ | .unlock _
    _ | .clearLocks _
  | .truncate _ => []

/-- The height a call rewinds to. -/
def rewindsTo : Op X → Option ℕ
  | .truncate maxHeight => some maxHeight
  | .putBlocks _ _ _ | .nameNote _ | .toBeSent _ | .decrypted _ | .status _ _ | .trust _ _ | .lock _ _
    _ | .unlock _ _
  | .clearLocks _ => none

section Runs

variable {K : Commitments}

theorem cursor_recordSpends (p : OwnedPool) (txid : TxId) (nfs : List Nullifier) (w : Wallet X) :
    (nfs.foldl (recordSpend p txid) w).cursor = w.cursor :=
  List.foldlRecOn nfs _ (motive := fun v : Wallet X => v.cursor = w.cursor) rfl fun v hv nf _ => by
    obtain ⟨lanes, locks, hframe⟩ := recordSpend_frame p txid v nf
    rw [hframe]
    exact hv

theorem cursor_sent (w : Wallet X) (sent : SentTransaction) : (w.storeTransactionToBeSent sent).cursor =
    w.cursor := by
  rw [storeTransactionToBeSent_eq]
  exact (cursor_recordSpends ..).trans (cursor_recordSpends ..)

/-- A call that does not rewind applies the blocks it brings. -/
theorem cursor_step (hw : w.WellFormed) {op : Op X} (hop : ByMint K w op) (hno : rewindsTo op = none)
    (hv : step w op = some v) : v.cursor = (appended op).foldl Cursor.put w.cursor := by
  cases op with
  | putBlocks fromTip blocks marks =>
    obtain ⟨rfl, rfl⟩ | ⟨hne, -, trees, zebraTip, rfl⟩ := putBlocksMarked_ok hw (ok_of_toOption hv)
    · rfl
    · obtain ⟨block, rfl⟩ := ByMint.single hop hne
      exact cursor_applyBlock { w with trees := trees } block
  | nameNote a =>
    obtain ⟨-, -, -, rfl | ⟨-, rfl⟩⟩ := storeNameNote_ok (ok_of_toOption hv)
    · rfl
    · rfl
  | toBeSent transactions =>
    cases hv
    exact List.foldlRecOn transactions _ (motive := fun v : Wallet X => v.cursor = w.cursor) rfl
      fun u hu sent _ => (cursor_sent u sent).trans hu
  | decrypted received => exact hop.elim
  | status txid status => exact hop.elim
  | trust txid trusted =>
    cases hv
    rfl
  | lock outputs owner expiry =>
    obtain ⟨locks, rfl⟩ := lockOutputs_ok (ok_of_toOption hv)
    rfl
  | unlock output owner =>
    obtain ⟨locks, hlocks⟩ := unlockOutput_eq w output owner
    obtain rfl : { w with locks := locks } = v := hlocks.symm.trans (Option.some.inj hv)
    rfl
  | clearLocks account =>
    cases hv
    rfl
  | truncate maxHeight => exact nomatch hno

theorem cursor_run (hw : w.WellFormed) {ops : List (Op X)} (hops : Along Wallet.step (ByMint K) w ops)
    (hno : ∀ op ∈ ops, rewindsTo op = none) (hrun : run Wallet.step w ops = some v) :
    v.cursor = (ops.flatMap appended).foldl Cursor.put w.cursor := by
  induction ops generalizing w with
  | nil =>
    cases hrun
    rfl
  | cons op ops ih =>
    obtain ⟨u, hu, hrest⟩ := run_cons hrun
    have hfirst := cursor_step hw hops.1 (hno op List.mem_cons_self) hu
    have hu' : u.WellFormed := hw.step hops.1.grounded hu
    rw [ih hu' (hops.2 u hu) (fun op' hop' => hno op' (List.mem_cons_of_mem _ hop')) hrest, hfirst,
      List.flatMap_cons,
      List.foldl_append]

/-- The call of a rewind is the wallet's `truncateTo`. -/
theorem step_truncate (hX : TruncatesToCheckpoints X) {maxHeight : ℕ} {c : Cursor}
    (hc : w.cursor.truncateTo w.retains maxHeight = some c) (hv : step w (.truncate maxHeight) = some v) :
    v.cursor = c := by
  rw [← cursor_truncateTo hX] at hc
  obtain ⟨⟨md, u⟩, hu, rfl⟩ := Option.map_eq_some_iff.mp hc
  obtain ⟨⟨k, v'⟩, hv', rfl⟩ := Option.map_eq_some_iff.mp hv
  have hok := ok_of_toOption hu
  have hok' := ok_of_toOption hv'
  rcases hmetadata : v'.blockMetadataAt k with - | md'
  · rw [truncateTo_of_none hok' hmetadata] at hok
    exact nomatch hok
  · rw [truncateTo_of_ok hok' hmetadata] at hok
    obtain ⟨-, rfl⟩ := Prod.mk.inj (Except.ok.inj hok)
    rfl

end Runs

end Wallet

end ZnsMint
