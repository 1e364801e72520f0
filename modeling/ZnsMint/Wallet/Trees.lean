import ZnsMint.Wallet.Rollback

/-! # The commitment trees and the applied chain

The wallet appends each block's commitments to three trees of `shardtree` and refuses the block where a
tree does not end up as the scanner said. What it relies on of a tree is `TreeModel.Lawful`: a list of
leaves that grows at its end, checkpoints by height of how long it was, and leaves marked so that their
witnesses stay. Over such trees the wallet and its trees stay in step (`InStep`): each tree is as long as
the tip's metadata says, and each checkpoint as the metadata of its own block. -/

namespace ZnsMint.Wallet

open Basic Lib.Tables Lib.Checkpoints Lib.Machine

variable {X : Backend}

/-! ### What a tree keeps -/

/-- The leaves a tree of depth 32 holds at most. -/
def CAPACITY : ℕ := 4294967296

/-- The checkpoint that an appended leaf makes. -/
def Retention.checkpointed : Retention → Option ℕ
  | .checkpoint id _ => some id
  | .ephemeral | .marked | .reference => none

/-- A tree by its leaves, the length it had at each checkpoint it retains, and the positions marked. -/
structure TreeModel (X : Backend) where
  valid : X.Tree → Prop
  leaves : X.Tree → List X.Node
  sizeAt : X.Tree → ℕ → Option ℕ
  marked : X.Tree → ℕ → Prop

namespace TreeModel

/-- The leaf is appended, with its mark and its checkpoint. Older checkpoints may be pruned. -/
structure Appends (M : TreeModel X) (tree tree' : X.Tree) (node : X.Node) (retention : Retention) :
    Prop where
  valid : M.valid tree'
  leaves : M.leaves tree' = M.leaves tree ++ [node]
  kept : ∀ p, M.marked tree p → M.marked tree' p
  marked : retention = .marked → M.marked tree' (M.leaves tree).length
  checkpoint : ∀ id, retention.checkpointed = some id → M.sizeAt tree' id =
    some ((M.leaves tree).length + 1)
  sizes : ∀ h n, M.sizeAt tree' h = some n →
    M.sizeAt tree h = some n ∨ retention.checkpointed = some h ∧ n = (M.leaves tree).length + 1

/-- The tree is checkpointed as it is. -/
structure Checkpoints (M : TreeModel X) (tree tree' : X.Tree) (height : ℕ) : Prop where
  valid : M.valid tree'
  leaves : M.leaves tree' = M.leaves tree
  kept : ∀ p, M.marked tree p → M.marked tree' p
  checkpoint : M.sizeAt tree' height = some (M.leaves tree).length
  sizes : ∀ h n, M.sizeAt tree' h = some n → M.sizeAt tree h = some n ∨ h = height ∧
    n = (M.leaves tree).length

/-- The tree is cut back to a checkpoint, with the checkpoints up to it. -/
structure Truncates (M : TreeModel X) (tree tree' : X.Tree) (height size : ℕ) : Prop where
  valid : M.valid tree'
  leaves : M.leaves tree' = (M.leaves tree).take size
  kept : ∀ p < size, M.marked tree p → M.marked tree' p
  sizes : ∀ h n, M.sizeAt tree' h = some n → h ≤ height ∧ M.sizeAt tree h = some n

/-- What `shardtree` documents of its operations: they succeed in order and within the capacity, and a
marked leaf has a witness at every checkpoint above it, which leads to the root there. -/
structure Lawful (M : TreeModel X) : Prop where
  append : ∀ tree node retention, M.valid tree → (M.leaves tree).length < CAPACITY →
    (∀ id, retention.checkpointed = some id → ∀ h, (M.sizeAt tree h).isSome = true → h < id) →
      ∃ tree', X.append tree node retention = .ok tree' ∧ M.Appends tree tree' node retention
  checkpoint : ∀ tree height, M.valid tree → (∀ h, (M.sizeAt tree h).isSome = true → h < height) →
    ∃ tree', X.checkpoint tree height = .ok (true, tree') ∧ M.Checkpoints tree tree' height
  truncate : ∀ tree height size, M.valid tree → M.sizeAt tree height = some size →
    size ≤ (M.leaves tree).length ∧
      ∃ tree', X.truncateToCheckpoint tree height = .ok (true, tree') ∧ M.Truncates tree tree' height size
  maxLeafPosition : ∀ tree, M.valid tree →
    X.maxLeafPosition tree = .ok (if (M.leaves tree).length =
      0 then none else some ((M.leaves tree).length - 1))
  getCheckpoint : ∀ tree height, M.valid tree → X.getCheckpoint tree height =
    (M.sizeAt tree height).isSome
  maxCheckpointId : ∀ tree id, M.valid tree → X.maxCheckpointId tree = some id →
    (M.sizeAt tree id).isSome = true
  witness : ∀ tree height size position leaf, M.valid tree → M.sizeAt tree height = some size →
    M.marked tree position →
    position < size → (M.leaves tree)[position]? = some leaf →
      ∃ path root, X.witnessAtCheckpointId tree position height = .ok (some path) ∧
        X.rootAtCheckpointId tree height = .ok (some root) ∧ X.pathRoot path leaf = root

end TreeModel

/-! ### One block's commitments -/

/-- The scanner checkpoints a block at its last commitment, if at all. -/
def CheckpointedAtEnd (height : ℕ) (commitments : List (X.Node × Retention)) : Prop :=
  ∀ i e, commitments[i]? = some e → ∀ id, e.2.checkpointed = some id → id = height ∧
    i + 1 = commitments.length

/-- What one block's appends make of a tree. -/
structure TreeModel.Extends (M : TreeModel X) (tree tree' : X.Tree) (height : ℕ)
    (commitments : List (X.Node × Retention))
    (marks : List X.Node) : Prop where
  valid : M.valid tree'
  leaves : M.leaves tree' = M.leaves tree ++ commitments.map Prod.fst
  kept : ∀ p, M.marked tree p → M.marked tree' p
  marked : ∀ i e, commitments[i]? = some e → e.1 ∈ marks → M.marked tree' ((M.leaves tree).length + i)
  sizes : ∀ h n, M.sizeAt tree' h = some n →
    M.sizeAt tree h = some n ∨ h = height ∧ n = (M.leaves tree).length + commitments.length

variable {M : TreeModel X} {tree tree' : X.Tree} {height : ℕ} {marks : List X.Node}

theorem CheckpointedAtEnd.tail {e : X.Node × Retention} {l : List (X.Node × Retention)}
    (h : CheckpointedAtEnd height (e :: l)) : CheckpointedAtEnd height l := by
  intro i e' he' id hid
  obtain ⟨hheight, hlast⟩ := h (i + 1) e' he' id hid
  refine ⟨hheight, ?_⟩
  rw [List.length_cons] at hlast
  omega

/-- A commitment that is marked makes no checkpoint. -/
theorem checkpointed_of_ite {e : X.Node × Retention} {id : ℕ}
    (h : (if e.1 ∈ marks then Retention.marked else e.2).checkpointed = some id) :
    e.2.checkpointed = some id := by
  split_ifs at h with hmem
  · exact nomatch h
  · exact h

/-- The appends of a block go through. -/
theorem appends_ok (hM : M.Lawful) (hvalid : M.valid tree)
    (hbelow : ∀ h, (M.sizeAt tree h).isSome = true → h < height) {l : List (X.Node × Retention)}
    (hfits : (M.leaves tree).length + l.length ≤ CAPACITY) (hend : CheckpointedAtEnd height l)
    (marks : List X.Node) :
    ∃ tree', l.foldlM (fun tree e => treeResult
      (X.append tree e.1 (if e.1 ∈ marks then .marked else e.2))) tree =
        .ok tree' ∧
      M.Extends tree tree' height l marks := by
  induction l generalizing tree with
  | nil =>
    refine ⟨tree, rfl, hvalid, ?_, fun _ hp => hp, fun i e he => ?_, fun h n hn => .inl hn⟩
    · rw [List.map_nil, List.append_nil]
    · exact nomatch he
  | cons e l ih =>
    rw [List.length_cons] at hfits
    obtain ⟨first, hfirst, ha⟩ := hM.append tree e.1 (if e.1 ∈ marks then .marked else e.2)
      hvalid (by omega)
        fun id hid h hh => by
      obtain ⟨rfl, -⟩ := hend 0 e rfl id (checkpointed_of_ite hid)
      exact hbelow h hh
    have hlength : (M.leaves first).length = (M.leaves tree).length + 1 := by
      rw [ha.leaves, List.length_append, List.length_singleton]
    -- a checkpoint here would be the block's last commitment
    have hearlier : l ≠ [] → ∀ h n, M.sizeAt first h = some n → M.sizeAt tree h = some n := by
      rintro hne h n hn
      rcases ha.sizes h n hn with hold | ⟨hnew, -⟩
      · exact hold
      · obtain ⟨-, hlast⟩ := hend 0 e rfl h (checkpointed_of_ite hnew)
        have hpos := List.length_pos_iff.mpr hne
        rw [List.length_cons] at hlast
        omega
    rcases eq_or_ne l [] with rfl | hne
    · refine ⟨first, ?_, ha.valid, ha.leaves, ha.kept, fun i e' he' hmem => ?_, fun h n hn => ?_⟩
      · rw [List.foldlM_cons, hfirst]
        rfl
      · have hi : i = 0 := by
          have hlt := (List.getElem?_eq_some_iff.mp he').1
          simpa using hlt
        subst hi
        obtain rfl := Option.some.inj he'
        exact ha.marked (if_pos hmem)
      · rcases ha.sizes h n hn with hold | ⟨hnew, hn'⟩
        · exact .inl hold
        · exact .inr ⟨(hend 0 e rfl h (checkpointed_of_ite hnew)).1, hn'⟩
    · have hbelow' : ∀ h, (M.sizeAt first h).isSome = true → h < height := by
        rintro h hh
        obtain ⟨n, hn⟩ := Option.isSome_iff_exists.mp hh
        exact hbelow h (Option.isSome_iff_exists.mpr ⟨n, hearlier hne h n hn⟩)
      obtain ⟨last, hlast, hl⟩ := ih ha.valid hbelow' (by omega) hend.tail
      refine ⟨last, ?_, hl.valid, ?_, fun p hp => hl.kept p (ha.kept p hp), fun i e' he' hmem =>
        ?_, fun h n hn => ?_⟩
      · rw [List.foldlM_cons, hfirst]
        exact hlast
      · rw [hl.leaves, ha.leaves, List.map_cons, List.append_assoc]
        rfl
      · rcases i with - | i
        · obtain rfl := Option.some.inj he'
          exact hl.kept _ (ha.marked (if_pos hmem))
        · have hmarked := hl.marked i e' he' hmem
          rw [hlength, Nat.add_right_comm, Nat.add_assoc] at hmarked
          exact hmarked
      · rcases hl.sizes h n hn with hold | ⟨rfl, rfl⟩
        · exact .inl (hearlier hne h n hold)
        · refine .inr ⟨rfl, ?_⟩
          rw [hlength, List.length_cons]
          omega

/-- **One block's commitments are appended**, and the height is checkpointed at the tree's new length. -/
theorem appendBlockCommitments_ok (hM : M.Lawful) (hvalid : M.valid tree)
    (hbelow : ∀ h, (M.sizeAt tree h).isSome = true → h < height) {bundles : ScannedBundles X}
    (hsize : bundles.finalTreeSize = (M.leaves tree).length + bundles.commitments.length)
    (hfits : bundles.finalTreeSize ≤ CAPACITY) (hend : CheckpointedAtEnd height bundles.commitments) :
    ∃ tree', appendBlockCommitments tree bundles height marks = .ok tree' ∧
      M.Extends tree tree' height bundles.commitments marks ∧ M.sizeAt tree' height =
        some bundles.finalTreeSize := by
  obtain ⟨grown, hgrown, hg⟩ := appends_ok hM hvalid hbelow (by omega) hend marks
  have hlength : (M.leaves grown).length = bundles.finalTreeSize := by
    rw [hg.leaves, List.length_append, List.length_map, hsize]
  have hold : ∀ h, (M.sizeAt grown h).isSome = true → h ≤ height := by
    rintro h hh
    obtain ⟨n, hn⟩ := Option.isSome_iff_exists.mp hh
    rcases hg.sizes h n hn with hold | ⟨rfl, -⟩
    · exact (hbelow h (Option.isSome_iff_exists.mpr ⟨n, hold⟩)).le
    · exact le_rfl
  have hposition : X.maxLeafPosition grown =
      .ok (if bundles.finalTreeSize = 0 then none else some (bundles.finalTreeSize - 1)) := by
    rw [hM.maxLeafPosition grown hg.valid, hlength]
  have happend : appendBlockCommitments tree bundles height marks =
      ensureBlockCheckpoint grown height := by
    unfold appendBlockCommitments
    refine (congrArg (· >>= _) hgrown).trans ?_
    show (treeResult (X.maxLeafPosition grown) >>= _) = _
    rw [hposition]
    exact if_pos rfl
  rw [happend]
  unfold ensureBlockCheckpoint
  rw [hM.getCheckpoint grown height hg.valid]
  rcases hsome : M.sizeAt grown height with - | n
  · have hnew : ∀ h, (M.sizeAt grown h).isSome = true → h < height := by
      rintro h hh
      refine lt_of_le_of_ne (hold h hh) ?_
      rintro rfl
      rw [hsome] at hh
      exact nomatch hh
    have hmax : ((X.maxCheckpointId grown).any fun id => decide (height ≤ id)) = false := by
      rcases hid : X.maxCheckpointId grown with - | id
      · rfl
      · have hlt := hnew id (hM.maxCheckpointId grown id hg.valid hid)
        simpa using hlt
    obtain ⟨checked, hchecked, hc⟩ := hM.checkpoint grown height hg.valid hnew
    refine ⟨checked, ?_, ⟨hc.valid, ?_, fun p hp => hc.kept p (hg.kept p hp), fun i e he hmem =>
      ?_, fun h n hn => ?_⟩, ?_⟩
    · rw [hmax, hchecked]
      rfl
    · rw [hc.leaves, hg.leaves]
    · exact hc.kept _ (hg.marked i e he hmem)
    · rcases hc.sizes h n hn with hn' | ⟨rfl, rfl⟩
      · exact hg.sizes h n hn'
      · exact .inr ⟨rfl, hlength.trans hsize⟩
    · rw [hc.checkpoint, hlength]
  · refine ⟨grown, rfl, hg, ?_⟩
    rcases hg.sizes height n hsome with hold | ⟨-, rfl⟩
    · exact absurd (hbelow height (Option.isSome_iff_exists.mpr ⟨n, hold⟩)) (Nat.lt_irrefl _)
    · rw [hsize]
      exact hsome

/-! ### In step with the blocks -/

/-- One value a pool. -/
def perPool {α : Type} (sapling orchard ironwood : α) : ShieldedPool → α
  | .sapling => sapling
  | .orchard => orchard
  | .ironwood => ironwood

/-- The length of a tree after a block. -/
def BlockMetadata.treeSize (md : BlockMetadata) : ShieldedPool → Option ℕ
  | .sapling => md.saplingTreeSize
  | .orchard => md.orchardTreeSize
  | .ironwood => md.ironwoodTreeSize

/-- Continuity metadata at `height`: an applied block, or the boot origin. -/
def blockMetadataAt (w : Wallet X) (height : ℕ) : Option BlockMetadata :=
  w.blocks[height]?.or (if height = w.seed.blockHeight then some w.seed else none)

/-- The trees are as long as the tip's metadata says, and each checkpoint they retain is of a block
applied, or of the origin, at its length. -/
structure InStep (M : TreeModel X) (w : Wallet X) : Prop where
  valid : ∀ pool, M.valid (w.trees pool)
  size : ∀ pool, w.tip.treeSize pool = some (M.leaves (w.trees pool)).length
  checkpoints : ∀ pool height size, M.sizeAt (w.trees pool) height = some size →
    height ≤ w.tip.blockHeight ∧ ∃ md, w.blockMetadataAt height = some md ∧ md.treeSize pool = some size

/-- The next block as the scanner hands it over: it follows the tip, no output of it is Orchard's, its
trees grow by its commitments and stay within their capacity. -/
structure NextBlock (w : Wallet X) (block : ScannedBlock X) : Prop where
  height : block.height = w.tip.blockHeight + 1
  bounded : block.height ≤ MAX_HEIGHT
  noOrchard : ∀ tx ∈ block.transactions, tx.orchardOutputs = []
  sizes : ∀ pool, w.tip.treeSize pool =
    some ((block.bundles pool).finalTreeSize - (block.bundles pool).commitments.length)
  grows : ∀ pool, (block.bundles pool).commitments.length ≤ (block.bundles pool).finalTreeSize
  fits : ∀ pool, (block.bundles pool).finalTreeSize ≤ CAPACITY
  atEnd : ∀ pool, CheckpointedAtEnd block.height (block.bundles pool).commitments

variable {w v : Wallet X}

theorem treeSize_toBlockMetadata (block : ScannedBlock X) (pool : ShieldedPool) :
    block.toBlockMetadata.treeSize pool = some (block.bundles pool).finalTreeSize := by
  cases pool <;> rfl

/-- Operations that leave the trees and the applied chain. -/
theorem InStep.frame (h : InStep M w) (htrees : v.trees = w.trees) (hblocks : v.blocks = w.blocks)
    (hseed : v.seed = w.seed) : InStep M v := by
  have htip : v.tip = w.tip := by
    unfold tip
    rw [hblocks, hseed]
  have hmetadata : v.blockMetadataAt = w.blockMetadataAt := by
    funext height
    unfold blockMetadataAt
    rw [hblocks, hseed]
  refine ⟨?_, ?_, ?_⟩
  · rw [htrees]
    exact h.valid
  · rw [htrees, htip]
    exact h.size
  · rw [htrees, htip, hmetadata]
    exact h.checkpoints

/-- **The three trees take the next block.** -/
theorem InStep.appendBlock (hM : M.Lawful) (h : InStep M w) {block : ScannedBlock X}
    (hnext : NextBlock w block)
    (marks : List X.Node) :
    ∃ trees, appendBlock w.trees block marks = .ok trees ∧
      (∀ pool, M.Extends (w.trees pool) (trees pool) block.height (block.bundles pool).commitments
        (if pool = .ironwood then marks else [])) ∧
      ∀ pool, M.sizeAt (trees pool) block.height = some (block.bundles pool).finalTreeSize := by
  have hpool : ∀ (pool : ShieldedPool) (marks : List X.Node), ∃ tree',
      appendBlockCommitments (w.trees pool) (block.bundles pool) block.height marks = .ok tree' ∧
        M.Extends (w.trees pool) tree' block.height (block.bundles pool).commitments marks ∧
        M.sizeAt tree' block.height = some (block.bundles pool).finalTreeSize := by
    intro pool marks
    have hbelow : ∀ height, (M.sizeAt (w.trees pool) height).isSome = true → height < block.height := by
      rintro height hsome
      obtain ⟨size, hsize⟩ := Option.isSome_iff_exists.mp hsome
      have hle := (h.checkpoints pool height size hsize).1
      have hheight := hnext.height
      omega
    have hsize : (block.bundles pool).finalTreeSize =
        (M.leaves (w.trees pool)).length + (block.bundles pool).commitments.length := by
      have hsame := Option.some.inj ((h.size pool).symm.trans (hnext.sizes pool))
      have hgrows := hnext.grows pool
      omega
    exact appendBlockCommitments_ok hM (h.valid pool) hbelow hsize (hnext.fits pool) (hnext.atEnd pool)
  obtain ⟨sapling, hsapling, hs, hs'⟩ := hpool .sapling []
  obtain ⟨orchard, horchard, ho, ho'⟩ := hpool .orchard []
  obtain ⟨ironwood, hironwood, hi, hi'⟩ := hpool .ironwood marks
  refine ⟨perPool sapling orchard ironwood, ?_, fun pool => ?_, fun pool => ?_⟩
  · unfold Wallet.appendBlock
    rw [hsapling, horchard, hironwood]
    refine congrArg Except.ok (funext fun pool => ?_)
    cases pool <;> rfl
  · cases pool with
    | sapling => exact hs
    | orchard => exact ho
    | ironwood => exact hi
  · cases pool with
    | sapling => exact hs'
    | orchard => exact ho'
    | ironwood => exact hi'

/-- A batch of one block that is accepted has its commitments appended. -/
theorem putBlocksMarked_single {fromTip : BlockMetadata} {block : ScannedBlock X} {marks : List X.Node}
    (hok : w.putBlocksMarked fromTip [block] marks = .ok v) :
    ∃ trees, Wallet.appendBlock w.trees block marks = .ok trees ∧
      v = { w with trees := trees }.applyBlocks [block] := by
  unfold putBlocksMarked at hok
  obtain ⟨⟨⟩, -, hok⟩ := ok_of_bind hok
  split_ifs at hok
  obtain ⟨trees, htrees, hok⟩ := ok_of_bind hok
  simp only [List.foldlM_cons, List.foldlM_nil, bind_pure] at htrees
  exact ⟨trees, htrees, (Except.ok.inj hok).symm⟩

/-- **The next block is accepted** at the tip. -/
theorem InStep.accepts (hM : M.Lawful) (hw : w.WellFormed) (h : InStep M w) {block : ScannedBlock X}
    (hnext : NextBlock w block) (marks : List X.Node) :
    ∃ trees, Wallet.appendBlock w.trees block marks = .ok trees ∧
      w.putBlocksMarked w.tip [block] marks = .ok ({ w with trees := trees }.applyBlocks [block]) := by
  obtain ⟨trees, htrees, -⟩ := h.appendBlock hM hnext marks
  have hcontinuity : w.checkContinuity w.tip block [block] = .ok () := by
    have hheight : nextHeight w.tip.blockHeight = block.height := by
      have hbounded := hnext.bounded
      rw [hnext.height] at hbounded ⊢
      exact min_eq_left hbounded
    unfold checkContinuity
    rw [if_neg (not_not.mpr hheight)]
    have hgap : firstGap [block] = none := rfl
    simp only [hgap]
    rcases hlast : w.blocks.toList.getLast? with - | ⟨k, md⟩
    · rw [tip_of_empty hlast]
      exact if_pos ⟨rfl, rfl⟩
    · have hk := hw.last hlast
      rw [tip_of_last hlast] at hk ⊢
      exact if_pos ⟨hk.symm, rfl⟩
  have horchard : ([block].any fun block => block.transactions.any fun tx => !tx.orchardOutputs.isEmpty) =
      false := by
    rw [List.any_cons, List.any_nil, Bool.or_false, List.any_eq_false]
    intro tx htx
    rw [hnext.noOrchard tx htx]
    exact Bool.false_ne_true
  refine ⟨trees, htrees, ?_⟩
  unfold putBlocksMarked
  simp only [hcontinuity, horchard, List.foldlM_cons, List.foldlM_nil, bind_pure, htrees]
  rfl

/-! ### The chain that is applied -/

theorem applyBlock_frame (w : Wallet X) (block : ScannedBlock X) :
    (w.applyBlock block).trees = w.trees ∧ (w.applyBlock block).seed = w.seed := by
  have hreceive : (block.transactions.foldl (Wallet.receiveTx block.height) w).trees = w.trees ∧
      (block.transactions.foldl (Wallet.receiveTx block.height) w).seed = w.seed :=
    List.foldlRecOn block.transactions _ (motive := fun v : Wallet X => v.trees = w.trees ∧ v.seed =
      w.seed) ⟨rfl, rfl⟩
      fun _ hv _ _ => hv
  obtain ⟨lanes, hlanes⟩ := spends_frame block.transactions
    (block.transactions.foldl (Wallet.receiveTx block.height) w)
  unfold Wallet.applyBlock
  rw [hlanes]
  exact hreceive

theorem blockHeight_of_metadata (hw : w.WellFormed) {height : ℕ} {md : BlockMetadata}
    (hmd : w.blockMetadataAt height = some md) : md.blockHeight = height := by
  unfold blockMetadataAt at hmd
  rcases hblock : w.blocks[height]? with - | md'
  · rw [hblock, Option.none_or] at hmd
    split_ifs at hmd with hseed
    rw [← Option.some.inj hmd, hseed]
  · rw [hblock, Option.some_or] at hmd
    rw [← Option.some.inj hmd]
    exact hw.keyed height md' hblock

/-- **The block that is applied takes the trees along.** -/
theorem InStep.applyBlocks (hw : w.WellFormed) (h : InStep M w) {block : ScannedBlock X}
    (hnext : NextBlock w block)
    {marks : List X.Node} {trees : ShieldedPool → X.Tree} (hM : M.Lawful)
    (htrees : Wallet.appendBlock w.trees block marks = .ok trees) :
    InStep M ({ w with trees := trees }.applyBlocks [block]) ∧
      ({ w with trees := trees }.applyBlocks [block]).tip = block.toBlockMetadata := by
  obtain ⟨trees', htrees', hextends, -⟩ := h.appendBlock hM hnext marks
  obtain rfl := Except.ok.inj (htrees'.symm.trans htrees)
  obtain ⟨zebraTip, hzebra⟩ := applyBlocks_eq { w with trees := trees' } [block]
  have hle : w.tip.blockHeight ≤ block.height := by
    have hheight := hnext.height
    omega
  have hwell := hw.with_rest trees' w.zebraTip w.trustedTransactions w.locks
  have htip : ({ w with trees := trees' }.applyBlock block).tip = block.toBlockMetadata :=
    tip_applyBlock hwell hle
  obtain ⟨hframe, hseed⟩ := applyBlock_frame { w with trees := trees' } block
  rw [hzebra]
  refine ⟨InStep.frame (w := { w with trees := trees' }.applyBlock block) ?_ rfl rfl rfl, htip⟩
  refine ⟨fun pool => ?_, fun pool => ?_, fun pool height size hsize => ?_⟩
  · rw [hframe]
    exact (hextends pool).valid
  · have hsame := Option.some.inj ((h.size pool).symm.trans (hnext.sizes pool))
    have hgrows := hnext.grows pool
    rw [htip, hframe, (hextends pool).leaves, List.length_append, List.length_map,
      treeSize_toBlockMetadata]
    refine congrArg some ?_
    omega
  · rw [htip]
    rw [hframe] at hsize
    unfold blockMetadataAt
    rw [blocks_applyBlock, hseed, Std.ExtTreeMap.getElem?_insert]
    rcases (hextends pool).sizes height size hsize with hold | ⟨rfl, rfl⟩
    · obtain ⟨hbelow, hmd⟩ := h.checkpoints pool height size hold
      refine ⟨hbelow.trans hle, ?_⟩
      rw [if_neg]
      · exact hmd
      · intro heq
        have hheight := Nat.compare_eq_eq.mp heq
        have hnew := hnext.height
        omega
    · refine ⟨le_rfl, block.toBlockMetadata, ?_, ?_⟩
      · rw [if_pos (Nat.compare_eq_eq.mpr rfl), Option.some_or]
      · have hsame := Option.some.inj ((h.size pool).symm.trans (hnext.sizes pool))
        have hgrows := hnext.grows pool
        rw [treeSize_toBlockMetadata]
        refine congrArg some ?_
        omega

/-! ### Rewinds -/

/-- A rewind that finds blocks drops what lies above the height it returns: that of a block, or the
origin's below all of them. -/
theorem truncateToHeight_drops {maxHeight k : ℕ} (hblocks : ¬ w.blocks.isEmpty = true)
    (hok : w.truncateToHeight maxHeight = .ok (k, v)) :
    (∃ u, w.tryTruncateTreesTo k = .ok (some u) ∧ v = u.dropAppliedAbove k) ∧
      (k ∈ w.blocks ∨ k = w.seed.blockHeight ∧ ∀ j ∈ w.blocks, k < j) := by
  unfold truncateToHeight at hok
  rcases htarget : w.commonTruncationHeight maxHeight with - | target
  · simp only [htarget, if_neg hblocks] at hok
    unfold truncateToOrigin at hok
    split_ifs at hok with horigin
    obtain ⟨u, htrees, hok⟩ := ok_of_bind hok
    rcases u with - | u
    · exact nomatch hok
    obtain ⟨rfl, rfl⟩ := Prod.mk.inj (Except.ok.inj hok)
    exact ⟨⟨u, htrees, rfl⟩, .inr ⟨rfl, fun j hj =>
      horigin.trans_lt (lt_of_commonTruncationHeight htarget hj)⟩⟩
  · simp only [htarget] at hok
    obtain ⟨u, htrees, hok⟩ := ok_of_bind hok
    rcases u with - | u
    · exact nomatch hok
    obtain ⟨rfl, rfl⟩ := Prod.mk.inj (Except.ok.inj hok)
    exact ⟨⟨u, htrees, rfl⟩, .inl (commonTruncationHeight_eq_some htarget).2⟩

/-- The tip is then the metadata of the height it returns. -/
theorem truncateToHeight_metadata {maxHeight k : ℕ} (hblocks : ¬ w.blocks.isEmpty = true)
    (hok : w.truncateToHeight maxHeight = .ok (k, v)) : w.blockMetadataAt k = some v.tip := by
  obtain ⟨⟨u, htrees, rfl⟩, hk⟩ := truncateToHeight_drops hblocks hok
  obtain ⟨trees, rfl⟩ := tryTruncateTreesTo_ok htrees
  unfold blockMetadataAt
  rcases hk with happlied | ⟨rfl, habove⟩
  · obtain ⟨md, hmd⟩ := Option.isSome_iff_exists.mp (Std.ExtTreeMap.isSome_getElem?_iff_mem.mpr happlied)
    have hlatest : latest (cut w.blocks k) = some md := by
      refine latest_eq_some_of (k := k) ?_ fun j hj => (le_of_mem_cut hj).1
      rw [getElem?_cut, if_pos le_rfl, hmd]
    show _ = some ((latest (cut w.blocks k)).getD w.seed)
    rw [hlatest, hmd]
    rfl
  · have hcut : (cut w.blocks w.seed.blockHeight).toList.getLast? = none := by
      refine Option.eq_none_iff_forall_ne_some.mpr fun ⟨j, md⟩ hlast => ?_
      have hj : j ≤ w.seed.blockHeight ∧ j ∈ w.blocks :=
        commonTruncationHeight_eq_some (Option.map_eq_some_iff.mpr ⟨(j, md), hlast, rfl⟩)
      exact absurd hj.1 (Nat.not_le.mpr (habove j hj.2))
    have hnone : w.blocks[w.seed.blockHeight]? = none := by
      refine Option.eq_none_iff_forall_ne_some.mpr fun md hmd => ?_
      refine absurd (habove w.seed.blockHeight ?_) (Nat.lt_irrefl _)
      exact Std.ExtTreeMap.isSome_getElem?_iff_mem.mp (Option.isSome_iff_exists.mpr ⟨md, hmd⟩)
    rw [tip_of_empty hcut, hnone]
    exact if_pos rfl

/-- The height it returns is the tip's. -/
theorem truncateToHeight_tip (hw : w.WellFormed) {maxHeight k : ℕ} (hblocks : ¬ w.blocks.isEmpty = true)
    (hok : w.truncateToHeight maxHeight = .ok (k, v)) : v.tip.blockHeight = k :=
  blockHeight_of_metadata hw (truncateToHeight_metadata hblocks hok)

/-- A rewind of a wallet without blocks changes nothing. -/
theorem truncateToHeight_empty {maxHeight k : ℕ} (hblocks : w.blocks.isEmpty = true)
    (hok : w.truncateToHeight maxHeight = .ok (k, v)) : v = w := by
  have hnone : w.commonTruncationHeight maxHeight = none := by
    unfold commonTruncationHeight
    rw [Std.ExtTreeMap.isEmpty_iff.mp hblocks]
    rfl
  unfold truncateToHeight at hok
  rw [hnone] at hok
  simp only [hblocks, if_true] at hok
  exact (Prod.mk.inj (Except.ok.inj hok)).2.symm

/-- Three trees that retain a checkpoint are cut back to it. -/
theorem InStep.tryTruncateTreesTo (hM : M.Lawful) (h : InStep M w) {k : ℕ} {u : Wallet X}
    (hok : w.tryTruncateTreesTo k = .ok (some u)) :
    ∃ trees, u = { w with trees := trees } ∧
      ∀ pool, ∃ size ≤ (M.leaves (w.trees pool)).length,
        M.sizeAt (w.trees pool) k = some size ∧ M.Truncates (w.trees pool) (trees pool) k size := by
  unfold Wallet.tryTruncateTreesTo at hok
  split_ifs at hok with hretained
  swap
  · exact nomatch hok
  simp only [Bool.and_eq_true] at hretained
  have hpool : ∀ pool, X.getCheckpoint (w.trees pool) k = true →
    ∃ tree' size, size ≤ (M.leaves (w.trees pool)).length ∧
      X.truncateToCheckpoint (w.trees pool) k = .ok (true, tree') ∧
        M.sizeAt (w.trees pool) k = some size ∧
        M.Truncates (w.trees pool) tree' k size := by
    rintro pool hcheckpoint
    rw [hM.getCheckpoint _ k (h.valid pool)] at hcheckpoint
    obtain ⟨size, hsize⟩ := Option.isSome_iff_exists.mp hcheckpoint
    obtain ⟨hle, tree', htree', ht⟩ := hM.truncate _ k size (h.valid pool) hsize
    exact ⟨tree', size, hle, htree', hsize, ht⟩
  obtain ⟨sapling, sizeS, hleS, hsapling, hsizeS, htS⟩ := hpool .sapling hretained.1.1
  obtain ⟨orchard, sizeO, hleO, horchard, hsizeO, htO⟩ := hpool .orchard hretained.1.2
  obtain ⟨ironwood, sizeI, hleI, hironwood, hsizeI, htI⟩ := hpool .ironwood hretained.2
  rw [hsapling, horchard, hironwood] at hok
  refine ⟨_, (Option.some.inj (Except.ok.inj hok)).symm, fun pool => ?_⟩
  cases pool with
  | sapling => exact ⟨sizeS, hleS, hsizeS, htS⟩
  | orchard => exact ⟨sizeO, hleO, hsizeO, htO⟩
  | ironwood => exact ⟨sizeI, hleI, hsizeI, htI⟩

/-- **A rewind takes the trees along.** -/
theorem InStep.truncateToHeight (hM : M.Lawful) (hw : w.WellFormed) (h : InStep M w) {maxHeight k : ℕ}
    (hok : w.truncateToHeight maxHeight = .ok (k, v)) : InStep M v := by
  by_cases hblocks : w.blocks.isEmpty = true
  · obtain rfl := truncateToHeight_empty hblocks hok
    exact h
  have hmetadata := truncateToHeight_metadata hblocks hok
  have htip := truncateToHeight_tip hw hblocks hok
  obtain ⟨⟨u, htrees, rfl⟩, -⟩ := truncateToHeight_drops hblocks hok
  obtain ⟨trees, rfl, hcut⟩ := h.tryTruncateTreesTo hM htrees
  refine ⟨fun pool => ?_, fun pool => ?_, fun pool height size hsize => ?_⟩
  · obtain ⟨size', -, -, ht⟩ := hcut pool
    exact ht.valid
  · obtain ⟨size, hle, hsize, ht⟩ := hcut pool
    obtain ⟨-, md, hmd, htreeSize⟩ := h.checkpoints pool k size hsize
    obtain rfl := Option.some.inj (hmd.symm.trans hmetadata)
    show _ = some (M.leaves (trees pool)).length
    rw [htreeSize, ht.leaves, List.length_take, min_eq_left hle]
  · obtain ⟨size', -, -, ht⟩ := hcut pool
    obtain ⟨hheight, hold⟩ := ht.sizes height size hsize
    obtain ⟨-, md, hmd, htreeSize⟩ := h.checkpoints pool height size hold
    refine ⟨htip.symm ▸ hheight, md, ?_, htreeSize⟩
    rw [← hmd]
    show (cut w.blocks k)[height]?.or _ = _
    rw [getElem?_cut, if_pos hheight]
    rfl

/-! ### Runs -/

/-- A call of the mint: its blocks come one by one, each the next one. -/
def InOrder (w : Wallet X) : Op X → Prop
  | .putBlocks _ blocks _ => blocks.length ≤ 1 ∧ ∀ block ∈ blocks, NextBlock w block
  | op => Grounded w op

theorem InOrder.grounded {op : Op X} (hop : InOrder w op) : Grounded w op := by
  cases op with
  | putBlocks => exact trivial
  | nameNote | toBeSent | decrypted | status | trust | lock | unlock | clearLocks | truncate => exact hop

/-- Trees as boot hands them over: as long as the origin says, with a checkpoint there if any. -/
structure TreeModel.Booted (M : TreeModel X) (origin : BlockMetadata) (trees : ShieldedPool → X.Tree) :
    Prop where
  valid : ∀ pool, M.valid (trees pool)
  size : ∀ pool, origin.treeSize pool = some (M.leaves (trees pool)).length
  checkpoints : ∀ pool height size, M.sizeAt (trees pool) height = some size →
    height = origin.blockHeight ∧ size = (M.leaves (trees pool)).length

theorem InStep.new {origin : BlockMetadata} {trees : ShieldedPool → X.Tree} (h : M.Booted origin trees)
    (ends : ShieldedPool → Table (ℕ × ℕ) ℕ) : InStep M (new origin trees ends) := by
  refine ⟨h.valid, h.size, fun pool height size hcheckpoint => ?_⟩
  obtain ⟨rfl, rfl⟩ := h.checkpoints pool height size hcheckpoint
  refine ⟨le_rfl, origin, ?_, h.size pool⟩
  show ((∅ : HeightMap BlockMetadata)[origin.blockHeight]?).or (if _ then _ else _) = _
  rw [Std.ExtTreeMap.getElem?_empty, Option.none_or]
  exact if_pos rfl

theorem sent_frame (w : Wallet X) (sent : SentTransaction) :
    (w.storeTransactionToBeSent sent).trees = w.trees ∧
    (w.storeTransactionToBeSent sent).blocks = w.blocks ∧
      (w.storeTransactionToBeSent sent).seed = w.seed := by
  have hspends : ∀ (p : OwnedPool) (txid : TxId) (nfs : List Nullifier) (v : Wallet X),
      (nfs.foldl (recordSpend p txid) v).trees = v.trees ∧
        (nfs.foldl (recordSpend p txid) v).blocks = v.blocks ∧
        (nfs.foldl (recordSpend p txid) v).seed = v.seed := by
    intro p txid nfs v
    refine List.foldlRecOn nfs _
      (motive := fun u : Wallet X => u.trees = v.trees ∧ u.blocks = v.blocks ∧ u.seed = v.seed)
        ⟨rfl, rfl, rfl⟩
      fun u hu nf _ => ?_
    obtain ⟨lanes, locks, hframe⟩ := recordSpend_frame p txid u nf
    rw [hframe]
    exact hu
  rw [storeTransactionToBeSent_eq]
  obtain ⟨ht, hb, hs⟩ := hspends .ironwood sent.tx.txid (sent.tx.nullifiers .ironwood)
    ((sent.tx.nullifiers .sapling).foldl (recordSpend .sapling sent.tx.txid) (w.storeRaw sent))
  obtain ⟨ht', hb', hs'⟩ := hspends .sapling sent.tx.txid (sent.tx.nullifiers .sapling) (w.storeRaw sent)
  exact ⟨ht.trans ht', hb.trans hb', hs.trans hs'⟩

/-- What a call can do to the trees and the applied chain: nothing, append the block it applies, or
rewind both. -/
theorem step_trees {op : Op X} (hop : InOrder w op) (hv : step w op = some v) :
    (v.trees = w.trees ∧ v.blocks = w.blocks ∧ v.seed = w.seed) ∨
    (∃ block marks trees, NextBlock w block ∧ Wallet.appendBlock w.trees block marks = .ok trees ∧
      v = { w with trees := trees }.applyBlocks [block]) ∨
    ∃ maxHeight k, op = .truncate maxHeight ∧ w.truncateToHeight maxHeight = .ok (k, v) := by
  cases op with
  | putBlocks fromTip blocks marks =>
    obtain ⟨hle, hnext⟩ := hop
    have hok := ok_of_toOption hv
    rcases blocks with - | ⟨block, rest⟩
    · obtain rfl := Except.ok.inj hok
      exact .inl ⟨rfl, rfl, rfl⟩
    · have hrest : rest = [] := by
        rw [List.length_cons] at hle
        exact List.length_eq_zero_iff.mp (by omega)
      subst hrest
      obtain ⟨trees, htrees, rfl⟩ := putBlocksMarked_single hok
      exact .inr (.inl ⟨block, marks, trees, hnext block List.mem_cons_self, htrees, rfl⟩)
  | nameNote a =>
    obtain ⟨-, -, -, rfl | ⟨-, rfl⟩⟩ := storeNameNote_ok (ok_of_toOption hv)
    · exact .inl ⟨rfl, rfl, rfl⟩
    · exact .inl ⟨rfl, rfl, rfl⟩
  | toBeSent transactions =>
    cases hv
    refine .inl (List.foldlRecOn transactions storeTransactionToBeSent
      (motive := fun v : Wallet X => v.trees = w.trees ∧ v.blocks = w.blocks ∧ v.seed = w.seed)
        ⟨rfl, rfl, rfl⟩
      fun u hu sent _ => ?_)
    obtain ⟨htrees, hblocks, hseed⟩ := sent_frame u sent
    exact ⟨htrees.trans hu.1, hblocks.trans hu.2.1, hseed.trans hu.2.2⟩
  | decrypted received =>
    cases hv
    exact .inl ⟨rfl, rfl, rfl⟩
  | status txid status =>
    cases hv
    exact .inl ⟨rfl, rfl, rfl⟩
  | trust txid trusted =>
    cases hv
    exact .inl ⟨rfl, rfl, rfl⟩
  | lock outputs owner expiry =>
    obtain ⟨locks, rfl⟩ := lockOutputs_ok (ok_of_toOption hv)
    exact .inl ⟨rfl, rfl, rfl⟩
  | unlock output owner =>
    obtain ⟨locks, hlocks⟩ := unlockOutput_eq w output owner
    obtain rfl : { w with locks := locks } = v := hlocks.symm.trans (Option.some.inj hv)
    exact .inl ⟨rfl, rfl, rfl⟩
  | clearLocks account =>
    cases hv
    exact .inl ⟨rfl, rfl, rfl⟩
  | truncate maxHeight =>
    obtain ⟨⟨k, u⟩, hu, rfl⟩ := Option.map_eq_some_iff.mp hv
    exact .inr (.inr ⟨maxHeight, k, rfl, ok_of_toOption hu⟩)

/-- **Every call keeps the trees in step.** -/
theorem InStep.step (hM : M.Lawful) (h : w.WellFormed ∧ InStep M w) {op : Op X} (hop : InOrder w op)
    (hv : step w op = some v) : v.WellFormed ∧ InStep M v := by
  refine ⟨h.1.step hop.grounded hv, ?_⟩
  rcases step_trees hop hv with ⟨htrees, hblocks, hseed⟩ | ⟨block, marks, trees, hnext, htrees,
    rfl⟩ | ⟨maxHeight, k, -, hok⟩
  · exact h.2.frame htrees hblocks hseed
  · exact (h.2.applyBlocks h.1 hnext hM htrees).1
  · exact h.2.truncateToHeight hM h.1 hok

/-- And so does every run. -/
theorem InStep.run (hM : M.Lawful) (h : w.WellFormed ∧ InStep M w) {ops : List (Op X)}
    (hops : Along Wallet.step InOrder w ops) (hrun : run Wallet.step w ops = some v) :
    v.WellFormed ∧ InStep M v :=
  run_invariant (fun _ _ _ hs hop hstep => InStep.step hM hs hop hstep) ops w v h hops hrun

/-! ### Marked leaves -/

/-- A leaf of the Ironwood tree that a block at `height` marked: it is at its position, and below every
checkpoint from that block on. -/
structure Placed (M : TreeModel X) (w : Wallet X) (height position : ℕ) (leaf : X.Node) : Prop where
  applied : height ∈ w.blocks
  leaf : (M.leaves (w.trees .ironwood))[position]? = some leaf
  marked : M.marked (w.trees .ironwood) position
  below : ∀ h size, M.sizeAt (w.trees .ironwood) h = some size → height ≤ h → position < size

/-- A call that takes back no block at `height` or below. -/
def KeepsTo (height : ℕ) (w : Wallet X) (op : Op X) : Prop :=
  InOrder w op ∧ ∀ maxHeight, op = .truncate maxHeight → height ≤ maxHeight

variable {height position : ℕ} {leaf : X.Node}

theorem Placed.frame (h : Placed M w height position leaf) (htrees : v.trees = w.trees)
    (hblocks : v.blocks = w.blocks) :
    Placed M v height position leaf := by
  refine ⟨hblocks ▸ h.applied, ?_, ?_, ?_⟩
  · rw [htrees]
    exact h.leaf
  · rw [htrees]
    exact h.marked
  · rw [htrees]
    exact h.below

/-- What stands in a list still does when it grows. -/
theorem getElem?_append_of_some {α : Type} {l l' : List α} {i : ℕ} {a : α} (h : l[i]? = some a) :
    (l ++ l')[i]? = some a := by
  rw [List.getElem?_append_left (List.getElem?_eq_some_iff.mp h).1]
  exact h

theorem Placed.applyBlocks (h : Placed M w height position leaf) {block : ScannedBlock X}
    {marks : List X.Node}
    {trees : ShieldedPool → X.Tree}
    (hextends : M.Extends (w.trees .ironwood) (trees .ironwood) block.height
    (block.bundles .ironwood).commitments marks) :
    Placed M ({ w with trees := trees }.applyBlocks [block]) height position leaf := by
  obtain ⟨zebraTip, hzebra⟩ := applyBlocks_eq { w with trees := trees } [block]
  rw [hzebra]
  refine Placed.frame (w := { w with trees := trees }.applyBlock block) ?_ rfl rfl
  obtain ⟨hframe, -⟩ := applyBlock_frame { w with trees := trees } block
  refine ⟨?_, ?_, ?_, fun k size hsize hle => ?_⟩
  · rw [blocks_applyBlock, Std.ExtTreeMap.mem_insert]
    exact .inr h.applied
  · rw [hframe, hextends.leaves]
    exact getElem?_append_of_some h.leaf
  · rw [hframe]
    exact hextends.kept position h.marked
  · rw [hframe] at hsize
    rcases hextends.sizes k size hsize with hold | ⟨-, rfl⟩
    · exact h.below k size hold hle
    · have hlt := (List.getElem?_eq_some_iff.mp h.leaf).1
      omega

/-- A rewind to an applied height or above it keeps that block. -/
theorem truncateToHeight_keeps {maxHeight k : ℕ} (happlied : height ∈ w.blocks) (hle : height ≤ maxHeight)
    (hok : w.truncateToHeight maxHeight = .ok (k, v)) : height ≤ k := by
  unfold truncateToHeight at hok
  rcases htarget : w.commonTruncationHeight maxHeight with - | target
  · exact absurd (lt_of_commonTruncationHeight htarget happlied) (Nat.not_lt.mpr hle)
  · simp only [htarget] at hok
    obtain ⟨u, -, hok⟩ := ok_of_bind hok
    rcases u with - | u
    · exact nomatch hok
    obtain ⟨rfl, -⟩ := Prod.mk.inj (Except.ok.inj hok)
    obtain ⟨⟨j, md⟩, hlast, rfl⟩ := Option.map_eq_some_iff.mp htarget
    refine le_of_getLast? hlast ?_
    rw [← Std.ExtTreeMap.isSome_getElem?_iff_mem, getElem?_cut, if_pos hle]
    exact Std.ExtTreeMap.isSome_getElem?_iff_mem.mpr happlied

theorem Placed.truncateToHeight (hM : M.Lawful) (hs : InStep M w) (h : Placed M w height position leaf)
    {maxHeight k : ℕ} (hle : height ≤ maxHeight) (hok : w.truncateToHeight maxHeight = .ok (k, v)) :
    Placed M v height position leaf := by
  have hblocks : ¬ w.blocks.isEmpty = true := by
    intro hempty
    have happlied := h.applied
    rw [Std.ExtTreeMap.isEmpty_iff.mp hempty] at happlied
    exact absurd happlied Std.ExtTreeMap.not_mem_empty
  have hkeeps := truncateToHeight_keeps h.applied hle hok
  obtain ⟨⟨u, htrees, rfl⟩, -⟩ := truncateToHeight_drops hblocks hok
  obtain ⟨trees, rfl, hcut⟩ := hs.tryTruncateTreesTo hM htrees
  obtain ⟨size, -, hsize, ht⟩ := hcut .ironwood
  have hlt : position < size := h.below k size hsize hkeeps
  refine ⟨?_, ?_, ht.kept position hlt h.marked, fun j n hn hj => h.below j n (ht.sizes j n hn).2 hj⟩
  · show height ∈ cut w.blocks k
    rw [← Std.ExtTreeMap.isSome_getElem?_iff_mem, getElem?_cut, if_pos hkeeps]
    exact Std.ExtTreeMap.isSome_getElem?_iff_mem.mpr h.applied
  · show (M.leaves (trees .ironwood))[position]? = some leaf
    rw [ht.leaves, List.getElem?_take_of_lt hlt]
    exact h.leaf

/-- **A marked leaf stays in its place**, whatever comes after it. -/
theorem Placed.step (hM : M.Lawful) (h : (w.WellFormed ∧ InStep M w) ∧ Placed M w height position leaf)
    {op : Op X}
    (hop : KeepsTo height w op) (hv : step w op = some v) :
    (v.WellFormed ∧ InStep M v) ∧ Placed M v height position leaf := by
  obtain ⟨hs, hp⟩ := h
  refine ⟨InStep.step hM hs hop.1 hv, ?_⟩
  rcases step_trees hop.1 hv with ⟨htrees, hblocks, -⟩ | ⟨block, marks, trees, hnext, htrees,
    rfl⟩ | ⟨maxHeight, k, rfl, hok⟩
  · exact hp.frame htrees hblocks
  · obtain ⟨trees', htrees', hextends, -⟩ := hs.2.appendBlock hM hnext marks
    obtain rfl := Except.ok.inj (htrees'.symm.trans htrees)
    exact hp.applyBlocks (hextends .ironwood)
  · exact hp.truncateToHeight hM hs.2 (hop.2 maxHeight rfl) hok

/-- **A marked leaf has its witness** at every checkpoint kept from its block on, after every run that
keeps the block. -/
theorem Placed.witnessed (hM : M.Lawful) (hs : w.WellFormed ∧ InStep M w)
    (h : Placed M w height position leaf)
    {ops : List (Op X)} (hops : Along Wallet.step (KeepsTo height) w ops)
    (hrun : run Wallet.step w ops = some v) {k : ℕ}
    (hk : height ≤ k) (hcheckpoint : X.getCheckpoint (v.trees .ironwood) k = true) :
    ∃ path root, X.witnessAtCheckpointId (v.trees .ironwood) position k = .ok (some path) ∧
      X.rootAtCheckpointId (v.trees .ironwood) k = .ok (some root) ∧ X.pathRoot path leaf = root := by
  obtain ⟨hsteps, hplaced⟩ :=
    run_invariant (fun _ _ _ hs hop hstep => Placed.step hM hs hop hstep) ops w v ⟨hs, h⟩ hops hrun
  have hvalid := hsteps.2.valid .ironwood
  rw [hM.getCheckpoint _ k hvalid] at hcheckpoint
  obtain ⟨size, hsize⟩ := Option.isSome_iff_exists.mp hcheckpoint
  exact hM.witness _ k size position leaf hvalid hsize hplaced.marked
    (hplaced.below k size hsize hk) hplaced.leaf

/-! ### Trees as lists -/

/-- The checkpoints after an append to a tree of `size` leaves with it. -/
def Retention.checkpointIn (checkpoints : HeightMap ℕ) (size : ℕ) (retention : Retention) : HeightMap ℕ :=
  match retention.checkpointed with
  | some id => checkpoints.insert id size
  | none => checkpoints

/-- A tree cut back to a checkpoint, if it has it. -/
def cutLeaves (tree : List (List ℕ) × HeightMap ℕ) (height : ℕ) : Bool × (List (List ℕ) × HeightMap ℕ) :=
  match tree.2[height]? with
  | some size => (true, (tree.1.take size, cut tree.2 height))
  | none => (false, tree)

/-- Trees that keep every leaf and every checkpoint. A root is the list of the leaves, and a path the
leaves on either side. -/
def leafBackend : Backend where
  Note := ℕ
  Node := List ℕ
  Path := List (List ℕ) × List (List ℕ)
  Tree := List (List ℕ) × HeightMap ℕ
  TreeError := Unit
  Memo := Unit
  decNote := inferInstance
  decNode := inferInstance
  decMemo := inferInstance
  append tree leaf retention := .ok (tree.1 ++ [leaf], retention.checkpointIn tree.2 (tree.1.length + 1))
  maxLeafPosition tree := .ok (if tree.1.length = 0 then none else some (tree.1.length - 1))
  getCheckpoint tree height := tree.2[height]?.isSome
  maxCheckpointId tree := tree.2.toList.getLast?.map Prod.fst
  checkpoint tree height := .ok (true, (tree.1, tree.2.insert height tree.1.length))
  truncateToCheckpoint tree height := .ok (cutLeaves tree height)
  witnessAtCheckpointId tree position height := .ok <|
    tree.2[height]?.map fun size => (tree.1.take position, (tree.1.take size).drop (position + 1))
  rootAtCheckpointId tree height := .ok (tree.2[height]?.map fun size => (tree.1.take size).flatten)
  pathRoot path leaf := (path.1 ++ leaf :: path.2).flatten
  znsCmx note _ _ := some [note]
  memoFromBytes _ := some ()
  memoFuture _ := ()

/-- The lengths go up with the heights, to that of the tree at most. -/
structure LeafValid (tree : List (List ℕ) × HeightMap ℕ) : Prop where
  fits : ∀ (h n : ℕ), tree.2[h]? = some n → n ≤ tree.1.length
  mono : ∀ (h n h' n' : ℕ), tree.2[h]? = some n → tree.2[h']? = some n' → h ≤ h' → n ≤ n'

/-- Every leaf has its witness. -/
def leafModel : TreeModel leafBackend where
  valid := LeafValid
  leaves tree := tree.1
  sizeAt tree height := tree.2[height]?
  marked tree position := position < tree.1.length

/-- A checkpoint above all others, at the length of the tree. -/
theorem LeafValid.insert {leaves leaves' : List (List ℕ)} {checkpoints : HeightMap ℕ} {height : ℕ}
    (h : LeafValid (leaves, checkpoints)) (hlength : leaves.length ≤ leaves'.length)
    (habove : ∀ k : ℕ, (checkpoints[k]?).isSome = true → k < height) :
    LeafValid (leaves', checkpoints.insert height leaves'.length) := by
  have hcases : ∀ k n : ℕ, (checkpoints.insert height leaves'.length)[k]? = some n →
      k = height ∧ n = leaves'.length ∨ k < height ∧ checkpoints[k]? = some n := by
    intro k n hn
    rw [Std.ExtTreeMap.getElem?_insert] at hn
    split_ifs at hn with hk
    · exact .inl ⟨(Nat.compare_eq_eq.mp hk).symm, (Option.some.inj hn).symm⟩
    · exact .inr ⟨habove k (Option.isSome_iff_exists.mpr ⟨n, hn⟩), hn⟩
  constructor
  · intro k n hn
    rcases hcases k n hn with ⟨-, rfl⟩ | ⟨-, hold⟩
    · exact le_rfl
    · exact (h.fits k n hold).trans hlength
  · intro k n k' n' hn hn' hle
    rcases hcases k n hn with ⟨rfl, rfl⟩ | ⟨hlt, hold⟩
    · rcases hcases k' n' hn' with ⟨-, rfl⟩ | ⟨hlt', -⟩
      · exact le_rfl
      · omega
    · rcases hcases k' n' hn' with ⟨-, rfl⟩ | ⟨-, hold'⟩
      · exact (h.fits k n hold).trans hlength
      · exact h.mono k n k' n' hold hold' hle

section Leaves

variable {leaves : List (List ℕ)} {checkpoints : HeightMap ℕ} {height size : ℕ}

theorem LeafValid.append (h : LeafValid (leaves, checkpoints)) (node : List ℕ) (retention : Retention)
    (habove : ∀ id, retention.checkpointed = some id → ∀ k : ℕ, (checkpoints[k]?).isSome =
    true → k < id) :
    leafModel.Appends (leaves, checkpoints)
      (leaves ++ [node], retention.checkpointIn checkpoints (leaves.length + 1)) node retention := by
  have hgrown : (leaves ++ [node]).length = leaves.length + 1 := by
    rw [List.length_append, List.length_singleton]
  have hkept : ∀ p, p < leaves.length → p < (leaves ++ [node]).length := by
    intro p hp
    omega
  have hlast : leaves.length < (leaves ++ [node]).length := by omega
  rcases hid : retention.checkpointed with - | id
  · have hsame : retention.checkpointIn checkpoints (leaves.length + 1) = checkpoints := by
      unfold Retention.checkpointIn
      rw [hid]
    rw [hsame]
    refine ⟨⟨fun k n hn => ?_, h.mono⟩, rfl, hkept, fun _ => hlast, fun id' hid' =>
      ?_, fun k n hn => .inl hn⟩
    · have hfits : n ≤ leaves.length := h.fits k n hn
      show n ≤ (leaves ++ [node]).length
      omega
    · rw [hid] at hid'
      exact nomatch hid'
  · have hsame : retention.checkpointIn checkpoints (leaves.length + 1) =
        checkpoints.insert id (leaves ++ [node]).length := by
      unfold Retention.checkpointIn
      rw [hid, hgrown]
    rw [hsame]
    refine ⟨h.insert (by omega) (habove id hid), rfl, hkept, fun _ => hlast, fun id' hid' =>
      ?_, fun k n hn => ?_⟩
    · obtain rfl := Option.some.inj (hid.symm.trans hid')
      show (checkpoints.insert id (leaves ++ [node]).length)[id]? = some (leaves.length + 1)
      rw [Std.ExtTreeMap.getElem?_insert_self, hgrown]
    · have hn' : (checkpoints.insert id (leaves ++ [node]).length)[k]? = some n := hn
      rw [Std.ExtTreeMap.getElem?_insert] at hn'
      split_ifs at hn' with hk
      · refine .inr ⟨hid.trans (congrArg some (Nat.compare_eq_eq.mp hk)), ?_⟩
        exact (Option.some.inj hn').symm.trans hgrown
      · exact .inl hn'

theorem LeafValid.checkpoint (h : LeafValid (leaves, checkpoints))
    (habove : ∀ k : ℕ, (checkpoints[k]?).isSome = true → k < height) :
    leafModel.Checkpoints (leaves, checkpoints)
      (leaves, checkpoints.insert height leaves.length) height := by
  refine ⟨h.insert le_rfl habove, rfl, fun _ hp => hp, Std.ExtTreeMap.getElem?_insert_self,
    fun k n hn => ?_⟩
  have hn' : (checkpoints.insert height leaves.length)[k]? = some n := hn
  rw [Std.ExtTreeMap.getElem?_insert] at hn'
  split_ifs at hn' with hk
  · exact .inr ⟨(Nat.compare_eq_eq.mp hk).symm, (Option.some.inj hn').symm⟩
  · exact .inl hn'

theorem LeafValid.truncate (h : LeafValid (leaves, checkpoints))
    (hsize : checkpoints[height]? = some size) :
    leafModel.Truncates (leaves, checkpoints) (leaves.take size, cut checkpoints height) height size := by
  have hcases : ∀ k n : ℕ, (cut checkpoints height)[k]? = some n → k ≤ height ∧
      checkpoints[k]? = some n := by
    intro k n hn
    rw [getElem?_cut] at hn
    split_ifs at hn with hk
    exact ⟨hk, hn⟩
  have hlength : (leaves.take size).length = size := by
    rw [List.length_take, min_eq_left (h.fits height size hsize)]
  refine ⟨⟨fun k n hn => ?_, fun k n k' n' hn hn' => ?_⟩, rfl, fun p hp _ => ?_, hcases⟩
  · obtain ⟨hk, hold⟩ := hcases k n hn
    show n ≤ (leaves.take size).length
    rw [hlength]
    exact h.mono k n height size hold hsize hk
  · exact h.mono k n k' n' (hcases k n hn).2 (hcases k' n' hn').2
  · show p < (leaves.take size).length
    rw [hlength]
    exact hp

theorem flatten_witness {position : ℕ} {leaf : List ℕ} (hlt : position < size)
    (hleaf : leaves[position]? = some leaf) :
    (leaves.take position ++ leaf :: (leaves.take size).drop (position + 1)).flatten =
    (leaves.take size).flatten := by
  have hat : (leaves.take size)[position]? = some leaf := (List.getElem?_take_of_lt hlt).trans hleaf
  obtain ⟨hlength, hget⟩ := List.getElem?_eq_some_iff.mp hat
  have hbefore : leaves.take position = (leaves.take size).take position := by
    rw [List.take_take, min_eq_left hlt.le]
  rw [hbefore, ← hget, ← List.drop_eq_getElem_cons hlength, List.take_append_drop]

end Leaves

theorem leafModel_lawful : leafModel.Lawful where
  append _ node retention hvalid _ habove := ⟨_, rfl, LeafValid.append hvalid node retention habove⟩
  checkpoint _ _ hvalid habove := ⟨_, rfl, LeafValid.checkpoint hvalid habove⟩
  truncate tree height size hvalid hsize := by
    have hsize' : tree.2[height]? = some size := hsize
    refine ⟨hvalid.fits height size hsize', (tree.1.take size, cut tree.2 height), ?_,
      LeafValid.truncate hvalid hsize'⟩
    show Except.ok (cutLeaves tree height) = _
    unfold cutLeaves
    simp only [hsize']
    rfl
  maxLeafPosition _ _ := rfl
  getCheckpoint _ _ _ := rfl
  maxCheckpointId tree id _ hid := by
    obtain ⟨⟨k, n⟩, hlast, rfl⟩ := Option.map_eq_some_iff.mp hid
    have hmem := Std.ExtTreeMap.mem_toList_iff_getElem?_eq_some.mp (List.mem_of_getLast? hlast)
    exact Option.isSome_iff_exists.mpr ⟨n, hmem⟩
  witness tree height size position leaf _ hsize _ hlt hleaf := by
    have hsize' : tree.2[height]? = some size := hsize
    refine ⟨(tree.1.take position, (tree.1.take size).drop (position + 1)),
      (tree.1.take size).flatten, ?_, ?_,
      flatten_witness hlt hleaf⟩
    · show Except.ok (tree.2[height]?.map _) = _
      rw [hsize']
      rfl
    · show Except.ok (tree.2[height]?.map _) = _
      rw [hsize']
      rfl

end ZnsMint.Wallet
