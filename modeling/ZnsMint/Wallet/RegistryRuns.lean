import ZnsMint.Wallet.RegistryView
import ZnsMint.Wallet.Trees
import ZnsMint.Lib.Simulation

/-! # Two wallets, one run

What the wallet's tables hold of the Registry account's notes is what the `RegistryWallet` of the loop
holds, in every run: blocks, Name Notes, transactions sent and rewinds take the one with the other, and
the claim anchors and Name Notes that can be spent are the same. Not every transaction sent reaches the
smaller wallet: refunds and sweeps spend no note of the Registry, and are left out there. -/

namespace ZnsMint.Wallet

open Basic Registry Lib.Tables Lib.Checkpoints Lib.Machine Lib.Simulation

variable {X : Backend}

/-! ### The two wallets -/

/-- What ids and keys settle once and for all: the Ironwood nullifiers revealed by the transaction of an
id, and which nullifiers are those of the Registry's notes. -/
structure Commitments where
  reveals : TxId → List Nullifier
  registry : Nullifier → Bool

/-- The transaction spends a note of the Registry. -/
def Commitments.SpendsRegistry (K : Commitments) (txid : TxId) : Prop :=
  ∃ nf ∈ K.reveals txid, K.registry nf = true

/-- The smaller wallet `r` keeps what the tables of `w` hold of the Registry's notes, and what they know
of the transactions that may spend them. -/
structure Shows (K : Commitments) (w : Wallet X) (r : RegistryWallet) : Prop where
  linked : (w.lanes .ironwood).Linked
  lane : (w.lanes .ironwood).Shows r
  keyed : ∀ nf, ((w.lanes .ironwood).registryNote nf).isSome = true → K.registry nf = true
  spenders : ∀ nf txid, r.noteSpends nf = some txid → nf ∈ K.reveals txid
  mined : ∀ txid m, r.statuses txid = some (.mined m) ↔ w.transactionStatuses txid = some (.mined m)
  known : ∀ txid, K.SpendsRegistry txid →
    r.statuses txid = w.transactionStatuses txid ∧
      r.transactions txid = (w.transactions txid).map Transaction.expiryHeight

/-- A block as the chain gives it: its transactions are mined here for the first time, its notes are new,
and a transaction spends what its id commits to. -/
structure NewBlock (K : Commitments) (w : Wallet X) (block : ScannedBlock X) : Prop where
  unmined : ∀ tx ∈ block.transactions, w.minedHeight tx.txid = none
  once : (block.received.map Prod.fst).Nodup
  distinct : (block.received.filterMap fun e => e.2.nf).Nodup
  newNfs : ∀ e ∈ block.received, ∀ nf ∈ e.2.nf, (w.lanes .ironwood).nullifiers nf = none
  scopes : ∀ e ∈ block.received, e.2.recipientKeyScope.isSome = true
  keyed : ∀ e ∈ block.received, e.2.accountId = REGISTRY_ACCOUNT → ∀ nf ∈ e.2.nf, K.registry nf = true
  reveals : ∀ tx ∈ block.transactions, ∀ nf ∈ tx.spends .ironwood, nf ∈ K.reveals tx.txid

instance (K : Commitments) (w : Wallet X) (block : ScannedBlock X) : Decidable (NewBlock K w block) :=
  decidable_of_iff
    ((∀ tx ∈ block.transactions, w.minedHeight tx.txid = none) ∧ (block.received.map Prod.fst).Nodup ∧
      (block.received.filterMap fun e => e.2.nf).Nodup ∧
      (∀ e ∈ block.received, ∀ nf ∈ e.2.nf, (w.lanes .ironwood).nullifiers nf = none) ∧
      (∀ e ∈ block.received, e.2.recipientKeyScope.isSome = true) ∧
      (∀ e ∈ block.received, e.2.accountId = REGISTRY_ACCOUNT → ∀ nf ∈ e.2.nf, K.registry nf = true) ∧
      ∀ tx ∈ block.transactions, ∀ nf ∈ tx.spends .ironwood, nf ∈ K.reveals tx.txid)
    ⟨fun ⟨h₁, h₂, h₃, h₄, h₅, h₆, h₇⟩ => ⟨h₁, h₂, h₃, h₄, h₅, h₆, h₇⟩,
      fun h => ⟨h.unmined, h.once, h.distinct, h.newNfs, h.scopes, h.keyed, h.reveals⟩⟩

namespace Shows

variable {K : Commitments} {w v : Wallet X} {r : RegistryWallet}

theorem new (K : Commitments) (origin : BlockMetadata) (trees : ShieldedPool → X.Tree)
    (ends : ShieldedPool → Table (ℕ × ℕ) ℕ) : Shows K (Wallet.new origin trees ends) .new where
  linked := .empty
  lane := .new
  keyed _ h := nomatch h
  spenders _ _ h := nomatch h
  mined _ _ := ⟨fun h => (nomatch h), fun h => (nomatch h)⟩
  known _ _ := ⟨rfl, rfl⟩

/-- Only the Ironwood tables, the transactions and their statuses play a part. -/
theorem frame (h : Shows K w r) (hlanes : v.lanes .ironwood = w.lanes .ironwood)
    (htransactions : v.transactions = w.transactions)
    (hstatuses : v.transactionStatuses = w.transactionStatuses) :
    Shows K v r := by
  refine ⟨?_, ?_, ?_, h.spenders, ?_, ?_⟩
  · rw [hlanes]
    exact h.linked
  · rw [hlanes]
    exact h.lane
  · rw [hlanes]
    exact h.keyed
  · rw [hstatuses]
    exact h.mined
  · rw [htransactions, hstatuses]
    exact h.known

/-- A transaction on record as the spender of a Registry note is one that spends such a note. -/
theorem spendsRegistry (h : Shows K w r) {nf : Nullifier} {txid : TxId}
    (hspend : r.noteSpends nf = some txid) :
    K.SpendsRegistry txid := by
  refine ⟨nf, h.spenders nf txid hspend, h.keyed nf ?_⟩
  rw [h.lane.noteSpends] at hspend
  obtain ⟨id, hid, -⟩ := Option.bind_eq_some_iff.mp hspend
  rw [hid]
  rfl

theorem orphaned (h : Shows K w r) (height : ℕ) (txid : TxId) : r.orphaned height txid =
    w.orphaned height txid := by
  rw [Bool.eq_iff_iff, orphaned_iff, RegistryWallet.orphaned_iff]
  simp only [h.mined, minedHeight_eq_some]

/-- The same note is unspent at every height. -/
theorem noteIsSpent (h : Shows K w r) {nf : Nullifier} {id : NoteId}
    (hid : (w.lanes .ironwood).registryNote nf = some id) (target : ℕ) :
    w.ironwoodNoteIsSpent id target = r.noteIsSpent nf target := by
  have hspends := h.lane.noteSpends nf
  rw [hid, Option.bind_some] at hspends
  unfold ironwoodNoteIsSpent Wallet.noteIsSpent RegistryWallet.noteIsSpent
  rw [hspends]
  rcases hspender : (w.lanes .ironwood).noteSpends id with - | txid
  · rfl
  · obtain ⟨hstatus, htx⟩ := h.known txid (h.spendsRegistry (hspends.trans hspender))
    show w.spendConfirmsOrBlocks txid target = r.spendConfirmsOrBlocks txid target
    unfold spendConfirmsOrBlocks RegistryWallet.spendConfirmsOrBlocks unminedSpendStillBlocks
      RegistryWallet.unminedSpendStillBlocks
    rw [hstatus, htx]
    rcases w.transactions txid with - | tx <;> rfl

/-- **What can be spent is the same**: a note of the Registry is selectable by its nullifier where the
smaller wallet says so and no live lock stands on it, and it is the note of the transaction named
there. -/
theorem unspent (h : Shows K w r) (nf : Nullifier) (target : ℕ) :
    (w.unspentIronwoodNoteByNullifier REGISTRY_ACCOUNT nf target).map ReceivedNote.txid =
      if r.unspentNote nf target && w.unlocked nf target then r.notes nf else none := by
  unfold unspentIronwoodNoteByNullifier RegistryWallet.unspentNote unlocked
  rw [h.lane.notes]
  rcases hnf : (w.lanes .ironwood).nullifiers nf with - | id
  · rw [Lane.registryNote_eq_none_of hnf]
    rfl
  obtain ⟨output, houtput, -⟩ := h.linked.identifies nf id hnf
  simp only [Option.bind_some, Option.all_some]
  unfold unspentIronwoodNote
  rw [houtput, Option.bind_some]
  by_cases haccount : output.accountId = REGISTRY_ACCOUNT
  · have hid : (w.lanes .ironwood).registryNote nf = some id :=
      Lane.registryNote_eq_some.mpr ⟨hnf, output, houtput, haccount⟩
    obtain ⟨scope, hscope⟩ := Option.isSome_iff_exists.mp (h.linked.scopes id output houtput)
    rw [h.noteIsSpent hid, hid]
    unfold receivedNote
    simp only [houtput, hscope, haccount, Option.bind_some, Option.map_some, Option.isSome_some, true_and,
      Bool.true_and, Bool.and_eq_true]
    split_ifs with hfree
    · rfl
    · rfl
  · have hid : (w.lanes .ironwood).registryNote nf = none := by
      refine Option.eq_none_iff_forall_ne_some.mpr fun id' hid' => ?_
      obtain ⟨hnf', output', houtput', haccount'⟩ := Lane.registryNote_eq_some.mp hid'
      rw [hnf] at hnf'
      obtain rfl := Option.some.inj hnf'
      rw [houtput] at houtput'
      obtain rfl := Option.some.inj houtput'
      exact haccount haccount'
    rw [hid, if_neg fun hfree => haccount hfree.1]
    rfl

/-! ### Scanned blocks -/

section Block

variable (R : Reading X) {tx : WalletTx X} {height : ℕ}

theorem lanes_receiveTx (height : ℕ) (w : Wallet X) (tx : WalletTx X) :
    (receiveTx height w tx).lanes .ironwood = (w.lanes .ironwood).receiveAll tx.received := by
  unfold Lane.receiveAll WalletTx.received
  rw [List.foldl_map]
  rfl

/-- Whether the Registry is paid a note of this nullifier, as the confirmation pass reads it. -/
theorem mem_registryOutputs {nf : Nullifier} :
    some nf ∈ (tx.scannedTx R).2.registryOutputs.map RegistryOutput.nf ↔
      ∃ e ∈ tx.received, e.2.nf = some nf ∧ e.2.accountId = REGISTRY_ACCOUNT := by
  unfold WalletTx.scannedTx WalletTx.received
  simp only [List.map_map, List.mem_map, List.mem_filter, decide_eq_true_eq, Function.comp_apply]
  constructor
  · rintro ⟨output, ⟨hmem, haccount⟩, hnf⟩
    exact ⟨_, ⟨output, hmem, rfl⟩, hnf, haccount⟩
  · rintro ⟨e, ⟨output, hmem, rfl⟩, hnf, haccount⟩
    exact ⟨output, ⟨hmem, haccount⟩, hnf⟩

theorem receive (h : Shows K w r) (hl : (w.lanes .ironwood).Admits tx.received)
    (hkeyed : ∀ e ∈ tx.received, e.2.accountId = REGISTRY_ACCOUNT → ∀ nf ∈ e.2.nf, K.registry nf = true) :
    Shows K (receiveTx height w tx) (RegistryWallet.receive height r (tx.scannedTx R)) := by
  have hids : ∀ e ∈ tx.received, e.1.txid = tx.txid := by
    rintro e he
    obtain ⟨output, -, rfl⟩ := List.mem_map.mp he
    rfl
  have hnotes := Lane.registryNote_receiveAll h.linked hl hids
  refine ⟨?_, ⟨fun nf => ?_, fun nf => ?_⟩, fun nf hnf => ?_, h.spenders, fun txid m =>
    ?_, fun txid hspends => ?_⟩
  · rw [lanes_receiveTx]
    exact h.linked.receiveAll hl
  · rw [lanes_receiveTx, hnotes, ← h.lane.notes]
    exact if_congr (mem_registryOutputs R) rfl rfl
  · rw [lanes_receiveTx, Lane.spends_receiveAll h.linked hl]
    exact h.lane.noteSpends nf
  · rw [lanes_receiveTx, ← Option.isSome_map, hnotes] at hnf
    split_ifs at hnf with hnew
    · obtain ⟨e, he, hmatch, haccount⟩ := hnew
      exact hkeyed e he haccount nf hmatch
    · rw [Option.isSome_map] at hnf
      exact h.keyed nf hnf
  · show Function.update r.statuses tx.txid _ txid = _ ↔ (w.transactionStatuses.insert tx.txid _) txid = _
    by_cases hid : txid = tx.txid
    · subst hid
      rw [Function.update_self, Table.insert_same]
    · rw [Function.update_of_ne hid, Table.insert_of_ne hid]
      exact h.mined txid m
  · obtain ⟨hstatus, htx⟩ := h.known txid hspends
    refine ⟨?_, htx⟩
    show Function.update r.statuses tx.txid _ txid = (w.transactionStatuses.insert tx.txid _) txid
    by_cases hid : txid = tx.txid
    · subst hid
      rw [Function.update_self, Table.insert_same]
    · rw [Function.update_of_ne hid, Table.insert_of_ne hid]
      exact hstatus

/-- The transaction reveals the nullifiers of the notes it spends. -/
theorem spend (h : Shows K w r) {txid : TxId} {nfs : List Nullifier}
    (hreveals : ∀ nf ∈ nfs, nf ∈ K.reveals txid)
    (hlanes : v.lanes .ironwood = nfs.foldl (Lane.spend txid) (w.lanes .ironwood))
    (htransactions : v.transactions = w.transactions)
    (hstatuses : v.transactionStatuses = w.transactionStatuses) :
    Shows K v (r.spend txid nfs) := by
  refine ⟨?_, ?_, fun nf hnf => ?_, fun nf spender hspend => ?_, fun txid m => ?_, fun txid => ?_⟩
  · rw [hlanes]
    exact h.linked.spendAll txid nfs
  · rw [hlanes]
    exact h.lane.spend h.linked txid nfs
  · rw [hlanes, Lane.registryNote_spendAll] at hnf
    exact h.keyed nf hnf
  · have hspend' : (if nf ∈ nfs ∧ (r.notes nf).isSome = true then some txid else r.noteSpends nf) =
        some spender :=
      hspend
    split_ifs at hspend' with hnew
    · obtain rfl := Option.some.inj hspend'
      exact hreveals nf hnew.1
    · exact h.spenders nf spender hspend'
  · rw [hstatuses]
    exact h.mined txid m
  · rw [hstatuses, htransactions]
    exact h.known txid

/-- Both wallets receive the notes of a block. -/
theorem receiveAll {txs : List (WalletTx X)} (h : Shows K w r)
    (hl : (w.lanes .ironwood).Admits (txs.flatMap WalletTx.received))
    (hkeyed : ∀ e ∈ txs.flatMap WalletTx.received, e.2.accountId = REGISTRY_ACCOUNT →
    ∀ nf ∈ e.2.nf, K.registry nf = true) :
    Shows K (txs.foldl (receiveTx height) w)
      ((txs.map (WalletTx.scannedTx R)).foldl (RegistryWallet.receive height) r) := by
  induction txs generalizing w r with
  | nil => exact h
  | cons tx txs ih =>
    rw [List.flatMap_cons] at hl hkeyed
    have hfirst : (w.lanes .ironwood).Admits tx.received := hl.left
    refine ih (h.receive R hfirst fun e he => hkeyed e (List.mem_append_left _ he)) ?_
      fun e he => hkeyed e (List.mem_append_right _ he)
    rw [lanes_receiveTx]
    exact hl.receiveAll

theorem spendAll {txs : List (WalletTx X)} (h : Shows K w r)
    (hreveals : ∀ tx ∈ txs, ∀ nf ∈ tx.spends .ironwood, nf ∈ K.reveals tx.txid) :
    Shows K (txs.foldl spendTx w)
      ((txs.map (WalletTx.scannedTx R)).foldl (fun r e => r.spend e.1 e.2.nfs) r) := by
  induction txs generalizing w r with
  | nil => exact h
  | cons tx txs ih =>
    have hspent : Shows K (spendTx w tx) (r.spend tx.txid (tx.spends .ironwood)) :=
      h.spend (hreveals tx List.mem_cons_self) rfl rfl rfl
    exact ih hspent fun tx' htx' => hreveals tx' (List.mem_cons_of_mem _ htx')

/-- **Both wallets take a block.** -/
theorem block (h : Shows K w r) (hw : w.WellFormed) {block : ScannedBlock X}
    (hblock : NewBlock K w block) :
    Shows K (w.applyBlock block)
      (r.putBlock (block.transactions.map (WalletTx.scannedTx R)) block.height) := by
  have hl : (w.lanes .ironwood).Admits block.received := by
    refine ⟨hblock.once, hblock.distinct, fun e he => ?_, hblock.newNfs, hblock.scopes⟩
    obtain ⟨tx, htx, he⟩ := List.mem_flatMap.mp he
    obtain ⟨output, -, rfl⟩ := List.mem_map.mp he
    exact Branched.not_held hw (hblock.unmined tx htx)
  have hreceived : Shows K (block.transactions.foldl (receiveTx block.height) w) _ :=
    h.receiveAll R hl hblock.keyed
  exact (hreceived.spendAll R hblock.reveals).frame rfl rfl rfl

end Block

/-! ### Name Notes and transactions sent -/

/-- **Both wallets store a Name Note**, or had it. -/
theorem nameNote (h : Shows K w r) {a : NameNoteArgs X} (hkeyed : K.registry a.nullifier = true)
    (hok : w.storeNameNote a = .ok v) : Shows K v (r.storeNameNote (a.txid, a.nullifier)) := by
  obtain ⟨-, -, howner, -⟩ := storeNameNote_ok hok
  have hset : ∀ nf, (r.storeNameNote (a.txid, a.nullifier)).notes nf =
      if nf = a.nullifier then some a.txid else r.notes nf := fun nf => Function.update_apply ..
  obtain ⟨-, ⟨⟨existing, hnote, -, hnf, -, haccount, -⟩, rfl⟩ | ⟨hnone, rfl⟩⟩ := storeNameNote_cases hok
  · -- the note was there
    have hfound := h.linked.indexed a.noteId existing hnote a.nullifier hnf
    have hid := Lane.registryNote_eq_some.mpr ⟨hfound, existing, hnote, haccount⟩
    refine ⟨h.linked, ⟨fun nf => ?_, h.lane.noteSpends⟩, h.keyed, h.spenders, h.mined, h.known⟩
    rw [hset]
    split_ifs with heq
    · rw [heq, hid]
      rfl
    · exact h.lane.notes nf
  · have hnew : ∀ nf ∈ a.output.nf, (w.lanes .ironwood).nullifiers nf = none := by
      intro nf hnf
      obtain rfl : a.nullifier = nf := Option.some.inj hnf
      refine Option.eq_none_iff_forall_ne_some.mpr fun owner hold => ?_
      -- the owner of the nullifier would be this note, which was not held
      obtain ⟨output, houtput, -⟩ := h.linked.identifies a.nullifier owner hold
      rw [howner owner hold, hnone] at houtput
      exact nomatch houtput
    have hlane : (w.withNameNote a).lanes .ironwood = (w.lanes .ironwood).receive a.noteId a.output :=
      (lanes_setLane w .ironwood .ironwood _).trans (if_pos rfl)
    have hregistry := Lane.registryNote_receive h.linked hnone hnew
    refine ⟨?_, ⟨fun nf => ?_, fun nf => ?_⟩, fun nf hnf => ?_, h.spenders, h.mined, h.known⟩
    · rw [hlane]
      exact h.linked.receive hnone hnew rfl
    · rw [hlane, hregistry, hset, h.lane.notes]
      by_cases heq : nf = a.nullifier
      · rw [if_pos heq, if_pos ⟨by rw [heq]; rfl, rfl⟩]
        rfl
      · rw [if_neg heq, if_neg fun hmatch => heq (Option.some.inj hmatch.1).symm]
    · rw [hlane, hregistry]
      show r.noteSpends nf = _
      rw [h.lane.noteSpends]
      split_ifs with hmatch
      · rw [Lane.registryNote_eq_none_of (hnew nf hmatch.1), Option.bind_none, Option.bind_some]
        refine (Option.eq_none_iff_forall_ne_some.mpr fun spender hspender => ?_).symm
        have hheld : ((w.lanes .ironwood).notes a.noteId).isSome = true :=
          h.linked.spent a.noteId spender hspender
        rw [hnone] at hheld
        exact nomatch hheld
      · rfl
    · rw [hlane, hregistry] at hnf
      split_ifs at hnf with hmatch
      · obtain rfl : a.nullifier = nf := Option.some.inj hmatch.1
        exact hkeyed
      · exact h.keyed nf hnf

theorem recordSpends_keep (p : OwnedPool) (txid : TxId) (w : Wallet X) (nfs : List Nullifier) :
    (nfs.foldl (recordSpend p txid) w).transactions = w.transactions ∧
      (nfs.foldl (recordSpend p txid) w).transactionStatuses = w.transactionStatuses ∧
      (nfs.foldl (recordSpend p txid) w).lanes .ironwood =
        if .ironwood = p then nfs.foldl (Lane.spend txid) (w.lanes .ironwood) else w.lanes .ironwood := by
  induction nfs generalizing w with
  | nil => simp
  | cons nf nfs ih =>
    obtain ⟨htransactions, hstatuses, hlanes⟩ := ih (recordSpend p txid w nf)
    obtain ⟨lanes, locks, hframe⟩ := recordSpend_frame p txid w nf
    refine ⟨htransactions.trans (by rw [hframe]), hstatuses.trans (by rw [hframe]), hlanes.trans ?_⟩
    rw [lanes_recordSpend]
    by_cases hp : OwnedPool.ironwood = p
    · subst hp
      simp
    · simp [hp]

/-- What is recorded of the spends of a transaction sent. -/
theorem sentSpends {sent : SentTransaction} (h : Shows K (w.storeRaw sent) r)
    (hreveals : sent.tx.nullifiers .ironwood = K.reveals sent.tx.txid) :
    Shows K (w.storeTransactionToBeSent sent) (r.spend sent.tx.txid (sent.tx.nullifiers .ironwood)) := by
  obtain ⟨htransactions, hstatuses, hlanes⟩ :=
    recordSpends_keep .sapling sent.tx.txid (w.storeRaw sent) (sent.tx.nullifiers .sapling)
  have hsapling := h.frame hlanes htransactions hstatuses
  obtain ⟨htransactions, hstatuses, hlanes⟩ := recordSpends_keep .ironwood sent.tx.txid
    ((sent.tx.nullifiers .sapling).foldl (recordSpend .sapling sent.tx.txid) (w.storeRaw sent))
    (sent.tx.nullifiers .ironwood)
  rw [storeTransactionToBeSent_eq]
  exact hsapling.spend (fun nf hnf => hreveals ▸ hnf) (hlanes.trans (if_pos rfl)) htransactions hstatuses

/-- The status of a transaction sent is not new where it is mined. -/
theorem getD_eq_mined {status : Option TransactionStatus} {m : ℕ} :
    some (status.getD .notInMainChain) = some (.mined m) ↔ status = some (.mined m) := by
  rcases status with - | status <;> simp

/-- **Both wallets record a transaction that spends the one Registry note** `authority`. -/
theorem sent (h : Shows K w r) {sent : SentTransaction} {authority : Nullifier}
    (hreveals : sent.tx.nullifiers .ironwood = K.reveals sent.tx.txid)
    (hsole : ∀ nf ∈ sent.tx.nullifiers .ironwood, K.registry nf = true ↔ nf = authority)
    (hmem : authority ∈ sent.tx.nullifiers .ironwood) :
    Shows K (w.storeTransactionToBeSent sent)
      (r.recordSent sent.tx.txid sent.tx.expiryHeight authority) := by
  have hraw : Shows K (w.storeRaw sent)
      { r with
        transactions := Function.update r.transactions sent.tx.txid (some sent.tx.expiryHeight)
        statuses := Function.update r.statuses sent.tx.txid
          (some ((r.statuses sent.tx.txid).getD .notInMainChain)) } := by
    refine ⟨h.linked, ⟨h.lane.notes, h.lane.noteSpends⟩, h.keyed, h.spenders, fun txid m =>
      ?_, fun txid hspends => ?_⟩
    · show Function.update r.statuses sent.tx.txid _ txid = _ ↔
        (w.transactionStatuses.insert sent.tx.txid _) txid = _
      by_cases hid : txid = sent.tx.txid
      · subst hid
        rw [Function.update_self, Table.insert_same, getD_eq_mined, getD_eq_mined]
        exact h.mined _ m
      · rw [Function.update_of_ne hid, Table.insert_of_ne hid]
        exact h.mined txid m
    · show Function.update r.statuses sent.tx.txid _ txid =
        (w.transactionStatuses.insert sent.tx.txid _) txid ∧
        Function.update r.transactions sent.tx.txid _ txid =
          ((w.transactions.insert sent.tx.txid sent.tx) txid).map Transaction.expiryHeight
      obtain ⟨hstatus, htx⟩ := h.known txid hspends
      by_cases hid : txid = sent.tx.txid
      · subst hid
        rw [Function.update_self, Function.update_self, Table.insert_same, Table.insert_same, hstatus]
        exact ⟨rfl, rfl⟩
      · rw [Function.update_of_ne hid, Function.update_of_ne hid, Table.insert_of_ne hid,
          Table.insert_of_ne hid]
        exact ⟨hstatus, htx⟩
  have hspent := hraw.sentSpends hreveals
  rw [RegistryWallet.spend_congr (l := [authority])] at hspent
  · exact hspent
  · rintro nf hnf
    have hregistry : K.registry nf = true := by
      refine h.keyed nf ?_
      rw [← Option.isSome_map, ← h.lane.notes]
      exact hnf
    rw [List.mem_singleton]
    constructor
    · exact fun hmem => (hsole nf hmem).mp hregistry
    · rintro rfl
      exact hmem

/-- **A transaction that spends no note of the Registry** leaves the smaller wallet as it is. -/
theorem sentOther (h : Shows K w r) {sent : SentTransaction}
    (hreveals : sent.tx.nullifiers .ironwood = K.reveals sent.tx.txid)
    (hother : ∀ nf ∈ sent.tx.nullifiers .ironwood, K.registry nf = false) :
    Shows K (w.storeTransactionToBeSent sent) r := by
  have hraw : Shows K (w.storeRaw sent) r := by
    refine ⟨h.linked, h.lane, h.keyed, h.spenders, fun txid m => ?_, fun txid hspends => ?_⟩
    · show _ ↔ (w.transactionStatuses.insert sent.tx.txid _) txid = _
      by_cases hid : txid = sent.tx.txid
      · subst hid
        rw [Table.insert_same, getD_eq_mined]
        exact h.mined _ m
      · rw [Table.insert_of_ne hid]
        exact h.mined txid m
    · have hid : txid ≠ sent.tx.txid := by
        rintro rfl
        obtain ⟨nf, hnf, hregistry⟩ := hspends
        rw [← hreveals] at hnf
        rw [hother nf hnf] at hregistry
        exact nomatch hregistry
      show _ = (w.transactionStatuses.insert sent.tx.txid _) txid ∧
        _ = ((w.transactions.insert sent.tx.txid sent.tx) txid).map Transaction.expiryHeight
      rw [Table.insert_of_ne hid, Table.insert_of_ne hid]
      exact h.known txid hspends
  have hspent := hraw.sentSpends hreveals
  rw [RegistryWallet.spend_congr (l := []), RegistryWallet.spend_nil] at hspent
  · exact hspent
  · rintro nf hnf
    have hregistry : K.registry nf = true := by
      refine h.keyed nf ?_
      rw [← Option.isSome_map, ← h.lane.notes]
      exact hnf
    simp only [List.not_mem_nil, iff_false]
    intro hmem
    rw [hother nf hmem] at hregistry
    exact nomatch hregistry

/-! ### Rewinds -/

/-- **Both wallets forget what lies above `height`.** -/
theorem truncate (h : Shows K w r) (height : ℕ) :
    Shows K (w.dropAppliedAbove height) (r.truncateTo height) := by
  have horphaned := h.orphaned height
  have hlane : (w.dropAppliedAbove height).lanes .ironwood = (w.lanes .ironwood).dropOrphaned
    (w.orphaned height)
    fun txid => w.orphaned height txid && (w.transactions txid).isNone := rfl
  have hnote := Lane.registryNote_dropOrphaned (w.lanes .ironwood) (w.orphaned height)
    fun txid => w.orphaned height txid && (w.transactions txid).isNone
  have hnotes : ∀ nf, (r.truncateTo height).notes nf =
      (((w.lanes .ironwood).registryNote nf).filter fun id => !w.orphaned height id.txid).map
        NoteId.txid := by
    intro nf
    show (r.notes nf).filter _ = _
    rw [h.lane.notes]
    rcases (w.lanes .ironwood).registryNote nf with - | id
    · rfl
    · simp only [Option.map_some, Option.filter, horphaned]
      split_ifs <;> rfl
  have hspends : ∀ nf, (r.truncateTo height).noteSpends nf =
      if ((r.truncateTo height).notes nf).isSome then
        (r.noteSpends nf).filter fun txid => !(w.orphaned height txid && (w.transactions txid).isNone)
      else none := by
    intro nf
    refine if_congr Iff.rfl ?_ rfl
    rcases hspend : r.noteSpends nf with - | txid
    · rfl
    · have htx := (h.known txid (h.spendsRegistry hspend)).2
      simp only [Option.filter, horphaned, htx, Option.isNone_map]
  have hstatuses : ∀ txid, (w.dropAppliedAbove height).transactionStatuses txid =
      if w.orphaned height txid then some .notInMainChain else w.transactionStatuses txid := fun _ => rfl
  have hstatuses' : ∀ txid, (r.truncateTo height).statuses txid =
      if w.orphaned height txid then some .notInMainChain else r.statuses txid := by
    intro txid
    show (if r.orphaned height txid then _ else _) = _
    rw [horphaned]
  refine ⟨?_, ⟨fun nf => ?_, fun nf => ?_⟩, fun nf hnf => ?_, fun nf spender hspend =>
    ?_, fun txid m => ?_,
    fun txid hreveals => ?_⟩
  · rw [hlane]
    exact h.linked.dropOrphaned _ _
  · rw [hlane, hnote, hnotes]
  · rw [hlane, Lane.spends_dropOrphaned, hspends, hnotes, Option.isSome_map, h.lane.noteSpends]
  · rw [hlane, hnote] at hnf
    obtain ⟨id, hid⟩ := Option.isSome_iff_exists.mp hnf
    refine h.keyed nf ?_
    rw [(Option.filter_eq_some_iff.mp hid).1]
    rfl
  · rw [hspends] at hspend
    split_ifs at hspend
    exact h.spenders nf spender (Option.filter_eq_some_iff.mp hspend).1
  · rw [hstatuses, hstatuses']
    split_ifs
    · simp
    · exact h.mined txid m
  · obtain ⟨hstatus, htx⟩ := h.known txid hreveals
    rw [hstatuses, hstatuses', hstatus]
    exact ⟨rfl, htx⟩

end Shows

/-! ### Runs -/

/-- A call of the mint. It hands over one block at a time, its transactions spend at most one note of the
Registry, and it neither stores decrypted transactions nor sets a status. -/
def ByMint (K : Commitments) (w : Wallet X) : Op X → Prop
  | .putBlocks _ blocks _ => blocks.length ≤ 1 ∧ ∀ block ∈ blocks, NewBlock K w block
  | .nameNote a => K.registry a.nullifier = true
  | .toBeSent transactions => ∀ sent ∈ transactions, sent.tx.nullifiers .ironwood =
    K.reveals sent.tx.txid ∧
      ∀ nf ∈ sent.tx.nullifiers .ironwood, ∀ nf' ∈ sent.tx.nullifiers .ironwood,
        K.registry nf = true → K.registry nf' = true → nf = nf'
  | .decrypted _ | .status _ _ => False
  | .trust _ _ | .lock _ _ _ | .unlock _ _ | .clearLocks _ | .truncate _ => True

instance (K : Commitments) (w : Wallet X) : ∀ op : Op X, Decidable (ByMint K w op)
  | .putBlocks _ blocks _ => inferInstanceAs (Decidable
    (blocks.length ≤ 1 ∧ ∀ block ∈ blocks, NewBlock K w block))
  | .nameNote a => inferInstanceAs (Decidable (K.registry a.nullifier = true))
  | .toBeSent transactions => inferInstanceAs (Decidable (∀ sent ∈ transactions,
      sent.tx.nullifiers .ironwood = K.reveals sent.tx.txid ∧
        ∀ nf ∈ sent.tx.nullifiers .ironwood, ∀ nf' ∈ sent.tx.nullifiers .ironwood,
          K.registry nf = true → K.registry nf' = true → nf = nf'))
  | .decrypted _ | .status _ _ => isFalse id
  | .trust _ _ | .lock _ _ _ | .unlock _ _ | .clearLocks _ | .truncate _ => isTrue trivial

/-- What the smaller wallet records of a transaction sent: its spend of a Registry note, if it has one. -/
def sentOps (K : Commitments) (sent : SentTransaction) : List RegistryWallet.Op :=
  (((sent.tx.nullifiers .ironwood).find? K.registry).map fun nf =>
    RegistryWallet.Op.sent sent.tx.txid sent.tx.expiryHeight nf).toList

/-- What the smaller wallet does along with a call. A rewind of a wallet without blocks changes
nothing. -/
def registryOps (K : Commitments) (R : Reading X) (w : Wallet X) : Op X → List RegistryWallet.Op
  | .putBlocks _ blocks _ => blocks.map fun block =>
    .block (block.transactions.map (WalletTx.scannedTx R)) block.height
  | .nameNote a => [.nameNote a.txid a.nullifier]
  | .toBeSent transactions => transactions.flatMap (sentOps K)
  | .truncate maxHeight =>
    if w.blocks.isEmpty then []
    else ((w.truncateToHeight maxHeight).toOption.map fun p => RegistryWallet.Op.truncate p.1).toList
  | .decrypted _ | .status _ _ | .trust _ _ | .lock _ _ _ | .unlock _ _ | .clearLocks _ => []

/-- The smaller wallet, taken through what the calls of a run show of them. -/
def registryRun (K : Commitments) (R : Reading X) (w : Wallet X) (ops : List (Op X))
    (r : RegistryWallet) :
    RegistryWallet :=
  (shownAlong Wallet.step (registryOps K R) w ops).foldl RegistryWallet.apply r

section Runs

variable {K : Commitments} {R : Reading X} {w v : Wallet X} {r : RegistryWallet}

theorem ByMint.grounded {op : Op X} (h : ByMint K w op) : Grounded w op := by
  cases op <;> first | exact trivial | exact h.elim

/-- A batch of the mint is one block. -/
theorem ByMint.single {fromTip : BlockMetadata} {blocks : List (ScannedBlock X)} {marks : List X.Node}
    (h : ByMint K w (.putBlocks fromTip blocks marks)) (hne : blocks ≠ []) :
    ∃ block, blocks = [block] := by
  have hpos := List.length_pos_iff.mpr hne
  have hle := h.1
  exact List.length_eq_one_iff.mp (by omega)

theorem Shows.sentOps (h : Shows K w r) {sent : SentTransaction}
    (hreveals : sent.tx.nullifiers .ironwood = K.reveals sent.tx.txid)
    (hsole : ∀ nf ∈ sent.tx.nullifiers .ironwood, ∀ nf' ∈ sent.tx.nullifiers .ironwood,
      K.registry nf = true → K.registry nf' = true → nf = nf') :
    Shows K (w.storeTransactionToBeSent sent) ((Wallet.sentOps K sent).foldl RegistryWallet.apply r) := by
  unfold Wallet.sentOps
  rcases hfind : (sent.tx.nullifiers .ironwood).find? K.registry with - | authority
  · have hnone := List.find?_eq_none.mp hfind
    exact h.sentOther hreveals fun nf hnf => by simpa using hnone nf hnf
  · have hmem := List.mem_of_find?_eq_some hfind
    have hregistry := List.find?_some hfind
    refine h.sent hreveals (fun nf hnf => ?_) hmem
    constructor
    · exact fun hnf' => hsole nf hnf authority hmem hnf' hregistry
    · rintro rfl
      exact hregistry

/-- **Every call of the mint** takes both wallets along. -/
theorem Shows.step (h : w.WellFormed ∧ Shows K w r) {op : Op X} (hop : ByMint K w op)
    (hv : step w op = some v) :
    v.WellFormed ∧ Shows K v ((registryOps K R w op).foldl RegistryWallet.apply r) := by
  refine ⟨h.1.step hop.grounded hv, ?_⟩
  obtain ⟨hw, hs⟩ := h
  cases op with
  | putBlocks fromTip blocks marks =>
    obtain ⟨rfl, rfl⟩ | ⟨hne, -, trees, zebraTip, rfl⟩ := putBlocksMarked_ok hw (ok_of_toOption hv)
    · exact hs
    · obtain ⟨block, rfl⟩ := ByMint.single hop hne
      have hnew := hop.2 block List.mem_cons_self
      have htrees : Shows K { w with trees := trees } r := hs.frame rfl rfl rfl
      have hnew' : NewBlock K { w with trees := trees } block :=
        ⟨hnew.unmined, hnew.once, hnew.distinct, hnew.newNfs, hnew.scopes, hnew.keyed, hnew.reveals⟩
      exact (htrees.block R (hw.with_rest trees w.zebraTip w.trustedTransactions w.locks) hnew').frame rfl
        rfl rfl
  | nameNote a => exact hs.nameNote hop (ok_of_toOption hv)
  | toBeSent transactions =>
    cases hv
    show Shows K (transactions.foldl storeTransactionToBeSent w)
      ((transactions.flatMap (Wallet.sentOps K)).foldl RegistryWallet.apply r)
    clear hw
    induction transactions generalizing w r with
    | nil => exact hs
    | cons sent transactions ih =>
      obtain ⟨hreveals, hsole⟩ := hop sent List.mem_cons_self
      rw [List.flatMap_cons, List.foldl_append]
      exact ih (hs.sentOps hreveals hsole) fun sent' hsent' => hop sent' (List.mem_cons_of_mem _ hsent')
  | decrypted received => exact hop.elim
  | status txid status => exact hop.elim
  | trust txid trusted =>
    cases hv
    exact hs.frame rfl rfl rfl
  | lock outputs owner expiry =>
    obtain ⟨locks, rfl⟩ := lockOutputs_ok (ok_of_toOption hv)
    exact hs.frame rfl rfl rfl
  | unlock output owner =>
    obtain ⟨locks, hlocks⟩ := unlockOutput_eq w output owner
    obtain rfl : { w with locks := locks } = v := hlocks.symm.trans (Option.some.inj hv)
    exact hs.frame rfl rfl rfl
  | clearLocks account =>
    cases hv
    exact hs.frame rfl rfl rfl
  | truncate maxHeight =>
    obtain ⟨⟨k, u⟩, hu, rfl⟩ := Option.map_eq_some_iff.mp hv
    have hok := ok_of_toOption hu
    simp only [registryOps]
    by_cases hblocks : w.blocks.isEmpty = true
    · rw [if_pos hblocks]
      obtain rfl := truncateToHeight_empty hblocks hok
      exact hs
    · rw [if_neg hblocks, hu]
      obtain ⟨⟨u, htrees, rfl⟩, -⟩ := truncateToHeight_drops hblocks hok
      obtain ⟨trees, rfl⟩ := tryTruncateTreesTo_ok htrees
      have htrees : Shows K { w with trees := trees } r := hs.frame rfl rfl rfl
      exact htrees.truncate k

/-! ### The tip -/

/-- Where an entry of the smaller wallet's run leaves the tip. -/
def tipAfter (tip : ℕ) : RegistryWallet.Op → ℕ
  | .block _ height => height
  | .truncate height => height
  | .nameNote _ _ | .sent _ _ _ => tip

theorem tip_recordSpends (p : OwnedPool) (txid : TxId) (nfs : List Nullifier) (w : Wallet X) :
    (nfs.foldl (recordSpend p txid) w).tip = w.tip :=
  List.foldlRecOn nfs _ (motive := fun v : Wallet X => v.tip = w.tip) rfl fun v hv nf _ => by
    obtain ⟨lanes, locks, hframe⟩ := recordSpend_frame p txid v nf
    rw [hframe]
    exact hv

theorem tip_sent (w : Wallet X) (sent : SentTransaction) :
    (w.storeTransactionToBeSent sent).tip = w.tip := by
  rw [storeTransactionToBeSent_eq]
  exact (tip_recordSpends ..).trans (tip_recordSpends ..)

theorem foldl_tipAfter_sentOps (K : Commitments) (sent : SentTransaction) (tip : ℕ) :
    (sentOps K sent).foldl tipAfter tip = tip := by
  unfold Wallet.sentOps
  rcases (sent.tx.nullifiers .ironwood).find? K.registry with - | nf <;> rfl

/-- The tip is where the last block or rewind left it. -/
theorem tip_step (hw : w.WellFormed) {op : Op X} (hop : ByMint K w op) (hv : step w op = some v) :
    v.tip.blockHeight = (registryOps K R w op).foldl tipAfter w.tip.blockHeight := by
  cases op with
  | putBlocks fromTip blocks marks =>
    obtain ⟨rfl, rfl⟩ | ⟨hne, hfollows, trees, zebraTip, rfl⟩ := putBlocksMarked_ok hw (ok_of_toOption hv)
    · rfl
    · obtain ⟨block, rfl⟩ := ByMint.single hop hne
      have htrees := hw.with_rest trees w.zebraTip w.trustedTransactions w.locks
      have hle : w.tip.blockHeight ≤ block.height := hfollows.1 ▸ le_nextHeight hw.bounded
      have htip : ({ w with trees := trees }.applyBlock block).tip = block.toBlockMetadata :=
        tip_applyBlock htrees hle
      exact congrArg BlockMetadata.blockHeight htip
  | nameNote a =>
    obtain ⟨-, -, -, rfl | ⟨-, rfl⟩⟩ := storeNameNote_ok (ok_of_toOption hv)
    · rfl
    · rfl
  | toBeSent transactions =>
    cases hv
    show (transactions.foldl storeTransactionToBeSent w).tip.blockHeight =
      (transactions.flatMap (Wallet.sentOps K)).foldl tipAfter w.tip.blockHeight
    clear hw hop
    induction transactions generalizing w with
    | nil => rfl
    | cons sent transactions ih =>
      rw [List.flatMap_cons, List.foldl_append, foldl_tipAfter_sentOps, List.foldl_cons, ih, tip_sent]
  | decrypted received => exact hop.elim
  | status txid status => exact hop.elim
  | trust txid trusted =>
    cases hv
    rfl
  | lock outputs owner expiry =>
    obtain ⟨locks, rfl⟩ := lockOutputs_ok (ok_of_toOption hv)
    rfl
  | unlock output owner =>
    obtain ⟨locks, hlocks⟩ := unlockOutput_eq w output owner
    obtain rfl : { w with locks := locks } = v := hlocks.symm.trans (Option.some.inj hv)
    rfl
  | clearLocks account =>
    cases hv
    rfl
  | truncate maxHeight =>
    obtain ⟨⟨k, u⟩, hu, rfl⟩ := Option.map_eq_some_iff.mp hv
    have hok := ok_of_toOption hu
    simp only [registryOps]
    by_cases hblocks : w.blocks.isEmpty = true
    · rw [if_pos hblocks]
      obtain rfl := truncateToHeight_empty hblocks hok
      rfl
    · rw [if_neg hblocks, hu]
      exact truncateToHeight_tip hw hblocks hok

/-- **Every run of the mint** takes both wallets along. -/
theorem shows_run (hw : w.WellFormed) (hs : Shows K w r) {ops : List (Op X)}
    (hops : Along Wallet.step (ByMint K) w ops) (hrun : run Wallet.step w ops = some v) :
    v.WellFormed ∧ Shows K v (registryRun K R w ops r) :=
  run_simulates (R := fun w r => w.WellFormed ∧ Shows K w r)
    (fun _ _ _ _ hs hop hstep => Shows.step (R := R) hs hop hstep) ops w v r ⟨hw, hs⟩ hops hrun

theorem tip_run (hw : w.WellFormed) {ops : List (Op X)} (hops : Along Wallet.step (ByMint K) w ops)
    (hrun : run Wallet.step w ops = some v) :
    v.tip.blockHeight = (shownAlong Wallet.step (registryOps K R) w ops).foldl tipAfter
      w.tip.blockHeight := by
  refine (run_simulates (R := fun (w : Wallet X) tip => w.WellFormed ∧ w.tip.blockHeight = tip)
    (C := ByMint K)
    (fun u op u' tip hu hop hstep => ?_) ops w v _ ⟨hw, rfl⟩ hops hrun).2
  obtain ⟨hu, rfl⟩ := hu
  exact ⟨hu.step hop.grounded hstep, tip_step hu hop hstep⟩

/-- **The Registry's notes, in every run.** After any calls of the mint, with any locks and rewinds, a
claim anchor or a Name Note can be spent by its nullifier exactly where the smaller wallet, taken through
the same calls, says so and no live lock stands on it, and it is the note of the transaction named
there. -/
theorem unspent_in_every_run (K : Commitments) (R : Reading X) {origin : BlockMetadata}
    (horigin : origin.blockHeight ≤ MAX_HEIGHT) (trees : ShieldedPool → X.Tree)
    (ends : ShieldedPool → Table (ℕ × ℕ) ℕ) {ops : List (Op X)}
    (hops : Along Wallet.step (ByMint K) (new origin trees ends) ops)
    (hrun : run Wallet.step (new origin trees ends) ops = some w) (nf : Nullifier) (target : ℕ) :
    (w.unspentIronwoodNoteByNullifier REGISTRY_ACCOUNT nf target).map ReceivedNote.txid =
      if (registryRun K R (new origin trees ends) ops .new).unspentNote nf target && w.unlocked
        nf target then
        (registryRun K R (new origin trees ends) ops .new).notes nf
      else none := by
  have hend := shows_run (R := R) (wellFormed_new horigin trees ends) (.new K origin trees ends) hops hrun
  exact hend.2.unspent nf target

end Runs

/-- An anchor of the Registry. -/
def sampleAnchor : WalletOutput sampleBackend :=
  { sampleNote with nf := some ⟨21⟩, accountId := REGISTRY_ACCOUNT }

def sampleAnchorBlock : ScannedBlock sampleBackend :=
  sampleIronwoodBlock 1 (sampleIronwoodTx 1 [sampleAnchor])

/-- The claim that spends it, which expires at height 40. -/
def sampleClaimSent : SentTransaction where
  tx := ⟨sampleTxid 2, 40, fun | .sapling => [] | .ironwood => [⟨21⟩]⟩
  outputs := []

def sampleCommitments : Commitments where
  reveals txid := if txid = sampleTxid 2 then [⟨21⟩] else []
  registry nf := decide (nf = ⟨21⟩)

def sampleReading : Reading sampleBackend := ⟨fun _ => 0, fun _ => [], fun _ => 0⟩

/-- A block none of whose transactions concerns the wallet. -/
def sampleForeignBlock : ScannedBlock sampleBackend :=
  { sampleIronwoodBlock 2 (sampleIronwoodTx 3 []) with transactions := [] }

/-- The anchor arrives and the claim is sent; the next block is applied and abandoned. -/
def sampleClaimOps : List (Op sampleBackend) :=
  [samplePut sampleOrigin sampleAnchorBlock, .toBeSent [sampleClaimSent],
    samplePut sampleAnchorBlock.toBlockMetadata sampleForeignBlock, .truncate 1]

def sampleClaimed : Wallet sampleBackend := (run step sampleNew sampleClaimOps).get (by decide +kernel)

/-- The anchor is blocked until the claim expires, and free after. -/
theorem unspent_in_every_run_claim :
    (sampleClaimed.unspentIronwoodNoteByNullifier REGISTRY_ACCOUNT ⟨21⟩ 40).map ReceivedNote.txid = none ∧
      (sampleClaimed.unspentIronwoodNoteByNullifier REGISTRY_ACCOUNT ⟨21⟩ 41).map ReceivedNote.txid =
        some (sampleTxid 1) := by
  have hrun : run step sampleNew sampleClaimOps = some sampleClaimed := (Option.some_get _).symm
  have hview := unspent_in_every_run sampleCommitments sampleReading (by decide) _ _
    (by decide +kernel) hrun ⟨21⟩
  refine ⟨(hview 40).trans ?_, (hview 41).trans ?_⟩
  · decide +kernel
  · decide +kernel

end ZnsMint.Wallet
