import ZnsMint.RegistryWallet
import ZnsMint.Lib.Checkpoints
import ZnsMint.Lib.Tables

/-! # The wallet's tables

The in-memory wallet of `src/wallet.rs`: the blocks applied, the transactions known, the notes received
in the two owned pools with their nullifiers and their spends, memos, locks, and the three note
commitment trees. Sapling and Ironwood have tables of the same shape (`Lane`), and an operation that does
the same to both is written once, over `OwnedPool`. The viewing keys, the account birthdays and the
network, which no operation here reads, are left out.

The commitment trees, the notes and the memos belong to other crates: `Backend` is what the wallet uses
of them. -/

namespace ZnsMint

open Basic Lib.Tables Lib.Checkpoints

namespace Wallet

/-! ### Pools, notes and outputs -/

inductive ShieldedPool where
  | sapling
  | orchard
  | ironwood
  deriving DecidableEq

inductive PoolType where
  | transparent
  | shielded (pool : ShieldedPool)
  deriving DecidableEq

/-- The pools whose notes the wallet owns. Ordinary Orchard is a commitment tree and nothing else. -/
inductive OwnedPool where
  | sapling
  | ironwood
  deriving DecidableEq

def OwnedPool.shielded : OwnedPool → ShieldedPool
  | sapling => .sapling
  | ironwood => .ironwood

structure NoteId where
  txid : TxId
  pool : ShieldedPool
  outputIndex : UInt16
  deriving DecidableEq

structure OutputRef where
  pool : PoolType
  txid : TxId
  outputIndex : UInt32
  deriving DecidableEq

def OutputRef.ofNoteId (id : NoteId) : OutputRef := ⟨.shielded id.pool, id.txid, id.outputIndex.toUInt32⟩

abbrev AccountId := ℕ

/-- The account that holds the Name Notes. -/
def REGISTRY_ACCOUNT : AccountId := 1

inductive Scope where
  | external
  | internal
  deriving DecidableEq

abbrev LockOwner := Vector UInt8 32

abbrev BlockHash := Vector UInt8 32

abbrev MemoBytes := Vector UInt8 512

inductive Marking where
  | marked
  | reference
  | none
  deriving DecidableEq

inductive Retention where
  | ephemeral
  | checkpoint (id : ℕ) (marking : Marking)
  | marked
  | reference
  deriving DecidableEq

/-! ### What the other crates supply -/

/-- A note, of either pool and with its value pool; the leaves of the commitment trees and the paths to
their roots; the trees by the operations the wallet calls on them, with a checkpoint named by its
height; and the reading of a memo. -/
structure Backend where
  Note : Type
  Node : Type
  Path : Type
  Tree : Type
  TreeError : Type
  Memo : Type
  decNote : DecidableEq Note
  decNode : DecidableEq Node
  decMemo : DecidableEq Memo
  append : Tree → Node → Retention → Except TreeError Tree
  maxLeafPosition : Tree → Except TreeError (Option ℕ)
  getCheckpoint : Tree → ℕ → Bool
  maxCheckpointId : Tree → Option ℕ
  checkpoint : Tree → ℕ → Except TreeError (Bool × Tree)
  truncateToCheckpoint : Tree → ℕ → Except TreeError (Bool × Tree)
  witnessAtCheckpointId : Tree → ℕ → ℕ → Except TreeError (Option Path)
  rootAtCheckpointId : Tree → ℕ → Except TreeError (Option Node)
  pathRoot : Path → Node → Node
  znsCmx : Note → NameCommitment → ℕ → Option Node
  memoFromBytes : MemoBytes → Option Memo
  memoFuture : MemoBytes → Memo

instance (X : Backend) : DecidableEq X.Note := X.decNote
instance (X : Backend) : DecidableEq X.Node := X.decNode
instance (X : Backend) : DecidableEq X.Memo := X.decMemo

variable (X : Backend)

/-! ### Blocks and transactions -/

structure BlockMetadata where
  blockHeight : ℕ
  blockHash : BlockHash
  saplingTreeSize : Option ℕ
  orchardTreeSize : Option ℕ
  ironwoodTreeSize : Option ℕ
  deriving DecidableEq

/-- A received output. The index of an output in its bundle fits 16 bits by consensus, which the source
expects where it names the note. -/
structure WalletOutput where
  index : UInt16
  ephemeralKey : Vector UInt8 32
  note : X.Note
  isChange : Bool
  noteCommitmentTreePosition : ℕ
  nf : Option Nullifier
  accountId : AccountId
  recipientKeyScope : Option Scope
  deriving DecidableEq

/-- A transaction of a scanned block that concerns the wallet. -/
structure WalletTx where
  txid : TxId
  blockIndex : ℕ
  outputs : OwnedPool → List (WalletOutput X)
  spends : OwnedPool → List Nullifier
  orchardOutputs : List (WalletOutput X)

structure ScannedBundles where
  commitments : List (X.Node × Retention)
  finalTreeSize : ℕ

structure ScannedBlock where
  height : ℕ
  blockHash : BlockHash
  transactions : List (WalletTx X)
  bundles : ShieldedPool → ScannedBundles X

variable {X} in
def ScannedBlock.toBlockMetadata (b : ScannedBlock X) : BlockMetadata where
  blockHeight := b.height
  blockHash := b.blockHash
  saplingTreeSize := some (b.bundles .sapling).finalTreeSize
  orchardTreeSize := some (b.bundles .orchard).finalTreeSize
  ironwoodTreeSize := some (b.bundles .ironwood).finalTreeSize

/-- A raw transaction: its expiry height and the nullifiers its bundles reveal. -/
structure Transaction where
  txid : TxId
  expiryHeight : ℕ
  nullifiers : OwnedPool → List Nullifier

/-- Who a sent output pays, as far as its pool. -/
inductive Recipient where
  | external (outputPool : PoolType)
  | ephemeralTransparent
  | internalShielded (notePool : ShieldedPool)
  deriving DecidableEq

structure SentTransactionOutput where
  outputIndex : ℕ
  recipient : Recipient
  value : Zatoshis
  memo : Option MemoBytes
  deriving DecidableEq

structure SentTransaction where
  tx : Transaction
  outputs : List SentTransactionOutput

/-- A decrypted transaction, with the memos of its outputs by their index. -/
structure DecryptedTransaction where
  tx : Transaction
  minedHeight : Option ℕ
  outputs : OwnedPool → List (UInt16 × MemoBytes)

/-! ### The wallet -/

/-- The notes received in one owned pool, their nullifiers and the transactions that spend them. -/
structure Lane where
  notes : Table NoteId (WalletOutput X)
  noteSpends : Table NoteId TxId
  nullifiers : Table Nullifier NoteId

end Wallet

open Wallet

/-- `blocks` are the blocks applied and `seed` the boot origin below them. A shard of a commitment tree is
named by its address, its level and its index there. -/
structure Wallet (X : Backend) where
  zebraTip : Option ℕ
  blocks : HeightMap BlockMetadata
  seed : BlockMetadata
  transactions : Table TxId Transaction
  transactionStatuses : Table TxId TransactionStatus
  transactionIndices : Table TxId ℕ
  trustedTransactions : TxId → Bool
  lanes : OwnedPool → Lane X
  memos : Table NoteId X.Memo
  sentOutputs : Table TxId (List SentTransactionOutput)
  locks : Table OutputRef (LockOwner × ℕ)
  trees : ShieldedPool → X.Tree
  treeShardEndHeights : ShieldedPool → Table (ℕ × ℕ) ℕ

namespace Wallet

variable {X}

/-- A wallet is born with the trees at its origin and the completed shards behind it. -/
def new (origin : BlockMetadata) (trees : ShieldedPool → X.Tree)
    (treeShardEndHeights : ShieldedPool → Table (ℕ × ℕ) ℕ) : Wallet X where
  zebraTip := none
  blocks := ∅
  seed := origin
  transactions := .empty
  transactionStatuses := .empty
  transactionIndices := .empty
  trustedTransactions := fun _ => false
  lanes := fun _ => ⟨.empty, .empty, .empty⟩
  memos := .empty
  sentOutputs := .empty
  locks := .empty
  trees := trees
  treeShardEndHeights := treeShardEndHeights

/-- The wallet's position: the highest applied block, or the boot origin before the first. -/
def tip (w : Wallet X) : BlockMetadata := (latest w.blocks).getD w.seed

/-- The last height of the `u32` space. -/
def MAX_HEIGHT : ℕ := 4294967295

/-- `height + 1`, saturating at the top of the height space. -/
def nextHeight (height : ℕ) : ℕ := min (height + 1) MAX_HEIGHT

/-- The tables of one pool, replaced. -/
def setLane (w : Wallet X) (p : OwnedPool) (lane : Lane X) : Wallet X :=
  { w with lanes := Function.update w.lanes p lane }

/-- The account of a note held, by an output reference of its pool: no output of a bundle has an index
beyond 16 bits. -/
def noteAccount (w : Wallet X) (p : OwnedPool) (txid : TxId) (index : UInt32) : Option AccountId :=
  if index.toNat < 65536 then
    ((w.lanes p).notes ⟨txid, p.shielded, index.toUInt16⟩).map WalletOutput.accountId
  else none

/-- The account that owns a wallet output, if the reference names a note held. -/
def outputAccount (w : Wallet X) (output : OutputRef) : Option AccountId :=
  match output.pool with
  | .shielded .sapling => w.noteAccount .sapling output.txid output.outputIndex
  | .shielded .ironwood => w.noteAccount .ironwood output.txid output.outputIndex
  | .transparent => none
  | .shielded .orchard => none

/-- The mined height of `txid`, if the wallet has applied a block mining it. -/
def minedHeight (w : Wallet X) (txid : TxId) : Option ℕ :=
  match w.transactionStatuses txid with
  | some (.mined height) => some height
  | _ => none

theorem noteAccount_toUInt32 (w : Wallet X) (p : OwnedPool) (txid : TxId) (index : UInt16) :
    w.noteAccount p txid index.toUInt32 =
      ((w.lanes p).notes ⟨txid, p.shielded, index⟩).map WalletOutput.accountId := by
  have hindex : index.toUInt32.toNat < 65536 := by
    rw [UInt16.toNat_toUInt32]
    exact index.toNat_lt
  unfold noteAccount
  rw [if_pos hindex, UInt16.toUInt16_toUInt32]

/-- The reference made from the id of a note held names the note's account. -/
theorem outputAccount_ofNoteId {w : Wallet X} {p : OwnedPool} {id : NoteId} {o : WalletOutput X}
    (hp : id.pool = p.shielded) (ho : (w.lanes p).notes id = some o) :
    w.outputAccount (.ofNoteId id) = some o.accountId := by
  obtain ⟨txid, pool, index⟩ := id
  obtain rfl : pool = p.shielded := hp
  have haccount := w.noteAccount_toUInt32 p txid index
  rw [ho, Option.map_some] at haccount
  cases p with
  | sapling => exact haccount
  | ironwood => exact haccount

end Wallet

end ZnsMint
