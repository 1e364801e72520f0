import ZnsMint.Wallet
import ZnsMint.Lib.Text

/-! # The seam to the node

What the mint makes of its Zebra node's answers (`src/zcash.rs`, `src/zcash/chain.rs`,
`src/zcash/submit.rs`, `src/zcash/fees.rs`). An answer is the outcome of one request: what came back, as
far as the upstream decoders of JSON and of consensus bytes take it, or what went wrong. Each reader here
turns it into the value the caller asked for, or into a `TransportError`, whose kind decides whether the
caller asks again.

The raw consensus encodings belong to other crates: a block is what `Block::read` gives, its body opaque,
and the readers of headers, of tree nodes and of transaction ids are arguments. -/

namespace ZnsMint.Zebra

open Basic Lib.Text Wallet

/-! ### Errors -/

/-- `tonic::Code`. -/
inductive Code where
  | ok
  | cancelled
  | unknown
  | invalidArgument
  | deadlineExceeded
  | notFound
  | alreadyExists
  | permissionDenied
  | resourceExhausted
  | failedPrecondition
  | aborted
  | outOfRange
  | unimplemented
  | internal
  | unavailable
  | dataLoss
  | unauthenticated
  deriving DecidableEq

/-- A JSON-RPC error object. -/
structure RpcError where
  code : ℤ
  message : String
  deriving DecidableEq

/-- Zebra's `MempoolError::InMempool`, which shares its code with every other mempool refusal. -/
def RpcError.isAlreadyInMempool (e : RpcError) : Bool :=
  e.message == "transaction already exists in mempool"

/-- Everything that can go wrong talking to the node. -/
inductive TransportError where
  | client
  | hyper
  | timeout
  | badNodeData (what : String)
  | badCheckpoint (what : String)
  | notOnBestChain
  | rpc (error : RpcError)
  | tonic (code : Code)
  deriving DecidableEq

/-- Whether repeating the same operation can recover without trusting new data. -/
def TransportError.isRetryable : TransportError → Bool
  | client => true
  | hyper => true
  | timeout => true
  | badNodeData _ => true
  | badCheckpoint _ => true
  | tonic .unavailable => true
  | tonic .cancelled => true
  | tonic .deadlineExceeded => true
  | _ => false

/-- The node's tip-race verdicts: JSON-RPC error -8, and the Indexer's `not_found`. -/
def notOnBestChain : TransportError → TransportError
  | .rpc error => if error.code = -8 then .notOnBestChain else .rpc error
  | .tonic .notFound => .notOnBestChain
  | error => error

/-- The outcome of one request. -/
abbrev Answer (α : Type) := Except TransportError α

/-- A method that may answer null, where null is bad node data. -/
def nonNull {α : Type} (what : String) (a : Answer (Option α)) : Answer α := do
  match ← a with
  | some result => .ok result
  | none => .error (.badNodeData what)

/-- What an answer says, if it says anything, is so. -/
def Says {α : Type} (a : Answer α) (P : α → Prop) : Prop :=
  match a with
  | .ok x => P x
  | .error _ => True

instance {α : Type} (a : Answer α) (P : α → Prop) [∀ x, Decidable (P x)] : Decidable (Says a P) :=
  match a with
  | .ok x => inferInstanceAs (Decidable (P x))
  | .error _ => isTrue trivial

theorem Says.of_ok {α : Type} {a : Answer α} {P : α → Prop} (h : Says a P) {x : α} (hx : a = .ok x) :
    P x := by
  subst hx
  exact h

/-! ### Hashes and heights on the wire -/

/-- Reverses Zebra's display-order bytes into a `BlockHash`. -/
def blockHashFromDisplay (bytes : List UInt8) : Option BlockHash :=
  if h : bytes.reverse.toArray.size = 32 then some ⟨bytes.reverse.toArray, h⟩ else none

/-- The display order of a hash. -/
def displayOrder (hash : BlockHash) : List UInt8 := hash.toList.reverse

theorem blockHashFromDisplay_displayOrder (hash : BlockHash) : blockHashFromDisplay (displayOrder hash) =
    some hash := by
  have hrev : (displayOrder hash).reverse.toArray = hash.toArray := by
    unfold displayOrder
    rw [List.reverse_reverse]
    rfl
  have hsize : (displayOrder hash).reverse.toArray.size = 32 := by
    rw [hrev]
    exact hash.size_toArray
  unfold blockHashFromDisplay
  rw [dif_pos hsize]
  congr 1
  exact Vector.toArray_inj.mp hrev

/-- A height on the `BlockRequest` wire: exactly four big-endian bytes. -/
def blockRequestAtHeight (height : ℕ) : List UInt8 := (leBytes 4 height).reverse

/-! ### The tip -/

/-- A tip announcement. -/
structure BlockHashAndHeight where
  hash : List UInt8
  height : ℕ

def tipHeightHash (tip : BlockHashAndHeight) : Answer (ℕ × BlockHash) :=
  match blockHashFromDisplay tip.hash with
  | some hash => .ok (tip.height, hash)
  | none => .error (.badNodeData "tip hash length")

/-- The `getblockchaininfo` answer. -/
structure BlockchainInfo where
  blocks : ℕ
  bestblockhash : List UInt8

/-- The height and the hash carried by one response. -/
def BlockchainInfo.canonicalTip (info : BlockchainInfo) : Answer (ℕ × BlockHash) :=
  match unhex info.bestblockhash with
  | none => .error (.badNodeData "bestblockhash hex")
  | some bytes => match blockHashFromDisplay bytes with
    | none => .error (.badNodeData "bestblockhash length")
    | some hash => .ok (info.blocks, hash)

/-- One attempt at the exact best-chain tip. -/
def exactTip (a : Answer (Option BlockchainInfo)) : Answer (ℕ × BlockHash) := do
  (← nonNull "getblockchaininfo returned null" a).canonicalTip

/-! ### Blocks and headers -/

/-- What `Block::read` gives of a block; `claimedHeight` is the height its coinbase names. -/
structure RawBlock (β : Type) where
  hash : BlockHash
  prevBlock : BlockHash
  time : ℕ
  claimedHeight : ℕ
  body : β
  deriving DecidableEq

variable {β : Type}

/-- The Indexer's answer to a height: the block, where its bytes parse, and its hash in display order. -/
structure BlockAndHash (β : Type) where
  data : Option (RawBlock β)
  hash : List UInt8

/-- Refuses an answer that names another height. -/
def blockFromWire (data : Option (RawBlock β)) (height : ℕ) : Answer (RawBlock β) :=
  match data with
  | none => .error (.badNodeData "indexer block parse")
  | some block =>
    if block.claimedHeight = height then .ok block
    else .error (.badNodeData "indexer block answered a different height than requested")

/-- A full canonical block by height. -/
def getBlock (height : ℕ) (a : Answer (BlockAndHash β)) : Answer (RawBlock β) := do
  blockFromWire (← a.mapError notOnBestChain).data height

/-- A best-chain block hash by height, for reorg walks. -/
def getBlockHash (a : Answer (BlockAndHash β)) : Answer BlockHash := do
  match blockHashFromDisplay (← a.mapError notOnBestChain).hash with
  | some hash => .ok hash
  | none => .error (.badNodeData "indexer block hash length")

/-- One attempt at a header's time. -/
def headerTime (readTime : List UInt8 → Option ℕ) (a : Answer (Option (List UInt8))) : Answer ℕ := do
  match unhex (← nonNull "getblockheader returned null" (a.mapError notOnBestChain)) with
  | none => .error (.badNodeData "getblockheader hex")
  | some bytes => match readTime bytes with
    | none => .error (.badNodeData "getblockheader header")
    | some time => .ok time

/-- The loop of `header_time` asks again where the header is unavailable or off the best chain. -/
def TransportError.headerRetries (error : TransportError) : Bool :=
  error.isRetryable || error == .notOnBestChain

/-! ### Subtree roots -/

structure SubtreeInfo where
  root : List UInt8
  endHeight : ℕ

/-- The `z_getsubtreesbyindex` answer. -/
structure SubtreesResponse where
  pool : String
  startIndex : ℕ
  subtrees : List SubtreeInfo

/-- One entry as a root and the height its shard completed at. -/
def SubtreeInfo.toRoot {Node : Type} (read : List UInt8 → Option Node) (entry : SubtreeInfo) :
    Answer (ℕ × Node) :=
  match unhex entry.root with
  | none => .error (.badNodeData "z_getsubtreesbyindex root hex")
  | some bytes =>
    if bytes.length ≠ 32 then .error (.badNodeData "z_getsubtreesbyindex root length")
    else match read bytes with
      | none => .error (.badNodeData "z_getsubtreesbyindex root parse")
      | some node => .ok (entry.endHeight, node)

/-- The roots of the response, once it echoes what was asked. -/
def subtreesResponseToRoots {Node : Type} (read : List UInt8 → Option Node) (response : SubtreesResponse)
    (expectedPool : String) (expectedStartIndex : ℕ) : Answer (List (ℕ × Node)) :=
  if response.pool ≠ expectedPool then
    .error (.badNodeData "z_getsubtreesbyindex answered a different pool than requested")
  else if response.startIndex ≠ expectedStartIndex then
    .error (.badNodeData "z_getsubtreesbyindex answered a different start_index than requested")
  else response.subtrees.mapM (SubtreeInfo.toRoot read)

/-! ### Fees -/

/-- `getstandardfee`: zatoshis per logical action. -/
structure StandardFee where
  standardFee : ℕ
  version : ℕ

/-- The marginal fee of the rule; what else the rule holds is ZIP 317's own. -/
def StandardFee.intoRule (fee : StandardFee) : Answer Zatoshis :=
  if fee.version ≠ 0 then .error (.badNodeData "unsupported fee estimator version")
  else match (Zatoshis.fromU64 fee.standardFee).filter fun fee => decide (0 < fee.val) with
    | some marginalFee => .ok marginalFee
    | none => .error (.badNodeData "invalid standard fee")

/-- The current fee recommendation. -/
def standardFee (a : Answer (Option StandardFee)) : Answer Zatoshis := do
  (← nonNull "getstandardfee returned null" a).intoRule

/-! ### Submission -/

/-- The node's answer to "carry this". -/
inductive SubmitOutcome where
  | accepted
  | rejected (error : TransportError)
  deriving DecidableEq

/-- One broadcast attempt. -/
def sendTransaction (txidFromHex : List UInt8 → Option TxId) (txid : TxId)
    (a : Answer (Option (List UInt8))) :
    Answer SubmitOutcome :=
  match nonNull "sendrawtransaction returned null" a with
  | .ok returned =>
    if txidFromHex returned = some txid then .ok .accepted
    else .ok (.rejected (.badNodeData "sendrawtransaction named a different transaction"))
  | .error (.rpc error) => if error.isAlreadyInMempool then .ok .accepted else .ok
    (.rejected (.rpc error))
  | .error error => if error.isRetryable then .error error else .ok (.rejected error)

/-- Broadcasts until the node decides, over the answers in their order. Absent while it has not. -/
def submit (txidFromHex : List UInt8 → Option TxId) (txid : TxId) :
    List (Answer (Option (List UInt8))) → Option Bool
  | [] => none
  | a :: answers => match sendTransaction txidFromHex txid a with
    | .ok .accepted => some true
    | .ok (.rejected _) => some false
    | .error _ => submit txidFromHex txid answers

/-- One attempt of a submission, from both ends. The node can take the transaction in and the answer not
say so: it came too late, or broke off, or names something else. -/
structure Attempt where
  answer : Answer (Option (List UInt8))
  silent : Bool

/-- Whether the node has taken the transaction in when the submission ends. -/
def taken (txidFromHex : List UInt8 → Option TxId) (txid : TxId) : List Attempt → Bool
  | [] => false
  | a :: attempts => match sendTransaction txidFromHex txid a.answer with
    | .ok .accepted => true
    | .ok (.rejected _) => a.silent
    | .error _ => a.silent || taken txidFromHex txid attempts

/-- The acceptance got lost: the node took the transaction in on an attempt whose answer does not say so,
and the first answer that decides is a refusal. -/
def Lost (txidFromHex : List UInt8 → Option TxId) (txid : TxId) (attempts : List Attempt) : Prop :=
  ∃ before last after error, attempts = before ++ last :: after ∧
    (∀ a ∈ before, ∃ error, sendTransaction txidFromHex txid a.answer = .error error) ∧
    sendTransaction txidFromHex txid last.answer = .ok (.rejected error) ∧
      ∃ a ∈ before ++ [last], a.silent = true

section Submit

variable {txidFromHex : List UInt8 → Option TxId} {txid : TxId} {attempts : List Attempt}

/-- What the mint is told was accepted, the node has. -/
theorem taken_of_submit (h : submit txidFromHex txid (attempts.map Attempt.answer) = some true) :
    taken txidFromHex txid attempts = true := by
  induction attempts with
  | nil => cases h
  | cons a attempts ih =>
    rw [List.map_cons] at h
    unfold submit at h
    unfold taken
    rcases hsend : sendTransaction txidFromHex txid a.answer with error | outcome
    · simp only [hsend] at h ⊢
      simp [ih h]
    · rcases outcome with _ | error
      · rfl
      · simp [hsend] at h

/-- Attempts that decide nothing, and one that is refused: what the mint is told, and what the node
has. -/
theorem submit_refused {before after : List Attempt} {last : Attempt} {error : TransportError}
    (hbefore : ∀ a ∈ before, ∃ error, sendTransaction txidFromHex txid a.answer = .error error)
    (hlast : sendTransaction txidFromHex txid last.answer = .ok (.rejected error)) :
    submit txidFromHex txid ((before ++ last :: after).map Attempt.answer) = some false ∧
      (taken txidFromHex txid (before ++ last :: after) = true ↔
        ∃ a ∈ before ++ [last], a.silent = true) := by
  induction before with
  | nil => simp [submit, taken, hlast]
  | cons a before ih =>
    obtain ⟨error', ha⟩ := hbefore a List.mem_cons_self
    obtain ⟨hsubmit, htaken⟩ := ih fun b hb => hbefore b (List.mem_cons_of_mem _ hb)
    rw [List.cons_append, List.map_cons]
    unfold submit taken
    simp only [ha]
    refine ⟨hsubmit, ?_⟩
    rw [Bool.or_eq_true, htaken, List.cons_append]
    constructor
    · rintro (hsilent | ⟨b, hb, hsilent⟩)
      · exact ⟨a, List.mem_cons_self, hsilent⟩
      · exact ⟨b, List.mem_cons_of_mem _ hb, hsilent⟩
    · rintro ⟨b, hb, hsilent⟩
      rcases List.mem_cons.mp hb with rfl | hb
      · exact .inl hsilent
      · exact .inr ⟨b, hb, hsilent⟩

/-- Where the mint is told of a refusal, the attempts before it decided nothing. -/
theorem exists_refused (h : submit txidFromHex txid (attempts.map Attempt.answer) = some false) :
    ∃ before last after error, attempts = before ++ last :: after ∧
      (∀ a ∈ before, ∃ error, sendTransaction txidFromHex txid a.answer = .error error) ∧
      sendTransaction txidFromHex txid last.answer = .ok (.rejected error) := by
  induction attempts with
  | nil => cases h
  | cons a attempts ih =>
    rw [List.map_cons] at h
    unfold submit at h
    rcases hsend : sendTransaction txidFromHex txid a.answer with error | outcome
    · simp only [hsend] at h
      obtain ⟨before, last, after, error', rfl, hbefore, hlast⟩ := ih h
      refine ⟨a :: before, last, after, error', rfl, fun b hb => ?_, hlast⟩
      rcases List.mem_cons.mp hb with rfl | hb
      · exact ⟨error, hsend⟩
      · exact hbefore b hb
    · rcases outcome with _ | error
      · simp [hsend] at h
      · exact ⟨[], a, attempts, error, rfl, fun b hb => absurd hb List.not_mem_nil, hsend⟩

/-- **An acceptance is lost exactly where the mint is told of a refusal and the node has the
transaction.** -/
theorem lost_iff : Lost txidFromHex txid attempts ↔
    submit txidFromHex txid (attempts.map Attempt.answer) = some false ∧
      taken txidFromHex txid attempts = true := by
  constructor
  · rintro ⟨before, last, after, error, rfl, hbefore, hlast, hsilent⟩
    obtain ⟨hsubmit, htaken⟩ := submit_refused hbefore hlast
    exact ⟨hsubmit, htaken.mpr hsilent⟩
  · rintro ⟨hsubmit, htaken⟩
    obtain ⟨before, last, after, error, rfl, hbefore, hlast⟩ := exists_refused hsubmit
    exact ⟨before, last, after, error, rfl, hbefore, hlast, (submit_refused hbefore hlast).2.mp htaken⟩

instance : Decidable (Lost txidFromHex txid attempts) := decidable_of_iff _ lost_iff.symm

/-- The first answer does not come in time, and the resend finds the inputs spent: by the transaction
itself. -/
example :
    Lost txidFromHex txid [⟨.error .timeout, true⟩,
      ⟨.error (.rpc ⟨-1, "inputs already spent"⟩), false⟩] :=
  ⟨[⟨.error .timeout, true⟩], _, [], _, rfl, fun a ha =>
    ⟨.timeout, by rw [List.mem_singleton.mp ha]; rfl⟩, rfl,
    ⟨_, List.mem_cons_self, rfl⟩⟩

end Submit

end ZnsMint.Zebra
