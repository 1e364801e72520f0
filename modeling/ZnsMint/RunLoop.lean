import ZnsMint.Live
import ZnsMint.Mtp
import ZnsMint.Presale
import ZnsMint.Pricing.Oracle
import ZnsMint.Zebra
import ZnsMint.Lib.HashChain

/-! # The run loop and its node

The run loop of `src/main.rs` between two of its awaits: where it stands in a pass, and what it does with
the node's next answer. A pass reads the tip, walks back to the common ancestor, rewinds there and
rebuilds the median clock, applies the missing blocks, prices, checks that its tip is the node's own, and
runs the rules. The node may change its best chain between any two answers, and an answer may fail.

What the faculties do with a block, a rewind and a rule pass is `Live`. Of the wallet the loop asks for
its `Cursor` alone: the hashes of the applied blocks above the boot origin. The registry is cut back
before the clock is rebuilt and the other faculties after; nothing reads them in between, and here all of
them move at once, after. The blocks below the mint's birthday, of which only the wallet takes notice,
are left out.

`passes` and `sweeps` are ghosts: the tips that rules were run at and the days a vault sweep was tried
on. -/

namespace ZnsMint

open Basic Wallet Zebra Presale Pricing

/-! ### The wallet's cursor -/

/-- The applied chain by its hashes: the boot origin, and the blocks above it. -/
structure Cursor where
  seed : ℕ × BlockHash
  blocks : HeightMap BlockHash

namespace Cursor

/-- The highest applied block, or the boot origin before the first. -/
def tip (c : Cursor) : ℕ × BlockHash := c.blocks.toList.getLast?.getD c.seed

/-- The block hash at `height`: an applied block, or the boot origin. -/
def blockHashAt (c : Cursor) (height : ℕ) : Option BlockHash :=
  match c.blocks[height]? with
  | some hash => some hash
  | none => if height = c.seed.1 then some c.seed.2 else none

/-- The next block is applied. -/
def push (c : Cursor) (hash : BlockHash) : Cursor :=
  { c with blocks := c.blocks.insert (c.tip.1 + 1) hash }

/-- Rewinds to the applied block at or below `maxHeight`, or to the origin, where the trees retain it. -/
def truncateTo (retains : ℕ → Bool) (c : Cursor) (maxHeight : ℕ) : Option Cursor :=
  match (Lib.Checkpoints.cut c.blocks maxHeight).toList.getLast? with
  | some target =>
    if retains target.1 then some { c with blocks := Lib.Checkpoints.cut c.blocks target.1 } else none
  | none =>
    if c.blocks.isEmpty then if maxHeight = c.seed.1 then some c else none
    else if c.seed.1 ≤ maxHeight ∧ retains c.seed.1 = true then
      some { c with blocks := Lib.Checkpoints.cut c.blocks c.seed.1 }
    else none

end Cursor

/-! ### The loop -/

/-- What the scanners find in a block. -/
structure Scan where
  txs : List (TxId × ScannedTx)
  arrivals : List Arrival
  payments : List (TransparentAddress × Zatoshis)

/-- What the loop is set up with: its network and keys, the birthday of its clock, the reader of headers,
the scanners, and which heights the wallet's trees retain a checkpoint of. -/
structure Config (β : Type) where
  params : Params
  keys : Keys
  birthday : ℤ
  readTime : List UInt8 → Option ℕ
  scan : Live → RawBlock β → Scan
  retains : Cursor → ℕ → Bool

/-- Why the process stops. -/
inductive Fatal where
  | invalidTip (error : TransportError)
  | noCommonAncestor (height : ℕ)
  | invalidAncestorHash (error : TransportError)
  | notRewound
  | notReconstructed (error : TransportError)
  | mtpUnavailable
  | invalidBlock (error : TransportError)
  | headerTime (reason : String)
  | rules
  deriving DecidableEq

deriving instance DecidableEq for MtpTracker

/-- What the loop awaits. -/
inductive RunLoop.Phase where
  /-- The next tip of the node's stream. -/
  | nextTip
  /-- The canonical tip, after the stream failed. -/
  | canonicalTip
  /-- The node's hash at `ancestor`. -/
  | walk (best ancestor : ℕ)
  /-- The header time at `height`, for the clock at the tip rewound to. -/
  | backfill (best : ℕ) (window : MtpTracker) (height : ℕ)
  /-- The block after the applied tip. -/
  | catchUp (best : ℕ) (previousDay : ℤ)
  /-- The price round and the pre-sale read. -/
  | price (previousDay : ℤ)
  /-- The node's exact tip. -/
  | exactTip (previousDay : ℤ)
  /-- The rule pass. -/
  | rules (previousDay : ℤ)
  /-- Nothing any more. -/
  | fatal (why : Fatal)
  deriving DecidableEq

structure RunLoop where
  live : Live
  cursor : Cursor
  mtp : MtpTracker
  oracle : Oracle
  protectedNames : ProtectedNames
  phase : RunLoop.Phase
  passes : List (ℕ × BlockHash)
  sweeps : List ℤ

/-- What comes back. An announcement is absent where the stream ended, and a gRPC status where it failed;
the pre-sale rows come with how many landed and how many were counted. -/
inductive Reply (β : Type) where
  | announced (a : Option (Except Code BlockHashAndHeight))
  | tip (a : Answer (Option BlockchainInfo))
  | block (a : Answer (BlockAndHash β))
  | header (a : Answer (Option (List UInt8)))
  | round (price : Option ℚ) (rows : Option (List ProtectedRow × ℕ × Option ℕ))
  | rules (fee : Answer (Option StandardFee)) (env : TipEnv)

/-- `PendingRead::install`: a read that is not confirmed complete keeps the last table. -/
def install (t : ProtectedNames) (read : Option (List ProtectedRow × ℕ × Option ℕ)) : ProtectedNames :=
  match read with
  | some (rows, landed, total) => if total = some landed then
    (ProtectedNames.fromRows ∅ rows).getD t else t
  | none => t

namespace RunLoop

variable {β : Type}

def fail (s : RunLoop) (why : Fatal) : RunLoop := { s with phase := .fatal why }

/-- `continue 'run`. -/
def reConverge (s : RunLoop) : RunLoop := { s with phase := .nextTip }

/-! ### Catching up -/

/-- Blocks are missing, or the pass goes on to the prices. -/
def catchUp (s : RunLoop) (best : ℕ) (previousDay : ℤ) : RunLoop :=
  if s.cursor.tip.1 < best then { s with phase := .catchUp best previousDay }
  else { s with phase := .price previousDay }

def enterCatchUp (cfg : Config β) (s : RunLoop) (best : ℕ) : RunLoop :=
  match s.mtp.currentDay cfg.birthday with
  | some previousDay => s.catchUp best previousDay
  | none => s.fail .mtpUnavailable

/-- The next block of the applied chain. -/
def extend (cfg : Config β) (s : RunLoop) (best : ℕ) (previousDay : ℤ) (block : RawBlock β) : RunLoop :=
  match s.mtp.headerTimeOk block.time with
  | .error reason => s.fail (.headerTime reason)
  | .ok () =>
    let mtp := s.mtp.update (s.cursor.tip.1 + 1) block.time
    match mtp.current with
    | none => s.fail .mtpUnavailable
    | some now =>
      let scan := cfg.scan s.live block
      { s with
        cursor := s.cursor.push block.hash
        mtp := mtp
        live := s.live.block cfg.params cfg.keys ⟨scan.txs, now, scan.arrivals, scan.payments⟩ }.catchUp
          best previousDay

def onBlock (cfg : Config β) (s : RunLoop) (best : ℕ) (previousDay : ℤ) (a : Answer (BlockAndHash β)) :
    RunLoop :=
  match getBlock (s.cursor.tip.1 + 1) a with
  | .error error =>
    if error.isRetryable then s
    else if error = .notOnBestChain then s.reConverge
    else s.fail (.invalidBlock error)
  | .ok block =>
    -- a block that does not extend the applied chain: the chain moved under the fetch
    if block.prevBlock ≠ s.cursor.tip.2 then s.reConverge else s.extend cfg best previousDay block

/-! ### The common ancestor -/

/-- The walk asks for the hash at a height the wallet has one of. -/
def walkAt (s : RunLoop) (best ancestor : ℕ) : RunLoop :=
  match s.cursor.blockHashAt ancestor with
  | some _ => { s with phase := .walk best ancestor }
  | none => s.fail (.noCommonAncestor ancestor)

/-- A pass starts from the wallet's own cursor, or from the node's tip where that is lower. -/
def startPass (s : RunLoop) (best : ℕ) : RunLoop := s.walkAt best (min s.cursor.tip.1 best)

/-- The clock is rebuilt, and the other faculties follow the wallet. -/
def rebuilt (cfg : Config β) (s : RunLoop) (best : ℕ) (window : MtpTracker) : RunLoop :=
  match window.current with
  | none => s.fail .mtpUnavailable
  | some mtp => { s with mtp := window, live := s.live.reorg cfg.params s.cursor.tip.1 mtp }.enterCatchUp
    cfg best

def onHeader (cfg : Config β) (s : RunLoop) (best : ℕ) (window : MtpTracker) (height : ℕ)
    (a : Answer (Option (List UInt8))) : RunLoop :=
  match headerTime cfg.readTime a with
  | .error error => if error.headerRetries then s else s.fail (.notReconstructed error)
  | .ok time =>
    let window := window.update height time
    if height = s.cursor.tip.1 then s.rebuilt cfg best window
    else { s with phase := .backfill best window (height + 1) }

/-- Both sides name the same block at `ancestor`. The wallet rewinds first. -/
def found (cfg : Config β) (s : RunLoop) (best ancestor : ℕ) : RunLoop :=
  if ancestor < s.cursor.tip.1 then
    match s.cursor.truncateTo (cfg.retains s.cursor) ancestor with
    | none => s.fail .notRewound
    | some cursor =>
      { s with cursor := cursor, phase := .backfill best .empty (cursor.tip.1 - (MTP_WINDOW - 1)) }
  else s.enterCatchUp cfg best

def onAncestor (cfg : Config β) (s : RunLoop) (best ancestor : ℕ) (a : Answer (BlockAndHash β)) :
    RunLoop :=
  match getBlockHash a with
  | .error error =>
    if error.isRetryable then s
    else if error = .notOnBestChain then s.reConverge
    else s.fail (.invalidAncestorHash error)
  | .ok canonical =>
    if s.cursor.blockHashAt ancestor = some canonical then s.found cfg best ancestor
    -- height 0 has no predecessor
    else if ancestor = 0 then s.fail (.noCommonAncestor ancestor)
    else s.walkAt best (ancestor - 1)

/-! ### Tips -/

/-- `TipSession::next_tip` on the stream's next item. -/
def onAnnounced (s : RunLoop) (a : Option (Except Code BlockHashAndHeight)) : RunLoop :=
  match a with
  | some (.ok notification) => match tipHeightHash notification with
    | .ok tip => s.startPass tip.1
    | .error _ => { s with phase := .canonicalTip }
  | some (.error _) => { s with phase := .canonicalTip }
  | none => { s with phase := .canonicalTip }

/-- `canonical_tip`, where the stream gave no tip. -/
def onCanonicalTip (s : RunLoop) (a : Answer (Option BlockchainInfo)) : RunLoop :=
  match Zebra.exactTip a with
  | .ok tip => s.startPass tip.1
  | .error error => if error.isRetryable then s else s.fail (.invalidTip error)

/-! ### The rules -/

def onRound (cfg : Config β) (s : RunLoop) (previousDay : ℤ) (price : Option ℚ)
    (rows : Option (List ProtectedRow × ℕ × Option ℕ)) : RunLoop :=
  match s.mtp.current, s.mtp.currentDay cfg.birthday with
  | some now, some today =>
    { s with
      oracle := s.oracle.accumulate ⟨price, today, now⟩
      protectedNames := install s.protectedNames rows
      phase := .exactTip previousDay }
  | _, _ => s.fail .mtpUnavailable

/-- The rules are skipped until the next notification; the round stays. -/
def skip (s : RunLoop) : RunLoop := { s with live := { s.live with rate := s.oracle.current } }.reConverge

def onExactTip (s : RunLoop) (previousDay : ℤ) (a : Answer (Option BlockchainInfo)) : RunLoop :=
  match Zebra.exactTip a with
  | .error error => if error.isRetryable then s else s.skip
  | .ok tip => if tip = s.cursor.tip then { s with phase := .rules previousDay } else s.skip

/-- What the rule pass is run with: the day's rate, the node's fee rate or the last one it gave, the
table. -/
def tipEnv (s : RunLoop) (fee : Answer (Option StandardFee)) (env : TipEnv) : TipEnv :=
  { env with
    rate := s.oracle.current
    marginalFee := (standardFee fee).toOption.getD s.live.marginalFee
    isProtected := s.protectedNames.isProtected }

/-- The rule pass. A new day sweeps the Treasury once, unless a refund is still queued. -/
def onRules (cfg : Config β) (s : RunLoop) (previousDay : ℤ) (fee : Answer (Option StandardFee))
    (env : TipEnv) :
    RunLoop :=
  match s.mtp.currentDay cfg.birthday with
  | none => s.fail .mtpUnavailable
  | some today => match s.live.tipPass cfg.params cfg.keys (s.tipEnv fee env) with
    | none => s.fail .rules
    | some live =>
      { s with
        live := live
        passes := s.passes ++ [s.cursor.tip]
        sweeps := if previousDay < today ∧ live.refunds.refundsDue = [] then s.sweeps ++
          [today] else s.sweeps
        phase := .nextTip }

/-- One reply to what the loop awaits. Another is of no request. -/
def step (cfg : Config β) (s : RunLoop) (r : Reply β) : RunLoop :=
  match s.phase, r with
  | .nextTip, .announced a => s.onAnnounced a
  | .canonicalTip, .tip a => s.onCanonicalTip a
  | .walk best ancestor, .block a => s.onAncestor cfg best ancestor a
  | .backfill best window height, .header a => s.onHeader cfg best window height a
  | .catchUp best previousDay, .block a => s.onBlock cfg best previousDay a
  | .price previousDay, .round price rows => s.onRound cfg previousDay price rows
  | .exactTip previousDay, .tip a => s.onExactTip previousDay a
  | .rules previousDay, .rules fee env => s.onRules cfg previousDay fee env
  | _, _ => s

end RunLoop

/-! ### The loop beside its node -/

/-- The node's best chain from its first block on, and the loop. `held` is a ghost: the best chains so
far. -/
structure System (β : Type) where
  best : List (RawBlock β)
  held : List (List (RawBlock β))
  loop : RunLoop

inductive System.Event (β : Type) where
  /-- The node's best chain changes. -/
  | moved (best : List (RawBlock β))
  | replied (r : Reply β)

namespace System

variable {β : Type}

def step (cfg : Config β) (s : System β) : Event β → Option (System β)
  | .moved best => some { s with best := best, held := best :: s.held }
  | .replied r => some { s with loop := s.loop.step cfg r }

end System

/-! ### A small world for concrete runs -/

namespace RunLoop

open Lib.Text

/-- A header is one byte, its height, and a block comes every ten seconds. -/
def sampleConfig : Config Unit where
  params := Note.Params.sample
  keys := Live.sampleKeys
  birthday := 0
  readTime bytes := bytes.head?.map fun b => 10 * b.toNat
  scan _ _ := ⟨[], [], []⟩
  retains _ _ := true

def sampleHash (id : UInt8) : BlockHash := Vector.replicate 32 id

/-- The block `id` on the block `prev`. -/
def sampleBlock (height : ℕ) (prev id : UInt8) : RawBlock Unit :=
  ⟨sampleHash id, sampleHash prev, 10 * height, height, ()⟩

def sampleChain : List (RawBlock Unit) := [sampleBlock 0 0 0, sampleBlock 1 0 1, sampleBlock 2 1 2]

/-- What the node reorganises to. -/
def sampleFork : List (RawBlock Unit) := [sampleBlock 0 0 0, sampleBlock 1 0 11, sampleBlock 2 11 12,
    sampleBlock 3 12 13]

/-- The loop at its origin, the first block of both. -/
def sampleStart : RunLoop :=
  ⟨Live.boot Note.Params.sample 0 0 [] .new ∅ .zero .zero, ⟨(0, sampleHash 0), ∅⟩,
    MtpTracker.empty.update 0 0,
    ⟨.zero, 0, 0, 0, 800, 0, 0, 0⟩, ∅, .nextTip, [], []⟩

def sampleSystem : System Unit := ⟨sampleChain, [sampleChain], sampleStart⟩

def sampleAnnounced (block : RawBlock Unit) : Reply Unit :=
  .announced (some (.ok ⟨displayOrder block.hash, block.claimedHeight⟩))

def sampleBlockReply (block : RawBlock Unit) : Reply Unit :=
  .block (.ok ⟨some block, displayOrder block.hash⟩)

def sampleHeader (height : UInt8) : Reply Unit := .header (.ok (some (hex [height])))

def sampleTip (block : RawBlock Unit) : Reply Unit :=
  .tip (.ok (some ⟨block.claimedHeight, hex (displayOrder block.hash)⟩))

/-- The price round, the tip check and the rules. -/
def sampleRules (block : RawBlock Unit) : List (Reply Unit) :=
  [.round (some 900) none, sampleTip block, .rules (.ok (some ⟨5000, 0⟩)) Live.sampleEnv]

/-- The node reorganises while the loop catches up. The next block does not extend the one applied, and
the pass on the new tip walks back below it. -/
def sampleEvents : List (System.Event Unit) :=
  [.replied (sampleAnnounced (sampleBlock 2 1 2)), .replied (.block (.error .timeout)),
    .replied (sampleBlockReply (sampleBlock 0 0 0)), .replied (sampleBlockReply (sampleBlock 1 0 1)),
    .moved sampleFork, .replied (sampleBlockReply (sampleBlock 2 11 12)),
    .replied (sampleAnnounced (sampleBlock 3 12 13)), .replied (sampleBlockReply (sampleBlock 1 0 11)),
    .replied (sampleBlockReply (sampleBlock 0 0 0)), .replied (sampleHeader 0),
    .replied (sampleBlockReply (sampleBlock 1 0 11)), .replied (sampleBlockReply (sampleBlock 2 11 12)),
    .replied (sampleBlockReply (sampleBlock 3 12 13))] ++
  (sampleRules (sampleBlock 3 12 13)).map .replied

end RunLoop

end ZnsMint
