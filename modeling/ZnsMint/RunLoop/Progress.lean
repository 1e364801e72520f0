import ZnsMint.RunLoop.Clock
import ZnsMint.RunLoop.Sweeps

/-! # A still node is caught up with

From any state that a run beside the node reaches between two passes: where the node's best chain stays
from then on and its answers come, with as many failures in between as there may be, the next pass walks
back to the fork of the applied chain and the node's and no further, applies what is missing, and reaches
its rules. The number of answers this takes is bounded by the two branches. -/

namespace ZnsMint

open Basic Wallet Zebra Lib.HashChain Lib.Machine ZnsMint.System

variable {β : Type} {cfg : Config β}

/-! ### Answers and failures -/

/-- The node could not answer, and is asked again. -/
def Reply.unavailable : Reply β → Bool
  | .tip (.error error) => error.isRetryable
  | .block (.error error) => error.isRetryable
  | .header (.error error) => error.isRetryable
  | _ => false

/-- An answer came, and what it says is so. -/
def Gives {α : Type} (a : Answer α) (P : α → Prop) : Prop :=
  match a with
  | .ok x => P x
  | .error _ => False

instance {α : Type} (a : Answer α) (P : α → Prop) [∀ x, Decidable (P x)] : Decidable (Gives a P) :=
  match a with
  | .ok x => inferInstanceAs (Decidable (P x))
  | .error _ => isFalse id

theorem Gives.exists {α : Type} {a : Answer α} {P : α → Prop} (h : Gives a P) : ∃ x, a = .ok x ∧ P x := by
  rcases a with error | x
  · exact h.elim
  · exact ⟨x, rfl, h⟩

namespace Reply

/-- The tip that is announced, if the announcement can be read. -/
def announcement : Reply β → Answer (Option (ℕ × BlockHash))
  | .announced (some (.ok n)) => .ok (tipHeightHash n).toOption
  | .announced _ => .ok none
  | _ => .error .client

def tipSaid : Reply β → Answer (ℕ × BlockHash)
  | .tip a => Zebra.exactTip a
  | _ => .error .client

def hashSaid : Reply β → Answer BlockHash
  | .block a => getBlockHash a
  | _ => .error .client

def blockSaid (height : ℕ) : Reply β → Answer (RawBlock β)
  | .block a => getBlock height a
  | _ => .error .client

def timeSaid (readTime : List UInt8 → Option ℕ) : Reply β → Answer ℕ
  | .header a => headerTime readTime a
  | _ => .error .client

def isRound : Reply β → Bool
  | .round .. => true
  | _ => false

variable {r : Reply β}

theorem of_tipSaid {tip : ℕ × BlockHash} (h : r.tipSaid = .ok tip) : ∃ a, r = .tip a ∧ Zebra.exactTip a =
    .ok tip := by
  cases r with
  | tip a => exact ⟨a, rfl, h⟩
  | announced | block | header | round | rules => cases h

theorem of_hashSaid {hash : BlockHash} (h : r.hashSaid = .ok hash) : ∃ a, r = .block a ∧ getBlockHash a =
    .ok hash := by
  cases r with
  | block a => exact ⟨a, rfl, h⟩
  | announced | tip | header | round | rules => cases h

theorem of_blockSaid {height : ℕ} {block : RawBlock β} (h : r.blockSaid height = .ok block) :
    ∃ a, r = .block a ∧ getBlock height a = .ok block := by
  cases r with
  | block a => exact ⟨a, rfl, h⟩
  | announced | tip | header | round | rules => cases h

theorem of_timeSaid {readTime : List UInt8 → Option ℕ} {time : ℕ} (h : r.timeSaid readTime = .ok time) :
    ∃ a, r = .header a ∧ headerTime readTime a = .ok time := by
  cases r with
  | header a => exact ⟨a, rfl, h⟩
  | announced | tip | block | round | rules => cases h

end Reply

/-- How many replies are answers. -/
def answered (replies : List (Reply β)) : ℕ := replies.countP fun r => !r.unavailable

namespace RunLoop

variable {s t : RunLoop} {r : Reply β}

theorem notOnBestChain_of_isRetryable {error : TransportError} (h : error.isRetryable = true) :
    notOnBestChain error = error := by
  rcases error with - | - | - | what | what | - | error | code
  · rfl
  · rfl
  · rfl
  · rfl
  · rfl
  · rfl
  · exact nomatch h
  · cases code <;> first | rfl | exact absurd h (by decide)

/-- **A failure that is retried changes nothing.** -/
theorem step_of_unavailable (h : r.unavailable = true) : s.step cfg r = s := by
  unfold step
  split
  · exact nomatch h
  · rename_i a hphase
    rcases a with error | info
    · exact if_pos h
    · exact nomatch h
  · rename_i best ancestor a hphase
    rcases a with error | block
    · have hretry : error.isRetryable = true := h
      have ha : getBlockHash (.error error : Answer (BlockAndHash β)) = .error (notOnBestChain error) :=
        rfl
      unfold onAncestor
      rw [ha, notOnBestChain_of_isRetryable hretry]
      exact if_pos hretry
    · exact nomatch h
  · rename_i best window height a hphase
    rcases a with error | header
    · have hretry : error.isRetryable = true := h
      have ha : headerTime cfg.readTime (.error error) = .error (notOnBestChain error) := rfl
      have hagain : error.headerRetries = true := by
        unfold TransportError.headerRetries
        rw [hretry, Bool.true_or]
      unfold onHeader
      rw [ha, notOnBestChain_of_isRetryable hretry]
      exact if_pos hagain
    · exact nomatch h
  · rename_i best previousDay a hphase
    rcases a with error | block
    · have hretry : error.isRetryable = true := h
      have ha : getBlock (s.cursor.tip.1 + 1) (.error error : Answer (BlockAndHash β)) =
          .error (notOnBestChain error) := rfl
      unfold onBlock
      rw [ha, notOnBestChain_of_isRetryable hretry]
      exact if_pos hretry
    · exact nomatch h
  · exact nomatch h
  · rename_i previousDay a hphase
    rcases a with error | info
    · exact if_pos h
    · exact nomatch h
  · exact nomatch h
  · rfl

/-! ### An available node that stays -/

/-- The tip of a chain. -/
def AtTip (best : List (RawBlock β)) (tip : ℕ × BlockHash) : Prop :=
  tip.1 + 1 = best.length ∧ named RawBlock.hash best tip.1 = some tip.2

instance (best : List (RawBlock β)) (tip : ℕ × BlockHash) : Decidable (AtTip best tip) :=
  inferInstanceAs (Decidable (_ ∧ _))

/-- The node, with `best` as its best chain, gives what is awaited before the rules. An announcement may
fail; if it can be read, it is of the tip. -/
def Phase.Answered (cfg : Config β) (best : List (RawBlock β)) (tip : ℕ) (r : Reply β) : Phase → Prop
  | .nextTip => Gives r.announcement fun tip => ∀ t ∈ tip, AtTip best t
  | .canonicalTip => Gives r.tipSaid (AtTip best)
  | .walk _ ancestor => Gives r.hashSaid fun hash => named RawBlock.hash best ancestor = some hash
  | .backfill _ _ height => Gives (r.timeSaid cfg.readTime) fun time =>
    best[height]?.map RawBlock.time = some time
  | .catchUp _ _ => Gives (r.blockSaid (tip + 1)) fun block => best[tip + 1]? = some block
  | .price _ => r.isRound = true
  | .exactTip _ => Gives r.tipSaid (AtTip best)
  | .rules _ => False
  | .fatal _ => False

instance [DecidableEq β] (cfg : Config β) (best : List (RawBlock β)) (tip : ℕ) (r : Reply β) :
    ∀ p : Phase, Decidable (p.Answered cfg best tip r)
  | .nextTip => inferInstanceAs (Decidable (Gives _ _))
  | .canonicalTip => inferInstanceAs (Decidable (Gives _ _))
  | .walk .. => inferInstanceAs (Decidable (Gives _ _))
  | .backfill .. => inferInstanceAs (Decidable (Gives _ _))
  | .catchUp .. => inferInstanceAs (Decidable (Gives _ _))
  | .price _ => inferInstanceAs (Decidable (_ = _))
  | .exactTip _ => inferInstanceAs (Decidable (Gives _ _))
  | .rules _ | .fatal _ => isFalse id

/-- The loop is given what it awaits, or the node cannot answer. -/
def Served (cfg : Config β) (best : List (RawBlock β)) (s : RunLoop) (r : Reply β) : Prop :=
  r.unavailable = true ∨ s.phase.Answered cfg best s.cursor.tip.1 r

instance [DecidableEq β] (cfg : Config β) (best : List (RawBlock β)) (s : RunLoop) (r : Reply β) :
    Decidable (Served cfg best s r) :=
  inferInstanceAs (Decidable (_ ∨ _))

/-- The applied chain `c` with the cursor `k`, the node's chain, and where they fork: the chains are
linked and share no hash but of one block, the node's goes through the boot origin and keeps the rule on
header times, and the wallet's trees retain the fork. -/
structure Meets (cfg : Config β) (c best : List (RawBlock β)) (k : Cursor) (fork : ℕ) : Prop where
  own : Linked RawBlock.hash RawBlock.prevBlock c
  linked : Linked RawBlock.hash RawBlock.prevBlock best
  apart : Apart RawBlock.hash c best
  applied : k.Applied c
  seed : named RawBlock.hash best k.seed.1 = some k.seed.2
  forks : Forks RawBlock.hash c best fork
  retained : fork < k.tip.1 → cfg.retains k fork = true
  timely : Timely best

/-- The applied chain is the beginning of the node's, from the fork on, and the clock is its own. -/
structure OnBest (best : List (RawBlock β)) (fork : ℕ) (s : RunLoop) : Prop where
  above : fork ≤ s.cursor.tip.1
  applied : s.cursor.Applied (best.take (s.cursor.tip.1 + 1))
  clock : s.mtp.blocktimes = MtpTracker.window (times best) s.cursor.tip.1

/-- How a pass stands on its way to its rules. -/
def Passing (c best : List (RawBlock β)) (k : Cursor) (fork : ℕ) (s : RunLoop) : Prop :=
  match s.phase with
  | .nextTip | .canonicalTip => s.cursor = k ∧ s.mtp.blocktimes = MtpTracker.window (times c) k.tip.1
  | .walk till ancestor =>
    s.cursor = k ∧ s.mtp.blocktimes = MtpTracker.window (times c) k.tip.1 ∧ till + 1 = best.length ∧
      fork ≤ ancestor ∧ ancestor ≤ min k.tip.1 till
  | .backfill till window height =>
    s.cursor.Applied (best.take (fork + 1)) ∧ till + 1 = best.length ∧ windowStart fork ≤ height ∧
      height ≤ fork ∧
      window = MtpTracker.empty.follow (times best)
        (List.range' (windowStart fork) (height - windowStart fork))
  | .catchUp till _ => OnBest best fork s ∧ till + 1 = best.length ∧ s.cursor.tip.1 < till
  | .price _ | .exactTip _ | .rules _ => OnBest best fork s ∧ s.cursor.tip.1 + 1 = best.length
  | .fatal _ => False

/-- The answers a pass still takes, at most. -/
def work (best : List (RawBlock β)) (k : Cursor) (fork : ℕ) (s : RunLoop) : ℕ :=
  let blocks := best.length - 1 - fork
  match s.phase with
  | .nextTip => min k.tip.1 (best.length - 1) - fork + MTP_WINDOW + blocks + 5
  | .canonicalTip => min k.tip.1 (best.length - 1) - fork + MTP_WINDOW + blocks + 4
  | .walk _ ancestor => ancestor - fork + MTP_WINDOW + blocks + 3
  | .backfill _ _ height => fork - height + 1 + blocks + 2
  | .catchUp _ _ => best.length - 1 - s.cursor.tip.1 + 2
  | .price _ => 2
  | .exactTip _ => 1
  | _ => 0

/-! ### The fork -/

variable {c best : List (RawBlock β)} {k : Cursor} {fork height : ℕ}

namespace Meets

theorem fork_lt (h : Meets cfg c best k fork) : fork ≤ k.tip.1 ∧ fork < best.length := by
  obtain ⟨x, hc, hbest⟩ := h.forks.agree
  have hlt := lt_of_named hc
  have htip := h.applied.tip.1
  exact ⟨by omega, lt_of_named hbest⟩

theorem seed_le (h : Meets cfg c best k fork) : k.seed.1 ≤ fork :=
  (h.forks.agree_iff h.own h.linked h.apart).mp ⟨k.seed.2, h.applied.seed, h.seed⟩

theorem take_eq (h : Meets cfg c best k fork) : c.take (fork + 1) = best.take (fork + 1) := by
  obtain ⟨x, hc, hbest⟩ := h.forks.agree
  exact agree_of_hash h.own h.linked h.apart hc hbest

/-- From above, the wallet and the node first agree at the fork. -/
theorem eq_fork (h : Meets cfg c best k fork) (habove : fork ≤ height) {hash : BlockHash}
    (hown : k.blockHashAt height = some hash) (hbest : named RawBlock.hash best height = some hash) :
    height = fork := by
  have hc := (h.applied.of_blockHashAt hown).2
  have hle := (h.forks.agree_iff h.own h.linked h.apart).mp ⟨hash, hc, hbest⟩
  omega

/-- At the fork they do agree. -/
theorem at_fork (h : Meets cfg c best k fork) {hash : BlockHash}
    (hbest : named RawBlock.hash best fork = some hash) :
    k.blockHashAt fork = some hash := by
  obtain ⟨x, hc, hx⟩ := h.forks.agree
  obtain rfl : x = hash := Option.some.inj (hx.symm.trans hbest)
  rw [h.applied.blockHashAt, if_pos h.seed_le]
  exact hc

theorem blockHashAt_isSome (h : Meets cfg c best k fork) (habove : fork ≤ height)
    (hle : height ≤ k.tip.1) :
    ∃ hash, k.blockHashAt height = some hash := by
  have hseed := h.seed_le
  have htip := h.applied.tip.1
  obtain ⟨x, hx⟩ := named_isSome RawBlock.hash (show height < c.length by omega)
  refine ⟨x, ?_⟩
  rw [h.applied.blockHashAt, if_pos (by omega)]
  exact hx

end Meets

/-! ### On the node's chain -/

theorem current_isSome {m : MtpTracker} {headers : ℕ → ℕ}
    (h : m.blocktimes = MtpTracker.window headers height) :
    ∃ now, m.current = some now := by
  have hpos : 0 < m.stamps.length := by
    unfold MtpTracker.stamps
    rw [h, List.length_map]
    unfold MtpTracker.window
    rw [List.length_map, List.length_range']
    omega
  have hsome : (Lib.OrderStatistic.nth m.stamps (m.stamps.length / 2)).isSome :=
    Lib.OrderStatistic.nth_isSome_iff.mpr (by omega)
  obtain ⟨x, hx⟩ := Option.isSome_iff_exists.mp hsome
  exact ⟨x, MtpTracker.current_eq_some.mpr ⟨x, hx, rfl⟩⟩

theorem OnBest.below (h : OnBest best fork s) : s.cursor.tip.1 < best.length := by
  have htip := h.applied.tip.1
  rw [List.length_take] at htip
  omega

/-- The applied tip is the node's block there. -/
theorem OnBest.named (h : OnBest best fork s) : named RawBlock.hash best s.cursor.tip.1 =
    some s.cursor.tip.2 := by
  have htip := h.applied.tip.2
  rwa [named_take (Nat.lt_succ_self _)] at htip

/-- Blocks are missing, or the pass goes on to the prices. -/
theorem OnBest.catchUp {till : ℕ} (h : OnBest best fork s) (htill : till + 1 = best.length) (day : ℤ) :
    Passing c best k fork (s.catchUp till day) ∧
      work best k fork (s.catchUp till day) ≤ best.length - 1 - s.cursor.tip.1 + 2 := by
  have hbelow := h.below
  unfold RunLoop.catchUp
  split_ifs with hmissing
  · refine ⟨⟨⟨h.above, h.applied, h.clock⟩, htill, hmissing⟩, ?_⟩
    exact le_rfl
  · have hlast : s.cursor.tip.1 + 1 = best.length := by omega
    refine ⟨⟨⟨h.above, h.applied, h.clock⟩, hlast⟩, ?_⟩
    show 2 ≤ best.length - 1 - s.cursor.tip.1 + 2
    omega

theorem OnBest.enterCatchUp (cfg : Config β) {till : ℕ} (h : OnBest best fork s)
    (htill : till + 1 = best.length) :
    Passing c best k fork (s.enterCatchUp cfg till) ∧
      work best k fork (s.enterCatchUp cfg till) ≤ best.length - 1 - s.cursor.tip.1 + 2 := by
  obtain ⟨now, hnow⟩ := current_isSome h.clock
  obtain ⟨day, hday⟩ := currentDay_isSome hnow cfg.birthday
  have henter : s.enterCatchUp cfg till = s.catchUp till day := by
    unfold RunLoop.enterCatchUp
    rw [hday]
  rw [henter]
  exact h.catchUp htill day

/-! ### Each answer -/

/-- The loop has not left its own chain yet. -/
def Held (c : List (RawBlock β)) (k : Cursor) (s : RunLoop) : Prop :=
  s.cursor = k ∧ s.mtp.blocktimes = MtpTracker.window (times c) k.tip.1

theorem passing_walkAt (h : Meets cfg c best k fork) (hs : Held c k s) (height : ℕ) {till : ℕ}
    (htill : till + 1 = best.length)
    (habove : fork ≤ height) (hle : height ≤ min k.tip.1 till) :
    Passing c best k fork (s.walkAt till height) ∧
      work best k fork (s.walkAt till height) = height - fork + MTP_WINDOW +
        (best.length - 1 - fork) + 3 := by
  obtain ⟨hash, hhash⟩ := h.blockHashAt_isSome habove (hle.trans (min_le_left _ _))
  have hwalk : s.walkAt till height = { s with phase := .walk till height } := by
    unfold walkAt
    rw [hs.1, hhash]
  rw [hwalk]
  exact ⟨⟨hs.1, hs.2, htill, habove, hle⟩, rfl⟩

/-- A pass that starts at the node's tip. -/
theorem passing_startPass (h : Meets cfg c best k fork) (hs : Held c k s) {tip : ℕ × BlockHash}
    (htip : AtTip best tip) :
    Passing c best k fork (s.startPass tip.1) ∧ work best k fork (s.startPass tip.1) =
      min k.tip.1 (best.length - 1) - fork + MTP_WINDOW + (best.length - 1 - fork) + 3 := by
  obtain ⟨hown, hbest⟩ := h.fork_lt
  have hlen := htip.1
  have hstart := passing_walkAt h hs (min k.tip.1 tip.1) hlen (by omega) le_rfl
  have hlast : best.length - 1 = tip.1 := by omega
  unfold startPass
  rw [hs.1, hlast]
  rw [hlast] at hstart
  exact hstart

theorem passing_onAnnounced (h : Meets cfg c best k fork) (hs : Held c k s)
    {a : Option (Except Code BlockHashAndHeight)}
    (ha : Gives (Reply.announced a : Reply β).announcement fun tip => ∀ t ∈ tip, AtTip best t) :
    Passing c best k fork (s.onAnnounced a) ∧ work best k fork (s.onAnnounced a) + 1 ≤
      min k.tip.1 (best.length - 1) - fork + MTP_WINDOW + (best.length - 1 - fork) + 5 := by
  have hfailed : Passing c best k fork { s with phase := .canonicalTip } ∧
      work best k fork { s with phase := .canonicalTip } + 1 ≤
        min k.tip.1 (best.length - 1) - fork + MTP_WINDOW + (best.length - 1 - fork) + 5 := ⟨hs, le_rfl⟩
  unfold onAnnounced
  split
  · rename_i n
    split
    · rename_i tip htip
      have hread : tip ∈ (tipHeightHash n).toOption := by
        rw [htip]
        rfl
      obtain ⟨hpassing, hwork⟩ := passing_startPass h hs (ha tip hread)
      refine ⟨hpassing, ?_⟩
      rw [hwork]
      omega
    · exact hfailed
  · exact hfailed
  · exact hfailed

theorem passing_onCanonicalTip (h : Meets cfg c best k fork) (hs : Held c k s)
    {a : Answer (Option BlockchainInfo)}
    {tip : ℕ × BlockHash} (ha : Zebra.exactTip a = .ok tip) (htip : AtTip best tip) :
    Passing c best k fork (s.onCanonicalTip a) ∧ work best k fork (s.onCanonicalTip a) + 1 ≤
      min k.tip.1 (best.length - 1) - fork + MTP_WINDOW + (best.length - 1 - fork) + 4 := by
  obtain ⟨hpassing, hwork⟩ := passing_startPass h hs htip
  unfold onCanonicalTip
  rw [ha]
  refine ⟨hpassing, ?_⟩
  dsimp only
  rw [hwork]

/-- The walk goes down to the fork, and the wallet is rewound there. -/
theorem passing_onAncestor (h : Meets cfg c best k fork) (hs : Held c k s) {till : ℕ}
    (htill : till + 1 = best.length)
    (habove : fork ≤ height) (hle : height ≤ min k.tip.1 till) {a : Answer (BlockAndHash β)}
    {hash : BlockHash}
    (ha : getBlockHash a = .ok hash) (hbest : named RawBlock.hash best height = some hash) :
    Passing c best k fork (s.onAncestor cfg till height a) ∧
      work best k fork (s.onAncestor cfg till height a) + 1 ≤
      height - fork + MTP_WINDOW + (best.length - 1 - fork) + 3 := by
  obtain ⟨hforkle, hforklt⟩ := h.fork_lt
  unfold onAncestor
  rw [ha]
  dsimp only
  rw [hs.1]
  by_cases hsame : k.blockHashAt height = some hash
  · obtain rfl := h.eq_fork habove hsame hbest
    rw [if_pos hsame]
    unfold found
    rw [hs.1]
    by_cases hbelow : height < k.tip.1
    · -- the wallet keeps the fork and what lies below it
      have hcut := h.applied.cut h.seed_le
      rw [h.take_eq] at hcut
      have htip := hcut.tip.1
      rw [List.length_take, Nat.min_eq_left (by omega)] at htip
      have htruncate : k.truncateTo (cfg.retains k) height =
          some { k with blocks := Lib.Checkpoints.cut k.blocks height } := by
        rw [h.applied.truncateTo hsame hbelow, if_pos (h.retained hbelow)]
      rw [if_pos hbelow, htruncate]
      dsimp only
      have hstart : ({ k with blocks := Lib.Checkpoints.cut k.blocks height } : Cursor).tip.1 -
        (MTP_WINDOW - 1) =
          windowStart height := by
        unfold windowStart
        omega
      rw [hstart]
      refine ⟨⟨hcut, htill, le_rfl, Nat.sub_le _ _, ?_⟩, ?_⟩
      · rw [Nat.sub_self]
        rfl
      · show height - windowStart height + 1 + (best.length - 1 - height) + 2 + 1 ≤ _
        unfold windowStart MTP_WINDOW
        omega
    · have htip : k.tip.1 = height := by omega
      have hlen := h.applied.tip.1
      have hown : c = best.take (height + 1) := by
        rw [← h.take_eq, List.take_of_length_le (by omega)]
      have hon : OnBest best height s := by
        refine ⟨?_, ?_, ?_⟩
        · rw [hs.1]
          omega
        · rw [hs.1, htip, ← hown]
          exact h.applied
        · rw [hs.2, hs.1]
          refine MtpTracker.window_congr fun j hj => ?_
          exact (times_of_isPrefix (by rw [hown]; exact List.take_prefix _ _) (by omega)).symm
      rw [if_neg hbelow]
      obtain ⟨hpassing, hwork⟩ := hon.enterCatchUp cfg (c := c) (k := k) htill
      refine ⟨hpassing, ?_⟩
      rw [hs.1, htip] at hwork
      unfold MTP_WINDOW
      omega
  · have hne : height ≠ fork := by
      rintro rfl
      exact hsame (h.at_fork hbest)
    rw [if_neg hsame, if_neg (by omega)]
    obtain ⟨hpassing, hwork⟩ := passing_walkAt h hs (height - 1) htill (by omega) (by omega)
    refine ⟨hpassing, ?_⟩
    rw [hwork]
    omega

/-- The clock is filled up to the fork. -/
theorem passing_onHeader {till : ℕ} {window : MtpTracker} (hforklt : fork < best.length)
    (happlied : s.cursor.Applied (best.take (fork + 1))) (htill : till + 1 = best.length)
    (hstart : windowStart fork ≤ height) (hle : height ≤ fork)
    (hwindow : window = MtpTracker.empty.follow (times best)
      (List.range' (windowStart fork) (height - windowStart fork)))
    {a : Answer (Option (List UInt8))} {time : ℕ} (ha : headerTime cfg.readTime a = .ok time)
    (hbest : best[height]?.map RawBlock.time = some time) :
    Passing c best k fork (s.onHeader cfg till window height a) ∧
      work best k fork (s.onHeader cfg till window height a) + 1 ≤ fork - height + 1 +
        (best.length - 1 - fork) + 2 := by
  have htip := happlied.tip.1
  rw [List.length_take, Nat.min_eq_left (by omega)] at htip
  have htime : times best height = time := by
    unfold times
    rw [hbest]
    rfl
  have hfollow := follow_next (times best) hstart
  rw [htime, ← hwindow] at hfollow
  unfold onHeader
  rw [ha]
  dsimp only
  by_cases hlast : height = s.cursor.tip.1
  · obtain rfl : height = fork := by omega
    have hclock : (window.update height time).blocktimes = MtpTracker.window (times best) height := by
      rw [hfollow]
      exact MtpTracker.blocktimes_backfill (times best) height
    obtain ⟨now, hnow⟩ := current_isSome hclock
    rw [if_pos hlast]
    unfold rebuilt
    rw [hnow]
    dsimp only
    set u : RunLoop :=
      { s with mtp := window.update height time, live := s.live.reorg cfg.params s.cursor.tip.1 now } with
        hu
    have hon : OnBest best height u := by
      refine ⟨hlast.le, ?_, ?_⟩
      · show s.cursor.Applied (best.take (s.cursor.tip.1 + 1))
        rw [← hlast]
        exact happlied
      · show (window.update height time).blocktimes = MtpTracker.window (times best) s.cursor.tip.1
        rw [← hlast]
        exact hclock
    obtain ⟨hpassing, hwork⟩ := hon.enterCatchUp cfg (c := c) (k := k) htill
    have hu' : u.cursor.tip.1 = height := hlast.symm
    refine ⟨hpassing, ?_⟩
    rw [hu'] at hwork
    omega
  · rw [if_neg hlast]
    refine ⟨⟨happlied, htill, by omega, by omega, hfollow⟩, ?_⟩
    show fork - (height + 1) + 1 + (best.length - 1 - fork) + 2 + 1 ≤ _
    omega

/-- The next block of the node's chain extends the applied one, and its header is accepted. -/
theorem passing_onBlock (h : Meets cfg c best k fork) (hs : OnBest best fork s) {till : ℕ}
    (htill : till + 1 = best.length) (hmissing : s.cursor.tip.1 < till) (day : ℤ)
    {a : Answer (BlockAndHash β)}
    {block : RawBlock β} (ha : getBlock (s.cursor.tip.1 + 1) a = .ok block)
    (hbest : best[s.cursor.tip.1 + 1]? = some block) :
    Passing c best k fork (s.onBlock cfg till day a) ∧
      work best k fork (s.onBlock cfg till day a) + 1 ≤ best.length - 1 - s.cursor.tip.1 + 2 := by
  obtain ⟨below, hbelow, hhash⟩ := named_eq_some.mp hs.named
  have hprev : block.prevBlock = s.cursor.tip.2 := (h.linked.prev_eq hbelow hbest).trans hhash
  have htime : times best (s.cursor.tip.1 + 1) = block.time := by
    unfold times
    rw [hbest]
    rfl
  have haccept := h.timely.headerTimeOk (by omega) hs.clock
  have hclock := MtpTracker.window_update hs.clock
  rw [htime] at haccept hclock
  obtain ⟨now, hnow⟩ := current_isSome hclock
  have hnext : best.take (s.cursor.tip.1 + 1) ++ [block] = best.take (s.cursor.tip.1 + 2) := by
    rw [List.take_add_one (i := s.cursor.tip.1 + 1), hbest, Option.toList_some]
  unfold onBlock
  rw [ha]
  dsimp only
  rw [if_neg (not_not.mpr hprev)]
  unfold extend
  rw [haccept]
  dsimp only
  rw [hnow]
  dsimp only
  set u : RunLoop := { s with
    cursor := s.cursor.push block.hash
    mtp := s.mtp.update (s.cursor.tip.1 + 1) block.time
    live := s.live.block cfg.params cfg.keys ⟨(cfg.scan s.live block).txs, now,
      (cfg.scan s.live block).arrivals,
      (cfg.scan s.live block).payments⟩ } with hu
  have htip : u.cursor.tip.1 = s.cursor.tip.1 + 1 := by
    show (s.cursor.push block.hash).tip.1 = s.cursor.tip.1 + 1
    rw [Cursor.tip_push]
  have hon : OnBest best fork u := by
    refine ⟨?_, ?_, ?_⟩
    · rw [htip]
      exact hs.above.trans (Nat.le_succ _)
    · rw [htip, ← hnext]
      exact hs.applied.push block
    · rw [htip]
      exact hclock
  obtain ⟨hpassing, hwork⟩ := hon.catchUp (c := c) (k := k) htill day
  refine ⟨hpassing, ?_⟩
  rw [htip] at hwork
  omega

theorem passing_onRound (hs : OnBest best fork s) (hlast : s.cursor.tip.1 + 1 = best.length) (day : ℤ)
    (price : Option ℚ) (rows : Option (List Presale.ProtectedRow × ℕ × Option ℕ)) :
    Passing c best k fork (s.onRound cfg day price rows) ∧
      work best k fork (s.onRound cfg day price rows) + 1 ≤ 2 := by
  obtain ⟨now, hnow⟩ := current_isSome hs.clock
  obtain ⟨today, htoday⟩ := currentDay_isSome hnow cfg.birthday
  unfold onRound
  rw [hnow, htoday]
  exact ⟨⟨⟨hs.above, hs.applied, hs.clock⟩, hlast⟩, le_rfl⟩

/-- The applied chain ends at the node's tip, and the tip check passes. -/
theorem passing_onExactTip (hs : OnBest best fork s) (hlast : s.cursor.tip.1 + 1 = best.length) (day : ℤ)
    {a : Answer (Option BlockchainInfo)} {tip : ℕ × BlockHash} (ha : Zebra.exactTip a = .ok tip)
    (htip : AtTip best tip) :
    Passing c best k fork (s.onExactTip day a) ∧ work best k fork (s.onExactTip day a) + 1 ≤ 1 := by
  have hheight : tip.1 = s.cursor.tip.1 := by
    have := htip.1
    omega
  have hhash : tip.2 = s.cursor.tip.2 := by
    have hown := hs.named
    rw [← hheight, htip.2] at hown
    exact Option.some.inj hown
  unfold onExactTip
  rw [ha]
  dsimp only
  rw [if_pos (Prod.ext hheight hhash)]
  exact ⟨⟨⟨hs.above, hs.applied, hs.clock⟩, hlast⟩, le_rfl⟩

/-- **An answer takes the pass on**, and one answer less is left to take. -/
theorem passing_step (h : Meets cfg c best k fork) (hs : Passing c best k fork s)
    (hr : s.phase.Answered cfg best s.cursor.tip.1 r) :
    Passing c best k fork (s.step cfg r) ∧ work best k fork (s.step cfg r) + 1 ≤ work best k fork s := by
  unfold Passing at hs
  unfold step
  unfold work
  cases hphase : s.phase with
  | nextTip =>
    rw [hphase] at hs hr
    cases r with
    | announced a => exact passing_onAnnounced h hs hr
    | tip | block | header | round | rules => exact hr.elim
  | canonicalTip =>
    rw [hphase] at hs hr
    obtain ⟨tip, hsaid, htip⟩ := Gives.exists hr
    obtain ⟨a, rfl, ha⟩ := Reply.of_tipSaid hsaid
    exact passing_onCanonicalTip h hs ha htip
  | walk till ancestor =>
    rw [hphase] at hs hr
    obtain ⟨hcursor, hclock, htill, habove, hle⟩ := hs
    obtain ⟨hash, hsaid, hbest⟩ := Gives.exists hr
    obtain ⟨a, rfl, ha⟩ := Reply.of_hashSaid hsaid
    exact passing_onAncestor h ⟨hcursor, hclock⟩ htill habove hle ha hbest
  | backfill till window height =>
    rw [hphase] at hs hr
    obtain ⟨happlied, htill, hstart, hle, hwindow⟩ := hs
    obtain ⟨time, hsaid, hbest⟩ := Gives.exists hr
    obtain ⟨a, rfl, ha⟩ := Reply.of_timeSaid hsaid
    exact passing_onHeader h.fork_lt.2 happlied htill hstart hle hwindow ha hbest
  | catchUp till day =>
    rw [hphase] at hs hr
    obtain ⟨hon, htill, hmissing⟩ := hs
    obtain ⟨block, hsaid, hbest⟩ := Gives.exists hr
    obtain ⟨a, rfl, ha⟩ := Reply.of_blockSaid hsaid
    exact passing_onBlock h hon htill hmissing day ha hbest
  | price day =>
    rw [hphase] at hs hr
    cases r with
    | round price rows => exact passing_onRound hs.1 hs.2 day price rows
    | announced | tip | block | header | rules => cases hr
  | exactTip day =>
    rw [hphase] at hs hr
    obtain ⟨tip, hsaid, htip⟩ := Gives.exists hr
    obtain ⟨a, rfl, ha⟩ := Reply.of_tipSaid hsaid
    exact passing_onExactTip hs.1 hs.2 day ha htip
  | rules day =>
    rw [hphase] at hr
    exact hr.elim
  | fatal why =>
    rw [hphase] at hr
    exact hr.elim

/-! ### A whole pass -/

/-- Every answer counts against what the pass has left to take, and no failure does. -/
theorem passing_run (h : Meets cfg c best k fork) :
    ∀ (replies : List (Reply β)) (s : RunLoop), Passing c best k fork s →
      Along (fun s r => some (step cfg s r)) (Served cfg best) s replies →
        Passing c best k fork (replies.foldl (step cfg) s) ∧
          work best k fork (replies.foldl (step cfg) s) + answered replies ≤ work best k fork s
  | [], s, hs, _ => ⟨hs, le_rfl⟩
  | r :: replies, s, hs, hserved => by
    obtain ⟨hr, hrest⟩ := hserved
    have hlater := hrest _ rfl
    have hcount : answered (r :: replies) = answered replies + if r.unavailable then 0 else 1 := by
      unfold answered
      rw [List.countP_cons]
      cases r.unavailable <;> rfl
    rcases hr with hdown | hr
    · -- the loop waits where it is
      rw [step_of_unavailable hdown] at hlater
      obtain ⟨hpassing, hwork⟩ := passing_run h replies s hs hlater
      rw [List.foldl_cons, step_of_unavailable hdown, hcount, if_pos hdown]
      exact ⟨hpassing, hwork⟩
    · obtain ⟨hstep, hless⟩ := passing_step h hs hr
      obtain ⟨hpassing, hwork⟩ := passing_run h replies _ hstep hlater
      rw [List.foldl_cons, hcount]
      refine ⟨hpassing, ?_⟩
      split_ifs <;> omega

/-- Before its rules there is always an answer left to take. -/
theorem Passing.work_pos (hs : Passing c best k fork s) (hrules : ∀ day, s.phase ≠ .rules day) :
    0 < work best k fork s := by
  unfold Passing at hs
  unfold work
  cases hphase : s.phase with
  | rules day => exact absurd hphase (hrules day)
  | fatal why =>
    rw [hphase] at hs
    exact hs.elim
  | nextTip | canonicalTip | walk | backfill | catchUp | price | exactTip => exact Nat.succ_pos _

/-- No pass leaves the part of the applied chain that is the node's. -/
theorem Passing.fork_le (h : Meets cfg c best k fork) (hs : Passing c best k fork s) :
    fork ≤ s.cursor.tip.1 := by
  have hfork := h.fork_lt
  unfold Passing at hs
  cases hphase : s.phase with
  | nextTip | canonicalTip =>
    rw [hphase] at hs
    rw [hs.1]
    exact hfork.1
  | walk till ancestor =>
    rw [hphase] at hs
    rw [hs.1]
    exact hfork.1
  | backfill till window height =>
    rw [hphase] at hs
    have htip := hs.1.tip.1
    rw [List.length_take, Nat.min_eq_left (by omega)] at htip
    omega
  | catchUp | price | exactTip | rules =>
    rw [hphase] at hs
    exact hs.1.above
  | fatal why =>
    rw [hphase] at hs
    exact hs.elim

end RunLoop

/-! ### From every reachable state -/

namespace System

open RunLoop

variable {s t : System β} {c : List (RawBlock β)}

/-- Where the applied chain and the node's part, if the node's goes through the boot origin. -/
theorem exists_fork (hs : s.Sound) (hc : s.Follows c)
    (hseed : named RawBlock.hash s.best s.loop.cursor.seed.1 = some s.loop.cursor.seed.2) :
    ∃ fork, Forks RawBlock.hash c s.best fork := by
  obtain ⟨d, hd, hcd⟩ := hc.held
  have hagree := getElem?_agree ((hs.linked d hd).of_isPrefix hcd) (hs.linked s.best hs.best)
    ((hs.apart d hd s.best hs.best).of_isPrefix hcd) hc.applied.seed hseed 0 (Nat.zero_le _)
  obtain ⟨x, hx⟩ := named_isSome RawBlock.hash
    (Nat.lt_of_le_of_lt (Nat.zero_le _) (lt_of_named hc.applied.seed))
  refine exists_forks hx ?_
  unfold named
  rw [← hagree]
  exact hx

/-- **A still node is caught up with.** After any run beside a node that answers honestly and gives
headers for the clock only from a chain through the rewound tip (`Steady`), between two passes: the
node's best chain goes through the boot origin and keeps the rule on header times, so the applied chain
and it fork somewhere. If the wallet's trees retain that height and the node's best chain stays, then
however its answers come and fail, the loop does not stop, keeps what it has applied up to the fork, runs
its rules on the whole of the node's chain only, and comes to them within so many answers. -/
theorem catches_up (cfg : Config β) (h : s.Starts c) (haligned : s.loop.Aligned)
    (hclock : s.loop.mtp.blocktimes = MtpTracker.window (times c) s.loop.cursor.tip.1)
    {events : List (Event β)}
    (honest : Along (step cfg) (fun s e => Honest cfg s e ∧ s.Steady e) s events)
    (hrun : run (step cfg) s events = some t) (hphase : t.loop.phase = .nextTip)
    (hseed : named RawBlock.hash t.best t.loop.cursor.seed.1 = some t.loop.cursor.seed.2)
    (htimely : Timely t.best) :
    ∃ c' fork, t.Follows c' ∧ Forks RawBlock.hash c' t.best fork ∧
      ((fork < t.loop.cursor.tip.1 → cfg.retains t.loop.cursor fork = true) → ∀ replies : List (Reply β),
        Along (fun s r => some (RunLoop.step cfg s r)) (Served cfg t.best) t.loop replies →
          let u := replies.foldl (RunLoop.step cfg) t.loop
          (∀ why, u.phase ≠ .fatal why) ∧ fork ≤ u.cursor.tip.1 ∧
            (∀ day, u.phase = .rules day → u.cursor.Applied t.best) ∧
              ((∀ day, u.phase ≠ .rules day) → answered replies <
                min t.loop.cursor.tip.1 (t.best.length - 1) - fork +
                  (t.best.length - 1 - fork) + 16)) := by
  obtain ⟨hsound, -, c', hc', htimed⟩ :=
    run_invariant (fun _ _ _ hs he hstep => hs.step he hstep) events s t
      (h.onTime haligned hclock) honest hrun
  obtain ⟨fork, hforks⟩ := exists_fork hsound hc' hseed
  refine ⟨c', fork, hc', hforks, fun hretained replies hserved => ?_⟩
  obtain ⟨d, hd, hcd⟩ := hc'.held
  have hmeets : Meets cfg c' t.best t.loop.cursor fork := {
    own := (hsound.linked d hd).of_isPrefix hcd
    linked := hsound.linked t.best hsound.best
    apart := (hsound.apart d hd t.best hsound.best).of_isPrefix hcd
    applied := hc'.applied
    seed := hseed
    forks := hforks
    retained := hretained
    timely := htimely }
  have hown : t.loop.mtp.blocktimes = MtpTracker.window (times c') t.loop.cursor.tip.1 := by
    refine htimed.clock ?_ ?_
    · rw [hphase]
      exact id
    · rw [hphase]
      exact id
  have hpassing : Passing c' t.best t.loop.cursor fork t.loop := by
    unfold Passing
    rw [hphase]
    exact ⟨rfl, hown⟩
  obtain ⟨hend, hwork⟩ := passing_run hmeets replies t.loop hpassing hserved
  have hall : work t.best t.loop.cursor fork t.loop =
      min t.loop.cursor.tip.1 (t.best.length - 1) - fork + MTP_WINDOW +
        (t.best.length - 1 - fork) + 5 := by
    unfold work
    rw [hphase]
  refine ⟨fun why hwhy => ?_, hend.fork_le hmeets, fun day hday => ?_, fun hrules => ?_⟩
  · unfold Passing at hend
    rw [hwhy] at hend
    exact hend
  · unfold Passing at hend
    rw [hday] at hend
    have hlast := hend.1.applied
    rw [List.take_of_length_le hend.2.ge] at hlast
    exact hlast
  · have hleft := hend.work_pos hrules
    unfold MTP_WINDOW at hall
    omega

/-- The node reorganises while the loop catches up, and the pass is given up. -/
def sampleParted : List (Event Unit) := sampleEvents.take 6

def sampleMet : System Unit := (run (step sampleConfig) sampleSystem sampleParted).get (by decide +kernel)

/-- What the node gives from then on, up to the rules, with one failure. -/
def sampleAnswers : List (Reply Unit) := .block (.error .timeout) :: (sampleReplies.drop 5).take 9

theorem catches_up_fork :
    sampleMet.loop.cursor.tip = (1, sampleHash 1) ∧
      (sampleAnswers.foldl (RunLoop.step sampleConfig) sampleMet.loop).cursor.Applied sampleFork := by
  have hrun : run (step sampleConfig) sampleSystem sampleParted = some sampleMet :=
    (Option.some_get _).symm
  have honest : Along (step sampleConfig) (fun s e => Honest sampleConfig s e ∧ s.Steady e) sampleSystem
      sampleParted := by
    decide +kernel
  have hphase : sampleMet.loop.phase = .nextTip := by decide +kernel
  have hbest : sampleMet.best = sampleFork := by decide +kernel
  have hseed : named RawBlock.hash sampleMet.best sampleMet.loop.cursor.seed.1 =
      some sampleMet.loop.cursor.seed.2 := by
    decide +kernel
  have hserved : Along (fun s r => some (RunLoop.step sampleConfig s r))
    (Served sampleConfig sampleMet.best)
      sampleMet.loop sampleAnswers := by
    decide +kernel
  have hrules : (sampleAnswers.foldl (RunLoop.step sampleConfig) sampleMet.loop).phase = .rules 0 := by
    decide +kernel
  obtain ⟨c, fork, -, -, hpass⟩ := catches_up sampleConfig sampleSystem_starts sampleStart_aligned
    (by decide) honest
    hrun hphase hseed (by decide +kernel)
  obtain ⟨-, -, happlied, -⟩ := hpass (fun _ => rfl) sampleAnswers hserved
  refine ⟨by decide +kernel, ?_⟩
  rw [← hbest]
  exact happlied 0 hrules

end System

end ZnsMint
