import ZnsMint.RunLoop

/-! # What one reply can do

`Moves` says of each step of the run loop what it changes and under which answer, once for all invariants
(`moves_step`): most replies only lead to another await; the applied chain is cut where the walk ends and
grows by a block that extends it, the clock is filled anew header by header, and the faculties move with
a block, a rewind that is complete, a round and a rule pass. -/

namespace ZnsMint.RunLoop

open Basic Wallet Zebra Presale Pricing

variable {β : Type} {cfg : Config β} {s t : RunLoop} {r : Reply β}

/-! ### Moves -/

/-- The awaits in which nothing is half done. A pass that applies blocks began on `day`. -/
def Phase.Idle (day : Option ℤ) : Phase → Prop
  | .backfill .. => False
  | .exactTip _ => False
  | .rules _ => False
  | .catchUp _ previousDay => day = some previousDay
  | .price previousDay => day = some previousDay
  | _ => True

/-- Of these, the ones the loop leaves. -/
def Phase.Clean : Phase → Prop
  | .backfill .. => False
  | .exactTip _ => False
  | .rules _ => False
  | .fatal _ => False
  | _ => True

inductive Moves (cfg : Config β) (s : RunLoop) : Reply β → RunLoop → Prop where
  /-- Asked again, or a reply to no request. -/
  | stays (r : Reply β) : Moves cfg s r s
  | goes (r : Reply β) {p : Phase} (hs : s.phase.Clean) (hp : p.Idle (s.mtp.currentDay cfg.birthday)) :
      Moves cfg s r { s with phase := p }
  | fails (r : Reply β) (why : Fatal) : Moves cfg s r { s with phase := .fatal why }
  | rewinds {best ancestor : ℕ} {a : Answer (BlockAndHash β)} {hash : BlockHash} {cursor : Cursor}
      (hs : s.phase = .walk best ancestor) (ha : getBlockHash a = .ok hash)
      (hash_eq : s.cursor.blockHashAt ancestor = some hash) (below : ancestor < s.cursor.tip.1)
      (htruncate : s.cursor.truncateTo (cfg.retains s.cursor) ancestor = some cursor) :
      Moves cfg s (.block a)
        { s with cursor := cursor, phase := .backfill best .empty (cursor.tip.1 - (MTP_WINDOW - 1)) }
  | reads {best height time : ℕ} {window : MtpTracker} {a : Answer (Option (List UInt8))}
      (hs : s.phase = .backfill best window height) (ha : headerTime cfg.readTime a = .ok time)
      (hne : height ≠ s.cursor.tip.1) :
      Moves cfg s (.header a) { s with phase := .backfill best (window.update height time) (height + 1) }
  | rebuilds {best height time : ℕ} {window : MtpTracker} {a : Answer (Option (List UInt8))}
    {mtp : ℤ} {p : Phase}
      (hs : s.phase = .backfill best window height) (ha : headerTime cfg.readTime a = .ok time)
      (heq : height = s.cursor.tip.1) (hcurrent : (window.update height time).current = some mtp)
      (hp : p.Idle ((window.update height time).currentDay cfg.birthday)) :
      Moves cfg s (.header a)
        { s with
          mtp := window.update height time
          live := s.live.reorg cfg.params s.cursor.tip.1 mtp
          phase := p }
  | extends {best : ℕ} {previousDay now : ℤ} {a : Answer (BlockAndHash β)}
    {block : RawBlock β} {p : Phase}
      (hs : s.phase = .catchUp best previousDay) (ha : getBlock (s.cursor.tip.1 + 1) a = .ok block)
      (hprev : block.prevBlock = s.cursor.tip.2) (htime : s.mtp.headerTimeOk block.time = .ok ())
      (hcurrent : (s.mtp.update (s.cursor.tip.1 + 1) block.time).current = some now)
        (hp : p.Idle (some previousDay)) :
      Moves cfg s (.block a)
        { s with
          cursor := s.cursor.push block.hash
          mtp := s.mtp.update (s.cursor.tip.1 + 1) block.time
          live := s.live.block cfg.params cfg.keys
            ⟨(cfg.scan s.live block).txs, now, (cfg.scan s.live block).arrivals,
              (cfg.scan s.live block).payments⟩
          phase := p }
  | prices {previousDay today now : ℤ} {price : Option ℚ}
    {rows : Option (List ProtectedRow × ℕ × Option ℕ)}
      (hs : s.phase = .price previousDay) (hnow : s.mtp.current = some now)
      (htoday : s.mtp.currentDay cfg.birthday = some today) :
      Moves cfg s (.round price rows)
        { s with
          oracle := s.oracle.accumulate ⟨price, today, now⟩
          protectedNames := install s.protectedNames rows
          phase := .exactTip previousDay }
  | checks {previousDay : ℤ} {a : Answer (Option BlockchainInfo)} (hs : s.phase = .exactTip previousDay)
      (ha : Zebra.exactTip a = .ok s.cursor.tip) :
        Moves cfg s (.tip a) { s with phase := .rules previousDay }
  | skips {previousDay : ℤ} {a : Answer (Option BlockchainInfo)} (hs : s.phase = .exactTip previousDay) :
      Moves cfg s (.tip a) { s with live := { s.live with rate := s.oracle.current }, phase := .nextTip }
  | rules {previousDay today : ℤ} {fee : Answer (Option StandardFee)} {env : TipEnv} {live : Live}
      (hs : s.phase = .rules previousDay) (htoday : s.mtp.currentDay cfg.birthday = some today)
      (hpass : s.live.tipPass cfg.params cfg.keys (s.tipEnv fee env) = some live) :
      Moves cfg s (.rules fee env)
        { s with
          live := live
          passes := s.passes ++ [s.cursor.tip]
          sweeps := if previousDay < today ∧ live.refunds.refundsDue = [] then s.sweeps ++
            [today] else s.sweeps
          phase := .nextTip }

/-! ### Each await -/

/-- Catching up leads to another await. -/
theorem catchUp_eq (s : RunLoop) (best : ℕ) (previousDay : ℤ) :
    ∃ p : Phase, p.Idle (some previousDay) ∧ s.catchUp best previousDay = { s with phase := p } := by
  unfold catchUp
  split_ifs
  · refine ⟨_, ?_, rfl⟩
    exact rfl
  · refine ⟨_, ?_, rfl⟩
    exact rfl

theorem enterCatchUp_eq (cfg : Config β) (s : RunLoop) (best : ℕ) :
    ∃ p : Phase, p.Idle (s.mtp.currentDay cfg.birthday) ∧ s.enterCatchUp cfg best =
      { s with phase := p } := by
  unfold enterCatchUp
  split
  · rename_i previousDay hday
    rw [hday]
    exact catchUp_eq s best previousDay
  · refine ⟨_, ?_, rfl⟩
    exact trivial

theorem walkAt_eq (s : RunLoop) (best ancestor : ℕ) (day : Option ℤ) :
    ∃ p : Phase, p.Idle day ∧ s.walkAt best ancestor = { s with phase := p } := by
  unfold walkAt
  split
  · refine ⟨_, ?_, rfl⟩
    exact trivial
  · refine ⟨_, ?_, rfl⟩
    exact trivial

/-- A step that leads to another await. -/
theorem moves_of_eq (hs : s.phase.Clean)
    (h : ∃ p : Phase, p.Idle (s.mtp.currentDay cfg.birthday) ∧ t = { s with phase := p }) :
    Moves cfg s r t := by
  obtain ⟨p, hp, rfl⟩ := h
  exact .goes r hs hp

theorem moves_onAnnounced (hs : s.phase = .nextTip) (a : Option (Except Code BlockHashAndHeight)) :
    Moves cfg s r (s.onAnnounced a) := by
  have hclean : s.phase.Clean := by
    rw [hs]
    exact trivial
  unfold onAnnounced
  split
  · split
    · exact moves_of_eq hclean (walkAt_eq s _ _ _)
    · exact .goes r hclean trivial
  · exact .goes r hclean trivial
  · exact .goes r hclean trivial

theorem moves_onCanonicalTip (hs : s.phase = .canonicalTip) (a : Answer (Option BlockchainInfo)) :
    Moves cfg s r (s.onCanonicalTip a) := by
  have hclean : s.phase.Clean := by
    rw [hs]
    exact trivial
  unfold onCanonicalTip
  split
  · exact moves_of_eq hclean (walkAt_eq s _ _ _)
  · split_ifs
    · exact .stays r
    · exact .fails r _

theorem moves_onAncestor {best ancestor : ℕ} (hs : s.phase = .walk best ancestor)
    (a : Answer (BlockAndHash β)) :
    Moves cfg s (.block a) (s.onAncestor cfg best ancestor a) := by
  have hclean : s.phase.Clean := by
    rw [hs]
    exact trivial
  unfold onAncestor
  split
  · split_ifs
    · exact .stays _
    · exact .goes _ hclean trivial
    · exact .fails _ _
  · rename_i canonical ha
    split_ifs with hsame
    · unfold found
      split_ifs with hbelow
      · split
        · exact .fails _ _
        · rename_i cursor htruncate
          exact .rewinds hs ha hsame hbelow htruncate
      · exact moves_of_eq hclean (enterCatchUp_eq cfg s best)
    · exact .fails _ _
    · exact moves_of_eq hclean (walkAt_eq s _ _ _)

theorem moves_onHeader {best height : ℕ} {window : MtpTracker}
    (hs : s.phase = .backfill best window height)
    (a : Answer (Option (List UInt8))) : Moves cfg s (.header a)
    (s.onHeader cfg best window height a) := by
  unfold onHeader
  split
  · split_ifs
    · exact .stays _
    · exact .fails _ _
  · rename_i time ha
    split_ifs with heq
    · unfold rebuilt
      dsimp only
      split
      · exact .fails _ _
      · rename_i mtp hcurrent
        obtain ⟨p, hp, heq'⟩ := enterCatchUp_eq cfg
          { s with mtp := window.update height time, live := s.live.reorg cfg.params s.cursor.tip.1 mtp }
            best
        rw [heq']
        exact .rebuilds hs ha heq hcurrent hp
    · exact .reads hs ha heq

theorem moves_onBlock {best : ℕ} {previousDay : ℤ} (hs : s.phase = .catchUp best previousDay)
    (a : Answer (BlockAndHash β)) : Moves cfg s (.block a) (s.onBlock cfg best previousDay a) := by
  have hclean : s.phase.Clean := by
    rw [hs]
    exact trivial
  unfold onBlock
  split
  · split_ifs
    · exact .stays _
    · exact .goes _ hclean trivial
    · exact .fails _ _
  · rename_i block ha
    split_ifs with hprev
    · exact .goes _ hclean trivial
    · unfold extend
      split
      · exact .fails _ _
      · rename_i htime
        dsimp only
        split
        · exact .fails _ _
        · rename_i now hcurrent
          obtain ⟨p, hp, heq⟩ := catchUp_eq
            { s with
              cursor := s.cursor.push block.hash
              mtp := s.mtp.update (s.cursor.tip.1 + 1) block.time
              live := s.live.block cfg.params cfg.keys
                ⟨(cfg.scan s.live block).txs, now, (cfg.scan s.live block).arrivals,
                  (cfg.scan s.live block).payments⟩ } best previousDay
          rw [heq]
          exact .extends hs ha (not_not.mp hprev) htime hcurrent hp

theorem moves_onRound {previousDay : ℤ} (hs : s.phase = .price previousDay) (price : Option ℚ)
    (rows : Option (List ProtectedRow × ℕ × Option ℕ)) :
    Moves cfg s (.round price rows) (s.onRound cfg previousDay price rows) := by
  unfold onRound
  split
  · rename_i hnow htoday
    exact .prices hs hnow htoday
  · exact .fails _ _

theorem moves_onExactTip {previousDay : ℤ} (hs : s.phase = .exactTip previousDay)
    (a : Answer (Option BlockchainInfo)) :
    Moves cfg s (.tip a) (s.onExactTip previousDay a) := by
  unfold onExactTip
  split
  · split_ifs
    · exact .stays _
    · exact .skips hs
  · rename_i tip ha
    split_ifs with htip
    · subst htip
      exact .checks hs ha
    · exact .skips hs

theorem moves_onRules {previousDay : ℤ} (hs : s.phase = .rules previousDay)
    (fee : Answer (Option StandardFee))
    (env : TipEnv) : Moves cfg s (.rules fee env) (s.onRules cfg previousDay fee env) := by
  unfold onRules
  split
  · exact .fails _ _
  · rename_i today htoday
    split
    · exact .fails _ _
    · rename_i live hpass
      exact .rules hs htoday hpass

/-- **What one reply can do.** -/
theorem moves_step (cfg : Config β) (s : RunLoop) (r : Reply β) : Moves cfg s r (s.step cfg r) := by
  unfold step
  split
  · exact moves_onAnnounced ‹_› _
  · exact moves_onCanonicalTip ‹_› _
  · exact moves_onAncestor ‹_› _
  · exact moves_onHeader ‹_› _
  · exact moves_onBlock ‹_› _
  · exact moves_onRound ‹_› _ _
  · exact moves_onExactTip ‹_› _
  · exact moves_onRules ‹_› _ _
  · exact .stays _

end ZnsMint.RunLoop
