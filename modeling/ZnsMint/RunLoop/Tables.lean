import ZnsMint.RunLoop.Cursor

/-! # The run loop over the wallet's tables

The loop and the wallet's tables side by side (`Backed`): each reply of the node with the calls that the
loop makes of the wallet on it (`asks`). While the clock is filled the tables are already rewound and the
faculties are not, and the Registry notes of the faculties are those of the tables once they are cut
there (`registryView`). In every run from boot on, whatever the node answers, the tips, the hashes and
the rewinds that the loop reasons with are the wallet's, and so are the notes it can spend. -/

namespace ZnsMint

open Basic Note Registry Wallet Zebra Lib.Checkpoints Lib.Machine Lib.Simulation Presale

namespace RunLoop

variable {β : Type} {cfg : Config β} {s t : RunLoop} {r : Reply β}

/-! ### What the loop asks of the wallet -/

/-- The calls of the wallet on one reply: a rewind, or the blocks applied and what becomes of the
Registry's notes. -/
inductive Asked where
  | rewind (maxHeight : ℕ)
  | calls (blocks : List (ℕ × BlockHash)) (notes : List RegistryWallet.Op)

/-- The block as the faculties take it. -/
def blockAt (cfg : Config β) (s : RunLoop) (block : RawBlock β) (now : ℤ) : Block :=
  ⟨(cfg.scan s.live block).txs, now, (cfg.scan s.live block).arrivals, (cfg.scan s.live block).payments⟩

/-- The walk has come to an ancestor below the tip, where the trees can be rewound to. -/
def asksAncestor (cfg : Config β) (s : RunLoop) (ancestor : ℕ) (a : Answer (BlockAndHash β)) : Asked :=
  match getBlockHash a with
  | .error _ => .calls [] []
  | .ok canonical =>
    if s.cursor.blockHashAt ancestor = some canonical ∧ ancestor < s.cursor.tip.1 ∧
        (s.cursor.truncateTo (cfg.retains s.cursor) ancestor).isSome = true then
      .rewind ancestor
    else .calls [] []

/-- The block is the next one, and its header time is within the rule. -/
def asksBlock (cfg : Config β) (s : RunLoop) (a : Answer (BlockAndHash β)) : Asked :=
  match getBlock (s.cursor.tip.1 + 1) a with
  | .error _ => .calls [] []
  | .ok block =>
    match (s.mtp.update (s.cursor.tip.1 + 1) block.time).current with
    | none => .calls [] []
    | some now =>
      if block.prevBlock = s.cursor.tip.2 ∧ s.mtp.headerTimeOk block.time = .ok () then
        .calls [(s.cursor.tip.1 + 1, block.hash)] (s.live.blockOps cfg.params (s.blockAt cfg block now))
      else .calls [] []

/-- What the loop asks of the wallet on a reply. -/
def asks (cfg : Config β) (s : RunLoop) (r : Reply β) : Asked :=
  match s.phase, r with
  | .walk _ ancestor, .block a => s.asksAncestor cfg ancestor a
  | .catchUp _ _, .block a => s.asksBlock cfg a
  | .rules _, .rules fee env =>
    if (s.mtp.currentDay cfg.birthday).isSome = true then
      .calls [] (s.live.walletOps cfg.params cfg.keys (.tipPass (s.tipEnv fee env)))
    else .calls [] []
  | _, _ => .calls [] []

/-! ### What becomes of it -/

/-- The Registry's notes as the tables hold them: cut at the cursor's tip where the faculties are still
behind. -/
def registryView (s : RunLoop) : RegistryWallet :=
  if s.cursor.tip.1 < s.live.tip then s.live.wallet.truncateTo s.cursor.tip.1 else s.live.wallet

/-- The cursor and the Registry's notes after what was asked. -/
def Done (cfg : Config β) (s t : RunLoop) : Asked → Prop
  | .rewind maxHeight => maxHeight < s.cursor.tip.1 ∧
      s.cursor.truncateTo (cfg.retains s.cursor) maxHeight = some t.cursor ∧
      t.registryView = s.registryView.truncateTo t.cursor.tip.1
  | .calls blocks notes => t.cursor = blocks.foldl Cursor.put s.cursor ∧
      t.registryView = notes.foldl RegistryWallet.apply s.registryView

theorem registryView_of_tip (h : s.live.tip = s.cursor.tip.1) : s.registryView = s.live.wallet :=
  if_neg (by omega)

/-- Nothing that the wallet is asked for changes. -/
theorem done_same (hcursor : t.cursor = s.cursor) (htip : t.live.tip = s.live.tip)
    (hwallet : t.live.wallet = s.live.wallet) : Done cfg s t (.calls [] []) := by
  refine ⟨hcursor, ?_⟩
  unfold registryView
  rw [hcursor, htip, hwallet]
  rfl

theorem done_phase (h : ∃ p : Phase, t = { s with phase := p }) : Done cfg s t (.calls [] []) := by
  obtain ⟨p, rfl⟩ := h
  exact done_same rfl rfl rfl

theorem walkAt_phase (s : RunLoop) (best ancestor : ℕ) : ∃ p : Phase, s.walkAt best ancestor =
    { s with phase := p } := by
  obtain ⟨p, -, h⟩ := walkAt_eq s best ancestor none
  exact ⟨p, h⟩

theorem enterCatchUp_phase (cfg : Config β) (s : RunLoop) (best : ℕ) :
    ∃ p : Phase, s.enterCatchUp cfg best = { s with phase := p } := by
  obtain ⟨p, -, h⟩ := enterCatchUp_eq cfg s best
  exact ⟨p, h⟩

theorem onAnnounced_phase (s : RunLoop) (a : Option (Except Code BlockHashAndHeight)) :
    ∃ p : Phase, s.onAnnounced a = { s with phase := p } := by
  unfold onAnnounced
  split
  · split
    · exact walkAt_phase s _ _
    · exact ⟨_, rfl⟩
  · exact ⟨_, rfl⟩
  · exact ⟨_, rfl⟩

theorem onCanonicalTip_phase (s : RunLoop) (a : Answer (Option BlockchainInfo)) :
    ∃ p : Phase, s.onCanonicalTip a = { s with phase := p } := by
  unfold onCanonicalTip
  split
  · exact walkAt_phase s _ _
  · split_ifs
    · exact ⟨s.phase, rfl⟩
    · exact ⟨_, rfl⟩

theorem done_onAncestor (h : s.Aligned) {best ancestor : ℕ} (hs : s.phase = .walk best ancestor)
    (a : Answer (BlockAndHash β)) : Done cfg s (s.onAncestor cfg best ancestor a)
    (s.asksAncestor cfg ancestor a) := by
  have hclean : s.phase.Clean := by
    rw [hs]
    exact trivial
  obtain ⟨htip, -⟩ := h.tip hclean.not_filling hclean.not_stopped
  unfold onAncestor asksAncestor
  rcases getBlockHash a with error | canonical
  · dsimp only
    split_ifs
    · exact done_same rfl rfl rfl
    · exact done_same rfl rfl rfl
    · exact done_same rfl rfl rfl
  dsimp only
  by_cases hsame : s.cursor.blockHashAt ancestor = some canonical
  · rw [if_pos hsame]
    unfold found
    by_cases hbelow : ancestor < s.cursor.tip.1
    · rw [if_pos hbelow]
      rcases htruncate : s.cursor.truncateTo (cfg.retains s.cursor) ancestor with - | cursor
      · rw [if_neg fun hasked => nomatch hasked.2.2]
        exact done_same rfl rfl rfl
      · rw [if_pos ⟨hsame, hbelow, rfl⟩]
        have hlt : cursor.tip.1 < s.live.tip := by
          have hle := Cursor.tip_truncateTo hbelow htruncate
          omega
        refine ⟨hbelow, htruncate, ?_⟩
        rw [registryView_of_tip htip]
        exact if_pos hlt
    · rw [if_neg hbelow, if_neg fun hasked => hbelow hasked.2.1]
      exact done_phase (enterCatchUp_phase cfg s best)
  · have hnone : ¬ (s.cursor.blockHashAt ancestor = some canonical ∧ ancestor < s.cursor.tip.1 ∧
        (s.cursor.truncateTo (cfg.retains s.cursor) ancestor).isSome = true) :=
          fun hasked => hsame hasked.1
    rw [if_neg hsame, if_neg hnone]
    split_ifs
    · exact done_same rfl rfl rfl
    · exact done_phase (walkAt_phase s _ _)

/-- The faculties follow when the clock is filled. -/
theorem done_onHeader (h : s.Aligned) {best height : ℕ} {window : MtpTracker}
    (hs : s.phase = .backfill best window height)
    (a : Answer (Option (List UInt8))) : Done cfg s (s.onHeader cfg best window height a)
    (.calls [] []) := by
  have hfilling : s.phase.Filling := by
    rw [hs]
    exact trivial
  unfold onHeader
  rcases headerTime cfg.readTime a with error | time
  · dsimp only
    split_ifs
    · exact done_same rfl rfl rfl
    · exact done_same rfl rfl rfl
  dsimp only
  split_ifs with htip
  · unfold rebuilt
    split
    · exact done_same rfl rfl rfl
    · rename_i mtp hcurrent
      obtain ⟨p, hp⟩ := enterCatchUp_phase cfg
        { s with mtp := window.update height time, live := s.live.reorg cfg.params s.cursor.tip.1 mtp }
          best
      rw [hp]
      refine ⟨rfl, ?_⟩
      -- the rewind of the faculties is what the view had cut
      have hview : s.registryView = s.live.wallet.truncateTo s.cursor.tip.1 := if_pos (h.filling hfilling)
      rw [hview]
      exact if_neg (Nat.lt_irrefl _)
  · exact done_same rfl rfl rfl

theorem done_onBlock (h : s.Aligned) {best : ℕ} {previousDay : ℤ}
    (hs : s.phase = .catchUp best previousDay)
    (a : Answer (BlockAndHash β)) : Done cfg s (s.onBlock cfg best previousDay a)
    (s.asksBlock cfg a) := by
  have hclean : s.phase.Clean := by
    rw [hs]
    exact trivial
  obtain ⟨htip, -⟩ := h.tip hclean.not_filling hclean.not_stopped
  unfold onBlock asksBlock
  rcases getBlock (s.cursor.tip.1 + 1) a with error | block
  · dsimp only
    split_ifs
    · exact done_same rfl rfl rfl
    · exact done_same rfl rfl rfl
    · exact done_same rfl rfl rfl
  dsimp only
  by_cases hprev : block.prevBlock = s.cursor.tip.2
  · rw [if_neg (not_not.mpr hprev)]
    unfold extend
    rcases htime : s.mtp.headerTimeOk block.time with reason | ⟨⟩
    · dsimp only
      split
      · exact done_same rfl rfl rfl
      · rw [if_neg fun hasked => nomatch hasked.2]
        exact done_same rfl rfl rfl
    dsimp only
    rcases (s.mtp.update (s.cursor.tip.1 + 1) block.time).current with - | now
    · exact done_same rfl rfl rfl
    · dsimp only
      rw [if_pos ⟨hprev, rfl⟩]
      obtain ⟨p, -, hp⟩ := catchUp_eq
        { s with
          cursor := s.cursor.push block.hash
          mtp := s.mtp.update (s.cursor.tip.1 + 1) block.time
          live := s.live.block cfg.params cfg.keys (s.blockAt cfg block now) } best previousDay
      refine (congrArg (Done cfg s · _) hp).mpr ⟨rfl, ?_⟩
      have hsame := Live.sameTip_block cfg.params cfg.keys s.live (s.blockAt cfg block now)
      have hnext : (s.live.block cfg.params cfg.keys (s.blockAt cfg block now)).tip =
          (s.cursor.push block.hash).tip.1 := by
        rw [hsame.tip, Cursor.tip_push]
        exact congrArg (· + 1) htip
      rw [registryView_of_tip htip]
      refine (registryView_of_tip hnext).trans ?_
      exact (Live.wallet_block ..).trans (Live.applyBlock_wallet_ops ..)
  · rw [if_pos hprev]
    split
    · exact done_same rfl rfl rfl
    · rw [if_neg fun hasked => hprev hasked.1]
      exact done_same rfl rfl rfl

theorem done_onRound (cfg : Config β) (s : RunLoop) (previousDay : ℤ) (price : Option ℚ)
    (rows : Option (List ProtectedRow × ℕ × Option ℕ)) :
    Done cfg s (s.onRound cfg previousDay price rows) (.calls [] []) := by
  unfold onRound
  split
  · exact done_same rfl rfl rfl
  · exact done_same rfl rfl rfl

theorem done_onExactTip (cfg : Config β) (s : RunLoop) (previousDay : ℤ)
    (a : Answer (Option BlockchainInfo)) :
    Done cfg s (s.onExactTip previousDay a) (.calls [] []) := by
  unfold onExactTip
  split
  · split_ifs
    · exact done_same rfl rfl rfl
    · exact done_same rfl rfl rfl
  · split_ifs
    · exact done_same rfl rfl rfl
    · exact done_same rfl rfl rfl

theorem done_onRules (h : s.Aligned) {previousDay : ℤ} (hs : s.phase = .rules previousDay)
    (fee : Answer (Option StandardFee)) (env : TipEnv) :
    Done cfg s (s.onRules cfg previousDay fee env) (s.asks cfg (.rules fee env)) := by
  have hrun : s.live.tip = s.cursor.tip.1 ∧ s.mtp.current = some s.live.mtp := by
    refine h.tip ?_ ?_
    · rw [hs]
      exact id
    · rw [hs]
      exact id
  obtain ⟨htip, -⟩ := hrun
  have hasks : s.asks cfg (.rules fee env) = if (s.mtp.currentDay cfg.birthday).isSome = true then
      .calls [] (s.live.walletOps cfg.params cfg.keys (.tipPass (s.tipEnv fee env))) else .calls []
        [] := by
    unfold asks
    rw [hs]
  rw [hasks]
  unfold onRules
  rcases s.mtp.currentDay cfg.birthday with - | today
  · exact done_same rfl rfl rfl
  rw [if_pos (show (some today).isSome = true from rfl)]
  dsimp only
  rcases hpass : s.live.tipPass cfg.params cfg.keys (s.tipEnv fee env) with - | live
  · have hnone : s.live.walletOps cfg.params cfg.keys (.tipPass (s.tipEnv fee env)) = [] := by
      show (s.live.tipPass cfg.params cfg.keys (s.tipEnv fee env)).elim [] _ = []
      rw [hpass]
      rfl
    rw [hnone]
    exact done_same rfl rfl rfl
  · refine ⟨rfl, ?_⟩
    rw [registryView_of_tip htip]
    refine (registryView_of_tip ?_).trans (Live.recorded_tipPass hpass).1
    exact (Live.sameTip_tipPass hpass).tip.trans htip

/-- **Each reply does what it asks.** -/
theorem done_step (cfg : Config β) (h : s.Aligned) (r : Reply β) :
    Done cfg s (s.step cfg r) (s.asks cfg r) := by
  unfold step
  split
  · rename_i a hs
    unfold asks
    rw [hs]
    exact done_phase (onAnnounced_phase s a)
  · rename_i a hs
    unfold asks
    rw [hs]
    exact done_phase (onCanonicalTip_phase s a)
  · rename_i best ancestor a hs
    unfold asks
    rw [hs]
    exact done_onAncestor h hs a
  · rename_i best window height a hs
    unfold asks
    rw [hs]
    exact done_onHeader h hs a
  · rename_i best previousDay a hs
    unfold asks
    rw [hs]
    exact done_onBlock h hs a
  · rename_i previousDay price rows hs
    unfold asks
    rw [hs]
    exact done_onRound cfg s previousDay price rows
  · rename_i previousDay a hs
    unfold asks
    rw [hs]
    exact done_onExactTip cfg s previousDay a
  · rename_i previousDay fee env hs
    exact done_onRules h hs fee env
  · rename_i reply _ _ _ _ hwalk _ hcatchUp _ _ hrules
    have hasks : s.asks cfg reply = .calls [] [] := by
      unfold asks
      split
      · exact (hwalk _ _ _ ‹_› rfl).elim
      · exact (hcatchUp _ _ _ ‹_› rfl).elim
      · exact (hrules _ _ _ ‹_› rfl).elim
      · rfl
    rw [hasks]
    exact done_same rfl rfl rfl

end RunLoop

/-! ### The loop and the tables -/

/-- The run loop, and the wallet's tables below it. -/
structure Backed (X : Backend) where
  loop : RunLoop
  tables : Wallet X

namespace Backed

variable {X : Backend} {β : Type} {cfg : Config β} {K : Commitments} {R : Reading X} {s t : Backed X}

/-- The heights that can be rewound to are those that the wallet's trees retain. -/
def config (cfg : Config β) (w : Wallet X) : Config β := { cfg with retains := fun _ => w.retains }

/-- A reply, with the calls of the wallet that the loop makes on it. -/
def step (cfg : Config β) (s : Backed X) (e : Reply β × List (Op X)) : Option (Backed X) := do
  let tables ← run Wallet.step s.tables e.2
  return ⟨s.loop.step (config cfg s.tables) e.1, tables⟩

/-- A rewind is the one call on its reply. Otherwise nothing is rewound, and the blocks and the
Registry's notes are those asked for; locks and transactions that spend no note of the Registry are
free. -/
def Made (K : Commitments) (R : Reading X) (w : Wallet X) (ops : List (Op X)) : RunLoop.Asked → Prop
  | .rewind maxHeight => ops.map rewindsTo = [some maxHeight]
  | .calls blocks notes => (∀ op ∈ ops, rewindsTo op = none) ∧ ops.flatMap appended = blocks ∧
      shownAlong Wallet.step (registryOps K R) w ops = notes

instance (K : Commitments) (R : Reading X) (w : Wallet X) (ops : List (Op X)) :
    ∀ asked, Decidable (Made K R w ops asked)
  | .rewind maxHeight => inferInstanceAs (Decidable (ops.map rewindsTo = [some maxHeight]))
  | .calls blocks notes => inferInstanceAs (Decidable
    ((∀ op ∈ ops, rewindsTo op = none) ∧ ops.flatMap appended = blocks ∧
      shownAlong Wallet.step (registryOps K R) w ops = notes))

/-- The calls are the mint's, and they are what the loop asks for. -/
structure Calls (cfg : Config β) (K : Commitments) (R : Reading X) (s : Backed X)
    (e : Reply β × List (Op X)) : Prop where
  byMint : Along Wallet.step (ByMint K) s.tables e.2
  made : Made K R s.tables e.2 (s.loop.asks (config cfg s.tables) e.1)

instance (cfg : Config β) (K : Commitments) (R : Reading X) (s : Backed X) (e : Reply β × List (Op X)) :
    Decidable (Calls cfg K R s e) :=
  decidable_of_iff (Along Wallet.step (ByMint K) s.tables e.2 ∧
      Made K R s.tables e.2 (s.loop.asks (config cfg s.tables) e.1))
    ⟨fun ⟨hmint, hmade⟩ => ⟨hmint, hmade⟩, fun h => ⟨h.byMint, h.made⟩⟩

/-- The cursor and the Registry's notes that the loop reasons with are those of the tables. -/
structure Agrees (K : Commitments) (s : Backed X) : Prop where
  wellFormed : s.tables.WellFormed
  aligned : s.loop.Aligned
  cursor : s.loop.cursor = s.tables.cursor
  shows : Shows K s.tables s.loop.registryView

theorem step_eq_some {e : Reply β × List (Op X)} (h : s.step cfg e = some t) :
    t.loop = s.loop.step (config cfg s.tables) e.1 ∧ run Wallet.step s.tables e.2 = some t.tables := by
  unfold Backed.step at h
  obtain ⟨tables, htables, h⟩ := Option.bind_eq_some_iff.mp h
  obtain rfl := Option.some.inj h
  exact ⟨rfl, htables⟩

/-- A rewind of the tables is the loop's. -/
theorem Agrees.rewind (hX : TruncatesToCheckpoints X) (h : Agrees K s) {maxHeight : ℕ} {v : Wallet X}
    {u : RunLoop}
    (hbelow : maxHeight < s.loop.cursor.tip.1)
    (htruncate : s.loop.cursor.truncateTo s.tables.retains maxHeight = some u.cursor)
    (hview : u.registryView = s.loop.registryView.truncateTo u.cursor.tip.1)
    (hv : Wallet.step s.tables (.truncate maxHeight) = some v) :
    v.WellFormed ∧ u.cursor = v.cursor ∧ Shows K v u.registryView := by
  have hmint : ByMint K s.tables (.truncate maxHeight) := trivial
  have hle := Cursor.tip_truncateTo hbelow htruncate
  rw [h.cursor] at htruncate hbelow
  have hcursor : v.cursor = u.cursor := step_truncate hX htruncate hv
  obtain ⟨hwell, hshows⟩ := Shows.step (R := ⟨fun _ => 0, fun _ => [], fun _ => 0⟩)
    ⟨h.wellFormed, h.shows⟩ hmint hv
  refine ⟨hwell, hcursor.symm, ?_⟩
  obtain ⟨⟨k, v'⟩, hv', rfl⟩ := Option.map_eq_some_iff.mp hv
  have hok := ok_of_toOption hv'
  have hblocks : ¬ s.tables.blocks.isEmpty = true := by
    rintro hempty
    obtain rfl := truncateToHeight_empty hempty hok
    rw [← hcursor] at hle
    exact absurd hle (Nat.not_le.mpr hbelow)
  have hk : u.cursor.tip.1 = k := by
    rw [← hcursor, tip_cursor hwell]
    exact truncateToHeight_tip h.wellFormed hblocks hok
  simp only [registryOps, if_neg hblocks, hv'] at hshows
  rw [hview, hk]
  exact hshows

/-- So are the blocks it applies, and what becomes of the Registry's notes. -/
theorem Agrees.calls (h : Agrees K s) {ops : List (Op X)} {v : Wallet X} {u : RunLoop}
    (hops : Along Wallet.step (ByMint K) s.tables ops) (hno : ∀ op ∈ ops, rewindsTo op = none)
    (hcursor : u.cursor = (ops.flatMap appended).foldl Cursor.put s.loop.cursor)
    (hview : u.registryView =
      (shownAlong Wallet.step (registryOps K R) s.tables ops).foldl RegistryWallet.apply
        s.loop.registryView)
    (hv : run Wallet.step s.tables ops = some v) :
    v.WellFormed ∧ u.cursor = v.cursor ∧ Shows K v u.registryView := by
  obtain ⟨hwell, hshows⟩ := shows_run (R := R) h.wellFormed h.shows hops hv
  refine ⟨hwell, ?_, ?_⟩
  · rw [hcursor, cursor_run h.wellFormed hops hno hv, h.cursor]
  · rw [hview]
    exact hshows

theorem eq_truncate {ops : List (Op X)} {maxHeight : ℕ} (h : ops.map rewindsTo = [some maxHeight]) :
    ops = [.truncate maxHeight] := by
  obtain ⟨op, rfl, hop⟩ := List.map_eq_singleton_iff.mp h
  cases op with
  | truncate height => exact congrArg (fun h => [Op.truncate h]) (Option.some.inj hop)
  | _ => exact nomatch hop

/-- **Every reply keeps them in step.** -/
theorem Agrees.step (hX : TruncatesToCheckpoints X) (h : Agrees K s) {e : Reply β × List (Op X)}
    (he : Calls cfg K R s e) (ht : s.step cfg e = some t) : Agrees K t := by
  obtain ⟨hloop, htables⟩ := step_eq_some ht
  have hdone := RunLoop.done_step (config cfg s.tables) h.aligned e.1
  have haligned := (h.aligned.moves (RunLoop.moves_step (config cfg s.tables) s.loop e.1)).1
  have hmade := he.made
  rw [← hloop] at hdone haligned
  rcases hasked : s.loop.asks (config cfg s.tables) e.1 with maxHeight | ⟨blocks, notes⟩
  · rw [hasked] at hdone hmade
    obtain ⟨hbelow, htruncate, hview⟩ := hdone
    have hv : Wallet.step s.tables (.truncate maxHeight) = some t.tables := by
      rw [eq_truncate hmade] at htables
      obtain ⟨u, hu, hrest⟩ := run_cons htables
      cases hrest
      exact hu
    obtain ⟨hwell, hcursor, hshows⟩ := h.rewind hX hbelow htruncate hview hv
    exact ⟨hwell, haligned, hcursor, hshows⟩
  · rw [hasked] at hdone hmade
    obtain ⟨hcursor, hview⟩ := hdone
    obtain ⟨hno, rfl, rfl⟩ := hmade
    obtain ⟨hwell, hcursor, hshows⟩ := h.calls he.byMint hno hcursor hview htables
    exact ⟨hwell, haligned, hcursor, hshows⟩

/-! ### Every run -/

/-- What boot hands over: the faculties and the tables after the same blocks, with the clock and the rate
of the faculties, before the first tip. -/
structure Booted (cfg : Config β) (K : Commitments) (R : Reading X) (s : Backed X) : Prop where
  faculties : Tabled.Booted cfg.params cfg.keys K R ⟨s.loop.live, s.tables⟩
  cursor : s.loop.cursor = s.tables.cursor
  clock : s.loop.mtp.current = some s.loop.live.mtp
  rate : s.loop.live.rate = s.loop.oracle.current
  waiting : s.loop.phase = .nextTip

theorem Booted.agrees (h : Booted cfg K R s) : Agrees K s := by
  have hfaculties := h.faculties.agrees
  have htip : s.loop.live.tip = s.loop.cursor.tip.1 := by
    rw [h.cursor, tip_cursor hfaculties.wellFormed]
    exact hfaculties.tip.symm
  have hwaiting : s.loop = { s.loop with phase := .nextTip } := by
    rw [← h.waiting]
  refine ⟨hfaculties.wellFormed, ?_, h.cursor, ?_⟩
  · rw [hwaiting]
    exact RunLoop.aligned_of (show RunLoop.Phase.Idle none .nextTip from trivial) htip h.clock h.rate
  · rw [RunLoop.registryView_of_tip htip]
    exact hfaculties.shows

/-- **The loop reasons with the wallet's own answers.** In every run from boot on, whatever the node
answers and wherever it reorganises, the tip and the block hashes the loop goes by are those the wallet
gives, a rewind takes the loop's cursor where it takes the wallet or is refused by both, and a note of
the Registry can be spent exactly where the loop's notes say so, as cut at the tip while the clock is
filled, and no live lock stands on it. -/
theorem wallet_answers (hX : TruncatesToCheckpoints X) (h : Booted cfg K R s)
    {events : List (Reply β × List (Op X))}
    (hevents : Along (Backed.step cfg) (Calls cfg K R) s events)
    (hrun : run (Backed.step cfg) s events = some t) :
    t.loop.cursor.tip = (t.tables.tip.blockHeight, t.tables.tip.blockHash) ∧
      (∀ height, t.loop.cursor.blockHashAt height = t.tables.blockHashAt height) ∧
      (∀ maxHeight, (t.tables.truncateTo maxHeight).toOption.map (fun p => p.2.cursor) =
        t.loop.cursor.truncateTo t.tables.retains maxHeight) ∧
      ∀ nf target, (t.tables.unspentIronwoodNoteByNullifier REGISTRY_ACCOUNT nf target).map
        ReceivedNote.txid =
        if t.loop.registryView.unspentNote nf target && t.tables.unlocked nf target then
          t.loop.registryView.notes nf
        else none := by
  have hagrees : Agrees K t :=
    run_invariant (fun _ _ _ hs he hstep => Agrees.step hX hs he hstep) events s t h.agrees hevents hrun
  rw [hagrees.cursor]
  exact ⟨tip_cursor hagrees.wellFormed, blockHashAt_cursor t.tables, cursor_truncateTo hX t.tables,
    hagrees.shows.unspent⟩

/-! ### A small world for concrete runs -/

def sampleOrigin : BlockMetadata := ⟨0, RunLoop.sampleHash 0, some 0, some 0, some 0⟩

/-- A block as the wallet scans it: one Ironwood commitment, none of the wallet's. -/
def sampleScanned (height : ℕ) (id : UInt8) : ScannedBlock sampleBackend where
  height := height
  blockHash := RunLoop.sampleHash id
  transactions := []
  bundles
    | .ironwood => ⟨[([height], .checkpoint height .none)], height⟩
    | _ => ⟨[], 0⟩

def sampleTrees : ShieldedPool → sampleBackend.Tree := fun _ => ([], [(0, 0)])

def sampleBacked : Backed sampleBackend := ⟨RunLoop.sampleStart,
    Wallet.new sampleOrigin sampleTrees fun _ => .empty⟩

theorem sampleBacked_booted :
    Booted RunLoop.sampleConfig Tabled.sampleCommitments Tabled.sampleReading sampleBacked := by
  refine ⟨?_, ?_, ?_, rfl, rfl⟩
  · exact ⟨sampleOrigin, sampleTrees, fun _ => .empty, [], [], 0, .zero, .zero, by decide, rfl,
      trivial, rfl, rfl⟩
  · rfl
  · decide +kernel

/-- The calls on the replies of the node that reorganises. -/
def sampleCalls : List (List (Op sampleBackend)) :=
  [[], [], [], [samplePut sampleOrigin (sampleScanned 1 1)], [], [], [], [.truncate 0], [],
    [samplePut sampleOrigin (sampleScanned 1 11)],
    [samplePut (sampleScanned 1 11).toBlockMetadata (sampleScanned 2 12)],
    [samplePut (sampleScanned 2 12).toBlockMetadata (sampleScanned 3 13)], [], [], []]

def sampleForked : Backed sampleBackend :=
  (run (Backed.step RunLoop.sampleConfig) sampleBacked (RunLoop.sampleReplies.zip sampleCalls)).get
    (by decide +kernel)

/-- After the fork the wallet has the blocks of the node's new chain. -/
theorem wallet_answers_fork :
    (sampleForked.tables.tip.blockHeight, sampleForked.tables.tip.blockHash) =
    (3, RunLoop.sampleHash 13) ∧
      sampleForked.tables.blockHashAt 1 = some (RunLoop.sampleHash 11) := by
  have hrun : run (Backed.step RunLoop.sampleConfig) sampleBacked
    (RunLoop.sampleReplies.zip sampleCalls) =
      some sampleForked := (Option.some_get _).symm
  obtain ⟨htip, hhash, -⟩ := wallet_answers sampleBackend_truncates sampleBacked_booted
    (by decide +kernel) hrun
  refine ⟨htip.symm.trans ?_, (hhash 1).symm.trans ?_⟩
  · decide +kernel
  · decide +kernel

end Backed

end ZnsMint
