import ZnsMint.RunLoop.Steps

/-! # The applied chain is the node's

However the node's best chain moves between its answers, the blocks the mint has applied are the
beginning of one best chain that the node has held, never a mixture of two: a block is applied only where
it names the applied tip, and a hash pins all that lies below it. Where the rules are run, that chain was
the whole of the node's at the last check. -/

namespace ZnsMint

open Basic Wallet Zebra Lib.HashChain Lib.Checkpoints Lib.Machine RunLoop

variable {β : Type} {cfg : Config β}

/-! ### What the cursor holds of a chain -/

/-- The applied chain from the node's first block on: the origin lies on it, and the cursor has the hash
of each block above. -/
structure Cursor.Applied (c : List (RawBlock β)) (k : Cursor) : Prop where
  seed : named RawBlock.hash c k.seed.1 = some k.seed.2
  blocks : ∀ h : ℕ, k.blocks[h]? = if k.seed.1 < h then named RawBlock.hash c h else none

namespace Cursor

variable {c d : List (RawBlock β)} {k k' : Cursor} {h a : ℕ}

/-- Nothing is applied above the origin. -/
theorem applied_origin {seed : ℕ × BlockHash} (hlen : c.length = seed.1 + 1)
    (hseed : named RawBlock.hash c seed.1 = some seed.2) : Applied c ⟨seed, ∅⟩ where
  seed := hseed
  blocks h := by
    have hempty : (∅ : HeightMap BlockHash)[h]? = none := Std.ExtTreeMap.getElem?_empty
    show (∅ : HeightMap BlockHash)[h]? = if seed.1 < h then named RawBlock.hash c h else none
    rw [hempty]
    split_ifs with hlt
    · unfold named
      rw [List.getElem?_eq_none (by omega), Option.map_none]
    · rfl

theorem Applied.mem_iff (hk : Applied c k) : h ∈ k.blocks ↔ k.seed.1 < h ∧ h < c.length := by
  rw [← Std.ExtTreeMap.isSome_getElem?_iff_mem, hk.blocks]
  split_ifs with hlt
  · unfold named
    rw [Option.isSome_map]
    simp [hlt]
  · simp [hlt]

/-- The last entry of the cursor is the last block of the chain. -/
theorem Applied.tip (hk : Applied c k) : k.tip.1 + 1 = c.length ∧ named RawBlock.hash c k.tip.1 =
    some k.tip.2 := by
  have hseed := lt_of_named hk.seed
  by_cases habove : k.seed.1 + 1 = c.length
  · -- nothing is applied
    have hnone : k.blocks.toList.getLast? = none := by
      rcases hlast : k.blocks.toList.getLast? with - | p
      · rfl
      · have hmem := Std.ExtTreeMap.mem_toList_iff_getElem?_eq_some.mp
          (show (p.1, p.2) ∈ k.blocks.toList from List.mem_of_getLast? hlast)
        have hp := hk.mem_iff.mp (Std.ExtTreeMap.isSome_getElem?_iff_mem.mp
          (Option.isSome_iff_exists.mpr ⟨_, hmem⟩))
        omega
    unfold Cursor.tip
    rw [hnone]
    exact ⟨habove, hk.seed⟩
  · obtain ⟨x, hx⟩ := named_isSome RawBlock.hash (show c.length - 1 < c.length by omega)
    have hentry : k.blocks[c.length - 1]? = some x := by
      rw [hk.blocks, if_pos (by omega)]
      exact hx
    have hlast := getLast?_eq_some_of hentry fun j hj => by
      have := hk.mem_iff.mp hj
      omega
    unfold Cursor.tip
    rw [hlast]
    refine ⟨?_, hx⟩
    show c.length - 1 + 1 = c.length
    omega

theorem Applied.blockHashAt (hk : Applied c k) (h : ℕ) :
    k.blockHashAt h = if k.seed.1 ≤ h then named RawBlock.hash c h else none := by
  have hentry := hk.blocks h
  unfold Cursor.blockHashAt
  rcases Nat.lt_trichotomy h k.seed.1 with hlt | rfl | hgt
  · rw [if_neg (by omega : ¬ k.seed.1 < h)] at hentry
    rw [hentry, if_neg (by omega : ¬ k.seed.1 ≤ h)]
    exact if_neg (by omega)
  · rw [if_neg (lt_irrefl _)] at hentry
    rw [hentry, if_pos le_rfl, hk.seed]
    exact if_pos rfl
  · rw [if_pos hgt] at hentry
    rw [hentry, if_pos hgt.le]
    rcases named RawBlock.hash c h with - | x
    · exact if_neg (by omega)
    · rfl

/-- What the wallet has a hash of lies on the chain, at the origin or above. -/
theorem Applied.of_blockHashAt (hk : Applied c k) {x : BlockHash} (hx : k.blockHashAt h = some x) :
    k.seed.1 ≤ h ∧ named RawBlock.hash c h = some x := by
  rw [hk.blockHashAt] at hx
  split_ifs at hx with hle
  exact ⟨hle, hx⟩

theorem Applied.seed_le_tip (hk : Applied c k) : k.seed.1 ≤ k.tip.1 := by
  have hseed := lt_of_named hk.seed
  have htip := hk.tip.1
  omega

/-- The next block is applied. -/
theorem Applied.push (hk : Applied c k) (b : RawBlock β) : Applied (c ++ [b]) (k.push b.hash) where
  seed := by
    show named RawBlock.hash (c ++ [b]) k.seed.1 = some k.seed.2
    rw [named_of_isPrefix (List.prefix_append c [b]) (lt_of_named hk.seed)]
    exact hk.seed
  blocks h := by
    have hlen := hk.tip.1
    have hseed := hk.seed_le_tip
    show (k.blocks.insert (k.tip.1 + 1) b.hash)[h]? = if k.seed.1 < h then named RawBlock.hash
      (c ++ [b]) h else none
    rw [Std.ExtTreeMap.getElem?_insert]
    by_cases hh : h = c.length
    · rw [if_pos (Nat.compare_eq_eq.mpr (by omega)), if_pos (by omega), hh]
      unfold named
      rw [List.getElem?_concat_length]
      rfl
    · rw [if_neg fun heq => hh (by have := Nat.compare_eq_eq.mp heq; omega), hk.blocks]
      by_cases hlt : h < c.length
      · rw [named_of_isPrefix (List.prefix_append c [b]) hlt]
      · have hout : named RawBlock.hash c h = none := by
          unfold named
          rw [List.getElem?_eq_none (by omega), Option.map_none]
        have hout' : named RawBlock.hash (c ++ [b]) h = none := by
          unfold named
          rw [List.getElem?_eq_none (by rw [List.length_append, List.length_singleton]; omega),
            Option.map_none]
        rw [hout, hout']

/-- The blocks above a height of the chain are dropped. -/
theorem Applied.cut (hk : Applied c k) (hseed : k.seed.1 ≤ a) :
    Applied (c.take (a + 1)) { k with blocks := Lib.Checkpoints.cut k.blocks a } where
  seed := by
    rw [named_take (Nat.lt_succ_of_le hseed)]
    exact hk.seed
  blocks h := by
    show (Lib.Checkpoints.cut k.blocks a)[h]? = if k.seed.1 < h then named RawBlock.hash
      (c.take (a + 1)) h else none
    rw [getElem?_cut, hk.blocks]
    by_cases hle : h ≤ a
    · rw [if_pos hle, named_take (Nat.lt_succ_of_le hle)]
    · have hout : named RawBlock.hash (c.take (a + 1)) h = none := by
        unfold named
        rw [List.getElem?_eq_none (by rw [List.length_take]; omega), Option.map_none]
      rw [if_neg hle, hout, ite_self]

/-- **A rewind goes exactly where it is asked to**, for a height the wallet has a hash of. -/
theorem Applied.truncateTo (hk : Applied c k) {retains : ℕ → Bool} {x : BlockHash}
    (hx : k.blockHashAt a = some x)
    (hbelow : a < k.tip.1) : k.truncateTo retains a =
      if retains a then some { k with blocks := Lib.Checkpoints.cut k.blocks a } else none := by
  obtain ⟨hseed, hx⟩ := hk.of_blockHashAt hx
  have hlen := hk.tip.1
  unfold Cursor.truncateTo
  rcases Nat.lt_or_ge k.seed.1 a with hlt | hge
  · have hentry : (Lib.Checkpoints.cut k.blocks a)[a]? = some x := by
      rw [getElem?_cut, if_pos le_rfl, hk.blocks, if_pos hlt]
      exact hx
    rw [getLast?_eq_some_of hentry fun j hj => (le_of_mem_cut hj).1]
  · -- at the origin nothing is left of the blocks
    obtain rfl : a = k.seed.1 := by omega
    have hnone : (Lib.Checkpoints.cut k.blocks k.seed.1).toList.getLast? = none := by
      rcases hlast : (Lib.Checkpoints.cut k.blocks k.seed.1).toList.getLast? with - | p
      · rfl
      · have hmem := Std.ExtTreeMap.mem_toList_iff_getElem?_eq_some.mp
          (show (p.1, p.2) ∈ (Lib.Checkpoints.cut k.blocks k.seed.1).toList
            from List.mem_of_getLast? hlast)
        have hp := le_of_mem_cut
          (Std.ExtTreeMap.isSome_getElem?_iff_mem.mp (Option.isSome_iff_exists.mpr ⟨_, hmem⟩))
        have := (hk.mem_iff.mp hp.2).1
        omega
    have hsome : k.blocks.isEmpty = false := by
      rw [← Bool.not_eq_true, Std.ExtTreeMap.isEmpty_iff]
      intro hempty
      have hin : k.seed.1 + 1 ∈ k.blocks := hk.mem_iff.mpr (by omega)
      rw [hempty] at hin
      exact Std.ExtTreeMap.not_mem_empty hin
    rw [hnone]
    simp [hsome]

end Cursor

/-! ### Honest nodes -/

/-- What the node says of a block is so. -/
def RunLoop.Phase.SaysBlock (best : List (RawBlock β)) (tip : ℕ) (a : Answer (BlockAndHash β)) :
    Phase → Prop
  | .walk _ ancestor => Says (getBlockHash a) fun hash => named RawBlock.hash best ancestor = some hash
  | .catchUp _ _ => Says (getBlock (tip + 1) a) fun block => best[tip + 1]? = some block
  | _ => True

/-- What it says of a header is so. -/
def RunLoop.Phase.SaysHeader (cfg : Config β) (best : List (RawBlock β))
    (a : Answer (Option (List UInt8))) :
    Phase → Prop
  | .backfill _ _ height => Says (headerTime cfg.readTime a) fun time =>
    best[height]?.map RawBlock.time = some time
  | _ => True

/-- What the node says of its best chain is so. An announcement may be of any tip. -/
def RunLoop.Truthful (cfg : Config β) (best : List (RawBlock β)) (s : RunLoop) : Reply β → Prop
  | .tip a => Says (Zebra.exactTip a) fun tip =>
      tip.1 + 1 = best.length ∧ named RawBlock.hash best tip.1 = some tip.2
  | .block a => s.phase.SaysBlock best s.cursor.tip.1 a
  | .header a => s.phase.SaysHeader cfg best a
  | _ => True

section Truthful

variable {best : List (RawBlock β)} {l : RunLoop}

/-- What the node answered while the loop caught up is the next block of its best chain. -/
theorem RunLoop.Truthful.of_catchUp {a : Answer (BlockAndHash β)} {till : ℕ} {previousDay : ℤ}
    {block : RawBlock β}
    (h : l.Truthful cfg best (.block a)) (hphase : l.phase = .catchUp till previousDay)
    (ha : getBlock (l.cursor.tip.1 + 1) a = .ok block) : best[l.cursor.tip.1 + 1]? = some block := by
  have hword : l.phase.SaysBlock best l.cursor.tip.1 a := h
  rw [hphase] at hword
  exact Says.of_ok (P := fun block => best[l.cursor.tip.1 + 1]? = some block) hword ha

/-- What it answered for the clock is the time of its block at the height. -/
theorem RunLoop.Truthful.of_backfill {a : Answer (Option (List UInt8))} {till height time : ℕ}
    {window : MtpTracker}
    (h : l.Truthful cfg best (.header a)) (hphase : l.phase = .backfill till window height)
    (ha : headerTime cfg.readTime a = .ok time) : best[height]?.map RawBlock.time = some time := by
  have hword : l.phase.SaysHeader cfg best a := h
  rw [hphase] at hword
  exact Says.of_ok (P := fun time => best[height]?.map RawBlock.time = some time) hword ha

end Truthful

/-- The node answers from its best chain, which is linked; no two blocks it has held share a hash. -/
def System.Honest (cfg : Config β) (s : System β) : System.Event β → Prop
  | .moved best => Linked RawBlock.hash RawBlock.prevBlock best ∧
    ∀ d ∈ best :: s.held, Apart RawBlock.hash best d
  | .replied r => s.loop.Truthful cfg s.best r

section Decidable

variable [DecidableEq β]

instance (best : List (RawBlock β)) (tip : ℕ) (a : Answer (BlockAndHash β)) :
    ∀ p : RunLoop.Phase, Decidable (p.SaysBlock best tip a)
  | .walk _ _ => inferInstanceAs (Decidable (Says _ _))
  | .catchUp _ _ => inferInstanceAs (Decidable (Says _ _))
  | .nextTip | .canonicalTip | .backfill .. | .price _ | .exactTip _ | .rules _ | .fatal _ =>
    isTrue trivial

instance (cfg : Config β) (best : List (RawBlock β)) (a : Answer (Option (List UInt8))) :
    ∀ p : RunLoop.Phase, Decidable (p.SaysHeader cfg best a)
  | .backfill .. => inferInstanceAs (Decidable (Says _ _))
  | .nextTip | .canonicalTip | .walk .. | .catchUp .. | .price _ | .exactTip _ | .rules _ | .fatal _ =>
    isTrue trivial

instance (cfg : Config β) (best : List (RawBlock β)) (s : RunLoop) : ∀ r :
    Reply β, Decidable (s.Truthful cfg best r)
  | .tip _ => inferInstanceAs (Decidable (Says _ _))
  | .block a => inferInstanceAs (Decidable (s.phase.SaysBlock best s.cursor.tip.1 a))
  | .header a => inferInstanceAs (Decidable (s.phase.SaysHeader cfg best a))
  | .announced _ | .round .. | .rules .. => isTrue trivial

instance (cfg : Config β) (s : System β) : ∀ e : System.Event β, Decidable (s.Honest cfg e)
  | .moved _ => inferInstanceAs (Decidable (_ ∧ _))
  | .replied r => inferInstanceAs (Decidable (s.loop.Truthful cfg s.best r))

end Decidable

/-- The chains the node has held, the last of them its best. -/
structure System.Sound (s : System β) : Prop where
  best : s.best ∈ s.held
  linked : ∀ d ∈ s.held, Linked RawBlock.hash RawBlock.prevBlock d
  apart : ∀ d ∈ s.held, ∀ e ∈ s.held, Apart RawBlock.hash d e

/-- The applied chain is the beginning of a chain the node has held. -/
structure System.Follows (c : List (RawBlock β)) (s : System β) : Prop where
  held : ∃ d ∈ s.held, c <+: d
  applied : s.loop.cursor.Applied c

namespace System

variable {s t : System β} {c : List (RawBlock β)}

theorem Sound.step (h : s.Sound) {e : Event β} (he : Honest cfg s e) (hstep : s.step cfg e = some t) :
    t.Sound := by
  rcases e with best | r
  · obtain rfl := Option.some.inj hstep
    refine ⟨List.mem_cons_self, ?_, ?_⟩
    · rintro d (- | ⟨-, hd⟩)
      · exact he.1
      · exact h.linked d hd
    · intro d hd e he'
      rcases List.mem_cons.mp hd with rfl | hin
      · exact he.2 e he'
      · rcases List.mem_cons.mp he' with rfl | hin'
        · exact (he.2 d (List.mem_cons_of_mem _ hin)).symm
        · exact h.apart d hin e hin'
  · obtain rfl := Option.some.inj hstep
    exact ⟨h.best, h.linked, h.apart⟩

theorem Follows.of_cursor (h : s.Follows c) {l : RunLoop} (hcursor : l.cursor = s.loop.cursor) :
    Follows c { s with loop := l } := by
  refine ⟨h.held, ?_⟩
  show l.cursor.Applied c
  rw [hcursor]
  exact h.applied

/-- A rewind keeps what lies at the ancestor and below. -/
theorem Follows.truncate (h : s.Follows c) {retains : ℕ → Bool} {ancestor : ℕ} {hash : BlockHash}
    {l : RunLoop}
    (hsame : s.loop.cursor.blockHashAt ancestor = some hash) (hbelow : ancestor < s.loop.cursor.tip.1)
    (htruncate : s.loop.cursor.truncateTo retains ancestor = some l.cursor) :
    Follows (c.take (ancestor + 1)) { s with loop := l } := by
  obtain ⟨d, hd, hcd⟩ := h.held
  rw [h.applied.truncateTo hsame hbelow] at htruncate
  split_ifs at htruncate with hretains
  have hseed := (h.applied.of_blockHashAt hsame).1
  refine ⟨⟨d, hd, (List.take_prefix _ _).trans hcd⟩, ?_⟩
  show l.cursor.Applied _
  rw [← Option.some.inj htruncate]
  exact h.applied.cut hseed

/-- A block of the node's best chain that names the applied tip: the applied chain lies below it. -/
theorem Follows.extend (hs : s.Sound) (h : s.Follows c) {block : RawBlock β} {l : RunLoop}
    (hblock : s.best[s.loop.cursor.tip.1 + 1]? = some block)
    (hprev : block.prevBlock = s.loop.cursor.tip.2)
    (hcursor : l.cursor = s.loop.cursor.push block.hash) :
    Follows (c ++ [block]) { s with loop := l } ∧ c ++ [block] <+: s.best := by
  obtain ⟨d, hd, hcd⟩ := h.held
  have htip := h.applied.tip
  have hnext := take_of_prev ((hs.linked d hd).of_isPrefix hcd) (hs.linked s.best hs.best)
    ((hs.apart d hd s.best hs.best).of_isPrefix hcd) htip.1.symm htip.2 hblock hprev
  have hbelow : c ++ [block] <+: s.best := by
    rw [hnext]
    exact List.take_prefix _ _
  refine ⟨⟨⟨s.best, hs.best, hbelow⟩, ?_⟩, hbelow⟩
  show l.cursor.Applied _
  rw [hcursor]
  exact h.applied.push block

/-- A reply leaves the applied chain, cuts it, or extends it by a block of the node's best chain. -/
theorem Follows.move (hs : s.Sound) (h : s.Follows c) {r : Reply β} (hr : s.loop.Truthful cfg s.best r)
    {l : RunLoop}
    (hmove : RunLoop.Moves cfg s.loop r l) : ∃ c', Follows c' { s with loop := l } := by
  cases hmove with
  | rewinds hphase ha hsame hbelow htruncate => exact ⟨_, h.truncate hsame hbelow htruncate⟩
  | «extends» hphase ha hprev htime hcurrent hp =>
    have hblock := RunLoop.Truthful.of_catchUp hr hphase ha
    exact ⟨_, (h.extend hs hblock hprev rfl).1⟩
  | stays => exact ⟨c, h.of_cursor rfl⟩
  | goes => exact ⟨c, h.of_cursor rfl⟩
  | fails => exact ⟨c, h.of_cursor rfl⟩
  | reads => exact ⟨c, h.of_cursor rfl⟩
  | rebuilds => exact ⟨c, h.of_cursor rfl⟩
  | prices => exact ⟨c, h.of_cursor rfl⟩
  | checks => exact ⟨c, h.of_cursor rfl⟩
  | skips => exact ⟨c, h.of_cursor rfl⟩
  | rules => exact ⟨c, h.of_cursor rfl⟩

theorem Follows.step (hs : s.Sound) (h : s.Follows c) {e : Event β} (he : Honest cfg s e)
    (hstep : s.step cfg e = some t) : ∃ c', t.Follows c' := by
  rcases e with best | r
  · obtain rfl := Option.some.inj hstep
    obtain ⟨d, hd, hcd⟩ := h.held
    exact ⟨c, ⟨d, List.mem_cons_of_mem _ hd, hcd⟩, h.applied⟩
  · obtain rfl := Option.some.inj hstep
    exact h.move hs he (RunLoop.moves_step cfg s.loop r)

/-! ### The rules -/

/-- The rules are run, and have been run, where the applied chain was the whole of a best chain of the
node. -/
structure RulesAtTip (s : System β) : Prop where
  ready : ∀ day, s.loop.phase = .rules day → ∃ d ∈ s.held, s.loop.cursor.Applied d
  passes : ∀ tip ∈ s.loop.passes, ∃ d ∈ s.held, tip.1 + 1 = d.length ∧
    named RawBlock.hash d tip.1 = some tip.2

theorem RulesAtTip.move (hs : s.Sound) (hc : s.Follows c) (h : s.RulesAtTip) {r : Reply β}
    (hr : s.loop.Truthful cfg s.best r) {l : RunLoop} (hmove : RunLoop.Moves cfg s.loop r l) :
    RulesAtTip { s with loop := l } := by
  have hpasses : ∀ {l : RunLoop}, (∀ day, l.phase ≠ .rules day) → l.passes = s.loop.passes →
      RulesAtTip { s with loop := l } := by
    intro l hphase hsame
    refine ⟨fun day hday => absurd hday (hphase day), ?_⟩
    show ∀ tip ∈ l.passes, _
    rw [hsame]
    exact h.passes
  have hidle : ∀ {p : RunLoop.Phase} {since : Option ℤ}, p.Idle since → ∀ day, p ≠ .rules day := by
    rintro p since hp day rfl
    exact hp
  cases hmove with
  | checks hphase ha =>
    rename_i day a
    -- the node's exact tip is the last block of the applied chain, which is then all of its best chain
    have htold : Says (Zebra.exactTip a) fun tip =>
        tip.1 + 1 = s.best.length ∧ named RawBlock.hash s.best tip.1 = some tip.2 := hr
    obtain ⟨hlen, hnamed⟩ := htold.of_ok ha
    obtain ⟨d, hd, hcd⟩ := hc.held
    have happlied := hc.applied.tip
    have hwhole := isPrefix_of_hash ((hs.linked d hd).of_isPrefix hcd) (hs.linked s.best hs.best)
      ((hs.apart d hd s.best hs.best).of_isPrefix hcd) happlied.1.symm happlied.2 hnamed
    obtain rfl := hwhole.eq_of_length (by omega)
    exact ⟨fun _ _ => ⟨_, hs.best, hc.applied⟩, h.passes⟩
  | rules hphase htoday hpass =>
    obtain ⟨d, hd, happlied⟩ := h.ready _ hphase
    refine ⟨fun day hday => (nomatch hday), ?_⟩
    intro tip htip
    rcases List.mem_append.mp htip with htip | htip
    · exact h.passes tip htip
    · obtain rfl := List.mem_singleton.mp htip
      exact ⟨d, hd, happlied.tip⟩
  | stays => exact h
  | goes r hidle' hp => exact hpasses (hidle hp) rfl
  | fails => exact hpasses (fun _ => nofun) rfl
  | rewinds => exact hpasses (fun _ => nofun) rfl
  | reads => exact hpasses (fun _ => nofun) rfl
  | rebuilds hphase ha heq hcurrent hp => exact hpasses (hidle hp) rfl
  | «extends» hphase ha hprev htime hcurrent hp => exact hpasses (hidle hp) rfl
  | prices => exact hpasses (fun _ => nofun) rfl
  | skips => exact hpasses (fun _ => nofun) rfl

/-- What a run keeps of all this. -/
structure InStep (s : System β) : Prop where
  sound : s.Sound
  follows : ∃ c, s.Follows c
  rules : s.RulesAtTip

theorem InStep.step (h : s.InStep) {e : Event β} (he : Honest cfg s e) (hstep : s.step cfg e = some t) :
    t.InStep := by
  obtain ⟨c, hc⟩ := h.follows
  refine ⟨h.sound.step he hstep, hc.step h.sound he hstep, ?_⟩
  rcases e with best | r
  · obtain rfl := Option.some.inj hstep
    refine ⟨fun day hday => ?_, fun tip htip => ?_⟩
    · obtain ⟨d, hd, happlied⟩ := h.rules.ready day hday
      exact ⟨d, List.mem_cons_of_mem _ hd, happlied⟩
    · obtain ⟨d, hd, hsame⟩ := h.rules.passes tip htip
      exact ⟨d, List.mem_cons_of_mem _ hd, hsame⟩
  · obtain rfl := Option.some.inj hstep
    exact h.rules.move h.sound hc he (RunLoop.moves_step cfg s.loop r)

/-! ### Where boot leaves off -/

/-- The loop starts on a beginning of the node's chain and has run no rules. -/
structure Starts (c : List (RawBlock β)) (s : System β) : Prop where
  held : s.held = [s.best]
  linked : Linked RawBlock.hash RawBlock.prevBlock s.best
  apart : Apart RawBlock.hash s.best s.best
  below : c <+: s.best
  applied : s.loop.cursor.Applied c
  phase : s.loop.phase = .nextTip
  passes : s.loop.passes = []

theorem Starts.follows (h : s.Starts c) : s.Follows c := by
  refine ⟨⟨s.best, ?_, h.below⟩, h.applied⟩
  rw [h.held]
  exact List.mem_singleton_self _

theorem Starts.inStep (h : s.Starts c) : s.InStep where
  sound := by
    refine ⟨?_, ?_, ?_⟩
    · rw [h.held]
      exact List.mem_singleton_self _
    · intro d hd
      rw [h.held, List.mem_singleton] at hd
      rw [hd]
      exact h.linked
    · intro d hd e he
      rw [h.held, List.mem_singleton] at hd he
      rw [hd, he]
      exact h.apart
  follows := ⟨c, h.follows⟩
  rules := by
    refine ⟨fun day hday => ?_, fun tip htip => ?_⟩
    · rw [h.phase] at hday
      exact nomatch hday
    · rw [h.passes] at htip
      exact nomatch htip

theorem Starts.inStep_run (h : s.Starts c) {events : List (Event β)}
    (honest : Along (step cfg) (Honest cfg) s events) (hrun : run (step cfg) s events = some t) :
    t.InStep :=
  run_invariant (fun _ _ _ hs he hstep => hs.step he hstep) events s t h.inStep honest hrun

/-- **The applied chain is never a mixture.** In every run beside an honest node, whose best chain may
change between any two of its answers and whose answers may fail, the blocks applied are the beginning of
one best chain that the node has held. -/
theorem applied_on_best (cfg : Config β) {s t : System β} {c : List (RawBlock β)} (h : s.Starts c)
    {events : List (Event β)} (honest : Along (step cfg) (Honest cfg) s events)
    (hrun : run (step cfg) s events = some t) :
    ∃ d ∈ t.held, ∃ c', c' <+: d ∧ t.loop.cursor.Applied c' := by
  obtain ⟨c', ⟨d, hd, hc'⟩, happlied⟩ := (h.inStep_run honest hrun).follows
  exact ⟨d, hd, c', hc', happlied⟩

theorem sampleSystem_starts : sampleSystem.Starts (sampleChain.take 1) where
  held := rfl
  linked := by decide +kernel
  apart := by decide +kernel
  below := List.take_prefix 1 sampleChain
  applied := Cursor.applied_origin rfl rfl
  phase := rfl
  passes := rfl

theorem sampleEvents_honest : Along (step sampleConfig) (Honest sampleConfig) sampleSystem
    sampleEvents := by
  decide +kernel

theorem applied_on_best_fork :
    ∃ t, run (step sampleConfig) sampleSystem sampleEvents = some t ∧ t.loop.cursor.tip =
      (3, sampleHash 13) ∧
      ∃ d ∈ t.held, ∃ c', c' <+: d ∧ t.loop.cursor.Applied c' := by
  have htip : (run (step sampleConfig) sampleSystem sampleEvents).map (fun t => t.loop.cursor.tip) =
      some (3, sampleHash 13) := by
    decide +kernel
  obtain ⟨t, hrun, ht⟩ := Option.map_eq_some_iff.mp htip
  exact ⟨t, hrun, ht, applied_on_best sampleConfig sampleSystem_starts sampleEvents_honest hrun⟩

/-- **Rules run at the node's tip.** In every such run, the applied chain before a rule pass is the whole
of a best chain the node has held, and every tip the rules have been run at was the tip of one. -/
theorem rules_at_best (cfg : Config β) {s t : System β} {c : List (RawBlock β)} (h : s.Starts c)
    {events : List (Event β)} (honest : Along (step cfg) (Honest cfg) s events)
    (hrun : run (step cfg) s events = some t) :
    (∀ day, t.loop.phase = .rules day → ∃ d ∈ t.held, t.loop.cursor.Applied d) ∧
      ∀ tip ∈ t.loop.passes, ∃ d ∈ t.held, tip.1 + 1 = d.length ∧ named RawBlock.hash d tip.1 =
        some tip.2 :=
  ⟨(h.inStep_run honest hrun).rules.ready, (h.inStep_run honest hrun).rules.passes⟩

theorem rules_at_best_fork :
    ∃ t, run (step sampleConfig) sampleSystem sampleEvents = some t ∧ t.loop.passes =
      [(3, sampleHash 13)] ∧
      ∀ tip ∈ t.loop.passes, ∃ d ∈ t.held, tip.1 + 1 = d.length ∧ named RawBlock.hash d tip.1 =
        some tip.2 := by
  have hpasses : (run (step sampleConfig) sampleSystem sampleEvents).map (fun t => t.loop.passes) =
      some [(3, sampleHash 13)] := by
    decide +kernel
  obtain ⟨t, hrun, ht⟩ := Option.map_eq_some_iff.mp hpasses
  exact ⟨t, hrun, ht, (rules_at_best sampleConfig sampleSystem_starts sampleEvents_honest hrun).2⟩

end System

end ZnsMint
