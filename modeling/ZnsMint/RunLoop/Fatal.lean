import ZnsMint.RunLoop.Progress

/-! # What stops the process

The loop stops the process in nine places. Beside a node that refuses nothing outright, whose chains go
through the boot origin and keep the rule on header times, and with trees that retain what is rewound to,
none of them is ever reached but the one in the rules. -/

namespace ZnsMint

open Basic Wallet Zebra Lib.HashChain Lib.Machine ZnsMint.System

variable {β : Type} {cfg : Config β}

/-! ### Refusals -/

namespace Zebra

variable {α : Type}

/-- The outcome is an answer, or an error after which the loop asks again or starts over. -/
def Again (a : Answer α) : Bool :=
  match a with
  | .ok _ => true
  | .error error => (notOnBestChain error).headerRetries

theorem getBlockHash_again {a : Answer (BlockAndHash β)} (ha : Again a = true) {error : TransportError}
    (h : getBlockHash a = .error error) : error.headerRetries = true := by
  rcases a with e | b
  · cases h
    exact ha
  · unfold getBlockHash at h
    simp only [Except.mapError, bind, Except.bind] at h
    split at h
    · cases h
    · cases h
      rfl

theorem getBlock_again {height : ℕ} {a : Answer (BlockAndHash β)} (ha : Again a = true)
    {error : TransportError}
    (h : getBlock height a = .error error) : error.headerRetries = true := by
  rcases a with e | b
  · cases h
    exact ha
  · have hread : blockFromWire b.data height = .error error := h
    unfold blockFromWire at hread
    split at hread
    · cases hread
      rfl
    · split_ifs at hread
      · cases hread
        rfl

theorem headerTime_again {readTime : List UInt8 → Option ℕ} {a : Answer (Option (List UInt8))}
    (ha : Again a = true)
    {error : TransportError} (h : headerTime readTime a = .error error) : error.headerRetries = true := by
  rcases a with e | - | b
  · cases h
    exact ha
  · cases h
    rfl
  · unfold headerTime nonNull at h
    simp only [Except.mapError, bind, Except.bind] at h
    split at h
    · cases h
      rfl
    · split at h
      · cases h
        rfl
      · cases h

/-- A tip that cannot be read is asked for again. -/
theorem exactTip_again {a : Answer (Option BlockchainInfo)}
    (ha : ∀ error, a = .error error → error.isRetryable = true) {error : TransportError}
    (h : Zebra.exactTip a = .error error) : error.isRetryable = true := by
  rcases a with e | - | info
  · cases h
    exact ha _ rfl
  · cases h
    rfl
  · have hread : info.canonicalTip = .error error := h
    unfold BlockchainInfo.canonicalTip at hread
    split at hread
    · cases hread
      rfl
    · split at hread
      · cases hread
        rfl
      · cases hread

/-- The error is one that is asked again. -/
def Retried (a : Answer α) : Bool :=
  match a with
  | .ok _ => true
  | .error error => error.isRetryable

theorem Retried.isRetryable {a : Answer α} (ha : Retried a = true) (error : TransportError)
    (h : a = .error error) :
    error.isRetryable = true := by
  subst h
  exact ha

end Zebra

namespace RunLoop

variable {s : RunLoop} {c best : List (RawBlock β)} {height : ℕ}

/-! ### Running on -/

/-- Nothing but the rules has stopped the process, and a walk asks at a height the wallet has a hash
of. -/
structure Running (s : RunLoop) : Prop where
  fatal : ∀ why, s.phase = .fatal why → why = .rules
  walk : ∀ till ancestor, s.phase = .walk till ancestor →
    ∃ hash, s.cursor.blockHashAt ancestor = some hash

theorem Running.of_clean {p : Phase} (hphase : s.phase = p) (hfatal : ∀ why, p ≠ .fatal why)
    (hwalk : ∀ till ancestor, p ≠ .walk till ancestor) : s.Running := by
  refine ⟨fun why hwhy => ?_, fun till ancestor hask => ?_⟩
  · exact absurd (hphase.symm.trans hwhy) (hfatal why)
  · exact absurd (hphase.symm.trans hask) (hwalk till ancestor)

theorem running_walkAt (h : s.cursor.Applied c) {till : ℕ} (hseed : s.cursor.seed.1 ≤ height)
    (hle : height ≤ s.cursor.tip.1) : (s.walkAt till height).Running := by
  have htip := h.tip.1
  obtain ⟨hash, hhash⟩ := named_isSome RawBlock.hash (show height < c.length by omega)
  have hown : s.cursor.blockHashAt height = some hash := by
    rw [h.blockHashAt, if_pos hseed]
    exact hhash
  have hwalk : s.walkAt till height = { s with phase := .walk till height } := by
    unfold walkAt
    rw [hown]
  rw [hwalk]
  refine ⟨fun why hwhy => (nomatch hwhy), fun till' ancestor hask => ?_⟩
  obtain ⟨rfl, rfl⟩ := Phase.walk.inj hask
  exact ⟨hash, hown⟩

theorem running_startPass (h : s.cursor.Applied c) {till : ℕ} (hseed : s.cursor.seed.1 ≤ till) :
    (s.startPass till).Running := by
  have hle := h.seed_le_tip
  exact running_walkAt h (le_min hle hseed) (min_le_left _ _)

theorem running_catchUp (s : RunLoop) (till : ℕ) (day : ℤ) : (s.catchUp till day).Running := by
  unfold catchUp
  split_ifs
  · exact .of_clean rfl nofun nofun
  · exact .of_clean rfl nofun nofun

theorem running_enterCatchUp (cfg : Config β) {now : ℤ} (hnow : s.mtp.current = some now) (till : ℕ) :
    (s.enterCatchUp cfg till).Running := by
  obtain ⟨day, hday⟩ := currentDay_isSome hnow cfg.birthday
  unfold enterCatchUp
  rw [hday]
  exact running_catchUp s till day

/-- A clock that has been given a header tells the time. -/
theorem current_update_isSome (m : MtpTracker) (height time : ℕ) : ∃ now, (m.update height time).current =
    some now := by
  have hpos : 0 < (m.update height time).stamps.length := by
    rw [MtpTracker.stamps_update, List.length_append, List.length_singleton]
    omega
  have hsome := Lib.OrderStatistic.nth_isSome_iff (l := (m.update height time).stamps)
    (k := (m.update height time).stamps.length / 2) |>.mpr (by omega)
  obtain ⟨x, hx⟩ := Option.isSome_iff_exists.mp hsome
  exact ⟨x, MtpTracker.current_eq_some.mpr ⟨x, hx, rfl⟩⟩

/-! ### Each await -/

/-- What the trees have to retain: the height both sides name the same block at. -/
def Phase.Retained (cfg : Config β) (k : Cursor) (a : Answer (BlockAndHash β)) : Phase → Prop
  | .walk _ ancestor => Says (getBlockHash a) fun hash =>
      k.blockHashAt ancestor = some hash → cfg.retains k ancestor = true
  | _ => True

instance (cfg : Config β) (k : Cursor) (a : Answer (BlockAndHash β)) : ∀ p :
    Phase, Decidable (p.Retained cfg k a)
  | .walk .. => inferInstanceAs (Decidable (Says _ _))
  | .nextTip | .canonicalTip | .catchUp .. | .backfill .. | .price _ | .exactTip _ | .rules
    _ | .fatal _ =>
    isTrue trivial

/-- The node refuses nothing outright and announces no tip below the origin; the trees retain what is
rewound to. -/
def Obliges (cfg : Config β) (s : RunLoop) : Reply β → Prop
  | .announced a => Says (Reply.announced a : Reply β).announcement fun tip =>
    ∀ t ∈ tip, s.cursor.seed.1 ≤ t.1
  | .tip a => Retried a = true
  | .block a => Again a = true ∧ s.phase.Retained cfg s.cursor a
  | .header a => Again a = true
  | .round .. => True
  | .rules .. => True

instance (cfg : Config β) (s : RunLoop) : ∀ r : Reply β, Decidable (s.Obliges cfg r)
  | .announced _ => inferInstanceAs (Decidable (Says _ _))
  | .tip _ | .header _ => inferInstanceAs (Decidable (_ = _))
  | .block _ => inferInstanceAs (Decidable (_ ∧ _))
  | .round .. | .rules .. => isTrue trivial

theorem running_onAnnounced (h : s.cursor.Applied c) {a : Option (Except Code BlockHashAndHeight)}
    (ha : s.Obliges cfg (.announced a : Reply β)) : (s.onAnnounced a).Running := by
  unfold onAnnounced
  split
  · rename_i n
    split
    · rename_i tip htip
      have hread : tip ∈ (tipHeightHash n).toOption := by
        rw [htip]
        rfl
      exact running_startPass h (ha tip hread)
    · exact .of_clean rfl nofun nofun
  · exact .of_clean rfl nofun nofun
  · exact .of_clean rfl nofun nofun

theorem running_onCanonicalTip (hs : s.Running) (h : s.cursor.Applied c)
    (hseed : named RawBlock.hash best s.cursor.seed.1 = some s.cursor.seed.2)
    {a : Answer (Option BlockchainInfo)}
    (htold : s.Truthful cfg best (.tip a)) (ha : Retried a = true) : (s.onCanonicalTip a).Running := by
  unfold onCanonicalTip
  split
  · rename_i tip htip
    have hword : Says (Zebra.exactTip a) (AtTip best) := htold
    have hlen := (hword.of_ok htip).1
    have hlt := lt_of_named hseed
    exact running_startPass h (by omega)
  · rename_i error herror
    rw [if_pos (exactTip_again (Retried.isRetryable ha) herror)]
    exact hs

theorem running_onAncestor (hs : s.Running) (h : s.cursor.Applied c)
    (hseed : named RawBlock.hash best s.cursor.seed.1 = some s.cursor.seed.2) {now : ℤ}
    (hnow : s.mtp.current = some now) {till : ℕ} (hphase : s.phase = .walk till height)
    {a : Answer (BlockAndHash β)}
    (htold : s.Truthful cfg best (.block a)) (ha : Again a = true)
    (hretained : s.phase.Retained cfg s.cursor a) :
    (s.onAncestor cfg till height a).Running := by
  obtain ⟨own, hown⟩ := hs.walk till height hphase
  unfold onAncestor
  split
  · rename_i error herror
    have hagain := getBlockHash_again ha herror
    split_ifs with hretry hraced
    · exact hs
    · exact .of_clean rfl nofun nofun
    · -- no other error comes back
      unfold TransportError.headerRetries at hagain
      rw [Bool.or_eq_true, beq_iff_eq] at hagain
      exact absurd hagain (not_or.mpr ⟨hretry, hraced⟩)
  · rename_i hash hhash
    have hbest : named RawBlock.hash best height = some hash := by
      have hword : s.phase.SaysBlock best s.cursor.tip.1 a := htold
      rw [hphase] at hword
      exact Says.of_ok (P := fun hash => named RawBlock.hash best height = some hash) hword hhash
    split_ifs with hsame hzero
    · unfold found
      split_ifs with hbelow
      · have hkept : cfg.retains s.cursor height = true := by
          rw [hphase] at hretained
          exact Says.of_ok (P := fun hash => s.cursor.blockHashAt height = some hash →
            cfg.retains s.cursor height = true) hretained hhash hsame
        rw [h.truncateTo hsame hbelow, if_pos hkept]
        exact .of_clean rfl nofun nofun
      · exact running_enterCatchUp cfg hnow till
    all_goals
      -- at the origin both sides name the same block
      have hne : height ≠ s.cursor.seed.1 := by
        rintro rfl
        have hle := h.blockHashAt s.cursor.seed.1
        rw [if_pos le_rfl, h.seed] at hle
        exact hsame (hle.trans (hseed.symm.trans hbest))
      have habove := (h.of_blockHashAt hown).1
    · omega
    · have hlt := lt_of_named (h.of_blockHashAt hown).2
      have htip := h.tip.1
      exact running_walkAt h (by omega) (by omega)

theorem running_onHeader (hs : s.Running) {till : ℕ} {window : MtpTracker}
    {a : Answer (Option (List UInt8))}
    (ha : Again a = true) : (s.onHeader cfg till window height a).Running := by
  unfold onHeader
  split
  · rename_i error herror
    rw [if_pos (headerTime_again ha herror)]
    exact hs
  · rename_i time htime
    obtain ⟨now, hnow⟩ := current_update_isSome window height time
    dsimp only
    split_ifs
    · unfold rebuilt
      rw [hnow]
      exact running_enterCatchUp (s := { s with mtp := _, live := _ }) cfg hnow till
    · exact .of_clean rfl nofun nofun

/-- A block that extends the applied chain lies on the node's best chain, which is then timely up to
it. -/
theorem running_onBlock (hs : s.Running) (h : s.cursor.Applied c) (hclock : s.mtp.blocktimes =
    MtpTracker.window (times c) s.cursor.tip.1) (htimely : Timely best) {till : ℕ} {day : ℤ}
    {a : Answer (BlockAndHash β)} (ha : Again a = true)
    (hbelow : ∀ block, getBlock (s.cursor.tip.1 + 1) a = .ok block → block.prevBlock = s.cursor.tip.2 →
      c ++ [block] <+: best) : (s.onBlock cfg till day a).Running := by
  unfold onBlock
  split
  · rename_i error herror
    have hagain := getBlock_again ha herror
    split_ifs with hretry hraced
    · exact hs
    · exact .of_clean rfl nofun nofun
    · unfold TransportError.headerRetries at hagain
      rw [Bool.or_eq_true, beq_iff_eq] at hagain
      exact absurd hagain (not_or.mpr ⟨hretry, hraced⟩)
  · rename_i block hblock
    split_ifs with hprev
    · exact .of_clean rfl nofun nofun
    · have hon := hbelow block hblock (not_not.mp hprev)
      have htip := h.tip.1
      have hlen := hon.length_le
      rw [List.length_append, List.length_singleton] at hlen
      have hwindow : s.mtp.blocktimes = MtpTracker.window (times best) s.cursor.tip.1 := by
        rw [hclock]
        refine MtpTracker.window_congr fun j hj => ?_
        exact (times_of_isPrefix ((List.prefix_append c [block]).trans hon) (by omega)).symm
      have htime : times best (s.cursor.tip.1 + 1) = block.time := by
        rw [times_of_isPrefix hon (by rw [List.length_append, List.length_singleton]; omega), htip,
          times_concat]
      have haccept := htimely.headerTimeOk (by omega) hwindow
      rw [htime] at haccept
      obtain ⟨now, hnow⟩ := current_update_isSome s.mtp (s.cursor.tip.1 + 1) block.time
      unfold extend
      rw [haccept]
      dsimp only
      rw [hnow]
      exact running_catchUp _ till day

theorem running_onRound {now : ℤ} (hnow : s.mtp.current = some now) (day : ℤ) (price : Option ℚ)
    (rows : Option (List Presale.ProtectedRow × ℕ × Option ℕ)) :
    (s.onRound cfg day price rows).Running := by
  obtain ⟨today, htoday⟩ := currentDay_isSome hnow cfg.birthday
  unfold onRound
  rw [hnow, htoday]
  exact .of_clean rfl nofun nofun

theorem running_onExactTip (hs : s.Running) (day : ℤ) (a : Answer (Option BlockchainInfo)) :
    (s.onExactTip day a).Running := by
  unfold onExactTip
  split
  · split_ifs
    · exact hs
    · exact .of_clean rfl nofun nofun
  · split_ifs
    · exact .of_clean rfl nofun nofun
    · exact .of_clean rfl nofun nofun

theorem running_onRules {now : ℤ} (hnow : s.mtp.current = some now) (day : ℤ)
    (fee : Answer (Option StandardFee))
    (env : TipEnv) : (s.onRules cfg day fee env).Running := by
  obtain ⟨today, htoday⟩ := currentDay_isSome hnow cfg.birthday
  unfold onRules
  rw [htoday]
  dsimp only
  split
  · refine ⟨fun why hwhy => (Phase.fatal.inj hwhy).symm, fun till ancestor hask => nomatch hask⟩
  · exact .of_clean rfl nofun nofun

/-! ### Every await -/

theorem seed_truncateTo {k k' : Cursor} {retains : ℕ → Bool} (h : k.truncateTo retains height = some k') :
    k'.seed = k.seed := by
  unfold Cursor.truncateTo at h
  split at h
  · split_ifs at h
    cases h
    rfl
  · split_ifs at h
    · cases h
      rfl
    · cases h
      rfl

/-- The origin is where boot left it. -/
theorem seed_of_moves {t : RunLoop} {r : Reply β} (hmove : Moves cfg s r t) :
    t.cursor.seed = s.cursor.seed := by
  cases hmove with
  | rewinds hphase ha hsame hbelow htruncate => exact seed_truncateTo htruncate
  | stays | goes | fails | reads | rebuilds | «extends» | prices | checks | skips | rules => rfl

end RunLoop

namespace System

open RunLoop

variable {s t : System β} {c : List (RawBlock β)}

/-- The node obliges, and every best chain of it goes through the boot origin and keeps the rule on
header times. -/
def Obliges (cfg : Config β) (s : System β) : Event β → Prop
  | .moved best =>
    named RawBlock.hash best s.loop.cursor.seed.1 = some s.loop.cursor.seed.2 ∧ Timely best
  | .replied r => s.loop.Obliges cfg r

instance (cfg : Config β) (s : System β) : ∀ e : Event β, Decidable (s.Obliges cfg e)
  | .moved _ => inferInstanceAs (Decidable (_ ∧ _))
  | .replied r => inferInstanceAs (Decidable (s.loop.Obliges cfg r))

/-- What a run beside such a node keeps. -/
structure OnGuard (s : System β) : Prop where
  onTime : s.OnTime
  running : s.loop.Running
  seed : named RawBlock.hash s.best s.loop.cursor.seed.1 = some s.loop.cursor.seed.2
  timely : Timely s.best

theorem running_step (h : s.OnGuard) {r : Reply β} (honest : s.loop.Truthful cfg s.best r)
    (hr : s.loop.Obliges cfg r) : (s.loop.step cfg r).Running := by
  obtain ⟨hsound, haligned, c, hc, htimed⟩ := h.onTime
  have hnow : ∀ {p : RunLoop.Phase}, s.loop.phase = p → ¬ p.Filling → ¬ p.Stopped →
      s.loop.mtp.current = some s.loop.live.mtp := by
    rintro p rfl hfilling hstopped
    exact (haligned.tip hfilling hstopped).2
  unfold RunLoop.step
  split
  · exact running_onAnnounced hc.applied hr
  · exact running_onCanonicalTip h.running hc.applied h.seed honest hr
  · rename_i till ancestor a hphase
    exact running_onAncestor h.running hc.applied h.seed (hnow hphase id id) hphase honest hr.1 hr.2
  · exact running_onHeader h.running hr
  · rename_i till day a hphase
    have hclock := htimed.clock (by rw [hphase]; exact id) (by rw [hphase]; exact id)
    refine running_onBlock h.running hc.applied hclock h.timely hr.1 fun block hblock hprev => ?_
    exact (hc.extend hsound (honest.of_catchUp hphase hblock) hprev
      (l := { s.loop with cursor := s.loop.cursor.push block.hash }) rfl).2
  · rename_i day price rows hphase
    exact running_onRound (hnow hphase id id) day price rows
  · exact running_onExactTip h.running _ _
  · rename_i day fee env hphase
    exact running_onRules (hnow hphase id id) day fee env
  · exact h.running

theorem OnGuard.step (h : s.OnGuard) {e : Event β} (he : (Honest cfg s e ∧ s.Steady e) ∧ s.Obliges cfg e)
    (hstep : s.step cfg e = some t) : t.OnGuard := by
  have htime := h.onTime.step he.1 hstep
  rcases e with best | r
  · obtain rfl := Option.some.inj hstep
    exact ⟨htime, h.running, he.2.1, he.2.2⟩
  · obtain rfl := Option.some.inj hstep
    refine ⟨htime, running_step h he.1.1 he.2, ?_, h.timely⟩
    show named RawBlock.hash s.best (s.loop.step cfg r).cursor.seed.1 =
      some (s.loop.step cfg r).cursor.seed.2
    rw [seed_of_moves (RunLoop.moves_step cfg s.loop r)]
    exact h.seed

/-- **Nothing but the rules stops the process.** Beside an honest node that refuses nothing outright,
whose best chains replace one another but go through the rewound tip whenever a header for the clock is
given (`Steady`), and all go through the boot origin and keep the rule on header times, and with trees
that retain what is rewound to, no run stops outside the rules. -/
theorem stops_in_rules (cfg : Config β) (h : s.Starts c) (haligned : s.loop.Aligned)
    (hclock : s.loop.mtp.blocktimes = MtpTracker.window (times c) s.loop.cursor.tip.1)
    (hseed : named RawBlock.hash s.best s.loop.cursor.seed.1 = some s.loop.cursor.seed.2)
    (htimely : Timely s.best)
    {events : List (Event β)}
    (honest : Along (step cfg) (fun s e => (Honest cfg s e ∧ s.Steady e) ∧ s.Obliges cfg e) s events)
    (hrun : run (step cfg) s events = some t) : ∀ why, t.loop.phase = .fatal why → why = .rules := by
  have hstart : s.OnGuard := ⟨h.onTime haligned hclock, .of_clean h.phase nofun nofun, hseed, htimely⟩
  exact (run_invariant (fun _ _ _ hs he hstep => hs.step he hstep) events s t hstart honest
    hrun).running.fatal

theorem stops_in_rules_fork :
    ∃ t, run (step sampleConfig) sampleSystem sampleEvents = some t ∧ t.loop.passes =
      [(3, sampleHash 13)] ∧
      ∀ why, t.loop.phase = .fatal why → why = .rules := by
  have hpasses : (run (step sampleConfig) sampleSystem sampleEvents).map (fun t => t.loop.passes) =
      some [(3, sampleHash 13)] := by
    decide +kernel
  have honest : Along (step sampleConfig)
      (fun s e => (Honest sampleConfig s e ∧ s.Steady e) ∧ s.Obliges sampleConfig e) sampleSystem
        sampleEvents := by
    decide +kernel
  obtain ⟨t, hrun, ht⟩ := Option.map_eq_some_iff.mp hpasses
  exact ⟨t, hrun, ht, stops_in_rules sampleConfig sampleSystem_starts sampleStart_aligned (by decide) rfl
    (by decide +kernel) honest hrun⟩

end System

end ZnsMint
