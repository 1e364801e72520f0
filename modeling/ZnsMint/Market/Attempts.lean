import ZnsMint.Lib.Strikes
import ZnsMint.Market.Notices

/-! # Wrong responses and rollbacks

`attempts` counts on the live list of challenges, and a rollback rebuilds the list from a log written
when the challenges were issued. `watched` is the market beside a record of the applied chain: what the
log says of challenges, and each wrong response that named one. `tally` is the number of wrong responses
the chain holds against a code since it was issued.

Between rollbacks the counter is the tally. After a rollback every counter is zero
(`attempts_truncateTo`), so the two part at a rollback that keeps a wrong response to a challenge it
keeps open, and only there (`attempts_survive`). -/

namespace ZnsMint.Market

open Basic Note Inbound Lib Lib.Rollback Lib.EventLog Lib.Strikes

/-! ### The chain of responses -/

/-- What the applied chain holds about challenges: a notice, or a wrong response that named one. -/
inductive Entry where
  | notice (n : Notice)
  | wrong (code : OtpCode)

/-- The challenges that an operation's response names, when none of the open ones matches it. -/
def wrongs (s : Market × Registry) (o : ℕ × MarketOp) : List OtpCode :=
  match o.2 with
  | .answer response =>
    if ∃ c ∈ s.1.challenges, Matches response c then []
    else (s.1.challenges.filter (answers response)).map MarketChallenge.code
  | _ => []

/-- What an operation logs of challenges. -/
def logged (s : Market × Registry) (o : ℕ × MarketOp) : List (ℕ × Notice) :=
  (system.step s o).1.notices.drop s.1.notices.length

/-- The market beside the chain of its responses. -/
abbrev Watched := (Market × Registry) × List (ℕ × Entry)

/-- The entries of the blocks up to a height. -/
def upTo (k : ℕ) (chain : List (ℕ × Entry)) : List (ℕ × Entry) := chain.filter fun e => decide (e.1 ≤ k)

def watched : System Watched (ℕ × MarketOp) where
  step s o := (system.step s.1 o, s.2 ++ (wrongs s.1 o).map (fun code => (o.1, .wrong code)) ++
    (logged s.1 o).map fun e => (e.1, .notice e.2))
  height := Prod.fst
  truncate s k := (system.truncate s.1 k, upTo k s.2)

/-- A code is opened where its challenge is issued, and struck by a wrong response. -/
def Entry.mark : Entry → Option (Mark OtpCode)
  | .notice (.issued c) => some (.opened c.code)
  | .notice (.closed _) => none
  | .wrong code => some (.struck code)

/-- The wrong responses the chain holds against a code since it was last issued. -/
def tally (code : OtpCode) (chain : List (ℕ × Entry)) : ℕ :=
  strikes code (chain.filterMap fun e => e.2.mark)

def Entry.notice? : Entry → Option Notice
  | .notice n => some n
  | .wrong _ => none

/-- What the chain says of challenges. -/
def noticesOf (chain : List (ℕ × Entry)) : List (ℕ × Notice) :=
  chain.filterMap fun e => e.2.notice?.map (Prod.mk e.1)

/-- Each open challenge has counted the wrong responses of the chain. -/
def Counted (s : Watched) : Prop := ∀ c ∈ s.1.1.challenges, c.attempts = tally c.code s.2

/-- The chain holds no wrong response against a code it leaves open. -/
def Unmissed (chain : List (ℕ × Entry)) : Prop := ∀ code, stands code (noticesOf chain) = true →
    tally code chain = 0

/-! ### The counters of one operation -/

/-- Every challenge of `m'` is one of `m`, and has its counter. -/
def SameAttempts (m m' : Market) : Prop := ∀ c' ∈ m'.challenges, ∃ c ∈ m.challenges, c'.code = c.code ∧
    c'.attempts = c.attempts

theorem SameAttempts.of_subset {m m' : Market} (h : ∀ c ∈ m'.challenges, c ∈ m.challenges) :
    SameAttempts m m' :=
  fun c hc => ⟨c, h c hc, rfl, rfl⟩

/-- What a wrong response leaves has counted it where it was named, and is below the cap. -/
theorem missed_attempts {response : OtpMemo} {c c' : MarketChallenge} (h : missed response c = some c') :
    c'.attempts = c.attempts + (if answers response c then 1 else 0) ∧
      (c'.attempts < MAX_ATTEMPTS ∨ c'.attempts = c.attempts) := by
  unfold missed at h
  split_ifs at h ⊢ with hans hmax
  · cases h
    exact ⟨rfl, Or.inl (by simpa using hmax)⟩
  · cases h
    exact ⟨rfl, Or.inr rfl⟩

/-- **What an operation does to the counters.** A challenge it leaves was there, and has counted the wrong
responses of the operation, or it was just issued. -/
theorem step_attempts {s : Market × Registry} (hone : OneChallengePerCode s.1) (o : ℕ × MarketOp) :
    (∀ c' ∈ (system.step s o).1.challenges, ∃ c ∈ s.1.challenges, c'.code = c.code ∧
      c'.attempts = c.attempts + (wrongs s o).count c.code ∧
      (c'.attempts < MAX_ATTEMPTS ∨ c'.attempts = c.attempts)) ∨
    ∃ c, Issues s o c := by
  obtain ⟨m, r⟩ := s
  obtain ⟨height, o⟩ := o
  have hsame : ∀ {m' : Market}, SameAttempts m m' → wrongs (m, r) (height, o) = [] →
      ∀ c' ∈ m'.challenges, ∃ c ∈ m.challenges, c'.code = c.code ∧
        c'.attempts = c.attempts + (wrongs (m, r) (height, o)).count c.code ∧
        (c'.attempts < MAX_ATTEMPTS ∨ c'.attempts = c.attempts) := by
    intro m' hm' hnone c' hc'
    obtain ⟨c, hc, hcode, hattempts⟩ := hm' c' hc'
    exact ⟨c, hc, hcode, by rw [hnone, List.count_nil, hattempts]; rfl, Or.inr hattempts⟩
  rcases o with ⟨keys, txid, request, paid, fee, mtp, pending⟩ | response | ⟨holder,
    payments, mtp⟩ | mtp |
    _ | pending | name | code | _ | ⟨records, history, anchors⟩
  · rcases admitRequest_cases keys m txid request paid r fee height mtp pending with h |
      ⟨c, -, -, -, -, -, hopen, hattempts, h⟩ | ⟨name, bob, record, otp, m', -, -, -, hbuy, h⟩
    · exact Or.inl (hsame (.of_subset fun c hc => h ▸ hc) rfl)
    · exact Or.inr ⟨c, ⟨keys, txid, request, paid, fee, mtp, pending, rfl⟩, hopen, hattempts, h⟩
    · obtain ⟨-, -, -, -, -, -, -, -, -, -, hless⟩ := openBuy_ok hbuy
      exact Or.inl (hsame (.of_subset fun c hc => (hless c (h ▸ hc)).1) rfl)
  · refine Or.inl ?_
    change ∀ c' ∈ (m.answer r response height).1.1.challenges, _
    by_cases h : ∃ c ∈ m.challenges, Matches response c
    · have hnone : wrongs (m, r) (height, .answer response) = [] := if_pos h
      obtain ⟨c, hc, hmatch⟩ := h
      rw [answer_right hone r height hc hmatch]
      refine hsame (.of_subset fun c' hc' => ?_) hnone
      rw [spent_challenges] at hc'
      exact List.mem_of_mem_erase hc'
    · have hwrong : wrongs (m, r) (height, .answer response) =
          (m.challenges.filter (answers response)).map MarketChallenge.code := if_neg h
      rw [answer_wrong hone r height fun c hc hmatch => h ⟨c, hc, hmatch⟩]
      intro c' hc'
      obtain ⟨c, hc, hmiss⟩ := List.mem_filterMap.mp hc'
      obtain ⟨hattempts, hcap⟩ := missed_attempts hmiss
      refine ⟨c, hc, missed_code hmiss, ?_, hcap⟩
      rw [hwrong, count_keys hone _ hc]
      exact hattempts
  · exact Or.inl (hsame (.of_subset fun c hc => challenges_observe m holder payments mtp height ▸ hc) rfl)
  · exact Or.inl (hsame (.of_subset fun c hc => mem_challenges_expire hc) rfl)
  · exact Or.inl (hsame (.of_subset fun c hc => (mem_challenges_reconcile hc).1) rfl)
  · exact Or.inl (hsame (.of_subset fun c hc => challenges_poll m r pending height ▸ hc) rfl)
  · exact Or.inl (hsame (.of_subset fun c hc => hc) rfl)
  · refine Or.inl (hsame (fun c' hc' => ?_) rfl)
    obtain ⟨c, hc, rfl⟩ := List.mem_map.mp hc'
    refine ⟨c, hc, ?_⟩
    split_ifs
    · exact ⟨rfl, rfl⟩
    · exact ⟨rfl, rfl⟩
  · exact Or.inl (hsame (.of_subset fun c hc => hc) rfl)
  · exact Or.inl (hsame (.of_subset fun c hc => hc) rfl)

/-! ### The chain and the log -/

theorem noticesOf_append (l l' : List (ℕ × Entry)) : noticesOf (l ++ l') = noticesOf l ++ noticesOf l' :=
  List.filterMap_append

theorem noticesOf_wrong (height : ℕ) (codes : List OtpCode) :
    noticesOf (codes.map fun code => (height, .wrong code)) = [] := by
  induction codes with
  | nil => rfl
  | cons code codes ih =>
    rw [List.map_cons]
    exact ih

theorem noticesOf_notice (l : List (ℕ × Notice)) : noticesOf (l.map fun e => (e.1, .notice e.2)) = l := by
  induction l with
  | nil => rfl
  | cons e l ih => exact congrArg (e :: ·) ih

theorem noticesOf_upTo (k : ℕ) (chain : List (ℕ × Entry)) :
    noticesOf (upTo k chain) = (noticesOf chain).filter fun e => decide (e.1 ≤ k) := by
  unfold noticesOf upTo
  rw [List.filter_filterMap, List.filterMap_filter]
  refine List.filterMap_congr fun e _ => ?_
  rcases e.2.notice? with _ | n
  · split_ifs <;> rfl
  · rw [Option.map_some, Option.filter_some]

/-- Every challenge the log issues starts at zero. -/
def Fresh (m : Market) : Prop := ∀ e ∈ m.notices, ∀ c, e.2 = .issued c → c.attempts = 0

theorem replayEvent_attempts {e : MarketEvent} (he : ∀ c, e = .challenge c → c.attempts = 0)
    {s : Market × Registry}
    (hs : ∀ c ∈ s.1.challenges, c.attempts = 0) :
    ∀ c ∈ (replayEvent s e).1.challenges, c.attempts = 0 := by
  rcases e with l | name | sale | ⟨name, paid⟩ | name | name | c | code
  · exact hs
  · exact hs
  · exact hs
  · exact hs
  · exact hs
  · exact hs
  · intro c' hc'
    simp only [replayEvent, restoreChallenge] at hc'
    split_ifs at hc'
    · exact hs c' hc'
    · rcases List.mem_append.mp hc' with hc' | hc'
      · exact hs c' hc'
      · rw [List.mem_singleton.mp hc']
        exact he c rfl
  · exact fun c hc => hs c (List.mem_filter.mp hc).1

theorem replay_attempts {events : List Stamped}
    (hfresh : ∀ e ∈ events, ∀ c, e.event = .challenge c → c.attempts = 0)
    {s : Market × Registry} (hs : ∀ c ∈ s.1.challenges, c.attempts = 0) :
    ∀ c ∈ (events.foldl (fun s e => replayEvent s e.event) s).1.challenges, c.attempts = 0 := by
  induction events generalizing s with
  | nil => exact hs
  | cons e events ih =>
    exact ih (fun e' he' => hfresh e' (List.mem_cons_of_mem _ he'))
      (replayEvent_attempts (hfresh e List.mem_cons_self) hs)

/-- **A rollback sets every counter to zero.** -/
theorem attempts_truncateTo {s : Market × Registry} (h : Fresh s.1) (k : ℕ) :
    ∀ c ∈ (system.truncate s k).1.challenges, c.attempts = 0 := by
  refine replay_attempts ?_ (fun c hc => nomatch hc)
  intro e he c hc
  refine h (e.height, .issued c) (List.mem_filterMap.mpr ⟨e, (List.mem_filter.mp he).1, ?_⟩) c rfl
  rw [noticeOf, hc]
  rfl

/-- What holds along every run: the log stands behind the market and the chain, and no counter reaches the
cap. -/
structure Coherent (s : Watched) : Prop where
  replays : sourced.Replays s.1
  notices : noticesOf s.2 = s.1.1.notices
  fresh : Fresh s.1.1
  capped : ∀ c ∈ s.1.1.challenges, c.attempts < MAX_ATTEMPTS

theorem notices_step {s : Market × Registry} (hone : OneChallengePerCode s.1) (o : ℕ × MarketOp) :
    (system.step s o).1.notices = s.1.notices ++ logged s o := by
  have hprefix : ∀ l : List (ℕ × Notice), (system.step s o).1.notices = s.1.notices ++ l →
      (system.step s o).1.notices = s.1.notices ++ logged s o := by
    intro l hl
    unfold logged
    rw [hl, List.drop_left]
  rcases step_notices hone o with ⟨codes, hcodes⟩ | ⟨c, hissues⟩
  · exact hprefix _ hcodes
  · exact hprefix _ (issues_notices hissues)

namespace Coherent

variable {s : Watched}

theorem one (h : Coherent s) : OneChallengePerCode s.1.1 := oneChallengePerCode_of_replays h.replays

theorem step (h : Coherent s) (o : ℕ × MarketOp) : Coherent (watched.step s o) where
  replays := lawful.replays_run [.op o] s.1 h.replays
  notices := by
    change noticesOf (s.2 ++ _ ++ _) = (system.step s.1 o).1.notices
    rw [noticesOf_append, noticesOf_append, noticesOf_wrong, noticesOf_notice, List.append_nil, h.notices,
      notices_step h.one]
  fresh := by
    intro e he c hc
    change e ∈ (system.step s.1 o).1.notices at he
    rcases step_notices h.one o with ⟨codes, hcodes⟩ | ⟨c', hissues⟩
    · rw [hcodes] at he
      rcases List.mem_append.mp he with he | he
      · exact h.fresh e he c hc
      · obtain ⟨code, -, rfl⟩ := List.mem_map.mp he
        cases hc
    · rw [issues_notices hissues] at he
      rcases List.mem_append.mp he with he | he
      · exact h.fresh e he c hc
      · obtain rfl := List.mem_singleton.mp he
        cases hc
        exact hissues.2.2.1
  capped := by
    intro c' hc'
    change c' ∈ (system.step s.1 o).1.challenges at hc'
    rcases step_attempts h.one o with hkept | ⟨c, hissues⟩
    · obtain ⟨c, hc, -, -, hcap | hsame⟩ := hkept c' hc'
      · exact hcap
      · rw [hsame]
        exact h.capped c hc
    · rw [hissues.2.2.2] at hc'
      rcases List.mem_append.mp hc' with hc' | hc'
      · exact h.capped c' hc'
      · rw [List.mem_singleton.mp hc', hissues.2.2.1]
        decide

theorem truncate (h : Coherent s) (k : ℕ) : Coherent (watched.truncate s k) where
  replays := lawful.truncate_view s.1 k
  notices := by
    change noticesOf (upTo k s.2) = (system.truncate s.1 k).1.notices
    rw [noticesOf_upTo, h.notices, notices_truncateTo]
  fresh := by
    intro e he
    change e ∈ (system.truncate s.1 k).1.notices at he
    rw [notices_truncateTo] at he
    exact h.fresh e (List.mem_filter.mp he).1
  capped := by
    intro c hc
    rw [attempts_truncateTo h.fresh k c hc]
    decide

end Coherent

def watchedNew : Watched := ((.new, .new), [])

theorem coherent_run (acts : List (Act (ℕ × MarketOp))) : Coherent (watched.run watchedNew acts) := by
  have hrun : ∀ (acts : List (Act (ℕ × MarketOp))) (s : Watched), Coherent s →
      Coherent (watched.run s acts) := by
    intro acts
    induction acts with
    | nil => exact fun s hs => hs
    | cons act acts ih =>
      intro s hs
      refine ih _ ?_
      rcases act with o | k
      · exact hs.step o
      · exact hs.truncate k
  exact hrun acts _ ⟨rfl, rfl, (fun e he => nomatch he), fun c hc => nomatch hc⟩

/-! ### The tally of one operation -/

theorem marks_wrong (height : ℕ) (codes : List OtpCode) :
    (codes.map fun code => (height, Entry.wrong code)).filterMap (fun e => e.2.mark) =
    codes.map .struck := by
  rw [List.filterMap_map, ← List.filterMap_eq_map]
  rfl

/-- The tally after an operation that issues no challenge grows by the operation's wrong responses. -/
theorem tally_step {s : Watched} {o : ℕ × MarketOp} (h : ∀ e ∈ logged s.1 o, ∀ c, e.2 ≠ .issued c)
    (code : OtpCode) :
    tally code (watched.step s o).2 = tally code s.2 + (wrongs s.1 o).count code := by
  have hquiet : ((logged s.1 o).map fun e => (e.1, Entry.notice e.2)).filterMap (fun e => e.2.mark) =
      [] := by
    refine List.filterMap_eq_nil_iff.mpr fun e he => ?_
    obtain ⟨⟨k, n⟩, hn, rfl⟩ := List.mem_map.mp he
    rcases n with c | code'
    · exact absurd rfl (h _ hn c)
    · rfl
  change tally code (s.2 ++ _ ++ _) = _
  unfold tally
  rw [List.filterMap_append, List.filterMap_append, hquiet, List.append_nil, marks_wrong,
    strikes_append_struck]

theorem logged_of_onlyCloses {s : Market × Registry} {o : ℕ × MarketOp}
    (h : OnlyCloses o.1 s.1 (system.step s o).1) :
    ∀ e ∈ logged s o, ∀ c, e.2 ≠ .issued c := by
  obtain ⟨codes, hcodes⟩ := h
  unfold logged
  rw [hcodes, List.drop_left]
  intro e he c
  obtain ⟨code, -, rfl⟩ := List.mem_map.mp he
  exact Notice.noConfusion

theorem logged_of_issues {s : Market × Registry} {o : ℕ × MarketOp} {c : MarketChallenge}
    (h : Issues s o c) :
    logged s o = [(o.1, .issued c)] := by
  unfold logged
  rw [issues_notices h, List.drop_left]

theorem wrongs_of_issues {s : Market × Registry} {o : ℕ × MarketOp} {c : MarketChallenge}
    (h : Issues s o c) :
    wrongs s o = [] := by
  obtain ⟨⟨keys, txid, request, paid, fee, mtp, pending, ho⟩, -⟩ := h
  unfold wrongs
  rw [ho]

/-- The marks after an operation that issues a challenge. -/
theorem marks_issues {s : Watched} {o : ℕ × MarketOp} {c : MarketChallenge} (h : Issues s.1 o c) :
    ((watched.step s o).2.filterMap fun e => e.2.mark) = (s.2.filterMap fun e => e.2.mark) ++
    [.opened c.code] := by
  change ((s.2 ++ _ ++ _).filterMap _) = _
  rw [wrongs_of_issues h, logged_of_issues h, List.filterMap_append, List.filterMap_append]
  simp [Entry.mark]

/-- **Between rollbacks the counters follow the chain.** -/
theorem Counted.step {s : Watched} (hs : Coherent s) (h : Counted s) (o : ℕ × MarketOp) :
    Counted (watched.step s o) := by
  intro c' hc'
  change c' ∈ (system.step s.1 o).1.challenges at hc'
  by_cases hissues : ∃ c, Issues s.1 o c
  · obtain ⟨c, hissues⟩ := hissues
    unfold tally
    rw [marks_issues hissues]
    rw [hissues.2.2.2] at hc'
    rcases List.mem_append.mp hc' with hc' | hc'
    · have hne : c.code ≠ c'.code := by
        intro hcode
        have hopen := hissues.2.1
        rw [codeIsOpen, List.any_eq_false] at hopen
        exact hopen c' hc' (by simp [hcode])
      rw [strikes_append_opened_of_ne hne]
      exact h c' hc'
    · rw [List.mem_singleton.mp hc', hissues.2.2.1, strikes_append_opened_self]
  · have hcloses := (step_notices hs.one o).resolve_right hissues
    obtain ⟨c, hc, hcode, hattempts, -⟩ := (step_attempts hs.one o).resolve_right hissues c' hc'
    rw [tally_step (logged_of_onlyCloses hcloses), hattempts, hcode, h c hc]

/-- **At a rollback they follow it** just where the rollback keeps no wrong response to a challenge it
keeps open. -/
theorem counted_truncate {s : Watched} (hs : Coherent s) (k : ℕ) :
    Counted (watched.truncate s k) ↔ Unmissed (upTo k s.2) := by
  have hcut := hs.truncate k
  have hzero : ∀ c ∈ (watched.truncate s k).1.1.challenges, c.attempts = 0 :=
    attempts_truncateTo hs.fresh k
  have hopen : ∀ code, (watched.truncate s k).1.1.codeIsOpen code =
      stands code (noticesOf (upTo k s.2)) := by
    intro code
    rw [codeIsOpen_eq_stands hcut.replays, ← hcut.notices]
    rfl
  constructor
  · intro h code hstands
    rw [← hopen, codeIsOpen, List.any_eq_true] at hstands
    obtain ⟨c, hc, hcode⟩ := hstands
    rw [beq_iff_eq] at hcode
    have htally := h c hc
    rw [hzero c hc, hcode] at htally
    exact htally.symm
  · intro h c hc
    rw [hzero c hc]
    refine (h c.code ?_).symm
    rw [← hopen, codeIsOpen, List.any_eq_true]
    exact ⟨c, hc, beq_self_eq_true _⟩

/-- Every rollback of the run keeps no wrong response to a challenge it keeps open. -/
def RollsBackUnmissed (acts : List (Act (ℕ × MarketOp))) : Prop :=
  ∀ before k after, acts = before ++ .truncate k :: after →
    Unmissed (upTo k (watched.run watchedNew before).2)

/-- **Which rollbacks the attempt cap survives.** Along a run every open challenge has counted the wrong
responses of the applied chain that name it, in every state, if and only if no rollback of the run keeps
a wrong response to a challenge it keeps open. In such a run no challenge is open, and so none is
accepted, that the chain holds the tolerated number of wrong responses against. -/
theorem attempts_survive (acts : List (Act (ℕ × MarketOp))) :
    ((∀ before after, acts = before ++ after → Counted (watched.run watchedNew before)) ↔
    RollsBackUnmissed acts) ∧
    (RollsBackUnmissed acts → ∀ before after, acts = before ++ after →
      ∀ c ∈ (watched.run watchedNew before).1.1.challenges,
        tally c.code (watched.run watchedNew before).2 < MAX_ATTEMPTS) := by
  have hcounted : RollsBackUnmissed acts → ∀ before after, acts = before ++ after →
      Counted (watched.run watchedNew before) := by
    intro h before
    induction before using List.reverseRecOn with
    | nil => exact fun _ _ c hc => nomatch hc
    | append_singleton before act ih =>
      intro after hacts
      rw [List.append_assoc, List.singleton_append] at hacts
      have hbefore := ih (act :: after) hacts
      rw [System.run_append]
      rcases act with o | k
      · exact hbefore.step (coherent_run before) o
      · exact (counted_truncate (coherent_run before) k).mpr (h before k after hacts)
  refine ⟨⟨?_, hcounted⟩, ?_⟩
  · intro h before k after hacts
    have hcut := h (before ++ [.truncate k]) after
      (by rw [hacts, List.append_assoc, List.singleton_append])
    rw [System.run_append] at hcut
    exact (counted_truncate (coherent_run before) k).mp hcut
  · intro h before after hacts c hc
    rw [← hcounted h before after hacts c hc]
    exact (coherent_run before).capped c hc

/-- A response to the challenge of the sample listing, with another code. -/
def guess : MarketOp := .answer { (newChallenge (.list sampleListing) listingCode 10).memo with code :=
  strayCode }

/-- Five guesses in block 6, and a reorg that drops the block. -/
def sampleDropped : List (Act (ℕ × MarketOp)) := sampleProposal ++ List.replicate 5 (.op (6, guess)) ++
    [.truncate 5]

theorem attempts_survive_dropped :
    RollsBackUnmissed sampleDropped ∧ Counted (watched.run watchedNew sampleDropped) := by
  have hnone : ∀ k, Act.truncate k ∉ sampleProposal ++ List.replicate 5 (.op (6, guess)) := by
    simp [sampleProposal]
  have hsplit : ∀ before k after, sampleDropped = before ++ .truncate k :: after →
      before = sampleProposal ++ List.replicate 5 (.op (6, guess)) ∧ k = 5 := by
    intro before k after h
    rcases List.append_eq_append_iff.mp h with ⟨l, hl, h⟩ | ⟨l, hl, h⟩
    · rcases l with _ | ⟨act, l⟩
      · cases h
        exact ⟨hl.trans (List.append_nil _), rfl⟩
      · simp at h
    · rcases l with _ | ⟨act, l⟩
      · cases h
        exact ⟨(hl.trans (List.append_nil _)).symm, rfl⟩
      · obtain ⟨rfl, -⟩ := List.cons.inj h
        exact absurd (hl ▸ List.mem_append_right _ List.mem_cons_self) (hnone k)
  have hkept : RollsBackUnmissed sampleDropped := by
    intro before k after h
    obtain ⟨rfl, rfl⟩ := hsplit before k after h
    have hchain : upTo 5 (watched.run watchedNew
      (sampleProposal ++ List.replicate 5 (.op (6, guess)))).2 =
        [(5, .notice (.issued (newChallenge (.list sampleListing) listingCode 10)))] := rfl
    rw [hchain]
    intro code _
    simp [tally, strikes, Entry.mark, Mark.count]
  exact ⟨hkept, (attempts_survive sampleDropped).1.mpr hkept sampleDropped [] (List.append_nil _).symm⟩

/-- Five guesses in block 6, a reorg that keeps block 6, and five guesses in block 7. -/
def sampleGuesses : List (Act (ℕ × MarketOp)) :=
  sampleProposal ++ List.replicate 5 (.op (6, guess)) ++ [.op (7, .expire 20), .truncate 6] ++
    List.replicate 5 (.op (7, guess))

/-- The chain holds ten wrong responses to the challenge, its counter stands at five, and the right code
is accepted. -/
theorem attempts_survive_forgotten :
    ∃ c ∈ (watched.run watchedNew sampleGuesses).1.1.challenges, c.attempts = 5 ∧
      tally c.code (watched.run watchedNew sampleGuesses).2 = 10 ∧
      MAX_ATTEMPTS ≤ tally c.code (watched.run watchedNew sampleGuesses).2 ∧
      ((watched.run watchedNew sampleGuesses).1.1.answer (watched.run watchedNew sampleGuesses).1.2 c.memo
        8).2 = true :=
  ⟨{ newChallenge (.list sampleListing) listingCode 10 with attempts := 5 }, by decide +kernel, rfl,
    by decide +kernel, by decide +kernel, by decide +kernel⟩

end ZnsMint.Market
