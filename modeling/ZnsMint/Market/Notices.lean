import ZnsMint.Market.Answers

/-! # What the log says of challenges

`notices` is the part of the event log that is about challenges, and a code stands open as the last
notice of it has it (`codeIsOpen_eq_stands`). An operation logs that some challenges closed, or the one
it issues (`step_notices`). So a challenge that was answered stays closed, until its code is issued again
or the block of the answer is rolled back. -/

namespace ZnsMint.Market

open Basic Note Inbound Lib Lib.Rollback Lib.EventLog

variable {m : Market} {response : OtpMemo}

/-! ### Notices -/

/-- An event about a challenge. -/
inductive Notice where
  | issued (c : MarketChallenge)
  | closed (code : OtpCode)

def notice : MarketEvent → Option Notice
  | .challenge c => some (.issued c)
  | .challengeClosed code => some (.closed code)
  | _ => none

def noticeOf (e : Stamped) : Option (ℕ × Notice) := (notice e.event).map (Prod.mk e.height)

/-- The events about challenges, with their heights. -/
def notices (m : Market) : List (ℕ × Notice) := m.events.filterMap noticeOf

/-- Whether a code stands open after one more notice. -/
def Notice.leaves (code : OtpCode) (opened : Bool) : Notice → Bool
  | .issued c => opened || c.code == code
  | .closed code' => opened && code' != code

/-- Whether the log leaves a code open. -/
def stands (code : OtpCode) (l : List (ℕ × Notice)) : Bool :=
  l.foldl (fun opened e => e.2.leaves code opened) false

theorem any_filter_ne (code code' : OtpCode) (l : List MarketChallenge) :
    ((l.filter fun c => decide (c.code ≠ code')).any fun c => c.code == code) =
      ((l.any fun c => c.code == code) && code' != code) := by
  rw [Bool.eq_iff_iff, List.any_eq_true, Bool.and_eq_true, List.any_eq_true]
  constructor
  · rintro ⟨c, hc, hcode⟩
    obtain ⟨hcl, hne⟩ := List.mem_filter.mp hc
    rw [beq_iff_eq] at hcode
    rw [decide_eq_true_eq, hcode] at hne
    exact ⟨⟨c, hcl, by simpa using hcode⟩, by simpa [bne_iff_ne] using Ne.symm hne⟩
  · rintro ⟨⟨c, hc, hcode⟩, hne⟩
    rw [beq_iff_eq] at hcode
    rw [bne_iff_ne, ← hcode] at hne
    exact ⟨c, List.mem_filter.mpr ⟨hc, by simpa using Ne.symm hne⟩, by simpa using hcode⟩

theorem any_apply (code : OtpCode) (b : Book) (e : MarketEvent) :
    ((b.apply (eraseEvent e)).challenges.any fun c => c.code == code) =
      ((notice e).elim id fun n opened => n.leaves code opened)
        (b.challenges.any fun c => c.code == code) := by
  rcases e with l | name | sale | ⟨name, paid⟩ | name | name | c | closed
  · rfl
  · rfl
  · rfl
  · rfl
  · rfl
  · rfl
  · simp only [eraseEvent, Book.apply, notice, Option.elim, Notice.leaves]
    split_ifs with hheld
    · by_cases hcode : c.code = code
      · rw [eraseChallenge_code, hcode] at hheld
        rw [hheld, Bool.true_or]
      · simp [hcode]
    · simp
  · exact any_filter_ne code closed b.challenges

theorem any_replay (code : OtpCode) (events : List Stamped) (b : Book) :
    (((events.map fun e => (e.height, eraseEvent e.event)).foldl
    (fun b e => b.apply e.2) b).challenges.any
        fun c => c.code == code) =
      (events.filterMap noticeOf).foldl (fun opened e => e.2.leaves code opened)
        (b.challenges.any fun c => c.code == code) := by
  induction events generalizing b with
  | nil => rfl
  | cons e events ih =>
    rw [List.map_cons, List.foldl_cons, ih, any_apply]
    rcases h : notice e.event with _ | n
    · rw [List.filterMap_cons_none (by rw [noticeOf, h]; rfl)]
      rfl
    · rw [List.filterMap_cons_some (b := (e.height, n)) (by rw [noticeOf, h]; rfl)]
      rfl

/-- **A code is open where the log leaves it open.** -/
theorem codeIsOpen_eq_stands {s : Market × Registry} (h : sourced.Replays s) (code : OtpCode) :
    s.1.codeIsOpen code = stands code s.1.notices := by
  have hbook : (book s).challenges.any (fun c => c.code == code) = s.1.codeIsOpen code :=
    any_eraseChallenge _ code
  rw [← hbook, show book s = sourced.replay (sourced.log s) from h]
  exact any_replay code s.1.events ⟨∅, [], []⟩

/-! ### What an operation logs of challenges -/

/-- The log grew by closings at `height`, as far as it is about challenges. -/
def OnlyCloses (height : ℕ) (m m' : Market) : Prop :=
  ∃ codes : List OtpCode, m'.notices = m.notices ++ codes.map fun code => (height, .closed code)

namespace OnlyCloses

variable {height : ℕ} {m m' m'' : Market}

theorem of_eq (h : m'.notices = m.notices) : OnlyCloses height m m' :=
  ⟨[], by rw [h, List.map_nil, List.append_nil]⟩

theorem trans (h : OnlyCloses height m m') (h' : OnlyCloses height m' m'') : OnlyCloses height m m'' := by
  obtain ⟨codes, hcodes⟩ := h
  obtain ⟨codes', hcodes'⟩ := h'
  exact ⟨codes ++ codes', by rw [hcodes', hcodes, List.map_append, List.append_assoc]⟩

end OnlyCloses

section Logging

variable {height : ℕ}

theorem notices_recordAll (es : List MarketEvent) (hes : ∀ e ∈ es, notice e = none) (m : Market)
    (height : ℕ) :
    (m.recordAll height es).notices = m.notices := by
  rw [recordAll_eq]
  unfold notices
  rw [List.filterMap_append]
  have hnone : (es.map (Stamped.mk height)).filterMap noticeOf = [] := by
    rw [List.filterMap_eq_nil_iff]
    intro e he
    obtain ⟨x, hx, rfl⟩ := List.mem_map.mp he
    rw [noticeOf, hes x hx]
    rfl
  rw [hnone, List.append_nil]

theorem notices_map {α : Type} {f : α → MarketEvent} (hf : ∀ x, notice (f x) = none)
    (l : List α) (m : Market)
    (height : ℕ) : (m.recordAll height (l.map f)).notices = m.notices := by
  refine notices_recordAll _ (fun e he => ?_) m height
  obtain ⟨x, -, rfl⟩ := List.mem_map.mp he
  exact hf x

theorem onlyCloses_closeChallenge (m : Market) (code : OtpCode) :
    OnlyCloses height m (closeChallenge height m code) :=
  ⟨[code], by simp [notices, closeChallenge, dropChallenge, record, noticeOf, notice]⟩

theorem onlyCloses_closeChallenges (codes : List OtpCode) (m : Market) :
    OnlyCloses height m (codes.foldl (closeChallenge height) m) := by
  induction codes generalizing m with
  | nil => exact .of_eq rfl
  | cons code codes ih => exact (onlyCloses_closeChallenge m code).trans (ih _)

theorem onlyCloses_closeChallengesWhere (m : Market) (stale : MarketChallenge → Bool) :
    OnlyCloses height m (m.closeChallengesWhere stale height) :=
  onlyCloses_closeChallenges _ m

theorem onlyCloses_expire (m : Market) (r : Registry) (mtp : ℤ) :
    OnlyCloses height m (m.expire r mtp height).1 := by
  have hdelists : (m.recordAll height ((r.finishClocks height).2.map .delist)).notices = m.notices :=
    notices_map (fun _ => rfl) _ m height
  have hsales : (recordAll { m.recordAll height ((r.finishClocks height).2.map .delist) with
      sales := (m.sales.expire mtp).1 } height ((m.sales.expire mtp).2.map .expire)).notices =
        m.notices :=
    (notices_map (fun _ => rfl) _ _ height).trans hdelists
  have hsame : (m.recordAll height ((r.finishClocks height).2.map .delist)).sales = m.sales :=
    sales_recordAll _ _ _
  refine (OnlyCloses.of_eq hsales).trans ?_
  rw [← hsame]
  exact onlyCloses_closeChallengesWhere _ _

theorem onlyCloses_reconcile (m : Market) (r : Registry) :
    OnlyCloses height m (m.reconcile r height).1 := by
  have hdelists : (m.recordAll height (r.reconcileListings.2.map .delist)).notices = m.notices :=
    notices_map (fun _ => rfl) _ m height
  refine (OnlyCloses.of_eq hdelists).trans
    ((onlyCloses_closeChallengesWhere _ (staleChallenge r.reconcileListings.1)).trans ?_)
  exact OnlyCloses.of_eq (notices_map (fun _ => rfl) _ _ height)

theorem onlyCloses_enactChallenge (height : ℕ) (m : Market) (r : Registry) (kind : ChallengeKind) :
    OnlyCloses height m (m.enactChallenge r kind height).1 := by
  rcases kind with l | ⟨name, ua⟩
  · rcases h : m.list r l height with e | ⟨m', r'⟩
    · simp only [enactChallenge, h]
      exact .of_eq rfl
    · obtain ⟨-, -, -, rfl, -⟩ := list_ok h
      simp only [enactChallenge, h]
      exact .of_eq (notices_recordAll [.list l] (by simp [notice]) m height)
  · rcases h : m.delist r name ua height with e | ⟨m', r'⟩
    · simp only [enactChallenge, h]
      exact .of_eq rfl
    · obtain ⟨rfl, -⟩ := delist_ok h
      simp only [enactChallenge, h]
      exact .of_eq (notices_recordAll [.delist name] (by simp [notice]) m height)

theorem onlyCloses_spent (m : Market) (r : Registry) (c : MarketChallenge) :
    OnlyCloses height m (m.spent r c height).1 := by
  have hclosed : OnlyCloses height m (record { m with challenges := m.challenges.erase c } height
      (.challengeClosed c.code)) :=
    ⟨[c.code], by simp [notices, record, noticeOf, notice]⟩
  unfold spent
  dsimp only
  split_ifs
  · exact hclosed
  · exact hclosed.trans (onlyCloses_enactChallenge height _ r c.kind)

theorem onlyCloses_unmatched (m : Market) (response : OtpMemo) :
    OnlyCloses height m (m.unmatched response height) := by
  refine ⟨(m.challenges.filter (lastMiss response)).reverse.map MarketChallenge.code, ?_⟩
  unfold notices unmatched
  rw [List.filterMap_append, List.filterMap_map, List.map_map, ← List.filterMap_eq_map]
  rfl

theorem onlyCloses_openBuy {r : Registry} {name : Name} {bob owner : UnifiedAddress} {term : Expiry}
    {held : NameCommitment} {releaseDue notePending : Bool} {code : OtpCode} {mtp : ℤ} {m m' : Market}
    {otp : BuyOtp}
    (h : m.openBuy r name bob owner term held releaseDue notePending code mtp height = .ok (m', otp)) :
    OnlyCloses height m m' := by
  unfold openBuy at h
  by_cases hname : m.sales.isOpen name = true
  · rw [if_pos hname] at h
    split at h <;> cases h
  · rw [if_neg hname] at h
    obtain ⟨⟨payTo, price, dutch⟩, -, h⟩ := Machine.ok_of_bind h
    simp only at h
    split_ifs at h
    split at h
    · cases h
    · rename_i q otp' hsale
      split at h
      · cases h
      · rename_i sale hget
        cases Except.ok.inj h
        have hopened : (record { m with sales := q } height (.opened sale)).notices = m.notices :=
          notices_recordAll [.opened sale] (by simp [notice]) { m with sales := q } height
        exact (OnlyCloses.of_eq hopened).trans (onlyCloses_closeChallengesWhere _ _)

theorem notices_sealReplayedBuys (m : Market) : m.sealReplayedBuys.notices = m.notices := by
  unfold notices sealReplayedBuys
  rw [List.filterMap_map]
  refine List.filterMap_congr fun e _ => ?_
  rcases e with ⟨k, e⟩
  rcases e with _ | _ | _ | _ | _ | _ | _ | _ <;> rfl

/-- The operation issues the challenge. -/
def Issues (s : Market × Registry) (o : ℕ × MarketOp) (c : MarketChallenge) : Prop :=
  (∃ keys txid request paid fee mtp pending, o.2 = .admitRequest keys txid request paid fee mtp pending) ∧
    s.1.codeIsOpen c.code = false ∧ c.attempts = 0 ∧ (system.step s o).1 = s.1.pushChallenge c o.1

theorem issues_notices {s : Market × Registry} {o : ℕ × MarketOp} {c : MarketChallenge}
    (h : Issues s o c) :
    (system.step s o).1.notices = s.1.notices ++ [(o.1, .issued c)] := by
  rw [h.2.2.2]
  simp [notices, pushChallenge, record, noticeOf, notice]

/-- **What an operation logs of challenges**: that some closed, or the one it issues. -/
theorem step_notices {s : Market × Registry} (hone : OneChallengePerCode s.1) (o : ℕ × MarketOp) :
    OnlyCloses o.1 s.1 (system.step s o).1 ∨ ∃ c, Issues s o c := by
  obtain ⟨m, r⟩ := s
  obtain ⟨height, o⟩ := o
  rcases o with ⟨keys, txid, request, paid, fee, mtp, pending⟩ | response | ⟨holder,
    payments, mtp⟩ | mtp |
    _ | pending | name | code | _ | ⟨records, history, anchors⟩
  · rcases admitRequest_cases keys m txid request paid r fee height mtp pending with h |
      ⟨c, -, -, -, -, -, hopen, hattempts, h⟩ | ⟨name, bob, record, otp, m', -, -, -, hbuy, h⟩
    · exact Or.inl (.of_eq (congrArg notices h))
    · exact Or.inr ⟨c, ⟨keys, txid, request, paid, fee, mtp, pending, rfl⟩, hopen, hattempts, h⟩
    · refine Or.inl ?_
      change OnlyCloses height m (m.admitRequest keys txid request paid r fee height mtp pending).1
      rw [h]
      exact onlyCloses_openBuy hbuy
  · refine Or.inl ?_
    change OnlyCloses height m (m.answer r response height).1.1
    by_cases h : ∃ c ∈ m.challenges, Matches response c
    · obtain ⟨c, hc, hmatch⟩ := h
      rw [answer_right hone r height hc hmatch]
      exact onlyCloses_spent m r c
    · rw [answer_wrong hone r height fun c hc hmatch => h ⟨c, hc, hmatch⟩]
      exact onlyCloses_unmatched m response
  · exact Or.inl (.of_eq (notices_map (fun _ => rfl) _ _ height))
  · exact Or.inl (onlyCloses_expire m r mtp)
  · exact Or.inl (onlyCloses_reconcile m r)
  · exact Or.inl (.of_eq (notices_map (fun _ => rfl) _ _ height))
  · exact Or.inl (.of_eq rfl)
  · exact Or.inl (.of_eq rfl)
  · exact Or.inl (.of_eq (notices_sealReplayedBuys m))
  · exact Or.inl (.of_eq rfl)

end Logging

/-! ### A challenge takes effect once -/

/-- A closing logged at `height` is the last the log says of a code. -/
def Shut (code : OtpCode) (height : ℕ) (m : Market) : Prop :=
  ∃ pre post, m.notices = pre ++ (height, .closed code) :: post ∧ ∀ e ∈ post, ∀ c, e.2 = .issued c →
    c.code ≠ code

theorem leaves_eq_false {code : OtpCode} {l : List (ℕ × Notice)}
    (h : ∀ e ∈ l, ∀ c, e.2 = .issued c → c.code ≠ code) :
    l.foldl (fun opened e => e.2.leaves code opened) false = false := by
  induction l with
  | nil => rfl
  | cons e l ih =>
    have hleaves : e.2.leaves code false = false := by
      rcases hn : e.2 with c | code'
      · simpa [Notice.leaves] using h e List.mem_cons_self c hn
      · rfl
    rw [List.foldl_cons, hleaves]
    exact ih fun e' he' => h e' (List.mem_cons_of_mem _ he')

theorem Shut.codeIsOpen {code : OtpCode} {height : ℕ} {s : Market × Registry} (h : Shut code height s.1)
    (hs : sourced.Replays s) : s.1.codeIsOpen code = false := by
  obtain ⟨pre, post, hlog, hpost⟩ := h
  have hclosed : ∀ opened : Bool, Notice.leaves code opened (.closed code) = false := by
    simp [Notice.leaves]
  rw [codeIsOpen_eq_stands hs, hlog, stands, List.foldl_append, List.foldl_cons, hclosed]
  exact leaves_eq_false hpost

theorem shut_of_spent {m : Market} {r : Registry} {c : MarketChallenge} (height : ℕ) :
    Shut c.code height (m.spent r c height).1 := by
  have hclosed : (record { m with challenges := m.challenges.erase c } height
    (.challengeClosed c.code)).notices =
      m.notices ++ [(height, .closed c.code)] := by simp [notices, record, noticeOf, notice]
  unfold spent
  dsimp only
  split_ifs
  · exact ⟨m.notices, [], hclosed, by simp⟩
  · obtain ⟨codes, hcodes⟩ := onlyCloses_enactChallenge height
      (record { m with challenges := m.challenges.erase c } height (.challengeClosed c.code)) r c.kind
    refine ⟨m.notices, codes.map fun code => (height, .closed code), ?_, ?_⟩
    · rw [hcodes, hclosed, List.append_assoc, List.singleton_append]
    · intro e he c' hc'
      obtain ⟨code, -, rfl⟩ := List.mem_map.mp he
      cases hc'

theorem Shut.step {code : OtpCode} {height : ℕ} {s : Market × Registry} (h : Shut code height s.1)
    (hone : OneChallengePerCode s.1) {o : ℕ × MarketOp} (ho : ∀ c, Issues s o c → c.code ≠ code) :
    Shut code height (system.step s o).1 := by
  obtain ⟨pre, post, hlog, hpost⟩ := h
  have hgrow : ∀ l : List (ℕ × Notice), (∀ e ∈ l, ∀ c, e.2 = .issued c → c.code ≠ code) →
      (system.step s o).1.notices = s.1.notices ++ l → Shut code height (system.step s o).1 := by
    intro l hl hnotices
    refine ⟨pre, post ++ l, by rw [hnotices, hlog, List.append_assoc, List.cons_append], ?_⟩
    intro e he
    rcases List.mem_append.mp he with he | he
    · exact hpost e he
    · exact hl e he
  rcases step_notices hone o with ⟨codes, hcodes⟩ | ⟨c, hissues⟩
  · refine hgrow _ (fun e he c hc => ?_) hcodes
    obtain ⟨code', -, rfl⟩ := List.mem_map.mp he
    cases hc
  · refine hgrow [(o.1, .issued c)] ?_ ?_
    · intro e he c' hc'
      obtain rfl := List.mem_singleton.mp he
      cases hc'
      exact ho c hissues
    · exact issues_notices hissues

theorem notices_truncateTo (s : Market × Registry) (k : ℕ) :
    (system.truncate s k).1.notices = s.1.notices.filter fun e => decide (e.1 ≤ k) := by
  change (s.1.events.filter fun e => decide (e.height ≤ k)).filterMap noticeOf = _
  unfold notices
  rw [List.filter_filterMap, List.filterMap_filter]
  refine List.filterMap_congr fun e _ => ?_
  unfold noticeOf
  rcases notice e.event with _ | n
  · split_ifs <;> rfl
  · rw [Option.map_some, Option.filter_some]

theorem Shut.truncate {code : OtpCode} {height k : ℕ} {s : Market × Registry} (h : Shut code height s.1)
    (hk : height ≤ k) : Shut code height (system.truncate s k).1 := by
  obtain ⟨pre, post, hlog, hpost⟩ := h
  refine ⟨pre.filter fun e => decide (e.1 ≤ k), post.filter fun e => decide (e.1 ≤ k), ?_, ?_⟩
  · rw [notices_truncateTo, hlog, List.filter_append, List.filter_cons_of_pos (by simpa using hk)]
  · exact fun e he => hpost e (List.mem_filter.mp he).1

/-- A code that was shut stays shut, until it is issued again or its closing is rolled back. -/
theorem Shut.run {code : OtpCode} {height : ℕ} (acts : List (Act (ℕ × MarketOp))) {s : Market × Registry}
    (hs : sourced.Replays s) (h : Shut code height s.1)
    (hissue : ∀ pre o post c, acts = pre ++ .op o :: post → Issues (system.run s pre) o c → c.code ≠ code)
    (hkept : ∀ k, Act.truncate k ∈ acts → height ≤ k) : Shut code height (system.run s acts).1 := by
  induction acts generalizing s with
  | nil => exact h
  | cons act acts ih =>
    have hissue' : ∀ pre o post c, acts = pre ++ .op o :: post →
      Issues (system.run (system.act s act) pre) o c →
        c.code ≠ code := by
      intro pre o post c hacts hc
      exact hissue (act :: pre) o post c (by rw [hacts, List.cons_append]) hc
    have hkept' : ∀ k, Act.truncate k ∈ acts → height ≤ k :=
      fun k hk => hkept k (List.mem_cons_of_mem _ hk)
    have hs' : sourced.Replays (system.act s act) := lawful.replays_run [act] s hs
    refine ih hs' ?_ hissue' hkept'
    rcases act with o | k
    · exact h.step (oneChallengePerCode_of_replays hs) fun c hc => hissue [] o acts c rfl hc
    · exact h.truncate (hkept k List.mem_cons_self)

/-- **Challenges are addressable by their code.** In every market that a run reaches: one challenge holds
a code, so that closing it by its code removes that one; `answer` indexes within the list; a response
either matches one challenge, in name, address, action, code and terms, and takes it out of the list and
applies it, or it matches none and counts against the challenges it names; and the code of a challenge
that was answered is open again only once it is issued again, or the block of the answer is rolled
back. -/
theorem challenges_addressable (acts : List (Act (ℕ × MarketOp))) (m : Market) (r : Registry)
    (hrun : system.run (.new, .new) acts = (m, r)) :
    (m.challenges.map MarketChallenge.code).Nodup ∧
    (∀ c ∈ m.challenges, ∀ height, (closeChallenge height m c.code).challenges = m.challenges.erase c) ∧
    ∀ response height, m.answerAt r response height = some (m.answer r response height) ∧
      ((∀ c ∈ m.challenges, ¬Matches response c) →
        m.answer r response height = ((m.unmatched response height, r), false)) ∧
      ∀ c ∈ m.challenges, Matches response c →
        (∀ c' ∈ m.challenges, Matches response c' → c' = c) ∧
        m.answer r response height = (m.spent r c height, true) ∧
        (m.spent r c height).1.challenges = m.challenges.erase c ∧
        ∀ later, (system.run (m.spent r c height) later).1.codeIsOpen c.code = true →
          (∃ k, .truncate k ∈ later ∧ k < height) ∨
          ∃ pre o post c', later = pre ++ .op o :: post ∧ c'.code = c.code ∧
            Issues (system.run (m.spent r c height) pre) o c' := by
  have hone : OneChallengePerCode m := by
    have h := oneChallengePerCode_run acts
    rwa [hrun] at h
  have hreplays : sourced.Replays (m, r) := hrun ▸ lawful.replays_run acts (Market.new, .new) rfl
  refine ⟨hone, fun c hc height => closeChallenge_challenges hone hc height, ?_⟩
  intro response height
  refine ⟨answerAt_eq hone r response height, answer_wrong hone r height, ?_⟩
  intro c hc hmatch
  have hanswer := answer_right hone r height hc hmatch
  have hspent : sourced.Replays (m.spent r c height) := by
    have hstep := lawful.replays_run [.op (height, .answer response)] (m, r) hreplays
    have heq : system.run (m, r) [.op (height, .answer response)] = m.spent r c height := by
      change (m.answer r response height).1 = _
      rw [hanswer]
    rwa [heq] at hstep
  refine ⟨?_, hanswer, spent_challenges r c height, ?_⟩
  · intro c' hc' hmatch'
    exact List.inj_on_of_nodup_map hone hc' hc (hmatch'.2.2.2.1.trans hmatch.2.2.2.1.symm)
  · intro later hopen
    by_contra hnot
    rw [not_or] at hnot
    have hshut : Shut c.code height (system.run (m.spent r c height) later).1 := by
      refine (shut_of_spent height).run later hspent ?_ ?_
      · intro pre o post c' hlater hissues hcode
        exact hnot.2 ⟨pre, o, post, c', hlater, hcode, hissues⟩
      · intro k hk
        by_contra hlt
        exact hnot.1 ⟨k, hk, by omega⟩
    rw [hshut.codeIsOpen (lawful.replays_run later _ hspent)] at hopen
    cases hopen

/-- The challenge of the sample listing, answered in block 6. -/
theorem challenges_addressable_listing :
    ((system.run (.new, .new) sampleProposal).1.challenges.map MarketChallenge.code).Nodup ∧
      ((system.run (.new, .new) sampleProposal).1.answer (system.run (.new, .new) sampleProposal).2
        (newChallenge (.list sampleListing) listingCode 10).memo 6).2 = true := by
  obtain ⟨hcodes, -, hanswer⟩ := challenges_addressable sampleProposal
    (system.run (.new, .new) sampleProposal).1
    (system.run (.new, .new) sampleProposal).2 rfl
  have hmem : newChallenge (.list sampleListing) listingCode 10 ∈
      (system.run (.new, .new) sampleProposal).1.challenges := by
    decide +kernel
  refine ⟨hcodes, ?_⟩
  rw [((hanswer _ 6).2.2 _ hmem (by decide +kernel)).2.1]

end ZnsMint.Market
