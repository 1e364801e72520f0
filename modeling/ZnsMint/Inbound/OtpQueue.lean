import ZnsMint.Inbound.Challenges
import ZnsMint.Lib.Strikes

/-! # One code, one use

`OtpQueue` over a whole run. A challenge is told from the others by its `address`; what a response can
name of it is the address without the code. `watch` runs the queue beside a record of the addresses that
were opened and of the wrong responses to them, and a challenge's counter is the number of those since it
was issued (`Consistent`). So a challenge that is completed has seen fewer wrong responses than the cap,
and its code completes nothing more until it is issued again (`otp_consumed`). -/

namespace ZnsMint.Inbound.Challenges

open ZnsMint.Basic ZnsMint.Note ZnsMint.Inbound ZnsMint.Lib ZnsMint.Lib.Strikes ZnsMint.Lib.EventLog

abbrev Address := Name × Action × UnifiedAddress × OtpCode

/-! ### What a response does -/

/-- The challenge was relayed, and the response has its name, action, address and code. -/
def Completes (response : OtpMemo) (e : OtpEntry) : Prop :=
  e.state = .relayed ∧ address e = (response.name, response.action, response.ua, response.code)

instance (response : OtpMemo) (e : OtpEntry) : Decidable (Completes response e) :=
  inferInstanceAs (Decidable (_ ∧ _))

theorem completes_iff {response : OtpMemo} {e : OtpEntry} :
    Completes response e ↔ (OtpQueue.named response e && e.challenge.code == response.code) = true := by
  simp only [Completes, address, OtpQueue.named, Bool.and_eq_true, beq_iff_eq, Prod.mk.injEq]
  tauto

/-- What a wrong response leaves of a challenge. -/
def counted (response : OtpMemo) (e : OtpEntry) : Option OtpEntry :=
  if OtpQueue.named response e then
    if e.challenge.attempts + 1 < MAX_ATTEMPTS then some (OtpQueue.missed e) else none
  else some e

theorem find_right {q : OtpQueue} {response : OtpMemo} (h : ∀ e ∈ q.challenges, ¬Completes response e) :
    q.challenges.find? (fun e => OtpQueue.named response e && e.challenge.code == response.code) = none :=
  List.find?_eq_none.mpr fun e he hright => h e he (completes_iff.mpr hright)

/-- **A response that completes no challenge** counts against those it names. -/
theorem complete_wrong {q : OtpQueue} {response : OtpMemo}
    (h : ∀ e ∈ q.challenges, ¬Completes response e) :
    q.complete response = (⟨q.challenges.filterMap (counted response)⟩, none) := by
  have hmiss : ∀ e ∈ q.challenges, OtpQueue.missOne response e = counted response e := by
    intro e he
    unfold OtpQueue.missOne counted
    by_cases hnamed : OtpQueue.named response e = true
    · have hcode : e.challenge.code ≠ response.code := by
        intro hcode
        exact h e he (completes_iff.mpr (by simp [hnamed, hcode]))
      rw [if_pos hnamed, if_neg (by simp [hnamed]), if_neg hcode]
    · rw [if_neg hnamed, if_pos (by simpa using hnamed)]
  unfold OtpQueue.complete
  simp only [find_right h]
  rw [List.filterMap_congr hmiss]

/-- **A response that completes a challenge** removes that one. -/
theorem complete_right {q : OtpQueue} (hq : Unambiguous q) {response : OtpMemo} {e : OtpEntry}
    (he : e ∈ q.challenges)
    (h : Completes response e) : q.complete response = (⟨q.challenges.erase e⟩, some e) := by
  have hmemo : ∀ x, Completes response x ↔ Completes e.challenge.memo x := by
    intro x
    have haddr : address e = (e.challenge.memo.name, e.challenge.memo.action, e.challenge.memo.ua,
        e.challenge.memo.code) := rfl
    unfold Completes
    rw [← haddr, h.2]
  have hfun : (fun x => OtpQueue.named response x && x.challenge.code == response.code) =
      fun x => OtpQueue.named e.challenge.memo x && x.challenge.code == e.challenge.memo.code := by
    funext x
    rw [Bool.eq_iff_iff, ← completes_iff, ← completes_iff]
    exact hmemo x
  have hself := complete_memo hq he h.1
  unfold OtpQueue.complete at hself ⊢
  have hright : Completes e.challenge.memo e := (hmemo e).mp h
  simp only [hfun]
  rcases hfind : q.challenges.find? _ with _ | x
  · exact absurd (completes_iff.mp hright) (List.find?_eq_none.mp hfind e he)
  · simp only [hfind] at hself ⊢
    exact hself

theorem unique_of_completes {q : OtpQueue} (hq : Unambiguous q) {response : OtpMemo} {e e' : OtpEntry}
    (he : e ∈ q.challenges) (he' : e' ∈ q.challenges) (h : Completes response e)
    (h' : Completes response e') : e' = e :=
  List.inj_on_of_nodup_map hq he' he (h'.2.trans h.2.symm)

/-! ### The record of a run -/

/-- The operation issues a challenge with the address. -/
def IssuesOtp (q : OtpQueue) (o : OtpOp) (a : Address) : Prop :=
  ∃ request mtp draws code, o = .admitRequest request mtp draws ∧
    (q.challenges.any fun e => e.challenge.request == request) = false ∧
    draws.find? (q.codeFree request) = some code ∧ a = (request.name, request.action, request.ua, code)

/-- What an operation writes: the address it opens, or those its wrong response names. -/
def marks (q q' : OtpQueue) : OtpOp → List (Mark Address)
  | .admitRequest .. => (q'.challenges.drop q.challenges.length).map fun e => .opened (address e)
  | .complete response =>
    if ∃ e ∈ q.challenges, Completes response e then []
    else ((q.challenges.filter (OtpQueue.named response)).map address).map .struck
  | _ => []

/-- One operation of the queue, beside the record. -/
def watch (s : OtpQueue × List (Mark Address)) (o : OtpOp) : Option (OtpQueue × List (Mark Address)) :=
  (o.apply s.1).map fun q => (q, s.2 ++ marks s.1 q o)

/-- What holds of the queue and its record along every run. -/
structure Consistent (s : OtpQueue × List (Mark Address)) : Prop where
  requests : (s.1.challenges.map fun e => e.challenge.request).Nodup
  unambiguous : Unambiguous s.1
  counted : ∀ e ∈ s.1.challenges, e.challenge.attempts = strikes (address e) s.2
  capped : ∀ e ∈ s.1.challenges, e.challenge.attempts < MAX_ATTEMPTS

theorem codeFree_address {q : OtpQueue} {request : Request} {code : OtpCode}
    (h : q.codeFree request code = true)
    {e : OtpEntry} (he : e ∈ q.challenges) : address e ≠
    (request.name, request.action, request.ua, code) := by
  simp only [OtpQueue.codeFree, Bool.not_eq_true', List.any_eq_false] at h
  intro haddr
  simp only [address, Prod.mk.injEq] at haddr
  exact h e he (by simp [haddr])

/-- **What `admit` does**: nothing, or it issues one challenge, with a free code. -/
theorem admitRequest_some {q q' : OtpQueue} {request : Request} {mtp : ℤ} {draws : List OtpCode}
    (h : q.admitRequest request mtp draws = some q') :
    q' = q ∨ ∃ code, (q.challenges.any fun e => e.challenge.request == request) = false ∧
      draws.find? (q.codeFree request) = some code ∧ q.codeFree request code = true ∧
      q' = ⟨q.challenges ++ [⟨⟨request, code, mtp + D_OTP, 0⟩, .requested, none⟩]⟩ := by
  unfold OtpQueue.admitRequest at h
  split_ifs at h with hopen
  · exact Or.inl (Option.some.inj h).symm
  · obtain ⟨code, hcode, rfl⟩ := Option.map_eq_some_iff.mp h
    exact Or.inr ⟨code, by simpa using hopen, hcode, List.find?_some hcode, rfl⟩

theorem request_counted {response : OtpMemo} {e e' : OtpEntry} (h : counted response e = some e') :
    e'.challenge.request = e.challenge.request ∧ address e' = address e ∧
      e'.challenge.attempts = e.challenge.attempts + (if OtpQueue.named response e then 1 else 0) ∧
      (e'.challenge.attempts < MAX_ATTEMPTS ∨ e'.challenge.attempts = e.challenge.attempts) := by
  unfold counted at h
  split_ifs at h ⊢ with hnamed hcap
  · cases h
    exact ⟨rfl, rfl, rfl, Or.inl hcap⟩
  · cases h
    exact ⟨rfl, rfl, rfl, Or.inr rfl⟩

/-- A step that only drops or relays challenges, and writes nothing. -/
theorem Consistent.less {s : OtpQueue × List (Mark Address)} (hs : Consistent s) {q : OtpQueue}
    (hsub : (q.challenges.map OtpEntry.challenge).Sublist (s.1.challenges.map OtpEntry.challenge)) :
    Consistent (q, s.2) := by
  have hmem : ∀ e ∈ q.challenges, ∃ e' ∈ s.1.challenges, e'.challenge = e.challenge := by
    intro e he
    obtain ⟨e', he', heq⟩ := List.mem_map.mp (hsub.subset (List.mem_map_of_mem he))
    exact ⟨e', he', heq⟩
  refine ⟨?_, ?_, ?_, ?_⟩
  · have hreq := hsub.map OtpChallenge.request
    rw [List.map_map, List.map_map] at hreq
    exact hs.requests.sublist hreq
  · have haddr := hsub.map fun c => (c.request.name, c.request.action, c.request.ua, c.code)
    rw [List.map_map, List.map_map] at haddr
    exact hs.unambiguous.sublist haddr
  · intro e he
    obtain ⟨e', he', heq⟩ := hmem e he
    rw [← heq, hs.counted e' he']
    have haddr : address e' = address e := by
      unfold address
      rw [heq]
    rw [haddr]
  · intro e he
    obtain ⟨e', he', heq⟩ := hmem e he
    rw [← heq]
    exact hs.capped e' he'

/-- A challenge is issued for a request that had none, with a free code. -/
theorem Consistent.issue {s : OtpQueue × List (Mark Address)} (hs : Consistent s) {request : Request}
    {code : OtpCode}
    (hfresh : (s.1.challenges.any fun e => e.challenge.request == request) = false)
    (hfree : s.1.codeFree request code = true) {expiresAt : ℤ} {q : OtpQueue}
    (hq : q = ⟨s.1.challenges ++ [⟨⟨request, code, expiresAt, 0⟩, .requested, none⟩]⟩)
    (hunambiguous : Unambiguous q) :
    Consistent (q, s.2 ++ [.opened (request.name, request.action, request.ua, code)]) := by
  have hnew : ∀ e ∈ s.1.challenges, e.challenge.request ≠ request := by
    rw [List.any_eq_false] at hfresh
    exact fun e he heq => hfresh e he (by simp [heq])
  have hmem : ∀ e ∈ q.challenges, e ∈ s.1.challenges ∨ e =
      ⟨⟨request, code, expiresAt, 0⟩, .requested, none⟩ := by
    intro e he
    rw [hq] at he
    simpa using he
  refine ⟨?_, hunambiguous, ?_, ?_⟩
  · rw [hq, List.map_append, List.nodup_append]
    refine ⟨hs.requests, List.nodup_singleton _, ?_⟩
    intro a ha b hb
    obtain ⟨e, he, rfl⟩ := List.mem_map.mp ha
    rw [List.mem_singleton.mp hb]
    exact hnew e he
  · intro e he
    rcases hmem e he with he | rfl
    · rw [strikes_append_opened_of_ne (Ne.symm (codeFree_address hfree he))]
      exact hs.counted e he
    · exact (strikes_append_opened_self _ _).symm
  · intro e he
    rcases hmem e he with he | rfl
    · exact hs.capped e he
    · exact (by decide : 0 < MAX_ATTEMPTS)

/-- A wrong response is counted against every challenge it names, and ends those that reach the cap. -/
theorem Consistent.strike {s : OtpQueue × List (Mark Address)} (hs : Consistent s) (response : OtpMemo) :
    Consistent (⟨s.1.challenges.filterMap (Challenges.counted response)⟩,
      s.2 ++ ((s.1.challenges.filter (OtpQueue.named response)).map address).map .struck) := by
  refine ⟨?_, ?_, ?_, ?_⟩
  · exact hs.requests.sublist (map_filterMap_sublist (fun _ _ h => (request_counted h).1) _)
  · exact hs.unambiguous.sublist (map_filterMap_sublist (fun _ _ h => (request_counted h).2.1) _)
  · intro e' he'
    obtain ⟨e, he, hcounted⟩ := List.mem_filterMap.mp he'
    obtain ⟨-, haddr, hattempts, -⟩ := request_counted hcounted
    rw [hattempts, haddr, strikes_append_struck, count_keys hs.unambiguous _ he, hs.counted e he]
  · intro e' he'
    obtain ⟨e, he, hcounted⟩ := List.mem_filterMap.mp he'
    obtain ⟨-, -, -, hcap | hsame⟩ := request_counted hcounted
    · exact hcap
    · rw [hsame]
      exact hs.capped e he

/-- **Every operation keeps the queue and its record consistent.** -/
theorem Consistent.step {s s' : OtpQueue × List (Mark Address)} (hs : Consistent s) {o : OtpOp}
    (h : watch s o = some s') : Consistent s' := by
  obtain ⟨q, hq, rfl⟩ := Option.map_eq_some_iff.mp h
  rcases o with ⟨request, mtp, draws⟩ | ⟨request, record⟩ | mtp | name | response
  · rcases admitRequest_some hq with rfl | ⟨code, hfresh, -, hfree, heq⟩
    · have hnone : marks s.1 s.1 (.admitRequest request mtp draws) = [] := by
        unfold marks
        rw [List.drop_length]
        rfl
      rw [hnone, List.append_nil]
      exact hs
    · have hmarks : marks s.1 q (.admitRequest request mtp draws) =
          [.opened (request.name, request.action, request.ua, code)] := by
        unfold marks
        rw [heq, List.drop_left]
        rfl
      rw [hmarks]
      exact hs.issue hfresh hfree heq (hs.unambiguous.apply hq)
  · have hmarks : marks s.1 q (.challengeIssued request record) = [] := rfl
    rw [hmarks, List.append_nil]
    cases hq
    refine hs.less ?_
    have hsame : (s.1.challengeIssued request record).challenges.map OtpEntry.challenge =
        s.1.challenges.map OtpEntry.challenge := by
      simp only [OtpQueue.challengeIssued, List.map_map]
      refine List.map_congr_left fun e _ => ?_
      simp only [Function.comp]
      split_ifs
      · rfl
      · rfl
    rw [hsame]
  · cases hq
    rw [show marks s.1 _ (.expire mtp) = [] from rfl, List.append_nil]
    exact hs.less (List.filter_sublist.map _)
  · cases hq
    rw [show marks s.1 _ (.dropChallenges name) = [] from rfl, List.append_nil]
    exact hs.less (List.filter_sublist.map _)
  · obtain rfl : (s.1.complete response).1 = q := Option.some.inj hq
    by_cases hright : ∃ e ∈ s.1.challenges, Completes response e
    · have hmarks : ∀ q, marks s.1 q (.complete response) = [] := fun q => if_pos hright
      obtain ⟨e, he, hcompletes⟩ := hright
      rw [hmarks, List.append_nil, complete_right hs.unambiguous he hcompletes]
      exact hs.less (List.erase_sublist.map _)
    · have hmarks : ∀ q, marks s.1 q (.complete response) =
          ((s.1.challenges.filter (OtpQueue.named response)).map address).map .struck :=
            fun q => if_neg hright
      rw [hmarks, complete_wrong fun e he hcompletes => hright ⟨e, he, hcompletes⟩]
      exact hs.strike response

theorem consistent_run {ops : List OtpOp} {s : OtpQueue × List (Mark Address)}
    (h : Machine.run watch (.new, []) ops = some s) : Consistent s := by
  refine Machine.run_invariant (C := fun _ _ => True) (fun _ _ _ hs _ ht => hs.step ht) ops _ _ ?_
    (Machine.along_true _ _ _) h
  exact ⟨List.nodup_nil, List.nodup_nil, (fun e he => nomatch he), fun e he => nomatch he⟩

/-- Every run of the queue has its record. -/
theorem watch_of_apply {ops : List OtpOp} {q q' : OtpQueue} (h : Machine.run OtpOp.apply q ops = some q')
    (record : List (Mark Address)) : ∃ record', Machine.run watch (q, record) ops =
    some (q', record') := by
  induction ops generalizing q record with
  | nil =>
    cases h
    exact ⟨record, rfl⟩
  | cons o ops ih =>
    obtain ⟨q₁, hq₁, h⟩ := Machine.run_cons h
    obtain ⟨record', hrun⟩ := ih h (record ++ marks q q₁ o)
    refine ⟨record', ?_⟩
    have hstep : watch (q, record) o = some (q₁, record ++ marks q q₁ o) := by
      unfold watch
      rw [hq₁]
      rfl
    unfold Machine.run
    rw [List.foldlM_cons, hstep]
    exact hrun

/-! ### One code, one use -/

/-- A challenge open after an operation was open before it, or is the one it issues. -/
theorem address_step {q q' : OtpQueue} {o : OtpOp} (h : o.apply q = some q') {e' : OtpEntry}
    (he' : e' ∈ q'.challenges) :
    (∃ e ∈ q.challenges, address e = address e') ∨ IssuesOtp q o (address e') := by
  rcases o with ⟨request, mtp, draws⟩ | ⟨request, record⟩ | mtp | name | response
  · rcases admitRequest_some h with rfl | ⟨code, hfresh, hcode, -, rfl⟩
    · exact Or.inl ⟨e', he', rfl⟩
    · rcases List.mem_append.mp he' with he' | he'
      · exact Or.inl ⟨e', he', rfl⟩
      · rw [List.mem_singleton.mp he']
        exact Or.inr ⟨request, mtp, draws, code, rfl, hfresh, hcode, rfl⟩
  · cases h
    obtain ⟨e, he, rfl⟩ := List.mem_map.mp he'
    refine Or.inl ⟨e, he, ?_⟩
    split_ifs
    · rfl
    · rfl
  · cases h
    exact Or.inl ⟨e', (List.mem_filter.mp he').1, rfl⟩
  · cases h
    exact Or.inl ⟨e', (List.mem_filter.mp he').1, rfl⟩
  · obtain rfl : (q.complete response).1 = q' := Option.some.inj h
    refine Or.inl ?_
    simp only [OtpQueue.complete] at he'
    split at he'
    · exact ⟨e', List.mem_of_mem_eraseP he', rfl⟩
    · obtain ⟨e, he, hmiss⟩ := List.mem_filterMap.mp he'
      exact ⟨e, he, (address_missOne hmiss).symm⟩

/-- An address that is open at the end of a run, and was not at its start, was issued along it. -/
theorem issued_of_open {ops : List OtpOp} {q q' : OtpQueue} (h : Machine.run OtpOp.apply q ops = some q')
    {a : Address}
    (ha : ∀ e ∈ q.challenges, address e ≠ a) {e' : OtpEntry} (he' : e' ∈ q'.challenges)
    (haddr : address e' = a) :
    ∃ pre o post q₁, ops = pre ++ o :: post ∧ Machine.run OtpOp.apply q pre = some q₁ ∧
      IssuesOtp q₁ o a := by
  induction ops generalizing q with
  | nil =>
    cases h
    exact absurd haddr (ha e' he')
  | cons o ops ih =>
    obtain ⟨q₁, hq₁, h⟩ := Machine.run_cons h
    by_cases hissues : IssuesOtp q o a
    · exact ⟨[], o, ops, q, rfl, rfl, hissues⟩
    · have ha₁ : ∀ e ∈ q₁.challenges, address e ≠ a := by
        rintro e he rfl
        rcases address_step hq₁ he with ⟨e₀, he₀, heq⟩ | hissue
        · exact ha e₀ he₀ heq
        · exact hissues hissue
      obtain ⟨pre, o', post, q₂, rfl, hpre, hissue⟩ := ih h ha₁
      refine ⟨o :: pre, o', post, q₂, rfl, ?_, hissue⟩
      unfold Machine.run
      rw [List.foldlM_cons, hq₁]
      exact hpre

/-- **The queue issues, counts and consumes as it should.** After every run: no two open challenges are
for one request, no two share name, action, address and code, and every counter is below the cap, being
the number of wrong responses that named the challenge while it was relayed. A response completes a
challenge just when one that was relayed has its name, action, address and code: that one leaves, with at
most `MAX_ATTEMPTS - 1` wrong responses behind it, and its code is open again only once it is issued
again. Any other response counts against the relayed challenges it names, and removes those that reach
the cap. -/
theorem otp_consumed (ops : List OtpOp) (q : OtpQueue) (record : List (Mark Address))
    (hrun : Machine.run watch (.new, []) ops = some (q, record)) :
    (q.challenges.map fun e => e.challenge.request).Nodup ∧ (q.challenges.map address).Nodup ∧
    (∀ e ∈ q.challenges, e.challenge.attempts = strikes (address e) record ∧
    e.challenge.attempts < MAX_ATTEMPTS) ∧
    ∀ response,
      ((q.complete response).2.isSome ↔ ∃ e ∈ q.challenges, Completes response e) ∧
      ((∀ e ∈ q.challenges, ¬Completes response e) →
        q.complete response = (⟨q.challenges.filterMap (counted response)⟩, none)) ∧
      ∀ e ∈ q.challenges, Completes response e →
        (∀ e' ∈ q.challenges, Completes response e' → e' = e) ∧
        q.complete response = (⟨q.challenges.erase e⟩, some e) ∧
        strikes (address e) record ≤ MAX_ATTEMPTS - 1 ∧
        ∀ later q', Machine.run OtpOp.apply ⟨q.challenges.erase e⟩ later = some q' →
          ∀ e' ∈ q'.challenges, address e' = address e →
            ∃ pre o post q₁, later = pre ++ o :: post ∧
              Machine.run OtpOp.apply ⟨q.challenges.erase e⟩ pre = some q₁ ∧
                IssuesOtp q₁ o (address e) := by
  have hs := consistent_run hrun
  refine ⟨hs.requests, hs.unambiguous, fun e he => ⟨hs.counted e he, hs.capped e he⟩, ?_⟩
  intro response
  refine ⟨?_, complete_wrong, ?_⟩
  · constructor
    · intro hsome
      by_contra hnone
      rw [complete_wrong fun e he h => hnone ⟨e, he, h⟩] at hsome
      cases hsome
    · rintro ⟨e, he, h⟩
      rw [complete_right hs.unambiguous he h]
      rfl
  · intro e he h
    refine ⟨fun e' he' h' => unique_of_completes hs.unambiguous he he' h h',
      complete_right hs.unambiguous he h, ?_, ?_⟩
    · have hcount := hs.counted e he
      have hcap := hs.capped e he
      simp only at hcount hcap
      omega
    · intro later q' hlater e' he' haddr
      refine issued_of_open hlater ?_ he' haddr
      intro x hx hxe
      have hnodup : q.challenges.Nodup := List.Nodup.of_map _ hs.unambiguous
      obtain ⟨hne, hmem⟩ := (hnodup.mem_erase_iff).mp hx
      exact hne (List.inj_on_of_nodup_map hs.unambiguous hmem he hxe)

/-- Alice's update, relayed, and five wrong codes. -/
def sampleRequest : Request := .update alice (sampleUa 1) none

def sampleMemo (code : OtpCode) : OtpMemo := (⟨sampleRequest, code, 1810, 0⟩ : OtpChallenge).memo

def sampleAnswered : List OtpOp :=
  [.admitRequest sampleRequest 10 [Market.listingCode],
    .challengeIssued sampleRequest Market.sampleRecord] ++
    List.replicate 5 (.complete (sampleMemo Market.strayCode))

def sampleWatched : OtpQueue × List (Mark Address) :=
  (Machine.run watch (.new, []) sampleAnswered).get (by decide +kernel)

/-- The right code still completes the challenge. -/
theorem otp_consumed_sample :
    ∃ e ∈ sampleWatched.1.challenges, strikes (address e) sampleWatched.2 = MAX_ATTEMPTS - 1 ∧
      strikes (address e) sampleWatched.2 ≤ MAX_ATTEMPTS - 1 ∧
      sampleWatched.1.complete (sampleMemo Market.listingCode) =
        (⟨sampleWatched.1.challenges.erase e⟩, some e) := by
  have hrun : Machine.run watch (.new, []) sampleAnswered = some sampleWatched := (Option.some_get _).symm
  obtain ⟨-, -, -, hcomplete⟩ := otp_consumed sampleAnswered sampleWatched.1 sampleWatched.2 hrun
  have he : ⟨⟨sampleRequest, Market.listingCode, 1810, 5⟩, .relayed, some Market.sampleRecord⟩ ∈
      sampleWatched.1.challenges := by decide +kernel
  obtain ⟨-, hremoved, hcap, -⟩ := (hcomplete (sampleMemo Market.listingCode)).2.2 _ he ⟨rfl, rfl⟩
  exact ⟨_, he, by decide +kernel, hcap, hremoved⟩

end ZnsMint.Inbound.Challenges
