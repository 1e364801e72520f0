import ZnsMint.Live.Ground

/-! # What a controller's code authorizes

A challenge is relayed to the address of the name's live record, and the code it carries authorizes a
transition of whatever record is live when the code comes back. The loop drops a name's challenges when it
admits a transition itself; it does not when a transition it did not admit is confirmed. `CodesUnspent` is
the condition that no block spends the note of a name whose code is out. -/

namespace ZnsMint.Live

open Basic Note Inbound Registry Lib.Machine

variable {params : Params} {keys : Keys} {sends : Sends} {s t : Live} {p q : Point}

/-- No transaction of a block spends the current note of a name with a relayed challenge that outlives the
block. -/
def CodesUnspent (s : Live) : Step → Prop
  | .block b => ∀ e ∈ s.challenges.challenges, e.state = .relayed → b.mtp < e.challenge.expiresAt →
      ∀ r, s.registry.record e.name = some r → ∀ tx ∈ b.txs, r.predecessorNullifier ∉ tx.2.nfs
  | _ => True

/-- Every relayed challenge was sent to the live record, and every note a code authorized spends the
record the code was sent to. -/
structure CodesInv (s : Live) : Prop where
  bound : ∀ e ∈ s.challenges.challenges, e.state = .relayed →
    ∃ r, s.registry.record e.name = some r ∧ e.relayedTo = some r
  authorized : ∀ note spent relayedTo, Event.authorized note spent relayedTo ∈ s.log →
    ∃ r, spent = some r ∧ relayedTo = some r ∧ note.prevRcm = some r.commitment

/-! ### The moves keep it -/

/-- Challenges that come from the ones before, in a state with the same records. -/
theorem CodesInv.frame (h : CodesInv s) (hst : SameTip s t)
    (hsub : ∀ e ∈ t.challenges.challenges, ∃ e' ∈ s.challenges.challenges, SameChallenge e e')
    (hlog : ∀ note spent relayedTo, Event.authorized note spent relayedTo ∈ t.log →
      Event.authorized note spent relayedTo ∈ s.log) :
    CodesInv t where
  bound e he hstate := by
    obtain ⟨e', he', hrequest, -, hsame, hto⟩ := hsub e he
    obtain ⟨r, hr, hto'⟩ := h.bound e' he' (hsame ▸ hstate)
    refine ⟨r, ?_, hto.trans hto'⟩
    rw [hst.registry.record, OtpEntry.name, hrequest]
    exact hr
  authorized note spent relayedTo hmem :=
    h.authorized note spent relayedTo (hlog note spent relayedTo hmem)

theorem sameChallenges (s : Live) :
    ∀ e ∈ s.challenges.challenges, ∃ e' ∈ s.challenges.challenges, SameChallenge e e' :=
  fun e he => ⟨e, he, rfl, rfl, rfl, rfl⟩

theorem CodesInv.challenge (h : CodesInv s) {e : OtpEntry} (hstate : e.state = .requested) :
    CodesInv { s with challenges := ⟨s.challenges.challenges ++ [e]⟩ } where
  bound e' he' hstate' := by
    rcases List.mem_append.mp he' with he' | he'
    · exact h.bound e' he' hstate'
    · rw [List.mem_singleton.mp he', hstate] at hstate'
      cases hstate'
  authorized := h.authorized

theorem CodesInv.relay (h : CodesInv s) {request : Request} {r : NameRecord}
    (hr : s.registry.record request.name = some r) :
    CodesInv { s with challenges := s.challenges.challengeIssued request r } where
  bound e he hstate := by
    obtain ⟨e', he', rfl⟩ := List.mem_map.mp he
    split_ifs at hstate ⊢ with hrequest
    · refine ⟨r, ?_, rfl⟩
      show s.registry.record e'.challenge.request.name = some r
      rw [hrequest]
      exact hr
    · exact h.bound e' he' hstate
  authorized := h.authorized

theorem CodesInv.authorize (h : CodesInv s) {sent : OtpEntry} {note : NameNote} {r : NameRecord}
    (hsent : sent ∈ s.challenges.challenges) (hrelayed : sent.state = .relayed)
    (hr : s.registry.record sent.name = some r) (hprev : note.prevRcm = some r.commitment) :
    CodesInv (s.record (.authorized note (some r) sent.relayedTo)) where
  bound := h.bound
  authorized note' spent relayedTo hmem := by
    rcases List.mem_append.mp hmem with hmem | hmem
    · exact h.authorized note' spent relayedTo hmem
    · cases List.mem_singleton.mp hmem
      obtain ⟨r', hr', hto⟩ := h.bound sent hsent hrelayed
      rw [hr] at hr'
      cases hr'
      exact ⟨r, rfl, hto, hprev⟩

theorem CodesInv.move (h : CodesInv p.state) (hm : Move params sends p q) : CodesInv q.state := by
  have hst := hm.sameTip
  cases hm with
  | challenge e hstate => exact h.challenge hstate
  | relay request r hr => exact h.relay hr
  | thin q hsub => exact h.frame hst hsub fun _ _ _ hmem => hmem
  | authorize sent note r hsent hrelayed hr hprev => exact h.authorize hsent hrelayed hr hprev
  | market | rates | keep | record | refund | claim | transition | expireSent | look | skip =>
    exact h.frame hst (sameChallenges _) fun _ _ _ hmem => hmem
  | drop | send | pay =>
    exact h.frame hst (sameChallenges _) fun _ _ _ hmem => by simpa [Live.record] using hmem
  | lost txid e hlost he =>
    refine h.frame hst (sameChallenges _) fun _ _ _ hmem => ?_
    cases he <;> simpa [Live.record] using hmem

/-! ### The steps -/

/-- A block that spends no name under an open code leaves every code on its record. -/
theorem CodesInv.meetBlock (h : CodesInv s) (hground : s.Grounded) {b : Block}
    (hunspent : CodesUnspent s (.block b)) : CodesInv ((s.applyBlock params b).meetBlock params) where
  bound e he hstate := by
    obtain ⟨he, hopen⟩ := List.mem_filter.mp he
    obtain ⟨r, hr, hto⟩ := h.bound e he hstate
    refine ⟨r, ?_, hto⟩
    rw [(sameTip_meetBlock params (s.applyBlock params b)).registry.record]
    refine record_confirmBlock_kept hground.keyed hr fun tx htx => ?_
    obtain ⟨x, hx, rfl⟩ := List.mem_map.mp htx
    exact hunspent e he hstate (of_decide_eq_true hopen) r hr x hx
  authorized := h.authorized

theorem CodesInv.step (h : CodesInv s) (hground : s.Grounded) {a : Step} (hcond : CodesUnspent s a)
    (hstep : s.step params keys a = some t) : CodesInv t := by
  rcases step_cases hstep with ⟨b, rfl, rfl⟩ | ⟨env, rfl, ht⟩ | ⟨rate, rfl, rfl⟩ |
    ⟨rewound, mtp, rfl, ⟨-, rfl⟩ | ⟨-, rfl⟩⟩
  · exact block_invariant (I := fun p => CodesInv p.state) (fun _ _ hp hm => hp.move hm)
      (h.meetBlock hground hcond)
  · exact tipPass_invariant (I := fun p => CodesInv p.state) (fun _ _ hp hm => hp.move hm) ht
      ⟨h.bound, h.authorized⟩
  · exact ⟨h.bound, h.authorized⟩
  · -- a reorg empties the queue of challenges
    exact ⟨by simp [reorg, OtpQueue.new], h.authorized⟩
  · exact h

/-- **A code authorizes only a transition of the record it was sent to.** In every run in which no block
spends the note of a name while its code is out, every note that a returned code authorized spends the
very record whose address the code was relayed to. -/
theorem codes_bound (params : Params) (keys : Keys) (origin : ℕ) (mtp : ℤ) (blocks : List Block)
    (market : Market) (listings : NameMap Listing) (rate fee : Zatoshis) (steps : List Step) (t : Live)
    (hcond : Along (Live.step params keys) CodesUnspent
      (boot params origin mtp blocks market listings rate fee) steps)
    (hrun : run (Live.step params keys) (boot params origin mtp blocks market listings rate fee) steps =
      some t) :
    ∀ note spent relayedTo, Event.authorized note spent relayedTo ∈ t.log →
      ∃ r, spent = some r ∧ relayedTo = some r ∧ note.prevRcm = some r.commitment := by
  obtain ⟨hchallenges, -, -, -, hlog⟩ := boot_queues params origin mtp blocks market listings rate fee
  have hboot : CodesInv (boot params origin mtp blocks market listings rate fee) := by
    refine ⟨fun e he => ?_, fun note spent relayedTo hmem => ?_⟩
    · rw [hchallenges] at he
      cases he
    · rw [hlog] at hmem
      cases hmem
  have hinv := run_invariant (I := fun s => s.Grounded ∧ CodesInv s)
    (fun s a u hs hc hu => ⟨hs.1.step hu, hs.2.step hs.1 hc hu⟩) steps _ t
    ⟨grounded_boot .., hboot⟩ hcond hrun
  exact hinv.2.authorized

/-! ### Where the condition fails -/

/-- Alice holds her name for good. -/
def heldBoot : Live :=
  sampleBoot [ceremonyBlock, ⟨[claimTx 1 (.claim alice (sampleUa 1) .never) 0 50 60 140], 0, [], []⟩]

/-- An update to a second address is requested, and its code goes to the first. -/
def relaySteps : List Step :=
  [.block ⟨[], 10, [⟨⟨sampleTxid 20, 0⟩, .request (.update alice (sampleUa 2) none), .zero⟩], []⟩,
    .tipPass sampleEnv]

/-- The code comes back. -/
def returnStep : Step :=
  .block ⟨[], 30,
    [⟨⟨sampleTxid 21, 0⟩, .response ⟨sampleCode, alice, .update, sampleUa 2, none, none⟩, .zero⟩], []⟩

theorem codes_bound_returned :
    ∃ t, run (Live.step Params.sample sampleKeys) heldBoot (relaySteps ++ [returnStep]) = some t ∧
      t.log.length = 1 ∧ ∀ note spent relayedTo, Event.authorized note spent relayedTo ∈ t.log →
        ∃ r, spent = some r ∧ relayedTo = some r ∧ note.prevRcm = some r.commitment := by
  have hlen : (run (Live.step Params.sample sampleKeys) heldBoot (relaySteps ++ [returnStep])).map
      (fun t => t.log.length) = some 1 := by
    decide +kernel
  obtain ⟨t, ht, hlen⟩ := Option.map_eq_some_iff.mp hlen
  refine ⟨t, ht, hlen, codes_bound _ _ _ _ _ _ _ _ _ (relaySteps ++ [returnStep]) t ?_ ht⟩
  refine ⟨fun e _ _ _ r _ tx htx => ?_, fun u _ => ⟨trivial, fun v _ => ⟨?_, fun _ _ => trivial⟩⟩⟩
  · cases htx
  · intro e _ _ _ r _ tx htx
    cases htx

/-- Between the two, a transition this process did not admit is confirmed, and the name goes to a third
address. -/
def foreignUpdate : Step :=
  .block ⟨[successorTx 2 (.update alice (sampleUa 3) .never
    ((NameNote.claim alice (sampleUa 1) .never).commitment Params.sample)) 50 51 143], 20, [], []⟩

/-- The code that went to the first address authorizes a transition of the third one's record. -/
theorem codes_bound_foreignUpdate :
    ∃ t, run (Live.step Params.sample sampleKeys) heldBoot (relaySteps ++ [foreignUpdate, returnStep]) =
        some t ∧
      (∃ note spent relayedTo, Event.authorized note (some spent) (some relayedTo) ∈ t.log ∧
        spent.ua = sampleUa 3 ∧ relayedTo.ua = sampleUa 1) ∧
      ¬ ∀ note spent relayedTo, Event.authorized note spent relayedTo ∈ t.log →
        ∃ r, spent = some r ∧ relayedTo = some r ∧ note.prevRcm = some r.commitment := by
  have hlog : (run (Live.step Params.sample sampleKeys) heldBoot
      (relaySteps ++ [foreignUpdate, returnStep])).map
      (fun t => t.log.any fun e => match e with
        | .authorized _ spent relayedTo =>
          spent.any (fun r => r.ua == sampleUa 3) && relayedTo.any fun r => r.ua == sampleUa 1
        | _ => false) = some true := by
    decide +kernel
  obtain ⟨t, ht, hlog⟩ := Option.map_eq_some_iff.mp hlog
  obtain ⟨e, he, htrue⟩ := List.any_eq_true.mp hlog
  split at htrue
  · rename_i note spent relayedTo
    simp only [Bool.and_eq_true, Option.any_eq_true, beq_iff_eq] at htrue
    obtain ⟨⟨r₃, rfl, hua₃⟩, r₁, rfl, hua₁⟩ := htrue
    refine ⟨t, ht, ⟨note, r₃, r₁, he, hua₃, hua₁⟩, fun hall => ?_⟩
    obtain ⟨r, hspent, hto, -⟩ := hall _ _ _ he
    have hne : sampleUa 3 ≠ sampleUa 1 := by decide
    rw [← hua₃, ← hua₁, Option.some.inj hspent, Option.some.inj hto] at hne
    exact hne rfl
  · cases htrue

end ZnsMint.Live
