import ZnsMint.Inbound.Languages
import ZnsMint.Lib.Machine
import ZnsMint.Market.Answers
import ZnsMint.Treasury

/-! # Every challenge can be answered

A challenge is answered by sending its memo back. The memo fits its 512 bytes, the Treasury reads it as
the response it was written from, and the response is accepted for the challenge it came from and for no
other: `OtpQueue::complete` removes that challenge once it was relayed, `Market::answer` closes it.

`Answerable` is what admission grants of a challenge: a controller address and, where the challenge
carries terms, a public-key-hash address and a clock that falls. -/

namespace ZnsMint.Inbound.Challenges

open ZnsMint.Basic ZnsMint.Note ZnsMint.Inbound ZnsMint.Lib ZnsMint.Wire
open ZnsMint.Note.Preimage ZnsMint.Note.Codec ZnsMint.Inbound.Codec ZnsMint.Inbound.Languages
open ZnsMint.Lib.Rollback ZnsMint.Lib.EventLog

variable {w : Wire}

/-! ### The memo -/

/-- The terms a challenge carries beside its verb. -/
def termsOk (m : OtpMemo) : Prop :=
  match m.action with
  | .update | .release | .delist => m.listing = none ∧ m.clock = none
  | .list => m.clock = none ∧ ∃ hash price, m.listing = some (.publicKeyHash hash, price)
  | .auction => m.listing = none ∧ ∃ hash clock, m.clock = some (.publicKeyHash hash, clock) ∧
      clock.isValid = true ∧ clock.start ≤ U32_MAX ∧ clock.finish ≤ U32_MAX
  | .claim | .sale => False

/-- What admission grants of a challenge. -/
structure Answerable (m : OtpMemo) : Prop where
  controller : isController m.ua = true
  terms : termsOk m

/-- The six fields every challenge begins with, and its terms. -/
def challengeFields (w : Wire) (code : OtpCode) (name : Name) (action : Action) (ua : UnifiedAddress)
    (terms : List (List UInt8)) : List (List UInt8) :=
  ascii "ZNS" :: ascii "otp" :: OtpCode.digits code :: name.bytes :: ascii action.asStr ::
    w.encodeUa ua :: terms

theorem length_intercalate (s : List UInt8) (fs : List (List UInt8)) :
    ([COLON].intercalate (s :: fs)).length = s.length + (fs.map fun t => t.length + 1).sum := by
  induction fs generalizing s with
  | nil => simp
  | cons t fs ih =>
    rw [List.intercalate_cons_cons, List.length_append, List.length_append, List.length_singleton, ih,
      List.map_cons, List.sum_cons]
    omega

theorem isController_unknown {ua : UnifiedAddress} (h : isController ua = true) : ua.unknown = [] := by
  simp only [isController, Bool.and_eq_true, List.isEmpty_iff] at h
  exact h.1

/-- The head of a challenge leaves 125 bytes to its terms. -/
theorem length_challengeFields_le (hua : UaLaws w) {code : OtpCode} {name : Name} {action : Action}
    {ua : UnifiedAddress} (hc : isController ua = true) {terms : List (List UInt8)}
    (h : (terms.map fun t => t.length + 1).sum ≤ 125) :
    ([COLON].intercalate (challengeFields w code name action ua terms)).length ≤ 512 := by
  have l1 := hua.length_le ua (isController_unknown hc)
  have l2 : name.bytes.length ≤ 63 := length_name_le name
  have l3 : (OtpCode.digits code).length = 6 := Text.length_fixed 6 _
  have l4 : (ascii "ZNS").length = 3 := rfl
  have l5 : (ascii "otp").length = 3 := rfl
  have l6 := length_asStr_le action
  rw [challengeFields, length_intercalate]
  simp only [List.map_cons, List.sum_cons]
  omega

theorem isField_challengeFields (hua : UaLaws w) {code : OtpCode} {name : Name} {action : Action}
    {ua : UnifiedAddress} {terms : List (List UInt8)} (h : ∀ s ∈ terms, IsField s) :
    ∀ s ∈ challengeFields w code name action ua terms, IsField s := by
  simp only [challengeFields, List.forall_mem_cons]
  exact ⟨by decide, by decide, isField_otpDigits _, isField_name _, isField_asStr _, hua.isField _, h⟩

theorem parse_challengeFields {code : OtpCode} {name : Name} {action : Action}
    (ha : isChallengeAction action = true)
    {ua : UnifiedAddress} {terms : List (List UInt8)} :
    OtpMemo.parse w (challengeFields w code name action ua terms) =
      OtpMemo.parseTerms w code name action (w.encodeUa ua) terms := by
  have hfilter : (some action).filter isChallengeAction = some action := by simp [Option.filter, ha]
  simp [challengeFields, OtpMemo.parse, fromDigits_digits, Name.parse_bytes, Action.parse_asStr, hfilter]

/-- The terms of a challenge, as text. -/
def termFields (w : Wire) (m : OtpMemo) : List (List UInt8) :=
  match m.listing, m.clock with
  | some (payTo, price), _ => [w.encodeAddress payTo, encodeZec price]
  | none, some (payTo, clock) =>
    [w.encodeAddress payTo, encodeZec clock.startPrice, encodeZec clock.minPrice, decimal clock.start,
      decimal clock.finish]
  | none, none => []

theorem Answerable.isChallengeAction {m : OtpMemo} (h : Answerable m) :
    isChallengeAction m.action = true := by
  have ht := h.terms
  rw [termsOk] at ht
  rcases hact : m.action with _ | _ | _ | _ | _ | _ | _ <;> simp only [hact] at ht
  all_goals rfl

/-- The fields of an answerable challenge. -/
theorem Answerable.fields_eq {m : OtpMemo} (h : Answerable m) :
    OtpMemo.fields w m = some (challengeFields w m.code m.name m.action m.ua (termFields w m)) := by
  obtain ⟨code, name, action, ua, listing, clock⟩ := m
  have ht := h.terms
  rcases action with _ | _ | _ | _ | _ | _ | _ <;> simp only [termsOk] at ht
  case update | release | delist =>
    obtain ⟨rfl, rfl⟩ := ht
    rfl
  case list =>
    obtain ⟨rfl, hash, price, rfl⟩ := ht
    rfl
  case auction =>
    obtain ⟨rfl, hash, clock, rfl, -⟩ := ht
    rfl

/-- Terms are fields, and fit what the head leaves. -/
theorem Answerable.termFields_ok (ht : TransparentLaws w) {m : OtpMemo} (h : Answerable m) :
    (∀ s ∈ termFields w m, IsField s) ∧ ((termFields w m).map fun t => t.length + 1).sum ≤ 125 := by
  obtain ⟨code, name, action, ua, listing, clock⟩ := m
  have hterms := h.terms
  rcases action with _ | _ | _ | _ | _ | _ | _ <;> simp only [termsOk] at hterms
  case update | release | delist =>
    obtain ⟨rfl, rfl⟩ := hterms
    simp [termFields]
  case list =>
    obtain ⟨rfl, hash, price, rfl⟩ := hterms
    have l1 := ht.length_le (.publicKeyHash hash)
    have l2 := length_encodeZec_le price
    simp only [termFields, List.forall_mem_cons, List.map_cons, List.sum_cons, List.map_nil, List.sum_nil]
    exact ⟨⟨ht.isField _, isField_encodeZec _, by simp⟩, by omega⟩
  case auction =>
    obtain ⟨rfl, hash, clock, rfl, -, hs, hf⟩ := hterms
    have l1 := ht.length_le (.publicKeyHash hash)
    have l2 := length_encodeZec_le clock.startPrice
    have l3 := length_encodeZec_le clock.minPrice
    have l4 := length_decimal_height hs
    have l5 := length_decimal_height hf
    simp only [termFields, List.forall_mem_cons, List.map_cons, List.sum_cons, List.map_nil, List.sum_nil]
    exact ⟨⟨ht.isField _, isField_encodeZec _, isField_encodeZec _, isField_digits _, isField_digits _,
      by simp⟩, by omega⟩

/-- The terms read back. -/
theorem Answerable.parseTerms (hua : UaLaws w) (ht : TransparentLaws w) {m : OtpMemo} (h : Answerable m) :
    OtpMemo.parseTerms w m.code m.name m.action (w.encodeUa m.ua) (termFields w m) = some m := by
  obtain ⟨code, name, action, ua, listing, clock⟩ := m
  have hterms := h.terms
  have hdec := decodeControllerUa_encode hua (show isController ua = true from h.controller)
  rcases action with _ | _ | _ | _ | _ | _ | _ <;> simp only [termsOk] at hterms
  case update | release | delist =>
    obtain ⟨rfl, rfl⟩ := hterms
    simp [OtpMemo.parseTerms, termFields, Action.isList, Action.isAuction, hdec]
  case list =>
    obtain ⟨rfl, hash, price, rfl⟩ := hterms
    simp [OtpMemo.parseTerms, termFields, Action.isList, hdec, decodeT1_encode ht, decodeZec_encodeZec]
  case auction =>
    obtain ⟨rfl, hash, clock, rfl, hv, hs, hf⟩ := hterms
    simp [OtpMemo.parseTerms, termFields, Action.isList, Action.isAuction, hdec, decodeT1_encode ht,
      decodeZec_encodeZec, decodeHeight_decimal hs, decodeHeight_decimal hf, hv]

/-- **A challenge memo comes back as the response it is.** -/
theorem Answerable.round_trip (hua : UaLaws w) (ht : TransparentLaws w) (hm : MemoLaws w) {m : OtpMemo}
    (h : Answerable m) :
    ∃ memo, OtpMemo.encode w m = some memo ∧ MintInbound.decode w memo = .response m := by
  obtain ⟨hterm, hsum⟩ := h.termFields_ok ht
  have hfields : ∀ s ∈ challengeFields w m.code m.name m.action m.ua (termFields w m), IsField s :=
    isField_challengeFields hua hterm
  have hlen : ([COLON].intercalate (challengeFields w m.code m.name m.action m.ua
      (termFields w m))).length ≤ 512 :=
    length_challengeFields_le hua h.controller hsum
  have henc : OtpMemo.encode w m = some (padded _ hlen) := by
    rw [OtpMemo.encode, h.fields_eq, Option.bind_eq_bind, Option.bind_some, hm.fromBytes_eq, dif_pos hlen]
  refine ⟨padded _ hlen, henc, ?_⟩
  have htext := memoText_padded hm hlen (intercalate_bounds hfields)
  have hne : challengeFields w m.code m.name m.action m.ua (termFields w m) ≠ [] := List.cons_ne_nil _ _
  have hsplit := splitOn_fields hne hfields
  have hparse := (parse_challengeFields (w := w) h.isChallengeAction).trans (h.parseTerms hua ht)
  have hdec : OtpMemo.decode w (padded _ hlen) = some m := by
    rw [OtpMemo.decode, htext, Option.bind_eq_bind, Option.bind_some, hsplit]
    exact hparse
  rw [MintInbound.decode, hdec]

/-! ### The queue of controller challenges -/

/-- What the mint does to the queue. -/
inductive OtpOp where
  | admitRequest (request : Request) (mtp : ℤ) (draws : List OtpCode)
  | challengeIssued (request : Request) (record : NameRecord)
  | expire (mtp : ℤ)
  | dropChallenges (name : Name)
  | complete (response : OtpMemo)

/-- One operation. Absent when the code generator has not ended. -/
def OtpOp.apply (q : OtpQueue) : OtpOp → Option OtpQueue
  | admitRequest request mtp draws => q.admitRequest request mtp draws
  | challengeIssued request record => some (q.challengeIssued request record)
  | expire mtp => some (q.expire mtp)
  | dropChallenges name => some (q.dropChallenges name)
  | complete response => some (q.complete response).1

/-- What a response tells two challenges apart by. -/
def address (e : OtpEntry) : Name × Action × UnifiedAddress × OtpCode :=
  (e.challenge.request.name, e.challenge.request.action, e.challenge.request.ua, e.challenge.code)

/-- No two challenges are answered by one response. -/
def Unambiguous (q : OtpQueue) : Prop := (q.challenges.map address).Nodup

theorem address_missOne {response : OtpMemo} {e e' : OtpEntry}
    (h : OtpQueue.missOne response e = some e') :
    address e' = address e := by
  simp only [OtpQueue.missOne] at h
  split_ifs at h
  · cases h
    rfl
  · cases h
    rfl
  · cases h
    rfl

/-- Every operation keeps the challenges apart: a new one has a code that was free. -/
theorem Unambiguous.apply {q q' : OtpQueue} (h : Unambiguous q) {o : OtpOp}
    (ho : OtpOp.apply q o = some q') :
    Unambiguous q' := by
  rcases o with ⟨request, mtp, draws⟩ | ⟨request, record⟩ | mtp | name | response
  · simp only [OtpOp.apply, OtpQueue.admitRequest] at ho
    split_ifs at ho
    · cases ho
      exact h
    · obtain ⟨code, hcode, rfl⟩ := Option.map_eq_some_iff.mp ho
      have hfree := List.find?_some hcode
      simp only [OtpQueue.codeFree, Bool.not_eq_true', List.any_eq_false] at hfree
      rw [Unambiguous, List.map_append, List.map_singleton, List.nodup_append]
      refine ⟨h, List.nodup_singleton _, ?_⟩
      intro a ha b hb hab
      rw [List.mem_singleton] at hb
      obtain ⟨e, he, rfl⟩ := List.mem_map.mp ha
      subst hb
      simp only [address, Prod.mk.injEq] at hab
      exact hfree e he (by simp [hab])
  · cases ho
    have hmap : (q.challengeIssued request record).challenges.map address = q.challenges.map address := by
      simp only [OtpQueue.challengeIssued, List.map_map]
      refine List.map_congr_left fun e _ => ?_
      simp only [Function.comp]
      split_ifs <;> rfl
    rw [Unambiguous, hmap]
    exact h
  · cases ho
    exact h.sublist (List.filter_sublist.map _)
  · cases ho
    exact h.sublist (List.filter_sublist.map _)
  · simp only [OtpOp.apply, OtpQueue.complete] at ho
    split at ho
    · cases ho
      exact h.sublist (List.eraseP_sublist.map _)
    · cases ho
      exact h.sublist (map_filterMap_sublist (fun _ _ => address_missOne) _)

theorem unambiguous_run {ops : List OtpOp} {q : OtpQueue}
    (h : Machine.run OtpOp.apply .new ops = some q) :
    Unambiguous q := by
  refine Machine.run_invariant (C := fun _ _ => True) (I := Unambiguous)
    (fun s a t hs _ ht => hs.apply ht)
    ops .new q List.nodup_nil ?_ h
  exact Machine.along_true _ _ _

/-- Where one element alone passes `p`, erasing the first that passes is erasing it. -/
theorem eraseP_eq_erase {l : List OtpEntry} {p : OtpEntry → Bool} {e : OtpEntry} (he : p e = true)
    (h : ∀ x ∈ l, p x = true → x = e) : l.eraseP p = l.erase e := by
  induction l with
  | nil => rfl
  | cons x l ih =>
    have ih' := ih fun y hy => h y (List.mem_cons_of_mem _ hy)
    by_cases hx : p x = true
    · rw [h x List.mem_cons_self hx, List.eraseP_cons_of_pos he, List.erase_cons_head]
    · have hne : x ≠ e := fun heq => hx (heq ▸ he)
      rw [List.eraseP_cons_of_neg hx, List.erase_cons_tail (by simpa using hne), ih']

/-- **A relayed challenge is completed by its own memo.** -/
theorem complete_memo {q : OtpQueue} (h : Unambiguous q) {e : OtpEntry} (he : e ∈ q.challenges)
    (hstate : e.state = .relayed) :
    q.complete e.challenge.memo = (⟨q.challenges.erase e⟩, some e) := by
  set right := fun x => OtpQueue.named e.challenge.memo x && x.challenge.code ==
    e.challenge.memo.code with hright
  have hself : right e = true := by
    simp [hright, OtpQueue.named, hstate, OtpChallenge.memo]
  have honly : ∀ x ∈ q.challenges, right x = true → x = e := by
    intro x hx hr
    refine List.inj_on_of_nodup_map h hx he ?_
    simp only [hright, OtpQueue.named, OtpChallenge.memo, Bool.and_eq_true, beq_iff_eq] at hr
    simp [address, hr]
  have hfind : q.challenges.find? right = some e := by
    rcases hf : q.challenges.find? right with _ | x
    · rw [List.find?_eq_none] at hf
      exact absurd hself (hf e he)
    · rw [honly x (List.mem_of_find?_eq_some hf) (List.find?_some hf)]
  have herase : q.challenges.eraseP right = q.challenges.erase e := eraseP_eq_erase hself honly
  simp only [OtpQueue.complete, ← hright, hfind, herase]

/-! ### The market's challenges -/

open Market

theorem sameTerms_memo (c : MarketChallenge) : c.sameTerms c.memo = true := by
  obtain ⟨⟨name, ua, payTo, price | clock⟩ | ⟨name, ua⟩, code, expiresAt, relayed, attempts⟩ := c
  · simp [MarketChallenge.sameTerms, MarketChallenge.memo]
  · simp [MarketChallenge.sameTerms, MarketChallenge.memo]
  · simp [MarketChallenge.sameTerms, MarketChallenge.memo]

theorem memo_code (c : MarketChallenge) : c.memo.code = c.code := rfl

theorem answers_memo (c : MarketChallenge) : answers c.memo c = true := by
  simp [answers, MarketChallenge.memo]

theorem matches_memo (c : MarketChallenge) : Matches c.memo c :=
  matches_iff.mpr ⟨answers_memo c, by simp [memo_code, sameTerms_memo]⟩

/-- **A market challenge is closed by its own memo, and it alone.** -/
theorem answer_memo {m : Market} (h : OneChallengePerCode m) (r : Registry) {c : MarketChallenge}
    (hc : c ∈ m.challenges) (height : ℕ) :
    (m.answer r c.memo height).2 = true ∧
      (m.answer r c.memo height).1.1.challenges = m.challenges.filter fun x =>
        decide (x.code ≠ c.code) := by
  rw [answer_right h r height hc (matches_memo c)]
  exact ⟨rfl, (spent_challenges r c height).trans (h.filter_eq_erase hc).symm⟩

/-! ### Every challenge can be answered -/

/-- What admission grants of a challenge in the queue: an update or a release, and a controller's
address. -/
def issuedOtp (c : OtpChallenge) : Bool :=
  (c.request.action.isUpdate || c.request.action.isRelease) && isController c.request.ua

theorem answerable_otp {c : OtpChallenge} (h : issuedOtp c = true) : Answerable c.memo := by
  simp only [issuedOtp, Bool.and_eq_true] at h
  refine ⟨h.2, ?_⟩
  obtain ⟨⟨n, u, t, k⟩ | ⟨n, u, t⟩ | ⟨n, u⟩, code, expiresAt, attempts⟩ := c
  · cases h.1
  · exact ⟨rfl, rfl⟩
  · exact ⟨rfl, rfl⟩

/-- What admission grants of a market challenge: a controller's address, a public-key-hash address to pay,
and on an auction a clock that falls between two block heights. -/
def issuedMarket (c : MarketChallenge) : Bool :=
  isController c.ua &&
    match c.kind with
    | .delist .. => true
    | .list ⟨_, _, .publicKeyHash _, .flat _⟩ => true
    | .list ⟨_, _, .publicKeyHash _, .dutch clock⟩ =>
      clock.isValid && decide (clock.start ≤ U32_MAX) && decide (clock.finish ≤ U32_MAX)
    | .list ⟨_, _, .scriptHash _, _⟩ => false

theorem answerable_market {c : MarketChallenge} (h : issuedMarket c = true) : Answerable c.memo := by
  simp only [issuedMarket, Bool.and_eq_true] at h
  refine ⟨h.1, ?_⟩
  obtain ⟨⟨name, ua, hash | hash, price | clock⟩ | ⟨name, ua⟩, code, expiresAt, relayed, attempts⟩ := c
  · exact ⟨rfl, hash, price, rfl⟩
  · have h2 := h.2
    simp only [Bool.and_eq_true, decide_eq_true_eq] at h2
    exact ⟨rfl, hash, clock, rfl, h2.1.1, h2.1.2, h2.2⟩
  · cases h.2
  · cases h.2
  · exact ⟨rfl, rfl⟩

/-- **Every challenge can be answered by returning it.** The memo of any challenge that the queue or the
market holds fits, the Treasury reads it as the response it was written from, and that response is
accepted for that challenge and no other. -/
theorem challenges_answerable (w : Wire) (hua : UaLaws w) (ht : TransparentLaws w) (hm : MemoLaws w) :
    (∀ ops q, Machine.run OtpOp.apply OtpQueue.new ops = some q → ∀ e ∈ q.challenges,
      issuedOtp e.challenge = true →
      ∃ memo, OtpMemo.encode w e.challenge.memo = some memo ∧
        MintInbound.decode w memo = .response e.challenge.memo ∧
        (e.state = .relayed → q.complete e.challenge.memo = (⟨q.challenges.erase e⟩, some e))) ∧
    (∀ acts m r, system.run (Market.new, .new) acts = (m, r) → ∀ c ∈ m.challenges, issuedMarket c = true →
      ∃ memo, OtpMemo.encode w c.memo = some memo ∧ MintInbound.decode w memo = .response c.memo ∧
        (∀ c' ∈ m.challenges, (answers c.memo c' && c'.code == c.memo.code && c'.sameTerms c.memo) =
          true ↔
          c' = c) ∧
        ∀ height, (m.answer r c.memo height).2 = true ∧
          (m.answer r c.memo height).1.1.challenges = m.challenges.filter fun x =>
            decide (x.code ≠ c.code)) := by
  constructor
  · intro ops q hq e he hissued
    obtain ⟨memo, henc, hdec⟩ := (answerable_otp hissued).round_trip hua ht hm
    exact ⟨memo, henc, hdec, complete_memo (unambiguous_run hq) he⟩
  · intro acts m r hrun c hc hissued
    obtain ⟨memo, henc, hdec⟩ := (answerable_market hissued).round_trip hua ht hm
    have hone : OneChallengePerCode m := by
      have := oneChallengePerCode_run acts
      rwa [hrun] at this
    refine ⟨memo, henc, hdec, ?_, answer_memo hone r hc⟩
    intro c' hc'
    constructor
    · intro h
      simp only [Bool.and_eq_true, beq_iff_eq] at h
      exact List.inj_on_of_nodup_map hone hc' hc h.1.2
    · rintro rfl
      simp [answers_memo, sameTerms_memo, memo_code]

/-- An update challenge of Alice's, issued and relayed. -/
def updateChallenge : OtpChallenge := ⟨.update alice (sampleUa 1) none, Market.listingCode, 10 + D_OTP, 0⟩

def updateRelayed : List OtpOp :=
  [.admitRequest updateChallenge.request 10 [Market.listingCode],
    .challengeIssued updateChallenge.request Market.sampleRecord]

/-- An update challenge of the queue, and the listing challenge of `alice`, from its proposal to its
answer. -/
theorem challenges_answerable_listing :
    (∃ memo, OtpMemo.encode Wire.sample updateChallenge.memo = some memo ∧
      MintInbound.decode Wire.sample memo = .response updateChallenge.memo ∧
      OtpQueue.complete ⟨[⟨updateChallenge, .relayed, some Market.sampleRecord⟩]⟩ updateChallenge.memo =
        (⟨[]⟩, some ⟨updateChallenge, .relayed, some Market.sampleRecord⟩)) ∧
    ∃ memo, OtpMemo.encode Wire.sample (Market.newChallenge (.list sampleListing) 2 10).memo = some memo ∧
      MintInbound.decode Wire.sample memo = .response
        (Market.newChallenge (.list sampleListing) 2 10).memo := by
  obtain ⟨hqueue, hmarket⟩ := challenges_answerable Wire.sample Wire.sample_uaLaws
    Wire.sample_transparentLaws
    Wire.sample_memoLaws
  constructor
  · obtain ⟨memo, henc, hdec, hcomplete⟩ := hqueue updateRelayed
      ⟨[⟨updateChallenge, .relayed, some Market.sampleRecord⟩]⟩ (by decide +kernel)
      ⟨updateChallenge, .relayed, some Market.sampleRecord⟩ (List.mem_singleton_self _) rfl
    refine ⟨memo, henc, hdec, (hcomplete rfl).trans ?_⟩
    rw [List.erase_cons_head]
  · obtain ⟨memo, henc, hdec, -⟩ := hmarket sampleProposal _ _ rfl
      (Market.newChallenge (.list sampleListing) 2 10) (by decide +kernel) rfl
    exact ⟨memo, henc, hdec⟩

end ZnsMint.Inbound.Challenges
