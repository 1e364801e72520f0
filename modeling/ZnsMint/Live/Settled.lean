import ZnsMint.Live.Payments

/-! # Each arrival is settled once

A block hands its arrivals over one by one, and a tip pass decides the pending requests and submits the
refunds that are due. `SettlesArrival` and `DecidesRequest` say what one turn of the first two loops does
to the refunds; the loops are traces of these. The queues find their entries by transaction or by
equality, and one transaction can carry several payments: what that changes is in
`requests_decide` and in `keys_payRefunds`. -/

namespace ZnsMint.Live

open Basic Note Inbound Registry Pricing Lib.Machine

variable {params : Params} {keys : Keys} {env : TipEnv} {rate : Zatoshis} {s t u : Live}

/-! ### At most one refund, and for how much -/

/-- The refund queue gains at most one entry: for this payment, of a positive amount, which together with
the withheld fee is `most` at most. -/
def OwesOne (payment : PaymentRef) (most : ℕ) (s t : Live) : Prop :=
  t.refunds = s.refunds ∨
    ∃ r : RefundRequest, t.refunds.refundsDue = s.refunds.refundsDue ++ [r] ∧ r.payment = payment ∧
      0 < r.amount.val ∧ r.amount.val + s.marginalFee.val * FEE_ACTIONS ≤ most

theorem refundOutput_spec {paid fee amount : Zatoshis} (h : refundOutput paid fee = some amount) :
    0 < amount.val ∧ amount.val + fee.val * FEE_ACTIONS = paid.val := by
  unfold refundOutput at h
  obtain ⟨withheld, hfee, h⟩ := Option.bind_eq_some_iff.mp h
  obtain ⟨hsub, hpos⟩ := Option.filter_eq_some_iff.mp h
  have hwithheld : withheld.val = fee.val * FEE_ACTIONS := by
    unfold Zatoshis.mul Zatoshis.fromU64 at hfee
    split_ifs at hfee
    rw [← Option.some.inj hfee]
  have hamount : amount.val + withheld.val = paid.val := by
    unfold Zatoshis.sub at hsub
    split_ifs at hsub
    rw [← Option.some.inj hsub]
    dsimp only
    omega
  exact ⟨by simpa using hpos, by rw [← hwithheld]; exact hamount⟩

/-- Whatever is refunded of a payment leaves the fee withheld. -/
theorem OwesOne.refund (s : Live) (payment : PaymentRef) (recipient : UnifiedAddress)
    (name : Name) (height : ℕ)
    {refundable : Zatoshis} (note : Option (List UInt8)) {most : ℕ} (h : refundable.val ≤ most) :
    OwesOne payment most s (s.refund payment recipient name height refundable note) := by
  unfold Live.refund RefundQueue.admitWithNote
  rcases hout : refundOutput refundable s.marginalFee with _ | amount
  · exact Or.inl rfl
  · obtain ⟨hpos, hle⟩ := refundOutput_spec hout
    exact Or.inr ⟨⟨payment, recipient, amount, name, height, note⟩, rfl, rfl, hpos, by dsimp only; omega⟩

/-- Only the refunds and the fee rate before matter. -/
theorem OwesOne.congr {payment : PaymentRef} {most : ℕ} (h : OwesOne payment most u t)
    (hrefunds : u.refunds = s.refunds) (hfee : u.marginalFee = s.marginalFee) :
    OwesOne payment most s t := by
  unfold OwesOne at *
  rwa [hrefunds, hfee] at h

theorem OwesOne.returned (s : Live) (a : Arrival) (response : OtpMemo) :
    OwesOne a.payment a.paid.val s (s.returned a response) :=
  OwesOne.refund s a.payment response.ua response.name s.tip none le_rfl

/-! ### One arrival -/

/-- The queues an admission of a transition does not touch. -/
theorem admitTransition_frame (s : Live) (note : NameNote) :
    (s.admitTransition note).refunds = s.refunds ∧ (s.admitTransition note).requests = s.requests ∧
      (s.admitTransition note).marginalFee = s.marginalFee ∧ (s.admitTransition note).tip = s.tip := by
  unfold admitTransition
  simp only
  split_ifs <;> exact ⟨rfl, rfl, rfl, rfl⟩

/-- What `restOf` leaves is never more than the payment. -/
theorem restOf_le {request : Request} {paid rest : Zatoshis} (h : s.restOf request paid = some rest) :
    rest.val ≤ paid.val := by
  unfold restOf at h
  split at h
  · obtain ⟨price, -, hrest⟩ := Option.map_eq_some_iff.mp h
    rw [← hrest]
    exact Nat.zero_le _
  · cases h
    exact le_rfl

/-- What one arrival does to the queues: at most one refund, no refund for a request that is recorded,
and none for an update with a term whose order it admits. -/
structure SettlesArrival (keys : Keys) (s : Live) (a : Arrival) (t : Live) : Prop where
  handled : t = s.arrive keys a
  owes : OwesOne a.payment a.paid.val s t
  fee : t.marginalFee = s.marginalFee
  tip : t.tip = s.tip
  request : ∀ request, a.inbound = .request request →
    t.refunds = s.refunds ∧ t.requests = s.requests.record ⟨a.payment, request, a.paid, s.tip⟩
  other : (∀ request, a.inbound ≠ .request request) → t.requests = s.requests
  term : ∀ response challenges sent name ua term, a.inbound = .response response →
    s.challenges.complete response = (challenges, some sent) →
    sent.challenge.request = .update name ua (some term) → t.nameNotes ≠ s.nameNotes →
      t.refunds = s.refunds

/-- The parts of `SettlesArrival` that a response has to show. -/
structure SettlesResponse (s : Live) (a : Arrival) (t : Live) : Prop where
  owes : OwesOne a.payment a.paid.val s t
  fee : t.marginalFee = s.marginalFee
  tip : t.tip = s.tip
  requests : t.requests = s.requests

theorem SettlesResponse.returned {q : OtpQueue} {m : Market} {r : Registry} (a : Arrival)
    (response : OtpMemo) :
    SettlesResponse s a ({ s with challenges := q, market := m, registry := r }.returned a response) :=
  ⟨(OwesOne.returned _ a response).congr rfl rfl, rfl, rfl, rfl⟩

theorem settles_enactResponse (s : Live) (q : OtpQueue) (a : Arrival) (response : OtpMemo)
    (sent : OtpEntry) :
    SettlesResponse s a ({ s with challenges := q }.enactResponse a response sent) ∧
      ∀ name ua term, sent.challenge.request = .update name ua (some term) →
        ({ s with challenges := q }.enactResponse a response sent).nameNotes ≠ s.nameNotes →
        ({ s with challenges := q }.enactResponse a response sent).refunds = s.refunds := by
  have hback : SettlesResponse s a ({ s with challenges := q }.returned a response) :=
    SettlesResponse.returned a response
  have hsame : ∀ {P : Prop}, ({ s with challenges := q }.returned a response).nameNotes ≠
      s.nameNotes → P :=
    fun h => (h rfl).elim
  unfold enactResponse
  split
  · exact ⟨hback, fun _ _ _ _ h => hsame h⟩
  rename_i rest hrest
  split
  · exact ⟨hback, fun _ _ _ _ h => hsame h⟩
  split
  · exact ⟨⟨Or.inl rfl, rfl, rfl, rfl⟩, fun _ _ _ _ _ => rfl⟩
  split
  · exact ⟨hback, fun _ _ _ _ h => hsame h⟩
  rename_i note hnote
  obtain ⟨hrefunds, hrequests, hfee, htip⟩ := admitTransition_frame
    ({ s with challenges := q }.record (.authorized note (s.registry.record sent.name) sent.relayedTo))
    note
  simp only
  split_ifs with hpos
  · refine ⟨⟨?_, hfee, htip, hrequests⟩, ?_⟩
    · exact (OwesOne.refund _ a.payment response.ua sent.name _ none (restOf_le hrest)).congr
        hrefunds hfee
    · -- the payment of a term leaves nothing over
      intro name ua term hterm _
      rw [hterm] at hrest
      obtain ⟨price, -, hzero⟩ := Option.map_eq_some_iff.mp hrest
      rw [← hzero] at hpos
      exact absurd hpos (lt_irrefl 0)
  · exact ⟨⟨Or.inl hrefunds, hfee, htip, hrequests⟩, fun _ _ _ _ _ => hrefunds⟩

theorem settles_respond (s : Live) (a : Arrival) (response : OtpMemo) :
    SettlesResponse s a (s.respond a response) ∧
      ∀ challenges sent name ua term, s.challenges.complete response = (challenges, some sent) →
        sent.challenge.request = .update name ua (some term) →
        (s.respond a response).nameNotes ≠ s.nameNotes → (s.respond a response).refunds = s.refunds := by
  unfold respond
  split_ifs
  · exact ⟨SettlesResponse.returned a response, fun _ _ _ _ _ _ _ h => (h rfl).elim⟩
  · exact ⟨SettlesResponse.returned a response, fun _ _ _ _ _ _ _ h => (h rfl).elim⟩
  · split
    · exact ⟨SettlesResponse.returned a response, fun _ _ _ _ _ _ _ h => (h rfl).elim⟩
    · rename_i q sent hq
      obtain ⟨hsettles, hterm⟩ := settles_enactResponse s q a response sent
      refine ⟨hsettles, ?_⟩
      intro challenges sent' name ua term hcomplete hupdate
      rw [hq] at hcomplete
      cases hcomplete
      exact hterm name ua term hupdate

theorem settles_admitMarket (keys : Keys) (s : Live) (a : Arrival) (request : MarketRequest) :
    SettlesResponse s a (s.admitMarket keys a request) := by
  unfold admitMarket
  generalize Market.admitRequest keys.toOtpKeys s.market a.payment.txid request a.paid s.registry
    s.marginalFee s.tip s.mtp s.nameNotes.notePending = res
  obtain ⟨m, opened, back⟩ := res
  rcases back with _ | back
  · exact ⟨Or.inl rfl, rfl, rfl, rfl⟩
  · exact ⟨(OwesOne.refund _ a.payment back.recipient back.name _ (some back.note) le_rfl).congr rfl rfl,
      rfl, rfl,
      rfl⟩

/-- **One arrival** settles as `SettlesArrival` says. -/
theorem settles_arrive (keys : Keys) (s : Live) (a : Arrival) :
    SettlesArrival keys s a (s.arrive keys a) := by
  rcases hin : a.inbound with request | request | response | _
  · have ht : s.arrive keys a =
        { s with requests := s.requests.record ⟨a.payment, request, a.paid, s.tip⟩ } := by
      unfold arrive
      rw [hin]
    rw [ht]
    refine ⟨ht.symm, Or.inl rfl, rfl, rfl, ?_, fun h => (h request hin).elim, ?_⟩
    · intro request' hin'
      rw [hin] at hin'
      cases hin'
      exact ⟨rfl, rfl⟩
    · intro response _ _ _ _ _ hin'
      rw [hin] at hin'
      cases hin'
  · have ht : s.arrive keys a = s.admitMarket keys a request := by
      unfold arrive
      rw [hin]
    rw [ht]
    obtain ⟨howes, hfee, htip, hrequests⟩ := settles_admitMarket keys s a request
    refine ⟨ht.symm, howes, hfee, htip, ?_, fun _ => hrequests, ?_⟩
    · intro request' hin'
      rw [hin] at hin'
      cases hin'
    · intro response _ _ _ _ _ hin'
      rw [hin] at hin'
      cases hin'
  · have ht : s.arrive keys a = s.respond a response := by
      unfold arrive
      rw [hin]
    rw [ht]
    obtain ⟨⟨howes, hfee, htip, hrequests⟩, hterm⟩ := settles_respond s a response
    refine ⟨ht.symm, howes, hfee, htip, ?_, fun _ => hrequests, ?_⟩
    · intro request' hin'
      rw [hin] at hin'
      cases hin'
    · intro response' challenges sent name ua term hin'
      rw [hin] at hin'
      cases hin'
      exact hterm challenges sent name ua term
  · have ht : s.arrive keys a = s := by
      unfold arrive
      rw [hin]
    rw [ht]
    refine ⟨ht.symm, Or.inl rfl, rfl, rfl, ?_, fun _ => rfl, fun _ _ _ _ _ _ _ _ _ _ => rfl⟩
    intro request' hin'
    rw [hin] at hin'
    cases hin'

/-- The request an arrival leaves for the next pass. -/
def recorded (tip : ℕ) (a : Arrival) : Option PendingRequest :=
  match a.inbound with
  | .request request => some ⟨a.payment, request, a.paid, tip⟩
  | _ => none

theorem SettlesArrival.requests {a : Arrival} (h : SettlesArrival keys s a t) :
    t.requests.requests = s.requests.requests ++ (recorded s.tip a).toList := by
  unfold recorded
  rcases hin : a.inbound with request | request | response | _
  · rw [(h.request request hin).2]
    rfl
  all_goals
    rw [h.other fun request' hin' => by rw [hin] at hin'; cases hin']
    simp

/-- A recorded request owes nothing yet. -/
theorem SettlesArrival.recorded_owes {a : Arrival} {e : PendingRequest} (h : SettlesArrival keys s a t)
    (he : recorded s.tip a = some e) : t.refunds = s.refunds ∧ e.payment = a.payment := by
  unfold recorded at he
  rcases hin : a.inbound with request | request | response | _
  · simp only [hin, Option.some.injEq] at he
    rw [← he]
    exact ⟨(h.request request hin).1, rfl⟩
  all_goals simp [hin] at he

theorem requests_arrivals {l : List Arrival} (h : Trace (SettlesArrival keys) s l t) :
    t.requests.requests = s.requests.requests ++ l.filterMap (recorded s.tip) ∧ t.tip = s.tip ∧
      t.marginalFee = s.marginalFee := by
  induction h with
  | nil s => simp
  | @cons s t u a l head _ ih =>
    obtain ⟨hrequests, htip, hfee⟩ := ih
    refine ⟨?_, htip.trans head.tip, hfee.trans head.fee⟩
    rw [hrequests, head.requests, head.tip, List.append_assoc]
    rcases he : recorded s.tip a with _ | e <;> simp [he]

/-! ### One decision -/

/-- The claim offers a code for a protected name, covers the price, and the code is not the name's. An
underpaid claim is returned before its code is looked at. -/
structure WrongCode (keys : Keys) (env : TipEnv) (rate : Zatoshis) (s : Live) (e : PendingRequest)
    (price : Zatoshis) : Prop where
  claim : ∃ name ua term code, e.request = .claim name ua term (some code) ∧
    env.isProtected name s.mtp = true ∧ keys.accepts name (some code) = false ∧
    quoteAt rate name term = some price
  covered : price.val ≤ e.paid.val

/-- What one decision does to the queues: at most one refund, less the penalty on a wrong code, and none
where an order is admitted. -/
structure DecidesRequest (keys : Keys) (env : TipEnv) (rate : Zatoshis) (s : Live)
    (e : PendingRequest) (t : Live) :
    Prop where
  handled : s.decideOne keys env rate e = some t
  owes : OwesOne e.payment e.paid.val s t
  fee : t.marginalFee = s.marginalFee
  tip : t.tip = s.tip
  requests : t.requests = s.requests.resolved e.payment.txid
  penalty : ∀ price, WrongCode keys env rate s e price →
    OwesOne e.payment (e.paid.val - price.val / 100) s t
  admitted : t.nameNotes ≠ s.nameNotes → t.refunds = s.refunds

theorem sub_getD_le (a b : Zatoshis) : ((a.sub b).getD .zero).val ≤ a.val := by
  unfold Zatoshis.sub
  split_ifs
  · exact Nat.sub_le _ _
  · exact Nat.zero_le _

theorem refundable_le {e : PendingRequest} {refundable : Zatoshis}
    (h : s.rule keys env rate e = .refund refundable) : refundable.val ≤ e.paid.val := by
  unfold rule at h
  split at h
  · unfold ruleClaim at h
    simp only at h
    split at h
    · cases h
      exact le_rfl
    split at h
    · cases h
    split at h
    · cases h
      exact le_rfl
    split at h
    · cases h
      exact sub_getD_le _ _
    split at h
    · split_ifs at h
      cases h
      exact le_rfl
    · cases h
  · unfold ruleChallenge at h
    split_ifs at h

/-- On a wrong code the ruling is the payment less the penalty. -/
theorem rule_wrongCode {e : PendingRequest} {price : Zatoshis} (h : WrongCode keys env rate s e price) :
    ∃ refundable, s.rule keys env rate e = .refund refundable ∧
      refundable.val = e.paid.val - price.val / 100 := by
  obtain ⟨⟨name, ua, term, code, hrequest, hprotected, haccepts, hquote⟩, hcovered⟩ := h
  have hpenalty : price.val / 100 ≤ e.paid.val := le_trans (Nat.div_le_self _ _) hcovered
  have hsub : e.paid.sub (accessCodePenalty price) =
      some ⟨e.paid.val - price.val / 100, le_trans (Nat.sub_le _ _) e.paid.le⟩ := by
    unfold Zatoshis.sub accessCodePenalty Zatoshis.div
    exact if_pos hpenalty
  refine ⟨(e.paid.sub (accessCodePenalty price)).getD .zero, ?_, by rw [hsub]; rfl⟩
  have hnot : ¬e.paid.val < price.val := by omega
  simp [rule, hrequest, ruleClaim, hprotected, hquote, hnot, haccepts]

theorem decides_enact {e : PendingRequest} {ruling : Ruling} {most : ℕ}
    (hmost : ∀ refundable, ruling = .refund refundable → refundable.val ≤ most)
    (hclaim : ∀ note, ruling = .claim note → e.paid.val ≤ most) (h : s.enact env e ruling = some t) :
    OwesOne e.payment most s t ∧ t.marginalFee = s.marginalFee ∧ t.tip = s.tip ∧
      (t.nameNotes ≠ s.nameNotes → t.refunds = s.refunds) := by
  cases ruling with
  | keep =>
    cases h
    exact ⟨Or.inl rfl, rfl, rfl, fun _ => rfl⟩
  | refund refundable =>
    cases h
    exact ⟨OwesOne.refund _ _ _ _ _ _ (hmost refundable rfl), rfl, rfl, fun hne => (hne rfl).elim⟩
  | claim note =>
    unfold enact at h
    simp only at h
    split_ifs at h
    · cases h
      exact ⟨Or.inl rfl, rfl, rfl, fun _ => rfl⟩
    · cases h
      exact ⟨OwesOne.refund _ _ _ _ _ _ (hclaim note rfl), rfl, rfl, fun hne => (hne rfl).elim⟩
  | challenge =>
    obtain ⟨q, -, rfl⟩ := Option.map_eq_some_iff.mp h
    exact ⟨Or.inl rfl, rfl, rfl, fun _ => rfl⟩

/-- **One decision** settles its request as `DecidesRequest` says. -/
theorem decides_decideOne {e : PendingRequest} (h : s.decideOne keys env rate e = some t) :
    DecidesRequest keys env rate s e t := by
  have henact := h
  unfold decideOne at henact
  simp only at henact
  set v := { s with requests := s.requests.resolved e.payment.txid } with hv
  have hrule : v.rule keys env rate e = s.rule keys env rate e := rfl
  obtain ⟨howes, hfee, htip, hadmitted⟩ := decides_enact (fun _ hr => refundable_le hr)
    (fun _ _ => le_rfl) henact
  refine ⟨h, howes.congr rfl rfl, hfee, htip, (enact_requests henact .empty).1, ?_, hadmitted⟩
  intro price hwrong
  obtain ⟨refundable, hruling, hval⟩ := rule_wrongCode hwrong
  have hmost : ∀ r, v.rule keys env rate e = .refund r → r.val ≤ e.paid.val - price.val / 100 := by
    intro r hr
    rw [hrule, hruling] at hr
    cases hr
    exact hval.le
  have hnoclaim : ∀ note, v.rule keys env rate e = .claim note →
      e.paid.val ≤ e.paid.val - price.val / 100 := by
    intro note hnote
    rw [hrule, hruling] at hnote
    cases hnote
  exact (decides_enact hmost hnoclaim henact).1.congr rfl rfl

/-- Although an entry leaves with every other of its transaction, the loop has a copy of all of them and
decides each once: when it ends, none is left. -/
theorem requests_decide {l : List PendingRequest} (h : Trace (DecidesRequest keys env rate) s l t)
    (hl : s.requests.requests ⊆ l) : t.requests.requests = [] ∧ t.tip = s.tip := by
  induction h with
  | nil s => exact ⟨List.subset_nil.mp hl, rfl⟩
  | @cons s t u e l head _ ih =>
    have hsub : t.requests.requests ⊆ l := by
      intro x hx
      rw [head.requests] at hx
      obtain ⟨hx, htxid⟩ := List.mem_filter.mp hx
      rcases List.mem_cons.mp (hl hx) with rfl | hx
      · simp at htxid
      · exact hx
    obtain ⟨hnil, htip⟩ := ih hsub
    exact ⟨hnil, htip.trans head.tip⟩

/-! ### One refund for each payment -/

/-- The payments the queued refunds answer. -/
def owed (s : Live) : List PaymentRef := s.refunds.refundsDue.map RefundRequest.payment

theorem OwesOne.count {payment : PaymentRef} {most : ℕ} (h : OwesOne payment most s t) (x : PaymentRef) :
    (owed t).count x ≤ (owed s).count x + [payment].count x := by
  unfold owed
  rcases h with hsame | ⟨r, hrefunds, hpayment, -⟩
  · rw [hsame]
    exact Nat.le_add_right _ _
  · rw [hrefunds, List.map_append, List.count_append, List.map_singleton, hpayment]

theorem count_arrivals {l : List Arrival} (h : Trace (SettlesArrival keys) s l t) (x : PaymentRef) :
    (owed t).count x + (t.requests.requests.map PendingRequest.payment).count x ≤
      (owed s).count x + (s.requests.requests.map PendingRequest.payment).count x +
        (l.map Arrival.payment).count x := by
  induction h with
  | nil s => simp
  | @cons s t u a l head _ ih =>
    have hstep : (owed t).count x + (t.requests.requests.map PendingRequest.payment).count x ≤
        (owed s).count x + (s.requests.requests.map PendingRequest.payment).count x +
          [a.payment].count x := by
      have howes := head.owes.count x
      rw [head.requests]
      rcases he : recorded s.tip a with _ | e
      · simp only [Option.toList_none, List.append_nil]
        omega
      · obtain ⟨hrefunds, hpayment⟩ := head.recorded_owes he
        have hsame : owed t = owed s := by
          unfold owed
          rw [hrefunds]
        rw [hsame, Option.toList_some, List.map_append, List.count_append, List.map_singleton, hpayment]
        omega
    rw [List.map_cons, ← List.singleton_append, List.count_append]
    omega

theorem count_decisions {l : List PendingRequest} (h : Trace (DecidesRequest keys env rate) s l t)
    (x : PaymentRef) : (owed t).count x ≤ (owed s).count x + (l.map PendingRequest.payment).count x := by
  induction h with
  | nil s => simp
  | @cons s t u e l head _ ih =>
    have hstep := head.owes.count x
    rw [List.map_cons, ← List.singleton_append, List.count_append]
    omega

/-! ### The rest of the pass -/

/-- The chain, the market and the fee rate are as they were. -/
structure Still (s t : Live) : Prop where
  tip : t.tip = s.tip
  mtp : t.mtp = s.mtp
  registry : t.registry = s.registry
  market : t.market = s.market
  marginalFee : t.marginalFee = s.marginalFee

/-- And the refunds. -/
structure Quiet (s t : Live) : Prop extends Still s t where
  refunds : t.refunds = s.refunds

theorem Still.refl (s : Live) : Still s s := ⟨rfl, rfl, rfl, rfl, rfl⟩

theorem Still.trans (h : Still s t) (h' : Still t u) : Still s u where
  tip := h'.tip.trans h.tip
  mtp := h'.mtp.trans h.mtp
  registry := h'.registry.trans h.registry
  market := h'.market.trans h.market
  marginalFee := h'.marginalFee.trans h.marginalFee

theorem Quiet.refl (s : Live) : Quiet s s := ⟨.refl s, rfl⟩

theorem Quiet.trans (h : Quiet s t) (h' : Quiet t u) : Quiet s u :=
  ⟨h.toStill.trans h'.toStill, h'.refunds.trans h.refunds⟩

theorem quiet_foldl {α : Type} {f : Live → α → Live} (hf : ∀ u a, Quiet u (f u a))
    (l : List α) (s : Live) :
    Quiet s (l.foldl f s) :=
  foldl_invariant (I := fun _ u => Quiet s u) (fun a _ u hu => hu.trans (hf u a)) l s (.refl s)

theorem quiet_foldlM {α : Type} {f : Live → α → Option Live} (hf : ∀ u a v, f u a = some v → Quiet u v)
    {l : List α} (h : l.foldlM f s = some t) : Quiet s t :=
  foldlM_invariant (I := fun _ u => Quiet s u) (fun a _ u v hu hv => hu.trans (hf u a v hv)) l s
    t (.refl s) h

theorem quiet_relayOne (env : TipEnv) (s : Live) (pending : OtpChallenge) :
    Quiet s (s.relayOne env pending) := by
  unfold relayOne
  split
  · exact .refl s
  split
  · exact .refl s
  split <;> exact ⟨⟨rfl, rfl, rfl, rfl, rfl⟩, rfl⟩

theorem quiet_admitTransition (s : Live) (note : NameNote) : Quiet s (s.admitTransition note) := by
  unfold admitTransition
  simp only
  split_ifs
  · exact ⟨⟨rfl, rfl, rfl, rfl, rfl⟩, rfl⟩
  · exact .refl s

theorem quiet_pollSales (s : Live) :
    Quiet { s with market := (s.market.poll s.registry s.nameNotes.notePending s.tip).1 } s.pollSales :=
  quiet_foldl quiet_admitTransition (s.market.poll s.registry s.nameNotes.notePending s.tip).2 _

theorem quiet_admitRelease (s : Live) (e : Name × NameNote) : Quiet s (s.admitRelease e) := by
  unfold admitRelease
  split
  · exact .refl s
  · exact quiet_admitTransition s e.2

theorem quiet_dropOrder {looked : Order} (h : s.dropOrder looked = some t) : Quiet s t := by
  obtain ⟨nameNotes, log, rfl⟩ := dropOrder_frame h
  exact ⟨⟨rfl, rfl, rfl, rfl, rfl⟩, rfl⟩

theorem quiet_dropDueOne {looked : Order} (h : s.dropDueOne looked = some t) : Quiet s t := by
  unfold dropDueOne at h
  split_ifs at h
  · exact quiet_dropOrder h
  · cases h
    exact .refl s

theorem quiet_submit {looked : Order} {nf : Nullifier} (h : s.submit params env looked nf = some t) :
    Quiet s t := by
  obtain ⟨wallet, nameNotes, log, rfl⟩ := submit_frame h
  exact ⟨⟨rfl, rfl, rfl, rfl, rfl⟩, rfl⟩

theorem quiet_sendOne {looked : Order} (h : s.sendOne params env looked = some t) : Quiet s t := by
  unfold sendOne at h
  split at h
  · split at h
    · exact quiet_dropOrder h
    split at h
    · cases h
      exact .refl s
    · exact quiet_submit h
  · split at h
    · exact quiet_dropOrder h
    · exact quiet_submit h

theorem quiet_expireSent (s : Live) : Quiet s { s with nameNotes := s.nameNotes.expireSent s.tip } :=
  ⟨⟨rfl, rfl, rfl, rfl, rfl⟩, rfl⟩

theorem quiet_relays (env : TipEnv) (s : Live) :
    Quiet s (s.challenges.requested.foldl (relayOne env) s) ∧
      (s.challenges.requested.foldl (relayOne env) s).nameNotes = s.nameNotes := by
  refine ⟨quiet_foldl (quiet_relayOne env) s.challenges.requested s, ?_⟩
  refine foldl_invariant (I := fun _ u => u.nameNotes = s.nameNotes) (fun a _ u hu => ?_) _ s rfl
  rw [← hu]
  unfold relayOne
  split
  · rfl
  split
  · rfl
  split <;> rfl

/-- The market's part of a pass: codes are sent, and the sales are polled. -/
def marketPass (env : TipEnv) (s : Live) : Market :=
  ((s.relayMarket env).market.poll s.registry s.nameNotes.notePending s.tip).1

theorem quiet_marketPass (env : TipEnv) (u : Live) :
    Quiet { u with market := u.marketPass env } (u.relayMarket env).pollSales :=
  quiet_pollSales (u.relayMarket env)

/-- A pass, cut where its requests are decided and where it pays. -/
theorem tipPass_split (h : s.tipPass params keys env = some t) :
    ∃ d u v, s.requests.requests.foldlM (decideOne keys env s.rate)
        { s with rate := env.rate, marginalFee := env.marginalFee } = some d ∧
      (Quiet d u ∧ u.nameNotes = d.nameNotes) ∧ Quiet { u with market := u.marketPass env } v ∧
      (v.refunds.due v.tip).foldlM (payOne env) v = some t := by
  unfold tipPass at h
  obtain ⟨d, hdecide, h⟩ := Option.bind_eq_some_iff.mp h
  obtain ⟨s₂, hdue, h⟩ := Option.bind_eq_some_iff.mp h
  obtain ⟨v, hsend, h⟩ := Option.bind_eq_some_iff.mp h
  refine ⟨d, d.challenges.requested.foldl (relayOne env) d, v, hdecide, quiet_relays env d, ?_, h⟩
  have hpoll := quiet_marketPass env (d.challenges.requested.foldl (relayOne env) d)
  have hsent : Quiet _ s₂ := quiet_foldlM (fun _ _ _ hv => quiet_dropDueOne hv) hdue
  have hreleases := quiet_foldl quiet_admitRelease (s₂.registry.releasesDue s₂.mtp) s₂
  have hlast : Quiet _ v := quiet_foldlM (fun _ _ _ hv => quiet_sendOne hv) hsend
  have hexpired : Quiet _ s₂ := (hpoll.trans (quiet_expireSent _)).trans hsent
  exact hexpired.trans (hreleases.trans hlast)

/-! ### Paying -/

/-- The entries of the queue as the mint stores them. -/
def refundKeys (s : Live) : List (TxId × UnifiedAddress × Zatoshis × Name × ℕ × Option (List UInt8)) :=
  s.refunds.refundsDue.map RefundRequest.key

/-- A refund that `submit` accepts leaves once, whichever of several equal entries goes. -/
theorem count_payOne {r : RefundRequest} (hpay : s.payOne env r = some t)
    (h : 0 < (refundKeys s).count r.key)
    (k : TxId × UnifiedAddress × Zatoshis × Name × ℕ × Option (List UInt8)) :
    (refundKeys t).count k + (([r].filter env.refundTold).map RefundRequest.key).count k =
      (refundKeys s).count k := by
  rcases payOne_cases hpay with ⟨htold, -, rfl⟩ | ⟨htold, -, rfl⟩ | ⟨htold, -, -, rfl⟩
  · simp [htold]
  · obtain ⟨x, l₁, l₂, hsettled, hkey, hrefunds, herase⟩ := settledBy_isSome h
    rw [hsettled, herase]
    simp only [refundKeys, Live.record, hrefunds, List.map_append, List.map_cons, List.count_append,
      List.count_cons, hkey, htold, List.filter_cons_of_pos, List.filter_nil, List.map_nil,
        List.count_nil]
    omega
  · simp [htold, refundKeys, Live.record]

theorem count_payRefunds {l : List RefundRequest} (hpay : l.foldlM (payOne env) s = some t)
    (h : ∀ k, (l.map RefundRequest.key).count k ≤ (refundKeys s).count k)
    (k : TxId × UnifiedAddress × Zatoshis × Name × ℕ × Option (List UInt8)) :
    (refundKeys t).count k + ((l.filter env.refundTold).map RefundRequest.key).count k =
      (refundKeys s).count k := by
  induction l generalizing s with
  | nil =>
    rw [List.foldlM_nil] at hpay
    cases hpay
    simp
  | cons r l ih =>
    rw [List.foldlM_cons] at hpay
    obtain ⟨u, hr, hl⟩ := Option.bind_eq_some_iff.mp hpay
    have hin : 0 < (refundKeys s).count r.key := by
      have hle := h r.key
      rw [List.map_cons, List.count_cons_self] at hle
      omega
    have hone := count_payOne hr hin
    have hrest : ∀ j, (l.map RefundRequest.key).count j ≤ (refundKeys u).count j := by
      intro j
      have hle := h j
      have hj := hone j
      rw [List.map_cons, List.count_cons] at hle
      by_cases htold : env.refundTold r = true
      · simp only [htold, List.filter_cons_of_pos, List.filter_nil, List.map_cons, List.map_nil,
          List.count_cons,
          List.count_nil] at hj
        omega
      · simp only [htold, Bool.false_eq_true, not_false_eq_true, List.filter_cons_of_neg, List.filter_nil,
          List.map_nil, List.count_nil] at hj
        omega
    have hsplit : (r :: l).filter env.refundTold = [r].filter env.refundTold ++
        l.filter env.refundTold := by
      rw [← List.filter_append, List.singleton_append]
    have hk := hone k
    have hrun := ih hl hrest
    rw [hsplit, List.map_append, List.count_append]
    omega

/-- **Paying**: what stays is what was not due, and what `submit` did not accept. -/
theorem keys_payRefunds (hpay : (s.refunds.due s.tip).foldlM (payOne env) s = some t) :
    (refundKeys t).Perm ((s.refunds.refundsDue.filter fun r =>
      !(decide (r.height < s.tip) && env.refundTold r)).map RefundRequest.key) := by
  rw [List.perm_iff_count]
  intro k
  have hdue : ∀ j, ((s.refunds.due s.tip).map RefundRequest.key).count j ≤ (refundKeys s).count j :=
    fun j => (List.filter_sublist.map _).count_le j
  have hpaid := count_payRefunds hpay hdue k
  have hboth : (s.refunds.due s.tip).filter env.refundTold =
      s.refunds.refundsDue.filter fun r => decide (r.height < s.tip) && env.refundTold r := by
    rw [RefundQueue.due, List.filter_filter]
    exact List.filter_congr fun r _ => Bool.and_comm _ _
  rw [hboth] at hpaid
  have hparts := (List.filter_append_perm (fun r => decide (r.height < s.tip) && env.refundTold r)
    s.refunds.refundsDue).map RefundRequest.key
  have hcount := hparts.count_eq k
  rw [List.map_append, List.count_append] at hcount
  unfold refundKeys at hpaid ⊢
  omega

/-- Of every refund a pass submits, the node has what `submit` accepts, and otherwise only what was
lost. -/
theorem refundLost_iff {l : List RefundRequest} (hpay : l.foldlM (payOne env) s = some t)
    {r : RefundRequest}
    (hr : r ∈ l) : (∃ txid, env.issued r = some txid ∧ env.Lost txid) ↔
      env.refundTaken r = true ∧ env.refundTold r = false := by
  induction l generalizing s with
  | nil => cases hr
  | cons x l ih =>
    rw [List.foldlM_cons] at hpay
    obtain ⟨u, hx, hl⟩ := Option.bind_eq_some_iff.mp hpay
    rcases List.mem_cons.mp hr with rfl | hr
    · constructor
      · rintro ⟨txid, hissued, hlost⟩
        obtain ⟨htold, htaken⟩ := Zebra.lost_iff.mp hlost
        have htold' : env.submit txid = some false := htold
        have htaken' : env.takes txid = true := htaken
        exact ⟨by simp [TipEnv.refundTaken, hissued, htaken'], by simp [TipEnv.refundTold,
          hissued, htold']⟩
      · rintro ⟨htaken, htold⟩
        rcases payOne_cases hx with ⟨-, hnot, -⟩ | ⟨htold', -, -⟩ | ⟨-, -, hlost, -⟩
        · rw [hnot] at htaken
          cases htaken
        · rw [htold'] at htold
          cases htold
        · exact hlost
    · exact ih hl hr

/-- What stays is what the node did not take, exactly where no acceptance was lost. -/
theorem keys_payRefunds_taken (hpay : (s.refunds.due s.tip).foldlM (payOne env) s = some t) :
    (refundKeys t).Perm ((s.refunds.refundsDue.filter fun r =>
        !(decide (r.height < s.tip) && env.refundTaken r)).map RefundRequest.key) ↔
      ∀ r ∈ s.refunds.due s.tip, ¬ ∃ txid, env.issued r = some txid ∧ env.Lost txid := by
  have htoldKeys := keys_payRefunds hpay
  set told := s.refunds.refundsDue.filter fun r =>
    !(decide (r.height < s.tip) && env.refundTold r) with htold
  -- what stays as the node took it is found among what stays as the loop was told
  have htaken : (s.refunds.refundsDue.filter fun r => !(decide (r.height < s.tip) && env.refundTaken r)) =
      told.filter fun r => !(decide (r.height < s.tip) && env.refundTaken r) := by
    rw [htold, List.filter_filter]
    refine List.filter_congr fun r hr => ?_
    by_cases hdue : r.height < s.tip
    · rcases hgot : env.refundTold r with _ | _
      · simp
      · simp [refundTaken_of_told hgot]
    · simp [hdue]
  rw [htaken]
  constructor
  · intro hkeys r hr hlost
    have hlen := (htoldKeys.symm.trans hkeys).length_eq
    rw [List.length_map, List.length_map] at hlen
    obtain ⟨htook, hnot⟩ := (refundLost_iff hpay hr).mp hlost
    obtain ⟨hmem, hdue⟩ := List.mem_filter.mp hr
    have hstays : r ∈ told := List.mem_filter.mpr ⟨hmem, by simp [hnot]⟩
    have hkept := List.length_filter_eq_length_iff.mp hlen.symm r hstays
    simp [of_decide_eq_true hdue, htook] at hkept
  · intro hheard
    have hall : told.filter (fun r => !(decide (r.height < s.tip) && env.refundTaken r)) = told := by
      refine List.filter_eq_self.mpr fun r hr => ?_
      obtain ⟨hmem, hstays⟩ := List.mem_filter.mp hr
      by_cases hdue : r.height < s.tip
      · have hin : r ∈ s.refunds.due s.tip := List.mem_filter.mpr ⟨hmem, decide_eq_true hdue⟩
        have hnot : env.refundTold r = false := by simpa [hdue] using hstays
        have hmissed := mt (refundLost_iff hpay hin).mpr (hheard r hin)
        rcases htook : env.refundTaken r with _ | _
        · simp
        · exact (hmissed ⟨htook, hnot⟩).elim
      · simp [hdue]
    rw [hall]
    exact htoldKeys

/-- **Each arrival is settled once.** For any state, any block and the pass after it: the arrivals are
handled one after the other, each owing at most one refund within what was paid; the requests among them
and those still pending are decided one after the other, each once, and none is left; no payment owes
more refunds than it made arrivals; each refund due is tried once, and what leaves the queue, also
between equal entries, is what the loop was told the node took: all the node took, exactly where the
acceptance of no refund due was lost. -/
theorem arrivals_settled {blk : Block} (h : (s.block params keys blk).tipPass params keys env = some t) :
    ∃ u d v : Live,
      Trace (SettlesArrival keys) ((s.applyBlock params blk).meetBlock params) blk.arrivals u ∧
      u.requests.requests = s.requests.requests ++ blk.arrivals.filterMap (recorded (s.tip + 1)) ∧
      Trace (DecidesRequest keys env u.rate)
        { u.observePayments blk.payments with rate := env.rate, marginalFee := env.marginalFee }
        u.requests.requests d ∧
      d.requests.requests = [] ∧
      (∀ x, (owed d).count x ≤ (owed s).count x +
        (s.requests.requests.map PendingRequest.payment).count x +
        (blk.arrivals.map Arrival.payment).count x) ∧
      v.refunds = d.refunds ∧
      Trace (fun p r q => p.payOne env r = some q) v (d.refunds.due (s.tip + 1)) t ∧
      (refundKeys t).Perm ((d.refunds.refundsDue.filter fun r =>
        !(decide (r.height < s.tip + 1) && env.refundTold r)).map RefundRequest.key) ∧
      ((refundKeys t).Perm ((d.refunds.refundsDue.filter fun r =>
          !(decide (r.height < s.tip + 1) && env.refundTaken r)).map RefundRequest.key) ↔
        ∀ r ∈ d.refunds.due (s.tip + 1), ¬ ∃ txid, env.issued r = some txid ∧ env.Lost txid) := by
  set s₀ := (s.applyBlock params blk).meetBlock params with hs₀
  set u := blk.arrivals.foldl (arrive keys) s₀ with hu
  have harrivals : Trace (SettlesArrival keys) s₀ blk.arrivals u :=
    trace_foldl (settles_arrive keys) blk.arrivals s₀
  obtain ⟨hrequests, htip, -⟩ := requests_arrivals harrivals
  have hcount := count_arrivals harrivals
  have hblock : s.block params keys blk = u.observePayments blk.payments := rfl
  obtain ⟨d, w, v, hdecide, ⟨hrelayed, -⟩, hquiet, hpay⟩ := tipPass_split h
  have hrefunds : v.refunds = d.refunds := hquiet.refunds.trans hrelayed.refunds
  have hvtip : v.tip = d.tip := hquiet.tip.trans hrelayed.tip
  have hdecisions : Trace (DecidesRequest keys env u.rate)
      { u.observePayments blk.payments with rate := env.rate, marginalFee := env.marginalFee }
      u.requests.requests d :=
    trace_foldlM (R := DecidesRequest keys env u.rate) (fun _ _ _ hone => decides_decideOne hone)
      u.requests.requests _ d
      hdecide
  obtain ⟨hnil, hdtip⟩ := requests_decide hdecisions (List.Subset.refl _)
  have hpass : v.tip = s.tip + 1 := by
    calc v.tip = d.tip := hvtip
      _ = u.tip := hdtip
      _ = s.tip + 1 := htip
  refine ⟨u, d, v, harrivals, hrequests, hdecisions, hnil, ?_, hrefunds, ?_, ?_, ?_⟩
  · intro x
    have hx := count_decisions hdecisions x
    have hx' := hcount x
    have hsame : owed { u.observePayments blk.payments with rate := env.rate, marginalFee :=
      env.marginalFee } =
        owed u := rfl
    have hsame' : owed s₀ = owed s := rfl
    have hsame'' : s₀.requests = s.requests := rfl
    rw [hsame] at hx
    rw [hsame', hsame''] at hx'
    omega
  · rw [hpass, hrefunds] at hpay
    exact trace_foldlM (R := fun p r q => p.payOne env r = some q) (fun _ _ _ hone => hone) _ v t hpay
  · have hperm := keys_payRefunds hpay
    rw [hpass, hrefunds] at hperm
    exact hperm
  · have hperm := keys_payRefunds_taken hpay
    rw [hpass, hrefunds] at hperm
    exact hperm

/-- One transaction pays twice for Alice's name, which is taken. -/
def twoClaims : Block :=
  ⟨[], 10, [claimArrival 20 (sampleUa 2), { claimArrival 20 (sampleUa 2) with payment :=
    ⟨sampleTxid 20, 1⟩ }], []⟩

/-- Only the refund of the second output is funded. -/
def secondOnly : TipEnv :=
  { sampleEnv with issued := fun r => if r.payment.output = 1 then some (sampleTxid 99) else none }

/-- The two refunds are equal; one of them stays, with the one of the next block. -/
theorem arrivals_settled_equal :
    ∃ t d : Live, ((takenBoot.block Params.sample sampleKeys twoClaims).block Params.sample sampleKeys
        ⟨[], 20, [claimArrival 21 (sampleUa 3)], []⟩).tipPass Params.sample sampleKeys secondOnly =
          some t ∧
      (refundKeys t).length = 2 ∧ d.requests.requests = [] ∧
      (refundKeys t).Perm ((d.refunds.refundsDue.filter fun r =>
        !(decide (r.height < (takenBoot.block Params.sample sampleKeys twoClaims).tip + 1) &&
          secondOnly.refundTaken r)).map RefundRequest.key) := by
  have hlen : (((takenBoot.block Params.sample sampleKeys twoClaims).block Params.sample sampleKeys
      ⟨[], 20, [claimArrival 21 (sampleUa 3)], []⟩).tipPass Params.sample sampleKeys secondOnly).map
        (fun t => (refundKeys t).length) = some 2 := by
    decide +kernel
  obtain ⟨t, ht, hlen⟩ := Option.map_eq_some_iff.mp hlen
  have hheard : secondOnly.Heard := heard_of_submit sampleEnv_submit
  obtain ⟨u, d, v, -, -, -, hnil, -, -, -, -, htaken⟩ := arrivals_settled ht
  exact ⟨t, d, ht, hlen, hnil, htaken.mpr fun r _ ⟨txid, hissued, hlost⟩ => hheard.2 r txid hissued hlost⟩

/-- The refund of a claim of the taken name, paid at 102. -/
def claimRefund : RefundRequest := ⟨⟨sampleTxid 20, 0⟩, sampleUa 2, foreverPrice, alice, 102, none⟩

/-- **A refund the node took stays due**, where its acceptance was lost: the next pass pays it again. -/
theorem arrivals_settled_lost :
    ∃ t : Live, ((takenBoot.block Params.sample sampleKeys
      ⟨[], 10, [claimArrival 20 (sampleUa 2)], []⟩).block
        Params.sample sampleKeys ⟨[], 20, [], []⟩).tipPass Params.sample sampleKeys lostEnv = some t ∧
      claimRefund.height < t.tip ∧ lostEnv.refundTaken claimRefund = true ∧
      Event.refundLost claimRefund.payment ∈ t.log ∧ t.refunds.refundsDue = [claimRefund] := by
  have hrun : (((takenBoot.block Params.sample sampleKeys
    ⟨[], 10, [claimArrival 20 (sampleUa 2)], []⟩).block
      Params.sample sampleKeys ⟨[], 20, [], []⟩).tipPass Params.sample sampleKeys lostEnv).map
        (fun t => (t.tip, t.log, t.refunds.refundsDue)) =
      some (103, [.refundLost claimRefund.payment], [claimRefund]) := by
    decide +kernel
  have htaken : lostEnv.refundTaken claimRefund = true := by decide +kernel
  obtain ⟨t, ht, hstate⟩ := Option.map_eq_some_iff.mp hrun
  simp only [Prod.mk.injEq] at hstate
  obtain ⟨htip, hlog, hrefunds⟩ := hstate
  refine ⟨t, ht, ?_, htaken, ?_, hrefunds⟩
  · rw [htip]
    decide
  · rw [hlog]
    exact List.mem_singleton_self _

end ZnsMint.Live
