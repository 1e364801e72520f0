import ZnsMint.Live.Heights
import ZnsMint.Live.Queue
import ZnsMint.Market.Steps

/-! # What a step can do to the market and to the orders

`Move` follows the payments and lets the market do anything. Here it is the other way round: a `Trade` is
one thing that happens to the market or to the queue of Name Notes inside a block or a tip pass, with the
guard that the loop has checked for it: no order is unresolved when a buy opens, no buy is open when an
update or a release is admitted, the sale is paid when its note is. Everything else is `other`. -/

namespace ZnsMint.Live

open Basic Note Inbound Registry Market Lib.Machine

/-- Every order of `q` is one of `q'`, unresolved if and only if it was. -/
def FewerOrders (q' q : NameNoteQueue) : Prop :=
  ∀ o ∈ q.orders, ∃ o' ∈ q'.orders, o.note = o'.note ∧ o.origin = o'.origin ∧
    (o.state = .seen ↔ o'.state = .seen)

inductive Trade (keys : OtpKeys) : Live → Live → Prop
  | other {s t} (sameTip : SameTip s t) (hmarket : t.market = s.market)
    (hregistry : t.registry = s.registry)
      (horders : t.nameNotes = s.nameNotes) : Trade keys s t
  | memo {s} (txid : TxId) (request : MarketRequest) (paid : Zatoshis) :
      Trade keys s { s with market := (Market.admitRequest keys s.market txid request paid s.registry
        s.marginalFee
        s.tip s.mtp s.nameNotes.notePending).1 }
  | answer {s} (response : OtpMemo) :
      Trade keys s { s with
        market := (s.market.answer s.registry response s.tip).1.1
        registry := (s.market.answer s.registry response s.tip).1.2 }
  | observe {s} (payments : List (TransparentAddress × Zatoshis)) :
    Trade keys s (s.observePayments payments)
  /-- Codes count as sent. -/
  | relayed {s} (m : Market) (hlog : ∀ r, sourced.log (m, r) = sourced.log (s.market, r))
      (hbook : ∀ r, book (m, r) = book (s.market, r)) : Trade keys s { s with market := m }
  | poll {s} : Trade keys s { s with market :=
    (s.market.poll s.registry s.nameNotes.notePending s.tip).1 }
  /-- The note of a paid sale. -/
  | sale {s} (sale : Sale) (note : NameNote) (hsale : sale ∈ s.market.sales.sales)
    (hpaid : sale.phase = .paid)
      (howed : SaleQueue.owedNote s.registry sale = some note) :
      Trade keys s { s with nameNotes := ⟨s.nameNotes.orders ++ [⟨note, s.tip, .authorized, none⟩]⟩ }
  /-- An update or a release of a name no buy holds. -/
  | transition {s} (note : NameNote) (hopen : s.market.isOpen note.name = false) :
      Trade keys s { s with nameNotes := ⟨s.nameNotes.orders ++ [⟨note, s.tip, .authorized, none⟩]⟩ }
  | claim {s} (note : NameNote) (origin : ℕ) (payment : PaymentRef) (hclaim : note.action = .claim) :
      Trade keys s { s with nameNotes := ⟨s.nameNotes.orders ++
        [⟨note, origin, .authorized, some payment⟩]⟩ }
  /-- Orders leave, are sent, or come back from being sent. -/
  | orders {s} (q : NameNoteQueue) (hq : FewerOrders s.nameNotes q) :
    Trade keys s { s with nameNotes := q }

/-- Finitely many trades. -/
abbrev Trades (keys : OtpKeys) : Live → Live → Prop := Relation.ReflTransGen (Trade keys)

variable {params : Params} {keys : Keys} {k : OtpKeys} {env : TipEnv} {s t : Live}

/-! ### Every trade is logged at the tip -/

theorem Trade.traded (h : Trade k s t) : Traded s t := by
  cases h with
  | other sameTip hmarket hregistry horders =>
    refine ⟨sameTip, ?_⟩
    rw [hmarket, hregistry]
    exact .refl
  | memo txid request paid =>
    exact ⟨⟨rfl, rfl, rfl, .refl _⟩, traced_admitRequest k s.market txid request paid s.registry
      s.marginalFee s.mtp _⟩
  | answer response =>
    exact ⟨⟨rfl, rfl, rfl, .answer s.market s.registry response s.tip⟩,
      traced_answer s.market s.registry response⟩
  | observe payments => exact ⟨⟨rfl, rfl, rfl, .refl _⟩,
    traced_observe s.market s.registry _ payments s.mtp⟩
  | relayed m hlog hbook => exact ⟨⟨rfl, rfl, rfl, .refl _⟩, .silent (hlog s.registry) (hbook s.registry)⟩
  | poll => exact ⟨⟨rfl, rfl, rfl, .refl _⟩, traced_poll s.market s.registry _⟩
  | sale | transition | claim | orders => exact ⟨⟨rfl, rfl, rfl, .refl _⟩, .refl⟩

theorem Trades.invariant {I : Live → Prop} (htrade : ∀ s t, I s → Trade k s t → I t)
    (h : Trades k s t) (hs : I s) :
    I t := by
  induction h with
  | refl => exact hs
  | tail _ hlast ih => exact htrade _ _ ih hlast

theorem Trades.traded (h : Trades k s t) : Traded s t :=
  h.invariant (fun _ _ hu hv => hu.trans hv.traded) ⟨.refl s, .refl⟩

/-! ### Arrivals -/

theorem trades_other (sameTip : SameTip s t) (hmarket : t.market = s.market)
    (hregistry : t.registry = s.registry)
    (horders : t.nameNotes = s.nameNotes) : Trades k s t :=
  .single (.other sameTip hmarket hregistry horders)

theorem trades_refund (s : Live) (payment : PaymentRef) (recipient : UnifiedAddress)
    (name : Name) (height : ℕ)
    (refundable : Zatoshis) (note : Option (List UInt8)) :
    Trades k s (s.refund payment recipient name height refundable note) :=
  trades_other ⟨rfl, rfl, rfl, .refl _⟩ rfl rfl rfl

theorem trades_returned (s : Live) (a : Arrival) (response : OtpMemo) :
    Trades k s (s.returned a response) :=
  trades_refund s a.payment response.ua response.name s.tip a.paid none

theorem trades_challenges (s : Live) (q : OtpQueue) : Trades k s { s with challenges := q } :=
  trades_other ⟨rfl, rfl, rfl, .refl _⟩ rfl rfl rfl

/-- An admitted order takes the name's challenges with it; a refused one changes nothing. -/
theorem trades_admitTransition {note : NameNote}
    (hmemo : s.nameNotes.notePending note.name = false →
      Trade k s { s with nameNotes := ⟨s.nameNotes.orders ++ [⟨note, s.tip, .authorized, none⟩]⟩ }) :
    Trades k s (s.admitTransition note) := by
  unfold admitTransition
  rcases hpending : s.nameNotes.notePending note.name with _ | _
  · rw [admitNote_of_not_pending hpending]
    exact .head (hmemo hpending) (trades_challenges _ (s.challenges.dropChallenges note.name))
  · rw [admitNote_of_pending hpending]
    exact .refl

theorem complete_named {q q' : OtpQueue} {response : OtpMemo} {sent : OtpEntry}
    (h : q.complete response = (q', some sent)) : sent.name = response.name := by
  unfold OtpQueue.complete at h
  simp only at h
  split at h
  · rename_i e hfind
    simp only [Prod.mk.injEq, Option.some.injEq] at h
    obtain ⟨-, rfl⟩ := h
    have hright := List.find?_some hfind
    simp only [OtpQueue.named, Bool.and_eq_true, beq_iff_eq] at hright
    exact hright.1.1.1.2
  · simp at h

theorem trades_enactResponse (s : Live) (a : Arrival) (response : OtpMemo) {sent : OtpEntry}
    (hopen : s.market.isOpen sent.name = false) : Trades k s (s.enactResponse a response sent) := by
  have hback : Trades k s (s.returned a response) := trades_returned s a response
  unfold enactResponse
  split
  · exact hback
  rename_i rest _
  split
  · exact hback
  split
  · exact .refl
  split
  · exact hback
  rename_i note hnote
  have hname : note.name = sent.name := (authorize_spec hnote).1
  have hlog : Trades k s (s.record (.authorized note (s.registry.record sent.name) sent.relayedTo)) :=
    trades_other ⟨rfl, rfl, rfl, .refl _⟩ rfl rfl rfl
  have hmemo := hlog.trans (trades_admitTransition fun _ => .transition note (hname ▸ hopen))
  simp only
  split_ifs
  · exact hmemo.trans (trades_refund _ a.payment response.ua sent.name _ rest none)
  · exact hmemo

theorem trades_respond (s : Live) (a : Arrival) (response : OtpMemo) :
    Trades k s (s.respond a response) := by
  unfold respond
  split_ifs with hlist hallowed
  · exact .head (.answer response) (trades_returned _ a response)
  · exact (trades_challenges s (s.challenges.dropChallenges response.name)).trans
      (trades_returned _ a response)
  · have hopen : s.market.isOpen response.name = false := by
      simpa [allowsTransition, isOpen] using hallowed
    split
    · rename_i q hq
      exact (trades_challenges s q).trans (trades_returned _ a response)
    · rename_i q sent hq
      refine (trades_challenges s q).trans (trades_enactResponse _ a response ?_)
      rw [complete_named hq]
      exact hopen

theorem trades_admitMarket (s : Live) (a : Arrival) (request : MarketRequest) :
    Trades keys.toOtpKeys s (s.admitMarket keys a request) := by
  have hmemo : Trades keys.toOtpKeys s _ := .single (.memo a.payment.txid request a.paid)
  unfold admitMarket
  revert hmemo
  generalize Market.admitRequest keys.toOtpKeys s.market a.payment.txid request a.paid s.registry
    s.marginalFee s.tip s.mtp s.nameNotes.notePending = res
  obtain ⟨m, opened, back⟩ := res
  intro hmemo
  have hopened := hmemo.trans
    (trades_challenges { s with market := m } (opened.elim s.challenges s.challenges.dropChallenges))
  rcases back with _ | back
  · exact hopened
  · exact hopened.trans (trades_refund _ a.payment back.recipient back.name _ a.paid (some back.note))

theorem trades_arrive (s : Live) (a : Arrival) : Trades keys.toOtpKeys s (s.arrive keys a) := by
  unfold arrive
  split
  · exact trades_admitMarket s a _
  · exact trades_other ⟨rfl, rfl, rfl, .refl _⟩ rfl rfl rfl
  · exact trades_respond s a _
  · exact .refl

/-- A loop whose every turn is trades. -/
theorem trades_foldl {α : Type} {f : Live → α → Live} {l : List α}
    (hf : ∀ u a, a ∈ l → Trades k s u → Trades k u (f u a)) : Trades k s (l.foldl f s) := by
  have hloop := foldl_invariant (f := f) (I := fun l' u => l' ⊆ l ∧ Trades k s u)
    (fun a l' u hu => ?_) l s
    ⟨List.Subset.refl _, .refl⟩
  · exact hloop.2
  · exact ⟨fun x hx => hu.1 (List.mem_cons_of_mem _ hx),
      hu.2.trans (hf u a (hu.1 (List.mem_cons_self ..)) hu.2)⟩

theorem trades_foldlM {α : Type} {f : Live → α → Option Live} {l : List α}
    (hf : ∀ u a v, f u a = some v → Trades k u v) (h : l.foldlM f s = some t) : Trades k s t :=
  foldlM_invariant (I := fun _ u => Trades k s u) (fun a _ u v hu hv => hu.trans (hf u a v hv))
    l s t .refl h

/-- **A block**, once the market has met it, is trades. -/
theorem trades_block (params : Params) (keys : Keys) (s : Live) (b : Block) :
    Trades keys.toOtpKeys ((s.applyBlock params b).meetBlock params) (s.block params keys b) :=
  (trades_foldl fun u a _ _ => trades_arrive u a).tail (.observe b.payments)

/-- So is a block that boot reads, where no order is queued. -/
theorem trades_syncArrival (a : Arrival) (hs : s.nameNotes = .empty) :
    Trades keys.toOtpKeys s (s.syncArrival keys a) := by
  have hpending : s.nameNotes.notePending = fun _ => false := by
    rw [hs]
    rfl
  unfold syncArrival
  split
  · split_ifs
    · exact .single (.answer _)
    · exact .refl
  · rename_i request _
    rw [← hpending]
    exact .single (.memo a.payment.txid request a.paid)
  · exact .refl

/-- The passcodes that boot leaves unsent. -/
theorem trades_sealReplayedBuys (s : Live) : Trades k s { s with market := s.market.sealReplayedBuys } :=
  .single (.relayed _ (log_sealReplayedBuys s.market) (book_sealReplayedBuys s.market))

theorem trades_syncBlock (params : Params) (keys : Keys) (b : Block) (hs : s.nameNotes = .empty) :
    Trades keys.toOtpKeys (s.applyBlock params b).syncMarket (s.syncBlock params keys b) := by
  have hloop := foldl_invariant (f := syncArrival keys)
    (I := fun _ u => u.nameNotes = .empty ∧ Trades keys.toOtpKeys (s.applyBlock params b).syncMarket u)
    (fun a _ u hu => ⟨(scanned_syncArrival keys u a).nameNotes.trans hu.1,
    hu.2.trans (trades_syncArrival a hu.1)⟩)
    b.arrivals (s.applyBlock params b).syncMarket ⟨hs, .refl⟩
  exact hloop.2.tail (.observe b.payments)

/-! ### The tip pass -/

theorem trades_enact {e : PendingRequest} {ruling : Ruling}
    (hruling : ∀ note, ruling = .claim note → note.action = .claim) (h : s.enact env e ruling = some t) :
    Trades k s t := by
  cases ruling with
  | keep =>
    cases h
    exact .refl
  | refund refundable =>
    cases h
    exact trades_refund s _ _ _ _ _ _
  | claim note =>
    rcases hpending : s.nameNotes.notePending note.name with _ | _
    · simp only [enact, admitNote_of_not_pending hpending] at h
      cases h
      have hclaim : Trade k s _ := .claim note e.height e.payment (hruling note rfl)
      exact .head hclaim (trades_challenges _ (s.challenges.dropChallenges e.request.name))
    · simp only [enact, admitNote_of_pending hpending] at h
      cases h
      exact trades_refund s _ _ _ _ _ _
  | challenge =>
    obtain ⟨q, -, rfl⟩ := Option.map_eq_some_iff.mp h
    exact trades_challenges s q

theorem trades_decideOne {rate : Zatoshis} {e : PendingRequest}
    (h : s.decideOne keys env rate e = some t) :
    Trades k s t := by
  have htaken : Trades k s { s with requests := s.requests.resolved e.payment.txid } :=
    trades_other ⟨rfl, rfl, rfl, .refl _⟩ rfl rfl rfl
  exact htaken.trans (trades_enact (fun _ hnote => (rule_claim hnote).1) h)

theorem trades_relayOne (env : TipEnv) (s : Live) (pending : OtpChallenge) :
    Trades k s (s.relayOne env pending) := by
  unfold relayOne
  split
  · exact .refl
  split
  · exact .refl
  split
  · exact trades_challenges s _
  · exact .refl

/-- The market differs from `m` in flags only. -/
def SameBook (m m' : Market) : Prop :=
  (∀ r, sourced.log (m', r) = sourced.log (m, r)) ∧ ∀ r, book (m', r) = book (m, r)

theorem sameBook_foldl {α : Type} {f : Market → α → Market} (hf : ∀ m a, SameBook m (f m a)) (l : List α)
    (m : Market) :
    SameBook m (l.foldl f m) :=
  foldl_invariant (I := fun _ m' => SameBook m m')
    (fun a _ m' hm => ⟨fun r => ((hf m' a).1 r).trans (hm.1 r), fun r => ((hf m' a).2 r).trans (hm.2 r)⟩)
    l m
    ⟨fun _ => rfl, fun _ => rfl⟩

theorem trades_relayMarket (env : TipEnv) (s : Live) : Trades k s (s.relayMarket env) := by
  set owner := fun name =>
    (s.registry.challengeable s.nameNotes name (s.tip + 1) s.mtp).map NameRecord.ua
  set m := (s.market.unrelayedChallenges owner).foldl
    (fun m memo => if env.relayed memo then m.challengeRelayed memo.code else m) s.market with hm
  have hcodes : SameBook s.market m := by
    refine sameBook_foldl (fun m memo => ?_) _ s.market
    split_ifs
    · exact ⟨fun _ => rfl, fun r => book_challengeRelayed m r memo.code⟩
    · exact ⟨fun _ => rfl, fun _ => rfl⟩
  have hbuys : SameBook m (m.sales.unrelayed.foldl
      (fun m otp => if env.relayedBuy otp then m.relayed otp.name else m) m) := by
    refine sameBook_foldl (fun m otp => ?_) _ m
    split_ifs
    · exact ⟨fun _ => rfl, fun r => book_relayed m r otp.name⟩
    · exact ⟨fun _ => rfl, fun _ => rfl⟩
  exact .single (.relayed _ (fun r => (hbuys.1 r).trans (hcodes.1 r)) fun r =>
    (hbuys.2 r).trans (hcodes.2 r))

theorem admitTransition_market (s : Live) (note : NameNote) :
    (s.admitTransition note).market = s.market ∧ (s.admitTransition note).registry = s.registry := by
  unfold admitTransition
  simp only
  split_ifs <;> exact ⟨rfl, rfl⟩

/-- The sales whose notes `poll` returns are paid, and are still there. -/
theorem trades_pollSales (s : Live) : Trades k s s.pollSales := by
  unfold pollSales
  set polled : Live := { s with market := (s.market.poll s.registry s.nameNotes.notePending
    s.tip).1 } with hpolled
  have hpoll : Trades k s polled := .single .poll
  have hnotes : ∀ note ∈ (s.market.poll s.registry s.nameNotes.notePending s.tip).2,
      ∃ sale ∈ polled.market.sales.sales, sale.phase = .paid ∧ SaleQueue.owedNote s.registry sale =
        some note := by
    intro note hnote
    obtain ⟨sale, hsale, howed⟩ := List.mem_filterMap.mp hnote
    obtain ⟨hmem, hpollable⟩ := List.mem_filter.mp hsale
    simp only [SaleQueue.pollable, Bool.and_eq_true, beq_iff_eq] at hpollable
    refine ⟨sale, ?_, hpollable.1, howed⟩
    rw [hpolled, sales_poll]
    exact List.mem_filter.mpr ⟨hmem, by simp [howed]⟩
  have hloop := foldl_invariant (f := admitTransition)
    (I := fun l u => l ⊆ (s.market.poll s.registry s.nameNotes.notePending s.tip).2 ∧ u.market =
    polled.market ∧
      u.registry = s.registry ∧ Trades k s u)
    (fun note l u hu => ?_) _ polled ⟨List.Subset.refl _, rfl, rfl, hpoll⟩
  · exact hloop.2.2.2
  · obtain ⟨hsub, hmarket, hregistry, htrades⟩ := hu
    obtain ⟨sale, hsale, hpaid, howed⟩ := hnotes note (hsub (List.mem_cons_self ..))
    obtain ⟨hmarket', hregistry'⟩ := admitTransition_market u note
    refine ⟨fun x hx => hsub (List.mem_cons_of_mem _ hx), hmarket'.trans hmarket,
      hregistry'.trans hregistry,
      htrades.trans (trades_admitTransition fun _ => ?_)⟩
    rw [← hmarket] at hsale
    rw [← hregistry] at howed
    exact .sale sale note hsale hpaid howed

theorem trades_expireSent (s : Live) : Trades k s
    { s with nameNotes := s.nameNotes.expireSent s.tip } := by
  refine .single (.orders _ ?_)
  intro o ho
  obtain ⟨o', ho', rfl⟩ := List.mem_map.mp ho
  exact ⟨o', ho', expireOrder_note s.tip o', expireOrder_origin s.tip o', expireOrder_seen⟩

theorem trades_dropOrder {looked : Order} (h : s.dropOrder looked = some t) : Trades k s t := by
  unfold dropOrder at h
  obtain ⟨on, hon, h⟩ := Option.bind_eq_some_iff.mp h
  obtain ⟨q, hq, h⟩ := Option.bind_eq_some_iff.mp h
  cases h
  obtain ⟨l', hl', rfl⟩ := Option.map_eq_some_iff.mp hq
  obtain ⟨l₁, l₂, horders, rfl, -, -⟩ := removeFirst_spec hon hl'
  have hfewer : FewerOrders s.nameNotes ⟨l₁ ++ l₂⟩ := by
    intro o ho
    refine ⟨o, ?_, rfl, rfl, Iff.rfl⟩
    exact (sublist_of_split horders).subset ho
  exact .head (.orders _ hfewer) (trades_other ⟨rfl, rfl, rfl, .refl _⟩ rfl rfl rfl)

theorem trades_dropDueOne {looked : Order} (h : s.dropDueOne looked = some t) : Trades k s t := by
  unfold dropDueOne at h
  split_ifs at h
  · exact trades_dropOrder h
  · cases h
    exact .refl

theorem trades_admitReleases (s : Live) : Trades k s
    ((s.registry.releasesDue s.mtp).foldl admitRelease s) := by
  refine trades_foldl fun u e he _ => ?_
  have hname : e.2.name = e.1 := by
    obtain ⟨⟨name, live⟩, -, rfl⟩ := List.mem_map.mp he
    rfl
  unfold admitRelease
  split
  · exact .refl
  · rename_i hgate
    simp only [Bool.or_eq_true, not_or, Bool.not_eq_true, Bool.not_eq_false', allowsTransition] at hgate
    exact trades_admitTransition fun _ => .transition e.2 (by rw [hname]; simpa [isOpen] using hgate.2)

theorem trades_markOrder {looked : Order} {txid : TxId} {nf : Nullifier} {expiry : ℕ}
    (h : s.markOrder looked txid nf expiry = some t) : Trades k s t := by
  unfold markOrder at h
  obtain ⟨on, hon, h⟩ := Option.bind_eq_some_iff.mp h
  obtain ⟨q, hq, h⟩ := Option.bind_eq_some_iff.mp h
  cases h
  obtain ⟨l', hl', rfl⟩ := Option.map_eq_some_iff.mp hq
  obtain ⟨l₁, l₂, horders, rfl, hauthorized, -⟩ := modifyFirst_spec hon hl'
  have hstate : on.state = .authorized := (isAuthorizedFor_iff.mp hauthorized).1
  have hfewer : FewerOrders s.nameNotes ⟨l₁ ++ { on with state := .sent expiry } :: l₂⟩ := by
    intro o ho
    rcases List.mem_append.mp ho with ho | ho
    · exact ⟨o, by rw [horders]; exact List.mem_append_left _ ho, rfl, rfl, Iff.rfl⟩
    · rcases List.mem_cons.mp ho with rfl | ho
      · exact ⟨on, by rw [horders]; simp, rfl, rfl, by simp [hstate]⟩
      · exact ⟨o, by rw [horders]; simp [ho], rfl, rfl, Iff.rfl⟩
  exact .head (.orders _ hfewer) (trades_other ⟨rfl, rfl, rfl, .refl _⟩ rfl rfl rfl)

theorem trades_sendOne {looked : Order} (h : s.sendOne params env looked = some t) : Trades k s t := by
  have hsubmit : ∀ nf, s.submit params env looked nf = some t → Trades k s t := by
    intro nf hs
    rcases submit_cases hs with rfl | ⟨-, txid, -, hmark | ⟨-, rfl⟩⟩
    · exact .refl
    · exact trades_markOrder hmark
    · exact trades_other ⟨rfl, rfl, rfl, .refl _⟩ rfl rfl rfl
  unfold sendOne at h
  split at h
  · split at h
    · exact trades_dropOrder h
    split at h
    · cases h
      exact .refl
    · exact hsubmit _ h
  · split at h
    · exact trades_dropOrder h
    · exact hsubmit _ h

theorem trades_payOne {r : RefundRequest} (h : s.payOne env r = some t) : Trades k s t := by
  obtain ⟨refunds, log, rfl⟩ := payOne_frame h
  exact trades_other ⟨rfl, rfl, rfl, .refl _⟩ rfl rfl rfl

/-- **A tip pass** is trades. -/
theorem trades_tipPass (h : s.tipPass params keys env = some t) : Trades k s t := by
  unfold tipPass at h
  obtain ⟨s₁, hdecide, h⟩ := Option.bind_eq_some_iff.mp h
  obtain ⟨s₂, hdue, h⟩ := Option.bind_eq_some_iff.mp h
  obtain ⟨s₃, hsend, hpay⟩ := Option.bind_eq_some_iff.mp h
  have hrates : Trades k s { s with rate := env.rate, marginalFee := env.marginalFee } :=
    trades_other ⟨rfl, rfl, rfl, .refl _⟩ rfl rfl rfl
  have hdecided := hrates.trans (trades_foldlM (fun _ _ _ hv => trades_decideOne hv) hdecide)
  have hrelays : Trades k s₁ (s₁.challenges.requested.foldl (relayOne env) s₁) :=
    trades_foldl fun u pending _ _ => trades_relayOne env u pending
  have hrelayed := hdecided.trans hrelays
  have hpolled := (hrelayed.trans (trades_relayMarket env _)).trans (trades_pollSales _)
  have hexpired := hpolled.trans (trades_expireSent _)
  have hdropped := hexpired.trans (trades_foldlM (fun _ _ _ hv => trades_dropDueOne hv) hdue)
  have hreleased := hdropped.trans (trades_admitReleases s₂)
  have hsent := hreleased.trans (trades_foldlM (fun _ _ _ hv => trades_sendOne hv) hsend)
  exact hsent.trans (trades_foldlM (fun _ _ _ hv => trades_payOne hv) hpay)

end ZnsMint.Live
