import ZnsMint.Live.Claims

/-! # What becomes of a payment

The memory of a payment is its place: in hand, in the request queue, in the refund queue, or in the log
of the refunds that were paid. The moves pass it from one place to the next, so a payment stands in one
place at most, and in none once an order was made of it. A reorg empties the places whose block it
orphans, but not the log: what was refunded or broadcast stays so when the payment is mined again. And
the place follows what the loop is told: a refund or a claim that the node took and is said to have
refused leaves its payment where it was. `PaymentsFresh` is the condition that neither happens. -/

namespace ZnsMint.Live

open Basic Note Inbound Registry Lib.Machine

variable {params : Params} {keys : Keys} {sends : Sends} {s t : Live} {p q : Point}

/-- The payments of the refunds that left the queue. -/
def refundedPayments (log : List Event) : List PaymentRef :=
  log.filterMap fun e => match e with
    | .refunded payment => some payment
    | _ => none

/-- The transactions that were sent. -/
def broadcasts (log : List Event) : List Broadcast :=
  log.filterMap fun e => match e with
    | .broadcast b => some b
    | _ => none

/-- The payments of the refunds the node took, whatever the loop was told. -/
def takenRefunds (log : List Event) : List PaymentRef :=
  log.filterMap fun e => match e with
    | .refunded payment => some payment
    | .refundLost payment => some payment
    | _ => none

/-- The transactions the node took, whatever the loop was told. -/
def takenBroadcasts (log : List Event) : List Broadcast :=
  log.filterMap fun e => match e with
    | .broadcast b => some b
    | .broadcastLost b => some b
    | _ => none

/-- The loop was told of everything the node took. -/
def AllHeard (log : List Event) : Prop := ∀ e ∈ log, ¬ LostEvent e

/-- The payments of the applied chain, with the heights of their blocks. -/
def located (s : Live) : List (PaymentRef × ℕ) :=
  s.chain.flatMap fun e => e.2.arrivals.map fun a => (a.payment, e.1)

/-- The transaction is in a block of the applied chain. -/
def OnChain (s : Live) (txid : TxId) : Prop := ∃ e ∈ s.chain, ∃ tx ∈ e.2.txs, tx.1 = txid

/-- A block pays each of its outputs once, pays none that the chain has paid before, and none that this
process has already refunded or made a transaction of. A pass hears of what the node takes. -/
def PaymentsFresh (s : Live) : Step → Prop
  | .block b => (b.arrivals.map Arrival.payment).Nodup ∧ ∀ a ∈ b.arrivals,
      (∀ height, (a.payment, height) ∉ located s) ∧ a.payment ∉ refundedPayments s.log ∧
        ∀ bc ∈ broadcasts s.log, bc.order.payment ≠ some a.payment
  | .tipPass env => env.Heard
  | _ => True

theorem notMem_located {s : Live} {x : PaymentRef} :
    (∀ height, (x, height) ∉ located s) ↔ x ∉ (located s).map Prod.fst := by
  rw [List.mem_map]
  constructor
  · rintro hnone ⟨⟨y, height⟩, hmem, rfl⟩
    exact hnone height hmem
  · exact fun hnone height hmem => hnone ⟨_, hmem, rfl⟩

instance (s : Live) (b : Block) : Decidable (PaymentsFresh s (.block b)) :=
  decidable_of_iff ((b.arrivals.map Arrival.payment).Nodup ∧ ∀ a ∈ b.arrivals,
      a.payment ∉ (located s).map Prod.fst ∧ a.payment ∉ refundedPayments s.log ∧
        ∀ bc ∈ broadcasts s.log, bc.order.payment ≠ some a.payment) <| by
    simp only [← notMem_located]
    rfl

@[simp] theorem mem_refundedPayments {log : List Event} {x : PaymentRef} :
    x ∈ refundedPayments log ↔ Event.refunded x ∈ log := by
  unfold refundedPayments
  rw [List.mem_filterMap]
  constructor
  · rintro ⟨e, he, heq⟩
    split at heq
    · cases heq
      exact he
    · cases heq
  · intro h
    exact ⟨_, h, rfl⟩

@[simp] theorem mem_broadcasts {log : List Event} {bc : Broadcast} :
    bc ∈ broadcasts log ↔ Event.broadcast bc ∈ log := by
  unfold broadcasts
  rw [List.mem_filterMap]
  constructor
  · rintro ⟨e, he, heq⟩
    split at heq
    · cases heq
      exact he
    · cases heq
  · intro h
    exact ⟨_, h, rfl⟩

/-! ### What is heard of -/

theorem broadcasts_lost {e : Event} (he : LostEvent e) : broadcasts (s.record e).log =
    broadcasts s.log := by
  cases he <;> simp [Live.record, broadcasts]

theorem refundedPayments_lost {e : Event} (he : LostEvent e) :
    refundedPayments (s.record e).log = refundedPayments s.log := by
  cases he <;> simp [Live.record, refundedPayments]

theorem takenRefunds_of_allHeard {log : List Event} (h : AllHeard log) :
    takenRefunds log = refundedPayments log := by
  refine List.filterMap_congr fun e he => ?_
  rcases e with _ | _ | _ | _ | _ | payment
  case refundLost => exact absurd (.refund payment) (h _ he)
  all_goals rfl

theorem takenBroadcasts_of_allHeard {log : List Event} (h : AllHeard log) :
    takenBroadcasts log = broadcasts log := by
  refine List.filterMap_congr fun e he => ?_
  rcases e with _ | _ | _ | b | _ | _
  case broadcastLost => exact absurd (.broadcast b) (h _ he)
  all_goals rfl

theorem AllHeard.concat {log : List Event} {e : Event} (h : AllHeard log) (he : ¬ LostEvent e) :
    AllHeard (log ++ [e]) := by
  intro e' he'
  rcases List.mem_append.mp he' with hold | hnew
  · exact h e' hold
  · rw [List.mem_singleton.mp hnew]
    exact he

theorem AllHeard.move (h : AllHeard p.state.log) (hnone : ∀ txid, ¬ sends.lost txid)
    (hm : Move params sends p q) :
    AllHeard q.state.log := by
  cases hm with
  | lost txid e hlost he => exact absurd hlost (hnone txid)
  | authorize | drop | pay => exact h.concat (by rintro ⟨⟩)
  | send => exact (h.concat (by rintro ⟨⟩)).concat (by rintro ⟨⟩)
  | _ => exact h

theorem allHeard_boot (params : Params) (origin : ℕ) (mtp : ℤ) (blocks : List Block) (market : Market)
    (listings : NameMap Listing) (rate fee : Zatoshis) :
    AllHeard (boot params origin mtp blocks market listings rate fee).log := by
  obtain ⟨-, -, -, -, hlog⟩ := boot_queues params origin mtp blocks market listings rate fee
  rw [hlog]
  exact fun e he => absurd he List.not_mem_nil

/-- A pass that hears of what it sends logs nothing unheard. -/
theorem AllHeard.step (h : AllHeard s.log) {a : Step} (hheard : ∀ env, a = .tipPass env → env.Heard)
    (hstep : s.step params keys a = some t) : AllHeard t.log := by
  rcases step_cases hstep with ⟨b, rfl, rfl⟩ | ⟨env, rfl, ht⟩ | ⟨rate, rfl, rfl⟩ |
    ⟨rewound, mtp, rfl, ⟨-, rfl⟩ | ⟨-, rfl⟩⟩
  · exact block_invariant (I := fun p => AllHeard p.state.log)
      (fun _ _ hp hm => hp.move (fun _ hlost => hlost) hm) h
  · obtain ⟨hnotes, hrefunds⟩ := hheard env rfl
    refine tipPass_invariant (I := fun p => AllHeard p.state.log) (fun _ _ hp hm => hp.move ?_ hm) ht h
    rintro txid ⟨hlost, ⟨note, hbuilt⟩ | ⟨refund, hissued⟩⟩
    · exact hnotes note txid hbuilt hlost
    · exact hrefunds refund txid hissued hlost
  · exact h
  · exact h
  · exact h

/-! ### One place for a payment -/

/-- Every place a payment can stand in. -/
def outstanding (p : Point) : List PaymentRef :=
  p.hand.map Held.payment ++ (p.state.requests.requests.map PendingRequest.payment ++
    (p.state.refunds.refundsDue.map RefundRequest.payment ++ refundedPayments p.state.log))

/-- An order was made of the payment, and is in the queue, or is looked at, or was broadcast. -/
def Claimed (p : Point) (x : PaymentRef) : Prop :=
  (∃ o ∈ p.state.nameNotes.orders, o.payment = some x) ∨ (∃ o ∈ p.looking, o.payment = some x) ∨
    ∃ bc ∈ broadcasts p.state.log, bc.order.payment = some x

structure PaymentsInv (p : Point) : Prop where
  once : (outstanding p).Nodup
  apart : ∀ x, Claimed p x → x ∉ outstanding p
  held : ∀ h ∈ p.hand, (h.payment, h.height) ∈ located p.state
  requests : ∀ e ∈ p.state.requests.requests, (e.payment, e.height) ∈ located p.state
  refunds : ∀ r ∈ p.state.refunds.refundsDue, (r.payment, r.height) ∈ located p.state
  orders : ∀ o ∈ p.state.nameNotes.orders, ∀ x, o.payment = some x → (x, o.origin) ∈ located p.state

/-- What a move has to show: payments only change places, and an order is made of a payment that leaves
them. -/
theorem PaymentsInv.pass (h : PaymentsInv p) (hchain : q.state.chain = p.state.chain)
    (hplaces : List.Subperm (outstanding q) (outstanding p))
    (hclaimed : ∀ x, Claimed q x → Claimed p x ∨ x ∉ outstanding q)
    (hheld : q.hand ⊆ p.hand)
    (hrequests : ∀ e ∈ q.state.requests.requests, e ∈ p.state.requests.requests ∨
      ∃ held ∈ p.hand, e.payment = held.payment ∧ e.height = held.height)
    (hrefunds : ∀ r ∈ q.state.refunds.refundsDue, r ∈ p.state.refunds.refundsDue ∨
      ∃ held ∈ p.hand, r.payment = held.payment ∧ r.height = held.height)
    (horders : ∀ o ∈ q.state.nameNotes.orders, ∀ x, o.payment = some x →
      (∃ o' ∈ p.state.nameNotes.orders, o'.payment = some x ∧ o'.origin = o.origin) ∨
      ∃ held ∈ p.hand, x = held.payment ∧ o.origin = held.height) : PaymentsInv q := by
  have hloc : located q.state = located p.state := by
    unfold located
    rw [hchain]
  refine ⟨?_, fun x hx => ?_, fun e he => ?_, fun e he => ?_, fun r hr => ?_, fun o ho x hx => ?_⟩
  · obtain ⟨l, hperm, hsub⟩ := hplaces
    exact hperm.nodup (h.once.sublist hsub)
  · rcases hclaimed x hx with hx | hx
    · exact fun hmem => h.apart x hx (hplaces.subset hmem)
    · exact hx
  · rw [hloc]
    exact h.held e (hheld he)
  · rw [hloc]
    rcases hrequests e he with he | ⟨held, hheld, hpayment, hheight⟩
    · exact h.requests e he
    · rw [hpayment, hheight]
      exact h.held held hheld
  · rw [hloc]
    rcases hrefunds r hr with hr | ⟨held, hheld, hpayment, hheight⟩
    · exact h.refunds r hr
    · rw [hpayment, hheight]
      exact h.held held hheld
  · rw [hloc]
    rcases horders o ho x hx with ⟨o', ho', hpayment, horigin⟩ | ⟨held, hheld, hpayment, hheight⟩
    · exact horigin ▸ h.orders o' ho' x hpayment
    · rw [hpayment, hheight]
      exact h.held held hheld

/-- A move that leaves payments where they are, and makes no order of one. -/
theorem PaymentsInv.frame (h : PaymentsInv p) (hchain : q.state.chain = p.state.chain)
    (hplaces : outstanding q = outstanding p) (hheld : q.hand = p.hand)
    (hrequests : q.state.requests = p.state.requests) (hrefunds : q.state.refunds = p.state.refunds)
    (horders : ∀ o ∈ q.state.nameNotes.orders, ∀ x, o.payment = some x →
      ∃ o' ∈ p.state.nameNotes.orders, o'.payment = some x ∧ o'.origin = o.origin)
    (hlooking : ∀ o ∈ q.looking, o ∈ p.state.nameNotes.orders ∨ o ∈ p.looking)
    (hlog : ∀ bc ∈ broadcasts q.state.log, bc ∈ broadcasts p.state.log ∨ bc.order ∈ p.looking) :
    PaymentsInv q := by
  refine h.pass hchain (hplaces ▸ .refl _) (fun x hx => Or.inl ?_) (hheld ▸ List.Subset.refl _)
    (fun e he => Or.inl (hrequests ▸ he)) (fun r hr => Or.inl (hrefunds ▸ hr))
    (fun o ho x hx => Or.inl (horders o ho x hx))
  rcases hx with ⟨o, ho, hx⟩ | ⟨o, ho, hx⟩ | ⟨bc, hbc, hx⟩
  · obtain ⟨o', ho', hx', -⟩ := horders o ho x hx
    exact Or.inl ⟨o', ho', hx'⟩
  · rcases hlooking o ho with ho | ho
    · exact Or.inl ⟨o, ho, hx⟩
    · exact Or.inr (Or.inl ⟨o, ho, hx⟩)
  · rcases hlog bc hbc with hbc | ho
    · exact Or.inr (Or.inr ⟨bc, hbc, hx⟩)
    · exact Or.inr (Or.inl ⟨bc.order, ho, hx⟩)

@[simp] theorem refundedPayments_append (l₁ l₂ : List Event) :
    refundedPayments (l₁ ++ l₂) = refundedPayments l₁ ++ refundedPayments l₂ :=
  List.filterMap_append ..

@[simp] theorem broadcasts_append (l₁ l₂ : List Event) :
    broadcasts (l₁ ++ l₂) = broadcasts l₁ ++ broadcasts l₂ :=
  List.filterMap_append ..

theorem PaymentsInv.move (h : PaymentsInv p) (hm : Move params sends p q) : PaymentsInv q := by
  have hself : ∀ o ∈ p.state.nameNotes.orders, ∀ x, o.payment = some x →
      ∃ o' ∈ p.state.nameNotes.orders, o'.payment = some x ∧ o'.origin = o.origin :=
    fun o ho x hx => ⟨o, ho, hx, rfl⟩
  cases hm with
  | market | rates | challenge | relay | thin =>
    exact h.frame rfl rfl rfl rfl rfl hself (fun _ ho => Or.inr ho) (fun _ hbc => Or.inl hbc)
  | authorize sent note e hsent hrelayed hrecord hprev =>
    refine h.frame rfl ?_ rfl rfl rfl hself (fun _ ho => Or.inr ho) (fun bc hbc => Or.inl ?_)
    · simp [outstanding, Live.record, refundedPayments]
    · simpa [Live.record] using hbc
  | keep =>
    refine h.pass rfl ?_ (fun x hx => Or.inl hx) (List.subset_cons_self ..) (fun e he => Or.inl he)
      (fun r hr => Or.inl hr) (fun o ho x hx => Or.inl (hself o ho x hx))
    exact (List.sublist_cons_self ..).subperm
  | record e hpayment hheight =>
    refine h.pass rfl ?_ (fun x hx => Or.inl hx) (List.subset_cons_self ..) (fun e' he => ?_)
      (fun r hr => Or.inl hr) (fun o ho x hx => Or.inl (hself o ho x hx))
    · refine List.Perm.subperm (List.perm_iff_count.mpr fun a => ?_)
      simp [outstanding, RequestQueue.record, List.count_cons, hpayment]
      omega
    · rcases List.mem_append.mp he with he | he
      · exact Or.inl he
      · rw [List.mem_singleton.mp he]
        exact Or.inr ⟨_, List.mem_cons_self .., hpayment, hheight⟩
  | refund r hpayment hheight =>
    refine h.pass rfl ?_ (fun x hx => Or.inl hx) (List.subset_cons_self ..) (fun e he => Or.inl he)
      (fun r' hr => ?_) (fun o ho x hx => Or.inl (hself o ho x hx))
    · refine List.Perm.subperm (List.perm_iff_count.mpr fun a => ?_)
      simp [outstanding, List.count_cons, hpayment]
      omega
    · rcases List.mem_append.mp hr with hr | hr
      · exact Or.inl hr
      · rw [List.mem_singleton.mp hr]
        exact Or.inr ⟨_, List.mem_cons_self .., hpayment, hheight⟩
  | claim note hclaim hname hfree hpending =>
    refine h.pass rfl ?_ (fun x hx => ?_) (List.subset_cons_self ..) (fun e he => Or.inl he)
      (fun r hr => Or.inl hr) (fun o ho x hx => ?_)
    · exact (List.sublist_cons_self ..).subperm
    · rcases hx with ⟨o, ho, hx⟩ | hx
      · rcases List.mem_append.mp ho with ho | ho
        · exact Or.inl (Or.inl ⟨o, ho, hx⟩)
        · -- the payment leaves the hand, where alone it stood
          rw [List.mem_singleton.mp ho] at hx
          cases hx
          exact Or.inr (List.nodup_cons.mp h.once).1
      · exact Or.inl (Or.inr hx)
    · rcases List.mem_append.mp ho with ho | ho
      · exact Or.inl (hself o ho x hx)
      · rw [List.mem_singleton.mp ho] at hx ⊢
        cases hx
        exact Or.inr ⟨_, List.mem_cons_self .., rfl, rfl⟩
  | transition note e hrecord hprev hpending =>
    refine h.frame rfl rfl rfl rfl rfl (fun o ho x hx => ?_) (fun _ ho => Or.inr ho)
      (fun _ hbc => Or.inl hbc)
    rcases List.mem_append.mp ho with ho | ho
    · exact hself o ho x hx
    · rw [List.mem_singleton.mp ho] at hx
      cases hx
  | expireSent =>
    refine h.frame rfl rfl rfl rfl rfl (fun o ho x hx => ?_) (fun _ ho => Or.inr ho)
      (fun _ hbc => Or.inl hbc)
    obtain ⟨o', ho', rfl⟩ := List.mem_map.mp ho
    rw [expireOrder_payment] at hx
    exact ⟨o', ho', hx, (expireOrder_origin ..).symm⟩
  | look =>
    exact h.frame rfl rfl rfl rfl rfl hself (fun _ ho => Or.inl (List.mem_of_mem_filter ho))
      (fun _ hbc => Or.inl hbc)
  | skip =>
    exact h.frame rfl rfl rfl rfl rfl hself (fun _ ho => Or.inr (List.mem_cons_of_mem _ ho))
      (fun _ hbc => Or.inl hbc)
  | drop on l₁ l₂ horders hon hfirst hreason =>
    refine h.frame rfl ?_ rfl rfl rfl (fun o ho => hself o ((sublist_of_split horders).subset ho))
      (fun _ ho => Or.inr (List.mem_cons_of_mem _ ho)) (fun bc hbc => Or.inl ?_)
    · simp [outstanding, Live.record, refundedPayments]
    · simpa [Live.record] using hbc
  | send on l₁ l₂ txid nf expiry hbuilt hexpiry horders hon hfirst hauthority hspendable =>
    refine h.frame rfl ?_ rfl rfl rfl (fun o ho x hx => ?_)
      (fun _ ho => Or.inr (List.mem_cons_of_mem _ ho)) (fun bc hbc => ?_)
    · simp [outstanding, Live.record, refundedPayments]
    · rcases mem_replaced ho with rfl | ho
      · exact ⟨on, mem_of_split horders, hx, rfl⟩
      · exact hself o (horders ▸ ho) x hx
    · simp only [mem_broadcasts, Live.record, List.mem_append, List.mem_singleton, reduceCtorEq, or_false,
        Event.broadcast.injEq] at hbc
      rcases hbc with hbc | rfl
      · exact Or.inl (mem_broadcasts.mpr hbc)
      · exact Or.inr (List.mem_cons_self ..)
  | lost txid e hlost he =>
    refine h.frame rfl ?_ rfl rfl rfl hself (fun _ ho => Or.inr ho) (fun bc hbc => Or.inl ?_)
    · unfold outstanding
      rw [refundedPayments_lost he]
      rfl
    · rwa [broadcasts_lost he] at hbc
  | pay r l₁ l₂ hrefunds =>
    refine h.pass rfl ?_ (fun x hx => Or.inl ?_) (List.Subset.refl _) (fun e he => Or.inl he)
      (fun r' hr => Or.inl ?_) (fun o ho x hx => Or.inl (hself o ho x hx))
    · refine List.Perm.subperm (List.perm_iff_count.mpr fun a => ?_)
      simp [outstanding, Live.record, hrefunds, refundedPayments, List.count_cons]
      omega
    · simpa [Claimed, Live.record] using hx
    · rw [hrefunds]
      rcases List.mem_append.mp hr with hr | hr <;> simp [hr]

/-! ### The steps -/

/-- Before and after a step no payment is in hand. -/
def PaymentsKept (s : Live) : Prop := PaymentsInv ⟨s, [], [], false⟩

/-- The arrivals of a block come into hand. -/
theorem PaymentsKept.arrivals (h : s.PaymentsKept) {b : Block} (hfresh : PaymentsFresh s (.block b)) :
    PaymentsInv ⟨(s.applyBlock params b).meetBlock params, b.arrivals.map (heldArrival (s.tip + 1)), [],
      false⟩ := by
  obtain ⟨hnodup, hfresh⟩ := hfresh
  set r : Live := (s.applyBlock params b).meetBlock params
  have hloc : located r = located s ++ b.arrivals.map fun a => (a.payment, s.tip + 1) := by
    simp [r, located, Live.meetBlock, Live.applyBlock]
  have hhand : (b.arrivals.map (heldArrival (s.tip + 1))).map Held.payment =
      b.arrivals.map Arrival.payment := by
    rw [List.map_map]
    rfl
  have horders : ∀ o ∈ r.nameNotes.orders, ∃ o' ∈ s.nameNotes.orders, o'.payment = o.payment ∧
      o'.origin = o.origin := by
    intro o ho
    obtain ⟨o', ho', rfl, -⟩ := mem_reconcileSeen.mp ho
    exact ⟨o', ho', by simp, by simp⟩
  have hold : outstanding ⟨r, b.arrivals.map (heldArrival (s.tip + 1)), [], false⟩ =
      b.arrivals.map Arrival.payment ++ outstanding ⟨s, [], [], false⟩ := by
    unfold outstanding
    rw [hhand]
    rfl
  -- nothing the arrivals pay is in a place already, or was made an order of
  have hnew : ∀ a ∈ b.arrivals, a.payment ∉ outstanding ⟨s, [], [], false⟩ := by
    intro a ha hmem
    obtain ⟨hchain, hlog, -⟩ := hfresh a ha
    simp only [outstanding, List.map_nil, List.nil_append, List.mem_append] at hmem
    rcases hmem with hmem | hmem | hmem
    · obtain ⟨e, he, heq⟩ := List.mem_map.mp hmem
      exact hchain e.height (heq ▸ h.requests e he)
    · obtain ⟨e, he, heq⟩ := List.mem_map.mp hmem
      exact hchain e.height (heq ▸ h.refunds e he)
    · exact hlog hmem
  have hclaimed : ∀ x, Claimed ⟨r, b.arrivals.map (heldArrival (s.tip + 1)), [], false⟩ x →
      Claimed ⟨s, [], [], false⟩ x ∧ ∀ a ∈ b.arrivals, a.payment ≠ x := by
    rintro x (⟨o, ho, hx⟩ | ⟨o, ho, -⟩ | ⟨bc, hbc, hx⟩)
    · obtain ⟨o', ho', hpayment, -⟩ := horders o ho
      rw [← hpayment] at hx
      refine ⟨Or.inl ⟨o', ho', hx⟩, fun a ha heq => ?_⟩
      exact (hfresh a ha).1 o'.origin (heq ▸ h.orders o' ho' x hx)
    · cases ho
    · refine ⟨Or.inr (Or.inr ⟨bc, hbc, hx⟩), fun a ha heq => ?_⟩
      exact (hfresh a ha).2.2 bc hbc (heq ▸ hx)
  refine ⟨?_, fun x hx hmem => ?_, fun e he => ?_, fun e he => ?_, fun e he => ?_, fun o ho x hx => ?_⟩
  · rw [hold]
    refine hnodup.append h.once (fun x hx hmem => ?_)
    obtain ⟨a, ha, rfl⟩ := List.mem_map.mp hx
    exact hnew a ha hmem
  · obtain ⟨hx, hne⟩ := hclaimed x hx
    rw [hold] at hmem
    rcases List.mem_append.mp hmem with hmem | hmem
    · obtain ⟨a, ha, heq⟩ := List.mem_map.mp hmem
      exact hne a ha heq
    · exact h.apart x hx hmem
  · obtain ⟨a, ha, rfl⟩ := List.mem_map.mp he
    rw [hloc]
    exact List.mem_append_right _ (List.mem_map_of_mem ha)
  · rw [hloc]
    exact List.mem_append_left _ (h.requests e he)
  · rw [hloc]
    exact List.mem_append_left _ (h.refunds e he)
  · obtain ⟨o', ho', hpayment, horigin⟩ := horders o ho
    rw [hloc, ← horigin]
    exact List.mem_append_left _ (h.orders o' ho' x (hpayment.trans hx))

theorem PaymentsKept.reorg (h : s.PaymentsKept) (rewound : ℕ) (mtp : ℤ) :
    (s.reorg params rewound mtp).PaymentsKept := by
  have hloc : ∀ x height, (x, height) ∈ located s → height ≤ rewound →
      (x, height) ∈ located (s.reorg params rewound mtp) := by
    intro x height hmem hle
    obtain ⟨e, he, hx⟩ := List.mem_flatMap.mp hmem
    refine List.mem_flatMap.mpr ⟨e, List.mem_filter.mpr ⟨he, ?_⟩, hx⟩
    obtain ⟨a, -, heq⟩ := List.mem_map.mp hx
    cases heq
    simpa using hle
  have horders : ∀ o ∈ (s.reorg params rewound mtp).nameNotes.orders, ∃ o' ∈ s.nameNotes.orders,
      o'.payment = o.payment ∧ o'.origin = o.origin ∧ o'.origin ≤ rewound := by
    intro o ho
    obtain ⟨o₁, ho₁, rfl, -⟩ := mem_reconcileSeen.mp ho
    obtain ⟨o', ho', rfl⟩ := List.mem_map.mp ho₁
    obtain ⟨ho', hle⟩ := List.mem_filter.mp ho'
    exact ⟨o', ho', by simp, by simp, by simpa using hle⟩
  have hplaces : List.Sublist (outstanding ⟨s.reorg params rewound mtp, [], [], false⟩)
      (outstanding ⟨s, [], [], false⟩) :=
    (List.Sublist.map _ List.filter_sublist).append
      ((List.Sublist.map _ List.filter_sublist).append (List.Sublist.refl _))
  refine ⟨h.once.sublist hplaces, fun x hx hmem => ?_, fun e he => ?_, fun e he => ?_, fun e he => ?_,
    fun o ho x hx => ?_⟩
  · refine h.apart x ?_ (hplaces.subset hmem)
    rcases hx with ⟨o, ho, hx⟩ | hx
    · obtain ⟨o', ho', hpayment, -⟩ := horders o ho
      exact Or.inl ⟨o', ho', hpayment.trans hx⟩
    · exact Or.inr hx
  · cases he
  · obtain ⟨he, hle⟩ := List.mem_filter.mp he
    exact hloc _ _ (h.requests e he) (by simpa using hle)
  · obtain ⟨he, hle⟩ := List.mem_filter.mp he
    exact hloc _ _ (h.refunds e he) (by simpa using hle)
  · obtain ⟨o', ho', hpayment, horigin, hle⟩ := horders o ho
    rw [← horigin]
    exact hloc _ _ (h.orders o' ho' x (hpayment.trans hx)) hle

/-- A tip pass takes the requests into hand. -/
theorem PaymentsKept.taken (h : s.PaymentsKept) : PaymentsInv s.taken := by
  have hhand : (s.requests.requests.map heldRequest).map Held.payment =
      s.requests.requests.map PendingRequest.payment := by
    rw [List.map_map]
    rfl
  have hplaces : outstanding s.taken = outstanding ⟨s, [], [], false⟩ := by
    unfold outstanding Live.taken
    rw [hhand]
    rfl
  refine ⟨hplaces ▸ h.once, fun x hx => hplaces ▸ h.apart x hx, fun e he => ?_, fun e he => ?_,
    h.refunds, h.orders⟩
  · obtain ⟨e', he', rfl⟩ := List.mem_map.mp he
    exact h.requests e' he'
  · cases he

theorem PaymentsKept.step (h : s.PaymentsKept) {a : Step} (hfresh : PaymentsFresh s a)
    (hstep : s.step params keys a = some t) : t.PaymentsKept := by
  rcases step_cases hstep with ⟨b, rfl, rfl⟩ | ⟨env, rfl, ht⟩ | ⟨rate, rfl, rfl⟩ |
    ⟨rewound, mtp, rfl, ⟨-, rfl⟩ | ⟨-, rfl⟩⟩
  · exact block_invariant (fun _ _ hp hm => hp.move hm) (h.arrivals hfresh)
  · have hend := tipPass_invariant (fun _ _ hp hm => hp.move hm) ht h.taken
    exact ⟨hend.once, hend.apart, hend.held, hend.requests, hend.refunds, hend.orders⟩
  · exact ⟨h.once, h.apart, h.held, h.requests, h.refunds, h.orders⟩
  · exact h.reorg rewound mtp
  · exact h

theorem paymentsKept_boot (params : Params) (origin : ℕ) (mtp : ℤ) (blocks : List Block) (market : Market)
    (listings : NameMap Listing) (rate fee : Zatoshis) :
    (boot params origin mtp blocks market listings rate fee).PaymentsKept := by
  obtain ⟨-, hnotes, hrequests, hrefunds, hlog⟩ :=
    boot_queues params origin mtp blocks market listings rate fee
  constructor <;>
    simp [outstanding, Claimed, refundedPayments, broadcasts, hnotes, hrequests, hrefunds, hlog,
      NameNoteQueue.empty, RequestQueue.empty, RefundQueue.empty]

/-- **No payment is settled twice.** In every run in which no payment that was refunded or whose claim was
broadcast is mined again, and in which the loop hears of what the node takes, the node takes at most one
refund of a payment, and none of a payment whose claim is confirmed on the chain. -/
theorem settled_once (params : Params) (keys : Keys) (origin : ℕ) (mtp : ℤ) (blocks : List Block)
    (market : Market) (listings : NameMap Listing) (rate fee : Zatoshis) (steps : List Step) (t : Live)
    (hcond : Along (Live.step params keys) PaymentsFresh
      (boot params origin mtp blocks market listings rate fee) steps)
    (hrun : run (Live.step params keys) (boot params origin mtp blocks market listings rate fee) steps =
      some t) :
    (takenRefunds t.log).Nodup ∧ ∀ x ∈ takenRefunds t.log,
      (∀ bc ∈ takenBroadcasts t.log, bc.order.payment = some x → ¬ t.OnChain bc.txid) ∧
        ∀ o ∈ t.nameNotes.orders, o.payment = some x →
          NameNoteQueue.confirmedBy params t.registry o = false := by
  obtain ⟨hinv, hheard⟩ := run_invariant (I := fun s : Live => s.PaymentsKept ∧ AllHeard s.log)
    (fun s a u hs hc hu => ⟨hs.1.step hc hu, hs.2.step (fun env henv => by subst henv; exact hc) hu⟩)
    steps _ t
    ⟨paymentsKept_boot params origin mtp blocks market listings rate fee,
      allHeard_boot params origin mtp blocks market listings rate fee⟩ hcond hrun
  rw [takenRefunds_of_allHeard hheard, takenBroadcasts_of_allHeard hheard]
  have hplace : refundedPayments t.log ⊆ outstanding ⟨t, [], [], false⟩ :=
    fun x hx => List.mem_append_right _ (List.mem_append_right _ (List.mem_append_right _ hx))
  refine ⟨?_, fun x hx => ⟨fun bc hbc hpayment => ?_, fun o ho hpayment => ?_⟩⟩
  · exact hinv.once.sublist (by simp [outstanding])
  · exact (hinv.apart x (Or.inr (Or.inr ⟨bc, hbc, hpayment⟩)) (hplace hx)).elim
  · exact (hinv.apart x (Or.inl ⟨o, ho, hpayment⟩) (hplace hx)).elim

/-! ### Where the condition fails -/

/-- Alice holds her name for good, and names have a price. -/
def takenBoot : Live :=
  boot Params.sample 99 0
    [ceremonyBlock, ⟨[claimTx 1 (.claim alice (sampleUa 1) .never) 0 50 60 140], 0, [], []⟩] .new ∅
    unitRate .zero

/-- A claim of her name is paid at 102, and the pass at 103 refunds it. -/
def refundSteps : List Step :=
  [.block ⟨[], 10, [claimArrival 20 (sampleUa 2)], []⟩, .block ⟨[], 20, [], []⟩, .tipPass sampleEnv]

theorem settled_once_refunded :
    ∃ t, run (Live.step Params.sample sampleKeys) takenBoot refundSteps = some t ∧
      takenRefunds t.log = [⟨sampleTxid 20, 0⟩] ∧
      (takenRefunds t.log).Nodup ∧ ∀ x ∈ takenRefunds t.log,
        (∀ bc ∈ takenBroadcasts t.log, bc.order.payment = some x → ¬ t.OnChain bc.txid) ∧
          ∀ o ∈ t.nameNotes.orders, o.payment = some x →
            NameNoteQueue.confirmedBy Params.sample t.registry o = false := by
  have hlog : (run (Live.step Params.sample sampleKeys) takenBoot refundSteps).map
      (fun t => takenRefunds t.log) = some [⟨sampleTxid 20, 0⟩] := by
    decide +kernel
  obtain ⟨t, ht, hlog⟩ := Option.map_eq_some_iff.mp hlog
  refine ⟨t, ht, hlog, settled_once _ _ _ _ _ _ _ _ _ refundSteps t ?_ ht⟩
  have hboot : located takenBoot = [] ∧ takenBoot.log = [] := by
    decide +kernel
  refine ⟨⟨List.nodup_singleton _, fun a _ => ?_⟩, fun u _ => ⟨⟨List.nodup_nil, ?_⟩,
    fun v _ => ⟨sampleEnv_heard, fun _ _ => trivial⟩⟩⟩
  · rw [show boot Params.sample 99 0 _ Market.new ∅ unitRate Zatoshis.zero = takenBoot from rfl,
      hboot.1, hboot.2]
    simp [refundedPayments, broadcasts]
  · intro a ha
    cases ha

/-- Then 102 and 103 are orphaned, and the payment is mined again. -/
def minedAgainSteps : List Step := refundSteps ++ .reorg 101 0 :: refundSteps

/-- A claim of the free name is paid at 101 and sent; both are orphaned and mined again, the claim at 101
and the payment at 102. -/
def claimMinedSteps : List Step :=
  [.block ⟨[], 10, [claimArrival 20 (sampleUa 2)], []⟩,
    .tipPass { sampleEnv with prepared := fun _ => some (sampleTxid 10) },
    .reorg 100 0,
    .block ⟨[claimTx 10 (.claim alice (sampleUa 2) .never) 0 50 60 142], 10, [], []⟩] ++ refundSteps

/-- The node takes the refund at 103 on an attempt whose answer comes too late, and refuses the resend:
its inputs are spent, by the refund itself. The next pass builds the refund again. -/
def lostSteps : List Step :=
  [.block ⟨[], 10, [claimArrival 20 (sampleUa 2)], []⟩, .block ⟨[], 20, [], []⟩, .tipPass lostEnv,
    .block ⟨[], 30, [], []⟩, .tipPass sampleEnv]

/-- The first payment is refunded twice, and so is the third. The second buys the name and is refunded. -/
theorem settled_once_minedAgain :
    (∃ t, run (Live.step Params.sample sampleKeys) takenBoot minedAgainSteps = some t ∧
      ¬ (takenRefunds t.log).Nodup) ∧
    (∃ t, run (Live.step Params.sample sampleKeys) pricedBoot claimMinedSteps = some t ∧
      ¬ ∀ x ∈ takenRefunds t.log, ∀ bc ∈ takenBroadcasts t.log, bc.order.payment = some x →
        ¬ t.OnChain bc.txid) ∧
    ∃ t, run (Live.step Params.sample sampleKeys) takenBoot lostSteps = some t ∧
      ¬ (takenRefunds t.log).Nodup := by
  have htwice : ∀ steps, (run (Live.step Params.sample sampleKeys) takenBoot steps).map
      (fun t => takenRefunds t.log) = some [⟨sampleTxid 20, 0⟩, ⟨sampleTxid 20, 0⟩] →
      ∃ t, run (Live.step Params.sample sampleKeys) takenBoot steps = some t ∧
        ¬ (takenRefunds t.log).Nodup := by
    intro steps hlog
    obtain ⟨t, ht, hlog⟩ := Option.map_eq_some_iff.mp hlog
    refine ⟨t, ht, ?_⟩
    rw [hlog]
    decide
  refine ⟨htwice _ (by decide +kernel), ?_, htwice _ (by decide +kernel)⟩
  have hlog : (run (Live.step Params.sample sampleKeys) pricedBoot claimMinedSteps).map
      (fun t => (takenRefunds t.log, (takenBroadcasts t.log).map fun bc => (bc.txid, bc.order.payment),
        t.chain.any fun e => e.2.txs.any fun tx => tx.1 == sampleTxid 10)) =
      some ([⟨sampleTxid 20, 0⟩], [(sampleTxid 10, some ⟨sampleTxid 20, 0⟩)], true) := by
    decide +kernel
  obtain ⟨t, ht, hlog⟩ := Option.map_eq_some_iff.mp hlog
  simp only [Prod.mk.injEq] at hlog
  obtain ⟨hrefunded, hsent, hmined⟩ := hlog
  refine ⟨t, ht, fun hall => ?_⟩
  obtain ⟨bc, hbc, heq⟩ := List.mem_map.mp (hsent ▸ List.mem_singleton_self _)
  simp only [Prod.mk.injEq] at heq
  refine hall _ (hrefunded ▸ List.mem_singleton_self _) bc hbc heq.2 ?_
  obtain ⟨e, he, hmined⟩ := List.any_eq_true.mp hmined
  obtain ⟨tx, htx, hid⟩ := List.any_eq_true.mp hmined
  exact ⟨e, he, tx, htx, by simpa [heq.1] using hid⟩

end ZnsMint.Live
