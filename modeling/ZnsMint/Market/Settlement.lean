import ZnsMint.Market.Steps

/-! # Exact settlement

A payment settles a sale by its address and its total, and `SaleQueue.observe` takes the first unused
output that fits. `open_buy` refuses a total that an open buy already asks of the same address, so at
most one sale waits for any output; with that the greedy loop is a map (`observeLoop_eq_map`), and neither
the order of the sales nor that of the payments matters. -/

namespace ZnsMint.Market

open Basic Note Inbound Lib.Rollback Lib.EventLog

/-! ### What a sale waits for -/

/-- The address and the total of an unpaid sale. -/
def due (s : Sale) : Option (TransparentAddress × ℕ) :=
  match s.phase with
  | .paying code payTo price _ _ => some (payTo, paymentTotal price code)
  | .paid => none

/-- What the unpaid sales wait for. -/
def dues (sales : List Sale) : List (TransparentAddress × ℕ) := sales.filterMap due

/-- The output is to the sale's address, and its value less the price is the code's amount. -/
def pays (p : TransparentAddress × Zatoshis) (s : Sale) : Bool :=
  match s.phase with
  | .paying code payTo price _ _ => p.1 == payTo && paymentIsPricePlusOtp p.2 price code
  | .paid => false

/-- The sale is unpaid, its deadline is ahead, its seller still holds the name and some output pays it. -/
def settles (holder : Name → Option UnifiedAddress) (payments : List (TransparentAddress × Zatoshis))
    (mtp : ℤ) (s : Sale) : Bool :=
  s.phase != .paid && SaleQueue.unexpired mtp s && holder s.name == some s.alice &&
    payments.any fun p => pays p s

/-- The sale after its payment is observed. -/
def settle (holder : Name → Option UnifiedAddress) (payments : List (TransparentAddress × Zatoshis))
    (mtp : ℤ) (s : Sale) : Sale :=
  if settles holder payments mtp s then { s with phase := .paid } else s

/-- The name and the code of a sale that is settled. -/
def receipt (holder : Name → Option UnifiedAddress) (payments : List (TransparentAddress × Zatoshis))
    (mtp : ℤ) (s : Sale) : Option (Name × OtpCode) :=
  match s.phase with
  | .paying code .. => if settles holder payments mtp s then some (s.name, code) else none
  | .paid => none

theorem due_of_pays {p : TransparentAddress × Zatoshis} {s : Sale} (h : pays p s = true) :
    due s = some (p.1, p.2.val) := by
  unfold pays at h
  unfold due
  rcases hphase : s.phase with ⟨code, payTo, price, expiresAt, relayed⟩ | _
  · simp only [hphase, Bool.and_eq_true, beq_iff_eq, paymentIsPricePlusOtp, decide_eq_true_eq] at h
    obtain ⟨haddr, hle, hcode⟩ := h
    have htotal : paymentTotal price code = p.2.val := by
      unfold paymentTotal
      omega
    simp [haddr, htotal]
  · simp [hphase] at h

/-- One output pays at most one sale. -/
theorem eq_of_pays {sales : List Sale} (h : (dues sales).Nodup) {p : TransparentAddress × Zatoshis}
    {s t : Sale} (hs : s ∈ sales) (ht : t ∈ sales) (hps : pays p s = true) (hpt : pays p t = true) :
    s = t :=
  eq_of_filterMap h hs ht (due_of_pays hps) (due_of_pays hpt)

/-! ### The loop of `observe` -/

section Observe

variable {holder : Name → Option UnifiedAddress} {payments : List (TransparentAddress × Zatoshis)}
  {mtp : ℤ}

/-- No output already used pays one of these sales. -/
def Spare (payments : List (TransparentAddress × Zatoshis)) (used : List Bool) (sales : List Sale) :
    Prop :=
  ∀ (i : ℕ) p, payments[i]? = some p → used[i]? = some true → ∀ s ∈ sales, pays p s = false

theorem findPayment_isSome {used : List Bool} {s : Sale} {code : OtpCode} {payTo : TransparentAddress}
    {price : Zatoshis} {expiresAt : ℤ} {relayed : Bool}
    (hphase : s.phase = .paying code payTo price expiresAt relayed)
    (hlen : used.length = payments.length) (hspare : Spare payments used [s]) :
    (SaleQueue.findPayment payments used payTo price code).isSome = payments.any fun p => pays p s := by
  rw [Bool.eq_iff_iff, SaleQueue.findPayment, List.findIdx?_isSome, List.any_eq_true, List.any_eq_true]
  constructor
  · rintro ⟨⟨p, u⟩, hmem, hp⟩
    refine ⟨p, (List.of_mem_zip hmem).1, ?_⟩
    simp only [Bool.and_eq_true] at hp
    simp [pays, hphase, hp.1.2, hp.2]
  · rintro ⟨p, hmem, hp⟩
    obtain ⟨i, hi⟩ := List.getElem?_of_mem hmem
    have hlt : i < used.length := by
      rw [hlen]
      exact (List.getElem?_eq_some_iff.mp hi).1
    have hunused : used[i]? = some false := by
      rcases hu : used[i] with _ | _
      · exact List.getElem?_eq_some_iff.mpr ⟨hlt, hu⟩
      · have hpays := hspare i p hi (List.getElem?_eq_some_iff.mpr ⟨hlt, hu⟩) s (by simp)
        rw [hp] at hpays
        cases hpays
    have hzip : (payments.zip used)[i]? = some (p, false) := List.getElem?_zip_eq_some.mpr ⟨hi, hunused⟩
    refine ⟨(p, false), List.mem_of_getElem? hzip, ?_⟩
    simpa [pays, hphase] using hp

theorem pays_findPayment {used : List Bool} {s : Sale} {code : OtpCode} {payTo : TransparentAddress}
    {price : Zatoshis} {expiresAt : ℤ} {relayed : Bool} {index : ℕ}
    (hphase : s.phase = .paying code payTo price expiresAt relayed)
    (h : SaleQueue.findPayment payments used payTo price code = some index) :
    ∃ p, payments[index]? = some p ∧ pays p s = true := by
  rw [SaleQueue.findPayment, List.findIdx?_eq_some_iff_getElem] at h
  obtain ⟨hlt, hp, -⟩ := h
  have hlt' : index < payments.length := by
    rw [List.length_zip] at hlt
    omega
  refine ⟨payments[index], List.getElem?_eq_getElem hlt', ?_⟩
  simp only [List.getElem_zip, Bool.and_eq_true] at hp
  simp [pays, hphase, hp.1.2, hp.2]

/-- A turn of the loop finds an output exactly when the sale is settled. -/
theorem observeOne_isSome {used : List Bool} {s : Sale} (hlen : used.length = payments.length)
    (hspare : Spare payments used [s]) :
    (SaleQueue.observeOne holder payments mtp used s).isSome = settles holder payments mtp s := by
  unfold SaleQueue.observeOne settles SaleQueue.unexpired
  rcases hphase : s.phase with ⟨code, payTo, price, expiresAt, relayed⟩ | _
  · have hfind := findPayment_isSome hphase hlen hspare
    by_cases hexp : expiresAt ≤ mtp
    · simp [hexp]
    · by_cases hheld : holder s.name = some s.alice
      · have hpaid : (SaleQueue.findPayment payments used payTo price code).isSome =
          payments.any fun p => pays p s := hfind
        have hlt : mtp < expiresAt := by omega
        simp [hexp, hheld, hpaid, hlt]
      · simp [hexp, hheld]
  · simp

theorem observeOne_some {used : List Bool} {s : Sale} {index : ℕ} {code : OtpCode}
    (h : SaleQueue.observeOne holder payments mtp used s = some (index, code)) :
    ∃ payTo price expiresAt relayed, s.phase = .paying code payTo price expiresAt relayed ∧
      ∃ p, payments[index]? = some p ∧ pays p s = true := by
  unfold SaleQueue.observeOne at h
  rcases hphase : s.phase with ⟨code', payTo, price, expiresAt, relayed⟩ | _
  · simp only [hphase] at h
    split_ifs at h
    obtain ⟨i, hfind, heq⟩ := Option.map_eq_some_iff.mp h
    cases heq
    exact ⟨payTo, price, expiresAt, relayed, rfl, pays_findPayment hphase hfind⟩
  · simp [hphase] at h

/-- Using an output for one sale leaves the others theirs. -/
theorem Spare.use {used : List Bool} {s : Sale} {sales : List Sale} {index : ℕ}
    {p : TransparentAddress × Zatoshis} (hspare : Spare payments used (s :: sales))
    (hdues : (dues (s :: sales)).Nodup) (hp : payments[index]? = some p) (hpays : pays p s = true) :
    Spare payments (used.set index true) sales := by
  intro i p' hp' hused t ht
  by_cases hi : index = i
  · subst hi
    have hpp : p' = p := Option.some.inj (hp'.symm.trans hp)
    subst hpp
    by_contra hne
    have hpt : pays p' t = true := by simpa using hne
    have hst : s = t := eq_of_pays hdues (by simp) (by simp [ht]) hpays hpt
    subst hst
    rw [dues, List.filterMap_cons_some (due_of_pays hpays), List.nodup_cons] at hdues
    exact hdues.1 (List.mem_filterMap.mpr ⟨s, ht, due_of_pays hpays⟩)
  · rw [List.getElem?_set_ne hi] at hused
    exact hspare i p' hp' hused t (by simp [ht])

/-- **The greedy loop is a map** where no two unpaid sales wait for one output. -/
theorem observeLoop_eq_map (holder : Name → Option UnifiedAddress)
    (payments : List (TransparentAddress × Zatoshis))
    (mtp : ℤ) (sales : List Sale) (used : List Bool) (hlen : used.length = payments.length)
    (hspare : Spare payments used sales) (hdues : (dues sales).Nodup) :
    SaleQueue.observeLoop holder payments mtp used sales =
      (sales.map (settle holder payments mtp), sales.filterMap (receipt holder payments mtp)) := by
  induction sales generalizing used with
  | nil => rfl
  | cons s sales ih =>
    have hrest : (dues sales).Nodup := hdues.sublist ((List.sublist_cons_self s sales).filterMap due)
    have hhead : Spare payments used [s] := by
      intro i p hp hu t ht
      rw [List.mem_singleton] at ht
      exact hspare i p hp hu t (by simp [ht])
    have hsettles : (SaleQueue.observeOne holder payments mtp used s).isSome =
        settles holder payments mtp s :=
      observeOne_isSome hlen hhead
    simp only [SaleQueue.observeLoop]
    rcases hone : SaleQueue.observeOne holder payments mtp used s with _ | ⟨index, code⟩
    · have hnot : settles holder payments mtp s = false := by simpa [hone] using hsettles.symm
      have hreceipt : receipt holder payments mtp s = none := by
        unfold receipt
        split <;> simp [hnot]
      have hspare' : Spare payments used sales := fun i p hp hu t ht => hspare i p hp hu t (by simp [ht])
      simp [ih used hlen hspare' hrest, settle, hnot, hreceipt]
    · have hyes : settles holder payments mtp s = true := by simpa [hone] using hsettles.symm
      obtain ⟨payTo, price, expiresAt, relayed, hphase, p, hp, hpays⟩ := observeOne_some hone
      have hreceipt : receipt holder payments mtp s = some (s.name, code) := by
        simp [receipt, hphase, hyes]
      have hset := ih (used.set index true) (by simpa using hlen) (hspare.use hdues hp hpays) hrest
      simp [hset, settle, hyes, hreceipt]

theorem observe_eq (holder : Name → Option UnifiedAddress)
    (payments : List (TransparentAddress × Zatoshis))
    (mtp : ℤ) {q : SaleQueue} (hdues : (dues q.sales).Nodup) :
    q.observe holder payments mtp =
      (⟨q.sales.map (settle holder payments mtp)⟩, q.sales.filterMap (receipt holder payments mtp)) := by
  have hspare : Spare payments (List.replicate payments.length false) q.sales := by
    intro i p hp hused
    have hlt := (List.getElem?_eq_some_iff.mp hp).1
    simp [hlt] at hused
  simp [SaleQueue.observe, observeLoop_eq_map holder payments mtp q.sales _ List.length_replicate
    hspare hdues]

end Observe

/-! ### The invariant -/

theorem due_eraseSale (s : Sale) : due (eraseSale s) = due s := by
  unfold due eraseSale
  rcases s.phase with _ | _ <;> rfl

theorem due_relay (s : Sale) : due (SaleQueue.relay s) = due s := by
  rw [← due_eraseSale, eraseSale_relay, due_eraseSale]

theorem dues_map {f : Sale → Sale} (hf : ∀ s, due (f s) = due s) (sales : List Sale) :
    dues (sales.map f) = dues sales := by
  rw [dues, List.filterMap_map]
  exact List.filterMap_congr fun s _ => hf s

/-- No two unpaid sales of the book wait for the same output. -/
def Book.Separate (b : Book) : Prop := (dues b.sales).Nodup

theorem separate_book (s : Market × Registry) : (book s).Separate ↔ (dues s.1.sales.sales).Nodup := by
  unfold Book.Separate book
  rw [dues_map due_eraseSale]

theorem dues_observeLoop (holder : Name → Option UnifiedAddress)
    (payments : List (TransparentAddress × Zatoshis)) (mtp : ℤ) (sales : List Sale) (used : List Bool) :
    (dues (SaleQueue.observeLoop holder payments mtp used sales).1).Sublist (dues sales) := by
  induction sales generalizing used with
  | nil => exact List.Sublist.slnil
  | cons s sales ih =>
    simp only [SaleQueue.observeLoop]
    rcases SaleQueue.observeOne holder payments mtp used s with _ | ⟨index, code⟩
    · rcases hs : due s with _ | d
      · simpa [dues, hs] using ih used
      · simpa [dues, hs] using ih used
    · have hpaid : due { s with phase := .paid } = none := rfl
      have hrest := ih (used.set index true)
      rcases hs : due s with _ | d
      · simpa [dues, hs, hpaid] using hrest
      · simpa [dues, hs, hpaid] using hrest.cons d

/-- A new buy waits for a total that nobody else waits for. -/
theorem dues_openedSale {sales : List Sale} {name : Name} {bob owner : UnifiedAddress} {term : Expiry}
    {held : NameCommitment} {payTo : TransparentAddress} {price : Zatoshis} {code : OtpCode}
    {dutch : Bool}
    {expiresAt : ℤ} (hdues : (dues sales).Nodup)
    (hsame : SaleQueue.samePayment ⟨sales⟩ payTo price code = false) :
    (dues (sales ++ [openedSale name bob owner payTo price term held code dutch expiresAt])).Nodup := by
  have hnew : due (openedSale name bob owner payTo price term held code dutch expiresAt) =
      some (payTo, paymentTotal price code) := rfl
  rw [dues, List.filterMap_append, List.filterMap_cons_some hnew, List.filterMap_nil, List.nodup_append]
  refine ⟨hdues, List.nodup_singleton _, ?_⟩
  rintro d hd d' hd' rfl
  rw [List.mem_singleton] at hd'
  subst hd'
  obtain ⟨s, hs, hdue⟩ := List.mem_filterMap.mp hd
  rw [SaleQueue.samePayment, List.any_eq_false] at hsame
  have hne := hsame s hs
  unfold due at hdue
  rcases hphase : s.phase with ⟨code', payTo', price', expiresAt', relayed⟩ | _
  · simp only [hphase, Option.some.injEq, Prod.mk.injEq] at hdue hne
    simp [hdue.1, hdue.2] at hne
  · simp [hphase] at hdue

/-- Every operation keeps the unpaid sales apart. -/
theorem separate_step (s : Market × Registry) (o : ℕ × MarketOp) (h : (book s).Separate) :
    (book (system.step s o)).Separate := by
  rw [separate_book] at h ⊢
  obtain ⟨m, r⟩ := s
  obtain ⟨height, o⟩ := o
  have hless : ∀ keep : Sale → Bool, (dues (m.sales.sales.filter keep)).Nodup := fun keep =>
    h.sublist (List.filter_sublist.filterMap due)
  rcases o with ⟨keys, txid, request, paid, fee, mtp, pending⟩ | response | ⟨holder,
    payments, mtp⟩ | mtp |
    _ | pending | name | code | _ | ⟨records, history, anchors⟩
  · change (dues (m.admitRequest keys txid request paid r fee height mtp pending).1.sales.sales).Nodup
    rcases admitRequest_cases keys m txid request paid r fee height mtp pending with
      heq | ⟨c, record, -, -, -, -, -, -, heq⟩ | ⟨name, bob, record, otp, m', -, -, -, hbuy, heq⟩
    · rw [heq]
      exact h
    · rw [heq]
      exact h
    · obtain ⟨payTo, price, dutch, expiresAt, -, -, -, -, hsame, hsales, -⟩ := openBuy_ok hbuy
      rw [heq, hsales]
      exact dues_openedSale h hsame
  · change (dues (m.answer r response height).1.1.sales.sales).Nodup
    rw [(answer_cases m r response height).1]
    exact h
  · change (dues (m.observe holder payments mtp height).sales.sales).Nodup
    rw [sales_observe]
    exact h.sublist (dues_observeLoop holder payments mtp m.sales.sales _)
  · change (dues (m.expire r mtp height).1.sales.sales).Nodup
    rw [sales_expire]
    exact hless _
  · change (dues (m.reconcile r height).1.sales.sales).Nodup
    rw [sales_reconcile]
    exact hless _
  · change (dues (m.poll r pending height).1.sales.sales).Nodup
    rw [sales_poll]
    exact hless _
  · have hrelay : ∀ s, due (if s.name = name then SaleQueue.relay s else s) = due s := by
      intro s
      split_ifs
      · exact due_relay s
      · rfl
    change (dues (m.sales.sales.map _)).Nodup
    rw [dues_map hrelay]
    exact h
  · exact h
  · change (dues (m.sales.sales.map SaleQueue.relay)).Nodup
    rw [dues_map due_relay]
    exact h
  · exact h

/-- A market that some run of operations and rewinds leads to, at heights a chain gives them. -/
def Reachable (m : Market) : Prop :=
  ∃ acts r, system.Climbs 0 acts ∧ system.run (new, .new) acts = (m, r)

theorem Reachable.everywhere {m : Market} (h : Reachable m) :
    ∃ r lo, sourced.Everywhere Book.Separate lo (m, r) := by
  obtain ⟨acts, r, hclimbs, hrun⟩ := h
  have hnew : sourced.Everywhere Book.Separate 0 (new, .new) := by
    refine ⟨rfl, by simp [sourced, new], ?_⟩
    intro k
    exact List.nodup_nil
  obtain ⟨lo, hlast⟩ := lawful.everywhere_run (fun s o _ hs => separate_step s o hs) acts 0
    (new, .new) hnew hclimbs
  rw [hrun] at hlast
  exact ⟨r, lo, hlast⟩

/-- **Exact settlement.** In every reachable market no two unpaid sales ask the same total of the same
address and no name has two sales. So a block's payments settle exactly the sales that one of them pays,
an output pays at most one sale, and neither order matters. -/
theorem settlement_exact {m : Market} (hm : Reachable m) :
    (dues m.sales.sales).Nodup ∧ m.names.Nodup ∧
      ∀ (holder : Name → Option UnifiedAddress) (payments : List (TransparentAddress × Zatoshis))
        (mtp : ℤ),
        (m.sales.observe holder payments mtp).1.sales = m.sales.sales.map (settle holder payments mtp) ∧
        (m.sales.observe holder payments mtp).2 = m.sales.sales.filterMap (receipt holder payments mtp) ∧
        (∀ p, ∀ s ∈ m.sales.sales, ∀ t ∈ m.sales.sales, pays p s = true → pays p t = true → s = t) ∧
        ∀ sales' payments', m.sales.sales.Perm sales' → payments.Perm payments' →
          ((m.sales.observe holder payments mtp).1.sales.Perm
            (SaleQueue.observe ⟨sales'⟩ holder payments' mtp).1.sales) ∧
          ((m.sales.observe holder payments mtp).2.Perm
            (SaleQueue.observe ⟨sales'⟩ holder payments' mtp).2) := by
  obtain ⟨r, lo, hlast⟩ := hm.everywhere
  have hdues : (dues m.sales.sales).Nodup := (separate_book (m, r)).mp hlast.view
  have hnames : m.names.Nodup := by
    have hdistinct := (distinct_of_replays hlast.replays).names
    rwa [book, map_eraseSale_name] at hdistinct
  refine ⟨hdues, hnames, ?_⟩
  intro holder payments mtp
  have hobserve := observe_eq holder payments mtp hdues
  refine ⟨congrArg (fun x => x.1.sales) hobserve, congrArg Prod.snd hobserve,
    fun p s hs t ht => eq_of_pays hdues hs ht, ?_⟩
  intro sales' payments' hsales hpayments
  have hdues' : (dues sales').Nodup := (hsales.filterMap due).nodup_iff.mp hdues
  have hsettles : settles holder payments' mtp = settles holder payments mtp := by
    funext s
    simp only [settles, hpayments.any_eq]
  have hsettle : settle holder payments' mtp = settle holder payments mtp := by
    funext s
    simp only [settle, hsettles]
  have hreceipt : receipt holder payments' mtp = receipt holder payments mtp := by
    funext s
    simp only [receipt, hsettles]
  have hobserve' : SaleQueue.observe ⟨sales'⟩ holder payments' mtp =
      (⟨sales'.map (settle holder payments' mtp)⟩, sales'.filterMap (receipt holder payments' mtp)) :=
    observe_eq holder payments' mtp hdues'
  rw [hobserve, hobserve', hsettle, hreceipt]
  exact ⟨hsales.map _, hsales.filterMap _⟩

/-- Alice's listing is answered in block 6 and bought in block 7. -/
def sampleBuy : List (Act (ℕ × MarketOp)) :=
  sampleProposal ++ [.op (6, .answer (Market.newChallenge (.list sampleListing) listingCode 10).memo),
    .op (7, .admitRequest sampleKeys ⟨Vector.replicate 32 1⟩ (.buy alice (sampleUa 2)) .zero .zero 20
      fun _ => false)]

/-- Another name of Alice's, listed for seven zatoshis at the same address. -/
def secondListing : Listing := ⟨alicia, sampleUa 1, .publicKeyHash (Vector.replicate 20 1),
    .flat ⟨7, by decide⟩⟩

def secondRecord : NameRecord := .create Params.sample (.claim alicia (sampleUa 1) .never) ⟨12⟩ 3 0

/-- That name is registered, listed and bought. -/
def secondBuy : List (Act (ℕ × MarketOp)) :=
  [.op (8, .setRecords (((∅ : NameMap NameRecord).insert alice sampleRecord).insert alicia secondRecord) ∅
      .empty),
    .op (8, .admitRequest sampleKeys ⟨Vector.replicate 32 2⟩ (.list secondListing) .zero .zero 20
      fun _ => false),
    .op (9, .answer (Market.newChallenge (.list secondListing) listingCode 20).memo),
    .op (10, .admitRequest sampleKeys ⟨Vector.replicate 32 3⟩ (.buy alicia (sampleUa 4)) .zero .zero 30
      fun _ => false)]

/-- One output of eight zatoshis to that address. -/
def eightPaid : List (TransparentAddress × Zatoshis) :=
  [(.publicKeyHash (Vector.replicate 20 1), ⟨8, by decide⟩)]

/-- Two sales wait at one address, for one zatoshi and for eight; the output of eight pays the second. -/
theorem settlement_exact_sample :
    ∃ m : Market, Reachable m ∧ (dues m.sales.sales).Nodup ∧
      dues m.sales.sales =
        [(.publicKeyHash (Vector.replicate 20 1), 1), (.publicKeyHash (Vector.replicate 20 1), 8)] ∧
      (m.sales.observe (fun _ => some (sampleUa 1)) eightPaid 40).2 = [(alicia, 1)] ∧
      dues (m.sales.observe (fun _ => some (sampleUa 1)) eightPaid 40).1.sales =
        [(.publicKeyHash (Vector.replicate 20 1), 1)] := by
  have hm : Reachable (system.run (new, .new) (sampleBuy ++ secondBuy)).1 := by
    refine ⟨sampleBuy ++ secondBuy, (system.run (new, .new) (sampleBuy ++ secondBuy)).2, ?_, rfl⟩
    simp [sampleBuy, secondBuy, sampleProposal, System.Climbs, system]
  obtain ⟨hdues, -, hobserve⟩ := settlement_exact hm
  obtain ⟨hsales, hreceipts, -⟩ := hobserve (fun _ => some (sampleUa 1)) eightPaid 40
  refine ⟨_, hm, hdues, by decide +kernel, ?_, ?_⟩
  · rw [hreceipts]
    decide +kernel
  · rw [hsales]
    decide +kernel

end ZnsMint.Market
