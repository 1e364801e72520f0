import ZnsMint.Market.Agreement

/-! # The market without its flags

`relayed` says that a code was sent. No operation that a block drives reads it, so that two markets that
differ in it alone (`Alike`) stay alike. `grant` is what a memo earns by the gates of `Market.admit`
other than the queue of Name Notes: the markets of two loops that differ in that queue part where a memo
earns something and its name is pending. -/

namespace ZnsMint.Market

open Basic Note Inbound Registry

/-! ### What a memo earns -/

inductive Grant where
  | challenge (c : MarketChallenge)
  | sale (sale : Sale)
  deriving DecidableEq

/-- The name of a market memo. -/
def nameOf : MarketRequest → Name
  | .list listing => listing.name
  | .delist name _ => name
  | .buy name _ => name

/-- The challenge or the sale a memo earns while no order holds its name. -/
def grant (keys : OtpKeys) (m : Market) (txid : TxId) (request : MarketRequest) (paid : Zatoshis)
    (registry : Registry) (marginalFee : Zatoshis) (height : ℕ) (mtp : ℤ) : Option Grant :=
  if !(marginalFee.mul FEE_ACTIONS).any fun fee => decide (fee.val ≤ paid.val) then none
  else
    match request with
    | .list listing => do
      let record ← registry.record listing.name
      let code := listCode keys txid listing
      if record.isReleaseDue mtp || !(clockReady listing.ask height).isOk ||
          !isOwnerListing record.ua listing.ua listing.payTo || m.sales.isOpen listing.name ||
          (m.challenges.any fun c => c.sameList listing) || m.codeIsOpen code then none
      else some (.challenge (newChallenge (.list listing) code mtp))
    | .delist name ua =>
      let code := keys.delistOtp txid name
      if !(registry.record name).any (fun record => record.ua == ua) || m.sales.isOpen name ||
          (registry.listing name).isNone || (m.challenges.any fun c => c.sameDelist name ua) ||
          m.codeIsOpen code then none
      else some (.challenge (newChallenge (.delist name ua) code mtp))
    | .buy name bob => do
      let record ← registry.record name
      let code := keys.buyOtp txid name
      let (payTo, price, dutch) ← (quoteFor registry name record.ua height).toOption
      let expiresAt ← fromSeconds (mtp + if dutch then D_DUTCH else D_OTP)
      if m.sales.isOpen name || record.isReleaseDue mtp || m.sales.samePayment payTo price code then none
      else some (.sale (openedSale name bob record.ua payTo price record.expiresAt
        record.commitment code dutch
        expiresAt))

/-- The market once it has granted. -/
def granted (m : Market) (height : ℕ) : Grant → Market
  | .challenge c => m.pushChallenge c height
  | .sale sale =>
    (record { m with sales := ⟨m.sales.sales ++ [sale]⟩ } height (.opened sale)).closeChallengesFor
    sale.name height

variable {m m' : Market} {r : Registry} {height : ℕ} {mtp : ℤ}

theorem get_append_of_not_open {q : SaleQueue} (sale : Sale) (h : q.isOpen sale.name = false) :
    SaleQueue.get ⟨q.sales ++ [sale]⟩ sale.name = some sale := by
  have hnone : q.sales.find? (fun s => s.name == sale.name) = none := by
    unfold SaleQueue.isOpen at h
    rw [List.any_eq_false] at h
    exact List.find?_eq_none.mpr h
  unfold SaleQueue.get
  rw [List.find?_append, hnone]
  simp

theorem openSale_of_not_open {q : SaleQueue} {name : Name} (bob owner : UnifiedAddress)
    (payTo : TransparentAddress)
    (price : Zatoshis) (term : Expiry) (held : NameCommitment) (code : OtpCode) (dutch : Bool)
    (h : q.isOpen name = false) :
    q.openSale name bob owner payTo price term held code dutch mtp =
      (fromSeconds (mtp + if dutch then D_DUTCH else D_OTP)).map fun expiresAt =>
        (⟨q.sales ++ [openedSale name bob owner payTo price term held code dutch expiresAt]⟩,
          ⟨code, name, bob, if dutch then some (price, expiresAt) else none⟩) := by
  unfold SaleQueue.openSale
  rw [if_neg (by simp [h])]
  rcases fromSeconds (mtp + if dutch then D_DUTCH else D_OTP) with _ | expiresAt <;> rfl

/-- A buy that finds no sale and no order of its name. -/
theorem openBuy_eq {name : Name} (bob owner : UnifiedAddress) (term : Expiry) (held : NameCommitment)
    (releaseDue : Bool) (code : OtpCode) (h : m.sales.isOpen name = false) :
    (m.openBuy r name bob owner term held releaseDue false code mtp height).toOption.map Prod.fst =
      (quoteFor r name owner height).toOption.bind fun quote =>
        (fromSeconds (mtp + if quote.2.2 then D_DUTCH else D_OTP)).bind fun expiresAt =>
          if releaseDue || m.sales.samePayment quote.1 quote.2.1 code then none
          else some (m.granted height (.sale (openedSale name bob owner quote.1 quote.2.1 term held
            code quote.2.2
            expiresAt))) := by
  unfold openBuy
  rw [if_neg (by simp [h])]
  rcases quoteFor r name owner height with e | ⟨payTo, price, dutch⟩
  · rfl
  simp only [bind, Except.bind, Except.toOption, Option.bind_some, openSale_of_not_open _ _ _ _ _ _ _ _ h]
  rcases fromSeconds (mtp + if dutch then D_DUTCH else D_OTP) with _ | expiresAt
  · rcases releaseDue with _ | _ <;> rcases m.sales.samePayment payTo price code with _ | _ <;> rfl
  · have hget : SaleQueue.get ⟨m.sales.sales ++
      [openedSale name bob owner payTo price term held code dutch expiresAt]⟩
        name = some (openedSale name bob owner payTo price term held code dutch expiresAt) :=
      get_append_of_not_open (openedSale name bob owner payTo price term held code dutch expiresAt) h
    rcases releaseDue with _ | _
    · rcases m.sales.samePayment payTo price code with _ | _
      · simp only [Option.map_some, hget]
        rfl
      · rfl
    · rfl

theorem proposeList_eq (m : Market) (l : Listing) (owner : UnifiedAddress) (code : OtpCode) (mtp : ℤ)
    (height : ℕ) :
    (m.proposeList l owner code mtp height).toOption.getD m =
      if !(clockReady l.ask height).isOk || !isOwnerListing owner l.ua l.payTo || m.sales.isOpen l.name ||
        (m.challenges.any fun c => c.sameList l) || m.codeIsOpen code then m
      else m.pushChallenge (newChallenge (.list l) code mtp) height := by
  unfold proposeList
  rcases hclock : clockReady l.ask height with e | _
  · rfl
  · simp only [bind, Except.bind, Except.isOk, Except.toBool, Bool.not_true, Bool.false_or]
    by_cases hown : isOwnerListing owner l.ua l.payTo = true
    · by_cases hopen : m.sales.isOpen l.name = true
      · simp [hown, hopen, Except.toOption]
      · by_cases hsame : (m.challenges.any fun c => c.sameList l) = true
        · simp [hown, hopen, hsame, Except.toOption, pure, Except.pure]
        · by_cases hcode : m.codeIsOpen code = true
          · simp [hown, hopen, hsame, hcode, Except.toOption]
          · simp [hown, hopen, hsame, hcode, Except.toOption, pure, Except.pure]
    · simp [hown, Except.toOption]

theorem proposeDelist_eq (m : Market) (r : Registry) (name : Name) (ua : UnifiedAddress)
    (code : OtpCode) (mtp : ℤ)
    (height : ℕ) :
    (m.proposeDelist r name ua code mtp height).toOption.getD m =
      if !(r.record name).any (fun record => record.ua == ua) || m.sales.isOpen name ||
        (r.listing name).isNone ||
        (m.challenges.any fun c => c.sameDelist name ua) || m.codeIsOpen code then m
      else m.pushChallenge (newChallenge (.delist name ua) code mtp) height := by
  unfold proposeDelist
  generalize (r.record name).any (fun record => record.ua == ua) = owned
  generalize m.sales.isOpen name = opened
  generalize (r.listing name).isNone = unlisted
  generalize (m.challenges.any fun c => c.sameDelist name ua) = same
  generalize m.codeIsOpen code = taken
  cases owned <;> cases opened <;> cases unlisted <;> cases same <;> cases taken <;> rfl

/-- A memo whose name is pending changes nothing. -/
theorem admitRequest_of_pending (keys : OtpKeys) (m : Market) (txid : TxId) {request : MarketRequest}
    (paid : Zatoshis) (r : Registry) (fee : Zatoshis) (height : ℕ) (mtp : ℤ) {pending : Name → Bool}
    (h : pending (nameOf request) = true) :
    (m.admitRequest keys txid request paid r fee height mtp pending).1 = m := by
  unfold admitRequest
  rcases request with l | ⟨name, ua⟩ | ⟨name, bob⟩
  · have hpending : pending l.name = true := h
    simp only [hpending, Bool.or_true, if_true]
    split <;> rfl
  · have hpending : pending name = true := h
    simp only [hpending, Bool.or_true, if_true]
    split_ifs <;> rfl
  · have hpending : pending name = true := h
    simp only [hpending]
    split
    · rfl
    · rename_i record _
      split_ifs
      · rfl
      · split
        · rename_i m' otp hbuy
          obtain ⟨-, -, -, -, -, -, -, hfree, -⟩ := openBuy_ok hbuy
          cases hfree
        · rfl

/-- **One market memo**, by what it earns. -/
theorem admitRequest_of_not_pending (keys : OtpKeys) (m : Market) (txid : TxId) {request : MarketRequest}
    (paid : Zatoshis) (r : Registry) (fee : Zatoshis) (height : ℕ) (mtp : ℤ) {pending : Name → Bool}
    (h : pending (nameOf request) = false) :
    (m.admitRequest keys txid request paid r fee height mtp pending).1 =
      ((m.grant keys txid request paid r fee height mtp).map (m.granted height)).getD m := by
  unfold admitRequest grant
  generalize ((fee.mul FEE_ACTIONS).any fun fee => decide (fee.val ≤ paid.val)) = feeOk
  rcases request with l | ⟨name, ua⟩ | ⟨name, bob⟩
  · have hpending : pending l.name = false := h
    simp only [hpending, proposeList_eq]
    rcases r.record l.name with _ | e
    · cases feeOk <;> rfl
    · simp only [Option.bind_eq_bind, Option.bind_some]
      generalize e.isReleaseDue mtp = due
      generalize (clockReady l.ask height).isOk = ready
      generalize isOwnerListing e.ua l.ua l.payTo = own
      generalize m.sales.isOpen l.name = opened
      generalize (m.challenges.any fun c => c.sameList l) = same
      generalize m.codeIsOpen (listCode keys txid l) = taken
      cases feeOk <;> cases opened <;> cases due <;> cases ready <;> cases own <;> cases same <;>
        cases taken <;> rfl
  · have hpending : pending name = false := h
    simp only [hpending, proposeDelist_eq]
    generalize (r.record name).any (fun record => record.ua == ua) = owned
    generalize m.sales.isOpen name = opened
    generalize (r.listing name).isNone = unlisted
    generalize (m.challenges.any fun c => c.sameDelist name ua) = same
    generalize m.codeIsOpen (keys.delistOtp txid name) = taken
    cases feeOk <;> cases owned <;> cases opened <;> cases unlisted <;> cases same <;> cases taken <;> rfl
  · have hpending : pending name = false := h
    simp only [hpending]
    rcases hrec : r.record name with _ | e
    · cases feeOk <;> rfl
    · simp only [Option.bind_eq_bind, Option.bind_some]
      rcases feeOk with _ | _
      · rfl
      · refine Eq.trans (b := ((m.openBuy r name bob e.ua e.expiresAt e.commitment
          (e.isReleaseDue mtp) false
          (keys.buyOtp txid name) mtp height).toOption.map Prod.fst).getD m) ?_ ?_
        · rcases m.openBuy r name bob e.ua e.expiresAt e.commitment (e.isReleaseDue mtp) false
            (keys.buyOtp txid name) mtp height with refusal | ⟨m', otp⟩
          · rfl
          · rfl
        rcases hopen : m.sales.isOpen name with _ | _
        · rw [openBuy_eq bob e.ua e.expiresAt e.commitment (e.isReleaseDue mtp)
            (keys.buyOtp txid name) hopen]
          rcases quoteFor r name e.ua height with refusal | ⟨payTo, price, dutch⟩
          · rfl
          · simp only [Except.toOption, Option.bind_some]
            rcases fromSeconds (mtp + if dutch then D_DUTCH else D_OTP) with _ | expiresAt
            · rfl
            · simp only [Option.bind_some, Bool.false_or]
              generalize (e.isReleaseDue mtp || m.sales.samePayment payTo price (keys.buyOtp txid name)) =
                refused
              cases refused <;> rfl
        · have hrefused : (m.openBuy r name bob e.ua e.expiresAt e.commitment (e.isReleaseDue mtp) false
              (keys.buyOtp txid name) mtp height).toOption = none := by
            unfold openBuy
            rw [if_pos hopen]
            split <;> rfl
          rw [hrefused]
          rcases quoteFor r name e.ua height with refusal | ⟨payTo, price, dutch⟩
          · rfl
          · simp only [Except.toOption, Option.bind_some]
            rcases fromSeconds (mtp + if dutch then D_DUTCH else D_OTP) with _ | expiresAt <;> rfl

/-! ### Markets that are alike -/

/-- A challenge that counts as sent. -/
def sentChallenge (c : MarketChallenge) : MarketChallenge := { c with relayed := true }

/-- The two markets differ in flags and in their logs. -/
structure Alike (m m' : Market) : Prop where
  sales : m'.sales.sales.map SaleQueue.relay = m.sales.sales.map SaleQueue.relay
  challenges : m'.challenges.map sentChallenge = m.challenges.map sentChallenge

theorem Alike.refl (m : Market) : Alike m m := ⟨rfl, rfl⟩

theorem Alike.symm (h : Alike m m') : Alike m' m := ⟨h.sales.symm, h.challenges.symm⟩

theorem Alike.trans {m'' : Market} (h : Alike m m') (h' : Alike m' m'') : Alike m m'' :=
  ⟨h'.sales.trans h.sales, h'.challenges.trans h.challenges⟩

/-- They show the same. -/
theorem Alike.book (h : Alike m m') (r : Registry) : book (m', r) = book (m, r) := by
  have hsales : ∀ l : List Sale, (l.map SaleQueue.relay).map eraseSale = l.map eraseSale := by
    intro l
    rw [List.map_map]
    exact List.map_congr_left fun s _ => eraseSale_relay s
  have hchallenges : ∀ l : List MarketChallenge, (l.map sentChallenge).map eraseChallenge =
      l.map eraseChallenge := by
    intro l
    rw [List.map_map]
    exact List.map_congr_left fun _ _ => rfl
  refine Book.ext rfl ?_ ?_
  · simp only [Market.book]
    rw [← hsales, h.sales, hsales]
  · simp only [Market.book]
    rw [← hchallenges, h.challenges, hchallenges]

/-! ### What does not read a flag -/

@[simp] theorem relay_name (s : Sale) : (SaleQueue.relay s).name = s.name := by
  unfold SaleQueue.relay
  split <;> rfl

theorem relay_phase {s : Sale} {code : OtpCode} {payTo : TransparentAddress} {price : Zatoshis}
    {expiresAt : ℤ}
    {sent : Bool} (h : s.phase = .paying code payTo price expiresAt sent) :
    SaleQueue.relay s = { s with phase := .paying code payTo price expiresAt true } := by
  unfold SaleQueue.relay
  rw [h]

theorem relay_paid {s : Sale} (h : s.phase = .paid) : SaleQueue.relay s = s := by
  unfold SaleQueue.relay
  rw [h]

@[simp] theorem relay_relay (s : Sale) : SaleQueue.relay (SaleQueue.relay s) = SaleQueue.relay s := by
  rcases hphase : s.phase with ⟨code, payTo, price, expiresAt, sent⟩ | _
  · rw [relay_phase hphase, relay_phase rfl]
  · rw [relay_paid hphase, relay_paid hphase]

/-- A test that passes over the flag, run on a list. -/
theorem any_of_map {α : Type} {f : α → α} {p : α → Bool} (hp : ∀ a, p (f a) = p a) (l : List α) :
    l.any p = (l.map f).any p := by
  rw [List.any_map]
  exact congrArg l.any (funext fun a => (hp a).symm)

theorem map_filter_of {α : Type} {f : α → α} {p : α → Bool} (hp : ∀ a, p (f a) = p a) (l : List α) :
    (l.filter p).map f = (l.map f).filter p := by
  rw [List.filter_map]
  exact congrArg (fun q => (l.filter q).map f) (funext fun a => (hp a).symm)

theorem Alike.anySale (h : Alike m m') {p : Sale → Bool} (hp : ∀ s, p (SaleQueue.relay s) = p s) :
    m'.sales.sales.any p = m.sales.sales.any p := by
  rw [any_of_map hp m.sales.sales, any_of_map hp m'.sales.sales, h.sales]

theorem Alike.anyChallenge (h : Alike m m') {p : MarketChallenge → Bool}
    (hp : ∀ c, p (sentChallenge c) = p c) :
    m'.challenges.any p = m.challenges.any p := by
  rw [any_of_map hp m.challenges, any_of_map hp m'.challenges, h.challenges]

theorem Alike.isOpen (h : Alike m m') (name : Name) : m'.sales.isOpen name = m.sales.isOpen name :=
  h.anySale fun s => by simp

theorem Alike.samePayment (h : Alike m m') (payTo : TransparentAddress) (price : Zatoshis)
    (code : OtpCode) :
    m'.sales.samePayment payTo price code = m.sales.samePayment payTo price code := by
  refine h.anySale fun s => ?_
  rcases hphase : s.phase with ⟨code', addr, price', expiresAt, sent⟩ | _
  · rw [relay_phase hphase]
  · rw [relay_paid hphase, hphase]

theorem Alike.codeIsOpen (h : Alike m m') (code : OtpCode) : m'.codeIsOpen code = m.codeIsOpen code :=
  h.anyChallenge fun _ => rfl

/-- What a memo earns does not depend on flags. -/
theorem Alike.grant (h : Alike m m') (keys : OtpKeys) (txid : TxId) (request : MarketRequest)
    (paid : Zatoshis)
    (r : Registry) (fee : Zatoshis) (height : ℕ) (mtp : ℤ) :
    m'.grant keys txid request paid r fee height mtp =
      m.grant keys txid request paid r fee height mtp := by
  have hlist : ∀ l, (m'.challenges.any fun c => c.sameList l) = m.challenges.any fun c => c.sameList l :=
    fun l => h.anyChallenge fun _ => rfl
  have hdelist : ∀ name ua, (m'.challenges.any fun c => c.sameDelist name ua) =
      m.challenges.any fun c => c.sameDelist name ua := fun name ua => h.anyChallenge fun _ => rfl
  unfold Market.grant
  simp only [h.isOpen, h.samePayment, h.codeIsOpen, hlist, hdelist]

/-- A paid sale has no flag. -/
theorem Alike.paid (h : Alike m m') {sale : Sale} (hsale : sale ∈ m'.sales.sales)
    (hpaid : sale.phase = .paid) :
    sale ∈ m.sales.sales := by
  have hmem : sale ∈ m.sales.sales.map SaleQueue.relay := by
    rw [← h.sales]
    exact List.mem_map.mpr ⟨sale, hsale, relay_paid hpaid⟩
  obtain ⟨sale', hsale', hrelay⟩ := List.mem_map.mp hmem
  rcases hphase : sale'.phase with ⟨code, payTo, price, expiresAt, sent⟩ | _
  · rw [relay_phase hphase] at hrelay
    rw [← hrelay] at hpaid
    cases hpaid
  · rw [relay_paid hphase] at hrelay
    exact hrelay ▸ hsale'

/-! ### What the operations keep -/

theorem alike_recordAll (m : Market) (height : ℕ) (es : List MarketEvent) :
    Alike m (m.recordAll height es) :=
  ⟨by rw [sales_recordAll], by rw [challenges_recordAll]⟩

theorem sent_closeChallengesWhere {stale : MarketChallenge → Bool}
    (hstale : ∀ c, stale (sentChallenge c) = stale c)
    (m : Market) (height : ℕ) : (m.closeChallengesWhere stale height).challenges.map sentChallenge =
      (m.challenges.map sentChallenge).filter fun c =>
        decide (c.code ∉ ((m.challenges.map sentChallenge).filter stale).map MarketChallenge.code) := by
  have hcodes : ((m.challenges.map sentChallenge).filter stale).map MarketChallenge.code =
      (m.challenges.filter stale).map MarketChallenge.code := by
    rw [← map_filter_of hstale, List.map_map]
    exact List.map_congr_left fun _ _ => rfl
  rw [closeChallengesWhere, (closeChallenges_eq height _ m).2, hcodes]
  exact map_filter_of (f := sentChallenge) (fun _ => rfl) _

theorem Alike.closeChallengesWhere (h : Alike m m') {stale : MarketChallenge → Bool}
    (hstale : ∀ c, stale (sentChallenge c) = stale c) (height : ℕ) :
    Alike (m.closeChallengesWhere stale height) (m'.closeChallengesWhere stale height) := by
  refine ⟨?_, ?_⟩
  · rw [sales_closeChallengesWhere, sales_closeChallengesWhere, h.sales]
  · rw [sent_closeChallengesWhere hstale, sent_closeChallengesWhere hstale, h.challenges]

/-- The sales that a test keeps. -/
theorem Alike.filterSales (h : Alike m m') {keep : Sale → Bool}
    (hkeep : ∀ s, keep (SaleQueue.relay s) = keep s) :
    Alike { m with sales := ⟨m.sales.sales.filter keep⟩ }
      { m' with sales := ⟨m'.sales.sales.filter keep⟩ } := by
  refine ⟨?_, h.challenges⟩
  rw [map_filter_of hkeep, map_filter_of hkeep, h.sales]

theorem Alike.granted (h : Alike m m') (height : ℕ) (g : Grant) :
    Alike (m.granted height g) (m'.granted height g) := by
  rcases g with c | sale
  · refine ⟨h.sales, ?_⟩
    simp only [Market.granted, pushChallenge, List.map_append, h.challenges]
  · have hopened : Alike (record { m with sales := ⟨m.sales.sales ++ [sale]⟩ } height (.opened sale))
        (record { m' with sales := ⟨m'.sales.sales ++ [sale]⟩ } height (.opened sale)) := by
      refine ⟨?_, h.challenges⟩
      simp only [record, List.map_append, h.sales]
    exact hopened.closeChallengesWhere (fun _ => rfl) height

/-- **A memo on two markets that are alike**, read with two queues of orders: they stay alike unless it
earns something and its name is pending in one of the queues only. -/
theorem Alike.admitRequest (h : Alike m m') (keys : OtpKeys) (txid : TxId) (request : MarketRequest)
    (paid : Zatoshis)
    (r : Registry) (fee : Zatoshis) (height : ℕ) (mtp : ℤ) {pending : Name → Bool}
    (hgrant : pending (nameOf request) = true → m.grant keys txid request paid r fee height mtp = none) :
    Alike (m.admitRequest keys txid request paid r fee height mtp pending).1
      (m'.admitRequest keys txid request paid r fee height mtp fun _ => false).1 := by
  have hfree : (fun _ : Name => false) (nameOf request) = false := rfl
  rw [admitRequest_of_not_pending keys m' txid paid r fee height mtp hfree, h.grant]
  rcases hpending : pending (nameOf request) with _ | _
  · rw [admitRequest_of_not_pending keys m txid paid r fee height mtp hpending]
    rcases m.grant keys txid request paid r fee height mtp with _ | g
    · exact h
    · exact h.granted height g
  · rw [admitRequest_of_pending keys m txid paid r fee height mtp hpending, hgrant hpending]
    exact h

theorem Alike.recordAll (h : Alike m m') (height height' : ℕ) (es es' : List MarketEvent) :
    Alike (m.recordAll height es) (m'.recordAll height' es') :=
  (alike_recordAll m height es).symm.trans (h.trans (alike_recordAll m' height' es'))

theorem unexpired_relay (mtp : ℤ) (s : Sale) :
    SaleQueue.unexpired mtp (SaleQueue.relay s) = SaleQueue.unexpired mtp s := by
  unfold SaleQueue.unexpired
  rcases hphase : s.phase with ⟨code, payTo, price, expiresAt, sent⟩ | _
  · rw [relay_phase hphase]
  · rw [relay_paid hphase, hphase]

theorem unmoved_relay (live : Name → Option (UnifiedAddress × NameCommitment)) (s : Sale) :
    SaleQueue.unmoved live (SaleQueue.relay s) = SaleQueue.unmoved live s := by
  unfold SaleQueue.relay
  split <;> rfl

theorem Alike.expire (h : Alike m m') (r : Registry) (mtp : ℤ) (height : ℕ) :
    Alike (m.expire r mtp height).1 (m'.expire r mtp height).1 ∧
      (m'.expire r mtp height).2 = (m.expire r mtp height).2 := by
  have hdone := h.recordAll height height ((r.finishClocks height).2.map .delist)
    ((r.finishClocks height).2.map .delist)
  have hsales := hdone.filterSales (unexpired_relay mtp)
  exact ⟨(hsales.recordAll height height _ _).closeChallengesWhere (fun _ => rfl) height, rfl⟩

theorem Alike.reconcile (h : Alike m m') (r : Registry) (height : ℕ) :
    Alike (m.reconcile r height).1 (m'.reconcile r height).1 ∧
      (m'.reconcile r height).2 = (m.reconcile r height).2 := by
  have hlost := h.recordAll height height (r.reconcileListings.2.map .delist)
    (r.reconcileListings.2.map .delist)
  have hstale : ∀ c, staleChallenge r.reconcileListings.1 (sentChallenge c) =
      staleChallenge r.reconcileListings.1 c :=
    fun _ => rfl
  have hchallenges := hlost.closeChallengesWhere hstale height
  exact ⟨(hchallenges.filterSales (unmoved_relay _)).recordAll height height _ _, rfl⟩

theorem observeOne_relay (holder : Name → Option UnifiedAddress)
    (payments : List (TransparentAddress × Zatoshis))
    (mtp : ℤ) (used : List Bool) (s : Sale) :
    SaleQueue.observeOne holder payments mtp used (SaleQueue.relay s) =
      SaleQueue.observeOne holder payments mtp used s := by
  unfold SaleQueue.observeOne
  rcases hphase : s.phase with ⟨code, payTo, price, expiresAt, sent⟩ | _
  · rw [relay_phase hphase]
  · rw [relay_paid hphase, hphase]

theorem observeLoop_relay (holder : Name → Option UnifiedAddress)
    (payments : List (TransparentAddress × Zatoshis))
    (mtp : ℤ) (sales : List Sale) (used : List Bool) :
    (SaleQueue.observeLoop holder payments mtp used (sales.map SaleQueue.relay)).1.map SaleQueue.relay =
      (SaleQueue.observeLoop holder payments mtp used sales).1.map SaleQueue.relay := by
  induction sales generalizing used with
  | nil => rfl
  | cons s sales ih =>
    simp only [List.map_cons, SaleQueue.observeLoop, observeOne_relay]
    rcases SaleQueue.observeOne holder payments mtp used s with _ | ⟨index, code⟩
    · simp only [List.map_cons, relay_relay, ih]
    · have hpaid : ({ SaleQueue.relay s with phase := .paid } : Sale) = { s with phase := .paid } := by
        unfold SaleQueue.relay
        split <;> rfl
      simp only [List.map_cons, hpaid, ih]

theorem Alike.observe (h : Alike m m') (holder : Name → Option UnifiedAddress)
    (payments : List (TransparentAddress × Zatoshis)) (mtp : ℤ) (height : ℕ) :
    Alike (m.observe holder payments mtp height) (m'.observe holder payments mtp height) := by
  refine ⟨?_, ?_⟩
  · have hloop : ∀ sales : List Sale, ((SaleQueue.observe ⟨sales⟩ holder payments mtp).1.sales).map
      SaleQueue.relay =
        (SaleQueue.observe ⟨sales.map SaleQueue.relay⟩ holder payments mtp).1.sales.map SaleQueue.relay :=
      fun sales => (observeLoop_relay holder payments mtp sales _).symm
    rw [sales_observe, sales_observe, hloop m'.sales.sales, hloop m.sales.sales, h.sales]
  · rw [challenges_observe, challenges_observe, h.challenges]

/-! ### Answers -/

/-- The challenges at one index. -/
theorem Alike.challenge (h : Alike m m') (index : ℕ) :
    (m.challenges[index]? = none ∧ m'.challenges[index]? = none) ∨
      ∃ c c', m.challenges[index]? = some c ∧ m'.challenges[index]? = some c' ∧ sentChallenge c' =
        sentChallenge c := by
  have hat : (m'.challenges[index]?).map sentChallenge = (m.challenges[index]?).map sentChallenge := by
    rw [← List.getElem?_map, ← List.getElem?_map, h.challenges]
  rcases hc : m.challenges[index]? with _ | c <;> rcases hc' : m'.challenges[index]? with _ | c'
  · exact Or.inl ⟨rfl, rfl⟩
  · simp [hc, hc'] at hat
  · simp [hc, hc'] at hat
  · rw [hc, hc', Option.map_some, Option.map_some, Option.some.injEq] at hat
    exact Or.inr ⟨c, c', rfl, rfl, hat⟩

theorem sentChallenge_eq {c c' : MarketChallenge} (h : sentChallenge c' = sentChallenge c) :
    c'.kind = c.kind ∧ c'.code = c.code ∧ c'.attempts = c.attempts := by
  simp only [sentChallenge, MarketChallenge.mk.injEq] at h
  exact ⟨h.1, h.2.1, h.2.2.2.2⟩

/-- The indices of the challenges that an answer names. -/
theorem Alike.named (h : Alike m m') (response : OtpMemo) :
    (m'.challenges.zipIdx.filter fun p => answers response p.1).map Prod.snd =
      (m.challenges.zipIdx.filter fun p => answers response p.1).map Prod.snd := by
  have hsent : ∀ l : List MarketChallenge, (l.zipIdx.filter fun p => answers response p.1).map Prod.snd =
      ((l.map sentChallenge).zipIdx.filter fun p => answers response p.1).map Prod.snd := by
    intro l
    rw [List.zipIdx_map, List.filter_map, List.map_map]
    rfl
  rw [hsent m'.challenges, hsent m.challenges, h.challenges]

theorem Alike.enactChallenge (h : Alike m m') (r : Registry) (kind : ChallengeKind) (height : ℕ) :
    Alike (m.enactChallenge r kind height).1 (m'.enactChallenge r kind height).1 ∧
      (m'.enactChallenge r kind height).2 = (m.enactChallenge r kind height).2 := by
  obtain ⟨hsales, hchallenges, -⟩ := enactChallenge_cases m r kind height
  obtain ⟨hsales', hchallenges', -⟩ := enactChallenge_cases m' r kind height
  refine ⟨⟨by rw [hsales, hsales', h.sales], by rw [hchallenges, hchallenges', h.challenges]⟩, ?_⟩
  rcases kind with l | ⟨name, ua⟩
  · simp only [Market.enactChallenge, Market.list, h.isOpen]
    rcases clockReady l.ask height with e | _
    · rfl
    · rcases m.sales.isOpen l.name with _ | _
      · rcases r.list l with e | r' <;> rfl
      · rfl
  · simp only [Market.enactChallenge, Market.delist, h.isOpen]
    rcases m.sales.isOpen name with _ | _
    · rcases r.delist name ua with e | r' <;> rfl
    · rfl

/-- A challenge that closes by its code. -/
theorem Alike.closeChallenge (h : Alike m m') (height : ℕ) (code : OtpCode) :
    Alike (closeChallenge height m code) (closeChallenge height m' code) := by
  refine ⟨h.sales, ?_⟩
  simp only [Market.closeChallenge, dropChallenge, record]
  rw [map_filter_of (f := sentChallenge) (fun _ => rfl), map_filter_of (f := sentChallenge)
    (fun _ => rfl),
    h.challenges]

theorem Alike.answerMiss (h : Alike m m') (height index : ℕ) :
    Alike (answerMiss height m index) (answerMiss height m' index) := by
  have hcount : ∀ l : List MarketChallenge,
      (l.modify index fun c => { c with attempts := c.attempts + 1 }).map sentChallenge =
        (l.map sentChallenge).modify index fun c => { c with attempts := c.attempts + 1 } := by
    intro l
    induction l generalizing index with
    | nil => simp
    | cons c l ih => rcases index with _ | index <;> simp [sentChallenge, ih]
  have hcounted : Alike
      { m with challenges := m.challenges.modify index fun c => { c with attempts := c.attempts + 1 } }
      { m' with challenges := m'.challenges.modify index fun c =>
        { c with attempts := c.attempts + 1 } } := by
    refine ⟨h.sales, ?_⟩
    simp only [hcount, h.challenges]
  simp only [Market.answerMiss]
  rcases hcounted.challenge index with ⟨hc, hc'⟩ | ⟨c, c', hc, hc', hsent⟩
  · simp only [hc, hc']
    exact hcounted
  · obtain ⟨-, hcode, hattempts⟩ := sentChallenge_eq hsent
    simp only [hc, hc', hcode, hattempts]
    split_ifs
    · exact hcounted.closeChallenge height c.code
    · exact hcounted

theorem Alike.answerMisses (h : Alike m m') (height : ℕ) (indices : List ℕ) :
    Alike (indices.foldl (Market.answerMiss height) m) (indices.foldl (Market.answerMiss height) m') := by
  induction indices generalizing m m' with
  | nil => exact h
  | cons i indices ih => exact ih (h.answerMiss height i)

/-- **An answer on two markets that are alike.** -/
theorem Alike.answer (h : Alike m m') (r : Registry) (response : OtpMemo) (height : ℕ) :
    Alike (m.answer r response height).1.1 (m'.answer r response height).1.1 ∧
      (m'.answer r response height).1.2 = (m.answer r response height).1.2 := by
  have hfind : (fun index : ℕ => (m'.challenges[index]?).any fun c : MarketChallenge =>
      c.code == response.code && c.sameTerms response) =
        fun index : ℕ => (m.challenges[index]?).any fun c : MarketChallenge =>
          c.code == response.code && c.sameTerms response := by
    funext index
    rcases h.challenge index with ⟨hc, hc'⟩ | ⟨c, c', hc, hc', hsent⟩
    · rw [hc, hc']
    · rw [hc, hc', Option.any_some, Option.any_some]
      obtain ⟨hkind, hcode, -⟩ := sentChallenge_eq hsent
      unfold MarketChallenge.sameTerms
      rw [hkind, hcode]
  unfold Market.answer
  simp only [h.named, hfind]
  split_ifs
  · exact ⟨h, rfl⟩
  · exact ⟨h, rfl⟩
  split
  · rename_i index _
    rcases h.challenge index with ⟨hc, hc'⟩ | ⟨c, c', hc, hc', hsent⟩
    · rw [hc, hc']
      exact ⟨h, rfl⟩
    · obtain ⟨hkind, hcode, -⟩ := sentChallenge_eq hsent
      have hname : c'.name = c.name := (name_of_kind hkind).1
      have hleft : Alike (record { m with challenges := m.challenges.eraseIdx index } height
        (.challengeClosed c.code))
          (record { m' with challenges := m'.challenges.eraseIdx index } height
            (.challengeClosed c.code)) := by
        refine ⟨h.sales, ?_⟩
        simp only [record, ← List.eraseIdx_map, h.challenges]
      simp only [hc, hc', hname, hkind, hcode, hleft.isOpen]
      split_ifs
      · exact ⟨hleft, rfl⟩
      · exact hleft.enactChallenge r c.kind height
  · exact ⟨h.answerMisses height _, rfl⟩

/-! ### The tip pass -/

theorem alike_relayed (m : Market) (name : Name) : Alike m (m.relayed name) := by
  refine ⟨?_, rfl⟩
  simp only [Market.relayed, SaleQueue.relayed, List.map_map]
  refine List.map_congr_left fun s _ => ?_
  simp only [Function.comp]
  split_ifs
  · exact relay_relay s
  · rfl

theorem alike_challengeRelayed (m : Market) (code : OtpCode) : Alike m (m.challengeRelayed code) := by
  refine ⟨rfl, ?_⟩
  simp only [Market.challengeRelayed, List.map_map]
  refine List.map_congr_left fun c _ => ?_
  simp only [Function.comp]
  split_ifs <;> rfl

theorem alike_sealReplayedBuys (m : Market) : Alike m m.sealReplayedBuys := by
  refine ⟨?_, rfl⟩
  simp only [Market.sealReplayedBuys, SaleQueue.sealRelayed, List.map_map]
  exact List.map_congr_left fun s _ => relay_relay s

/-- `poll` drops no sale where the market agrees with the registry, but a seller's purchase of her own
name. -/
theorem alike_poll {pending : Name → Bool} (h : Agrees (raw (m, r)) r)
    (hown : ∀ sale ∈ m.sales.sales, sale.phase = .paid → sale.bob = sale.alice →
    pending sale.name = true) :
    Alike m (m.poll r pending height).1 := by
  refine ⟨?_, by rw [challenges_poll]⟩
  rw [sales_poll]
  congr 1
  refine List.filter_eq_self.mpr fun sale hsale => ?_
  by_cases hpollable : SaleQueue.pollable pending sale = true
  · obtain ⟨e, he, hua, hheld⟩ := h.sales sale hsale
    simp only [SaleQueue.pollable, Bool.and_eq_true, beq_iff_eq, Bool.not_eq_true'] at hpollable
    have hbob : sale.bob ≠ sale.alice := by
      intro heq
      rw [hown sale hsale hpollable.1 heq] at hpollable
      simp at hpollable
    have howed : (SaleQueue.owedNote r sale).isSome = true := by
      simp [SaleQueue.owedNote, Registry.saleTransfer, he, hua, hheld, hbob.symm]
    simp [howed]
  · simp [hpollable]

end ZnsMint.Market
