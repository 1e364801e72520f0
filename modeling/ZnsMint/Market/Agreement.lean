import ZnsMint.Market.Settlement

/-! # The market and the registry agree

What each operation of the market keeps between the book and the registry it was ruled on. Most of them
leave no more in the book than there was (`Less`); a challenge, a sale and a listing come in through one
gate each, and `reconcile` restores the agreement with a registry that has moved. -/

namespace ZnsMint.Market

open Basic Note Inbound Registry

/-! ### Less in the book -/

/-- The same buyer, seller, note and term; once paid, paid. -/
structure SameDeal (s s' : Sale) : Prop where
  name : s'.name = s.name
  bob : s'.bob = s.bob
  alice : s'.alice = s.alice
  held : s'.held = s.held
  term : s'.term = s.term
  paid : s.phase = .paid → s'.phase = .paid

theorem SameDeal.refl (s : Sale) : SameDeal s s := ⟨rfl, rfl, rfl, rfl, rfl, id⟩

/-- Everything in `b'` comes from `b`. -/
structure Less (b b' : Book) : Prop where
  listings : ∀ (name : Name) l, b'.listings[name]? = some l → b.listings[name]? = some l
  sales : ∀ sale' ∈ b'.sales, ∃ sale ∈ b.sales, SameDeal sale sale'
  challenges : ∀ c' ∈ b'.challenges, ∃ c ∈ b.challenges, c'.kind = c.kind

/-- The book with its flags and counters. -/
def raw (s : Market × Registry) : Book := ⟨s.2.listings, s.1.sales.sales, s.1.challenges⟩

@[simp] theorem raw_listings (s : Market × Registry) : (raw s).listings = s.2.listings := rfl

@[simp] theorem raw_sales (s : Market × Registry) : (raw s).sales = s.1.sales.sales := rfl

@[simp] theorem raw_challenges (s : Market × Registry) : (raw s).challenges = s.1.challenges := rfl

theorem SameDeal.trans {s s' s'' : Sale} (h : SameDeal s s') (h' : SameDeal s' s'') : SameDeal s s'' where
  name := h'.name.trans h.name
  bob := h'.bob.trans h.bob
  alice := h'.alice.trans h.alice
  held := h'.held.trans h.held
  term := h'.term.trans h.term
  paid := fun hpaid => h'.paid (h.paid hpaid)

theorem Less.trans {b b' b'' : Book} (h : Less b b') (h' : Less b' b'') : Less b b'' where
  listings := fun name l hl => h.listings name l (h'.listings name l hl)
  sales := by
    intro sale'' hsale''
    obtain ⟨sale', hsale', hdeal'⟩ := h'.sales sale'' hsale''
    obtain ⟨sale, hsale, hdeal⟩ := h.sales sale' hsale'
    exact ⟨sale, hsale, hdeal.trans hdeal'⟩
  challenges := by
    intro c'' hc''
    obtain ⟨c', hc', hkind'⟩ := h'.challenges c'' hc''
    obtain ⟨c, hc, hkind⟩ := h.challenges c' hc'
    exact ⟨c, hc, hkind'.trans hkind⟩

theorem sameDeal_eraseSale (s : Sale) : SameDeal s (eraseSale s) where
  name := rfl
  bob := rfl
  alice := rfl
  held := rfl
  term := rfl
  paid h := by simp [eraseSale, h, erasePhase]

theorem eraseSale_paid {s : Sale} (h : (eraseSale s).phase = .paid) : s.phase = .paid := by
  unfold eraseSale erasePhase at h
  rcases hphase : s.phase with _ | _
  · simp [hphase] at h
  · rfl

theorem less_book (s : Market × Registry) : Less (raw s) (book s) where
  listings _ _ h := h
  sales := by
    intro sale' hsale'
    obtain ⟨sale, hsale, rfl⟩ := List.mem_map.mp hsale'
    exact ⟨sale, hsale, sameDeal_eraseSale sale⟩
  challenges := by
    intro c' hc'
    obtain ⟨c, hc, rfl⟩ := List.mem_map.mp hc'
    exact ⟨c, hc, rfl⟩

theorem less_raw (s : Market × Registry) : Less (book s) (raw s) where
  listings _ _ h := h
  sales := by
    intro sale hsale
    refine ⟨eraseSale sale, List.mem_map_of_mem hsale, ⟨rfl, rfl, rfl, rfl, rfl, eraseSale_paid⟩⟩
  challenges := fun c hc => ⟨eraseChallenge c, List.mem_map_of_mem hc, rfl⟩

/-! ### The operations that add nothing -/

variable {m : Market} {r : Registry} {height : ℕ}

theorem listing_filter {listings : NameMap Listing} {keep : Name → Listing → Bool} {name : Name}
    {l : Listing}
    (h : (listings.filter keep)[name]? = some l) : listings[name]? = some l ∧ keep name l = true := by
  rw [Std.ExtTreeMap.getElem?_filter'] at h
  exact Option.filter_eq_some_iff.mp h

theorem less_expire (m : Market) (r : Registry) (mtp : ℤ) (height : ℕ) :
    Less (raw (m, r)) (raw (m.expire r mtp height)) where
  listings := fun name l h => (listing_filter h).1
  sales := by
    intro sale hsale
    rw [raw_sales, sales_expire] at hsale
    exact ⟨sale, (List.mem_filter.mp hsale).1, .refl sale⟩
  challenges := by
    intro c hc
    rw [raw_challenges] at hc
    exact ⟨c, mem_challenges_expire hc, rfl⟩

theorem sameDeal_observeLoop (holder : Name → Option UnifiedAddress)
    (payments : List (TransparentAddress × Zatoshis)) (mtp : ℤ) (sales : List Sale) (used : List Bool) :
    ∀ sale' ∈ (SaleQueue.observeLoop holder payments mtp used sales).1, ∃ sale ∈ sales,
      SameDeal sale sale' := by
  induction sales generalizing used with
  | nil =>
    intro sale' hsale'
    cases hsale'
  | cons s sales ih =>
    intro sale' hsale'
    simp only [SaleQueue.observeLoop] at hsale'
    rcases hone : SaleQueue.observeOne holder payments mtp used s with _ | ⟨index, code⟩
    · rw [hone] at hsale'
      rcases List.mem_cons.mp hsale' with rfl | hmem
      · exact ⟨sale', by simp, .refl sale'⟩
      · obtain ⟨sale, hsale, hdeal⟩ := ih used sale' hmem
        exact ⟨sale, List.mem_cons_of_mem _ hsale, hdeal⟩
    · rw [hone] at hsale'
      rcases List.mem_cons.mp hsale' with rfl | hmem
      · exact ⟨s, by simp, ⟨rfl, rfl, rfl, rfl, rfl, fun _ => rfl⟩⟩
      · obtain ⟨sale, hsale, hdeal⟩ := ih (used.set index true) sale' hmem
        exact ⟨sale, List.mem_cons_of_mem _ hsale, hdeal⟩

theorem less_observe (m : Market) (r : Registry) (holder : Name → Option UnifiedAddress)
    (payments : List (TransparentAddress × Zatoshis)) (mtp : ℤ) (height : ℕ) :
    Less (raw (m, r)) (raw (m.observe holder payments mtp height, r)) where
  listings _ _ h := h
  sales := by
    intro sale hsale
    rw [raw_sales, sales_observe] at hsale
    exact sameDeal_observeLoop holder payments mtp m.sales.sales _ sale hsale
  challenges := by
    intro c hc
    rw [raw_challenges, challenges_observe] at hc
    exact ⟨c, hc, rfl⟩

theorem less_poll (m : Market) (r : Registry) (pending : Name → Bool) (height : ℕ) :
    Less (raw (m, r)) (raw ((m.poll r pending height).1, r)) where
  listings _ _ h := h
  sales := by
    intro sale hsale
    rw [raw_sales, sales_poll] at hsale
    exact ⟨sale, (List.mem_filter.mp hsale).1, .refl sale⟩
  challenges := by
    intro c hc
    rw [raw_challenges, challenges_poll] at hc
    exact ⟨c, hc, rfl⟩

/-! ### Agreement -/

/-- The controller named by a listing, by a sale and by a challenge is the live record's; the address of a
listing is her transparent receiver, and the note a sale holds is the live one. -/
structure Agrees (b : Book) (r : Registry) : Prop where
  listings : ∀ (name : Name) l, b.listings[name]? = some l → l.name = name ∧ l.ua.transparent =
    some l.payTo ∧
    ∃ e, r.record name = some e ∧ e.ua = l.ua
  sales : ∀ sale ∈ b.sales, ∃ e, r.record sale.name = some e ∧ e.ua = sale.alice ∧
    e.commitment = sale.held
  challenges : ∀ c ∈ b.challenges, ∃ e, r.record c.name = some e ∧ e.ua = c.ua

/-- The term a sale captured is the live record's. -/
def Termed (b : Book) (r : Registry) : Prop :=
  ∀ sale ∈ b.sales, ∀ e, r.record sale.name = some e → e.expiresAt = sale.term

theorem name_of_kind {c c' : MarketChallenge} (h : c'.kind = c.kind) : c'.name = c.name ∧
    c'.ua = c.ua := by
  unfold MarketChallenge.name MarketChallenge.ua
  rw [h]
  exact ⟨rfl, rfl⟩

theorem Agrees.less {b b' : Book} (h : Agrees b r) (hless : Less b b') : Agrees b' r where
  listings := fun name l hl => h.listings name l (hless.listings name l hl)
  sales := by
    intro sale' hsale'
    obtain ⟨sale, hsale, hdeal⟩ := hless.sales sale' hsale'
    rw [hdeal.name, hdeal.alice, hdeal.held]
    exact h.sales sale hsale
  challenges := by
    intro c' hc'
    obtain ⟨c, hc, hkind⟩ := hless.challenges c' hc'
    obtain ⟨hname, hua⟩ := name_of_kind hkind
    rw [hname, hua]
    exact h.challenges c hc

theorem Termed.less {b b' : Book} (h : Termed b r) (hless : Less b b') : Termed b' r := by
  intro sale' hsale' e he
  obtain ⟨sale, hsale, hdeal⟩ := hless.sales sale' hsale'
  rw [hdeal.name] at he
  rw [hdeal.term]
  exact h sale hsale e he

/-- Only the live records matter. -/
theorem Agrees.records {b : Book} {r' : Registry} (h : Agrees b r) (hr : ∀ n, r'.record n = r.record n) :
    Agrees b r' := by
  refine ⟨fun name l hl => ?_, fun sale hsale => ?_, fun c hc => ?_⟩
  · rw [hr]
    exact h.listings name l hl
  · rw [hr]
    exact h.sales sale hsale
  · rw [hr]
    exact h.challenges c hc

theorem Termed.records {b : Book} {r' : Registry} (h : Termed b r) (hr : ∀ n, r'.record n = r.record n) :
    Termed b r' := by
  intro sale hsale e he
  rw [hr] at he
  exact h sale hsale e he

theorem agrees_empty (r : Registry) : Agrees ⟨∅, [], []⟩ r where
  listings := by
    intro name l hl
    simp at hl
  sales := by simp
  challenges := by simp

/-! ### The gates -/

/-- What a list, delist or buy memo can add: a challenge of the live controller, or a sale of the live
record while no order of the name is unresolved. -/
theorem admitRequest_adds (keys : OtpKeys) (m : Market) (txid : TxId) (request : MarketRequest)
    (paid : Zatoshis)
    (r : Registry) (fee : Zatoshis) (height : ℕ) (mtp : ℤ) (pending : Name → Bool) :
    (∀ sale ∈ (m.admitRequest keys txid request paid r fee height mtp pending).1.sales.sales,
      sale ∈ m.sales.sales ∨ pending sale.name = false ∧
        ∃ e, r.record sale.name = some e ∧ e.ua = sale.alice ∧ e.commitment = sale.held ∧
          e.expiresAt = sale.term) ∧
    ∀ c ∈ (m.admitRequest keys txid request paid r fee height mtp pending).1.challenges,
      c ∈ m.challenges ∨ ∃ e, r.record c.name = some e ∧ e.ua = c.ua := by
  rcases admitRequest_cases keys m txid request paid r fee height mtp pending with
    heq | ⟨c, e, hrec, hua, -, -, -, -, heq⟩ | ⟨name, bob, e, otp, m', hrec, hpending, -, hbuy, heq⟩
  · rw [heq]
    exact ⟨fun _ h => Or.inl h, fun _ h => Or.inl h⟩
  · rw [heq]
    refine ⟨fun _ h => Or.inl h, ?_⟩
    intro c' hc'
    rcases List.mem_append.mp hc' with hc' | hc'
    · exact Or.inl hc'
    · rw [List.mem_singleton] at hc'
      subst hc'
      exact Or.inr ⟨e, hrec, hua.symm⟩
  · obtain ⟨payTo, price, dutch, expiresAt, -, -, -, -, -, hsales, hchallenges⟩ := openBuy_ok hbuy
    rw [heq, hsales]
    refine ⟨?_, fun c hc => Or.inl (hchallenges c hc).1⟩
    intro sale hsale
    rcases List.mem_append.mp hsale with hsale | hsale
    · exact Or.inl hsale
    · rw [List.mem_singleton] at hsale
      subst hsale
      exact Or.inr ⟨hpending, e, hrec, rfl, rfl, rfl⟩

theorem agrees_admitRequest (keys : OtpKeys) (txid : TxId) (request : MarketRequest) (paid fee : Zatoshis)
    (height : ℕ) (mtp : ℤ) (pending : Name → Bool) (h : Agrees (raw (m, r)) r) :
    Agrees (raw ((m.admitRequest keys txid request paid r fee height mtp pending).1, r)) r := by
  obtain ⟨hsales, hchallenges⟩ := admitRequest_adds keys m txid request paid r fee height mtp pending
  revert hsales hchallenges
  generalize (m.admitRequest keys txid request paid r fee height mtp pending).1 = m'
  intro hsales hchallenges
  refine ⟨h.listings, ?_, ?_⟩
  · intro sale hsale
    rcases hsales sale hsale with hold | ⟨-, e, hrec, hua, hheld, -⟩
    · exact h.sales sale hold
    · exact ⟨e, hrec, hua, hheld⟩
  · intro c hc
    rcases hchallenges c hc with hold | hnew
    · exact h.challenges c hold
    · exact hnew

theorem termed_admitRequest (keys : OtpKeys) (txid : TxId) (request : MarketRequest) (paid fee : Zatoshis)
    (height : ℕ) (mtp : ℤ) (pending : Name → Bool) (h : Termed (raw (m, r)) r) :
    Termed (raw ((m.admitRequest keys txid request paid r fee height mtp pending).1, r)) r := by
  obtain ⟨hsales, -⟩ := admitRequest_adds keys m txid request paid r fee height mtp pending
  intro sale hsale e he
  rcases hsales sale hsale with hold | ⟨-, e', hrec, -, -, hterm⟩
  · exact h sale hold e he
  · have hee : e = e' := Option.some.inj (he.symm.trans hrec)
    rw [hee]
    exact hterm

/-- A listing comes in for the live owner only. -/
theorem agrees_answer (response : OtpMemo) (height : ℕ) (h : Agrees (raw (m, r)) r) :
    Agrees (raw (m.answer r response height).1) (m.answer r response height).1.2 := by
  obtain ⟨hsales, hfewer, hlisted⟩ := answer_cases m r response height
  revert hsales hfewer hlisted
  generalize (m.answer r response height).1 = t
  obtain ⟨m', r'⟩ := t
  intro hsales hfewer hlisted
  have hrecords : ∀ n, r'.record n = r.record n := by
    intro n
    cases hlisted <;> rfl
  have hold : Agrees ⟨r.listings, m'.sales.sales, m'.challenges⟩ r := by
    refine h.less ⟨fun _ _ hl => hl, ?_, ?_⟩
    · intro sale hsale
      have hsame : m'.sales = m.sales := hsales
      rw [hsame] at hsale
      exact ⟨sale, hsale, .refl sale⟩
    · intro c' hc'
      obtain ⟨c, hc, herase⟩ := hfewer c' hc'
      have hkind : (eraseChallenge c').kind = (eraseChallenge c).kind := by rw [herase]
      exact ⟨c, hc, hkind⟩
  refine Agrees.records ⟨?_, hold.sales, hold.challenges⟩ hrecords
  intro name l hl
  have hl' : r'.listings[name]? = some l := hl
  cases hlisted with
  | same => exact hold.listings name l hl'
  | @listed l' owner hrec hown =>
    simp only [isOwnerListing, Bool.and_eq_true, beq_iff_eq] at hown
    have hinsert : (r.listings.insert l'.name l')[name]? = some l := hl'
    rw [Std.ExtTreeMap.getElem?_insert] at hinsert
    split_ifs at hinsert with hname
    · cases hinsert
      have hname' : l.name = name := Std.LawfulEqCmp.compare_eq_iff_eq.mp hname
      subst hname'
      exact ⟨rfl, hown.1 ▸ hown.2, owner, hrec, hown.1⟩
    · exact hold.listings name l hinsert
  | delisted name' =>
    have herase : (r.listings.erase name')[name]? = some l := hl'
    rw [Std.ExtTreeMap.getElem?_erase] at herase
    split_ifs at herase
    exact hold.listings name l herase

/-- **Reconciling restores the agreement**, whatever happened to the records, from what is true of the
listings by themselves. -/
theorem agrees_reconcile (m : Market) (r : Registry) (height : ℕ)
    (h : ∀ (name : Name) l, r.listings[name]? = some l → l.name = name ∧ l.ua.transparent =
    some l.payTo) :
    Agrees (raw (m.reconcile r height)) (m.reconcile r height).2 := by
  have hrecords : ∀ n, (m.reconcile r height).2.record n = r.record n := fun _ => rfl
  refine Agrees.records (r := r) ⟨?_, ?_, ?_⟩ hrecords
  · intro name l hl
    obtain ⟨hl', hlive⟩ := listing_filter hl
    obtain ⟨hname, hpay⟩ := h name l hl'
    rw [Registry.listingLive, Option.any_eq_true] at hlive
    obtain ⟨e, he, hua⟩ := hlive
    exact ⟨hname, hpay, e, he, by simpa using hua⟩
  · intro sale hsale
    rw [raw_sales, sales_reconcile] at hsale
    have hunmoved := (List.mem_filter.mp hsale).2
    unfold SaleQueue.unmoved at hunmoved
    rcases he : r.record sale.name with _ | e
    · simp [he] at hunmoved
    · simp only [he, Option.map_some, Bool.not_eq_true', Bool.or_eq_false_iff,
        bne_eq_false_iff_eq] at hunmoved
      exact ⟨e, rfl, hunmoved.1, hunmoved.2⟩
  · intro c hc
    rw [raw_challenges] at hc
    have hstale := (mem_challenges_reconcile hc).2
    unfold staleChallenge at hstale
    rcases he : r.record c.name with _ | e
    · simp [he] at hstale
    · exact ⟨e, rfl, by simpa [he] using hstale⟩

theorem less_reconcile (m : Market) (r : Registry) (height : ℕ) :
    Less (raw (m, r)) (raw (m.reconcile r height)) where
  listings := fun name l h => (listing_filter h).1
  sales := by
    intro sale hsale
    rw [raw_sales, sales_reconcile] at hsale
    exact ⟨sale, (List.mem_filter.mp hsale).1, .refl sale⟩
  challenges := by
    intro c hc
    rw [raw_challenges] at hc
    exact ⟨c, (mem_challenges_reconcile hc).1, rfl⟩

end ZnsMint.Market
