import ZnsMint.Market.Rewind

/-! # What a market operation changes

Each operation of the market, by what it does to the open sales, to the challenges and to the listings.
Proofs about runs cite these and do not open the operations again. -/

namespace ZnsMint.Market

open Basic Note Inbound Lib.EventLog

variable {m : Market} {r : Registry} {height : ℕ}

/-! ### Recording -/

@[simp] theorem sales_record (m : Market) (height : ℕ) (e : MarketEvent) : (m.record height e).sales =
    m.sales := rfl

@[simp] theorem challenges_record (m : Market) (height : ℕ) (e : MarketEvent) :
    (m.record height e).challenges = m.challenges := rfl

@[simp] theorem sales_recordAll (m : Market) (height : ℕ) (es : List MarketEvent) :
    (m.recordAll height es).sales = m.sales := by
  rw [recordAll_eq]

@[simp] theorem challenges_recordAll (m : Market) (height : ℕ) (es : List MarketEvent) :
    (m.recordAll height es).challenges = m.challenges := by
  rw [recordAll_eq]

/-! ### Challenges that close -/

theorem closeChallenges_eq (height : ℕ) (codes : List OtpCode) (m : Market) :
    (codes.foldl (closeChallenge height) m).sales = m.sales ∧
      (codes.foldl (closeChallenge height) m).challenges =
        m.challenges.filter fun c => decide (c.code ∉ codes) := by
  induction codes generalizing m with
  | nil => simp
  | cons code codes ih =>
    obtain ⟨h1, h2⟩ := ih (closeChallenge height m code)
    refine ⟨h1.trans rfl, ?_⟩
    rw [List.foldl_cons, h2]
    change (m.challenges.filter fun c => decide (c.code ≠ code)).filter _ = _
    rw [List.filter_filter]
    refine List.filter_congr fun c _ => ?_
    by_cases h3 : c.code = code <;> by_cases h4 : c.code ∈ codes <;> simp [h3, h4]

@[simp] theorem sales_closeChallengesWhere (m : Market) (stale : MarketChallenge → Bool) (height : ℕ) :
    (m.closeChallengesWhere stale height).sales = m.sales :=
  (closeChallenges_eq height _ m).1

/-- A challenge that stays was there, and was not stale. -/
theorem mem_closeChallengesWhere {stale : MarketChallenge → Bool} {c : MarketChallenge}
    (h : c ∈ (m.closeChallengesWhere stale height).challenges) : c ∈ m.challenges ∧ stale c = false := by
  rw [closeChallengesWhere, (closeChallenges_eq height _ m).2, List.mem_filter] at h
  refine ⟨h.1, ?_⟩
  by_contra hs
  have hmem : c.code ∈ (m.challenges.filter stale).map MarketChallenge.code :=
    List.mem_map_of_mem (List.mem_filter.mpr ⟨h.1, by simpa using hs⟩)
  simp [hmem] at h

/-! ### The whole market -/

theorem sales_expire (m : Market) (r : Registry) (mtp : ℤ) (height : ℕ) :
    (m.expire r mtp height).1.sales.sales = m.sales.sales.filter (SaleQueue.unexpired mtp) := by
  simp [expire, SaleQueue.expire, SaleQueue.retain]

theorem mem_challenges_expire {mtp : ℤ} {c : MarketChallenge}
    (h : c ∈ (m.expire r mtp height).1.challenges) :
    c ∈ m.challenges := by
  have := (mem_closeChallengesWhere h).1
  simpa [SaleQueue.expire, SaleQueue.retain] using this

theorem sales_reconcile (m : Market) (r : Registry) (height : ℕ) :
    (m.reconcile r height).1.sales.sales = m.sales.sales.filter (SaleQueue.unmoved fun name =>
      (r.record name).map fun record => (record.ua, record.commitment)) := by
  simp only [reconcile, sales_recordAll, sales_closeChallengesWhere, SaleQueue.reconcile,
    SaleQueue.retain]
  rfl

theorem mem_challenges_reconcile {c : MarketChallenge} (h : c ∈ (m.reconcile r height).1.challenges) :
    c ∈ m.challenges ∧ staleChallenge r c = false := by
  simp only [reconcile, challenges_recordAll] at h
  have hstale := mem_closeChallengesWhere h
  have hrecords : staleChallenge r.reconcileListings.1 c = staleChallenge r c := rfl
  simpa [hrecords] using hstale

theorem sales_observe (m : Market) (holder : Name → Option UnifiedAddress)
    (payments : List (TransparentAddress × Zatoshis)) (mtp : ℤ) (height : ℕ) :
    (m.observe holder payments mtp height).sales = (m.sales.observe holder payments mtp).1 := by
  simp [observe]

theorem challenges_observe (m : Market) (holder : Name → Option UnifiedAddress)
    (payments : List (TransparentAddress × Zatoshis)) (mtp : ℤ) (height : ℕ) :
    (m.observe holder payments mtp height).challenges = m.challenges := by
  simp [observe]

theorem sales_poll (m : Market) (r : Registry) (pending : Name → Bool) (height : ℕ) :
    (m.poll r pending height).1.sales.sales = m.sales.sales.filter fun s =>
      !SaleQueue.pollable pending s || (SaleQueue.owedNote r s).isSome := by
  simp [poll, SaleQueue.poll, SaleQueue.retain]

theorem challenges_poll (m : Market) (r : Registry) (pending : Name → Bool) (height : ℕ) :
    (m.poll r pending height).1.challenges = m.challenges := by
  simp [poll]

/-! ### A buy opens -/

/-- The sale `open_buy` opens. -/
def openedSale (name : Name) (bob owner : UnifiedAddress) (payTo : TransparentAddress) (price : Zatoshis)
    (term : Expiry) (held : NameCommitment) (code : OtpCode) (dutch : Bool) (expiresAt : ℤ) : Sale :=
  ⟨name, bob, owner, held, term, dutch, expiresAt, .paying code payTo price expiresAt false⟩

/-- Everything a granted buy has passed, and what it leaves. -/
theorem openBuy_ok {name : Name} {bob owner : UnifiedAddress} {term : Expiry} {held : NameCommitment}
    {releaseDue notePending : Bool} {code : OtpCode} {mtp : ℤ} {m' : Market} {otp : BuyOtp}
    (h : m.openBuy r name bob owner term held releaseDue notePending code mtp height = .ok (m', otp)) :
    ∃ payTo price dutch expiresAt, quoteFor r name owner height = .ok (payTo, price, dutch) ∧
      m.sales.isOpen name = false ∧ releaseDue = false ∧ notePending = false ∧
      m.sales.samePayment payTo price code = false ∧
      m'.sales.sales =
        m.sales.sales ++ [openedSale name bob owner payTo price term held code dutch expiresAt] ∧
      ∀ c ∈ m'.challenges, c ∈ m.challenges ∧ c.name ≠ name := by
  unfold openBuy at h
  by_cases hname : m.sales.isOpen name = true
  · rw [if_pos hname] at h
    split at h <;> cases h
  · rw [if_neg hname] at h
    obtain ⟨⟨payTo, price, dutch⟩, hquote, h⟩ := Lib.Machine.ok_of_bind h
    simp only at h
    split_ifs at h with hdue hpend hsame
    split at h
    · cases h
    · rename_i q otp' hsale
      unfold SaleQueue.openSale at hsale
      rw [if_neg hname] at hsale
      obtain ⟨expiresAt, -, hsale⟩ := Option.bind_eq_some_iff.mp hsale
      cases Option.some.inj hsale
      have hopen : m.sales.isOpen name = false := by simpa using hname
      split at h
      · cases h
      · cases Except.ok.inj h
        refine ⟨payTo, price, dutch, expiresAt, hquote, hopen, by simpa using hdue, by simpa using hpend,
          by simpa using hsame, ?_, ?_⟩
        · rw [closeChallengesFor, sales_closeChallengesWhere]
          rfl
        · intro c hc
          obtain ⟨h1, h2⟩ := mem_closeChallengesWhere hc
          exact ⟨h1, by simpa using h2⟩

theorem proposeList_ok {l : Listing} {owner : UnifiedAddress} {code : OtpCode} {mtp : ℤ} {m' : Market}
    (h : m.proposeList l owner code mtp height = .ok m') :
    m' = m ∨ (clockReady l.ask height = .ok () ∧ isOwnerListing owner l.ua l.payTo = true ∧
      m.codeIsOpen code = false ∧ m' = m.pushChallenge (newChallenge (.list l) code mtp) height) := by
  unfold proposeList at h
  obtain ⟨_, hclock, h⟩ := Lib.Machine.ok_of_bind h
  split_ifs at h with h1 h2 h3 h4
  · cases Except.ok.inj h
    exact Or.inl rfl
  · cases Except.ok.inj h
    exact Or.inr ⟨hclock, by simpa using h1, by simpa using h4, rfl⟩

theorem proposeDelist_ok {name : Name} {ua : UnifiedAddress} {code : OtpCode} {mtp : ℤ} {m' : Market}
    (h : m.proposeDelist r name ua code mtp height = .ok m') :
    m' = m ∨ ((r.record name).any (fun record => record.ua == ua) = true ∧ m.codeIsOpen code = false ∧
      m' = m.pushChallenge (newChallenge (.delist name ua) code mtp) height) := by
  unfold proposeDelist at h
  split_ifs at h with h1 h2 h3 h4 h5
  · cases Except.ok.inj h
    exact Or.inl rfl
  · cases Except.ok.inj h
    exact Or.inr ⟨by simpa using h1, by simpa using h5, rfl⟩

/-- **What one market memo can do**: nothing, a challenge for the live record's controller, or a buy of
the live record. -/
theorem admitRequest_cases (keys : OtpKeys) (m : Market) (txid : TxId) (request : MarketRequest)
    (paid : Zatoshis) (r : Registry) (fee : Zatoshis) (height : ℕ) (mtp : ℤ) (pending : Name → Bool) :
    (m.admitRequest keys txid request paid r fee height mtp pending).1 = m ∨
    (∃ c record, r.record c.name = some record ∧ c.ua = record.ua ∧ c.heldBy record.ua = true ∧
      pending c.name = false ∧ m.codeIsOpen c.code = false ∧ c.attempts = 0 ∧
      (m.admitRequest keys txid request paid r fee height mtp pending).1 = m.pushChallenge c height) ∨
    (∃ name bob record otp m', r.record name = some record ∧ pending name = false ∧
      request = .buy name bob ∧
      m.openBuy r name bob record.ua record.expiresAt record.commitment (record.isReleaseDue mtp)
        (pending name) (keys.buyOtp txid name) mtp height = .ok (m', otp) ∧
      (m.admitRequest keys txid request paid r fee height mtp pending).1 = m') := by
  unfold admitRequest
  rcases request with l | ⟨name, ua⟩ | ⟨name, bob⟩
  · simp only
    split
    · exact Or.inl rfl
    · rename_i record hrec
      split_ifs with hgate
      · exact Or.inl rfl
      · rcases h : m.proposeList l record.ua (listCode keys txid l) mtp height with e | m'
        · exact Or.inl rfl
        · rcases proposeList_ok h with rfl | ⟨-, hown, hcode, rfl⟩
          · exact Or.inl rfl
          · simp only [Bool.or_eq_true, not_or, Bool.not_eq_true] at hgate
            have howner : record.ua = l.ua := by
              simp only [isOwnerListing, Bool.and_eq_true, beq_iff_eq] at hown
              exact hown.1
            exact Or.inr (Or.inl ⟨newChallenge (.list l) (listCode keys txid l) mtp, record,
              hrec, howner.symm,
              hown, hgate.2, hcode, rfl, rfl⟩)
  · simp only
    split_ifs with hown hgate
    · exact Or.inl rfl
    · exact Or.inl rfl
    · rcases h : m.proposeDelist r name ua (keys.delistOtp txid name) mtp height with e | m'
      · exact Or.inl rfl
      · rcases proposeDelist_ok h with rfl | ⟨hrec, hcode, rfl⟩
        · exact Or.inl rfl
        · rcases hr : r.record name with _ | record
          · rw [hr] at hrec
            cases hrec
          · simp only [hr, Option.any_some, beq_iff_eq] at hrec
            simp only [Bool.or_eq_true, not_or, Bool.not_eq_true] at hgate
            refine Or.inr (Or.inl ⟨newChallenge (.delist name ua) (keys.delistOtp txid name) mtp, record,
              hr, hrec.symm,
              ?_, hgate.2, hcode, rfl, rfl⟩)
            simp [MarketChallenge.heldBy, newChallenge, hrec]
  · simp only
    split
    · exact Or.inl rfl
    · rename_i record hrec
      split_ifs
      · exact Or.inl rfl
      · split
        · rename_i m' otp h
          obtain ⟨-, -, -, -, -, -, -, hpend, -⟩ := openBuy_ok h
          exact Or.inr (Or.inr ⟨name, bob, record, otp, m', hrec, hpend, rfl, h, rfl⟩)
        · exact Or.inl rfl

/-! ### An answer -/

theorem list_ok {l : Listing} {m' : Market} {r' : Registry} (h : m.list r l height = .ok (m', r')) :
    ∃ owner, r.record l.name = some owner ∧ isOwnerListing owner.ua l.ua l.payTo = true ∧
      m' = m.record height (.list l) ∧ r' = r.restoreListing l := by
  unfold Market.list at h
  obtain ⟨-, -, h⟩ := Lib.Machine.ok_of_bind h
  split_ifs at h
  obtain ⟨r₁, hr₁, h⟩ := Lib.Machine.ok_of_bind h
  cases Except.ok.inj h
  unfold Registry.list at hr₁
  split at hr₁
  · cases hr₁
  · rename_i owner howner
    split_ifs at hr₁ with hown
    exact ⟨owner, howner, hown, rfl, (Except.ok.inj hr₁).symm⟩

theorem delist_ok {name : Name} {ua : UnifiedAddress} {m' : Market} {r' : Registry}
    (h : m.delist r name ua height = .ok (m', r')) :
    m' = m.record height (.delist name) ∧ r' = (r.removeListing name).1 := by
  unfold Market.delist at h
  split_ifs at h
  obtain ⟨r₁, hr₁, h⟩ := Lib.Machine.ok_of_bind h
  cases Except.ok.inj h
  exact ⟨rfl, registry_delist hr₁⟩

/-- What an answered challenge does to the listings: nothing, a listing by the live owner, or one
listing less. -/
inductive Relisted (r : Registry) : Registry → Prop
  | same : Relisted r r
  | listed {l : Listing} {owner : NameRecord} (hrec : r.record l.name = some owner)
      (hown : isOwnerListing owner.ua l.ua l.payTo = true) : Relisted r (r.restoreListing l)
  | delisted (name : Name) : Relisted r (r.removeListing name).1

theorem enactChallenge_cases (m : Market) (r : Registry) (kind : ChallengeKind) (height : ℕ) :
    (m.enactChallenge r kind height).1.sales = m.sales ∧
      (m.enactChallenge r kind height).1.challenges = m.challenges ∧
      Relisted r (m.enactChallenge r kind height).2 := by
  rcases kind with l | ⟨name, ua⟩
  · simp only [enactChallenge]
    rcases h : m.list r l height with e | ⟨m', r'⟩
    · exact ⟨rfl, rfl, .same⟩
    · obtain ⟨owner, hrec, hown, rfl, rfl⟩ := list_ok h
      exact ⟨rfl, rfl, .listed hrec hown⟩
  · simp only [enactChallenge]
    rcases h : m.delist r name ua height with e | ⟨m', r'⟩
    · exact ⟨rfl, rfl, .same⟩
    · obtain ⟨rfl, rfl⟩ := delist_ok h
      exact ⟨rfl, rfl, .delisted name⟩

/-- Every challenge of `m'` is one of `m`, up to its counter. -/
def FewerChallenges (m m' : Market) : Prop :=
  ∀ c' ∈ m'.challenges, ∃ c ∈ m.challenges, eraseChallenge c' = eraseChallenge c

theorem FewerChallenges.refl (m : Market) : FewerChallenges m m := fun c hc => ⟨c, hc, rfl⟩

theorem FewerChallenges.trans {m₁ m₂ m₃ : Market} (h : FewerChallenges m₁ m₂)
    (h' : FewerChallenges m₂ m₃) :
    FewerChallenges m₁ m₃ := by
  intro c₃ hc₃
  obtain ⟨c₂, hc₂, heq₂⟩ := h' c₃ hc₃
  obtain ⟨c₁, hc₁, heq₁⟩ := h c₂ hc₂
  exact ⟨c₁, hc₁, heq₂.trans heq₁⟩

theorem answerMiss_cases (height : ℕ) (m : Market) (index : ℕ) :
    (answerMiss height m index).sales = m.sales ∧ FewerChallenges m (answerMiss height m index) := by
  have hcount : FewerChallenges m
      { m with challenges := m.challenges.modify index fun c =>
        { c with attempts := c.attempts + 1 } } := by
    intro c hc
    obtain ⟨i, hi⟩ := List.getElem?_of_mem hc
    simp only [List.getElem?_modify] at hi
    obtain ⟨c₀, hc₀, heq⟩ := Option.map_eq_some_iff.mp hi
    refine ⟨c₀, List.mem_of_getElem? hc₀, ?_⟩
    by_cases hidx : index = i <;> simp [hidx] at heq <;> exact heq ▸ rfl
  simp only [answerMiss]
  split
  · exact ⟨rfl, hcount⟩
  · split_ifs
    · refine ⟨rfl, hcount.trans ?_⟩
      intro c hc
      exact ⟨c, (List.mem_filter.mp hc).1, rfl⟩
    · exact ⟨rfl, hcount⟩

theorem answerMisses_cases (height : ℕ) (indices : List ℕ) (m : Market) :
    (indices.foldl (answerMiss height) m).sales = m.sales ∧
      FewerChallenges m (indices.foldl (answerMiss height) m) := by
  induction indices generalizing m with
  | nil => exact ⟨rfl, .refl m⟩
  | cons i indices ih =>
    obtain ⟨h1, h2⟩ := answerMiss_cases height m i
    obtain ⟨h3, h4⟩ := ih (answerMiss height m i)
    exact ⟨h3.trans h1, h2.trans h4⟩

/-- **What one answer can do.** -/
theorem answer_cases (m : Market) (r : Registry) (response : OtpMemo) (height : ℕ) :
    (m.answer r response height).1.1.sales = m.sales ∧
      FewerChallenges m (m.answer r response height).1.1 ∧
        Relisted r (m.answer r response height).1.2 := by
  have hsame : m.sales = m.sales ∧ FewerChallenges m m ∧ Relisted r r := ⟨rfl, .refl m, .same⟩
  simp only [answer]
  split_ifs
  · exact hsame
  · exact hsame
  · split
    · rename_i index _
      split
      · exact hsame
      · have hless : FewerChallenges m { m with challenges := m.challenges.eraseIdx index } :=
          fun c hc => ⟨c, List.mem_of_mem_eraseIdx hc, rfl⟩
        split_ifs
        · exact ⟨rfl, hless, .same⟩
        · rename_i c _ _
          obtain ⟨h1, h2, h3⟩ := enactChallenge_cases
            (record { m with challenges := m.challenges.eraseIdx index } height (.challengeClosed c.code))
              r
            c.kind height
          refine ⟨h1, ?_, h3⟩
          intro c' hc'
          rw [h2] at hc'
          exact hless c' hc'
    · obtain ⟨h1, h2⟩ := answerMisses_cases height
        ((m.challenges.zipIdx.filter fun p => answers response p.1).map Prod.snd).reverse m
      exact ⟨h1, h2, .same⟩

end ZnsMint.Market
