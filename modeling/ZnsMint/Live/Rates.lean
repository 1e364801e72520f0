import ZnsMint.Live.Ground

/-! # The rate a pass is priced at

The published rate and the fee rate move with a pass alone: blocks and reorgs leave both, and all that a
pass does after it has read them is done under them. -/

namespace ZnsMint.Live

open Basic Note Inbound Registry Lib.Machine

variable {params : Params} {keys : Keys} {env : TipEnv} {s t : Live}

/-- Both rates are the same. -/
def SameRates (s t : Live) : Prop := t.rate = s.rate ∧ t.marginalFee = s.marginalFee

namespace SameRates

theorem refl (s : Live) : SameRates s s := ⟨rfl, rfl⟩

theorem trans {u : Live} (h : SameRates s t) (h' : SameRates t u) : SameRates s u :=
  ⟨h'.1.trans h.1, h'.2.trans h.2⟩

/-- A loop of steps that each keep both rates. -/
theorem foldl {α : Type} {f : Live → α → Live} (hf : ∀ s a, SameRates s (f s a)) (l : List α) (s : Live) :
    SameRates s (l.foldl f s) :=
  foldl_invariant (I := fun _ u => SameRates s u) (fun a _ u hu => hu.trans (hf u a)) l s (refl s)

theorem foldlM {α : Type} {f : Live → α → Option Live} (hf : ∀ s a t, f s a = some t → SameRates s t)
    (l : List α)
    (h : l.foldlM f s = some t) : SameRates s t :=
  foldlM_invariant (I := fun _ u => SameRates s u) (fun a _ u v hu hv => hu.trans (hf u a v hv)) l
    s t (refl s) h

/-! ### Blocks and reorgs -/

theorem admitTransition (s : Live) (note : NameNote) : SameRates s (s.admitTransition note) := by
  unfold Live.admitTransition
  dsimp only
  split_ifs
  · exact ⟨rfl, rfl⟩
  · exact refl s

theorem enactResponse (s : Live) (a : Arrival) (response : OtpMemo) (sent : OtpEntry) :
    SameRates s (s.enactResponse a response sent) := by
  unfold Live.enactResponse
  split
  · exact ⟨rfl, rfl⟩
  · split
    · exact ⟨rfl, rfl⟩
    · split
      · exact refl s
      · split
        · exact ⟨rfl, rfl⟩
        · rename_i note hnote
          have hadmit := admitTransition
            (s.record (.authorized note (s.registry.record sent.name) sent.relayedTo)) note
          dsimp only
          split_ifs
          · exact hadmit
          · exact hadmit

theorem respond (s : Live) (a : Arrival) (response : OtpMemo) : SameRates s (s.respond a response) := by
  unfold Live.respond
  split_ifs
  · exact ⟨rfl, rfl⟩
  · exact ⟨rfl, rfl⟩
  · split
    · exact ⟨rfl, rfl⟩
    · exact enactResponse _ a response _

theorem admitMarket (s : Live) (a : Arrival) (request : MarketRequest) :
    SameRates s (s.admitMarket keys a request) := by
  unfold Live.admitMarket
  dsimp only
  split
  · exact ⟨rfl, rfl⟩
  · exact ⟨rfl, rfl⟩

theorem arrive (s : Live) (a : Arrival) : SameRates s (s.arrive keys a) := by
  unfold Live.arrive
  split
  · exact admitMarket s a _
  · exact ⟨rfl, rfl⟩
  · exact respond s a _
  · exact refl s

theorem block (params : Params) (keys : Keys) (s : Live) (b : Block) :
    SameRates s (s.block params keys b) := by
  have hmeet : SameRates s ((s.applyBlock params b).meetBlock params) := ⟨rfl, rfl⟩
  exact hmeet.trans (foldl (fun u a => arrive u a) b.arrivals _)

theorem reorg (params : Params) (s : Live) (rewound : ℕ) (mtp : ℤ) :
    SameRates s (s.reorg params rewound mtp) :=
  ⟨rfl, rfl⟩

/-! ### The pass -/

theorem decideOne {rate : Zatoshis} {e : PendingRequest} (h : s.decideOne keys env rate e = some t) :
    SameRates s t := by
  unfold Live.decideOne Live.enact at h
  dsimp only at h
  split at h
  · cases h
    exact refl s
  · cases h
    exact ⟨rfl, rfl⟩
  · split_ifs at h
    · cases h
      exact ⟨rfl, rfl⟩
    · cases h
      exact ⟨rfl, rfl⟩
  · obtain ⟨q, -, rfl⟩ := Option.map_eq_some_iff.mp h
    exact ⟨rfl, rfl⟩

theorem relayOne (s : Live) (pending : OtpChallenge) : SameRates s (s.relayOne env pending) := by
  unfold Live.relayOne
  split
  · exact refl s
  · split
    · exact refl s
    · split
      · exact ⟨rfl, rfl⟩
      · exact refl s

theorem pollSales (s : Live) : SameRates s s.pollSales := by
  unfold Live.pollSales
  exact foldl (f := Live.admitTransition) admitTransition _ { s with market := _ }

theorem dropOrder {looked : Order} (h : s.dropOrder looked = some t) : SameRates s t := by
  obtain ⟨nameNotes, log, rfl⟩ := dropOrder_frame h
  exact ⟨rfl, rfl⟩

theorem dropDueOne {looked : Order} (h : s.dropDueOne looked = some t) : SameRates s t := by
  unfold Live.dropDueOne at h
  split_ifs at h
  · exact dropOrder h
  · cases h
    exact refl s

theorem admitRelease (s : Live) (e : Name × NameNote) : SameRates s (s.admitRelease e) := by
  unfold Live.admitRelease
  split_ifs
  · exact refl s
  · exact admitTransition s e.2

theorem submit {looked : Order} {authority : Nullifier}
    (h : s.submit params env looked authority = some t) :
    SameRates s t := by
  obtain ⟨wallet, nameNotes, log, rfl⟩ := submit_frame h
  exact ⟨rfl, rfl⟩

theorem sendOne {looked : Order} (h : s.sendOne params env looked = some t) : SameRates s t := by
  unfold Live.sendOne at h
  split_ifs at h
  · exact dropOrder h
  · split at h
    · cases h
      exact refl s
    · exact submit h
  · split at h
    · exact dropOrder h
    · exact submit h

theorem payOne {built : RefundRequest} (h : s.payOne env built = some t) : SameRates s t := by
  obtain ⟨refunds, log, rfl⟩ := payOne_frame h
  exact ⟨rfl, rfl⟩

end SameRates

/-- A pass leaves the rates it has read. -/
theorem rates_tipPass (h : s.tipPass params keys env = some t) : t.rate = env.rate ∧ t.marginalFee =
    env.marginalFee := by
  unfold tipPass at h
  obtain ⟨s₁, hdecide, h⟩ := Option.bind_eq_some_iff.mp h
  obtain ⟨s₂, hdue, h⟩ := Option.bind_eq_some_iff.mp h
  obtain ⟨s₃, hsend, hpay⟩ := Option.bind_eq_some_iff.mp h
  have hdecided : SameRates { s with rate := env.rate, marginalFee := env.marginalFee } s₁ :=
    .foldlM (fun u e v hv => SameRates.decideOne hv) _ hdecide
  have hrelayed : SameRates s₁ (s₁.challenges.requested.foldl (relayOne env) s₁) :=
    .foldl SameRates.relayOne _ s₁
  generalize s₁.challenges.requested.foldl (relayOne env) s₁ = r at hdue hrelayed
  have hmarket : SameRates r (r.relayMarket env) := ⟨rfl, rfl⟩
  have hpolled := SameRates.pollSales (r.relayMarket env)
  generalize (r.relayMarket env).pollSales = p at hdue hpolled
  have hexpired : SameRates p { p with nameNotes := p.nameNotes.expireSent p.tip } := ⟨rfl, rfl⟩
  have hdropped := SameRates.foldlM (fun u o v hv => SameRates.dropDueOne hv) _ hdue
  have hreleased := SameRates.foldl SameRates.admitRelease (s₂.registry.releasesDue s₂.mtp) s₂
  have hsent := SameRates.foldlM (fun u o v hv => SameRates.sendOne hv) _ hsend
  have hpaid := SameRates.foldlM (fun u r v hv => SameRates.payOne hv) _ hpay
  have hall := (((((((hdecided.trans hrelayed).trans hmarket).trans hpolled).trans hexpired).trans
    hdropped).trans
    hreleased).trans hsent).trans hpaid
  exact hall

end ZnsMint.Live
