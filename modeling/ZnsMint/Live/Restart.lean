import ZnsMint.Live.Agreement
import ZnsMint.Live.Settled
import ZnsMint.Market.Flags

/-! # A restart against the live process

The boot loop reads the blocks that the live loop has applied, and nothing else: it has no queue of Name
Notes and takes no tip pass. `Mirrors` says that it holds the same market all the same, up to flags. Two
things part the two markets, and `restartSafe` is that neither happens: a memo that earns something while
its name is pending, which the live loop refuses, and a tip pass that finds a seller's purchase of her own
name, which it closes. -/

namespace ZnsMint.Live

open Basic Note Inbound Registry Market Lib.Machine

variable {params : Params} {keys : Keys} {k : OtpKeys} {env : TipEnv} {rate fee : Zatoshis} {s t u : Live}

/-! ### Where the two loops part -/

/-- A market memo that would earn something, and whose name has an unresolved order. -/
def heldUp (keys : Keys) (s : Live) (a : Arrival) : Bool :=
  match a.inbound with
  | .market request =>
    s.nameNotes.notePending (nameOf request) &&
      (s.market.grant keys.toOtpKeys a.payment.txid request a.paid
      s.registry s.marginalFee s.tip s.mtp).isSome
  | _ => false

/-- No arrival is held up when its turn comes. -/
def clear (keys : Keys) : Live → List Arrival → Bool
  | _, [] => true
  | s, a :: l => !s.heldUp keys a && clear keys (s.arrive keys a) l

/-- A paid sale of a seller to herself, whose name is not pending. -/
def selfSale (s : Live) (sale : Sale) : Bool :=
  sale.phase == .paid && sale.bob == sale.alice && !s.nameNotes.notePending sale.name

def restartSafe (params : Params) (keys : Keys) (s : Live) : Step → Bool
  | .block b => clear keys ((s.applyBlock params b).meetBlock params) b.arrivals
  | .tipPass _ => !s.market.sales.sales.any s.selfSale
  | _ => true

/-- No reorg, and one fee rate. -/
def onward (fee : Zatoshis) : Step → Bool
  | .tipPass env => env.marginalFee == fee
  | .reorg .. => false
  | _ => true

/-! ### The boot state mirrors the live one -/

/-- The boot loop stands at the same block with the same registry, and its market differs in flags. -/
structure Mirrors (s u : Live) : Prop where
  tip : u.tip = s.tip
  mtp : u.mtp = s.mtp
  registry : u.registry = s.registry
  marginalFee : u.marginalFee = s.marginalFee
  market : s.market.Alike u.market

theorem Mirrors.still (h : Mirrors s u) (hst : Still s t) : Mirrors t u where
  tip := h.tip.trans hst.tip.symm
  mtp := h.mtp.trans hst.mtp.symm
  registry := h.registry.trans hst.registry.symm
  marginalFee := h.marginalFee.trans hst.marginalFee.symm
  market := hst.market ▸ h.market

theorem Mirrors.trade (h : Mirrors s u) {m m' : Market} (hm : m.Alike m') :
    Mirrors { s with market := m } { u with market := m' } :=
  ⟨h.tip, h.mtp, h.registry, h.marginalFee, hm⟩

/-- What they show is the same. -/
theorem Mirrors.bookNow (h : Mirrors s u) : u.bookNow = s.bookNow := by
  unfold Live.bookNow
  rw [h.registry]
  exact h.market.book s.registry

theorem Mirrors.applyBlock (h : Mirrors s u) (b : Block) :
    Mirrors (s.applyBlock params b) (u.applyBlock params b) where
  tip := by simp only [Live.applyBlock, h.tip]
  mtp := rfl
  registry := by simp only [Live.applyBlock, h.registry, h.tip]
  marginalFee := h.marginalFee
  market := h.market

theorem Mirrors.meetBlock (h : Mirrors s u) : Mirrors (s.meetBlock params) u.syncMarket := by
  have hexpire := h.market.expire s.registry s.mtp s.tip
  have hreconcile := hexpire.1.reconcile (s.market.expire s.registry s.mtp s.tip).2 s.tip
  have hmarket : u.syncMarket.market = ((u.market.expire s.registry s.mtp s.tip).1.reconcile
      (s.market.expire s.registry s.mtp s.tip).2 s.tip).1 := by
    rw [← hexpire.2, ← h.registry, ← h.mtp, ← h.tip]
    rfl
  have hregistry : u.syncMarket.registry = ((u.market.expire s.registry s.mtp s.tip).1.reconcile
      (s.market.expire s.registry s.mtp s.tip).2 s.tip).2 := by
    rw [← hexpire.2, ← h.registry, ← h.mtp, ← h.tip]
    rfl
  refine ⟨h.tip, h.mtp, hregistry.trans hreconcile.2, h.marginalFee, ?_⟩
  rw [hmarket]
  exact hreconcile.1

theorem Mirrors.observePayments (h : Mirrors s u) (payments : List (TransparentAddress × Zatoshis)) :
    Mirrors (s.observePayments payments) (u.observePayments payments) := by
  refine ⟨h.tip, h.mtp, h.registry, h.marginalFee, ?_⟩
  unfold Live.observePayments
  rw [h.registry, h.mtp, h.tip]
  exact h.market.observe _ payments s.mtp s.tip

/-! ### Arrivals -/

theorem still_admitTransition (s : Live) (note : NameNote) : Still s (s.admitTransition note) :=
  (quiet_admitTransition s note).toStill

theorem still_enactResponse (s : Live) (a : Arrival) (response : OtpMemo) (sent : OtpEntry) :
    Still s (s.enactResponse a response sent) := by
  have hback : Still s (s.returned a response) := ⟨rfl, rfl, rfl, rfl, rfl⟩
  unfold enactResponse
  split
  · exact hback
  split
  · exact hback
  split
  · exact .refl s
  split
  · exact hback
  rename_i note _
  have hlogged : Still s (s.record (.authorized note (s.registry.record sent.name) sent.relayedTo)) :=
    ⟨rfl, rfl, rfl, rfl, rfl⟩
  have hadmitted := hlogged.trans (still_admitTransition _ note)
  simp only
  split_ifs
  · exact hadmitted.trans ⟨rfl, rfl, rfl, rfl, rfl⟩
  · exact hadmitted

/-- The response to a challenge of the name's own queue. -/
theorem still_respond (s : Live) (a : Arrival) {response : OtpMemo}
    (h : (response.action.isList || response.action.isDelist || response.action.isAuction) = false) :
    Still s (s.respond a response) := by
  unfold respond
  rw [if_neg (by simp [h])]
  split_ifs
  · exact ⟨rfl, rfl, rfl, rfl, rfl⟩
  · split
    · exact ⟨rfl, rfl, rfl, rfl, rfl⟩
    · rename_i q sent _
      exact Still.trans (t := { s with challenges := q }) ⟨rfl, rfl, rfl, rfl, rfl⟩
        (still_enactResponse _ a response sent)

/-- A market memo, but for the market. -/
theorem still_admitMarket (keys : Keys) (s : Live) (a : Arrival) (request : MarketRequest) :
    Still { s with market := (Market.admitRequest keys.toOtpKeys s.market a.payment.txid request
      a.paid s.registry
      s.marginalFee s.tip s.mtp s.nameNotes.notePending).1 } (s.admitMarket keys a request) := by
  unfold admitMarket
  generalize Market.admitRequest keys.toOtpKeys s.market a.payment.txid request a.paid s.registry
    s.marginalFee s.tip
    s.mtp s.nameNotes.notePending = res
  obtain ⟨m, opened, back⟩ := res
  rcases back with _ | back <;> exact ⟨rfl, rfl, rfl, rfl, rfl⟩

/-- And an answer to one of the market's challenges. -/
theorem still_answer (s : Live) (a : Arrival) {response : OtpMemo}
    (h : (response.action.isList || response.action.isDelist || response.action.isAuction) = true) :
    Still { s with
      market := (s.market.answer s.registry response s.tip).1.1
      registry := (s.market.answer s.registry response s.tip).1.2 } (s.respond a response) := by
  unfold respond
  rw [if_pos h]
  exact ⟨rfl, rfl, rfl, rfl, rfl⟩

/-- **One arrival** that is not held up. -/
theorem Mirrors.arrive (h : Mirrors s u) {a : Arrival} (hclear : s.heldUp keys a = false) :
    Mirrors (s.arrive keys a) (u.syncArrival keys a) := by
  unfold Live.arrive syncArrival
  rcases hinbound : a.inbound with request | request | response | _
  · exact h.still ⟨rfl, rfl, rfl, rfl, rfl⟩
  · -- the memo earns nothing where the two queues differ
    have hgrant : s.nameNotes.notePending (nameOf request) = true →
      s.market.grant keys.toOtpKeys a.payment.txid
        request a.paid s.registry s.marginalFee s.tip s.mtp = none := by
      intro hpending
      simpa [heldUp, hinbound, hpending] using hclear
    have hmarket : Market.Alike
        (Market.admitRequest keys.toOtpKeys s.market a.payment.txid request a.paid s.registry
          s.marginalFee s.tip s.mtp
          s.nameNotes.notePending).1
        (Market.admitRequest keys.toOtpKeys u.market a.payment.txid request a.paid u.registry
          u.marginalFee u.tip u.mtp
          fun _ => false).1 := by
      rw [h.registry, h.marginalFee, h.tip, h.mtp]
      exact h.market.admitRequest keys.toOtpKeys a.payment.txid request a.paid s.registry
        s.marginalFee s.tip s.mtp
        hgrant
    exact (h.trade hmarket).still (still_admitMarket keys s a request)
  · by_cases hown : (response.action.isList || response.action.isDelist || response.action.isAuction) =
      true
    · have hanswer := h.market.answer s.registry response s.tip
      have hsame : u.market.answer u.registry response u.tip =
          u.market.answer s.registry response s.tip := by
        rw [h.registry, h.tip]
      have hmirrors : Mirrors
          { s with
            market := (s.market.answer s.registry response s.tip).1.1
            registry := (s.market.answer s.registry response s.tip).1.2 }
          { u with
            market := (u.market.answer u.registry response u.tip).1.1
            registry := (u.market.answer u.registry response u.tip).1.2 } := by
        refine ⟨h.tip, h.mtp, ?_, h.marginalFee, ?_⟩
        · rw [hsame]
          exact hanswer.2
        · rw [hsame]
          exact hanswer.1
      simp only [hown, if_true]
      exact hmirrors.still (still_answer s a hown)
    · simp only [hown]
      exact h.still (still_respond s a (by simpa using hown))
  · exact h

theorem Mirrors.arrivals (l : List Arrival) (h : Mirrors s u) (hclear : clear keys s l = true) :
    Mirrors (l.foldl (Live.arrive keys) s) (l.foldl (syncArrival keys) u) := by
  induction l generalizing s u with
  | nil => exact h
  | cons a l ih =>
    simp only [clear, Bool.and_eq_true, Bool.not_eq_true'] at hclear
    exact ih (h.arrive hclear.1) hclear.2

/-- **One block.** -/
theorem Mirrors.block (h : Mirrors s u) {b : Block}
    (hsafe : restartSafe params keys s (.block b) = true) :
    Mirrors (s.block params keys b) (u.syncBlock params keys b) :=
  (((h.applyBlock b).meetBlock).arrivals b.arrivals hsafe).observePayments b.payments

/-! ### Tip passes -/

/-- Deciding requests queues claims, refunds and challenges. -/
theorem still_decideOne {e : PendingRequest} (h : s.decideOne keys env rate e = some t) :
    Still s t ∧ ∀ name, s.nameNotes.notePending name = true → t.nameNotes.notePending name = true := by
  have htaken : Still s { s with requests := s.requests.resolved e.payment.txid } :=
    ⟨rfl, rfl, rfl, rfl, rfl⟩
  unfold decideOne at h
  simp only at h
  generalize rule _ _ _ _ _ = ruling at h
  cases ruling with
  | keep =>
    cases h
    exact ⟨htaken, fun _ => id⟩
  | refund refundable =>
    cases h
    exact ⟨⟨rfl, rfl, rfl, rfl, rfl⟩, fun _ => id⟩
  | claim note =>
    rcases hpending : s.nameNotes.notePending note.name with _ | _
    · simp only [enact, admitNote_of_not_pending hpending] at h
      cases h
      refine ⟨⟨rfl, rfl, rfl, rfl, rfl⟩, fun name hname => ?_⟩
      unfold NameNoteQueue.notePending at hname ⊢
      simp [hname]
    · simp only [enact, admitNote_of_pending hpending] at h
      cases h
      exact ⟨⟨rfl, rfl, rfl, rfl, rfl⟩, fun _ => id⟩
  | challenge =>
    obtain ⟨q, -, rfl⟩ := Option.map_eq_some_iff.mp h
    exact ⟨⟨rfl, rfl, rfl, rfl, rfl⟩, fun _ => id⟩

theorem alike_relayMarket (env : TipEnv) (s : Live) : s.market.Alike (s.relayMarket env).market := by
  have hcodes : ∀ (l : List OtpMemo) (m : Market), m.Alike
      (l.foldl (fun m memo => if env.relayed memo then m.challengeRelayed memo.code else m) m) := by
    refine fun l m => foldl_invariant (I := fun _ u => m.Alike u) (fun memo _ u hu => ?_) l m (.refl m)
    split_ifs
    · exact hu.trans (alike_challengeRelayed u memo.code)
    · exact hu
  have hbuys : ∀ (l : List BuyOtp) (m : Market), m.Alike
      (l.foldl (fun m otp => if env.relayedBuy otp then m.relayed otp.name else m) m) := by
    refine fun l m => foldl_invariant (I := fun _ u => m.Alike u) (fun otp _ u hu => ?_) l m (.refl m)
    split_ifs
    · exact hu.trans (alike_relayed u otp.name)
    · exact hu
  exact (hcodes _ s.market).trans (hbuys _ _)

/-- The market agrees with the registry, which is sound. -/
structure Firm (s : Live) : Prop where
  sound : s.Sound
  agrees : Agrees s.bookNow s.registry

theorem Firm.trades (h : Firm s) (hst : Trades k s t) : Firm t :=
  ⟨h.sound.traded hst.traded, agrees_trades h.agrees hst⟩

/-- **A tip pass** changes flags, where it finds no sale of a seller to herself. -/
theorem Mirrors.tipPass (h : Mirrors s u) (hs : Firm s) (hfee : env.marginalFee = s.marginalFee)
    (hsafe : restartSafe params keys s (.tipPass env) = true) (ht : s.tipPass params keys env = some t) :
    Mirrors t u := by
  obtain ⟨d, w, v, hdecide, ⟨hrelayed, horders⟩, hquiet, hpay⟩ := tipPass_split ht
  set s₀ : Live := { s with rate := env.rate, marginalFee := env.marginalFee } with hs₀
  have hstart : Mirrors s₀ u := ⟨h.tip, h.mtp, h.registry, h.marginalFee.trans hfee.symm, h.market⟩
  have hdecided : Still s₀ d ∧ ∀ name, s.nameNotes.notePending name = true →
      d.nameNotes.notePending name = true :=
    foldlM_invariant (f := decideOne keys env s.rate)
      (I := fun _ x => Still s₀ x ∧ ∀ name, s.nameNotes.notePending name = true →
        x.nameNotes.notePending name = true)
      (fun _ _ _ _ hx hy => ⟨hx.1.trans (still_decideOne hy).1, fun name hname =>
        (still_decideOne hy).2 name
        (hx.2 name hname)⟩) _ _ _ ⟨.refl s₀, fun _ => id⟩ hdecide
  have hw : Still s₀ w := hdecided.1.trans hrelayed.toStill
  have hagrees : Agrees (raw ((w.relayMarket env).market, w.registry)) w.registry := by
    have hbook : book ((w.relayMarket env).market, s.registry) = s.bookNow := by
      have halike := (alike_relayMarket env w).book s.registry
      rw [hw.market] at halike
      exact halike
    have hshown : Agrees (book ((w.relayMarket env).market, s.registry)) s.registry :=
      hbook.symm ▸ hs.agrees
    rw [hw.registry]
    exact hshown.less (less_raw _)
  have hpolled : (w.relayMarket env).market.Alike (w.marketPass env) := by
    refine alike_poll hagrees fun sale hsale hpaid hself => ?_
    rw [horders]
    refine hdecided.2 sale.name ?_
    have hheld : sale ∈ s.market.sales.sales := by
      have halike := alike_relayMarket env w
      rw [hw.market] at halike
      exact halike.paid hsale hpaid
    have hnone : s.market.sales.sales.any s.selfSale = false := by simpa [restartSafe] using hsafe
    rw [List.any_eq_false] at hnone
    simpa [selfSale, hpaid, hself] using hnone sale hheld
  have hmarket : Mirrors { w with market := w.marketPass env } u := by
    have hpart := (hstart.still hw).market
    exact (hstart.still hw).trade ((((alike_relayMarket env w).trans hpolled).symm).trans hpart)
  have hpaid : Still v t :=
    foldlM_invariant (f := payOne env) (I := fun _ x => Still v x) (fun r _ x y hx hy => by
      obtain ⟨refunds, log, rfl⟩ := payOne_frame hy
      exact hx.trans ⟨rfl, rfl, rfl, rfl, rfl⟩) _ v t (.refl v) hpay
  exact (hmarket.still hquiet.toStill).still hpaid

/-! ### Runs -/

theorem Firm.syncMarket (h : Firm s) (b : Block) : Firm (s.applyBlock params b).syncMarket where
  sound := (h.sound.applyBlock params b).traded (traded_syncMarket _)
  agrees := (agrees_syncMarket h.sound h.agrees b).less (less_book _)

theorem Firm.block (h : Firm s) (b : Block) : Firm (s.block params keys b) := by
  have hmarket : Firm (s.applyBlock params b).syncMarket := h.syncMarket b
  have hmet : Firm ((s.applyBlock params b).meetBlock params) :=
    ⟨hmarket.sound.congr rfl rfl rfl, hmarket.agrees⟩
  exact hmet.trades (trades_block params keys s b)

theorem Firm.syncBlock (h : Firm s) (hs : s.nameNotes = .empty) (b : Block) :
    Firm (s.syncBlock params keys b) :=
  (h.syncMarket b).trades (trades_syncBlock params keys b hs)

/-- The boot loop over some blocks, before the passcodes it has read are sealed. -/
def scan (params : Params) (keys : Keys) (height : ℕ) (mtp : ℤ) (blocks : List Block)
    (rate fee : Zatoshis) : Live :=
  blocks.foldl (syncBlock params keys) (origin height mtp rate fee)

theorem firm_sync (params : Params) (keys : Keys) (height : ℕ) (mtp : ℤ) (blocks : List Block)
    (rate fee : Zatoshis) :
    Firm (sync params keys height mtp blocks rate fee) := by
  have hloop := foldl_invariant (f := Live.syncBlock params keys)
    (I := fun _ (s : Live) => s.nameNotes = .empty ∧ Firm s)
    (fun b _ s hs => ⟨(scanned_syncBlock params keys s b).nameNotes.trans hs.1, hs.2.syncBlock hs.1 b⟩)
    blocks
    (origin height mtp rate fee) ⟨rfl, sound_origin height mtp rate fee, agrees_empty _⟩
  exact hloop.2.trades (trades_sealReplayedBuys _ (k := keys.toOtpKeys))

theorem mirrors_sync (params : Params) (keys : Keys) (height : ℕ) (mtp : ℤ) (blocks : List Block)
    (rate fee : Zatoshis) :
    Mirrors (sync params keys height mtp blocks rate fee) (scan params keys height mtp blocks rate fee) :=
  ⟨rfl, rfl, rfl, rfl, (alike_sealReplayedBuys _).symm⟩

/-- The fee rate of the boot state is the one it was started with. -/
theorem marginalFee_scan (params : Params) (keys : Keys) (height : ℕ) (mtp : ℤ) (blocks : List Block)
    (rate fee : Zatoshis) : (scan params keys height mtp blocks rate fee).marginalFee = fee :=
  foldl_invariant (f := Live.syncBlock params keys) (I := fun _ (s : Live) => s.marginalFee = fee)
    (fun b _ s hs => ((scanned_syncBlock params keys s b).rates.2).trans hs) blocks
    (origin height mtp rate fee) rfl

/-- What is kept of a live run and of the boot loop over its blocks. -/
theorem mirrors_run (steps : List Step) (s u : Live) (hs : Firm s) (h : Mirrors s u)
    (hfee : s.marginalFee = fee)
    (honward : ∀ a ∈ steps, onward fee a = true)
    (hsafe : Along (Live.step params keys) (fun s a => restartSafe params keys s a = true) s steps)
    (hrun : run (Live.step params keys) s steps = some t) :
    Mirrors t ((steps.flatMap Step.blocks).foldl (Live.syncBlock params keys) u) := by
  induction steps generalizing s u with
  | nil =>
    cases hrun
    exact h
  | cons a steps ih =>
    obtain ⟨v, hv, hrest⟩ := run_cons hrun
    have hrest' := fun c hc => honward c (List.mem_cons_of_mem a hc)
    have ha := honward a (List.mem_cons_self ..)
    have hnext := hsafe.2 v hv
    rcases step_cases hv with ⟨b, rfl, rfl⟩ | ⟨env, rfl, ht⟩ | ⟨rate, rfl, rfl⟩ | ⟨rewound, mtp, rfl, -⟩
    · have hmirrors := h.block hsafe.1
      have hrate : (s.block params keys b).marginalFee = fee := by
        rw [← hmirrors.marginalFee, (scanned_syncBlock params keys u b).rates.2, ← hfee]
        exact h.marginalFee
      exact ih _ _ (hs.block b) hmirrors hrate hrest' hnext hrest
    · have hrate : env.marginalFee = s.marginalFee := by
        rw [hfee]
        simpa [onward] using ha
      have hmirrors : Mirrors v u := h.tipPass hs hrate hsafe.1 ht
      have htrades : Trades keys.toOtpKeys s v := trades_tipPass ht
      exact ih _ _ (hs.trades htrades) hmirrors (by rw [← hmirrors.marginalFee, h.marginalFee, hfee])
        hrest' hnext hrest
    · have hstill : Still s { s with rate := rate } := ⟨rfl, rfl, rfl, rfl, rfl⟩
      have hfirm : Firm { s with rate := rate } := ⟨hs.sound.congr rfl rfl rfl, hs.agrees⟩
      exact ih _ _ hfirm (h.still hstill) hfee hrest' hnext hrest
    · simp [onward] at ha

/-- **A restart rebuilds the market the live process had**, where no memo was held up and no tip pass met
a sale of a seller to herself. -/
theorem restart_rebuilds (params : Params) (keys : Keys) (height : ℕ) (mtp : ℤ) (blocks : List Block)
    (rate fee : Zatoshis) (steps : List Step) {t : Live} (honward : ∀ a ∈ steps, onward fee a = true)
    (hsafe : Along (Live.step params keys) (fun s a => restartSafe params keys s a = true)
      (sync params keys height mtp blocks rate fee) steps)
    (hrun : run (Live.step params keys) (sync params keys height mtp blocks rate fee) steps = some t) :
    (sync params keys height mtp (blocks ++ steps.flatMap Step.blocks) rate fee).bookNow = t.bookNow := by
  have hmirrors := mirrors_run steps _ _ (firm_sync params keys height mtp blocks rate fee)
    (mirrors_sync params keys height mtp blocks rate fee)
    (marginalFee_scan params keys height mtp blocks rate fee) honward hsafe hrun
  have hscan : (steps.flatMap Step.blocks).foldl (Live.syncBlock params keys)
      (scan params keys height mtp blocks rate fee) =
        scan params keys height mtp (blocks ++ steps.flatMap Step.blocks) rate fee := by
    unfold scan
    rw [List.foldl_append]
  rw [hscan] at hmirrors
  calc (sync params keys height mtp (blocks ++ steps.flatMap Step.blocks) rate fee).bookNow
      = (scan params keys height mtp (blocks ++ steps.flatMap Step.blocks) rate fee).bookNow :=
        (mirrors_sync params keys height mtp _ rate fee).bookNow.symm
    _ = t.bookNow := hmirrors.bookNow

/-- What boot makes of the blocks of a run. -/
def restarted (steps : List Step) : Live :=
  sync Params.sample sampleKeys 99 0 (heldBlocks ++ steps.flatMap Step.blocks) .zero .zero

/-- A buy is open, and boot finds it. -/
theorem restart_rebuilds_bought :
    ∃ t, run (Live.step Params.sample sampleKeys) heldSync boughtSteps = some t ∧
      t.market.names = [alice] ∧
      (restarted boughtSteps).bookNow = t.bookNow := by
  have hnames : (run (Live.step Params.sample sampleKeys) heldSync boughtSteps).map
    (fun t => t.market.names) =
      some [alice] := by decide +kernel
  obtain ⟨t, ht, hnames⟩ := Option.map_eq_some_iff.mp hnames
  exact ⟨t, ht, hnames, restart_rebuilds Params.sample sampleKeys 99 0 heldBlocks .zero .zero boughtSteps
    (by decide +kernel) (by decide +kernel) ht⟩

/-- Alice lists her name while its update waits to be confirmed. -/
def heldUpSteps : List Step :=
  [memoStep 30 (.request (.update alice (sampleUa 2) none)), .tipPass sampleEnv,
    memoStep 40 (.response ⟨sampleCode, alice, .update, sampleUa 2, none, none⟩),
    memoStep 50 (.market (.list sampleListing))]

/-- Alice buys her own name and pays. -/
def selfSaleSteps : List Step :=
  boughtSteps.dropLast ++ [memoStep 50 (.market (.buy alice (sampleUa 1))),
    .block ⟨[], 60, [], [(.publicKeyHash (Vector.replicate 20 1), unitRate)]⟩, .tipPass sampleEnv]

/-- The live process refuses the listing and closes the sale; boot opens the challenge and keeps the
sale. -/
theorem restart_rebuilds_parted :
    (∃ t, run (Live.step Params.sample sampleKeys) heldSync heldUpSteps = some t ∧
      (∀ a ∈ heldUpSteps, onward .zero a = true) ∧ (restarted heldUpSteps).bookNow ≠ t.bookNow) ∧
    ∃ t, run (Live.step Params.sample sampleKeys) heldSync selfSaleSteps = some t ∧
      (∀ a ∈ selfSaleSteps, onward .zero a = true) ∧ (restarted selfSaleSteps).bookNow ≠ t.bookNow := by
  constructor
  · have hlen : (run (Live.step Params.sample sampleKeys) heldSync heldUpSteps).map
        (fun t => t.bookNow.challenges.length) = some 0 := by decide +kernel
    obtain ⟨t, ht, hlen⟩ := Option.map_eq_some_iff.mp hlen
    refine ⟨t, ht, by decide +kernel, fun heq => ?_⟩
    have hone : (restarted heldUpSteps).bookNow.challenges.length = 1 := by decide +kernel
    rw [heq, hlen] at hone
    cases hone
  · have hlen : (run (Live.step Params.sample sampleKeys) heldSync selfSaleSteps).map
        (fun t => t.bookNow.sales.length) = some 0 := by decide +kernel
    obtain ⟨t, ht, hlen⟩ := Option.map_eq_some_iff.mp hlen
    refine ⟨t, ht, by decide +kernel, fun heq => ?_⟩
    have hone : (restarted selfSaleSteps).bookNow.sales.length = 1 := by decide +kernel
    rw [heq, hlen] at hone
    cases hone

end ZnsMint.Live
