import ZnsMint.Live.Boot
import ZnsMint.Wallet.RegistryRuns

/-! # The wallet's tables under the loop

The loop decides what it can spend from its `RegistryWallet`; the source asks the wallet's tables. Here
the two run side by side (`Tabled`): each step of the loop with the calls it makes of the wallet, which
are those that the loop's own Registry notes show (`walletOps`). What the loop sees is then what the
tables hold, at every state of every run from boot on, and each transaction it broadcasts spends a note
that the tables hold unspent at that moment. -/

namespace ZnsMint.Live

open Basic Note Registry Wallet Lib.Machine Lib.Simulation

variable {params : Params} {keys : Keys} {s t : Live}

/-! ### What a step does to the Registry's notes -/

/-- A block and the Name Notes accepted from it. -/
def blockOps (params : Params) (s : Live) (b : Block) : List RegistryWallet.Op :=
  .block b.txs (s.tip + 1) ::
    (acceptedNotes params (s.tip + 1) b.mtp s.registry b.txs).map fun e => .nameNote e.1 e.2

/-- What a broadcast records. -/
def sentBy : Event → Option RegistryWallet.Op
  | .broadcast b => some (.sent b.txid b.expiry b.authority)
  | .authorized _ _ _ | .acted _ _ | .broadcastLost _ | .refunded _ | .refundLost _ => none

/-- What a step does to the Registry's notes, in order. -/
def walletOps (params : Params) (keys : Keys) (s : Live) : Step → List RegistryWallet.Op
  | .block b => s.blockOps params b
  | .tipPass env => (s.tipPass params keys env).elim [] fun t =>
    (t.log.drop s.log.length).filterMap sentBy
  | .skipped _ => []
  | .reorg rewound _ => if rewound < s.tip then [.truncate rewound] else []

/-- What boot does to them, block by block. -/
def bootOps (params : Params) (keys : Keys) : Live → List Block → List RegistryWallet.Op
  | _, [] => []
  | s, b :: blocks => s.blockOps params b ++ bootOps params keys (s.syncBlock params keys b) blocks

theorem applyBlock_wallet_ops (params : Params) (s : Live) (b : Block) :
    (s.applyBlock params b).wallet = (s.blockOps params b).foldl RegistryWallet.apply s.wallet := by
  show List.foldl _ _ _ = List.foldl _ (s.wallet.putBlock b.txs (s.tip + 1)) (List.map _ _)
  rw [List.foldl_map]
  rfl

/-- Each transaction recorded spends a note that is unspent at `tip` when it is recorded. -/
def SpendsUnspent (tip : ℕ) (r : RegistryWallet) (l : List RegistryWallet.Op) : Prop :=
  ∀ done txid expiry authority rest, l = done ++ .sent txid expiry authority :: rest →
    (done.foldl RegistryWallet.apply r).unspentNote authority tip = true

theorem spendsUnspent_nil (tip : ℕ) (r : RegistryWallet) : SpendsUnspent tip r [] := by
  rintro done txid expiry authority rest h
  have hlength := congrArg List.length h
  simp at hlength

theorem SpendsUnspent.concat {tip : ℕ} {r : RegistryWallet} {l : List RegistryWallet.Op}
    (h : SpendsUnspent tip r l)
    {txid : TxId} {expiry : ℕ} {authority : Nullifier}
    (hunspent : (l.foldl RegistryWallet.apply r).unspentNote authority tip = true) :
    SpendsUnspent tip r (l ++ [.sent txid expiry authority]) := by
  rintro done txid' expiry' authority' rest heq
  rcases rest.eq_nil_or_concat with rfl | ⟨rest, last, rfl⟩
  · obtain ⟨rfl, hlast⟩ := List.append_inj' heq rfl
    cases hlast
    exact hunspent
  · rw [List.concat_eq_append, ← List.cons_append, ← List.append_assoc] at heq
    exact h done txid' expiry' authority' rest (List.append_inj_left' heq rfl)

/-- What the moves from `s` on have recorded: every broadcast since, each of a note that was unspent. -/
structure Recorded (s : Live) (p : Point) : Prop where
  tip : p.state.tip = s.tip
  log : ∃ new, p.state.log = s.log ++ new ∧
    p.state.wallet = (new.filterMap sentBy).foldl RegistryWallet.apply s.wallet ∧
    SpendsUnspent s.tip s.wallet (new.filterMap sentBy)

namespace Recorded

variable {sends : Sends} {p q : Point}

theorem same (h : Recorded s p) (htip : q.state.tip = p.state.tip) (hlog : q.state.log = p.state.log)
    (hwallet : q.state.wallet = p.state.wallet) : Recorded s q := by
  refine ⟨htip.trans h.tip, ?_⟩
  rw [hlog, hwallet]
  exact h.log

/-- An event that is no broadcast. -/
theorem note (h : Recorded s p) {e : Event} (he : sentBy e = none) (htip : q.state.tip = p.state.tip)
    (hlog : q.state.log = p.state.log ++ [e]) (hwallet : q.state.wallet = p.state.wallet) :
    Recorded s q := by
  obtain ⟨new, hnew, hfold, hspends⟩ := h.log
  have hsame : (new ++ [e]).filterMap sentBy = new.filterMap sentBy := by
    rw [List.filterMap_append, List.filterMap_cons_none he, List.filterMap_nil, List.append_nil]
  refine ⟨htip.trans h.tip, new ++ [e], ?_, ?_, ?_⟩
  · rw [hlog, hnew, List.append_assoc]
  · rw [hwallet, hsame]
    exact hfold
  · rw [hsame]
    exact hspends

theorem move (h : Recorded s p) (hm : Move params sends p q) : Recorded s q := by
  cases hm with
  | authorize sent note e _ _ _ _ => exact h.note rfl rfl rfl rfl
  | drop on l₁ l₂ _ _ _ _ => exact h.note rfl rfl rfl rfl
  | pay r l₁ l₂ _ => exact h.note rfl rfl rfl rfl
  | lost txid e _ he => exact h.note (by cases he <;> rfl) rfl rfl rfl
  | @send u hand looked looking on l₁ l₂ txid nf expiry _ _ _ _ _ _ hspendable =>
    have hacted : Recorded s ⟨u.record (.acted looked on), hand, looking, true⟩ := h.note rfl rfl rfl rfl
    obtain ⟨new, hnew, hfold, hspends⟩ := hacted.log
    have hlast : (new ++ [Event.broadcast ⟨txid, looked, nf, expiry, u.tip⟩]).filterMap sentBy =
        new.filterMap sentBy ++ [.sent txid expiry nf] := List.filterMap_append
    have hunspent : ((new.filterMap sentBy).foldl RegistryWallet.apply s.wallet).unspentNote nf s.tip =
        true := by
      rw [← hfold, ← h.tip]
      exact hspendable
    refine ⟨h.tip, new ++ [Event.broadcast ⟨txid, looked, nf, expiry, u.tip⟩], ?_, ?_, ?_⟩
    · show (u.log ++ [_]) ++ [_] = _
      rw [← List.append_assoc, ← hnew]
      rfl
    · rw [hlast, List.foldl_append, ← hfold]
      rfl
    · rw [hlast]
      exact hspends.concat hunspent
  | _ => exact h.same rfl rfl rfl

theorem refl (s : Live) : Recorded s s.taken := by
  refine ⟨rfl, [], ?_, rfl, spendsUnspent_nil s.tip s.wallet⟩
  rw [List.append_nil]
  rfl

end Recorded

theorem recorded_tipPass {env : TipEnv} (h : s.tipPass params keys env = some t) :
    t.wallet = (s.walletOps params keys (.tipPass env)).foldl RegistryWallet.apply s.wallet ∧
      SpendsUnspent s.tip s.wallet (s.walletOps params keys (.tipPass env)) := by
  have hrecorded : Recorded s ⟨t, [], [], true⟩ :=
    tipPass_invariant (fun _ _ hp hm => hp.move hm) h (.refl s)
  obtain ⟨new, hnew, hfold, hspends⟩ := hrecorded.log
  have hops : s.walletOps params keys (.tipPass env) = new.filterMap sentBy := by
    show (s.tipPass params keys env).elim [] _ = _
    rw [h, Option.elim_some, hnew, List.drop_left]
  rw [hops]
  exact ⟨hfold, hspends⟩

/-- What comes in with a block leaves the wallet to `apply_block`. -/
theorem wallet_block (params : Params) (keys : Keys) (s : Live) (b : Block) :
    (s.block params keys b).wallet = (s.applyBlock params b).wallet := by
  refine block_invariant (I := fun p => p.state.wallet = (s.applyBlock params b).wallet)
    (fun p q hp hm => ?_) rfl
  cases hm with
  | send _ _ _ _ _ _ hbuilt => exact nomatch hbuilt
  | _ => exact hp

/-- **The loop's Registry notes change by what its steps record.** -/
theorem wallet_step {a : Step} (h : s.step params keys a = some t) :
    t.wallet = (s.walletOps params keys a).foldl RegistryWallet.apply s.wallet := by
  rcases step_cases h with ⟨b, rfl, rfl⟩ | ⟨env, rfl, ht⟩ | ⟨rate, rfl, rfl⟩ | ⟨rewound, mtp, rfl,
    ⟨hlt, rfl⟩ | ⟨hle, rfl⟩⟩
  · exact (wallet_block params keys s b).trans (applyBlock_wallet_ops params s b)
  · exact (recorded_tipPass ht).1
  · rfl
  · show _ = (if rewound < s.tip then [RegistryWallet.Op.truncate rewound] else []).foldl _ _
    rw [if_pos hlt]
    rfl
  · show _ = (if rewound < t.tip then [RegistryWallet.Op.truncate rewound] else []).foldl _ _
    rw [if_neg (Nat.not_lt.mpr hle)]
    rfl

/-! ### The tip -/

theorem foldl_tipAfter_nameNotes (l : List (TxId × Nullifier)) (tip : ℕ) :
    (l.map fun e => RegistryWallet.Op.nameNote e.1 e.2).foldl tipAfter tip = tip := by
  induction l with
  | nil => rfl
  | cons e l ih => exact ih

theorem foldl_tipAfter_sentBy (l : List Event) (tip : ℕ) :
    (l.filterMap sentBy).foldl tipAfter tip = tip := by
  induction l with
  | nil => rfl
  | cons e l ih => cases e <;> exact ih

theorem tipAfter_blockOps (params : Params) (s : Live) (b : Block) (tip : ℕ) :
    (s.blockOps params b).foldl tipAfter tip = s.tip + 1 :=
  foldl_tipAfter_nameNotes _ (s.tip + 1)

theorem tipAfter_walletOps {a : Step} (h : s.step params keys a = some t) :
    (s.walletOps params keys a).foldl tipAfter s.tip = t.tip := by
  rcases step_cases h with ⟨b, rfl, rfl⟩ | ⟨env, rfl, ht⟩ | ⟨rate, rfl, rfl⟩ | ⟨rewound, mtp, rfl,
    ⟨hlt, rfl⟩ | ⟨hle, rfl⟩⟩
  · exact (tipAfter_blockOps params s b s.tip).trans (sameTip_block params keys s b).tip.symm
  · show ((s.tipPass params keys env).elim [] _).foldl tipAfter s.tip = t.tip
    rw [ht, Option.elim_some, foldl_tipAfter_sentBy]
    exact (sameTip_tipPass ht).tip.symm
  · rfl
  · show (if rewound < s.tip then [RegistryWallet.Op.truncate rewound] else []).foldl tipAfter s.tip = _
    rw [if_pos hlt]
    rfl
  · show (if rewound < t.tip then [RegistryWallet.Op.truncate rewound] else []).foldl tipAfter t.tip = _
    rw [if_neg (Nat.not_lt.mpr hle)]
    rfl

end ZnsMint.Live

namespace ZnsMint

open Basic Note Registry Wallet Lib.Machine Lib.Simulation

/-! ### The loop over the tables -/

/-- The loop, and the wallet's tables below it. -/
structure Tabled (X : Backend) where
  live : Live
  tables : Wallet X

namespace Tabled

variable {X : Backend} {params : Params} {keys : Keys} {K : Commitments} {R : Reading X} {s t : Tabled X}

/-- A step of the loop, with its calls of the wallet. -/
def step (params : Params) (keys : Keys) (s : Tabled X) (e : Live.Step × List (Op X)) :
    Option (Tabled X) := do
  let live ← s.live.step params keys e.1
  let tables ← run Wallet.step s.tables e.2
  return ⟨live, tables⟩

/-- The calls are the mint's, and they are those of the step. -/
structure Calls (params : Params) (keys : Keys) (K : Commitments) (R : Reading X) (s : Tabled X)
    (e : Live.Step × List (Op X)) : Prop where
  byMint : Along Wallet.step (ByMint K) s.tables e.2
  ops : shownAlong Wallet.step (registryOps K R) s.tables e.2 = s.live.walletOps params keys e.1

instance (params : Params) (keys : Keys) (K : Commitments) (R : Reading X) (s : Tabled X)
    (e : Live.Step × List (Op X)) : Decidable (Calls params keys K R s e) :=
  decidable_of_iff (Along Wallet.step (ByMint K) s.tables e.2 ∧
      shownAlong Wallet.step (registryOps K R) s.tables e.2 = s.live.walletOps params keys e.1)
    ⟨fun ⟨hmint, hops⟩ => ⟨hmint, hops⟩, fun h => ⟨h.byMint, h.ops⟩⟩

/-- The loop's Registry notes are those of the tables, and so is its tip. -/
structure Agrees (K : Commitments) (s : Tabled X) : Prop where
  wellFormed : s.tables.WellFormed
  shows : Shows K s.tables s.live.wallet
  tip : s.tables.tip.blockHeight = s.live.tip

theorem step_eq_some {e : Live.Step × List (Op X)} (h : s.step params keys e = some t) :
    s.live.step params keys e.1 = some t.live ∧ run Wallet.step s.tables e.2 = some t.tables := by
  unfold Tabled.step at h
  obtain ⟨live, hlive, h⟩ := Option.bind_eq_some_iff.mp h
  obtain ⟨tables, htables, h⟩ := Option.bind_eq_some_iff.mp h
  obtain rfl := Option.some.inj h
  exact ⟨hlive, htables⟩

theorem Agrees.step (h : Agrees K s) {e : Live.Step × List (Op X)} (he : Calls params keys K R s e)
    (ht : s.step params keys e = some t) : Agrees K t := by
  obtain ⟨hlive, htables⟩ := step_eq_some ht
  have hshows := shows_run (R := R) h.wellFormed h.shows he.byMint htables
  have htip := tip_run (R := R) h.wellFormed he.byMint htables
  refine ⟨hshows.1, ?_, ?_⟩
  · have hwallet := Live.wallet_step hlive
    rw [hwallet, ← he.ops]
    exact hshows.2
  · rw [htip, he.ops, h.tip]
    exact Live.tipAfter_walletOps hlive

/-! ### Boot -/

theorem sync_wallet (params : Params) (keys : Keys) (blocks : List Block) (s : Live) :
    (blocks.foldl (Live.syncBlock params keys) s).wallet =
      (s.bootOps params keys blocks).foldl RegistryWallet.apply s.wallet := by
  induction blocks generalizing s with
  | nil => rfl
  | cons b blocks ih =>
    have hscanned := Live.scanned_syncBlock params keys s b
    rw [List.foldl_cons, ih, Live.bootOps, List.foldl_append, hscanned.wallet, Live.applyBlock_wallet_ops]

theorem sync_tip (params : Params) (keys : Keys) (blocks : List Block) (s : Live) :
    (blocks.foldl (Live.syncBlock params keys) s).tip =
    (s.bootOps params keys blocks).foldl tipAfter s.tip := by
  induction blocks generalizing s with
  | nil => rfl
  | cons b blocks ih =>
    have hscanned := Live.scanned_syncBlock params keys s b
    rw [List.foldl_cons, ih, Live.bootOps, List.foldl_append, hscanned.sameTip.tip,
      Live.tipAfter_blockOps]
    rfl

/-- What boot hands over: the loop after its blocks, and the tables after the calls for them. -/
def Booted (params : Params) (keys : Keys) (K : Commitments) (R : Reading X) (s : Tabled X) : Prop :=
  ∃ (origin : BlockMetadata) (trees : ShieldedPool → X.Tree)
    (ends : ShieldedPool → Lib.Tables.Table (ℕ × ℕ) ℕ)
    (blocks : List Block) (calls : List (Op X)) (mtp : ℤ) (rate fee : Zatoshis),
    origin.blockHeight ≤ MAX_HEIGHT ∧ s.live =
      Live.sync params keys origin.blockHeight mtp blocks rate fee ∧
      Along Wallet.step (ByMint K) (Wallet.new origin trees ends) calls ∧
      shownAlong Wallet.step (registryOps K R) (Wallet.new origin trees ends) calls =
        (Live.origin origin.blockHeight mtp rate fee).bootOps params keys blocks ∧
      run Wallet.step (Wallet.new origin trees ends) calls = some s.tables

theorem Booted.agrees (h : Booted params keys K R s) : Agrees K s := by
  obtain ⟨origin, trees, ends, blocks, calls, mtp, rate, fee, horigin, hlive, hcalls, hops, hrun⟩ := h
  have hshows := shows_run (R := R) (wellFormed_new horigin trees ends)
    (.new K origin trees ends) hcalls hrun
  have htip := tip_run (R := R) (wellFormed_new horigin trees ends) hcalls hrun
  refine ⟨hshows.1, ?_, ?_⟩
  · have hwallet := sync_wallet params keys blocks (Live.origin origin.blockHeight mtp rate fee)
    rw [← hops] at hwallet
    rw [hlive]
    exact hwallet ▸ hshows.2
  · have hnew : (Wallet.new origin trees ends : Wallet X).tip = origin := by simp [tip, Wallet.new]
    rw [htip, hops, hlive, hnew]
    exact (sync_tip params keys blocks (Live.origin origin.blockHeight mtp rate fee)).symm

/-! ### Every run -/

/-- **What the loop can spend is what the tables hold**, at every state from boot on: their tips are one,
and a claim anchor or a Name Note can be spent by its nullifier exactly where the loop's own notes say so
and no live lock stands on it. -/
theorem unspent_of_booted (h : Booted params keys K R s) {steps : List (Live.Step × List (Op X))}
    (hsteps : Along (Tabled.step params keys) (Calls params keys K R) s steps)
    (hrun : run (Tabled.step params keys) s steps = some t) :
    t.tables.tip.blockHeight = t.live.tip ∧
      ∀ nf target, (t.tables.unspentIronwoodNoteByNullifier REGISTRY_ACCOUNT nf target).map
        ReceivedNote.txid =
        if t.live.wallet.unspentNote nf target && t.tables.unlocked nf target then t.live.wallet.notes
          nf else none := by
  have hagrees : Agrees K t :=
    run_invariant (fun _ _ _ hs he hstep => Agrees.step hs he hstep) steps s t h.agrees hsteps hrun
  exact ⟨hagrees.tip, hagrees.shows.unspent⟩

/-- **A Name Note is broadcast only with a note that the tables hold unspent.** Where a pass tells the
wallet of a transaction that spends a note of the Registry, after the calls it has made before, that note
is unspent at the tip there, unless a lock stands on it. -/
theorem broadcasts_unspent (h : Booted params keys K R s) {steps : List (Live.Step × List (Op X))}
    (hsteps : Along (Tabled.step params keys) (Calls params keys K R) s steps)
    (hrun : run (Tabled.step params keys) s steps = some t) {env : TipEnv} {passed : Live}
    (hpass : t.live.tipPass params keys env = some passed) {before after : List (Op X)}
    {sent : SentTransaction}
    (hcalls : Calls params keys K R t (.tipPass env, before ++ .toBeSent [sent] :: after)) {v : Wallet X}
    (hbefore : run Wallet.step t.tables before = some v) {authority : Nullifier}
    (hmem : authority ∈ sent.tx.nullifiers .ironwood) (hregistry : K.registry authority = true)
    (hfree : v.unlocked authority t.live.tip = true) :
    (v.unspentIronwoodNoteByNullifier REGISTRY_ACCOUNT authority t.live.tip).isSome = true := by
  have hagrees : Agrees K t :=
    run_invariant (fun _ _ _ hs he hstep => Agrees.step hs he hstep) steps s t h.agrees hsteps hrun
  obtain ⟨hdone, hrest⟩ := along_append hcalls.byMint hbefore
  have hshows := (shows_run (R := R) hagrees.wellFormed hagrees.shows hdone hbefore).2
  have hsent : sentOps K sent = [.sent sent.tx.txid sent.tx.expiryHeight authority] := by
    obtain ⟨-, hsole⟩ := hrest.1 sent List.mem_cons_self
    unfold sentOps
    rcases hfind : (sent.tx.nullifiers .ironwood).find? K.registry with - | nf
    · exact absurd hregistry (List.find?_eq_none.mp hfind authority hmem)
    · rw [hsole nf (List.mem_of_find?_eq_some hfind) authority hmem (List.find?_some hfind) hregistry]
      rfl
  have hops := hcalls.ops
  rw [shownAlong_append hbefore] at hops
  have hshown : shownAlong Wallet.step (registryOps K R) v (.toBeSent [sent] :: after) =
      .sent sent.tx.txid sent.tx.expiryHeight authority ::
        shownAlong Wallet.step (registryOps K R) (v.storeTransactionsToBeSent [sent]) after := by
    rw [shownAlong_cons (t := v.storeTransactionsToBeSent [sent]) rfl]
    show (sentOps K sent ++ []) ++ _ = _
    rw [hsent]
    rfl
  rw [hshown] at hops
  have hunspent : (registryRun K R t.tables before t.live.wallet).unspentNote authority t.live.tip =
      true :=
    (Live.recorded_tipPass hpass).2 _ _ _ _ _ hops.symm
  have hview := hshows.unspent authority t.live.tip
  rw [hunspent, hfree, Bool.and_self, if_pos rfl] at hview
  rw [← Option.isSome_map, hview]
  exact (Bool.and_eq_true_iff.mp hunspent).1

/-! ### A small world for concrete runs -/

/-- Every Ironwood note is the Registry's; the claim spends an anchor and the release the Name Note. -/
def sampleCommitments : Commitments where
  reveals txid :=
    if txid = Live.sampleTxid 1 then [⟨0⟩] else if txid = Live.sampleTxid 10 then [⟨50⟩] else []
  registry _ := true

def sampleAliceNote : NameNote := .claim Note.alice (Note.sampleUa 1) (.at 100)

/-- The notes of the Registry are worth nothing, and alice's Name Note is in transaction 1. -/
def sampleReading : Reading sampleBackend where
  noteValue _ := 0
  candidates txid := if txid = Live.sampleTxid 1 then [⟨sampleAliceNote, ⟨50⟩⟩] else []
  expiry txid := if txid = Live.sampleTxid 1 then 140 else 0

def sampleOrigin : BlockMetadata := ⟨99, Vector.replicate 32 0, some 0, some 0, some 0⟩

def sampleRegistryNote (index : ℕ) (nf : ℕ) : WalletOutput sampleBackend :=
  { sampleNote with index := index.toUInt16, nf := some ⟨nf⟩, accountId := REGISTRY_ACCOUNT }

def sampleTx (n : ℕ) (outputs : List (WalletOutput sampleBackend)) (spends : List Nullifier) :
    WalletTx sampleBackend :=
  { sampleIronwoodTx n outputs with spends := fun | .sapling => [] | .ironwood => spends }

/-- Blocks of one Ironwood commitment each, from height 100 on. -/
def sampleBlockAt (height : ℕ) (txs : List (WalletTx sampleBackend)) : ScannedBlock sampleBackend where
  height := height
  blockHash := Vector.replicate 32 height.toUInt8
  transactions := txs
  bundles
    | .ironwood => ⟨[([height], .checkpoint height .none)], height - 99⟩
    | _ => ⟨[], 0⟩

/-- The ceremony. -/
def sampleCeremony : ScannedBlock sampleBackend :=
  sampleBlockAt 100 [sampleTx 0 ((List.range 40).map fun n => sampleRegistryNote n n) []]

/-- The claim, with its successor anchor. -/
def sampleClaim : ScannedBlock sampleBackend :=
  sampleBlockAt 101 [sampleTx 1 [sampleRegistryNote 0 60] [⟨0⟩]]

/-- The claim's Name Note, at the second leaf of the tree. -/
def sampleClaimNote : NameNoteArgs sampleBackend where
  height := 101
  position := 1
  txid := Live.sampleTxid 1
  actionIndex := 1
  note := (101 : ℕ)
  rcm := ⟨⟨0, pallas_order_pos⟩⟩
  psi := 0
  nullifier := ⟨50⟩
  ephemeralKey := Vector.replicate 32 0
  memo := Vector.replicate 512 0

def sampleBootCalls : List (Op sampleBackend) :=
  [samplePut sampleOrigin sampleCeremony, samplePut sampleCeremony.toBlockMetadata sampleClaim,
    .nameNote sampleClaimNote]

def sampleBlocks : List Block :=
  [Live.ceremonyBlock, ⟨[Live.claimTx 1 sampleAliceNote 0 50 60 140], 0, [], []⟩]

def sampleTrees : ShieldedPool → sampleBackend.Tree := fun _ => ([], [(99, 0)])

def sampleTables : Wallet sampleBackend :=
  (run Wallet.step (Wallet.new sampleOrigin sampleTrees fun _ => .empty) sampleBootCalls).get
    (by decide +kernel)

def sampleBooted : Tabled sampleBackend :=
  ⟨Live.sync Params.sample Live.sampleKeys 99 0 sampleBlocks .zero .zero, sampleTables⟩

theorem sampleBooted_booted : Booted Params.sample Live.sampleKeys sampleCommitments sampleReading
    sampleBooted := by
  have hcalls : Along Wallet.step (ByMint sampleCommitments)
    (Wallet.new sampleOrigin sampleTrees fun _ => .empty)
      sampleBootCalls := by decide +kernel
  have hops : shownAlong Wallet.step (registryOps sampleCommitments sampleReading)
      (Wallet.new sampleOrigin sampleTrees fun _ => .empty) sampleBootCalls =
        (Live.origin 99 0 .zero .zero).bootOps Params.sample Live.sampleKeys sampleBlocks := by
          decide +kernel
  have hrun : run Wallet.step (Wallet.new sampleOrigin sampleTrees fun _ => .empty) sampleBootCalls =
      some sampleTables := (Option.some_get _).symm
  exact ⟨sampleOrigin, sampleTrees, fun _ => .empty, sampleBlocks, sampleBootCalls, 0, .zero,
    .zero, by decide, rfl, hcalls,
    hops, hrun⟩

/-- The release, which expires at height 143. -/
def sampleRelease : SentTransaction where
  tx := ⟨Live.sampleTxid 10, 143, fun | .sapling => [] | .ironwood => [⟨50⟩]⟩
  outputs := []

def sampleEnv : TipEnv := { Live.sampleEnv with prepared := fun _ => some (Live.sampleTxid 10) }

/-- Alice's name falls due at height 102. -/
def sampleDue : Live.Step × List (Op sampleBackend) :=
  (.block ⟨[], 200, [], []⟩, [samplePut sampleClaim.toBlockMetadata (sampleBlockAt 102 [])])

/-- The pass there sends its release. -/
def samplePass : Live.Step × List (Op sampleBackend) := (.tipPass sampleEnv, [.toBeSent [sampleRelease]])

def sampleReleased : Tabled sampleBackend :=
  (run (Tabled.step Params.sample Live.sampleKeys) sampleBooted [sampleDue, samplePass]).get
    (by decide +kernel)

/-- The Name Note is blocked until its release expires. -/
theorem unspent_of_booted_release :
    sampleReleased.live.tip = 102 ∧
      (sampleReleased.tables.unspentIronwoodNoteByNullifier REGISTRY_ACCOUNT ⟨50⟩ 143).map
        ReceivedNote.txid = none ∧
      (sampleReleased.tables.unspentIronwoodNoteByNullifier REGISTRY_ACCOUNT ⟨50⟩ 144).map
        ReceivedNote.txid =
        some (Live.sampleTxid 1) := by
  have hrun : run (Tabled.step Params.sample Live.sampleKeys) sampleBooted [sampleDue, samplePass] =
      some sampleReleased := (Option.some_get _).symm
  obtain ⟨htip, hview⟩ := unspent_of_booted sampleBooted_booted (by decide +kernel) hrun
  refine ⟨htip.symm.trans ?_, (hview ⟨50⟩ 143).trans ?_, (hview ⟨50⟩ 144).trans ?_⟩
  · decide +kernel
  · decide +kernel
  · decide +kernel

def sampleDueAt : Tabled sampleBackend :=
  (run (Tabled.step Params.sample Live.sampleKeys) sampleBooted [sampleDue]).get (by decide +kernel)

def samplePassed : Live :=
  (sampleDueAt.live.tipPass Params.sample Live.sampleKeys sampleEnv).get (by decide +kernel)

/-- The release spends the Name Note, which the tables hold unspent at height 102. -/
theorem broadcasts_unspent_release :
    (sampleDueAt.tables.unspentIronwoodNoteByNullifier REGISTRY_ACCOUNT
    ⟨50⟩ sampleDueAt.live.tip).isSome = true := by
  have hrun : run (Tabled.step Params.sample Live.sampleKeys) sampleBooted [sampleDue] =
      some sampleDueAt :=
    (Option.some_get _).symm
  have hpass : sampleDueAt.live.tipPass Params.sample Live.sampleKeys sampleEnv = some samplePassed :=
    (Option.some_get _).symm
  have hcalls : Calls Params.sample Live.sampleKeys sampleCommitments sampleReading sampleDueAt
      (.tipPass sampleEnv, [] ++ .toBeSent [sampleRelease] :: []) := by decide +kernel
  exact broadcasts_unspent sampleBooted_booted (by decide +kernel) hrun hpass hcalls rfl
    List.mem_cons_self rfl
    (by decide +kernel)

end Tabled

end ZnsMint
