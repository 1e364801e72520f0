import ZnsMint.Wallet.Select

/-! # What the wallet reports as spendable

`get_wallet_summary` and `add_note_to_balance` of `src/wallet/read.rs`: every note that is not spent goes
into one part of its account's balance. The balances are another crate's, given by what the wallet does
with them (`BalanceBackend`); of the summary the progress of the scan and the counts of shards are left
out.

The parts are told apart by rules of their own, beside those of selection. `isEligible_iff` says that
they agree note by note, and `spendable_eq_selected` that the value reported as spendable in a pool is
the worth of the notes a selection of all funds takes from it. -/

namespace ZnsMint.Wallet

open Basic Lib.Tables Lib.Collect Lib.Machine

variable {X : Backend}

/-! ### Balances -/

/-- The parts a balance of one pool keeps apart. -/
inductive BalanceKind where
  | uneconomic
  | pendingChange
  | pendingSpendable
  | locked
  | spendable
  deriving DecidableEq

/-- An account's balances: adding to a part of a pool fails where a total leaves the monetary range. -/
structure BalanceBackend where
  Account : Type
  zero : Account
  add : BalanceKind → ShieldedPool → Zatoshis → Account → Option Account
  spendable : Account → ShieldedPool → Zatoshis

/-- The spendable values of an account together are within the monetary range. -/
def BalanceBackend.Bounded (B : BalanceBackend) (b : B.Account) : Prop :=
  (B.spendable b .sapling).val + (B.spendable b .orchard).val + (B.spendable b .ironwood).val ≤ MAX_MONEY

/-- What the crate says of them. -/
structure BalanceLaws (B : BalanceBackend) : Prop where
  zero : ∀ pool, (B.spendable B.zero pool).val = 0
  add : ∀ kind pool value b b', B.add kind pool value b = some b' → ∀ q,
    (B.spendable b' q).val = (B.spendable b q).val + if kind = .spendable ∧ q = pool then value.val else 0
  bounded : ∀ kind pool value b b', B.add kind pool value b = some b' → B.Bounded b'

/-- A balance out of range, or an `expect` of the source that fails. -/
inductive ReadStop where
  | balance
  | panicked
  deriving DecidableEq

structure WalletSummary (B : BalanceBackend) where
  accountBalances : Table AccountId B.Account
  chainTipHeight : ℕ
  fullyScannedHeight : ℕ

/-- Value that waits, as change or not. -/
def BalanceKind.pending (isChange : Bool) : BalanceKind :=
  if isChange then pendingChange else pendingSpendable

section

variable (w : Wallet X) (B : BalanceBackend) (entries : ∀ p, Entries (w.lanes p).notes) (target : ℕ)
  (confirmationsPolicy : ConfirmationsPolicy) (noteValue : X.Note → ℕ) (ufvks : AccountId → Bool)

/-- The part `add_note_to_balance` adds a note to. -/
def balanceKind (id : NoteId) (isChange : Bool) (value : ℕ) : BalanceKind :=
  if value ≤ MARGINAL_FEE then .uneconomic
  else match w.transactionStatuses id.txid with
    | some (.mined mined) =>
      let required := w.requiredConfirmations id.txid isChange confirmationsPolicy
      let confirmed := decide (mined ≤ target - required)
      let locked := (w.locks (.ofNoteId id)).any fun (_, expiry) => decide (target ≤ expiry)
      if !confirmed then .pending isChange else if locked then .locked else .spendable
    | _ => .pending isChange

def addNoteToBalance (balances : Table AccountId B.Account) (account : AccountId) (id : NoteId)
    (isChange : Bool)
    (value : Zatoshis) (pool : ShieldedPool) : Except ReadStop (Table AccountId B.Account) :=
  match balances account with
  | none => .error .panicked
  | some balance =>
    match B.add (w.balanceKind target confirmationsPolicy id isChange value.val) pool value balance with
    | none => .error .balance
    | some balance => .ok (balances.insert account balance)

/-- One note of the loops of `get_wallet_summary`. -/
def addNote (p : OwnedPool) (balances : Table AccountId B.Account) (entry : NoteId × WalletOutput X) :
    Except ReadStop (Table AccountId B.Account) :=
  if w.noteIsSpent p entry.1 target then .ok balances
  else match Zatoshis.fromU64 (noteValue entry.2.note) with
    | none => .error .panicked
    | some value => w.addNoteToBalance B target confirmationsPolicy balances entry.2.accountId entry.1
        (entry.2.isChange || entry.2.recipientKeyScope == some .internal) value p.shielded

/-- The height the summary refers to: chain knowledge, falling back to the applied position. -/
def summaryTip : Option ℕ :=
  match w.zebraTip with
  | some tip => some tip
  | none => if !w.blocks.isEmpty then some w.tip.blockHeight else none

/-- `get_wallet_summary`. -/
def getWalletSummary : Except ReadStop (Option (WalletSummary B)) :=
  match w.summaryTip with
  | none => .ok none
  | some chainTipHeight => do
    let target := nextHeight chainTipHeight
    let seeded : Table AccountId B.Account := fun account => if ufvks account then some B.zero else none
    let balances ← (entries .sapling).list.foldlM
      (w.addNote B target confirmationsPolicy noteValue .sapling) seeded
    let balances ← (entries .ironwood).list.foldlM
      (w.addNote B target confirmationsPolicy noteValue .ironwood) balances
    return some ⟨balances, chainTipHeight, w.tip.blockHeight⟩

/-- What one note adds to the spendable value of an account. -/
def reported (p : OwnedPool) (account : AccountId) (entry : NoteId × WalletOutput X) : ℕ :=
  if entry.2.accountId = account ∧ w.noteIsSpent p entry.1 target = false ∧
      w.balanceKind target confirmationsPolicy entry.1
        (entry.2.isChange || entry.2.recipientKeyScope == some .internal) (noteValue entry.2.note) =
          .spendable then
    noteValue entry.2.note
  else 0

end

variable {w : Wallet X} {B : BalanceBackend} {entries : ∀ p, Entries (w.lanes p).notes} {target : ℕ}
  {confirmationsPolicy : ConfirmationsPolicy} {noteValue : X.Note → ℕ} {ufvks : AccountId → Bool}
    {p : OwnedPool}
  {account : AccountId}

/-! ### The loops -/

/-- What a loop makes of an account's balance: the spendable value of each pool goes up by `raise`. -/
def Raised (B : BalanceBackend) (balances balances' : Table AccountId B.Account) (account : AccountId)
    (raise : ShieldedPool → ℕ) : Prop :=
  ∀ b, balances account = some b → ∃ b', balances' account = some b' ∧ (B.Bounded b → B.Bounded b') ∧
    ∀ q, (B.spendable b' q).val = (B.spendable b q).val + raise q

theorem Raised.refl (balances : Table AccountId B.Account) (account : AccountId) :
    Raised B balances balances account fun _ => 0 :=
  fun b hb => ⟨b, hb, id, fun _ => rfl⟩

theorem Raised.trans {balances balances' balances'' : Table AccountId B.Account}
    {raise raise' : ShieldedPool → ℕ}
    (h : Raised B balances balances' account raise) (h' : Raised B balances' balances'' account raise') :
    Raised B balances balances'' account fun q => raise q + raise' q := by
  intro b hb
  obtain ⟨b', hb', hbound, hraise⟩ := h b hb
  obtain ⟨b'', hb'', hbound', hraise'⟩ := h' b' hb'
  refine ⟨b'', hb'', fun hbd => hbound' (hbound hbd), fun q => ?_⟩
  rw [hraise', hraise, Nat.add_assoc]

theorem addNoteToBalance_raised (hB : BalanceLaws B) {balances balances' : Table AccountId B.Account}
    {owner : AccountId} {id : NoteId} {isChange : Bool} {value : Zatoshis} {pool : ShieldedPool}
    (h : w.addNoteToBalance B target confirmationsPolicy balances owner id isChange value pool =
    .ok balances') :
    Raised B balances balances' account fun q =>
      if owner = account ∧ w.balanceKind target confirmationsPolicy id isChange value.val = .spendable ∧
        q = pool then
        value.val
      else 0 := by
  unfold addNoteToBalance at h
  intro b hb
  rcases howner : balances owner with - | old
  · rw [howner] at h
    exact nomatch h
  · rw [howner] at h
    dsimp only at h
    rcases hadd : B.add (w.balanceKind target confirmationsPolicy id isChange value.val) pool value
      old with - | new
    · rw [hadd] at h
      exact nomatch h
    · rw [hadd] at h
      obtain rfl := Except.ok.inj h
      by_cases hsame : owner = account
      · subst hsame
        obtain rfl := Option.some.inj (howner.symm.trans hb)
        refine ⟨new, Table.insert_same .., fun _ => hB.bounded _ _ _ _ _ hadd, fun q => ?_⟩
        rw [hB.add _ _ _ _ _ hadd]
        simp
      · refine ⟨b, ?_, fun hbound => hbound, fun q => ?_⟩
        · rw [Table.insert_of_ne (Ne.symm hsame)]
          exact hb
        · simp [hsame]

/-- **One note raises what is reported of it, in its pool.** -/
theorem addNote_raised (hB : BalanceLaws B) {balances balances' : Table AccountId B.Account}
    {entry : NoteId × WalletOutput X}
    (h : w.addNote B target confirmationsPolicy noteValue p balances entry = .ok balances') :
    Raised B balances balances' account fun q =>
      if q = p.shielded then w.reported target confirmationsPolicy noteValue p account entry else 0 := by
  unfold addNote at h
  by_cases hspent : w.noteIsSpent p entry.1 target = true
  · rw [if_pos hspent] at h
    obtain rfl := Except.ok.inj h
    have hzero : w.reported target confirmationsPolicy noteValue p account entry = 0 := by
      unfold reported
      rw [hspent]
      simp
    simp only [hzero, ite_self]
    exact .refl balances account
  · rw [if_neg hspent] at h
    rcases hvalue : Zatoshis.fromU64 (noteValue entry.2.note) with - | value
    · rw [hvalue] at h
      exact nomatch h
    · rw [hvalue] at h
      have hval := fromU64_val hvalue
      rw [Bool.not_eq_true] at hspent
      have hraised : Raised B balances balances' account _ := addNoteToBalance_raised hB h
      intro b hb
      obtain ⟨b', hb', hbound, hraise⟩ := hraised b hb
      refine ⟨b', hb', hbound, fun q => ?_⟩
      rw [hraise q, hval, reported, hspent]
      by_cases hq : q = p.shielded
      · simp [hq]
      · simp [hq]

/-- **A pool's loop raises what is reported of all its notes.** -/
theorem addNotes_raised (hB : BalanceLaws B) {balances balances' : Table AccountId B.Account}
    {list : List (NoteId × WalletOutput X)}
    (h : list.foldlM (w.addNote B target confirmationsPolicy noteValue p) balances = .ok balances') :
    Raised B balances balances' account fun q =>
      if q = p.shielded then total (w.reported target confirmationsPolicy noteValue p account)
        list else 0 := by
  induction list generalizing balances with
  | nil =>
    obtain rfl := Except.ok.inj h
    simp only [total_nil, ite_self]
    exact .refl balances account
  | cons entry list ih =>
    rw [List.foldlM_cons] at h
    obtain ⟨mid, hfirst, h⟩ := ok_of_bind h
    have hstep := (show Raised B balances mid account _ from addNote_raised hB hfirst).trans (ih h)
    intro b hb
    obtain ⟨b', hb', hbound, hraise⟩ := hstep b hb
    refine ⟨b', hb', hbound, fun q => ?_⟩
    rw [hraise q, total_cons]
    by_cases hq : q = p.shielded
    · simp [hq]
    · simp [hq]

/-- **What the summary says of a known account**: per pool, the sum of what is reported of its notes. -/
theorem getWalletSummary_spec (hB : BalanceLaws B) {summary : WalletSummary B}
    (h : w.getWalletSummary B entries confirmationsPolicy noteValue ufvks = .ok (some summary))
    (hknown : ufvks account = true) :
    ∃ balance, summary.accountBalances account = some balance ∧ B.Bounded balance ∧
      ∀ p : OwnedPool, (B.spendable balance p.shielded).val = total
        (w.reported (nextHeight summary.chainTipHeight) confirmationsPolicy noteValue p account)
          (entries p).list := by
  unfold getWalletSummary at h
  split at h
  · exact nomatch h
  · obtain ⟨mid, hsapling, h⟩ := ok_of_bind h
    obtain ⟨last, hironwood, h⟩ := ok_of_bind h
    obtain rfl := Option.some.inj (Except.ok.inj h)
    have hraised := (show Raised B _ mid account _ from addNotes_raised hB hsapling).trans
      (addNotes_raised hB hironwood)
    obtain ⟨b, hb, hbound, hraise⟩ := hraised B.zero (if_pos hknown)
    have hzero : B.Bounded B.zero := by
      unfold BalanceBackend.Bounded
      rw [hB.zero, hB.zero, hB.zero]
      exact Nat.zero_le _
    refine ⟨b, hb, hbound hzero, fun p => ?_⟩
    rw [hraise, hB.zero, Nat.zero_add]
    cases p with
    | sapling => exact Nat.add_zero _
    | ironwood => exact Nat.zero_add _

/-! ### The two classifications -/

theorem pending_ne_spendable (isChange : Bool) : BalanceKind.pending isChange ≠ .spendable := by
  cases isChange <;> exact nofun

/-- A note counts as spendable above the fee, with its confirmations and without a live lock. -/
theorem balanceKind_eq_spendable {id : NoteId} {isChange : Bool} {value : ℕ} :
    w.balanceKind target confirmationsPolicy id isChange value = .spendable ↔
      MARGINAL_FEE < value ∧ w.confirmationsSatisfied id.txid isChange target confirmationsPolicy = true ∧
        ((w.locks (.ofNoteId id)).any fun (_, expiry) => decide (target ≤ expiry)) = false := by
  have hpending := pending_ne_spendable isChange
  unfold balanceKind confirmationsSatisfied minedHeight
  by_cases hfee : value ≤ MARGINAL_FEE
  · simp [hfee]
  · rw [if_neg hfee]
    rcases w.transactionStatuses id.txid with - | status
    · simp [hpending]
    · cases status with
      | mined mined =>
        by_cases hdeep : mined ≤ target - w.requiredConfirmations id.txid isChange confirmationsPolicy
        · cases hlive : (w.locks (.ofNoteId id)).any fun (_, expiry) => decide (target ≤ expiry) with
          | true => simp [hdeep]
          | false => simp [hdeep, not_le.mp hfee]
        · simp [hdeep, hpending]
      | notInMainChain => simp [hpending]
      | txidNotRecognized => simp [hpending]

/-- **Selection and balance agree on a note**: one above the fee is eligible, without exclusions and
leaving locked notes alone, exactly if it is not spent and counts as spendable. -/
theorem isEligible_iff {id : NoteId} {output : WalletOutput X}
    (hscope : output.recipientKeyScope.isSome = true) :
    w.isEligible p account target (some confirmationsPolicy) [] (.of (some .exclude)) id output = true ∧
        MARGINAL_FEE < noteValue output.note ↔
      output.accountId = account ∧ w.noteIsSpent p id target = false ∧
        w.balanceKind target confirmationsPolicy id
          (output.isChange || output.recipientKeyScope == some .internal) (noteValue output.note) =
            .spendable := by
  generalize hchange : (output.isChange || output.recipientKeyScope == some .internal) = isChange
  have hlock : w.lockAdmits (.ofNoteId id) target (.of (some .exclude)) =
      !(w.locks (.ofNoteId id)).any fun (_, expiry) => decide (target ≤ expiry) := by
    unfold lockAdmits
    rcases w.locks (.ofNoteId id) with - | ⟨owner, expiry⟩
    · rfl
    · by_cases hlive : expiry < target
      · simp [hlive]
      · simp [hlive, LockFilter.of, LockedInputPolicy.exclude, not_lt.mp hlive]
  unfold isEligible
  rw [balanceKind_eq_spendable, hlock, hscope, hchange]
  simp only [List.contains_nil, Bool.not_false, Bool.and_true, Bool.and_eq_true, decide_eq_true_eq,
    Bool.not_eq_true', Option.all_some]
  tauto

/-! ### The sums -/

/-- A retained note with its scope can be listed, at its value. -/
theorem receivedNote_eq {id : NoteId} {output : WalletOutput X}
    (hnote : (w.lanes p).notes id = some output)
    (hscope : output.recipientKeyScope.isSome = true) :
    ∃ note, w.receivedNote p id = some note ∧ note.note = output.note := by
  obtain ⟨scope, hs⟩ := Option.isSome_iff_exists.mp hscope
  have h : w.receivedNote p id = some ⟨id, id.txid, id.outputIndex, output.note, scope,
      output.noteCommitmentTreePosition, w.minedHeight id.txid⟩ := by
    unfold receivedNote
    rw [hnote, Option.bind_some, hs, Option.map_some]
  exact ⟨_, h, rfl⟩

/-- The eligible notes above the fee are worth what is reported of all notes. -/
theorem total_eligible {list : List (NoteId × WalletOutput X)}
    (hlist : ∀ entry ∈ list, (w.lanes p).notes entry.1 = some entry.2 ∧
    entry.2.recipientKeyScope.isSome = true) :
    total (noteWorth noteValue) (((list.filter fun (id, output) => w.isEligible p account target
        (some confirmationsPolicy) [] (.of (some .exclude)) id output).filterMap fun (id, _) =>
          w.receivedNote p id).filter (aboveFee noteValue)) =
      total (w.reported target confirmationsPolicy noteValue p account) list := by
  induction list with
  | nil => rfl
  | cons entry list ih =>
    obtain ⟨hhead, hrest⟩ := List.forall_mem_cons.mp hlist
    have ih := ih hrest
    obtain ⟨id, output⟩ := entry
    obtain ⟨hnote, hscope⟩ := hhead
    obtain ⟨note, hreceived, hvalue⟩ := receivedNote_eq hnote hscope
    have hzero : ¬ (w.isEligible p account target (some confirmationsPolicy) []
      (.of (some .exclude)) id output = true ∧
        MARGINAL_FEE < noteValue output.note) →
          w.reported target confirmationsPolicy noteValue p account (id, output) = 0 :=
      fun hn => if_neg fun h => hn (isEligible_iff hscope |>.mpr h)
    rw [total_cons, ← ih]
    by_cases he : w.isEligible p account target (some confirmationsPolicy) []
      (.of (some .exclude)) id output = true
    · simp only [List.filter_cons, he, if_true, List.filterMap_cons, hreceived]
      by_cases hfee : MARGINAL_FEE < noteValue output.note
      · have habove : aboveFee noteValue note = true := by
          unfold aboveFee noteWorth
          rw [hvalue]
          exact decide_eq_true hfee
        have hreported : w.reported target confirmationsPolicy noteValue p account (id, output) =
            noteValue output.note := if_pos (isEligible_iff hscope |>.mp ⟨he, hfee⟩)
        rw [if_pos habove, total_cons, hreported, noteWorth, hvalue]
      · have hdust : ¬ aboveFee noteValue note = true := by
          unfold aboveFee noteWorth
          rw [hvalue, decide_eq_true_eq]
          exact hfee
        rw [if_neg hdust, hzero fun h => hfee h.2, Nat.zero_add]
    · rw [hzero fun h => he h.1, Nat.zero_add, List.filter_cons, if_neg he]

/-- **A pool offers for all funds what is reported of its notes.** -/
theorem total_poolNotes (hscope : Every (fun _ output => output.recipientKeyScope.isSome = true)
    (w.lanes p).notes) :
    total (noteWorth noteValue)
        (w.poolNotes entries account target confirmationsPolicy [] (some .exclude) noteValue p) =
      total (w.reported target confirmationsPolicy noteValue p account) (entries p).list := by
  unfold poolNotes eligibleNotes
  rw [total_perm ((List.perm_insertionSort _ _).filter _)]
  refine total_eligible fun entry hentry => ?_
  have hnote := ((entries p).mem_iff entry.1 entry.2).mp hentry
  exact ⟨hnote, hscope _ _ hnote⟩

/-- The notes selected from one pool. -/
def ReceivedNotes.pool (r : ReceivedNotes X) : OwnedPool → List (ReceivedNote X)
  | .sapling => r.sapling
  | .ironwood => r.ironwood

theorem pool_of_append (a b : List (OwnedPool × ReceivedNote X)) :
    (ReceivedNotes.of (a ++ b)).pool p = (ReceivedNotes.of a).pool p ++ (ReceivedNotes.of b).pool p := by
  rw [of_append]
  cases p <;> rfl

/-- Sorting notes into their pools keeps their worth. -/
theorem total_of (offers : List (OwnedPool × ReceivedNote X)) :
    total (worth noteValue) offers = total (noteWorth noteValue)
      ((ReceivedNotes.of offers).pool .sapling) +
      total (noteWorth noteValue) ((ReceivedNotes.of offers).pool .ironwood) := by
  induction offers with
  | nil => rfl
  | cons offer offers ih =>
    obtain ⟨q, note⟩ := offer
    rw [← List.singleton_append, pool_of_append, pool_of_append, total_append, total_append,
      total_append, ih]
    cases q with
    | sapling =>
      show noteWorth noteValue note + 0 + _ = noteWorth noteValue note + 0 + _ + (0 + _)
      omega
    | ironwood =>
      show noteWorth noteValue note + 0 + _ = 0 + _ + (noteWorth noteValue note + 0 + _)
      omega

section

variable {exclude : List NoteId} {policy : Option LockedInputPolicy}

theorem pool_offered_single (source : ShieldedPool) :
    (ReceivedNotes.of (w.offered entries account target confirmationsPolicy exclude policy noteValue
    [source])).pool p =
      if source = p.shielded then w.poolNotes entries account target confirmationsPolicy exclude
        policy noteValue p
      else [] := by
  cases source with
  | sapling =>
    rw [offered_of_owned (show ShieldedPool.sapling.owned = some .sapling from rfl), of_sapling]
    cases p <;> rfl
  | ironwood =>
    rw [offered_of_owned (show ShieldedPool.ironwood.owned = some .ironwood from rfl), of_ironwood]
    cases p <;> rfl
  | orchard => cases p <;> rfl

/-- Of distinct sources each pool is offered once. -/
theorem pool_offered {sources : List ShieldedPool} (hd : sources.Nodup) :
    (ReceivedNotes.of (w.offered entries account target confirmationsPolicy exclude policy noteValue
    sources)).pool p =
      if p.shielded ∈ sources then w.poolNotes entries account target confirmationsPolicy exclude
        policy noteValue p
      else [] := by
  induction sources with
  | nil => cases p <;> rfl
  | cons source sources ih =>
    obtain ⟨hnew, hd⟩ := List.nodup_cons.mp hd
    rw [offered_cons, pool_of_append, pool_offered_single, ih hd]
    by_cases h : source = p.shielded
    · subst h
      simp [hnew]
    · simp [h, Ne.symm h]

end

/-- **Balance and selection never disagree.** Whatever distinct sources a selection of all funds draws
on, it takes from each pool exactly the value the summary reports as spendable there. -/
theorem spendable_eq_selected (hB : BalanceLaws B) (w : Wallet X)
    (entries : ∀ p, Entries (w.lanes p).notes)
    (ufvks : AccountId → Bool) (noteValue : X.Note → ℕ)
    (hscope : ∀ p, Every (fun _ output => output.recipientKeyScope.isSome = true) (w.lanes p).notes)
    (confirmationsPolicy : ConfirmationsPolicy) (summary : WalletSummary B)
    (hsummary : w.getWalletSummary B entries confirmationsPolicy noteValue ufvks = .ok (some summary))
    (account : AccountId) (hknown : ufvks account = true) (sources : List ShieldedPool)
    (hd : sources.Nodup) :
    ∃ balance r, summary.accountBalances account = some balance ∧
      w.selectSpendableNotes entries account (nextHeight summary.chainTipHeight) confirmationsPolicy []
        (some .exclude) noteValue (.allFunds .maxSpendable) ufvks sources = .ok (some r) ∧
        ∀ p : OwnedPool, p.shielded ∈ sources →
          (B.spendable balance p.shielded).val = total (noteWorth noteValue) (r.pool p) := by
  obtain ⟨balance, hbalance, hbound, hspendable⟩ := getWalletSummary_spec hB hsummary hknown
  have hpool : ∀ p : OwnedPool, total (noteWorth noteValue)
      (w.poolNotes entries account (nextHeight summary.chainTipHeight) confirmationsPolicy []
        (some .exclude) noteValue
        p) = (B.spendable balance p.shielded).val := by
    intro p
    rw [hspendable p, total_poolNotes (hscope p)]
  have hall : ∀ a, (TargetValue.allFunds .maxSpendable).takes a = true := fun _ => rfl
  have hfits : total (worth noteValue) (w.offered entries account (nextHeight summary.chainTipHeight)
      confirmationsPolicy [] (some .exclude) noteValue sources) ≤ MAX_MONEY := by
    have hle : ∀ p : OwnedPool, total (noteWorth noteValue) ((ReceivedNotes.of (w.offered entries account
        (nextHeight summary.chainTipHeight) confirmationsPolicy []
          (some .exclude) noteValue sources)).pool p) ≤
          (B.spendable balance p.shielded).val := by
      intro p
      rw [pool_offered hd, ← hpool p]
      split
      · exact le_rfl
      · exact Nat.zero_le _
    have hs := hle .sapling
    have hi := hle .ironwood
    unfold BalanceBackend.Bounded at hbound
    simp only [OwnedPool.shielded] at hs hi
    rw [total_of]
    omega
  obtain ⟨r, hr⟩ := selectSpendableNotes_isOk hknown
    (show TargetValue.allFunds .maxSpendable ≠ .allFunds .everything by simp) hfits
  refine ⟨balance, r, hbalance, hr, fun p hp => ?_⟩
  rw [selectSpendableNotes_spec hknown (by simp) hr, collect_all hall, pool_offered hd,
    if_pos hp, hpool p]

/-! ### One wallet -/

/-- Balances kept part by part; dust is outside the total that is checked. -/
def sampleTotal (b : ShieldedPool → BalanceKind → ℕ) : ℕ :=
  (([.sapling, .orchard, .ironwood] : List ShieldedPool).map fun q =>
    b q .pendingChange + b q .pendingSpendable + b q .locked + b q .spendable).sum

def sampleBalances : BalanceBackend where
  Account := ShieldedPool → BalanceKind → ℕ
  zero _ _ := 0
  add kind pool value b :=
    let raised := fun q k => b q k + if k = kind ∧ q = pool then value.val else 0
    if sampleTotal raised ≤ MAX_MONEY then some raised else none
  spendable b pool := (Zatoshis.fromU64 (b pool .spendable)).getD .zero

theorem sample_spendable_le {b : ShieldedPool → BalanceKind → ℕ} (h : sampleTotal b ≤ MAX_MONEY) :
    (b .sapling .spendable + b .orchard .spendable + b .ironwood .spendable ≤ MAX_MONEY) ∧
      ∀ q, (sampleBalances.spendable b q).val = b q .spendable := by
  have hsum : b .sapling .spendable + b .orchard .spendable + b .ironwood .spendable ≤ MAX_MONEY := by
    simp only [sampleTotal, List.map_cons, List.map_nil, List.sum_cons, List.sum_nil] at h
    omega
  refine ⟨hsum, fun q => ?_⟩
  have hq : b q .spendable ≤ MAX_MONEY := by cases q <;> omega
  show ((Zatoshis.fromU64 (b q .spendable)).getD .zero).val = b q .spendable
  rw [Zatoshis.fromU64, dif_pos hq]
  rfl

theorem sampleBalances_laws : BalanceLaws sampleBalances where
  zero pool := rfl
  add kind pool value b b' h q := by
    obtain ⟨hle, he⟩ := Option.ite_none_right_eq_some.mp h
    obtain rfl := Option.some.inj he
    have hb : sampleTotal b ≤ MAX_MONEY := by
      refine le_trans ?_ hle
      simp only [sampleTotal, List.map_cons, List.map_nil, List.sum_cons, List.sum_nil]
      omega
    rw [(sample_spendable_le hle).2, (sample_spendable_le hb).2]
    simp only [eq_comm]
  bounded kind pool value b b' h := by
    obtain ⟨hle, he⟩ := Option.ite_none_right_eq_some.mp h
    obtain rfl := Option.some.inj he
    unfold BalanceBackend.Bounded
    rw [(sample_spendable_le hle).2, (sample_spendable_le hle).2, (sample_spendable_le hle).2]
    exact (sample_spendable_le hle).1

/-- The notes of either pool that are neither spent, unmined nor locked: 7000, and 9000 and 25000
zatoshis. -/
theorem spendable_eq_selected_one : ∃ summary balance r,
    sampleHolding.getWalletSummary sampleBalances sampleEntries ⟨3, 10⟩ (fun n : ℕ => 1000 * n)
      (fun account => decide (account < 2)) = .ok (some summary) ∧
    summary.accountBalances 0 = some balance ∧
      sampleHolding.selectSpendableNotes sampleEntries 0 (nextHeight summary.chainTipHeight) ⟨3, 10⟩ []
        (some .exclude) (fun n : ℕ => 1000 * n) (.allFunds .maxSpendable)
          (fun account => decide (account < 2))
        [.sapling, .ironwood] = .ok (some r) ∧
        (∀ p : OwnedPool, p.shielded ∈ [ShieldedPool.sapling, .ironwood] →
          (sampleBalances.spendable balance p.shielded).val =
            total (noteWorth fun n : ℕ => 1000 * n) (r.pool p)) ∧
        (sampleBalances.spendable balance .sapling).val = 7000 ∧
          (sampleBalances.spendable balance .ironwood).val = 34000 := by
  obtain ⟨summary, hsummary⟩ : ∃ summary, sampleHolding.getWalletSummary sampleBalances sampleEntries
    ⟨3, 10⟩
      (fun n : ℕ => 1000 * n) (fun account => decide (account < 2)) = .ok (some summary) := ⟨_, rfl⟩
  have hscope : ∀ p, Every (fun _ output => output.recipientKeyScope.isSome = true)
      (sampleHolding.lanes p).notes := by
    intro p
    cases p with
    | sapling =>
      show Every (fun _ output => output.recipientKeyScope.isSome = true) sampleSapling
      unfold sampleSapling
      refine Every.insert (Every.insert (Every.insert Every.empty ?_) ?_) ?_ <;> rfl
    | ironwood =>
      show Every (fun _ output => output.recipientKeyScope.isSome = true) sampleIronwood
      unfold sampleIronwood
      refine Every.insert (Every.insert (Every.insert Every.empty ?_) ?_) ?_ <;> rfl
  obtain ⟨balance, r, hbalance, hr, hequal⟩ :=
    spendable_eq_selected sampleBalances_laws sampleHolding sampleEntries
    (fun account => decide (account < 2)) (fun n : ℕ => 1000 * n) hscope ⟨3, 10⟩ summary hsummary 0 rfl
    [.sapling, .ironwood] (by decide)
  have hvalues : ((sampleHolding.getWalletSummary sampleBalances sampleEntries ⟨3, 10⟩
    (fun n : ℕ => 1000 * n)
      (fun account => decide (account < 2))).toOption.bind fun summary => summary.bind fun summary =>
        (summary.accountBalances 0).map fun balance => ((sampleBalances.spendable balance .sapling).val,
          (sampleBalances.spendable balance .ironwood).val)) = some (7000, 34000) := by
    decide +kernel
  rw [hsummary] at hvalues
  simp only [Except.toOption, Option.bind_some, hbalance, Option.map_some, Option.some.injEq,
    Prod.mk.injEq] at hvalues
  exact ⟨summary, balance, r, hsummary, hbalance, hr, hequal, hvalues⟩

end ZnsMint.Wallet
