import ZnsMint.Wallet.Commit

/-! # The Registry's notes in the wallet's tables

A nullifier leads to the id of a note, and the id to the note with its account and to the transaction
that spends it; the `RegistryWallet` of the loop keeps the transactions alone, under the nullifiers.
Here, over the tables of one pool: what of them the Registry's notes are (`Lane.registryNote`,
`Lane.Shows`), and what becomes of these as notes arrive, are spent, and are dropped with an abandoned
branch. That whole runs keep both wallets together is `Wallet.RegistryRuns`. -/

namespace ZnsMint

open Basic Registry Lib.Tables

/-! ### The smaller wallet as a machine -/

/-- What the loop does with its Registry notes. -/
inductive RegistryWallet.Op where
  | block (txs : List (TxId × ScannedTx)) (height : ℕ)
  | nameNote (txid : TxId) (nf : Nullifier)
  | sent (txid : TxId) (expiry : ℕ) (authority : Nullifier)
  | truncate (height : ℕ)
  deriving DecidableEq

def RegistryWallet.apply (r : RegistryWallet) : RegistryWallet.Op → RegistryWallet
  | .block txs height => r.putBlock txs height
  | .nameNote txid nf => r.storeNameNote (txid, nf)
  | .sent txid expiry authority => r.recordSent txid expiry authority
  | .truncate height => r.truncateTo height

theorem RegistryWallet.orphaned_iff {r : RegistryWallet} {height : ℕ} {txid : TxId} :
    r.orphaned height txid = true ↔ ∃ m, r.statuses txid = some (.mined m) ∧ height < m := by
  unfold RegistryWallet.orphaned
  rcases r.statuses txid with - | ⟨m⟩ | - | - <;> simp

/-- Only the nullifiers of notes held count as spends. -/
theorem RegistryWallet.spend_congr {r : RegistryWallet} {nfs l : List Nullifier} (txid : TxId)
    (h : ∀ nf, (r.notes nf).isSome = true → (nf ∈ nfs ↔ nf ∈ l)) : r.spend txid nfs = r.spend txid l := by
  have hspends : ∀ nf, (nf ∈ nfs ∧ (r.notes nf).isSome = true) = (nf ∈ l ∧ (r.notes nf).isSome = true) :=
    fun nf => propext (and_congr_left (h nf))
  unfold RegistryWallet.spend
  simp only [hspends]

theorem RegistryWallet.spend_nil (r : RegistryWallet) (txid : TxId) : r.spend txid [] = r := by
  unfold RegistryWallet.spend
  simp

namespace Wallet

variable {X : Backend}

/-! ### A note by its nullifier -/

/-- One Ironwood note selectable at `tip`. No lock is overridden. -/
def unspentIronwoodNote (w : Wallet X) (account : AccountId) (id : NoteId) (tip : ℕ) :
    Option (ReceivedNote X) :=
  ((w.lanes .ironwood).notes id).bind fun output =>
    if output.accountId = account ∧ !w.ironwoodNoteIsSpent id tip ∧
        w.lockAdmits (.ofNoteId id) tip (.policy fun _ => false) then
      w.receivedNote .ironwood id
    else none

/-- An unspent owned Ironwood note, by the exact nullifier it reveals when spent. -/
def unspentIronwoodNoteByNullifier (w : Wallet X) (account : AccountId) (nf : Nullifier) (tip : ℕ) :
    Option (ReceivedNote X) :=
  ((w.lanes .ironwood).nullifiers nf).bind fun id => w.unspentIronwoodNote account id tip

/-- No live lock stands on the note that this nullifier identifies. -/
def unlocked (w : Wallet X) (nf : Nullifier) (tip : ℕ) : Bool :=
  ((w.lanes .ironwood).nullifiers nf).all fun id =>
    w.lockAdmits (.ofNoteId id) tip (.policy fun _ => false)

/-! ### What the pass over a block reads -/

/-- What the pass over a block knows of notes and transactions besides their scan: values, the Name Notes
opened in a transaction, and expiry heights. -/
structure Reading (X : Backend) where
  noteValue : X.Note → ℕ
  candidates : TxId → List Candidate
  expiry : TxId → ℕ

/-- What the confirmation pass reads of a scanned transaction: the Ironwood nullifiers it reveals and
what it pays the Registry, with its Name Notes and its expiry height. -/
def WalletTx.scannedTx (R : Reading X) (tx : WalletTx X) : TxId × ScannedTx :=
  (tx.txid,
    { nfs := tx.spends .ironwood
      registryOutputs := ((tx.outputs .ironwood).filter fun output =>
        decide (output.accountId = REGISTRY_ACCOUNT)).map
        fun output => ⟨R.noteValue output.note, output.nf⟩
      notes := R.candidates tx.txid
      expiry := R.expiry tx.txid })

/-- The Ironwood notes of a transaction, by their ids. -/
def WalletTx.received (tx : WalletTx X) : List (NoteId × WalletOutput X) :=
  (tx.outputs .ironwood).map fun output => (tx.noteId .ironwood output, output)

/-- The Ironwood notes of a block. -/
def ScannedBlock.received (block : ScannedBlock X) : List (NoteId × WalletOutput X) :=
  block.transactions.flatMap WalletTx.received

/-! ### The tables of one pool -/

namespace Lane

variable {lane : Lane X}

/-- The note of the Registry account that a nullifier identifies. -/
def registryNote (lane : Lane X) (nf : Nullifier) : Option NoteId :=
  (lane.nullifiers nf).filter fun id => (lane.notes id).any fun output =>
    decide (output.accountId = REGISTRY_ACCOUNT)

/-- The notes and the nullifiers name each other, spends are of notes held, and the scanner named the
scope of every key. -/
structure Linked (lane : Lane X) : Prop where
  indexed : lane.Indexed
  identifies : Every (fun nf id => ∃ output, lane.notes id = some output ∧ output.nf = some nf)
    lane.nullifiers
  spent : Every (fun id _ => (lane.notes id).isSome = true) lane.noteSpends
  scopes : Every (fun _ output => output.recipientKeyScope.isSome = true) lane.notes

/-- The smaller wallet keeps these tables' Registry notes and the spends of them. -/
structure Shows (lane : Lane X) (r : RegistryWallet) : Prop where
  notes : ∀ nf, r.notes nf = (lane.registryNote nf).map NoteId.txid
  noteSpends : ∀ nf, r.noteSpends nf = (lane.registryNote nf).bind lane.noteSpends

/-- Notes that are all new here: no id and no nullifier among them is another's. -/
structure Admits (lane : Lane X) (l : List (NoteId × WalletOutput X)) : Prop where
  once : (l.map Prod.fst).Nodup
  distinct : (l.filterMap fun e => e.2.nf).Nodup
  newIds : ∀ e ∈ l, lane.notes e.1 = none
  newNfs : ∀ e ∈ l, ∀ nf ∈ e.2.nf, lane.nullifiers nf = none
  scopes : ∀ e ∈ l, e.2.recipientKeyScope.isSome = true

theorem registryNote_eq_some {nf : Nullifier} {id : NoteId} :
    lane.registryNote nf = some id ↔
      lane.nullifiers nf = some id ∧ ∃ output, lane.notes id = some output ∧ output.accountId =
        REGISTRY_ACCOUNT := by
  unfold registryNote
  rw [Option.filter_eq_some_iff]
  refine and_congr_right fun _ => ?_
  rcases lane.notes id with - | output
  · simp
  · simp

theorem registryNote_eq_none_of {nf : Nullifier} (h : lane.nullifiers nf = none) :
    lane.registryNote nf = none := by
  unfold registryNote
  rw [h]
  rfl

/-- Two nullifiers never identify the same note. -/
theorem Linked.injective (h : lane.Linked) {nf nf' : Nullifier} {id : NoteId}
    (hnf : lane.nullifiers nf = some id)
    (hnf' : lane.nullifiers nf' = some id) : nf = nf' := by
  obtain ⟨output, houtput, heq⟩ := h.identifies nf id hnf
  obtain ⟨output', houtput', heq'⟩ := h.identifies nf' id hnf'
  rw [houtput] at houtput'
  obtain rfl := Option.some.inj houtput'
  rw [heq] at heq'
  exact Option.some.inj heq'

theorem Linked.empty : (⟨.empty, .empty, .empty⟩ : Lane X).Linked := ⟨.empty, .empty, .empty, .empty⟩

theorem Shows.new : (⟨.empty, .empty, .empty⟩ : Lane X).Shows .new := ⟨fun _ => rfl, fun _ => rfl⟩

/-! ### A note arrives -/

section Receive

variable {id : NoteId} {output : WalletOutput X}

theorem nullifiers_receive (lane : Lane X) (id : NoteId) (output : WalletOutput X) (nf : Nullifier) :
    (lane.receive id output).nullifiers nf = if output.nf =
    some nf then some id else lane.nullifiers nf := by
  unfold receive
  rcases output.nf with - | nf'
  · rfl
  · simp only [Option.some.injEq]
    by_cases hnf : nf' = nf
    · rw [if_pos hnf, hnf]
      exact Table.insert_same ..
    · rw [if_neg hnf]
      exact Table.insert_of_ne (Ne.symm hnf)

theorem Linked.receive (h : lane.Linked) (hid : lane.notes id = none)
    (hnf : ∀ nf ∈ output.nf, lane.nullifiers nf = none)
    (hscope : output.recipientKeyScope.isSome = true) :
    (lane.receive id output).Linked where
  indexed := by
    intro id' output' hnote nf hnf'
    rw [notes_receive] at hnote
    rw [nullifiers_receive]
    rcases Table.insert_eq_some.mp hnote with ⟨rfl, rfl⟩ | ⟨hne, hnote⟩
    · rw [if_pos hnf']
    · have hfound : lane.nullifiers nf = some id' := h.indexed id' output' hnote nf hnf'
      rw [if_neg]
      · exact hfound
      · intro heq
        rw [hnf nf heq] at hfound
        exact nomatch hfound
  identifies := by
    intro nf id' hid'
    rw [notes_receive]
    rw [nullifiers_receive] at hid'
    split_ifs at hid' with heq
    · obtain rfl := Option.some.inj hid'
      exact ⟨output, Table.insert_same .., heq⟩
    · obtain ⟨output', hnote, hnf'⟩ := h.identifies nf id' hid'
      refine ⟨output', ?_, hnf'⟩
      rw [Table.insert_of_ne]
      · exact hnote
      · rintro rfl
        rw [hid] at hnote
        exact nomatch hnote
  spent := h.spent.mono fun _ _ => isSome_receive
  scopes := h.scopes.insert hscope

/-- A new note of the Registry is found under its nullifier, and nothing else changes. -/
theorem registryNote_receive (h : lane.Linked) (hid : lane.notes id = none)
    (hnf : ∀ nf ∈ output.nf, lane.nullifiers nf = none) (nf : Nullifier) :
    (lane.receive id output).registryNote nf =
      if output.nf = some nf ∧ output.accountId =
        REGISTRY_ACCOUNT then some id else lane.registryNote nf := by
  unfold registryNote
  rw [nullifiers_receive, notes_receive]
  by_cases heq : output.nf = some nf
  · simp only [heq, if_true, true_and]
    rw [hnf nf heq]
    by_cases haccount : output.accountId = REGISTRY_ACCOUNT
    · simp [Option.filter_some, haccount]
    · simp [Option.filter_some, haccount]
  · simp only [heq, if_false, false_and]
    rcases hold : lane.nullifiers nf with - | id'
    · rfl
    · obtain ⟨output', hnote, -⟩ := h.identifies nf id' hold
      have hne : id' ≠ id := by
        rintro rfl
        rw [hid] at hnote
        exact Option.some_ne_none _ hnote.symm
      rw [Option.filter_some, Option.filter_some, Table.insert_of_ne hne]

theorem Admits.receive {l : List (NoteId × WalletOutput X)} {e : NoteId × WalletOutput X}
    (h : lane.Admits (e :: l)) :
    (lane.receive e.1 e.2).Admits l := by
  have honce := h.once
  have hdistinct := h.distinct
  rw [List.map_cons, List.nodup_cons] at honce
  refine ⟨honce.2, ?_, fun e' he' => ?_, fun e' he' nf hnf => ?_, fun e' he' =>
    h.scopes e' (List.mem_cons_of_mem _ he')⟩
  · rw [List.filterMap_cons] at hdistinct
    split at hdistinct
    · exact hdistinct
    · exact (List.nodup_cons.mp hdistinct).2
  · have hne : e'.1 ≠ e.1 := by
      intro heq
      exact honce.1 (heq ▸ List.mem_map_of_mem he')
    rw [notes_receive, Table.insert_of_ne hne]
    exact h.newIds e' (List.mem_cons_of_mem _ he')
  · rw [nullifiers_receive, if_neg]
    · exact h.newNfs e' (List.mem_cons_of_mem _ he') nf hnf
    · intro heq
      rw [List.filterMap_cons_some (f := fun e : NoteId × WalletOutput X => e.2.nf) heq,
        List.nodup_cons] at hdistinct
      exact hdistinct.1 (List.mem_filterMap.mpr ⟨e', he', hnf⟩)

end Receive

/-- The notes of a transaction arrive one by one. -/
def receiveAll (lane : Lane X) (l : List (NoteId × WalletOutput X)) : Lane X :=
  l.foldl (fun lane e => lane.receive e.1 e.2) lane

theorem Admits.left {l l' : List (NoteId × WalletOutput X)} (h : lane.Admits (l ++ l')) :
    lane.Admits l where
  once := by
    have honce := h.once
    rw [List.map_append] at honce
    exact (List.nodup_append.mp honce).1
  distinct := by
    have hdistinct := h.distinct
    rw [List.filterMap_append] at hdistinct
    exact (List.nodup_append.mp hdistinct).1
  newIds e he := h.newIds e (List.mem_append_left _ he)
  newNfs e he := h.newNfs e (List.mem_append_left _ he)
  scopes e he := h.scopes e (List.mem_append_left _ he)

theorem Admits.receiveAll {l l' : List (NoteId × WalletOutput X)} (h : lane.Admits (l ++ l')) :
    (lane.receiveAll l).Admits l' := by
  induction l generalizing lane with
  | nil => exact h
  | cons e l ih => exact ih h.receive

theorem Linked.receiveAll {l : List (NoteId × WalletOutput X)} (h : lane.Linked) (hl : lane.Admits l) :
    (lane.receiveAll l).Linked := by
  induction l generalizing lane with
  | nil => exact h
  | cons e l ih =>
    have hnew := h.receive (hl.newIds e List.mem_cons_self) (hl.newNfs e List.mem_cons_self)
      (hl.scopes e List.mem_cons_self)
    exact ih hnew hl.receive

theorem noteSpends_receiveAll (lane : Lane X) (l : List (NoteId × WalletOutput X)) :
    (lane.receiveAll l).noteSpends = lane.noteSpends :=
  List.foldlRecOn l _ (motive := fun lane' : Lane X => lane'.noteSpends = lane.noteSpends) rfl
    fun _ h _ _ => h

/-- The notes of one transaction, by their nullifiers: those of the Registry are found, and nothing else
changes. -/
theorem registryNote_receiveAll {l : List (NoteId × WalletOutput X)} {txid : TxId} (h : lane.Linked)
    (hl : lane.Admits l) (hids : ∀ e ∈ l, e.1.txid = txid) (nf : Nullifier) :
    ((lane.receiveAll l).registryNote nf).map NoteId.txid =
      if ∃ e ∈ l, e.2.nf = some nf ∧ e.2.accountId = REGISTRY_ACCOUNT then some txid
      else (lane.registryNote nf).map NoteId.txid := by
  induction l generalizing lane with
  | nil => simp [Lane.receiveAll]
  | cons e l ih =>
    have hid := hl.newIds e List.mem_cons_self
    have hnf := hl.newNfs e List.mem_cons_self
    have hnew := h.receive hid hnf (hl.scopes e List.mem_cons_self)
    have hrest := ih hnew hl.receive fun e' he' => hids e' (List.mem_cons_of_mem _ he')
    rw [registryNote_receive h hid hnf] at hrest
    refine hrest.trans ?_
    by_cases hl' : ∃ e ∈ l, e.2.nf = some nf ∧ e.2.accountId = REGISTRY_ACCOUNT
    · obtain ⟨e', he', hmatch⟩ := hl'
      rw [if_pos ⟨e', he', hmatch⟩, if_pos ⟨e', List.mem_cons_of_mem _ he', hmatch⟩]
    · rw [if_neg hl']
      by_cases he : e.2.nf = some nf ∧ e.2.accountId = REGISTRY_ACCOUNT
      · rw [if_pos he, if_pos ⟨e, List.mem_cons_self, he⟩, Option.map_some, hids e List.mem_cons_self]
      · rw [if_neg he, if_neg]
        rintro ⟨e', he', hmatch⟩
        rcases List.mem_cons.mp he' with rfl | he'
        · exact he hmatch
        · exact hl' ⟨e', he', hmatch⟩

/-- No spend of a note that has just arrived is on record. -/
theorem spends_receiveAll {l : List (NoteId × WalletOutput X)} (h : lane.Linked) (hl : lane.Admits l)
    (nf : Nullifier) :
    ((lane.receiveAll l).registryNote nf).bind (lane.receiveAll l).noteSpends =
      (lane.registryNote nf).bind lane.noteSpends := by
  rw [noteSpends_receiveAll]
  induction l generalizing lane with
  | nil => rfl
  | cons e l ih =>
    have hid := hl.newIds e List.mem_cons_self
    have hnf := hl.newNfs e List.mem_cons_self
    have hnew := h.receive hid hnf (hl.scopes e List.mem_cons_self)
    refine (ih hnew hl.receive).trans ?_
    rw [registryNote_receive h hid hnf]
    split_ifs with he
    · rw [registryNote_eq_none_of (hnf nf he.1), Option.bind_some, Option.bind_none]
      refine Option.eq_none_iff_forall_ne_some.mpr fun spender hspender => ?_
      have hheld : (lane.notes e.1).isSome = true := h.spent e.1 spender hspender
      rw [hid] at hheld
      exact nomatch hheld
    · rfl

/-! ### Notes are spent -/

theorem notes_spend (lane : Lane X) (txid : TxId) (nf : Nullifier) : (lane.spend txid nf).notes =
    lane.notes := by
  unfold spend
  split <;> rfl

theorem registryNote_spend (lane : Lane X) (txid : TxId) (nf nf' : Nullifier) :
    (lane.spend txid nf).registryNote nf' = lane.registryNote nf' := by
  unfold registryNote
  rw [notes_spend, nullifiers_spend]

theorem Linked.spend (h : lane.Linked) (txid : TxId) (nf : Nullifier) : (lane.spend txid nf).Linked := by
  refine ⟨?_, ?_, ?_, ?_⟩
  · unfold Indexed
    rw [notes_spend, nullifiers_spend]
    exact h.indexed
  · rw [notes_spend, nullifiers_spend]
    exact h.identifies
  · rw [notes_spend]
    unfold Lane.spend
    split
    · rename_i id hid
      obtain ⟨output, houtput, -⟩ := h.identifies nf id hid
      refine h.spent.insert ?_
      rw [houtput]
      rfl
    · exact h.spent
  · rw [notes_spend]
    exact h.scopes

/-- The spends on record of the Registry's notes, after the nullifiers of one transaction. -/
theorem spends_spendAll (h : lane.Linked) (txid : TxId) (nfs : List Nullifier) (nf : Nullifier) :
    (lane.registryNote nf).bind (nfs.foldl (Lane.spend txid) lane).noteSpends =
      if nf ∈ nfs ∧ (lane.registryNote nf).isSome = true then some txid
      else (lane.registryNote nf).bind lane.noteSpends := by
  rcases hnote : lane.registryNote nf with - | id
  · simp
  have hnf := (registryNote_eq_some.mp hnote).1
  simp only [Option.bind_some, Option.isSome_some, and_true]
  induction nfs generalizing lane with
  | nil => simp
  | cons nf' nfs ih =>
    have hrest := ih (h.spend txid nf') ((registryNote_spend lane txid nf' nf).trans hnote)
      (by rw [nullifiers_spend]; exact hnf)
    refine hrest.trans ?_
    by_cases hmem : nf ∈ nfs
    · rw [if_pos hmem, if_pos (List.mem_cons_of_mem _ hmem)]
    · rw [if_neg hmem]
      by_cases heq : nf = nf'
      · subst heq
        rw [if_pos List.mem_cons_self]
        unfold Lane.spend
        rw [hnf]
        exact Table.insert_same ..
      · rw [if_neg (by simp [heq, hmem])]
        unfold Lane.spend
        split
        · rename_i id' hid'
          refine Table.insert_of_ne ?_
          rintro rfl
          exact heq (h.injective hnf hid')
        · rfl

theorem registryNote_spendAll (lane : Lane X) (txid : TxId) (nfs : List Nullifier) (nf : Nullifier) :
    (nfs.foldl (Lane.spend txid) lane).registryNote nf = lane.registryNote nf :=
  List.foldlRecOn nfs _ (motive := fun lane' : Lane X => lane'.registryNote nf = lane.registryNote nf) rfl
    fun lane' h nf' _ => (registryNote_spend lane' txid nf' nf).trans h

theorem Linked.spendAll (h : lane.Linked) (txid : TxId) (nfs : List Nullifier) :
    (nfs.foldl (Lane.spend txid) lane).Linked :=
  List.foldlRecOn nfs _ (motive := Linked) h fun _ h nf _ => h.spend txid nf

/-- Both wallets record the spends of one transaction. -/
theorem Shows.spend {r : RegistryWallet} (hs : lane.Shows r) (h : lane.Linked) (txid : TxId)
    (nfs : List Nullifier) :
    (nfs.foldl (Lane.spend txid) lane).Shows (r.spend txid nfs) where
  notes nf := by
    rw [registryNote_spendAll]
    exact hs.notes nf
  noteSpends nf := by
    rw [registryNote_spendAll, spends_spendAll h]
    show (if nf ∈ nfs ∧ (r.notes nf).isSome = true then some txid else r.noteSpends nf) = _
    rw [hs.notes, hs.noteSpends, Option.isSome_map]

/-! ### A branch is abandoned -/

theorem registryNote_dropOrphaned (lane : Lane X) (orphaned scannedOnly : TxId → Bool) (nf : Nullifier) :
    (lane.dropOrphaned orphaned scannedOnly).registryNote nf =
      (lane.registryNote nf).filter fun id => !orphaned id.txid := by
  refine Option.ext fun id => ?_
  rw [registryNote_eq_some, Option.filter_eq_some_iff, registryNote_eq_some]
  unfold dropOrphaned
  simp only [Table.retain_eq_some]
  constructor
  · rintro ⟨⟨hnf, hkept⟩, output, ⟨hnote, -⟩, haccount⟩
    exact ⟨⟨hnf, output, hnote, haccount⟩, hkept⟩
  · rintro ⟨⟨hnf, output, hnote, haccount⟩, hkept⟩
    exact ⟨⟨hnf, hkept⟩, output, ⟨hnote, hkept⟩, haccount⟩

/-- The spends on record of the Registry's notes that stay, but for those that were only scanned. -/
theorem spends_dropOrphaned (orphaned scannedOnly : TxId → Bool) (nf : Nullifier) :
    ((lane.dropOrphaned orphaned scannedOnly).registryNote nf).bind
    (lane.dropOrphaned orphaned scannedOnly).noteSpends =
      if ((lane.registryNote nf).filter fun id => !orphaned id.txid).isSome then
        ((lane.registryNote nf).bind lane.noteSpends).filter fun txid => !scannedOnly txid
      else none := by
  rw [registryNote_dropOrphaned lane]
  rcases hid : lane.registryNote nf with - | id
  · rfl
  obtain ⟨output, hnote, -⟩ := (registryNote_eq_some.mp hid).2
  simp only [Option.filter, Option.bind_some]
  split_ifs with hkept
  · have hheld : (lane.notes.retain (fun id _ => !orphaned id.txid) id).isSome = true :=
      Table.retain_isSome_of (p := fun id _ => !orphaned id.txid) hnote hkept
    show (lane.noteSpends id).filter _ = (lane.noteSpends id).filter _
    simp only [hheld, Bool.true_and]
  · simp_all
  · simp_all
  · rfl

theorem Linked.dropOrphaned (h : lane.Linked) (orphaned scannedOnly : TxId → Bool) :
    (lane.dropOrphaned orphaned scannedOnly).Linked where
  indexed := by
    intro id output hnote nf hnf
    obtain ⟨hnote, hkept⟩ := (Table.retain_eq_some (t := lane.notes)
      (p := fun id _ => !orphaned id.txid)).mp hnote
    exact (Table.retain_eq_some (t := lane.nullifiers)
      (p := fun _ (id : NoteId) => !orphaned id.txid)).mpr
      ⟨h.indexed id output hnote nf hnf, hkept⟩
  identifies := by
    intro nf id hid
    obtain ⟨hid, hkept⟩ :=
      (Table.retain_eq_some (t := lane.nullifiers) (p := fun _ (id : NoteId) => !orphaned id.txid)).mp hid
    obtain ⟨output, hnote, hnf⟩ := h.identifies nf id hid
    exact ⟨output, (Table.retain_eq_some (t := lane.notes) (p := fun id _ => !orphaned id.txid)).mpr
      ⟨hnote, hkept⟩, hnf⟩
  spent := h.spent.retain.mono fun _ _ hs => (Bool.and_eq_true_iff.mp hs.2).1
  scopes := h.scopes.retain.mono fun _ _ hs => hs.1

end Lane

end Wallet

end ZnsMint
