import ZnsMint.Note.Codec
import ZnsMint.Wallet.Trees
import ZnsMint.Wallet.Spends
import ZnsMint.Lib.Machine

/-! # The Name Notes of a block

`decrypt_name_notes` (`src/mint/note.rs`) opens every Ironwood action of a block under the Registry's
key, and counts the actions as it goes: the count is the place of the note's commitment in the block.
What an action opens to belongs to `orchard`, and is a parameter here (`NoteDomain`). The scan panics on
no block, and finds the Name Notes of the block, each at its place (`Located`), and no others. -/

namespace ZnsMint.Wallet

open Basic Note Lib.Machine

/-! ### The scan -/

/-- The actions of an Ironwood bundle, and what they open to under the Registry's key. `tryDecrypt` is
the ZNS domain's, and `znsNullifier` that of the Registry's viewing key. -/
structure NoteDomain (X : Backend) where
  Action : Type
  Recipient : Type
  decRecipient : DecidableEq Recipient
  cmx : Action → X.Node
  ephemeralKey : Action → Vector UInt8 32
  tryDecrypt : Action → Option (X.Note × Recipient × MemoBytes)
  value : X.Note → ℕ
  registryRecipient : Recipient
  znsNullifier : X.Note → NameCommitment → ℕ → Option Nullifier

variable {X : Backend}

instance (D : NoteDomain X) : DecidableEq D.Recipient := D.decRecipient

structure IronwoodBundle (D : NoteDomain X) where
  ironwoodV3 : Bool
  outputsEnabled : Bool
  actions : List D.Action

/-- What a block says of a transaction, before it is scanned. -/
structure BlockTx (D : NoteDomain X) where
  txid : TxId
  expiryHeight : ℕ
  ironwoodBundle : Option (IronwoodBundle D)

/-- A Name Note of a block: the action that carries it, by its place in the bundle and in the block, and
what it opened to. -/
structure DecryptedNameNote (X : Backend) where
  txid : TxId
  actionIndex : ℕ
  ordinal : ℕ
  cmx : X.Node
  note : X.Note
  nullifier : Nullifier
  ephemeralKey : Vector UInt8 32
  memo : MemoBytes
  payload : NameNote

variable {D : NoteDomain X} {params : Wire}

/-- One action: a Name Note if its memo reads as one and its commitment is the one the memo makes, of no
value and to the Registry's address. It panics where the memo does, or where a note that is authentic has
no nullifier. -/
def decryptAction (D : NoteDomain X) (params : Wire) (txid : TxId) (actionIndex ordinal : ℕ)
    (action : D.Action) :
    Option (Option (DecryptedNameNote X)) :=
  match D.tryDecrypt action with
  | none => some none
  | some (note, recipient, memo) =>
    match Codec.NameNote.decode params memo with
    | none => none
    | some none => some none
    | some (some payload) =>
      let rcm := payload.commitment params.toParams
      let psi := (Preimage.psi params.toParams payload).val
      if X.znsCmx note rcm psi = some (D.cmx action) ∧ D.value note = 0 ∧ recipient =
        D.registryRecipient then
        (D.znsNullifier note rcm psi).map fun nullifier => some
          { txid, actionIndex, ordinal, cmx := D.cmx action, note, nullifier,
            ephemeralKey := D.ephemeralKey action, memo, payload }
      else some none

/-- One turn over a bundle. Every action is counted, and those that ZNS allows for are opened. -/
def scanAction (D : NoteDomain X) (params : Wire) (txid : TxId) (znsCapable : Bool)
    (found : List (DecryptedNameNote X) × ℕ) (e : D.Action × ℕ) :
    Option (List (DecryptedNameNote X) × ℕ) :=
  if znsCapable then
    (decryptAction D params txid e.2 found.2 e.1).map fun candidate =>
    (found.1 ++ candidate.toList, found.2 + 1)
  else some (found.1, found.2 + 1)

def IronwoodBundle.znsCapable (bundle : IronwoodBundle D) : Bool :=
  bundle.ironwoodV3 && bundle.outputsEnabled

/-- One transaction. -/
def scanTx (D : NoteDomain X) (params : Wire) (found : List (DecryptedNameNote X) × ℕ) (tx : BlockTx D) :
    Option (List (DecryptedNameNote X) × ℕ) :=
  match tx.ironwoodBundle with
  | none => some found
  | some bundle => bundle.actions.zipIdx.foldlM (scanAction D params tx.txid bundle.znsCapable) found

/-- The Name Notes of a block, or `none` for a panic. -/
def decryptNameNotes (D : NoteDomain X) (params : Wire) (vtx : List (BlockTx D)) :
    Option (List (DecryptedNameNote X)) :=
  (vtx.foldlM (scanTx D params) ([], 0)).map Prod.fst

/-! ### What it finds -/

/-- The Ironwood actions of a transaction. -/
def BlockTx.actions (tx : BlockTx D) : List D.Action :=
  (tx.ironwoodBundle.map IronwoodBundle.actions).getD []

/-- The Ironwood actions of a block, in order. -/
def ironwoodActions (vtx : List (BlockTx D)) : List D.Action := vtx.flatMap BlockTx.actions

/-- The note is of an action of a bundle, at its place there, after `start` actions of the block. -/
def FoundIn (D : NoteDomain X) (params : Wire) (tx : BlockTx D) (start : ℕ) (note : DecryptedNameNote X) :
    Prop :=
  ∃ bundle, tx.ironwoodBundle = some bundle ∧ bundle.znsCapable = true ∧
    ∃ action, bundle.actions[note.actionIndex]? = some action ∧
      decryptAction D params tx.txid note.actionIndex (start + note.actionIndex) action = some (some note)

/-- The note is a Name Note of the block. -/
def Located (D : NoteDomain X) (params : Wire) (vtx : List (BlockTx D)) (note : DecryptedNameNote X) :
    Prop :=
  ∃ before tx after, vtx = before ++ tx :: after ∧
    FoundIn D params tx (ironwoodActions before).length note

/-- What `orchard` says of the nullifier: a note whose commitment is not the identity has one. -/
def NoteDomain.Lawful (D : NoteDomain X) : Prop :=
  ∀ note rcm psi, (X.znsCmx note rcm psi).isSome = true → (D.znsNullifier note rcm psi).isSome = true

/-- The payload, hashed, makes the commitment of the action, which is the one after `ordinal` others. -/
structure DecryptedNameNote.Authored (D : NoteDomain X) (params : Wire) (note : DecryptedNameNote X)
    (action : D.Action) : Prop where
  memo : Codec.NameNote.decode params note.memo = some (some note.payload)
  cmx : note.cmx = D.cmx action
  authored : X.znsCmx note.note (note.payload.commitment params.toParams)
    (Preimage.psi params.toParams note.payload).val = some note.cmx
  value : D.value note.note = 0
  nullifier : D.znsNullifier note.note (note.payload.commitment params.toParams)
    (Preimage.psi params.toParams note.payload).val = some note.nullifier
  ephemeralKey : note.ephemeralKey = D.ephemeralKey action

theorem decryptAction_ok {txid : TxId} {actionIndex ordinal : ℕ} {action : D.Action}
    {note : DecryptedNameNote X}
    (h : decryptAction D params txid actionIndex ordinal action = some (some note)) :
    note.txid = txid ∧ note.actionIndex = actionIndex ∧ note.ordinal = ordinal ∧
      note.Authored D params action := by
  unfold decryptAction at h
  rcases hopen : D.tryDecrypt action with - | ⟨opened, recipient, memo⟩
  · simp [hopen] at h
  simp only [hopen] at h
  rcases hdecode : Codec.NameNote.decode params memo with - | - | payload
  · simp [hdecode] at h
  · simp [hdecode] at h
  simp only [hdecode] at h
  split_ifs at h with hauthored
  · obtain ⟨nullifier, hnullifier, hnote⟩ := Option.map_eq_some_iff.mp h
    obtain rfl := Option.some.inj hnote
    exact ⟨rfl, rfl, rfl, hdecode, rfl, hauthored.1, hauthored.2.1, hnullifier, rfl⟩
  · simp at h

/-- No action makes it panic. -/
theorem decryptAction_isSome (hua : Wire.UaLaws params) (hD : D.Lawful) (txid : TxId)
    (actionIndex ordinal : ℕ)
    (action : D.Action) : (decryptAction D params txid actionIndex ordinal action).isSome = true := by
  unfold decryptAction
  rcases D.tryDecrypt action with - | ⟨opened, recipient, memo⟩
  · rfl
  simp only
  rcases hdecode : Codec.NameNote.decode params memo with - | - | payload
  · exact absurd hdecode (Codec.decode_ne_none hua memo)
  · rfl
  simp only
  split_ifs with hauthored
  · rw [Option.isSome_map]
    refine hD _ _ _ ?_
    rw [hauthored.1]
    rfl
  · rfl

/-! ### One bundle -/

/-- After some actions of a bundle: what was found before them, and their own Name Notes. -/
structure ScannedTo (D : NoteDomain X) (params : Wire) (txid : TxId) (znsCapable : Bool)
    (before : List (DecryptedNameNote X)) (start : ℕ) (done : List D.Action)
    (found : List (DecryptedNameNote X) × ℕ) :
    Prop where
  count : found.2 = start + done.length
  below : ∀ note ∈ found.1, note.ordinal < found.2
  sorted : found.1.Pairwise fun a b => a.ordinal < b.ordinal
  mem : ∀ note, note ∈ found.1 ↔ note ∈ before ∨ znsCapable = true ∧
    ∃ action, done[note.actionIndex]? = some action ∧
      decryptAction D params txid note.actionIndex (start + note.actionIndex) action = some (some note)

/-- An entry of the longer list is one of the shorter, or the last. -/
theorem getElem?_concat_iff {α : Type} {l : List α} {i : ℕ} {a b : α} :
    (l ++ [a])[i]? = some b ↔ l[i]? = some b ∨ i = l.length ∧ a = b := by
  rcases Nat.lt_trichotomy i l.length with hlt | heq | hgt
  · rw [List.getElem?_append_left hlt]
    constructor
    · exact .inl
    · rintro (hold | ⟨heq, -⟩)
      · exact hold
      · omega
  · rw [heq, List.getElem?_concat_length, List.getElem?_eq_none le_rfl]
    simp
  · rw [List.getElem?_eq_none (by rw [List.length_append, List.length_singleton]; omega),
      List.getElem?_eq_none hgt.le]
    constructor
    · rintro ⟨⟩
    · rintro (⟨⟨⟩⟩ | ⟨heq, -⟩)
      omega

theorem ScannedTo.next {txid : TxId} {znsCapable : Bool} {before : List (DecryptedNameNote X)} {start : ℕ}
    {done : List D.Action} {found found' : List (DecryptedNameNote X) × ℕ} {action : D.Action}
    (h : ScannedTo D params txid znsCapable before start done found)
    (hnext : scanAction D params txid znsCapable found (action, done.length) = some found') :
    ScannedTo D params txid znsCapable before start (done ++ [action]) found' := by
  unfold scanAction at hnext
  split_ifs at hnext with hcapable
  · obtain ⟨candidate, hcandidate, rfl⟩ := Option.map_eq_some_iff.mp hnext
    have hordinal : ∀ note ∈ candidate.toList, note.ordinal = found.2 := by
      rintro note hnote
      obtain rfl := Option.mem_toList.mp hnote
      exact (decryptAction_ok hcandidate).2.2.1
    refine ⟨?_, fun note hnote => ?_, ?_, fun note => ?_⟩
    · rw [h.count, List.length_append, List.length_singleton, Nat.add_assoc]
    · rcases List.mem_append.mp hnote with hold | hnew
      · exact Nat.lt_succ_of_lt (h.below note hold)
      · rw [hordinal note hnew]
        exact Nat.lt_succ_self _
    · refine List.pairwise_append.mpr ⟨h.sorted, ?_, fun a ha b hb => ?_⟩
      · rcases candidate with - | candidate
        · exact .nil
        · exact List.pairwise_singleton ..
      · rw [hordinal b hb]
        exact h.below a ha
    · have hlast : note ∈ candidate.toList ↔
          note.actionIndex = done.length ∧
            decryptAction D params txid note.actionIndex (start + note.actionIndex) action =
              some (some note) := by
        rw [Option.mem_toList]
        constructor
        · rintro rfl
          obtain ⟨-, hindex, -, -⟩ := decryptAction_ok hcandidate
          refine ⟨hindex, ?_⟩
          rw [hindex, ← h.count]
          exact hcandidate
        · rintro ⟨hindex, hdecrypt⟩
          rw [hindex, ← h.count, hcandidate] at hdecrypt
          exact Option.some.inj hdecrypt
      rw [List.mem_append, h.mem, hlast]
      constructor
      · rintro ((hold | ⟨hc, a, ha, hdecrypt⟩) | ⟨hindex, hdecrypt⟩)
        · exact .inl hold
        · exact .inr ⟨hc, a, getElem?_concat_iff.mpr (.inl ha), hdecrypt⟩
        · exact .inr ⟨hcapable, action, getElem?_concat_iff.mpr (.inr ⟨hindex, rfl⟩), hdecrypt⟩
      · rintro (hold | ⟨hc, a, ha, hdecrypt⟩)
        · exact .inl (.inl hold)
        · rcases getElem?_concat_iff.mp ha with hdone | ⟨hindex, rfl⟩
          · exact .inl (.inr ⟨hc, a, hdone, hdecrypt⟩)
          · exact .inr ⟨hindex, hdecrypt⟩
  · obtain rfl := Option.some.inj hnext
    refine ⟨?_, fun note hnote => Nat.lt_succ_of_lt (h.below note hnote), h.sorted, fun note => ?_⟩
    · rw [h.count, List.length_append, List.length_singleton, Nat.add_assoc]
    · rw [h.mem]
      constructor
      · rintro (hold | ⟨hc, -⟩)
        · exact .inl hold
        · exact absurd hc hcapable
      · rintro (hold | ⟨hc, -⟩)
        · exact .inl hold
        · exact absurd hc hcapable

theorem ScannedTo.run {txid : TxId} {znsCapable : Bool} {before : List (DecryptedNameNote X)} {start : ℕ}
    {done rest : List D.Action} {found found' : List (DecryptedNameNote X) × ℕ}
    (h : ScannedTo D params txid znsCapable before start done found)
    (hrest : (rest.zipIdx done.length).foldlM (scanAction D params txid znsCapable) found = some found') :
    ScannedTo D params txid znsCapable before start (done ++ rest) found' := by
  induction rest generalizing done found with
  | nil =>
    obtain rfl := Option.some.inj hrest
    rwa [List.append_nil]
  | cons action rest ih =>
    rw [List.zipIdx_cons, List.foldlM_cons] at hrest
    obtain ⟨next, hnext, hrest⟩ := Option.bind_eq_some_iff.mp hrest
    have hlength : done.length + 1 = (done ++ [action]).length := by
      rw [List.length_append, List.length_singleton]
    rw [hlength] at hrest
    have hdone := ih (h.next hnext) hrest
    rwa [List.append_assoc, List.singleton_append] at hdone

/-! ### The block -/

/-- After some transactions: their Name Notes, and the count of their actions. -/
structure ScannedTxs (D : NoteDomain X) (params : Wire) (done : List (BlockTx D))
    (found : List (DecryptedNameNote X) × ℕ) : Prop where
  count : found.2 = (ironwoodActions done).length
  below : ∀ note ∈ found.1, note.ordinal < found.2
  sorted : found.1.Pairwise fun a b => a.ordinal < b.ordinal
  mem : ∀ note, note ∈ found.1 ↔ Located D params done note

theorem length_ironwoodActions_concat (done : List (BlockTx D)) (tx : BlockTx D) :
    (ironwoodActions (done ++ [tx])).length = (ironwoodActions done).length + tx.actions.length := by
  unfold ironwoodActions
  rw [List.flatMap_append, List.length_append, List.flatMap_cons, List.flatMap_nil, List.append_nil]

/-- A Name Note of the longer block is one of the shorter or of the last transaction. -/
theorem located_concat {done : List (BlockTx D)} {tx : BlockTx D} {note : DecryptedNameNote X} :
    Located D params (done ++ [tx]) note ↔
      Located D params done note ∨ FoundIn D params tx (ironwoodActions done).length note := by
  constructor
  · rintro ⟨before, tx', after, heq, hfound⟩
    rcases List.eq_nil_or_concat after with rfl | ⟨after, last, rfl⟩
    · obtain ⟨rfl, hlast⟩ := List.append_inj' heq rfl
      obtain rfl := (List.cons.inj hlast).1
      exact .inr hfound
    · rw [List.concat_eq_append, ← List.cons_append, ← List.append_assoc] at heq
      obtain ⟨rfl, -⟩ := List.append_inj' heq rfl
      exact .inl ⟨before, tx', after, rfl, hfound⟩
  · rintro (⟨before, tx', after, rfl, hfound⟩ | hfound)
    · exact ⟨before, tx', after ++ [tx], by rw [List.append_assoc, List.cons_append], hfound⟩
    · exact ⟨done, tx, [], rfl, hfound⟩

theorem ScannedTxs.next {done : List (BlockTx D)} {tx : BlockTx D}
    {found found' : List (DecryptedNameNote X) × ℕ}
    (h : ScannedTxs D params done found) (hnext : scanTx D params found tx = some found') :
    ScannedTxs D params (done ++ [tx]) found' := by
  unfold scanTx at hnext
  rcases hbundle : tx.ironwoodBundle with - | bundle
  · rw [hbundle] at hnext
    obtain rfl := Option.some.inj hnext
    refine ⟨?_, h.below, h.sorted, fun note => ?_⟩
    · rw [length_ironwoodActions_concat, h.count]
      unfold BlockTx.actions
      rw [hbundle]
      rfl
    · rw [h.mem, located_concat]
      constructor
      · exact .inl
      · rintro (hold | ⟨bundle, hsome, -⟩)
        · exact hold
        · rw [hbundle] at hsome
          exact nomatch hsome
  · rw [hbundle] at hnext
    have hstart : ScannedTo D params tx.txid bundle.znsCapable found.1 found.2 [] found := by
      refine ⟨rfl, h.below, h.sorted, fun note => ?_⟩
      constructor
      · exact .inl
      · rintro (hold | ⟨-, action, hnone, -⟩)
        · exact hold
        · exact nomatch hnone
    have hdone : ScannedTo D params tx.txid bundle.znsCapable found.1 found.2
        ([] ++ bundle.actions) found' :=
      hstart.run hnext
    rw [List.nil_append, h.count] at hdone
    have hactions : tx.actions = bundle.actions := by
      unfold BlockTx.actions
      rw [hbundle]
      rfl
    refine ⟨?_, hdone.below, hdone.sorted, fun note => ?_⟩
    · rw [hdone.count, length_ironwoodActions_concat, hactions]
    · rw [hdone.mem, h.mem, located_concat]
      refine or_congr Iff.rfl ?_
      constructor
      · rintro ⟨hcapable, action, haction, hdecrypt⟩
        exact ⟨bundle, hbundle, hcapable, action, haction, hdecrypt⟩
      · rintro ⟨bundle', hsome, hcapable, action, haction, hdecrypt⟩
        obtain rfl := Option.some.inj (hbundle.symm.trans hsome)
        exact ⟨hcapable, action, haction, hdecrypt⟩

theorem ScannedTxs.run {done rest : List (BlockTx D)} {found found' : List (DecryptedNameNote X) × ℕ}
    (h : ScannedTxs D params done found) (hrest : rest.foldlM (scanTx D params) found = some found') :
    ScannedTxs D params (done ++ rest) found' := by
  induction rest generalizing done found with
  | nil =>
    obtain rfl := Option.some.inj hrest
    rwa [List.append_nil]
  | cons tx rest ih =>
    rw [List.foldlM_cons] at hrest
    obtain ⟨next, hnext, hrest⟩ := Option.bind_eq_some_iff.mp hrest
    have hdone := ih (h.next hnext) hrest
    rwa [List.append_assoc, List.singleton_append] at hdone

theorem decryptNameNotes_isSome (hua : Wire.UaLaws params) (hD : D.Lawful) (vtx : List (BlockTx D)) :
    (decryptNameNotes D params vtx).isSome = true := by
  unfold decryptNameNotes
  rw [Option.isSome_map]
  refine foldlM_isSome (fun found tx => ?_) vtx _
  unfold scanTx
  rcases tx.ironwoodBundle with - | bundle
  · rfl
  · refine foldlM_isSome (fun found e => ?_) _ found
    unfold scanAction
    split_ifs
    · rw [Option.isSome_map]
      exact decryptAction_isSome hua hD ..
    · rfl

/-- What the scan finds is what is there, in order. -/
theorem scannedTxs_of_some {vtx : List (BlockTx D)} {notes : List (DecryptedNameNote X)}
    (h : decryptNameNotes D params vtx = some notes) :
    ∃ count, ScannedTxs D params vtx (notes, count) := by
  obtain ⟨⟨found, count⟩, hfound, rfl⟩ := Option.map_eq_some_iff.mp h
  have hstart : ScannedTxs D params [] ([], 0) := by
    refine ⟨rfl, fun note hnil => absurd hnil List.not_mem_nil, .nil, fun note => ?_⟩
    constructor
    · exact fun hnil => absurd hnil List.not_mem_nil
    · rintro ⟨before, tx, after, heq, -⟩
      simp at heq
  exact ⟨count, hstart.run hfound⟩

/-- A Name Note of a block is authentic, and its action is at its ordinal among all of the block. -/
theorem Located.action {vtx : List (BlockTx D)} {note : DecryptedNameNote X}
    (h : Located D params vtx note) :
    ∃ tx ∈ vtx, tx.txid = note.txid ∧ ∃ action, tx.actions[note.actionIndex]? = some action ∧
      (ironwoodActions vtx)[note.ordinal]? = some action ∧ note.Authored D params action := by
  obtain ⟨before, tx, after, rfl, bundle, hbundle, -, action, haction, hdecrypt⟩ := h
  obtain ⟨htxid, -, hordinal, hauthored⟩ := decryptAction_ok hdecrypt
  have hactions : tx.actions = bundle.actions := by
    unfold BlockTx.actions
    rw [hbundle]
    rfl
  refine ⟨tx, List.mem_append_right _ List.mem_cons_self, htxid.symm, action, hactions ▸ haction,
    ?_, hauthored⟩
  have hlt := (List.getElem?_eq_some_iff.mp haction).1
  unfold ironwoodActions at hordinal ⊢
  rw [List.flatMap_append, List.flatMap_cons, hordinal, List.getElem?_append_right (Nat.le_add_right ..),
    Nat.add_sub_cancel_left, hactions, List.getElem?_append_left hlt]
  exact haction

/-- The action opens to the Name Note under the Registry's key, as its memo and its commitment have it. -/
def Carries (D : NoteDomain X) (params : Wire) (action : D.Action) (payload : NameNote) : Prop :=
  ∃ note memo, D.tryDecrypt action = some (note, D.registryRecipient, memo) ∧
    Codec.NameNote.decode params memo = some (some payload) ∧ D.value note = 0 ∧
      X.znsCmx note (payload.commitment params.toParams) (Preimage.psi params.toParams payload).val =
        some (D.cmx action)

/-- What is read of an action that opens to a Name Note. -/
theorem decryptAction_eq {action : D.Action} {opened : X.Note} {memo : MemoBytes} {payload : NameNote}
    {nullifier : Nullifier} (hopen : D.tryDecrypt action = some (opened, D.registryRecipient, memo))
    (hdecode : Codec.NameNote.decode params memo = some (some payload)) (hvalue : D.value opened = 0)
    (hcmx : X.znsCmx opened (payload.commitment params.toParams)
    (Preimage.psi params.toParams payload).val =
      some (D.cmx action))
    (hnullifier : D.znsNullifier opened (payload.commitment params.toParams)
      (Preimage.psi params.toParams payload).val = some nullifier) (txid : TxId)
        (actionIndex ordinal : ℕ) :
    decryptAction D params txid actionIndex ordinal action = some (some
      ⟨txid, actionIndex, ordinal, D.cmx action, opened, nullifier, D.ephemeralKey action, memo,
        payload⟩) := by
  unfold decryptAction
  simp only [hopen, hdecode]
  rw [if_pos ⟨hcmx, hvalue, trivial⟩, hnullifier]
  rfl

/-- An action that carries a Name Note is found. -/
theorem decryptAction_of_carries (hD : D.Lawful) {action : D.Action} {payload : NameNote}
    (h : Carries D params action payload) (txid : TxId) (actionIndex ordinal : ℕ) :
    ∃ note, decryptAction D params txid actionIndex ordinal action = some (some note) ∧ note.payload =
      payload := by
  obtain ⟨opened, memo, hopen, hdecode, hvalue, hcmx⟩ := h
  have hsome := hD opened (payload.commitment params.toParams) (Preimage.psi params.toParams payload).val
    (by rw [hcmx]; rfl)
  obtain ⟨nullifier, hnullifier⟩ := Option.isSome_iff_exists.mp hsome
  exact ⟨_, decryptAction_eq hopen hdecode hvalue hcmx hnullifier txid actionIndex ordinal, rfl⟩

/-- **The Name Notes of a block are found exactly.** The scan panics on no block. What it gives is
authentic and stands at its ordinal among all Ironwood actions of the block, each once and in order; and
every action that carries a Name Note, in a bundle that may, is given at its place. -/
theorem name_notes_exact (hua : Wire.UaLaws params) (hD : D.Lawful) (vtx : List (BlockTx D)) :
    ∃ notes, decryptNameNotes D params vtx = some notes ∧
      (notes.Pairwise fun a b => a.ordinal < b.ordinal) ∧
      (∀ note ∈ notes, ∃ tx ∈ vtx, tx.txid = note.txid ∧ ∃ action, tx.actions[note.actionIndex]? =
        some action ∧
        (ironwoodActions vtx)[note.ordinal]? = some action ∧ note.Authored D params action) ∧
      ∀ before tx after bundle i action payload, vtx = before ++ tx :: after → tx.ironwoodBundle =
        some bundle →
        bundle.znsCapable = true → bundle.actions[i]? = some action → Carries D params action payload →
          ∃ note ∈ notes, note.txid = tx.txid ∧ note.actionIndex = i ∧
            note.ordinal = (ironwoodActions before).length + i ∧ note.payload = payload := by
  obtain ⟨notes, hnotes⟩ := Option.isSome_iff_exists.mp (decryptNameNotes_isSome hua hD vtx)
  obtain ⟨count, hscanned⟩ := scannedTxs_of_some hnotes
  refine ⟨notes, hnotes, hscanned.sorted, fun note hnote => ((hscanned.mem note).mp hnote).action, ?_⟩
  rintro before tx after bundle i action payload rfl hbundle hcapable haction hcarries
  obtain ⟨note, hdecrypt, hpayload⟩ :=
    decryptAction_of_carries hD hcarries tx.txid i ((ironwoodActions before).length + i)
  obtain ⟨htxid, rfl, hordinal, -⟩ := decryptAction_ok hdecrypt
  refine ⟨note, (hscanned.mem note).mpr ?_, htxid, rfl, hordinal, hpayload⟩
  exact ⟨before, tx, after, rfl, bundle, hbundle, hcapable, action, haction, hdecrypt⟩

/-! ### One block -/

/-- Actions by their commitment and what they open to. -/
def leafDomain : NoteDomain leafBackend where
  Action := List ℕ × Option (ℕ × MemoBytes)
  Recipient := Unit
  decRecipient := inferInstance
  cmx action := action.1
  ephemeralKey _ := Vector.replicate 32 0
  tryDecrypt action := action.2.map fun e => (e.1, (), e.2)
  value := fun note : ℕ => note / 100
  registryRecipient := ()
  znsNullifier note _ _ := some ⟨note⟩

theorem leafDomain_lawful : leafDomain.Lawful := fun _ _ _ _ => rfl

def leafPayload : NameNote := .claim alice (sampleUa 1) (.at 100)

/-- The memo of a claim. -/
noncomputable def leafMemo : MemoBytes :=
  Wire.padded (Codec.NameNote.text Wire.sample.toParams leafPayload)
    (Codec.length_text_le Wire.sample_uaLaws rfl rfl)

theorem decode_leafMemo : Codec.NameNote.decode Wire.sample leafMemo = some (some leafPayload) := by
  have hfields := Codec.isField_fields Wire.sample_uaLaws.isField leafPayload
  have htext : Codec.noteText leafMemo = some (Codec.NameNote.text Wire.sample.toParams leafPayload) :=
    Codec.noteText_padded _ (Codec.intercalate_bounds hfields)
  have hsplit : (Codec.NameNote.text Wire.sample.toParams leafPayload).splitOn Wire.COLON =
      Codec.NameNote.fields Wire.sample.toParams leafPayload :=
    Codec.splitOn_fields (List.cons_ne_nil _ _) hfields
  have henc : Codec.NameNote.encode Wire.sample.toParams leafPayload = some leafMemo := dif_pos _
  unfold Codec.NameNote.decode
  have hprev : ∀ p, leafPayload.prevRcm = some p → p.toBytes ≠ Codec.ZERO_RCM := by
    intro p hp
    cases hp
  rw [htext, Option.bind_some, hsplit, Codec.parse_fields Wire.sample_uaLaws rfl rfl hprev]
  simp [henc]

/-- A transaction whose second action carries the claim. -/
noncomputable def leafTx : BlockTx leafDomain :=
  ⟨sampleTxid 1, 40, some ⟨true, true, [([7], none), ([5], some (5, leafMemo))]⟩⟩

/-- It is found at its place. -/
theorem name_notes_exact_claim :
    ∃ notes, decryptNameNotes leafDomain Wire.sample [leafTx] = some notes ∧
      ∃ note ∈ notes, note.txid = sampleTxid 1 ∧ note.ordinal = 1 ∧ note.payload = leafPayload := by
  have hvalue : leafDomain.value (5 : ℕ) = 0 := Nat.div_eq_of_lt (show 5 < 100 by decide)
  obtain ⟨notes, hnotes, -, -, hfound⟩ := name_notes_exact Wire.sample_uaLaws leafDomain_lawful [leafTx]
  obtain ⟨note, hnote, htxid, -, hordinal, hpayload⟩ :=
    hfound [] leafTx [] _ 1 _ leafPayload rfl rfl rfl rfl
      ⟨(5 : ℕ), leafMemo, rfl, decode_leafMemo, hvalue, rfl⟩
  exact ⟨notes, hnotes, note, hnote, htxid, hordinal, hpayload⟩

end ZnsMint.Wallet
