import ZnsMint.Registry.Blocks

/-! # The notes behind the records

Every record that is not a release is of a Name Note some transaction carried. A commitment without
collisions among these notes then determines what a record says. -/

namespace ZnsMint.Registry

open Basic Note

variable {params : Params} {N : NameNote → Prop} {r : Registry} {nfs : List Nullifier}
  {height lo : ℕ} {mtp : ℤ}

/-- The record is a release, or of a note of `N`. -/
def OfNote (params : Params) (N : NameNote → Prop) (e : NameRecord) : Prop :=
  e.action.isRelease = false →
    ∃ note, N note ∧ e.commitment = note.commitment params ∧ e.expiresAt = note.expiresAt.getD .never

/-- Every record of every chain is of a note of `N`. -/
def Noted (params : Params) (N : NameNote → Prop) (r : Registry) : Prop :=
  ∀ n, ∀ e ∈ r.recordHistory n, OfNote params N e

/-- The notes have different commitments. -/
def NoCollision (params : Params) (N : NameNote → Prop) : Prop :=
  ∀ note note', N note → N note' → note.commitment params = note'.commitment params → note = note'

/-- The notes a block's transactions carry. -/
def scannedNotes (txs : List ScannedTx) : List NameNote :=
  txs.flatMap fun tx => tx.notes.map Candidate.payload

theorem noted_new : Noted params N new := by
  intro n e he
  simp at he

theorem Noted.setRecord (h : Noted params N r) {e : NameRecord} (he : OfNote params N e) :
    Noted params N (r.setRecord e) := by
  intro n e' he'
  rw [recordHistory_setRecord] at he'
  split_ifs at he' with hn
  · rcases List.mem_append.mp he' with he' | he'
    · exact h _ e' he'
    · rw [List.mem_singleton] at he'
      subst he'
      exact he
  · exact h n e' he'

theorem Noted.with_anchors (h : Noted params N r) (p : AnchorPool) :
    Noted params N { r with anchors := p } := h

theorem Noted.markReleased (h : Noted params N r) (nfs : List Nullifier) (height : ℕ) :
    Noted params N (r.markReleased nfs height) := by
  unfold Registry.markReleased
  generalize r.namesSpentBy nfs = names
  induction names generalizing r with
  | nil => exact h
  | cons name names ih =>
    refine ih ?_
    unfold markReleasedOne
    split
    · exact h
    · rename_i record _
      have hrelease : OfNote params N (released record height) := fun hlive => by cases hlive
      exact h.setRecord hrelease

theorem ofNote_create {note : NameNote} (hnote : N note) (nf : Nullifier) (height : ℕ) (mtp : ℤ) :
    OfNote params N (.create params note nf height mtp) :=
  fun _ => ⟨note, hnote, rfl, rfl⟩

theorem Noted.acceptClaim (h : Noted params N r) {note : NameNote} (hnote : N note) (nf : Nullifier)
    (successor : Option Nullifier) (expiry : ℕ) :
    Noted params N (acceptClaim params r note nf successor nfs height mtp expiry).1 := by
  rcases acceptClaim_cases params r note nf successor nfs height mtp expiry with
    ⟨-, heq⟩ | ⟨-, -, heq⟩ | ⟨s, -, -, -, -, -, heq⟩
  · rw [heq]
    exact (h.with_anchors _).markReleased nfs height
  · rw [heq]
    exact h.with_anchors _
  · rw [heq]
    exact (h.with_anchors _).setRecord (ofNote_create hnote nf height mtp)

theorem Noted.acceptSuccessor (h : Noted params N r) {note : NameNote} (hnote : N note) (nf : Nullifier) :
    Noted params N (acceptSuccessor params r note nf nfs height mtp).1 := by
  unfold Registry.acceptSuccessor
  split
  · exact (h.with_anchors _).markReleased nfs height
  · rename_i record _
    split_ifs
    · have hrelease : OfNote params N
          (.create params (.release note.name record.ua record.commitment) nf height mtp) :=
        fun hlive => by cases hlive
      exact h.setRecord hrelease
    · exact h.setRecord (ofNote_create hnote nf height mtp)

theorem recordHistory_adoptCeremony (r : Registry) (tx : ScannedTx) (height : ℕ) (n : Name) :
    (r.adoptCeremony tx height).recordHistory n = r.recordHistory n := by
  unfold adoptCeremony
  split_ifs
  · generalize tx.ceremony = anchors
    induction anchors generalizing r with
    | nil => rfl
    | cons nf anchors ih => exact ih (r.adoptAnchor height nf)
  · rfl

theorem Noted.confirmTx (h : Noted params N r) {tx : ScannedTx} (htx : ∀ c ∈ tx.notes, N c.payload) :
    Noted params N (confirmTx params r tx height mtp).1 := by
  have hadopted : Noted params N (r.adoptCeremony tx height) := by
    intro n e he
    rw [recordHistory_adoptCeremony] at he
    exact h n e he
  unfold Registry.confirmTx dispatch
  split
  · rename_i c hnotes
    have hc : N c.payload := htx c (by rw [hnotes]; exact List.mem_singleton_self c)
    split
    · rename_i heq
      exact hadopted.acceptClaim hc c.nullifier tx.successor tx.expiry
    · exact hadopted.acceptSuccessor hc c.nullifier
    · exact hadopted.acceptSuccessor hc c.nullifier
    · exact hadopted.acceptSuccessor hc c.nullifier
  · exact (hadopted.with_anchors _).markReleased tx.nfs height

theorem Noted.confirmBlock {txs : List ScannedTx} (h : Noted params N r)
    (htxs : ∀ note ∈ scannedNotes txs, N note) :
    Noted params N (confirmBlock params r txs height mtp) := by
  unfold Registry.confirmBlock
  induction txs generalizing r with
  | nil => exact h
  | cons tx txs ih =>
    have hsplit : ∀ note, note ∈ scannedNotes (tx :: txs) ↔
        note ∈ tx.notes.map Candidate.payload ∨ note ∈ scannedNotes txs := by
      intro note
      simp [scannedNotes]
    refine ih (h.confirmTx fun c hc => ?_) fun note hnote => ?_
    · exact htxs _ ((hsplit _).mpr (Or.inl (List.mem_map_of_mem hc)))
    · exact htxs _ ((hsplit _).mpr (Or.inr hnote))

theorem Noted.truncate (h : Noted params N r) (k : ℕ) : Noted params N (r.truncateToHeight k) := by
  intro n e he
  rw [recordHistory_truncateToHeight] at he
  exact h n e ((List.rdropWhile_prefix _ _).subset he)

/-- Two live records of one commitment have one term. -/
theorem expiresAt_of_commitment {r' : Registry} {lo' : ℕ} (hN : NoCollision params N)
    (hr : WellFormed lo r)
    (hr' : WellFormed lo' r') (h : Noted params N r) (h' : Noted params N r') {n n' : Name}
    {e e' : NameRecord}
    (he : r.record n = some e) (he' : r'.record n' = some e') (hcommit : e.commitment = e'.commitment) :
    e.expiresAt = e'.expiresAt := by
  have hlive : ∀ {r : Registry} {lo : ℕ} {n : Name} {e : NameRecord}, WellFormed lo r →
    r.record n = some e →
      e ∈ r.recordHistory n ∧ e.action.isRelease = false := by
    intro r lo n e hr he
    rw [hr.live] at he
    obtain ⟨hlast, haction⟩ := mem_of_liveOf he
    exact ⟨List.mem_of_getLast? hlast, haction⟩
  obtain ⟨hmem, haction⟩ := hlive hr he
  obtain ⟨hmem', haction'⟩ := hlive hr' he'
  obtain ⟨note, hnote, hof, hterm⟩ := h n e hmem haction
  obtain ⟨note', hnote', hof', hterm'⟩ := h' n' e' hmem' haction'
  have hsame : note = note' := hN note note' hnote hnote' (by rw [← hof, ← hof', hcommit])
  rw [hterm, hterm', hsame]

end ZnsMint.Registry
