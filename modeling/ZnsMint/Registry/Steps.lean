import ZnsMint.Registry

/-! # What the registry's operations can do

Every operation that follows the chain is a sequence of three kinds of `Micro` step: one entry written
to a name's chain, an adopted anchor, or spent anchors retired. `Legal` says which entries are written
on which state: a claim where the name is free, any other entry where it is live. The invariants of
later modules look at these three cases and never at the operations again. -/

namespace ZnsMint.Registry

open Basic Note Inbound

variable {r r' : Registry} {record : NameRecord} {name : Name} {height : ℕ}
  {nfs : List Nullifier} {params : Params}

/-! ### Lookups -/

@[simp] theorem record_new (name : Name) : new.record name = none := by
  simp [record, new]

@[simp] theorem recordHistory_new (name : Name) : new.recordHistory name = [] := by
  simp [recordHistory, new]

@[simp] theorem record_with_anchors (r : Registry) (p : AnchorPool) (name : Name) :
    { r with anchors := p }.record name = r.record name := rfl

@[simp] theorem recordHistory_with_anchors (r : Registry) (p : AnchorPool) (name : Name) :
    { r with anchors := p }.recordHistory name = r.recordHistory name := rfl

@[simp] theorem namesSpentBy_with_anchors (r : Registry) (p : AnchorPool) (nfs : List Nullifier) :
    { r with anchors := p }.namesSpentBy nfs = r.namesSpentBy nfs := rfl

@[simp] theorem setRecord_anchors (r : Registry) (record : NameRecord) :
    (r.setRecord record).anchors = r.anchors := rfl

@[simp] theorem setRecord_listings (r : Registry) (record : NameRecord) :
    (r.setRecord record).listings = r.listings := rfl

theorem recordHistory_setRecord (r : Registry) (record : NameRecord) (name : Name) :
    (r.setRecord record).recordHistory name =
      if record.name = name then r.recordHistory record.name ++ [record] else r.recordHistory name := by
  simp only [recordHistory, setRecord, Std.ExtTreeMap.getElem?_insert, Std.LawfulEqCmp.compare_eq_iff_eq]
  split_ifs <;> rfl

theorem record_setRecord (r : Registry) (record : NameRecord) (name : Name) :
    (r.setRecord record).record name =
      if record.name = name then (if record.action.isRelease then none else some record)
      else r.record name := by
  simp only [Registry.record, setRecord]
  split_ifs with h1 h2 h3 <;>
    simp [Std.ExtTreeMap.getElem?_insert, Std.ExtTreeMap.getElem?_erase, *]

theorem history_setRecord_ne_nil (h : ∀ (n : Name) l, r.history[n]? = some l → l ≠ [])
    (record : NameRecord)
    {n : Name} {l : List NameRecord} (hl : (r.setRecord record).history[n]? = some l) : l ≠ [] := by
  simp only [setRecord, Std.ExtTreeMap.getElem?_insert] at hl
  split_ifs at hl with hn
  · cases hl; simp
  · exact h n l hl

theorem mem_namesSpentBy :
    name ∈ r.namesSpentBy nfs ↔
      ∃ record, r.record name = some record ∧ record.predecessorNullifier ∈ nfs := by
  simp only [namesSpentBy, List.mem_map, List.mem_filter, Prod.exists, List.contains_iff_mem,
    Std.ExtTreeMap.mem_toList_iff_getElem?_eq_some, exists_and_right, exists_eq_right]
  rfl

theorem namesSpentBy_isEmpty :
    (r.namesSpentBy nfs).isEmpty = true ↔
      ∀ name record, r.record name = some record → record.predecessorNullifier ∉ nfs := by
  rw [List.isEmpty_iff, List.eq_nil_iff_forall_not_mem]
  constructor
  · exact fun h name record hr hn => h name (mem_namesSpentBy.mpr ⟨record, hr, hn⟩)
  · rintro h name hname
    obtain ⟨record, hr, hn⟩ := mem_namesSpentBy.mp hname
    exact h name record hr hn

/-- The live map is keyed by the names of its records. -/
def Keyed (r : Registry) : Prop := ∀ name record, r.record name = some record → record.name = name

theorem Keyed.setRecord (h : r.Keyed) (record : NameRecord) : (r.setRecord record).Keyed := by
  intro n rec hrec
  rw [record_setRecord] at hrec
  split_ifs at hrec with h1 h2
  · cases hrec; exact h1
  · exact h n rec hrec

theorem Keyed.with_anchors (h : r.Keyed) (p : AnchorPool) : Keyed { r with anchors := p } := h

/-! ### Releasing what was spent -/

theorem Keyed.markReleasedOne (h : r.Keyed) (height : ℕ) (name : Name) :
    (r.markReleasedOne height name).Keyed := by
  unfold Registry.markReleasedOne
  split
  · exact h
  · exact h.setRecord _

theorem record_markReleasedOne (h : r.Keyed) (height : ℕ) (name n : Name) :
    (r.markReleasedOne height name).record n = if name = n then none else r.record n := by
  unfold markReleasedOne
  split
  · rename_i hnone
    split_ifs with hn
    · rw [← hn, hnone]
    · rfl
  · rename_i record hrec
    rw [record_setRecord, show (released record height).name = name from h name record hrec]
    rfl

theorem record_foldl_markReleasedOne (height : ℕ) (n : Name) :
    ∀ (names : List Name) (r : Registry), r.Keyed →
      (names.foldl (markReleasedOne height) r).record n = if n ∈ names then none else r.record n
  | [], r, _ => by simp
  | m :: names, r, h => by
    rw [List.foldl_cons, record_foldl_markReleasedOne height n names _ (h.markReleasedOne height m),
      record_markReleasedOne h]
    by_cases hm : m = n <;> by_cases hn : n ∈ names <;> simp [hm, hn, eq_comm (a := n)]

/-- **What `mark_released` leaves live**: the records whose nullifier was not spent. -/
theorem record_markReleased (h : r.Keyed) (nfs : List Nullifier) (height : ℕ) (n : Name) :
    (r.markReleased nfs height).record n =
      (r.record n).filter fun record => decide (record.predecessorNullifier ∉ nfs) := by
  rw [markReleased, record_foldl_markReleasedOne height n _ r h]
  cases hr : r.record n with
  | none => simp
  | some record =>
    have hiff : n ∈ r.namesSpentBy nfs ↔ record.predecessorNullifier ∈ nfs := by
      rw [mem_namesSpentBy, hr]
      simp
    by_cases hmem : record.predecessorNullifier ∈ nfs
    · simp [hiff, hmem, Option.filter]
    · simp [hiff, hmem, Option.filter]

@[simp] theorem markReleasedOne_anchors (height : ℕ) (r : Registry) (name : Name) :
    (markReleasedOne height r name).anchors = r.anchors := by
  unfold markReleasedOne
  split <;> rfl

@[simp] theorem markReleased_anchors (r : Registry) (nfs : List Nullifier) (height : ℕ) :
    (r.markReleased nfs height).anchors = r.anchors := by
  suffices h : ∀ (names : List Name) (r : Registry),
      (names.foldl (markReleasedOne height) r).anchors = r.anchors from h _ r
  intro names
  induction names with
  | nil => intro r; rfl
  | cons n names ih => intro r; rw [List.foldl_cons, ih, markReleasedOne_anchors]

/-! ### Micro steps -/

/-- An entry that may be written: a claim on a free name, a successor on a live one. -/
def Legal (r : Registry) (record : NameRecord) : Prop :=
  match record.action with
  | .claim => r.record record.name = none
  | .update | .sale | .release => ∃ live, r.record record.name = some live
  | .list | .delist | .auction => False

/-- The steps every operation at `height` is made of. -/
inductive Micro (height : ℕ) : Registry → Registry → Prop
  | write (r : Registry) (record : NameRecord) (hheight : record.confirmedHeight = height)
      (hlegal : r.Legal record) : Micro height r (r.setRecord record)
  | adopt (r : Registry) (nf : Nullifier) : Micro height r (r.adoptAnchor height nf)
  | retire (r : Registry) (nfs : List Nullifier) (successor : Option Nullifier) :
      Micro height r { r with anchors := r.anchors.retireSpent nfs successor height }

/-- Finitely many micro steps. -/
abbrev Micros (height : ℕ) : Registry → Registry → Prop := Relation.ReflTransGen (Micro height)

theorem micros_foldl_markReleasedOne (height : ℕ) :
    ∀ (names : List Name) (r : Registry), r.Keyed →
      Micros height r (names.foldl (markReleasedOne height) r)
  | [], _, _ => .refl
  | n :: names, r, h => by
    refine .trans ?_ (micros_foldl_markReleasedOne height names _ (h.markReleasedOne height n))
    unfold markReleasedOne
    split
    · exact .refl
    · rename_i record hrec
      refine .single (.write r _ rfl ?_)
      exact ⟨record, by rw [show (released record height).name = n from h n record hrec, hrec]⟩

theorem micros_markReleased (h : r.Keyed) (nfs : List Nullifier) (height : ℕ) :
    Micros height r (r.markReleased nfs height) :=
  micros_foldl_markReleasedOne height _ r h

theorem micros_followSpends (h : r.Keyed) (nfs : List Nullifier) (height : ℕ) :
    Micros height r (r.followSpends nfs height) :=
  .head (.retire r nfs none) (micros_markReleased (h.with_anchors _) nfs height)

theorem record_of_predecessorSpent {note : NameNote}
    (h : r.predecessorSpent note nfs = some record) :
    r.record note.name = some record ∧ r.namesSpentBy nfs = [note.name] ∧
      ∀ nf ∈ nfs, nf ∉ r.anchors.live := by
  simp only [predecessorSpent] at h
  split_ifs at h with h1 h2 h3
  refine ⟨h, not_not.mp h3, fun nf hnf hlive => h2 ?_⟩
  rw [List.any_eq_true]
  exact ⟨nf, hnf, by simpa [AnchorPool.contains] using hlive⟩

/-- A note of one of the three kinds `acceptSuccessor` takes. -/
def IsSuccessor (note : NameNote) : Prop := note.action = .update ∨ note.action = .release ∨
    note.action = .sale

theorem legal_create {note : NameNote} (hnote : IsSuccessor note) {live : NameRecord}
    (hlive : r.record note.name = some live) (nf : Nullifier) (mtp : ℤ) :
    r.Legal (.create params note nf height mtp) := by
  unfold Legal
  rcases hnote with h | h | h <;>
    · rw [show (NameRecord.create params note nf height mtp).action = note.action from rfl, h]
      exact ⟨live, hlive⟩

theorem micros_acceptSuccessor (h : r.Keyed) {note : NameNote} (hnote : IsSuccessor note)
    (nf : Nullifier) (nfs : List Nullifier) (mtp : ℤ) :
    Micros height r (acceptSuccessor params r note nf nfs height mtp).1 := by
  unfold acceptSuccessor
  split
  · exact micros_followSpends h nfs height
  · rename_i record hspent
    have hlive := (record_of_predecessorSpent hspent).1
    split_ifs
    · refine .single (.write r _ rfl ?_)
      have hrelease : IsSuccessor (.release note.name record.ua record.commitment) :=
        Or.inr (Or.inl rfl)
      exact legal_create hrelease hlive nf mtp
    · exact .single (.write r _ rfl (legal_create hnote hlive nf mtp))

/-- The three ways `accept_claim` ends: malformed, refused, or registered. -/
theorem acceptClaim_cases (params : Params) (r : Registry) (note : NameNote) (nf : Nullifier)
    (successor : Option Nullifier) (nfs : List Nullifier) (height : ℕ) (mtp : ℤ) (expiry : ℕ) :
    ((successor = none ∨ (nfs.filter r.anchors.contains).length ≠ 1 ∨ r.namesSpentBy nfs ≠ []) ∧
      acceptClaim params r note nf successor nfs height mtp expiry =
        (markReleased { r with anchors := r.anchors.retireSpent nfs none height } nfs height, false)) ∨
    (r.namesSpentBy nfs = [] ∧
      (r.record note.name ≠ none ∨ builtBeforeRelease params r note.name expiry = true) ∧
      acceptClaim params r note nf successor nfs height mtp expiry =
        ({ r with anchors := r.anchors.retireSpent nfs none height }, false)) ∨
    ∃ s, successor = some s ∧ (nfs.filter r.anchors.contains).length = 1 ∧ r.namesSpentBy nfs = [] ∧
      r.record note.name = none ∧ builtBeforeRelease params r note.name expiry = false ∧
      acceptClaim params r note nf successor nfs height mtp expiry =
        (setRecord { r with anchors := r.anchors.retireSpent nfs (some s) height }
          (.create params note nf height mtp), true) := by
  unfold acceptClaim
  simp only [namesSpentBy_with_anchors]
  cases successor with
  | none => exact Or.inl ⟨Or.inl rfl, by simp⟩
  | some s =>
    by_cases h1 : (nfs.filter r.anchors.contains).length = 1
    swap
    · exact Or.inl ⟨Or.inr (Or.inl h1), by simp [h1, Option.filter]⟩
    by_cases h2 : r.namesSpentBy nfs = []
    swap
    · exact Or.inl ⟨Or.inr (Or.inr h2), by simp [h2, Option.filter]⟩
    by_cases h3 : r.record note.name = none
    swap
    · have h3' : (r.record note.name).isNone = false := by simp [Option.isSome_iff_ne_none, h3]
      exact Or.inr (Or.inl ⟨h2, Or.inl h3, by simp [h1, h2, h3', Option.filter]⟩)
    by_cases h4 : builtBeforeRelease params r note.name expiry = true
    · exact Or.inr (Or.inl ⟨h2, Or.inr h4, by simp [h1, h2, h3, h4, Option.filter]⟩)
    · rw [Bool.not_eq_true] at h4
      exact Or.inr (Or.inr ⟨s, rfl, h1, h2, h3, h4, by simp [h1, h2, h3, h4, Option.filter]⟩)

theorem micros_acceptClaim (h : r.Keyed) {note : NameNote} (hnote : note.action = .claim)
    (nf : Nullifier) (successor : Option Nullifier) (nfs : List Nullifier) (mtp : ℤ) (expiry : ℕ) :
    Micros height r (acceptClaim params r note nf successor nfs height mtp expiry).1 := by
  rcases acceptClaim_cases params r note nf successor nfs height mtp expiry with
    ⟨-, heq⟩ | ⟨-, -, heq⟩ | ⟨s, -, -, -, hfree, -, heq⟩
  · rw [heq]
    exact .head (.retire r nfs none) (micros_markReleased (h.with_anchors _) nfs height)
  · rw [heq]
    exact .single (.retire r nfs none)
  · rw [heq]
    refine .head (.retire r nfs (some s)) (.single (.write _ _ rfl ?_))
    unfold Legal
    rw [show (NameRecord.create params note nf height mtp).action = note.action from rfl, hnote]
    exact hfree

end ZnsMint.Registry
