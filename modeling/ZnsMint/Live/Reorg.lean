import ZnsMint.Live.Claims
import ZnsMint.Registry.Rewind

/-! # The queue after a reorg

`fate` is what the truncation of the registry, `rewind_to` and `reconcile_seen` together make of one
order. It reads the surviving chain only: an order above the ancestor is gone, one with a confirmation
left is seen, and any other one is open again where its predecessor is still current. It is lost only
where another transition of its name took its predecessor on the blocks that stayed. -/

namespace ZnsMint.Live

open Basic Note Registry Lib.Rollback

variable {params : Params} {r : Registry} {lo a : ℕ} {o o' : Order}

/-- What becomes of one order when the chain is cut to `a`, over the registry that is left. -/
def fate (params : Params) (r : Registry) (a : ℕ) (o : Order) : Option Order :=
  if o.origin ≤ a then
    (some (NameNoteQueue.seeOne params r (NameNoteQueue.reauthorize o))).filter
    (NameNoteQueue.keepsName r)
  else none

/-- The order's predecessor was the live record of its name right after its origin block: at a point of
the run whose blocks reach no higher, and below which nothing was cut since. -/
def OwnedAtOrigin (params : Params) (acts : List (Act RegOp)) (o : Order) : Prop :=
  ∃ before after, acts = before ++ after ∧ (system params).floor 0 before ≤ o.origin ∧
    (system params).Above o.origin after ∧ Owns ((system params).run new before) o

/-- Another transition of the order's name took its predecessor, at a height above the origin up to
`a`. -/
def Overtaken (params : Params) (r : Registry) (o : Order) (a : ℕ) : Prop :=
  (∃ e ∈ r.recordHistory o.note.name, o.origin < e.confirmedHeight ∧ e.confirmedHeight ≤ a ∧
    e.commitment ≠ o.note.commitment params) ∧ ¬ Owns (r.truncateToHeight a) o

/-! ### One order -/

/-- The queue after a reorg is the fates of its orders, in their old order. -/
theorem orders_rewound (params : Params) (r : Registry) (q : NameNoteQueue) (a : ℕ) :
    ((q.rewindTo a).reconcileSeen params r).orders = q.orders.filterMap (fate params r a) := by
  have hmap : (q.rewindTo a).orders.map (NameNoteQueue.seeOne params r) =
      (q.orders.filter fun o => decide (o.origin ≤ a)).map
        fun o => NameNoteQueue.seeOne params r (NameNoteQueue.reauthorize o) := List.map_map
  unfold NameNoteQueue.reconcileSeen
  rw [hmap, Lib.EventLog.filter_map_filter]
  rfl

/-- Over a truncated registry a confirmation is one between the origin and the height of the cut. -/
theorem confirmedBy_truncate (h : r.WellFormed lo) (a : ℕ) (o : Order) :
    NameNoteQueue.confirmedBy params (r.truncateToHeight a) o = true ↔
      Settled params r o.note o.origin a := by
  constructor
  · intro hconf
    refine (settled_of_confirmedBy (h.truncate a) hconf).mono ?_ le_rfl
    rw [recordHistory_truncateToHeight]
    exact (List.rdropWhile_prefix _ _).subset
  · intro hset
    exact confirmedBy_of_settled (hset.truncate h le_rfl)

theorem keepsName_iff {o : Order} :
    NameNoteQueue.keepsName r o = true ↔ o.state = .seen ∨ o.note.action = .claim ∨ Owns r o := by
  have howns : ((r.record o.note.name).any fun record => some record.commitment == o.note.prevRcm) =
    true ↔
      Owns r o := by
    rw [Option.any_eq_true]
    constructor
    · rintro ⟨e, he, hprev⟩
      exact ⟨e, he, (beq_iff_eq.mp hprev).symm⟩
    · rintro ⟨e, he, hprev⟩
      exact ⟨e, he, beq_iff_eq.mpr hprev.symm⟩
  unfold NameNoteQueue.keepsName Action.isClaim
  rw [Bool.or_eq_true, Bool.or_eq_true, howns, beq_iff_eq, beq_iff_eq, or_assoc]

/-- The state of an order that a reorg leaves. -/
theorem state_reauthorized (h : ¬ NameNoteQueue.confirmedBy params r o = true) :
    (NameNoteQueue.seeOne params r (NameNoteQueue.reauthorize o)).state =
    (NameNoteQueue.reauthorize o).state ∧
      (NameNoteQueue.reauthorize o).state ≠ .seen := by
  have hconf : ¬ NameNoteQueue.confirmedBy params r (NameNoteQueue.reauthorize o) = true := by
    unfold NameNoteQueue.confirmedBy at h ⊢
    rwa [reauthorize_note, reauthorize_origin]
  constructor
  · unfold NameNoteQueue.seeOne
    rw [if_neg hconf]
  · unfold NameNoteQueue.reauthorize
    split_ifs with hseen
    · exact fun hstate => by cases hstate
    · exact hseen

theorem fate_eq_some :
    fate params r a o = some o' ↔
      o.origin ≤ a ∧ NameNoteQueue.seeOne params r (NameNoteQueue.reauthorize o) = o' ∧
        NameNoteQueue.keepsName r o' = true := by
  unfold fate
  split_ifs with horigin
  · rw [Option.filter_eq_some_iff, Option.some.injEq]
    constructor
    · rintro ⟨heq, hkeep⟩
      exact ⟨horigin, heq, hkeep⟩
    · rintro ⟨-, heq, hkeep⟩
      exact ⟨heq, hkeep⟩
  · constructor
    · intro h
      cases h
    · rintro ⟨h, -, -⟩
      exact absurd h horigin

theorem owns_congr {o o' : Order} (h : o'.note = o.note) : Owns r o' ↔ Owns r o := by
  unfold Owns
  rw [h]

/-- An order that stays is seen exactly where a confirmation stays. -/
theorem seen_fate (h : r.WellFormed lo) (hfate : fate params (r.truncateToHeight a) a o = some o') :
    o'.state = .seen ↔ Settled params r o.note o.origin a := by
  obtain ⟨-, rfl, -⟩ := fate_eq_some.mp hfate
  have hconf : NameNoteQueue.confirmedBy params (r.truncateToHeight a) (NameNoteQueue.reauthorize o) =
      NameNoteQueue.confirmedBy params (r.truncateToHeight a) o := by
    unfold NameNoteQueue.confirmedBy
    rw [reauthorize_note, reauthorize_origin]
  rw [seeOne_seen, hconf, ← confirmedBy_truncate h]
  constructor
  · rintro (hconfirmed | hseen)
    · exact hconfirmed
    · unfold NameNoteQueue.reauthorize at hseen
      split_ifs at hseen with hold
      exact absurd hseen hold
  · exact Or.inl

/-- An order whose confirmation is gone is back in its state from before it, and owns its name. -/
theorem open_fate (h : r.WellFormed lo) (hfate : fate params (r.truncateToHeight a) a o = some o')
    (hopen : ¬ Settled params r o.note o.origin a) :
    o'.state = (NameNoteQueue.reauthorize o).state ∧
      (o.note.action ≠ .claim → Owns (r.truncateToHeight a) o) := by
  have hunseen : o'.state ≠ .seen := fun hseen => hopen ((seen_fate h hfate).mp hseen)
  obtain ⟨-, rfl, hkeep⟩ := fate_eq_some.mp hfate
  have hconf : ¬ NameNoteQueue.confirmedBy params (r.truncateToHeight a) o = true := by
    rwa [confirmedBy_truncate h]
  refine ⟨(state_reauthorized hconf).1, fun hclaim => ?_⟩
  rw [keepsName_iff, seeOne_note, reauthorize_note] at hkeep
  rcases hkeep with hseen | hclaim' | howns
  · exact absurd hseen hunseen
  · exact absurd hclaim' hclaim
  · exact (owns_congr (by rw [seeOne_note, reauthorize_note])).mp howns

/-- An order that is lost has no confirmation left, and another note is current. -/
theorem lost_fate (h : r.WellFormed lo) (horigin : o.origin ≤ a)
    (hfate : fate params (r.truncateToHeight a) a o = none) :
    o.note.action ≠ .claim ∧ ¬ Settled params r o.note o.origin a ∧ ¬ Owns (r.truncateToHeight a) o := by
  have hdropped : ¬ NameNoteQueue.keepsName (r.truncateToHeight a)
      (NameNoteQueue.seeOne params (r.truncateToHeight a) (NameNoteQueue.reauthorize o)) = true := by
    intro hkeep
    rw [fate_eq_some.mpr ⟨horigin, rfl, hkeep⟩] at hfate
    cases hfate
  rw [keepsName_iff, seeOne_note, reauthorize_note] at hdropped
  refine ⟨fun hclaim => hdropped (Or.inr (Or.inl hclaim)), fun hset => hdropped (Or.inl ?_),
    fun howns => ?_⟩
  · refine seeOne_seen.mpr (Or.inl ?_)
    have hconf := (confirmedBy_truncate h a o).mpr hset
    unfold NameNoteQueue.confirmedBy at hconf ⊢
    rwa [reauthorize_note, reauthorize_origin]
  · exact hdropped (Or.inr (Or.inr ((owns_congr (by rw [seeOne_note, reauthorize_note])).mpr howns)))

/-! ### The predecessor -/

/-- A name without an entry above `h` has the live record of the cut to `h`. -/
theorem record_truncate_of_le (hr : r.WellFormed lo) {n : Name} {k : ℕ}
    (hle : ∀ e ∈ r.recordHistory n, e.confirmedHeight ≤ k) : (r.truncateToHeight k).record n =
    r.record n := by
  rw [(hr.truncate k).live, hr.live, recordHistory_truncateToHeight]
  congr 1
  rw [List.rdropWhile_eq_self_iff]
  intro hne
  have hlast := hle _ (List.getLast_mem hne)
  simpa using hlast

/-- An order that owned its name at its origin, and no longer does at `a`, was overtaken between the
two. -/
theorem OwnedAtOrigin.overtaken {acts : List (Act RegOp)} (hf : (system params).Follows 0 acts)
    (horigin : OwnedAtOrigin params acts o) (hle : o.origin ≤ a)
    (hopen : ¬ Settled params ((system params).run new acts) o.note o.origin a)
    (hlost : ¬ Owns (((system params).run new acts).truncateToHeight a) o) :
    Overtaken params ((system params).run new acts) o a := by
  obtain ⟨before, after, rfl, hfloor, habove, e, he, hprev⟩ := horigin
  have hwf := (WellFormed.new 0).run hf
  have hbefore : WellFormed o.origin ((system params).run new before) :=
    ((WellFormed.new 0).run (((system params).follows_append before after 0).mp hf).1).mono hfloor
  set r := (system params).run new (before ++ after) with hr
  -- cut to the origin, the registry left at `a` is the one of then
  have hback : (r.truncateToHeight a).truncateToHeight o.origin = (system params).run new before := by
    have hcut : (system params).Above o.origin (after ++ [.truncate a]) := by
      constructor
      · intro x hx
        refine habove.1 x ?_
        simpa using hx
      · intro k hk
        rcases List.mem_append.mp hk with hk | hk
        · exact habove.2 k hk
        · cases List.mem_singleton.mp hk
          exact hle
    have hexact := hbefore.exact hcut
    rwa [(system params).run_append, ← (system params).run_append new before after] at hexact
  refine ⟨?_, hlost⟩
  by_contra hnone
  have hold : ∀ x ∈ (r.truncateToHeight a).recordHistory o.note.name, x.confirmedHeight ≤ o.origin := by
    intro x hx
    by_contra hlt
    have hmem : x ∈ r.recordHistory o.note.name := by
      rw [recordHistory_truncateToHeight] at hx
      exact (List.rdropWhile_prefix _ _).subset hx
    have hxa := (hwf.truncate a).stamped _ x hx
    refine hnone ⟨x, hmem, not_le.mp hlt, hxa, fun hc => hopen ?_⟩
    exact ⟨x, hmem, le_of_lt (not_le.mp hlt), hxa, hc⟩
  have hsame := record_truncate_of_le (hwf.truncate a) hold
  rw [hback] at hsame
  exact hlost ⟨e, hsame.symm.trans he, hprev⟩

/-- **A reorg rewinds the orders to what the surviving chain says.** Let the registry be reached by
operations whose heights follow the chain, let every order but a claim have owned its name at its origin,
and let `a` be any height. Cut to `a`, the queue is the fates of its orders in their old order. None
above `a` is left. One at `a` or below is lost only if it is no claim, is unconfirmed up to `a` and was
overtaken. One that is left keeps its note and its origin and is seen exactly where a confirmation is
left; without one, a seen order is authorized again, a sent one keeps its expiry, and either owns its
name unless it is a claim. -/
theorem reorg_orders {acts : List (Act RegOp)} (hf : (system params).Follows 0 acts) {q : NameNoteQueue}
    (hq : ∀ o ∈ q.orders, o.note.action ≠ .claim → OwnedAtOrigin params acts o) (a : ℕ) :
    let r := (system params).run new acts
    let r' := r.truncateToHeight a
    ((q.rewindTo a).reconcileSeen params r').orders = q.orders.filterMap (fate params r' a) ∧
    ∀ o ∈ q.orders,
      (a < o.origin → fate params r' a o = none) ∧
      (o.origin ≤ a → fate params r' a o = none →
        o.note.action ≠ .claim ∧ ¬ Settled params r o.note o.origin a ∧ Overtaken params r o a) ∧
      ∀ o', fate params r' a o = some o' →
        o'.note = o.note ∧ o'.origin = o.origin ∧
        (o'.state = .seen ↔ Settled params r o.note o.origin a) ∧
        (¬ Settled params r o.note o.origin a →
          (o.state = .seen → o'.state = .authorized) ∧
          (∀ expiry, o.state = .sent expiry → o'.state = .sent expiry) ∧
          (o.note.action ≠ .claim → Owns r' o)) := by
  intro r r'
  have hr : r.WellFormed _ := (WellFormed.new 0).run hf
  refine ⟨orders_rewound params r' q a, fun o ho =>
    ⟨fun hlt => ?_, fun hle hfate => ?_, fun o' hfate => ?_⟩⟩
  · unfold fate
    rw [if_neg (not_le.mpr hlt)]
  · obtain ⟨hclaim, hopen, hlost⟩ := lost_fate hr hle hfate
    exact ⟨hclaim, hopen, (hq o ho hclaim).overtaken hf hle hopen hlost⟩
  · obtain ⟨-, heq, -⟩ := fate_eq_some.mp hfate
    refine ⟨by rw [← heq, seeOne_note, reauthorize_note], by rw [← heq, seeOne_origin,
      reauthorize_origin],
      seen_fate hr hfate, fun hopen => ?_⟩
    obtain ⟨hstate, howns⟩ := open_fate hr hfate hopen
    refine ⟨fun hseen => ?_, fun expiry hsent => ?_, howns⟩
    · rw [hstate]
      unfold NameNoteQueue.reauthorize
      rw [if_pos hseen]
    · rw [hstate]
      unfold NameNoteQueue.reauthorize
      rw [if_neg (by rw [hsent]; exact fun h => by cases h)]
      exact hsent

/-- An anchor adopted at 1 and a claim that spends it at 2. -/
def ownedActs : List (Act RegOp) := sampleActs.take 2

/-- The release of the claimed name, decided at 3. -/
def ownedRelease : NameNote :=
  .release alice (sampleUa 1) (NameNote.commitment Params.sample (.claim alice (sampleUa 1) .never))

/-- Its order, seen in block 4. -/
def ownedOrder : Order := ⟨ownedRelease, 3, .seen, none⟩

/-- The release is confirmed at 4. -/
def confirmedActs : List (Act RegOp) := ownedActs ++
    [.op (.acceptRelease ⟨ownedRelease, rfl⟩ ⟨13⟩ [⟨11⟩] 4 0)]

/-- The block of the release is orphaned: its order is authorized again. -/
theorem reorg_orders_release :
    let r' := ((system Params.sample).run new confirmedActs).truncateToHeight 3
    (((NameNoteQueue.mk [ownedOrder]).rewindTo 3).reconcileSeen Params.sample r').orders =
      [{ ownedOrder with state := .authorized }] := by
  intro r'
  have hf : (system Params.sample).Follows 0 confirmedActs := by
    simp [System.Follows, system, confirmedActs, ownedActs, sampleActs, RegOp.height]
  have hfate : fate Params.sample r' 3 ownedOrder = some { ownedOrder with state := .authorized } := by
    decide +kernel
  have howned : OwnedAtOrigin Params.sample confirmedActs ownedOrder := by
    refine ⟨ownedActs, _, rfl, ?_, ?_, ?_⟩
    · simp [System.floor, system, ownedActs, sampleActs, RegOp.height, ownedOrder]
    · simp [System.Above, system, RegOp.height, ownedOrder]
    · exact ⟨.create Params.sample (.claim alice (sampleUa 1) .never) ⟨11⟩ 2 0, by decide +kernel, rfl⟩
  have hrewound := (reorg_orders hf (q := ⟨[ownedOrder]⟩)
    (fun o ho _ => List.mem_singleton.mp ho ▸ howned) 3).1
  rw [hrewound, List.filterMap_cons, hfate]
  rfl

/-- The reorg of the loop leaves this queue: the market's part of it changes listings only. -/
theorem nameNotes_reorg (params : Params) (s : Live) (rewound : ℕ) (mtp : ℤ) :
    (s.reorg params rewound mtp).nameNotes.orders =
      s.nameNotes.orders.filterMap (fate params (s.registry.truncateToHeight rewound) rewound) := by
  have hlist := listingsOnly_reorg params s rewound mtp
  have hnotes : (s.reorg params rewound mtp).nameNotes =
      (s.nameNotes.rewindTo rewound).reconcileSeen params (s.reorg params rewound mtp).registry := rfl
  rw [hnotes, reconcileSeen_listings hlist, orders_rewound]

end ZnsMint.Live
