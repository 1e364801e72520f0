import ZnsMint.Registry.Steps
import Mathlib.Computability.RegularExpressions

/-! # Well-formed chains

The registry as a rewindable machine, and the invariant of every run of it: the live map is the
projection of the chains, the actions of a chain follow `(Claim (Update | Sale)* Release)*`, heights do
not decrease, and no chain is stored empty. -/

namespace ZnsMint.Registry

open Basic Note Inbound Lib.Rollback

/-! ### The machine -/

/-- An operation that follows the chain, with the arguments of the source's call. Each `accept_*`
takes the kind of note its assertion asks for. -/
inductive RegOp where
  | adoptAnchor (height : ℕ) (nf : Nullifier)
  | acceptClaim (note : { n : NameNote // n.action = .claim }) (nullifier : Nullifier)
      (successor : Option Nullifier) (nfs : List Nullifier) (height : ℕ) (mtp : ℤ) (expiry : ℕ)
  | acceptUpdate (note : { n : NameNote // n.action = .update }) (nullifier : Nullifier)
      (nfs : List Nullifier) (height : ℕ) (mtp : ℤ)
  | acceptRelease (note : { n : NameNote // n.action = .release }) (nullifier : Nullifier)
      (nfs : List Nullifier) (height : ℕ) (mtp : ℤ)
  | acceptSale (note : { n : NameNote // n.action = .sale }) (nullifier : Nullifier)
      (nfs : List Nullifier) (height : ℕ) (mtp : ℤ)
  | followSpends (nfs : List Nullifier) (height : ℕ)

namespace RegOp

def height : RegOp → ℕ
  | adoptAnchor h _ => h
  | acceptClaim _ _ _ _ h _ _ => h
  | acceptUpdate _ _ _ h _ => h
  | acceptRelease _ _ _ h _ => h
  | acceptSale _ _ _ h _ => h
  | followSpends _ h => h

/-- The state and the verdict after the operation; adoption and following have no verdict. -/
def apply (params : Params) (r : Registry) : RegOp → Registry × Bool
  | adoptAnchor h nf => (r.adoptAnchor h nf, false)
  | acceptClaim note nf succ nfs h mtp expiry =>
    Registry.acceptClaim params r note nf succ nfs h mtp expiry
  | acceptUpdate note nf nfs h mtp => Registry.acceptUpdate params r note nf nfs h mtp
  | acceptRelease note nf nfs h mtp => Registry.acceptRelease params r note nf nfs h mtp
  | acceptSale note nf nfs h mtp => Registry.acceptSale params r note nf nfs h mtp
  | followSpends nfs h => (r.followSpends nfs h, false)

end RegOp

/-- The registry as a rewindable machine. -/
def system (params : Params) : System Registry RegOp where
  step r o := (o.apply params r).1
  height := RegOp.height
  truncate := truncateToHeight

variable {params : Params} {r : Registry} {lo height : ℕ}

theorem micros_step (params : Params) (h : r.Keyed) (o : RegOp) :
    Micros o.height r ((system params).step r o) := by
  cases o with
  | adoptAnchor height nf => exact .single (.adopt r nf)
  | acceptClaim note nf succ nfs height mtp expiry =>
    exact micros_acceptClaim h note.2 nf succ nfs mtp expiry
  | acceptUpdate note nf nfs height mtp => exact micros_acceptSuccessor h (Or.inl note.2) nf nfs mtp
  | acceptRelease note nf nfs height mtp =>
    exact micros_acceptSuccessor h (Or.inr (Or.inl note.2)) nf nfs mtp
  | acceptSale note nf nfs height mtp =>
    exact micros_acceptSuccessor h (Or.inr (Or.inr note.2)) nf nfs mtp
  | followSpends nfs height => exact micros_followSpends h nfs height

/-! ### The grammar of a chain -/

/-- `(Claim (Update | Sale)* Release)*`. -/
def chainExpr : RegularExpression Action :=
  .star (.char .claim * .star (.char .update + .char .sale) * .char .release)

/-- The automaton of `chainExpr`: whether the name is held, absent once the word has left the
language's prefixes. -/
def chainStep : Option Bool → Action → Option Bool
  | some false, .claim => some true
  | some true, .update => some true
  | some true, .sale => some true
  | some true, .release => some false
  | _, _ => none

def chainState (actions : List Action) : Option Bool := actions.foldl chainStep (some false)

theorem chainState_append_singleton (l : List Action) (a : Action) :
    chainState (l ++ [a]) = chainStep (chainState l) a := by
  simp [chainState]

/-- A prefix of a well-formed chain is well formed. -/
theorem chainState_ne_none_of_prefix {l m : List Action} (h : chainState (l ++ m) ≠ none) :
    chainState l ≠ none := by
  induction m using List.reverseRecOn with
  | nil => simpa using h
  | append_singleton m a ih =>
    refine ih fun hn => h ?_
    rw [← List.append_assoc, chainState_append_singleton, hn]
    rfl

theorem chainStep_eq_some {st : Option Bool} {a : Action} {b : Bool} (h : chainStep st a = some b) :
    (st = some false ∧ a = .claim ∧ b = true) ∨
      (st = some true ∧ (a = .update ∨ a = .sale) ∧ b = true) ∨
      (st = some true ∧ a = .release ∧ b = false) := by
  rcases st with _ | st
  · cases h
  · cases st <;> cases a <;> simp_all [chainStep]

/-- The state is held exactly when the last action is there and is not a release. -/
theorem chainState_eq {l : List Action} {b : Bool} (h : chainState l = some b) :
    b = (l.getLast?.any fun a => !a.isRelease) := by
  induction l using List.reverseRecOn with
  | nil => simpa [chainState, eq_comm] using h
  | append_singleton l a _ =>
    rw [chainState_append_singleton] at h
    rcases chainStep_eq_some h with ⟨-, rfl, rfl⟩ | ⟨-, rfl | rfl, rfl⟩ | ⟨-, rfl, rfl⟩ <;>
      simp [Action.isRelease]

/-- The words of `chainExpr` that end with a held name open: a word, a claim, and renewals. -/
def Held (l : List Action) : Prop :=
  ∃ w ∈ chainExpr.matches', ∃ mid : List Action,
    (∀ a ∈ mid, a = .update ∨ a = .sale) ∧ l = w ++ .claim :: mid

theorem term_mem {mid : List Action} (hmid : ∀ a ∈ mid, a = Action.update ∨ a = .sale) :
    (Action.claim :: mid) ++ [.release] ∈
      (RegularExpression.char Action.claim *
        .star (.char .update + .char .sale) * .char .release).matches' := by
  have hstar : mid ∈ (RegularExpression.star (.char Action.update + .char .sale)).matches' := by
    rw [RegularExpression.matches'_star, Language.mem_kstar]
    refine ⟨mid.map fun a => [a], by rw [← List.flatMap_def, List.flatMap_singleton'], fun y hy => ?_⟩
    obtain ⟨a, ha, rfl⟩ := List.mem_map.mp hy
    rcases hmid a ha with rfl | rfl
    · exact Or.inl rfl
    · exact Or.inr rfl
  rw [RegularExpression.matches'_mul, RegularExpression.matches'_mul]
  exact Set.mem_image2.mpr ⟨_, Set.mem_image2.mpr ⟨[.claim], rfl, mid, hstar, rfl⟩, [.release], rfl, rfl⟩

theorem close_mem {w mid : List Action} (hw : w ∈ chainExpr.matches')
    (hmid : ∀ a ∈ mid, a = Action.update ∨ a = .sale) :
    w ++ .claim :: mid ++ [.release] ∈ chainExpr.matches' := by
  rw [chainExpr, RegularExpression.matches'_star] at hw ⊢
  obtain ⟨S, rfl, hS⟩ := Language.mem_kstar.mp hw
  refine Language.mem_kstar.mpr ⟨S ++ [.claim :: mid ++ [.release]], by simp, fun y hy => ?_⟩
  rcases List.mem_append.mp hy with hy | hy
  · exact hS y hy
  · rw [List.mem_singleton.mp hy]
    exact term_mem hmid

theorem chainState_sound (l : List Action) :
    (chainState l = some false → l ∈ chainExpr.matches') ∧ (chainState l = some true → Held l) := by
  induction l using List.reverseRecOn with
  | nil =>
    refine ⟨fun _ => ?_, fun h => by simp [chainState] at h⟩
    rw [chainExpr, RegularExpression.matches'_star]
    exact Language.nil_mem_kstar _
  | append_singleton l a ih =>
    rw [chainState_append_singleton]
    constructor
    · intro h
      rcases chainStep_eq_some h with ⟨-, -, h'⟩ | ⟨-, -, h'⟩ | ⟨hst, rfl, -⟩
      · cases h'
      · cases h'
      · obtain ⟨w, hw, mid, hmid, rfl⟩ := ih.2 hst
        exact close_mem hw hmid
    · intro h
      rcases chainStep_eq_some h with ⟨hst, rfl, -⟩ | ⟨hst, ha, -⟩ | ⟨-, -, h'⟩
      · exact ⟨l, ih.1 hst, [], by simp, rfl⟩
      · obtain ⟨w, hw, mid, hmid, rfl⟩ := ih.2 hst
        refine ⟨w, hw, mid ++ [a], fun b hb => ?_, by simp⟩
        rcases List.mem_append.mp hb with hb | hb
        · exact hmid b hb
        · rw [List.mem_singleton.mp hb]; exact ha
      · cases h'

/-- Every word the automaton has not rejected is a prefix of a word of `chainExpr`. -/
theorem chainState_prefix {l : List Action} (h : chainState l ≠ none) :
    ∃ w ∈ chainExpr.matches', l <+: w := by
  obtain ⟨b, hb⟩ := Option.ne_none_iff_exists'.mp h
  cases b with
  | false => exact ⟨l, (chainState_sound l).1 hb, List.prefix_rfl⟩
  | true =>
    obtain ⟨w, hw, mid, hmid, rfl⟩ := (chainState_sound l).2 hb
    exact ⟨_, close_mem hw hmid, List.prefix_append _ _⟩

/-! ### The invariant -/

/-- What holds of a registry whose blocks so far lie at `lo` or below. -/
structure WellFormed (lo : ℕ) (r : Registry) : Prop where
  nonempty : ∀ (n : Name) (l : List NameRecord), r.history[n]? = some l → l ≠ []
  named : ∀ n, ∀ e ∈ r.recordHistory n, e.name = n
  stamped : ∀ n, ∀ e ∈ r.recordHistory n, e.confirmedHeight ≤ lo
  ordered : ∀ n, (r.recordHistory n).Pairwise fun a b => a.confirmedHeight ≤ b.confirmedHeight
  grammar : ∀ n, chainState ((r.recordHistory n).map NameRecord.action) ≠ none
  live : ∀ n, r.record n = liveOf (r.recordHistory n)
  pool : r.anchors.AtHeight lo

theorem WellFormed.new (lo : ℕ) : WellFormed lo new where
  nonempty n l h := by simp [Registry.new] at h
  named := by simp
  stamped := by simp
  ordered := by simp
  grammar := by simp [chainState]
  live := by simp [liveOf]
  pool := .empty lo

theorem WellFormed.mono (h : WellFormed lo r) (hlo : lo ≤ height) : WellFormed height r :=
  { h with
    stamped := fun n e he => le_trans (h.stamped n e he) hlo
    pool := h.pool.mono hlo }

theorem mem_of_liveOf {l : List NameRecord} {e : NameRecord} (h : liveOf l = some e) :
    l.getLast? = some e ∧ e.action.isRelease = false := by
  rw [liveOf, Option.filter_eq_some_iff] at h
  exact ⟨h.1, by simpa using h.2⟩

theorem WellFormed.keyed (h : WellFormed lo r) : r.Keyed := by
  intro n e he
  rw [h.live] at he
  exact h.named n e (List.mem_of_getLast? (mem_of_liveOf he).1)

/-- The automaton's state is the live map. -/
theorem WellFormed.state (h : WellFormed lo r) (n : Name) :
    chainState ((r.recordHistory n).map NameRecord.action) = some (r.record n).isSome := by
  obtain ⟨b, hb⟩ := Option.ne_none_iff_exists'.mp (h.grammar n)
  rw [hb, chainState_eq hb, h.live, liveOf, List.getLast?_map]
  cases (r.recordHistory n).getLast? with
  | none => rfl
  | some e => cases he : e.action.isRelease <;> simp [Option.filter, he]

theorem chainStep_of_legal {e : NameRecord} (h : r.Legal e) :
    chainStep (some (r.record e.name).isSome) e.action ≠ none := by
  unfold Legal at h
  cases ha : e.action <;> rw [ha] at h <;> simp only at h
  · rw [h]; simp [chainStep]
  all_goals first | exact h.elim | (obtain ⟨l, hl⟩ := h; rw [hl]; simp [chainStep])

theorem WellFormed.write (h : WellFormed lo r) {e : NameRecord} (hlo : lo ≤ e.confirmedHeight)
    (hlegal : r.Legal e) : WellFormed e.confirmedHeight (r.setRecord e) where
  nonempty _ _ hl := history_setRecord_ne_nil h.nonempty e hl
  named n x hx := by
    rw [recordHistory_setRecord] at hx
    split_ifs at hx with hn
    · rcases List.mem_append.mp hx with hx | hx
      · rw [← hn]; exact h.named _ x hx
      · rw [List.mem_singleton.mp hx, hn]
    · exact h.named n x hx
  stamped n x hx := by
    rw [recordHistory_setRecord] at hx
    split_ifs at hx
    · rcases List.mem_append.mp hx with hx | hx
      · exact le_trans (h.stamped _ x hx) hlo
      · rw [List.mem_singleton.mp hx]
    · exact le_trans (h.stamped n x hx) hlo
  ordered n := by
    rw [recordHistory_setRecord]
    split_ifs
    · refine List.pairwise_append.mpr ⟨h.ordered _, by simp, fun a ha b hb => ?_⟩
      rw [List.mem_singleton.mp hb]
      exact le_trans (h.stamped _ a ha) hlo
    · exact h.ordered n
  grammar n := by
    rw [recordHistory_setRecord]
    split_ifs with hn
    · rw [List.map_append, List.map_singleton, chainState_append_singleton, h.state]
      exact chainStep_of_legal hlegal
    · exact h.grammar n
  live n := by
    rw [record_setRecord, recordHistory_setRecord]
    split_ifs with hn hrel
    · simp [liveOf, Option.filter, hrel]
    · simp [liveOf, Option.filter, hrel]
    · exact h.live n
  pool := h.pool.mono hlo

theorem WellFormed.with_anchors (h : WellFormed lo r) (hlo : lo ≤ height) {p : AnchorPool}
    (hp : p.AtHeight height) : WellFormed height { r with anchors := p } :=
  { h.mono hlo with pool := hp }

theorem WellFormed.micro {r' : Registry} (h : WellFormed lo r) (hlo : lo ≤ height)
    (hm : Micro height r r') : WellFormed height r' := by
  cases hm with
  | write e hheight hlegal => subst hheight; exact h.write hlo hlegal
  | adopt nf => exact h.with_anchors hlo (h.pool.adopt hlo nf)
  | retire nfs succ => exact h.with_anchors hlo (h.pool.retireSpent hlo nfs succ)

theorem WellFormed.micros {r' : Registry} (h : WellFormed height r) (hm : Micros height r r') :
    WellFormed height r' := by
  induction hm with
  | refl => exact h
  | tail _ hstep ih => exact ih.micro le_rfl hstep

/-! ### Truncation -/

theorem recordHistory_truncateToHeight (r : Registry) (k : ℕ) (n : Name) :
    (r.truncateToHeight k).recordHistory n =
      (r.recordHistory n).rdropWhile fun e => decide (k < e.confirmedHeight) := by
  simp only [recordHistory, truncateToHeight, Std.ExtTreeMap.getElem?_filterMap']
  cases r.history[n]? with
  | none => simp
  | some l =>
    simp only [Option.bind_some, cutChain, Option.getD_some]
    split_ifs with h
    · exact (List.isEmpty_iff.mp h).symm
    · rfl

theorem truncateToHeight_nonempty (r : Registry) (k : ℕ) {n : Name} {l : List NameRecord}
    (hl : (r.truncateToHeight k).history[n]? = some l) : l ≠ [] := by
  simp only [truncateToHeight, Std.ExtTreeMap.getElem?_filterMap', Option.bind_eq_some_iff] at hl
  obtain ⟨l', -, h⟩ := hl
  simp only [cutChain] at h
  split_ifs at h with he
  cases h
  simpa [List.isEmpty_iff] using he

theorem getElem?_rebuildOne (live : NameMap NameRecord) {p : Name × List NameRecord} (n : Name)
    (hm : ∀ e ∈ p.2, e.name = p.1) :
    (rebuildOne live p)[n]? = if p.1 = n then (liveOf p.2).or live[n]? else live[n]? := by
  unfold rebuildOne
  cases h : liveOf p.2 with
  | none => simp
  | some e =>
    have he := hm e (List.mem_of_getLast? (mem_of_liveOf h).1)
    simp only [Std.ExtTreeMap.getElem?_insert, Std.LawfulEqCmp.compare_eq_iff_eq, he, Option.some_or]

theorem rebuild_foldl (n : Name) :
    ∀ (entries : List (Name × List NameRecord)) (live : NameMap NameRecord),
      (∀ p ∈ entries, ∀ e ∈ p.2, e.name = p.1) →
      (entries.map Prod.fst).Nodup → (n ∈ entries.map Prod.fst → live[n]? = none) →
      (entries.foldl rebuildOne live)[n]? =
        ((entries.find? fun p => p.1 == n).elim live[n]? fun p => liveOf p.2)
  | [], live, _, _, _ => by simp
  | p :: entries, live, hnamed, hnodup, hfree => by
    rw [List.map_cons, List.nodup_cons] at hnodup
    rw [List.foldl_cons, List.find?_cons]
    by_cases hp : p.1 = n
    · have hnot : n ∉ entries.map Prod.fst := hp ▸ hnodup.1
      rw [rebuild_foldl n entries _ (fun q hq => hnamed q (List.mem_cons_of_mem _ hq)) hnodup.2
        (fun h => absurd h hnot), getElem?_rebuildOne _ _ (hnamed p (by simp)), if_pos hp,
          hfree (by simp [hp]),
        Option.or_none]
      have hfind : entries.find? (fun q => q.1 == n) = none := by
        rw [List.find?_eq_none]
        intro q hq hqn
        exact hnot (List.mem_map.mpr ⟨q, hq, by simpa using hqn⟩)
      simp [hp, hfind]
    · have hstep := getElem?_rebuildOne live n (hnamed p (by simp))
      rw [if_neg hp] at hstep
      rw [rebuild_foldl n entries _ (fun q hq => hnamed q (List.mem_cons_of_mem _ hq)) hnodup.2
        (fun h => hstep.trans (hfree (by simp [h]))), hstep]
      have : (p.1 == n) = false := by simpa using hp
      rw [this]

/-- Rebuilding gives each name the live record of its chain. -/
theorem getElem?_rebuild {history : NameMap (List NameRecord)}
    (hnamed : ∀ (m : Name) l, history[m]? = some l → ∀ e ∈ l, e.name = m) (n : Name) :
    (rebuild history)[n]? = (history[n]?).bind liveOf := by
  rw [rebuild, rebuild_foldl n history.toList ∅
      (fun p hp => hnamed p.1 p.2 (Std.ExtTreeMap.mem_toList_iff_getElem?_eq_some.mp hp))
      (by rw [Std.ExtTreeMap.map_fst_toList_eq_keys]; exact Std.ExtTreeMap.nodup_keys) (by simp)]
  cases h : history[n]? with
  | none =>
    have hfind : history.toList.find? (fun p => p.1 == n) = none := by
      rw [List.find?_eq_none]
      rintro ⟨m, l⟩ hp hm
      have hmn : m = n := beq_iff_eq.mp hm
      rw [Std.ExtTreeMap.mem_toList_iff_getElem?_eq_some, hmn, h] at hp
      cases hp
    simp [hfind]
  | some l =>
    have hmem := Std.ExtTreeMap.mem_toList_iff_getElem?_eq_some.mpr h
    obtain ⟨p, hp⟩ := Option.isSome_iff_exists.mp
      (List.find?_isSome (p := fun p => p.1 == n).mpr ⟨(n, l), hmem, by simp⟩)
    have hpn : p.1 = n := by simpa using List.find?_some hp
    have hpl := Std.ExtTreeMap.mem_toList_iff_getElem?_eq_some.mp
      (show (p.1, p.2) ∈ history.toList from List.mem_of_find?_eq_some hp)
    rw [hpn, h] at hpl
    rw [hp, Option.elim_some, Option.bind_some, Option.some.inj hpl]

theorem record_truncateToHeight (hnamed : ∀ n, ∀ e ∈ r.recordHistory n, e.name = n) (k : ℕ) (n : Name) :
    (r.truncateToHeight k).record n = liveOf ((r.truncateToHeight k).recordHistory n) := by
  have hlookup : ∀ (m : Name) l, (r.truncateToHeight k).history[m]? = some l → ∀ e ∈ l, e.name = m := by
    intro m l hl e he
    have hl' : (r.truncateToHeight k).recordHistory m = l := by simp [recordHistory, hl]
    rw [← hl', recordHistory_truncateToHeight] at he
    exact hnamed m e ((List.rdropWhile_prefix _ _).subset he)
  refine (getElem?_rebuild hlookup n).trans ?_
  rw [recordHistory]
  cases (r.truncateToHeight k).history[n]? with
  | none => simp [liveOf]
  | some l => simp

theorem WellFormed.truncate (h : WellFormed lo r) (k : ℕ) : WellFormed k (r.truncateToHeight k) where
  nonempty _ _ hl := truncateToHeight_nonempty r k hl
  named n e he := by
    rw [recordHistory_truncateToHeight] at he
    exact h.named n e ((List.rdropWhile_prefix _ _).subset he)
  stamped n e he := by
    rw [recordHistory_truncateToHeight] at he
    -- the last record kept is at `k` or below, and the chain is ordered
    have hne := List.ne_nil_of_mem he
    have hlast : ¬k < (List.getLast _ hne).confirmedHeight := by
      simpa using List.rdropWhile_last_not _ _ hne
    have hord := (h.ordered n).sublist
      (List.rdropWhile_prefix (fun e => decide (k < e.confirmedHeight)) (r.recordHistory n)).sublist
    rw [← List.dropLast_append_getLast hne] at he hord
    rcases List.mem_append.mp he with he | he
    · have := (List.pairwise_append.mp hord).2.2 e he _ (List.mem_singleton_self _)
      omega
    · rw [List.mem_singleton.mp he]
      omega
  ordered n := by
    rw [recordHistory_truncateToHeight]
    exact (h.ordered n).sublist (List.rdropWhile_prefix _ _).sublist
  grammar n := by
    rw [recordHistory_truncateToHeight]
    obtain ⟨m, hm⟩ := List.rdropWhile_prefix (fun e : NameRecord => decide (k < e.confirmedHeight))
      (r.recordHistory n)
    have := h.grammar n
    rw [← hm, List.map_append] at this
    exact chainState_ne_none_of_prefix this
  live := record_truncateToHeight h.named k
  pool := .truncateTo _ k

/-- A truncation stamps nothing anew. -/
theorem WellFormed.truncate_keep (h : WellFormed lo r) (k : ℕ) :
    WellFormed lo (r.truncateToHeight k) :=
  { h.truncate k with
    stamped := fun n e he => by
      rw [recordHistory_truncateToHeight] at he
      exact h.stamped n e ((List.rdropWhile_prefix _ _).subset he)
    pool := h.pool.truncateTo_keep k }

/-! ### Every reachable registry -/

theorem WellFormed.run {acts : List (Act RegOp)} (h : WellFormed lo r)
    (hf : (system params).Follows lo acts) :
    WellFormed ((system params).floor lo acts) ((system params).run r acts) := by
  refine (system params).run_invariant (P := WellFormed) (Q := fun _ => True) (T := fun _ => True)
    (fun lo s o hs hlo _ => ?_) (fun lo s k hs _ => ?_) acts lo r h hf (fun _ _ => trivial)
    fun _ _ => trivial
  · exact (hs.mono hlo).micros (micros_step params hs.keyed o)
  · exact (hs.truncate k).mono (Nat.le_succ k)

theorem wellFormed_run {acts : List (Act RegOp)} (hf : (system params).Follows 0 acts) :
    ∃ lo, WellFormed lo ((system params).run new acts) :=
  ⟨_, (WellFormed.new 0).run hf⟩

/-- The entry an accepted update, release or sale appends, and the one it follows. -/
theorem acceptSuccessor_link {note : NameNote} {nf : Nullifier} {nfs : List Nullifier} {mtp : ℤ}
    (h : WellFormed lo r) (hok : (acceptSuccessor params r note nf nfs height mtp).2 = true) :
    ∃ prev e, r.record note.name = some prev ∧
      (r.recordHistory note.name).getLast? = some prev ∧
      note.prevRcm = some prev.commitment ∧ e.commitment = note.commitment params ∧
      (acceptSuccessor params r note nf nfs height mtp).1.recordHistory note.name =
        r.recordHistory note.name ++ [e] := by
  unfold acceptSuccessor at hok ⊢
  split at hok
  · cases hok
  · rename_i record hspent
    have hlive := (record_of_predecessorSpent hspent).1
    split_ifs at hok ⊢ with hprev
    refine ⟨record, .create params note nf height mtp, hlive, ?_, not_not.mp hprev, rfl, ?_⟩
    · rw [h.live] at hlive
      exact (mem_of_liveOf hlive).1
    · exact (recordHistory_setRecord _ _ _).trans (if_pos rfl)

/-- The operation is an `accept_update`, `accept_release` or `accept_sale` of `note`. -/
def RegOp.Succeeds (o : RegOp) (note : NameNote) : Prop :=
  match o with
  | .acceptUpdate n _ _ _ _ => n.1 = note
  | .acceptRelease n _ _ _ _ => n.1 = note
  | .acceptSale n _ _ _ _ => n.1 = note
  | _ => False

theorem RegOp.apply_succeeds (params : Params) {o : RegOp} {note : NameNote} (ho : o.Succeeds note)
    (r : Registry) :
    ∃ nf nfs mtp, o.apply params r = acceptSuccessor params r note nf nfs o.height mtp := by
  cases o with
  | acceptUpdate n nf nfs h mtp | acceptRelease n nf nfs h mtp | acceptSale n nf nfs h mtp =>
    cases ho
    exact ⟨nf, nfs, mtp, rfl⟩
  | _ => exact ho.elim

/-- **Chains are well formed and the live map is their projection**, in every registry reached by
operations whose heights follow the chain; and an accepted successor is linked to the live entry it
follows. -/
theorem reachable_chains {acts : List (Act RegOp)} (hf : (system params).Follows 0 acts) :
    let r := (system params).run new acts
    (∀ n e, r.record n = some e ↔
      (r.recordHistory n).getLast? = some e ∧ e.action ≠ .release) ∧
    (∀ n, ∃ w ∈ chainExpr.matches', (r.recordHistory n).map NameRecord.action <+: w) ∧
    (∀ n, (r.recordHistory n).Pairwise fun a b => a.confirmedHeight ≤ b.confirmedHeight) ∧
    (∀ n : Name, r.history[n]? ≠ some []) ∧
    ∀ (o : RegOp) (note : NameNote), o.Succeeds note → (o.apply params r).2 = true →
      ∃ prev e, r.record note.name = some prev ∧ (r.recordHistory note.name).getLast? = some prev ∧
        note.prevRcm = some prev.commitment ∧ e.commitment = note.commitment params ∧
        (o.apply params r).1.recordHistory note.name = r.recordHistory note.name ++ [e] := by
  intro r
  obtain ⟨lo, h⟩ := wellFormed_run hf
  refine ⟨fun n e => ?_, fun n => chainState_prefix (h.grammar n), h.ordered,
    fun n hn => h.nonempty n [] hn rfl, fun o note ho hok => ?_⟩
  · rw [show r.record n = liveOf (r.recordHistory n) from h.live n, liveOf,
      Option.filter_eq_some_iff]
    simp [Action.isRelease]
  · obtain ⟨nf, nfs, mtp, heq⟩ := RegOp.apply_succeeds params ho r
    rw [heq] at hok ⊢
    exact acceptSuccessor_link h hok

/-- An anchor adopted at 1, a claim that spends it at 2, and the claimed note spent at 3 by an update
that names another predecessor, which releases the name. -/
def sampleActs : List (Act RegOp) :=
  [.op (.adoptAnchor 1 ⟨10⟩),
    .op (.acceptClaim ⟨.claim alice (sampleUa 1) .never, rfl⟩ ⟨11⟩ (some ⟨12⟩) [⟨10⟩] 2 0 42),
    .op (.acceptUpdate ⟨.update alice (sampleUa 2) .never ⟨⟨0, by decide⟩⟩, rfl⟩ ⟨13⟩ [⟨11⟩] 3 0)]

theorem reachable_chains_sample :
    (system Params.sample).Follows 0 sampleActs ∧
      ∃ w ∈ chainExpr.matches',
        (((system Params.sample).run new sampleActs).recordHistory alice).map NameRecord.action <+: w :=
  have hf : (system Params.sample).Follows 0 sampleActs := by
    simp [System.Follows, system, sampleActs, RegOp.height]
  ⟨hf, (reachable_chains hf).2.1 alice⟩

end ZnsMint.Registry
