import ZnsMint.Registry.Blocks

/-! # How old a claim is

The gate of `accept_claim` reads a transaction's age off its expiry: a claim built for the height `t`
expires `txExpiryDelta t` blocks later, and it is refused over a free name whose last entry is a release
at `t` or above. A release stays on the chain until a truncation below it, and whatever follows it is a
claim, which holds the name, or ends in a later release; so a claim older than one release of the name is
refused for good. -/

namespace ZnsMint.Registry

open Basic Note Lib.Rollback

variable {params : Params} {r : Registry} {lo height t : ℕ} {name : Name}

/-! ### What the gate decides -/

/-- Over a release the gate compares the two target heights, whatever the window is at either. -/
theorem builtBeforeRelease_iff (hdelta : Monotone params.txExpiryDelta) {latest : NameRecord}
    (hlast : (r.recordHistory name).getLast? = some latest) (hrelease : latest.action = .release) :
    builtBeforeRelease params r name (t + params.txExpiryDelta t) = true ↔
      t ≤ latest.confirmedHeight := by
  have hiff : builtBeforeRelease params r name (t + params.txExpiryDelta t) = true ↔
      t + params.txExpiryDelta t ≤ latest.confirmedHeight +
        params.txExpiryDelta latest.confirmedHeight := by
    simp [builtBeforeRelease, hlast, hrelease, Action.isRelease]
  rw [hiff]
  constructor
  · intro hle
    by_contra hlt
    have hwindow := hdelta (le_of_not_ge hlt)
    omega
  · intro hle
    have hwindow := hdelta hle
    omega

/-- A name whose last entry is a release is free. -/
theorem WellFormed.free_of_release (h : WellFormed lo r) {latest : NameRecord}
    (hlast : (r.recordHistory name).getLast? = some latest) (hrelease : latest.action = .release) :
    r.record name = none := by
  rw [h.live, liveOf, hlast]
  simp [Option.filter, hrelease, Action.isRelease]

/-- Nothing on a chain is higher than its last entry. -/
theorem WellFormed.le_last (h : WellFormed lo r) {e latest : NameRecord} (he : e ∈ r.recordHistory name)
    (hlast : (r.recordHistory name).getLast? = some latest) :
    e.confirmedHeight ≤ latest.confirmedHeight := by
  obtain ⟨front, hfront⟩ := List.getLast?_eq_some_iff.mp hlast
  have hord := h.ordered name
  rw [hfront] at he hord
  rcases List.mem_append.mp he with he | he
  · exact (List.pairwise_append.mp hord).2.2 e he latest (List.mem_singleton_self _)
  · rw [List.mem_singleton.mp he]

/-- A claim built at a height on the name's chain or below it finds the name held, or the gate shut. -/
theorem WellFormed.held_or_old (h : WellFormed lo r) (hdelta : Monotone params.txExpiryDelta)
    {e : NameRecord}
    (he : e ∈ r.recordHistory name) (ht : t ≤ e.confirmedHeight) :
    r.record name ≠ none ∨ builtBeforeRelease params r name (t + params.txExpiryDelta t) = true := by
  obtain ⟨latest, hlast⟩ : ∃ latest, (r.recordHistory name).getLast? = some latest := by
    rw [← Option.ne_none_iff_exists', ne_eq, List.getLast?_eq_none_iff]
    exact List.ne_nil_of_mem he
  by_cases hrelease : latest.action = .release
  · right
    rw [builtBeforeRelease_iff hdelta hlast hrelease]
    exact le_trans ht (h.le_last he hlast)
  · left
    have hlive : r.record name = some latest := by
      rw [h.live, liveOf, hlast]
      simp [Option.filter, Action.isRelease, hrelease]
    rw [hlive]
    exact Option.some_ne_none latest

/-! ### What a refused claim writes -/

theorem mem_recordHistory_markReleasedOne {n : Name} {e : NameRecord} (height : ℕ) (name : Name)
    (he : e ∈ (r.markReleasedOne height name).recordHistory n) : e ∈ r.recordHistory n ∨ e.action =
    .release := by
  unfold markReleasedOne at he
  split at he
  · exact Or.inl he
  · rename_i record _
    rw [recordHistory_setRecord] at he
    split_ifs at he with hn
    · rcases List.mem_append.mp he with he | he
      · rw [← hn]
        exact Or.inl he
      · rw [List.mem_singleton.mp he]
        exact Or.inr rfl
    · exact Or.inl he

theorem mem_recordHistory_markReleased {n : Name} {e : NameRecord} (nfs : List Nullifier) (height : ℕ)
    (he : e ∈ (r.markReleased nfs height).recordHistory n) : e ∈ r.recordHistory n ∨ e.action =
    .release := by
  unfold markReleased at he
  generalize r.namesSpentBy nfs = names at he
  induction names generalizing r with
  | nil => exact Or.inl he
  | cons m names ih =>
    rcases ih he with he | he
    · exact mem_recordHistory_markReleasedOne height m he
    · exact Or.inr he

/-- A refused claim writes nothing but releases. -/
theorem mem_recordHistory_acceptClaim_false {note : NameNote} {nf : Nullifier} {succ : Option Nullifier}
    {nfs : List Nullifier} {mtp : ℤ} {expiry : ℕ} {n : Name} {e : NameRecord}
    (hno : (acceptClaim params r note nf succ nfs height mtp expiry).2 = false)
    (he : e ∈ (acceptClaim params r note nf succ nfs height mtp expiry).1.recordHistory n) :
    e ∈ r.recordHistory n ∨ e.action = .release := by
  rcases acceptClaim_cases params r note nf succ nfs height mtp expiry with
    ⟨-, heq⟩ | ⟨-, -, heq⟩ | ⟨s, -, -, -, -, -, heq⟩
  · rw [heq] at he
    exact mem_recordHistory_markReleased (r :=
      { r with anchors := r.anchors.retireSpent nfs none height })
      nfs height he
  · rw [heq] at he
    exact Or.inl he
  · rw [heq] at hno
    cases hno

/-! ### Every run -/

/-- An entry stays on its chain until a truncation below it. -/
theorem mem_recordHistory_run {acts : List (Act RegOp)} (h : WellFormed lo r)
    (hf : (system params).Follows lo acts) {e : NameRecord} (he : e ∈ r.recordHistory name)
    (hcut : ∀ k, Act.truncate k ∈ acts → e.confirmedHeight ≤ k) :
    e ∈ ((system params).run r acts).recordHistory name := by
  have hrun := (system params).run_invariant (P := fun lo r => WellFormed lo r ∧ e ∈ r.recordHistory name)
    (Q := fun _ => True) (T := fun k => e.confirmedHeight ≤ k) (fun lo s o hs hlo _ => ?_)
    (fun lo s k hs hk => ?_)
    acts lo r ⟨h, he⟩ hf (fun _ _ => trivial) hcut
  · exact hrun.2
  · have hmicros := micros_step params hs.1.keyed o
    exact ⟨(hs.1.mono hlo).micros hmicros, (recordHistory_micros hmicros name).subset hs.2⟩
  · exact ⟨(hs.1.truncate k).mono (Nat.le_succ k), mem_recordHistory_truncateToHeight hs.1 hs.2 hk⟩

/-- **A claim is as old as its expiry says.** In a registry reached by operations whose heights follow
the chain, let a name's last entry be a release, and let a claim of that name expire in the window of the
height `t` it was built for. Built at the release's height or below, it never registers: neither here nor
after any further operations, as long as nothing is cut below the release; and what its refusal writes
are releases. Built above, it registers here if and only if it has a successor, spends one standing
anchor and spends no Name Note. -/
theorem claim_age {acts : List (Act RegOp)} (hdelta : Monotone params.txExpiryDelta)
    (hf : (system params).Follows 0 acts) {note : NameNote} {release : NameRecord}
    (hlast : (((system params).run new acts).recordHistory note.name).getLast? = some release)
    (hrelease : release.action = .release) (t : ℕ) (nf : Nullifier) (succ : Option Nullifier)
    (nfs : List Nullifier) (height : ℕ) (mtp : ℤ) :
    (t ≤ release.confirmedHeight → ∀ more : List (Act RegOp), (system params).Follows 0 (acts ++ more) →
      (∀ k, Act.truncate k ∈ more → release.confirmedHeight ≤ k) →
      let later := (system params).run new (acts ++ more)
      let offered := acceptClaim params later note nf succ nfs height mtp (t + params.txExpiryDelta t)
      offered.2 = false ∧
        ∀ e ∈ offered.1.recordHistory note.name, e ∈ later.recordHistory note.name ∨
          e.action = .release) ∧
    (release.confirmedHeight < t →
      let here := (system params).run new acts
      ((acceptClaim params here note nf succ nfs height mtp (t + params.txExpiryDelta t)).2 = true ↔
        succ ≠ none ∧ (nfs.filter here.anchors.contains).length = 1 ∧ here.namesSpentBy nfs = [])) := by
  have hhere := (WellFormed.new 0).run hf
  constructor
  · intro ht more hmore hcut later offered
    have hfollows := ((system params).follows_append acts more 0).mp hmore
    have hlater : WellFormed _ later := (WellFormed.new 0).run hmore
    have hmem : release ∈ later.recordHistory note.name := by
      have hrun := mem_recordHistory_run hhere hfollows.2 (List.mem_of_getLast? hlast) hcut
      rwa [← (system params).run_append] at hrun
    have hrefused : offered.2 = false := by
      have hold := hlater.held_or_old hdelta hmem ht
      rcases acceptClaim_cases params later note nf succ nfs height mtp (t + params.txExpiryDelta t) with
        ⟨-, heq⟩ | ⟨-, -, heq⟩ | ⟨s, -, -, -, hfree, hgate, -⟩
      · exact congrArg Prod.snd heq
      · exact congrArg Prod.snd heq
      · rcases hold with hheld | hshut
        · exact absurd hfree hheld
        · rw [hgate] at hshut
          cases hshut
    exact ⟨hrefused, fun e he => mem_recordHistory_acceptClaim_false hrefused he⟩
  · intro ht here
    have hfree : here.record note.name = none := hhere.free_of_release hlast hrelease
    have hopen : builtBeforeRelease params here note.name (t + params.txExpiryDelta t) = false := by
      rw [← Bool.not_eq_true, builtBeforeRelease_iff hdelta hlast hrelease]
      omega
    rcases acceptClaim_cases params here note nf succ nfs height mtp (t + params.txExpiryDelta t) with
      ⟨hbad, heq⟩ | ⟨-, hbad, -⟩ | ⟨s, hs, hone, hnames, -, -, heq⟩
    · rw [heq]
      refine iff_of_false Bool.false_ne_true ?_
      rintro ⟨hs, hone, hnames⟩
      rcases hbad with h | h | h
      · exact hs h
      · exact h hone
      · exact h hnames
    · rcases hbad with hheld | hshut
      · exact absurd hfree hheld
      · rw [hopen] at hshut
        cases hshut
    · rw [heq]
      exact iff_of_true rfl ⟨by rw [hs]; exact Option.some_ne_none s, hone, hnames⟩

/-- The window grows at height 4. -/
def sampleUpgrade : Params := { Params.sample with txExpiryDelta := fun h => if h < 4 then 40 else 120 }

theorem sampleUpgrade_monotone : Monotone sampleUpgrade.txExpiryDelta := by
  intro h k hk
  simp only [sampleUpgrade]
  split_ifs <;> omega

def sampleReclaim : NameNote := .claim alice (sampleUa 1) .never

/-- The entry `sampleActs` ends in: the release that a mismatched update brings about at 3. -/
def sampleRelease : NameRecord :=
  (((system sampleUpgrade).run new sampleActs).recordHistory alice).getLast?.get (by decide +kernel)

/-- Built for 3 with the shorter window, a claim is refused even after a rewind to 3; built for 4 with
the longer one, it registers. -/
theorem claim_age_upgrade :
    (acceptClaim sampleUpgrade ((system sampleUpgrade).run new (sampleActs ++ [.truncate 3]))
      sampleReclaim ⟨15⟩ (some ⟨14⟩) [⟨12⟩] 5 0 (3 + sampleUpgrade.txExpiryDelta 3)).2 = false ∧
    (acceptClaim sampleUpgrade ((system sampleUpgrade).run new sampleActs)
      sampleReclaim ⟨15⟩ (some ⟨14⟩) [⟨12⟩] 5 0 (4 + sampleUpgrade.txExpiryDelta 4)).2 = true := by
  have hf : (system sampleUpgrade).Follows 0 sampleActs := by
    simp [System.Follows, system, sampleActs, RegOp.height]
  have hmore : (system sampleUpgrade).Follows 0 (sampleActs ++ [.truncate 3]) := by
    simp [System.Follows, system, sampleActs, RegOp.height]
  have hlast : (((system sampleUpgrade).run new sampleActs).recordHistory sampleReclaim.name).getLast? =
      some sampleRelease :=
    (Option.some_get _).symm
  have hrelease : sampleRelease.action = .release ∧ sampleRelease.confirmedHeight = 3 := by decide +kernel
  have hage := fun t => claim_age sampleUpgrade_monotone hf hlast hrelease.1 t ⟨15⟩ (some ⟨14⟩) [⟨12⟩] 5 0
  constructor
  · refine ((hage 3).1 (le_of_eq hrelease.2.symm) [.truncate 3] hmore ?_).1
    rintro k hk
    cases List.mem_singleton.mp hk
    exact le_of_eq hrelease.2
  · refine ((hage 4).2 (by rw [hrelease.2]; omega)).mpr ⟨Option.some_ne_none _, ?_, ?_⟩
    · decide +kernel
    · decide +kernel

end ZnsMint.Registry
