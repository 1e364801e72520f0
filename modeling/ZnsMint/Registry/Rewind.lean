import ZnsMint.Registry.Chains

/-! # Exact rollback of the registry

`truncate_to_height` rebuilds the registry from the chains, the anchor checkpoints and the
`established` marker. Whatever happens above `h`, cutting back to `h` gives the registry as it stood
there: `Extends` is the relation between the two that every operation above `h` keeps. -/

namespace ZnsMint.Registry

open Basic Note Inbound Lib.Rollback Lib.Checkpoints

variable {params : Params} {s t : Registry} {h height lo : ℕ}

/-- `t` differs from `s` by things stamped above `h`. -/
structure Extends (h : ℕ) (s t : Registry) : Prop where
  keyed : t.Keyed
  history : ∀ n, ∃ m, t.recordHistory n = s.recordHistory n ++ m ∧ ∀ e ∈ m, h < e.confirmedHeight
  checkpoints : ∀ j ≤ h, t.anchors.checkpoints[j]? = s.anchors.checkpoints[j]?
  established : t.anchors.established = s.anchors.established ∨
    s.anchors.established = none ∧ ∃ e, t.anchors.established = some e ∧ h < e
  listings : t.listings = s.listings

theorem Extends.refl (hs : s.Keyed) : Extends h s s :=
  ⟨hs, fun n => ⟨[], by simp⟩, fun _ _ => rfl, Or.inl rfl, rfl⟩

theorem Extends.write (ht : Extends h s t) {e : NameRecord} (hlt : h < e.confirmedHeight) :
    Extends h s (t.setRecord e) where
  keyed := ht.keyed.setRecord e
  history n := by
    obtain ⟨m, hm, hstamp⟩ := ht.history n
    rw [recordHistory_setRecord]
    split_ifs with hn
    · refine ⟨m ++ [e], by rw [hn, hm, List.append_assoc], fun x hx => ?_⟩
      rcases List.mem_append.mp hx with hx | hx
      · exact hstamp x hx
      · rw [List.mem_singleton.mp hx]; exact hlt
    · exact ⟨m, hm, hstamp⟩
  checkpoints := ht.checkpoints
  established := ht.established
  listings := ht.listings

theorem Extends.adopt (ht : Extends h s t) (hlt : h < height) (nf : Nullifier) :
    Extends h s (t.adoptAnchor height nf) where
  keyed := ht.keyed.with_anchors _
  history := ht.history
  checkpoints j hj :=
    (t.anchors.adopt_checkpoints nf (by omega)).trans (ht.checkpoints j hj)
  established := by
    rcases t.anchors.adopt_cases height nf with heq | ⟨hnone, -, -, heq⟩
    · rw [adoptAnchor, heq]; exact ht.established
    · rw [adoptAnchor, heq]
      rcases ht.established with hest | ⟨-, e, he, -⟩
      · simp only
        split_ifs
        · exact Or.inr ⟨hest.symm.trans hnone, height, rfl, hlt⟩
        · exact Or.inl (hnone.symm.trans hest)
      · rw [hnone] at he; cases he
  listings := ht.listings

theorem Extends.retire (ht : Extends h s t) (hlt : h < height) (nfs : List Nullifier)
    (succ : Option Nullifier) :
    Extends h s { t with anchors := t.anchors.retireSpent nfs succ height } where
  keyed := ht.keyed.with_anchors _
  history := ht.history
  checkpoints j hj :=
    (t.anchors.retireSpent_checkpoints nfs succ (by omega)).trans (ht.checkpoints j hj)
  established := by simpa using ht.established
  listings := ht.listings

theorem Extends.micros {t' : Registry} (ht : Extends h s t) (hlt : h < height)
    (hm : Micros height t t') : Extends h s t' := by
  induction hm with
  | refl => exact ht
  | tail _ hstep ih =>
    cases hstep with
    | write e hheight hlegal => exact ih.write (by omega)
    | adopt nf => exact ih.adopt hlt nf
    | retire nfs succ => exact ih.retire hlt nfs succ

/-- Rebuilding keys the live map by the records' names, whatever the chains hold. -/
theorem keyed_rebuild (history : NameMap (List NameRecord)) (n : Name) (e : NameRecord)
    (he : (rebuild history)[n]? = some e) : e.name = n := by
  suffices hfold : ∀ (entries : List (Name × List NameRecord)) (live : NameMap NameRecord),
      (∀ (n : Name) e, live[n]? = some e → e.name = n) →
      ∀ (n : Name) e, (entries.foldl rebuildOne live)[n]? = some e → e.name = n from
    hfold _ ∅ (by simp) n e he
  intro entries
  induction entries with
  | nil => exact fun live hlive => hlive
  | cons p entries ih =>
    refine fun live hlive => ih _ fun n e he => ?_
    unfold rebuildOne at he
    split at he
    · rw [Std.ExtTreeMap.getElem?_insert] at he
      split_ifs at he with hn
      · cases he; exact Std.LawfulEqCmp.compare_eq_iff_eq.mp hn
      · exact hlive n e he
    · exact hlive n e he

theorem Extends.truncate (hs : WellFormed h s) (ht : Extends h s t) {k : ℕ} (hk : h ≤ k) :
    Extends h s (t.truncateToHeight k) where
  keyed n e he := keyed_rebuild _ n e he
  history n := by
    obtain ⟨m, hm, habove⟩ := ht.history n
    rw [recordHistory_truncateToHeight, hm]
    exact rdropWhile_append_prefix hk (hs.stamped n) habove
  checkpoints j hj := by
    rw [truncateToHeight, AnchorPool.truncateTo, getElem?_cut, if_pos (by omega)]
    exact ht.checkpoints j hj
  established := by
    rw [truncateToHeight]
    cases hcut : (t.anchors.truncateTo k).established with
    | some e =>
      rw [← hcut, hcut]
      obtain ⟨hte, -⟩ := AnchorPool.truncateTo_established.mp hcut
      simpa only [hte] using ht.established
    | none =>
      left
      cases hse : s.anchors.established with
      | none => rfl
      | some e =>
        have hte : t.anchors.established = some e := by
          rcases ht.established with h' | ⟨h', -⟩
          · rw [h', hse]
          · rw [hse] at h'; cases h'
        have := hs.pool.established_le e hse
        have hkeep := AnchorPool.truncateTo_established.mpr ⟨hte, show e ≤ k by omega⟩
        rw [hcut] at hkeep; cases hkeep
  listings := ht.listings

/-- Two registries without empty chains that show the same chains store the same chains. -/
theorem history_ext (hs : ∀ (n : Name) l, s.history[n]? = some l → l ≠ [])
    (ht : ∀ (n : Name) l, t.history[n]? = some l → l ≠ [])
    (h : ∀ n, t.recordHistory n = s.recordHistory n) : t.history = s.history := by
  refine Std.ExtTreeMap.ext_getElem? fun n => ?_
  have hn := h n
  simp only [recordHistory] at hn
  cases hsn : s.history[n]? <;> cases htn : t.history[n]? <;> rw [hsn, htn] at hn <;>
    simp only [Option.getD_some, Option.getD_none] at hn
  · exact absurd hn (ht n _ htn)
  · exact absurd hn.symm (hs n _ hsn)
  · rw [hn]

theorem Extends.truncate_eq (hs : WellFormed h s) (ht : Extends h s t) :
    t.truncateToHeight h = s := by
  have hchains : ∀ n, (t.truncateToHeight h).recordHistory n = s.recordHistory n := by
    intro n
    obtain ⟨m, hm, habove⟩ := ht.history n
    rw [recordHistory_truncateToHeight, hm]
    exact rdropWhile_append_above (hs.stamped n) habove
  have hhistory : (t.truncateToHeight h).history = s.history :=
    history_ext hs.nonempty (fun _ _ hl => truncateToHeight_nonempty t h hl) hchains
  have hcut : cut t.anchors.checkpoints h = s.anchors.checkpoints :=
    cut_eq hs.pool.keys_le ht.checkpoints
  refine Registry.ext ?_ hhistory ht.listings (AnchorPool.ext ?_ hcut ?_)
  · refine Std.ExtTreeMap.ext_getElem? fun n => ?_
    have hnamed : ∀ (m : Name) l, s.history[m]? = some l → ∀ e ∈ l, e.name = m := by
      intro m l hl e he
      exact hs.named m e (by simpa [recordHistory, hl] using he)
    have hrebuild : (t.truncateToHeight h).records = rebuild s.history := by
      rw [← hhistory]; rfl
    rw [hrebuild, getElem?_rebuild hnamed]
    refine Eq.trans ?_ (hs.live n).symm
    rw [recordHistory]
    cases s.history[n]? <;> simp [liveOf]
  · rw [hs.pool.live_eq, ← hcut]; rfl
  · refine Option.ext fun e => ?_
    refine AnchorPool.truncateTo_established.trans ⟨?_, fun hse => ?_⟩
    · rintro ⟨hte, hle⟩
      rcases ht.established with h' | ⟨-, e', he', hlt⟩
      · rw [← h', hte]
      · rw [hte] at he'; cases he'; omega
    · refine ⟨?_, hs.pool.established_le e hse⟩
      rcases ht.established with h' | ⟨h', -⟩
      · rw [h', hse]
      · rw [hse] at h'; cases h'

theorem wellFormed_run_below {acts : List (Act RegOp)} (hf : (system params).Follows 0 acts)
    (hb : (system params).Below h acts) : WellFormed h ((system params).run new acts) := by
  suffices hrun : WellFormed ((system params).floor 0 acts) ((system params).run new acts) ∧
      WellFormed h ((system params).run new acts) from hrun.2
  refine (system params).run_invariant (P := fun lo r => WellFormed lo r ∧ WellFormed h r)
    (Q := fun o => o.height ≤ h) (T := fun _ => True) (fun lo s o hs hlo hq => ?_) (fun lo s k hs _ => ?_)
    acts 0 new ⟨.new 0, .new h⟩ hf hb fun _ _ => trivial
  · have hstep := (hs.1.mono hlo).micros (micros_step params hs.1.keyed o)
    exact ⟨hstep, hstep.mono hq⟩
  · exact ⟨(hs.1.truncate k).mono (Nat.le_succ k), hs.2.truncate_keep k⟩

/-- A truncation to `h` gives back a registry whose blocks lie at `h` or below, after any operations
above. -/
theorem WellFormed.exact (hs : WellFormed h s) {after : List (Act RegOp)}
    (ha : (system params).Above h after) :
    ((system params).run s after).truncateToHeight h = s := by
  refine (system params).exact (E := Extends h s) (v := id) (fun t o ht hlt => ?_)
    (fun t k ht hk => ht.truncate hs hk) (fun t ht => ht.truncate_eq hs) (.refl hs.keyed) ha
  exact ht.micros hlt (micros_step params ht.keyed o)

/-- **Exact rollback.** A registry reached by operations at `h` or below is what a truncation to `h`
gives back after any operations above `h` and truncations to `h` or more. -/
theorem truncateToHeight_exact {before after : List (Act RegOp)}
    (hf : (system params).Follows 0 before) (hb : (system params).Below h before)
    (ha : (system params).Above h after) :
    ((system params).run ((system params).run new before) after).truncateToHeight h =
      (system params).run new before :=
  (wellFormed_run_below hf hb).exact ha

theorem truncateToHeight_exact_sample :
    (system Params.sample).Above 1 (sampleActs.tail ++ [.truncate 2]) ∧
      ((system Params.sample).run ((system Params.sample).run new [.op (.adoptAnchor 1 ⟨10⟩)])
        (sampleActs.tail ++ [.truncate 2])).truncateToHeight 1 =
        (system Params.sample).run new [.op (.adoptAnchor 1 ⟨10⟩)] :=
  have ha : (system Params.sample).Above 1 (sampleActs.tail ++ [.truncate 2]) := by
    simp [System.Above, sampleActs, system, RegOp.height]
  ⟨ha, truncateToHeight_exact (by simp [System.Follows])
    (by simp [System.Below, system, RegOp.height]) ha⟩

end ZnsMint.Registry
