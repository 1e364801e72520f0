import ZnsMint.Lib.Rollback

/-! # State rebuilt from an event log

A rewindable machine that writes a stamped event for every change and rebuilds its state by replaying
the events it keeps. If each operation changes the state as the replay of its own events would, and a
truncation keeps the events at or below its height, then rewinding is exact (`Sourced.exact`).

The last part is about lists with a key: what a replay does when it removes, one key after the other,
what the operation removed in one pass. -/

namespace ZnsMint.Lib.EventLog

open Rollback

variable {σ ω ε β α κ : Type*}

/-- What is compared of a machine's state, and the log it is rebuilt from. -/
structure Sourced (σ ε β : Type*) where
  log : σ → List (ℕ × ε)
  view : σ → β
  apply : β → ε → β
  start : β

namespace Sourced

variable (D : Sourced σ ε β) {S : System σ ω}

/-- The state that a log stands for. -/
def replay (l : List (ℕ × ε)) : β := l.foldl (fun b e => D.apply b e.2) D.start

/-- The state is the replay of its log. -/
def Replays (s : σ) : Prop := D.view s = D.replay (D.log s)

/-- The laws of an event-sourced machine. -/
structure Lawful (S : System σ ω) : Prop where
  step : ∀ s o, ∃ es : List ε, D.log (S.step s o) = D.log s ++ es.map (Prod.mk (S.height o)) ∧
    (D.Replays s → D.view (S.step s o) = es.foldl D.apply (D.view s))
  truncate_log : ∀ s k, D.log (S.truncate s k) = (D.log s).filter fun e => decide (e.1 ≤ k)
  truncate_view : ∀ s k, D.Replays (S.truncate s k)

variable {D}

theorem replay_append (l : List (ℕ × ε)) (h : ℕ) (es : List ε) :
    D.replay (l ++ es.map (Prod.mk h)) = es.foldl D.apply (D.replay l) := by
  rw [replay, replay, List.foldl_append, List.foldl_map]

theorem Lawful.replays_run (L : D.Lawful S) :
    ∀ (acts : List (Act ω)) (s : σ), D.Replays s → D.Replays (S.run s acts)
  | [], _, hs => hs
  | .op o :: l, s, hs => by
    refine L.replays_run l _ ?_
    obtain ⟨es, hlog, hview⟩ := L.step s o
    have hs' : D.view s = D.replay (D.log s) := hs
    calc D.view (S.step s o) = es.foldl D.apply (D.view s) := hview hs
      _ = es.foldl D.apply (D.replay (D.log s)) := by rw [hs']
      _ = D.replay (D.log (S.step s o)) := by rw [hlog, replay_append]
  | .truncate k :: l, s, _ => L.replays_run l _ (L.truncate_view s k)

theorem Lawful.stamped_run (L : D.Lawful S) {h : ℕ} :
    ∀ (acts : List (Act ω)) (s : σ), (∀ e ∈ D.log s, e.1 ≤ h) → S.Below h acts →
      ∀ e ∈ D.log (S.run s acts), e.1 ≤ h
  | [], _, hs, _ => hs
  | .op o :: l, s, hs, hb => by
    refine L.stamped_run l _ ?_ fun o' ho' => hb o' (List.mem_cons_of_mem _ ho')
    obtain ⟨es, hlog, -⟩ := L.step s o
    intro e he
    rw [System.act, hlog] at he
    rcases List.mem_append.mp he with he | he
    · exact hs e he
    · obtain ⟨x, -, rfl⟩ := List.mem_map.mp he
      exact hb o (by simp)
  | .truncate k :: l, s, hs, hb => by
    refine L.stamped_run l _ ?_ fun o' ho' => hb o' (List.mem_cons_of_mem _ ho')
    intro e he
    rw [System.act, L.truncate_log] at he
    exact hs e (List.mem_filter.mp he).1

/-- `t` has the log of `s` and then events above `h`. -/
def Extends (D : Sourced σ ε β) (h : ℕ) (s t : σ) : Prop :=
  ∃ m, D.log t = D.log s ++ m ∧ ∀ e ∈ m, h < e.1

theorem Lawful.extends_step (L : D.Lawful S) {h : ℕ} {s t : σ} (ht : D.Extends h s t) {o : ω}
    (ho : h < S.height o) : D.Extends h s (S.step t o) := by
  obtain ⟨m, hlog, hm⟩ := ht
  obtain ⟨es, hes, -⟩ := L.step t o
  refine ⟨m ++ es.map (Prod.mk (S.height o)), by rw [hes, hlog, List.append_assoc], fun e he => ?_⟩
  rcases List.mem_append.mp he with he | he
  · exact hm e he
  · obtain ⟨x, -, rfl⟩ := List.mem_map.mp he
    exact ho

theorem Lawful.extends_truncate (L : D.Lawful S) {h k : ℕ} {s t : σ} (hs : ∀ e ∈ D.log s, e.1 ≤ h)
    (ht : D.Extends h s t) (hk : h ≤ k) : D.Extends h s (S.truncate t k) := by
  obtain ⟨m, hlog, hm⟩ := ht
  refine ⟨m.filter fun e => decide (e.1 ≤ k), ?_, fun e he => hm e (List.mem_filter.mp he).1⟩
  rw [L.truncate_log, hlog, List.filter_append]
  congr 1
  refine List.filter_eq_self.mpr fun e he => ?_
  have := hs e he
  simpa using by omega

/-- **Exact rollback of an event-sourced machine.** -/
theorem Lawful.exact (L : D.Lawful S) {h : ℕ} {s : σ} (hs : D.Replays s)
    (hlog : ∀ e ∈ D.log s, e.1 ≤ h) {before after : List (Act ω)} (hb : S.Below h before)
    (ha : S.Above h after) :
    D.view (S.truncate (S.run (S.run s before) after) h) = D.view (S.run s before) := by
  have hs' := L.replays_run before s hs
  have hlog' := L.stamped_run before s hlog hb
  refine S.exact (E := D.Extends h (S.run s before)) (v := D.view) (fun t o ht ho => L.extends_step ht ho)
    (fun t k ht hk => L.extends_truncate hlog' ht hk) (fun t ht => ?_) ⟨[], by simp, by simp⟩ ha
  obtain ⟨m, hm, habove⟩ := ht
  have hcut : D.log (S.truncate t h) = D.log (S.run s before) := by
    rw [L.truncate_log, hm]
    exact filter_append_above hlog' habove
  rw [L.truncate_view t h, hcut]
  exact hs'.symm

/-- `P` holds of what the log shows, at its end and cut at any height. -/
structure Everywhere (D : Sourced σ ε β) (P : β → Prop) (lo : ℕ) (s : σ) : Prop where
  replays : D.Replays s
  stamped : ∀ e ∈ D.log s, e.1 ≤ lo
  holds : ∀ h, P (D.replay ((D.log s).filter fun e => decide (e.1 ≤ h)))

theorem Everywhere.view {P : β → Prop} {lo : ℕ} {s : σ} (h : D.Everywhere P lo s) : P (D.view s) := by
  have hall : (D.log s).filter (fun e => decide (e.1 ≤ lo)) = D.log s :=
    List.filter_eq_self.mpr fun e he => by simpa using h.stamped e he
  have := h.holds lo
  rw [hall] at this
  rw [h.replays]
  exact this

theorem Everywhere.step {P : β → Prop} (L : D.Lawful S)
    (hP : ∀ s o, D.Replays s → P (D.view s) → P (D.view (S.step s o))) {lo : ℕ} {s : σ}
    (h : D.Everywhere P lo s) {o : ω} (ho : lo ≤ S.height o) :
    D.Everywhere P (S.height o) (S.step s o) := by
  have hreplays := L.replays_run [.op o] s h.replays
  obtain ⟨es, hlog, -⟩ := L.step s o
  have hstamped : ∀ e ∈ D.log (S.step s o), e.1 ≤ S.height o := by
    intro e he
    rw [hlog] at he
    rcases List.mem_append.mp he with he | he
    · exact le_trans (h.stamped e he) ho
    · obtain ⟨x, -, rfl⟩ := List.mem_map.mp he
      exact le_rfl
  refine ⟨hreplays, hstamped, ?_⟩
  intro k
  by_cases hk : S.height o ≤ k
  · have hall : (D.log (S.step s o)).filter (fun e => decide (e.1 ≤ k)) = D.log (S.step s o) :=
      List.filter_eq_self.mpr fun e he => by simpa using le_trans (hstamped e he) hk
    have hview : P (D.view (S.step s o)) := hP s o h.replays h.view
    rw [hall]
    rwa [show D.view (S.step s o) = D.replay (D.log (S.step s o)) from hreplays] at hview
  · -- the events of this operation lie above the cut
    have hnone : (es.map (Prod.mk (S.height o))).filter (fun e => decide (e.1 ≤ k)) = [] :=
      List.filter_eq_nil_iff.mpr fun e he => by
        obtain ⟨x, -, rfl⟩ := List.mem_map.mp he
        simpa using hk
    rw [hlog, List.filter_append, hnone, List.append_nil]
    exact h.holds k

theorem Everywhere.truncate {P : β → Prop} (L : D.Lawful S) {lo : ℕ} {s : σ} (h : D.Everywhere P lo s)
    (k : ℕ) : D.Everywhere P k (S.truncate s k) := by
  refine ⟨L.truncate_view s k, ?_, ?_⟩
  · intro e he
    rw [L.truncate_log] at he
    simpa using (List.mem_filter.mp he).2
  · intro j
    rw [L.truncate_log, List.filter_filter]
    have hmin : (fun e : ℕ × ε => decide (e.1 ≤ j) && decide (e.1 ≤ k)) = fun e =>
        decide (e.1 ≤ min j k) := by
      funext e
      simp
    rw [hmin]
    exact h.holds (min j k)

/-- **The invariant rule of an event-sourced machine.** What every operation keeps of the state shown
holds after every run, truncations included. -/
theorem Lawful.everywhere_run (L : D.Lawful S) {P : β → Prop}
    (hP : ∀ s o, D.Replays s → P (D.view s) → P (D.view (S.step s o))) :
    ∀ (acts : List (Act ω)) (lo : ℕ) (s : σ), D.Everywhere P lo s → S.Climbs lo acts →
      ∃ lo', D.Everywhere P lo' (S.run s acts)
  | [], lo, _, hs, _ => ⟨lo, hs⟩
  | .op _ :: l, _, _, hs, hc => L.everywhere_run hP l _ _ (hs.step L hP hc.1) hc.2
  | .truncate k :: l, _, _, hs, hc => L.everywhere_run hP l _ _ (hs.truncate L k) hc

end Sourced

/-! ### Lists with a key -/

section Keyed

variable [DecidableEq κ] {key : α → κ}

theorem foldl_filter_ne (keys : List κ) (l : List α) :
    keys.foldl (fun l k => l.filter fun x => decide (key x ≠ k)) l =
      l.filter fun x => decide (key x ∉ keys) := by
  induction keys generalizing l with
  | nil => simp
  | cons k keys ih =>
    rw [List.foldl_cons, ih, List.filter_filter]
    refine List.filter_congr fun x _ => ?_
    by_cases h1 : key x = k <;> by_cases h2 : key x ∈ keys <;> simp [h1, h2]

/-- Removing by key, one after the other, what fails `p` is keeping what passes it. -/
theorem foldl_filter_keys {l : List α} (hnodup : (l.map key).Nodup) (p : α → Bool) :
    ((l.filter fun x => !p x).map key).foldl (fun l k => l.filter fun x => decide (key x ≠ k)) l =
      l.filter p := by
  rw [foldl_filter_ne]
  refine List.filter_congr fun x hx => ?_
  have hiff : key x ∈ (l.filter fun x => !p x).map key ↔ p x = false := by
    constructor
    · intro h
      obtain ⟨y, hy, hkey⟩ := List.mem_map.mp h
      obtain ⟨hyl, hpy⟩ := List.mem_filter.mp hy
      have hxy : y = x := List.inj_on_of_nodup_map hnodup hyl hx hkey
      simpa [hxy] using hpy
    · intro h
      exact List.mem_map_of_mem (List.mem_filter.mpr ⟨hx, by simp [h]⟩)
  cases hp : p x <;> simp [hiff, hp]

/-- Removing one element by its index is removing it by its key. -/
theorem eraseIdx_eq_filter : ∀ {l : List α} {i : ℕ} {x : α}, (l.map key).Nodup → l[i]? = some x →
    l.eraseIdx i = l.filter fun y => decide (key y ≠ key x)
  | [], i, x, _, h => by simp at h
  | y :: l, 0, x, hnodup, h => by
    rw [List.map_cons, List.nodup_cons] at hnodup
    have hyx : y = x := by simpa using h
    subst hyx
    rw [List.eraseIdx_cons_zero, List.filter_cons_of_neg (by simp)]
    refine (List.filter_eq_self.mpr fun z hz => ?_).symm
    have hne : key z ≠ key y := fun heq => hnodup.1 (heq ▸ List.mem_map_of_mem hz)
    simpa using hne
  | y :: l, i + 1, x, hnodup, h => by
    rw [List.map_cons, List.nodup_cons] at hnodup
    have hx : l[i]? = some x := by simpa using h
    have hne : key y ≠ key x :=
      fun heq => hnodup.1 (heq ▸ List.mem_map_of_mem (List.mem_of_getElem? hx))
    rw [List.eraseIdx_cons_succ, List.filter_cons_of_pos (by simpa using hne),
      eraseIdx_eq_filter hnodup.2 hx]

/-- Appending an element whose key is not there keeps the keys distinct. -/
theorem nodup_push {l : List α} (hnodup : (l.map key).Nodup) (x : α) :
    ((if l.any fun y => key y == key x then l else l ++ [x]).map key).Nodup := by
  split_ifs with h
  · exact hnodup
  · rw [List.map_append, List.map_singleton, List.nodup_append]
    refine ⟨hnodup, List.nodup_singleton _, fun a ha b hb heq => h ?_⟩
    obtain ⟨y, hy, rfl⟩ := List.mem_map.mp ha
    rw [List.any_eq_true]
    exact ⟨y, hy, by rw [heq, List.mem_singleton.mp hb]; exact beq_self_eq_true _⟩

end Keyed

/-- What a map that keeps the keys leaves of a list has some of its keys. -/
theorem map_filterMap_sublist {f : α → Option α} {key : α → κ} (hf : ∀ x y, f x = some y → key y = key x)
    (l : List α) :
    ((l.filterMap f).map key).Sublist (l.map key) := by
  induction l with
  | nil => exact .slnil
  | cons x l ih =>
    rcases h : f x with _ | y
    · rw [List.filterMap_cons_none h, List.map_cons]
      exact ih.cons _
    · rw [List.filterMap_cons_some h, List.map_cons, List.map_cons, hf x y h]
      exact ih.cons_cons _

/-- To filter, map and filter again is one pass. -/
theorem filter_map_filter (p : α → Prop) [DecidablePred p] (f : α → β) (keep : β → Bool) (l : List α) :
    ((l.filter fun x => decide (p x)).map f).filter keep =
      l.filterMap fun x => if p x then (some (f x)).filter keep else none := by
  induction l with
  | nil => rfl
  | cons x l ih =>
    by_cases hp : p x
    · by_cases hk : keep (f x) = true
      · simp [hp, hk, ih, Option.filter]
      · simp [hp, hk, ih, Option.filter]
    · simp [hp, ih]

/-- Two entries of a list that map to one value, in a list of distinct values, are one. -/
theorem eq_of_filterMap {f : α → Option β} {l : List α} (h : (l.filterMap f).Nodup) {a b : α}
    {x : β} (ha : a ∈ l) (hb : b ∈ l) (hfa : f a = some x) (hfb : f b = some x) : a = b := by
  induction l with
  | nil => cases ha
  | cons c l ih =>
    rcases hc : f c with _ | y
    · have hne : ∀ d, f d = some x → d ≠ c := by
        rintro d hd rfl
        rw [hc] at hd
        cases hd
      rw [List.filterMap_cons_none hc] at h
      exact ih h ((List.mem_cons.mp ha).resolve_left (hne a hfa))
        ((List.mem_cons.mp hb).resolve_left (hne b hfb))
    · rw [List.filterMap_cons_some hc, List.nodup_cons] at h
      have hfresh : ∀ d ∈ l, f d = some x → f c = some x → False := by
        intro d hd hfd hfc
        have hyx : y = x := Option.some.inj (hc.symm.trans hfc)
        exact h.1 (List.mem_filterMap.mpr ⟨d, hd, hyx ▸ hfd⟩)
      rcases List.mem_cons.mp ha with rfl | ha'
      · rcases List.mem_cons.mp hb with rfl | hb'
        · rfl
        · exact (hfresh b hb' hfb hfa).elim
      · rcases List.mem_cons.mp hb with rfl | hb'
        · exact (hfresh a ha' hfa hfb).elim
        · exact ih h.2 ha' hb'

end ZnsMint.Lib.EventLog
