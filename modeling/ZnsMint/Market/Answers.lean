import ZnsMint.Market.Steps

/-! # Answering a market challenge

`Market::answer` walks the challenges by index while a challenge that closes leaves the list by its code.
One challenge per code makes the two agree: `answerAt` is `answer` with every index checked, and it never
fails (`answerAt_eq`). `answer_right` and `answer_wrong` say what a response does, to which challenges. -/

namespace ZnsMint.Market

open Basic Note Inbound Lib Lib.Rollback Lib.EventLog

/-! ### One challenge per code -/

/-- The market holds one challenge per code. -/
def OneChallengePerCode (m : Market) : Prop := (m.challenges.map MarketChallenge.code).Nodup

theorem oneChallengePerCode_of_replays {s : Market × Registry} (h : sourced.Replays s) :
    OneChallengePerCode s.1 := by
  have hcodes := (distinct_of_replays h).codes
  rwa [book, List.map_map] at hcodes

theorem oneChallengePerCode_run (acts : List (Act (ℕ × MarketOp))) :
    OneChallengePerCode (system.run (Market.new, .new) acts).1 :=
  oneChallengePerCode_of_replays (lawful.replays_run acts (Market.new, .new) rfl)

theorem index_unique {m : Market} (h : OneChallengePerCode m) {i j : ℕ} {c c' : MarketChallenge}
    (hi : m.challenges[i]? = some c) (hj : m.challenges[j]? = some c') (hcode : c'.code = c.code) :
    j = i := by
  obtain ⟨hi', rfl⟩ := List.getElem?_eq_some_iff.mp hi
  obtain ⟨hj', rfl⟩ := List.getElem?_eq_some_iff.mp hj
  have hlen : (m.challenges.map MarketChallenge.code).length = m.challenges.length := List.length_map _
  refine (@List.Nodup.getElem_inj_iff _ _ h j (hlen ▸ hj') i (hlen ▸ hi')).mp ?_
  rw [List.getElem_map, List.getElem_map]
  exact hcode

/-- Removing a challenge by its code is removing it. -/
theorem OneChallengePerCode.filter_eq_erase {m : Market} (h : OneChallengePerCode m) {c : MarketChallenge}
    (hc : c ∈ m.challenges) :
    (m.challenges.filter fun x => decide (x.code ≠ c.code)) = m.challenges.erase c := by
  have hnodup : m.challenges.Nodup := List.Nodup.of_map _ h
  rw [hnodup.erase_eq_filter c]
  refine List.filter_congr fun x hx => ?_
  by_cases hxc : x = c
  · subst hxc
    simp
  · have hne : x.code ≠ c.code := fun hcode => hxc (List.inj_on_of_nodup_map h hx hc hcode)
    simp [hxc, hne]

/-- **A challenge that closes is one, and the only one.** -/
theorem closeChallenge_challenges {m : Market} (h : OneChallengePerCode m) {c : MarketChallenge}
    (hc : c ∈ m.challenges) (height : ℕ) :
    (closeChallenge height m c.code).challenges = m.challenges.erase c :=
  h.filter_eq_erase hc

/-! ### A response that no challenge matches -/

/-- What a wrong response leaves of a challenge. -/
def missed (response : OtpMemo) (c : MarketChallenge) : Option MarketChallenge :=
  if answers response c then
    if MAX_ATTEMPTS ≤ c.attempts + 1 then none else some { c with attempts := c.attempts + 1 }
  else some c

/-- The response is the last one a challenge tolerates. -/
def lastMiss (response : OtpMemo) (c : MarketChallenge) : Bool :=
  answers response c && decide (MAX_ATTEMPTS ≤ c.attempts + 1)

/-- One turn of the loop that counts a wrong code, with its indexing: absent where an index is out of
bounds, which stops the mint. -/
def answerMissAt (height : ℕ) (m : Market) (index : ℕ) : Option Market := do
  let _ ← m.challenges[index]?
  let m := { m with challenges := m.challenges.modify index fun c =>
    { c with attempts := c.attempts + 1 } }
  let c ← m.challenges[index]?
  return if MAX_ATTEMPTS ≤ c.attempts then closeChallenge height m c.code else m

theorem answerMiss_of_answerMissAt {height : ℕ} {m m' : Market} {index : ℕ}
    (h : answerMissAt height m index = some m') : answerMiss height m index = m' := by
  obtain ⟨-, -, h⟩ := Option.bind_eq_some_iff.mp h
  obtain ⟨c, hc, h⟩ := Option.bind_eq_some_iff.mp h
  simp only [answerMiss, hc]
  exact Option.some.inj h

theorem answerMisses_of_answerMissAt {height : ℕ} (indices : List ℕ) {m m' : Market}
    (h : indices.foldlM (answerMissAt height) m = some m') :
    indices.foldl (answerMiss height) m = m' := by
  induction indices generalizing m with
  | nil => exact Option.some.inj h
  | cons index indices ih =>
    obtain ⟨m₁, hm₁, h⟩ := Machine.run_cons (show Machine.run (answerMissAt height) m (index :: indices) =
      some m' from h)
    rw [List.foldl_cons, answerMiss_of_answerMissAt hm₁]
    exact ih h

/-- One turn of the loop, at the challenge between `pre` and `post`. -/
theorem answerMissAt_eq {m : Market} (hone : OneChallengePerCode m) {pre post : List MarketChallenge}
    {c : MarketChallenge} (hm : m.challenges = pre ++ c :: post) (height : ℕ) :
    answerMissAt height m pre.length = some
      (if MAX_ATTEMPTS ≤ c.attempts + 1 then record { m with challenges := pre ++ post } height
        (.challengeClosed c.code)
      else { m with challenges := pre ++ { c with attempts := c.attempts + 1 } :: post }) := by
  have hget : ∀ x : MarketChallenge, (pre ++ x :: post)[pre.length]? = some x := by
    intro x
    rw [List.getElem?_append_right le_rfl, Nat.sub_self]
    rfl
  have hmodify : ((pre ++ c :: post).modify pre.length fun c => { c with attempts := c.attempts + 1 }) =
      pre ++ { c with attempts := c.attempts + 1 } :: post :=
    List.modifyTailIdx_add _ 0 pre (c :: post)
  have hfresh : ∀ x ∈ pre ++ post, x.code ≠ c.code := by
    have hone' : (c.code :: (pre ++ post).map MarketChallenge.code).Nodup := by
      have hperm : (pre ++ c :: post).Perm (c :: (pre ++ post)) := List.perm_middle
      exact (hperm.map MarketChallenge.code).nodup_iff.mp (hm ▸ hone)
    intro x hx hcode
    exact (List.nodup_cons.mp hone').1 (hcode ▸ List.mem_map_of_mem hx)
  have hclose : ((pre ++ { c with attempts := c.attempts + 1 } :: post).filter fun x =>
    decide (x.code ≠ c.code)) =
      pre ++ post := by
    have hall : ∀ l : List MarketChallenge, (∀ x ∈ l, x ∈ pre ++ post) →
        (l.filter fun x => decide (x.code ≠ c.code)) = l :=
      fun l hl => List.filter_eq_self.mpr fun x hx => by simpa using hfresh x (hl x hx)
    rw [List.filter_append, List.filter_cons_of_neg (by simp), hall pre fun x hx =>
      List.mem_append_left _ hx,
      hall post fun x hx => List.mem_append_right _ hx]
  unfold answerMissAt
  simp only [hm, hmodify, hget, Option.bind_eq_bind, Option.bind_some, pure]
  by_cases hmax : MAX_ATTEMPTS ≤ c.attempts + 1
  · rw [if_pos hmax, if_pos hmax, closeChallenge, dropChallenge, hclose]
  · rw [if_neg hmax, if_neg hmax]

/-- The challenges of `post` that the response names, by their index. -/
def namedFrom (response : OtpMemo) (offset : ℕ) (post : List MarketChallenge) : List ℕ :=
  ((post.zipIdx offset).filter fun p => answers response p.1).map Prod.snd

theorem namedFrom_cons (response : OtpMemo) (offset : ℕ) (c : MarketChallenge)
    (post : List MarketChallenge) :
    namedFrom response offset (c :: post) =
      (if answers response c then [offset] else []) ++ namedFrom response (offset + 1) post := by
  unfold namedFrom
  rw [List.zipIdx_cons]
  by_cases h : answers response c = true
  · rw [List.filter_cons_of_pos (by exact h), if_pos h]
    rfl
  · rw [List.filter_cons_of_neg (by exact h), if_neg h]
    rfl

theorem missed_code {response : OtpMemo} {c c' : MarketChallenge} (h : missed response c = some c') :
    c'.code = c.code := by
  unfold missed at h
  split_ifs at h
  · cases h
    rfl
  · cases h
    rfl

/-- **The counting loop never leaves the list**, and counts against the challenges the response names: the
induction is on the challenges behind `pre`, whose indices the loop has taken first. -/
theorem answerMisses_eq (response : OtpMemo) (height : ℕ) (pre post : List MarketChallenge) {m : Market}
    (hone : OneChallengePerCode m) (hm : m.challenges = pre ++ post) :
    (namedFrom response pre.length post).reverse.foldlM (answerMissAt height) m = some
      ⟨m.sales, pre ++ post.filterMap (missed response),
        m.events ++ (post.filter (lastMiss response)).reverse.map fun c =>
          ⟨height, .challengeClosed c.code⟩⟩ := by
  induction post generalizing pre m with
  | nil =>
    rw [List.append_nil] at hm
    subst hm
    simp [namedFrom]
  | cons c post ih =>
    have hlater := ih (pre ++ [c]) hone (by rw [hm, List.append_assoc, List.singleton_append])
    rw [List.length_append, List.length_singleton] at hlater
    rw [namedFrom_cons, List.reverse_append, List.foldlM_append, hlater, Option.bind_eq_bind,
      Option.bind_some]
    by_cases h : answers response c = true
    · have hone' : (((pre ++ [c] ++ post.filterMap (missed response)).map
          MarketChallenge.code)).Nodup := by
        rw [OneChallengePerCode, hm, List.append_cons, List.map_append] at hone
        rw [List.map_append]
        exact hone.sublist ((List.Sublist.refl _).append
          (map_filterMap_sublist (fun _ _ => missed_code) post))
      have hstep := answerMissAt_eq (m := ⟨m.sales, pre ++ [c] ++ post.filterMap (missed response),
        m.events ++ (post.filter (lastMiss response)).reverse.map fun c =>
          ⟨height, .challengeClosed c.code⟩⟩)
        hone' (List.append_cons _ _ _).symm height
      rw [if_pos h, List.reverse_singleton, List.foldlM_cons, hstep, Option.bind_eq_bind,
        Option.bind_some]
      by_cases hmax : MAX_ATTEMPTS ≤ c.attempts + 1
      · have hmiss : missed response c = none := by rw [missed, if_pos h, if_pos hmax]
        have hlast : lastMiss response c = true := by simp [lastMiss, h, hmax]
        rw [if_pos hmax, List.filterMap_cons_none hmiss, List.filter_cons_of_pos hlast]
        simp [record]
      · have hmiss : missed response c = some { c with attempts := c.attempts + 1 } := by
          rw [missed, if_pos h, if_neg hmax]
        have hlast : lastMiss response c = false := by simp [lastMiss, hmax]
        rw [if_neg hmax, List.filterMap_cons_some hmiss, List.filter_cons_of_neg (by simp [hlast])]
        simp
    · have hmiss : missed response c = some c := if_neg h
      have hlast : lastMiss response c = false := by simp [lastMiss, h]
      rw [if_neg h, List.filterMap_cons_some hmiss, List.filter_cons_of_neg (by simp [hlast])]
      simp

/-! ### The response as a whole -/

/-- The response is the right one for a challenge: it names it, and has its code and its terms. -/
def Matches (response : OtpMemo) (c : MarketChallenge) : Prop :=
  c.name = response.name ∧ c.ua = response.ua ∧ c.action = response.action ∧ c.code = response.code ∧
    c.sameTerms response = true

instance (response : OtpMemo) (c : MarketChallenge) : Decidable (Matches response c) :=
  inferInstanceAs (Decidable (_ ∧ _ ∧ _ ∧ _ ∧ _))

theorem matches_iff {response : OtpMemo} {c : MarketChallenge} :
    Matches response c ↔ answers response c = true ∧ (c.code == response.code && c.sameTerms response) =
      true := by
  simp only [Matches, answers, Bool.and_eq_true, beq_iff_eq]
  tauto

/-- The search of `answer`, with its indexing. -/
def findAnswer (m : Market) (response : OtpMemo) : List ℕ → Option (Option ℕ)
  | [] => some none
  | index :: rest => do
    let c ← m.challenges[index]?
    if c.code == response.code && c.sameTerms response then some (some index)
    else findAnswer m response rest

/-- `answer` with every index checked: absent where the code would index out of bounds. -/
def answerAt (m : Market) (registry : Registry) (response : OtpMemo) (height : ℕ) :
    Option ((Market × Registry) × Bool) :=
  if !response.action.isList && !response.action.isDelist && !response.action.isAuction then
    some ((m, registry), false)
  else
    let named := (m.challenges.zipIdx.filter fun p => answers response p.1).map Prod.snd
    if named.isEmpty then some ((m, registry), false)
    else do
      match ← findAnswer m response named with
      | some index =>
        let c ← m.challenges[index]?
        let m := record { m with challenges := m.challenges.eraseIdx index } height
          (.challengeClosed c.code)
        if m.sales.isOpen c.name then return ((m, registry), true)
        else return (m.enactChallenge registry c.kind height, true)
      | none =>
        let m ← named.reverse.foldlM (answerMissAt height) m
        return ((m, registry), false)

theorem findAnswer_eq {m : Market} {response : OtpMemo} {indices : List ℕ}
    (h : ∀ i ∈ indices, i < m.challenges.length) :
    findAnswer m response indices = some (indices.find? fun index =>
      (m.challenges[index]?).any fun c => c.code == response.code && c.sameTerms response) := by
  induction indices with
  | nil => rfl
  | cons i indices ih =>
    have hi := h i List.mem_cons_self
    rw [findAnswer, List.getElem?_eq_getElem hi, Option.bind_eq_bind, Option.bind_some, List.find?_cons,
      List.getElem?_eq_getElem hi, Option.any_some]
    rcases hhit : (m.challenges[i].code == response.code && m.challenges[i].sameTerms response) with _ | _
    · rw [if_neg Bool.false_ne_true]
      exact ih fun j hj => h j (List.mem_cons_of_mem _ hj)
    · rw [if_pos rfl]

theorem mem_namedFrom {response : OtpMemo} {l : List MarketChallenge} {i : ℕ} :
    i ∈ namedFrom response 0 l ↔ ∃ c, l[i]? = some c ∧ answers response c = true := by
  unfold namedFrom
  constructor
  · intro h
    obtain ⟨⟨c, j⟩, hc, rfl⟩ := List.mem_map.mp h
    obtain ⟨hmem, hans⟩ := List.mem_filter.mp hc
    exact ⟨c, List.mem_zipIdx_iff_getElem?.mp hmem, hans⟩
  · rintro ⟨c, hc, hans⟩
    exact List.mem_map.mpr ⟨(c, i), List.mem_filter.mpr ⟨List.mem_zipIdx_iff_getElem?.mpr hc, hans⟩, rfl⟩

/-- The market after its challenge `c` was answered. -/
def spent (m : Market) (r : Registry) (c : MarketChallenge) (height : ℕ) : Market × Registry :=
  let m := record { m with challenges := m.challenges.erase c } height (.challengeClosed c.code)
  if m.sales.isOpen c.name then (m, r) else m.enactChallenge r c.kind height

/-- The market after a response that none of its challenges matches. -/
def unmatched (m : Market) (response : OtpMemo) (height : ℕ) : Market where
  sales := m.sales
  challenges := m.challenges.filterMap (missed response)
  events := m.events ++ (m.challenges.filter (lastMiss response)).reverse.map fun c =>
    ⟨height, .challengeClosed c.code⟩

variable {m : Market} {response : OtpMemo}

theorem find_named (m : Market) (response : OtpMemo) :
    findAnswer m response (namedFrom response 0 m.challenges) =
      some ((namedFrom response 0 m.challenges).find? fun index =>
        (m.challenges[index]?).any fun c => c.code == response.code && c.sameTerms response) := by
  refine findAnswer_eq fun i hi => ?_
  obtain ⟨c, hc, -⟩ := mem_namedFrom.mp hi
  exact (List.getElem?_eq_some_iff.mp hc).1

/-- The checked `answer` is `answer`, where it is there. -/
theorem answer_of_answerAt {r : Registry} {height : ℕ} {t : (Market × Registry) × Bool}
    (h : m.answerAt r response height = some t) : m.answer r response height = t := by
  unfold answerAt at h
  unfold answer
  change (if _ then _ else if (namedFrom response 0 m.challenges).isEmpty then _ else _) = _ at h
  change (if _ then _ else if (namedFrom response 0 m.challenges).isEmpty then _ else _) = _
  split_ifs at h ⊢ with hgate hnamed
  · exact Option.some.inj h
  · exact Option.some.inj h
  · change (findAnswer m response (namedFrom response 0 m.challenges)).bind _ = _ at h
    rw [find_named, Option.bind_some] at h
    change (match (namedFrom response 0 m.challenges).find? _ with | some index => _ | none => _) = _
    split at h
    · obtain ⟨c, hc, h⟩ := Option.bind_eq_some_iff.mp h
      simp only [hc]
      dsimp only at h
      split_ifs at h ⊢
      · exact Option.some.inj h
      · exact Option.some.inj h
    · obtain ⟨m', hm', h⟩ := Option.bind_eq_some_iff.mp h
      rw [answerMisses_of_answerMissAt _ hm']
      exact Option.some.inj h

theorem isMarketAction (c : MarketChallenge) :
    (!c.action.isList && !c.action.isDelist && !c.action.isAuction) = false := by
  obtain ⟨⟨name, ua, payTo, price | clock⟩ | ⟨name, ua⟩, code, expiresAt, relayed, attempts⟩ := c
  · rfl
  · rfl
  · rfl

theorem action_of_answers {c : MarketChallenge} (h : answers response c = true) :
    c.action = response.action := by
  simp only [answers, Bool.and_eq_true, beq_iff_eq] at h
  exact h.2

/-- A response that names no challenge changes nothing. -/
theorem unmatched_of_unnamed {height : ℕ} (h : ∀ c ∈ m.challenges, answers response c = false) :
    m.unmatched response height = m := by
  have hkeep : m.challenges.filterMap (missed response) = m.challenges := by
    have hsome : ∀ c ∈ m.challenges, missed response c = some c := by
      intro c hc
      rw [missed, h c hc]
      rfl
    rw [List.filterMap_congr hsome, List.filterMap_some]
  have hquiet : m.challenges.filter (lastMiss response) = [] := by
    refine List.filter_eq_nil_iff.mpr fun c hc => ?_
    simp [lastMiss, h c hc]
  unfold unmatched
  rw [hkeep, hquiet, List.reverse_nil, List.map_nil, List.append_nil]

/-- **A response that no challenge matches** counts against those it names. -/
theorem answerAt_wrong (hone : OneChallengePerCode m) (r : Registry) (height : ℕ)
    (h : ∀ c ∈ m.challenges, ¬Matches response c) :
    m.answerAt r response height = some ((m.unmatched response height, r), false) := by
  have hfind : findAnswer m response (namedFrom response 0 m.challenges) = some none := by
    rw [find_named, List.find?_eq_none.mpr]
    intro i hi hhit
    obtain ⟨c, hc, hans⟩ := mem_namedFrom.mp hi
    rw [hc, Option.any_some] at hhit
    exact h c (List.mem_of_getElem? hc) (matches_iff.mpr ⟨hans, hhit⟩)
  unfold answerAt
  change (if _ then _ else if (namedFrom response 0 m.challenges).isEmpty then _ else _) = _
  split_ifs with hgate hnamed
  · rw [unmatched_of_unnamed]
    intro c hc
    by_contra hans
    rw [Bool.not_eq_false] at hans
    rw [← action_of_answers hans, isMarketAction] at hgate
    cases hgate
  · rw [unmatched_of_unnamed]
    intro c hc
    by_contra hans
    rw [Bool.not_eq_false] at hans
    obtain ⟨i, hi⟩ := List.getElem?_of_mem hc
    exact List.ne_nil_of_mem (mem_namedFrom.mpr ⟨c, hi, hans⟩) (List.isEmpty_iff.mp hnamed)
  · change (findAnswer m response (namedFrom response 0 m.challenges)).bind _ = _
    rw [hfind, Option.bind_some]
    change ((namedFrom response 0 m.challenges).reverse.foldlM (answerMissAt height) m).bind _ = _
    have hloop := answerMisses_eq response height [] m.challenges hone rfl
    rw [List.length_nil] at hloop
    rw [hloop]
    rfl

/-- **A response that a challenge matches** spends that challenge, and leaves the others. -/
theorem answerAt_right (hone : OneChallengePerCode m) (r : Registry) (height : ℕ) {c : MarketChallenge}
    (hc : c ∈ m.challenges) (h : Matches response c) :
    m.answerAt r response height = some (m.spent r c height, true) := by
  obtain ⟨hans, hhit⟩ := matches_iff.mp h
  obtain ⟨i, hi⟩ := List.getElem?_of_mem hc
  have hfind : findAnswer m response (namedFrom response 0 m.challenges) = some (some i) := by
    rw [find_named]
    rcases hf : (namedFrom response 0 m.challenges).find? _ with _ | j
    · have hmiss := List.find?_eq_none.mp hf i (mem_namedFrom.mpr ⟨c, hi, hans⟩)
      rw [hi, Option.any_some] at hmiss
      exact absurd hhit hmiss
    · have hj := List.find?_some hf
      obtain ⟨c', hc', -⟩ := mem_namedFrom.mp (List.mem_of_find?_eq_some hf)
      rw [hc', Option.any_some, Bool.and_eq_true, beq_iff_eq] at hj
      rw [index_unique hone hi hc' (hj.1.trans h.2.2.2.1.symm)]
  have herase : m.challenges.eraseIdx i = m.challenges.erase c := by
    rw [eraseIdx_eq_filter hone hi, hone.filter_eq_erase hc]
  have hgate : (!response.action.isList && !response.action.isDelist && !response.action.isAuction) =
      false := by
    rw [← action_of_answers hans]
    exact isMarketAction c
  have hnamed : (namedFrom response 0 m.challenges).isEmpty = false := by
    simpa using List.ne_nil_of_mem (mem_namedFrom.mpr ⟨c, hi, hans⟩)
  unfold answerAt
  change (if _ then _ else if (namedFrom response 0 m.challenges).isEmpty then _ else _) = _
  rw [hgate, hnamed, if_neg Bool.false_ne_true, if_neg Bool.false_ne_true]
  change (findAnswer m response (namedFrom response 0 m.challenges)).bind _ = _
  rw [hfind, Option.bind_some]
  change (m.challenges[i]?).bind _ = _
  rw [hi, Option.bind_some, herase]
  unfold spent
  dsimp only
  split_ifs
  · rfl
  · rfl

theorem answer_wrong (hone : OneChallengePerCode m) (r : Registry) (height : ℕ)
    (h : ∀ c ∈ m.challenges, ¬Matches response c) :
    m.answer r response height = ((m.unmatched response height, r), false) :=
  answer_of_answerAt (answerAt_wrong hone r height h)

theorem answer_right (hone : OneChallengePerCode m) (r : Registry) (height : ℕ) {c : MarketChallenge}
    (hc : c ∈ m.challenges) (h : Matches response c) :
    m.answer r response height = (m.spent r c height, true) :=
  answer_of_answerAt (answerAt_right hone r height hc h)

/-- **`answer` never indexes out of bounds.** -/
theorem answerAt_eq (hone : OneChallengePerCode m) (r : Registry) (response : OtpMemo) (height : ℕ) :
    m.answerAt r response height = some (m.answer r response height) := by
  by_cases h : ∃ c ∈ m.challenges, Matches response c
  · obtain ⟨c, hc, hmatch⟩ := h
    rw [answer_right hone r height hc hmatch]
    exact answerAt_right hone r height hc hmatch
  · have hnone : ∀ c ∈ m.challenges, ¬Matches response c := fun c hc hmatch => h ⟨c, hc, hmatch⟩
    rw [answer_wrong hone r height hnone]
    exact answerAt_wrong hone r height hnone

theorem spent_challenges (r : Registry) (c : MarketChallenge) (height : ℕ) :
    (m.spent r c height).1.challenges = m.challenges.erase c := by
  unfold spent
  dsimp only
  split_ifs
  · rfl
  · exact (enactChallenge_cases _ r c.kind height).2.1

end ZnsMint.Market
