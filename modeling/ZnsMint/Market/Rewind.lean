import ZnsMint.Market
import ZnsMint.Lib.EventLog
import ZnsMint.Lib.Machine

/-! # Exact rollback of the market

`Market.truncateTo` rebuilds listings, sales and challenges by replaying the events at or below a
height. `Book` is what is compared of a state: everything except the `relayed` flags and the `attempts`
counters. Each operation is shown to change the book as the replay of the events it logs (`Traced`); the
event-log library then gives the rollback. One sale per name and one challenge per code is what makes a
replay by name or by code hit the entry the operation meant. -/

namespace ZnsMint.Market

open Basic Note Inbound Lib.Rollback Lib.EventLog

/-! ### What is compared -/

/-- A sale without its `relayed` flag. -/
def erasePhase : Phase → Phase
  | .paying code payTo price expiresAt _ => .paying code payTo price expiresAt false
  | .paid => .paid

def eraseSale (s : Sale) : Sale := { s with phase := erasePhase s.phase }

/-- A challenge without its `relayed` flag and its `attempts` counter. -/
def eraseChallenge (c : MarketChallenge) : MarketChallenge := { c with relayed := false, attempts := 0 }

def eraseEvent : MarketEvent → MarketEvent
  | .opened sale => .opened (eraseSale sale)
  | .challenge c => .challenge (eraseChallenge c)
  | e => e

/-- The listings, the open sales and the open challenges. -/
@[ext]
structure Book where
  listings : NameMap Listing
  sales : List Sale
  challenges : List MarketChallenge

/-- The book of a market and of the registry it writes its listings to. -/
def book (s : Market × Registry) : Book where
  listings := s.2.listings
  sales := s.1.sales.sales.map eraseSale
  challenges := s.1.challenges.map eraseChallenge

/-- The effect of one event on the book. -/
def Book.apply (b : Book) : MarketEvent → Book
  | .list l => { b with listings := b.listings.insert l.name l }
  | .delist name => { b with listings := b.listings.erase name }
  | .opened sale =>
    { b with sales := if b.sales.any fun s => s.name == sale.name then b.sales else b.sales ++ [sale] }
  | .paid name code => { b with sales := b.sales.map (SaleQueue.markPaidOne name code) }
  | .expire name => { b with sales := b.sales.filter fun s => decide (s.name ≠ name) }
  | .close name => { b with sales := b.sales.filter fun s => decide (s.name ≠ name) }
  | .challenge c =>
    { b with challenges := if b.challenges.any fun held => held.code == c.code then b.challenges
      else b.challenges ++ [c] }
  | .challengeClosed code =>
    { b with challenges := b.challenges.filter fun c => decide (c.code ≠ code) }

/-- The market as an event-sourced machine. -/
def sourced : Sourced (Market × Registry) MarketEvent Book where
  log s := s.1.events.map fun e => (e.height, eraseEvent e.event)
  view := book
  apply := Book.apply
  start := ⟨∅, [], []⟩

/-! ### Erasing -/

@[simp] theorem eraseSale_name (s : Sale) : (eraseSale s).name = s.name := rfl

@[simp] theorem eraseChallenge_code (c : MarketChallenge) : (eraseChallenge c).code = c.code := rfl

@[simp] theorem eraseSale_relay (s : Sale) : eraseSale (SaleQueue.relay s) = eraseSale s := by
  unfold SaleQueue.relay eraseSale
  rcases h : s.phase with _ | _ <;> simp [erasePhase, h]

theorem eraseSale_markPaidOne (name : Name) (code : OtpCode) (s : Sale) :
    eraseSale (SaleQueue.markPaidOne name code s) = SaleQueue.markPaidOne name code (eraseSale s) := by
  unfold SaleQueue.markPaidOne
  by_cases hn : s.name = name
  · rw [if_pos hn, if_pos (show (eraseSale s).name = name from hn)]
    rcases h : s.phase with ⟨c, t, p, e, r⟩ | _
    · by_cases hc : c = code <;> simp [eraseSale, erasePhase, h, hc]
    · simp [eraseSale, erasePhase, h]
  · rw [if_neg hn, if_neg (show ¬(eraseSale s).name = name from hn)]

theorem map_eraseSale_filter (l : List Sale) (p : Name → Bool) :
    (l.filter fun s => p s.name).map eraseSale = (l.map eraseSale).filter fun s => p s.name := by
  rw [List.filter_map]
  rfl

theorem map_eraseChallenge_filter (l : List MarketChallenge) (p : OtpCode → Bool) :
    (l.filter fun c => p c.code).map eraseChallenge = (l.map eraseChallenge).filter fun c =>
    p c.code := by
  rw [List.filter_map]
  rfl

theorem any_eraseSale (l : List Sale) (name : Name) :
    ((l.map eraseSale).any fun s => s.name == name) = l.any fun s => s.name == name := by
  rw [List.any_map]
  rfl

theorem any_eraseChallenge (l : List MarketChallenge) (code : OtpCode) :
    ((l.map eraseChallenge).any fun c => c.code == code) = l.any fun c => c.code == code := by
  rw [List.any_map]
  rfl

/-- The replay of an event has its effect on the book. -/
theorem book_replayEvent (s : Market × Registry) (e : MarketEvent) :
    book (replayEvent s e) = (book s).apply (eraseEvent e) := by
  rcases e with l | name | sale | ⟨name, code⟩ | name | name | c | code
  · rfl
  · rfl
  · refine Book.ext rfl ?_ rfl
    have hopen : s.1.sales.isOpen sale.name = s.1.sales.sales.any fun x => x.name == sale.name := rfl
    simp only [replayEvent, book, eraseEvent, Book.apply, SaleQueue.restore, hopen,
      any_eraseSale, eraseSale_name]
    split_ifs <;> simp
  · refine Book.ext rfl ?_ rfl
    simp only [replayEvent, book, eraseEvent, Book.apply, SaleQueue.markPaid, List.map_map]
    exact List.map_congr_left fun x _ => eraseSale_markPaidOne name code x
  · exact Book.ext rfl (map_eraseSale_filter _ fun n => decide (n ≠ name)) rfl
  · exact Book.ext rfl (map_eraseSale_filter _ fun n => decide (n ≠ name)) rfl
  · refine Book.ext ?_ ?_ ?_
    · simp only [replayEvent, restoreChallenge]
      split_ifs <;> rfl
    · simp only [replayEvent, restoreChallenge]
      split_ifs <;> rfl
    · simp only [replayEvent, book, eraseEvent, Book.apply, restoreChallenge, any_eraseChallenge,
        eraseChallenge_code]
      split_ifs <;> simp
  · exact Book.ext rfl rfl (map_eraseChallenge_filter _ fun x => decide (x ≠ code))

theorem book_foldl_replayEvent (events : List Stamped) (s : Market × Registry) :
    book (events.foldl (fun s e => replayEvent s e.event) s) =
      (events.map fun e => (e.height, eraseEvent e.event)).foldl (fun b e => b.apply e.2) (book s) := by
  induction events generalizing s with
  | nil => rfl
  | cons e events ih => rw [List.foldl_cons, ih, book_replayEvent, List.map_cons, List.foldl_cons]

/-! ### One sale per name, one challenge per code -/

structure Book.Distinct (b : Book) : Prop where
  names : (b.sales.map Sale.name).Nodup
  codes : (b.challenges.map MarketChallenge.code).Nodup

theorem markPaidOne_name (name : Name) (code : OtpCode) (s : Sale) :
    (SaleQueue.markPaidOne name code s).name = s.name := by
  unfold SaleQueue.markPaidOne
  split_ifs
  · split
    · split_ifs <;> rfl
    · rfl
  · rfl

theorem Book.Distinct.apply {b : Book} (h : b.Distinct) (e : MarketEvent) : (b.apply e).Distinct := by
  rcases e with l | name | sale | ⟨name, code⟩ | name | name | c | code
  · exact ⟨h.names, h.codes⟩
  · exact ⟨h.names, h.codes⟩
  · exact ⟨nodup_push h.names sale, h.codes⟩
  · refine ⟨?_, h.codes⟩
    have hmap : (b.sales.map (SaleQueue.markPaidOne name code)).map Sale.name =
        b.sales.map Sale.name := by
      rw [List.map_map]
      exact List.map_congr_left fun x _ => markPaidOne_name name code x
    exact hmap ▸ h.names
  · exact ⟨h.names.sublist (List.filter_sublist.map _), h.codes⟩
  · exact ⟨h.names.sublist (List.filter_sublist.map _), h.codes⟩
  · exact ⟨h.names, nodup_push h.codes c⟩
  · exact ⟨h.names, h.codes.sublist (List.filter_sublist.map _)⟩

theorem Book.Distinct.foldl {b : Book} (h : b.Distinct) (es : List MarketEvent) :
    (es.foldl Book.apply b).Distinct := by
  induction es generalizing b with
  | nil => exact h
  | cons e es ih => exact ih (h.apply e)

theorem distinct_of_replays {s : Market × Registry} (h : sourced.Replays s) : (book s).Distinct := by
  have hreplay : book s = ((sourced.log s).map Prod.snd).foldl Book.apply ⟨∅, [], []⟩ := by
    rw [List.foldl_map]
    exact h
  rw [hreplay]
  have hstart : Book.Distinct ⟨∅, [], []⟩ := ⟨List.nodup_nil, List.nodup_nil⟩
  exact hstart.foldl _

/-! ### Traced steps -/

/-- `t` is `s` after logging some events at `height`, and shows the book those events leave. -/
def Traced (height : ℕ) (s t : Market × Registry) : Prop :=
  ∃ es : List MarketEvent, sourced.log t = sourced.log s ++ es.map (Prod.mk height) ∧
    ((book s).Distinct → book t = es.foldl Book.apply (book s))

variable {height : ℕ} {s t u : Market × Registry} {m : Market} {r : Registry}

theorem Traced.trans (h : Traced height s t) (h' : Traced height t u) : Traced height s u := by
  obtain ⟨es, hlog, hbook⟩ := h
  obtain ⟨es', hlog', hbook'⟩ := h'
  refine ⟨es ++ es', by rw [hlog', hlog, List.map_append, List.append_assoc], fun hd => ?_⟩
  have ht := hbook hd
  rw [List.foldl_append, ← ht]
  exact hbook' (ht ▸ hd.foldl es)

/-- A step that logs nothing and shows nothing. -/
theorem Traced.silent (hlog : sourced.log t = sourced.log s) (hbook : book t = book s) :
    Traced height s t :=
  ⟨[], by simp [hlog], fun _ => hbook⟩

theorem Traced.refl : Traced height s s := .silent rfl rfl

theorem recordAll_eq (m : Market) (height : ℕ) (evs : List MarketEvent) :
    m.recordAll height evs = { m with events := m.events ++ evs.map (Stamped.mk height) } := by
  unfold recordAll
  induction evs generalizing m with
  | nil => simp
  | cons e evs ih => rw [List.foldl_cons, ih]; simp [record]

/-- A change that is logged event by event. -/
theorem traced_recordAll {m' : Market} {r' : Registry} (evs : List MarketEvent)
    (hevents : m'.events = m.events)
    (hbook : (book (m, r)).Distinct →
      book (m', r') = (evs.map eraseEvent).foldl Book.apply (book (m, r))) :
    Traced height (m, r) (m'.recordAll height evs, r') := by
  refine ⟨evs.map eraseEvent, ?_, fun hd => ?_⟩
  · rw [recordAll_eq]
    simp [sourced, hevents]
  · rw [recordAll_eq]
    exact hbook hd

/-- A change that is logged as one event. -/
theorem traced_record {m' : Market} {r' : Registry} (e : MarketEvent) (hevents : m'.events = m.events)
    (hbook : (book (m, r)).Distinct → book (m', r') = (book (m, r)).apply (eraseEvent e)) :
    Traced height (m, r) (m'.record height e, r') :=
  traced_recordAll [e] hevents hbook

/-! ### Listings -/

theorem getElem?_foldl_erase {α : Type} (names : List Name) (l : NameMap α) (n : Name) :
    (names.foldl (fun l n => l.erase n) l)[n]? = if n ∈ names then none else l[n]? := by
  induction names generalizing l with
  | nil => simp
  | cons a names ih =>
    rw [List.foldl_cons, ih, Std.ExtTreeMap.getElem?_erase]
    by_cases h1 : a = n <;> by_cases h2 : n ∈ names <;> simp [h1, h2, eq_comm (a := n)]

/-- Erasing, one after the other, the entries that fail `p` is keeping those that pass it. -/
theorem foldl_erase_eq_filter {α : Type} (l : NameMap α) (p : Name → α → Bool) :
    ((l.toList.filter fun e => !p e.1 e.2).map Prod.fst).foldl (fun l n => l.erase n) l =
      l.filter p := by
  refine Std.ExtTreeMap.ext_getElem? fun n => ?_
  rw [getElem?_foldl_erase, Std.ExtTreeMap.getElem?_filter']
  have hmem : n ∈ (l.toList.filter fun e => !p e.1 e.2).map Prod.fst ↔
      ∃ x, l[n]? = some x ∧ p n x = false := by
    simp [List.mem_map, List.mem_filter, Std.ExtTreeMap.mem_toList_iff_getElem?_eq_some]
  rcases hn : l[n]? with _ | x
  · simp
  · rw [hn] at hmem
    rcases hp : p n x with _ | _ <;> simp [hmem, hp, Option.filter]

theorem foldl_delist (names : List Name) (b : Book) :
    (names.map MarketEvent.delist).foldl Book.apply b =
      { b with listings := names.foldl (fun l n => l.erase n) b.listings } := by
  induction names generalizing b with
  | nil => rfl
  | cons n names ih => rw [List.map_cons, List.foldl_cons, List.foldl_cons, ih]; rfl

/-- Listings that leave by a filter, logged as delists. -/
theorem traced_delists (height : ℕ) (m : Market) (r : Registry) (p : Name → Listing → Bool) :
    Traced height (m, r)
      (m.recordAll height
        (((r.listings.toList.filter fun e => !p e.1 e.2).map Prod.fst).map MarketEvent.delist),
        { r with listings := r.listings.filter p }) := by
  refine traced_recordAll _ rfl fun _ => ?_
  rw [List.map_map, show eraseEvent ∘ MarketEvent.delist = MarketEvent.delist from rfl, foldl_delist]
  have hfilter := foldl_erase_eq_filter r.listings p
  simp only [book] at hfilter ⊢
  rw [hfilter]

/-! ### Sales -/

theorem map_eraseSale_name (l : List Sale) : (l.map eraseSale).map Sale.name = l.map Sale.name := by
  rw [List.map_map]
  rfl

theorem foldl_close {f : Name → MarketEvent} (hf : ∀ n b, Book.apply b (f n) = b.apply (.close n))
    (names : List Name) (b : Book) :
    (names.map f).foldl Book.apply b =
      { b with sales := names.foldl (fun l n => l.filter fun s => decide (s.name ≠ n)) b.sales } := by
  induction names generalizing b with
  | nil => rfl
  | cons n names ih => rw [List.map_cons, List.foldl_cons, List.foldl_cons, ih, hf]; rfl

/-- Sales that leave by `retain`, logged as closes or expiries. -/
theorem traced_retain (height : ℕ) (m : Market) (r : Registry) (keep : Sale → Bool)
    {f : Name → MarketEvent}
    (hf : ∀ n b, Book.apply b (f n) = b.apply (.close n)) (herase : ∀ n, eraseEvent (f n) = f n) :
    Traced height (m, r)
      (recordAll { m with sales := (m.sales.retain keep).1 } height ((m.sales.retain keep).2.map f),
        r) := by
  refine traced_recordAll _ rfl fun hd => ?_
  have hmap : ((m.sales.retain keep).2.map f).map eraseEvent = (m.sales.retain keep).2.map f := by
    rw [List.map_map]
    exact List.map_congr_left fun n _ => herase n
  rw [hmap, foldl_close hf]
  refine Book.ext rfl ?_ rfl
  have hnodup : (m.sales.sales.map Sale.name).Nodup := map_eraseSale_name m.sales.sales ▸ hd.names
  have hkeep := foldl_filter_keys hnodup keep
  simp only [book, SaleQueue.retain]
  rw [← hkeep, foldl_filter_ne, foldl_filter_ne]
  exact map_eraseSale_filter _ fun n => decide (n ∉ _)

/-! ### Challenges -/

theorem traced_closeChallenge (m : Market) (r : Registry) (code : OtpCode) :
    Traced height (m, r) (closeChallenge height m code, r) := by
  refine traced_record _ rfl fun _ => ?_
  exact Book.ext rfl rfl (map_eraseChallenge_filter _ fun x => decide (x ≠ code))

theorem traced_closeChallenges (codes : List OtpCode) (m : Market) (r : Registry) :
    Traced height (m, r) (codes.foldl (closeChallenge height) m, r) := by
  induction codes generalizing m with
  | nil => exact .refl
  | cons c codes ih => exact (traced_closeChallenge m r c).trans (ih _)

theorem traced_closeChallengesWhere (m : Market) (r : Registry) (stale : MarketChallenge → Bool) :
    Traced height (m, r) (m.closeChallengesWhere stale height, r) :=
  traced_closeChallenges _ m r

theorem traced_pushChallenge (c : MarketChallenge) (hopen : m.codeIsOpen c.code = false) :
    Traced height (m, r) (m.pushChallenge c height, r) := by
  refine ⟨[.challenge (eraseChallenge c)], by simp [sourced, pushChallenge, record, eraseEvent],
    fun _ => Book.ext rfl rfl ?_⟩
  simp only [book, pushChallenge, List.foldl_cons, List.foldl_nil, Book.apply, any_eraseChallenge,
    eraseChallenge_code]
  rw [if_neg (by rw [show (m.challenges.any fun d => d.code == c.code) = false from hopen]; simp),
    List.map_append, List.map_singleton]

/-! ### Payments -/

/-- The replay of the payments of one block, on the sales alone. -/
def markAll (paid : List (Name × OtpCode)) (l : List Sale) : List Sale :=
  paid.foldl (fun l p => l.map (SaleQueue.markPaidOne p.1 p.2)) l

theorem foldl_paid (paid : List (Name × OtpCode)) (b : Book) :
    (paid.map fun p => MarketEvent.paid p.1 p.2).foldl Book.apply b =
      { b with sales := markAll paid b.sales } := by
  induction paid generalizing b with
  | nil => rfl
  | cons p paid ih => rw [List.map_cons, List.foldl_cons, ih]; rfl

theorem markPaidOne_of_ne {name : Name} (code : OtpCode) {s : Sale} (h : s.name ≠ name) :
    SaleQueue.markPaidOne name code s = s := by
  rw [SaleQueue.markPaidOne, if_neg h]

theorem map_markPaidOne_of_notMem {name : Name} (code : OtpCode) {l : List Sale}
    (h : name ∉ l.map Sale.name) : l.map (SaleQueue.markPaidOne name code) = l := by
  refine (List.map_congr_left fun s hs => ?_).trans (List.map_id l)
  exact markPaidOne_of_ne code fun heq => h (heq ▸ List.mem_map_of_mem hs)

/-- Payments for other names pass a sale by. -/
theorem markAll_cons {paid : List (Name × OtpCode)} {x : Sale} {l : List Sale}
    (h : x.name ∉ paid.map Prod.fst) : markAll paid (x :: l) = x :: markAll paid l := by
  induction paid generalizing l with
  | nil => rfl
  | cons p paid ih =>
    rw [List.map_cons, List.mem_cons, not_or] at h
    simp only [markAll, List.foldl_cons, List.map_cons, markPaidOne_of_ne p.2 h.1]
    exact ih h.2

theorem observeOne_phase {holder : Name → Option UnifiedAddress}
    {payments : List (TransparentAddress × Zatoshis)} {mtp : ℤ} {used : List Bool} {s : Sale}
    {index : ℕ} {code : OtpCode}
    (h : SaleQueue.observeOne holder payments mtp used s = some (index, code)) :
    ∃ payTo price expiresAt relayed, s.phase = .paying code payTo price expiresAt relayed := by
  unfold SaleQueue.observeOne at h
  split at h
  · rename_i c payTo price expiresAt relayed hphase
    split_ifs at h
    rw [Option.map_eq_some_iff] at h
    obtain ⟨i, -, heq⟩ := h
    have hc : c = code := congrArg Prod.snd heq
    exact ⟨payTo, price, expiresAt, relayed, hc ▸ hphase⟩
  · cases h

theorem observeLoop_names (holder : Name → Option UnifiedAddress)
    (payments : List (TransparentAddress × Zatoshis)) (mtp : ℤ) :
    ∀ (l : List Sale) (used : List Bool),
      ((SaleQueue.observeLoop holder payments mtp used l).2.map Prod.fst) ⊆ l.map Sale.name
  | [], _ => by simp [SaleQueue.observeLoop]
  | s :: l, used => by
    unfold SaleQueue.observeLoop
    split
    · exact List.subset_cons_of_subset _ (observeLoop_names holder payments mtp l used)
    · rename_i index code _
      exact List.cons_subset_cons _ (observeLoop_names holder payments mtp l _)

/-- The loop over the sales is the replay of the payments it reports. -/
theorem observeLoop_eq (holder : Name → Option UnifiedAddress)
    (payments : List (TransparentAddress × Zatoshis)) (mtp : ℤ) :
    ∀ (l : List Sale) (used : List Bool), (l.map Sale.name).Nodup →
      (SaleQueue.observeLoop holder payments mtp used l).1.map eraseSale =
        markAll (SaleQueue.observeLoop holder payments mtp used l).2 (l.map eraseSale)
  | [], _, _ => rfl
  | s :: l, used, hnodup => by
    rw [List.map_cons, List.nodup_cons] at hnodup
    have hnotMem : ∀ used', (eraseSale s).name ∉
        (SaleQueue.observeLoop holder payments mtp used' l).2.map Prod.fst :=
      fun used' h => hnodup.1 (observeLoop_names holder payments mtp l used' h)
    unfold SaleQueue.observeLoop
    split
    · simp only [List.map_cons]
      rw [markAll_cons (hnotMem used), observeLoop_eq holder payments mtp l used hnodup.2]
    · rename_i index code hone
      obtain ⟨payTo, price, expiresAt, relayed, hphase⟩ := observeOne_phase hone
      simp only [List.map_cons, markAll, List.foldl_cons]
      -- the sale's own payment marks it, and no other sale has its name
      have hself : SaleQueue.markPaidOne s.name code (eraseSale s) =
          eraseSale { s with phase := .paid } := by
        simp [SaleQueue.markPaidOne, eraseSale, erasePhase, hphase]
      have hrest : (l.map eraseSale).map (SaleQueue.markPaidOne s.name code) = l.map eraseSale :=
        map_markPaidOne_of_notMem code (by rw [map_eraseSale_name]; exact hnodup.1)
      rw [hself, hrest]
      have hcons := markAll_cons (x := eraseSale { s with phase := .paid }) (l := l.map eraseSale)
        (hnotMem (used.set index true))
      rw [observeLoop_eq holder payments mtp l _ hnodup.2]
      exact hcons.symm

theorem traced_observe (m : Market) (r : Registry) (holder : Name → Option UnifiedAddress)
    (payments : List (TransparentAddress × Zatoshis)) (mtp : ℤ) :
    Traced height (m, r) (m.observe holder payments mtp height, r) := by
  refine traced_recordAll _ rfl fun hd => ?_
  rw [List.map_map]
  refine Eq.trans ?_ (foldl_paid _ (book (m, r))).symm
  refine Book.ext rfl ?_ rfl
  exact observeLoop_eq holder payments mtp m.sales.sales _ (map_eraseSale_name m.sales.sales ▸ hd.names)

/-! ### The operations -/

theorem traced_expire (m : Market) (r : Registry) (mtp : ℤ) :
    Traced height (m, r) (m.expire r mtp height) := by
  have h1 : Traced height (m, r) (m.recordAll height ((r.finishClocks height).2.map .delist),
      (r.finishClocks height).1) := by
    have hp := traced_delists height m r fun _ l => !Registry.clockDone height l
    simp only [Bool.not_not] at hp
    exact hp
  have h2 := traced_retain height (m.recordAll height ((r.finishClocks height).2.map .delist))
    (r.finishClocks height).1 (SaleQueue.unexpired mtp) (f := MarketEvent.expire)
    (fun _ _ => rfl) fun _ => rfl
  exact (h1.trans h2).trans (traced_closeChallengesWhere _ _ fun c => decide (c.expiresAt ≤ mtp))

theorem traced_reconcile (m : Market) (r : Registry) :
    Traced height (m, r) (m.reconcile r height) := by
  have h1 : Traced height (m, r) (m.recordAll height (r.reconcileListings.2.map .delist),
      r.reconcileListings.1) := traced_delists height m r r.listingLive
  have h2 := h1.trans (traced_closeChallengesWhere _ _ (staleChallenge r.reconcileListings.1))
  exact h2.trans (traced_retain _ _ _ _ (fun _ _ => rfl) fun _ => rfl)

theorem traced_poll (m : Market) (r : Registry) (pending : Name → Bool) :
    Traced height (m, r) ((m.poll r pending height).1, r) :=
  traced_retain height m r _ (fun _ _ => rfl) fun _ => rfl

theorem registry_list {l : Listing} {r' : Registry} (h : r.list l = .ok r') :
    r' = r.restoreListing l := by
  unfold Registry.list at h
  split at h
  · cases h
  · split_ifs at h
    exact (Except.ok.inj h).symm

theorem registry_delist {name : Name} {ua : UnifiedAddress} {r' : Registry}
    (h : r.delist name ua = .ok r') : r' = (r.removeListing name).1 := by
  unfold Registry.delist at h
  split at h
  · cases h
  · split_ifs at h
    exact (Except.ok.inj h).symm

theorem traced_list {l : Listing} (h : m.list r l height = .ok t) : Traced height (m, r) t := by
  unfold Market.list at h
  obtain ⟨-, -, h⟩ := Lib.Machine.ok_of_bind h
  split_ifs at h
  obtain ⟨r', hr', h⟩ := Lib.Machine.ok_of_bind h
  cases Except.ok.inj h
  rw [registry_list hr']
  exact traced_record _ rfl fun _ => rfl

theorem traced_delist {name : Name} {ua : UnifiedAddress} (h : m.delist r name ua height = .ok t) :
    Traced height (m, r) t := by
  unfold Market.delist at h
  split_ifs at h
  obtain ⟨r', hr', h⟩ := Lib.Machine.ok_of_bind h
  cases Except.ok.inj h
  rw [registry_delist hr']
  exact traced_record _ rfl fun _ => rfl

theorem traced_enactChallenge (m : Market) (r : Registry) (kind : ChallengeKind) :
    Traced height (m, r) (m.enactChallenge r kind height) := by
  rcases kind with l | ⟨name, ua⟩
  · simp only [enactChallenge]
    rcases h : m.list r l height with e | t
    · exact .refl
    · exact traced_list h
  · simp only [enactChallenge]
    rcases h : m.delist r name ua height with e | t
    · exact .refl
    · exact traced_delist h

/-- What `openSale` adds: a sale for a name that had none. -/
theorem openSale_eq {q q' : SaleQueue} {name : Name} {bob alice : UnifiedAddress}
    {payTo : TransparentAddress} {price : Zatoshis} {term : Expiry} {held : NameCommitment}
    {code : OtpCode} {dutch : Bool} {mtp : ℤ} {otp : BuyOtp}
    (h : q.openSale name bob alice payTo price term held code dutch mtp = some (q', otp)) :
    ∃ sale, q.isOpen name = false ∧ sale.name = name ∧ q'.sales = q.sales ++ [sale] := by
  unfold SaleQueue.openSale at h
  by_cases hopen : q.isOpen name = true
  · rw [if_pos hopen] at h; cases h
  · rw [if_neg hopen] at h
    obtain ⟨expiresAt, -, h⟩ := Option.bind_eq_some_iff.mp h
    cases Option.some.inj h
    exact ⟨_, by simpa using hopen, rfl, rfl⟩

/-- A sale pushed to the queue and logged as opened. -/
theorem traced_opened {sale : Sale} {q : SaleQueue} (hopen : m.sales.isOpen sale.name = false)
    (hq : q.sales = m.sales.sales ++ [sale]) :
    Traced height (m, r) (record { m with sales := q } height (.opened sale), r) := by
  refine traced_record _ rfl fun _ => Book.ext rfl ?_ rfl
  simp only [book, eraseEvent, Book.apply, any_eraseSale, eraseSale_name, hq]
  rw [if_neg (by rw [show (m.sales.sales.any fun s => s.name == sale.name) = false from hopen]; simp),
    List.map_append, List.map_singleton]

theorem get_append {q : SaleQueue} {sales : List Sale} {sale x : Sale}
    (hopen : (sales.any fun s => s.name == sale.name) = false) (hq : q.sales = sales ++ [sale])
    (hget : q.get sale.name = some x) : x = sale := by
  rw [SaleQueue.get, hq, List.find?_append] at hget
  have hnone : sales.find? (fun s => s.name == sale.name) = none := by
    rw [List.find?_eq_none]
    intro s hs hname
    rw [List.any_eq_false] at hopen
    exact hopen s hs hname
  rw [hnone] at hget
  simpa [eq_comm] using hget

theorem traced_openBuy {name : Name} {bob owner : UnifiedAddress} {term : Expiry}
    {held : NameCommitment} {releaseDue notePending : Bool} {code : OtpCode} {mtp : ℤ} {m' : Market}
    {otp : BuyOtp}
    (h : m.openBuy r name bob owner term held releaseDue notePending code mtp height = .ok (m', otp)) :
    Traced height (m, r) (m', r) := by
  unfold openBuy at h
  by_cases hname : m.sales.isOpen name = true
  · rw [if_pos hname] at h
    split at h <;> cases h
  · rw [if_neg hname] at h
    obtain ⟨⟨payTo, price, dutch⟩, -, h⟩ := Lib.Machine.ok_of_bind h
    simp only at h
    split_ifs at h
    split at h
    · cases h
    · rename_i q otp' hsale
      obtain ⟨sale, hopen, rfl, hq⟩ := openSale_eq hsale
      split at h
      · cases h
      · rename_i x hget
        cases Except.ok.inj h
        rw [get_append hopen hq hget]
        exact (traced_opened hopen hq).trans (traced_closeChallengesWhere _ _ _)

theorem traced_proposeList {l : Listing} {owner : UnifiedAddress} {code : OtpCode} {mtp : ℤ}
    {m' : Market} (h : m.proposeList l owner code mtp height = .ok m') :
    Traced height (m, r) (m', r) := by
  unfold proposeList at h
  obtain ⟨-, -, h⟩ := Lib.Machine.ok_of_bind h
  split_ifs at h with h1 h2 h3 h4
  · cases Except.ok.inj h
    exact .refl
  · cases Except.ok.inj h
    exact traced_pushChallenge _ (Bool.eq_false_of_not_eq_true h4)

theorem traced_proposeDelist {name : Name} {ua : UnifiedAddress} {code : OtpCode} {mtp : ℤ}
    {m' : Market} (h : m.proposeDelist r name ua code mtp height = .ok m') :
    Traced height (m, r) (m', r) := by
  unfold proposeDelist at h
  split_ifs at h with h1 h2 h3 h4 h5
  · cases Except.ok.inj h
    exact .refl
  · cases Except.ok.inj h
    exact traced_pushChallenge _ (Bool.eq_false_of_not_eq_true h5)

theorem traced_admitRequest (keys : OtpKeys) (m : Market) (txid : TxId) (request : MarketRequest)
    (paid : Zatoshis) (r : Registry) (fee : Zatoshis) (mtp : ℤ) (pending : Name → Bool) :
    Traced height (m, r) ((m.admitRequest keys txid request paid r fee height mtp pending).1, r) := by
  unfold admitRequest
  rcases request with l | ⟨name, ua⟩ | ⟨name, bob⟩
  · simp only
    split
    · exact .refl
    · rename_i record _
      split_ifs
      · exact .refl
      · rcases h : m.proposeList l record.ua (listCode keys txid l) mtp height with e | m'
        · exact .refl
        · exact traced_proposeList h
  · simp only
    split_ifs
    · exact .refl
    · exact .refl
    · rcases h : m.proposeDelist r name ua (keys.delistOtp txid name) mtp height with e | m'
      · exact .refl
      · exact traced_proposeDelist h
  · simp only
    split
    · exact .refl
    · split_ifs
      · exact .refl
      · split
        · rename_i m' _ h
          exact traced_openBuy h
        · exact .refl

/-! ### Answers -/

theorem map_eraseChallenge_modify (l : List MarketChallenge) (index : ℕ) :
    (l.modify index fun c => { c with attempts := c.attempts + 1 }).map eraseChallenge =
      l.map eraseChallenge := by
  induction l generalizing index with
  | nil => simp
  | cons c l ih =>
    rcases index with _ | index
    · simp [eraseChallenge]
    · simp [ih]

/-- A wrong code is not shown until it is one too many. -/
theorem traced_answerMiss (m : Market) (r : Registry) (index : ℕ) :
    Traced height (m, r) (answerMiss height m index, r) := by
  have hcount : Traced height (m, r)
      ({ m with challenges := m.challenges.modify index fun c => { c with attempts := c.attempts + 1 } },
        r) :=
    .silent rfl (Book.ext rfl rfl (map_eraseChallenge_modify m.challenges index))
  simp only [answerMiss]
  split
  · exact hcount
  · split_ifs
    · exact hcount.trans (traced_closeChallenge _ r _)
    · exact hcount

theorem traced_answerMisses (indices : List ℕ) (m : Market) (r : Registry) :
    Traced height (m, r) (indices.foldl (answerMiss height) m, r) := by
  induction indices generalizing m with
  | nil => exact .refl
  | cons i indices ih => exact (traced_answerMiss m r i).trans (ih _)

/-- The answered challenge leaves by its index, and is logged by its code. -/
theorem traced_eraseIdx {index : ℕ} {c : MarketChallenge} (hc : m.challenges[index]? = some c) :
    Traced height (m, r)
      (record { m with challenges := m.challenges.eraseIdx index } height (.challengeClosed c.code),
        r) := by
  refine traced_record _ rfl fun hd => Book.ext rfl rfl ?_
  have hnodup : (m.challenges.map MarketChallenge.code).Nodup := by
    have := hd.codes
    rwa [book, List.map_map] at this
  simp only [book, eraseEvent, Book.apply]
  rw [eraseIdx_eq_filter hnodup hc]
  exact map_eraseChallenge_filter _ fun x => decide (x ≠ c.code)

theorem traced_answer (m : Market) (r : Registry) (response : OtpMemo) :
    Traced height (m, r) (m.answer r response height).1 := by
  simp only [answer]
  split_ifs
  · exact .refl
  · exact .refl
  · split
    · split
      · exact .refl
      · rename_i c hc
        split_ifs
        · exact traced_eraseIdx hc
        · exact (traced_eraseIdx hc).trans (traced_enactChallenge _ r _)
    · exact traced_answerMisses _ m r

/-! ### The machine -/

/-- What the mint does to the market while it stands at a height. `setRecords` is any change of the
registry outside the listings. -/
inductive MarketOp where
  | admitRequest (keys : OtpKeys) (txid : TxId) (request : MarketRequest) (paid fee : Zatoshis) (mtp : ℤ)
      (pending : Name → Bool)
  | answer (response : OtpMemo)
  | observe (holder : Name → Option UnifiedAddress) (payments : List (TransparentAddress × Zatoshis))
      (mtp : ℤ)
  | expire (mtp : ℤ)
  | reconcile
  | poll (pending : Name → Bool)
  | relayed (name : Name)
  | challengeRelayed (code : OtpCode)
  | sealReplayedBuys
  | setRecords (records : NameMap NameRecord) (history : NameMap (List NameRecord)) (anchors : AnchorPool)

/-- The operation at `height`. -/
def MarketOp.apply (height : ℕ) (s : Market × Registry) : MarketOp → Market × Registry
  | admitRequest keys txid request paid fee mtp pending =>
    ((s.1.admitRequest keys txid request paid s.2 fee height mtp pending).1, s.2)
  | answer response => (s.1.answer s.2 response height).1
  | observe holder payments mtp => (s.1.observe holder payments mtp height, s.2)
  | expire mtp => s.1.expire s.2 mtp height
  | reconcile => s.1.reconcile s.2 height
  | poll pending => ((s.1.poll s.2 pending height).1, s.2)
  | relayed name => (s.1.relayed name, s.2)
  | challengeRelayed code => (s.1.challengeRelayed code, s.2)
  | sealReplayedBuys => (s.1.sealReplayedBuys, s.2)
  | setRecords records history anchors => (s.1, ⟨records, history, s.2.listings, anchors⟩)

/-- The market and its registry as a rewindable machine; an operation comes with its height. -/
def system : System (Market × Registry) (ℕ × MarketOp) where
  step s o := o.2.apply o.1 s
  height := Prod.fst
  truncate s k := s.1.truncateTo s.2 k

theorem book_relayed (m : Market) (r : Registry) (name : Name) : book (m.relayed name, r) =
    book (m, r) := by
  refine Book.ext rfl ?_ rfl
  simp only [book, Market.relayed, SaleQueue.relayed, List.map_map]
  refine List.map_congr_left fun s _ => ?_
  simp only [Function.comp]
  split_ifs
  · exact eraseSale_relay s
  · rfl

theorem book_challengeRelayed (m : Market) (r : Registry) (code : OtpCode) :
    book (m.challengeRelayed code, r) = book (m, r) := by
  refine Book.ext rfl rfl ?_
  simp only [book, Market.challengeRelayed, List.map_map]
  refine List.map_congr_left fun c _ => ?_
  simp only [Function.comp]
  split_ifs <;> rfl

theorem eraseEvent_sealEvent (e : MarketEvent) : eraseEvent (sealEvent e) = eraseEvent e := by
  rcases e with _ | _ | s | _ | _ | _ | _ | _ <;> try rfl
  simp [sealEvent, eraseEvent]

theorem log_sealReplayedBuys (m : Market) (r : Registry) :
    sourced.log (m.sealReplayedBuys, r) = sourced.log (m, r) := by
  simp only [sourced, sealReplayedBuys, List.map_map]
  exact List.map_congr_left fun e _ => by simp [eraseEvent_sealEvent]

theorem book_sealReplayedBuys (m : Market) (r : Registry) : book (m.sealReplayedBuys, r) =
    book (m, r) := by
  refine Book.ext rfl ?_ rfl
  simp only [book, sealReplayedBuys, SaleQueue.sealRelayed, List.map_map]
  exact List.map_congr_left fun s _ => eraseSale_relay s

theorem traced_sealReplayedBuys (m : Market) (r : Registry) :
    Traced height (m, r) (m.sealReplayedBuys, r) :=
  .silent (log_sealReplayedBuys m r) (book_sealReplayedBuys m r)

theorem traced_step (s : Market × Registry) (o : ℕ × MarketOp) : Traced o.1 s (system.step s o) := by
  obtain ⟨m, r⟩ := s
  obtain ⟨height, o⟩ := o
  rcases o with ⟨keys, txid, request, paid, fee, mtp, pending⟩ | response | ⟨holder,
    payments, mtp⟩ | mtp |
    _ | pending | name | code | _ | ⟨records, history, anchors⟩
  · exact traced_admitRequest keys m txid request paid r fee mtp pending
  · exact traced_answer m r response
  · exact traced_observe m r holder payments mtp
  · exact traced_expire m r mtp
  · exact traced_reconcile m r
  · exact traced_poll m r pending
  · exact .silent rfl (book_relayed m r name)
  · exact .silent rfl (book_challengeRelayed m r code)
  · exact traced_sealReplayedBuys m r
  · exact .silent rfl rfl

theorem lawful : sourced.Lawful system where
  step s o := by
    obtain ⟨es, hlog, hbook⟩ := traced_step s o
    exact ⟨es, hlog, fun hs => hbook (distinct_of_replays hs)⟩
  truncate_log s k := by
    simp only [sourced, system, truncateTo, List.filter_map]
    rfl
  truncate_view s k := by
    have hbook := book_foldl_replayEvent (s.1.events.filter fun e => decide (e.height ≤ k))
      ((⟨.new, [], []⟩ : Market), s.2.clearListings)
    exact hbook

/-- **Exact rollback of the market.** After operations at `h` or below, any operations above `h` and
truncations to `h` or more, `truncate_to(h)` shows the listings, the open sales and the open challenges
that stood at `h`. -/
theorem truncateTo_exact {h : ℕ} {before after : List (Act (ℕ × MarketOp))} (hb : system.Below h before)
    (ha : system.Above h after) :
    book (system.truncate (system.run (system.run (new, .new) before) after) h) =
      book (system.run (new, .new) before) :=
  lawful.exact (s := (new, .new)) rfl (by simp [sourced, new]) hb ha

/-- Alice's flat listing, proposed in block 5 and answered in block 6. -/
def sampleListing : Listing := ⟨alice, sampleUa 1, .publicKeyHash (Vector.replicate 20 1), .flat .zero⟩

/-- The code of that listing. -/
def listingCode : OtpCode := 2

/-- A code of no challenge. -/
def strayCode : OtpCode := 9

def sampleKeys : OtpKeys := ⟨fun _ _ => 1, fun _ _ _ _ => 2, fun _ _ _ _ => 3, fun _ _ => 4⟩

def sampleRecord : NameRecord :=
  .create Params.sample (.claim alice (sampleUa 1) .never) ⟨11⟩ 3 0

def sampleProposal : List (Act (ℕ × MarketOp)) :=
  [.op (3, .setRecords ((∅ : NameMap NameRecord).insert alice sampleRecord) ∅ .empty),
    .op (5, .admitRequest sampleKeys ⟨Vector.replicate 32 0⟩ (.list sampleListing) .zero .zero 10
      fun _ => false)]

def sampleAnswer : List (Act (ℕ × MarketOp)) :=
  [.op (6, .answer (Market.newChallenge (.list sampleListing) 2 10).memo), .truncate 5]

/-- Rolling block 6 back reopens the challenge and takes the listing down. -/
theorem truncateTo_exact_sample :
    system.Below 5 sampleProposal ∧ system.Above 5 sampleAnswer ∧
      book (system.truncate (system.run (system.run (new, .new) sampleProposal) sampleAnswer) 5) =
        book (system.run (new, .new) sampleProposal) :=
  have hb : system.Below 5 sampleProposal := by
    simp [System.Below, sampleProposal, system]
  have ha : system.Above 5 sampleAnswer := by
    simp [System.Above, sampleAnswer, system]
  ⟨hb, ha, truncateTo_exact hb ha⟩

end ZnsMint.Market
