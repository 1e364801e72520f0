import ZnsMint.Inbound.Codec
import ZnsMint.Market

/-! # One memo, one reading

Four decoders read memos that begin with `ZNS`: challenges, name requests and market requests at the
Treasury, Name Notes at the Registry. No memo is accepted by two of them.

The verb separates all but one pair: a request and a Name Note can both be a `claim`. A request with an
access code has six fields, as a Name Note has, but its second value is a term where the note has an
address, and no term begins as an address does. -/

namespace ZnsMint.Inbound.Languages

open ZnsMint.Basic ZnsMint.Note ZnsMint.Inbound ZnsMint.Lib ZnsMint.Wire
open ZnsMint.Note.Codec ZnsMint.Inbound.Codec

variable {w : Wire} {memo : MemoBytes}

/-! ### What an accepted memo looks like -/

theorem next_some {fs rest : List (List UInt8)} {f : List UInt8} (h : next fs = some (f, rest)) :
    fs = f :: rest := by
  rcases fs with _ | ⟨g, gs⟩
  · cases h
  · cases h
    rfl

/-- A parser of `decode_zns` accepted: the fields it was given, all read. -/
theorem decodeZns_some {α : Type} {parse : List UInt8 → List (List UInt8) →
    Option (α × List (List UInt8))}
    {v : α} (h : decodeZns w memo parse = some v) :
    ∃ text verb fields, w.memoText memo = some text ∧ text.splitOn COLON = ascii "ZNS" :: verb :: fields ∧
      parse verb fields = some (v, []) := by
  simp only [decodeZns, Option.bind_eq_bind, Option.bind_eq_some_iff] at h
  obtain ⟨text, ht, ⟨zns, fs⟩, hz, h⟩ := h
  split at h
  · cases h
  · rename_i hzns
    simp only [ne_eq, not_not] at hzns
    obtain ⟨⟨verb, fields⟩, hv, h⟩ := Option.bind_eq_some_iff.mp h
    obtain ⟨⟨v', rest⟩, hp, h⟩ := Option.bind_eq_some_iff.mp h
    simp only at h hv hp
    split at h
    · rename_i hr
      cases h
      rw [List.isEmpty_iff] at hr
      subst hr
      refine ⟨text, verb, fields, ht, ?_, hp⟩
      rw [next_some hz, next_some hv, hzns]
    · cases h

theorem decodeNameAndUa_some {fields rest : List (List UInt8)} {n : Name} {u : UnifiedAddress}
    (h : decodeNameAndUa w fields = some ((n, u), rest)) :
    ∃ name ua, fields = name :: ua :: rest ∧ Name.parse name = some n ∧
      decodeControllerUa w ua = some u := by
  simp only [decodeNameAndUa, Option.bind_eq_bind, Option.bind_eq_some_iff] at h
  obtain ⟨⟨name, fs⟩, h1, n', hn, ⟨ua, fs'⟩, h2, h⟩ := h
  split at h
  · cases h
  · obtain ⟨u', hu, h⟩ := Option.bind_eq_some_iff.mp h
    cases h
    have h2' : fs = ua :: fs' := next_some h2
    exact ⟨name, ua, by rw [next_some h1, h2'], hn, hu⟩

/-- The two forms of a claim's leading fields. -/
theorem decodeCodeAndTerm_some {fields rest : List (List UInt8)} {code : Option AccessCode} {term : Term}
    (h : decodeCodeAndTerm fields = some ((code, term), rest)) :
    (∃ t, fields = t :: rest ∧ code = none ∧ Term.parse t = some term) ∨
      ∃ c t k, fields = c :: t :: rest ∧ code = some k ∧ AccessCode.parse c = some k ∧
        Term.parse t = some term := by
  simp only [decodeCodeAndTerm, Option.bind_eq_bind, Option.bind_eq_some_iff] at h
  obtain ⟨⟨first, fs⟩, h1, h⟩ := h
  rw [next_some h1]
  simp only at h
  split at h
  · rename_i term' ht
    cases h
    exact Or.inl ⟨first, rfl, rfl, ht⟩
  · obtain ⟨k, hk, h⟩ := Option.bind_eq_some_iff.mp h
    obtain ⟨⟨second, fs'⟩, h2, h⟩ := Option.bind_eq_some_iff.mp h
    obtain ⟨term', ht, h⟩ := Option.bind_eq_some_iff.mp h
    cases h
    have h2' : fs = second :: fs' := next_some h2
    exact Or.inr ⟨first, second, k, by rw [h2'], rfl, hk, ht⟩

/-- An accepted request: its verb, and the number of fields after it. -/
theorem Request.parse_some {verb : List UInt8} {fields : List (List UInt8)} {r : Request}
    (h : Request.parse w verb fields = some (r, [])) :
    (verb = ascii "claim" ∧ ∃ code term name ua, r = .claim name ua term code ∧
        ((∃ t n u, fields = [t, n, u] ∧ code = none ∧ Term.parse t = some term ∧
          Name.parse n = some name ∧
          decodeControllerUa w u = some ua) ∨
        ∃ c t n u k, fields = [c, t, n, u] ∧ code = some k ∧ AccessCode.parse c = some k ∧
          Term.parse t = some term ∧ Name.parse n = some name ∧ decodeControllerUa w u = some ua)) ∨
    (verb = ascii "update" ∧ r.action = .update ∧ fields.length = 3) ∨
    (verb = ascii "release" ∧ r.action = .release ∧ fields.length = 2) := by
  simp only [Request.parse] at h
  split_ifs at h with h1 h2 h3
  · refine Or.inl ⟨h1, ?_⟩
    simp only [Option.bind_eq_bind, Option.bind_eq_some_iff] at h
    obtain ⟨⟨⟨code, term⟩, fs⟩, hct, ⟨⟨name, ua⟩, rest⟩, hnu, h⟩ := h
    cases h
    obtain ⟨n, u, rfl, hn, hu⟩ := decodeNameAndUa_some hnu
    refine ⟨code, term, name, ua, rfl, ?_⟩
    rcases decodeCodeAndTerm_some hct with ⟨t, rfl, rfl, ht⟩ | ⟨c, t, k, rfl, rfl, hc, ht⟩
    · exact Or.inl ⟨t, n, u, rfl, rfl, ht, hn, hu⟩
    · exact Or.inr ⟨c, t, n, u, k, rfl, rfl, hc, ht, hn, hu⟩
  · refine Or.inr (Or.inl ⟨h2, ?_⟩)
    simp only [Option.bind_eq_bind, Option.bind_eq_some_iff] at h
    obtain ⟨⟨f, fs⟩, hf, term, -, ⟨⟨name, ua⟩, rest⟩, hnu, h⟩ := h
    cases h
    obtain ⟨n, u, hfs, -, -⟩ := decodeNameAndUa_some hnu
    have hfs' : fs = [n, u] := hfs
    rw [next_some hf, hfs']
    exact ⟨rfl, rfl⟩
  · refine Or.inr (Or.inr ⟨h3, ?_⟩)
    simp only [Option.bind_eq_bind, Option.bind_eq_some_iff] at h
    obtain ⟨⟨⟨name, ua⟩, rest⟩, hnu, h⟩ := h
    cases h
    obtain ⟨n, u, rfl, -, -⟩ := decodeNameAndUa_some hnu
    exact ⟨rfl, rfl⟩

/-- The verbs of an accepted market request. -/
theorem MarketRequest.parse_verb {verb : List UInt8} {fields : List (List UInt8)} {r : MarketRequest}
    {rest : List (List UInt8)} (h : MarketRequest.parse w verb fields = some (r, rest)) :
    verb = ascii "list" ∨ verb = ascii "auction" ∨ verb = ascii "delist" ∨ verb = ascii "buy" := by
  simp only [MarketRequest.parse] at h
  split_ifs at h with h1 h2 h3 h4
  · exact Or.inl h1
  · exact Or.inr (Or.inl h2)
  · exact Or.inr (Or.inr (Or.inl h3))
  · exact Or.inr (Or.inr (Or.inr h4))

/-- An accepted challenge has the verb `otp`. -/
theorem OtpMemo.decode_some {m : OtpMemo} (h : OtpMemo.decode w memo = some m) :
    ∃ text fields, w.memoText memo = some text ∧ text.splitOn COLON =
      ascii "ZNS" :: ascii "otp" :: fields := by
  simp only [OtpMemo.decode, Option.bind_eq_bind, Option.bind_eq_some_iff] at h
  obtain ⟨text, ht, h⟩ := h
  rw [OtpMemo.parse.eq_def] at h
  split at h
  · rename_i zns otp digits name verb ua rest hs
    split at h
    · cases h
    · rename_i hz
      push Not at hz
      exact ⟨text, _, ht, by rw [hs, hz.1, hz.2]⟩
  · cases h

/-- An accepted Name Note: six fields, and the text the Treasury would read. -/
theorem NameNote.decode_fields (hm : MemoLaws w) {note : NameNote} {text : List UInt8}
    (h : NameNote.decode w memo = some (some note)) (ht : w.memoText memo = some text) :
    ∃ name ua expires prev, text.splitOn COLON =
      [ascii "ZNS", ascii note.action.asStr, name, ua, expires, prev] ∧
      (decodeNoteUa w ua).isSome = true := by
  obtain ⟨-, s, hs, hp⟩ := Note.Codec.decode_some h
  have htext : text = s := by
    rw [hm.memoText_eq] at ht
    split at ht
    · cases ht
      exact (noteText_some hs).1.symm
    · cases ht
  obtain ⟨verb, name, ua, expires, prev, p, hf, ha, -, hu, -, -⟩ := parse_some hp
  refine ⟨name, ua, expires, prev, ?_, by rw [hu]; rfl⟩
  rw [htext, hf, Action.asStr_parse ha]

/-! ### No memo has two readers -/

/-- The verbs each decoder takes. A Name Note has the verb of its action. -/
def requestVerbs : List (List UInt8) := [ascii "claim", ascii "update", ascii "release"]
def marketVerbs : List (List UInt8) := [ascii "list", ascii "auction", ascii "delist", ascii "buy"]
def noteVerbs : List (List UInt8) := [ascii "claim", ascii "update", ascii "release", ascii "sale"]

/-- The second field of a memo's text. -/
def verbOf (w : Wire) (memo : MemoBytes) : Option (List UInt8) := do
  let text ← w.memoText memo
  (text.splitOn COLON)[1]?

theorem verbOf_eq {text verb : List UInt8} {fields : List (List UInt8)} (ht : w.memoText memo = some text)
    (hs : text.splitOn COLON = ascii "ZNS" :: verb :: fields) : verbOf w memo = some verb := by
  simp [verbOf, ht, hs]

theorem verbOf_otp {m : OtpMemo} (h : OtpMemo.decode w memo = some m) :
    ∃ v ∈ [ascii "otp"], verbOf w memo = some v := by
  obtain ⟨text, fields, ht, hs⟩ := OtpMemo.decode_some h
  exact ⟨_, List.mem_singleton_self _, verbOf_eq ht hs⟩

theorem verbOf_request {r : Request} (h : Request.decode w memo = some r) :
    ∃ v ∈ requestVerbs, verbOf w memo = some v := by
  obtain ⟨text, verb, fields, ht, hs, hp⟩ := decodeZns_some h
  refine ⟨verb, ?_, verbOf_eq ht hs⟩
  rcases Request.parse_some hp with ⟨rfl, -⟩ | ⟨rfl, -⟩ | ⟨rfl, -⟩
  · decide
  · decide
  · decide

theorem verbOf_market {r : MarketRequest} (h : MarketRequest.decode w memo = some r) :
    ∃ v ∈ marketVerbs, verbOf w memo = some v := by
  obtain ⟨text, verb, fields, ht, hs, hp⟩ := decodeZns_some h
  refine ⟨verb, ?_, verbOf_eq ht hs⟩
  rcases MarketRequest.parse_verb hp with rfl | rfl | rfl | rfl
  · decide
  · decide
  · decide
  · decide

theorem asStr_mem_noteVerbs (note : NameNote) : ascii note.action.asStr ∈ noteVerbs := by
  rcases note with _ | _ | _ | _ <;> simp [NameNote.action, Action.asStr, noteVerbs]

/-- A Name Note memo has, at the Treasury too, the verb of a Name Note, if it has one. -/
theorem verbOf_note (hm : MemoLaws w) {note : NameNote} {v : List UInt8}
    (h : NameNote.decode w memo = some (some note)) (hv : verbOf w memo = some v) : v ∈ noteVerbs := by
  simp only [verbOf, Option.bind_eq_bind, Option.bind_eq_some_iff] at hv
  obtain ⟨text, ht, hv⟩ := hv
  obtain ⟨name, ua, expires, prev, hs, -⟩ := NameNote.decode_fields hm h ht
  rw [hs] at hv
  cases hv
  exact asStr_mem_noteVerbs note

/-- Two decoders with no verb in common do not both accept. -/
theorem verbs_clash {V V' : List (List UInt8)} (hdisj : ∀ x ∈ V, x ∉ V')
    (h : ∃ v ∈ V, verbOf w memo = some v) (h' : ∃ v ∈ V', verbOf w memo = some v) : False := by
  obtain ⟨v, hv, hverb⟩ := h
  obtain ⟨v', hv', hverb'⟩ := h'
  rw [hverb, Option.some.injEq] at hverb'
  subst hverb'
  exact hdisj v hv hv'

theorem not_otp_of_request {r : Request} (h : Request.decode w memo = some r) :
    OtpMemo.decode w memo = none := by
  by_contra hne
  obtain ⟨m, hm⟩ := Option.ne_none_iff_exists'.mp hne
  exact verbs_clash (by decide) (verbOf_request h) (verbOf_otp hm)

theorem not_otp_of_market {r : MarketRequest} (h : MarketRequest.decode w memo = some r) :
    OtpMemo.decode w memo = none := by
  by_contra hne
  obtain ⟨m, hm⟩ := Option.ne_none_iff_exists'.mp hne
  exact verbs_clash (by decide) (verbOf_market h) (verbOf_otp hm)

theorem not_request_of_market {r : MarketRequest} (h : MarketRequest.decode w memo = some r) :
    Request.decode w memo = none := by
  by_contra hne
  obtain ⟨r', hr'⟩ := Option.ne_none_iff_exists'.mp hne
  exact verbs_clash (by decide) (verbOf_market h) (verbOf_request hr')

/-- A term begins with `f` or with a digit, never as an address does. -/
theorem Term.parse_head {s : List UInt8} {t : Term} (h : Term.parse s = some t) :
    s.head? ≠ some 117 ∧ s.head? ≠ some 85 := by
  simp only [Term.parse] at h
  split_ifs at h with h1 h2 h3 h4 h5
  · rw [h1]
    decide
  · simp only [Bool.or_eq_true, not_or, Bool.not_eq_true', Bool.not_eq_false, List.all_eq_true] at h3
    rcases s with _ | ⟨b, s⟩
    · simp
    · have hb : Text.isDigit b = true := by
        refine h3.2 b ?_
        rcases s with _ | ⟨c, s⟩
        · exact absurd rfl h3.1.1
        · rw [List.dropLast_cons_cons]
          exact List.mem_cons_self
      constructor
      · rintro he
        cases he
        exact absurd hb (by decide)
      · rintro he
        cases he
        exact absurd hb (by decide)

theorem decodeNoteUa_head (hw : UaLaws w) {s : List UInt8} (h : (decodeNoteUa w s).isSome = true) :
    s.head? = some 117 ∨ s.head? = some 85 := by
  obtain ⟨ua, hua⟩ := Option.isSome_iff_exists.mp h
  simp only [decodeNoteUa, Option.bind_eq_bind, Option.bind_eq_some_iff] at hua
  obtain ⟨t, ht, -⟩ := hua
  exact hw.lead s t ht

/-- **A Name Note memo is no request.** The one place where field counts meet is the claim with an access
code, and there the note has an address where the request has its term. -/
theorem not_request_of_note (hw : UaLaws w) (hm : MemoLaws w) {note : NameNote}
    (h : NameNote.decode w memo = some (some note)) : Request.decode w memo = none := by
  by_contra hne
  obtain ⟨r, hr⟩ := Option.ne_none_iff_exists'.mp hne
  obtain ⟨text, verb, fields, ht, hs, hp⟩ := decodeZns_some hr
  obtain ⟨name, ua, expires, prev, hs', hua⟩ := NameNote.decode_fields hm h ht
  rw [hs', List.cons.injEq, List.cons.injEq] at hs
  obtain ⟨-, -, rfl⟩ := hs
  rcases Request.parse_some hp with ⟨-, code, term, n, u, -, hc⟩ | ⟨-, -, hl⟩ | ⟨-, -, hl⟩
  · rcases hc with ⟨t, n', u', hf, -⟩ | ⟨c, t, n', u', k, hf, -, -, hterm, -⟩
    · cases hf
    · cases hf
      have hhead := decodeNoteUa_head hw hua
      have hterm' := Term.parse_head hterm
      rcases hhead with hh | hh
      · exact hterm'.1 hh
      · exact hterm'.2 hh
  · cases hl
  · cases hl

theorem not_market_of_note (hm : MemoLaws w) {note : NameNote}
    (h : NameNote.decode w memo = some (some note)) :
    MarketRequest.decode w memo = none := by
  by_contra hne
  obtain ⟨r, hr⟩ := Option.ne_none_iff_exists'.mp hne
  obtain ⟨v, hv, hverb⟩ := verbOf_market hr
  exact verbs_clash (by decide) ⟨v, hv, hverb⟩ ⟨v, verbOf_note hm h hverb, hverb⟩

theorem not_otp_of_note (hm : MemoLaws w) {note : NameNote}
    (h : NameNote.decode w memo = some (some note)) :
    OtpMemo.decode w memo = none := by
  by_contra hne
  obtain ⟨m, hm'⟩ := Option.ne_none_iff_exists'.mp hne
  obtain ⟨v, hv, hverb⟩ := verbOf_otp hm'
  exact verbs_clash (by decide) ⟨v, hv, hverb⟩ ⟨v, verbOf_note hm h hverb, hverb⟩

/-! ### The order of the parsers -/

/-- Which of the four decoders accept a memo. -/
def readers (w : Wire) (memo : MemoBytes) : List Bool :=
  [(OtpMemo.decode w memo).isSome, (Request.decode w memo).isSome, (MarketRequest.decode w memo).isSome,
    (NameNote.decode w memo).join.isSome]

/-- The three parsers of the Treasury. -/
def parsers (w : Wire) : List (MemoBytes → Option MintInbound) :=
  [fun m => (OtpMemo.decode w m).map .response, fun m => (Request.decode w m).map .request,
    fun m => (MarketRequest.decode w m).map .market]

/-- The first parser that accepts gives the answer. -/
def decodeInOrder (ps : List (MemoBytes → Option MintInbound)) (memo : MemoBytes) : MintInbound :=
  (ps.findSome? fun p => p memo).getD .unrecognized

theorem decode_eq_decodeInOrder (w : Wire) (memo : MemoBytes) :
    MintInbound.decode w memo = decodeInOrder (parsers w) memo := by
  rw [MintInbound.decode, decodeInOrder, parsers]
  rcases h1 : OtpMemo.decode w memo with _ | m
  · rcases h2 : Request.decode w memo with _ | r
    · rcases h3 : MarketRequest.decode w memo with _ | r
      · simp [List.findSome?, h1, h2, h3]
      · simp [List.findSome?, h1, h2, h3]
    · simp [List.findSome?, h1, h2]
  · simp [List.findSome?, h1]

theorem readers_count_le (hw : UaLaws w) (hm : MemoLaws w) (memo : MemoBytes) :
    (readers w memo).count true ≤ 1 := by
  rcases h4 : (NameNote.decode w memo).join with _ | note
  · rcases h3 : MarketRequest.decode w memo with _ | r3
    · rcases h2 : Request.decode w memo with _ | r2
      · rcases h1 : OtpMemo.decode w memo with _ | m <;> simp [readers, h1, h2, h3, h4]
      · simp [readers, not_otp_of_request h2, h2, h3, h4]
    · simp [readers, not_otp_of_market h3, not_request_of_market h3, h3, h4]
  · have hn : NameNote.decode w memo = some (some note) := by simpa [Option.join_eq_some_iff] using h4
    simp [readers, not_otp_of_note hm hn, not_request_of_note hw hm hn, not_market_of_note hm hn, h4]

/-- Two parsers of the Treasury that accept a memo give one answer. -/
theorem parsers_agree {p q : MemoBytes → Option MintInbound} {v v' : MintInbound} (hp : p ∈ parsers w)
    (hq : q ∈ parsers w) (h : p memo = some v) (h' : q memo = some v') : v = v' := by
  simp only [parsers, List.mem_cons, List.not_mem_nil, or_false] at hp hq
  have key : ∀ {p : MemoBytes → Option MintInbound}, (p = (fun m => (OtpMemo.decode w m).map .response) ∨
      p = (fun m => (Request.decode w m).map .request) ∨ p = fun m =>
        (MarketRequest.decode w m).map .market) →
      ∀ {v}, p memo = some v → v = MintInbound.decode w memo := by
    rintro p (rfl | rfl | rfl) v h
    · obtain ⟨m, hm, rfl⟩ := Option.map_eq_some_iff.mp h
      simp [MintInbound.decode, hm]
    · obtain ⟨r, hr, rfl⟩ := Option.map_eq_some_iff.mp h
      simp [MintInbound.decode, not_otp_of_request hr, hr]
    · obtain ⟨r, hr, rfl⟩ := Option.map_eq_some_iff.mp h
      simp [MintInbound.decode, not_otp_of_market hr, not_request_of_market hr, hr]
  rw [key hp h, key hq h']

theorem decodeInOrder_perm {ps : List (MemoBytes → Option MintInbound)} (hperm : ps.Perm (parsers w))
    (memo : MemoBytes) : decodeInOrder ps memo = MintInbound.decode w memo := by
  rw [decode_eq_decodeInOrder, decodeInOrder, decodeInOrder]
  congr 1
  rcases h1 : ps.findSome? (fun p => p memo) with _ | v
  · rw [h1, eq_comm, List.findSome?_eq_none_iff]
    intro p hp
    exact List.findSome?_eq_none_iff.mp h1 p (hperm.mem_iff.mpr hp)
  · obtain ⟨p, hp, hv⟩ := List.exists_of_findSome?_eq_some h1
    rcases h2 : (parsers w).findSome? (fun p => p memo) with _ | v'
    · rw [List.findSome?_eq_none_iff] at h2
      rw [h2 p (hperm.mem_iff.mp hp)] at hv
      cases hv
    · obtain ⟨q, hq, hv'⟩ := List.exists_of_findSome?_eq_some h2
      rw [h1, h2, parsers_agree (hperm.mem_iff.mp hp) hq hv hv']

/-! ### The readings of a claim -/

/-- The claim grammar: a term, a name and an address, an access code before them or none. -/
def ClaimReading (w : Wire) (fields : List (List UInt8)) (code : Option AccessCode) (term : Term)
    (name : Name) (ua : UnifiedAddress) : Prop :=
  ∃ t n u, Term.parse t = some term ∧ Name.parse n = some name ∧ decodeControllerUa w u = some ua ∧
    match code with
    | none => fields = [ascii "ZNS", ascii "claim", t, n, u]
    | some k => ∃ c, AccessCode.parse c = some k ∧ fields = [ascii "ZNS", ascii "claim", c, t, n, u]

/-- **A claim memo has at most one reading.** -/
theorem claimReading_unique {fields : List (List UInt8)} {code code' : Option AccessCode}
    {term term' : Term}
    {name name' : Name} {ua ua' : UnifiedAddress} (h : ClaimReading w fields code term name ua)
    (h' : ClaimReading w fields code' term' name' ua') :
    (code, term, name, ua) = (code', term', name', ua') := by
  obtain ⟨t, n, u, ht, hn, hu, hf⟩ := h
  obtain ⟨t', n', u', ht', hn', hu', hf'⟩ := h'
  rcases code with _ | k <;> rcases code' with _ | k'
  · subst hf
    cases hf'
    rw [ht, Option.some.injEq] at ht'
    rw [hn, Option.some.injEq] at hn'
    rw [hu, Option.some.injEq] at hu'
    rw [ht', hn', hu']
  · obtain ⟨c, -, hf'⟩ := hf'
    subst hf
    cases hf'
  · obtain ⟨c, -, hf⟩ := hf
    subst hf
    cases hf'
  · obtain ⟨c, hc, rfl⟩ := hf
    obtain ⟨c', hc', hf'⟩ := hf'
    cases hf'
    rw [ht, Option.some.injEq] at ht'
    rw [hn, Option.some.injEq] at hn'
    rw [hu, Option.some.injEq] at hu'
    rw [hc] at hc'
    rw [ht', hn', hu', hc']

/-- Six digits are no term: a term ends in a letter. -/
theorem Term.parse_code {s : List UInt8} {k : AccessCode} (h : AccessCode.parse s = some k) :
    Term.parse s = none := by
  simp only [AccessCode.parse, sixDigits] at h
  split_ifs at h with h1 h2
  push Not at h1
  have hall := List.all_eq_true.mp h1.2
  have h3 : s ≠ ascii "forever" := by
    rintro rfl
    exact absurd h1.1 (by decide)
  have h4 : s.getLast? ≠ some 121 := by
    intro hl
    exact absurd (hall 121 (List.mem_of_getLast? hl)) (by decide)
  rw [Term.parse, if_neg h3, if_pos h4]

theorem decodeNameAndUa_eq (hw : UaLaws w) {n u : List UInt8} {name : Name} {ua : UnifiedAddress}
    (hn : Name.parse n = some name) (hu : decodeControllerUa w u = some ua) (rest : List (List UInt8)) :
    decodeNameAndUa w (n :: u :: rest) = some ((name, ua), rest) := by
  have hne : u ≠ [] := by
    obtain ⟨-, t, ht⟩ := decodeControllerUa_some hu
    rintro rfl
    rcases hw.lead _ _ ht with hl | hl <;> cases hl
  simp [decodeNameAndUa, next, hn, hne, hu]

/-- `Request::decode` gives a claim exactly when the memo's text has that reading. -/
theorem decode_claim_iff (hw : UaLaws w) {code : Option AccessCode} {term : Term} {name : Name}
    {ua : UnifiedAddress} :
    Request.decode w memo = some (.claim name ua term code) ↔
      ∃ text, w.memoText memo = some text ∧ ClaimReading w (text.splitOn COLON) code term name ua := by
  constructor
  · intro h
    obtain ⟨text, verb, fields, ht, hs, hp⟩ := decodeZns_some h
    refine ⟨text, ht, ?_⟩
    rw [hs]
    rcases Request.parse_some hp with ⟨rfl, code', term', name', ua', hr, hf⟩ | ⟨-, ha, -⟩ | ⟨-, ha, -⟩
    · cases hr
      rcases hf with ⟨t, n, u, rfl, rfl, hterm, hn, hu⟩ | ⟨c, t, n, u, k, rfl, rfl, hc, hterm, hn, hu⟩
      · exact ⟨t, n, u, hterm, hn, hu, rfl⟩
      · exact ⟨t, n, u, hterm, hn, hu, c, hc, rfl⟩
    · cases ha
    · cases ha
  · rintro ⟨text, ht, t, n, u, hterm, hn, hu, hf⟩
    have hnu := decodeNameAndUa_eq hw hn hu []
    rcases code with _ | k
    · simp [Request.decode, decodeZns, ht, hf, next, Request.parse, decodeCodeAndTerm, hterm, hnu]
    · obtain ⟨c, hc, hf⟩ := hf
      simp [Request.decode, decodeZns, ht, hf, next, Request.parse, decodeCodeAndTerm,
        Term.parse_code hc, hc,
        hterm, hnu]

/-! ### What the mint says to users -/

/-- The fields of a buy passcode: a clock quote also carries its price and the time it ends. -/
def BuyOtp.fields (w : Wire) (b : BuyOtp) : List (List UInt8) :=
  match b.dutch with
  | some (price, til) =>
    [ascii "ZNS", ascii "dutch", OtpCode.digits b.code, b.name.bytes, w.encodeUa b.ua, encodeZec price,
      decimalInt til]
  | none => [ascii "ZNS", ascii "buyotp", OtpCode.digits b.code, b.name.bytes, w.encodeUa b.ua]

/-- `BuyOtp::encode`. -/
def BuyOtp.encode (w : Wire) (b : BuyOtp) : Option MemoBytes :=
  w.fromBytes ([COLON].intercalate (BuyOtp.fields w b))

/-- No decoder accepts the memo. -/
def Refused (w : Wire) (memo : MemoBytes) : Prop :=
  OtpMemo.decode w memo = none ∧ Request.decode w memo = none ∧ MarketRequest.decode w memo = none ∧
    NameNote.decode w memo = some none

/-- A memo whose verb no decoder takes is refused by all four. -/
theorem refused_of_verb (hw : UaLaws w) (hm : MemoLaws w) {v : List UInt8}
    (hverb : verbOf w memo = some v)
    (hv : v ∉ [ascii "otp"] ∧ v ∉ requestVerbs ∧ v ∉ marketVerbs ∧ v ∉ noteVerbs) : Refused w memo := by
  have out : ∀ {V : List (List UInt8)}, v ∉ V → ¬ ∃ x ∈ V, verbOf w memo = some x := by
    rintro V hn ⟨x, hx, he⟩
    rw [hverb, Option.some.injEq] at he
    exact hn (he ▸ hx)
  refine ⟨?_, ?_, ?_, ?_⟩
  · by_contra hne
    obtain ⟨m, h⟩ := Option.ne_none_iff_exists'.mp hne
    exact out hv.1 (verbOf_otp h)
  · by_contra hne
    obtain ⟨r, h⟩ := Option.ne_none_iff_exists'.mp hne
    exact out hv.2.1 (verbOf_request h)
  · by_contra hne
    obtain ⟨r, h⟩ := Option.ne_none_iff_exists'.mp hne
    exact out hv.2.2.1 (verbOf_market h)
  · rcases h : NameNote.decode w memo with _ | _ | note
    · exact absurd h (decode_ne_none hw memo)
    · rfl
    · exact absurd (verbOf_note hm h hverb) hv.2.2.2

/-- The verb of a memo made of a text is the text's second field. -/
theorem verbOf_fromBytes (hm : MemoLaws w) {verb rest : List UInt8} (hv : COLON ∉ verb)
    (hb : ∀ b ∈ ascii "ZNS" ++ COLON :: (verb ++ COLON :: rest), b.toNat < 128 ∧ b ≠ 0)
    (h : w.fromBytes (ascii "ZNS" ++ COLON :: (verb ++ COLON :: rest)) = some memo) :
    verbOf w memo = some verb := by
  rw [hm.fromBytes_eq] at h
  split at h
  · rename_i hlen
    cases h
    exact verbOf_eq (memoText_padded hm hlen hb) (Text.splitOn_two (by decide) hv rest)
  · cases h

theorem isField_otpDigits (code : OtpCode) : IsField (OtpCode.digits code) :=
  isField_of_isDigit fun b hb => Text.isDigit_of_mem_fixed b hb

theorem isField_decimalInt (t : ℤ) : IsField (decimalInt t) := isField_fieldBytes (e := .at t)

/-- **A buy passcode is no message to the mint.** -/
theorem refused_buyOtp (hw : UaLaws w) (hm : MemoLaws w) {b : BuyOtp}
    (h : BuyOtp.encode w b = some memo) :
    Refused w memo := by
  rw [BuyOtp.encode] at h
  rcases hd : b.dutch with _ | ⟨price, til⟩
  · have hf : BuyOtp.fields w b =
        [ascii "ZNS", ascii "buyotp", OtpCode.digits b.code, b.name.bytes, w.encodeUa b.ua] := by
      rw [BuyOtp.fields, hd]
    have hfields : ∀ s ∈ BuyOtp.fields w b, IsField s := by
      rw [hf]
      simp only [List.forall_mem_cons]
      exact ⟨by decide, by decide, isField_otpDigits _, isField_name _, hw.isField _, by simp⟩
    have hbounds := intercalate_bounds hfields
    rw [hf, List.intercalate_cons_cons, List.intercalate_cons_cons] at h hbounds
    simp only [List.append_assoc, List.singleton_append] at h hbounds
    exact refused_of_verb hw hm (verbOf_fromBytes hm (by decide) hbounds h) (by decide)
  · have hf : BuyOtp.fields w b = [ascii "ZNS", ascii "dutch", OtpCode.digits b.code, b.name.bytes,
        w.encodeUa b.ua, encodeZec price, decimalInt til] := by
      rw [BuyOtp.fields, hd]
    have hfields : ∀ s ∈ BuyOtp.fields w b, IsField s := by
      rw [hf]
      simp only [List.forall_mem_cons]
      exact ⟨by decide, by decide, isField_otpDigits _, isField_name _, hw.isField _, isField_encodeZec _,
        isField_decimalInt _, by simp⟩
    have hbounds := intercalate_bounds hfields
    rw [hf, List.intercalate_cons_cons, List.intercalate_cons_cons] at h hbounds
    simp only [List.append_assoc, List.singleton_append] at h hbounds
    exact refused_of_verb hw hm (verbOf_fromBytes hm (by decide) hbounds h) (by decide)

/-- **A returned intent is no message to the mint.** -/
theorem refused_returnedIntent (hw : UaLaws w) (hm : MemoLaws w) {name : Name} {bob : UnifiedAddress}
    {refusal : MarketRefusal} {back : ReturnedIntent}
    (hback : returnedIntent name bob refusal = some back)
    (h : w.fromBytes back.note = some memo) : Refused w memo := by
  have key : ∀ verb value : List UInt8, IsField verb → IsField value →
      (verb ∉ [ascii "otp"] ∧ verb ∉ requestVerbs ∧ verb ∉ marketVerbs ∧ verb ∉ noteVerbs) →
      back.note = [COLON].intercalate [ascii "ZNS", verb, name.bytes, value] → Refused w memo := by
    intro verb value hverb hvalue hv hnote
    have hfields : ∀ s ∈ [ascii "ZNS", verb, name.bytes, value], IsField s := by
      simp only [List.forall_mem_cons]
      exact ⟨by decide, hverb, isField_name _, hvalue, by simp⟩
    have hbounds := intercalate_bounds hfields
    rw [hnote, List.intercalate_cons_cons, List.intercalate_cons_cons] at h
    rw [List.intercalate_cons_cons, List.intercalate_cons_cons] at hbounds
    simp only [List.append_assoc, List.singleton_append] at h hbounds
    have hcolon : COLON ∉ verb := fun hmem => (hverb COLON hmem).2.2 rfl
    exact refused_of_verb hw hm (verbOf_fromBytes hm hcolon hbounds h) hv
  rcases refusal with _ | _ | _ | _ | _ | _ | _ | _ | start | til | _ | _
  all_goals first | cases hback; done | skip
  · cases hback
    refine key (ascii "wait") (decimal start) (by decide) (isField_digits _) (by decide) ?_
    simp [List.intercalate_cons_cons, ascii, COLON]
  · cases hback
    refine key (ascii "held") (decimalInt til) (by decide) (isField_decimalInt _) (by decide) ?_
    simp [List.intercalate_cons_cons, ascii, COLON]

/-- **The memo languages are disjoint.** At most one decoder accepts a memo; the Treasury's parsers give
one answer in any order, and a Name Note memo is nothing to them; a claim memo has one reading, the one
`Request::decode` gives; and no decoder accepts a buy passcode or a returned intent. -/
theorem memo_languages_disjoint (w : Wire) (hw : UaLaws w) (hm : MemoLaws w) :
    (∀ memo, (readers w memo).count true ≤ 1) ∧
    (∀ memo ps, ps.Perm (parsers w) → decodeInOrder ps memo = MintInbound.decode w memo) ∧
    (∀ memo note, NameNote.decode w memo = some (some note) → MintInbound.decode w memo = .unrecognized) ∧
    (∀ fields code code' term term' name name' ua ua', ClaimReading w fields code term name ua →
      ClaimReading w fields code' term' name' ua' → (code, term, name, ua) = (code', term', name', ua')) ∧
    (∀ memo name ua term code, Request.decode w memo = some (.claim name ua term code) ↔
      ∃ text, w.memoText memo = some text ∧ ClaimReading w (text.splitOn COLON) code term name ua) ∧
    (∀ b memo, BuyOtp.encode w b = some memo → Refused w memo) ∧
    (∀ name bob refusal back memo, returnedIntent name bob refusal = some back →
      w.fromBytes back.note = some memo → Refused w memo) := by
  refine ⟨readers_count_le hw hm, fun memo ps hperm => decodeInOrder_perm hperm memo, ?_, ?_, ?_, ?_, ?_⟩
  · intro memo note h
    rw [MintInbound.decode, not_otp_of_note hm h, not_request_of_note hw hm h, not_market_of_note hm h]
  · intro fields code code' term term' name name' ua ua' h h'
    exact claimReading_unique h h'
  · intro memo name ua term code
    exact decode_claim_iff hw
  · intro b memo h
    exact refused_buyOtp hw hm h
  · intro name bob refusal back memo hback h
    exact refused_returnedIntent hw hm hback h

/-- A clock quote for `alice` at 1.5 ZEC. -/
def sampleQuote : BuyOtp :=
  ⟨⟨42831, by decide⟩, alice, sampleUa 2, some (⟨150000000, by decide⟩, 1700000600)⟩

theorem memo_languages_disjoint_quote :
    ∃ memo, BuyOtp.encode Wire.sample sampleQuote = some memo ∧ Refused Wire.sample memo := by
  have hlen : ([COLON].intercalate (BuyOtp.fields Wire.sample sampleQuote)).length ≤ 512 := by
    decide +kernel
  have henc : BuyOtp.encode Wire.sample sampleQuote = some (padded _ hlen) := by
    rw [BuyOtp.encode, Wire.sample_memoLaws.fromBytes_eq, dif_pos hlen]
  exact ⟨_, henc, (memo_languages_disjoint Wire.sample Wire.sample_uaLaws
    Wire.sample_memoLaws).2.2.2.2.2.1 _ _ henc⟩

end ZnsMint.Inbound.Languages
