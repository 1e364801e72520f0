import ZnsMint.Basic
import ZnsMint.Lib.Joins

/-! # The protected names

The pre-sale table of `src/mint/presale.rs`: a name is protected until a time or forever, and rows bought
again coalesce to the strongest term. Terms are ordered by strength, `Unprotected` below every expiry and
`Forever` above, and the table is its function from names to terms: reading rows raises that function
(`status_fromRows`), so a table means the union of its rows.

`fromRows` is absent where the program would reach its `unreachable!`. No table it has built holds an
`Unprotected` entry (`Stored`), and from such a table it is never absent. -/

namespace ZnsMint.Presale

open Basic Lib.Joins

/-- A name's protection. -/
inductive ProtectionStatus where
  | unprotected
  | withExpiry (ts : ℤ)
  | forever
  deriving DecidableEq

/-- A row of the remote table; a null expiry means forever. -/
structure ProtectedRow where
  name : List UInt8
  expiryAt : Option ℤ
  deriving DecidableEq

/-- Absence is `unprotected`. -/
abbrev ProtectedNames := NameMap ProtectionStatus

namespace ProtectionStatus

/-- The strength of a term. -/
def strength : ProtectionStatus → WithBot (WithTop ℤ)
  | unprotected => ⊥
  | withExpiry ts => ((ts : WithTop ℤ) : WithBot (WithTop ℤ))
  | forever => ((⊤ : WithTop ℤ) : WithBot (WithTop ℤ))

theorem strength_injective : Function.Injective strength := by
  intro a b h
  cases a <;> cases b <;> simp_all [strength]

instance : LinearOrder ProtectionStatus := LinearOrder.lift' strength strength_injective

theorem withExpiry_le_withExpiry {a b : ℤ} : withExpiry a ≤ withExpiry b ↔ a ≤ b := by
  show strength (withExpiry a) ≤ strength (withExpiry b) ↔ a ≤ b
  simp [strength]

theorem unprotected_le (a : ProtectionStatus) : unprotected ≤ a := by
  show strength unprotected ≤ strength a
  simp [strength]

theorem le_forever (a : ProtectionStatus) : a ≤ forever := by
  show strength a ≤ strength forever
  cases a <;> simp [strength]

/-- The term of a name whose entry is `have` and whose row says `got`; absent in the arm the source calls
unreachable. -/
def strongest : ProtectionStatus → ProtectionStatus → Option ProtectionStatus
  | forever, _ => some forever
  | _, forever => some forever
  | withExpiry old, withExpiry got => some (withExpiry (max old got))
  | unprotected, _ => none
  | _, unprotected => none

/-- The stronger of two terms is their join. -/
theorem strongest_eq {a b : ProtectionStatus} (ha : a ≠ unprotected) (hb : b ≠ unprotected) :
    strongest a b = some (a ⊔ b) := by
  cases a with
  | unprotected => exact absurd rfl ha
  | forever =>
    rw [sup_eq_left.mpr (le_forever b)]
    rfl
  | withExpiry old =>
    cases b with
    | unprotected => exact absurd rfl hb
    | forever =>
      rw [sup_eq_right.mpr (le_forever _)]
      rfl
    | withExpiry got =>
      rcases le_total old got with h | h
      · rw [sup_eq_right.mpr (withExpiry_le_withExpiry.mpr h), strongest, max_eq_right h]
      · rw [sup_eq_left.mpr (withExpiry_le_withExpiry.mpr h), strongest, max_eq_left h]

/-- The judged question at a time. -/
def protects (mtp : ℤ) : ProtectionStatus → Bool
  | unprotected => false
  | forever => true
  | withExpiry ts => decide (mtp < ts)

/-- A term protects unless it is at most an expiry now. -/
theorem protects_iff {mtp : ℤ} {a : ProtectionStatus} : a.protects mtp = true ↔ ¬ a ≤ withExpiry mtp := by
  cases a with
  | unprotected => simp [protects, unprotected_le]
  | withExpiry ts => simp [protects, withExpiry_le_withExpiry]
  | forever =>
    have h : ¬ forever ≤ withExpiry mtp := by
      show ¬ strength forever ≤ strength (withExpiry mtp)
      simp [strength]
    simp [protects, h]

end ProtectionStatus

/-! ### The table -/

/-- The term a row buys. -/
def ProtectedRow.status (row : ProtectedRow) : ProtectionStatus :=
  match row.expiryAt with
  | some ts => .withExpiry ts
  | none => .forever

namespace ProtectedNames

variable {t t' : ProtectedNames} {rows rows' : List ProtectedRow} {name : Name} {mtp : ℤ}

/-- The stored fact, `unprotected` for absent names. -/
def status (t : ProtectedNames) (name : Name) : ProtectionStatus := t[name]?.getD .unprotected

/-- Protected at this time? -/
def isProtected (t : ProtectedNames) (name : Name) (mtp : ℤ) : Bool := (t.status name).protects mtp

/-- One row of `from_rows`. -/
def fromRow (t : ProtectedNames) (row : ProtectedRow) : Option ProtectedNames :=
  match Name.parse row.name with
  | none => some t
  | some name =>
    match t[name]? with
    | none => some (t.insert name row.status)
    | some old => (ProtectionStatus.strongest old row.status).map (t.insert name)

/-- Rows in, new table out. A name that does not parse is skipped; the other rows still install. -/
def fromRows (t : ProtectedNames) (rows : List ProtectedRow) : Option ProtectedNames :=
  rows.foldlM fromRow t

/-- Absence is never an entry. -/
def Stored (t : ProtectedNames) : Prop := ∀ name : Name, t[name]? ≠ some .unprotected

/-- What a row that parses says of its name. -/
def contribution (row : ProtectedRow) : Option (Name × ProtectionStatus) :=
  (Name.parse row.name).map fun name => (name, row.status)

theorem row_status_ne (row : ProtectedRow) : row.status ≠ .unprotected := by
  unfold ProtectedRow.status
  cases row.expiryAt with
  | none => exact nofun
  | some ts => exact nofun

theorem status_insert (t : ProtectedNames) (name : Name) (s : ProtectionStatus) :
    status (t.insert name s) = Function.update t.status name s := by
  funext n
  unfold status
  by_cases h : n = name
  · subst h
    rw [Std.ExtTreeMap.getElem?_insert_self, Function.update_self]
    rfl
  · have hne : compare name n ≠ .eq := fun he => h (Std.LawfulEqOrd.eq_of_compare he).symm
    rw [Std.ExtTreeMap.getElem?_insert, if_neg hne, Function.update_of_ne h]

theorem stored_insert (h : Stored t) {s : ProtectionStatus} (hs : s ≠ .unprotected) :
    Stored (t.insert name s) := by
  intro n
  by_cases hn : n = name
  · subst hn
    rw [Std.ExtTreeMap.getElem?_insert_self]
    exact fun he => hs (Option.some.inj he)
  · have hne : compare name n ≠ .eq := fun he => hn (Std.LawfulEqOrd.eq_of_compare he).symm
    rw [Std.ExtTreeMap.getElem?_insert, if_neg hne]
    exact h n

theorem stored_empty : Stored ∅ := by
  intro name
  rw [Std.ExtTreeMap.getElem?_empty]
  exact nofun

/-- On such tables the term tells whether there is an entry. -/
theorem getElem?_eq (h : Stored t) (name : Name) :
    t[name]? = if t.status name = .unprotected then none else some (t.status name) := by
  have hs := h name
  unfold status
  cases he : t[name]? with
  | none => rfl
  | some s =>
    rw [he] at hs
    have hne : s ≠ .unprotected := fun hu => hs (congrArg some hu)
    rw [Option.getD_some, if_neg hne]

theorem eq_of_status (h : Stored t) (h' : Stored t') (hs : t.status = t'.status) : t = t' := by
  refine Std.ExtTreeMap.ext_getElem? fun name => ?_
  rw [getElem?_eq h, getElem?_eq h', hs]

/-- **One row raises the term of its name**, and the arm of an `unprotected` entry is not reached. -/
theorem fromRow_spec (h : Stored t) (row : ProtectedRow) :
    ∃ t', fromRow t row = some t' ∧ Stored t' ∧ t'.status =
      raiseAll t.status (contribution row).toList := by
  have hrow := row_status_ne row
  cases hp : Name.parse row.name with
  | none =>
    refine ⟨t, ?_, h, ?_⟩
    · simp only [fromRow, hp]
    · simp only [contribution, hp, Option.map_none, Option.toList_none, raiseAll_nil]
  | some name =>
    have hraise : raiseAll t.status (contribution row).toList =
        Function.update t.status name (t.status name ⊔ row.status) := by
      simp only [contribution, hp, Option.map_some, Option.toList_some, raiseAll_cons, raiseAll_nil]
      rfl
    rw [hraise]
    cases he : t[name]? with
    | none =>
      have hs : t.status name = .unprotected := by
        rw [status, he]
        rfl
      refine ⟨t.insert name row.status, ?_, stored_insert h hrow, ?_⟩
      · simp only [fromRow, hp, he]
      · rw [status_insert, hs, sup_eq_right.mpr (ProtectionStatus.unprotected_le _)]
    | some old =>
      have hs : t.status name = old := by
        rw [status, he]
        rfl
      have hold : old ≠ .unprotected := fun hu => h name (he.trans (congrArg some hu))
      have hjoin : old ⊔ row.status ≠ .unprotected := by
        intro hu
        have hle : old ≤ .unprotected := hu ▸ le_sup_left
        exact hold (le_antisymm hle (ProtectionStatus.unprotected_le _))
      refine ⟨t.insert name (old ⊔ row.status), ?_, stored_insert h hjoin, ?_⟩
      · simp only [fromRow, hp, he, ProtectionStatus.strongest_eq hold hrow, Option.map_some]
      · rw [status_insert, hs]

/-- **A list of rows raises every name to the strongest of its terms.** -/
theorem fromRows_spec (h : Stored t) (rows : List ProtectedRow) :
    ∃ t', fromRows t rows = some t' ∧ Stored t' ∧
      t'.status = raiseAll t.status (rows.filterMap contribution) := by
  induction rows generalizing t with
  | nil => exact ⟨t, rfl, h, rfl⟩
  | cons row rows ih =>
    obtain ⟨u, hu, hstored, hstatus⟩ := fromRow_spec h row
    obtain ⟨t', ht', hstored', hstatus'⟩ := ih hstored
    refine ⟨t', ?_, hstored', ?_⟩
    · show (fromRow t row).bind (fun u => fromRows u rows) = some t'
      rw [hu]
      exact ht'
    · rw [hstatus', hstatus]
      cases hc : contribution row with
      | none => rw [List.filterMap_cons_none hc]; rfl
      | some p => rw [List.filterMap_cons_some hc]; rfl

/-- The tables `from_rows` builds, the first from no table. -/
inductive Built : ProtectedNames → Prop
  | empty : Built ∅
  | fromRows {t t' : ProtectedNames} (rows : List ProtectedRow) : Built t → fromRows t rows =
    some t' → Built t'

theorem Built.stored (h : Built t) : Stored t := by
  induction h with
  | empty => exact stored_empty
  | fromRows rows _ ht ih =>
    obtain ⟨u, hu, hstored, -⟩ := fromRows_spec ih rows
    obtain rfl := Option.some.inj (hu.symm.trans ht)
    exact hstored

theorem mem_contributions {p : Name × ProtectionStatus} :
    p ∈ rows.filterMap contribution ↔ ∃ row ∈ rows, Name.parse row.name = some p.1 ∧
      row.status = p.2 := by
  rw [List.mem_filterMap]
  refine exists_congr fun row => and_congr_right fun _ => ?_
  unfold contribution
  rw [Option.map_eq_some_iff]
  constructor
  · rintro ⟨name, hname, rfl⟩
    exact ⟨hname, rfl⟩
  · rintro ⟨hname, hs⟩
    exact ⟨p.1, hname, by rw [hs]⟩

/-- A row's term protects at a time before its expiry, if it has one. -/
theorem row_protects (row : ProtectedRow) :
    row.status.protects mtp = true ↔ row.expiryAt = none ∨ ∃ ts, row.expiryAt = some ts ∧ mtp < ts := by
  unfold ProtectedRow.status
  cases row.expiryAt with
  | none => simp [ProtectionStatus.protects]
  | some ts => simp [ProtectionStatus.protects]

/-- Protection after reading rows is protection before or by a row. -/
theorem isProtected_raise (hs : t'.status = raiseAll t.status (rows.filterMap contribution)) :
    t'.isProtected name mtp = true ↔ t.isProtected name mtp = true ∨
      ∃ row ∈ rows, Name.parse row.name = some name ∧
        (row.expiryAt = none ∨ ∃ ts, row.expiryAt = some ts ∧ mtp < ts) := by
  unfold isProtected
  rw [ProtectionStatus.protects_iff, ProtectionStatus.protects_iff, hs, raiseAll_le_iff, not_and_or]
  refine or_congr_right ?_
  constructor
  · intro hn
    push Not at hn
    obtain ⟨p, hp, rfl, hlt⟩ := hn
    obtain ⟨row, hrow, hparse, hstatus⟩ := mem_contributions.mp hp
    refine ⟨row, hrow, hparse, ?_⟩
    rw [← row_protects, ProtectionStatus.protects_iff, hstatus]
    exact not_le.mpr hlt
  · rintro ⟨row, hrow, hparse, hlater⟩ hall
    have hle := hall (name, row.status) (mem_contributions.mpr ⟨row, hrow, hparse, rfl⟩) rfl
    rw [← row_protects, ProtectionStatus.protects_iff] at hlater
    exact hlater hle

/-- **The table means the union of its rows.** -/
theorem fromRows_union (t : ProtectedNames) (ht : Built t) (rows : List ProtectedRow) :
    ∃ t', fromRows t rows = some t' ∧
      (∀ name mtp, t'.isProtected name mtp = true ↔ t.isProtected name mtp = true ∨
        ∃ row ∈ rows, Name.parse row.name = some name ∧
          (row.expiryAt = none ∨ ∃ ts, row.expiryAt = some ts ∧ mtp < ts)) ∧
        ∀ rows', (∀ row, row ∈ rows' ↔ row ∈ rows) → fromRows t rows' = some t' := by
  obtain ⟨t', ht', hstored, hstatus⟩ := fromRows_spec ht.stored rows
  refine ⟨t', ht', fun name mtp => isProtected_raise hstatus, ?_⟩
  intro rows' hmem
  obtain ⟨u, hu, hstored', hstatus'⟩ := fromRows_spec ht.stored rows'
  have hsame : raiseAll t.status (rows'.filterMap contribution) =
      raiseAll t.status (rows.filterMap contribution) := by
    refine raiseAll_congr fun p => ?_
    rw [mem_contributions, mem_contributions]
    exact exists_congr fun row => and_congr_left fun _ => hmem row
  rw [hu, eq_of_status hstored' hstored (by rw [hstatus', hstatus, hsame])]

/-- The rows of a first read. -/
def firstRows : List ProtectedRow := [⟨ascii "tom", some 5⟩, ⟨ascii "ann", none⟩, ⟨ascii "eve", some 9⟩]

/-- The rows of the next one: a name bought twice, one extended, one for a shorter time, and no name. -/
def nextRows : List ProtectedRow :=
  [⟨ascii "tom", some 7⟩, ⟨ascii "Not-A-Name!", none⟩, ⟨ascii "tom", none⟩, ⟨ascii "eve", some 4⟩]

/-- A table that was built, and the rows that come after. -/
theorem fromRows_union_empty :
    ∃ t t', fromRows ∅ firstRows = some t ∧ fromRows t nextRows = some t' ∧
      (∀ name mtp, t'.isProtected name mtp = true ↔ t.isProtected name mtp = true ∨
        ∃ row ∈ nextRows, Name.parse (ProtectedRow.name row) = some name ∧
          (row.expiryAt = none ∨ ∃ ts, row.expiryAt = some ts ∧ mtp < ts)) ∧
        ∀ rows', (∀ row, row ∈ rows' ↔ row ∈ nextRows) → fromRows t rows' = some t' := by
  obtain ⟨t, ht, -⟩ := fromRows_spec stored_empty firstRows
  obtain ⟨t', hnext⟩ := fromRows_union t (.fromRows firstRows .empty ht) nextRows
  exact ⟨t, t', ht, hnext⟩

/-! ### Reading the table -/

/-- Why a read failed. -/
inductive FetchError where
  | unavailable
  | unconfirmed
  deriving DecidableEq

/-- `complete`: the rows install only when every counted row landed. The inner option is absent in the
unreachable arm. -/
def complete (rows : List ProtectedRow) (landed : ℕ) (total : Option ℕ) :
    Except FetchError (Option ProtectedNames) :=
  match total with
  | some n => if n = landed then .ok (fromRows ∅ rows) else .error .unconfirmed
  | none => .error .unconfirmed

/-- `install`: a failed read keeps the last table. -/
def install (t : ProtectedNames) : Except FetchError (Option ProtectedNames) → Option ProtectedNames
  | .ok fresh => fresh
  | .error _ => some t

/-- **Whatever the reads answered, the mint goes on with a table that was built**: the last one, or that
of the rows of this read. -/
theorem install_complete (ht : Built t) (rows : List ProtectedRow) (landed : ℕ) (total : Option ℕ) :
    ∃ t', install t (complete rows landed total) = some t' ∧ Built t' ∧
      (t' = t ∨ total = some landed ∧ fromRows ∅ rows = some t') := by
  by_cases h : total = some landed
  · obtain ⟨t', ht', -, -⟩ := fromRows_spec stored_empty rows
    refine ⟨t', ?_, .fromRows rows .empty ht', Or.inr ⟨h, ht'⟩⟩
    rw [h, complete, if_pos rfl]
    exact ht'
  · refine ⟨t, ?_, ht, Or.inl rfl⟩
    cases total with
    | none => rfl
    | some n =>
      have hn : ¬ n = landed := fun he => h (congrArg some he)
      rw [complete, if_neg hn]
      rfl

end ProtectedNames

end ZnsMint.Presale
