import ZnsMint.Note
import ZnsMint.Wallet
import Mathlib.Data.List.Sort

/-! # Building a Name Note transaction

`prepare` (`src/mint/note/assemble.rs`): the Treasury notes that fund the fee, largest first, and the
transaction staged with them. The fee is fixed by a planned number of actions before it is known whether
there is change; the planned outputs count it in.

What the wallet, the fee rule and the transaction builder answer is a `Desk`. -/

namespace ZnsMint.Assemble

open Basic Note

/-! ### What `prepare` asks and what it stages -/

/-- A note of the wallet, by what `prepare` reads of it. -/
structure OwnedNote where
  noteId : Wallet.NoteId
  value : Zatoshis
  deriving DecidableEq

/-- Why a Name Note transaction was not built. -/
inductive PrepareError (ε : Type) where
  | authorityUnavailable
  | feeUnfunded
  | witnessUnavailable
  | anchorUnavailable
  | predecessorClosed
  | tree (e : ε)
  | fee (e : ε)
  | memo (e : ε)
  | builder (e : ε)
  deriving DecidableEq

/-- A staged spend: the claim's anchor and the fee notes as they are, a predecessor with the content that
opens it. -/
inductive StagedSpend (π : Type) where
  | ironwood (note : OwnedNote) (path : π)
  | zns (note : OwnedNote) (path : π) (opening : NameNote)

/-- A staged output: the successor Name Note, the successor anchor of a claim, the Treasury's change. -/
inductive StagedOutput where
  | zns (note : NameNote)
  | anchor
  | change (value : Zatoshis)

def StagedSpend.value {π : Type} : StagedSpend π → Zatoshis
  | ironwood note _ => note.value
  | zns note _ _ => note.value

def StagedOutput.value : StagedOutput → Zatoshis
  | zns _ => .zero
  | anchor => .zero
  | change value => value

/-- What is handed to the builder. -/
structure Staged (π σ : Type) where
  anchor : σ
  spends : List (StagedSpend π)
  outputs : List StagedOutput

/-- What the wallet, the fee rule and the builder answer. `predecessor` is the Name Note that the
authority's memo opens; `ε`, `π`, `σ` and `τ` are their errors, witnesses, anchors and transactions. -/
structure Desk (ε π σ τ : Type) where
  authority : Option OwnedNote
  treasuryNotes : List OwnedNote
  witness : OwnedNote → Except ε (Option π)
  ironwoodAnchor : Except ε (Option σ)
  predecessor : Except ε (Option NameNote)
  feeRequired : ℕ → Except ε Zatoshis
  build : Staged π σ → Except ε τ

/-- A computation of the source that returns a `Result`. Absent where it panics. -/
abbrev Prepare (ε α : Type) := ExceptT (PrepareError ε) Option α

/-- The value of a `Result` or an `Option` the source unwraps. -/
def expect {ε α : Type} (o : Option α) : Prepare ε α := ExceptT.mk (o.map Except.ok)

def FIXED_SPENDS : ℕ := 1

/-- The successor Name Note, a claim's successor anchor, and change. -/
def fixedOutputs (note : NameNote) : ℕ := if note.action.isClaim then 3 else 2

/-- The actions the fee is planned for, with `n` fee notes. -/
def actionCount (note : NameNote) (n : ℕ) : ℕ := max (max (FIXED_SPENDS + n) (fixedOutputs note)) 2

/-- What the funding loop ends with. -/
structure Funded (π : Type) where
  feeNotes : List (OwnedNote × π)
  funding : Zatoshis
  fee : Zatoshis
  deriving DecidableEq

/-- The order the candidates are sorted by. -/
def Worthier (a b : OwnedNote) : Prop := b.value.val ≤ a.value.val

instance : DecidableRel Worthier := fun a b => inferInstanceAs (Decidable (b.value.val ≤ a.value.val))

instance : IsTrans OwnedNote Worthier := ⟨fun _ _ _ hab hbc => le_trans hbc hab⟩

instance : Std.Total Worthier := ⟨fun a b => le_total b.value.val a.value.val⟩

namespace Desk

variable {ε π σ τ : Type}

def witnessAt (d : Desk ε π σ τ) (note : OwnedNote) : Prepare ε π :=
  match d.witness note with
  | .error e => throw (.tree e)
  | .ok none => throw .witnessUnavailable
  | .ok (some path) => pure path

def anchorAt (d : Desk ε π σ τ) : Prepare ε σ :=
  match d.ironwoodAnchor with
  | .error e => throw (.tree e)
  | .ok none => throw .anchorUnavailable
  | .ok (some anchor) => pure anchor

def fee (d : Desk ε π σ τ) (actions : ℕ) : Prepare ε Zatoshis :=
  match d.feeRequired actions with
  | .error e => throw (.fee e)
  | .ok f => pure f

/-- The notes that may fund the fee, largest first. -/
def candidates (d : Desk ε π σ τ) (authority : OwnedNote) : List OwnedNote :=
  (d.treasuryNotes.filter fun n => decide (n.noteId ≠ authority.noteId)).insertionSort Worthier

/-- The funding loop, over the candidates that are left. -/
def fund (d : Desk ε π σ τ) (note : NameNote) (rest : List OwnedNote) (feeNotes : List (OwnedNote × π))
    (funding : Zatoshis) : Prepare ε (Funded π) := do
  let f ← d.fee (actionCount note feeNotes.length)
  if f.val ≤ funding.val then return ⟨feeNotes, funding, f⟩
  match rest with
  | [] => throw .feeUnfunded
  | candidate :: rest =>
    let funding ← expect (funding.add candidate.value)
    let path ← d.witnessAt candidate
    d.fund note rest (feeNotes ++ [(candidate, path)]) funding

/-- The loop over all candidates. -/
def funded (d : Desk ε π σ τ) (note : NameNote) (authority : OwnedNote) : Prepare ε (Funded π) :=
  d.fund note (d.candidates authority) [] .zero

/-- The spend of the claim's anchor or of the predecessor. -/
def authoritySpend (d : Desk ε π σ τ) (note : NameNote) (authority : OwnedNote) (path : π) :
    Prepare ε (StagedSpend π) :=
  if note.action.isClaim then pure (.ironwood authority path)
  else
    match d.predecessor with
    | .error e => throw (.memo e)
    | .ok none => throw .predecessorClosed
    | .ok (some opening) => pure (.zns authority path opening)

/-- The spends and outputs, in the order they are staged. -/
def stage (note : NameNote) (anchor : σ) (authority : StagedSpend π) (funded : Funded π)
    (change : Zatoshis) :
    Staged π σ where
  anchor := anchor
  spends := authority :: funded.feeNotes.map fun n => .ironwood n.1 n.2
  outputs := .zns note :: (if note.action.isClaim then [.anchor] else []) ++
    if 0 < change.val then [.change change] else []

/-- Builds a Name Note transaction, and returns it with its fee. -/
def prepare (d : Desk ε π σ τ) (note : NameNote) : Prepare ε (τ × Zatoshis) := do
  let some authority := d.authority | throw .authorityUnavailable
  let funded ← d.funded note authority
  let change ← expect (funded.funding.sub funded.fee)
  let anchor ← d.anchorAt
  let path ← d.witnessAt authority
  let spend ← d.authoritySpend note authority path
  match d.build (stage note anchor spend funded change) with
  | .error e => throw (.builder e)
  | .ok transaction => return (transaction, funded.fee)

end Desk

end ZnsMint.Assemble
