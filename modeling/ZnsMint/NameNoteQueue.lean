import ZnsMint.Note

/-! # The queue of Name Notes

Name Notes from their authorization to their canonical confirmation (`NameNoteQueue` in
`src/mint/note.rs`). The one operation that reads the registry, `reconcile_seen`, is in
`ZnsMint.OrderBook`, since the registry in turn asks this queue which names are spoken for. -/

namespace ZnsMint

open Basic Note

/-- An outstanding authorization, a broadcast inside its expiry window, or the canonical
observation. -/
inductive NameNoteState where
  | authorized
  | sent (expiry : ℕ)
  | seen
  deriving DecidableEq

/-- One entry of the queue. `payment` is a ghost: the payment a claim was decided from, which the mint
does not store with the order and no operation reads. -/
structure Order where
  note : NameNote
  origin : ℕ
  state : NameNoteState
  payment : Option PaymentRef
  deriving DecidableEq

/-- The order owns its name: it is `Authorized` or `Sent`. -/
def Order.unresolved (o : Order) : Bool := o.state != .seen

structure NameNoteQueue where
  orders : List Order
  deriving DecidableEq

namespace NameNoteQueue

def empty : NameNoteQueue := ⟨[]⟩

/-- Whether an unresolved order owns this name. -/
def notePending (q : NameNoteQueue) (name : Name) : Bool :=
  q.orders.any fun o => o.unresolved && o.note.name == name

/-- Records a decision if no unresolved Name Note exists for the name. -/
def admitNote (q : NameNoteQueue) (origin : ℕ) (note : NameNote) (payment : Option PaymentRef) :
    NameNoteQueue × Bool :=
  if q.notePending note.name then (q, false)
  else (⟨q.orders ++ [⟨note, origin, .authorized, payment⟩]⟩, true)

/-- `rewind_to` on the state of an order that stays. -/
def reauthorize (o : Order) : Order := if o.state = .seen then { o with state := .authorized } else o

/-- Reorg: drop orders admitted above the common ancestor and reauthorize seen ones. -/
def rewindTo (q : NameNoteQueue) (ancestor : ℕ) : NameNoteQueue :=
  ⟨(q.orders.filter fun o => decide (o.origin ≤ ancestor)).map reauthorize⟩

/-- The order `mark_sent` picks. -/
def isAuthorizedFor (name : Name) (o : Order) : Bool := o.state == .authorized && o.note.name == name

/-- The order `drop_note` picks. -/
def isUnresolvedFor (name : Name) (o : Order) : Bool := o.unresolved && o.note.name == name

/-- Rewrites the first element that `p` accepts; absent when there is none. -/
def modifyFirst (p : Order → Bool) (f : Order → Order) : List Order → Option (List Order)
  | [] => none
  | o :: l => if p o then some (f o :: l) else (modifyFirst p f l).map (o :: ·)

/-- Records that the name's authorized order was broadcast. Absent where the source panics. -/
def markSent (q : NameNoteQueue) (name : Name) (expiry : ℕ) : Option NameNoteQueue :=
  (modifyFirst (isAuthorizedFor name) (fun o => { o with state := .sent expiry }) q.orders).map .mk

/-- `expire_sent` on one order. -/
def expireOrder (tip : ℕ) (o : Order) : Order :=
  match o.state with
  | .sent expiry => if expiry ≤ tip + 1 then { o with state := .authorized } else o
  | _ => o

/-- Returns a broadcast order to `Authorized` once `tip + 1` has reached its expiry. -/
def expireSent (q : NameNoteQueue) (tip : ℕ) : NameNoteQueue := ⟨q.orders.map (expireOrder tip)⟩

/-- Outstanding authorized orders, in admission order. -/
def authorizedNotes (q : NameNoteQueue) : List NameNote :=
  (q.orders.filter fun o => o.state == .authorized).map Order.note

/-- Removes the first element that `p` accepts; absent when there is none. -/
def removeFirst (p : Order → Bool) : List Order → Option (List Order)
  | [] => none
  | o :: l => if p o then some l else (removeFirst p l).map (o :: ·)

/-- Removes the unresolved order owning this name. Absent where the source panics. -/
def dropNote (q : NameNoteQueue) (name : Name) : Option NameNoteQueue :=
  (removeFirst (isUnresolvedFor name) q.orders).map .mk

end NameNoteQueue

end ZnsMint
