import ZnsMint.Registry

/-! # Orders against the registry

`reconcile_seen` of the queue of Name Notes, which derives from the confirmed records which orders are
done and which have lost their predecessor. -/

namespace ZnsMint.NameNoteQueue

open Basic Note

/-- A record of the order's own note is confirmed at its origin or after. -/
def confirmedBy (params : Params) (registry : Registry) (o : Order) : Bool :=
  (registry.recordHistory o.note.name).any fun record =>
    decide (o.origin ≤ record.confirmedHeight) && record.commitment == o.note.commitment params

def seeOne (params : Params) (registry : Registry) (o : Order) : Order :=
  if confirmedBy params registry o then { o with state := .seen } else o

/-- The order is seen, or is a claim, or its predecessor is still the live record. -/
def keepsName (registry : Registry) (o : Order) : Bool :=
  o.state == .seen || o.note.action.isClaim ||
    (registry.record o.note.name).any fun record => some record.commitment == o.note.prevRcm

/-- Derives `seen` from the confirmed records, and drops an unresolved order whose predecessor is no
longer current. -/
def reconcileSeen (params : Params) (registry : Registry) (q : NameNoteQueue) : NameNoteQueue :=
  ⟨(q.orders.map (seeOne params registry)).filter (keepsName registry)⟩

/-- Outstanding authorized orders, in admission order, as entries of the queue. -/
def authorizedOrders (q : NameNoteQueue) : List Order :=
  q.orders.filter fun o => o.state == .authorized

theorem map_note_authorizedOrders (q : NameNoteQueue) :
    q.authorizedOrders.map Order.note = q.authorizedNotes :=
  rfl

end ZnsMint.NameNoteQueue
