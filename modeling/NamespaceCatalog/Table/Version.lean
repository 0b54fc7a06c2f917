import NamespaceCatalog.Transaction.Coordinator

/-!
# Versions of a row

A row is a list of versions, the newest first.  A transaction reads the newest version it sees.
`prune` drops the versions that no snapshot can read any more, as told by a horizon: those of dead
writers, those behind a settled version, and a settled delete with nothing behind it.
-/

namespace NamespaceCatalog

/-- What one transaction wrote to a row. -/
structure Version where
  writer : TxId
  /-- The value; none if the row was deleted. -/
  value : Option Bytes
  deriving DecidableEq, Repr

namespace Version

/-- The value of a row as `tx` sees it. -/
def visible (tx : Transaction) (vs : List Version) : Option Bytes :=
  (vs.find? fun v => tx.sees v.writer).bind (·.value)

@[simp] theorem visible_nil (tx : Transaction) : visible tx [] = none := rfl

theorem visible_cons (tx : Transaction) (v : Version) (vs : List Version) :
    visible tx (v :: vs) = if tx.sees v.writer then v.value else visible tx vs := by
  by_cases h : tx.sees v.writer = true <;> simp [visible, h]

/-- Drops the settled versions behind the newest settled one. -/
def dropHidden (h : Horizon) : List Version → List Version
  | [] => []
  | v :: vs =>
    if h.isSettled v.writer then v :: vs.filter fun v => !h.isSettled v.writer
    else v :: dropHidden h vs

/-- Is the version a delete that every snapshot sees? -/
def isSettledDelete (h : Horizon) (v : Version) : Bool := v.value.isNone && h.isSettled v.writer

/-- Drops the oldest version if it is a settled delete. -/
def dropLastDelete (h : Horizon) (vs : List Version) : List Version :=
  if vs.getLast?.any (isSettledDelete h) then vs.dropLast else vs

/-- The versions that some snapshot can still read. -/
def prune (h : Horizon) (vs : List Version) : List Version :=
  dropLastDelete h (dropHidden h (vs.filter fun v => !h.isDead v.writer))

/-- Can a later horizon drop more of the versions? -/
def isUnsettled (h : Horizon) : List Version → Bool
  | [] => false
  | [v] => !h.isSettled v.writer
  | _ => true

end Version

end NamespaceCatalog
