import NamespaceCatalog.Table.Overlay

/-!
# Operations on a table

What the body of a transaction can ask of a table, as data.  `Overlay.perform` answers through the
overlay that serves the transaction.
-/

namespace NamespaceCatalog

/-- What a table is asked for in a transaction. -/
inductive TableOperation
  | write (key value : Bytes)
  | read (key : Bytes)
  /-- The rows under `start`. -/
  | scan (start : Bytes)
  /-- Delete the rows under `start`. -/
  | deleteAll (start : Bytes)
  /-- The number of rows written so far. -/
  | pending
  deriving DecidableEq, Repr

/-- What a table answers in a transaction. -/
inductive TableAnswer
  | done
  | value (v : Option Bytes)
  | rows (rs : List (Bytes × Bytes))
  | count (n : Nat)
  deriving DecidableEq, Repr

namespace Overlay

/-- Answers an operation. -/
def perform (op : TableOperation) (x : Overlay) (t : Table) :
    Except Error (TableAnswer × Overlay) :=
  match op with
  | .write key value => (x.write key value).map (.done, ·)
  | .read key => (x.read t key).map (.value ·, x)
  | .scan start => (x.scan t start).map (.rows ·, x)
  | .deleteAll start => (x.deleteAll t start).map (.done, ·)
  | .pending => .ok (.count x.pending, x)

end Overlay

end NamespaceCatalog
