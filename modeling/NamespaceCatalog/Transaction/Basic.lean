import NamespaceCatalog.Error

/-!
# Transactions

A transaction reads from a snapshot that is fixed when it begins: it sees the rows restored from
logs, its own writes, and those of every transaction with a smaller number that was finished by
then.  `Transaction.sees` is this rule.  A value of `Transaction` also remembers how it was finished
through this value; copies of one transaction remember each for itself.
-/

namespace NamespaceCatalog

/-- How far a transaction has come. -/
inductive TransactionState
  | active
  | committed
  | aborted
  /-- Aborted while some of its writes could not be undone. -/
  | invalidated
  deriving DecidableEq, Repr

/-- The state as a word. -/
def TransactionState.label : TransactionState → String
  | active => "Active"
  | committed => "Committed"
  | aborted => "Aborted"
  | invalidated => "Invalidated"

/-- A transaction and its snapshot. -/
structure Transaction where
  id : TxId
  /-- The greatest writer the snapshot may show. -/
  readPointer : TxId
  /-- The writers the snapshot hides, in increasing order. -/
  excluded : List TxId
  state : TransactionState
  deriving DecidableEq, Repr

namespace Transaction

/-- Can the transaction still do work? -/
def isActive (tx : Transaction) : Bool := tx.state = .active

/-- Does the snapshot show what `writer` wrote? -/
def sees (tx : Transaction) (writer : TxId) : Bool :=
  writer = TxId.base || writer = tx.id || (writer ≤ tx.readPointer && !tx.excluded.contains writer)

/-- The transaction, if it was not finished through this value. -/
def checkActive (tx : Transaction) : Except Error Unit :=
  match tx.state with
  | .active => .ok ()
  | .committed => .error (.invalidOperation (.alreadyCommitted tx.id))
  | .aborted | .invalidated => .error (.invalidOperation (.alreadyAborted tx.id))

theorem sees_iff (tx : Transaction) (w : TxId) :
    tx.sees w ↔ w = TxId.base ∨ w = tx.id ∨ (w ≤ tx.readPointer ∧ w ∉ tx.excluded) := by
  simp [sees, or_assoc]

end Transaction

end NamespaceCatalog
