import Std.Data.ExtTreeMap
import Std.Data.ExtTreeSet
import NamespaceCatalog.Transaction.Basic

/-!
# The coordinator

The coordinator is the transaction manager.  It numbers transactions and commits from one counter,
so that "committed after `tx` began" means "with a commit number above `tx.id`".  A transaction that
wants to commit reserves the rows it changes (`reserve`); this fails if one of them was changed by a
transaction that committed after it began, or is reserved by another one.  From then on its commit
cannot conflict.

What no running transaction can conflict with is forgotten (`prune`).  A `Horizon`, the prune
horizon of some moment, says which writers every snapshot shows from then on, and which none does.
-/

namespace NamespaceCatalog

/-- The rows a transaction changes. -/
abbrev ChangeSet := Std.ExtTreeSet Bytes

/-- The rows in both sets. -/
def ChangeSet.common (a b : ChangeSet) : List Bytes := a.toList.filter b.contains

/-- Counts of what happened at a coordinator. -/
structure Stats where
  started : Nat
  committed : Nat
  /-- Aborted transactions, the invalidated ones among them. -/
  aborted : Nat
  /-- Refused reservations. -/
  conflicts : Nat
  invalidated : Nat
  deriving DecidableEq, Repr

/-- Which versions of a row may be dropped, as of one moment. -/
structure Horizon where
  /-- The first number that was not given out. -/
  bound : TxId
  /-- The running transactions, and those some running transaction does not see. -/
  unsettled : Std.ExtTreeSet TxId
  invalid : Std.ExtTreeSet TxId

namespace Horizon

/-- Does every snapshot, from this moment on, show what `writer` wrote? -/
def isSettled (h : Horizon) (writer : TxId) : Bool :=
  writer = TxId.base ||
    (writer < h.bound && !h.unsettled.contains writer && !h.invalid.contains writer)

/-- Does no snapshot show what `writer` wrote? -/
def isDead (h : Horizon) (writer : TxId) : Bool := h.invalid.contains writer

end Horizon

/-- What is known about the transactions of one catalog. -/
structure Coordinator where
  /-- The next number to give out. -/
  next : Nat
  inProgress : Std.ExtTreeSet TxId
  invalid : Std.ExtTreeSet TxId
  /-- The rows reserved by transactions that are about to commit. -/
  reserved : Std.ExtTreeMap TxId ChangeSet
  /-- The rows changed by committed transactions, by commit number. -/
  committed : Std.ExtTreeMap Nat ChangeSet
  /-- The commit numbers of writers that some running transaction may not see. -/
  recent : Std.ExtTreeMap TxId Nat
  stats : Stats

namespace Coordinator

/-- A coordinator without history. -/
def new : Coordinator := ⟨1, ∅, ∅, ∅, ∅, ∅, ⟨0, 0, 0, 0, 0⟩⟩

/-! ## Queries -/

/-- The number of running transactions. -/
def runningCount (c : Coordinator) : Nat := c.inProgress.size

/-- The number of invalidated transactions. -/
def invalidCount (c : Coordinator) : Nat := c.invalid.size

/-- The number of change sets kept to find conflicts. -/
def retainedCount (c : Coordinator) : Nat := c.committed.size

/-- The invalidated transactions. -/
def invalidIds (c : Coordinator) : List TxId := c.invalid.toList

/-- What other transactions committed since `id` began, and what they have reserved. -/
def rivals (c : Coordinator) (id : TxId) : List ChangeSet :=
  (c.committed.toList.filter (id < ·.1)).map (·.2) ++
    (c.reserved.toList.filter (·.1 ≠ id)).map (·.2)

/-- The number of changes that are also in a set of a rival, counted for each set. -/
def conflicts (c : Coordinator) (id : TxId) (changes : ChangeSet) : Nat :=
  ((c.rivals id).flatMap changes.common).length

/-- Checks that the transaction is running here and was not finished through this value. -/
def checkRunning (c : Coordinator) (tx : Transaction) : Except Error Unit :=
  match tx.checkActive with
  | .error e => .error e
  | .ok () =>
    if c.inProgress.contains tx.id then .ok ()
    else .error (.invalidOperation (.notInProgress tx.id))

/-- The horizon of this moment. -/
def horizon (c : Coordinator) : Horizon where
  bound := c.next
  unsettled := c.inProgress.insertMany c.recent.keys
  invalid := c.invalid

/-! ## Steps -/

/-- Forgets the change sets no running transaction can conflict with, and the writers every running
transaction sees. -/
def prune (c : Coordinator) : Coordinator :=
  match c.inProgress.min? with
  | some oldest =>
    { c with
      committed := c.committed.filter fun pointer _ => oldest ≤ pointer
      recent := c.recent.filter fun _ pointer => oldest ≤ pointer }
  | none => { c with committed := ∅, recent := ∅ }

/-- Ends a transaction: it is no longer running and holds no reservation. -/
def finish (c : Coordinator) (id : TxId) : Coordinator :=
  prune { c with inProgress := c.inProgress.erase id, reserved := c.reserved.erase id }

@[simp] theorem next_finish (c : Coordinator) (id : TxId) : (c.finish id).next = c.next := by
  simp only [finish, prune]
  split <;> rfl

@[simp] theorem inProgress_finish (c : Coordinator) (id : TxId) :
    (c.finish id).inProgress = c.inProgress.erase id := by
  simp only [finish, prune]
  split <;> rfl

@[simp] theorem reserved_finish (c : Coordinator) (id : TxId) :
    (c.finish id).reserved = c.reserved.erase id := by
  simp only [finish, prune]
  split <;> rfl

@[simp] theorem invalid_finish (c : Coordinator) (id : TxId) : (c.finish id).invalid = c.invalid := by
  simp only [finish, prune]
  split <;> rfl

@[simp] theorem stats_finish (c : Coordinator) (id : TxId) : (c.finish id).stats = c.stats := by
  simp only [finish, prune]
  split <;> rfl

/-- When the last running transaction ends, nothing is kept. -/
theorem finish_of_erase_eq {c : Coordinator} {id : TxId} (h : c.inProgress.erase id = ∅) :
    c.finish id = { c with
      inProgress := ∅, reserved := c.reserved.erase id, committed := ∅, recent := ∅ } := by
  unfold finish prune
  simp only [h, Std.ExtTreeSet.min?_empty]

/-- Begins a transaction and fixes its snapshot. -/
def begin (c : Coordinator) : Transaction × Coordinator :=
  let tx :=
    { id := c.next
      readPointer := c.next - 1
      excluded := (c.inProgress.toList ++ c.invalid.toList).mergeSort
      state := .active }
  (tx,
    { c with
      next := c.next + 1
      inProgress := c.inProgress.insert c.next
      stats := { c.stats with started := c.stats.started + 1 } })

/-- Reserves the rows that `tx` changes, in place of those it reserved before. -/
def reserve (c : Coordinator) (tx : Transaction) (changes : ChangeSet) :
    Except Error Unit × Coordinator :=
  match c.checkRunning tx with
  | .error e => (.error e, c)
  | .ok () =>
    let n := c.conflicts tx.id changes
    if 0 < n then
      (.error (.conflict tx.id n),
        { c with stats := { c.stats with conflicts := c.stats.conflicts + 1 } })
    else (.ok (), { c with reserved := c.reserved.insert tx.id changes })

/-- Commits `tx` with the rows it reserved, and gives the commit number. -/
def commit (c : Coordinator) (tx : Transaction) :
    Except Error (Nat × Transaction × Coordinator) :=
  match c.checkRunning tx with
  | .error e => .error e
  | .ok () =>
    let changes := c.reserved.getD tx.id ∅
    let pointer := c.next
    let c :=
      { c with
        next := pointer + 1
        committed := if changes.isEmpty then c.committed else c.committed.insert pointer changes
        recent := c.recent.insert tx.id pointer
        stats := { c.stats with committed := c.stats.committed + 1 } }
    .ok (pointer, { tx with state := .committed }, c.finish tx.id)

/-- Aborts `tx`, whose writes are undone. -/
def abort (c : Coordinator) (tx : Transaction) : Except Error (Transaction × Coordinator) :=
  match tx.checkActive with
  | .error e => .error e
  | .ok () =>
    let c := { c with stats := { c.stats with aborted := c.stats.aborted + 1 } }
    .ok ({ tx with state := .aborted }, c.finish tx.id)

/-- When the last running transaction aborts, nothing is kept. -/
theorem abort_of_erase_eq {c : Coordinator} {tx : Transaction} (htx : tx.checkActive = .ok ())
    (h : c.inProgress.erase tx.id = ∅) :
    c.abort tx = .ok ({ tx with state := .aborted }, { c with
      inProgress := ∅
      reserved := c.reserved.erase tx.id
      committed := ∅
      recent := ∅
      stats := { c.stats with aborted := c.stats.aborted + 1 } }) := by
  rw [abort, htx]
  exact congrArg (fun c => Except.ok (_, c)) (finish_of_erase_eq h)

/-- Aborts `tx` and hides its writes from every later snapshot, as some of them could not be
undone. -/
def invalidate (c : Coordinator) (tx : Transaction) : Transaction × Coordinator :=
  let c :=
    { c with
      invalid := c.invalid.insert tx.id
      stats :=
        { c.stats with
          aborted := c.stats.aborted + 1
          invalidated := c.stats.invalidated + 1 } }
  ({ tx with state := .invalidated }, c.finish tx.id)

/-- Forgets invalidated transactions, of which no table holds versions any more.  Gives the number
of those that were known. -/
def forgetInvalid (c : Coordinator) (ids : List TxId) : Nat × Coordinator :=
  let invalid := c.invalid.eraseMany ids
  (c.invalid.size - invalid.size, { c with invalid })

/-- The coordinator as diagnostics show it. -/
def describe (c : Coordinator) : String :=
  "TransactionManager \x7b next_pointer: " ++ toString c.next ++
    ", in_progress: " ++ toString c.inProgress.size ++ ", invalid: " ++ toString c.invalid.size ++
    ", recent: " ++ toString c.recent.size ++ ", .. \x7d"

end Coordinator

end NamespaceCatalog
