import NamespaceCatalog.Catalog.Operation
import NamespaceCatalog.Error
import NamespaceCatalog.Text.Rounded

/-!
# Workloads

A workload is a stress test, a series of operations that is run against a catalog to see how many
succeed.  The operations go round a number of names; a mixed workload goes round the kinds of
operations as well.  In a parallel workload several clients run a series each.

A workload that has operations needs at least one name.
-/

namespace NamespaceCatalog

/-- How large a workload is. -/
structure Workload where
  operations : Nat
  /-- The number of clients of a parallel workload. -/
  clients : Nat
  /-- The length of the descriptions of records. -/
  descriptionLength : Nat
  /-- The number of names. -/
  names : Nat
  deriving DecidableEq, Repr

namespace Workload

/-- The workload for which nothing else is asked. -/
def standard : Workload := ⟨1000, 4, 64, 100⟩

/-- The number `n` with at least `w` digits. -/
def padded (w n : Nat) : String :=
  let digits := Nat.toDigits 10 n
  String.ofList (List.replicate (w - digits.length) '0' ++ digits)

/-- The name number `i`. -/
def name (i : Nat) : String := "stress_" ++ padded 5 i

/-- The record with the name number `i`. -/
def record (w : Workload) (i : Nat) : Record :=
  (Record.ofName (name i)).describe (String.ofList (List.replicate w.descriptionLength 'd'))

/-! ## Series of operations -/

/-- Creates records, one name after the other. -/
def creates (w : Workload) (n : Nat) : List Operation :=
  (List.range n).map fun i => .create (w.record (i % w.names))

/-- The operation number `i` of a mixed workload. -/
def mixedOperation (w : Workload) (i : Nat) : Operation :=
  let index := i % w.names
  match i % 4 with
  | 0 => .create (w.record index)
  | 1 => .get (name index)
  | 2 => .update (w.record index)
  | _ => .delete (name index)

/-- Creates, reads, updates and deletes, one name after the other. -/
def mixed (w : Workload) : List Operation := (List.range w.operations).map w.mixedOperation

@[simp] theorem length_mixed (w : Workload) : w.mixed.length = w.operations := by
  simp [mixed]

/-- The number of operations of each client. -/
def share (w : Workload) : Nat := w.operations / w.clients

/-- The series of the clients of a parallel workload that creates records. -/
def parallelCreates (w : Workload) : List (List Operation) :=
  List.replicate w.clients (w.creates w.share)

/-- Reads by the client number `client`. -/
def reads (w : Workload) (client : Nat) : List Operation :=
  (List.range w.share).map fun i => .get (name ((client * w.share + i) % w.names))

/-- The series of the clients of a parallel workload that reads records. -/
def parallelReads (w : Workload) : List (List Operation) := (List.range w.clients).map w.reads

/-- Creates the records that a parallel workload reads. -/
def preparation (w : Workload) : List Operation := w.creates w.names

/-- The kinds of workloads. -/
inductive Kind
  | sequential
  | mixed
  | parallelCreates
  /-- Reads by several clients, after the records were created. -/
  | parallelReads
  deriving DecidableEq, Repr

/-- Can `n` operations be made, for one client? -/
def isPossible (w : Workload) (n : Nat) : Bool := n = 0 || 0 < w.names

/-! ## Runs -/

/-- How many operations of a run succeeded. -/
structure Tally where
  succeeded : Nat
  failed : Nat
  deriving DecidableEq, Repr

namespace Tally

/-- No operation was run. -/
def zero : Tally := ⟨0, 0⟩

/-- Counts an operation. -/
def count (t : Tally) (success : Bool) : Tally :=
  if success then { t with succeeded := t.succeeded + 1 } else { t with failed := t.failed + 1 }

/-- The number of operations. -/
def total (t : Tally) : Nat := t.succeeded + t.failed

@[simp] theorem total_count (t : Tally) (success : Bool) :
    (t.count success).total = t.total + 1 := by
  cases success <;> simp [count, total] <;> omega

/-- Operations per second of a run that took `ns` nanoseconds. -/
def rate (t : Tally) (ns : Nat) : Float :=
  let seconds := Float.ofNat (ns / 1000000000) + Float.ofNat (ns % 1000000000) / 1e9
  if seconds > 0 then Float.ofNat t.total / seconds else 0

/-- The run in one line. -/
def summary (t : Tally) (ns : Nat) : String :=
  toString t.total ++ " ops (" ++ toString t.failed ++ " failed) in " ++ Text.duration ns ++ ", " ++
    toString (Text.nearest (t.rate ns)) ++ " ops/sec"

end Tally

/-- Did the operation succeed? -/
def succeeded (r : Except Error Outcome) : Bool := r.isOk

/-- Did the operation find a record? -/
def found : Except Error Outcome → Bool
  | .ok outcome => outcome.record?.isSome
  | .error _ => false

section Run

variable {σ : Type} (serve : Operation → σ → Except Error Outcome × σ)

/-- Runs operations, and counts those that end as `good` says. -/
def run (good : Except Error Outcome → Bool) : List Operation → Tally → σ → Tally × σ
  | [], t, s => (t, s)
  | op :: ops, t, s =>
    let (r, s) := serve op s
    run good ops (t.count (good r)) s

/-- Runs operations of a workload one after the other; none if they cannot be made. -/
def runAlone (w : Workload) (ops : List Operation) (s : σ) : Option (Tally × σ) :=
  if w.isPossible w.operations then some (run serve succeeded ops Tally.zero s) else none

/-- Runs the series of several clients, for each of which an operation succeeds as `good` says; none
if they cannot be made. -/
def runParallel (w : Workload) (good : Except Error Outcome → Bool) (series : List (List Operation))
    (s : σ) : Option (Tally × σ) :=
  if 0 < w.clients && w.isPossible w.share then
    some (run serve good series.flatten Tally.zero s)
  else none

/-- Runs the workload of the given kind. -/
def perform (w : Workload) (kind : Kind) (s : σ) : Option (Tally × σ) :=
  match kind with
  | .sequential => w.runAlone serve (w.creates w.operations) s
  | .mixed => w.runAlone serve w.mixed s
  | .parallelCreates => w.runParallel serve succeeded w.parallelCreates s
  | .parallelReads =>
    w.runParallel serve found w.parallelReads (run serve succeeded w.preparation Tally.zero s).2

end Run

end Workload

end NamespaceCatalog
