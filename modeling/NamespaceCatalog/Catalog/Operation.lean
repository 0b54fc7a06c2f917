import NamespaceCatalog.Record.Basic

/-!
# Operations of a catalog

What a catalog can be asked for, and what it answers.  Whatever serves the operations is a function
that takes an operation and a state to an outcome and the next state.
-/

namespace NamespaceCatalog

/-- What a catalog is asked for. -/
inductive Operation
  /-- Add a record, unless there is one of that name. -/
  | create (r : Record)
  /-- Replace the record of that name, if there is one. -/
  | update (r : Record)
  | get (name : String)
  /-- Remove the record of that name, if there is one. -/
  | delete (name : String)
  | list
  deriving DecidableEq, Repr

/-- What a catalog answers. -/
inductive Outcome
  /-- The record found; for `create`, the one that was there already. -/
  | record (r : Option Record)
  | done
  | records (rs : List Record)
  deriving DecidableEq, Repr

/-- The record in an outcome. -/
def Outcome.record? : Outcome → Option Record
  | record r => r
  | _ => none

end NamespaceCatalog
