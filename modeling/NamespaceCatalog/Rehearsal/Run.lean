import NamespaceCatalog.Rehearsal.Part
import NamespaceCatalog.Retry

/-!
# Runs of a rehearsal

A run executes one transaction.  Its script has for each attempt the acts of the body and how the
body ends.  Besides operations on the tables, acts let rivals write to the same rows: other
transactions, which commit at once, or hold the rows they reserved until they are released.

These are the runs that the executor is tried with: a body that meets a conflict each time, or once
and then commits; a body that fails for a reason of its own; participants that cannot be made; a
rival that commits, or has reserved, the same rows; and an interrupt, before a run or in one, of the
executor or of one caller.  What holds of all of them is in `Proofs.Rehearsals`.
-/

namespace NamespaceCatalog

/-- What the body of a transaction does. -/
inductive Act
  /-- An operation on the table number `table`. -/
  | operate (table : Nat) (op : TableOperation)
  /-- A rival writes to the table number `table`, or deletes the rows under the key, and commits
  unless it is to hold them. -/
  | rival (table : Nat) (key : Bytes) (value : Option Bytes) (hold : Bool)
  /-- The rivals that hold rows are aborted. -/
  | release
  /-- The executor's signal is raised. -/
  | interrupt
  /-- The signal of the run is raised. -/
  | raiseToken
  /-- The journal of the table number `table` has the given faults from now on. -/
  | faults (table : Nat) (f : Faults)

/-- A line of a policy's script. -/
structure Cue where
  /-- How long to wait before the next attempt. -/
  delay : Nat
  /-- Release the rivals? -/
  release : Bool
  /-- Raise the executor's signal? -/
  interrupt : Bool
  deriving DecidableEq, Repr

/-- The policy of a rehearsal. -/
inductive Prompter
  | policy (p : RetryPolicy)
  /-- Each call follows the next line, and gives up if there is none. -/
  | script (cues : List (Option Cue))

/-- The policy as diagnostics show it. -/
def Prompter.describe : Prompter → String
  | policy p => p.describe
  | script _ => "Script"

/-- What the runs of a rehearsal share. -/
structure Cast where
  tables : List (TableId × Option StreamId)
  /-- The participants, in the order they are enlisted. -/
  parts : List Part
  /-- Is a participant without a part enlisted after them? -/
  bystander : Bool
  policy : Prompter

/-- The script of a run whose bodies give an `α`. -/
structure Run (α : Type) where
  /-- The acts and the end of each attempt; the last ones serve for all later attempts. -/
  attempts : List (List Act × Except Error α)
  /-- The attempts whose participants cannot be made. -/
  binds : List (Option Error)
  /-- Has the run a signal of its own, and is it raised? -/
  token : Option Bool
  /-- Is the executor's signal raised before the start? -/
  interrupted : Bool
  /-- Are the rivals released at the end? -/
  released : Bool

namespace Cast

/-- Adds a table to a site, with or without a journal, which is then in memory. -/
def addTable (name : String) (journaled sync : Bool) (site : Site) :
    (TableId × Option StreamId) × Site :=
  if journaled then
    let (s, site) := site.newStream [] true
    match site.openTable name s sync with
    | (.ok id, site) => ((id, some s), site)
    | (.error _, site) => ((0, some s), site)
  else
    let (id, site) := site.addTable (Table.inMemory name) none
    ((id, none), site)

/-- Aborts the rivals that hold rows. -/
def release (w : Theatre) : Theatre :=
  let coordinator := w.extra.held.foldl
    (fun c tx => match c.abort tx with
      | .ok (_, c) => c
      | .error _ => c)
    w.coordinator
  { w with coordinator, extra := { w.extra with held := [] } }

/-! ## Rivals -/

/-- Rolls a rival back, which failed with `e`. -/
def undo (e : Error) (tx : Transaction) (x : Overlay) (w : Theatre) :
    Except Error TableAnswer × Theatre :=
  let (x', t) := x.rollback (w.table x.table)
  let w := w.putTable x'.table t
  match w.coordinator.abort tx with
  | .ok (_, coordinator) => (.error e, { w with coordinator })
  | .error _ => (.error e, w)

/-- Installs what a rival wrote, and commits it. -/
def commitRival (tx : Transaction) (x : Overlay) (w : Theatre) :
    Except Error TableAnswer × Theatre :=
  let (r, x, t) := x.commit (w.table x.table)
  let w := w.putTable x.table t
  match r with
  | .error e => undo e tx x w
  | .ok () =>
    match w.coordinator.commit tx with
    | .error e => undo e tx x w
    | .ok (_, _, coordinator) => (.ok .done, { w with coordinator })

/-- What a rival writes to its table. -/
def rivalWrites (tx : Transaction) (id : TableId) (key : Bytes) (value : Option Bytes) (t : Table) :
    Except Error Overlay :=
  match (Overlay.ofTable id).start t tx, value with
  | .error e, _ => .error e
  | .ok x, some value => x.write key value
  | .ok x, none => x.deleteAll t key

/-- A rival writes, reserves, and commits unless it is to hold. -/
def rival (id : TableId) (key : Bytes) (value : Option Bytes) (hold : Bool) (w : Theatre) :
    Except Error TableAnswer × Theatre :=
  let (tx, coordinator) := w.coordinator.begin
  let w := { w with coordinator }
  let t := w.table id
  match rivalWrites tx id key value t with
  | .error e => (.error e, w)
  | .ok x =>
    match w.coordinator.reserve tx (Std.ExtTreeSet.ofList (x.changes t)) with
    | (.error e, coordinator) => undo e tx x { w with coordinator }
    | (.ok (), coordinator) =>
      let w := { w with coordinator }
      if hold then (.ok .done, { w with extra := { w.extra with held := w.extra.held ++ [tx] } })
      else commitRival tx x w

/-! ## Acts -/

/-- Does the participant act on the table number `i`? -/
def actsOn (i : Nat) (x : Performer) : Bool := x.part.any (·.table = some i)

/-- An operation on the table number `i`. -/
def operate (i : Nat) (op : TableOperation) (ps : List Performer) (w : Theatre) :
    Except Error TableAnswer × List Performer :=
  match ps.find? (actsOn i) with
  | none => (.ok .done, ps)
  | some p =>
    match p.overlay.perform op (w.table p.overlay.table) with
    | .error e => (.error e, ps)
    | .ok (a, overlay) => (.ok a, ps.map fun q => if actsOn i q then { q with overlay } else q)

/-- Does an act.  The first result is what the act gives, or the failure that ends the body. -/
def act (c : Cast) (a : Act) (ps : List Performer) (w : Theatre) :
    Except Error (Except Error TableAnswer) × List Performer × Theatre :=
  match a with
  | .operate i op =>
    let (r, ps) := operate i op ps w
    (r.map .ok, ps, w)
  | .rival i key value hold =>
    match c.tables[i]? with
    | none => (.ok (.ok .done), ps, w)
    | some (id, _) =>
      let (r, w) := rival id key value hold w
      (.ok r, ps, w)
  | .release => (.ok (.ok .done), ps, release w)
  | .interrupt => (.ok (.ok .done), ps, { w with signal := w.signal.raise })
  | .raiseToken =>
    (.ok (.ok .done), ps, { w with extra := { w.extra with token := w.extra.token.raise } })
  | .faults i f =>
    match c.tables[i]?.bind (·.2) with
    | none => (.ok (.ok .done), ps, w)
    | some s =>
      let site := w.site.putStream s ((w.site.stream s).withFaults f)
      (.ok (.ok .done), ps, { w with site })

/-- Does acts up to the first failure, and collects what they give. -/
def actAll (c : Cast) : List Act → List Performer → Theatre →
    List (Except Error TableAnswer) × Except Error Unit × List Performer × Theatre
  | [], ps, w => ([], .ok (), ps, w)
  | a :: as, ps, w =>
    match c.act a ps w with
    | (.error e, ps, w) => ([], .error e, ps, w)
    | (.ok r, ps, w) =>
      let (rs, e, ps, w) := c.actAll as ps w
      (r :: rs, e, ps, w)

/-! ## Runs -/

section Run

variable {α : Type}

/-- The script of the attempt that is going on. -/
def scriptOf [Inhabited α] (run : Run α) (w : Theatre) : List Act × Except Error α :=
  match run.attempts[w.extra.attempt - 1]?, run.attempts.getLast? with
  | some s, _ | none, some s => s
  | none, none => ([], .ok default)

/-- The body of the transaction. -/
def body [Inhabited α] (c : Cast) (run : Run α) : Body Rehearsal Performer α := fun ps w =>
  let (acts, outcome) := scriptOf run w
  let (rs, r, ps, w) := c.actAll acts ps w
  let w := { w with extra := { w.extra with acts := rs :: w.extra.acts } }
  match r with
  | .error e => (.error e, ps, w)
  | .ok () => (outcome, ps, w)

/-- A participant that plays a part. -/
def performer (c : Cast) (p : Part) : Performer :=
  let table := (p.table.bind fun i => c.tables[i]?).map (·.1)
  ⟨some p, Overlay.ofTable (table.getD 0), none⟩

/-- The participants of an attempt. -/
def performers (c : Cast) : List Performer :=
  c.parts.map c.performer ++ if c.bystander then [⟨none, Overlay.ofTable 0, none⟩] else []

/-- Makes the participants of the next attempt. -/
def bind (c : Cast) (run : Run α) (w : Theatre) : Except Error (List Performer) × Theatre :=
  let w := { w with extra := { w.extra with attempt := w.extra.attempt + 1 } }
  match (run.binds[w.extra.attempt - 1]?).join with
  | some e => (.error e, w)
  | none => (.ok c.performers, w)

/-- Asks the policy. -/
def ask (c : Cast) (e : Error) (attempt : Nat) (w : Theatre) : Option Nat × Theatre :=
  let n := w.extra.polled
  let w :=
    { w with extra := { w.extra with polled := n + 1, calls := (attempt, e) :: w.extra.calls } }
  match c.policy with
  | .policy p => (p.delay? 0 e attempt, w)
  | .script cues =>
    match (cues[n]?).join with
    | none => (none, w)
    | some cue =>
      let w := if cue.release then release w else w
      (some cue.delay, if cue.interrupt then { w with signal := w.signal.raise } else w)

/-- The executor of a run; nobody disturbs its sleeps. -/
def executor (c : Cast) (run : Run α) : Executor Rehearsal Performer := ⟨c.bind run, c.ask, .quiet⟩

/-- The theatre when a run starts. -/
def enter (run : Run α) (w : Theatre) : Theatre :=
  { w with
    signal := if run.interrupted then w.signal.raise else w.signal
    extra := { Rehearsal.new with
      polled := w.extra.polled
      held := w.extra.held
      token := if run.token = some true then Signal.new.raise else Signal.new } }

/-- Executes the transaction of a run, with the signal it goes by. -/
def perform [Inhabited α] (c : Cast) (run : Run α) (w : Theatre) :
    Option (Except Error α) × Theatre :=
  if run.token.isSome then (c.executor run).executeWith (·.token) (c.body run) w
  else (c.executor run).execute (c.body run) w

/-- A whole run. -/
def execute [Inhabited α] (c : Cast) (run : Run α) (w : Theatre) : Except Error α × Theatre :=
  let (r, w) := Executor.settle (c.perform run (enter run w))
  (r, if run.released then release w else w)

end Run

end Cast

end NamespaceCatalog
