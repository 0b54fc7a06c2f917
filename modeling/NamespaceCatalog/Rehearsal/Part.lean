import NamespaceCatalog.Executor
import NamespaceCatalog.Table.Operation

/-!
# Parts in a rehearsal

A rehearsal runs transactions with participants that write down what they are asked for, and fail
where their part says.  A participant with a table passes on to it what it is asked for; one without
a table only pretends to have changed some rows.

The parts are those that the executor is tried with: recorders, which note that they are started,
commit, are told of the commit or are rolled back, with or without changes of their own; one whose
rollback fails; and one that cannot start or commit.
-/

namespace NamespaceCatalog

/-- What a participant is asked for. -/
inductive Stage
  | start
  | changes
  | commit
  | post
  | rollback
  | reclaim
  deriving DecidableEq, Repr

/-- The stage as a word. -/
def Stage.word : Stage → String
  | start => "start"
  | changes => "changes"
  | commit => "commit"
  | post => "post"
  | rollback => "rollback"
  | reclaim => "reclaim"

/-- What was written down. -/
inductive Event
  | asked (name : String) (stage : Stage)
  /-- A participant without a part was started. -/
  | started (tx : TxId)
  deriving DecidableEq, Repr

/-- The event as diagnostics show it. -/
def Event.text : Event → String
  | asked name stage => name ++ ":" ++ stage.word
  | started tx => "plain:start " ++ tx.label

/-- What is kept during a rehearsal; lists have the latest first. -/
structure Rehearsal where
  /-- The number of the attempt in the run. -/
  attempt : Nat
  /-- How often the policy was asked in all runs. -/
  polled : Nat
  /-- The attempts and failures the policy was asked about in the run. -/
  calls : List (Nat × Error)
  events : List Event
  /-- What the acts of each attempt gave. -/
  acts : List (List (Except Error TableAnswer))
  /-- Rivals that have reserved rows and not finished, the oldest first. -/
  held : List Transaction
  token : Signal

namespace Rehearsal

/-- Nothing happened yet. -/
def new : Rehearsal := ⟨0, 0, [], [], [], [], Signal.new⟩

end Rehearsal

/-- The world of a rehearsal. -/
abbrev Theatre := World Rehearsal

/-- The part of a participant. -/
structure Part where
  name : String
  /-- The number of its table among those of the rehearsal. -/
  table : Option Nat
  /-- The rows it pretends to have changed. -/
  changes : List Bytes
  /-- The attempts at which it fails at a stage. -/
  failsAt : Stage → List Nat
  /-- How it fails, if that matters. -/
  failure : Option Error
  /-- The attempts at which it aborts the transaction before it commits. -/
  stealsAt : List Nat

/-- A participant with its part; none if it does nothing but be there. -/
structure Performer where
  part : Option Part
  overlay : Overlay
  /-- The transaction that was started last. -/
  copy : Option Transaction

namespace Performer

/-- Writes an event down. -/
def note (w : Theatre) (e : Event) : Theatre :=
  { w with extra := { w.extra with events := e :: w.extra.events } }

/-- How a part fails. -/
def failureOf (p : Part) (stage : Stage) : Error :=
  p.failure.getD (.invalidOperation (.stated (p.name ++ " cannot " ++ stage.word)))

/-- Writes down that a stage is reached, fails if the part says so, and else lets the table act. -/
def play (stage : Stage) (act : Overlay → Theatre → Except Error Unit × Overlay × Theatre)
    (x : Performer) (w : Theatre) : Except Error Unit × Performer × Theatre :=
  match x.part with
  | none => (.ok (), x, w)
  | some p =>
    let w := note w (.asked p.name stage)
    if (p.failsAt stage).contains w.extra.attempt then (.error (failureOf p stage), x, w)
    else if p.table.isNone then (.ok (), x, w)
    else
      let (r, overlay, w) := act x.overlay w
      (r, { x with overlay }, w)

/-- An act that cannot fail. -/
def always (act : Overlay → Theatre → Overlay × Theatre) (x : Overlay) (w : Theatre) :
    Except Error Unit × Overlay × Theatre :=
  (.ok (), act x w)

/-- Aborts the transaction behind its back, if the part says so. -/
def steal (x : Performer) (w : Theatre) : Except Error Unit × Performer × Theatre :=
  match x.part, x.copy with
  | some p, some tx =>
    if p.stealsAt.contains w.extra.attempt then
      match w.coordinator.abort tx with
      | .ok (tx, coordinator) => (.ok (), { x with copy := some tx }, { w with coordinator })
      | .error e => (.error e, x, w)
    else (.ok (), x, w)
  | _, _ => (.ok (), x, w)

/-- The rows the participant has changed. -/
def changed (x : Performer) (w : Theatre) : List Bytes :=
  match x.part with
  | none => []
  | some p => if p.table.isSome then x.overlay.changes (w.table x.overlay.table) else p.changes

instance : Participant Rehearsal Performer where
  start tx x w :=
    let w := if x.part.isNone then note w (.started tx.id) else w
    play .start (Participant.start tx) { x with copy := some tx } w
  changes x w :=
    let (_, x, w) := play .changes (always fun x w => (x, w)) x w
    (x.changed w, x, w)
  commit x w :=
    match x.steal w with
    | (.error e, x, w) => (.error e, x, w)
    | (.ok (), x, w) => play .commit Participant.commit x w
  post x w := (play .post (always Participant.post) x w).2
  rollback x w := play .rollback Participant.rollback x w
  reclaim h x w := (play .reclaim (always (Participant.reclaim h)) x w).2

end Performer

end NamespaceCatalog
