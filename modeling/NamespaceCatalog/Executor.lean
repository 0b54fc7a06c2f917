import NamespaceCatalog.Sleep

/-!
# Running transactions

An `Executor` runs the body of a transaction, and runs it again after a conflict.

`attempt` runs a body in one transaction: the participants are started, the body runs, the rows they
changed are reserved, the participants commit, and then the transaction does.  If a step fails, all
participants are rolled back and the transaction is aborted, or invalidated if a rollback fails.

`execute` makes attempts until one succeeds, the policy gives up, or a signal ends the sleep between
two of them.  Each attempt binds new participants, so nothing is left of an attempt that failed.  A
call that falls asleep for longer than the clock can tell, with no signal to end it, gives nothing.
-/

namespace NamespaceCatalog

section Participants

variable {σ π : Type}

/-- Lets the members of a list act one after the other, up to the first that fails. -/
def actUntil (f : π → σ → Except Error Unit × π × σ) : List π → σ → Except Error Unit × List π × σ
  | [], s => (.ok (), [], s)
  | p :: ps, s =>
    match f p s with
    | (.error e, p, s) => (.error e, p :: ps, s)
    | (.ok (), p, s) =>
      let (r, ps, s) := actUntil f ps s
      (r, p :: ps, s)

/-- Lets the members of a list act one after the other, and collects what they give. -/
def actAll {β : Type} (f : π → σ → β × π × σ) : List π → σ → List β × List π × σ
  | [], s => ([], [], s)
  | p :: ps, s =>
    let (b, p, s) := f p s
    let (bs, ps, s) := actAll f ps s
    (b :: bs, p :: ps, s)

end Participants

/-- What a transaction does with its participants. -/
abbrev Body (ρ π α : Type) := List π → World ρ → Except Error α × List π × World ρ

/-- How transactions are run. -/
structure Executor (ρ π : Type) where
  /-- Makes the participants of an attempt. -/
  bind : World ρ → Except Error (List π) × World ρ
  /-- Says after a failed attempt, of which it knows the failure and the number, how long to sleep
  before the next one; none to give up. -/
  policy : Error → Nat → World ρ → Option Nat × World ρ
  /-- What others do while the executor sleeps. -/
  meanwhile : Meanwhile ρ

namespace Executor

variable {ρ π α : Type} [Participant ρ π]

/-- Starts the participants, runs the body and commits. -/
def steps (tx : Transaction) (body : Body ρ π α) (ps : List π) (w : World ρ) :
    Except Error α × List π × World ρ :=
  match actUntil (Participant.start tx) ps w with
  | (.error e, ps, w) => (.error e, ps, w)
  | (.ok (), ps, w) =>
    match body ps w with
    | (.error e, ps, w) => (.error e.inBody, ps, w)
    | (.ok a, ps, w) =>
      let (changes, ps, w) := actAll Participant.changes ps w
      match w.coordinator.reserve tx (Std.ExtTreeSet.ofList changes.flatten) with
      | (.error e, coordinator) => (.error e, ps, { w with coordinator })
      | (.ok (), coordinator) =>
        match actUntil Participant.commit ps { w with coordinator } with
        | (.error e, ps, w) => (.error e, ps, w)
        | (.ok (), ps, w) =>
          match w.coordinator.commit tx with
          | .error e => (.error e, ps, w)
          | .ok (_, _, coordinator) =>
            let (_, ps, w) :=
              actAll (fun p w => ((), Participant.post p w)) ps { w with coordinator }
            (.ok a, ps, w)

/-- Rolls the participants back and ends the transaction. -/
def fail (tx : Transaction) (ps : List π) (w : World ρ) : List π × World ρ :=
  let (results, ps, w) := actAll Participant.rollback ps w
  if results.all (·.isOk) then
    match w.coordinator.abort tx with
    | .ok (_, coordinator) => (ps, { w with coordinator })
    | .error _ => (ps, w)
  else (ps, { w with coordinator := (w.coordinator.invalidate tx).2 })

/-- Tells the participants what is no longer needed. -/
def reclaim (ps : List π) (w : World ρ) : World ρ :=
  if ps.isEmpty then w
  else
    let h := w.coordinator.horizon
    (actAll (fun p w => ((), Participant.reclaim h p w)) ps w).2.2

/-- The failure of an attempt whose participants could not be made. -/
def bindFailure (e : Error) : Error :=
  if e.kind = .initialization then e else .initialization "transaction context" e

/-- Runs the body in one transaction. -/
def attempt (x : Executor ρ π) (body : Body ρ π α) (w : World ρ) : Except Error α × World ρ :=
  match x.bind w with
  | (.error e, w) => (.error (bindFailure e), w)
  | (.ok ps, w) =>
    let (tx, coordinator) := w.coordinator.begin
    match steps tx body ps { w with coordinator } with
    | (.ok a, ps, w) => (.ok a, reclaim ps w)
    | (.error e, ps, w) =>
      let (ps, w) := fail tx ps w
      (.error e, reclaim ps w)

/-- Makes attempts, the first of them being number `n`, and at most `more` after it.  A sleeper
stops if `stop` finds a signal up.  There is no result if a sleep never ends. -/
def retry (x : Executor ρ π) (stop : Signal × ρ → Bool) (body : Body ρ π α) :
    (more n : Nat) → World ρ → Option (Except Error α) × World ρ
  | more, n, w =>
    match x.attempt body w with
    | (.ok a, w) => (some (.ok a), w)
    | (.error e, w) =>
      match x.policy e n w with
      | (none, w) => (some (.error e), w)
      | (some delay, w) =>
        match x.meanwhile.sleep stop delay w with
        | (none, w) => (none, w)
        | (some up, w) =>
          match Signal.wake up, more with
          | .error e, _ => (some (.error e), w)
          | .ok (), 0 => (some (.error e), w)
          | .ok (), more + 1 => retry x stop body more (n + 1) w

/-- The greatest number of attempts: they are counted in 32 bits. -/
def mostAttempts : Nat := UInt32.size - 1

/-- Runs the body until it commits.  Raises of the world's signal end its sleeps if they come after
the start. -/
def execute (x : Executor ρ π) (body : Body ρ π α) (w : World ρ) :
    Option (Except Error α) × World ρ :=
  let watch := w.signal.watch
  x.retry (fun s => s.1.raisedSince watch) body (mostAttempts - 1) 1 w

/-- Runs the body until it commits.  The signal that `token` finds in the world ends its sleeps
while it is up. -/
def executeWith (x : Executor ρ π) (token : ρ → Signal) (body : Body ρ π α) (w : World ρ) :
    Option (Except Error α) × World ρ :=
  x.retry (fun s => (token s.2).isUp) body (mostAttempts - 1) 1 w

/-- The result of a call for somebody who ends a sleep that nothing else ends. -/
def settle (r : Option (Except Error α) × World ρ) : Except Error α × World ρ :=
  (r.1.getD (.error .interrupted), r.2)

/-- An executor as diagnostics show it, by its policy and its signal. -/
def describe (policy : String) (signal : Signal) : String :=
  "RetryingExecutor \x7b policy: " ++ policy ++ ", interrupted: " ++ Text.word signal.isUp ++
    ", .. \x7d"

end Executor

/-- The body of a transaction that works with one overlay and its table. -/
def Overlay.body {ρ α : Type} (f : Overlay → Table → Except Error (α × Overlay)) :
    Body ρ Overlay α
  | [], w => (.error (.invalidOperation .noTransaction), [], w)
  | x :: xs, w =>
    match f x (w.table x.table) with
    | .ok (a, x) => (.ok a, x :: xs, w)
    | .error e => (.error e, x :: xs, w)

end NamespaceCatalog
