import NamespaceCatalog.Catalog.Basic
import NamespaceCatalog.Proofs.Versions

/-!
# Courses

A course is the body of a transaction as a tree: it asks its table one thing after the other, and
the answers say how it goes on.  So other transactions can act between two questions.  `Course.run`
goes through a course at one table without a break.

`Operation.course` is the body of an operation of a catalog.  `serve_eq_run` says that a catalog
serves an operation by running its course in a transaction.
-/

namespace NamespaceCatalog

/-- What a body asks of its table, and what it ends with. -/
inductive Course (α : Type)
  | done (a : α)
  | fail (e : Error)
  | ask (op : TableOperation) (next : TableAnswer → Course α)

namespace Course

variable {α β : Type}

/-- Goes through the course at one table. -/
def run : Course α → Overlay → Table → Except Error (α × Overlay)
  | done a, x, _ => .ok (a, x)
  | fail e, _, _ => .error e
  | ask op next, x, t =>
    match x.perform op t with
    | .error e => .error e
    | .ok (answer, x) => (next answer).run x t

/-- One course after another. -/
def bind : Course α → (α → Course β) → Course β
  | done a, k => k a
  | fail e, _ => fail e
  | ask op next, k => ask op fun answer => (next answer).bind k

/-- The course with another result. -/
def map (f : α → β) (c : Course α) : Course β := c.bind fun a => done (f a)

/-- The course that asks nothing. -/
def ofExcept : Except Error α → Course α
  | .ok a => done a
  | .error e => fail e

theorem run_bind (c : Course α) (k : α → Course β) (x : Overlay) (t : Table) :
    (c.bind k).run x t =
      match c.run x t with
      | .error e => .error e
      | .ok (a, x) => (k a).run x t := by
  induction c generalizing x with
  | done a => rfl
  | fail e => rfl
  | ask op next ih =>
    simp only [bind, run]
    cases x.perform op t with
    | error e => rfl
    | ok r => exact ih r.1 r.2

theorem run_map (f : α → β) (c : Course α) (x : Overlay) (t : Table) :
    (c.map f).run x t = (c.run x t).map fun (a, x) => (f a, x) := by
  rw [map, run_bind]
  cases c.run x t <;> rfl

theorem run_ofExcept (r : Except Error α) (x : Overlay) (t : Table) :
    (ofExcept r).run x t = r.map (·, x) := by
  cases r <;> rfl

/-! ## Courses at the rows of records -/

/-- The record of a namespace. -/
def get (f : Codec) (id : Id) : Course (Option Record) :=
  .ask (.read (Rows.key id.name)) fun
    | .value (some v) => (ofExcept (f.decode v)).map some
    | _ => done none

/-- Writes a record. -/
def write (f : Codec) (r : Record) : Course Unit :=
  (ofExcept (f.encode r)).bind fun value => .ask (.write (Rows.key r.name) value) fun _ => done ()

/-- Removes the record of a namespace. -/
def remove (id : Id) : Course Unit := .ask (.deleteAll (Rows.key id.name)) fun _ => done ()

/-- All records, in the order of their names. -/
def list (f : Codec) : Course (List Record) :=
  .ask (.scan (Key.ofTag Rows.tag)) fun
    | .rows rows => ofExcept (Rows.ofRows f rows)
    | _ => done []

theorem run_get (f : Codec) (id : Id) (x : Overlay) (t : Table) :
    (get f id).run x t = (Rows.get f id x t).map (·, x) := by
  simp only [get, run, Overlay.perform, Rows.get]
  cases x.read t (Rows.key id.name) with
  | error e => rfl
  | ok v =>
    cases v with
    | none => rfl
    | some v =>
      simp only [Except.map]
      rw [run_map, run_ofExcept]
      cases f.decode v <;> rfl

theorem run_write (f : Codec) (r : Record) (x : Overlay) (t : Table) :
    (write f r).run x t = (Rows.create f r x).map ((), ·) := by
  rw [write, run_bind, run_ofExcept, Rows.create]
  cases f.encode r with
  | error e => rfl
  | ok value =>
    simp only [Except.map, run, Overlay.perform]
    cases x.write (Rows.key r.name) value <;> rfl

theorem run_remove (id : Id) (x : Overlay) (t : Table) :
    (remove id).run x t = (Rows.delete id x t).map ((), ·) := by
  simp only [remove, run, Overlay.perform, Rows.delete]
  cases x.deleteAll t (Rows.key id.name) <;> rfl

theorem run_list (f : Codec) (x : Overlay) (t : Table) :
    (list f).run x t = (Rows.list f x t).map (·, x) := by
  simp only [list, run, Overlay.perform, Rows.list]
  cases x.scan t (Key.ofTag Rows.tag) with
  | error e => rfl
  | ok rows => exact run_ofExcept _ _ _

end Course

/-! ## Courses at given rows -/

/-- A table in memory that was opened with the given rows. -/
def Table.ofRows (rows : Std.ExtTreeMap Bytes Bytes) : Table :=
  { inMemory "" with rows := baseRows rows }

theorem Table.get_ofRows (rows : Std.ExtTreeMap Bytes Bytes) (tx : Transaction) (key : Bytes) :
    (ofRows rows).get tx key = rows[key]? := by
  have hv : (ofRows rows).versions key = (rows[key]?.map fun v => ⟨TxId.base, some v⟩).toList :=
    versions_baseRows rows key
  rw [get_eq, hv]
  cases rows[key]? with
  | none => rfl
  | some value => simp [Version.newest_cons, Transaction.sees_iff]

/-- The overlay of a transaction that wrote what is in the buffer. -/
def Overlay.serving (tx : Transaction) (buffer : Std.ExtTreeMap Bytes (Option Bytes)) : Overlay :=
  { ofTable 0 with tx := some tx, buffer }

theorem Overlay.perform_serving {x : Overlay} {tx : Transaction} (hx : x.tx = some tx)
    (op : TableOperation) (t : Table) :
    (serving tx x.buffer).perform op t =
      (x.perform op t).map fun (answer, y) => (answer, serving tx y.buffer) := by
  cases op with
  | write key value => simp [perform, write, active, serving, Except.map, hx]
  | read key =>
    simp only [perform, read, active, serving, hx]
    cases x.buffer[key]? <;> rfl
  | scan start => simp [perform, scan, active, serving, written, Except.map, hx]
  | deleteAll start => simp [perform, deleteAll, active, serving, written, Except.map, hx]
  | pending => rfl

namespace Course

variable {α : Type} {rows : Std.ExtTreeMap Bytes Bytes} {tx : Transaction}

/-- Goes through the course at given rows, in a transaction that wrote what is in the buffer. -/
def runAt (c : Course α) (rows : Std.ExtTreeMap Bytes Bytes) (tx : Transaction)
    (buffer : Std.ExtTreeMap Bytes (Option Bytes)) : Except Error (α × Overlay) :=
  c.run (.serving tx buffer) (.ofRows rows)

/-- A step at a table that is read as the rows. -/
theorem runAt_ask {op : TableOperation} {next : TableAnswer → Course α} {answer : TableAnswer}
    {x y : Overlay} {t : Table} (h : x.perform op t = .ok (answer, y))
    (hx : x.tx = some tx ∨ x.tx = none) (ht : ∀ key, t.get tx key = rows[key]?) :
    (ask op next).runAt rows tx x.buffer = (next answer).runAt rows tx y.buffer := by
  have hstep : (Overlay.serving tx x.buffer).perform op (.ofRows rows) =
      .ok (answer, .serving tx y.buffer) := by
    rcases hx with hx | hx
    · rw [Overlay.perform_congr (u := t) rfl fun key => ?_, Overlay.perform_serving hx, h]
      · rfl
      · rw [Table.get_ofRows, ht]
    · cases op with
      | write | read | scan | deleteAll =>
        simp [Overlay.perform, Overlay.write, Overlay.read, Overlay.scan, Overlay.deleteAll,
          Overlay.active, Except.map, hx] at h
      | pending =>
        cases h
        rfl
  rw [runAt, run, hstep]
  rfl

end Course

/-! ## The courses of operations -/

namespace Operation

/-- The body of `create`. -/
def createCourse (f : Codec) (id : Id) (r : Record) : Course (Option Record) :=
  (Course.get f id).bind fun
    | some old => .done (some old)
    | none => (Course.write f r).map fun _ => none

/-- The body of `update`. -/
def updateCourse (f : Codec) (id : Id) (r : Record) : Course Bool :=
  (Course.get f id).bind fun
    | none => .done false
    | some _ => (Course.write f r).map fun _ => true

/-- The body of `delete`. -/
def deleteCourse (f : Codec) (id : Id) : Course (Option Record) :=
  (Course.get f id).bind fun
    | none => .done none
    | some old => (Course.remove id).map fun _ => some old

/-- The body of an operation, if it mentions no name that a namespace cannot have. -/
def course (f : Codec) : Operation → Except InputFault (Course Outcome)
  | .create r => r.id.map fun id => (createCourse f id r).map .record
  | .update r => r.id.map fun id => (updateCourse f id r).map fun _ => .done
  | .get name => (Id.ofName name).map fun id => (Course.get f id).map .record
  | .delete name => (Id.ofName name).map fun id => (deleteCourse f id).map .record
  | .list => .ok ((Course.list f).map .records)

theorem run_createCourse (f : Codec) (id : Id) (r : Record) :
    (createCourse f id r).run = Catalog.createRow f id r := by
  funext x t
  rw [createCourse, Course.run_bind, Course.run_get]
  unfold Catalog.createRow
  cases Rows.get f id x t with
  | error e => rfl
  | ok old =>
    cases old with
    | some old => rfl
    | none =>
      simp only [Except.map]
      rw [Course.run_map, Course.run_write]
      cases Rows.create f r x <;> rfl

theorem run_updateCourse (f : Codec) (id : Id) (r : Record) :
    (updateCourse f id r).run = Catalog.updateRow f id r := by
  funext x t
  rw [updateCourse, Course.run_bind, Course.run_get]
  unfold Catalog.updateRow Rows.exists?
  cases Rows.get f id x t with
  | error e => rfl
  | ok old =>
    cases old with
    | none => rfl
    | some old =>
      simp only [Except.map]
      rw [Course.run_map, Course.run_write]
      cases Rows.create f r x <;> rfl

theorem run_deleteCourse (f : Codec) (id : Id) :
    (deleteCourse f id).run = Catalog.deleteRow f id := by
  funext x t
  rw [deleteCourse, Course.run_bind, Course.run_get]
  unfold Catalog.deleteRow
  cases Rows.get f id x t with
  | error e => rfl
  | ok old =>
    cases old with
    | none => rfl
    | some old =>
      simp only [Except.map]
      rw [Course.run_map, Course.run_remove]
      cases Rows.delete id x t <;> rfl

end Operation

/-! ## Serving by courses -/

namespace Executor

variable {ρ π α β : Type} [Participant ρ π] {body : Body ρ π α} {mapped : Body ρ π β} {g : α → β}

theorem steps_map (h : ∀ ps w, mapped ps w = ((body ps w).1.map g, (body ps w).2))
    (tx : Transaction) (ps : List π) (w : World ρ) :
    steps tx mapped ps w = ((steps tx body ps w).1.map g, (steps tx body ps w).2) := by
  unfold steps
  rcases actUntil (Participant.start tx) ps w with ⟨_ | _, ps, w⟩
  · rfl
  · simp only [h]
    rcases body ps w with ⟨_ | a, ps, w⟩
    · rfl
    · simp only [Except.map]
      rcases actAll Participant.changes ps w with ⟨changes, ps, w⟩
      simp only
      generalize w.coordinator.reserve tx (Std.ExtTreeSet.ofList changes.flatten) = reserved
      rcases reserved with ⟨_ | _, c⟩
      · rfl
      · simp only
        generalize actUntil Participant.commit ps { w with coordinator := c } = committed
        rcases committed with ⟨_ | _, ps, w⟩
        · rfl
        · simp only
          cases w.coordinator.commit tx <;> rfl

theorem attempt_map (x : Executor ρ π)
    (h : ∀ ps w, mapped ps w = ((body ps w).1.map g, (body ps w).2)) (w : World ρ) :
    x.attempt mapped w = ((x.attempt body w).1.map g, (x.attempt body w).2) := by
  unfold attempt
  rcases x.bind w with ⟨_ | ps, w⟩
  · rfl
  · simp only [steps_map h]
    rcases steps w.coordinator.begin.1 body ps { w with coordinator := w.coordinator.begin.2 } with
      ⟨_ | _, ps, w⟩ <;> rfl

/-- What a body gives does not matter to how it is run. -/
theorem retry_map (x : Executor ρ π) (stop : Signal × ρ → Bool)
    (h : ∀ ps w, mapped ps w = ((body ps w).1.map g, (body ps w).2)) (more n : Nat) (w : World ρ) :
    x.retry stop mapped more n w =
      ((x.retry stop body more n w).1.map (·.map g), (x.retry stop body more n w).2) := by
  induction more generalizing n w with
  | zero =>
    unfold retry
    rw [x.attempt_map h]
    rcases x.attempt body w with ⟨e | a, w⟩
    · simp only [Except.map]
      rcases x.policy e n w with ⟨_ | delay, w⟩
      · rfl
      · simp only
        rcases x.meanwhile.sleep stop delay w with ⟨_ | up, w⟩
        · rfl
        · simp only
          cases Signal.wake up <;> rfl
    · rfl
  | succ more ih =>
    unfold retry
    rw [x.attempt_map h]
    rcases x.attempt body w with ⟨e | a, w⟩
    · simp only [Except.map]
      rcases x.policy e n w with ⟨_ | delay, w⟩
      · rfl
      · simp only
        rcases x.meanwhile.sleep stop delay w with ⟨_ | up, w⟩
        · rfl
        · simp only
          cases Signal.wake up with
          | error e => rfl
          | ok _ => exact ih (n + 1) w
    · rfl

end Executor

namespace Catalog

variable {ρ α β : Type}

theorem run_map (c : Catalog ρ) (f : Overlay → Table → Except Error (α × Overlay)) (g : α → β)
    (w : World (Backing ρ)) :
    c.run (fun x t => (f x t).map fun (a, x) => (g a, x)) w =
      ((c.run f w).1.map (·.map g), (c.run f w).2) := by
  refine c.executor.retry_map _ (fun ps w => ?_) _ 1 w
  cases ps with
  | nil => rfl
  | cons x xs =>
    simp only [Overlay.body]
    cases f x (w.table x.table) <;> rfl

theorem run_course_map (c : Catalog ρ) (g : α → β) (course : Course α) (w : World (Backing ρ)) :
    c.run (course.map g).run w =
      ((c.run course.run w).1.map (·.map g), (c.run course.run w).2) := by
  rw [← run_map]
  exact congrArg (c.run · w) (funext fun x => funext (course.run_map g x))

/-- A catalog serves an operation by going through its course in a transaction. -/
theorem serve_eq_run (c : Catalog ρ) (op : Operation) (w : World (Backing ρ)) :
    c.serve op w =
      match op.course c.codec with
      | .error fault => (some (.error (.validation fault)), w)
      | .ok course => c.run course.run w := by
  cases op with
  | create r =>
    simp only [serve, create, Operation.course]
    cases r.id with
    | error fault => rfl
    | ok id =>
      simp only [Except.map, run_course_map, Operation.run_createCourse]
  | update r =>
    simp only [serve, update, Operation.course]
    cases r.id with
    | error fault => rfl
    | ok id =>
      simp only [Except.map, run_course_map, Operation.run_updateCourse]
  | get name =>
    simp only [serve, get, Operation.course]
    cases Id.ofName name with
    | error fault => rfl
    | ok id =>
      have hget := funext fun x => funext (Course.run_get c.codec id x)
      simp only [Except.map, run_course_map, hget]
  | delete name =>
    simp only [serve, delete, Operation.course]
    cases Id.ofName name with
    | error fault => rfl
    | ok id =>
      simp only [Except.map, run_course_map, Operation.run_deleteCourse]
  | list =>
    have hlist := funext fun x => funext (Course.run_list c.codec x)
    simp only [serve, list, Operation.course, run_course_map, hlist]

end Catalog

end NamespaceCatalog
