import NamespaceCatalog.Error

/-!
# Namespace records

The metadata of a namespace is its name, a description and overrides of platform settings; a setting
that is not overridden falls back to the platform's default.  The name is the identity of a record:
`Id` holds the names a namespace may have, which are not empty and made of ASCII letters, digits and
underscores.  `Id.ofName_ok_iff` says which names those are.
-/

namespace NamespaceCatalog

/-- A platform setting that a namespace may override. -/
inductive Setting
  | schedulerQueue
  | rootDirectory
  | hbaseNamespace
  | hiveDatabase
  deriving DecidableEq, Repr

/-- The settings, in the order records list them. -/
def Setting.all : List Setting := [.schedulerQueue, .rootDirectory, .hbaseNamespace, .hiveDatabase]

/-- The name of a setting in stored records. -/
def Setting.name : Setting → String
  | .schedulerQueue => "schedulerQueueName"
  | .rootDirectory => "rootDirectory"
  | .hbaseNamespace => "hbaseNamespace"
  | .hiveDatabase => "hiveDatabase"

/-- The overrides of one namespace. -/
structure Overrides where
  schedulerQueue : Option String
  rootDirectory : Option String
  hbaseNamespace : Option String
  hiveDatabase : Option String
  deriving DecidableEq, Repr

namespace Overrides

/-- No setting is overridden. -/
def none : Overrides := ⟨Option.none, Option.none, Option.none, Option.none⟩

/-- The override of a setting. -/
def get (o : Overrides) : Setting → Option String
  | .schedulerQueue => o.schedulerQueue
  | .rootDirectory => o.rootDirectory
  | .hbaseNamespace => o.hbaseNamespace
  | .hiveDatabase => o.hiveDatabase

/-- The overrides with that of one setting replaced. -/
def set (o : Overrides) (value : Option String) : Setting → Overrides
  | .schedulerQueue => { o with schedulerQueue := value }
  | .rootDirectory => { o with rootDirectory := value }
  | .hbaseNamespace => { o with hbaseNamespace := value }
  | .hiveDatabase => { o with hiveDatabase := value }

/-- Is no setting overridden? -/
def isEmpty (o : Overrides) : Bool := o = none

/-- The overridden settings and their values, in the order records list them. -/
def toList (o : Overrides) : List (Setting × String) :=
  Setting.all.filterMap fun s => (o.get s).map (s, ·)

theorem get_set (o : Overrides) (v : Option String) (s t : Setting) :
    (o.set v s).get t = if t = s then v else o.get t := by
  cases s <;> cases t <;> rfl

end Overrides

/-- The metadata of one namespace. -/
structure Record where
  name : String
  description : String
  overrides : Overrides
  deriving DecidableEq, Repr

namespace Record

/-- A record with nothing but a name. -/
def ofName (name : String) : Record := ⟨name, "", Overrides.none⟩

/-- The record with another description. -/
def describe (r : Record) (description : String) : Record := { r with description }

/-- The record with one setting overridden. -/
def override (r : Record) (s : Setting) (value : String) : Record :=
  { r with overrides := r.overrides.set (some value) s }

end Record

/-- May the character stand in the name of a namespace? -/
def isNameCharacter (c : Char) : Bool := c.isAlphanum || c = '_'

/-- What is wrong with a name, if anything. -/
def nameFault (name : String) : Option InputFault :=
  if name.isEmpty then some .emptyName
  else (name.toList.find? fun c => !isNameCharacter c).map (.badCharacter name)

/-- A name that a namespace may have. -/
structure Id where
  name : String
  valid : nameFault name = none

namespace Id

instance : DecidableEq Id := fun a b =>
  if h : a.name = b.name then isTrue (by cases a; cases b; cases h; rfl)
  else isFalse fun e => h (congrArg Id.name e)

/-- The identity with the given name. -/
def ofName (name : String) : Except InputFault Id :=
  match h : nameFault name with
  | none => .ok ⟨name, h⟩
  | some fault => .error fault

theorem ofName_name (id : Id) : ofName id.name = .ok id := by
  unfold ofName
  split
  · rfl
  · next fault h => rw [id.valid] at h; cases h

theorem ofName_ok_iff (name : String) :
    (∃ id, ofName name = .ok id) ↔ name ≠ "" ∧ ∀ c ∈ name.toList, isNameCharacter c := by
  have h : (∃ id, ofName name = .ok id) ↔ nameFault name = none := by
    unfold ofName
    constructor
    · rintro ⟨id, h⟩
      split at h
      · assumption
      · cases h
    · intro h
      split
      · exact ⟨_, rfl⟩
      · next fault h' => rw [h] at h'; cases h'
  rw [h, nameFault]
  by_cases he : name = ""
  · simp [he]
  · have : name.isEmpty = false := by simpa using he
    simp [this, he]

end Id

/-- The identity of a record. -/
def Record.id (r : Record) : Except InputFault Id := Id.ofName r.name

end NamespaceCatalog
