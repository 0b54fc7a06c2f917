import NamespaceCatalog.Text.Utf8
import NamespaceCatalog.Text.Quoted

/-!
# Failures

A failure is a cause; its wording is one function, `Error.message`.  Failures of a byte stream
(`StorageError`) are kept apart from those of the catalog (`Error`), which wraps them.  `Error.kind`
is the coarse class a caller acts on, and `Error.inBody` the failure a transaction body is reported
with: conflicts, interruptions and failures already reported keep their class.

A cause named `stated` carries a reason worded by whoever raised it.
-/

namespace NamespaceCatalog

/-- The number of a transaction, and of a commit: both come from one growing counter. -/
abbrev TxId := Nat

namespace TxId

/-- The writer of rows restored from a log.  No transaction has this number. -/
def base : TxId := 0

/-- The number as diagnostics show it. -/
def label (id : TxId) : String := "tx:" ++ toString id

end TxId

/-- A refusal by the file system. -/
inductive FileFault
  | notFound
  | notADirectory
  | isADirectory
  | alreadyExists
  | unexpectedEnd
  | nameTooLong
  | invalidName
  deriving DecidableEq, Repr, Inhabited

/-- The refusal as a sentence. -/
def FileFault.message : FileFault → String
  | .notFound => "no such file or directory"
  | .notADirectory => "not a directory"
  | .isADirectory => "is a directory"
  | .alreadyExists => "file exists"
  | .unexpectedEnd => "unexpected end of file"
  | .nameTooLong => "name too long"
  | .invalidName => "invalid name"

/-- Why reading or writing failed. -/
inductive IoFault
  | stated (reason : String)
  | file (fault : FileFault)
  deriving DecidableEq, Repr, Inhabited

/-- The cause as a sentence. -/
def IoFault.message : IoFault → String
  | .stated reason => reason
  | .file fault => fault.message

/-- Failures of a byte stream. -/
inductive StorageError
  | io (fault : IoFault)
  | readPastEnd (offset length size : Nat)
  | truncateBeyondEnd (requested size : Nat)
  | corrupted (reason : String)
  deriving DecidableEq, Repr, Inhabited

/-- The failure as a sentence. -/
def StorageError.message : StorageError → String
  | .io fault => "I/O error: " ++ fault.message
  | .readPastEnd o l s =>
    "read beyond end of storage: offset " ++ toString o ++ ", len " ++ toString l ++ ", size " ++
      toString s
  | .truncateBeyondEnd r s =>
    "cannot truncate to " ++ toString r ++ " bytes, store holds " ++ toString s
  | .corrupted reason => "storage corrupted: " ++ reason

/-- Why an input is refused before any transaction starts. -/
inductive InputFault
  | stated (reason : String)
  /-- A namespace without a name. -/
  | emptyName
  /-- A namespace name with the character `c`. -/
  | badCharacter (name : String) (c : Char)
  /-- A name no table can have. -/
  | badTableName (name : String)
  deriving DecidableEq, Repr

/-- The cause as a sentence. -/
def InputFault.message : InputFault → String
  | .stated reason => reason
  | .emptyName => "namespace name must not be empty"
  | .badCharacter name c =>
    "namespace name `" ++ name ++ "` contains invalid character " ++ Text.quotedChar c
  | .badTableName name => "invalid table name `" ++ name ++ "`"

/-- Why bytes are not the key or the record they should be. -/
inductive CodecFault
  | stated (reason : String)
  /-- A key segment of type `expected` was due at byte `position`, where the tag is `found`. -/
  | wrongSegment (expected : String) (position : Nat) (found : UInt8)
  /-- A key segment of type `expected` was due at the end of the key. -/
  | keyEnded (expected : String)
  | unterminatedText
  | badText (fault : Utf8.Fault)
  | truncatedInteger
  /-- A row under the tag of namespaces whose key has more than a name. -/
  | strayRow (key : String)
  /-- The row `key` holds the record of another name. -/
  | misplacedRecord (key name : String)
  /-- The library for the format cannot write the record. -/
  | unwritable (reason : String)
  /-- The library for the format finds no record in the bytes. -/
  | unreadable (reason : String)
  deriving DecidableEq, Repr

/-- A byte as diagnostics show it, in two hexadecimal digits. -/
def hexByte (b : UInt8) : String :=
  String.ofList ['0', 'x', Nat.digitChar (b.toNat / 16), Nat.digitChar (b.toNat % 16)]

/-- The cause as a sentence. -/
def CodecFault.message : CodecFault → String
  | .stated reason => reason
  | .wrongSegment what pos found =>
    "expected " ++ what ++ " segment at byte " ++ toString pos ++ ", found tag " ++ hexByte found
  | .keyEnded what => "expected " ++ what ++ " segment, key ended"
  | .unterminatedText => "unterminated string segment"
  | .badText fault => "string segment: " ++ fault.message
  | .truncatedInteger => "truncated integer segment"
  | .strayRow key => "unexpected namespace row key " ++ key
  | .misplacedRecord key name => "row " ++ key ++ " holds record for `" ++ name ++ "`"
  | .unwritable reason => reason
  | .unreadable reason => reason

/-- Why the bytes of a log are not a log. -/
inductive LogFault
  | stated (reason : String)
  | badMagic (offset : Nat)
  | badVersion (version offset : Nat)
  | badChecksum (offset : Nat)
  | unknownType (type : UInt8) (offset : Nat)
  | payloadEnded
  | badFlag (flag : UInt8)
  | trailingBytes (read length : Nat)
  deriving DecidableEq, Repr

/-- The cause as a sentence. -/
def LogFault.message : LogFault → String
  | .stated reason => reason
  | .badMagic o => "invalid magic at offset " ++ toString o
  | .badVersion v o => "unsupported log version " ++ toString v ++ " at offset " ++ toString o
  | .badChecksum o => "checksum mismatch at offset " ++ toString o
  | .unknownType t o => "unknown frame type " ++ toString t.toNat ++ " at offset " ++ toString o
  | .payloadEnded => "unexpected end of payload"
  | .badFlag f => "invalid value flag " ++ toString f.toNat
  | .trailingBytes read length =>
    "trailing bytes in frame payload: expected " ++ toString read ++ " bytes, got " ++
      toString length

/-- Why an operation is not permitted now. -/
inductive Misuse
  | stated (reason : String)
  | alreadyCommitted (tx : TxId)
  | alreadyAborted (tx : TxId)
  | notInProgress (tx : TxId)
  | noTransaction
  /-- The table's buffer already serves the transaction `tx`. -/
  | alreadyAttached (table : String) (tx : TxId)
  | entryTooLarge
  deriving DecidableEq, Repr

/-- The cause as a sentence. -/
def Misuse.message : Misuse → String
  | .stated reason => reason
  | .alreadyCommitted tx => "transaction " ++ tx.label ++ " already committed"
  | .alreadyAborted tx => "transaction " ++ tx.label ++ " already aborted"
  | .notInProgress tx => "transaction " ++ tx.label ++ " is not in progress"
  | .noTransaction => "no transaction in progress"
  | .alreadyAttached table tx => "table `" ++ table ++ "` already attached to " ++ tx.label
  | .entryTooLarge => "table log entry too large"

/-- Failures of the catalog. -/
inductive Error
  | storage (cause : StorageError)
  | io (fault : IoFault)
  | validation (fault : InputFault)
  /-- Another transaction committed or reserved `count` of the changes of `tx` first. -/
  | conflict (tx : TxId) (count : Nat)
  /-- The body of a transaction failed, and the transaction was rolled back. -/
  | application (source : Error)
  /-- The table could not be obtained. -/
  | initialization (table : String) (source : Error)
  | interrupted
  | codec (fault : CodecFault)
  | logCorruption (fault : LogFault)
  | storeLocked
  | invalidOperation (misuse : Misuse)
  deriving DecidableEq, Repr, Inhabited

/-- The coarse class of a failure. -/
inductive ErrorKind
  | validation
  | conflict
  | application
  | initialization
  | interrupted
  | internal
  deriving DecidableEq, Repr

/-- The kind as a word. -/
def ErrorKind.label : ErrorKind → String
  | validation => "Validation"
  | conflict => "Conflict"
  | application => "Application"
  | initialization => "Initialization"
  | interrupted => "Interrupted"
  | internal => "Internal"

namespace Error

/-- The failure as a sentence. -/
def message : Error → String
  | storage cause => "storage error: " ++ cause.message
  | io fault => "I/O error: " ++ fault.message
  | validation fault => "validation failed: " ++ fault.message
  | conflict tx count =>
    "transaction " ++ tx.label ++ " conflicts with " ++ toString count ++ " committed change(s)"
  | application source => "transaction body failed: " ++ source.message
  | initialization table source => "table `" ++ table ++ "` unavailable: " ++ source.message
  | interrupted => "operation interrupted"
  | codec fault => "codec error: " ++ fault.message
  | logCorruption fault => "table log corruption: " ++ fault.message
  | storeLocked => "store locked: another process has exclusive access"
  | invalidOperation misuse => "invalid operation: " ++ misuse.message

/-- The class of a failure. -/
def kind : Error → ErrorKind
  | validation _ => .validation
  | conflict _ _ => .conflict
  | application _ => .application
  | initialization _ _ => .initialization
  | interrupted => .interrupted
  | storage _ | io _ | codec _ | logCorruption _ | storeLocked | invalidOperation _ => .internal

/-- Is another attempt worth while? -/
def isConflict (e : Error) : Bool := e.kind = .conflict

/-- The failure reported when `e` ended the body of a transaction. -/
def inBody : Error → Error
  | conflict tx count => conflict tx count
  | application source => application source
  | interrupted => interrupted
  | e => application e

@[simp] theorem inBody_inBody (e : Error) : e.inBody.inBody = e.inBody := by
  cases e <;> rfl

@[simp] theorem isConflict_inBody (e : Error) : e.inBody.isConflict = e.isConflict := by
  cases e <;> rfl

end Error

instance decidableEqExcept {ε α : Type} [DecidableEq ε] [DecidableEq α] : DecidableEq (Except ε α)
  | .ok a, .ok b => decidable_of_iff (a = b) ⟨congrArg _, Except.ok.inj⟩
  | .error e, .error e' => decidable_of_iff (e = e') ⟨congrArg _, Except.error.inj⟩
  | .ok _, .error _ => isFalse fun h => by cases h
  | .error _, .ok _ => isFalse fun h => by cases h

/-- What is made of a result is there if the result is. -/
theorem map_eq_ok_iff {ε α β : Type} {f : α → β} {r : Except ε α} {b : β} :
    r.map f = .ok b ↔ ∃ a, r = .ok a ∧ f a = b := by
  cases r <;> simp [Except.map]

theorem map_eq_error_iff {ε α β : Type} {f : α → β} {r : Except ε α} {e : ε} :
    r.map f = .error e ↔ r = .error e := by
  cases r <;> simp [Except.map]

end NamespaceCatalog
