import NamespaceCatalog.Record.Format
import NamespaceCatalog.Retry

/-!
# Settings of a catalog
-/

namespace NamespaceCatalog

/-- The settings of a catalog. -/
structure Config where
  /-- The table that holds the records. -/
  tableName : String
  /-- The policy for conflicting transactions. -/
  retry : FixedRetry
  /-- How long a table is used before it is asked for again, in nanoseconds. -/
  ttl : Nat
  /-- Is the log brought to the disk with every commit? -/
  sync : Bool
  /-- The format of stored records. -/
  format : Format
  deriving DecidableEq, Repr

namespace Config

/-- The settings of a catalog for which nothing else is asked. -/
def standard : Config := ⟨"namespaces", FixedRetry.standard, 300000000000, true, .json⟩

/-- The delay before another attempt after attempt number `attempt` failed; `none` to give up. -/
def delay? (c : Config) (failure : Error) (attempt : Nat) : Option Nat :=
  (RetryPolicy.fixed c.retry).delay? 0 failure attempt

/-- The settings as diagnostics show them. -/
def describe (c : Config) : String :=
  "StoreConfig \x7b table_name: " ++ Text.quoted c.tableName ++ ", retry: " ++ c.retry.describe ++
    ", table_cache_ttl: " ++ Text.duration c.ttl ++ ", sync_on_commit: " ++ Text.word c.sync ++
    ", value_format: " ++ c.format.label ++ " \x7d"

end Config

end NamespaceCatalog
