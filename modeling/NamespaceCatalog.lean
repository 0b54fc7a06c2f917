import NamespaceCatalog.Bytes
import NamespaceCatalog.Catalog.Basic
import NamespaceCatalog.Catalog.Home
import NamespaceCatalog.Catalog.Operation
import NamespaceCatalog.Catalog.Roster
import NamespaceCatalog.Catalog.Sample
import NamespaceCatalog.Catalog.Shared
import NamespaceCatalog.Cbor.Basic
import NamespaceCatalog.Cbor.Document
import NamespaceCatalog.Config
import NamespaceCatalog.Document
import NamespaceCatalog.Error
import NamespaceCatalog.Executor
import NamespaceCatalog.Journal.Basic
import NamespaceCatalog.Journal.Checksum
import NamespaceCatalog.Journal.Entry
import NamespaceCatalog.Journal.Replay
import NamespaceCatalog.Json.Basic
import NamespaceCatalog.Json.Document
import NamespaceCatalog.Key.Basic
import NamespaceCatalog.Key.Reader
import NamespaceCatalog.Proofs.Alone
import NamespaceCatalog.Proofs.Alterations
import NamespaceCatalog.Proofs.Annals
import NamespaceCatalog.Proofs.Atomicity
import NamespaceCatalog.Proofs.Attachments
import NamespaceCatalog.Proofs.Attempts
import NamespaceCatalog.Proofs.Calls
import NamespaceCatalog.Proofs.CborItems
import NamespaceCatalog.Proofs.Checksums
import NamespaceCatalog.Proofs.Chronicle
import NamespaceCatalog.Proofs.Compactions
import NamespaceCatalog.Proofs.Copies
import NamespaceCatalog.Proofs.Course
import NamespaceCatalog.Proofs.Damage
import NamespaceCatalog.Proofs.Delays
import NamespaceCatalog.Proofs.Disks
import NamespaceCatalog.Proofs.Documents
import NamespaceCatalog.Proofs.Fitting
import NamespaceCatalog.Proofs.FrameReading
import NamespaceCatalog.Proofs.Frames
import NamespaceCatalog.Proofs.Histories
import NamespaceCatalog.Proofs.Homes
import NamespaceCatalog.Proofs.Horizons
import NamespaceCatalog.Proofs.Journals
import NamespaceCatalog.Proofs.JsonText
import NamespaceCatalog.Proofs.KeyOrder
import NamespaceCatalog.Proofs.KeyPrefixes
import NamespaceCatalog.Proofs.KeyReading
import NamespaceCatalog.Proofs.Keys
import NamespaceCatalog.Proofs.Ledgers
import NamespaceCatalog.Proofs.Linearizability
import NamespaceCatalog.Proofs.Loading
import NamespaceCatalog.Proofs.Mirrors
import NamespaceCatalog.Proofs.Pruning
import NamespaceCatalog.Proofs.Readers
import NamespaceCatalog.Proofs.Recovery
import NamespaceCatalog.Proofs.Rehearsals
import NamespaceCatalog.Proofs.Reopening
import NamespaceCatalog.Proofs.Retries
import NamespaceCatalog.Proofs.Rosters
import NamespaceCatalog.Proofs.Scene
import NamespaceCatalog.Proofs.Service
import NamespaceCatalog.Proofs.Sessions
import NamespaceCatalog.Proofs.Sharing
import NamespaceCatalog.Proofs.Sheets
import NamespaceCatalog.Proofs.Sites
import NamespaceCatalog.Proofs.Sleeps
import NamespaceCatalog.Proofs.Snapshot
import NamespaceCatalog.Proofs.Stoppages
import NamespaceCatalog.Proofs.StoredRecords
import NamespaceCatalog.Proofs.Tidiness
import NamespaceCatalog.Proofs.TornFrames
import NamespaceCatalog.Proofs.TornTails
import NamespaceCatalog.Proofs.Undoing
import NamespaceCatalog.Proofs.Versions
import NamespaceCatalog.Proofs.Workloads
import NamespaceCatalog.Record.Basic
import NamespaceCatalog.Record.Document
import NamespaceCatalog.Record.Format
import NamespaceCatalog.Record.Rows
import NamespaceCatalog.Record.Sample
import NamespaceCatalog.Rehearsal.Part
import NamespaceCatalog.Rehearsal.Run
import NamespaceCatalog.Retry
import NamespaceCatalog.Signal
import NamespaceCatalog.Site
import NamespaceCatalog.Sleep
import NamespaceCatalog.Storage.Disk
import NamespaceCatalog.Storage.Stream
import NamespaceCatalog.Table.Basic
import NamespaceCatalog.Table.Cached
import NamespaceCatalog.Table.Operation
import NamespaceCatalog.Table.Overlay
import NamespaceCatalog.Table.Source
import NamespaceCatalog.Table.Supplier
import NamespaceCatalog.Table.Version
import NamespaceCatalog.Text.Hidden
import NamespaceCatalog.Text.Quoted
import NamespaceCatalog.Text.Rounded
import NamespaceCatalog.Text.Utf8
import NamespaceCatalog.Transaction.Basic
import NamespaceCatalog.Transaction.Coordinator
import NamespaceCatalog.Workload
import NamespaceCatalog.World
