import LedgerApi.Library.Text
import LedgerApi.Library.Digest
import LedgerApi.Library.Decimal
import LedgerApi.Library.DecimalContext
import LedgerApi.Library.DecimalReader
import LedgerApi.Library.HashChain
import LedgerApi.Library.LockOrder
import LedgerApi.Library.Json
import LedgerApi.Library.JsonReader
import LedgerApi.Library.Faults
import LedgerApi.Library.Hiding
import LedgerApi.Library.Grouping
import LedgerApi.Library.Ordering
import LedgerApi.Library.Paging
import LedgerApi.Library.Seek
import LedgerApi.Library.Dedup
import LedgerApi.Library.Sequencing
import LedgerApi.Schemas
import LedgerApi.Postgres
import LedgerApi.Chain
import LedgerApi.Service
import LedgerApi.Api
import LedgerApi.Audit
import LedgerApi.Reads
import LedgerApi.Consumer
import LedgerApi.Posting
import LedgerApi.History
import LedgerApi.Interference
import LedgerApi.Annotation
import LedgerApi.Commit
import LedgerApi.Runs
import LedgerApi.Consistency
import LedgerApi.Serializability
import LedgerApi.Balances
import LedgerApi.AuditSoundness
import LedgerApi.HashCommitment
import LedgerApi.Idempotency
import LedgerApi.DeadlockFreedom
import LedgerApi.Retries
import LedgerApi.Replays
import LedgerApi.Reconciliation
import LedgerApi.Statements
import LedgerApi.Listings
import LedgerApi.Events
import LedgerApi.Application
import LedgerApi.Relay
import LedgerApi.Delivery
import LedgerApi.EventOrder
import LedgerApi.AppendOnly
import LedgerApi.EntryListing
import LedgerApi.StatementWindows
import LedgerApi.Views
import LedgerApi.Movements
import LedgerApi.ColdStart
import LedgerApi.KeyReuse
import LedgerApi.RowEdits
import LedgerApi.RelaySafety
import LedgerApi.Draining
import LedgerApi.Migration
import LedgerApi.Library.Reading
import LedgerApi.Library.Extension
import LedgerApi.Library.Provenance
import LedgerApi.Library.Outcomes
import LedgerApi.Library.Progress
import LedgerApi.Auth
import LedgerApi.Growth
import LedgerApi.LiveAudit
import LedgerApi.LiveReads
import LedgerApi.Endpoints
import LedgerApi.ServiceRuns
import LedgerApi.Access
import LedgerApi.Durability
import LedgerApi.Revisions
import LedgerApi.Lifecycle
import LedgerApi.Library.JsonLines
import LedgerApi.Logging
import LedgerApi.ClientListings
