import SyncJobs.Account
import SyncJobs.Agenda
import SyncJobs.Assembly
import SyncJobs.Attempt
import SyncJobs.Backoff
import SyncJobs.Binary64
import SyncJobs.Binary64.Decimal
import SyncJobs.Binary64.Shortest
import SyncJobs.ChaCha
import SyncJobs.CommandLine
import SyncJobs.Crockford
import SyncJobs.Decision
import SyncJobs.Demonstration
import SyncJobs.Dispatch
import SyncJobs.Domain
import SyncJobs.Id
import SyncJobs.Id.Source
import SyncJobs.Interleave
import SyncJobs.Jitter
import SyncJobs.Job
import SyncJobs.Json
import SyncJobs.Json.Fields
import SyncJobs.Json.Reader
import SyncJobs.Json.Writer
import SyncJobs.Keyed
import SyncJobs.Main
import SyncJobs.Outcome
import SyncJobs.Pool
import SyncJobs.Program
import SyncJobs.Registry
import SyncJobs.Rehearsal
import SyncJobs.Scheduler
import SyncJobs.Settings
import SyncJobs.Simulation
import SyncJobs.Status
import SyncJobs.Store
import SyncJobs.Store.Connection
import SyncJobs.Store.Disturbed
import SyncJobs.Store.Document
import SyncJobs.Store.Memory
import SyncJobs.Store.Row
import SyncJobs.Store.Table
import SyncJobs.Summary
import SyncJobs.Time.Calendar
import SyncJobs.Time.Duration
import SyncJobs.Time.Instant
import SyncJobs.Time.Text
import SyncJobs.Toml
import SyncJobs.Toml.Reader
import SyncJobs.Verdict
import SyncJobs.World
import SyncJobs.Proofs.History
import SyncJobs.Proofs.Ledger
import SyncJobs.Proofs.Tracking
import SyncJobs.Proofs.Fencing
import SyncJobs.Proofs.IdTexts
import SyncJobs.Proofs.Rows
import SyncJobs.Proofs.Shadow
import SyncJobs.Proofs.Lives
import SyncJobs.Proofs.Magnitudes
import SyncJobs.Proofs.Shortest
import SyncJobs.Proofs.NumberTexts
import SyncJobs.Proofs.FloatTexts
import SyncJobs.Proofs.JsonText
import SyncJobs.Proofs.Permits
import SyncJobs.Proofs.Window
import SyncJobs.Proofs.Refinement
import SyncJobs.Proofs.Staleness
import SyncJobs.Proofs.Shelf
import SyncJobs.Proofs.Attempts
import SyncJobs.Proofs.Turns
import SyncJobs.Proofs.Journal
import SyncJobs.Proofs.Origins
import SyncJobs.Proofs.Advance
import SyncJobs.Proofs.InFlight
import SyncJobs.Proofs.Rounding
import SyncJobs.Proofs.Progress
import SyncJobs.Proofs.Exchanges
import SyncJobs.Proofs.Alone
import SyncJobs.Proofs.Drain
import SyncJobs.Proofs.Outlook
import SyncJobs.Proofs.Moves
import SyncJobs.Proofs.Listing
import SyncJobs.Proofs.Arrangement
import SyncJobs.Proofs.Overtaking
import SyncJobs.Proofs.Totals
import SyncJobs.Proofs.StepsLeft
import SyncJobs.Proofs.Ending
import SyncJobs.Proofs.Passes
import SyncJobs.Proofs.Summaries
import SyncJobs.Proofs.Counting
import SyncJobs.Proofs.AnyOrder
import SyncJobs.Proofs.Reckoning
import SyncJobs.Proofs.Cleanup
import SyncJobs.Proofs.Apart
import SyncJobs.Proofs.Shuffles
import SyncJobs.Proofs.Dispenser
import SyncJobs.Proofs.Rivals
import SyncJobs.Proofs.Openings
import SyncJobs.Proofs.Recovery
import SyncJobs.Proofs.Arrivals
import SyncJobs.Proofs.Failures
import SyncJobs.Proofs.Snapshots
import SyncJobs.Proofs.Legibility
import SyncJobs.Proofs.Sifting
import SyncJobs.Proofs.Groups
import SyncJobs.Proofs.Rounds
import SyncJobs.Proofs.Ranks
import SyncJobs.Proofs.Candidates
import SyncJobs.Proofs.Deferral
import SyncJobs.Proofs.Delays
import SyncJobs.Proofs.Interruptions
import SyncJobs.Proofs.RecoveredOrder
import SyncJobs.Proofs.Deadline
import SyncJobs.Proofs.IdSources
import SyncJobs.Proofs.Filing
import SyncJobs.Proofs.Queueing
import SyncJobs.Proofs.Requests
import SyncJobs.Proofs.Calendar
import SyncJobs.Proofs.TimeTexts
import SyncJobs.Proofs.Doubling
import SyncJobs.Proofs.Records
