import ChainAudit.Address
import ChainAudit.Chain.Head
import ChainAudit.Chain.Heights
import ChainAudit.Chain.Issue
import ChainAudit.Chain.Node
import ChainAudit.Cli.Arguments
import ChainAudit.Cli.CommandError
import ChainAudit.Cli.Execute
import ChainAudit.Cli.Options
import ChainAudit.Cli.Tables
import ChainAudit.Cli.Transcript
import ChainAudit.Cli.Usage
import ChainAudit.Clock.Moment
import ChainAudit.Clock.Span
import ChainAudit.Decimal.Binary
import ChainAudit.Decimal.Layout
import ChainAudit.Decimal.Reading
import ChainAudit.Decimal.Shortest
import ChainAudit.Http.Exchange
import ChainAudit.Http.Gateway
import ChainAudit.Http.HeadApi
import ChainAudit.Http.Status
import ChainAudit.Http.Url
import ChainAudit.Http.Webhook
import ChainAudit.Json.Canonical
import ChainAudit.Json.Fault
import ChainAudit.Json.Literal
import ChainAudit.Json.Reader
import ChainAudit.Json.Token
import ChainAudit.Json.Tree
import ChainAudit.Json.Value
import ChainAudit.Limiter.Acquire
import ChainAudit.Limiter.Bucket
import ChainAudit.Limiter.Quantity
import ChainAudit.Log.Event
import ChainAudit.Log.Filter
import ChainAudit.Log.Sink
import ChainAudit.Main
import ChainAudit.Monitor
import ChainAudit.Notice.Backoff
import ChainAudit.Notice.Decision
import ChainAudit.Notice.Delivery
import ChainAudit.Notice.Response
import ChainAudit.Pass.Failure
import ChainAudit.Pass.Heads
import ChainAudit.Pass.Report
import ChainAudit.Pass.Run
import ChainAudit.Proofs.Address
import ChainAudit.Proofs.Chain.Documents
import ChainAudit.Proofs.Chain.Exact
import ChainAudit.Proofs.Chain.Head
import ChainAudit.Proofs.Chain.Heights
import ChainAudit.Proofs.Chain.LinkForms
import ChainAudit.Proofs.Chain.Links
import ChainAudit.Proofs.Chain.Missing
import ChainAudit.Proofs.Clock
import ChainAudit.Proofs.Decimal.Amounts
import ChainAudit.Proofs.Decimal.Arithmetic
import ChainAudit.Proofs.Decimal.Doubles
import ChainAudit.Proofs.Decimal.Rounding
import ChainAudit.Proofs.Decimal.Spelling
import ChainAudit.Proofs.Growth.Chain
import ChainAudit.Proofs.Growth.OutOfOrder
import ChainAudit.Proofs.Growth.Rising
import ChainAudit.Proofs.Http.HeadApi
import ChainAudit.Proofs.Json.Accepted
import ChainAudit.Proofs.Json.Forms
import ChainAudit.Proofs.Json.Grammar
import ChainAudit.Proofs.Json.Literals
import ChainAudit.Proofs.Json.Objects
import ChainAudit.Proofs.Json.Records
import ChainAudit.Proofs.Json.Surroundings
import ChainAudit.Proofs.Json.Trees
import ChainAudit.Proofs.Json.Values
import ChainAudit.Proofs.Limiter.Accepted
import ChainAudit.Proofs.Limiter.Bucket
import ChainAudit.Proofs.Limiter.Callers
import ChainAudit.Proofs.Limiter.Contention
import ChainAudit.Proofs.Limiter.Doubles
import ChainAudit.Proofs.Limiter.OnClock
import ChainAudit.Proofs.Limiter.Rounds
import ChainAudit.Proofs.Limiter.Sequence
import ChainAudit.Proofs.Limiter.Tally
import ChainAudit.Proofs.Limiter.Throughput
import ChainAudit.Proofs.Limiter.Timely
import ChainAudit.Proofs.Limiter.Unserved
import ChainAudit.Proofs.Monitor.Course
import ChainAudit.Proofs.Monitor.Pass
import ChainAudit.Proofs.Notice.Delivery
import ChainAudit.Proofs.Notice.Response
import ChainAudit.Proofs.Notice.Script
import ChainAudit.Proofs.Pass.Accounts
import ChainAudit.Proofs.Pass.Agreement
import ChainAudit.Proofs.Pass.Coherence
import ChainAudit.Proofs.Pass.FirstPass
import ChainAudit.Proofs.Pass.Ledger
import ChainAudit.Proofs.Pass.Repeated
import ChainAudit.Proofs.Pass.Run
import ChainAudit.Proofs.Pass.Series
import ChainAudit.Proofs.Pass.Stuck
import ChainAudit.Proofs.Pass.Undelayed
import ChainAudit.Proofs.Pass.Verify
import ChainAudit.Proofs.Schedule.Alone
import ChainAudit.Proofs.Schedule.Company
import ChainAudit.Proofs.Schedule.Crowd
import ChainAudit.Proofs.Schedule.Ensures
import ChainAudit.Proofs.Schedule.Erasure
import ChainAudit.Proofs.Schedule.Notes
import ChainAudit.Proofs.Schedule.Prompt
import ChainAudit.Proofs.Schedule.Punctual
import ChainAudit.Proofs.Schedule.Turns
import ChainAudit.Proofs.Schedule.Visits
import ChainAudit.Proofs.Schedule.Yields
import ChainAudit.Proofs.Settings.Masked
import ChainAudit.Proofs.Settings.Projects
import ChainAudit.Proofs.Settings.Variables
import ChainAudit.Proofs.Signal
import ChainAudit.Proofs.Store.Account
import ChainAudit.Proofs.Store.Alone
import ChainAudit.Proofs.Store.Fetch
import ChainAudit.Proofs.Store.Memory
import ChainAudit.Proofs.Summary.Merging
import ChainAudit.Proofs.Summary.Totals
import ChainAudit.Proofs.Table
import ChainAudit.Proofs.Text
import ChainAudit.Proofs.Tracker
import ChainAudit.Proofs.Tracker.Commits
import ChainAudit.Proofs.Walk
import ChainAudit.Proofs.Walk.Alone
import ChainAudit.Proofs.Walk.Bounds
import ChainAudit.Proofs.Walk.Path
import ChainAudit.Proofs.Walk.Stopped
import ChainAudit.Proofs.Wire
import ChainAudit.Schedule.Activity
import ChainAudit.Schedule.Pool
import ChainAudit.Settings.Basic
import ChainAudit.Settings.Check
import ChainAudit.Settings.Document
import ChainAudit.Settings.Masked
import ChainAudit.Settings.Project
import ChainAudit.Settings.Variables
import ChainAudit.Setup
import ChainAudit.Signal
import ChainAudit.Store.Basic
import ChainAudit.Store.Memory
import ChainAudit.Summary.Basic
import ChainAudit.Summary.Totals
import ChainAudit.Table
import ChainAudit.Text.Blank
import ChainAudit.Text.Letters
import ChainAudit.Text.Numeral
import ChainAudit.Text.Printable
import ChainAudit.Text.Quoted
import ChainAudit.Text.Segments
import ChainAudit.Text.Utf8
import ChainAudit.Tracker
import ChainAudit.Walk
