import ExpiringCache.Arithmetic
import ExpiringCache.Binary64
import ExpiringCache.Binary64.Scaling
import ExpiringCache.Binary64.Shortest
import ExpiringCache.Clock
import ExpiringCache.Codec
import ExpiringCache.ExpiryPolicy
import ExpiringCache.Holder
import ExpiringCache.Holder.Validity
import ExpiringCache.Holder.View
import ExpiringCache.Jitter
import ExpiringCache.Json.FloatText
import ExpiringCache.Json.Format
import ExpiringCache.Json.Mismatch
import ExpiringCache.Json.ModeText
import ExpiringCache.Json.Numeral
import ExpiringCache.Json.Quoted
import ExpiringCache.Json.Reader
import ExpiringCache.Json.Sequence
import ExpiringCache.Json.Skip
import ExpiringCache.Json.UserSession
import ExpiringCache.KeyTable
import ExpiringCache.Proofs.Clock.RoundTrip
import ExpiringCache.Proofs.Clock.Span
import ExpiringCache.Proofs.Holder.ExactLimits
import ExpiringCache.Proofs.Store.Decomposition
import ExpiringCache.Proofs.Store.Freshness
import ExpiringCache.Proofs.Store.Kept
import ExpiringCache.Proofs.Store.Lookup
import ExpiringCache.Proofs.Store.Moves
import ExpiringCache.Proofs.Store.NewEntry
import ExpiringCache.Proofs.SweepSchedule.Simulation
import ExpiringCache.Session
import ExpiringCache.Session.Operation
import ExpiringCache.Settings
import ExpiringCache.Statistics
import ExpiringCache.Store
import ExpiringCache.Store.Put
import ExpiringCache.Store.Read
import ExpiringCache.Store.Sweep
import ExpiringCache.SweepSchedule
import ExpiringCache.Text.Blank
import ExpiringCache.Text.Decimal
import ExpiringCache.Text.Utf8
import ExpiringCache.WriteMode
import ExpiringCache.Proofs.Session.Marks
import ExpiringCache.Proofs.Session.Publication
import ExpiringCache.Proofs.Store.SweepEffect
import ExpiringCache.Proofs.TimedMap
import ExpiringCache.Proofs.TimedMap.Refinement
import ExpiringCache.Proofs.TimedMap.Simulation
import ExpiringCache.Proofs.Binary64.Range
import ExpiringCache.Proofs.Json.NumberText
import ExpiringCache.Proofs.Json.QuotedText
import ExpiringCache.Proofs.Json.RoundTrip
import ExpiringCache.Proofs.Json.CutText
import ExpiringCache.Proofs.Json.SelfDelimiting
import ExpiringCache.Proofs.Holder.Agreement
import ExpiringCache.Proofs.Store.Agreement
import ExpiringCache.Proofs.Session.WriteModes
import ExpiringCache.Proofs.Session.SweepAndReaders
import ExpiringCache.Proofs.Session.Accounts
import ExpiringCache.Proofs.Session.Statistics
import ExpiringCache.Proofs.Holder.Dated
import ExpiringCache.Proofs.Store.FurtherSweeps
import ExpiringCache.Proofs.Session.FurtherSweeps
import ExpiringCache.Proofs.TimedMap.Readable
import ExpiringCache.Proofs.Jitter.Stream
import ExpiringCache.Proofs.Jitter.AcceptedWords
import ExpiringCache.Proofs.Holder.RandomDelay
import ExpiringCache.Proofs.Holder.UniformDelay
import ExpiringCache.Proofs.Holder.Fate
import ExpiringCache.Proofs.Store.RacingReads
import ExpiringCache.Proofs.Store.Evolution
import ExpiringCache.Proofs.Session.Evolution
import ExpiringCache.Proofs.Session.AbsoluteLimit
import ExpiringCache.Proofs.Session.StaysExpired
import ExpiringCache.Proofs.Session.Failures
import ExpiringCache.Proofs.Session.RacingReads
import ExpiringCache.Proofs.Session.ReadsAlike
import ExpiringCache.Proofs.Session.Releases
import ExpiringCache.Proofs.SweepSchedule.Slices
import ExpiringCache.Proofs.SweepSchedule.Runs
import ExpiringCache.Proofs.Session.SweepTasks
import ExpiringCache.Proofs.Session.ClearedEntries
import ExpiringCache.Proofs.Session.EntryEffect
import ExpiringCache.Proofs.Session.Commuting
import ExpiringCache.Proofs.Clock.Shift
import ExpiringCache.Proofs.Holder.Shift
import ExpiringCache.Proofs.Store.Shift
import ExpiringCache.Proofs.Session.Shift
import ExpiringCache.Proofs.Holder.ExactValidity
import ExpiringCache.Proofs.Store.Touching
import ExpiringCache.Proofs.Store.TouchedLife
import ExpiringCache.Proofs.Store.RandomLimit
import ExpiringCache.Proofs.Session.HolderFields
import ExpiringCache.Proofs.Binary64.Rounding
import ExpiringCache.Proofs.Binary64.ShortestRange
import ExpiringCache.Proofs.Json.NumeralText
import ExpiringCache.Proofs.Json.FloatReading
import ExpiringCache.Proofs.Store.SerializedEntries
import ExpiringCache.Proofs.Text.DecimalReading
import ExpiringCache.Proofs.Text.Trimming
import ExpiringCache.Proofs.Settings.ExactReading
