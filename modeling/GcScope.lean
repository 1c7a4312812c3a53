import GcScope.Cli.StatsTable
import GcScope.Lib.Blocks
import GcScope.Lib.Firsts
import GcScope.Lib.Forest
import GcScope.Lib.Grouping
import GcScope.Lib.Guarded
import GcScope.Lib.HexText
import GcScope.Lib.HighWater
import GcScope.Lib.Json
import GcScope.Lib.JsonText
import GcScope.Lib.JsonWriter
import GcScope.Lib.ListFacts
import GcScope.Lib.LittleEndian
import GcScope.Lib.Logged
import GcScope.Lib.MachineInt
import GcScope.Lib.Mealy
import GcScope.Lib.Outline
import GcScope.Lib.OverwritingRing
import GcScope.Lib.Paced
import GcScope.Lib.Recency
import GcScope.Lib.Rows
import GcScope.Lib.Runs
import GcScope.Lib.StableSort
import GcScope.Lib.Ties
import GcScope.ListPids.Rows
import GcScope.ListPids.Table
import GcScope.Monitor.Bookkeeping
import GcScope.Monitor.Checked
import GcScope.Monitor.Chrome
import GcScope.Monitor.ChromeTrace
import GcScope.Monitor.Context
import GcScope.Monitor.Cursor
import GcScope.Monitor.CursorSteps
import GcScope.Monitor.Eviction
import GcScope.Monitor.Export
import GcScope.Monitor.History
import GcScope.Monitor.Isolation
import GcScope.Monitor.Ledger
import GcScope.Monitor.Lifecycle
import GcScope.Monitor.Loss
import GcScope.Monitor.LossSound
import GcScope.Monitor.OrderFree
import GcScope.Monitor.Outputs
import GcScope.Monitor.Reconcile
import GcScope.Monitor.Reuse
import GcScope.Monitor.RunLoop
import GcScope.Monitor.Selection
import GcScope.Monitor.Statistics
import GcScope.Monitor.SummaryJson
import GcScope.Monitor.SummaryTable
import GcScope.Monitor.TraceEvent
import GcScope.Monitor.TraceOrder
import GcScope.Monitor.TraceValid
import GcScope.Monitor.TraceView
import GcScope.Monitor.Vanished
import GcScope.Probe.Callback
import GcScope.Probe.Complete
import GcScope.Probe.Decode
import GcScope.Probe.Published
import GcScope.Probe.Race
import GcScope.Probe.RaceAccount
import GcScope.Probe.Region
import GcScope.Probe.Slots
import GcScope.Probe.Timeline
import GcScope.RemoteDebugging.Attach
import GcScope.RemoteDebugging.ChainAddresses
import GcScope.RemoteDebugging.ChainWalk
import GcScope.RemoteDebugging.GcStat
import GcScope.RemoteDebugging.Image
import GcScope.RemoteDebugging.ImageSafe
import GcScope.RemoteDebugging.LayoutCache
import GcScope.RemoteDebugging.Legacy
import GcScope.RemoteDebugging.OffsetTable
import GcScope.RemoteDebugging.Registry
import GcScope.RemoteDebugging.RingShape
import GcScope.RemoteDebugging.RuntimeSearch
import GcScope.RemoteDebugging.Session
import GcScope.RemoteDebugging.Validation
import GcScope.RemoteDebugging.VersionScan
import GcScope.RemoteDebugging.VersionText
import GcScope.Scripts.Sweep
import GcScope.Snapshot.Averages
import GcScope.Snapshot.Collect
import GcScope.Snapshot.Coverage
import GcScope.Snapshot.Overflow
import GcScope.Snapshot.Poller
import GcScope.Tui.DebugTree
import GcScope.Tui.Glitch
import GcScope.Tui.GlitchSafe
import GcScope.Tui.GlitchTimer
import GcScope.Tui.HexDump
import GcScope.Tui.PidDialog
import GcScope.Tui.RingView
import GcScope.Tui.RunTui
import GcScope.Tui.Tree
