import GnuRadio.Theorems.Block.Retired
import GnuRadio.Theorems.Block.DroppedTail
import GnuRadio.Theorems.Block.Stride
import GnuRadio.Theorems.Block.TagPlacement
import GnuRadio.Theorems.CircularBuffer.Writers
import GnuRadio.Theorems.Scheduler.ChildMessages
import GnuRadio.Theorems.Scheduler.Deferred
import GnuRadio.Theorems.Scheduler.Resume
import GnuRadio.Theorems.Scheduler.Swap
import GnuRadio.Theorems.SegmentedBuffer.IndexBound
import GnuRadio.Theorems.Settings.Refusal
import GnuRadio.Theorems.Settings.Writers
import GnuRadio.Theorems.Yaml.RoundTrip
import GnuRadio.Theorems.Yaml.Structure
import GnuRadio.Theorems.ThreadPool.Accounting
import GnuRadio.Theorems.Graph.ExportedPorts
import GnuRadio.Theorems.PluginLoader
import GnuRadio.Theorems.Runtime
import GnuRadio.Theorems.SpinWait
import GnuRadio.Theorems.HistoryBuffer
import GnuRadio.Theorems.WriterClaims
import GnuRadio.Theorems.TriggerMatcher.SingleFilter
import GnuRadio.Theorems.Scheduler.RetryQueues
import GnuRadio.Theorems.Graph.LoopCover
import GnuRadio.Theorems.Scheduler.JobLists
import GnuRadio.Theorems.Scheduler.StrandedZombies
import GnuRadio.Theorems.Graph.Replacement
import GnuRadio.Theorems.Graph.RingSizes
import GnuRadio.Theorems.Graph.Components
import GnuRadio.Theorems.MultiProducer.Refused
import GnuRadio.Theorems.OutputPort.MarkerSlot
import GnuRadio.Theorems.Pmt.Order
import GnuRadio.Theorems.Block.NextTag
import GnuRadio.Theorems.Block.SimdDispatch
import GnuRadio.Theorems.Block.WallClock
import GnuRadio.Theorems.Settings.Limits
import GnuRadio.Theorems.Block.AlikeTags
import GnuRadio.Theorems.Block.TimerTask
import GnuRadio.Theorems.Block.Epilogue
import GnuRadio.Theorems.Pmt.Containers
import GnuRadio.Theorems.Block.EndMarker
import GnuRadio.Theorems.Block.WorkReports
import GnuRadio.Theorems.ThreadPool.TaskQueue
import GnuRadio.Theorems.ThreadPool.Constraints
import GnuRadio.Theorems.Ratio
import GnuRadio.Theorems.BlockRegistry
import GnuRadio.Theorems.Blocklib.Units
import GnuRadio.Theorems.Graph.Importer
import GnuRadio.Theorems.AtomicBitset
import GnuRadio.Theorems.RangesHelper
import GnuRadio.Theorems.Tools.GraphDoc
import GnuRadio.Theorems.Tools.Drawing
import GnuRadio.Theorems.ReaderWriterLock
import GnuRadio.Theorems.Block.Subscriptions
