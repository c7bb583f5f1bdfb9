import Ccmetrics.Theory.Run
import Ccmetrics.Theory.Chain
import Ccmetrics.Theory.Alone
import Ccmetrics.Theory.Ring
import Ccmetrics.Theory.OrderedMap
import Ccmetrics.Theory.Largest
import Ccmetrics.Theory.Spread
import Ccmetrics.Theory.Smoothing
import Ccmetrics.Theory.Interpolation
import Ccmetrics.Hazard.Pointers
import Ccmetrics.Hazard.Ownership
import Ccmetrics.Hazard.Cover
import Ccmetrics.Hazard.Clients
import Ccmetrics.Striped.Machine
import Ccmetrics.Striped.Layout
import Ccmetrics.Striped.Conservation
import Ccmetrics.Striped.Reclaim
import Ccmetrics.Striped.Slabs
import Ccmetrics.Striped.Reads
import Ccmetrics.Striped.Heap
import Ccmetrics.Hazard.Calls
import Ccmetrics.Hazard.Holding
import Ccmetrics.Hazard.Conserve
import Ccmetrics.Hazard.Records
import Ccmetrics.Hazard.Lone
import Ccmetrics.Hazard.Alone
import Ccmetrics.Hazard.Bounded
import Ccmetrics.Hazard.Sweep
import Ccmetrics.Hazard.Slots
import Ccmetrics.Hazard.Destroy
import Ccmetrics.SkipList.Machine
import Ccmetrics.SkipList.Steps
import Ccmetrics.SkipList.Level0
import Ccmetrics.SkipList.Towers
import Ccmetrics.SkipList.Heights
import Ccmetrics.SkipList.Agreement
import Ccmetrics.SkipList.Lookup
import Ccmetrics.SkipList.Extract
import Ccmetrics.SkipList.Quiescent
import Ccmetrics.SkipList.Counts
import Ccmetrics.SkipList.Records
import Ccmetrics.SkipList.Alone
import Ccmetrics.SkipList.Walk
import Ccmetrics.SkipList.Parts
import Ccmetrics.SkipList.Progress
import Ccmetrics.SkipList.Spins
import Ccmetrics.SkipList.Sequential
import Ccmetrics.SkipList.Reclaim
import Ccmetrics.SkipList.Release
import Ccmetrics.ThreadLocal.Storage
import Ccmetrics.ThreadLocal.Ids
import Ccmetrics.ThreadLocal.Locality
import Ccmetrics.ThreadLocal.Released
import Ccmetrics.Reservoir.Update
import Ccmetrics.Reservoir.Rescale
import Ccmetrics.Reservoir.Sampling
import Ccmetrics.Reservoir.Concurrent
import Ccmetrics.Snapshot.Stdev
import Ccmetrics.Snapshot.Quantile
import Ccmetrics.Snapshot.Mean
import Ccmetrics.Meter.Rate
import Ccmetrics.Reporting.Graphite
import Ccmetrics.Reservoir.Deleted
import Ccmetrics.Theory.Numbering
import Ccmetrics.Theory.Lines
import Ccmetrics.Registry.Metrics
import Ccmetrics.Reporting.Paths
import Ccmetrics.Theory.Linearize
import Ccmetrics.SkipList.Linearize
import Ccmetrics.Hazard.Emptied
import Ccmetrics.SkipList.Lifetime
import Ccmetrics.Striped.Reset
import Ccmetrics.Theory.Account
import Ccmetrics.Striped.Drain
import Ccmetrics.Meter.Concurrent
import Ccmetrics.Meter.Events
import Ccmetrics.Theory.Amortize
import Ccmetrics.Striped.Progress
import Ccmetrics.Striped.Added
import Ccmetrics.Registry.Counting
import Ccmetrics.ThreadLocal.Lazy
import Ccmetrics.Reservoir.Guarded
import Ccmetrics.Reservoir.Decay
import Ccmetrics.Reservoir.Deadlines
