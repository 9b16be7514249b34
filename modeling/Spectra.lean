import Spectra.Hostwatch.EngineScopes
import Spectra.Heap.OrderIndependence
import Spectra.Heap.ParsersAgree
import Spectra.Daemon.Quiescence
import Spectra.Daemonclient.Replies
import Spectra.Hostwatch.SpawnStore
import Spectra.Issues.Lifecycle
import Spectra.Jvm.CurrentSample
import Spectra.Jvm.SaveAtomic
import Spectra.Metrics.History
import Spectra.Cache.LastWrite
import Spectra.Daemonclient.Wakeup
import Spectra.Dbinspect.PasswordHiding
import Spectra.Diff.Reversible
import Spectra.Helper.CaptureSessions
import Spectra.Helper.RateLimit
import Spectra.Netcap.Segmentation
import Spectra.Netproto.HeaderSecrets
import Spectra.Snapshot.DetectCache
import Spectra.Heap.CompareTotals
import Spectra.Heap.InstanceFields
import Spectra.Heap.LeakTotals
import Spectra.Heap.Truncation
import Spectra.Hostwatch.SustainedApart
import Spectra.Hostwatch.SustainedComplete
import Spectra.Jvm.AgentArguments
import Spectra.Jvm.ThreadLocks
import Spectra.Hostwatch.CpuDeltas
import Spectra.Hostwatch.ProbeFailure
import Spectra.Hostwatch.Samples
import Spectra.Netcap.PacketEncoding
import Spectra.Netcap.PcapTruncation
import Spectra.Netcap.Reassembly
import Spectra.Netproto.ClientHello
import Spectra.Netproto.DnsNames
import Spectra.Diff.PathDirs
import Spectra.Process.LinuxProc
import Spectra.Snapshot.CacheKeys
import Spectra.Helper.Framing
import Spectra.Storage.Growth
import Spectra.Rules.VersionCompare
import Spectra.Cachetriage.Triage
