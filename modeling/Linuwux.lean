import Linuwux.Threads
import Linuwux.ReflexState
import Linuwux.ReflexHistory
import Linuwux.ReflexThreads
import Linuwux.ReflexAlone
import Linuwux.ReflexInvariant
import Linuwux.ReflexReaders
import Linuwux.ReflexHandler
import Linuwux.ReflexIds
import Linuwux.MarkerTable
import Linuwux.MarkerThreads
import Linuwux.MarkerView
import Linuwux.MarkerInvariant
import Linuwux.MarkerLeak
import Linuwux.MarkerExhaustion
import Linuwux.PatchState
import Linuwux.PatchThreads
import Linuwux.PatchInvariant
import Linuwux.PatchOneWay
import Linuwux.KuserPage
import Linuwux.PageGuard
import Linuwux.CpuIdentity
import Linuwux.RuntimeHost
import Linuwux.Chains
import Linuwux.Rings
import Linuwux.PendingFrees
import Linuwux.FreeGuard
import Linuwux.FreeWindow
import Linuwux.Machines
import Linuwux.SignalSlots
import Linuwux.Scans
import Linuwux.ThunkTails
import Linuwux.ProcMem
import Linuwux.RawSyscall
import Linuwux.Probing
import Linuwux.StubSet
import Linuwux.IatScan
import Linuwux.LateHooks
import Linuwux.MarkerCalls
import Linuwux.MarkerAlone
import Linuwux.DispatcherTarget
import Linuwux.SigsysRouter
import Linuwux.FakeTime
import Linuwux.X86
import Linuwux.DispatcherBridge
import Linuwux.CasLoops
import Linuwux.IdentityThreads
import Linuwux.ImageCopies
import Linuwux.ImageCopiesThreads
import Linuwux.Int2e
import Linuwux.TrampolineThreads
import Linuwux.Maps
import Linuwux.Int2ePatch
import Linuwux.Int2eFault
import Linuwux.CallerCache
import Linuwux.CallerCacheThreads
import Linuwux.ArtifactScan
import Linuwux.NativeCache
import Linuwux.SnapshotThreads
import Linuwux.SnapshotAlone
import Linuwux.SnapshotResets
import Linuwux.SnapshotForks
import Linuwux.BootstrapPool
import Linuwux.MapsChunks
import Linuwux.MapsParse
import Linuwux.Bisection
import Linuwux.PeExport
import Linuwux.LibC
import Linuwux.Gamescope
import Linuwux.Overrides
import Linuwux.GameExecutable
import Linuwux.Tokens
import Linuwux.DesktopList
import Linuwux.PendingLinks
import Linuwux.DebugLine
import Linuwux.SyscallHistory
import Linuwux.SyscallHistoryInvariant
import Linuwux.SyscallHistoryVisits
import Linuwux.BridgeInstall
import Linuwux.SlidingWindow
import Linuwux.Registry
import Linuwux.RegistrySections
import Linuwux.Wrapper
import Linuwux.ThunkRuns
import Linuwux.ReflexImage
import Linuwux.CpuReplies
import Linuwux.CpuidHandler
import Linuwux.FileMaps
import Linuwux.PeViews
import Linuwux.Walks
import Linuwux.LoaderList
import Linuwux.WindowList
import Linuwux.Descriptors
import Linuwux.SocketPair
import Linuwux.UnixlibRepair
