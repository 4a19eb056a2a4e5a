import ShadPS4.Memory.Errors
import ShadPS4.Memory.Protection
import ShadPS4.Memory.Flexible
import ShadPS4.Memory.Pooled
import ShadPS4.Memory.Marks
import ShadPS4.Memory.FreeExact
import ShadPS4.Guest.Memory
import ShadPS4.D3D12.EncoderRuns
import ShadPS4.AddressSpace.WindowsRuns
import ShadPS4.D3D12.BridgeRuns
import ShadPS4.VideoCore.TrackerRuns
import ShadPS4.VideoCore.RegionProtection
import ShadPS4.Gcn.ScopesSpec
import ShadPS4.VideoCore.BufferCacheRuns
import ShadPS4.VideoCore.BufferSyncState
import ShadPS4.VideoCore.ImageSyncState
import ShadPS4.VideoCore.StreamBufferRuns
import ShadPS4.Kernel.OrbisSemRuns
import ShadPS4.Kernel.EventFlagRuns
import ShadPS4.Kernel.PthreadSemRuns
import ShadPS4.Kernel.RwlockRuns
import ShadPS4.IR.FlattenRuns
import ShadPS4.Kernel.CondvarRuns
import ShadPS4.Kernel.HrTimer
import ShadPS4.Kernel.WaitOrder
import ShadPS4.Kernel.Once
import ShadPS4.Kernel.PthreadSpec
import ShadPS4.AmdGpu.ComputeRuns
import ShadPS4.Network.HttpRuns
import ShadPS4.Uwp.ParamSfoRuns
import ShadPS4.VideoCore.PipelineSerializationSpec
import ShadPS4.Memory.AvailableSpec
import ShadPS4.Memory.FirstFit
import ShadPS4.Memory.QuerySpec
import ShadPS4.Memory.NameSpec
import ShadPS4.Memory.BackingWrites
import ShadPS4.Guest.ImportKeys
import ShadPS4.FileSys.Consistency
import ShadPS4.FileSys.Containment
import ShadPS4.FileSys.HandleTable
import ShadPS4.Uwp.KernelClock
import ShadPS4.Guest.StartupPages
import ShadPS4.Common.LastRange
import ShadPS4.Common.LruCache
import ShadPS4.Common.SlotStorage
import ShadPS4.IR.SsaRuns
import ShadPS4.IR.PackFormatsSpec
import ShadPS4.IR.AncillaryUsers
import ShadPS4.IR.SharedSimplify
import ShadPS4.IR.SharedToStorage
import ShadPS4.IR.SharedBarrier
import ShadPS4.Kernel.Fiber
import ShadPS4.Common.RangeLock
import ShadPS4.Rtc.TickAdd
import ShadPS4.Rtc.DosTime
import ShadPS4.VideoCore.PipelineBounds
import ShadPS4.VideoCore.ImagePages
import ShadPS4.Network.SweepPath
