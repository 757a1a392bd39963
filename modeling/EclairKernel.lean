import EclairKernel.AshmemInvariant
import EclairKernel.AshmemPurge
import EclairKernel.ArenaRun
import EclairKernel.BinderRefsRun
import EclairKernel.PmemSubmap
import EclairKernel.LoggerRun
import EclairKernel.WakelockProc
import EclairKernel.Wakelock
import EclairKernel.PageAllocRun
import EclairKernel.MmapRun
import EclairKernel.FilterReads
import EclairKernel.FileLockDeadlock
import EclairKernel.RadixTreeRun
import EclairKernel.TimerRun
import EclairKernel.Kfifo
import EclairKernel.SeqFile
import EclairKernel.YaffsEccOther
import EclairKernel.VsprintfTruncate
import EclairKernel.FsrMounted
import EclairKernel.FsrPartition
import EclairKernel.RbPointersRemove
import EclairKernel.IdrRun
import EclairKernel.AshmemOrder
import EclairKernel.PmemAccess
import EclairKernel.FdTableRun
import EclairKernel.PipeRun
import EclairKernel.SemUndo
import EclairKernel.PrioHeap
import EclairKernel.FileLockMap
import EclairKernel.FileLock
import EclairKernel.BitmapShift
import EclairKernel.ResourceFit
import EclairKernel.ResourceSplit
