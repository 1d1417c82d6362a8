import Hqemu.Exec.CheckRange
import Hqemu.Exec.MmapContent
import Hqemu.Llvm.MsQueueLinear
import Hqemu.Llvm.Dbo
import Hqemu.Llvm.StateMapping
import Hqemu.Llvm.LoopMapping
import Hqemu.Llvm.HelperInfo
import Hqemu.Llvm.GuestBase
import Hqemu.Llvm.GuestFold
import Hqemu.Llvm.TcgTranslation
import Hqemu.Llvm.Chaining
import Hqemu.Llvm.RegionCfg
import Hqemu.Llvm.ConnectRegions
import Hqemu.Llvm.TraceBuilder
import Hqemu.Llvm.JitMemory
import Hqemu.Llvm.OpCall
import Hqemu.Exec.CodeWrites
import Hqemu.Exec.FindPc
import Hqemu.Exec.FindVma
import Hqemu.Exec.PhysPages
import Hqemu.Exec.Prediction
import Hqemu.Exec.NetTrace
import Hqemu.Net.Delivery
import Hqemu.Net.ServerFlush
import Hqemu.Net.TraceReply
import Hqemu.Net.TraceRequest
import Hqemu.Net.Noninterference
import Hqemu.Net.StaleRegions
import Hqemu.Net.Locks
import Hqemu.Block.Dirty
import Hqemu.Block.MultiwriteCb
import Hqemu.Block.Dma
import Hqemu.Block.VdiConcurrent
import Hqemu.Block.BottomHalves
import Hqemu.Block.AioHandlers
import Hqemu.Block.Refcounts
import Hqemu.Migration.BufferedFile
import Hqemu.Migration.PutBuffer
import Hqemu.Migration.BlockMigration
import Hqemu.Json.Strings
import Hqemu.Tcg.Liveness
import Hqemu.Tcg.Chunks
