import Machina.TbChain
import Machina.GdbServer
import Machina.LoongIrq
import Machina.LoongGid
import Machina.LoongFastRun
import Machina.RoundFlags
import Machina.DirtyRun
import Machina.Breakpoints
import Machina.FoldAgree
import Machina.LivenessSpec
import Machina.RegallocRegs
import Machina.MemoryFlat
import Machina.VirtFeatures
import Machina.GdbPackets
import Machina.SvSpec
import Machina.SerializeRound
import Machina.BitField
import Machina.InterruptOrder
import Machina.Clmul
import Machina.Rvm
import Machina.Reservation
import Machina.CsrViews
import Machina.GenFetch
import Machina.DecodeFields
import Machina.VirtualClock
import Machina.MinMax
import Machina.FloatToInt
import Machina.MObject
import Machina.Liointc
import Machina.VirtBlkData
import Machina.LoongInvtlb
import Machina.Monitor
