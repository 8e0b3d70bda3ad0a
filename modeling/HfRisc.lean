import HfRisc.Crt.Run
import HfRisc.Lib.BlockWalk
import HfRisc.Lib.BusyPeriod
import HfRisc.Lib.Chain
import HfRisc.Lib.Digits
import HfRisc.Lib.FreeRuns
import HfRisc.Lib.Ieee
import HfRisc.Lib.LongDivision
import HfRisc.Lib.Mailbox
import HfRisc.Lib.Mask
import HfRisc.Lib.Multiplication
import HfRisc.Lib.Rijndael
import HfRisc.Lib.Rounding
import HfRisc.Lib.Segments
import HfRisc.Lib.Serial
import HfRisc.Lib.Text
import HfRisc.Lib.UpDown
import HfRisc.Lib.While
import HfRisc.Lib.WordBytes
import HfRisc.Mips.AluSpec
import HfRisc.Mips.Circuit
import HfRisc.Mips.Control
import HfRisc.Mips.Datapath
import HfRisc.Mips.Sequential
import HfRisc.Mips.SimRows
import HfRisc.Mips.SimSpec
import HfRisc.Mips.Simulator
import HfRisc.Mips.Spec
import HfRisc.Pipe.CoreIm
import HfRisc.Pipe.Mixed
import HfRisc.Pipe.Refinement
import HfRisc.Pipe.Straight
import HfRisc.Pipe.Traps
import HfRisc.Results.AesAgreement
import HfRisc.Results.AesLite
import HfRisc.Results.AesLiteCbc
import HfRisc.Results.AesTiny
import HfRisc.Results.AesTinyCbc
import HfRisc.Results.CacheClock
import HfRisc.Results.CacheFinish
import HfRisc.Results.CacheModel
import HfRisc.Results.CoSimulation
import HfRisc.Results.CoreRefinement
import HfRisc.Results.InterruptCalls
import HfRisc.Results.InterruptLocality
import HfRisc.Results.InterruptService
import HfRisc.Results.MipsAgreement
import HfRisc.Results.MipsCoSimulation
import HfRisc.Results.MipsMultiply
import HfRisc.Results.RtConservation
import HfRisc.Results.RtContexts
import HfRisc.Results.RtIdentifiers
import HfRisc.Results.RtMemory
import HfRisc.Results.RtSelection
import HfRisc.Results.RtStale
import HfRisc.Results.RtStates
import HfRisc.Results.RtWrap
import HfRisc.Results.Rv32iCalls
import HfRisc.Results.Rv32iExceptions
import HfRisc.Results.Rv32iInterrupts
import HfRisc.Results.Rv32iRegisters
import HfRisc.Results.Rv32iRestore
import HfRisc.Results.Rv32iStall
import HfRisc.Results.Rv32imInterrupts
import HfRisc.Results.Rv32imMultiply
import HfRisc.Results.SimDivision
import HfRisc.Results.SimRefinement
import HfRisc.Results.SimStep
import HfRisc.Results.SimZero
import HfRisc.Results.SoftDelay
import HfRisc.Results.SoftFixed
import HfRisc.Results.SoftFloatCompare
import HfRisc.Results.SoftFloatInt
import HfRisc.Results.SoftFloatProduct
import HfRisc.Results.SoftFloatQuotient
import HfRisc.Results.SoftFloatSum
import HfRisc.Results.SoftFloatWord
import HfRisc.Results.SoftFormat
import HfRisc.Results.SoftFtoa
import HfRisc.Results.SoftHeap
import HfRisc.Results.SoftInt64
import HfRisc.Results.SoftList
import HfRisc.Results.SoftNumbers
import HfRisc.Results.SoftStrings
import HfRisc.Results.SoftStrtok
import HfRisc.Results.SpiSramMemory
import HfRisc.Results.SpiTransfer
import HfRisc.Results.StepAgreement
import HfRisc.Results.Timer1
import HfRisc.Results.Uart
import HfRisc.Results.XteaCbc
import HfRisc.Results.XteaCore
import HfRisc.Results.XteaDriver
import HfRisc.Rt.Budget
import HfRisc.Rt.Contexts
import HfRisc.Rt.First
import HfRisc.Rt.Memory
import HfRisc.Rt.MemorySpec
import HfRisc.Rt.Registry
import HfRisc.Rt.Switch
import HfRisc.Rt.Workload
import HfRisc.Rtl.AluSpec
import HfRisc.Rtl.SpiMaster
import HfRisc.Rtl.SpiMasterSlave
import HfRisc.Rtl.SpiPair
import HfRisc.Rtl.SpiSram
import HfRisc.Rtl.SpiSramAccess
import HfRisc.Rtl.SpiSramCtrl
import HfRisc.Rtl.SpiSramData
import HfRisc.Rtl.SpiSramSystem
import HfRisc.Rtl.Uart
import HfRisc.Rtl.UartFrame
import HfRisc.Rtl.UartPort
import HfRisc.Rtl.Xtea
import HfRisc.Soft.AesLite
import HfRisc.Soft.AesTiny
import HfRisc.Soft.Arena
import HfRisc.Soft.Delay
import HfRisc.Soft.Divide
import HfRisc.Soft.Fixed
import HfRisc.Soft.FixedPrint
import HfRisc.Soft.FixedSqrt
import HfRisc.Soft.Float
import HfRisc.Soft.FloatAdd
import HfRisc.Soft.FloatDiv
import HfRisc.Soft.FloatInt
import HfRisc.Soft.FloatMacros
import HfRisc.Soft.FloatMul
import HfRisc.Soft.FloatSum
import HfRisc.Soft.FloatWord
import HfRisc.Soft.Format
import HfRisc.Soft.HeapInvariant
import HfRisc.Soft.HeapRun
import HfRisc.Soft.HeapSpec
import HfRisc.Soft.Int64
import HfRisc.Soft.List
import HfRisc.Soft.ListSpec
import HfRisc.Soft.Malloc
import HfRisc.Soft.Memory
import HfRisc.Soft.Print
import HfRisc.Soft.Scan
import HfRisc.Soft.Strings
import HfRisc.Soft.Xtea
import HfRisc.Soft.XteaCbc
