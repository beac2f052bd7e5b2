import Mcsos.WordArithmetic
import Mcsos.BoundedLoop
import Mcsos.StepRun
import Mcsos.BitTable
import Mcsos.PmmState
import Mcsos.PmmFrameSet
import Mcsos.PmmRange
import Mcsos.PmmBootMap
import Mcsos.PmmBootMeaning
import Mcsos.PmmRefinement
import Mcsos.PmmReservation
import Mcsos.PmmSafety
import Mcsos.ByteMemory
import Mcsos.CLibMemory
import Mcsos.LinkedQueue
import Mcsos.RoundRobin
import Mcsos.SchedState
import Mcsos.SchedRunQueue
import Mcsos.SchedValidator
import Mcsos.SchedRefinement
import Mcsos.SchedCalls
import Mcsos.SchedInvariants
import Mcsos.SchedHistory
import Mcsos.RegisterMachine
import Mcsos.ContextSwitch
import Mcsos.Syscall
import Mcsos.SyscallCallbacks
import Mcsos.BlockList
import Mcsos.KmemState
import Mcsos.KmemHeap
import Mcsos.KmemOps
import Mcsos.KmemInit
import Mcsos.KmemRuns
import Mcsos.KmemShape
import Mcsos.KmemValidator
import Mcsos.KmemContents
import Mcsos.KmemEffects
import Mcsos.RadixTree
import Mcsos.VmmState
import Mcsos.VmmTables
import Mcsos.VmmRefinement
import Mcsos.VmmActions
import Mcsos.VmmWalk
import Mcsos.VmmOwnership
import Mcsos.VmmCalls
import Mcsos.VmmRights
import Mcsos.VmmTlb
import Mcsos.VmmSpaces
import Mcsos.VmmSwitching
import Mcsos.VmmContexts
import Mcsos.KernelMemory
import Mcsos.VmmFootprint
import Mcsos.FrameAccounting
import Mcsos.Pic8259
import Mcsos.Interrupts
import Mcsos.KernelRuns
import Mcsos.StackMachine
import Mcsos.InterruptEntry
import Mcsos.NestedTraps
import Mcsos.Uart16550
import Mcsos.SerialLog
import Mcsos.TextFormat
import Mcsos.LogRecords
import Mcsos.TrapReport
import Mcsos.SyscallConsole
import Mcsos.SchedAccounting
import Mcsos.KernelThreads
import Mcsos.BootLog
