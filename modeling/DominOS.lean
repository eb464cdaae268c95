import DominOS.BlockTiling
import DominOS.Fallible
import DominOS.Runs
import DominOS.PageAllocator
import DominOS.PageAllocatorChain
import DominOS.PageAllocatorSpec
import DominOS.PageAllocatorFree
import DominOS.PageAllocatorRuns
import DominOS.PageAllocatorTotal
import DominOS.IntrusiveLists
import DominOS.FifoLog
import DominOS.ProcessState
import DominOS.ProcessTask
import DominOS.ProcessLife
import DominOS.ProcessMsg
import DominOS.ProcessMachine
import DominOS.ProcessInv
import DominOS.ProcessEffect
import DominOS.ProcessSpec
import DominOS.ProcessTalk
import DominOS.ProcessOutcome
import DominOS.ProcessLifeSpec
import DominOS.ProcessWaitSpec
import DominOS.ProcessStory
import DominOS.ProcessBooks
import DominOS.ProcessMail
import DominOS.ProcessMailQuiet
import DominOS.ProcessMailTalk
import DominOS.ProcessMsgSpec
import DominOS.ProcessResetSpec
import DominOS.ProcessFate
import DominOS.ProcessSteps
import DominOS.ProcessRuns
import DominOS.MsgHeap
import DominOS.MsgHeapSpec
import DominOS.MsgHeapRuns
import DominOS.ProcessOccupancy
import DominOS.ProcessDelivery
import DominOS.ProcessOrder
import DominOS.ProcessStatus
import DominOS.ProcessFirstDead
import DominOS.Simulation
import DominOS.ProcessShift
import DominOS.ProcessShiftCalls
import DominOS.ProcessSaved
import DominOS.ProcessCapacity
import DominOS.ProcessReleased
import DominOS.ProcessPids
import DominOS.PidAllocator
import DominOS.ProcessRejects
import DominOS.Rotation
import DominOS.ProcessTurns
import DominOS.ProcessAside
import DominOS.ProcessSleep
import DominOS.X86
import DominOS.KernelEntry
import DominOS.Paging
import DominOS.PagingSpec
import DominOS.PageMaps
import DominOS.PageWords
import DominOS.AddressSpaces
import DominOS.AddressSpacesSpec
import DominOS.StartStack
import DominOS.AddressSpacesBooks
import DominOS.AddressSpacesRuns
import DominOS.TaskStart
import DominOS.SharedPages
import DominOS.ProbeOrder
import DominOS.HashTable
import DominOS.HashTableLookup
import DominOS.HashTableSpec
import DominOS.HashTableResize
import DominOS.HashTableRuns
import DominOS.Keyboard
import DominOS.KeyboardRuns
import DominOS.ByteMemory
import DominOS.Cga
import DominOS.CgaSpec
import DominOS.LinkedRings
import DominOS.PointerQueue
import DominOS.PointerQueueSpec
import DominOS.ShellLine
import DominOS.HashTableFailure
import DominOS.HashTableEntries
import DominOS.Leases
import DominOS.Shm
import DominOS.ShmSpec
import DominOS.ShmRuns
import DominOS.ShmFailure
import DominOS.PageDirectories
import DominOS.PageDirectoriesSpec
import DominOS.ProcessHoldings
import DominOS.ProcessReclaim
import DominOS.ProcessPointers
import DominOS.UserAccess
import DominOS.UserAccessRuns
import DominOS.Unwinding
import DominOS.ProcessQueueView
import DominOS.ProcessQueueFrame
import DominOS.ProcessQueueAside
import DominOS.ProcessQueueCalls
import DominOS.ProcessQueueResets
import DominOS.ProcessQueueRuns
import DominOS.ProcessPicks
import DominOS.NumberText
import DominOS.Doprnt
import DominOS.DoprntSpec
import DominOS.DoprntFormats
import DominOS.DoprntFields
import DominOS.DoprntItems
import DominOS.Strtol
import DominOS.Sprintf
import DominOS.Printf
import DominOS.WordMemory
import DominOS.ContextSwitch
import DominOS.TaskSwitches
import DominOS.EarlyMm
import DominOS.Scancode
import DominOS.KeyboardDriver
import DominOS.KeyboardModifiers
import DominOS.Defkeymap
import DominOS.KeyboardHeld
