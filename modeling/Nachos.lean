import Nachos.Threads.SynchList
import Nachos.Threads.MailboxPairs
import Nachos.Threads.Whale
import Nachos.Threads.SchedulerCalls
import Nachos.Threads.PriorityQueues
import Nachos.Threads.SortedListRuns
import Nachos.Threads.Carcass
import Nachos.Threads.Join
import Nachos.Threads.Switch
import Nachos.Threads.Waiting
import Nachos.Machine.InterruptOrder
import Nachos.Machine.DiskLatency
import Nachos.Machine.Crashes
import Nachos.Bin.UninitData
import Nachos.Userprog.BitMapSet
import Nachos.Userprog.BackingStoreName
import Nachos.Userprog.ArgumentArea
import Nachos.Userprog.PageFaults
import Nachos.Userprog.Eviction
import Nachos.Userprog.Processes
import Nachos.Userprog.ExitStatus
import Nachos.Userprog.ConsoleInput
import Nachos.Userprog.PipedRead
import Nachos.Userprog.Pipelines
import Nachos.Userprog.ReadArgument
import Nachos.Userprog.JoinCalls
import Nachos.Userprog.Slots
import Nachos.Userprog.DelayedLoads
import Nachos.Userprog.SystemCalls
import Nachos.Userprog.ThreadSpace
import Nachos.Userprog.Computers
import Nachos.Filesys.FileArray
import Nachos.Filesys.FileSize
import Nachos.Filesys.SynchDisk
import Nachos.Network.MailTest
import Nachos.Filesys.Commands
