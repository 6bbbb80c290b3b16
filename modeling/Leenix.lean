import Leenix.Proc.Queues
import Leenix.Proc.Current
import Leenix.Proc.Teardown
import Leenix.Proc.Critical
import Leenix.Proc.Privilege
import Leenix.Proc.Priority
import Leenix.Proc.RoundRobin
import Leenix.Proc.Terminated
import Leenix.Proc.Coherence
import Leenix.Proc.Registry
import Leenix.Proc.ElfStores
import Leenix.Proc.ElfImage
import Leenix.Proc.Isolation
import Leenix.Proc.SpawnImage
import Leenix.Proc.Dispatch
import Leenix.Proc.TrapStack
import Leenix.Proc.ElfReads
import Leenix.Proc.AllOrNothing
import Leenix.Proc.ForkFailure
import Leenix.Proc.ForkCopy
import Leenix.Proc.ThreadLists
import Leenix.Proc.Refinement
import Leenix.Proc.Progress
import Leenix.Fs.Vfs
import Leenix.Fs.Chain
import Leenix.Fs.Sequential
import Leenix.Fs.Accesses
import Leenix.Fs.Paths
import Leenix.Fs.Clipping
import Leenix.Fs.Sectors
import Leenix.Fs.Failures
import Leenix.Fs.Names
import Leenix.Fs.Answers
import Leenix.Fs.Layout
import Leenix.Fs.Survival
import Leenix.Fs.Packing
import Leenix.Fs.Conversions
import Leenix.Driver.Timer
import Leenix.Driver.Registry
import Leenix.Driver.ReadErrors
import Leenix.Driver.Motor
import Leenix.Driver.FdcAnswers
import Leenix.Driver.FdcReads
import Leenix.Libc.Strtol
import Leenix.Libc.Printf
import Leenix.Init.ShellSafety
import Leenix.Boot.Stage2
import Leenix.Boot.Mmap
import Leenix.Init.Ptwalk
import Leenix.Libc.Numbers
import Leenix.Tests.Streams
import Leenix.Tests.Utoa
import Leenix.Fs.Floppy
import Leenix.Init.Protection
