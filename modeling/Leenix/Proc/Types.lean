import Leenix.Mm.Vmm

/-!
# The kernel state of proc/process.c

Threads and processes are heap objects, and so are the pointers between them:
the ready queues are intrusive lists through `nextReady`, a process's threads an
intrusive list through `next` (process.h:26–47). `Kernel` holds these heaps, the
file's static variables, and the parts of the machine that the scheduler
touches: the interrupt flag, the TSS stack pointer, the memory of the kernel
stacks, and the registers the last switch loaded.

Every store to `queue[]`, `queue_tail[]` or a `next_ready` link of a linked
thread goes through `setQueue`, `setQueueTail` or `setNextReady`, which record
in `writes` whether interrupts were disabled at that moment.
-/

namespace Leenix

/-- `PROCESS_PRI_MAX`: the largest index of the queue arrays. -/
def processPriMax : Nat := 10

/-- `PROCESS_PRI_DEFAULT`. -/
def processPriDefault : Nat := 5

/-- `SLICE`: timer ticks per dispatch. -/
def slice : Nat := 5

/-- The values of the `state` fields (process.h:15–18). -/
inductive RunState
  | terminated
  | blocked
  | ready
  | running
deriving DecidableEq, Repr

/-- `process_t`. -/
structure Process where
  pid : Nat
  name : List Byte
  threads : Option Ptr
  priority : Nat
  dir : Option Ptr
  state : RunState
deriving DecidableEq, Repr

/-- `thread_t`. `kernel` and `trapFrame` are addresses in kernel memory, `0`
when null. -/
structure Thread where
  tid : Nat
  priority : Nat
  state : RunState
  parent : Option Ptr
  kernel : Nat
  timeSlice : Nat
  trapFrame : Nat
  next : Option Ptr
  nextReady : Option Ptr
deriving DecidableEq, Repr

/-- A memory cell of the ready queues. -/
inductive QueueCell
  | queue (priority : Nat)
  | queueTail (priority : Nat)
  | nextReady (thread : Ptr)
deriving DecidableEq, Repr

/-- A store to a ready-queue cell and whether interrupts were disabled. -/
structure QueueWrite where
  cell : QueueCell
  interruptsOff : Bool
deriving DecidableEq, Repr

/-- The state of proc/process.c and of the machine under it. -/
structure Kernel where
  procs : Heap Process
  threads : Heap Thread
  currentProc : Option Ptr
  currentThread : Option Ptr
  /-- `process_table[128]` -/
  processTable : List (Option Ptr)
  currentPid : Nat
  currentTid : Nat
  /-- `queue[PROCESS_PRI_MAX + 1]` -/
  queue : Nat → Option Ptr
  /-- `queue_tail[PROCESS_PRI_MAX + 1]` -/
  queueTail : Nat → Option Ptr
  /-- The interrupt flag: `true` when interrupts are enabled. -/
  ints : Bool
  /-- The kernel spins in the idle loop of `thread_exit`, interrupts off. -/
  halted : Bool
  /-- Stores to ready-queue cells, newest first. -/
  writes : List QueueWrite
  mem : Mem
  cpu : Cpu
  /-- `global_tss->esp0` -/
  esp0 : Nat
  vm : Vm

/-- The code around the sources: the memory manager's object file, and the
address the linker gave `thread_exit`. -/
structure Platform where
  vmm : Vmm
  threadExit : Nat

namespace Kernel

def cli (s : Kernel) : Kernel := { s with ints := false }

def sti (s : Kernel) : Kernel := { s with ints := true }

/-- Change the fields of a live thread. -/
def updateThread (s : Kernel) (t : Ptr) (f : Thread → Thread) : Option Kernel :=
  (s.threads.lookup t).map fun th => { s with threads := s.threads.insert t (f th) }

/-- Change the fields of a live process. -/
def updateProcess (s : Kernel) (p : Ptr) (f : Process → Process) : Option Kernel :=
  (s.procs.lookup p).map fun pr => { s with procs := s.procs.insert p (f pr) }

/-- Record a store to a ready-queue cell. -/
def logWrite (s : Kernel) (c : QueueCell) : Kernel :=
  { s with writes := ⟨c, !s.ints⟩ :: s.writes }

/-- `queue[i] = v`. -/
def setQueue (s : Kernel) (i : Nat) (v : Option Ptr) : Kernel :=
  { s.logWrite (.queue i) with queue := Function.update s.queue i v }

/-- `queue_tail[i] = v`. -/
def setQueueTail (s : Kernel) (i : Nat) (v : Option Ptr) : Kernel :=
  { s.logWrite (.queueTail i) with queueTail := Function.update s.queueTail i v }

/-- `t->next_ready = v`. -/
def setNextReady (s : Kernel) (t : Ptr) (v : Option Ptr) : Option Kernel :=
  (s.logWrite (.nextReady t)).updateThread t fun th => { th with nextReady := v }

/-- The `next_ready` link of each live thread. -/
def nextReady (s : Kernel) : Ptr → Option (Option Ptr) := proj Thread.nextReady s.threads

/-- The `next` link of each live thread. -/
def next (s : Kernel) : Ptr → Option (Option Ptr) := proj Thread.next s.threads

/-- Bound for the pointer walks: a walk that visits more nodes than there are
live threads is in a cycle and never ends. -/
def walkFuel (s : Kernel) : Nat := s.threads.keys.card

end Kernel

end Leenix
