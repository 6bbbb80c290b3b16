import Leenix.Proc.Types
import Leenix.Lib.Seg

/-!
# The functions of proc/process.c

Each definition follows the source function of the same name, statement by
statement, as a function on the kernel state. `none` means that the call has no
defined result: it dereferences a null or freed pointer, indexes outside a
queue array, or walks a cyclic list for ever. Results of `malloc` are arguments
(`none`, or address `0`, when it fails).
-/

namespace Leenix

namespace Kernel

variable (P : Platform)

/-- The first loop of `process_create`'s caller-visible effect: store the
process in the first free slot of the table, if there is one. -/
def tableInsert (table : List (Option Ptr)) (p : Ptr) : List (Option Ptr) :=
  table.set (table.idxOf none) (some p)

/-- The loop of `process_destroy` that clears the first slot holding `p`. -/
def tableRemove (table : List (Option Ptr)) (p : Ptr) : List (Option Ptr) :=
  table.set (table.idxOf (some p)) none

/-- The directory entries that a new process takes from the kernel's: entry 0
and the entries from 768 on (process.c:28, 33). -/
def SharedIndex (i : Nat) : Prop := i = 0 ∨ 768 ≤ i ∧ i < 1024

instance : DecidablePred SharedIndex := fun i => inferInstanceAs (Decidable (i = 0 ∨ _))

/-- Of the user's entries, only entry 0 is shared. -/
theorem SharedIndex.eq_zero {i : Nat} (h : SharedIndex i) (hi : i < 768) : i = 0 := by
  unfold SharedIndex at h
  omega

/-- `process_create` (process.c:21–46) on the object `p`. -/
def processCreate (s : Kernel) (p : Ptr) (name : List Byte) (priority : Nat) :
    Option Kernel := do
  let (dir, vm) := P.vmm.createAddressSpace s.vm
  let d ← dir
  let vm ← vm.copyEntries P.vmm.kerneldir d SharedIndex
  let process : Process :=
    { pid := s.currentPid
      name := name.take 31
      threads := none
      priority := priority
      dir := some d
      state := .ready }
  return { s with
    procs := s.procs.insert p process
    currentPid := s.currentPid + 1
    processTable := tableInsert s.processTable p
    vm := vm }

/-- `scheduler_post` (process.c:343–365). -/
def schedulerPost (s : Kernel) (thread : Option Ptr) : Option Kernel :=
  let s := s.cli
  match thread with
  | none => some s.sti
  | some t => do
    let th ← s.threads.lookup t
    if th.state = .terminated then
      return s.sti
    else
      let s ← s.updateThread t fun th => { th with state := .ready }
      let s ← s.setNextReady t none
      if th.priority ≤ processPriMax then
        match s.queue th.priority with
        | none => return ((s.setQueue th.priority (some t)).setQueueTail th.priority (some t)).sti
        | some _ =>
          -- the store goes through `queue_tail` unseen: a freed tail has no result
          let tail ← s.queueTail th.priority
          let s ← s.setNextReady tail (some t)
          return (s.setQueueTail th.priority (some t)).sti
      else none

/-- The dispatch loop that `scheduler_tick` and `thread_exit` share: from index
`n - 1` down to `0`, unlink the head of the first nonempty queue. -/
def takeReady (s : Kernel) : Nat → Option (Option Ptr × Kernel)
  | 0 => some (none, s)
  | i + 1 =>
    match s.queue i with
    | none => s.takeReady i
    | some t => do
      let th ← s.threads.lookup t
      -- `queue_tail` stays, also when the queue is empty afterwards
      let s := s.setQueue i th.nextReady
      let s ← s.setNextReady t none
      return (some t, s)

/-- The address space after a switch from a thread of process `old` to one of
process `new` (process.c:326–327). -/
def switchAddressSpace (s : Kernel) (old new : Option Ptr) : Option Vm :=
  if new = old then some s.vm
  else do
    let p ← new
    let pr ← s.procs.lookup p
    return (P.vmm.switchPagedir s.vm pr.dir).2

/-- `scheduler_switch` (process.c:322–342), up to and including the `iret`. -/
def schedulerSwitch (s : Kernel) (nextThread : Option Ptr) : Option Kernel :=
  match nextThread with
  | none => some s
  | some n =>
    -- a thread selected again keeps the state `scheduler_post` gave it
    if s.currentThread = some n then some s
    else do
      let th ← s.threads.lookup n
      let c ← s.currentThread
      let cur ← s.threads.lookup c
      let vm ← s.switchAddressSpace P cur.parent th.parent
      let s ← { s with
        vm := vm
        currentThread := some n
        currentProc := th.parent }.updateThread n fun th => { th with state := .running }
      let cpu := Cpu.resume s.mem th.trapFrame 0x10
      return { s with
        esp0 := if th.kernel = 0 then s.esp0 else u32 (th.kernel + 4 * 1024)
        cpu := cpu
        ints := decide (cpu.eflags / 512 % 2 = 1) }

/-- `--current_thread->time_slice`, a `uint32_t` that wraps below zero. -/
def sliceLeft (timeSlice : Nat) : Nat := if timeSlice = 0 then 2 ^ 32 - 1 else timeSlice - 1

/-- `scheduler_tick` (process.c:298–321). -/
def schedulerTick (s : Kernel) (context : Nat) : Option Kernel := do
  let c ← s.currentThread
  let th ← s.threads.lookup c
  let left := sliceLeft th.timeSlice
  let s ← s.updateThread c fun th => { th with trapFrame := context, timeSlice := left }
  if 0 < left then
    return s
  else
    let s ← s.updateThread c fun th => { th with timeSlice := slice }
    let s ← s.schedulerPost (some c)
    let (nextThread, s) ← s.takeReady processPriMax
    match nextThread with
    -- the loop starts below `PROCESS_PRI_MAX`, so it can miss the thread just posted
    | none => return s
    | some n => s.cli.schedulerSwitch P (some n)

/-- `thread_exit` (process.c:374–397). With every queue empty it never leaves
its idle loop. -/
def threadExit (s : Kernel) : Option Kernel := do
  let s := s.cli
  let c ← s.currentThread
  let s ← s.updateThread c fun th => { th with state := .terminated }
  let (nextThread, s) ← s.takeReady processPriMax
  match nextThread with
  | none => return { s with halted := true }
  | some n => s.schedulerSwitch P (some n)

/-- The context `thread_create` builds for a thread whose stack pointer starts
at `top` (process.c:189–211). -/
def threadContext (entry top : Nat) : InterruptContext :=
  let context := { InterruptContext.zero with eip := entry, esp := top, useresp := top }
  if entry = 0 ∨ kernelBase ≤ entry then
    { context with cs := 0x08, ds := 0x10, ss := 0x10, eflags := 0x202 }
  else
    { context with cs := 0x1B, ds := 0x23, ss := 0x23, eflags := 0x202 }

/-- The initial stack pointer in a stack block at `stack`: below the two words
pushed for a thread with an entry function. -/
def threadStackTop (entry stack : Nat) : Nat :=
  if entry = 0 then stack + 4 * 1024 else stack + 4 * 1024 - 8

/-- The stores of `thread_create` into the stack block: the argument and the
return address, then the context below them. -/
def threadStack (m : Mem) (entry arg stack : Nat) : Mem :=
  let top := stack + 4 * 1024
  let m :=
    if entry = 0 then m
    else Function.update (Function.update m (top - 4) arg) (top - 8) P.threadExit
  let top := threadStackTop entry stack
  InterruptContext.store m (top - InterruptContext.size) (threadContext entry top)

/-- `thread_create` (process.c:164–218). The allocation of the thread object is
not checked; that of its stack is. -/
def threadCreate (s : Kernel) (parentProcess : Ptr) (entry arg : Nat)
    (thread : Option Ptr) (stack : Nat) : Option (Option Ptr × Kernel) := do
  let t ← thread
  let tid := s.currentTid
  let s := { s with currentTid := s.currentTid + 1 }
  if stack = 0 then
    -- the thread object is freed, and the tid is used up
    return (none, s)
  else
    let pr ← s.procs.lookup parentProcess
    let th : Thread :=
      { tid := tid
        priority := processPriDefault
        state := .ready
        parent := some parentProcess
        kernel := stack
        timeSlice := slice
        trapFrame := threadStackTop entry stack - InterruptContext.size
        next := pr.threads
        nextReady := none }
    return (some t, { s with
      threads := s.threads.insert t th
      procs := s.procs.insert parentProcess { pr with threads := some t }
      mem := threadStack P s.mem entry arg stack })

/-- The part of `thread_destroy` that takes `t` out of its ready queue
(process.c:238–251). -/
def unlinkReady (s : Kernel) (t : Ptr) : Option Kernel := do
  let th ← s.threads.lookup t
  if th.priority ≤ processPriMax then
    let head := s.queue th.priority
    -- neither branch writes `queue_tail`
    if head = some t then
      return s.setQueue th.priority th.nextReady
    else
      let (prev, found) ← seek s.nextReady t s.walkFuel head head
      match found with
      | none => return s
      | some _ => s.setNextReady (← prev) th.nextReady
  else none

/-- The part of `thread_destroy` that takes `t` out of its process's thread
list (process.c:252–267). -/
def unlinkThread (s : Kernel) (t : Ptr) : Option Kernel := do
  let th ← s.threads.lookup t
  let p ← th.parent
  let pr ← s.procs.lookup p
  if pr.threads = some t then
    s.updateProcess p fun pr => { pr with threads := th.next }
  else
    match ← seekPrev s.next t s.walkFuel pr.threads with
    | none => return s
    | some prev => s.updateThread prev fun pv => { pv with next := th.next }

/-- `thread_destroy` (process.c:219–270): the C result and the state after. -/
def threadDestroy (s : Kernel) (thread : Option Ptr) : Option (Int × Kernel) :=
  let s := s.cli
  match thread with
  | none => some (-1, s.sti)
  | some t => do
    let th ← s.threads.lookup t
    if th.state = .running then
      return (-1, s.sti)
    else
      match th.parent with
      | none => return (-1, s.sti)
      | some p =>
        let pr ← s.procs.lookup p
        if pr.threads = none then
          return (-1, s.sti)
        else
          let s ← s.unlinkReady t
          let s ← s.unlinkThread t
          return (0, { s with threads := s.threads.erase t }.sti)

/-- The loop of `process_destroy` over a thread list: the link is read before
the thread is destroyed, and the result of `thread_destroy` is dropped. -/
def destroyThreads (s : Kernel) : Nat → Option Ptr → Option Kernel
  | _, none => some s
  | 0, some _ => none
  | n + 1, some t => do
    let th ← s.threads.lookup t
    let (_, s) ← s.threadDestroy (some t)
    s.destroyThreads n th.next

/-- `process_destroy` (process.c:47–76). -/
def processDestroy (s : Kernel) (p : Ptr) : Option Kernel := do
  let pr ← s.procs.lookup p
  if pr.state = .terminated then
    return s
  else
    let s ← s.updateProcess p fun pr => { pr with state := .terminated }
    let s := { s with processTable := tableRemove s.processTable p }
    -- a thread marked running refuses and stays behind, its process freed
    let s ← s.destroyThreads s.walkFuel pr.threads
    let pr ← s.procs.lookup p
    let vm :=
      match pr.dir with
      | none => s.vm
      | some d => (P.vmm.freeRegion s.vm d 0x0 0xC0000000).2.freeDir d
    return { s with vm := vm, procs := s.procs.erase p }

/-- The loop of `process_find_by_pid` over the slots that are left. After the
last one the function ends without a `return`, so the call has no value. -/
def findSlot (s : Kernel) (pid : Nat) : List (Option Ptr) → Option (Option Ptr)
  | [] => none
  | none :: entries => s.findSlot pid entries
  | some p :: entries => do
    let pr ← s.procs.lookup p
    if u32 pr.pid = pid then
      return some p
    else
      s.findSlot pid entries

/-- `process_find_by_pid` (process.c:142–151): the pointer it returns. -/
def processFindByPid (s : Kernel) (pid : Nat) : Option (Option Ptr) :=
  s.findSlot pid s.processTable

/-- The fields that `scheduler_init` leaves as `malloc` returned them. -/
structure Junk where
  name : List Byte
  priority : Nat
  next : Option Ptr
  nextReady : Option Ptr

/-- `scheduler_init` (process.c:271–297), with `kp` and `kt` the objects that
its two calls of `malloc` return. -/
def schedulerInit (s : Kernel) (kp kt : Ptr) (junk : Junk) : Kernel :=
  let kernelProcess : Process :=
    { pid := s.currentPid
      name := junk.name
      threads := some kt
      priority := junk.priority
      dir := some P.vmm.kerneldir
      state := .running }
  let kernelThread : Thread :=
    { tid := s.currentTid
      priority := 5
      state := .running
      parent := some kp
      kernel := 0
      timeSlice := slice
      trapFrame := 0
      next := junk.next
      nextReady := junk.nextReady }
  { s with
    procs := s.procs.insert kp kernelProcess
    threads := s.threads.insert kt kernelThread
    currentPid := s.currentPid + 1
    currentTid := s.currentTid + 1
    queue := fun _ => none
    queueTail := fun _ => none
    currentProc := some kp
    currentThread := some kt }

/-- The static initialisers of process.c, before `scheduler_init`. -/
def boot (mem : Mem) (cpu : Cpu) (vm : Vm) : Kernel where
  procs := ∅
  threads := ∅
  currentProc := none
  currentThread := none
  processTable := List.replicate 128 none
  currentPid := 1
  currentTid := 1
  queue := fun _ => none
  queueTail := fun _ => none
  ints := true
  halted := false
  writes := []
  mem := mem
  cpu := cpu
  esp0 := 0
  vm := vm

end Kernel

end Leenix
