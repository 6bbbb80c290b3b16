import Leenix.Lib.Run
import Leenix.Mm.Reference
import Leenix.Proc.Lifecycle

/-!
# The scheduler as a state machine

The calls that reach proc/process.c, one step each, in any order: `Op` and
`exec`. `Allowed` is what every caller is promised or promises: `malloc` returns
blocks that are not in use, `scheduler_post` gets a live thread that is neither
terminated, nor current, nor queued, and `process_destroy` a process that is not
current.

A run of the kernel is a `Run` of `exec` from `scheduler_init` (`started`).
`waitStep` follows the threads that were posted and have not been dispatched or
destroyed since, as a history of the run and not of the kernel's own lists.
-/

namespace Leenix

namespace Kernel

/-- One call into process.c, or a stretch of other code (`work`), which changes
memory, the interrupt flag and the address spaces. -/
inductive Op
  | processCreate (process : Ptr) (name : List Byte) (priority : Nat)
  | processDestroy (process : Ptr)
  | processSpawn (openFile : List Byte → Option File) (filename : List Byte) (alloc : Alloc)
      (junk : StackJunk)
  | processFork (alloc : Alloc)
  | threadCreate (parentProcess : Ptr) (entry arg : Nat) (thread : Option Ptr) (stack : Nat)
  | threadDestroy (thread : Option Ptr)
  | schedulerPost (thread : Option Ptr)
  | schedulerTick (context : Nat)
  | threadExit
  | work (mem : Mem) (ints : Bool) (vm : Vm)

/-- What the call does. The timer interrupt disables interrupts before it calls
`scheduler_tick`. -/
def call (P : Platform) (s : Kernel) : Op → Option Kernel
  | .processCreate p name priority => s.processCreate P p name priority
  | .processDestroy p => s.processDestroy P p
  | .processSpawn openFile filename alloc junk =>
    (s.processSpawn P openFile filename alloc junk).map Prod.snd
  | .processFork alloc => (s.processFork P alloc).map Prod.snd
  | .threadCreate p entry arg thread stack =>
    (s.threadCreate P p entry arg thread stack).map Prod.snd
  | .threadDestroy thread => (s.threadDestroy thread).map Prod.snd
  | .schedulerPost thread => s.schedulerPost thread
  | .schedulerTick context => { s with ints := false }.schedulerTick P context
  | .threadExit => s.threadExit P
  | .work mem ints vm => some { s with mem := mem, ints := ints, vm := vm }

/-- One step. Nothing runs after `thread_exit` has found no thread. -/
def exec (P : Platform) (s : Kernel) (op : Op) : Option Kernel :=
  if s.halted then none else s.call P op

theorem exec_eq_some {P : Platform} {s s' : Kernel} {op : Op} :
    s.exec P op = some s' ↔ s.halted = false ∧ s.call P op = some s' := by
  cases hh : s.halted <;> simp [exec, hh]

/-- The thread is in a ready queue: some `queue[i]` leads to it. -/
def Queued (s : Kernel) (t : Ptr) : Prop :=
  ∃ i, i ≤ processPriMax ∧ ∃ us, Seg s.nextReady (s.queue i) us (some t)

/-- A stack block that `malloc` may return: it overlaps the stack of no live
thread. -/
def StackFree (s : Kernel) (stack : Nat) : Prop :=
  ∀ t th, s.threads.lookup t = some th → th.kernel ≠ 0 →
    stack + 4 * 1024 ≤ th.kernel ∨ th.kernel + 4 * 1024 ≤ stack

instance (s : Kernel) (stack : Nat) : Decidable (s.StackFree stack) :=
  decidable_of_iff
    (∀ t ∈ s.threads.keys, ∀ th ∈ s.threads.lookup t, th.kernel ≠ 0 →
      stack + 4 * 1024 ≤ th.kernel ∨ th.kernel + 4 * 1024 ≤ stack)
    ⟨fun h t th ht => h t (by
        rw [Finmap.mem_keys, ← Finmap.lookup_isSome, ht]
        rfl) th ht,
      fun h t _ th ht => h t th ht⟩

/-- Results of `malloc` for a thread and its stack. -/
def ThreadFresh (s : Kernel) (thread : Option Ptr) (stack : Nat) : Prop :=
  (∀ t ∈ thread, s.threads.lookup t = none) ∧ (stack ≠ 0 → s.StackFree stack)

instance (s : Kernel) (thread : Option Ptr) (stack : Nat) :
    Decidable (s.ThreadFresh thread stack) :=
  inferInstanceAs (Decidable (_ ∧ _))

/-- Results of `malloc` for a process with its first thread. -/
def AllocFresh (s : Kernel) (alloc : Alloc) : Prop :=
  (∀ p, alloc.process = some p → s.procs.lookup p = none) ∧ s.ThreadFresh alloc.thread alloc.stack

instance (s : Kernel) (alloc : Alloc) : Decidable (s.AllocFresh alloc) :=
  inferInstanceAs (Decidable ((∀ p ∈ alloc.process, s.procs.lookup p = none) ∧ _))

/-- What the callers of proc/process.c and `malloc` promise. -/
def Allowed (s : Kernel) : Op → Prop
  | .processCreate p _ _ => s.procs.lookup p = none
  | .processDestroy p => s.currentProc ≠ some p
  | .processSpawn _ _ alloc _ => s.AllocFresh alloc
  | .processFork alloc => s.AllocFresh alloc
  | .threadCreate _ _ _ thread stack => s.ThreadFresh thread stack
  | .schedulerPost thread => ∀ t, thread = some t →
      (∃ th, s.threads.lookup t = some th ∧ th.state ≠ .terminated) ∧
        s.currentThread ≠ some t ∧ ¬s.Queued t
  | .threadDestroy _ | .schedulerTick _ | .threadExit | .work .. => True

/-- The kernel when `scheduler_init` returns. -/
def started (P : Platform) (mem : Mem) (cpu : Cpu) (vm : Vm) (kp kt : Ptr) (junk : Junk) : Kernel :=
  (boot mem cpu vm).schedulerInit P kp kt junk

/-- The tick finds the time slice of the current thread used up. -/
def SliceOver (s : Kernel) : Prop :=
  ∃ c th, s.currentThread = some c ∧ s.threads.lookup c = some th ∧ sliceLeft th.timeSlice = 0

/-- The step put the thread into a ready queue. -/
def Posted (e : Edge Kernel Op) (t : Ptr) : Prop :=
  match e.op with
  | .schedulerPost thread =>
    thread = some t ∧ ∃ th, e.pre.threads.lookup t = some th ∧ th.state ≠ .terminated
  | .schedulerTick _ => e.pre.SliceOver ∧ e.pre.currentThread = some t
  | .processSpawn .. | .processFork .. => e.pre.threads.lookup t = none
  | _ => False

/-- The step took the thread out of a ready queue and ran it. -/
def Dispatched (e : Edge Kernel Op) (t : Ptr) : Prop :=
  match e.op with
  | .schedulerTick _ => e.pre.SliceOver ∧ e.post.currentThread = some t
  | .threadExit => e.post.currentThread = some t
  | _ => False

/-- The threads that wait after a step: those that waited or were posted, were
not dispatched and are still live. -/
def waitStep (waiting : Ptr → Prop) (e : Edge Kernel Op) : Ptr → Prop := fun t =>
  (waiting t ∨ Posted e t) ∧ ¬Dispatched e t ∧ e.post.threads.lookup t ≠ none

/-- The threads posted in a run and neither dispatched nor destroyed since. -/
def waiting (tr : List (Edge Kernel Op)) : Ptr → Prop :=
  tr.foldl waitStep fun _ => False

instance (s : Kernel) : Decidable s.SliceOver :=
  decidable_of_iff
    (∃ c ∈ s.currentThread, ∃ th ∈ s.threads.lookup c, sliceLeft th.timeSlice = 0)
    ⟨fun ⟨c, hc, th, hth, h⟩ => ⟨c, th, hc, hth, h⟩, fun ⟨c, th, hc, hth, h⟩ => ⟨c, hc, th, hth, h⟩⟩

instance (e : Edge Kernel Op) (t : Ptr) : Decidable (Dispatched e t) := by
  unfold Dispatched
  split <;> infer_instance

/-- The thread that an allowed step puts into a ready queue, if its objects were
allocated. -/
def postedBy (e : Edge Kernel Op) : Option Ptr :=
  match e.op with
  | .schedulerPost thread => thread
  | .schedulerTick _ => if e.pre.SliceOver then e.pre.currentThread else none
  | .processSpawn _ _ alloc _ => alloc.thread
  | .processFork alloc => alloc.thread
  | _ => none

/-- The order of the posts after a step: a posted thread comes last, and the
threads that were dispatched or destroyed are gone. -/
def orderStep (order : List Ptr) (e : Edge Kernel Op) : List Ptr :=
  (order ++ (postedBy e).toList).filter fun t =>
    ¬Dispatched e t ∧ e.post.threads.lookup t ≠ none

/-- The threads posted in a run and neither dispatched nor destroyed since, the
first one posted first. -/
def postOrder (tr : List (Edge Kernel Op)) : List Ptr := tr.foldl orderStep []

/-! ## A concrete kernel -/

/-- The reference memory manager, with `thread_exit` at a kernel address. -/
def samplePlatform : Platform where
  vmm := .reference 256
  threadExit := 0xC0100000

/-- A kernel right after `scheduler_init`: kernel process `1`, kernel thread `1`,
and a heap that was zero. -/
def sample : Kernel :=
  started samplePlatform (fun _ => 0) ⟨0, 0, 0, 0, 0, 0, 0, 0, 0, 0, 0, 0, 0⟩ .booted 1 1
    ⟨[], 0, none, none⟩

end Kernel

end Leenix
