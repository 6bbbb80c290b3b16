import Leenix.Lib.Recorded
import Leenix.Proc.Spawn

/-!
# What making a process allocates and frees

`process_spawn` and `process_fork` with a record of the objects they allocate and
free, and of the places where they use the result of a failed allocation: the
process object in `process_spawn`, the page directory in `process_create`, the
`file_t` in `vfs_open`, the thread object in `thread_create`.

The record changes nothing about the calls (`processSpawnLog_result`,
`processForkLog_result`).
-/

namespace Leenix

namespace Kernel

/-- An object from `malloc` or from the memory manager. -/
inductive HeapObject
  | process (p : Ptr)
  | dir (d : Ptr)
  | file (f : Ptr)
  | thread (t : Ptr)
  | stack (address : Nat)
deriving DecidableEq

/-- `nullDeref` is a use of the null pointer that a failed allocation returned. -/
inductive HeapEvent
  | alloc (o : HeapObject)
  | free (o : HeapObject)
  | nullDeref
deriving DecidableEq

open Recorded

variable (P : Platform) (s : Kernel)

/-- `process_create`. It stores into the new page directory unseen. -/
def processCreateLog (p : Ptr) (name : List Byte) (priority : Nat) : Recorded HeapEvent Kernel :=
  match (P.vmm.createAddressSpace s.vm).1 with
  | none => fault .nullDeref
  | some d => ⟨[.alloc (.dir d)], s.processCreate P p name priority⟩

/-- `thread_create`. It stores into the new thread object unseen. -/
def threadCreateLog (parentProcess : Ptr) (entry arg : Nat) (thread : Option Ptr) (stack : Nat) :
    Recorded HeapEvent (Option Ptr × Kernel) :=
  match thread with
  | none => fault .nullDeref
  | some t =>
    ⟨if stack = 0 then [.alloc (.thread t), .free (.thread t)]
      else [.alloc (.thread t), .alloc (.stack stack)],
      s.threadCreate P parentProcess entry arg thread stack⟩

/-- The loop of `process_destroy`. A destroyed thread is freed with its stack. -/
def destroyThreadsLog (s : Kernel) : Nat → Option Ptr → Recorded HeapEvent Kernel
  | _, none => pure s
  | 0, some _ => lift none
  | n + 1, some t => do
    let th ← lift (s.threads.lookup t)
    let (r, s) ← lift (s.threadDestroy (some t))
    emit (if r = 0 then [.free (.stack th.kernel), .free (.thread t)] else [])
    s.destroyThreadsLog n th.next

/-- `process_destroy`. -/
def processDestroyLog (p : Ptr) : Recorded HeapEvent Kernel := do
  let pr ← lift (s.procs.lookup p)
  if pr.state = .terminated then
    return s
  else
    let s ← lift (s.updateProcess p fun pr => { pr with state := .terminated })
    let s := { s with processTable := tableRemove s.processTable p }
    let s ← s.destroyThreadsLog s.walkFuel pr.threads
    let pr ← lift (s.procs.lookup p)
    let vm :=
      match pr.dir with
      | none => s.vm
      | some d => (P.vmm.freeRegion s.vm d 0x0 0xC0000000).2.freeDir d
    emit (pr.dir.toList.map fun d => .free (.dir d))
    emit [.free (.process p)]
    return { s with vm := vm, procs := s.procs.erase p }

/-- The `vfs_open` of `elf_load`, which comes once that has seen a directory. `file`
is the result of the `malloc` for the `file_t`, and is stored into unseen. -/
def vfsOpenLog (dir : Option Ptr) (opened : Option File) (file : Option Ptr) :
    Recorded HeapEvent (Option File) :=
  match dir, opened, file with
  | none, _, _ => pure none
  | some _, none, _ => pure none
  | some _, some _, none => fault .nullDeref
  | some _, some f, some o => do
    emit [.alloc (.file o)]
    return some f

/-- `process_spawn`. -/
def processSpawnLog (openFile : List Byte → Option File) (filename : List Byte) (alloc : Alloc)
    (file : Option Ptr) (junk : StackJunk) : Recorded HeapEvent (Int × Kernel) :=
  match alloc.process with
  | none => fault .nullDeref
  | some newProc => do
    emit [.alloc (.process newProc)]
    let s ← s.processCreateLog P newProc filename processPriDefault
    let pr ← lift (s.procs.lookup newProc)
    let opened ← vfsOpenLog pr.dir (openFile filename) file
    let (result, entry, vm) ← lift (elfLoad P.vmm s.vm opened pr.dir junk)
    let s := { s with vm := vm }
    if result ≠ 0 then
      let s ← s.processDestroyLog P newProc
      return (-1, s)
    else
      let entry ← lift entry
      let (t, s) ← s.threadCreateLog P newProc entry 0 alloc.thread alloc.stack
      let s ← lift (s.updateProcess newProc fun pr => { pr with threads := t })
      let s ← lift (s.schedulerPost t)
      let pr ← lift (s.procs.lookup newProc)
      return (pr.pid, s)

/-- `_get_main_thread` of a process. -/
def getMainThreadLog (p : Ptr) (thread : Option Ptr) (stack : Nat) :
    Recorded HeapEvent (Option Ptr × Kernel) := do
  let pr ← lift (s.procs.lookup p)
  match pr.threads with
  | some t => return (some t, s)
  | none => do
    let (t, s) ← s.threadCreateLog P p 0 0 thread stack
    let s ← lift (s.updateProcess p fun pr => { pr with threads := t })
    return (t, s)

/-- `process_fork`. -/
def processForkLog (alloc : Alloc) : Recorded HeapEvent (Int × Kernel) :=
  let s := s.cli
  match s.currentProc, s.currentThread with
  | some parentProc, some parentThread => do
    let parent ← lift (s.threads.lookup parentThread)
    if parent.trapFrame = 0 then
      return (-1, s.sti)
    else
      match alloc.process with
      | none => return (-1, s.sti)
      | some childProc => do
        emit [.alloc (.process childProc)]
        let ppr ← lift (s.procs.lookup parentProc)
        let s ← s.processCreateLog P childProc ppr.name ppr.priority
        let pr ← lift (s.procs.lookup childProc)
        match pr.dir with
        | none => do
          emit [.free (.process childProc)]
          return (-1, { s with procs := s.procs.erase childProc }.sti)
        | some dir =>
          match P.vmm.clonePagedir s.vm with
          | (none, vm) => do
            emit [.free (.dir dir), .free (.process childProc)]
            return (-1, { s with vm := vm.freeDir dir, procs := s.procs.erase childProc }.sti)
          | (some childDir, vm) => do
            emit [.alloc (.dir childDir), .free (.dir dir)]
            let s ← lift ({ s with vm := vm.freeDir dir }.updateProcess childProc fun pr =>
              { pr with dir := some childDir })
            let (main, s) ← s.getMainThreadLog P childProc alloc.thread alloc.stack
            match main with
            | none => do
              emit [.free (.dir childDir), .free (.process childProc)]
              let vm := (P.vmm.freeRegion s.vm childDir 0x0 0xC0000000).2.freeDir childDir
              return (-1, { s with vm := vm, procs := s.procs.erase childProc }.sti)
            | some childThread => do
              let child ← lift (s.threads.lookup childThread)
              let s := { s with mem := copyTrapFrame s.mem child.trapFrame parent.trapFrame }
              let s ← lift (s.schedulerPost (some childThread))
              let pr ← lift (s.procs.lookup childProc)
              return (pr.pid, s.sti)
  | _, _ => pure (-1, s.sti)

/-! ## The record changes nothing -/

variable {P s}

theorem processCreateLog_result {p : Ptr} {name : List Byte} {priority : Nat} :
    (s.processCreateLog P p name priority).result = s.processCreate P p name priority := by
  unfold processCreateLog processCreate
  rcases P.vmm.createAddressSpace s.vm with ⟨_ | d, vm⟩
  · rfl
  · rfl

theorem threadCreateLog_result {p : Ptr} {entry arg stack : Nat} {thread : Option Ptr} :
    (s.threadCreateLog P p entry arg thread stack).result =
      s.threadCreate P p entry arg thread stack := by
  cases thread with
  | none => rfl
  | some t => rfl

theorem destroyThreadsLog_result {n : Nat} {thread : Option Ptr} :
    (s.destroyThreadsLog n thread).result = s.destroyThreads n thread := by
  induction n generalizing s thread with
  | zero => cases thread <;> rfl
  | succ n ih =>
    cases thread with
    | none => rfl
    | some t =>
      rw [destroyThreadsLog, destroyThreads]
      simp only [result_bind, result_lift, result_emit, Option.bind_eq_bind, Option.bind_some, ih]

theorem processDestroyLog_result {p : Ptr} :
    (s.processDestroyLog P p).result = s.processDestroy P p := by
  rw [processDestroyLog, processDestroy]
  simp only [result_bind, result_lift, Option.bind_eq_bind]
  congr 1
  funext pr
  split
  · rfl
  · simp only [result_bind, result_lift, result_emit, result_pure, destroyThreadsLog_result,
      Option.bind_some]
    rfl

/-- A spawn in which the `file_t` is allocated, if one is needed. -/
theorem processSpawnLog_result {openFile : List Byte → Option File} {filename : List Byte}
    {alloc : Alloc} {file : Option Ptr} {junk : StackJunk}
    (hfile : openFile filename ≠ none → file ≠ none) :
    (s.processSpawnLog P openFile filename alloc file junk).result =
      s.processSpawn P openFile filename alloc junk := by
  have hload : ∀ (vm : Vm) (dir : Option Ptr),
      ((vfsOpenLog dir (openFile filename) file).result.bind fun opened =>
        elfLoad P.vmm vm opened dir junk) = elfLoad P.vmm vm (openFile filename) dir junk := by
    intro vm dir
    cases dir with
    | none => rfl
    | some d =>
      cases hopen : openFile filename with
      | none => rfl
      | some f =>
        obtain ⟨o, rfl⟩ := Option.ne_none_iff_exists'.mp (hfile (by simp [hopen]))
        rfl
  rw [processSpawnLog, processSpawn]
  cases alloc.process with
  | none => rfl
  | some p =>
    simp only [result_bind, result_lift, result_emit, Option.bind_eq_bind, Option.bind_some,
      processCreateLog_result]
    congr 1
    funext s₁
    congr 1
    funext pr
    rw [← hload, Option.bind_assoc]
    congr 1
    funext opened
    congr 1
    funext loaded
    obtain ⟨result, entry, vm⟩ := loaded
    split
    · simp only [result_bind, processDestroyLog_result, result_pure]
      rfl
    · simp only [result_bind, result_lift, threadCreateLog_result, result_pure]
      rfl

theorem getMainThreadLog_result {p : Ptr} {thread : Option Ptr} {stack : Nat} :
    (s.getMainThreadLog P p thread stack).result = s.getMainThread P (some p) thread stack := by
  rw [getMainThreadLog, getMainThread]
  simp only [result_bind, result_lift, Option.bind_eq_bind]
  congr 1
  funext pr
  cases pr.threads with
  | some t => rfl
  | none =>
    simp only [result_bind, result_lift, threadCreateLog_result, result_pure]
    rfl

theorem processForkLog_result {alloc : Alloc} :
    (s.processForkLog P alloc).result = s.processFork P alloc := by
  rw [processForkLog, processFork]
  simp only
  cases s.cli.currentProc with
  | none => rfl
  | some parentProc =>
    cases s.cli.currentThread with
    | none => rfl
    | some parentThread =>
      simp only [result_bind, result_lift, Option.bind_eq_bind]
      congr 1
      funext parent
      split
      · rfl
      · cases alloc.process with
        | none => rfl
        | some childProc =>
          simp only [result_bind, result_lift, result_emit, Option.bind_some,
            processCreateLog_result]
          congr 1
          funext ppr
          congr 1
          funext s₁
          congr 1
          funext pr
          cases pr.dir with
          | none => rfl
          | some dir =>
            rcases P.vmm.clonePagedir s₁.vm with ⟨_ | childDir, vm⟩
            · rfl
            · simp only [result_bind, result_lift, result_emit, Option.bind_some,
                getMainThreadLog_result]
              congr 1
              funext s₂
              congr 1
              funext mainThread
              obtain ⟨main, s₃⟩ := mainThread
              cases main with
              | none => rfl
              | some childThread =>
                simp only [result_bind, result_lift, result_pure]
                rfl

end Kernel

end Leenix
