import Leenix.Proc.Process
import Leenix.Proc.Elf

/-!
# `process_spawn` and `process_fork`

The two functions of proc/process.c that make a whole process out of the pieces
of `Proc.Process` and `Proc.Elf`. `vfs_open` is the parameter `openFile`.
-/

namespace Leenix

namespace Kernel

variable (P : Platform)

/-- `_get_main_thread` (process.c:153–163). -/
def getMainThread (s : Kernel) (process : Option Ptr) (thread : Option Ptr) (stack : Nat) :
    Option (Option Ptr × Kernel) :=
  match process with
  | none => some (none, s)
  | some p => do
    let pr ← s.procs.lookup p
    match pr.threads with
    | some t => return (some t, s)
    | none =>
      let (t, s) ← s.threadCreate P p 0 0 thread stack
      let s ← s.updateProcess p fun pr => { pr with threads := t }
      return (t, s)

/-- The results of the calls of `malloc` in `process_spawn` and `process_fork`:
the process object, the thread object, the kernel stack. -/
structure Alloc where
  process : Option Ptr
  thread : Option Ptr
  stack : Nat

/-- `process_spawn` (process.c:77–90). The allocation of the process object is
not checked. -/
def processSpawn (openFile : List Byte → Option File) (s : Kernel) (filename : List Byte)
    (alloc : Alloc) (junk : StackJunk) : Option (Int × Kernel) := do
  let newProc ← alloc.process
  let s ← s.processCreate P newProc filename processPriDefault
  let pr ← s.procs.lookup newProc
  -- the new directory is not the active one while the loader stores
  let (result, entry, vm) ← elfLoad P.vmm s.vm (openFile filename) pr.dir junk
  let s := { s with vm := vm }
  if result ≠ 0 then
    let s ← s.processDestroy P newProc
    return (-1, s)
  else
    let (t, s) ← s.threadCreate P newProc (← entry) 0 alloc.thread alloc.stack
    let s ← s.updateProcess newProc fun pr => { pr with threads := t }
    let s ← s.schedulerPost t
    let pr ← s.procs.lookup newProc
    return (pr.pid, s)

/-- The copy of the parent's trap frame into the child's, with `eax` cleared
(process.c:134–135). -/
def copyTrapFrame (m : Mem) (child parent : Nat) : Mem :=
  Function.update (InterruptContext.store m child (InterruptContext.load m parent)) (child + 32) 0

/-- `process_fork` (process.c:91–141). -/
def processFork (s : Kernel) (alloc : Alloc) : Option (Int × Kernel) :=
  let s := s.cli
  match s.currentProc, s.currentThread with
  | some parentProc, some parentThread => do
    let parent ← s.threads.lookup parentThread
    if parent.trapFrame = 0 then
      return (-1, s.sti)
    else
      match alloc.process with
      | none => return (-1, s.sti)
      | some childProc =>
        let ppr ← s.procs.lookup parentProc
        let s ← s.processCreate P childProc ppr.name ppr.priority
        let pr ← s.procs.lookup childProc
        match pr.dir with
        -- the error paths free the child and leave its slot of the process table
        | none => return (-1, { s with procs := s.procs.erase childProc }.sti)
        | some dir =>
          match P.vmm.clonePagedir s.vm with
          | (none, vm) =>
            return (-1, { s with vm := vm.freeDir dir, procs := s.procs.erase childProc }.sti)
          | (some childDir, vm) =>
            let s ← { s with vm := vm.freeDir dir }.updateProcess childProc fun pr =>
              { pr with dir := some childDir }
            let (main, s) ← s.getMainThread P (some childProc) alloc.thread alloc.stack
            match main with
            | none =>
              let vm := (P.vmm.freeRegion s.vm childDir 0x0 0xC0000000).2.freeDir childDir
              return (-1, { s with vm := vm, procs := s.procs.erase childProc }.sti)
            | some childThread =>
              let child ← s.threads.lookup childThread
              let s := { s with mem := copyTrapFrame s.mem child.trapFrame parent.trapFrame }
              let s ← s.schedulerPost (some childThread)
              let pr ← s.procs.lookup childProc
              return (pr.pid, s.sti)
  | _, _ => some (-1, s.sti)

/-! ## The paths of the two functions -/

section Paths

variable {P} {s s' : Kernel} {alloc : Alloc} {r : Int}

/-- A returning `process_spawn` created the process and ran the loader on it,
and then destroyed it again, or gave it a thread and posted that. -/
theorem processSpawn_cases {openFile : List Byte → Option File} {filename : List Byte}
    {junk : StackJunk} (h : s.processSpawn P openFile filename alloc junk = some (r, s')) :
    ∃ p s₁ pr result entry vm, alloc.process = some p ∧
      s.processCreate P p filename processPriDefault = some s₁ ∧
      s₁.procs.lookup p = some pr ∧
      elfLoad P.vmm s₁.vm (openFile filename) pr.dir junk = some (result, entry, vm) ∧
      (result ≠ 0 ∧ r = -1 ∧ { s₁ with vm := vm }.processDestroy P p = some s' ∨
        result = 0 ∧ ∃ e t s₂ s₃ pr', entry = some e ∧
          { s₁ with vm := vm }.threadCreate P p e 0 alloc.thread alloc.stack = some (t, s₂) ∧
          s₂.updateProcess p (fun pr => { pr with threads := t }) = some s₃ ∧
          s₃.schedulerPost t = some s' ∧ s'.procs.lookup p = some pr' ∧ r = pr'.pid) := by
  simp only [processSpawn, Option.bind_eq_bind, Option.bind_eq_some_iff] at h
  obtain ⟨p, hp, s₁, hs₁, pr, hpr, ⟨result, entry, vm⟩, hload, h⟩ := h
  refine ⟨p, s₁, pr, result, entry, vm, hp, hs₁, hpr, hload, ?_⟩
  by_cases hresult : result = 0
  · simp only [hresult, ne_eq, not_true_eq_false, if_false, Option.bind_eq_some_iff] at h
    obtain ⟨e, he, ⟨t, s₂⟩, hs₂, s₃, hs₃, s₄, hs₄, pr', hpr', h⟩ := h
    simp only [Option.pure_def, Option.some.injEq, Prod.mk.injEq] at h
    obtain ⟨rfl, rfl⟩ := h
    exact .inr ⟨hresult, e, t, s₂, s₃, pr', he, hs₂, hs₃, hs₄, hpr', rfl⟩
  · simp only [ne_eq, hresult, not_false_eq_true, if_true, Option.bind_eq_some_iff] at h
    obtain ⟨s₂, hs₂, h⟩ := h
    simp only [Option.pure_def, Option.some.injEq, Prod.mk.injEq] at h
    obtain ⟨rfl, rfl⟩ := h
    exact .inl ⟨hresult, rfl, hs₂⟩

/-- For a process without threads, `_get_main_thread` creates one. -/
theorem getMainThread_cases {p : Ptr} (pr : Process) {thread t : Option Ptr} {stack : Nat}
    (hp : s.procs.lookup p = some pr) (hnone : pr.threads = none)
    (h : s.getMainThread P (some p) thread stack = some (t, s')) :
    ∃ s₁, s.threadCreate P p 0 0 thread stack = some (t, s₁) ∧
      s₁.updateProcess p (fun pr => { pr with threads := t }) = some s' := by
  rw [getMainThread, Option.bind_eq_bind, hp, Option.bind_some, hnone] at h
  simp only [Option.bind_eq_bind, Option.bind_eq_some_iff] at h
  obtain ⟨⟨t', s₁⟩, hs₁, s₂, hs₂, h⟩ := h
  simp only [Option.pure_def, Option.some.injEq, Prod.mk.injEq] at h
  obtain ⟨rfl, rfl⟩ := h
  exact ⟨s₁, hs₁, hs₂⟩

/-- The states a returning `process_fork` can leave: nothing done; the child
freed again after it was created; or a child whose thread was posted. -/
theorem processFork_cases (h : s.processFork P alloc = some (r, s')) :
    (r = -1 ∧ s' = { s with ints := true }) ∨
    ∃ pp c par ppr p s₁ pr, s.currentProc = some pp ∧ s.currentThread = some c ∧
      s.threads.lookup c = some par ∧ s.procs.lookup pp = some ppr ∧ alloc.process = some p ∧
      s.cli.processCreate P p ppr.name ppr.priority = some s₁ ∧ s₁.procs.lookup p = some pr ∧
      (r = -1 ∧ (pr.dir = none ∨ (P.vmm.clonePagedir s₁.vm).1 = none) ∧
          (∃ vm, s' = { s₁ with vm := vm, procs := s₁.procs.erase p, ints := true }) ∨
        ∃ dir vm s₂ t s₃, (∃ d vm', P.vmm.clonePagedir s₁.vm = (some dir, vm') ∧
            vm = vm'.freeDir d) ∧ s₂ = { s₁ with
            vm := vm, procs := s₁.procs.insert p { pr with dir := some dir } } ∧
          s₂.getMainThread P (some p) alloc.thread alloc.stack = some (t, s₃) ∧
          (r = -1 ∧ t = none ∧
              (∃ vm, s' = { s₃ with vm := vm, procs := s₃.procs.erase p, ints := true }) ∨
            ∃ t' ch s₄ pr', t = some t' ∧ s₃.threads.lookup t' = some ch ∧
              { s₃ with mem := copyTrapFrame s₃.mem ch.trapFrame par.trapFrame }.schedulerPost
                (some t') = some s₄ ∧
              s₄.procs.lookup p = some pr' ∧ r = pr'.pid ∧ s' = s₄.sti)) := by
  unfold processFork at h
  simp only at h
  split at h
  case h_1 pp c hpp hc =>
    simp only [Option.bind_eq_bind, Option.bind_eq_some_iff] at h
    obtain ⟨par, hpar, h⟩ := h
    by_cases hframe : par.trapFrame = 0
    · simp only [hframe, if_true, Option.pure_def, Option.some.injEq, Prod.mk.injEq] at h
      exact .inl ⟨h.1.symm, h.2.symm⟩
    · simp only [hframe, if_false] at h
      cases hp : alloc.process with
      | none =>
        simp only [hp, Option.pure_def, Option.some.injEq, Prod.mk.injEq] at h
        exact .inl ⟨h.1.symm, h.2.symm⟩
      | some p =>
        simp only [hp, Option.bind_eq_some_iff] at h
        obtain ⟨ppr, hppr, s₁, hs₁, pr, hpr, h⟩ := h
        refine .inr ⟨pp, c, par, ppr, p, s₁, pr, hpp, hc, hpar, hppr, rfl, hs₁, hpr, ?_⟩
        cases hdir : pr.dir with
        | none =>
          simp only [hdir, Option.pure_def, Option.some.injEq, Prod.mk.injEq] at h
          exact .inl ⟨h.1.symm, .inl rfl, s₁.vm, h.2.symm⟩
        | some dir =>
          simp only [hdir] at h
          rcases hclone : P.vmm.clonePagedir s₁.vm with ⟨_ | childDir, vm⟩
          · simp only [hclone, Option.pure_def, Option.some.injEq, Prod.mk.injEq] at h
            exact .inl ⟨h.1.symm, .inr rfl, _, h.2.symm⟩
          · simp only [hclone, updateProcess, hpr, Option.map_some, Option.bind_some,
              Option.bind_eq_some_iff] at h
            obtain ⟨⟨t, s₃⟩, hs₃, h⟩ := h
            refine .inr ⟨childDir, vm.freeDir dir, _, t, s₃, ⟨dir, vm, rfl, rfl⟩, rfl, hs₃, ?_⟩
            cases t with
            | none =>
              simp only [Option.pure_def, Option.some.injEq, Prod.mk.injEq] at h
              exact .inl ⟨h.1.symm, rfl, _, h.2.symm⟩
            | some t' =>
              simp only [Option.bind_eq_some_iff] at h
              obtain ⟨ch, hch, s₄, hs₄, pr', hpr', h⟩ := h
              simp only [Option.pure_def, Option.some.injEq, Prod.mk.injEq] at h
              exact .inr ⟨t', ch, s₄, pr', rfl, hch, hs₄, hpr', h.1.symm, h.2.symm⟩
  case h_2 =>
    simp only [Option.some.injEq, Prod.mk.injEq] at h
    exact .inl ⟨h.1.symm, h.2.symm⟩

end Paths

end Kernel

end Leenix
