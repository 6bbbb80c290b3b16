import Leenix.Proc.ElfSegments
import Leenix.Proc.Offspring
import Leenix.Proc.Refinement

/-!
# What stops a call

A call does not return where the code reads through a pointer that is null or freed, indexes
beyond a table, or loops for ever. `Blocked` lists when that happens: an allocation that the code
does not check fails, the caller passes a freed object, the loader stores to an address that is
not mapped, or the last thread that could run exits.

- `Inv.spawn_blocked`, `Inv.fork_blocked`: the two functions with such allocations inside.
- `Turns.halted_iff`: which call leaves the kernel halted.
- `run_progress`: in every reachable state a call does not return when it is blocked, and at no
  other time. The scheduler's own lists never lead to a freed thread or process.
-/

namespace Leenix

namespace Kernel

/-- The call returns, to the caller or to the thread that it switches to. -/
def Returns (P : Platform) (s : Kernel) (op : Op) : Prop :=
  ∃ s', s.exec P op = some s' ∧ s'.halted = false

/-- The file is one that the loader accepts. It faults in the new directory, or it is placed
there and nothing was allocated for its thread. -/
def SpawnBlocked (P : Platform) (d : Ptr) (vm : Vm) (file : File) (thread : Option Ptr)
    (junk : StackJunk) : Prop :=
  ¬file.Refused junk ∧ (P.vmm.Faults d file vm (file.loads junk) ∨
    P.vmm.Places d file vm (file.loads junk) ∧ thread = none)

/-- What keeps a call from returning. -/
def Blocked (P : Platform) (s : Kernel) : Op → Prop
  | .processCreate .. => s.spaceCreated P = none
  | .processDestroy p => s.procs.lookup p = none
  | .processSpawn openFile filename alloc junk =>
    alloc.process = none ∨ s.spaceCreated P = none ∨
      ∃ d vm file, s.spaceCreated P = some (d, vm) ∧ openFile filename = some file ∧
        SpawnBlocked P d vm file alloc.thread junk
  | .processFork alloc =>
    (∃ c th, s.currentThread = some c ∧ s.threads.lookup c = some th ∧ th.trapFrame ≠ 0) ∧
      alloc.process ≠ none ∧ (s.spaceCreated P = none ∨ ∃ d vm, s.spaceCreated P = some (d, vm) ∧
        (P.vmm.clonePagedir vm).1 ≠ none ∧ alloc.thread = none)
  | .threadCreate p _ _ thread stack => thread = none ∨ stack ≠ 0 ∧ s.procs.lookup p = none
  | .threadDestroy thread => ∃ t, thread = some t ∧ s.threads.lookup t = none
  | .threadExit => ∀ i, i < processPriMax → s.queue i = none
  | .schedulerPost _ | .schedulerTick _ | .work .. => False

variable {P : Platform} {tl : Ptr → Option Ptr} {s s' : Kernel} {a : Sched} {t p : Ptr}

theorem processCreate_blocked {name : List Byte} {priority : Nat} :
    s.processCreate P p name priority = none ↔ s.spaceCreated P = none := by
  rw [processCreate_eq, Option.map_eq_none_iff]

theorem threadCreate_blocked {entry arg stack : Nat} {thread : Option Ptr} :
    s.threadCreate P p entry arg thread stack = none ↔
      thread = none ∨ stack ≠ 0 ∧ s.procs.lookup p = none := by
  cases thread with
  | none => simp [threadCreate]
  | some t =>
    by_cases hstack : stack = 0
    · simp [threadCreate, hstack]
    · cases hp : s.procs.lookup p with
      | none => simp [threadCreate, hstack, hp]
      | some pr => simp [threadCreate_eq P t entry arg hp hstack, hstack]

namespace Inv

/-- With an object for it, the first thread of a new process is created, stored and posted. -/
theorem firstThread_made (h : Inv tl s a) (entry arg : Nat) {stack : Nat} {pr : Process}
    (hfresh : s.ThreadFresh (some t) stack) (hp : s.procs.lookup p = some pr)
    (hnone : pr.threads = none) :
    ∃ r s₁, s.threadCreate P p entry arg (some t) stack = some (r, s₁) ∧
      s₁.updateProcess p (fun pr => { pr with threads := r }) = some s₁ ∧
      (∃ pr', s₁.procs.lookup p = some pr') ∧ (∀ t ∈ r, ∃ th, s₁.threads.lookup t = some th) ∧
      ∀ mem, ∃ s₂, { s₁ with mem := mem }.schedulerPost r = some s₂ ∧ s₂.procs = s₁.procs := by
  have hmade : s.threadCreate P p entry arg (some t) stack ≠ none := by
    simp [threadCreate_blocked, hp]
  obtain ⟨⟨r, s₁⟩, hc⟩ := Option.ne_none_iff_exists'.mp hmade
  obtain ⟨hstored, ⟨rfl, -, rfl⟩ | ⟨t', pr', rfl, ht, hinv, hframe, hfixed⟩⟩ :=
    h.firstThread P pr hfresh hp hnone hc
  · exact ⟨none, _, hc, hstored, ⟨pr, hp⟩, by simp, fun mem => ⟨_, rfl, rfl⟩⟩
  · have hnew : s₁.fixed t' = some (s.newThread p pr' entry stack).fixed := by
      rw [hfixed, Function.update_self]
    obtain ⟨th, hth, -⟩ := lookup_of_fixed hnew
    obtain ⟨pr₁, hpr₁, -⟩ := Option.map_eq_some_iff.mp hstored
    refine ⟨some t', s₁, hc, hstored, ⟨pr₁, hpr₁⟩, by simp [hth], fun mem => ?_⟩
    have hframe' : ListFrame s { s₁ with mem := mem } :=
      hframe.trans ⟨rfl, rfl, rfl, rfl, rfl, rfl, rfl⟩
    obtain ⟨s₂, hs₂, -, hqframe, -⟩ :=
      Inv.postNew (s := { s₁ with mem := mem }) (hinv.congr rfl) h ht hframe' hfixed rfl
    exact ⟨s₂, hs₂, hqframe.procs⟩

/-- The new process, in its own address space, before it has a thread. -/
theorem addProcess (h : Inv tl s a) {d : Ptr} {vm : Vm} {name : List Byte} {priority : Nat}
    (hfresh : s.procs.lookup p = none) : Inv tl (s.addProcess p d vm name priority) a := by
  obtain ⟨hmem, htl⟩ := h.members_of_fresh hfresh
  exact h.insertProcess (s.created d name priority) hmem htl rfl (by simp [created]) rfl

/-- The loader's part of `spawn_blocked`. -/
theorem loads_or_blocked (P : Platform) (d : Ptr) (vm : Vm) (opened : Option File)
    (thread : Option Ptr) (junk : StackJunk) :
    elfLoad P.vmm vm opened (some d) junk = none ∧
        (∃ file, opened = some file ∧ SpawnBlocked P d vm file thread junk) ∨
      (∃ r vm', r ≠ 0 ∧ elfLoad P.vmm vm opened (some d) junk = some (r, none, vm') ∧
        ¬∃ file, opened = some file ∧ SpawnBlocked P d vm file thread junk) ∨
      ∃ entry vm', elfLoad P.vmm vm opened (some d) junk = some (0, some entry, vm') ∧
        ((∃ file, opened = some file ∧ SpawnBlocked P d vm file thread junk) ↔ thread = none) := by
  cases opened with
  | none => exact .inr (.inl ⟨-1, vm, by decide, rfl, by simp⟩)
  | some file =>
  simp only [Option.some.injEq, exists_eq_left', SpawnBlocked]
  by_cases hrefused : file.Refused junk
  · exact .inr (.inl ⟨-1, vm, by decide, elfLoad_of_refused hrefused, fun h => h.1 hrefused⟩)
  by_cases hfaults : P.vmm.Faults d file vm (file.loads junk)
  · exact .inl ⟨elfLoad_none_iff.mpr ⟨hrefused, hfaults⟩, hrefused, .inl hfaults⟩
  by_cases hplaces : P.vmm.Places d file vm (file.loads junk)
  · obtain ⟨vm', hload⟩ := elfLoad_of_places hrefused hplaces
    exact .inr (.inr ⟨_, vm', hload, by simp [hrefused, hfaults, hplaces]⟩)
  · obtain ⟨vm', hload⟩ := elfLoad_of_notPlaced hrefused hplaces hfaults
    exact .inr (.inl ⟨-1, vm', by decide, hload, fun h => h.2.elim hfaults fun h => hplaces h.1⟩)

/-- What stops `process_spawn`. -/
theorem spawn_blocked (h : Inv tl s a) {openFile : List Byte → Option File} {filename : List Byte}
    {alloc : Alloc} {junk : StackJunk} (hfresh : s.AllocFresh alloc) :
    s.processSpawn P openFile filename alloc junk = none ↔
      s.Blocked P (.processSpawn openFile filename alloc junk) := by
  obtain ⟨process, thread, stack⟩ := alloc
  cases process with
  | none => simp [processSpawn, Blocked]
  | some p =>
  cases hspace : s.spaceCreated P with
  | none => simp [processSpawn, Blocked, processCreate_eq, hspace]
  | some space =>
  obtain ⟨d, vm⟩ := space
  have hpfresh : s.procs.lookup p = none := hfresh.1 p rfl
  have hblocked : s.Blocked P (.processSpawn openFile filename ⟨some p, thread, stack⟩ junk) ↔
      ∃ file, openFile filename = some file ∧ SpawnBlocked P d vm file thread junk := by
    simp [Blocked, hspace]
  have hloads := loads_or_blocked P d vm (openFile filename) thread junk
  rw [← hblocked] at hloads
  simp only [processSpawn, Option.bind_eq_bind, Option.bind_some, processCreate_eq, hspace,
    Option.map_some, addProcess_lookup, created_dir]
  rw [show (s.addProcess p d vm filename processPriDefault).vm = vm from rfl]
  rcases hloads with ⟨hload, hstop⟩ | ⟨r, vm', hr, hload, hstop⟩ | ⟨e, vm', hload, hstop⟩
  · simp [hload, hstop]
  · -- the loader gives up
    have hinv : Inv tl (s.addProcess p d vm' filename processPriDefault) a := h.addProcess hpfresh
    obtain ⟨hmem, htl⟩ := h.members_of_fresh hpfresh
    obtain ⟨s₁, hs₁, -⟩ := hinv.destroyNew (P := P) addProcess_lookup hmem htl
      (h.currentProc_ne hpfresh)
    have hs₁' : Kernel.processDestroy P
        { s.addProcess p d vm filename processPriDefault with vm := vm' } p = some s₁ := hs₁
    simp [hload, hr, hs₁', hstop]
  · rw [hstop]
    simp only [hload, Option.bind_some, addProcess_vm, ne_eq, not_true_eq_false, if_false]
    cases thread with
    | none => simp [Kernel.threadCreate]
    | some t =>
      have hinv : Inv tl (s.addProcess p d vm' filename processPriDefault) a :=
        h.addProcess hpfresh
      obtain ⟨r, s₁, hcreate, hstored, ⟨pr, hpr⟩, -, hpost⟩ :=
        hinv.firstThread_made (P := P) e 0 hfresh.2 addProcess_lookup rfl
      obtain ⟨s₂, hs₂, hprocs⟩ := hpost s₁.mem
      simp [hcreate, hstored, hs₂, hprocs, hpr]

/-- What stops `process_fork`. -/
theorem fork_blocked (h : Inv tl s a) {alloc : Alloc} (hfresh : s.AllocFresh alloc) :
    s.processFork P alloc = none ↔ s.Blocked P (.processFork alloc) := by
  obtain ⟨process, thread, stack⟩ := alloc
  obtain ⟨c, thf, hc, hthf, hproc, -⟩ := h.current
  obtain ⟨th, hth, rfl⟩ := lookup_of_fixed hthf
  obtain ⟨pp, ppr, hpp, hppr⟩ := h.members.parent_live c _ hthf
  have hproc : s.currentProc = some pp := hproc.trans hpp
  by_cases hframe : th.trapFrame = 0
  · simp [processFork, Blocked, cli, hc, hproc, hth, hframe]
  cases process with
  | none => simp [processFork, Blocked, cli, hc, hproc, hth, hframe]
  | some p =>
  have hpfresh : s.procs.lookup p = none := hfresh.1 p rfl
  have hblocked : s.Blocked P (.processFork ⟨some p, thread, stack⟩) ↔ s.spaceCreated P = none ∨
      ∃ d vm, s.spaceCreated P = some (d, vm) ∧ (P.vmm.clonePagedir vm).1 ≠ none ∧ thread = none := by
    simp [Blocked, hc, hth, hframe]
  have hc' : s.cli.currentThread = some c := hc
  have hproc' : s.cli.currentProc = some pp := hproc
  have hth' : s.cli.threads.lookup c = some th := hth
  have hppr' : s.cli.procs.lookup pp = some ppr := hppr
  have hspace : s.cli.spaceCreated P = s.spaceCreated P := rfl
  rw [hblocked]
  simp only [processFork, hc', hproc', hth', hframe, hppr', if_false, Option.bind_eq_bind,
    Option.bind_some, processCreate_eq, hspace]
  rcases s.spaceCreated P with _ | ⟨d, vm⟩
  · simp
  simp only [Option.map_some, Option.bind_some, addProcess_lookup, created_dir]
  rw [show (s.cli.addProcess p d vm ppr.name ppr.priority).vm = vm from rfl]
  rcases hclone : P.vmm.clonePagedir vm with ⟨_ | childDir, vm'⟩
  · simp [hclone]
  simp only [addProcess_vm, addProcess_dir, Option.bind_some]
  cases thread with
  | none => simp [hclone, getMainThread, Kernel.threadCreate]
  | some t =>
    have hinv : Inv tl (s.cli.addProcess p childDir (vm'.freeDir d) ppr.name ppr.priority) a :=
      Inv.addProcess (s := s.cli) (h.congr rfl) hpfresh
    obtain ⟨r, s₁, hcreate, hstored, ⟨pr, hpr⟩, hlive, hpost⟩ :=
      hinv.firstThread_made (P := P) 0 0 hfresh.2 addProcess_lookup rfl
    have hmain : (s.cli.addProcess p childDir (vm'.freeDir d) ppr.name ppr.priority).getMainThread P
        (some p) (some t) stack = some (r, s₁) := by
      simp [getMainThread, hcreate, hstored]
    cases r with
    | none => simp [hmain]
    | some t' =>
      obtain ⟨ch, hch⟩ := hlive t' rfl
      obtain ⟨s₂, hs₂, hprocs⟩ := hpost (copyTrapFrame s₁.mem ch.trapFrame th.trapFrame)
      simp [hmain, hch, hs₂, hprocs, hpr]

end Inv

/-- Only the exit of the last thread leaves the kernel halted. -/
theorem Turns.halted_iff {r : Rota Ptr} (h : Turns s a r) (hinv : Inv (tailOf kp junk) s a)
    (hexec : s.exec P op = some s') (hallowed : s.Allowed op) (hsafe : s.Safe kp junk op) :
    s'.halted = true ↔ op = .threadExit ∧ ∀ i, i < processPriMax → s.queue i = none := by
  obtain ⟨a', ev, r', -, hturns', hexplains, hstep⟩ := h.step hinv hexec hallowed hsafe
  have hgoes : r.stopped = false := h.stopped.symm.trans (exec_eq_some.mp hexec).1
  have hexit : ev = .exit ↔ op = .threadExit := hexplains.exit_iff
  have hqueues : r.line = [] ↔ ∀ i, i < processPriMax → s.queue i = none :=
    (h.rotaRep hinv).line_eq_nil
  rw [hturns'.stopped, hstep.stopped_iff hgoes, hexit, hqueues]

/-- Every other call than `thread_exit` has no result when it is blocked. -/
theorem exec_eq_none_iff (hinv : Inv (tailOf kp junk) s a) (hhalted : s.halted = false)
    (hallowed : s.Allowed op) (hsafe : s.Safe kp junk op) (hop : op ≠ .threadExit) :
    s.exec P op = none ↔ s.Blocked P op := by
  simp only [exec, hhalted, Bool.false_eq_true, if_false]
  cases op with
  | processCreate p name priority => exact processCreate_blocked
  | processDestroy p =>
    cases hp : s.procs.lookup p with
    | none => simp [call, Blocked, processDestroy, hp]
    | some pr =>
      have htl : tailOf kp junk p = none := by
        unfold tailOf
        split
        · exact hsafe.2 ‹_›
        · rfl
      obtain ⟨s₁, hs₁, -⟩ := hinv.destroyProcess P hp htl hallowed hsafe.1
      simp [call, Blocked, hs₁, hp]
  | processSpawn openFile filename alloc stackJunk =>
    exact Option.map_eq_none_iff.trans (hinv.spawn_blocked hallowed)
  | processFork alloc => exact Option.map_eq_none_iff.trans (hinv.fork_blocked hallowed)
  | threadCreate p entry arg thread stack =>
    exact Option.map_eq_none_iff.trans threadCreate_blocked
  | threadDestroy thread =>
    cases thread with
    | none => simp [call, Blocked, threadDestroy]
    | some t =>
      obtain ⟨htail, hcur⟩ := hsafe t rfl
      cases hth : s.threads.lookup t with
      | none => simp [call, Blocked, threadDestroy, cli, hth]
      | some th =>
        by_cases hc : s.currentThread = some t
        · obtain ⟨th', hth', hrun⟩ := hcur hc
          simp [call, Blocked, threadDestroy_running hth' hrun, hth]
        · obtain ⟨s₁, hs₁, -⟩ := hinv.destroy hth hc htail
          simp [call, Blocked, hs₁, hth]
  | schedulerPost thread =>
    cases thread with
    | none => simp [call, Blocked, schedulerPost]
    | some t =>
      obtain ⟨⟨th, hth, hlive⟩, hcur, hqueued⟩ := hallowed t rfl
      obtain ⟨s₁, hs₁, -⟩ :=
        hinv.post hth hlive (fun hw => hqueued (hinv.waiting_iff.mp hw)) hcur
      simp [call, Blocked, hs₁]
  | schedulerTick context =>
    have hinv₀ : Inv (tailOf kp junk) { s with ints := false } a := hinv.congr rfl
    obtain ⟨c, -, hc, -⟩ := hinv.current
    by_cases hslice : s.SliceOver
    · obtain ⟨s₁, n, rest, hs₁, -⟩ := hinv₀.tick_switches P context hhalted hc hslice
      simp [call, Blocked, hs₁]
    · obtain ⟨s₁, hs₁, -⟩ := hinv₀.tick_counts P context hslice
      simp [call, Blocked, hs₁]
  | threadExit => exact absurd rfl hop
  | work mem ints vm => simp [call, Blocked]

/-- **Progress.** In every reachable state in which the kernel has not halted, an allowed and
safe call returns, unless it is blocked. -/
theorem run_progress {mem : Mem} {cpu : Cpu} {vm : Vm} {kp kt : Ptr} {junk : Junk}
    {tr : List (Edge Kernel Op)} {op : Op}
    (hrun : Run (exec P) (started P mem cpu vm kp kt junk) tr s)
    (hok : ∀ e ∈ tr, e.pre.Allowed e.op ∧ e.pre.Safe kp junk e.op) (hhalted : s.halted = false)
    (hallowed : s.Allowed op) (hsafe : s.Safe kp junk op) :
    s.Returns P op ↔ ¬s.Blocked P op := by
  obtain ⟨-, r, -, -, a, hinv, hturns⟩ := run_inTurns hrun hok
  have hstops : ∀ s', s.exec P op = some s' → (s'.halted = true ↔
      op = .threadExit ∧ ∀ i, i < processPriMax → s.queue i = none) := fun s' hexec =>
    hturns.halted_iff hinv hexec hallowed hsafe
  by_cases hop : op = .threadExit
  · -- `thread_exit` goes on in the next thread, or nowhere
    subst hop
    obtain ⟨s', hs', -⟩ := hinv.exit P
    have hexec : s.exec P .threadExit = some s' := exec_eq_some.mpr ⟨hhalted, hs'⟩
    have hempty := hstops s' hexec
    simp only [true_and] at hempty
    simp only [Returns, hexec, Option.some.injEq, exists_eq_left', Blocked, ← hempty,
      Bool.not_eq_true]
  · have hnone := exec_eq_none_iff (P := P) hinv hhalted hallowed hsafe hop
    rw [← hnone]
    constructor
    · rintro ⟨s', hexec, -⟩
      simp [hexec]
    · intro hdefined
      obtain ⟨s', hexec⟩ := Option.ne_none_iff_exists'.mp hdefined
      refine ⟨s', hexec, Bool.eq_false_iff.mpr fun hhalts => hop ((hstops s' hexec).mp hhalts).1⟩

/-- With two threads waiting, `thread_exit` returns, and `thread_create` for a process that does
not exist does not; the first thread alone does not exit. -/
theorem run_progress_both :
    let s := bothWait.foldl (Run.next (exec samplePlatform)) sample
    s.Returns samplePlatform .threadExit ∧
      ¬s.Returns samplePlatform (.threadCreate 7 0 0 (some 4) 16384) ∧
      ¬sample.Returns samplePlatform .threadExit := by
  have hrun : Run (exec samplePlatform) sample _ _ := Run.of_defined bothWait (by decide)
  have hexit : Returns _ _ .threadExit ↔ _ := run_progress hrun bothWait_ok (by decide) trivial trivial
  have hcreate : Returns _ _ (.threadCreate 7 0 0 (some 4) 16384) ↔ _ :=
    run_progress hrun bothWait_ok (by decide) (show ThreadFresh _ _ _ by decide) trivial
  have halone : sample.Returns samplePlatform .threadExit ↔ _ :=
    run_progress .nil (fun e he => absurd he List.not_mem_nil) (by decide) trivial trivial
  refine ⟨hexit.mpr fun hempty => ?_, mt hcreate.mp (not_not.mpr ?_), mt halone.mp (not_not.mpr ?_)⟩
  · exact absurd (hempty processPriDefault (by decide)) (by decide)
  · exact .inr (by decide)
  · exact show ∀ i, i < processPriMax → sample.queue i = none by decide

end Kernel

end Leenix
