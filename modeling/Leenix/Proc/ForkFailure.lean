import Leenix.Proc.HeapLog
import Leenix.Proc.Offspring
import Leenix.Proc.Registry

/-!
# Forks that fail

A failed fork should leave no trace. The stages of `process_fork` come first
(`fork_cloneNull`, `fork_stackNull`, `fork_posts` and so on), one lemma for each way
on from `process_create`, and then which of them leave a trace: by the time the
page directory or the stack is missing, the child is in `process_table`, and
nobody takes it out (`failsCleanly_iff`).

In a run whose forks are all supplied, the table holds live processes only
(`run_tracked`), so the condition is exact for the next fork too
(`run_failsCleanly_iff`).
-/

namespace Leenix

namespace Kernel

/-- The fork gets as far as `process_create`: for the current process `pp` and its
thread `c`, on the new object `p`. -/
structure ForkBegins (s : Kernel) (alloc : Alloc) (pp c : Ptr) (par : Thread) (ppr : Process)
    (p : Ptr) : Prop where
  currentProc : s.currentProc = some pp
  currentThread : s.currentThread = some c
  parentThread : s.threads.lookup c = some par
  frame : par.trapFrame ≠ 0
  parentProc : s.procs.lookup pp = some ppr
  child : alloc.process = some p

/-- A fork that gets as far as `process_create` has its address space, and the thread
object if it comes to that; and if the page directory or the stack is missing, the
table has no room for the child. -/
def ForkSupplied (P : Platform) (s : Kernel) (alloc : Alloc) : Prop :=
  ∀ pp c par ppr p, ForkBegins s alloc pp c par ppr p →
    (P.vmm.createAddressSpace s.vm).1 ≠ none ∧
      ∀ d vm, s.spaceCreated P = some (d, vm) →
        ((P.vmm.clonePagedir vm).1 ≠ none → alloc.thread ≠ none) ∧
        ((P.vmm.clonePagedir vm).1 = none ∨ alloc.stack = 0 → none ∉ s.processTable)

/-- Nothing of a fork is to be seen: the table, the queues, the current thread and
process and the thread list of the latter are as before, and the table names no freed
process. -/
structure Traceless (s s' : Kernel) : Prop where
  processTable : s'.processTable = s.processTable
  queue : s'.queue = s.queue
  queueTail : s'.queueTail = s.queueTail
  nextReady : s'.nextReady = s.nextReady
  currentThread : s'.currentThread = s.currentThread
  currentProc : s'.currentProc = s.currentProc
  threads : ∀ pp, s.currentProc = some pp →
    (s'.procs.lookup pp).map Process.threads = (s.procs.lookup pp).map Process.threads
  next : s'.next = s.next
  live : ∀ q, some q ∈ s'.processTable → s'.procs.lookup q ≠ none

/-- A fork that returns `-1` leaves no trace, and no fork uses the result of a failed
allocation. -/
def FailsCleanly (P : Platform) (s : Kernel) (alloc : Alloc) : Prop :=
  .nullDeref ∉ (s.processForkLog P alloc).events ∧
    ∀ s', s.processFork P alloc = some (-1, s') → Traceless s s'

open Recorded

variable {P : Platform} {s s' : Kernel} {alloc : Alloc} {pp c p d t cd : Ptr} {par : Thread}
  {ppr : Process} {vm vm' : Vm}

/-! ## The stages -/

/-- Before `process_create` a fork does nothing but enable interrupts. -/
theorem fork_notBegun (h : ¬∃ pp c par ppr p, ForkBegins s alloc pp c par ppr p) :
    .nullDeref ∉ (s.processForkLog P alloc).events ∧
      ∀ r s', (s.processForkLog P alloc).result = some (r, s') → s' = { s with ints := true } := by
  have hreturns : ∀ (r : Int) (s' : Kernel), some ((-1 : Int), s.cli.sti) = some (r, s') →
      s' = { s with ints := true } := by
    intro r s' heq
    exact (Prod.mk.inj (Option.some.inj heq)).2.symm
  unfold processForkLog
  simp only
  split
  case h_1 pp c hpp hc =>
    cases hpar : s.cli.threads.lookup c with
    | none => simp
    | some par =>
      simp only [lift_some_bind]
      split
      case isTrue => exact ⟨by simp, hreturns⟩
      case isFalse hframe =>
        cases hp : alloc.process with
        | none => exact ⟨by simp, hreturns⟩
        | some p =>
          cases hppr : s.cli.procs.lookup pp with
          | none => simp
          | some ppr => exact absurd ⟨pp, c, par, ppr, p, hpp, hc, hpar, hframe, hppr, hp⟩ h
  case h_2 => exact ⟨by simp, hreturns⟩

/-- `_get_main_thread` of a new process, when there is no memory for a stack. -/
theorem getMainThreadLog_noStack {name : List Byte} {priority : Nat} :
    (s.addProcess p d vm name priority).getMainThreadLog P p (some t) 0 =
      ⟨[.alloc (.thread t), .free (.thread t)],
        some (none, { s.addProcess p d vm name priority with currentTid := s.currentTid + 1 })⟩ := by
  simp [getMainThreadLog, threadCreateLog, threadCreate, updateProcess, addProcess, created]

/-- `_get_main_thread` of a new process creates its thread. -/
theorem getMainThreadLog_stack {name : List Byte} {priority stack : Nat} (hstack : stack ≠ 0) :
    (s.addProcess p d vm name priority).getMainThreadLog P p (some t) stack =
      ⟨[.alloc (.thread t), .alloc (.stack stack)],
        some (some t, (s.addProcess p d vm name priority).addThread P p t
          (s.created d name priority) 0 0 stack)⟩ := by
  have hcreated : (s.addProcess p d vm name priority).procs.lookup p = some _ := addProcess_lookup
  have hcreate := threadCreate_eq P t 0 0 hcreated hstack
  rw [← addThread] at hcreate
  simp [getMainThreadLog, threadCreateLog, hcreate, hstack, addThread_again]

/-- The state in which the thread of the child is posted, with a copy of the parent's
trap frame. -/
def forked (P : Platform) (s : Kernel) (p cd t : Ptr) (vm : Vm) (ppr : Process) (par : Thread)
    (stack : Nat) : Kernel :=
  { (s.cli.addProcess p cd vm ppr.name ppr.priority).addThread P p t
      (s.created cd ppr.name ppr.priority) 0 0 stack with
    mem := copyTrapFrame (threadStack P s.mem 0 0 stack)
      (threadStackTop 0 stack - InterruptContext.size) par.trapFrame }

theorem forked_procs {stack : Nat} :
    (s.forked P p cd t vm ppr par stack).procs.lookup p =
      some { s.created cd ppr.name ppr.priority with threads := some t } :=
  Finmap.lookup_insert _

/-- A fork begins with `cli`. -/
theorem ForkBegins.cli (h : ForkBegins s alloc pp c par ppr p) :
    ForkBegins s.cli alloc pp c par ppr p :=
  ⟨h.currentProc, h.currentThread, h.parentThread, h.frame, h.parentProc, h.child⟩

section Begun

variable (h : ForkBegins s alloc pp c par ppr p)

include h

theorem fork_dirNull (hdir : (P.vmm.createAddressSpace s.vm).1 = none) :
    .nullDeref ∈ (s.processForkLog P alloc).events := by
  have hcreate : s.cli.processCreateLog P p ppr.name ppr.priority = fault .nullDeref := by
    rw [processCreateLog, show s.cli.vm = s.vm from rfl, hdir]
  simp [processForkLog, h.cli.currentProc, h.cli.currentThread, h.cli.parentThread, h.frame, h.child,
    h.cli.parentProc, hcreate]

theorem fork_noSpace (hdir : (P.vmm.createAddressSpace s.vm).1 ≠ none)
    (hspace : s.spaceCreated P = none) :
    .nullDeref ∉ (s.processForkLog P alloc).events ∧ (s.processForkLog P alloc).result = none := by
  obtain ⟨d, hcreate⟩ := processCreateLog_of_noSpace (s := s.cli) p ppr.name ppr.priority hdir hspace
  simp [processForkLog, h.cli.currentProc, h.cli.currentThread, h.cli.parentThread, h.frame, h.child,
    h.cli.parentProc, hcreate]

variable (hspace : s.spaceCreated P = some (d, vm))

include hspace

/-- Without the copy of the page directory, the child is freed and stays in the table. -/
theorem fork_cloneNull (hclone : P.vmm.clonePagedir vm = (none, vm')) :
    .nullDeref ∉ (s.processForkLog P alloc).events ∧
      (s.processForkLog P alloc).result = some (-1,
        { s.addProcess p d (vm'.freeDir d) ppr.name ppr.priority with
          procs := (s.procs.insert p (s.created d ppr.name ppr.priority)).erase p
          ints := true }) := by
  have hcreate : s.cli.processCreateLog P p ppr.name ppr.priority = _ :=
    processCreateLog_of_space hspace
  have hvm : (s.cli.addProcess p d vm ppr.name ppr.priority).vm = vm := rfl
  simp [processForkLog, h.cli.currentProc, h.cli.currentThread, h.cli.parentThread, h.frame, h.child,
    h.cli.parentProc, hcreate, hvm, hclone]
  rfl

variable (hclone : P.vmm.clonePagedir vm = (some cd, vm'))

include hclone

theorem fork_threadNull (hthread : alloc.thread = none) :
    .nullDeref ∈ (s.processForkLog P alloc).events := by
  have hcreate : s.cli.processCreateLog P p ppr.name ppr.priority = _ :=
    processCreateLog_of_space hspace
  have hvm : (s.cli.addProcess p d vm ppr.name ppr.priority).vm = vm := rfl
  simp [processForkLog, h.cli.currentProc, h.cli.currentThread, h.cli.parentThread, h.frame, h.child,
    h.cli.parentProc, hcreate, hvm, hclone, addProcess_vm, addProcess_dir, getMainThreadLog, hthread,
    threadCreateLog]

/-- Without a stack, the same. -/
theorem fork_stackNull (hthread : alloc.thread = some t) (hstack : alloc.stack = 0) :
    .nullDeref ∉ (s.processForkLog P alloc).events ∧
      ∃ vm'', (s.processForkLog P alloc).result = some (-1,
        { s.addProcess p cd vm'' ppr.name ppr.priority with
          procs := (s.procs.insert p (s.created cd ppr.name ppr.priority)).erase p
          currentTid := s.currentTid + 1
          ints := true }) := by
  have hcreate : s.cli.processCreateLog P p ppr.name ppr.priority = _ :=
    processCreateLog_of_space hspace
  have hvm : (s.cli.addProcess p d vm ppr.name ppr.priority).vm = vm := rfl
  simp [processForkLog, h.cli.currentProc, h.cli.currentThread, h.cli.parentThread, h.frame,
    h.child, h.cli.parentProc, hcreate, hvm, hclone, addProcess_vm, addProcess_dir, hthread, hstack,
    getMainThreadLog_noStack]
  exact ⟨_, rfl⟩

/-- With its thread and its stack, the fork comes down to the post. -/
theorem fork_posts (hthread : alloc.thread = some t) (hstack : alloc.stack ≠ 0) :
    .nullDeref ∉ (s.processForkLog P alloc).events ∧
      (s.processForkLog P alloc).result =
        ((s.forked P p cd t (vm'.freeDir d) ppr par alloc.stack).schedulerPost (some t)).map
          fun (s' : Kernel) => ((s.currentPid : Int), s'.sti) := by
  have hcreate : s.cli.processCreateLog P p ppr.name ppr.priority = _ :=
    processCreateLog_of_space hspace
  have hvm : (s.cli.addProcess p d vm ppr.name ppr.priority).vm = vm := rfl
  have hforked : ({ (s.cli.addProcess p cd (vm'.freeDir d) ppr.name ppr.priority).addThread P p t
      (s.cli.created cd ppr.name ppr.priority) 0 0 alloc.stack with
        mem := copyTrapFrame ((s.cli.addProcess p cd (vm'.freeDir d) ppr.name ppr.priority).addThread
          P p t (s.cli.created cd ppr.name ppr.priority) 0 0 alloc.stack).mem
          ((s.cli.addProcess p cd (vm'.freeDir d) ppr.name ppr.priority).newThread p
            (s.cli.created cd ppr.name ppr.priority) 0 alloc.stack).trapFrame par.trapFrame } :
      Kernel) = s.forked P p cd t (vm'.freeDir d) ppr par alloc.stack := rfl
  have hprocs : ∀ s', (s.forked P p cd t (vm'.freeDir d) ppr par alloc.stack).schedulerPost
      (some t) = some s' → s'.procs.lookup p =
        some { s.created cd ppr.name ppr.priority with threads := some t } := by
    intro s' hpost
    rw [(schedulerPost_stores hpost).same.1]
    exact forked_procs
  simp only [processForkLog, h.cli.currentProc, h.cli.currentThread, h.cli.parentThread, h.frame,
    h.child, h.cli.parentProc, hcreate, hvm, hclone, addProcess_vm, addProcess_dir, hthread,
    getMainThreadLog_stack hstack, lift_some_bind, mk_some_bind, emit_bind, if_false, created_dir,
    addProcess_lookup, addThread_lookup, hforked]
  cases hpost : (s.forked P p cd t (vm'.freeDir d) ppr par alloc.stack).schedulerPost (some t) with
  | none => simp
  | some s' => simp [hprocs s' hpost]

end Begun

/-! ## What is left behind -/

/-- In a table that the history explains, every entry is live. -/
theorem Registry.Tracks.live_table {r : Registry} (h : r.Tracks s) {q : Ptr}
    (hq : some q ∈ s.processTable) : s.procs.lookup q ≠ none := fun hnone =>
  h.live q (h.subset q (h.mem_table.mp hq)) (idOf_eq_none.mpr hnone)

/-- A process that was added and freed again leaves its place in the table as its only
trace. -/
theorem traceless_freed_iff {r : Registry} (htracks : r.Tracks s) {pr : Process}
    (hparent : ∀ pp, s.currentProc = some pp → pp ≠ p)
    (hp : s.procs.lookup p = none) (htable : s'.processTable = Slots.insert s.processTable p)
    (hprocs : s'.procs = (s.procs.insert p pr).erase p) (hthreads : s'.threads = s.threads)
    (hqueue : s'.queue = s.queue) (htail : s'.queueTail = s.queueTail)
    (hthread : s'.currentThread = s.currentThread) (hproc : s'.currentProc = s.currentProc) :
    Traceless s s' ↔ none ∉ s.processTable := by
  have hother : ∀ q, q ≠ p → s'.procs.lookup q = s.procs.lookup q := by
    intro q hq
    rw [hprocs, Finmap.lookup_erase_ne hq, Finmap.lookup_insert_of_ne _ hq]
  constructor
  · intro htraceless
    rw [← Slots.insert_eq_self_iff (a := p), ← htable]
    exact htraceless.processTable
  · intro hfull
    have hsame : s'.processTable = s.processTable := by
      rw [htable, Slots.insert_full hfull]
    refine ⟨hsame, hqueue, htail, ?_, hthread, hproc, fun pp hpp => ?_, ?_, fun q hq => ?_⟩
    · rw [nextReady, nextReady, hthreads]
    · rw [hother pp (hparent pp hpp)]
    · rw [next, next, hthreads]
    · have hlive := htracks.live_table (hsame ▸ hq)
      have hqp : q ≠ p := fun heq => hlive (heq ▸ hp)
      rw [hother q hqp]
      exact hlive

/-- A fork that frees the child again fails cleanly, if the table had no place for it. -/
theorem failsCleanly_freed_iff {r : Registry} (htracks : r.Tracks s)
    (hp : s.procs.lookup p = none) (h : ForkBegins s alloc pp c par ppr p) {pr : Process}
    (hnull : .nullDeref ∉ (s.processForkLog P alloc).events)
    (hresult : (s.processForkLog P alloc).result = some (-1, s'))
    (htable : s'.processTable = Slots.insert s.processTable p)
    (hprocs : s'.procs = (s.procs.insert p pr).erase p) (hthreads : s'.threads = s.threads)
    (hqueue : s'.queue = s.queue) (htail : s'.queueTail = s.queueTail)
    (hthread : s'.currentThread = s.currentThread) (hproc : s'.currentProc = s.currentProc) :
    FailsCleanly P s alloc ↔ none ∉ s.processTable := by
  have hparent : ∀ pp, s.currentProc = some pp → pp ≠ p := by
    rintro pp' hpp' rfl
    obtain rfl := Option.some.inj (hpp'.symm.trans h.currentProc)
    cases hp.symm.trans h.parentProc
  rw [← traceless_freed_iff htracks hparent hp htable hprocs hthreads hqueue htail hthread hproc,
    FailsCleanly, ← processForkLog_result, hresult]
  constructor
  · rintro ⟨-, hclean⟩
    exact hclean s' rfl
  · intro htraceless
    refine ⟨hnull, fun s'' heq => ?_⟩
    obtain rfl := (Prod.mk.inj (Option.some.inj heq)).2
    exact htraceless

/-- From `process_create` on: one case for each way a fork can take. -/
theorem failsCleanly_begun_iff {r : Registry} (htracks : r.Tracks s)
    (hp : s.procs.lookup p = none) (h : ForkBegins s alloc pp c par ppr p) :
    FailsCleanly P s alloc ↔ (P.vmm.createAddressSpace s.vm).1 ≠ none ∧
      ∀ d vm, s.spaceCreated P = some (d, vm) →
        ((P.vmm.clonePagedir vm).1 ≠ none → alloc.thread ≠ none) ∧
        ((P.vmm.clonePagedir vm).1 = none ∨ alloc.stack = 0 → none ∉ s.processTable) := by
  by_cases hdir : (P.vmm.createAddressSpace s.vm).1 = none
  · constructor
    · intro hclean
      exact absurd (fork_dirNull h hdir) hclean.1
    · intro hsupplied
      exact absurd hdir hsupplied.1
  cases hspace : s.spaceCreated P with
  | none =>
    obtain ⟨hnull, hresult⟩ := fork_noSpace h hdir hspace
    simp [FailsCleanly, hnull, ← processForkLog_result, hresult, hdir]
  | some space =>
    obtain ⟨d, vm⟩ := space
    simp only [hdir, ne_eq, not_false_eq_true, true_and, Option.some.injEq, Prod.mk.injEq,
      and_imp, forall_eq', forall_apply_eq_imp_iff]
    rcases hclone : P.vmm.clonePagedir vm with ⟨_ | cd, vm'⟩
    · obtain ⟨hnull, hresult⟩ := fork_cloneNull h hspace hclone
      rw [failsCleanly_freed_iff htracks hp h hnull hresult rfl rfl rfl rfl rfl rfl rfl]
      simp
    · cases hthread : alloc.thread with
      | none =>
        constructor
        · intro hclean
          exact absurd (fork_threadNull h hspace hclone hthread) hclean.1
        · intro hsupplied
          exact absurd rfl (hsupplied.1 (by simp))
      | some t =>
        by_cases hstack : alloc.stack = 0
        · obtain ⟨hnull, vm'', hresult⟩ := fork_stackNull h hspace hclone hthread hstack
          rw [failsCleanly_freed_iff htracks hp h hnull hresult rfl rfl rfl rfl rfl rfl rfl]
          simp [hstack]
        · obtain ⟨hnull, hresult⟩ := fork_posts h hspace hclone hthread hstack
          -- a fork that gets this far returns a pid, if it returns
          have hclean : FailsCleanly P s alloc := by
            refine ⟨hnull, fun s' hfork => ?_⟩
            rw [← processForkLog_result, hresult] at hfork
            obtain ⟨s'', -, heq⟩ := Option.map_eq_some_iff.mp hfork
            have hpid := (Prod.mk.inj heq).1
            omega
          simp [hclean, hstack]

theorem failsCleanly_iff {r : Registry} (htracks : r.Tracks s)
    (hfresh : ∀ p, alloc.process = some p → s.procs.lookup p = none) :
    FailsCleanly P s alloc ↔ ForkSupplied P s alloc := by
  constructor
  · intro hclean pp c par ppr p h
    exact (failsCleanly_begun_iff htracks (hfresh p h.child) h).mp hclean
  · intro hsupplied
    by_cases hbegun : ∃ pp c par ppr p, ForkBegins s alloc pp c par ppr p
    · obtain ⟨pp, c, par, ppr, p, h⟩ := hbegun
      exact (failsCleanly_begun_iff htracks (hfresh p h.child) h).mpr (hsupplied pp c par ppr p h)
    · obtain ⟨hnull, hresult⟩ := fork_notBegun (P := P) hbegun
      refine ⟨hnull, fun s' hfork => ?_⟩
      rw [← processForkLog_result] at hfork
      obtain rfl := hresult _ _ hfork
      exact ⟨rfl, rfl, rfl, rfl, rfl, rfl, fun _ _ => rfl, rfl, fun q hq => htracks.live_table hq⟩

/-! ## The table in a run -/

/-- A process that was created and freed again, and is not in the table, might never have
been. -/
theorem ProcessesKept.freed {s₁ s₂ : Kernel} {name : List Byte} {priority : Nat}
    (hp : s.procs.lookup p = none) (hcreate : s.processCreate P p name priority = some s₁)
    (hkept : ProcessesKept s₁ s₂) (hprocs : s'.procs = s₂.procs.erase p)
    (htable : s'.processTable = s.processTable) : ProcessesKept s s' := by
  refine ⟨htable, ?_⟩
  have hids : s₂.idOf = Function.update s.idOf p _ := hkept.ids.trans (processCreate_ids hcreate).2
  have hnone : s.idOf p = none := idOf_eq_none.mpr hp
  calc s'.idOf = Function.update s₂.idOf p none := by rw [idOf, hprocs, proj_erase, idOf]
    _ = Function.update s.idOf p none := by rw [hids, Function.update_idem]
    _ = s.idOf := by rw [← hnone, Function.update_eq_self]

/-- A spawn adds a process, and destroys it again if it fails. -/
theorem Registry.Tracks.spawn {r : Registry} (h : r.Tracks s)
    {openFile : List Byte → Option File} {filename : List Byte} {junk : StackJunk} {res : Int}
    (hfresh : ∀ p, alloc.process = some p → s.procs.lookup p = none)
    (hspawn : s.processSpawn P openFile filename alloc junk = some (res, s')) :
    ∃ r', Registry.Tracks r' s' := by
  obtain ⟨p, s₁, pr, result, entry, vm, hp, hcreate, -, -, hcases⟩ := processSpawn_cases hspawn
  obtain ⟨htable, hids⟩ := processCreate_ids hcreate
  have hcreated := h.create (hfresh p hp) (by simp) htable hids
  have hvm : ProcessesKept s₁ { s₁ with vm := vm } := .of_eq rfl rfl
  have hloaded := hcreated.kept hvm
  rcases hcases with ⟨-, -, hdestroy⟩ | ⟨-, e, t, s₂, s₃, pr', -, hthread, hupdate, hpost, -⟩
  · obtain ⟨htable', hids'⟩ := processDestroy_ids (fun id => hloaded.awake p id) hdestroy
    exact ⟨_, hloaded.destroy htable' hids'⟩
  · have hthread' : ProcessesFixed { s₁ with vm := vm } s₃ :=
      (ProcessesFixed.threadCreate hthread).trans (.updateProcess hupdate fun _ => rfl)
    have hposted := hthread'.trans (.of_stores (schedulerPost_stores hpost))
    exact ⟨_, hloaded.kept (.of_fixed hposted)⟩

/-- A supplied fork adds a process, or changes nothing. -/
theorem Registry.Tracks.fork {r : Registry} (h : r.Tracks s) {res : Int}
    (hfresh : ∀ p, alloc.process = some p → s.procs.lookup p = none)
    (hsupplied : ForkSupplied P s alloc) (hfork : s.processFork P alloc = some (res, s')) :
    ∃ r', Registry.Tracks r' s' := by
  have hclean := ((failsCleanly_iff h hfresh).mpr hsupplied).2
  have hcli : ProcessesKept s s.cli := .of_eq rfl rfl
  rcases processFork_cases hfork with ⟨-, rfl⟩ |
    ⟨pp, c, par, ppr, p, s₁, pr, -, -, -, -, hp, hcreate, hpr, hcases⟩
  · exact ⟨r, h.kept (.of_eq rfl rfl)⟩
  · rcases hcases with ⟨rfl, -, vm, rfl⟩ | ⟨dir, vm, s₂, t, s₃, -, rfl, hmain, hcases⟩
    · exact ⟨r, h.kept (hcli.trans (.freed (hfresh p hp) hcreate (.of_eq rfl rfl) rfl
        (hclean _ hfork).processTable))⟩
    · have hnone : pr.threads = none := processCreate_threads hcreate hpr
      have hdir : ProcessesKept s₁
          { s₁ with vm := vm, procs := s₁.procs.insert p { pr with dir := some dir } } :=
        (ProcessesKept.updateProcess (f := fun pr => { pr with dir := some dir })
          (Option.map_eq_some_iff.mpr ⟨pr, hpr, rfl⟩) fun _ => ⟨rfl, rfl⟩).trans (.of_eq rfl rfl)
      have hmain' : ProcessesKept s₁ s₃ := hdir.trans (.of_fixed (.getMainThread
        { pr with dir := some dir } (Finmap.lookup_insert _) hnone hmain))
      rcases hcases with ⟨rfl, rfl, vm', rfl⟩ | ⟨t', ch, s₅, pr', rfl, -, hpost, -, -, rfl⟩
      · exact ⟨r, h.kept (hcli.trans (.freed (hfresh p hp) hcreate hmain' rfl
          (hclean _ hfork).processTable))⟩
      · obtain ⟨htable, hids⟩ := processCreate_ids hcreate
        have hcreated := (h.kept hcli).create (hfresh p hp) (by simp) htable hids
        have hcopied : ProcessesKept s₃
            { s₃ with mem := copyTrapFrame s₃.mem ch.trapFrame par.trapFrame } := .of_eq rfl rfl
        have hposted := hcopied.trans (.of_fixed (.of_stores (schedulerPost_stores hpost)))
        exact ⟨_, hcreated.kept ((hmain'.trans hposted).trans (.of_eq rfl rfl))⟩

/-- **Step lemma**: if the forks are supplied, the table holds live processes, each once. -/
theorem Registry.Tracks.supplied_step {r : Registry} (h : r.Tracks s) {op : Op}
    (hexec : s.exec P op = some s') (hallowed : s.Allowed op)
    (hsupplied : ∀ alloc, op = .processFork alloc → ForkSupplied P s alloc) :
    ∃ r', Registry.Tracks r' s' := by
  obtain ⟨-, hcall⟩ := exec_eq_some.mp hexec
  cases op with
  | processSpawn openFile filename alloc junk =>
    obtain ⟨⟨res, s₁⟩, hspawn, rfl⟩ := Option.map_eq_some_iff.mp hcall
    exact h.spawn hallowed.1 hspawn
  | processFork alloc =>
    obtain ⟨⟨res, s₁⟩, hfork, rfl⟩ := Option.map_eq_some_iff.mp hcall
    exact h.fork hallowed.1 (hsupplied alloc rfl) hfork
  | processCreate p name priority => exact ⟨_, h.step hexec hallowed⟩
  | _ => exact ⟨_, h.step hexec trivial⟩

variable {kp kt : Ptr} {junk : Junk} {mem : Mem} {cpu : Cpu} {tr : List (Edge Kernel Op)}

theorem run_tracked (hrun : Run (exec P) (started P mem cpu vm kp kt junk) tr s)
    (hok : ∀ e ∈ tr, e.pre.Allowed e.op ∧
      ∀ alloc, e.op = .processFork alloc → ForkSupplied P e.pre alloc) :
    ∃ r : Registry, r.Tracks s := by
  refine hrun.invariant (P := fun s => ∃ r : Registry, r.Tracks s) hok
    ⟨_, .started P mem cpu vm kp kt junk⟩ ?_
  rintro m op m' ⟨r, h⟩ hexec ⟨hallowed, hsupplied⟩
  exact h.supplied_step hexec hallowed hsupplied

/-- **Failing forks.** In every state that a run with supplied forks reaches, a failed fork
leaves no trace, and no fork uses the result of a failed allocation, if and only if the
fork is supplied. -/
theorem run_failsCleanly_iff (hrun : Run (exec P) (started P mem cpu vm kp kt junk) tr s)
    (hok : ∀ e ∈ tr, e.pre.Allowed e.op ∧
      ∀ alloc, e.op = .processFork alloc → ForkSupplied P e.pre alloc)
    (hfresh : s.AllocFresh alloc) :
    FailsCleanly P s alloc ↔ ForkSupplied P s alloc := by
  obtain ⟨r, htracks⟩ := run_tracked hrun hok
  exact failsCleanly_iff htracks hfresh.1

/-- The kernel after one tick, which gives the current thread a trap frame. -/
def ticked : Kernel := [Op.schedulerTick 0x5000].foldl (Run.next (exec samplePlatform)) sample

theorem run_ticked : Run (exec samplePlatform) sample
    (Run.replay (exec samplePlatform) sample [Op.schedulerTick 0x5000]) ticked :=
  Run.of_defined [Op.schedulerTick 0x5000] (by decide)

theorem ticked_allowed :
    ∀ e ∈ Run.replay (exec samplePlatform) sample [Op.schedulerTick 0x5000],
      e.pre.Allowed e.op ∧
        ∀ alloc, e.op = .processFork alloc → ForkSupplied samplePlatform e.pre alloc := by
  simp only [Run.replay, List.forall_mem_cons]
  refine ⟨⟨trivial, fun alloc heq => ?_⟩, by simp⟩
  cases heq

/-- Processes created one after the other. -/
theorem creates_allowed {ps : List Ptr} (hnodup : ps.Nodup)
    (hfresh : ∀ p ∈ ps, s.procs.lookup p = none) :
    ∀ e ∈ Run.replay (exec P) s (ps.map fun p => .processCreate p [] processPriDefault),
      e.pre.Allowed e.op ∧
        ∀ alloc, e.op = .processFork alloc → ForkSupplied P e.pre alloc := by
  induction ps generalizing s with
  | nil => simp [Run.replay]
  | cons p ps ih =>
    obtain ⟨hp, hnodup⟩ := List.nodup_cons.mp hnodup
    obtain ⟨hfirst, hrest⟩ := List.forall_mem_cons.mp hfresh
    rw [List.map_cons, Run.replay, List.forall_mem_cons]
    refine ⟨⟨hfirst, fun alloc heq => by cases heq⟩, ih hnodup fun q hq => ?_⟩
    cases hexec : s.exec P (.processCreate p [] processPriDefault) with
    | none => simpa [Run.next, hexec] using hrest q hq
    | some s' =>
      obtain ⟨d, vm, vm', -, -, rfl⟩ := processCreate_eq_some (exec_eq_some.mp hexec).2
      have hqp : q ≠ p := ne_of_mem_of_not_mem hq hp
      simpa [Run.next, hexec, hqp] using hrest q hq

/-- Processes are created until every slot of the table is taken. -/
def tableFilled : List Op :=
  (List.range' 2 128).map (fun p => .processCreate p [] processPriDefault) ++
    [.schedulerTick 0x5000]

theorem tableFilled_ok : ∀ e ∈ Run.replay (exec samplePlatform) sample tableFilled,
    e.pre.Allowed e.op ∧
      ∀ alloc, e.op = .processFork alloc → ForkSupplied samplePlatform e.pre alloc := by
  rw [tableFilled, Run.replay_append]
  refine List.forall_mem_append.mpr ⟨creates_allowed List.nodup_range' fun p hp => ?_, ?_⟩
  · have hne : p ≠ 1 := Nat.ne_of_gt (List.mem_range'_1.mp hp).1
    simp [sample, started, schedulerInit, boot, hne]
  · simp only [Run.replay, List.forall_mem_cons]
    exact ⟨⟨trivial, fun alloc heq => by cases heq⟩, by simp⟩

/-- A fork whose page directory is not cloned, with the table full: it has its child and gives
it back. -/
theorem run_failsCleanly_full :
    let s := tableFilled.foldl (Run.next (exec samplePlatform)) sample
    (s.processFork samplePlatform ⟨some 200, none, 0⟩).map Prod.fst = some (-1) ∧
      FailsCleanly samplePlatform s ⟨some 200, none, 0⟩ := by
  intro s
  have hrun : Run (exec samplePlatform) sample _ s :=
    Run.of_defined tableFilled (by decide +kernel)
  refine ⟨by decide +kernel, (run_failsCleanly_iff hrun tableFilled_ok (by decide +kernel)).mpr ?_⟩
  rintro pp c par ppr p -
  exact ⟨Option.some_ne_none _, fun d vm _ => ⟨fun hclone => absurd rfl hclone,
    fun _ => (by decide +kernel : none ∉ s.processTable)⟩⟩

/-- A fork that gets no stack for the child's thread: it returns `-1`, and the table names
the freed child. -/
theorem fork_leaves_child : ∃ tr s s', Run (exec samplePlatform) sample tr s ∧
    (∀ e ∈ tr, e.pre.Allowed e.op) ∧ s.AllocFresh ⟨some 2, some 2, 0⟩ ∧
    s.processFork samplePlatform ⟨some 2, some 2, 0⟩ = some (-1, s') ∧
    some 2 ∉ s.processTable ∧ some 2 ∈ s'.processTable ∧ s'.procs.lookup 2 = none ∧
    ¬FailsCleanly samplePlatform s ⟨some 2, some 2, 0⟩ := by
  have hfork : ticked.processFork samplePlatform ⟨some 2, some 2, 0⟩ = some (-1, _) := rfl
  refine ⟨_, ticked, _, run_ticked, fun e he => (ticked_allowed e he).1, by decide, hfork,
    by decide, by decide, by decide, ?_⟩
  rintro ⟨-, hclean⟩
  have htable := (hclean _ hfork).processTable
  exact absurd htable (by decide)

end Kernel

end Leenix
