import Leenix.Proc.Processes

/-!
# The pids of a run

`current_pid` counts up: a step takes the next pids from it, for the processes it
creates, and no other. `issued` lists what a run has given out, and every process
there ever is has one of these (`run_pids`).
-/

namespace Leenix

namespace Kernel

/-- The pids given out after a step: those between the values of `current_pid` before
and after it come last. -/
def issuedStep (pids : List Nat) (e : Edge Kernel Op) : List Nat :=
  pids ++ List.range' e.pre.currentPid (e.post.currentPid - e.pre.currentPid)

/-- The pids given out in a run, with the kernel's own, in the order of time. -/
def issued (tr : List (Edge Kernel Op)) : List Nat := tr.foldl issuedStep [1]

/-- The counter does not go back, and a process has the pid that it had before, or one
that the counter passed. -/
structure PidsGrow (s s' : Kernel) : Prop where
  le : s.currentPid ≤ s'.currentPid
  pids : ∀ q n, proj Process.pid s'.procs q = some n →
    proj Process.pid s.procs q = some n ∨ s.currentPid ≤ n ∧ n < s'.currentPid

variable {P : Platform} {s s' s'' : Kernel} {p : Ptr} {alloc : Alloc} {r : Int}

namespace PidsGrow

theorem trans (h : PidsGrow s s') (h' : PidsGrow s' s'') : PidsGrow s s'' := by
  have hle := h.le
  have hle' := h'.le
  refine ⟨hle.trans hle', fun q n hq => ?_⟩
  rcases h'.pids q n hq with hq | hn
  · rcases h.pids q n hq with hq | hn
    · exact .inl hq
    · omega
  · omega

/-- A step that gives out no pid, and may free processes. -/
theorem of_subset (hpid : s'.currentPid = s.currentPid)
    (h : ∀ q n, proj Process.pid s'.procs q = some n → proj Process.pid s.procs q = some n) :
    PidsGrow s s' :=
  ⟨Nat.le_of_eq hpid.symm, fun q n hq => .inl (h q n hq)⟩

theorem of_fixed (h : ProcessesFixed s s') : PidsGrow s s' := by
  have hpids : proj Process.pid s'.procs = proj Process.pid s.procs :=
    proj_congr Process.pid h.procs fun _ => rfl
  refine of_subset h.currentPid fun q n hq => ?_
  rwa [hpids] at hq

theorem of_erase (hpid : s'.currentPid = s.currentPid) (hprocs : s'.procs = s.procs.erase p) :
    PidsGrow s s' := by
  refine of_subset hpid fun q n hq => ?_
  rw [hprocs, proj_erase] at hq
  by_cases hqp : q = p
  · rw [hqp, Function.update_self] at hq
    cases hq
  · rwa [Function.update_of_ne hqp] at hq

/-- A store to a live process that keeps its pid. -/
theorem updateProcess {f : Process → Process} (h : s.updateProcess p f = some s')
    (hf : ∀ pr, (f pr).pid = pr.pid) : PidsGrow s s' := by
  obtain ⟨pr, hpr, rfl⟩ := Option.map_eq_some_iff.mp h
  refine of_subset rfl fun q n hq => ?_
  replace hq : proj Process.pid (s.procs.insert p (f pr)) q = some n := hq
  rw [proj_insert, hf] at hq
  by_cases hqp : q = p
  · subst hqp
    rw [Function.update_self] at hq
    simpa [proj, hpr] using hq
  · rwa [Function.update_of_ne hqp] at hq

/-- A new process gets the next pid. -/
theorem processCreate {name : List Byte} {priority : Nat}
    (h : s.processCreate P p name priority = some s') : PidsGrow s s' := by
  obtain ⟨d, vm, vm', -, -, rfl⟩ := processCreate_eq_some h
  refine ⟨Nat.le_succ _, fun q n hq => ?_⟩
  replace hq : proj Process.pid (s.procs.insert p _) q = some n := hq
  rw [proj_insert] at hq
  by_cases hqp : q = p
  · rw [hqp, Function.update_self] at hq
    obtain rfl := Option.some.inj hq
    exact .inr ⟨Nat.le_refl _, Nat.lt_succ_self _⟩
  · rw [Function.update_of_ne hqp] at hq
    exact .inl hq

theorem processDestroy (h : s.processDestroy P p = some s') : PidsGrow s s' := by
  obtain ⟨pr, hpr, ⟨-, rfl⟩ | ⟨-, n, s₁, vm, hs₁, rfl⟩⟩ := processDestroy_cases h
  · exact of_fixed (.of_eq rfl rfl rfl)
  · have hmark : PidsGrow s { s with procs := s.procs.insert p { pr with state := .terminated } } :=
      updateProcess (f := fun pr => { pr with state := .terminated })
        (Option.map_eq_some_iff.mpr ⟨pr, hpr, rfl⟩) fun _ => rfl
    have htable : PidsGrow { s with procs := s.procs.insert p { pr with state := .terminated } }
        { s with
          procs := s.procs.insert p { pr with state := .terminated }
          processTable := tableRemove s.processTable p } := of_subset rfl fun _ _ hq => hq
    have hthreads := (hmark.trans htable).trans (of_fixed (.destroyThreads hs₁))
    exact hthreads.trans (of_erase rfl rfl)

theorem processSpawn {openFile : List Byte → Option File} {filename : List Byte}
    {junk : StackJunk} (h : s.processSpawn P openFile filename alloc junk = some (r, s')) :
    PidsGrow s s' := by
  obtain ⟨p, s₁, pr, result, entry, vm, -, hcreate, -, -, hcases⟩ := processSpawn_cases h
  have hvm : PidsGrow s₁ { s₁ with vm := vm } := of_fixed (.of_eq rfl rfl rfl)
  have hloaded := (processCreate hcreate).trans hvm
  rcases hcases with ⟨-, -, hdestroy⟩ | ⟨-, e, t, s₂, s₃, pr', -, hthread, hupdate, hpost, -⟩
  · exact hloaded.trans (processDestroy hdestroy)
  · have hthread' := hloaded.trans (of_fixed (.threadCreate hthread))
    have hmember := hthread'.trans (of_fixed (.updateProcess hupdate fun _ => rfl))
    exact hmember.trans (of_fixed (.of_stores (schedulerPost_stores hpost)))

theorem processFork (h : s.processFork P alloc = some (r, s')) : PidsGrow s s' := by
  rcases processFork_cases h with ⟨-, rfl⟩ |
    ⟨pp, c, par, ppr, p, s₁, pr, -, -, -, -, -, hcreate, hpr, hcases⟩
  · exact of_fixed (.of_eq rfl rfl rfl)
  have hcli : PidsGrow s s.cli := of_fixed (.of_eq rfl rfl rfl)
  have hcreated := hcli.trans (processCreate hcreate)
  rcases hcases with ⟨-, -, vm, rfl⟩ | ⟨dir, vm, s₂, t, s₃, -, rfl, hmain, hcases⟩
  · exact hcreated.trans (of_erase rfl rfl)
  have hdir : PidsGrow s₁
      { s₁ with vm := vm, procs := s₁.procs.insert p { pr with dir := some dir } } :=
    (updateProcess (f := fun pr => { pr with dir := some dir })
      (Option.map_eq_some_iff.mpr ⟨pr, hpr, rfl⟩) fun _ => rfl).trans (of_fixed (.of_eq rfl rfl rfl))
  have hnone : pr.threads = none := processCreate_threads hcreate hpr
  have hmain' := (hcreated.trans hdir).trans (of_fixed (.getMainThread
    { pr with dir := some dir } (Finmap.lookup_insert _) hnone hmain))
  rcases hcases with ⟨-, -, vm', rfl⟩ | ⟨t', ch, s₄, pr', -, -, hpost, -, -, rfl⟩
  · exact hmain'.trans (of_erase rfl rfl)
  · have hcopied : PidsGrow s₃
        { s₃ with mem := copyTrapFrame s₃.mem ch.trapFrame par.trapFrame } :=
      of_fixed (.of_eq rfl rfl rfl)
    have hposted := (hmain'.trans hcopied).trans (of_fixed (.of_stores (schedulerPost_stores hpost)))
    exact hposted.trans (of_fixed (.of_eq rfl rfl rfl))

/-- **Step lemma**: pids are given out in order, to new processes only. -/
theorem exec {op : Op} (h : s.exec P op = some s') : PidsGrow s s' := by
  obtain ⟨-, hcall⟩ := exec_eq_some.mp h
  cases op with
  | processCreate p name priority => exact processCreate hcall
  | processDestroy p => exact processDestroy hcall
  | processSpawn openFile filename alloc junk =>
    obtain ⟨⟨_, s₁⟩, hs₁, rfl⟩ := Option.map_eq_some_iff.mp hcall
    exact processSpawn hs₁
  | processFork alloc =>
    obtain ⟨⟨_, s₁⟩, hs₁, rfl⟩ := Option.map_eq_some_iff.mp hcall
    exact processFork hs₁
  | threadCreate p entry arg thread stack =>
    obtain ⟨⟨_, s₁⟩, hs₁, rfl⟩ := Option.map_eq_some_iff.mp hcall
    exact of_fixed (.threadCreate hs₁)
  | threadDestroy thread =>
    obtain ⟨⟨_, s₁⟩, hs₁, rfl⟩ := Option.map_eq_some_iff.mp hcall
    exact of_fixed (.threadDestroy hs₁)
  | schedulerPost thread => exact of_fixed (.of_stores (schedulerPost_stores hcall))
  | schedulerTick context =>
    have hints : PidsGrow s { s with ints := false } := of_fixed (.of_eq rfl rfl rfl)
    exact hints.trans (of_fixed (.schedulerTick hcall))
  | threadExit => exact of_fixed (.threadExit hcall)
  | work mem ints vm =>
    obtain rfl := Option.some.inj hcall
    exact of_fixed (.of_eq rfl rfl rfl)

end PidsGrow

/-! ## In a run -/

/-- The list `pids` has one pid for each step of the counter, and every process has one
of them. -/
structure PidsIssued (s : Kernel) (pids : List Nat) : Prop where
  counter : s.currentPid = pids.length + 1
  lt : ∀ n ∈ pids, n < s.currentPid
  live : ∀ q n, proj Process.pid s.procs q = some n → n ∈ pids

theorem PidsIssued.step {pids : List Nat} (h : PidsIssued s pids) {op : Op}
    (hexec : s.exec P op = some s') : PidsIssued s' (issuedStep pids ⟨s, op, s'⟩) := by
  have hgrow := PidsGrow.exec hexec
  have hle := hgrow.le
  have hcounter := h.counter
  refine ⟨?_, fun n hn => ?_, fun q n hq => ?_⟩
  · simp only [issuedStep, List.length_append, List.length_range']
    omega
  · simp only [issuedStep, List.mem_append, List.mem_range'_1] at hn
    rcases hn with hn | hn
    · have hlt := h.lt n hn
      omega
    · omega
  · simp only [issuedStep, List.mem_append, List.mem_range'_1]
    rcases hgrow.pids q n hq with hq | hn
    · exact .inl (h.live q n hq)
    · right
      omega

variable {kp kt : Ptr} {junk : Junk} {mem : Mem} {cpu : Cpu} {vm : Vm} {tr : List (Edge Kernel Op)}

/-- After every run, the pids given out are the ones below the counter that the run
took, and every process has one of them. -/
theorem run_pids (hrun : Run (Kernel.exec P) (started P mem cpu vm kp kt junk) tr s) :
    PidsIssued s (issued tr) := by
  have hok : ∀ e ∈ tr, True := fun _ _ => trivial
  refine hrun.invariant_ghost issuedStep hok ?_ fun _ _ _ _ h hexec _ => h.step hexec
  refine ⟨rfl, by simp [started, schedulerInit, boot], fun q n hq => ?_⟩
  replace hq : proj Process.pid ((boot mem cpu vm).procs.insert kp _) q = some n := hq
  rw [proj_insert] at hq
  by_cases hqk : q = kp
  · rw [hqk, Function.update_self] at hq
    simpa [boot, eq_comm] using hq
  · rw [Function.update_of_ne hqk] at hq
    cases hq

end Kernel

end Leenix
