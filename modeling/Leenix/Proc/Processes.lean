import Leenix.Proc.Effects

/-!
# Calls that leave the processes alone

Apart from those that create or destroy a process, every call into process.c keeps
what `ProcessesFixed` lists: of the processes everything but their lists of threads,
the process table, and the counter of the pids.
-/

namespace Leenix

namespace Kernel

/-- The same processes, but for their threads, in the same slots, and no pid given
out. -/
structure ProcessesFixed (s s' : Kernel) : Prop where
  procs : proj Process.fixed s'.procs = proj Process.fixed s.procs
  processTable : s'.processTable = s.processTable
  currentPid : s'.currentPid = s.currentPid

variable {P : Platform} {s s' s'' : Kernel} {t p : Ptr}

namespace ProcessesFixed

theorem trans (h : ProcessesFixed s s') (h' : ProcessesFixed s' s'') : ProcessesFixed s s'' :=
  ⟨h'.procs.trans h.procs, h'.processTable.trans h.processTable,
    h'.currentPid.trans h.currentPid⟩

theorem of_eq (hprocs : s'.procs = s.procs) (htable : s'.processTable = s.processTable)
    (hpid : s'.currentPid = s.currentPid) : ProcessesFixed s s' :=
  ⟨by rw [hprocs], htable, hpid⟩

theorem updateThread {f : Thread → Thread} (h : s.updateThread t f = some s') :
    ProcessesFixed s s' := by
  obtain ⟨th, -, rfl⟩ := Option.map_eq_some_iff.mp h
  exact .of_eq rfl rfl rfl

/-- A store to a live process that keeps all but its threads. -/
theorem updateProcess {f : Process → Process} (h : s.updateProcess p f = some s')
    (hf : ∀ pr, (f pr).fixed = pr.fixed) : ProcessesFixed s s' := by
  obtain ⟨pr, hpr, rfl⟩ := Option.map_eq_some_iff.mp h
  refine ⟨?_, rfl, rfl⟩
  show proj Process.fixed (s.procs.insert p (f pr)) = _
  rw [proj_insert, hf]
  exact Function.update_eq_iff.mpr ⟨by simp [proj, hpr], fun _ _ => rfl⟩

theorem of_stores (h : Stores s s') : ProcessesFixed s s' := by
  induction h with
  | refl => exact .of_eq rfl rfl rfl
  | tail _ hstore ih =>
    refine ih.trans ?_
    cases hstore with
    | flag => exact .of_eq rfl rfl rfl
    | queue => exact .of_eq rfl rfl rfl
    | queueTail => exact .of_eq rfl rfl rfl
    | link h =>
      obtain ⟨th, -, rfl⟩ := Option.map_eq_some_iff.mp h
      exact .of_eq rfl rfl rfl
    | state h => exact updateThread h

theorem schedulerSwitch {n : Ptr} (h : s.schedulerSwitch P (some n) = some s') :
    ProcessesFixed s s' := by
  rcases schedulerSwitch_eq_some h with ⟨-, rfl⟩ | ⟨c, cur, th, vm, -, -, -, -, -, rfl⟩
  · exact .of_eq rfl rfl rfl
  · exact .of_eq rfl rfl rfl

theorem schedulerTick {context : Nat} (h : s.schedulerTick P context = some s') :
    ProcessesFixed s s' := by
  obtain ⟨c, th, -, -, hcases⟩ := schedulerTick_cases h
  rcases hcases with ⟨-, rfl⟩ | ⟨-, s₂, r, s₃, hpost, htake, hswitch⟩
  · exact .of_eq rfl rfl rfl
  · have hslice : ProcessesFixed s
        { s with threads := s.threads.insert c { th with trapFrame := context, timeSlice := slice } } :=
      .of_eq rfl rfl rfl
    have hstores : Stores _ s₃ := (schedulerPost_stores hpost).trans (takeReady_stores htake)
    have h₃ : ProcessesFixed s s₃ := hslice.trans (.of_stores hstores)
    rcases hswitch with ⟨-, rfl⟩ | ⟨n, -, hswitch⟩
    · exact h₃
    · have hcli : ProcessesFixed s₃ s₃.cli := .of_eq rfl rfl rfl
      exact (h₃.trans hcli).trans (.schedulerSwitch hswitch)

theorem threadExit (h : s.threadExit P = some s') : ProcessesFixed s s' := by
  obtain ⟨c, th, r, s₂, -, -, htake, hcases⟩ := threadExit_cases h
  have hmark : ProcessesFixed s { s with
      ints := false, threads := s.threads.insert c { th with state := .terminated } } :=
    .of_eq rfl rfl rfl
  have h₂ : ProcessesFixed s s₂ := hmark.trans (.of_stores (takeReady_stores htake))
  rcases hcases with ⟨-, rfl⟩ | ⟨n, -, hswitch⟩
  · exact h₂.trans (.of_eq rfl rfl rfl)
  · exact h₂.trans (.schedulerSwitch hswitch)

theorem threadCreate {entry arg stack : Nat} {thread r : Option Ptr}
    (h : s.threadCreate P p entry arg thread stack = some (r, s')) : ProcessesFixed s s' := by
  obtain ⟨t, rfl, ⟨-, -, rfl⟩ | ⟨-, -, pr, hp, rfl⟩⟩ := threadCreate_eq_some h
  · exact .of_eq rfl rfl rfl
  · have hprocess : ProcessesFixed s
        { s with procs := s.procs.insert p { pr with threads := some t } } :=
      .updateProcess (f := fun pr => { pr with threads := some t })
        (Option.map_eq_some_iff.mpr ⟨pr, hp, rfl⟩) fun _ => rfl
    exact hprocess.trans (.of_eq rfl rfl rfl)

/-- `_get_main_thread` of a process without threads. -/
theorem getMainThread (pr : Process) {thread r : Option Ptr} {stack : Nat}
    (hp : s.procs.lookup p = some pr) (hnone : pr.threads = none)
    (h : s.getMainThread P (some p) thread stack = some (r, s')) : ProcessesFixed s s' := by
  obtain ⟨s₁, hthread, hupdate⟩ := getMainThread_cases pr hp hnone h
  exact (threadCreate hthread).trans (.updateProcess hupdate fun _ => rfl)

theorem unlinkThread (h : s.unlinkThread t = some s') : ProcessesFixed s s' := by
  rcases unlinkThread_cases h with rfl | ⟨p, next, h⟩ | ⟨prev, next, h⟩
  · exact .of_eq rfl rfl rfl
  · exact .updateProcess h fun _ => rfl
  · exact .updateThread h

theorem threadDestroy {thread : Option Ptr} {r : Int}
    (h : s.threadDestroy thread = some (r, s')) : ProcessesFixed s s' := by
  rcases threadDestroy_cases h with ⟨-, rfl⟩ | ⟨-, t, s₁, s₂, -, hs₁, hs₂, rfl⟩
  · exact .of_eq rfl rfl rfl
  · have hcli : ProcessesFixed s s.cli := .of_eq rfl rfl rfl
    have hready := hcli.trans (.of_stores (unlinkReady_stores hs₁))
    exact (hready.trans (.unlinkThread hs₂)).trans (.of_eq rfl rfl rfl)

theorem destroyThreads {n : Nat} {thread : Option Ptr}
    (h : s.destroyThreads n thread = some s') : ProcessesFixed s s' :=
  destroyThreads_keeps (fun _ => .of_eq rfl rfl rfl) trans threadDestroy h

end ProcessesFixed

end Kernel

end Leenix
