import Leenix.Proc.Effects

/-!
# Critical sections

Every store to a ready-queue cell is logged with the interrupt flag of its
moment (`QueueWrite`). All of them are made with interrupts disabled, in every
run and from every queue contents, except the two of a dequeue in
`scheduler_tick`: the `scheduler_post` before it ends in `sti`, and the `cli`
comes only after it. A run is therefore free of unprotected stores exactly when
none of its ticks takes a thread (`run_protected_iff`).
-/

namespace Leenix

namespace Kernel

/-- A tick in this state takes no thread out of a queue: the time slice is not
over, or the queues that the tick scans are empty and the current thread is not
posted to one of them. -/
def TakesNone (s : Kernel) : Prop :=
  s.SliceOver →
    (∀ i, i < processPriMax → s.queue i = none) ∧
      ∀ c th, s.currentThread = some c → s.threads.lookup c = some th →
        th.state = .terminated ∨ processPriMax ≤ th.priority

/-- The step makes no dequeue with interrupts enabled. -/
def TickProtected (s : Kernel) : Op → Prop
  | .schedulerTick _ => s.TakesNone
  | _ => True

variable {P : Platform} {s s' : Kernel} {op : Op} {tr : List (Edge Kernel Op)}

/-- The stores logged between two states. -/
def Logged (s s' : Kernel) (Q : Prop) : Prop :=
  ∃ ws, s'.writes = ws ++ s.writes ∧ ((∀ w ∈ ws, w.interruptsOff = true) ↔ Q)

theorem Guarded.logged (h : Guarded s s') : Logged s s' True :=
  let ⟨ws, hws, hok⟩ := h
  ⟨ws, hws, iff_of_true hok trivial⟩

theorem guarded_switch {n : Ptr} (h : s.schedulerSwitch P (some n) = some s') : Guarded s s' := by
  rcases schedulerSwitch_cases h with ⟨-, rfl⟩ | ⟨th, -, -, -, -, hwrites, -, -⟩
  · exact .of_eq rfl
  · exact .of_eq hwrites

/-- The dispatch loop is protected when it is entered with interrupts disabled. -/
theorem guarded_takeReady {n : Nat} {r : Option Ptr} (hints : s.ints = false)
    (h : s.takeReady n = some (r, s')) : Guarded s s' := by
  rcases takeReady_cases h with ⟨-, rfl, -⟩ | ⟨i, t, th, -, -, -, -, rfl⟩
  · exact .of_eq rfl
  · exact ⟨[⟨.nextReady t, true⟩, ⟨.queue i, true⟩], by simp [hints], by simp⟩

theorem guarded_threadExit (h : s.threadExit P = some s') : Guarded s s' := by
  obtain ⟨c, th, r, s₂, -, -, htake, hcases⟩ := threadExit_cases h
  have htaken : Guarded s s₂ := by
    have hloop := guarded_takeReady rfl htake
    exact Guarded.trans (.of_eq rfl) hloop
  rcases hcases with ⟨-, rfl⟩ | ⟨n, -, hswitch⟩
  · exact htaken.trans (.of_eq rfl)
  · exact htaken.trans (guarded_switch hswitch)

theorem guarded_threadCreate {p : Ptr} {entry arg stack : Nat} {thread r : Option Ptr}
    (h : s.threadCreate P p entry arg thread stack = some (r, s')) : Guarded s s' := by
  rcases threadCreate_cases h with ⟨-, rfl⟩ | ⟨t, -, -, -, hwrites, -⟩
  · exact .of_eq rfl
  · exact .of_eq hwrites

theorem guarded_getMainThread {p : Ptr} {pr : Process} {thread r : Option Ptr} {stack : Nat}
    (h : s.getMainThread P (some p) thread stack = some (r, s'))
    (hp : s.procs.lookup p = some pr) : Guarded s s' := by
  cases hthreads : pr.threads with
  | none =>
    obtain ⟨s₁, hcreate, hupdate⟩ := getMainThread_cases pr hp hthreads h
    obtain ⟨pr', -, rfl⟩ := Option.map_eq_some_iff.mp hupdate
    exact (guarded_threadCreate hcreate).trans (.of_eq rfl)
  | some t =>
    rw [getMainThread, Option.bind_eq_bind, hp, Option.bind_some, hthreads] at h
    obtain rfl := (Prod.mk.inj (Option.some.inj h)).2
    exact .of_eq rfl

theorem guarded_processSpawn {openFile : List Byte → Option File} {filename : List Byte}
    {alloc : Alloc} {junk : StackJunk} {r : Int}
    (h : s.processSpawn P openFile filename alloc junk = some (r, s')) : Guarded s s' := by
  obtain ⟨p, s₁, pr, result, entry, vm, -, hs₁, -, -, hcases⟩ := processSpawn_cases h
  have hcreated : Guarded s { s₁ with vm := vm } :=
    (calm_processCreate hs₁).guarded.trans (.of_eq rfl)
  rcases hcases with ⟨-, -, hdestroy⟩ | ⟨-, e, t, s₂, s₃, pr₃, -, hcreate, hupdate, hpost, -, -⟩
  · exact hcreated.trans (calm_processDestroy hdestroy).guarded
  · obtain ⟨pr', -, rfl⟩ := Option.map_eq_some_iff.mp hupdate
    have hposted := (schedulerPost_cases hpost).1.guarded
    exact (hcreated.trans (guarded_threadCreate hcreate)).trans (Guarded.trans (.of_eq rfl) hposted)

theorem guarded_processFork {alloc : Alloc} {r : Int} (h : s.processFork P alloc = some (r, s')) :
    Guarded s s' := by
  rcases processFork_cases h with ⟨-, rfl⟩ | ⟨pp, c, par, ppr, p, s₁, pr, -, -, -, -, -, hs₁, hpr,
    hcases⟩
  · exact .of_eq rfl
  have hcreated : Guarded s s₁ := (calm_cli s).guarded.trans (calm_processCreate hs₁).guarded
  rcases hcases with ⟨-, -, vm, rfl⟩ | ⟨dir, vm, s₂, t, s₃, -, rfl, hs₃, hcases⟩
  · exact hcreated.trans (.of_eq rfl)
  have hchild := guarded_getMainThread hs₃ (Finmap.lookup_insert _)
  have hmain : Guarded s s₃ := hcreated.trans (Guarded.trans (.of_eq rfl) hchild)
  rcases hcases with ⟨-, -, vm', rfl⟩ | ⟨t', ch, s₄, pr₄, -, -, hpost, -, -, rfl⟩
  · exact hmain.trans (.of_eq rfl)
  · have hposted := (schedulerPost_cases hpost).1.guarded
    exact (hmain.trans (.of_eq rfl)).trans (hposted.trans (.of_eq rfl))

/-! ## The tick -/

/-- A post leaves the scanned queues empty exactly when they were empty and the
thread does not go into one of them. -/
theorem schedulerPost_empty_iff {c : Ptr} {th : Thread} (hth : s.threads.lookup c = some th)
    (h : s.schedulerPost (some c) = some s') :
    (∀ i, i < processPriMax → s'.queue i = none) ↔
      (∀ i, i < processPriMax → s.queue i = none) ∧
        (th.state = .terminated ∨ processPriMax ≤ th.priority) := by
  obtain ⟨-, -, hqueue⟩ := schedulerPost_cases h
  rcases hqueue with ⟨hterm, hsame⟩ | ⟨t, th', ht, hth', hlive, -, hhead, hother⟩
  · rw [hsame]
    exact ⟨fun hnone => ⟨hnone, .inl (hterm c th rfl hth)⟩, And.left⟩
  · obtain rfl := Option.some.inj ht
    obtain rfl := Option.some.inj (hth.symm.trans hth')
    constructor
    · intro hnone
      have hprio : processPriMax ≤ th.priority := by
        by_contra hlt
        exact hhead (hnone _ (Nat.lt_of_not_le hlt))
      refine ⟨fun i hi => ?_, .inr hprio⟩
      rw [← hother i (by omega)]
      exact hnone i hi
    · rintro ⟨hnone, hcur⟩ i hi
      have hprio : processPriMax ≤ th.priority := hcur.resolve_left hlive
      rw [hother i (by omega)]
      exact hnone i hi

/-- `TakesNone`, for the current thread and its slice at hand. -/
theorem takesNone_iff {c : Ptr} {th : Thread} (hc : s.currentThread = some c)
    (hth : s.threads.lookup c = some th) (hleft : sliceLeft th.timeSlice = 0) :
    s.TakesNone ↔ (∀ i, i < processPriMax → s.queue i = none) ∧
      (th.state = .terminated ∨ processPriMax ≤ th.priority) := by
  constructor
  · intro h
    have hboth := h ⟨c, th, hc, hth, hleft⟩
    exact ⟨hboth.1, hboth.2 c th hc hth⟩
  · rintro ⟨hnone, hcur⟩ -
    refine ⟨hnone, fun c' th' hc' hth' => ?_⟩
    obtain rfl := Option.some.inj (hc.symm.trans hc')
    obtain rfl := Option.some.inj (hth.symm.trans hth')
    exact hcur

/-- A tick stores unprotected exactly when it takes a thread: the post that
precedes the dispatch loop has enabled interrupts. -/
theorem logged_schedulerTick {context : Nat}
    (h : { s with ints := false }.schedulerTick P context = some s') :
    Logged s s' s.TakesNone := by
  obtain ⟨c, th, hc, hth, hcases⟩ := schedulerTick_cases h
  rcases hcases with ⟨hleft, rfl⟩ | ⟨hleft, s₂, r, s₃, hpost, htake, hswitch⟩
  · refine ⟨[], rfl, iff_of_true (by simp) ?_⟩
    rintro ⟨c', th', hc', hth', hover⟩
    obtain rfl := Option.some.inj (hc.symm.trans hc')
    obtain rfl := Option.some.inj (hth.symm.trans hth')
    omega
  · have hc : s.currentThread = some c := hc
    have hth : s.threads.lookup c = some th := hth
    rw [Logged, takesNone_iff hc hth hleft]
    have hempty := schedulerPost_empty_iff (Finmap.lookup_insert _) hpost
    obtain ⟨hcalm, hints, -⟩ := schedulerPost_cases hpost
    obtain ⟨ws, hws, hok⟩ := hcalm.guarded
    rcases takeReady_cases htake with ⟨rfl, rfl, hnone⟩ | ⟨i, t, tht, hi, hq, rfl, -, rfl⟩
    · rcases hswitch with ⟨-, rfl⟩ | ⟨n, hn, -⟩
      · exact ⟨ws, hws, iff_of_true hok (hempty.mp hnone)⟩
      · cases hn
    · rcases hswitch with ⟨hn, -⟩ | ⟨n, -, hswitch⟩
      · cases hn
      · obtain ⟨ws', hws', -⟩ := guarded_switch hswitch
        -- the loop's own stores were made with interrupts enabled
        refine ⟨ws' ++ ⟨.nextReady t, false⟩ :: ⟨.queue i, false⟩ :: ws, ?_, iff_of_false ?_ ?_⟩
        · rw [hws']
          simp [cli, hints, hws]
        · intro hall
          have hqueue := hall ⟨.queue i, false⟩ (by simp)
          cases hqueue
        · intro hnone
          have hnil := hempty.mpr hnone i hi
          rw [hq] at hnil
          cases hnil

/-- What one step logs: protected stores only, or a tick that takes a thread. -/
theorem logged_exec (h : s.exec P op = some s') : Logged s s' (s.TickProtected op) := by
  obtain ⟨-, hcall⟩ := exec_eq_some.mp h
  cases op with
  | processCreate p name priority => exact (calm_processCreate hcall).guarded.logged
  | processDestroy p => exact (calm_processDestroy hcall).guarded.logged
  | processSpawn openFile filename alloc junk =>
    obtain ⟨⟨r, s₁⟩, hspawn, rfl⟩ := Option.map_eq_some_iff.mp hcall
    exact (guarded_processSpawn hspawn).logged
  | processFork alloc =>
    obtain ⟨⟨r, s₁⟩, hfork, rfl⟩ := Option.map_eq_some_iff.mp hcall
    exact (guarded_processFork hfork).logged
  | threadCreate p entry arg thread stack =>
    obtain ⟨⟨r, s₁⟩, hcreate, rfl⟩ := Option.map_eq_some_iff.mp hcall
    exact (guarded_threadCreate hcreate).logged
  | threadDestroy thread =>
    obtain ⟨⟨r, s₁⟩, hdestroy, rfl⟩ := Option.map_eq_some_iff.mp hcall
    exact (calm_threadDestroy hdestroy).guarded.logged
  | schedulerPost thread => exact (schedulerPost_cases hcall).1.guarded.logged
  | schedulerTick context => exact logged_schedulerTick hcall
  | threadExit => exact (guarded_threadExit hcall).logged
  | work mem ints vm =>
    obtain rfl := Option.some.inj hcall
    exact (Guarded.of_eq rfl).logged

/-- **Critical sections.** In a run from any state, whatever the queues hold,
all stores to the ready queues are made with interrupts disabled exactly when
no tick takes a thread. -/
theorem run_protected_iff (hrun : Run (exec P) s tr s') :
    ∃ ws, s'.writes = ws ++ s.writes ∧
      ((∀ w ∈ ws, w.interruptsOff = true) ↔ ∀ e ∈ tr, e.pre.TickProtected e.op) := by
  induction hrun with
  | nil => exact ⟨[], rfl, by simp⟩
  | snoc _ hlast ih =>
    obtain ⟨ws, hws, hiff⟩ := ih
    obtain ⟨ws', hws', hiff'⟩ := logged_exec hlast
    refine ⟨ws' ++ ws, by rw [hws', hws, List.append_assoc], ?_⟩
    simp only [List.forall_mem_append, List.forall_mem_singleton, hiff, hiff']
    exact and_comm

/-- A tick within the time slice. -/
theorem run_protected_iff_tick : ∃ ws,
    ([Op.schedulerTick 64].foldl (Run.next (exec samplePlatform)) sample).writes =
      ws ++ sample.writes ∧
    ((∀ w ∈ ws, w.interruptsOff = true) ↔
      ∀ e ∈ Run.replay (exec samplePlatform) sample [.schedulerTick 64],
        e.pre.TickProtected e.op) :=
  run_protected_iff (Run.of_defined _ (by decide))

/-- Five ticks right after `scheduler_init`: the dequeue of the fifth stores to
`queue[5]` with interrupts enabled. -/
theorem dequeue_unprotected : ∃ tr s, Run (exec samplePlatform) sample tr s ∧
    (∀ e ∈ tr, e.pre.Allowed e.op) ∧ ⟨.queue 5, false⟩ ∈ s.writes := by
  refine ⟨_, _, Run.of_defined (List.replicate 5 (Op.schedulerTick 64)) (by decide), ?_, by decide⟩
  simp [List.replicate, Run.replay, Allowed]

end Kernel

end Leenix
