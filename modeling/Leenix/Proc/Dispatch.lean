import Leenix.Proc.Invariant
import Leenix.Proc.Entry

/-!
# Which thread a dispatch selects

`scheduler_tick` and `thread_exit` search the ready queues from
`PROCESS_PRI_MAX - 1` down, while `scheduler_init` and `scheduler_post` use the
indices up to `PROCESS_PRI_MAX`.

- `RunsBest ready s'`: from the queues `ready`, the head of the nonempty queue with
  the largest index runs, and the queues lose that thread and no other.
- `takeReady_best`: with queue `PROCESS_PRI_MAX` empty, the search finds that head.
- `not_runsBest`: with a thread in it, the search leaves the best thread queued.
- `runsBest_iff`: so a dispatch is right exactly when no thread waits at
  `PROCESS_PRI_MAX`. In particular `thread_exit` may idle while one does.
-/

namespace Leenix

namespace Kernel

variable {P : Platform} {s s' s₂ s₃ : Kernel} {ready : Nat → List Ptr} {c t : Ptr}

/-- The queues are the lists `ready`, and the threads in them are threads of live
processes. -/
structure WellQueued (s : Kernel) (ready : Nat → List Ptr) : Prop where
  rep : ReadyRep s ready
  process : ∀ i, ∀ t ∈ ready i, ∃ th p pr, s.threads.lookup t = some th ∧ th.parent = some p ∧
    s.procs.lookup p = some pr

/-- The head of the highest-priority nonempty queue is the current thread, and
the queues are those of before without it. -/
def RunsBest (ready : Nat → List Ptr) (s' : Kernel) : Prop :=
  ∀ i t rest, ready i = t :: rest → (∀ j, i < j → ready j = []) →
    s'.currentThread = some t ∧ ReadyRep s' (Function.update ready i rest)

/-- A tick that ends the slice of the current thread has queued it again, in the
state `s₂`. -/
def Requeues (s : Kernel) (context : Nat) (s₂ : Kernel) : Prop :=
  ∃ c th, s.currentThread = some c ∧ s.threads.lookup c = some th ∧ sliceLeft th.timeSlice = 0 ∧
    { s with
      threads := s.threads.insert c { th with trapFrame := context, timeSlice := slice }
    }.schedulerPost (some c) = some s₂

/-- Storing fields that are neither the link nor the priority keeps the queues. -/
theorem ReadyRep.insertThread (h : ReadyRep s ready) {th : Thread} (th' : Thread)
    (ht : s.threads.lookup t = some th) (hnext : th'.nextReady = th.nextReady)
    (hprio : th'.priority = th.priority) (hqueue : s'.queue = s.queue)
    (hthreads : s'.threads = s.threads.insert t th') : ReadyRep s' ready := by
  refine h.transport (fun i _ => congrFun hqueue i) (fun i x _ => ?_) fun i x _ => ?_
  · by_cases hxt : x = t
    · subst hxt
      simp [nextReady, proj, hthreads, ht, hnext]
    · simp [nextReady, hthreads, hxt]
  · by_cases hxt : x = t
    · subst hxt
      simp [core, proj, hthreads, ht, Thread.core, hprio]
    · simp [core, hthreads, hxt]

/-- The scheduler's stores free no thread. -/
theorem Stores.live (h : Stores s s') (ht : s.threads.lookup t ≠ none) :
    s'.threads.lookup t ≠ none := by
  induction h with
  | refl => exact ht
  | tail _ hstore ih =>
    have hinsert : ∀ {m : Heap Thread} (x : Ptr) (th : Thread), m.lookup t ≠ none →
        (m.insert x th).lookup t ≠ none := by
      intro m x th hm
      by_cases htx : t = x
      · subst htx
        simp
      · rwa [Finmap.lookup_insert_of_ne _ htx]
    cases hstore with
    | flag => exact ih
    | queue => exact ih
    | queueTail => exact ih
    | link h =>
      obtain ⟨th, -, rfl⟩ := Option.map_eq_some_iff.mp h
      exact hinsert _ _ ih
    | state h =>
      obtain ⟨th, -, rfl⟩ := Option.map_eq_some_iff.mp h
      exact hinsert _ _ ih

/-- The current thread of a requeue, after it. -/
theorem Requeues.current {context : Nat} (h : s.Requeues context s₂) :
    ∃ c cur, s₂.currentThread = some c ∧ s₂.threads.lookup c = some cur := by
  obtain ⟨c, th, hc, hth, -, hpost⟩ := h
  have hcalm := (schedulerPost_cases hpost).1
  have hlive : s₂.threads.lookup c ≠ none :=
    (schedulerPost_stores hpost).live (by simp)
  obtain ⟨cur, hcur⟩ := Option.ne_none_iff_exists'.mp hlive
  exact ⟨c, cur, hcalm.currentThread.trans hc, hcur⟩

/-- With correct queue ends, a requeue appends the current thread to its queue. -/
theorem WellQueued.requeues {a : Sched} {th : Thread} {p : Ptr} {pr : Process}
    (h : s.WellQueued a.ready) (htails : TailsAgree s a.ready) (hc : s.currentThread = some c)
    (hth : s.threads.lookup c = some th) (hp : th.parent = some p)
    (hpr : s.procs.lookup p = some pr) (hzero : sliceLeft th.timeSlice = 0)
    (hlive : th.state ≠ .terminated) (hprio : th.priority ≤ processPriMax) (hidle : ¬a.Waiting c)
    (context : Nat) :
    ∃ s₂, s.Requeues context s₂ ∧ s₂.WellQueued (a.enqueue th.priority c).ready := by
  let th₁ : Thread := { th with trapFrame := context, timeSlice := slice }
  let s₁ : Kernel := { s with threads := s.threads.insert c th₁ }
  have hrep₁ : ReadyRep s₁ a.ready := h.rep.insertThread th₁ hth rfl rfl rfl rfl
  have hth₁ : s₁.threads.lookup c = some th₁ := Finmap.lookup_insert _
  obtain ⟨s₂, hpost, hrep₂, -, hframe₂, hcore₂⟩ :=
    schedulerPost_spec hrep₁ htails hth₁ hlive hprio hidle
  refine ⟨s₂, ⟨c, th, hc, hth, hzero, hpost⟩, hrep₂, fun i x hx => ?_⟩
  -- the processes of the queued threads are those of before
  have hparent : ∃ q qr, (s₂.core x).map Thread.parent = some (some q) ∧
      s.procs.lookup q = some qr := by
    rw [hcore₂]
    by_cases hxc : x = c
    · subst hxc
      exact ⟨p, pr, by simp [Thread.core, th₁, hp], hpr⟩
    · rcases Sched.mem_enqueue.mp hx with hx | ⟨-, rfl⟩
      · obtain ⟨thx, q, qr, hthx, hq, hqr⟩ := h.process i x hx
        exact ⟨q, qr, by simp [hxc, core, s₁, proj, hthx, Thread.core, hq], hqr⟩
      · exact absurd rfl hxc
  obtain ⟨q, qr, hq, hqr⟩ := hparent
  obtain ⟨core, hcore, hq⟩ := Option.map_eq_some_iff.mp hq
  obtain ⟨thx, hthx, rfl⟩ := lookup_of_core hcore
  exact ⟨thx, q, qr, hthx, hq, hframe₂.procs ▸ hqr⟩

/-! ## The search -/

/-- With no thread at `PROCESS_PRI_MAX`, the search finds every queue empty or takes
the head of the best one. -/
theorem takeReady_best (h : ReadyRep s ready) (hmax : ready processPriMax = []) :
    (∀ i, ready i = []) ∧ s.takeReady processPriMax = some (none, s) ∨
    ∃ i t rest s', ready i = t :: rest ∧ (∀ j, i < j → ready j = []) ∧
      s.takeReady processPriMax = some (some t, s') ∧
      ReadyRep s' (Function.update ready i rest) ∧ QueueFrame s s' ∧ s'.core = s.core := by
  have habove : ∀ j, processPriMax ≤ j → ready j = [] := by
    intro j hj
    rcases Nat.eq_or_lt_of_le hj with rfl | hj
    · exact hmax
    · exact h.out j hj
  rcases takeReady_spec (a := ⟨ready, fun _ => []⟩) h processPriMax (Nat.le_succ _) with
    ⟨hempty, htake⟩ | ⟨i, t, rest, s', hi, hready, hbetween, htake, hrep, -, hframe, hcore, -⟩
  · refine .inl ⟨fun i => ?_, htake⟩
    by_cases hi : i < processPriMax
    · exact hempty i hi
    · exact habove i (Nat.le_of_not_lt hi)
  · refine .inr ⟨i, t, rest, s', hready, fun j hj => ?_, htake, ?_, hframe, hcore⟩
    · by_cases hj' : j < processPriMax
      · exact hbetween j hj hj'
      · exact habove j (Nat.le_of_not_lt hj')
    · have hrest : (ready i).tail = rest := congrArg List.tail hready
      rw [← hrest]
      exact hrep

/-- The best queue is determined by the lists. -/
theorem best_unique {i j : Nat} {u : Ptr} {us ts : List Ptr} (hi : ready i = t :: ts)
    (habove : ∀ k, i < k → ready k = []) (hj : ready j = u :: us)
    (habove' : ∀ k, j < k → ready k = []) : i = j := by
  have hle : i ≤ j := Nat.le_of_not_lt fun hlt => by simp [habove' i hlt] at hi
  have hge : j ≤ i := Nat.le_of_not_lt fun hlt => by simp [habove j hlt] at hj
  exact Nat.le_antisymm hle hge

/-- The switch to a thread of a live process makes it the current one and leaves
the queues alone. -/
theorem schedulerSwitch_runs {cur th : Thread} {p : Ptr} {pr : Process}
    (hc : s.currentThread = some c) (hcur : s.threads.lookup c = some cur)
    (hth : s.threads.lookup t = some th) (hp : th.parent = some p)
    (hpr : s.procs.lookup p = some pr) (hrep : ReadyRep s ready) :
    ∃ s', s.schedulerSwitch P (some t) = some s' ∧ s'.currentThread = some t ∧
      ReadyRep s' ready ∧ s'.halted = s.halted := by
  by_cases htc : t = c
  · subst htc
    exact ⟨s, schedulerSwitch_self P hc, hc, hrep, rfl⟩
  · obtain ⟨vm, hvm⟩ := switchAddressSpace_isSome P (s := s) cur hp hpr
    refine ⟨_, schedulerSwitch_other P htc hc hcur hth hvm, rfl, ?_, rfl⟩
    exact hrep.insertThread { th with state := .running } hth rfl rfl rfl rfl

/-- With no thread at `PROCESS_PRI_MAX`, the search and the switch run the best
thread. -/
theorem WellQueued.dispatch {cur : Thread} (h : s.WellQueued ready)
    (hmax : ready processPriMax = []) (hc : s.currentThread = some c)
    (hcur : s.threads.lookup c = some cur) (P : Platform) (ints : Bool → Bool) :
    (∀ i, ready i = []) ∧ s.takeReady processPriMax = some (none, s) ∨
    ∃ n s₂ s', s.takeReady processPriMax = some (some n, s₂) ∧
      { s₂ with ints := ints s₂.ints }.schedulerSwitch P (some n) = some s' ∧
      RunsBest ready s' ∧ s'.halted = s.halted := by
  rcases takeReady_best h.rep hmax with hempty |
    ⟨i, t, rest, s₂, hi, habove, htake, hrep, hframe, hcore⟩
  · exact .inl hempty
  · obtain ⟨th, p, pr, hth, hp, hpr⟩ := h.process i t (by simp [hi])
    -- the search moves links only
    obtain ⟨th₂, hth₂, hth₂core⟩ := lookup_of_core (hcore ▸ core_of_lookup hth)
    obtain ⟨cur₂, hcur₂, -⟩ := lookup_of_core (hcore ▸ core_of_lookup hcur)
    have hparent : th₂.core.parent = th.core.parent := by rw [hth₂core]
    have hp₂ : th₂.parent = some p := hparent.trans hp
    obtain ⟨s', hs', hrun, hrep', hhalted⟩ :=
      schedulerSwitch_runs (P := P) (s := { s₂ with ints := ints s₂.ints })
        (hframe.currentThread.trans hc) hcur₂ hth₂ hp₂ (hframe.procs ▸ hpr)
        (hrep.transport (fun _ _ => rfl) (fun _ _ _ => rfl) fun _ _ _ => rfl)
    refine .inr ⟨t, s₂, s', htake, hs', fun j u us hj habove' => ?_, hhalted.trans hframe.halted⟩
    obtain rfl := best_unique hi habove hj habove'
    obtain ⟨rfl, rfl⟩ := List.cons.inj (hi.symm.trans hj)
    exact ⟨hrun, hrep'⟩

/-- A dispatch that did not touch queue `PROCESS_PRI_MAX` has passed over the threads
in it. -/
theorem not_runsBest (h : ReadyRep s ready) (hmax : ready processPriMax ≠ [])
    (hqueue : s'.queue processPriMax = s.queue processPriMax) : ¬RunsBest ready s' := by
  intro hbest
  obtain ⟨t, rest, hready⟩ := List.exists_cons_of_ne_nil hmax
  obtain ⟨-, hrep⟩ := hbest processPriMax t rest hready h.out
  have hhead : s'.queue processPriMax = rest.head? := by
    rw [hrep.queue_eq_head (Nat.le_refl _), Function.update_self]
  have hmem : t ∈ rest := by
    refine List.mem_of_head? ?_
    rw [← hhead, hqueue, h.queue_eq_head (Nat.le_refl _), hready]
    rfl
  have hnd := h.nodup processPriMax
  rw [hready] at hnd
  exact (List.nodup_cons.mp hnd).1 hmem

theorem takeReady_queue_max {r : Option Ptr} (h : s.takeReady processPriMax = some (r, s₂)) :
    s₂.queue processPriMax = s.queue processPriMax := by
  rcases takeReady_cases h with ⟨-, rfl, -⟩ | ⟨i, t, th, hi, -, -, -, rfl⟩
  · rfl
  · exact Function.update_of_ne (Nat.ne_of_gt hi) _ _

theorem schedulerSwitch_queue {n : Ptr} (h : s.schedulerSwitch P (some n) = some s') :
    s'.queue = s.queue := by
  rcases schedulerSwitch_eq_some h with ⟨-, rfl⟩ | ⟨c, cur, th, vm, -, -, -, -, -, rfl⟩
  · rfl
  · rfl

/-! ## The two dispatchers -/

/-- The tick that ends a slice. -/
theorem Requeues.tick_runsBest_iff {context : Nat} (hre : s.Requeues context s₂)
    (h : s₂.WellQueued ready) :
    (∃ s', s.schedulerTick P context = some s' ∧ RunsBest ready s') ↔
      ready processPriMax = [] := by
  obtain ⟨c₂, cur, hc₂, hcur⟩ := hre.current
  obtain ⟨c, th, hc, hth, hzero, hpost⟩ := hre
  constructor
  · rintro ⟨s', htick, hbest⟩
    by_contra hmax
    refine not_runsBest h.rep hmax ?_ hbest
    obtain ⟨c', th', hc', hth', hcases⟩ := schedulerTick_cases htick
    obtain rfl := Option.some.inj (hc.symm.trans hc')
    obtain rfl := Option.some.inj (hth.symm.trans hth')
    rcases hcases with ⟨hleft, -⟩ | ⟨-, s₁, r, s₃, hpost', htake, hend⟩
    · omega
    · obtain rfl := Option.some.inj (hpost.symm.trans hpost')
      have hqueue := takeReady_queue_max htake
      rcases hend with ⟨-, rfl⟩ | ⟨n, -, hswitch⟩
      · exact hqueue
      · exact (congrFun (schedulerSwitch_queue hswitch) _).trans hqueue
  · intro hmax
    rcases h.dispatch hmax hc₂ hcur P (fun _ => false) with ⟨hempty, htake⟩ |
      ⟨n, s₃, s', htake, hswitch, hbest, -⟩
    · refine ⟨s₂, ?_, fun i t rest hi => by simp [hempty i] at hi⟩
      rw [hc] at hpost
      simp only [schedulerTick, hc, hth, Kernel.updateThread, Option.map_some, Option.bind_eq_bind,
        Option.bind_some, hzero, Nat.lt_irrefl, if_false, Finmap.lookup_insert,
        Finmap.insert_insert, hpost, htake, Option.pure_def]
    · exact ⟨s', (Inv.schedulerTick_over P hc hth hzero hpost htake).trans hswitch, hbest⟩

/-- The exit of the current thread. -/
theorem WellQueued.exit_runsBest_iff {cur : Thread} (h : s.WellQueued ready)
    (hc : s.currentThread = some c) (hcur : s.threads.lookup c = some cur)
    (hhalted : s.halted = false) :
    (∃ s', s.threadExit P = some s' ∧ RunsBest ready s' ∧
      (s'.halted = true → ∀ i, ready i = [])) ↔ ready processPriMax = [] := by
  -- the exiting thread, marked
  let s₁ : Kernel := { s with
    ints := false
    threads := s.threads.insert c { cur with state := .terminated } }
  have h₁ : s₁.WellQueued ready := by
    refine ⟨h.rep.insertThread { cur with state := .terminated } hcur rfl rfl rfl rfl,
      fun i x hx => ?_⟩
    obtain ⟨th, p, pr, hth, hp, hpr⟩ := h.process i x hx
    by_cases hxc : x = c
    · subst hxc
      obtain rfl := Option.some.inj (hth.symm.trans hcur)
      exact ⟨_, p, pr, Finmap.lookup_insert _, hp, hpr⟩
    · exact ⟨th, p, pr, (Finmap.lookup_insert_of_ne _ hxc).trans hth, hp, hpr⟩
  constructor
  · rintro ⟨s', hexit, hbest, -⟩
    by_contra hmax
    refine not_runsBest h.rep hmax ?_ hbest
    obtain ⟨c', th', r, s₂, -, -, htake, hend⟩ := threadExit_cases hexit
    have hqueue := takeReady_queue_max htake
    rcases hend with ⟨-, rfl⟩ | ⟨n, -, hswitch⟩
    · exact hqueue
    · exact (congrFun (schedulerSwitch_queue hswitch) _).trans hqueue
  · intro hmax
    rcases h₁.dispatch hmax (c := c) hc (Finmap.lookup_insert _) P id with ⟨hempty, htake⟩ |
      ⟨n, s₂, s', htake, hswitch, hbest, hhalted'⟩
    · exact ⟨_, Inv.threadExit_halts P hc hcur htake, fun i t rest hi => by simp [hempty i] at hi,
        fun _ => hempty⟩
    · refine ⟨s', (Inv.threadExit_switches P hc hcur htake).trans hswitch, hbest, fun hh => ?_⟩
      rw [hhalted', hhalted] at hh
      cases hh

/-- **Dispatch.** The tick that ends a slice runs the best of the threads that are
queued after the requeue, and `thread_exit` the best of the queued threads, idling
only when there is none, exactly when no thread is queued at `PROCESS_PRI_MAX`. -/
theorem runsBest_iff (P : Platform) (s : Kernel) :
    (∀ context s₂ ready, s.Requeues context s₂ → s₂.WellQueued ready →
      ((∃ s', s.schedulerTick P context = some s' ∧ RunsBest ready s') ↔
        ready processPriMax = [])) ∧
    ∀ c cur ready, s.currentThread = some c → s.threads.lookup c = some cur →
      s.halted = false → s.WellQueued ready →
      ((∃ s', s.threadExit P = some s' ∧ RunsBest ready s' ∧
        (s'.halted = true → ∀ i, ready i = [])) ↔ ready processPriMax = []) :=
  ⟨fun _ _ _ hre h => hre.tick_runsBest_iff h,
    fun _ _ _ hc hcur hhalted h => h.exit_runsBest_iff hc hcur hhalted⟩

/-- Kernel thread 1 runs with its last tick left, and thread 2 of the same process
waits with priority `priority`. -/
def waitingAt (priority : Nat) : Kernel := { sample with
  threads := (∅ : Heap Thread)
    |>.insert 1 ⟨1, 5, .running, some 1, 0, 1, 0, some 2, none⟩
    |>.insert 2 ⟨2, priority, .ready, some 1, 4096, slice, 8120, none, none⟩
  queue := Function.update (fun _ => none) priority (some 2)
  queueTail := Function.update (fun _ => none) priority (some 2) }

/-- The queues of `waitingAt`. -/
def queuedAt (priority : Nat) : Nat → List Ptr :=
  Function.update (fun _ => []) priority [2]

theorem waitingAt_wellQueued {priority : Nat} (h : priority ≤ processPriMax) :
    (waitingAt priority).WellQueued (queuedAt priority) := by
  have hmem : ∀ {i t}, t ∈ queuedAt priority i → i = priority ∧ t = 2 := by
    intro i t ht
    by_cases hi : i = priority
    · subst hi
      exact ⟨rfl, by simpa [queuedAt] using ht⟩
    · simp [queuedAt, hi] at ht
  refine ⟨⟨fun i _ => ?_, fun i hi => ?_, fun i t ht => ?_⟩, fun i t ht => ?_⟩
  · by_cases hi : i = priority
    · subst hi
      simp [queuedAt, waitingAt, Seg, nextReady]
    · simp [queuedAt, waitingAt, hi]
  · have hne : i ≠ priority := by omega
    simp [queuedAt, hne]
  · obtain ⟨rfl, rfl⟩ := hmem ht
    exact ⟨_, by simp [waitingAt, core]; rfl, rfl⟩
  · obtain ⟨rfl, rfl⟩ := hmem ht
    exact ⟨_, 1, _, Finmap.lookup_insert _, rfl, rfl⟩

/-- A thread of the default priority: both dispatchers run it. -/
theorem runsBest_iff_default :
    (∃ s₂ ready, (waitingAt 5).Requeues 64 s₂ ∧ s₂.WellQueued ready ∧
      ((∃ s', (waitingAt 5).schedulerTick samplePlatform 64 = some s' ∧ RunsBest ready s') ↔
        ready processPriMax = [])) ∧
    ((∃ s', (waitingAt 5).threadExit samplePlatform = some s' ∧ RunsBest (queuedAt 5) s' ∧
      (s'.halted = true → ∀ i, queuedAt 5 i = [])) ↔ queuedAt 5 processPriMax = []) := by
  have h : (waitingAt 5).WellQueued (queuedAt 5) := waitingAt_wellQueued (by decide)
  constructor
  · have hqueue : ∀ i, queuedAt 5 i = if i = 5 then [2] else [] := by
      intro i
      by_cases hi : i = 5
      · simp [queuedAt, hi]
      · simp [queuedAt, hi]
    have htails : TailsAgree (waitingAt 5) (queuedAt 5) := by
      intro i _ hne
      by_cases hi : i = 5
      · subst hi
        rfl
      · simp [hqueue, hi] at hne
    have hidle : ¬Sched.Waiting ⟨queuedAt 5, fun _ => []⟩ 1 := by
      rintro ⟨i, hi⟩
      simp [hqueue] at hi
    obtain ⟨s₂, hre, h₂⟩ := WellQueued.requeues (a := ⟨queuedAt 5, fun _ => []⟩) (c := 1) h htails
      rfl rfl rfl rfl rfl (by decide) (by decide) hidle 64
    exact ⟨s₂, _, hre, h₂, (runsBest_iff samplePlatform (waitingAt 5)).1 64 s₂ _ hre h₂⟩
  · exact (runsBest_iff samplePlatform (waitingAt 5)).2 1 _ _ rfl rfl rfl h

/-- A thread of priority `PROCESS_PRI_MAX`: the current thread exits, and the kernel
idles. -/
theorem max_priority_never_runs :
    (waitingAt 10).WellQueued (queuedAt 10) ∧ queuedAt 10 processPriMax = [2] ∧
    ((waitingAt 10).threadExit samplePlatform).map halted = some true ∧
    ¬∃ s', (waitingAt 10).threadExit samplePlatform = some s' ∧ RunsBest (queuedAt 10) s' ∧
      (s'.halted = true → ∀ i, queuedAt 10 i = []) := by
  refine ⟨waitingAt_wellQueued (by decide), by decide, by decide, ?_⟩
  rintro ⟨s', hexit, -, hidle⟩
  obtain rfl : s' = _ := Option.some.inj (hexit.symm.trans rfl)
  have := hidle rfl 10
  simp [queuedAt] at this

end Kernel

end Leenix
