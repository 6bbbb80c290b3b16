import Leenix.Proc.Queues

/-!
# Priorities

A process has a priority, which `process_create` stores, but `thread_create` gives
every thread the default one. So all threads share one ready queue, and the
scheduler dispatches in the order of the posts, whatever the priorities are.

- `run_postOrder`: after every run the queue holds the threads posted and not
  dispatched or destroyed since, in the order of their posts.
- `Inv.dispatch_first`: a dispatch selects the one posted first.
- `run_picksHighest_iff`: hence the dispatches of a run go by process priority
  exactly when at each of them the thread posted first belongs to a process of
  highest priority.
-/

namespace Leenix

namespace Kernel

/-- The priority of a thread's process. -/
def processPriority (s : Kernel) (t : Ptr) : Option Nat :=
  (s.threads.lookup t).bind fun th =>
    th.parent.bind fun p => (s.procs.lookup p).map Process.priority

/-- The step runs the dispatch loop. -/
def Dispatches (e : Edge Kernel Op) : Prop :=
  match e.op with
  | .schedulerTick _ => e.pre.SliceOver
  | .threadExit => True
  | _ => False

/-- The thread is ready when the dispatch loop runs: it waits in a queue, or the
step has just posted it. -/
def ReadyAt (e : Edge Kernel Op) (t : Ptr) : Prop := e.pre.Queued t ∨ Posted e t

/-- The process of `t` has no higher priority than that of `n`. -/
def PriorityLe (s : Kernel) (t n : Ptr) : Prop :=
  ∀ i j, s.processPriority t = some i → s.processPriority n = some j → i ≤ j

/-- The thread that the step dispatches belongs to a process of highest priority
among the ready ones. -/
def PicksHighest (e : Edge Kernel Op) : Prop :=
  ∀ n, Dispatched e n → ∀ t, ReadyAt e t → e.pre.PriorityLe t n

/-- The ready threads at a step after the run `tr`, in the order of their posts. -/
def readyOrder (tr : List (Edge Kernel Op)) (e : Edge Kernel Op) : List Ptr :=
  postOrder tr ++ (postedBy e).toList

/-- Of the threads ready at the step, the one posted first belongs to a process of
highest priority. -/
def FirstIsHighest (tr : List (Edge Kernel Op)) (e : Edge Kernel Op) : Prop :=
  ∀ n, (readyOrder tr e).head? = some n → ∀ t ∈ readyOrder tr e, e.pre.PriorityLe t n

variable {kp kt : Ptr} {junk : Junk} {P : Platform} {mem : Mem} {cpu : Cpu} {vm : Vm} {s s' : Kernel}
  {a : Sched} {op : Op} {tr : List (Edge Kernel Op)} {tl : Ptr → Option Ptr}

/-- After a run of safe steps the default queue holds the threads in the order of
their posts. -/
theorem run_postOrder (hrun : Run (exec P) (started P mem cpu vm kp kt junk) tr s)
    (hok : ∀ e ∈ tr, e.pre.Allowed e.op ∧ e.pre.Safe kp junk e.op) :
    ∃ a, Inv (tailOf kp junk) s a ∧ a.ready processPriDefault = postOrder tr := by
  refine hrun.invariant_ghost
    (P := fun s order => ∃ a, Inv (tailOf kp junk) s a ∧ a.ready processPriDefault = order)
    orderStep hok ⟨_, Inv.started P mem cpu vm kp kt junk, rfl⟩ ?_
  rintro m op m' order ⟨a, hinv, rfl⟩ hstep ⟨hallowed, hsafe⟩
  obtain ⟨a', hinv', -, hordered⟩ := hinv.step hstep hallowed hsafe
  exact ⟨a', hinv', hordered⟩

/-- A dispatch selects the thread posted first, and the threads ready at it are
those of the queue. -/
theorem Inv.dispatch_first (h : Inv tl s a) (hexec : s.exec P op = some s')
    (hd : Dispatches ⟨s, op, s'⟩) :
    (∀ t, ReadyAt ⟨s, op, s'⟩ t ↔
        t ∈ a.ready processPriDefault ++ (postedBy ⟨s, op, s'⟩).toList) ∧
      ∀ n, (a.ready processPriDefault ++ (postedBy ⟨s, op, s'⟩).toList).head? = some n →
        ∀ t, Dispatched ⟨s, op, s'⟩ t ↔ t = n := by
  obtain ⟨hhalted, hcall⟩ := exec_eq_some.mp hexec
  have hqueued : ∀ t, s.Queued t ↔ t ∈ a.ready processPriDefault := fun t =>
    h.waiting_iff.symm.trans h.waiting_iff_default
  cases op with
  | schedulerTick context =>
    have hslice : s.SliceOver := hd
    obtain ⟨-, -, ⟨hnot, -⟩ | ⟨-, c, n, rest, hc, hsplit, -, hcur, -⟩⟩ :=
      h.schedulerTick hhalted hcall
    · exact absurd hslice hnot
    have hposted : postedBy ⟨s, .schedulerTick context, s'⟩ = some c := by
      simpa [postedBy, hslice] using hc
    rw [hposted]
    constructor
    · intro t
      simp [ReadyAt, Posted, hqueued, hslice, hc, eq_comm]
    · intro n' hn' t
      simp only [Sched.enqueue, Function.update_self] at hsplit
      rw [Option.toList_some, hsplit] at hn'
      obtain rfl := Option.some.inj hn'
      simp [Dispatched, hslice, hcur, eq_comm]
  | threadExit =>
    constructor
    · intro t
      simp [ReadyAt, Posted, postedBy, hqueued]
    · intro n' hn' t
      obtain ⟨-, -, ⟨-, -, hempty⟩ | ⟨n, rest, hready, -, hcur, -⟩⟩ := h.threadExit hcall
      · simp [postedBy, hempty] at hn'
      · simp only [postedBy, hready, Option.toList_none, List.append_nil, List.head?_cons,
          Option.some.injEq] at hn'
        subst hn'
        simp [Dispatched, hcur, eq_comm]
  | _ => exact hd.elim

/-- A dispatch goes by priority exactly when the thread posted first does. -/
theorem Inv.picksHighest_iff (h : Inv tl s a) (horder : a.ready processPriDefault = postOrder tr)
    (hexec : s.exec P op = some s') (hd : Dispatches ⟨s, op, s'⟩) :
    PicksHighest ⟨s, op, s'⟩ ↔ FirstIsHighest tr ⟨s, op, s'⟩ := by
  obtain ⟨hready, hfirst⟩ := h.dispatch_first hexec hd
  rw [horder] at hready hfirst
  constructor
  · intro hpicks n hn t ht
    exact hpicks n ((hfirst n hn n).mpr rfl) t ((hready t).mpr ht)
  · intro hhighest n hn t ht
    have hmem := (hready t).mp ht
    obtain ⟨x, xs, hxs⟩ := List.exists_cons_of_ne_nil (List.ne_nil_of_mem hmem)
    have hhead : (readyOrder tr ⟨s, op, s'⟩).head? = some x := by rw [readyOrder, hxs]; rfl
    obtain rfl := (hfirst x hhead n).mp hn
    exact hhighest n hhead t hmem

/-- A step that runs no dispatch loop dispatches nothing. -/
theorem PicksHighest.of_not_dispatches {e : Edge Kernel Op} (h : ¬Dispatches e) :
    PicksHighest e := by
  intro n hn
  obtain ⟨pre, op, post⟩ := e
  cases op with
  | schedulerTick context => exact absurd hn.1 h
  | threadExit => exact absurd trivial h
  | _ => exact hn.elim

/-- **Priorities.** In a run of safe steps every dispatch selects a thread whose
process has the highest priority among the ready ones, exactly when at every
dispatch that is so of the ready thread that was posted first. -/
theorem run_picksHighest_iff (hrun : Run (exec P) (started P mem cpu vm kp kt junk) tr s)
    (hok : ∀ e ∈ tr, e.pre.Allowed e.op ∧ e.pre.Safe kp junk e.op) :
    (∀ e ∈ tr, PicksHighest e) ↔
      ∀ tr₁ e tr₂, tr = tr₁ ++ e :: tr₂ → Dispatches e → FirstIsHighest tr₁ e := by
  constructor
  · rintro hpicks tr₁ e tr₂ rfl hd
    obtain ⟨hrun₁, hstep⟩ := hrun.split_at
    obtain ⟨a, hinv, horder⟩ :=
      run_postOrder hrun₁ fun e he => hok e (List.mem_append_left _ he)
    exact (hinv.picksHighest_iff horder hstep hd).mp (hpicks e (by simp))
  · intro hfirst e he
    by_cases hd : Dispatches e
    · obtain ⟨tr₁, tr₂, rfl, hrun₁, hstep⟩ := hrun.prefix_of_mem he
      obtain ⟨a, hinv, horder⟩ :=
        run_postOrder hrun₁ fun e he => hok e (List.mem_append_left _ he)
      exact (hinv.picksHighest_iff horder hstep hd).mpr (hfirst tr₁ e tr₂ rfl hd)
    · exact .of_not_dispatches hd

/-- A thread of the kernel process is posted and the slice of the kernel thread ends. -/
theorem run_picksHighest_iff_kernel :
    let ops := [Op.threadCreate 1 0 0 (some 2) 4096, .schedulerPost (some 2)] ++
      List.replicate 5 (Op.schedulerTick 64)
    (∀ e ∈ Run.replay (exec samplePlatform) sample ops, PicksHighest e) ↔
      ∀ tr₁ e tr₂, Run.replay (exec samplePlatform) sample ops = tr₁ ++ e :: tr₂ →
        Dispatches e → FirstIsHighest tr₁ e := by
  refine run_picksHighest_iff (Run.of_defined _ (by decide)) ?_
  simp only [List.replicate, List.cons_append, List.nil_append, Run.replay, List.forall_mem_cons]
  refine ⟨⟨show ThreadFresh _ _ _ by decide, trivial⟩, ⟨?_, trivial⟩, ⟨trivial, trivial⟩,
    ⟨trivial, trivial⟩, ⟨trivial, trivial⟩, ⟨trivial, trivial⟩, ⟨trivial, trivial⟩, by simp⟩
  rintro t ⟨⟩
  exact ⟨⟨_, rfl, by decide⟩, by decide, not_queued (fun _ => []) (fun _ _ => rfl) (by simp)⟩

/-- A process of priority 0 and one of priority 10, with a thread each. The first
process's thread is posted first. -/
def twoProcesses : List Op :=
  [.processCreate 2 [] 0, .processCreate 3 [] 10, .threadCreate 2 0 0 (some 2) 4096,
    .threadCreate 3 0 0 (some 3) 8192, .schedulerPost (some 2), .schedulerPost (some 3),
    .schedulerTick 64, .schedulerTick 64, .schedulerTick 64, .schedulerTick 64, .schedulerTick 64]

/-- The tick that ends the slice of the kernel thread dispatches it. -/
theorem low_dispatched_first : ∃ tr s, Run (exec samplePlatform) sample tr s ∧
    (∀ e ∈ tr, e.pre.Allowed e.op) ∧ ∃ e ∈ tr, Dispatched e 2 ∧ e.pre.Queued 3 ∧
      e.pre.processPriority 2 = some 0 ∧ e.pre.processPriority 3 = some 10 ∧ ¬PicksHighest e := by
  have hqueue : ∀ s : Kernel, s.queue 5 = some 2 → s.nextReady 2 = some (some 3) → s.Queued 3 :=
    fun s hq hn => ⟨5, by decide, [2], hq, some 3, hn, rfl⟩
  refine ⟨_, _, Run.of_defined twoProcesses (by decide), ?_, ?_⟩
  · simp only [twoProcesses, Run.replay, List.forall_mem_cons]
    refine ⟨show Finmap.lookup _ _ = none by decide, show Finmap.lookup _ _ = none by decide,
      show ThreadFresh _ _ _ by decide, show ThreadFresh _ _ _ by decide, ?_, ?_, trivial, trivial,
      trivial, trivial, trivial, by simp⟩
    · rintro t ⟨⟩
      exact ⟨⟨_, rfl, by decide⟩, by decide, not_queued (fun _ => []) (fun _ _ => rfl) (by simp)⟩
    · rintro t ⟨⟩
      exact ⟨⟨_, rfl, by decide⟩, by decide,
        not_queued_single (u := 2) (by decide) (by decide) (by decide) (by decide)⟩
  · -- the edge of the last tick
    let e := (Run.replay (exec samplePlatform) sample twoProcesses).get ⟨10, by decide⟩
    have hready : e.pre.Queued 3 := hqueue _ (by decide) (by decide)
    refine ⟨e, List.get_mem _ _, by decide, hready, by decide, by decide, fun hpicks => ?_⟩
    exact absurd (hpicks 2 (by decide) 3 (.inl hready) 10 0 (by decide) (by decide)) (by decide)

end Kernel

end Leenix
