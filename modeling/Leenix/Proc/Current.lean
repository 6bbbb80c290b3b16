import Leenix.Proc.Steps

/-!
# The current thread

Outside the scheduler the current thread is the only one marked running, which
is what keeps `thread_destroy` from freeing it. A tick that finds no other
thread ready breaks this: `scheduler_post` has marked the current thread ready,
and `scheduler_switch` returns early for it (`current_left_ready`). As long as
every expiring time slice finds another thread, the mark is right
(`run_currentRunning`).
-/

namespace Leenix

namespace Kernel

/-- The current thread is marked running, waits in no queue, belongs to
`current_proc`, is the only one marked running, and cannot be destroyed. -/
def CurrentRunning (s : Kernel) : Prop :=
  ∃ c th, s.currentThread = some c ∧ s.threads.lookup c = some th ∧ th.state = .running ∧
    ¬s.Queued c ∧ s.currentProc = th.parent ∧
    (∀ t tht, s.threads.lookup t = some tht → t ≠ c → tht.state ≠ .running) ∧
    s.threadDestroy (some c) = some (-1, { s with ints := true })

/-- The calls that create, post and switch threads, and the code between them. -/
def SwitchOp : Op → Prop
  | .processCreate .. | .threadCreate .. | .schedulerPost _ | .schedulerTick _ | .threadExit
  | .work .. => True
  | _ => False

/-- A time slice that runs out in this step leaves another thread to run. -/
def AnotherReady (s : Kernel) : Op → Prop
  | .schedulerTick _ => s.SliceOver → ∃ t, s.Queued t
  | _ => True

/-- The current thread is marked running, or nothing runs any more. -/
def MarkedRunning (s : Kernel) : Prop :=
  s.halted = false → ∃ c th, s.currentThread = some c ∧ s.fixed c = some th ∧ th.state = .running

variable {tl : Ptr → Option Ptr} {kp kt : Ptr} {junk : Junk} {P : Platform} {mem : Mem} {cpu : Cpu}
  {vm : Vm} {s s' : Kernel} {a : Sched} {op : Op} {tr : List (Edge Kernel Op)}

theorem Inv.currentRunning (h : Inv tl s a) (hhalted : s.halted = false) (hmark : s.MarkedRunning) :
    s.CurrentRunning := by
  obtain ⟨c, thf, hc, hthf, hrun⟩ := hmark hhalted
  obtain ⟨th, hth, rfl⟩ := lookup_of_fixed hthf
  obtain ⟨c', th', hc', hth', hproc, -⟩ := h.current
  obtain rfl := Option.some.inj (hc.symm.trans hc')
  obtain rfl := Option.some.inj ((fixed_of_lookup hth).symm.trans hth')
  refine ⟨c, th, hc, hth, hrun, fun hq => h.idle c hc (h.waiting_iff.mpr hq), hproc,
    fun t tht ht htc hrun' => ?_, threadDestroy_running hth hrun⟩
  have := h.running t tht.fixed (fixed_of_lookup ht) hrun'
  exact htc (Option.some.inj (this.symm.trans hc))

/-- The mark survives a step that keeps the current thread and its state. -/
theorem MarkedRunning.congr (hmark : s.MarkedRunning) (hthread : s'.currentThread = s.currentThread)
    (hhalted : s'.halted = s.halted)
    (hstate : ∀ c, s.currentThread = some c →
      (s'.fixed c).map Thread.state = (s.fixed c).map Thread.state) : s'.MarkedRunning := by
  intro hh
  obtain ⟨c, th, hc, hth, hrun⟩ := hmark (hhalted ▸ hh)
  have := hstate c hc
  rw [hth, Option.map_some, Option.map_eq_some_iff] at this
  obtain ⟨th', hth', hst⟩ := this
  exact ⟨c, th', hthread.trans hc, hth', hst.trans hrun⟩

/-- **Step lemma**: the mark survives creating, posting and switching threads,
when an expiring slice finds another thread. -/
theorem Inv.markedRunning_step (h : Inv (tailOf kp junk) s a) (hmark : s.MarkedRunning)
    (hexec : s.exec P op = some s') (hallowed : s.Allowed op) (hop : SwitchOp op)
    (hready : s.AnotherReady op) : s'.MarkedRunning := by
  obtain ⟨hhalted, hcall⟩ := exec_eq_some.mp hexec
  cases op with
  | processCreate p name priority =>
    obtain ⟨-, hthreads, hct, -, hh, -, -⟩ := h.processCreate hallowed hcall
    exact hmark.congr hct hh fun c _ => by simp only [fixed, hthreads]
  | threadCreate p entry arg thread stack =>
    obtain ⟨⟨r, s₁⟩, hs₁, rfl⟩ := Option.map_eq_some_iff.mp hcall
    rcases h.threadCreate P hallowed hs₁ with ⟨-, -, rfl⟩ | ⟨t, pr, -, ht, -, -, -, hframe, hfixed⟩
    · exact hmark.congr rfl rfl fun _ _ => rfl
    · refine hmark.congr hframe.currentThread hframe.halted fun c hc => ?_
      obtain ⟨c', thc, hc', hthc, -⟩ := h.current
      obtain rfl := Option.some.inj (hc.symm.trans hc')
      have hct : c ≠ t := by
        rintro rfl
        obtain ⟨th, hth, -⟩ := lookup_of_fixed hthc
        cases hth.symm.trans ht
      rw [hfixed, Function.update_of_ne hct]
  | schedulerPost thread =>
    cases thread with
    | none =>
      obtain rfl := Option.some.inj hcall
      exact hmark.congr rfl rfl fun _ _ => rfl
    | some t =>
      obtain ⟨-, hframe, hfixed⟩ := h.schedulerPost hallowed hcall
      exact hmark.congr hframe.currentThread hframe.halted fun c hc => by rw [hfixed c hc]
  | schedulerTick context =>
    obtain ⟨-, -, ⟨-, -, hcur, hstate⟩ | ⟨hslice, c, n, rest, hc, hsplit, -, hcur, hrun⟩⟩ :=
      h.schedulerTick hhalted hcall
    · intro hh
      obtain ⟨c, th, hc, hth, hrun⟩ := hmark hhalted
      have := hstate c
      rw [hth, Option.map_some, Option.map_eq_some_iff] at this
      obtain ⟨th', hth', hst⟩ := this
      exact ⟨c, th', hcur.trans hc, hth', hst.trans hrun⟩
    · -- another thread waits at the default priority, so the head is not `c`
      obtain ⟨t, hq⟩ := hready hslice
      have hmem : t ∈ a.ready processPriDefault := h.waiting_iff_default.mp (h.waiting_iff.mpr hq)
      obtain ⟨x, xs, hxs⟩ := List.exists_cons_of_ne_nil (List.ne_nil_of_mem hmem)
      have hnx : x = n := by
        simp only [Sched.enqueue, Function.update_self, hxs, List.cons_append] at hsplit
        exact (List.cons.inj hsplit).1
      have hnc : n ≠ c := by
        rintro rfl
        exact h.idle n hc ⟨processPriDefault, by simp [hxs, hnx]⟩
      obtain ⟨thn, hthn, hst⟩ := hrun hnc
      exact fun _ => ⟨n, thn, hcur, hthn, hst⟩
  | threadExit =>
    obtain ⟨-, -, ⟨hh, -⟩ | ⟨n, rest, -, -, hcur, th, hth, hrun⟩⟩ := h.threadExit hcall
    · exact fun hh' => absurd (hh.symm.trans hh') (by decide)
    · exact fun _ => ⟨n, th, hcur, hth, hrun⟩
  | work mem ints vm =>
    obtain rfl := Option.some.inj hcall
    exact hmark.congr rfl rfl fun _ _ => rfl
  | _ => exact hop.elim

/-- The steps that are no destruction are safe. -/
theorem SwitchOp.safe (hop : SwitchOp op) : s.Safe kp junk op := by
  cases op <;> first | exact trivial | cases hop

/-- In every run that creates, posts and switches threads, and in which every
expiring time slice finds another thread ready, the current thread is marked
running at the end, unless the kernel has halted. -/
theorem run_currentRunning (hrun : Run (exec P) (started P mem cpu vm kp kt junk) tr s)
    (hok : ∀ e ∈ tr, e.pre.Allowed e.op ∧ SwitchOp e.op ∧ e.pre.AnotherReady e.op)
    (hhalted : s.halted = false) : s.CurrentRunning := by
  have hinv : (∃ a, Inv (tailOf kp junk) s a) ∧ s.MarkedRunning := by
    refine hrun.invariant (P := fun s => (∃ a, Inv (tailOf kp junk) s a) ∧ s.MarkedRunning) hok
      ⟨⟨_, Inv.started P mem cpu vm kp kt junk⟩, fun _ => ?_⟩ ?_
    · simp [started, schedulerInit, fixed, Thread.fixed]
    · rintro m op m' ⟨⟨a, hinv⟩, hmark⟩ hstep ⟨hallowed, hop, hready⟩
      obtain ⟨a', hinv', -⟩ := hinv.step hstep hallowed hop.safe
      exact ⟨⟨a', hinv'⟩, hinv.markedRunning_step hmark hstep hallowed hop hready⟩
  obtain ⟨⟨a, hinv⟩, hmark⟩ := hinv
  exact hinv.currentRunning hhalted hmark

/-- A slice that ends while another thread is ready. -/
theorem run_currentRunning_switch : CurrentRunning
    (([Op.threadCreate 1 0 0 (some 2) 4096, .schedulerPost (some 2)] ++
      List.replicate 5 (Op.schedulerTick 64)).foldl (Run.next (exec samplePlatform)) sample) := by
  refine run_currentRunning (Run.of_defined _ (by decide)) ?_ (by decide)
  simp only [List.replicate, List.cons_append, List.nil_append, Run.replay, List.forall_mem_cons]
  refine ⟨⟨show ThreadFresh _ _ _ by decide, trivial, trivial⟩, ⟨?_, trivial, trivial⟩, ?_⟩
  · rintro t ⟨⟩
    refine ⟨⟨_, rfl, by decide⟩, by decide, ?_⟩
    rintro ⟨i, -, us, hus⟩
    cases us with
    | nil => cases hus
    | cons u us => cases hus.1
  · have hqueued : ∀ s : Kernel, s.queue 5 = some 2 → s.SliceOver → ∃ t, s.Queued t :=
      fun s hq _ => ⟨2, 5, by decide, [], hq⟩
    refine ⟨⟨trivial, trivial, hqueued _ ?_⟩, ⟨trivial, trivial, hqueued _ ?_⟩,
      ⟨trivial, trivial, hqueued _ ?_⟩, ⟨trivial, trivial, hqueued _ ?_⟩,
      ⟨trivial, trivial, hqueued _ ?_⟩, by simp⟩ <;> decide

/-- Five ticks with no other thread: the current thread is left marked ready,
and `thread_destroy` frees it. -/
theorem current_left_ready : ∃ tr s, Run (exec samplePlatform) sample tr s ∧
    (∀ e ∈ tr, e.pre.Allowed e.op ∧ SwitchOp e.op) ∧ s.halted = false ∧
    s.currentThread = some 1 ∧ (s.threads.lookup 1).map Thread.state = some .ready ∧
    (s.threadDestroy (some 1)).map Prod.fst = some 0 ∧ ¬s.CurrentRunning := by
  refine ⟨_, _, Run.of_defined (List.replicate 5 (Op.schedulerTick 64)) (by decide), ?_,
    by decide, by decide, by decide, by decide, ?_⟩
  · simp [List.replicate, Run.replay, Allowed, SwitchOp]
  · rintro ⟨c, th, hc, -, -, -, -, -, hdestroy⟩
    obtain rfl : c = 1 := Option.some.inj (hc.symm.trans (by decide))
    have := congrArg (Option.map Prod.fst) hdestroy
    exact absurd this (by decide)

end Kernel

end Leenix
