import Leenix.Proc.Steps

/-!
# What `process_destroy` leaves behind

`NoReference` says that the kernel holds no pointer to a destroyed process or to
a freed thread. `process_destroy` reaches it for a process that is not current
and whose threads are no tails in use (`run_noReference`). A current process is
freed all the same, with its thread refused by `thread_destroy` and left current
(`current_process_freed`).

The process table has an invariant of its own, `TableOk`, which every step keeps
except a `process_fork` that fails after `process_create`.
-/

namespace Leenix

namespace Kernel

/-- The thread is live and not one of process `p`. -/
def LiveOutside (s : Kernel) (p t : Ptr) : Prop :=
  ∃ th, s.threads.lookup t = some th ∧ th.parent ≠ some p

/-- Nothing in the kernel refers to the process `p` or to a freed thread. -/
structure NoReference (s : Kernel) (p : Ptr) : Prop where
  table : ∀ q ∈ s.processTable, q ≠ some p
  queued : ∀ t, s.Queued t → s.LiveOutside p t
  tails : ∀ i, i ≤ processPriMax → s.queue i ≠ none → ∀ t, s.queueTail i = some t → s.LiveOutside p t
  currentThread : ∀ t, s.currentThread = some t → s.LiveOutside p t
  currentProc : s.currentProc ≠ some p
  parents : ∀ t th, s.threads.lookup t = some th → th.parent ≠ some p

variable {tl : Ptr → Option Ptr} {kp kt : Ptr} {junk : Junk} {P : Platform} {mem : Mem} {cpu : Cpu}
  {vm : Vm} {s s' : Kernel} {a : Sched} {op : Op} {tr : List (Edge Kernel Op)} {p q : Ptr}

/-- No step leaves the entry of a child that `process_fork` freed. -/
def KeepsTable (P : Platform) (s : Kernel) : Op → Prop
  | .processFork alloc => s.ForkCompletes P alloc
  | _ => True

/-- **Step lemma** for the process table. -/
theorem Inv.tableOk_step (h : Inv (tailOf kp junk) s a) (htable : s.TableOk)
    (hexec : s.exec P op = some s') (hallowed : s.Allowed op) (hsafe : s.Safe kp junk op)
    (hkeeps : s.KeepsTable P op) : s'.TableOk := by
  obtain ⟨hhalted, hcall⟩ := exec_eq_some.mp hexec
  have hsame : s'.procs = s.procs → s'.processTable = s.processTable → s'.TableOk :=
    fun hprocs ht => htable.congr ht fun _ pr hp => ⟨pr, hprocs ▸ hp⟩
  cases op with
  | processCreate p name priority =>
    obtain ⟨-, -, -, -, -, hcreate, -⟩ := h.processCreate hallowed hcall
    exact hcreate htable
  | processDestroy p =>
    obtain ⟨pr, -, -, hd⟩ := h.processDestroy hallowed hsafe hcall
    exact htable.destroyed hd
  | processSpawn openFile filename alloc stackJunk =>
    obtain ⟨⟨r, s₁⟩, hs₁, rfl⟩ := Option.map_eq_some_iff.mp hcall
    obtain ⟨a', -, -, -, hspawn⟩ := h.spawn hallowed hs₁
    exact hspawn htable
  | processFork alloc =>
    obtain ⟨⟨r, s₁⟩, hs₁, rfl⟩ := Option.map_eq_some_iff.mp hcall
    obtain ⟨a', -, -, -, hfork⟩ := h.fork hallowed hs₁
    exact hfork htable hkeeps
  | threadCreate p entry arg thread stack =>
    obtain ⟨⟨r, s₁⟩, hs₁, rfl⟩ := Option.map_eq_some_iff.mp hcall
    rcases h.threadCreate P hallowed hs₁ with ⟨-, -, rfl⟩ | ⟨t, pr, -, -, -, -, -, hframe, -⟩
    · exact hsame rfl rfl
    · exact htable.of_listFrame hframe
  | threadDestroy thread =>
    obtain ⟨⟨r, s₁⟩, hs₁, rfl⟩ := Option.map_eq_some_iff.mp hcall
    rcases h.threadDestroy hsafe hs₁ with rfl | ⟨t, -, hframe, -⟩
    · exact hsame rfl rfl
    · exact htable.of_listFrame hframe
  | schedulerPost thread =>
    cases thread with
    | none =>
      obtain rfl := Option.some.inj hcall
      exact hsame rfl rfl
    | some t =>
      obtain ⟨-, hframe, -⟩ := h.schedulerPost hallowed hcall
      exact htable.of_listFrame hframe.listFrame
  | schedulerTick context =>
    obtain ⟨hprocs, ht, -⟩ := h.schedulerTick hhalted hcall
    exact hsame hprocs ht
  | threadExit =>
    obtain ⟨hprocs, ht, -⟩ := h.threadExit hcall
    exact hsame hprocs ht
  | work mem ints vm =>
    obtain rfl := Option.some.inj hcall
    exact hsame rfl rfl

theorem tableOk_started : (started P mem cpu vm kp kt junk).TableOk := by
  intro p
  have htable : (started P mem cpu vm kp kt junk).processTable = List.replicate 128 none := rfl
  have hnot : some p ∉ List.replicate 128 (none : Option Ptr) := fun hmem => by
    cases List.eq_of_mem_replicate hmem
  rw [htable, List.count_eq_zero.mpr hnot]
  exact ⟨Nat.zero_le 1, fun hmem => absurd hmem hnot⟩

/-- After a safe `process_destroy`, nothing refers to the process or to its
threads. -/
theorem Inv.noReference (h' : Inv tl s' (a.forget (a.members p))) (htable : s.TableOk)
    (hcur : s.currentProc ≠ some p) {pr : Process} (hd : Destroyed P p pr (a.members p) s s') :
    s'.NoReference p := by
  have hparent : ∀ t th, s'.threads.lookup t = some th → th.parent ≠ some p := by
    intro t th hth hpar
    have hmem := h'.members.mem_of_lookup hth hpar
    simp [Sched.forget] at hmem
  have hlive : ∀ i, ∀ t ∈ (a.forget (a.members p)).ready i, s'.LiveOutside p t := by
    intro i t ht
    obtain ⟨th, hth⟩ := h'.ready.live ht
    exact ⟨th, hth, hparent t th hth⟩
  refine ⟨fun q hq hqp => ?_, fun t ht => ?_, fun i hi hne t ht => ?_, fun t ht => ?_, ?_, hparent⟩
  · rw [hd.processTable, hqp] at hq
    exact notMem_tableRemove (htable p).1 hq
  · obtain ⟨i, hi⟩ := h'.waiting_iff.mpr ht
    exact hlive i t hi
  · have hready : (a.forget (a.members p)).ready i ≠ [] := by
      intro hnil
      rw [h'.ready.queue_eq_head hi, hnil] at hne
      exact hne rfl
    rw [h'.tails i hi hready] at ht
    exact hlive i t (List.mem_of_getLast? ht)
  · obtain ⟨c, thc, hc, hthc, -⟩ := h'.current
    obtain rfl := Option.some.inj (hc.symm.trans ht)
    obtain ⟨th, hth, -⟩ := lookup_of_fixed hthc
    exact ⟨th, hth, hparent c th hth⟩
  · rw [hd.currentProc]
    exact hcur

/-- In every run of safe steps in which no fork fails half-way, destroying a
live process that is not current, and none of whose threads is a tail in use,
leaves no reference behind. -/
theorem run_noReference (hrun : Run (exec P) (started P mem cpu vm kp kt junk) tr s)
    (hok : ∀ e ∈ tr, e.pre.Allowed e.op ∧ e.pre.Safe kp junk e.op ∧ e.pre.KeepsTable P e.op)
    {pr : Process} (hp : s.procs.lookup p = some pr) (hcur : s.currentProc ≠ some p)
    (htail : s.TailSafe (s.OwnedBy p)) (hkp : p = kp → junk.next = none) :
    ∃ s', s.processDestroy P p = some s' ∧ s'.procs.lookup p = none ∧ s'.NoReference p := by
  have hinv : (∃ a, Inv (tailOf kp junk) s a) ∧ s.TableOk := by
    refine hrun.invariant (P := fun s => (∃ a, Inv (tailOf kp junk) s a) ∧ s.TableOk) hok
      ⟨⟨_, Inv.started P mem cpu vm kp kt junk⟩, tableOk_started⟩ ?_
    rintro m op m' ⟨⟨a, hinv⟩, htable⟩ hstep ⟨hallowed, hsafe, hkeeps⟩
    obtain ⟨a', hinv', -⟩ := hinv.step hstep hallowed hsafe
    exact ⟨⟨a', hinv'⟩, hinv.tableOk_step htable hstep hallowed hsafe hkeeps⟩
  obtain ⟨⟨a, h⟩, htable⟩ := hinv
  have htl : tailOf kp junk p = none := by
    unfold tailOf
    split
    · exact hkp ‹_›
    · rfl
  obtain ⟨s', hs', h', hd⟩ := h.destroyProcess P hp htl hcur htail
  refine ⟨s', hs', ?_, h'.noReference htable hcur hd⟩
  simpa [proj] using congrFun hd.procs p

/-- A process with one thread, which the run posts. -/
def withThread : List Op :=
  [.processCreate 2 [] 5, .threadCreate 2 0x400000 0 (some 2) 4096, .schedulerPost (some 2)]

theorem withThread_allowed :
    ∀ e ∈ Run.replay (exec samplePlatform) sample withThread, e.pre.Allowed e.op := by
  simp only [withThread, Run.replay, List.forall_mem_cons]
  refine ⟨show Finmap.lookup _ _ = none by decide, show ThreadFresh _ _ _ by decide, ?_, by simp⟩
  rintro t ⟨⟩
  refine ⟨⟨_, rfl, by decide⟩, by decide, ?_⟩
  rintro ⟨i, -, us, hus⟩
  cases us with
  | nil => cases hus
  | cons u us => cases hus.1

/-- Destroying that process while its thread is still queued, and alone. -/
theorem run_noReference_queued :
    ∃ s', Kernel.processDestroy samplePlatform
        (withThread.foldl (Run.next (exec samplePlatform)) sample) 2 = some s' ∧
      s'.procs.lookup 2 = none ∧ s'.NoReference 2 := by
  have hrun : Run (exec samplePlatform) sample _ _ := Run.of_defined withThread (by decide)
  refine run_noReference hrun (fun e he => ⟨withThread_allowed e he, ?_⟩) rfl (by decide) ?_
    (fun h => absurd h (by decide))
  · have hop := Run.op_mem_of_mem_replay he
    obtain ⟨s₁, op, s₂⟩ := e
    simp only [withThread, List.mem_cons, List.not_mem_nil, or_false] at hop
    rcases hop with rfl | rfl | rfl <;> exact ⟨trivial, trivial⟩
  · -- only the default queue is in use, and it holds thread 2 alone
    intro i hi l hne _ _ us x hus
    have hempty : ∀ j, j ≤ processPriMax → j ≠ 5 →
        (withThread.foldl (Run.next (exec samplePlatform)) sample).queue j = none := by decide
    obtain rfl : i = 5 := by
      by_contra h5
      exact hne (hempty i hi h5)
    have hseg : Seg (withThread.foldl (Run.next (exec samplePlatform)) sample).nextReady
        ((withThread.foldl (Run.next (exec samplePlatform)) sample).queue 5) [2] none :=
      ⟨by decide, none, by decide, rfl⟩
    obtain rfl := List.mem_singleton.mp (hseg.reaches_iff.mp ⟨us, hus⟩)
    exact ⟨_, rfl, by decide⟩

/-- The same process is destroyed after its thread was dispatched: the thread
is refused, stays current, and belongs to a freed process. -/
theorem current_process_freed : ∃ tr s s', Run (exec samplePlatform) sample tr s ∧
    (∀ e ∈ tr, e.pre.Allowed e.op) ∧ (∃ pr, s.procs.lookup 2 = some pr) ∧
    s.processDestroy samplePlatform 2 = some s' ∧ s'.procs.lookup 2 = none ∧
    s'.currentProc = some 2 ∧ (s'.threads.lookup 2).map Thread.parent = some (some 2) ∧
    ¬s'.NoReference 2 := by
  refine ⟨_, _, _, Run.of_defined (withThread ++ List.replicate 5 (Op.schedulerTick 64)) (by decide),
    fun e he => ?_, ⟨_, rfl⟩, rfl, by decide, by decide, by decide, ?_⟩
  · rw [Run.replay_append, List.mem_append] at he
    rcases he with he | he
    · exact withThread_allowed e he
    · have hop := List.eq_of_mem_replicate (Run.op_mem_of_mem_replay he)
      rw [hop]
      trivial
  · intro h
    exact h.currentProc (by decide)

end Kernel

end Leenix
