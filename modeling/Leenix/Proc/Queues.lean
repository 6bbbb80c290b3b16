import Leenix.Proc.Steps

/-!
# The ready queues of a run

`QueuesIntact` is the invariant that `queue[]` and `queue_tail[]` are for,
in terms of the pointers alone. A run of safe steps keeps it
(`run_queuesIntact`); `thread_destroy` on the last thread of a queue breaks it,
because it leaves `queue_tail` at the freed thread (`tail_freed`).
-/

namespace Leenix

namespace Kernel

/-- Following `next_ready` from each `queue[i]` visits live threads of priority
`i` and ends; no thread occurs twice in all queues together; `queue_tail[i]` is
the last thread of a nonempty queue; and every thread of `waiting` is in the
queue of its priority. -/
def QueuesIntact (s : Kernel) (waiting : Ptr → Prop) : Prop :=
  ∃ chain : Nat → List Ptr,
    (∀ i, i ≤ processPriMax → Seg s.nextReady (s.queue i) (chain i) none) ∧
    (∀ i, i ≤ processPriMax → ∀ t ∈ chain i,
      ∃ th, s.threads.lookup t = some th ∧ th.priority = i) ∧
    ((List.range (processPriMax + 1)).flatMap chain).Nodup ∧
    (∀ i, i ≤ processPriMax → s.queue i ≠ none → s.queueTail i = (chain i).getLast?) ∧
    ∀ t, waiting t → ∃ th, s.threads.lookup t = some th ∧ th.priority ≤ processPriMax ∧
      t ∈ chain th.priority

variable {kp kt : Ptr} {junk : Junk} {P : Platform} {mem : Mem} {cpu : Cpu} {vm : Vm} {s : Kernel}
  {tr : List (Edge Kernel Op)}

theorem Inv.queuesIntact {tl : Ptr → Option Ptr} {a : Sched} {waiting : Ptr → Prop}
    (h : Inv tl s a) (hw : ∀ t, waiting t → a.Waiting t) : s.QueuesIntact waiting := by
  have hprio : ∀ i, ∀ t ∈ a.ready i, ∃ th, s.threads.lookup t = some th ∧ th.priority = i := by
    intro i t ht
    obtain ⟨th, hth, hp⟩ := h.ready.prio i t ht
    obtain ⟨th', hth', rfl⟩ := lookup_of_core hth
    exact ⟨th', hth', hp⟩
  refine ⟨a.ready, h.ready.seg, fun i _ => hprio i, ?_, fun i hi hq => ?_, fun t ht => ?_⟩
  · rw [List.nodup_flatMap]
    refine ⟨fun i _ => h.ready.nodup i, List.nodup_range.imp fun {i j} hij x hxi hxj => ?_⟩
    exact hij (h.ready.index_unique hxi hxj)
  · refine h.tails i hi fun hnil => hq ?_
    rw [h.ready.queue_eq_head hi, hnil]
    rfl
  · obtain ⟨i, hi⟩ := hw t ht
    obtain ⟨th, hth, rfl⟩ := hprio i t hi
    exact ⟨th, hth, h.ready.index_le hi, hi⟩

/-- A thread outside every chain is not queued. -/
theorem not_queued {t : Ptr} (chain : Nat → List Ptr)
    (hseg : ∀ i, i ≤ processPriMax → Seg s.nextReady (s.queue i) (chain i) none)
    (ht : ∀ i, t ∉ chain i) : ¬s.Queued t := by
  rintro ⟨i, hi, hus⟩
  exact ht i ((hseg i hi).reaches_iff.mp hus)

/-- With one thread in the default queue and the others empty, no other thread is
queued. -/
theorem not_queued_single {t u : Ptr} (hdefault : s.queue processPriDefault = some u)
    (hlast : s.nextReady u = some none)
    (hempty : ∀ i, i ≤ processPriMax → i ≠ processPriDefault → s.queue i = none) (htu : t ≠ u) :
    ¬s.Queued t := by
  refine not_queued (fun i => if i = processPriDefault then [u] else []) (fun i hi => ?_) fun i => ?_
  · by_cases hi' : i = processPriDefault
    · subst hi'
      rw [if_pos rfl]
      exact ⟨hdefault, none, hlast, rfl⟩
    · rw [if_neg hi']
      exact hempty i hi hi'
  · split
    · simpa using htu
    · simp

/-- In a run of safe steps the queues stay intact, and no posted thread is lost. -/
theorem run_queuesIntact (hrun : Run (exec P) (started P mem cpu vm kp kt junk) tr s)
    (hok : ∀ e ∈ tr, e.pre.Allowed e.op ∧ e.pre.Safe kp junk e.op) :
    s.QueuesIntact (waiting tr) := by
  obtain ⟨a, hinv, hw⟩ := Inv.run hrun hok
  exact hinv.queuesIntact hw

/-- Two threads are created and posted. -/
def bothWait : List Op :=
  [.threadCreate 1 0 0 (some 2) 4096, .threadCreate 1 0 0 (some 3) 8192, .schedulerPost (some 2),
    .schedulerPost (some 3)]

theorem bothWait_ok : ∀ e ∈ Run.replay (exec samplePlatform) sample bothWait,
    e.pre.Allowed e.op ∧ e.pre.Safe 1 ⟨[], 0, none, none⟩ e.op := by
  simp only [bothWait, Run.replay, List.forall_mem_cons]
  refine ⟨⟨show ThreadFresh _ _ _ by decide, trivial⟩, ⟨show ThreadFresh _ _ _ by decide, trivial⟩,
    ⟨?_, trivial⟩, ⟨?_, trivial⟩, by simp⟩
  · rintro t ⟨⟩
    refine ⟨⟨_, rfl, by decide⟩, by decide, not_queued (fun _ => []) (fun i hi => ?_) (by simp)⟩
    rfl
  · rintro t ⟨⟩
    exact ⟨⟨_, rfl, by decide⟩, by decide,
      not_queued_single (u := 2) (by decide) (by decide) (by decide) (by decide)⟩

theorem ticks_ok (n : Nat) (s : Kernel) :
    ∀ e ∈ Run.replay (exec samplePlatform) s (List.replicate n (.schedulerTick 64)),
      e.pre.Allowed e.op ∧ e.pre.Safe 1 ⟨[], 0, none, none⟩ e.op := by
  induction n generalizing s with
  | zero => simp [Run.replay]
  | succ n ih =>
    rw [List.replicate_succ, Run.replay, List.forall_mem_cons]
    exact ⟨⟨trivial, trivial⟩, ih _⟩

/-- Of the two threads, the first in the queue is destroyed. -/
def headDestroyed : List Op := bothWait ++ [.threadDestroy (some 2)]

theorem headDestroyed_ok : ∀ e ∈ Run.replay (exec samplePlatform) sample headDestroyed,
    e.pre.Allowed e.op ∧ e.pre.Safe 1 ⟨[], 0, none, none⟩ e.op := by
  rw [headDestroyed, Run.replay_append]
  refine List.forall_mem_append.mpr ⟨bothWait_ok, ?_⟩
  simp only [Run.replay, List.forall_mem_cons]
  refine ⟨⟨trivial, ?_⟩, by simp⟩
  rintro t ⟨⟩
  -- the tail of the queue is the other thread
  have htails : ∀ i, i ≤ processPriMax →
      (bothWait.foldl (Run.next (exec samplePlatform)) sample).queueTail i ≠ some 2 := by decide
  exact ⟨fun i hi l _ htail hl => absurd (hl ▸ htail) (htails i hi), by decide⟩

/-- After a whole slice of ticks the other thread runs, and the kernel thread waits. -/
theorem run_queuesIntact_ticks :
    let ops := headDestroyed ++ List.replicate slice (.schedulerTick 64)
    let s := ops.foldl (Run.next (exec samplePlatform)) sample
    s.QueuesIntact (waiting (Run.replay (exec samplePlatform) sample ops)) ∧
      s.currentThread = some 3 ∧ s.queue processPriDefault = some 1 := by
  intro ops s
  have hrun : Run (exec samplePlatform) sample _ s := Run.of_defined ops (by decide)
  refine ⟨run_queuesIntact hrun ?_, by decide, by decide⟩
  rw [Run.replay_append]
  exact List.forall_mem_append.mpr ⟨headDestroyed_ok, ticks_ok slice _⟩

/-- Two threads are created and posted, and the second is destroyed. -/
def tailDestroyed : List Op :=
  [.threadCreate 1 0 0 (some 2) 4096, .threadCreate 1 0 0 (some 3) 8192, .schedulerPost (some 2),
    .schedulerPost (some 3), .threadDestroy (some 3)]

theorem tailDestroyed_allowed :
    ∀ e ∈ Run.replay (exec samplePlatform) sample tailDestroyed, e.pre.Allowed e.op := by
  simp only [tailDestroyed, Run.replay, List.forall_mem_cons]
  refine ⟨show ThreadFresh _ _ _ by decide, show ThreadFresh _ _ _ by decide, ?_, ?_, trivial,
    by simp⟩
  · rintro t ⟨⟩
    refine ⟨⟨_, rfl, by decide⟩, by decide, not_queued (fun _ => []) (fun i hi => ?_) (by simp)⟩
    rfl
  · rintro t ⟨⟩
    exact ⟨⟨_, rfl, by decide⟩, by decide,
      not_queued_single (u := 2) (by decide) (by decide) (by decide) (by decide)⟩

/-- The tail pointer of the default queue then names the freed thread. -/
theorem tail_freed : ∃ tr s, Run (exec samplePlatform) sample tr s ∧
    (∀ e ∈ tr, e.pre.Allowed e.op) ∧ s.queue 5 = some 2 ∧ s.queueTail 5 = some 3 ∧
    s.threads.lookup 3 = none ∧ ¬s.QueuesIntact (waiting tr) := by
  refine ⟨_, _, Run.of_defined tailDestroyed (by decide), tailDestroyed_allowed, by decide,
    by decide, by decide, ?_⟩
  · rintro ⟨chain, hseg, -, -, htail, -⟩
    have hchain : chain 5 = [2] := by
      refine (hseg 5 (by decide)).det ⟨by decide, none, by decide, rfl⟩
    have := htail 5 (by decide) (by decide)
    rw [hchain] at this
    exact absurd this (by decide)

end Kernel

end Leenix
