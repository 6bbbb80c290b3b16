import Leenix.Proc.Process

/-!
# The abstract scheduler and the ready queues that represent it

`Sched` says what the scheduler's linked structures are for: a FIFO list of
ready threads for each priority, and the list of threads of each process. The
relations `ReadyRep`, `TailsAgree` and `MembersRep` connect it to the pointers of
the kernel state, and the lemmas of this file say what each queue operation of
proc/process.c does on both sides at once.

A queue operation moves links and states of threads and nothing else. The links
are `nextReady`; everything else about a thread is its `core`; everything else
about the kernel is covered by `QueueFrame`. An invariant that mentions no link
is therefore transported along `core` and `QueueFrame`, never re-proved through
the code of the operation.
-/

namespace Leenix

/-- What the scheduler keeps: ready threads by priority, oldest first, and the
threads of each process, newest first. -/
structure Sched where
  ready : Nat → List Ptr
  members : Ptr → List Ptr

namespace Sched

/-- Append a thread to the queue of priority `i`. -/
def enqueue (a : Sched) (i : Nat) (t : Ptr) : Sched :=
  { a with ready := Function.update a.ready i (a.ready i ++ [t]) }

/-- Drop the head of the queue of priority `i`. -/
def dequeue (a : Sched) (i : Nat) : Sched :=
  { a with ready := Function.update a.ready i (a.ready i).tail }

/-- Take the threads `ks` out of every list. -/
def forget (a : Sched) (ks : List Ptr) : Sched where
  ready i := (a.ready i).filter (· ∉ ks)
  members p := (a.members p).filter (· ∉ ks)

/-- Add a thread to a process. -/
def adopt (a : Sched) (p t : Ptr) : Sched :=
  { a with members := Function.update a.members p (t :: a.members p) }

/-- Some queue holds the thread. -/
def Waiting (a : Sched) (t : Ptr) : Prop := ∃ i, t ∈ a.ready i

theorem forget_forget (a : Sched) (ks ks' : List Ptr) :
    (a.forget ks).forget ks' = a.forget (ks ++ ks') := by
  simp [forget, List.filter_filter, Bool.and_comm]

@[simp] theorem forget_nil (a : Sched) : a.forget [] = a := by
  simp [forget]

theorem mem_enqueue {a : Sched} {i j : Nat} {t x : Ptr} :
    x ∈ (a.enqueue i t).ready j ↔ x ∈ a.ready j ∨ j = i ∧ x = t := by
  by_cases hj : j = i
  · subst hj
    simp [enqueue]
  · simp [enqueue, hj]

theorem waiting_enqueue {a : Sched} {i : Nat} {t x : Ptr} :
    (a.enqueue i t).Waiting x ↔ a.Waiting x ∨ x = t := by
  simp only [Waiting, mem_enqueue]
  constructor
  · rintro ⟨j, hx | ⟨-, rfl⟩⟩
    · exact .inl ⟨j, hx⟩
    · exact .inr rfl
  · rintro (⟨j, hx⟩ | rfl)
    · exact ⟨j, .inl hx⟩
    · exact ⟨i, .inr ⟨rfl, rfl⟩⟩

theorem mem_dequeue {a : Sched} {i j : Nat} {x : Ptr} (h : x ∈ (a.dequeue i).ready j) :
    x ∈ a.ready j := by
  by_cases hj : j = i
  · subst hj
    exact List.mem_of_mem_tail (by simpa [dequeue] using h)
  · simpa [dequeue, Function.update_of_ne hj] using h

/-- A waiting thread that is not the head of the queue keeps waiting when the
head is dropped. -/
theorem waiting_dequeue {a : Sched} {i : Nat} {t x : Ptr} {rest : List Ptr}
    (hi : a.ready i = t :: rest) (hx : a.Waiting x) (hne : x ≠ t) :
    (a.dequeue i).Waiting x := by
  obtain ⟨j, hj⟩ := hx
  refine ⟨j, ?_⟩
  by_cases hji : j = i
  · subst hji
    rw [hi] at hj
    simpa [dequeue, hi] using (List.mem_cons.mp hj).resolve_left hne
  · simpa [dequeue, Function.update_of_ne hji] using hj

end Sched

/-- A thread record without its queue link. -/
def Thread.core (th : Thread) : Thread := { th with nextReady := none }

namespace Kernel

/-- Everything about the live threads except their queue links. -/
def core (s : Kernel) : Ptr → Option Thread := proj Thread.core s.threads

theorem core_of_lookup {s : Kernel} {t : Ptr} {th : Thread} (h : s.threads.lookup t = some th) :
    s.core t = some th.core := by
  simp [core, proj, h]

theorem lookup_of_core {s : Kernel} {t : Ptr} {th : Thread} (h : s.core t = some th) :
    ∃ th', s.threads.lookup t = some th' ∧ th'.core = th :=
  proj_eq_some.mp h

theorem nextReady_of_lookup {s : Kernel} {t : Ptr} {th : Thread}
    (h : s.threads.lookup t = some th) : s.nextReady t = some th.nextReady := by
  simp [nextReady, proj, h]

theorem next_eq_core (s : Kernel) (t : Ptr) : s.next t = (s.core t).map Thread.next :=
  (proj_map Thread.core Thread.next s.threads t).symm

/-- Equal cores give equal `next` links. -/
theorem next_congr {s s' : Kernel} {t : Ptr} (h : s'.core t = s.core t) : s'.next t = s.next t := by
  rw [next_eq_core, next_eq_core, h]

/-- The parts of the kernel that no ready-queue operation touches. -/
structure QueueFrame (s s' : Kernel) : Prop where
  procs : s'.procs = s.procs
  currentProc : s'.currentProc = s.currentProc
  currentThread : s'.currentThread = s.currentThread
  processTable : s'.processTable = s.processTable
  currentPid : s'.currentPid = s.currentPid
  currentTid : s'.currentTid = s.currentTid
  halted : s'.halted = s.halted
  mem : s'.mem = s.mem
  cpu : s'.cpu = s.cpu
  esp0 : s'.esp0 = s.esp0
  vm : s'.vm = s.vm

/-- The fields that a queue operation may change. -/
theorem QueueFrame.scheduling (s : Kernel) {threads : Heap Thread}
    {queue queueTail : Nat → Option Ptr} {ints : Bool} {writes : List QueueWrite} :
    QueueFrame s { s with
      threads := threads
      queue := queue
      queueTail := queueTail
      ints := ints
      writes := writes } :=
  ⟨rfl, rfl, rfl, rfl, rfl, rfl, rfl, rfl, rfl, rfl, rfl⟩

theorem QueueFrame.refl (s : Kernel) : QueueFrame s s := .scheduling s

theorem QueueFrame.trans {s₁ s₂ s₃ : Kernel} (h : QueueFrame s₁ s₂) (h' : QueueFrame s₂ s₃) :
    QueueFrame s₁ s₃ :=
  ⟨h'.procs.trans h.procs, h'.currentProc.trans h.currentProc,
    h'.currentThread.trans h.currentThread, h'.processTable.trans h.processTable,
    h'.currentPid.trans h.currentPid, h'.currentTid.trans h.currentTid,
    h'.halted.trans h.halted, h'.mem.trans h.mem, h'.cpu.trans h.cpu, h'.esp0.trans h.esp0,
    h'.vm.trans h.vm⟩

/-! ## Ready queues -/

/-- The linked queues are the lists `ready`: following `next_ready` from
`queue[i]` visits `ready i`, whose threads are live and have priority `i`. -/
structure ReadyRep (s : Kernel) (ready : Nat → List Ptr) : Prop where
  seg : ∀ i, i ≤ processPriMax → Seg s.nextReady (s.queue i) (ready i) none
  out : ∀ i, processPriMax < i → ready i = []
  prio : ∀ i, ∀ t ∈ ready i, ∃ th, s.core t = some th ∧ th.priority = i

/-- `queue_tail[i]` is the last thread of each nonempty queue. -/
def TailsAgree (s : Kernel) (ready : Nat → List Ptr) : Prop :=
  ∀ i, i ≤ processPriMax → ready i ≠ [] → s.queueTail i = (ready i).getLast?

namespace ReadyRep

variable {s s' : Kernel} {ready : Nat → List Ptr} {i j : Nat} {t : Ptr}

/-- A thread waits in at most one queue. -/
theorem index_unique (h : ReadyRep s ready) (hi : t ∈ ready i) (hj : t ∈ ready j) : i = j := by
  obtain ⟨th, hth, rfl⟩ := h.prio i t hi
  obtain ⟨th', hth', rfl⟩ := h.prio j t hj
  rw [hth] at hth'
  rw [Option.some.inj hth']

theorem nodup (h : ReadyRep s ready) (i : Nat) : (ready i).Nodup := by
  rcases Nat.lt_or_ge processPriMax i with hi | hi
  · simp [h.out i hi]
  · exact (h.seg i hi).nodup

theorem index_le (h : ReadyRep s ready) (hi : t ∈ ready i) : i ≤ processPriMax := by
  by_contra hlt
  rw [h.out i (Nat.lt_of_not_le hlt)] at hi
  cases hi

theorem live (h : ReadyRep s ready) (hi : t ∈ ready i) : ∃ th, s.threads.lookup t = some th := by
  obtain ⟨th, hth, -⟩ := h.prio i t hi
  obtain ⟨th', hth', -⟩ := lookup_of_core hth
  exact ⟨th', hth'⟩

/-- The queue pointer is null exactly when the queue is empty. -/
theorem queue_eq_head (h : ReadyRep s ready) (hi : i ≤ processPriMax) :
    s.queue i = (ready i).head? :=
  (h.seg i hi).head_eq

theorem length_le_fuel (h : ReadyRep s ready) (i : Nat) : (ready i).length ≤ s.walkFuel :=
  length_le_card (h.nodup i) fun t ht => by
    obtain ⟨th, hth⟩ := h.live ht
    simp [hth]

/-- Transport along equal queue pointers, and equal links and priorities of the
queued threads. -/
theorem transport (h : ReadyRep s ready) (hq : ∀ i, i ≤ processPriMax → s'.queue i = s.queue i)
    (hnr : ∀ i, ∀ t ∈ ready i, s'.nextReady t = s.nextReady t)
    (hprio : ∀ i, ∀ t ∈ ready i,
      (s'.core t).map Thread.priority = (s.core t).map Thread.priority) : ReadyRep s' ready where
  seg i hi := by
    rw [hq i hi]
    exact (h.seg i hi).congr (hnr i)
  out := h.out
  prio i t ht := by
    obtain ⟨th, hth, hp⟩ := h.prio i t ht
    have hprio := hprio i t ht
    rw [hth, Option.map_some, Option.map_eq_some_iff] at hprio
    obtain ⟨th', hth', hp'⟩ := hprio
    exact ⟨th', hth', hp'.trans hp⟩

end ReadyRep

/-! ## `scheduler_post` -/

section Post

variable {s : Kernel} {t l x : Ptr} {th thl : Thread}

/-- The record of a thread that was just posted. -/
def posted (th : Thread) : Thread := { th with state := .ready, nextReady := none }

/-- A post to an empty queue sets both ends of the queue. -/
theorem schedulerPost_empty (ht : s.threads.lookup t = some th) (hlive : th.state ≠ .terminated)
    (hprio : th.priority ≤ processPriMax) (hq : s.queue th.priority = none) :
    s.schedulerPost (some t) = some { s with
      threads := s.threads.insert t (posted th)
      queue := Function.update s.queue th.priority (some t)
      queueTail := Function.update s.queueTail th.priority (some t)
      ints := true
      writes := ⟨.queueTail th.priority, true⟩ :: ⟨.queue th.priority, true⟩ ::
        ⟨.nextReady t, true⟩ :: s.writes } := by
  simp [schedulerPost, cli, sti, updateThread, setNextReady, setQueue, setQueueTail, logWrite,
    ht, hlive, hprio, hq, posted, Finmap.insert_insert]

/-- A post to a nonempty queue links the thread behind the tail. -/
theorem schedulerPost_tail (ht : s.threads.lookup t = some th) (hlive : th.state ≠ .terminated)
    (hprio : th.priority ≤ processPriMax) (hq : s.queue th.priority = some x)
    (hl : s.queueTail th.priority = some l) (hlth : s.threads.lookup l = some thl) (hne : l ≠ t) :
    s.schedulerPost (some t) = some { s with
      threads := (s.threads.insert t (posted th)).insert l { thl with nextReady := some t }
      queueTail := Function.update s.queueTail th.priority (some t)
      ints := true
      writes := ⟨.queueTail th.priority, true⟩ :: ⟨.nextReady l, true⟩ ::
        ⟨.nextReady t, true⟩ :: s.writes } := by
  simp [schedulerPost, cli, sti, updateThread, setNextReady, setQueueTail, logWrite,
    ht, hlive, hprio, hq, hl, hlth, posted, Finmap.insert_insert,
    Finmap.lookup_insert_of_ne _ hne]

/-- Appending `t` to queue `i` is represented once the links around the tail of
that queue are, provided nothing else moved. -/
theorem ReadyRep.enqueue {s' : Kernel} {a : Sched} {i : Nat} {th' : Thread}
    (hrep : ReadyRep s a.ready) (hi : i ≤ processPriMax) (hnew : ¬a.Waiting t)
    (hcore : s'.core = Function.update s.core t (some th')) (hprio : th'.priority = i)
    (hseg : Seg s'.nextReady (s'.queue i) (a.ready i ++ [t]) none)
    (hqueue : ∀ j, j ≠ i → s'.queue j = s.queue j)
    (hlink : ∀ x, x ≠ t → x ∉ a.ready i → s'.nextReady x = s.nextReady x) :
    ReadyRep s' (a.enqueue i t).ready where
  seg j hj := by
    by_cases hji : j = i
    · subst hji
      simpa [Sched.enqueue] using hseg
    · rw [hqueue j hji]
      simp only [Sched.enqueue, Function.update_of_ne hji]
      refine (hrep.seg j hj).congr fun x hx => hlink x ?_ fun hxi => ?_
      · rintro rfl
        exact hnew ⟨j, hx⟩
      · exact hji (hrep.index_unique hx hxi)
  out j hj := by
    simpa [Sched.enqueue, Function.update_of_ne (show j ≠ i by omega)] using hrep.out j hj
  prio j x hx := by
    rw [hcore]
    rcases Sched.mem_enqueue.mp hx with hx | ⟨rfl, rfl⟩
    · have hxt : x ≠ t := fun hxt => hnew ⟨j, hxt ▸ hx⟩
      rw [Function.update_of_ne hxt]
      exact hrep.prio j x hx
    · exact ⟨th', Function.update_self .., hprio⟩

theorem TailsAgree.enqueue {s' : Kernel} {a : Sched} {i : Nat} (htails : TailsAgree s a.ready)
    (htail : s'.queueTail = Function.update s.queueTail i (some t)) :
    TailsAgree s' (a.enqueue i t).ready := by
  intro j hj hne
  rw [htail]
  by_cases hji : j = i
  · subst hji
    simp [Sched.enqueue]
  · simp only [Sched.enqueue, Function.update_of_ne hji] at hne ⊢
    exact htails j hj hne

/-- What a post of the thread `t` does: it becomes ready and the last of its
queue, and no other core changes. -/
theorem schedulerPost_spec {a : Sched} (hrep : ReadyRep s a.ready) (htails : TailsAgree s a.ready)
    (ht : s.threads.lookup t = some th) (hlive : th.state ≠ .terminated)
    (hprio : th.priority ≤ processPriMax) (hnew : ¬a.Waiting t) :
    ∃ s', s.schedulerPost (some t) = some s' ∧
      ReadyRep s' (a.enqueue th.priority t).ready ∧
      TailsAgree s' (a.enqueue th.priority t).ready ∧ QueueFrame s s' ∧
      s'.core = Function.update s.core t (some { th.core with state := .ready }) := by
  have hnew' : ∀ i, t ∉ a.ready i := fun i hi => hnew ⟨i, hi⟩
  rcases List.eq_nil_or_concat (a.ready th.priority) with hnil | ⟨us, l, hlast⟩
  · -- the queue is empty: `t` becomes its head and its tail
    have hq : s.queue th.priority = none := by rw [hrep.queue_eq_head hprio, hnil]; rfl
    refine ⟨_, schedulerPost_empty ht hlive hprio hq, ?_, htails.enqueue rfl, .scheduling s, ?_⟩
    · refine hrep.enqueue hprio hnew (proj_insert ..) rfl ?_ ?_ ?_
      · simp [hnil, Seg, nextReady, posted]
      · exact fun j hj => Function.update_of_ne hj _ _
      · intro x hx _
        simp [nextReady, hx]
    · simp [core, posted, Thread.core]
  · -- the queue ends in `l`: only the links of `t` and `l` change
    rw [List.concat_eq_append] at hlast
    have hlmem : l ∈ a.ready th.priority := by simp [hlast]
    have hlt : l ≠ t := fun h => hnew' _ (h ▸ hlmem)
    obtain ⟨thl, hlth⟩ := hrep.live hlmem
    obtain ⟨x, hx⟩ : ∃ x, s.queue th.priority = some x := by
      rw [hrep.queue_eq_head hprio, hlast]
      cases us <;> simp
    have htail : s.queueTail th.priority = some l := by
      rw [htails _ hprio (by simp [hlast]), hlast, List.getLast?_concat]
    have hcore : proj Thread.core ((s.threads.insert t (posted th)).insert l
        { thl with nextReady := some t }) =
        Function.update s.core t (some { th.core with state := .ready }) := by
      rw [proj_insert, proj_insert]
      refine Function.update_eq_iff.mpr ⟨?_, fun _ _ => rfl⟩
      rw [Function.update_of_ne hlt]
      exact (core_of_lookup hlth).symm
    refine ⟨_, schedulerPost_tail ht hlive hprio hx htail hlth hlt, ?_, htails.enqueue rfl,
      .scheduling s, hcore⟩
    refine hrep.enqueue hprio hnew hcore rfl ?_ (fun _ _ => rfl) fun y hy hyq => ?_
    · have hseg := (hrep.seg _ hprio).update_of_notMem (v := some none) (hnew' _)
      rw [hlast] at hseg ⊢
      have hnd := hrep.nodup th.priority
      rw [hlast] at hnd
      simpa [nextReady, posted] using
        hseg.snoc hnd (Function.update_self ..) (hlast ▸ hnew' th.priority)
    · have hyl : y ≠ l := fun h => hyq (h ▸ hlmem)
      simp [nextReady, hy, hyl]

end Post

/-! ## The dispatch loop -/

section Take

variable {s : Kernel} {t : Ptr} {th : Thread} {i n : Nat}

/-- The loop unlinks the head of the first nonempty queue it meets. -/
theorem takeReady_head (hq : s.queue i = some t) (ht : s.threads.lookup t = some th) :
    s.takeReady (i + 1) = some (some t, { s with
      threads := s.threads.insert t { th with nextReady := none }
      queue := Function.update s.queue i th.nextReady
      writes := ⟨.nextReady t, !s.ints⟩ :: ⟨.queue i, !s.ints⟩ :: s.writes }) := by
  simp [takeReady, hq, ht, setQueue, setNextReady, logWrite, updateThread]

theorem takeReady_skip (hq : s.queue i = none) : s.takeReady (i + 1) = s.takeReady i := by
  simp [takeReady, hq]

/-- Unlinking the head represents the rest of the queue. -/
theorem ReadyRep.dequeue {s' : Kernel} {a : Sched} {rest : List Ptr}
    (hrep : ReadyRep s a.ready) (hi : a.ready i = t :: rest)
    (ht : s.threads.lookup t = some th) (hcore : s'.core = s.core)
    (hqueue : s'.queue = Function.update s.queue i th.nextReady)
    (hlink : s'.nextReady = Function.update s.nextReady t (some none)) :
    ReadyRep s' (a.dequeue i).ready where
  seg j hj := by
    rw [hqueue, hlink]
    by_cases hji : j = i
    · subst hji
      have hseg := hrep.seg j hj
      have hnd := hrep.nodup j
      rw [hi] at hseg hnd
      simpa [Sched.dequeue, hi] using
        (hseg.unlink_head (nextReady_of_lookup ht)).update_of_notMem (List.nodup_cons.mp hnd).1
    · simp only [Sched.dequeue, Function.update_of_ne hji]
      refine (hrep.seg j hj).update_of_notMem fun htj => hji ?_
      exact hrep.index_unique htj (by simp [hi])
  out j hj := by
    have hji : j ≠ i := by
      rintro rfl
      rw [hrep.out j hj] at hi
      cases hi
    simpa [Sched.dequeue, Function.update_of_ne hji] using hrep.out j hj
  prio j x hx := by
    rw [hcore]
    exact hrep.prio j x (Sched.mem_dequeue hx)

theorem TailsAgree.dequeue {s' : Kernel} {a : Sched} {rest : List Ptr}
    (htails : TailsAgree s a.ready) (hi : a.ready i = t :: rest)
    (htail : s'.queueTail = s.queueTail) : TailsAgree s' (a.dequeue i).ready := by
  intro j hj hne
  rw [htail]
  by_cases hji : j = i
  · subst hji
    simp only [Sched.dequeue, Function.update_self, hi, List.tail_cons] at hne ⊢
    rw [htails j hj (by simp [hi]), hi]
    cases rest with
    | nil => exact absurd rfl hne
    | cons y ys => rw [List.getLast?_cons_cons]
  · simp only [Sched.dequeue, Function.update_of_ne hji] at hne ⊢
    exact htails j hj hne

/-- What the dispatch loop does below index `n`: either every queue there is
empty, or it takes the head of the one with the largest index. -/
theorem takeReady_spec {a : Sched} (hrep : ReadyRep s a.ready) :
    ∀ n, n ≤ processPriMax + 1 →
      ((∀ i, i < n → a.ready i = []) ∧ s.takeReady n = some (none, s)) ∨
      ∃ i t rest s', i < n ∧ a.ready i = t :: rest ∧
        (∀ j, i < j → j < n → a.ready j = []) ∧ s.takeReady n = some (some t, s') ∧
        ReadyRep s' (a.dequeue i).ready ∧
        (TailsAgree s a.ready → TailsAgree s' (a.dequeue i).ready) ∧
        QueueFrame s s' ∧ s'.core = s.core ∧ s'.ints = s.ints
  | 0, _ => .inl ⟨fun _ h => absurd h (Nat.not_lt_zero _), rfl⟩
  | n + 1, hn => by
    have hq := hrep.queue_eq_head (Nat.le_of_succ_le_succ hn)
    cases hready : a.ready n with
    | nil =>
      rw [hready] at hq
      rw [takeReady_skip hq]
      rcases takeReady_spec hrep n (by omega) with ⟨hempty, htake⟩ |
        ⟨i, t, rest, s', hi, hcons, habove, hrest⟩
      · refine .inl ⟨fun i hi => ?_, htake⟩
        rcases Nat.lt_succ_iff_lt_or_eq.mp hi with hi | rfl
        · exact hempty i hi
        · exact hready
      · refine .inr ⟨i, t, rest, s', by omega, hcons, fun j hij hj => ?_, hrest⟩
        rcases Nat.lt_succ_iff_lt_or_eq.mp hj with hj | rfl
        · exact habove j hij hj
        · exact hready
    | cons t rest =>
      rw [hready] at hq
      obtain ⟨th, ht⟩ := hrep.live (i := n) (t := t) (by simp [hready])
      have hcore : proj Thread.core (s.threads.insert t { th with nextReady := none }) = s.core := by
        rw [proj_insert]
        exact Function.update_eq_iff.mpr ⟨(core_of_lookup ht).symm, fun _ _ => rfl⟩
      refine .inr ⟨n, t, rest, _, by omega, hready, fun j _ _ => by omega, takeReady_head hq ht, ?_,
        fun htails => htails.dequeue hready rfl,
        .scheduling s, hcore, rfl⟩
      exact hrep.dequeue hready ht hcore rfl (proj_insert ..)

end Take

/-! ## `scheduler_switch` -/

section Switch

variable (P : Platform) {s : Kernel} {n c : Ptr} {th cur : Thread} {vm : Vm}

/-- Re-selecting the current thread does nothing at all: its state stays what
the post before made it. -/
theorem schedulerSwitch_self (h : s.currentThread = some n) :
    s.schedulerSwitch P (some n) = some s := by
  simp [schedulerSwitch, h]

/-- A switch to another thread. -/
theorem schedulerSwitch_other (hne : n ≠ c) (hc : s.currentThread = some c)
    (hcur : s.threads.lookup c = some cur) (ht : s.threads.lookup n = some th)
    (hvm : s.switchAddressSpace P cur.parent th.parent = some vm) :
    s.schedulerSwitch P (some n) = some { s with
      threads := s.threads.insert n { th with state := .running }
      currentThread := some n
      currentProc := th.parent
      vm := vm
      esp0 := if th.kernel = 0 then s.esp0 else u32 (th.kernel + 4 * 1024)
      cpu := Cpu.resume s.mem th.trapFrame 0x10
      ints := decide ((Cpu.resume s.mem th.trapFrame 0x10).eflags / 512 % 2 = 1) } := by
  simp [schedulerSwitch, hc, Ne.symm hne, hcur, ht, hvm, updateThread]

/-- The switch finds an address space whenever the new thread's process lives. -/
theorem switchAddressSpace_isSome (cur : Thread) {p : Ptr} {pr : Process} (hp : th.parent = some p)
    (hpr : s.procs.lookup p = some pr) :
    ∃ vm, s.switchAddressSpace P cur.parent th.parent = some vm := by
  unfold switchAddressSpace
  split
  · exact ⟨_, rfl⟩
  · exact ⟨_, by simp [hp, hpr]; rfl⟩

end Switch

end Kernel

end Leenix
