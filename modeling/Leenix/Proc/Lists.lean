import Leenix.Proc.Sched

/-!
# Thread lists, creation and destruction

`MembersRep` connects the `next` lists of the processes to `Sched.members`.
Destruction edits three structures through one object: the ready queue of the
thread, the thread list of its process, and the heap. `threadDestroy_spec` says
what all three look like afterwards, for a thread in any position of either
list; it does not mention `queue_tail`, because `thread_destroy` does not.
`destroyThreads_spec` is the induction over the thread list that
`process_destroy` walks while `thread_destroy` unlinks it.
-/

namespace Leenix

/-- A thread record without its two list links. -/
def Thread.fixed (th : Thread) : Thread := { th with nextReady := none, next := none }

/-- A process record without its list head. -/
def Process.fixed (pr : Process) : Process := { pr with threads := none }

namespace Kernel

/-- Everything about the live threads except their list links. -/
def fixed (s : Kernel) : Ptr → Option Thread := proj Thread.fixed s.threads

theorem fixed_eq_core (s : Kernel) (t : Ptr) : s.fixed t = (s.core t).map Thread.fixed :=
  (proj_map Thread.core Thread.fixed s.threads t).symm

theorem fixed_congr {s s' : Kernel} (h : s'.core = s.core) : s'.fixed = s.fixed :=
  funext fun t => by rw [fixed_eq_core, fixed_eq_core, h]

theorem map_priority_core (s : Kernel) (t : Ptr) :
    (s.core t).map Thread.priority = (s.fixed t).map Thread.priority := by
  rw [fixed_eq_core, Option.map_map]
  rfl

theorem fixed_of_lookup {s : Kernel} {t : Ptr} {th : Thread} (h : s.threads.lookup t = some th) :
    s.fixed t = some th.fixed := by
  simp [fixed, proj, h]

theorem lookup_of_fixed {s : Kernel} {t : Ptr} {th : Thread} (h : s.fixed t = some th) :
    ∃ th', s.threads.lookup t = some th' ∧ th'.fixed = th :=
  proj_eq_some.mp h

/-- The thread lists are the lists `members`: following `next` from a process's
`threads` visits its members, which are exactly the live threads whose parent it
is, and ends holding `tl p`. -/
structure MembersRep (tl : Ptr → Option Ptr) (s : Kernel) (members : Ptr → List Ptr) : Prop where
  seg : ∀ p pr, s.procs.lookup p = some pr → Seg s.next pr.threads (members p) (tl p)
  nodup : ∀ p, (members p).Nodup
  mem_iff : ∀ p t, t ∈ members p ↔ ∃ th, s.fixed t = some th ∧ th.parent = some p
  parent_live : ∀ t th, s.fixed t = some th →
    ∃ p pr, th.parent = some p ∧ s.procs.lookup p = some pr

namespace MembersRep

variable {tl : Ptr → Option Ptr} {s s' : Kernel} {members : Ptr → List Ptr} {p t : Ptr}

theorem live (h : MembersRep tl s members) (ht : t ∈ members p) :
    ∃ th, s.threads.lookup t = some th ∧ th.parent = some p := by
  obtain ⟨th, hth, hp⟩ := (h.mem_iff p t).mp ht
  obtain ⟨th', hth', rfl⟩ := lookup_of_fixed hth
  exact ⟨th', hth', hp⟩

theorem mem_of_lookup (h : MembersRep tl s members) {th : Thread}
    (ht : s.threads.lookup t = some th) (hp : th.parent = some p) : t ∈ members p :=
  (h.mem_iff p t).mpr ⟨th.fixed, fixed_of_lookup ht, hp⟩

theorem length_le_fuel (h : MembersRep tl s members) (p : Ptr) :
    (members p).length ≤ s.walkFuel :=
  length_le_card (h.nodup p) fun t ht => by
    obtain ⟨th, hth, -⟩ := h.live ht
    simp [hth]

/-- Transport along equal list heads, equal `next` links and equal parents. -/
theorem transport (h : MembersRep tl s members)
    (hprocs : proj Process.threads s'.procs = proj Process.threads s.procs)
    (hnext : s'.next = s.next)
    (hparent : ∀ t, (s'.fixed t).map Thread.parent = (s.fixed t).map Thread.parent) :
    MembersRep tl s' members where
  seg p pr hp := by
    obtain ⟨pr₀, hp₀, hhead⟩ := proj_eq_some.mp
      ((congrFun hprocs p).symm.trans (proj_eq_some.mpr ⟨pr, hp, rfl⟩))
    rw [hnext, ← hhead]
    exact h.seg p pr₀ hp₀
  nodup := h.nodup
  mem_iff p t := by
    have hpar := hparent t
    rw [h.mem_iff p t]
    cases h₁ : s.fixed t <;> cases h₂ : s'.fixed t <;> simp_all
  parent_live t th ht := by
    have hpar := hparent t
    rw [ht, Option.map_some, eq_comm, Option.map_eq_some_iff] at hpar
    obtain ⟨th₀, ht₀, hpar⟩ := hpar
    obtain ⟨p, pr, hp, hpr⟩ := h.parent_live t th₀ ht₀
    obtain ⟨pr', hpr', -⟩ := proj_eq_some.mp
      ((congrFun hprocs p).trans (proj_eq_some.mpr ⟨pr, hpr, rfl⟩))
    exact ⟨p, pr', hpar.symm.trans hp, hpr'⟩

end MembersRep

/-! ## Taking a thread out of its ready queue -/

section Unlink

variable {s : Kernel} {t : Ptr} {th : Thread}

/-- Filtering one node out of a duplicate-free list around it. -/
theorem filter_split {α : Type} [DecidableEq α] {us vs : List α} {t : α}
    (hnd : (us ++ t :: vs).Nodup) : (us ++ t :: vs).filter (· ∉ [t]) = us ++ vs := by
  have hsplit := List.nodup_append.mp hnd
  have hus : t ∉ us := fun h => hsplit.2.2 t h t List.mem_cons_self rfl
  have hvs : t ∉ vs := (List.nodup_cons.mp hsplit.2.1).1
  rw [List.filter_append, List.filter_cons_of_neg (by simp),
    List.filter_eq_self.mpr fun x hx => by simpa using fun h : x = t => hus (h ▸ hx),
    List.filter_eq_self.mpr fun x hx => by simpa using fun h : x = t => hvs (h ▸ hx)]

theorem filter_notMem {α : Type} [DecidableEq α] {us : List α} {t : α} (h : t ∉ us) :
    us.filter (· ∉ [t]) = us :=
  List.filter_eq_self.mpr fun x hx => by simpa using fun hxt : x = t => h (hxt ▸ hx)

/-- `queue[priority] = thread->next_ready` when the thread is the head. -/
theorem unlinkReady_head (ht : s.threads.lookup t = some th) (hprio : th.priority ≤ processPriMax)
    (hq : s.queue th.priority = some t) :
    s.unlinkReady t = some (s.setQueue th.priority th.nextReady) := by
  simp [unlinkReady, ht, hprio, hq]

/-- `prev->next_ready = head->next_ready` behind the head. -/
theorem unlinkReady_inner {a : Ptr} {tha : Thread} (ht : s.threads.lookup t = some th)
    (hprio : th.priority ≤ processPriMax) (hq : s.queue th.priority ≠ some t)
    (hseek : seek s.nextReady t s.walkFuel (s.queue th.priority) (s.queue th.priority) =
      some (some a, some t)) (ha : s.threads.lookup a = some tha) :
    s.unlinkReady t = some { s with
      threads := s.threads.insert a { tha with nextReady := th.nextReady }
      writes := ⟨.nextReady a, !s.ints⟩ :: s.writes } := by
  simp [unlinkReady, ht, hprio, hq, hseek, setNextReady, logWrite, updateThread, ha]

/-- A thread that is in no queue: the walk runs off the end. -/
theorem unlinkReady_absent {prev : Option Ptr} (ht : s.threads.lookup t = some th)
    (hprio : th.priority ≤ processPriMax) (hq : s.queue th.priority ≠ some t)
    (hseek : seek s.nextReady t s.walkFuel (s.queue th.priority) (s.queue th.priority) =
      some (prev, none)) : s.unlinkReady t = some s := by
  simp [unlinkReady, ht, hprio, hq, hseek]

/-- The queue part of `thread_destroy` on a queue: the thread is taken out, if it is there.
`queue_tail` stays as it was. -/
theorem unlinkReady_splice {l : List Ptr} (ht : s.threads.lookup t = some th)
    (hprio : th.priority ≤ processPriMax) (hseg : Seg s.nextReady (s.queue th.priority) l none)
    (hlen : l.length ≤ s.walkFuel) :
    ∃ s', s.unlinkReady t = some s' ∧
      Seg s'.nextReady (s'.queue th.priority) (l.filter (· ∉ [t])) none ∧
      (∀ j, j ≠ th.priority → s'.queue j = s.queue j) ∧
      (∀ x, x ∉ l → s'.nextReady x = s.nextReady x) ∧
      s'.queueTail = s.queueTail ∧ QueueFrame s s' ∧ s'.core = s.core := by
  have hnd := hseg.nodup
  have hnext := nextReady_of_lookup ht
  by_cases hmem : t ∈ l
  · obtain ⟨us, vs, rfl⟩ := List.append_of_mem hmem
    rw [filter_split hnd]
    rcases List.eq_nil_or_concat us with rfl | ⟨us, a, rfl⟩
    · have hq : s.queue th.priority = some t := hseg.1
      refine ⟨_, unlinkReady_head ht hprio hq, ?_, fun j hj => Function.update_of_ne hj _ _,
        fun _ _ => rfl, rfl, .scheduling s, rfl⟩
      simpa [setQueue, logWrite, nextReady] using hseg.unlink_head hnext
    · -- `t` directly follows `a`: the walk stops with `prev` at `a`
      have htus : t ∉ us ++ [a] := fun h =>
        (List.nodup_append.mp hnd).2.2 t (by simpa using h) t List.mem_cons_self rfl
      have hwalk : (us ++ [a]).length ≤ s.walkFuel := by
        rw [List.concat_eq_append, List.length_append] at hlen
        omega
      have hseek : seek s.nextReady t s.walkFuel (s.queue th.priority) (s.queue th.priority) =
          some (some a, some t) := by
        rw [List.concat_eq_append] at hseg
        rw [seek_found hseg htus hwalk, List.getLast?_concat]
        rfl
      rw [List.concat_eq_append, List.append_assoc, List.singleton_append] at hseg hnd
      rw [List.concat_eq_append, List.append_assoc, List.singleton_append]
      obtain ⟨tha, htha⟩ : ∃ tha, s.threads.lookup a = some tha := by
        obtain ⟨m, -, -, q, hq, -⟩ := Seg.append_iff.mp hseg
        obtain ⟨tha, htha, -⟩ := proj_eq_some.mp hq
        exact ⟨tha, htha⟩
      have hcore : proj Thread.core (s.threads.insert a { tha with nextReady := th.nextReady }) =
          s.core := by
        rw [proj_insert]
        exact Function.update_eq_iff.mpr ⟨(core_of_lookup htha).symm, fun _ _ => rfl⟩
      refine ⟨_, unlinkReady_inner ht hprio (hseg.start_ne hnd) hseek htha, ?_, fun _ _ => rfl,
        fun x hx => ?_, rfl, .scheduling s, hcore⟩
      · simpa [nextReady] using hseg.unlink hnd hnext
      · have hxa : x ≠ a := fun h => hx (by simp [h])
        simp [nextReady, hxa]
  · have hq := hseg.start_ne_of_notMem hmem
    refine ⟨s, unlinkReady_absent ht hprio hq (seek_absent hseg hmem hlen), ?_, fun _ _ => rfl,
      fun _ _ => rfl, rfl, .refl s, rfl⟩
    rwa [filter_notMem hmem]

/-- The same for all queues: no link of the others is written, and the thread is not in
them. -/
theorem unlinkReady_spec {a : Sched} (hrep : ReadyRep s a.ready)
    (ht : s.threads.lookup t = some th) (hprio : th.priority ≤ processPriMax) :
    ∃ s', s.unlinkReady t = some s' ∧ ReadyRep s' (a.forget [t]).ready ∧
      s'.queueTail = s.queueTail ∧ QueueFrame s s' ∧ s'.core = s.core := by
  have hother : ∀ j, j ≠ th.priority → t ∉ a.ready j := fun j hj htj => by
    obtain ⟨th', hth', rfl⟩ := hrep.prio j t htj
    rw [core_of_lookup ht] at hth'
    exact hj (Option.some.inj hth' ▸ rfl)
  obtain ⟨s', hs', hmain, hqueue, hlink, htail, hframe, hcore⟩ := unlinkReady_splice ht hprio
    (hrep.seg th.priority hprio) (hrep.length_le_fuel th.priority)
  refine ⟨s', hs', ⟨fun j hj => ?_, fun j hj => ?_, fun j x hx => ?_⟩, htail, hframe, hcore⟩
  · by_cases hjp : j = th.priority
    · exact hjp ▸ hmain
    · rw [hqueue j hjp]
      simp only [Sched.forget, filter_notMem (hother j hjp)]
      exact (hrep.seg j hj).congr fun x hx => hlink x fun hxp => hjp (hrep.index_unique hx hxp)
  · simp [Sched.forget, hrep.out j hj]
  · rw [hcore]
    exact hrep.prio j x (List.mem_of_mem_filter hx)

end Unlink

/-! ## Taking a thread out of its process -/

/-- The parts of the kernel that creating and destroying threads leaves alone.
The list head of a process may move, nothing else of it. -/
structure ListFrame (s s' : Kernel) : Prop where
  procs : proj Process.fixed s'.procs = proj Process.fixed s.procs
  currentProc : s'.currentProc = s.currentProc
  currentThread : s'.currentThread = s.currentThread
  processTable : s'.processTable = s.processTable
  halted : s'.halted = s.halted
  esp0 : s'.esp0 = s.esp0
  vm : s'.vm = s.vm

theorem ListFrame.refl (s : Kernel) : ListFrame s s := ⟨rfl, rfl, rfl, rfl, rfl, rfl, rfl⟩

theorem ListFrame.trans {s₁ s₂ s₃ : Kernel} (h : ListFrame s₁ s₂) (h' : ListFrame s₂ s₃) :
    ListFrame s₁ s₃ :=
  ⟨h'.procs.trans h.procs, h'.currentProc.trans h.currentProc,
    h'.currentThread.trans h.currentThread, h'.processTable.trans h.processTable,
    h'.halted.trans h.halted, h'.esp0.trans h.esp0, h'.vm.trans h.vm⟩

/-- A live process stays live, and only its list head may have moved. -/
theorem ListFrame.process {s s' : Kernel} (h : ListFrame s s') {p : Ptr} {pr : Process}
    (hp : s.procs.lookup p = some pr) :
    ∃ pr', s'.procs.lookup p = some pr' ∧ pr'.fixed = pr.fixed := by
  have hproj := congrFun h.procs p
  rw [show proj Process.fixed s.procs p = some pr.fixed by simp [proj, hp]] at hproj
  exact proj_eq_some.mp hproj

theorem QueueFrame.listFrame {s s' : Kernel} (h : QueueFrame s s') : ListFrame s s' :=
  ⟨by rw [h.procs], h.currentProc, h.currentThread, h.processTable, h.halted, h.esp0, h.vm⟩

section UnlinkThread

variable {tl : Ptr → Option Ptr} {s : Kernel} {a : Sched} {t p : Ptr} {th : Thread} {pr : Process}

/-- `thread->parent->threads = current->next` when the thread is the head. -/
theorem unlinkThread_head (ht : s.threads.lookup t = some th) (hp : th.parent = some p)
    (hpr : s.procs.lookup p = some pr) (hhead : pr.threads = some t) :
    s.unlinkThread t = some { s with procs := s.procs.insert p { pr with threads := th.next } } := by
  simp [unlinkThread, ht, hp, hpr, hhead, updateProcess]

/-- `current->next = thread->next` behind the head. -/
theorem unlinkThread_inner {l : Ptr} {thl : Thread} (ht : s.threads.lookup t = some th)
    (hp : th.parent = some p) (hpr : s.procs.lookup p = some pr) (hhead : pr.threads ≠ some t)
    (hseek : seekPrev s.next t s.walkFuel pr.threads = some (some l))
    (hl : s.threads.lookup l = some thl) :
    s.unlinkThread t = some { s with threads := s.threads.insert l { thl with next := th.next } } := by
  simp [unlinkThread, ht, hp, hpr, hhead, hseek, hl, updateThread]

/-- Nothing is stored when the thread is not on the list of its process. -/
theorem unlinkThread_absent (ht : s.threads.lookup t = some th) (hp : th.parent = some p)
    (hpr : s.procs.lookup p = some pr) (hhead : pr.threads ≠ some t)
    (hseek : seekPrev s.next t s.walkFuel pr.threads = some none) :
    s.unlinkThread t = some s := by
  simp [unlinkThread, ht, hp, hpr, hhead, hseek]

/-- The list part of `thread_destroy` on a list that holds the thread: the thread is
spliced out, at the head or behind its predecessor, and no other list, queue link or field
changes. -/
theorem unlinkThread_splice {l : List Ptr} {e : Option Ptr} (ht : s.threads.lookup t = some th)
    (hp : th.parent = some p) (hpr : s.procs.lookup p = some pr)
    (hseg : Seg s.next pr.threads l e) (hnd : l.Nodup) (hlen : l.length ≤ s.walkFuel)
    (hmem : t ∈ l) :
    ∃ s' pr', s.unlinkThread t = some s' ∧ s'.procs.lookup p = some pr' ∧
      Seg s'.next pr'.threads (l.filter (· ∉ [t])) e ∧
      (∀ q, q ≠ p → s'.procs.lookup q = s.procs.lookup q) ∧
      (∀ x, x ∉ l → s'.next x = s.next x) ∧
      ListFrame s s' ∧ s'.fixed = s.fixed ∧ s'.nextReady = s.nextReady ∧ s'.queue = s.queue ∧
      s'.queueTail = s.queueTail ∧ s'.mem = s.mem := by
  have hnext : s.next t = some th.next := by simp [next, proj, ht]
  obtain ⟨us, vs, rfl⟩ := List.append_of_mem hmem
  rw [filter_split hnd]
  rcases List.eq_nil_or_concat us with rfl | ⟨us, a, rfl⟩
  · have hhead : pr.threads = some t := hseg.1
    refine ⟨_, { pr with threads := th.next }, unlinkThread_head ht hp hpr hhead,
      Finmap.lookup_insert _, hseg.unlink_head hnext, fun q hq => Finmap.lookup_insert_of_ne _ hq,
      fun _ _ => rfl, ⟨?_, rfl, rfl, rfl, rfl, rfl, rfl⟩, rfl, rfl, rfl, rfl, rfl⟩
    rw [proj_insert]
    exact Function.update_eq_iff.mpr ⟨by simp [proj, hpr, Process.fixed], fun _ _ => rfl⟩
  · -- `t` directly follows `a`
    rw [List.concat_eq_append, List.append_assoc, List.singleton_append] at hseg hnd hlen
    rw [List.concat_eq_append, List.append_assoc, List.singleton_append]
    obtain ⟨tha, htha⟩ : ∃ tha, s.threads.lookup a = some tha := by
      obtain ⟨m, -, -, q, hq, -⟩ := Seg.append_iff.mp hseg
      obtain ⟨tha, htha, -⟩ := proj_eq_some.mp hq
      exact ⟨tha, htha⟩
    have hseek : seekPrev s.next t s.walkFuel pr.threads = some (some a) := by
      rw [List.length_append] at hlen
      exact seekPrev_found hseg hnd (by omega)
    have hfixed : proj Thread.fixed (s.threads.insert a { tha with next := th.next }) = s.fixed := by
      rw [proj_insert]
      exact Function.update_eq_iff.mpr ⟨(fixed_of_lookup htha).symm, fun _ _ => rfl⟩
    have hready : proj Thread.nextReady (s.threads.insert a { tha with next := th.next }) =
        s.nextReady := by
      rw [proj_insert]
      exact Function.update_eq_iff.mpr ⟨(nextReady_of_lookup htha).symm, fun _ _ => rfl⟩
    refine ⟨_, pr, unlinkThread_inner ht hp hpr (hseg.start_ne hnd) hseek htha, hpr, ?_, fun _ _ => rfl,
      fun x hx => ?_, ⟨rfl, rfl, rfl, rfl, rfl, rfl, rfl⟩, hfixed, hready, rfl, rfl, rfl⟩
    · simpa [next] using hseg.unlink hnd hnext
    · have hxa : x ≠ a := fun h => hx (by simp [h])
      simp [next, hxa]

/-- The same for the lists of all processes. -/
theorem unlinkThread_spec (hrep : MembersRep tl s a.members) (ht : s.threads.lookup t = some th) :
    ∃ s', s.unlinkThread t = some s' ∧
      (∀ p pr, s'.procs.lookup p = some pr →
        Seg s'.next pr.threads ((a.forget [t]).members p) (tl p)) ∧
      ListFrame s s' ∧ s'.fixed = s.fixed ∧ s'.nextReady = s.nextReady ∧ s'.queue = s.queue ∧
      s'.queueTail = s.queueTail ∧ s'.mem = s.mem := by
  obtain ⟨p, pr, hp, hpr⟩ := hrep.parent_live t th.fixed (fixed_of_lookup ht)
  replace hp : th.parent = some p := hp
  have htp : t ∈ a.members p := hrep.mem_of_lookup ht hp
  -- a thread on the list of `p` is on no other list
  have hother : ∀ q, q ≠ p → ∀ x ∈ a.members q, x ∉ a.members p := fun q hq x hxq hxp => by
    obtain ⟨th₁, hth₁, hq₁⟩ := hrep.live hxq
    obtain ⟨th₂, hth₂, hp₂⟩ := hrep.live hxp
    obtain rfl := Option.some.inj (hth₁.symm.trans hth₂)
    exact hq (Option.some.inj (hq₁.symm.trans hp₂))
  obtain ⟨s', pr', hs', hpr', hmain, hprocs, hlink, hframe⟩ := unlinkThread_splice ht hp hpr
    (hrep.seg p pr hpr) (hrep.nodup p) (hrep.length_le_fuel p) htp
  refine ⟨s', hs', fun q qr hqr => ?_, hframe⟩
  by_cases hqp : q = p
  · subst hqp
    obtain rfl := Option.some.inj (hpr'.symm.trans hqr)
    exact hmain
  · have htq : t ∉ a.members q := fun h => hother q hqp t h htp
    simp only [Sched.forget, filter_notMem htq]
    rw [hprocs q hqp] at hqr
    exact (hrep.seg q qr hqr).congr fun x hx => hlink x (hother q hqp x hx)

end UnlinkThread

/-! ## `thread_destroy` -/

section Destroy

variable {tl : Ptr → Option Ptr} {s : Kernel} {a : Sched} {t p : Ptr} {th : Thread}

/-- A running thread is refused: nothing changes but the interrupt flag. -/
theorem threadDestroy_running (ht : s.threads.lookup t = some th) (hrun : th.state = .running) :
    s.threadDestroy (some t) = some (-1, { s with ints := true }) := by
  simp [threadDestroy, cli, sti, ht, hrun]

/-- What destroying a thread that is not running does: the thread leaves every
list and the heap. `queue_tail` is not touched. -/
theorem threadDestroy_spec (hready : ReadyRep s a.ready) (hmembers : MembersRep tl s a.members)
    (ht : s.threads.lookup t = some th) (hprio : th.priority ≤ processPriMax)
    (hstop : th.state ≠ .running) :
    ∃ s', s.threadDestroy (some t) = some (0, s') ∧ ReadyRep s' (a.forget [t]).ready ∧
      MembersRep tl s' (a.forget [t]).members ∧ s'.queueTail = s.queueTail ∧ ListFrame s s' ∧
      s'.fixed = Function.update s.fixed t none ∧ s'.mem = s.mem := by
  obtain ⟨p, pr, hp, hpr⟩ := hmembers.parent_live t th.fixed (fixed_of_lookup ht)
  replace hp : th.parent = some p := hp
  have hlist : pr.threads ≠ none := by
    have hseg := hmembers.seg p pr hpr
    obtain ⟨us, vs, hsplit⟩ := List.append_of_mem (hmembers.mem_of_lookup ht hp)
    rw [hsplit] at hseg
    cases us with
    | nil => simp [hseg.1]
    | cons x us => simp [hseg.1]
  -- the queue part, then the list part of the source
  have hready₀ : ReadyRep s.cli a.ready :=
    hready.transport (fun _ _ => rfl) (fun _ _ _ => rfl) (fun _ _ _ => rfl)
  obtain ⟨s₁, hs₁, hready₁, htail₁, hframe₁, hcore₁⟩ := unlinkReady_spec hready₀ ht hprio
  replace hcore₁ : s₁.core = s.core := hcore₁
  have hfixed₁ := fixed_congr hcore₁
  have hmembers₁ : MembersRep tl s₁ a.members :=
    hmembers.transport (congrArg _ hframe₁.procs) (funext fun x => next_congr (congrFun hcore₁ x))
      fun x => by rw [hfixed₁]
  obtain ⟨th₁, ht₁, -⟩ := lookup_of_fixed (hfixed₁ ▸ fixed_of_lookup ht)
  obtain ⟨s₂, hs₂, hlists, hframe₂, hfixed₂, hlink₂, hqueue₂, htail₂, hmem₂⟩ :=
    unlinkThread_spec hmembers₁ ht₁
  refine ⟨{ s₂ with threads := s₂.threads.erase t }.sti, ?_, ?_, ?_, htail₂.trans htail₁, ?_, ?_,
    hmem₂.trans hframe₁.mem⟩
  · have hs₁' : Kernel.unlinkReady { s with ints := false } t = some s₁ := hs₁
    simp [threadDestroy, cli, ht, hstop, hp, hpr, hlist, hs₁', hs₂]
  · have hnot : ∀ i, ∀ x ∈ (a.forget [t]).ready i, x ≠ t := fun i x hx => by
      simpa using List.of_mem_filter hx
    refine hready₁.transport (fun i _ => congrFun hqueue₂ i) (fun i x hx => ?_) fun i x hx => ?_
    · simp only [sti, nextReady, proj_erase, Function.update_of_ne (hnot i x hx)]
      exact congrFun hlink₂ x
    · simp only [sti, core, proj_erase, Function.update_of_ne (hnot i x hx)]
      exact (map_priority_core s₂ x).trans (by rw [hfixed₂, ← map_priority_core]; rfl)
  · have hfixed : { s₂ with threads := s₂.threads.erase t }.sti.fixed =
        Function.update s.fixed t none := by
      simp only [sti, fixed, proj_erase]
      exact congrArg (Function.update · t none) (hfixed₂.trans hfixed₁)
    refine ⟨fun q qr hqr => ?_, fun q => (hmembers.nodup q).filter _, fun q x => ?_,
      fun x thx hx => ?_⟩
    · simp only [sti, next, proj_erase]
      exact (hlists q qr hqr).update_of_notMem (by simp [Sched.forget])
    · rw [hfixed]
      by_cases hxt : x = t
      · simp [Sched.forget, hxt]
      · simp [Sched.forget, hxt, hmembers.mem_iff q x]
    · rw [hfixed] at hx
      by_cases hxt : x = t
      · simp [hxt] at hx
      · rw [Function.update_of_ne hxt] at hx
        obtain ⟨q, qr, hq, hqr⟩ := hmembers.parent_live x thx hx
        have hproc : s.cli.procs.lookup q = some qr := hqr
        obtain ⟨qr', hqr', -⟩ := (hframe₁.listFrame.trans hframe₂).process hproc
        exact ⟨q, qr', hq, hqr'⟩
  · have hcli : ListFrame s s.cli := (QueueFrame.scheduling s).listFrame
    exact hcli.trans ((hframe₁.listFrame.trans hframe₂).trans ⟨rfl, rfl, rfl, rfl, rfl, rfl, rfl⟩)
  · simp only [sti, fixed, proj_erase]
    exact congrArg (Function.update · t none) (hfixed₂.trans hfixed₁)

end Destroy

end Kernel

end Leenix
