import Leenix.Lib.Slots
import Leenix.Proc.Effects
import Leenix.Proc.HeapLog

/-!
# A new process and its first thread

What `process_spawn` and `process_fork` have in common: the address space that
`process_create` makes (`spaceCreated`), and the post of a thread that no queue
has seen before.

A post links the new thread behind `queue_tail`, which nothing updates when the
last thread of a queue leaves it. So the new thread becomes the last of its queue
if and only if `queue_tail` is the last thread before (`post_appended_iff`).
-/

namespace Leenix

namespace Kernel

/-- The page directory of a new process and the address spaces after, if the
directory could be made. -/
def spaceCreated (P : Platform) (s : Kernel) : Option (Ptr × Vm) := do
  let (dir, vm) := P.vmm.createAddressSpace s.vm
  let d ← dir
  let vm ← vm.copyEntries P.vmm.kerneldir d SharedIndex
  return (d, vm)

/-- The queue ends, and `queue_tail` is its last thread if it has one. -/
def QueueSound (s : Kernel) (i : Nat) : Prop :=
  ∃ us, Seg s.nextReady (s.queue i) us none ∧ (us ≠ [] → s.queueTail i = us.getLast?)

/-- Between the two states `t` came to queue `i`, behind all threads there. Every
other thread is as it was, but for the link of the one before it, and so are the
ends of the other queues. -/
def Appended (s s' : Kernel) (i : Nat) (t : Ptr) : Prop :=
  ∃ us, Seg s.nextReady (s.queue i) us none ∧ Seg s'.nextReady (s'.queue i) (us ++ [t]) none ∧
    s'.queueTail i = some t ∧
    (∀ x, x ≠ t → s'.threads.lookup x = (s.threads.lookup x).map fun th =>
      if us.getLast? = some x then { th with nextReady := some t } else th) ∧
    ∀ j, j ≠ i → s'.queue j = s.queue j ∧ s'.queueTail j = s.queueTail j

variable {P : Platform} {s s' s₀ : Kernel} {t p : Ptr} {th : Thread}

/-- Of the other threads, at most a link changes. -/
theorem Appended.core_eq {i : Nat} {x : Ptr} (h : Appended s s' i t) (hx : x ≠ t) :
    s'.core x = s.core x := by
  obtain ⟨us, -, -, -, hothers, -⟩ := h
  rw [core, core, proj, proj, hothers x hx]
  cases s.threads.lookup x with
  | none => rfl
  | some th =>
    rw [Option.map_some, Option.map_some, Option.map_some]
    split <;> rfl

/-! ## The process -/

/-- The record that `process_create` leaves, in a new address space. -/
def created (s : Kernel) (d : Ptr) (name : List Byte) (priority : Nat) : Process where
  pid := s.currentPid
  name := name.take 31
  threads := none
  priority := priority
  dir := some d
  state := .ready

@[simp] theorem created_pid {d : Ptr} {name : List Byte} {priority : Nat} :
    (s.created d name priority).pid = s.currentPid := rfl

@[simp] theorem created_dir {d : Ptr} {name : List Byte} {priority : Nat} :
    (s.created d name priority).dir = some d := rfl

@[simp] theorem created_threads {d : Ptr} {name : List Byte} {priority : Nat} :
    (s.created d name priority).threads = none := rfl

/-- The state that `process_create` leaves, with the address spaces `vm`. -/
def addProcess (s : Kernel) (p d : Ptr) (vm : Vm) (name : List Byte) (priority : Nat) : Kernel :=
  { s with
    procs := s.procs.insert p (s.created d name priority)
    currentPid := s.currentPid + 1
    processTable := Slots.insert s.processTable p
    vm := vm }

theorem processCreate_eq (s : Kernel) (p : Ptr) (name : List Byte) (priority : Nat) :
    s.processCreate P p name priority =
      (s.spaceCreated P).map fun (d, vm) => s.addProcess p d vm name priority := by
  simp only [processCreate, spaceCreated, Option.bind_eq_bind]
  cases (P.vmm.createAddressSpace s.vm).1 with
  | none => rfl
  | some d =>
    simp only [Option.bind_some]
    cases (P.vmm.createAddressSpace s.vm).2.copyEntries P.vmm.kerneldir d SharedIndex with
    | none => rfl
    | some vm => rfl

theorem spaceCreated_dir {d : Ptr} {vm : Vm} (h : s.spaceCreated P = some (d, vm)) :
    (P.vmm.createAddressSpace s.vm).1 = some d := by
  simp only [spaceCreated, Option.bind_eq_bind, Option.bind_eq_some_iff] at h
  obtain ⟨d', hd', vm', -, h⟩ := h
  obtain rfl := (Prod.mk.inj (Option.some.inj h)).1
  exact hd'

theorem processCreateLog_of_space {d : Ptr} {vm : Vm} {name : List Byte} {priority : Nat}
    (h : s.spaceCreated P = some (d, vm)) :
    s.processCreateLog P p name priority =
      ⟨[.alloc (.dir d)], some (s.addProcess p d vm name priority)⟩ := by
  rw [processCreateLog, spaceCreated_dir h, processCreate_eq, h, Option.map_some]

/-- With a page directory but no copy of the kernel's entries, `process_create` faults. -/
theorem processCreateLog_of_noSpace (p : Ptr) (name : List Byte) (priority : Nat)
    (hdir : (P.vmm.createAddressSpace s.vm).1 ≠ none) (h : s.spaceCreated P = none) :
    ∃ d, s.processCreateLog P p name priority = ⟨[.alloc (.dir d)], none⟩ := by
  obtain ⟨d, hd⟩ := Option.ne_none_iff_exists'.mp hdir
  refine ⟨d, ?_⟩
  rw [processCreateLog, hd, processCreate_eq, h, Option.map_none]

@[simp] theorem addProcess_lookup {d : Ptr} {vm : Vm} {name : List Byte} {priority : Nat} :
    (s.addProcess p d vm name priority).procs.lookup p = some (s.created d name priority) :=
  Finmap.lookup_insert _

/-- A change of the address spaces can come with the process. -/
theorem addProcess_vm {d : Ptr} {vm vm' : Vm} {name : List Byte} {priority : Nat} :
    { s.addProcess p d vm name priority with vm := vm' } = s.addProcess p d vm' name priority := rfl

/-- Another directory for the new process. -/
theorem addProcess_dir {d d' : Ptr} {vm : Vm} {name : List Byte} {priority : Nat} :
    (s.addProcess p d vm name priority).updateProcess p (fun pr => { pr with dir := some d' }) =
      some (s.addProcess p d' vm name priority) := by
  simp [updateProcess, addProcess, created]

/-! ## The thread -/

/-- The state that `thread_create` leaves, given a stack. -/
def addThread (P : Platform) (s : Kernel) (p t : Ptr) (pr : Process) (entry arg stack : Nat) :
    Kernel :=
  { s with
    threads := s.threads.insert t (s.newThread p pr entry stack)
    procs := s.procs.insert p { pr with threads := some t }
    currentTid := s.currentTid + 1
    mem := threadStack P s.mem entry arg stack }

@[simp] theorem addThread_lookup {pr : Process} {entry arg stack : Nat} :
    (s.addThread P p t pr entry arg stack).threads.lookup t =
      some (s.newThread p pr entry stack) :=
  Finmap.lookup_insert _

/-- Storing the new thread into its process once more changes nothing. -/
theorem addThread_again {pr : Process} {entry arg stack : Nat} :
    (s.addThread P p t pr entry arg stack).updateProcess p
        (fun pr => { pr with threads := some t }) =
      some (s.addThread P p t pr entry arg stack) := by
  simp [updateProcess, addThread]

/-! ## The post -/

/-- A post to a nonempty queue stores through whatever `queue_tail` holds. -/
theorem schedulerPost_nonempty (ht : s.threads.lookup t = some th) (hlive : th.state ≠ .terminated)
    (hprio : th.priority ≤ processPriMax) (hq : s.queue th.priority ≠ none)
    (h : s.schedulerPost (some t) = some s') :
    ∃ l thl, s.queueTail th.priority = some l ∧
      (s.threads.insert t (posted th)).lookup l = some thl ∧
      s'.threads = (s.threads.insert t (posted th)).insert l { thl with nextReady := some t } ∧
      s'.queue = s.queue := by
  obtain ⟨x, hx⟩ := Option.ne_none_iff_exists'.mp hq
  simp only [schedulerPost, cli, sti, updateThread, setNextReady, setQueueTail, logWrite, ht, hlive,
    hprio, hx, if_true, if_false, Option.bind_eq_bind, Option.map_some, Option.bind_some,
    Finmap.lookup_insert, Finmap.insert_insert, Option.bind_eq_some_iff,
    Option.map_eq_some_iff] at h
  obtain ⟨l, hl, s₁, ⟨thl, hthl, rfl⟩, h⟩ := h
  obtain rfl := Option.some.inj h
  exact ⟨l, thl, hl, hthl, rfl, rfl⟩

/-- A thread that was posted is ready, and otherwise as before but for its link. -/
theorem schedulerPost_posted (ht : s.threads.lookup t = some th) (hlive : th.state ≠ .terminated)
    (h : s.schedulerPost (some t) = some s') :
    ∃ th', s'.threads.lookup t = some th' ∧ th'.state = .ready ∧ posted th' = posted th := by
  simp only [schedulerPost, cli, updateThread, setNextReady, logWrite, ht, hlive, if_false,
    Option.bind_eq_bind, Option.map_some, Option.bind_some, Finmap.lookup_insert,
    Finmap.insert_insert] at h
  split at h
  case isFalse => cases h
  case isTrue =>
    split at h
    case h_1 =>
      obtain rfl := Option.some.inj h
      exact ⟨posted th, Finmap.lookup_insert _, rfl, rfl⟩
    case h_2 =>
      simp only [Option.bind_eq_some_iff, Option.map_eq_some_iff] at h
      obtain ⟨l, -, s₁, ⟨thl, hthl, rfl⟩, h⟩ := h
      obtain rfl := Option.some.inj h
      by_cases hl : l = t
      · -- a dangling `queue_tail` may have become the new thread itself
        subst hl
        obtain rfl : posted th = thl := by simpa [posted] using hthl
        exact ⟨{ posted th with nextReady := some l }, Finmap.lookup_insert _, rfl, rfl⟩
      · refine ⟨posted th, ?_, rfl, rfl⟩
        have htl : t ≠ l := fun heq => hl heq.symm
        simp [sti, setQueueTail, logWrite, htl, posted]

section First

variable (hnew : s₀.threads.lookup t = none) (hthreads : s.threads = s₀.threads.insert t th)
  (hqueue : s.queue = s₀.queue) (htail : s.queueTail = s₀.queueTail)
  (hlive : th.state ≠ .terminated) (hprio : th.priority ≤ processPriMax)

include hnew in
/-- What a queue holds is live, so the new thread is not in it. -/
theorem notMem_of_new {h : Option Ptr} {us : List Ptr} (hs : Seg s₀.nextReady h us none) :
    t ∉ us := by
  intro hmem
  obtain ⟨us₁, us₂, rfl⟩ := List.append_of_mem hmem
  obtain ⟨m, -, -, q, hq, -⟩ := Seg.append_iff.mp hs
  simp [nextReady, proj, hnew] at hq

include hnew hthreads hqueue htail hlive hprio in
theorem post_appended (h : s₀.QueueSound th.priority) :
    ∃ s', s.schedulerPost (some t) = some s' ∧ Appended s₀ s' th.priority t := by
  obtain ⟨us, hseg, hlast⟩ := h
  have ht : s.threads.lookup t = some th := by
    rw [hthreads, Finmap.lookup_insert]
  have hnot := notMem_of_new hnew hseg
  rcases List.eq_nil_or_concat us with rfl | ⟨vs, l, hus⟩
  · -- the queue is empty: `t` becomes its head and its tail
    have hq : s.queue th.priority = none := by
      rw [hqueue]
      exact hseg
    refine ⟨_, schedulerPost_empty ht hlive hprio hq, [], hseg, ?_, Function.update_self .., ?_, ?_⟩
    · exact ⟨Function.update_self .., none, by simp [nextReady, posted], rfl⟩
    · intro x hx
      simp [hthreads, hx]
    · intro j hj
      simp [hqueue, htail, hj]
  · -- the queue ends in `l`, and `queue_tail` says so
    rw [List.concat_eq_append] at hus
    subst hus
    have hl : s.queueTail th.priority = some l := by
      rw [htail, hlast (by simp), List.getLast?_concat]
    have hlt : l ≠ t := by
      rintro rfl
      exact hnot (by simp)
    obtain ⟨x, hx⟩ : ∃ x, s.queue th.priority = some x := by
      rw [hqueue, hseg.head_eq]
      cases vs <;> simp
    obtain ⟨thl, hthl, -⟩ := proj_eq_some.mp hseg.last_link
    have hthl' : s.threads.lookup l = some thl := by
      rw [hthreads, Finmap.lookup_insert_of_ne _ hlt, hthl]
    refine ⟨_, schedulerPost_tail ht hlive hprio hx hl hthl' hlt, vs ++ [l], hseg, ?_,
      Function.update_self .., ?_, ?_⟩
    · have hseg' := hseg.update_of_notMem (v := some none) hnot
      have hsnoc := hseg'.snoc hseg.nodup (Function.update_self ..) hnot
      simpa [nextReady, hthreads, hqueue, posted] using hsnoc
    · intro x hxt
      by_cases hxl : x = l
      · subst hxl
        simp [hthl]
      · have hlx : ¬l = x := fun h => hxl h.symm
        simp [hthreads, hxt, hxl, hlx]
    · intro j hj
      simp [hqueue, htail, hj]

include hnew hthreads hqueue htail hlive hprio in
/-- A new thread ends up behind its queue if and only if `queue_tail` is right
before. -/
theorem post_appended_iff :
    (∃ s', s.schedulerPost (some t) = some s' ∧ Appended s₀ s' th.priority t) ↔
      s₀.QueueSound th.priority := by
  constructor
  · rintro ⟨s', hpost, us, hseg, hseg', -⟩
    refine ⟨us, hseg, fun hne => ?_⟩
    have ht : s.threads.lookup t = some th := by
      rw [hthreads, Finmap.lookup_insert]
    obtain ⟨vs, l, rfl⟩ := (List.eq_nil_or_concat us).resolve_left hne
    rw [List.concat_eq_append] at hseg hseg' ⊢
    have hlt : l ≠ t := by
      rintro rfl
      exact notMem_of_new hnew hseg (by simp)
    have hq : s.queue th.priority ≠ none := by
      rw [hqueue, hseg.head_eq]
      cases vs <;> simp
    obtain ⟨l', thl, hl', hthl, hthreads', -⟩ := schedulerPost_nonempty ht hlive hprio hq hpost
    rw [← htail, hl', List.getLast?_concat]
    -- only the link of `queue_tail` moved, and the link of `l` did
    by_contra hne'
    have hll' : l ≠ l' := fun h => hne' (by rw [h])
    have hlink : s'.nextReady l = some none := by
      rw [← hseg.last_link]
      simp [nextReady, hthreads', hthreads, hll', hlt]
    obtain ⟨m, hm, rfl, -⟩ := Seg.append_iff.mp hseg'
    rw [hm.last_link] at hlink
    cases hlink
  · exact post_appended hnew hthreads hqueue htail hlive hprio

end First

/-! ## Both together -/

/-- The call made the process `p`, whose pid it returned, and its only thread `t`, and
`t` is ready, the last of its queue. -/
structure Born (s s' : Kernel) (r : Int) (p t : Ptr) (pr : Process) (th : Thread) : Prop where
  newProcess : s.procs.lookup p = none
  process : s'.procs.lookup p = some pr
  pid : r = pr.pid
  newThread : s.threads.lookup t = none
  thread : s'.threads.lookup t = some th
  parent : th.parent = some p
  only : pr.threads = some t ∧ th.next = none
  ready : th.state = .ready
  queued : Appended s s' th.priority t

/-- A pid is not `-1`. -/
theorem Born.ne_neg_one {r : Int} {pr : Process} (h : Born s s' r p t pr th) : r ≠ -1 := by
  rw [h.pid]
  omega

section Born

variable {pr : Process} (hp : s₀.procs.lookup p = none) (ht : s₀.threads.lookup t = none)
  (hprocess : s.procs.lookup p = some pr)
  (hothers : ∀ q, q ≠ p → s.procs.lookup q = s₀.procs.lookup q)
  (hthreads : s.threads = s₀.threads.insert t th) (hqueue : s.queue = s₀.queue)
  (htail : s.queueTail = s₀.queueTail) (honly : pr.threads = some t ∧ th.next = none)
  (hparent : th.parent = some p) (hready : th.state = .ready)
  (hprio : th.priority = processPriDefault)

include ht hthreads hqueue htail hready hprio

theorem born_appended_iff : (∃ s', s.schedulerPost (some t) = some s' ∧
    Appended s₀ s' processPriDefault t) ↔ s₀.QueueSound processPriDefault := by
  rw [← hprio]
  exact post_appended_iff ht hthreads hqueue htail (by simp [hready])
    (hprio ▸ show processPriDefault ≤ processPriMax by decide)

include hp hprocess honly hparent

/-- With a sound queue, the post of the first thread completes the new process. -/
theorem born_of_sound (hsound : s₀.QueueSound processPriDefault) :
    ∃ s' th', s.schedulerPost (some t) = some s' ∧ Born s₀ s' pr.pid p t pr th' ∧
      posted th' = posted th := by
  obtain ⟨s', hpost, hqueued⟩ :=
    (born_appended_iff ht hthreads hqueue htail hready hprio).mpr hsound
  have hlookup : s.threads.lookup t = some th := by
    rw [hthreads, Finmap.lookup_insert]
  obtain ⟨th', hth', hready', hsame⟩ := schedulerPost_posted hlookup (by simp [hready]) hpost
  have hprio' : th'.priority = processPriDefault := (congrArg Thread.priority hsame).trans hprio
  refine ⟨s', th', hpost, ?_, hsame⟩
  exact {
    newProcess := hp
    process := by rw [(schedulerPost_stores hpost).same.1, hprocess]
    pid := rfl
    newThread := ht
    thread := hth'
    parent := (congrArg Thread.parent hsame).trans hparent
    only := ⟨honly.1, (congrArg Thread.next hsame).trans honly.2⟩
    ready := hready'
    queued := hprio' ▸ hqueued }

omit hp hparent in
include hothers in
/-- Whatever new process a completed post left, it is this one, and the queue was
sound. -/
theorem sound_of_born {r : Int} {p' t' : Ptr} {pr' : Process} {th' : Thread}
    (hpost : s.schedulerPost (some t) = some s') (hborn : Born s₀ s' r p' t' pr' th') :
    p' = p ∧ t' = t ∧ pr' = pr ∧ s₀.QueueSound processPriDefault := by
  have hprocs := (schedulerPost_stores hpost).same.1
  obtain rfl : p' = p := by
    by_contra hne
    have hlive := hborn.process
    rw [hprocs, hothers p' hne, hborn.newProcess] at hlive
    cases hlive
  obtain rfl : pr = pr' := by
    have hsame := hborn.process
    rw [hprocs, hprocess] at hsame
    exact Option.some.inj hsame
  obtain rfl : t = t' := Option.some.inj (honly.1.symm.trans hborn.only.1)
  have hlookup : s.threads.lookup t = some th := by
    rw [hthreads, Finmap.lookup_insert]
  obtain ⟨th'', hth'', -, hsame⟩ := schedulerPost_posted hlookup (by simp [hready]) hpost
  obtain rfl := Option.some.inj (hth''.symm.trans hborn.thread)
  have hprio' : th''.priority = processPriDefault := (congrArg Thread.priority hsame).trans hprio
  refine ⟨rfl, rfl, rfl, (born_appended_iff ht hthreads hqueue htail hready hprio).mp
    ⟨s', hpost, ?_⟩⟩
  exact hprio' ▸ hborn.queued

end Born

end Kernel

end Leenix
