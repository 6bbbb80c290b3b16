import Leenix.Proc.Lists
import Leenix.Proc.Spawn

/-!
# Creating and destroying processes and threads

What `thread_create`, `process_create` and `process_destroy` do to the lists of
`Sched`, and what `process_spawn` and `process_fork` do as compositions of them.

- `threadCreate_spec`: a new thread becomes the head of its process's list.
- `destroyThreads_spec`: `process_destroy`'s loop walks a list that
  `thread_destroy` unlinks under it. Every turn destroys the head, so the
  induction is on the list itself: what is left to walk is the list that is left.
- `threadDestroy_cases`, `destroyThreads_keeps`, `processDestroy_cases`: what the
  destructions do in any state, for results about all runs.
- `processDestroy_spec`: with no thread of the process running, every one of
  them leaves every list, and the process leaves the heap and the table.
-/

namespace Leenix

namespace Kernel

variable {tl : Ptr → Option Ptr} {s : Kernel} {a : Sched} {t p : Ptr}

/-! ## `thread_create` -/

/-- The record of a new thread. -/
def newThread (s : Kernel) (p : Ptr) (pr : Process) (entry stack : Nat) : Thread where
  tid := s.currentTid
  priority := processPriDefault
  state := .ready
  parent := some p
  kernel := stack
  timeSlice := slice
  trapFrame := threadStackTop entry stack - InterruptContext.size
  next := pr.threads
  nextReady := none

/-- `thread_create` with a stack. -/
theorem threadCreate_eq (P : Platform) {pr : Process} (t : Ptr) (entry arg : Nat) {stack : Nat}
    (hp : s.procs.lookup p = some pr) (hstack : stack ≠ 0) :
    s.threadCreate P p entry arg (some t) stack = some (some t, { s with
      threads := s.threads.insert t (s.newThread p pr entry stack)
      procs := s.procs.insert p { pr with threads := some t }
      currentTid := s.currentTid + 1
      mem := threadStack P s.mem entry arg stack }) := by
  simp [threadCreate, hp, hstack, newThread]

/-- What `thread_create` can do: without a stack it only counts the thread id, and with
one it adds the thread. -/
theorem threadCreate_eq_some {P : Platform} {s s' : Kernel} {p : Ptr} {entry arg stack : Nat}
    {thread r : Option Ptr} (h : s.threadCreate P p entry arg thread stack = some (r, s')) :
    ∃ t, thread = some t ∧
      (stack = 0 ∧ r = none ∧ s' = { s with currentTid := s.currentTid + 1 } ∨
        stack ≠ 0 ∧ r = some t ∧ ∃ pr, s.procs.lookup p = some pr ∧ s' = { s with
          threads := s.threads.insert t (s.newThread p pr entry stack)
          procs := s.procs.insert p { pr with threads := some t }
          currentTid := s.currentTid + 1
          mem := threadStack P s.mem entry arg stack }) := by
  cases thread with
  | none => cases h
  | some t =>
    refine ⟨t, rfl, ?_⟩
    by_cases hstack : stack = 0
    · simp only [threadCreate, Option.bind_eq_bind, Option.bind_some, hstack, if_true,
        Option.pure_def, Option.some.injEq, Prod.mk.injEq] at h
      exact .inl ⟨hstack, h.1.symm, h.2.symm⟩
    · cases hp : s.procs.lookup p with
      | none => simp [threadCreate, hstack, hp] at h
      | some pr =>
        rw [threadCreate_eq P t entry arg hp hstack] at h
        simp only [Option.some.injEq, Prod.mk.injEq] at h
        exact .inr ⟨hstack, h.1.symm, pr, rfl, h.2.symm⟩

/-- The thread that is returned is the block that was allocated for it. -/
theorem threadCreate_thread {P : Platform} {s s' : Kernel} {p t : Ptr} {entry arg stack : Nat}
    {thread : Option Ptr} (h : s.threadCreate P p entry arg thread stack = some (some t, s')) :
    thread = some t := by
  obtain ⟨t', ht', ⟨-, hnone, -⟩ | ⟨-, hsome, -⟩⟩ := threadCreate_eq_some h
  · cases hnone
  · rw [ht', hsome]

/-- The new thread is the first of its process, and in no ready queue. -/
theorem threadCreate_spec (P : Platform) {pr : Process} (entry arg : Nat) {stack : Nat}
    (hready : ReadyRep s a.ready) (hmembers : MembersRep tl s a.members)
    (hp : s.procs.lookup p = some pr) (hfresh : s.threads.lookup t = none) (hstack : stack ≠ 0) :
    ∃ s', s.threadCreate P p entry arg (some t) stack = some (some t, s') ∧
      ReadyRep s' (a.adopt p t).ready ∧ MembersRep tl s' (a.adopt p t).members ∧
      s'.queueTail = s.queueTail ∧ ListFrame s s' ∧
      s'.fixed = Function.update s.fixed t (some (s.newThread p pr entry stack).fixed) ∧
      s'.mem = threadStack P s.mem entry arg stack := by
  have hnotReady : ∀ i, t ∉ a.ready i := fun i hi => by
    obtain ⟨th, hth⟩ := hready.live hi
    cases hth.symm.trans hfresh
  have hnotMember : ∀ q, t ∉ a.members q := fun q hq => by
    obtain ⟨th, hth, -⟩ := hmembers.live hq
    cases hth.symm.trans hfresh
  refine ⟨_, threadCreate_eq P t entry arg hp hstack, ?_, ?_, rfl, ⟨?_, rfl, rfl, rfl, rfl, rfl, rfl⟩,
    proj_insert .., rfl⟩
  · refine hready.transport (fun _ _ => rfl) (fun i x hx => ?_) fun i x hx => ?_
    all_goals
      have hxt : x ≠ t := fun h => hnotReady i (h ▸ hx)
      simp [nextReady, core, hxt]
  · have hseg : ∀ q qr, s.procs.lookup q = some qr →
        Seg (Function.update s.next t (some pr.threads)) qr.threads (a.members q) (tl q) :=
      fun q qr hqr => (hmembers.seg q qr hqr).update_of_notMem (hnotMember q)
    have hnext : proj Thread.next (s.threads.insert t (s.newThread p pr entry stack)) =
        Function.update s.next t (some pr.threads) := proj_insert ..
    refine ⟨fun q qr hqr => ?_, fun q => ?_, fun q x => ?_, fun x thx hx => ?_⟩
    · simp only [next, hnext]
      by_cases hqp : q = p
      · subst hqp
        rw [Finmap.lookup_insert] at hqr
        obtain rfl := Option.some.inj hqr
        simp only [Sched.adopt, Function.update_self]
        exact ⟨rfl, pr.threads, Function.update_self .., hseg q pr hp⟩
      · rw [Finmap.lookup_insert_of_ne _ hqp] at hqr
        simp only [Sched.adopt, Function.update_of_ne hqp]
        exact hseg q qr hqr
    -- no thread twice: the new one was on no list
    · by_cases hqp : q = p
      · subst hqp
        simpa [Sched.adopt] using ⟨hnotMember q, hmembers.nodup q⟩
      · simpa [Sched.adopt, hqp] using hmembers.nodup q
    -- the lists hold the threads of their processes
    · by_cases hxt : x = t
      · subst hxt
        by_cases hqp : q = p
        · simp [Sched.adopt, hqp, fixed, newThread, Thread.fixed]
        · simpa [Sched.adopt, hqp, Ne.symm hqp, fixed, newThread, Thread.fixed] using hnotMember q
      · have hmem : x ∈ (a.adopt p t).members q ↔ x ∈ a.members q := by
          by_cases hqp : q = p
          · subst hqp
            simp [Sched.adopt, hxt]
          · simp [Sched.adopt, hqp]
        rw [hmem, hmembers.mem_iff q x]
        simp [fixed, hxt]
    · by_cases hxt : x = t
      · subst hxt
        simp only [fixed, proj_insert, Function.update_self, Option.some.injEq] at hx
        exact ⟨p, _, hx ▸ rfl, Finmap.lookup_insert _⟩
      · simp only [fixed, proj_insert, Function.update_of_ne hxt] at hx
        obtain ⟨q, qr, hq, hqr⟩ := hmembers.parent_live x thx hx
        by_cases hqp : q = p
        · exact ⟨q, _, hq, by rw [hqp]; exact Finmap.lookup_insert _⟩
        · exact ⟨q, qr, hq, by rw [Finmap.lookup_insert_of_ne _ hqp, hqr]⟩
  · rw [proj_insert]
    exact Function.update_eq_iff.mpr ⟨by simp [proj, hp, Process.fixed], fun _ _ => rfl⟩

/-! ## `process_destroy` -/

theorem Sched.members_forget_head {a : Sched} {ks : List Ptr} (hks : a.members p = t :: ks)
    (hnd : (t :: ks).Nodup) : (a.forget [t]).members p = ks := by
  have : ([] ++ t :: ks).filter (· ∉ [t]) = [] ++ ks := filter_split hnd
  simpa [Sched.forget, hks] using this

/-- The loop of `process_destroy` destroys the whole thread list when no thread
on it is running. -/
theorem destroyThreads_spec (htl : tl p = none) {pr : Process} {ks : List Ptr} :
    ∀ {n : Nat} {s : Kernel} {a : Sched}, a.members p = ks → ks.length ≤ n →
      ReadyRep s a.ready → MembersRep tl s a.members →
      s.procs.lookup p = some pr →
      (∀ x ∈ ks, ∀ th, s.fixed x = some th → th.priority ≤ processPriMax ∧ th.state ≠ .running) →
      ∃ s', s.destroyThreads n ks.head? = some s' ∧ ReadyRep s' (a.forget ks).ready ∧
        MembersRep tl s' (a.forget ks).members ∧ s'.queueTail = s.queueTail ∧ ListFrame s s' ∧
        (∀ x, s'.fixed x = if x ∈ ks then none else s.fixed x) ∧ s'.mem = s.mem := by
  induction ks generalizing pr with
  | nil =>
    intro n s a _ _ hready hmembers _ _
    exact ⟨s, by simp [destroyThreads], by simpa using hready, by simpa using hmembers, rfl,
      .refl s, by simp, rfl⟩
  | cons t ks ih =>
    intro n s a hks hn hready hmembers hp hstop
    obtain ⟨n, rfl⟩ := Nat.exists_eq_add_of_le' (Nat.lt_of_lt_of_le (Nat.succ_pos _) hn)
    obtain ⟨th, ht, -⟩ := hmembers.live (p := p) (t := t) (by simp [hks])
    obtain ⟨hprio, hrun⟩ := hstop t (by simp) _ (fixed_of_lookup ht)
    obtain ⟨s₁, hs₁, hready₁, hmembers₁, htail₁, hframe₁, hfixed₁, hmem₁⟩ :=
      threadDestroy_spec hready hmembers ht hprio hrun
    -- the link read before the call is the head of what is left
    have hnd : (t :: ks).Nodup := hks ▸ hmembers.nodup p
    have hnext : th.next = ks.head? := by
      have hseg := hmembers.seg p pr hp
      rw [hks, htl] at hseg
      exact (hseg.unlink_head (by simp [next, proj, ht])).head_eq
    obtain ⟨pr₁, hp₁, -⟩ := hframe₁.process hp
    have hstop₁ : ∀ x ∈ ks, ∀ thx, s₁.fixed x = some thx →
        thx.priority ≤ processPriMax ∧ thx.state ≠ .running := by
      intro x hx thx hthx
      have hxt : x ≠ t := fun h => (List.nodup_cons.mp hnd).1 (h ▸ hx)
      rw [hfixed₁, Function.update_of_ne hxt] at hthx
      exact hstop x (List.mem_cons_of_mem t hx) thx hthx
    obtain ⟨s₂, hs₂, hready₂, hmembers₂, htail₂, hframe₂, hfixed₂, hmem₂⟩ :=
      ih (n := n) (Sched.members_forget_head hks hnd) (by simpa using hn) hready₁ hmembers₁ hp₁ hstop₁
    rw [Sched.forget_forget] at hready₂ hmembers₂
    refine ⟨s₂, ?_, hready₂, hmembers₂, htail₂.trans htail₁, hframe₁.trans hframe₂, fun x => ?_,
      hmem₂.trans hmem₁⟩
    · simp [destroyThreads, ht, hs₁, hnext, hs₂]
    · rw [hfixed₂ x, hfixed₁]
      by_cases hxt : x = t
      · simp [hxt]
      · simp [hxt]

/-- The address spaces after `process_destroy` of a process with directory
`dir`. -/
def destroyVm (P : Platform) (vm : Vm) : Option Ptr → Vm
  | none => vm
  | some d => (P.vmm.freeRegion vm d 0x0 0xC0000000).2.freeDir d

/-- What a completed `process_destroy` leaves: the threads `ks` and the process
are gone, and the rest of the kernel is as it was. -/
structure Destroyed (P : Platform) (p : Ptr) (pr : Process) (ks : List Ptr) (s s' : Kernel) :
    Prop where
  procs : proj Process.fixed s'.procs = Function.update (proj Process.fixed s.procs) p none
  fixed : ∀ x, s'.fixed x = if x ∈ ks then none else s.fixed x
  queueTail : s'.queueTail = s.queueTail
  currentProc : s'.currentProc = s.currentProc
  currentThread : s'.currentThread = s.currentThread
  processTable : s'.processTable = tableRemove s.processTable p
  halted : s'.halted = s.halted
  mem : s'.mem = s.mem
  vm : s'.vm = destroyVm P s.vm pr.dir

/-- `process_destroy` of a process none of whose threads is running. -/
theorem processDestroy_spec (P : Platform) {pr : Process} (hready : ReadyRep s a.ready)
    (hmembers : MembersRep tl s a.members) (hp : s.procs.lookup p = some pr)
    (hlive : pr.state ≠ .terminated) (htl : tl p = none)
    (hstop : ∀ x ∈ a.members p, ∀ th, s.fixed x = some th →
      th.priority ≤ processPriMax ∧ th.state ≠ .running) :
    ∃ s', s.processDestroy P p = some s' ∧ ReadyRep s' (a.forget (a.members p)).ready ∧
      MembersRep tl s' (a.forget (a.members p)).members ∧
      Destroyed P p pr (a.members p) s s' := by
  -- the state when the loop starts
  let s₁ : Kernel := { s with
    procs := s.procs.insert p { pr with state := .terminated }
    processTable := tableRemove s.processTable p }
  have hready₁ : ReadyRep s₁ a.ready :=
    hready.transport (fun _ _ => rfl) (fun _ _ _ => rfl) (fun _ _ _ => rfl)
  have hmembers₁ : MembersRep tl s₁ a.members := by
    refine hmembers.transport ?_ rfl fun _ => rfl
    rw [proj_insert]
    exact Function.update_eq_iff.mpr ⟨by simp [proj, hp], fun _ _ => rfl⟩
  have hp₁ : s₁.procs.lookup p = some { pr with state := .terminated } := Finmap.lookup_insert _
  have hhead : pr.threads = (a.members p).head? := by
    have hseg := hmembers.seg p pr hp
    rw [htl] at hseg
    exact hseg.head_eq
  obtain ⟨s₂, hs₂, hready₂, hmembers₂, htail₂, hframe₂, hfixed₂, hmem₂⟩ :=
    destroyThreads_spec htl rfl (hmembers₁.length_le_fuel p) hready₁ hmembers₁ hp₁ hstop
  obtain ⟨pr₂, hp₂, hpr₂⟩ := hframe₂.process hp₁
  have hdir : pr₂.dir = pr.dir := by
    change pr₂.fixed.dir = pr.dir
    rw [hpr₂]
    rfl
  refine ⟨{ s₂ with vm := destroyVm P s₂.vm pr₂.dir, procs := s₂.procs.erase p }, ?_, ?_, ?_,
    ⟨?_, hfixed₂, htail₂, hframe₂.currentProc, hframe₂.currentThread, hframe₂.processTable,
      hframe₂.halted, hmem₂, ?_⟩⟩
  -- the call, with the loop done in `s₂`
  · have hs₂' : s₁.destroyThreads s₁.walkFuel pr.threads = some s₂ := hhead ▸ hs₂
    simp only [processDestroy, hp, hlive, updateProcess, Option.map_some, Option.bind_eq_bind,
      Option.bind_some, if_false]
    rw [show Kernel.destroyThreads _ _ _ = some s₂ from hs₂']
    simp only [Option.bind_some, hp₂]
    cases pr₂.dir <;> rfl
  · exact hready₂.transport (fun _ _ => rfl) (fun _ _ _ => rfl) (fun _ _ _ => rfl)
  · refine ⟨fun q qr hq => ?_, hmembers₂.nodup, hmembers₂.mem_iff, fun x thx hx => ?_⟩
    · have hqp : q ≠ p := by
        rintro rfl
        simp at hq
      exact hmembers₂.seg q qr (by simpa [Finmap.lookup_erase_ne hqp] using hq)
    · obtain ⟨q, qr, hq, hqr⟩ := hmembers₂.parent_live x thx hx
      have hqp : q ≠ p := by
        rintro rfl
        have hmem := (hmembers₂.mem_iff q x).mpr ⟨thx, hx, hq⟩
        simp [Sched.forget] at hmem
      exact ⟨q, qr, hq, by simpa [Finmap.lookup_erase_ne hqp] using hqr⟩
  · simp only [proj_erase, hframe₂.procs]
    funext q
    by_cases hqp : q = p
    · simp [hqp]
    · simp [hqp, s₁]
  · simp only [hframe₂.vm, hdir]
    rfl

/-! ## `process_create` -/

/-- What `process_create` has done when it returns. -/
theorem processCreate_eq_some {P : Platform} {name : List Byte} {priority : Nat} {s' : Kernel}
    (h : s.processCreate P p name priority = some s') :
    ∃ d vm vm', P.vmm.createAddressSpace s.vm = (some d, vm) ∧
      vm.copyEntries P.vmm.kerneldir d SharedIndex = some vm' ∧
      s' = { s with
        procs := s.procs.insert p ⟨s.currentPid, name.take 31, none, priority, some d, .ready⟩
        currentPid := s.currentPid + 1
        processTable := tableInsert s.processTable p
        vm := vm' } := by
  unfold processCreate at h
  rcases hc : P.vmm.createAddressSpace s.vm with ⟨_ | d, vm⟩
  · simp [hc] at h
  · simp only [hc, Option.bind_eq_bind, Option.bind_some, Option.bind_eq_some_iff] at h
    obtain ⟨vm', hvm', h⟩ := h
    exact ⟨d, vm, vm', rfl, hvm', (Option.some.inj h).symm⟩

/-- A new process has no threads. -/
theorem processCreate_threads {P : Platform} {name : List Byte} {priority : Nat} {s' : Kernel}
    {pr : Process} (h : s.processCreate P p name priority = some s')
    (hpr : s'.procs.lookup p = some pr) : pr.threads = none := by
  obtain ⟨d, vm, vm', -, -, rfl⟩ := processCreate_eq_some h
  rw [Finmap.lookup_insert] at hpr
  obtain rfl := Option.some.inj hpr
  rfl

/-! ## Destruction in any state -/

section Destruction

variable {P : Platform} {s' : Kernel}

/-- A thread leaves its list by one store, to the process or to the thread before it. -/
theorem unlinkThread_cases (h : s.unlinkThread t = some s') :
    s' = s ∨
    (∃ p next, s.updateProcess p (fun pr => { pr with threads := next }) = some s') ∨
    ∃ prev next, s.updateThread prev (fun pv => { pv with next := next }) = some s' := by
  simp only [unlinkThread, Option.bind_eq_bind, Option.bind_eq_some_iff] at h
  obtain ⟨th, -, p, -, pr, -, h⟩ := h
  split at h
  case isTrue => exact .inr (.inl ⟨p, th.next, h⟩)
  case isFalse =>
    simp only [Option.bind_eq_some_iff] at h
    obtain ⟨prev, -, h⟩ := h
    cases prev with
    | none => exact .inl (Option.some.inj h).symm
    | some prev => exact .inr (.inr ⟨prev, th.next, h⟩)

/-- `thread_destroy` refuses, or unlinks the thread twice and frees it. -/
theorem threadDestroy_cases {thread : Option Ptr} {r : Int}
    (h : s.threadDestroy thread = some (r, s')) :
    r = -1 ∧ s' = s.cli.sti ∨
      r = 0 ∧ ∃ t s₁ s₂, thread = some t ∧ s.cli.unlinkReady t = some s₁ ∧
        s₁.unlinkThread t = some s₂ ∧ s' = { s₂ with threads := s₂.threads.erase t }.sti := by
  have hrefused : some (-1, s.cli.sti) = some (r, s') → r = -1 ∧ s' = s.cli.sti := by
    intro heq
    obtain ⟨rfl, rfl⟩ := Prod.mk.inj (Option.some.inj heq)
    exact ⟨rfl, rfl⟩
  unfold threadDestroy at h
  cases thread with
  | none => exact .inl (hrefused h)
  | some t =>
    simp only [Option.bind_eq_bind, Option.bind_eq_some_iff] at h
    obtain ⟨th, -, h⟩ := h
    split at h
    case isTrue => exact .inl (hrefused h)
    case isFalse =>
      split at h
      case h_1 => exact .inl (hrefused h)
      case h_2 p hp =>
        simp only [Option.bind_eq_some_iff] at h
        obtain ⟨pr, -, h⟩ := h
        split at h
        case isTrue => exact .inl (hrefused h)
        case isFalse =>
          simp only [Option.bind_eq_some_iff] at h
          obtain ⟨s₁, hs₁, s₂, hs₂, h⟩ := h
          obtain ⟨rfl, rfl⟩ := Prod.mk.inj (Option.some.inj h)
          exact .inr ⟨rfl, t, s₁, s₂, rfl, hs₁, hs₂, rfl⟩

/-- What `thread_destroy` keeps, the loop of `process_destroy` keeps. -/
theorem destroyThreads_keeps {R : Kernel → Kernel → Prop} (hrefl : ∀ s, R s s)
    (htrans : ∀ {s s' s''}, R s s' → R s' s'' → R s s'')
    (hdestroy : ∀ {s s' t r}, s.threadDestroy (some t) = some (r, s') → R s s')
    {n : Nat} {thread : Option Ptr} (h : s.destroyThreads n thread = some s') : R s s' := by
  induction n generalizing s thread with
  | zero =>
    cases thread with
    | none =>
      obtain rfl := Option.some.inj h
      exact hrefl s
    | some t => cases h
  | succ n ih =>
    cases thread with
    | none =>
      obtain rfl := Option.some.inj h
      exact hrefl s
    | some t =>
      simp only [destroyThreads, Option.bind_eq_bind, Option.bind_eq_some_iff] at h
      obtain ⟨th, -, ⟨r, s₁⟩, hs₁, h⟩ := h
      exact htrans (hdestroy hs₁) (ih h)

/-- `process_destroy` returns at once, or marks the process, takes it out of the table,
runs its loop and frees the process. -/
theorem processDestroy_cases (h : s.processDestroy P p = some s') :
    ∃ pr, s.procs.lookup p = some pr ∧ (pr.state = .terminated ∧ s' = s ∨
      pr.state ≠ .terminated ∧ ∃ n s₁ vm,
        { s with
          procs := s.procs.insert p { pr with state := .terminated }
          processTable := tableRemove s.processTable p }.destroyThreads n pr.threads = some s₁ ∧
        s' = { s₁ with vm := vm, procs := s₁.procs.erase p }) := by
  simp only [processDestroy, Option.bind_eq_bind, Option.bind_eq_some_iff] at h
  obtain ⟨pr, hpr, h⟩ := h
  refine ⟨pr, hpr, ?_⟩
  split at h
  case isTrue hstate => exact .inl ⟨hstate, (Option.some.inj h).symm⟩
  case isFalse hstate =>
    simp only [Option.bind_eq_some_iff] at h
    obtain ⟨s₁, hs₁, s₂, hs₂, pr₂, -, h⟩ := h
    rw [updateProcess, hpr] at hs₁
    obtain rfl := Option.some.inj hs₁
    exact .inr ⟨hstate, _, s₂, _, hs₂, (Option.some.inj h).symm⟩

end Destruction

end Kernel

end Leenix
