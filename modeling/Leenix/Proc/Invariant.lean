import Leenix.Proc.System

/-!
# The scheduler invariant

`Lists` says that the linked structures of the kernel represent a `Sched`, and
`Inv` adds what holds of the current thread between two steps. For each call of
`Op`, a lemma says which `Sched` represents the state after it.

- `Lists.post`, `Lists.take`, `Lists.adopt`, `Lists.destroy`,
  `Lists.destroyProcess`, `Lists.switch`: one lemma for each way the lists change.
- `Inv.post`, `Inv.tick_counts`, `Inv.tick_switches`, `Inv.exit`, `Inv.destroy`,
  `Inv.destroyProcess`: what the calls do to a state that meets the invariant.

`TailSafe` is where `thread_destroy` needs help: it never writes `queue_tail`, so
`TailsAgree` survives only when no queue in use loses its last thread.
-/

namespace Leenix

namespace Kernel

/-- The linked structures represent `a`. `tl` is what the last thread of each
process holds in `next`. -/
structure Lists (tl : Ptr → Option Ptr) (s : Kernel) (a : Sched) : Prop where
  ready : ReadyRep s a.ready
  tails : TailsAgree s a.ready
  members : MembersRep tl s a.members
  priority : ∀ t th, s.fixed t = some th → th.priority = processPriDefault
  alive : ∀ p pr, s.procs.lookup p = some pr → pr.state ≠ .terminated
  tail : ∀ p, tl p ≠ none → ∃ pr, s.procs.lookup p = some pr

/-- A live thread of the process. -/
def OwnedBy (s : Kernel) (p t : Ptr) : Prop :=
  ∃ th, s.threads.lookup t = some th ∧ th.parent = some p

/-- The threads `K` can leave the ready queues without taking the tail from
under a queue that goes on: a queue whose last thread is in `K` holds threads of
`K` only. -/
def TailSafe (s : Kernel) (K : Ptr → Prop) : Prop :=
  ∀ i, i ≤ processPriMax → ∀ l, s.queue i ≠ none → s.queueTail i = some l → K l →
    ∀ us x, Seg s.nextReady (s.queue i) us (some x) → K x

theorem TailsAgree.forget {s s' : Kernel} {a : Sched} {ks : List Ptr} {K : Ptr → Prop}
    (htails : TailsAgree s a.ready) (hready : ReadyRep s a.ready) (hsafe : s.TailSafe K)
    (hK : ∀ i, ∀ x ∈ a.ready i, x ∈ ks ↔ K x) (htail : s'.queueTail = s.queueTail) :
    TailsAgree s' (a.forget ks).ready := by
  intro i hi hne
  have hseg := hready.seg i hi
  have hold : a.ready i ≠ [] := fun h => hne (by simp [Sched.forget, h])
  rcases List.eq_nil_or_concat (a.ready i) with hnil | ⟨us, l, hlast⟩
  · exact absurd hnil hold
  · rw [List.concat_eq_append] at hlast
    have hlmem : l ∈ a.ready i := by simp [hlast]
    have hl : s.queueTail i = some l := by rw [htails i hi hold, hlast, List.getLast?_concat]
    have hq : s.queue i ≠ none := by
      rw [hready.queue_eq_head hi]
      simpa using hold
    -- if the last thread left, the queue would be empty
    have hkeep : l ∉ ks := fun hlk => by
      refine hne (List.filter_eq_nil_iff.mpr fun x hx => ?_)
      obtain ⟨us, hus⟩ := hseg.reaches_iff.mpr hx
      simpa using (hK i x hx).mpr (hsafe i hi l hq hl ((hK i l hlmem).mp hlk) us x hus)
    rw [htail, hl]
    simp [Sched.forget, hlast, List.filter_append, hkeep]

/-- The scheduler invariant between two steps. -/
structure Inv (tl : Ptr → Option Ptr) (s : Kernel) (a : Sched) : Prop extends Lists tl s a where
  current : ∃ c th, s.currentThread = some c ∧ s.fixed c = some th ∧
    s.currentProc = th.parent ∧ (s.halted = false → th.state ≠ .terminated)
  idle : ∀ c, s.currentThread = some c → ¬a.Waiting c
  running : ∀ t th, s.fixed t = some th → th.state = .running → s.currentThread = some t

variable {tl : Ptr → Option Ptr} {s s' : Kernel} {a a' : Sched} {t p : Ptr}

namespace Lists

theorem prio_lookup (h : Lists tl s a) {th : Thread} (ht : s.threads.lookup t = some th) :
    th.priority = processPriDefault :=
  h.priority t th.fixed (fixed_of_lookup ht)

theorem prio_le (h : Lists tl s a) {th : Thread} (ht : s.threads.lookup t = some th) :
    th.priority ≤ processPriMax := by
  rw [h.prio_lookup ht]
  decide

/-- Processes that kept their state are alive. -/
theorem alive_of_procs (h : Lists tl s a)
    (hprocs : proj Process.fixed s'.procs = proj Process.fixed s.procs) (p : Ptr) (pr : Process)
    (hp : s'.procs.lookup p = some pr) : pr.state ≠ .terminated := by
  obtain ⟨pr₀, hp₀, hpr₀⟩ := proj_eq_some.mp
    ((congrFun hprocs p).symm.trans (proj_eq_some.mpr ⟨pr, hp, rfl⟩))
  have hstate : pr₀.fixed.state = pr.fixed.state := by rw [hpr₀]
  exact hstate ▸ h.alive p pr₀ hp₀

/-- A queued thread is what the queue pointers lead to. -/
theorem waiting_iff (h : Lists tl s a) : a.Waiting t ↔ s.Queued t := by
  constructor
  · rintro ⟨i, hi⟩
    have hle := h.ready.index_le hi
    exact ⟨i, hle, (h.ready.seg i hle).reaches_iff.mpr hi⟩
  · rintro ⟨i, hle, hi⟩
    exact ⟨i, (h.ready.seg i hle).reaches_iff.mp hi⟩

/-- A thread the heap does not hold is in no list. -/
theorem not_waiting_of_fresh (h : Lists tl s a) (ht : s.threads.lookup t = none) : ¬a.Waiting t := by
  rintro ⟨i, hi⟩
  obtain ⟨th, hth⟩ := h.ready.live hi
  cases hth.symm.trans ht

/-- A step that keeps both heaps and the queues keeps the lists. -/
theorem congr (h : Lists tl s a) (hthreads : s'.threads = s.threads) (hprocs : s'.procs = s.procs)
    (hqueue : s'.queue = s.queue) (htail : s'.queueTail = s.queueTail) : Lists tl s' a where
  ready := h.ready.transport (fun i _ => congrFun hqueue i)
    (fun _ x _ => by simp only [nextReady, hthreads]) fun _ x _ => by simp only [core, hthreads]
  tails := fun i hi hne => (congrFun htail i).trans (h.tails i hi hne)
  members := h.members.transport (by rw [hprocs]) (by simp only [next, hthreads])
    fun x => by simp only [fixed, hthreads]
  priority x := by simpa only [fixed, hthreads] using h.priority x
  alive p := by simpa only [hprocs] using h.alive p
  tail p := by simpa only [hprocs] using h.tail p

/-- A queue operation that rewrites the core of one thread, and of that thread
neither its process, nor its priority, nor its place in the thread list. -/
theorem touch (h : Lists tl s a) {c : Thread} (c' : Thread) (hc : s.core t = some c)
    (hcore : s'.core = Function.update s.core t (some c')) (hparent : c'.parent = c.parent)
    (hprio : c'.priority = c.priority) (hnext : c'.next = c.next) (hprocs : s'.procs = s.procs)
    (hready : ReadyRep s' a'.ready) (htails : TailsAgree s' a'.ready)
    (hmembers : a'.members = a.members) : Lists tl s' a' where
  ready := hready
  tails := htails
  members := by
    rw [hmembers]
    refine h.members.transport (by rw [hprocs]) (funext fun x => ?_) fun x => ?_
    · rw [next_eq_core, next_eq_core, hcore]
      by_cases hxt : x = t
      · simp [hxt, hc, hnext]
      · simp [hxt]
    · rw [fixed_eq_core, fixed_eq_core, hcore]
      by_cases hxt : x = t
      · simp [hxt, hc, Thread.fixed, hparent]
      · simp [hxt]
  priority x thx hx := by
    rw [fixed_eq_core, hcore] at hx
    by_cases hxt : x = t
    · subst hxt
      rw [Function.update_self] at hx
      obtain rfl := Option.some.inj hx
      refine hprio.trans (h.priority x c.fixed ?_)
      simp [fixed_eq_core, hc]
    · rw [Function.update_of_ne hxt, ← fixed_eq_core] at hx
      exact h.priority x thx hx
  alive p := by simpa only [hprocs] using h.alive p
  tail p := by simpa only [hprocs] using h.tail p

/-- Posting a thread that waits in no queue. -/
theorem post (h : Lists tl s a) {th : Thread} (ht : s.threads.lookup t = some th)
    (hlive : th.state ≠ .terminated) (hnew : ¬a.Waiting t) :
    ∃ s', s.schedulerPost (some t) = some s' ∧
      Lists tl s' (a.enqueue processPriDefault t) ∧ QueueFrame s s' ∧
      s'.core = Function.update s.core t (some { th.core with state := .ready }) := by
  obtain ⟨s', hs', hready, htails, hframe, hcore⟩ :=
    schedulerPost_spec h.ready h.tails ht hlive (h.prio_le ht) hnew
  rw [h.prio_lookup ht] at hready htails
  exact ⟨s', hs', h.touch _ (core_of_lookup ht) hcore rfl rfl rfl hframe.procs hready htails rfl,
    hframe, hcore⟩

/-- The dispatch loop. -/
theorem take (h : Lists tl s a) :
    (s.takeReady processPriMax = some (none, s) ∧ ∀ i, i < processPriMax → a.ready i = []) ∨
    ∃ i t rest s', a.ready i = t :: rest ∧ s.takeReady processPriMax = some (some t, s') ∧
      Lists tl s' (a.dequeue i) ∧ QueueFrame s s' ∧ s'.core = s.core := by
  rcases takeReady_spec h.ready processPriMax (Nat.le_succ _) with ⟨hempty, htake⟩ |
    ⟨i, t, rest, s', -, hi, -, htake, hready, htails, hframe, hcore, -⟩
  · exact .inl ⟨htake, hempty⟩
  · obtain ⟨th, ht⟩ := h.ready.live (i := i) (t := t) (by simp [hi])
    have hc : s.core t = some th.core := core_of_lookup ht
    refine .inr ⟨i, t, rest, s', hi, htake, ?_, hframe, hcore⟩
    exact h.touch _ hc (by rw [hcore, ← hc, Function.update_eq_self]) rfl rfl rfl hframe.procs hready
      (htails h.tails) rfl

/-- Adding a fresh thread to a process. -/
theorem adopt (h : Lists tl s a) (P : Platform) {pr : Process} (entry arg : Nat) {stack : Nat}
    (hp : s.procs.lookup p = some pr) (hfresh : s.threads.lookup t = none) (hstack : stack ≠ 0) :
    ∃ s', s.threadCreate P p entry arg (some t) stack = some (some t, s') ∧
      Lists tl s' (a.adopt p t) ∧ ListFrame s s' ∧
      s'.fixed = Function.update s.fixed t (some (s.newThread p pr entry stack).fixed) ∧
      s'.mem = threadStack P s.mem entry arg stack := by
  obtain ⟨s', hs', hready, hmembers, htail, hframe, hfixed, hmem⟩ :=
    threadCreate_spec P entry arg h.ready h.members hp hfresh hstack
  refine ⟨s', hs', ⟨hready, fun i hi hne => ?_, hmembers, fun x thx hx => ?_, fun q qr hq => ?_,
    fun q hq => ?_⟩, hframe, hfixed, hmem⟩
  · rw [htail]
    exact h.tails i hi hne
  · rw [hfixed] at hx
    by_cases hxt : x = t
    · subst hxt
      rw [Function.update_self] at hx
      exact Option.some.inj hx ▸ rfl
    · exact h.priority x thx (by rwa [Function.update_of_ne hxt] at hx)
  · exact h.alive_of_procs hframe.procs q qr hq
  · obtain ⟨qr, hqr⟩ := h.tail q hq
    obtain ⟨qr', hqr', -⟩ := hframe.process hqr
    exact ⟨qr', hqr'⟩

/-- Destroying a thread that is not running and not a tail in use. -/
theorem destroy (h : Lists tl s a) {th : Thread} (ht : s.threads.lookup t = some th)
    (hstop : th.state ≠ .running) (hsafe : s.TailSafe (· = t)) :
    ∃ s', s.threadDestroy (some t) = some (0, s') ∧ Lists tl s' (a.forget [t]) ∧
      ListFrame s s' ∧ s'.fixed = Function.update s.fixed t none := by
  obtain ⟨s', hs', hready, hmembers, htail, hframe, hfixed, -⟩ :=
    threadDestroy_spec h.ready h.members ht (h.prio_le ht) hstop
  refine ⟨s', hs', ⟨hready, ?_, hmembers, fun x thx hx => ?_, fun q qr hq => ?_, fun q hq => ?_⟩,
    hframe, hfixed⟩
  · exact h.tails.forget h.ready hsafe (by simp) htail
  · rw [hfixed] at hx
    by_cases hxt : x = t
    · simp [hxt] at hx
    · exact h.priority x thx (by rwa [Function.update_of_ne hxt] at hx)
  · exact h.alive_of_procs hframe.procs q qr hq
  · obtain ⟨qr, hqr⟩ := h.tail q hq
    obtain ⟨qr', hqr', -⟩ := hframe.process hqr
    exact ⟨qr', hqr'⟩

/-- Destroying a process none of whose threads is running or a tail in use. -/
theorem destroyProcess (h : Lists tl s a) (P : Platform) {pr : Process}
    (hp : s.procs.lookup p = some pr) (htl : tl p = none)
    (hstop : ∀ x th, s.fixed x = some th → th.parent = some p → th.state ≠ .running)
    (hsafe : s.TailSafe (s.OwnedBy p)) :
    ∃ s', s.processDestroy P p = some s' ∧ Lists tl s' (a.forget (a.members p)) ∧
      Destroyed P p pr (a.members p) s s' := by
  obtain ⟨s', hs', hready, hmembers, hd⟩ :=
    processDestroy_spec P h.ready h.members hp (h.alive p pr hp) htl fun x hx th hth => by
      obtain ⟨th', hth', hpar⟩ := (h.members.mem_iff p x).mp hx
      obtain rfl := Option.some.inj (hth.symm.trans hth')
      refine ⟨?_, hstop x th hth hpar⟩
      rw [h.priority x th hth]
      decide
  have hprocs : ∀ q, q ≠ p → ∀ qr, (s'.procs.lookup q).map Process.fixed = some qr ↔
      (s.procs.lookup q).map Process.fixed = some qr := fun q hqp qr => by
    have := congrFun hd.procs q
    rw [Function.update_of_ne hqp] at this
    rw [show (s'.procs.lookup q).map Process.fixed = _ from this]
    rfl
  have hgone : s'.procs.lookup p = none := by
    simpa [proj] using congrFun hd.procs p
  refine ⟨s', hs', ⟨hready, ?_, hmembers, fun x thx hx => ?_, fun q qr hq => ?_, fun q hq => ?_⟩, hd⟩
  · refine h.tails.forget h.ready hsafe (fun i x hx => ?_) hd.queueTail
    rw [h.members.mem_iff p x]
    constructor
    · rintro ⟨th, hth, hpar⟩
      obtain ⟨th', hth', rfl⟩ := lookup_of_fixed hth
      exact ⟨th', hth', hpar⟩
    · rintro ⟨th, hth, hpar⟩
      exact ⟨th.fixed, fixed_of_lookup hth, hpar⟩
  · rw [hd.fixed] at hx
    split at hx
    · cases hx
    · exact h.priority x thx hx
  · have hqp : q ≠ p := by
      rintro rfl
      cases hq.symm.trans hgone
    obtain ⟨qr₀, hqr₀, hfix⟩ := Option.map_eq_some_iff.mp
      ((hprocs q hqp qr.fixed).mp (by simp [hq]))
    have hstate : qr₀.fixed.state = qr.fixed.state := by rw [hfix]
    exact hstate ▸ h.alive q qr₀ hqr₀
  · have hqp : q ≠ p := by
      rintro rfl
      exact hq htl
    obtain ⟨qr, hqr⟩ := h.tail q hq
    obtain ⟨qr', hqr', -⟩ := Option.map_eq_some_iff.mp
      ((hprocs q hqp qr.fixed).mpr (by simp [hqr]))
    exact ⟨qr', hqr'⟩

/-- A fresh process object owns no thread. -/
theorem members_of_fresh (h : Lists tl s a) (hp : s.procs.lookup p = none) :
    a.members p = [] ∧ tl p = none := by
  constructor
  · refine List.eq_nil_iff_forall_not_mem.mpr fun x hx => ?_
    obtain ⟨th, hth, hpar⟩ := (h.members.mem_iff p x).mp hx
    obtain ⟨q, qr, hq, hqr⟩ := h.members.parent_live x th hth
    obtain rfl := Option.some.inj (hpar.symm.trans hq)
    cases hqr.symm.trans hp
  · by_contra htl
    obtain ⟨pr, hpr⟩ := h.tail p htl
    cases hpr.symm.trans hp

/-- Storing the record of a process without threads. -/
theorem insertProcess (h : Lists tl s a) (pr : Process) (hmem : a.members p = [])
    (htl : tl p = none) (hthreads₀ : pr.threads = none) (hlive : pr.state ≠ .terminated)
    (hprocs : s'.procs = s.procs.insert p pr) (hthreads : s'.threads = s.threads)
    (hqueue : s'.queue = s.queue) (htail : s'.queueTail = s.queueTail) : Lists tl s' a where
  ready := h.ready.transport (fun i _ => congrFun hqueue i)
    (fun _ x _ => by simp only [nextReady, hthreads]) fun _ x _ => by simp only [core, hthreads]
  tails := fun i hi hne => (congrFun htail i).trans (h.tails i hi hne)
  members := by
    refine ⟨fun q qr hq => ?_, h.members.nodup, fun q x => ?_, fun x thx hx => ?_⟩
    · simp only [next, hthreads]
      rw [hprocs] at hq
      by_cases hqp : q = p
      · subst hqp
        rw [Finmap.lookup_insert] at hq
        obtain rfl := Option.some.inj hq
        rw [hmem, htl, hthreads₀]
        rfl
      · rw [Finmap.lookup_insert_of_ne _ hqp] at hq
        exact h.members.seg q qr hq
    · simpa only [fixed, hthreads] using h.members.mem_iff q x
    · simp only [fixed, hthreads] at hx
      obtain ⟨q, qr, hq, hqr⟩ := h.members.parent_live x thx hx
      refine ⟨q, ?_⟩
      rw [hprocs]
      by_cases hqp : q = p
      · exact ⟨pr, hq, by rw [hqp, Finmap.lookup_insert]⟩
      · exact ⟨qr, hq, by rw [Finmap.lookup_insert_of_ne _ hqp, hqr]⟩
  priority x := by simpa only [fixed, hthreads] using h.priority x
  alive q qr hq := by
    rw [hprocs] at hq
    by_cases hqp : q = p
    · subst hqp
      rw [Finmap.lookup_insert] at hq
      exact Option.some.inj hq ▸ hlive
    · rw [Finmap.lookup_insert_of_ne _ hqp] at hq
      exact h.alive q qr hq
  tail q hq := by
    obtain ⟨qr, hqr⟩ := h.tail q hq
    rw [hprocs]
    by_cases hqp : q = p
    · exact ⟨pr, by rw [hqp, Finmap.lookup_insert]⟩
    · exact ⟨qr, by rw [Finmap.lookup_insert_of_ne _ hqp, hqr]⟩

/-- Freeing a process object without threads. -/
theorem eraseProcess (h : Lists tl s a) (hmem : a.members p = []) (htl : tl p = none)
    (hprocs : s'.procs = s.procs.erase p) (hthreads : s'.threads = s.threads)
    (hqueue : s'.queue = s.queue) (htail : s'.queueTail = s.queueTail) : Lists tl s' a where
  ready := h.ready.transport (fun i _ => congrFun hqueue i)
    (fun _ x _ => by simp only [nextReady, hthreads]) fun _ x _ => by simp only [core, hthreads]
  tails := fun i hi hne => (congrFun htail i).trans (h.tails i hi hne)
  members := by
    refine ⟨fun q qr hq => ?_, h.members.nodup, fun q x => ?_, fun x thx hx => ?_⟩
    · simp only [next, hthreads]
      rw [hprocs] at hq
      have hqp : q ≠ p := by
        rintro rfl
        simp at hq
      exact h.members.seg q qr (by simpa [Finmap.lookup_erase_ne hqp] using hq)
    · simpa only [fixed, hthreads] using h.members.mem_iff q x
    · simp only [fixed, hthreads] at hx
      obtain ⟨q, qr, hq, hqr⟩ := h.members.parent_live x thx hx
      have hqp : q ≠ p := by
        rintro rfl
        have := (h.members.mem_iff q x).mpr ⟨thx, hx, hq⟩
        simp [hmem] at this
      exact ⟨q, qr, hq, by rw [hprocs, Finmap.lookup_erase_ne hqp, hqr]⟩
  priority x := by simpa only [fixed, hthreads] using h.priority x
  alive q qr hq := by
    have hqp : q ≠ p := by
      rintro rfl
      simp [hprocs] at hq
    exact h.alive q qr (by simpa [hprocs, Finmap.lookup_erase_ne hqp] using hq)
  tail q hq := by
    have hqp : q ≠ p := by
      rintro rfl
      exact hq htl
    obtain ⟨qr, hqr⟩ := h.tail q hq
    exact ⟨qr, by rw [hprocs, Finmap.lookup_erase_ne hqp, hqr]⟩

/-- A switch in a state in which no thread is running makes the new thread the
only running one, unless it is the current thread already. -/
theorem switch (h : Lists tl s a) (P : Platform) {c n : Ptr} {thc thn : Thread}
    (hcur : s.currentThread = some c) (hc : s.fixed c = some thc)
    (hproc : s.currentProc = thc.parent) (hstop : ∀ t th, s.fixed t = some th → th.state ≠ .running)
    (hn : s.fixed n = some thn) (hidle : ¬a.Waiting n) (hself : n = c → thc.state ≠ .terminated) :
    ∃ s', s.schedulerSwitch P (some n) = some s' ∧ Inv tl s' a ∧ s'.currentThread = some n ∧
      s'.procs = s.procs ∧ s'.processTable = s.processTable ∧
      s'.fixed = if n = c then s.fixed
        else Function.update s.fixed n (some { thn with state := .running }) := by
  by_cases hnc : n = c
  · subst hnc
    obtain rfl := Option.some.inj (hc.symm.trans hn)
    refine ⟨s, schedulerSwitch_self P hcur, ⟨h, ⟨n, _, hcur, hc, hproc, fun _ => hself rfl⟩, ?_, ?_⟩,
      hcur, rfl, rfl, by simp⟩
    · exact fun x hx => Option.some.inj (hcur.symm.trans hx) ▸ hidle
    · exact fun x thx hx hrun => absurd hrun (hstop x thx hx)
  · obtain ⟨cur, hcur', rfl⟩ := lookup_of_fixed hc
    obtain ⟨th, hth, rfl⟩ := lookup_of_fixed hn
    obtain ⟨p, pr, hp, hpr⟩ := h.members.parent_live n _ hn
    obtain ⟨vm, hvm⟩ := switchAddressSpace_isSome P cur hp hpr
    have hcoren : s.core n = some th.core := core_of_lookup hth
    refine ⟨_, schedulerSwitch_other P hnc hcur hcur' hth hvm, ⟨?_, ?_, ?_, ?_⟩, rfl, rfl, rfl,
      ?_⟩
    · refine h.touch { th.core with state := .running } hcoren (proj_insert ..) rfl rfl rfl
        rfl ?_ h.tails rfl
      refine h.ready.transport (fun _ _ => rfl) (fun i x hx => ?_) fun i x hx => ?_
      all_goals
        have hxn : x ≠ n := fun hxn => hidle ⟨i, hxn ▸ hx⟩
        simp [nextReady, core, hxn]
    · refine ⟨n, { th with state := .running }.fixed, rfl, ?_, rfl, fun _ => by simp [Thread.fixed]⟩
      simp [fixed]
    · intro x hx
      exact Option.some.inj hx ▸ hidle
    · intro x thx hx hrun
      by_cases hxn : x = n
      · exact hxn ▸ rfl
      · exact absurd hrun (hstop x thx (by simpa [fixed, hxn] using hx))
    · rw [if_neg hnc]
      exact proj_insert ..

end Lists

/-! ## The steps -/

/-- What of the state the scheduler invariant reads. -/
def schedState (s : Kernel) :=
  (s.threads, s.procs, s.queue, s.queueTail, s.currentThread, s.currentProc, s.halted)

namespace Inv

/-- A step that keeps the heaps, the queues and the current thread. -/
theorem congr (h : Inv tl s a) (hsame : s'.schedState = s.schedState) : Inv tl s' a := by
  simp only [schedState, Prod.mk.injEq] at hsame
  obtain ⟨hthreads, hprocs, hqueue, htail, hthread, hproc, hhalted⟩ := hsame
  exact
    { toLists := h.toLists.congr hthreads hprocs hqueue htail
      current := by simpa only [fixed, hthreads, hthread, hproc, hhalted] using h.current
      idle := by simpa only [hthread] using h.idle
      running := by simpa only [fixed, hthreads, hthread] using h.running }

/-- A step that changes lists and keeps process and state of the current
thread. -/
theorem of_lists (h : Inv tl s a) (hlists : Lists tl s' a')
    (hthread : s'.currentThread = s.currentThread) (hproc : s'.currentProc = s.currentProc)
    (hhalted : s'.halted = s.halted)
    (hcur : ∀ c th, s.currentThread = some c → s.fixed c = some th →
      ∃ th', s'.fixed c = some th' ∧ th'.parent = th.parent ∧ th'.state = th.state)
    (hidle : ∀ c, s.currentThread = some c → ¬a'.Waiting c)
    (hrun : ∀ t th, s'.fixed t = some th → th.state = .running →
      ∃ th₀, s.fixed t = some th₀ ∧ th₀.state = .running) : Inv tl s' a' where
  toLists := hlists
  current := by
    obtain ⟨c, th, hc, hth, hpar, hstate⟩ := h.current
    obtain ⟨th', hth', hpar', hstate'⟩ := hcur c th hc hth
    refine ⟨c, th', hthread.trans hc, hth', ?_, ?_⟩
    · rw [hproc, hpar, hpar']
    · rw [hhalted, hstate']
      exact hstate
  idle c hc := hidle c (hthread ▸ hc)
  running t th ht hstate := by
    obtain ⟨th₀, hth₀, hstate₀⟩ := hrun t th ht hstate
    exact hthread ▸ h.running t th₀ hth₀ hstate₀

/-- Posting another thread. -/
theorem post (h : Inv tl s a) {th : Thread} (ht : s.threads.lookup t = some th)
    (hlive : th.state ≠ .terminated) (hnew : ¬a.Waiting t) (hcur : s.currentThread ≠ some t) :
    ∃ s', s.schedulerPost (some t) = some s' ∧ Inv tl s' (a.enqueue processPriDefault t) ∧
      QueueFrame s s' ∧
      s'.fixed = Function.update s.fixed t (some { th.fixed with state := .ready }) := by
  obtain ⟨s', hs', hlists, hframe, hcore⟩ := h.toLists.post ht hlive hnew
  have hfixed : s'.fixed = Function.update s.fixed t (some { th.fixed with state := .ready }) := by
    funext x
    rw [fixed_eq_core, hcore]
    by_cases hxt : x = t
    · simp [hxt, Thread.fixed, Thread.core]
    · simp [hxt, fixed_eq_core]
  refine ⟨s', hs', h.of_lists hlists hframe.currentThread hframe.currentProc hframe.halted
    (fun c thc hc hthc => ?_) (fun c hc hw => ?_) fun x thx hx hstate => ?_, hframe, hfixed⟩
  · have hct : c ≠ t := fun hct => hcur (hct ▸ hc)
    exact ⟨thc, by rw [hfixed, Function.update_of_ne hct, hthc], rfl, rfl⟩
  · rcases Sched.waiting_enqueue.mp hw with hw | rfl
    · exact h.idle c hc hw
    · exact hcur hc
  · by_cases hxt : x = t
    · subst hxt
      rw [hfixed, Function.update_self] at hx
      obtain rfl := Option.some.inj hx
      cases hstate
    · exact ⟨thx, by rwa [hfixed, Function.update_of_ne hxt] at hx, hstate⟩

/-- Storing fields of a thread that the invariant does not read. -/
theorem updateThread (h : Inv tl s a) {th : Thread} (th' : Thread) (ht : s.threads.lookup t = some th)
    (hparent : th'.parent = th.parent) (hprio : th'.priority = th.priority)
    (hnext : th'.next = th.next) (hlink : th'.nextReady = th.nextReady)
    (hstate : th'.state = th.state) : Inv tl { s with threads := s.threads.insert t th' } a := by
  have hfixed : Kernel.fixed { s with threads := s.threads.insert t th' } =
      Function.update s.fixed t (some th'.fixed) := proj_insert ..
  refine h.of_lists ?_ rfl rfl rfl (fun c thc hc hthc => ?_) h.idle fun x thx hx hrun => ?_
  · refine h.toLists.touch th'.core (core_of_lookup ht) (proj_insert ..) hparent hprio hnext
      rfl ?_ h.tails rfl
    refine h.ready.transport (fun _ _ => rfl) (fun i x _ => ?_) fun i x _ => ?_
    all_goals by_cases hxt : x = t
    · subst hxt
      simp [nextReady, hlink, proj, ht]
    · simp [nextReady, hxt]
    · subst hxt
      simp [core, proj, ht, Thread.core, hprio]
    · simp [core, hxt]
  · by_cases hct : c = t
    · subst hct
      obtain rfl := Option.some.inj ((fixed_of_lookup ht).symm.trans hthc)
      exact ⟨th'.fixed, by simp [hfixed], hparent, hstate⟩
    · exact ⟨thc, by rw [hfixed, Function.update_of_ne hct, hthc], rfl, rfl⟩
  · by_cases hxt : x = t
    · subst hxt
      rw [hfixed, Function.update_self] at hx
      obtain rfl := Option.some.inj hx
      exact ⟨th.fixed, fixed_of_lookup ht, hstate.symm.trans hrun⟩
    · exact ⟨thx, by rwa [hfixed, Function.update_of_ne hxt] at hx, hrun⟩

/-- Threads wait at the default priority only. -/
theorem waiting_iff_default (h : Inv tl s a) : a.Waiting t ↔ t ∈ a.ready processPriDefault := by
  refine ⟨fun ⟨i, hi⟩ => ?_, fun hi => ⟨_, hi⟩⟩
  obtain ⟨th, hth, hprio⟩ := h.ready.prio i t hi
  have hdefault := h.priority t th.fixed (by simp [fixed_eq_core, hth])
  rw [show th.fixed.priority = th.priority from rfl, hprio] at hdefault
  exact hdefault ▸ hi

/-- After a thread stops running (it was posted, or it exits), nothing runs. -/
theorem none_running (h : Inv tl s a) {c : Ptr} {th : Thread} (hc : s.currentThread = some c)
    (hfixed : s'.fixed = Function.update s.fixed c (some th)) (hstate : th.state ≠ .running)
    (t : Ptr) (tht : Thread) (ht : s'.fixed t = some tht) : tht.state ≠ .running := by
  intro hrun
  by_cases htc : t = c
  · subst htc
    rw [hfixed, Function.update_self] at ht
    exact hstate (Option.some.inj ht ▸ hrun)
  · rw [hfixed, Function.update_of_ne htc] at ht
    exact htc (Option.some.inj ((h.running t tht ht hrun).symm.trans hc))

theorem schedulerTick_within (P : Platform) {c : Ptr} {th : Thread} {context : Nat}
    (hc : s.currentThread = some c) (hth : s.threads.lookup c = some th)
    (hleft : 0 < sliceLeft th.timeSlice) :
    s.schedulerTick P context = some { s with
      threads := s.threads.insert c { th with
        trapFrame := context
        timeSlice := sliceLeft th.timeSlice } } := by
  simp only [schedulerTick, hc, hth, Kernel.updateThread, Option.map_some, Option.bind_eq_bind,
    Option.bind_some, Option.pure_def, hleft, if_true]

theorem schedulerTick_over (P : Platform) {c n : Ptr} {th : Thread} {context : Nat} {s₂ s₃ : Kernel}
    (hc : s.currentThread = some c) (hth : s.threads.lookup c = some th)
    (hzero : sliceLeft th.timeSlice = 0)
    (hpost : { s with
        threads := s.threads.insert c { th with trapFrame := context, timeSlice := slice }
      }.schedulerPost (some c) = some s₂)
    (htake : s₂.takeReady processPriMax = some (some n, s₃)) :
    s.schedulerTick P context = s₃.cli.schedulerSwitch P (some n) := by
  rw [hc] at hpost
  simp only [schedulerTick, hc, hth, Kernel.updateThread, Option.map_some, Option.bind_eq_bind,
    Option.bind_some, hzero, Nat.lt_irrefl, if_false, Finmap.lookup_insert, Finmap.insert_insert,
    hpost, htake]

/-- A tick within the time slice only counts it down. -/
theorem tick_counts (h : Inv tl s a) (P : Platform) (context : Nat) (hslice : ¬s.SliceOver) :
    ∃ s', s.schedulerTick P context = some s' ∧ Inv tl s' a ∧
      s'.currentThread = s.currentThread ∧ s'.procs = s.procs ∧
      s'.processTable = s.processTable ∧
      ∀ t, (s'.fixed t).map Thread.state = (s.fixed t).map Thread.state := by
  obtain ⟨c, thf, hc, hthf, -, -⟩ := h.current
  obtain ⟨th, hth, rfl⟩ := lookup_of_fixed hthf
  have hleft : 0 < sliceLeft th.timeSlice :=
    Nat.pos_of_ne_zero fun hz => hslice ⟨c, th, hc, hth, hz⟩
  refine ⟨_, ?_, h.updateThread { th with
    trapFrame := context
    timeSlice := sliceLeft th.timeSlice } hth rfl rfl rfl rfl rfl, rfl, rfl, rfl, fun t => ?_⟩
  · exact schedulerTick_within P hc hth hleft
  · by_cases htc : t = c
    · subst htc
      simp [fixed, proj, hth, Thread.fixed]
    · simp [fixed, htc]

/-- A tick at the end of the time slice posts the current thread and dispatches
the thread that is then first in the queue. -/
theorem tick_switches (h : Inv tl s a) (P : Platform) (context : Nat) (hhalted : s.halted = false)
    {c : Ptr} (hc : s.currentThread = some c) (hslice : s.SliceOver) :
    ∃ s' n rest, s.schedulerTick P context = some s' ∧
      a.ready processPriDefault ++ [c] = n :: rest ∧
      Inv tl s' ((a.enqueue processPriDefault c).dequeue processPriDefault) ∧
      s'.currentThread = some n ∧ s'.procs = s.procs ∧ s'.processTable = s.processTable ∧
      (n ≠ c → ∃ th, s'.fixed n = some th ∧ th.state = .running) := by
  obtain ⟨c', thf, hc', hthf, hproc, hlive⟩ := h.current
  obtain rfl := Option.some.inj (hc.symm.trans hc')
  obtain ⟨th, hth, rfl⟩ := lookup_of_fixed hthf
  obtain ⟨c', th', hc', hth', hzero⟩ := hslice
  obtain rfl := Option.some.inj (hc.symm.trans hc')
  obtain rfl := Option.some.inj (hth.symm.trans hth')
  -- the trap frame and the new slice
  let th₁ : Thread := { th with trapFrame := context, timeSlice := slice }
  let s₁ : Kernel := { s with threads := s.threads.insert c th₁ }
  have h₁ : Inv tl s₁ a := h.updateThread th₁ hth rfl rfl rfl rfl rfl
  have hth₁ : s₁.threads.lookup c = some th₁ := Finmap.lookup_insert _
  -- the post
  obtain ⟨s₂, hs₂, hlists₂, hframe₂, hcore₂⟩ :=
    h₁.toLists.post hth₁ (hlive hhalted) (h₁.idle c hc)
  have hfixed₂ : s₂.fixed = Function.update s₁.fixed c (some { th₁.fixed with state := .ready }) := by
    funext x
    rw [fixed_eq_core, hcore₂]
    by_cases hxc : x = c
    · simp [hxc, Thread.fixed, Thread.core]
    · simp [hxc, fixed_eq_core]
  have hnone₂ := h₁.none_running hc hfixed₂ (by simp)
  have hqueue₂ : ∀ x, (a.enqueue processPriDefault c).Waiting x ↔
      x ∈ (a.enqueue processPriDefault c).ready processPriDefault := fun x => by
    rw [Sched.waiting_enqueue, Sched.mem_enqueue, h.waiting_iff_default]
    simp
  -- the dispatch loop
  rcases hlists₂.take with ⟨-, hempty⟩ | ⟨i, n, rest, s₃, hi, htake, hlists₃, hframe₃, hcore₃⟩
  · have := hempty processPriDefault (by decide)
    simp [Sched.enqueue] at this
  · have hdefault : i = processPriDefault := by
      refine hlists₂.ready.index_unique (t := n) (by simp [hi]) ?_
      exact (hqueue₂ n).mp ⟨i, by simp [hi]⟩
    subst hdefault
    have hidle₃ : ¬((a.enqueue processPriDefault c).dequeue processPriDefault).Waiting n := by
      rintro ⟨j, hj⟩
      have hjd : j = processPriDefault :=
        hlists₂.ready.index_unique (Sched.mem_dequeue hj) (by simp [hi])
      subst hjd
      have hnd := hlists₂.ready.nodup processPriDefault
      rw [hi] at hnd
      exact (List.nodup_cons.mp hnd).1 (by simpa [Sched.dequeue, hi] using hj)
    -- the switch
    have hcli : Lists tl s₃.cli ((a.enqueue processPriDefault c).dequeue processPriDefault) :=
      hlists₃.congr rfl rfl rfl rfl
    have hfixed₃ : s₃.cli.fixed = s₂.fixed := fixed_congr hcore₃
    have hcur₃ : s₃.cli.currentThread = some c :=
      hframe₃.currentThread.trans (hframe₂.currentThread.trans hc)
    have hc₃ : s₃.cli.fixed c = some { th₁.fixed with state := .ready } := by
      rw [hfixed₃, hfixed₂, Function.update_self]
    have hproc₃ : s₃.cli.currentProc = th.parent :=
      hframe₃.currentProc.trans (hframe₂.currentProc.trans hproc)
    obtain ⟨thn, hthn⟩ : ∃ thn, s₃.cli.fixed n = some thn := by
      obtain ⟨thn, hthn⟩ := hlists₂.ready.live (i := processPriDefault) (t := n) (by simp [hi])
      exact ⟨_, hfixed₃ ▸ fixed_of_lookup hthn⟩
    obtain ⟨s₄, hs₄, hinv₄, hcur₄, hprocs₄, htable₄, hfixed₄⟩ := hcli.switch P hcur₃ hc₃ hproc₃
      (fun t tht ht => hnone₂ t tht (hfixed₃ ▸ ht)) hthn hidle₃ (by simp)
    refine ⟨s₄, n, rest, ?_, by simpa [Sched.enqueue] using hi, hinv₄, hcur₄,
      hprocs₄.trans (hframe₃.procs.trans hframe₂.procs),
      htable₄.trans (hframe₃.processTable.trans hframe₂.processTable), fun hnc => ?_⟩
    · rw [schedulerTick_over P hc hth hzero hs₂ htake, hs₄]
    · rw [hfixed₄, if_neg hnc]
      exact ⟨_, Function.update_self .., rfl⟩

theorem threadExit_halts (P : Platform) {c : Ptr} {th : Thread} {s₂ : Kernel}
    (hc : s.currentThread = some c) (hth : s.threads.lookup c = some th)
    (htake : { s with
        ints := false, threads := s.threads.insert c { th with state := .terminated }
      }.takeReady processPriMax = some (none, s₂)) :
    s.threadExit P = some { s₂ with halted := true } := by
  rw [hc] at htake
  simp only [threadExit, cli, hc, hth, Kernel.updateThread, Option.map_some, Option.bind_eq_bind,
    Option.bind_some, htake, Option.pure_def]

theorem threadExit_switches (P : Platform) {c n : Ptr} {th : Thread} {s₂ : Kernel}
    (hc : s.currentThread = some c) (hth : s.threads.lookup c = some th)
    (htake : { s with
        ints := false, threads := s.threads.insert c { th with state := .terminated }
      }.takeReady processPriMax = some (some n, s₂)) :
    s.threadExit P = s₂.schedulerSwitch P (some n) := by
  rw [hc] at htake
  simp only [threadExit, cli, hc, hth, Kernel.updateThread, Option.map_some, Option.bind_eq_bind,
    Option.bind_some, htake]

/-- `thread_exit` halts when no thread is ready, and else dispatches the first
ready thread. -/
theorem exit (h : Inv tl s a) (P : Platform) :
    ∃ s', s.threadExit P = some s' ∧ s'.procs = s.procs ∧ s'.processTable = s.processTable ∧
      (s'.halted = true ∧ Inv tl s' a ∧ a.ready processPriDefault = [] ∨
        ∃ i n rest, a.ready i = n :: rest ∧ Inv tl s' (a.dequeue i) ∧ s'.currentThread = some n ∧
          ∃ th, s'.fixed n = some th ∧ th.state = .running) := by
  obtain ⟨c, thf, hc, hthf, hproc, -⟩ := h.current
  obtain ⟨th, hth, rfl⟩ := lookup_of_fixed hthf
  let th₁ : Thread := { th with state := .terminated }
  let s₁ : Kernel := { s with ints := false, threads := s.threads.insert c th₁ }
  have hfixed₁ : s₁.fixed = Function.update s.fixed c (some th₁.fixed) := proj_insert ..
  have hc₁ : s₁.fixed c = some th₁.fixed := by rw [hfixed₁, Function.update_self]
  have hnone₁ := h.none_running hc hfixed₁ (by simp [th₁, Thread.fixed])
  have hlists₁ : Lists tl s₁ a := by
    refine h.toLists.touch th₁.core (core_of_lookup hth) (proj_insert ..) rfl rfl rfl rfl ?_
      h.tails rfl
    refine h.ready.transport (fun _ _ => rfl) (fun i x hx => ?_) fun i x hx => ?_
    all_goals
      have hxc : x ≠ c := fun hxc => h.idle c hc ⟨i, hxc ▸ hx⟩
      simp [s₁, nextReady, core, hxc]
  rcases hlists₁.take with ⟨htake, hempty⟩ |
    ⟨i, n, rest, s₂, hi, htake, hlists₂, hframe₂, hcore₂⟩
  · refine ⟨{ s₁ with halted := true }, threadExit_halts P hc hth htake, rfl, rfl,
      .inl ⟨rfl, ?_, hempty processPriDefault (by decide)⟩⟩
    refine ⟨hlists₁.congr rfl rfl rfl rfl, ⟨c, th₁.fixed, hc, hc₁, hproc, by simp⟩, h.idle, ?_⟩
    exact fun t tht ht hrun => absurd hrun (hnone₁ t tht ht)
  · have hni : n ∈ a.ready i := by simp [hi]
    have hnc : n ≠ c := fun hnc => h.idle c hc ⟨i, hnc ▸ hni⟩
    have hfixed₂ : s₂.fixed = s₁.fixed := fixed_congr hcore₂
    have hidle₂ : ¬(a.dequeue i).Waiting n := by
      rintro ⟨j, hj⟩
      obtain rfl := hlists₁.ready.index_unique (Sched.mem_dequeue hj) hni
      have hnd := hlists₁.ready.nodup j
      rw [hi] at hnd
      exact (List.nodup_cons.mp hnd).1 (by simpa [Sched.dequeue, hi] using hj)
    have hc₂ : s₂.fixed c = some th₁.fixed := by rw [hfixed₂, hc₁]
    obtain ⟨thn, hthn⟩ := hlists₁.ready.live hni
    obtain ⟨s₃, hs₃, hinv₃, hcur₃, hprocs₃, htable₃, hfixed₃⟩ :=
      hlists₂.switch P (hframe₂.currentThread.trans hc) hc₂ (hframe₂.currentProc.trans hproc)
        (fun t tht ht => hnone₁ t tht (hfixed₂ ▸ ht)) (hfixed₂ ▸ fixed_of_lookup hthn) hidle₂
        (fun heq => absurd heq hnc)
    refine ⟨s₃, (threadExit_switches P hc hth htake).trans hs₃, hprocs₃.trans hframe₂.procs,
      htable₃.trans hframe₂.processTable, .inr ⟨i, n, rest, hi, hinv₃, hcur₃, ?_⟩⟩
    rw [hfixed₃, if_neg hnc]
    exact ⟨_, Function.update_self .., rfl⟩

/-- Destroying a thread that is neither current nor a tail in use. -/
theorem destroy (h : Inv tl s a) {th : Thread} (ht : s.threads.lookup t = some th)
    (hcur : s.currentThread ≠ some t) (hsafe : s.TailSafe (· = t)) :
    ∃ s', s.threadDestroy (some t) = some (0, s') ∧ Inv tl s' (a.forget [t]) ∧ ListFrame s s' ∧
      s'.fixed = Function.update s.fixed t none := by
  have hstop : th.state ≠ .running := fun hrun =>
    hcur (h.running t th.fixed (fixed_of_lookup ht) hrun)
  obtain ⟨s', hs', hlists, hframe, hfixed⟩ := h.toLists.destroy ht hstop hsafe
  refine ⟨s', hs', h.of_lists hlists hframe.currentThread hframe.currentProc hframe.halted
    (fun c thc hc hthc => ?_) (fun c hc hw => ?_) fun x thx hx hrun => ?_, hframe, hfixed⟩
  · have hct : c ≠ t := fun hct => hcur (hct ▸ hc)
    exact ⟨thc, by rw [hfixed, Function.update_of_ne hct, hthc], rfl, rfl⟩
  · obtain ⟨i, hi⟩ := hw
    exact h.idle c hc ⟨i, List.mem_of_mem_filter hi⟩
  · by_cases hxt : x = t
    · simp [hfixed, hxt] at hx
    · exact ⟨thx, by rwa [hfixed, Function.update_of_ne hxt] at hx, hrun⟩

/-- Destroying a process that is not current, none of whose threads is a tail
in use. -/
theorem destroyProcess (h : Inv tl s a) (P : Platform) {pr : Process}
    (hp : s.procs.lookup p = some pr) (htl : tl p = none) (hcur : s.currentProc ≠ some p)
    (hsafe : s.TailSafe (s.OwnedBy p)) :
    ∃ s', s.processDestroy P p = some s' ∧ Inv tl s' (a.forget (a.members p)) ∧
      Destroyed P p pr (a.members p) s s' := by
  obtain ⟨c, thc, hc, hthc, hproc, -⟩ := h.current
  have hnot : thc.parent ≠ some p := fun hpar => hcur (hproc.trans hpar)
  obtain ⟨s', hs', hlists, hd⟩ := h.toLists.destroyProcess P hp htl (fun x th hx hpar hrun => by
    obtain rfl := Option.some.inj (hc.symm.trans (h.running x th hx hrun))
    exact hnot (Option.some.inj (hthc.symm.trans hx) ▸ hpar)) hsafe
  refine ⟨s', hs', h.of_lists hlists hd.currentThread hd.currentProc hd.halted
    (fun c' thc' hc' hthc' => ?_) (fun c hc hw => ?_) fun x thx hx hrun => ?_, hd⟩
  · obtain rfl := Option.some.inj (hc.symm.trans hc')
    obtain rfl := Option.some.inj (hthc.symm.trans hthc')
    have hmem : c ∉ a.members p := fun hm => by
      obtain ⟨th, hth, hpar⟩ := (h.members.mem_iff p c).mp hm
      exact hnot (Option.some.inj (hthc.symm.trans hth) ▸ hpar)
    exact ⟨thc, by rw [hd.fixed, if_neg hmem, hthc], rfl, rfl⟩
  · obtain ⟨i, hi⟩ := hw
    exact h.idle c hc ⟨i, List.mem_of_mem_filter hi⟩
  · rw [hd.fixed] at hx
    split at hx
    · cases hx
    · exact ⟨thx, hx, hrun⟩

/-- Storing the record of a process without threads. -/
theorem insertProcess (h : Inv tl s a) (pr : Process) (hmem : a.members p = []) (htl : tl p = none)
    (hthreads₀ : pr.threads = none) (hlive : pr.state ≠ .terminated)
    (hsame : s'.schedState = schedState { s with procs := s.procs.insert p pr }) :
    Inv tl s' a := by
  simp only [schedState, Prod.mk.injEq] at hsame
  obtain ⟨hthreads, hprocs, hqueue, htail, hthread, hproc, hhalted⟩ := hsame
  have hfixed : s'.fixed = s.fixed := by simp only [fixed, hthreads]
  exact h.of_lists (h.toLists.insertProcess pr hmem htl hthreads₀ hlive hprocs hthreads hqueue htail)
    hthread hproc hhalted (fun c th _ hth => ⟨th, by rw [hfixed, hth], rfl, rfl⟩) h.idle
    fun t th ht hrun => ⟨th, by rwa [hfixed] at ht, hrun⟩

/-- Freeing a process object without threads. -/
theorem eraseProcess (h : Inv tl s a) (hmem : a.members p = []) (htl : tl p = none)
    (hsame : s'.schedState = schedState { s with procs := s.procs.erase p }) : Inv tl s' a := by
  simp only [schedState, Prod.mk.injEq] at hsame
  obtain ⟨hthreads, hprocs, hqueue, htail, hthread, hproc, hhalted⟩ := hsame
  have hfixed : s'.fixed = s.fixed := by simp only [fixed, hthreads]
  exact h.of_lists (h.toLists.eraseProcess hmem htl hprocs hthreads hqueue htail)
    hthread hproc hhalted (fun c th _ hth => ⟨th, by rw [hfixed, hth], rfl, rfl⟩) h.idle
    fun t th ht hrun => ⟨th, by rwa [hfixed] at ht, hrun⟩

/-- `thread_create` returns null and changes no list, or adds a fresh thread. -/
theorem threadCreate (h : Inv tl s a) (P : Platform) {entry arg stack : Nat}
    {thread r : Option Ptr} (hfresh : s.ThreadFresh thread stack)
    (hc : s.threadCreate P p entry arg thread stack = some (r, s')) :
    (r = none ∧ stack = 0 ∧ s' = { s with currentTid := s.currentTid + 1 }) ∨
    ∃ t pr, r = some t ∧ s.threads.lookup t = none ∧ s.procs.lookup p = some pr ∧
      s'.procs.lookup p = some { pr with threads := some t } ∧
      Inv tl s' (a.adopt p t) ∧ ListFrame s s' ∧
      s'.fixed = Function.update s.fixed t (some (s.newThread p pr entry stack).fixed) := by
  obtain ⟨t, rfl, ⟨hstack, hr, hs⟩ | ⟨hstack, rfl, pr, hp, hs⟩⟩ := threadCreate_eq_some hc
  · exact .inl ⟨hr, hstack, hs⟩
  have ht : s.threads.lookup t = none := hfresh.1 t rfl
  obtain ⟨s₁, hs₁, hlists, hframe, hfixed, -⟩ := h.toLists.adopt P entry arg hp ht hstack
  obtain rfl : s' = s₁ := by
    rw [hc] at hs₁
    exact (Prod.mk.inj (Option.some.inj hs₁)).2
  refine .inr ⟨t, pr, rfl, ht, hp, ?_, ?_, hframe, hfixed⟩
  · rw [hs]
    exact Finmap.lookup_insert _
  -- the new thread is not current, and ready
  refine h.of_lists hlists hframe.currentThread hframe.currentProc hframe.halted
    (fun c thc _ hthc => ?_) h.idle fun x thx hx hrun => ?_
  · have hct : c ≠ t := by
      rintro rfl
      obtain ⟨th, hth, -⟩ := lookup_of_fixed hthc
      cases hth.symm.trans ht
    exact ⟨thc, by rw [hfixed, Function.update_of_ne hct, hthc], rfl, rfl⟩
  · by_cases hxt : x = t
    · subst hxt
      rw [hfixed, Function.update_self] at hx
      obtain rfl := Option.some.inj hx
      cases hrun
    · exact ⟨thx, by rwa [hfixed, Function.update_of_ne hxt] at hx, hrun⟩

end Inv

end Kernel

end Leenix
