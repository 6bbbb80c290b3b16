import Leenix.Proc.Invariant
import Leenix.Proc.Table

/-!
# Runs of the kernel

`process_spawn` and `process_fork` as compositions of the operations of
`Proc.Invariant`, and the induction over a run.

- `Inv.spawn`, `Inv.fork`: the lists after the two functions, on every path
  through them, failed allocations included.
- `Inv.step`: every allowed step that meets `Safe` preserves the invariant, and
  loses no waiting thread.
- `Inv.run`: so does every run from `scheduler_init`.

`Safe` excludes the steps after which a list of the kernel would hold a freed
thread: destroying the last thread of a queue that goes on, destroying a current
thread that is not marked running, and walking the thread list of the kernel
process to the link that `scheduler_init` never wrote.
-/

namespace Leenix

namespace Kernel

variable {tl : Ptr → Option Ptr} {s s' : Kernel} {a a' : Sched} {t p : Ptr}

/-- Storing a value over itself changes no heap. -/
theorem updateProcess_self {f : Process → Process} {pr : Process}
    (hp : s.procs.lookup p = some pr) (hf : f pr = pr) : s.updateProcess p f = some s := by
  have hins : s.procs.insert p pr = s.procs := by
    refine Finmap.ext_lookup fun q => ?_
    by_cases hq : q = p
    · rw [hq, Finmap.lookup_insert, hp]
    · rw [Finmap.lookup_insert_of_ne _ hq]
  simp [updateProcess, hp, hf, hins]

theorem lookup_eq_none_of_fixed (h : s.fixed t = none) : s.threads.lookup t = none := by
  simpa [fixed, proj] using h

namespace Inv

/-- `process_create` on a fresh object. -/
theorem processCreate (h : Inv tl s a) {P : Platform} {name : List Byte} {priority : Nat}
    (hfresh : s.procs.lookup p = none) (hc : s.processCreate P p name priority = some s') :
    Inv tl s' a ∧ s'.threads = s.threads ∧ s'.currentThread = s.currentThread ∧
      s'.currentProc = s.currentProc ∧ s'.halted = s.halted ∧ (s.TableOk → s'.TableOk) ∧
      ∃ pr, s'.procs.lookup p = some pr ∧ pr.threads = none ∧ pr.state = .ready ∧
        pr.dir ≠ none := by
  obtain ⟨hmem, htl⟩ := h.members_of_fresh hfresh
  obtain ⟨d, vm, vm', -, -, rfl⟩ := processCreate_eq_some hc
  refine ⟨h.insertProcess _ hmem htl rfl (by simp) rfl, rfl, rfl, rfl, rfl,
    fun htable => htable.insert hfresh rfl rfl, _, Finmap.lookup_insert _, rfl, rfl, by simp⟩

/-- A new process gets its first thread, which is posted, or gets none. -/
theorem firstThread (h : Inv tl s a) (P : Platform) {entry arg stack : Nat} (pr : Process)
    {thread r : Option Ptr} {s₁ : Kernel} (hfresh : s.ThreadFresh thread stack)
    (hp : s.procs.lookup p = some pr) (hnone : pr.threads = none)
    (hc : s.threadCreate P p entry arg thread stack = some (r, s₁)) :
    s₁.updateProcess p (fun pr => { pr with threads := r }) = some s₁ ∧
      (r = none ∧ stack = 0 ∧ s₁ = { s with currentTid := s.currentTid + 1 } ∨
        ∃ t pr, r = some t ∧ s.threads.lookup t = none ∧ Inv tl s₁ (a.adopt p t) ∧
          ListFrame s s₁ ∧
          s₁.fixed = Function.update s.fixed t (some (s.newThread p pr entry stack).fixed)) := by
  rcases h.threadCreate P hfresh hc with ⟨rfl, rfl, rfl⟩ |
    ⟨t, pr', rfl, ht, hp', hp₁, hinv, hframe, hfixed⟩
  · refine ⟨updateProcess_self hp ?_, .inl ⟨rfl, rfl, rfl⟩⟩
    rw [← hnone]
  · exact ⟨updateProcess_self hp₁ rfl, .inr ⟨t, pr', rfl, ht, hinv, hframe, hfixed⟩⟩

/-- Posting the thread that was just created. -/
theorem postNew (h : Inv tl s (a.adopt p t)) {s₀ : Kernel} {th : Thread}
    (hinv₀ : Inv tl s₀ a) (ht : s₀.threads.lookup t = none) (hframe : ListFrame s₀ s)
    (hfixed : s.fixed = Function.update s₀.fixed t (some th)) (hstate : th.state = .ready) :
    ∃ s', s.schedulerPost (some t) = some s' ∧
      Inv tl s' ((a.adopt p t).enqueue processPriDefault t) ∧ QueueFrame s s' ∧
      ∀ x, x ≠ t → s'.fixed x = s₀.fixed x := by
  obtain ⟨th', hth', rfl⟩ := lookup_of_fixed (by rw [hfixed, Function.update_self])
  have hlive : th'.state ≠ .terminated := fun hterm => by
    rw [show th'.fixed.state = th'.state from rfl, hterm] at hstate
    cases hstate
  have hcur : s.currentThread ≠ some t := by
    rw [hframe.currentThread]
    intro hcur
    obtain ⟨c, thc, hc, hthc, -⟩ := hinv₀.current
    obtain rfl := Option.some.inj (hc.symm.trans hcur)
    obtain ⟨th, hth, -⟩ := lookup_of_fixed hthc
    cases hth.symm.trans ht
  obtain ⟨s', hs', hinv, hqframe, hfixed'⟩ :=
    h.post hth' hlive (hinv₀.not_waiting_of_fresh ht) hcur
  refine ⟨s', hs', hinv, hqframe, fun x hx => ?_⟩
  rw [hfixed', Function.update_of_ne hx, hfixed, Function.update_of_ne hx]

end Inv

/-- The queues grew by the threads that the heap grew by. -/
structure Grows (s : Kernel) (a : Sched) (s' : Kernel) (a' : Sched) : Prop where
  keeps : ∀ x, a.Waiting x → a'.Waiting x
  queues : ∀ x, s.threads.lookup x = none → s'.threads.lookup x ≠ none → a'.Waiting x

theorem Grows.of_fixed (a : Sched) (h : s'.fixed = s.fixed) : Grows s a s' a :=
  ⟨fun _ hx => hx, fun x hx hx' =>
    absurd (lookup_eq_none_of_fixed (h ▸ by simp [fixed, proj, hx])) hx'⟩

theorem Grows.enqueue_new (a : Sched) (h : ∀ x, x ≠ t → s'.fixed x = s.fixed x) :
    Grows s a s' ((a.adopt p t).enqueue processPriDefault t) where
  keeps _ hx := Sched.waiting_enqueue.mpr (.inl hx)
  queues x hx hx' := by
    by_cases hxt : x = t
    · exact Sched.waiting_enqueue.mpr (.inr hxt)
    · exact absurd (lookup_eq_none_of_fixed ((h x hxt).trans (by simp [fixed, proj, hx]))) hx'

/-- The default queue keeps what is live of the old one and of a posted thread. -/
def Appends (thread : Option Ptr) (a : Sched) (s' : Kernel) (a' : Sched) : Prop :=
  a'.ready processPriDefault = (a.ready processPriDefault ++ thread.toList).filter
    fun t => s'.threads.lookup t ≠ none

namespace Inv

/-- What waits is live. -/
theorem filter_live (h : Inv tl s a) (i : Nat) :
    (a.ready i).filter (fun t => s.threads.lookup t ≠ none) = a.ready i := by
  refine List.filter_eq_self.mpr fun t ht => ?_
  obtain ⟨th, hth⟩ := h.ready.live ht
  simp [hth]

/-- Nothing was posted. -/
theorem appends_none (h : Inv tl s' a) {thread : Option Ptr} (hfixed : s'.fixed = s.fixed)
    (hfresh : ∀ t ∈ thread, s.threads.lookup t = none) : Appends thread a s' a := by
  have hdead : thread.toList.filter (fun t => s'.threads.lookup t ≠ none) = [] := by
    refine List.filter_eq_nil_iff.mpr fun t ht => ?_
    have hnone := hfresh t (Option.mem_toList.mp ht)
    have : s'.threads.lookup t = none :=
      lookup_eq_none_of_fixed (by rw [hfixed]; simp [fixed, proj, hnone])
    simp [this]
  unfold Appends
  rw [List.filter_append, h.filter_live, hdead, List.append_nil]

/-- A thread was posted. -/
theorem appends_enqueue (h : Inv tl s' (a.enqueue processPriDefault t)) :
    Appends (some t) a s' (a.enqueue processPriDefault t) := by
  have hready : (a.enqueue processPriDefault t).ready processPriDefault =
      a.ready processPriDefault ++ [t] := by simp [Sched.enqueue]
  have hlive := h.filter_live processPriDefault
  unfold Appends
  rw [hready] at hlive ⊢
  exact hlive.symm

/-- `process_spawn`, on every path. -/
theorem spawn (h : Inv tl s a) {P : Platform} {openFile : List Byte → Option File}
    {filename : List Byte} {alloc : Alloc} {junk : StackJunk} {r : Int}
    (hfresh : s.AllocFresh alloc)
    (hs : s.processSpawn P openFile filename alloc junk = some (r, s')) :
    ∃ a', Inv tl s' a' ∧ Grows s a s' a' ∧ Appends alloc.thread a s' a' ∧
      (s.TableOk → s'.TableOk) := by
  obtain ⟨p, s₁, pr, result, entry, vm, hp, hs₁, hpr, -, hcases⟩ := processSpawn_cases hs
  have hpfresh : s.procs.lookup p = none := hfresh.1 p hp
  obtain ⟨hmem, htl⟩ := h.members_of_fresh hpfresh
  obtain ⟨hinv₁, hthreads₁, hct₁, hcp₁, -, htable₁, pr', hpr', hnone, -⟩ :=
    h.processCreate hpfresh hs₁
  obtain rfl := Option.some.inj (hpr.symm.trans hpr')
  have hfixed₁ : s₁.fixed = s.fixed := by simp only [fixed, hthreads₁]
  have hinv₂ : Inv tl { s₁ with vm := vm } a := hinv₁.congr rfl
  have htable₂ : s.TableOk → TableOk { s₁ with vm := vm } := fun htable =>
    (htable₁ htable).congr rfl fun _ pr hpr => ⟨pr, hpr⟩
  rcases hcases with ⟨-, -, hdestroy⟩ | ⟨-, e, t, s₂, s₃, pr₃, -, hcreate, hupdate, hpost, -, -⟩
  · -- the loader failed: the new process goes again, and it has no thread
    have hcur : s₁.currentProc ≠ some p := by
      rw [hcp₁]
      obtain ⟨c, th, -, hth, hproc, -⟩ := h.current
      obtain ⟨q, qr, hq, hqr⟩ := h.members.parent_live c th hth
      rw [hproc, hq]
      intro hqp
      cases (Option.some.inj hqp ▸ hqr).symm.trans hpfresh
    have hsafe : TailSafe { s₁ with vm := vm } (OwnedBy { s₁ with vm := vm } p) := by
      rintro i - l - - ⟨th, hth, hpar⟩
      exact absurd (hinv₂.members.mem_of_lookup hth hpar) (by simp [hmem])
    obtain ⟨s₂, hs₂, hinv₃, hd⟩ := hinv₂.destroyProcess P hpr htl hcur hsafe
    obtain rfl := Option.some.inj (hdestroy.symm.trans hs₂)
    rw [hmem, Sched.forget_nil] at hinv₃
    have hfixed₃ : s'.fixed = s.fixed := by
      funext x
      rw [hd.fixed, hmem]
      exact congrFun hfixed₁ x
    exact ⟨a, hinv₃, Grows.of_fixed a hfixed₃, hinv₃.appends_none hfixed₃ hfresh.2.1,
      fun htable => (htable₂ htable).destroyed hd⟩
  · have hfresh₂ : ThreadFresh { s₁ with vm := vm } alloc.thread alloc.stack := by
      simpa only [ThreadFresh, StackFree, hthreads₁] using hfresh.2
    obtain ⟨hself, hcases⟩ := hinv₂.firstThread P pr hfresh₂ hpr hnone hcreate
    obtain rfl := Option.some.inj (hself.symm.trans hupdate)
    rcases hcases with ⟨rfl, -, rfl⟩ | ⟨t', pr₂, rfl, ht, hinv₃, hframe, hfixed⟩
    -- no stack: a null thread is posted, which does nothing
    · obtain rfl := Option.some.inj hpost
      have hinv₃ : Inv tl (Kernel.sti (Kernel.cli
          { s₁ with vm := vm, currentTid := s₁.currentTid + 1 })) a :=
        hinv₂.congr rfl
      exact ⟨a, hinv₃, Grows.of_fixed a hfixed₁, hinv₃.appends_none hfixed₁ hfresh.2.1,
        fun htable => (htable₂ htable).congr rfl fun _ pr hpr => ⟨pr, hpr⟩⟩
    · obtain ⟨s₄, hs₄, hinv₄, hqframe, hrest⟩ := hinv₃.postNew hinv₂ ht hframe hfixed rfl
      obtain rfl := Option.some.inj (hpost.symm.trans hs₄)
      refine ⟨_, hinv₄, Grows.enqueue_new a fun x hx => (hrest x hx).trans (congrFun hfixed₁ x),
        ?_, fun htable => ((htable₂ htable).of_listFrame hframe).of_listFrame hqframe.listFrame⟩
      rw [threadCreate_thread hcreate]
      exact hinv₄.appends_enqueue

/-- `process_fork`, on every path. -/
theorem fork (h : Inv tl s a) {P : Platform} {alloc : Alloc} {r : Int}
    (hfresh : s.AllocFresh alloc) (hs : s.processFork P alloc = some (r, s')) :
    ∃ a', Inv tl s' a' ∧ Grows s a s' a' ∧ Appends alloc.thread a s' a' ∧
      (s.TableOk → s.ForkCompletes P alloc → s'.TableOk) := by
  rcases processFork_cases hs with ⟨-, rfl⟩ | ⟨pp, c, par, ppr, p, s₁, pr, -, -, -, -, hp, hs₁, hpr,
    hcases⟩
  -- nothing was created
  · have hinv : Inv tl s.sti a := h.congr rfl
    exact ⟨a, hinv, Grows.of_fixed a rfl, hinv.appends_none rfl hfresh.2.1,
      fun htable _ => htable.congr rfl fun _ pr hpr => ⟨pr, hpr⟩⟩
  have hpfresh : s.procs.lookup p = none := hfresh.1 p hp
  obtain ⟨hmem, htl⟩ := h.members_of_fresh hpfresh
  have hinv₀ : Inv tl s.cli a := h.congr rfl
  obtain ⟨hinv₁, hthreads₁, -, -, -, htable₁, pr', hpr', hnone, hstate, hdir⟩ :=
    hinv₀.processCreate hpfresh hs₁
  obtain rfl := Option.some.inj (hpr.symm.trans hpr')
  have hfixed₁ : s₁.fixed = s.fixed := by simp only [fixed, hthreads₁, cli]
  rcases hcases with ⟨-, hfails, vm, rfl⟩ | ⟨dir, vm, s₂, t, s₃, -, rfl, hs₃, hcases⟩
  -- the child is freed before it has a thread
  · have hinv : Inv tl { s₁ with vm := vm, procs := s₁.procs.erase p, ints := true } a :=
      hinv₁.eraseProcess hmem htl rfl
    exact ⟨a, hinv, Grows.of_fixed a hfixed₁, hinv.appends_none hfixed₁ hfresh.2.1,
      fun _ hfork => absurd hfails (not_or.mpr ⟨hdir, hfork.2 p _ _ s₁ hs₁⟩)⟩
  -- the child's process is complete: its main thread is a new one
  have hinv₂ : Inv tl { s₁ with
      vm := vm, procs := s₁.procs.insert p { pr with dir := some dir } } a :=
    hinv₁.insertProcess { pr with dir := some dir } hmem htl hnone (by simp [hstate])
      rfl
  have hpr₂ : (s₁.procs.insert p { pr with dir := some dir }).lookup p =
      some { pr with dir := some dir } := Finmap.lookup_insert _
  obtain ⟨s₂, hcreate, hupdate⟩ :=
    getMainThread_cases { pr with dir := some dir } hpr₂ hnone hs₃
  have hfresh₂ : ThreadFresh { s₁ with
      vm := vm, procs := s₁.procs.insert p { pr with dir := some dir } } alloc.thread
      alloc.stack := by
    simpa only [ThreadFresh, StackFree, hthreads₁, cli] using hfresh.2
  obtain ⟨hself, hthread⟩ := hinv₂.firstThread P { pr with dir := some dir } hfresh₂ hpr₂ hnone hcreate
  obtain rfl := Option.some.inj (hself.symm.trans hupdate)
  rcases hthread with ⟨rfl, hstack, rfl⟩ | ⟨t', pr₂, rfl, ht, hinv₃, hframe, hfixed⟩
  · rcases hcases with ⟨-, -, vm', rfl⟩ | ⟨t', -, -, -, ht', -⟩
    -- no stack for the thread: the child is freed again
    · have hinv : Inv tl { s₁ with
          vm := vm'
          procs := (s₁.procs.insert p { pr with dir := some dir }).erase p
          currentTid := s₁.currentTid + 1
          ints := true } a := hinv₂.eraseProcess hmem htl rfl
      exact ⟨a, hinv, Grows.of_fixed a hfixed₁, hinv.appends_none hfixed₁ hfresh.2.1,
        fun _ hfork => absurd hstack hfork.1⟩
    · cases ht'
  · rcases hcases with ⟨-, ht', -⟩ | ⟨t₀, ch, s₄, pr₄, ht₀, -, hpost, -, -, rfl⟩
    · cases ht'
    · obtain rfl := Option.some.inj ht₀
      -- the copied trap frame is memory, which the invariant does not read
      have hinv₃' : Inv tl { s₂ with
          mem := copyTrapFrame s₂.mem ch.trapFrame par.trapFrame } (a.adopt p t') :=
        hinv₃.congr rfl
      have hframe' : ListFrame { s₁ with
          vm := vm, procs := s₁.procs.insert p { pr with dir := some dir } }
          { s₂ with mem := copyTrapFrame s₂.mem ch.trapFrame par.trapFrame } :=
        hframe.trans ⟨rfl, rfl, rfl, rfl, rfl, rfl, rfl⟩
      obtain ⟨s₅, hs₅, hinv₅, hqframe, hrest⟩ := hinv₃'.postNew hinv₂ ht hframe' hfixed rfl
      obtain rfl := Option.some.inj (hpost.symm.trans hs₅)
      have hinv₆ : Inv tl s₄.sti _ := hinv₅.congr rfl
      refine ⟨_, hinv₆, Grows.enqueue_new a fun x hx => (hrest x hx).trans (congrFun hfixed₁ x),
        threadCreate_thread hcreate ▸ hinv₆.appends_enqueue, fun htable _ => ?_⟩
      have htable₂ : TableOk { s₁ with
          vm := vm, procs := s₁.procs.insert p { pr with dir := some dir } } := by
        refine (htable₁ htable).congr rfl fun q qr hq => ?_
        by_cases hqp : q = p
        · exact ⟨_, by rw [hqp]; exact hpr₂⟩
        · exact ⟨qr, by rw [Finmap.lookup_insert_of_ne _ hqp, hq]⟩
      exact ((htable₂.of_listFrame hframe').of_listFrame hqframe.listFrame).congr rfl
        fun _ pr hpr => ⟨pr, hpr⟩

end Inv

/-! ## Steps and runs -/

/-- What the last thread of each process holds in `next`: `scheduler_init` does
not write that link of the kernel thread. -/
def tailOf (kp : Ptr) (junk : Junk) (p : Ptr) : Option Ptr :=
  if p = kp then junk.next else none

/-- The steps after which no list holds a freed thread. -/
def Safe (kp : Ptr) (junk : Junk) (s : Kernel) : Op → Prop
  | .threadDestroy thread => ∀ t, thread = some t → s.TailSafe (· = t) ∧
      (s.currentThread = some t → ∃ th, s.threads.lookup t = some th ∧ th.state = .running)
  | .processDestroy p => s.TailSafe (s.OwnedBy p) ∧ (p = kp → junk.next = none)
  | _ => True

/-- The step from `s` to `s'` loses no waiting thread. -/
def NoneLost (a : Sched) (e : Edge Kernel Op) (a' : Sched) : Prop :=
  ∀ t, a.Waiting t ∨ Posted e t → ¬Dispatched e t → e.post.threads.lookup t ≠ none → a'.Waiting t

theorem NoneLost.of_subset {e : Edge Kernel Op} (hposted : ∀ t, ¬Posted e t)
    (h : ∀ t, a.Waiting t → e.post.threads.lookup t ≠ none → a'.Waiting t) : NoneLost a e a' :=
  fun t ht _ hlive => h t (ht.resolve_right (hposted t)) hlive

theorem NoneLost.of_grows {e : Edge Kernel Op}
    (hposted : ∀ t, Posted e t → e.pre.threads.lookup t = none)
    (h : Grows e.pre a e.post a') : NoneLost a e a' := by
  rintro t (ht | ht) - hlive
  · exact h.keeps t ht
  · exact h.queues t (hposted t ht) hlive

/-- The default queue holds the threads in the order of their posts. -/
def Ordered (a : Sched) (e : Edge Kernel Op) (a' : Sched) : Prop :=
  a'.ready processPriDefault = orderStep (a.ready processPriDefault) e

/-- A step that dispatches nothing. -/
theorem Ordered.of_appends {e : Edge Kernel Op} (hnone : ∀ t, ¬Dispatched e t)
    (h : Appends (postedBy e) a e.post a') : Ordered a e a' := by
  unfold Ordered orderStep
  rw [h]
  exact List.filter_congr fun t _ => by simp [hnone t]

/-- A step that posts and dispatches nothing, and destroys the threads `ks`. -/
theorem Ordered.of_forget {e : Edge Kernel Op} {ks : List Ptr} (h : Inv tl e.post (a.forget ks))
    (hposted : postedBy e = none) (hnone : ∀ t, ¬Dispatched e t)
    (hgone : ∀ t ∈ ks, e.post.threads.lookup t = none) : Ordered a e (a.forget ks) := by
  unfold Ordered orderStep
  rw [hposted, Option.toList_none, List.append_nil]
  refine List.filter_congr fun t ht => ?_
  by_cases hk : t ∈ ks
  · simp [hk, hgone t hk]
  · obtain ⟨th, hth⟩ := h.ready.live (i := processPriDefault) (t := t)
      (by simpa [Sched.forget, hk] using ht)
    simp [hk, hnone t, hth]

/-- A dispatch takes the head of the queue. -/
theorem Ordered.of_dispatch {e : Edge Kernel Op} (n : Ptr) (rest : List Ptr)
    (h : Inv tl e.post a')
    (hqueue : a.ready processPriDefault ++ (postedBy e).toList = n :: rest)
    (hrest : a'.ready processPriDefault = rest) (hcur : e.post.currentThread = some n)
    (hdispatched : ∀ t, Dispatched e t ↔ e.post.currentThread = some t) : Ordered a e a' := by
  have hn : n ∉ rest := fun hn => h.idle n hcur ⟨processPriDefault, hrest ▸ hn⟩
  have hlive := h.filter_live processPriDefault
  rw [hrest] at hlive
  unfold Ordered orderStep
  rw [hqueue, hrest, List.filter_cons_of_neg (by simp [hdispatched, hcur])]
  refine (hlive.symm.trans (List.filter_congr fun t ht => ?_))
  have htn : n ≠ t := fun htn => hn (htn ▸ ht)
  simp [hdispatched, hcur, htn]

namespace Inv

variable {kp : Ptr} {junk : Junk} {P : Platform} {op : Op}

/-- A safe `process_destroy`. -/
theorem processDestroy (h : Inv (tailOf kp junk) s a) (hallowed : s.Allowed (.processDestroy p))
    (hsafe : s.Safe kp junk (.processDestroy p)) (hcall : s.processDestroy P p = some s') :
    ∃ pr, s.procs.lookup p = some pr ∧ Inv (tailOf kp junk) s' (a.forget (a.members p)) ∧
      Destroyed P p pr (a.members p) s s' := by
  cases hp : s.procs.lookup p with
  | none => simp [Kernel.processDestroy, hp] at hcall
  | some pr =>
    have htl : tailOf kp junk p = none := by
      unfold tailOf
      split
      · exact hsafe.2 ‹_›
      · rfl
    obtain ⟨s₁, hs₁, hinv, hd⟩ := h.destroyProcess P hp htl hallowed hsafe.1
    obtain rfl := Option.some.inj (hcall.symm.trans hs₁)
    exact ⟨pr, rfl, hinv, hd⟩

/-- A safe `thread_destroy` refuses, or takes the thread out of every list. -/
theorem threadDestroy (h : Inv (tailOf kp junk) s a) {thread : Option Ptr} {r : Int}
    (hsafe : s.Safe kp junk (.threadDestroy thread))
    (hcall : s.threadDestroy thread = some (r, s')) :
    s' = { s with ints := true } ∨
    ∃ t, Inv (tailOf kp junk) s' (a.forget [t]) ∧ ListFrame s s' ∧
      s'.fixed = Function.update s.fixed t none := by
  cases thread with
  | none =>
    obtain ⟨-, rfl⟩ := Prod.mk.injEq .. ▸ Option.some.inj hcall
    exact .inl rfl
  | some t =>
    obtain ⟨htail, hcur⟩ := hsafe t rfl
    by_cases hc : s.currentThread = some t
    · -- refused: the current thread is marked running
      obtain ⟨th, hth, hrun⟩ := hcur hc
      rw [threadDestroy_running hth hrun] at hcall
      obtain ⟨-, rfl⟩ := Prod.mk.injEq .. ▸ Option.some.inj hcall
      exact .inl rfl
    · cases hth : s.threads.lookup t with
      | none => simp [Kernel.threadDestroy, cli, hth] at hcall
      | some th =>
        obtain ⟨s₁, hs₁, hinv, hframe, hfixed⟩ := h.destroy hth hc htail
        obtain ⟨-, rfl⟩ := Prod.mk.injEq .. ▸ Option.some.inj (hcall.symm.trans hs₁)
        exact .inr ⟨t, hinv, hframe, hfixed⟩

/-- A step that posts nothing and dispatches no waiting thread keeps the queue. -/
theorem ordered_quiet {e : Edge Kernel Op} (h : Inv tl e.post a) (hposted : postedBy e = none)
    (hnone : ∀ t, a.Waiting t → ¬Dispatched e t) : Ordered a e a := by
  unfold Ordered orderStep
  rw [hposted, Option.toList_none, List.append_nil]
  refine ((h.filter_live processPriDefault).symm.trans (List.filter_congr fun t ht => ?_))
  simp [hnone t ⟨_, ht⟩]

/-- A step that posts nothing, dispatches no waiting thread and keeps the lists. -/
theorem quiet (h : Inv tl s' a) (hposted : ∀ t, ¬Posted ⟨s, op, s'⟩ t)
    (hnone : postedBy ⟨s, op, s'⟩ = none) (hd : ∀ t, a.Waiting t → ¬Dispatched ⟨s, op, s'⟩ t) :
    ∃ a', Inv tl s' a' ∧ NoneLost a ⟨s, op, s'⟩ a' ∧ Ordered a ⟨s, op, s'⟩ a' :=
  ⟨a, h, .of_subset hposted fun _ ht _ => ht, h.ordered_quiet hnone hd⟩

/-- A step that dispatches the head of `b`, the lists with the posted thread. -/
theorem dispatched {b : Sched} {n : Ptr} {rest : List Ptr}
    (h : Inv tl s' (b.dequeue processPriDefault))
    (hready : b.ready processPriDefault = n :: rest)
    (hqueue : b.ready processPriDefault =
      a.ready processPriDefault ++ (postedBy ⟨s, op, s'⟩).toList)
    (hwaits : ∀ t, a.Waiting t ∨ Posted ⟨s, op, s'⟩ t → b.Waiting t)
    (hcur : s'.currentThread = some n)
    (hd : ∀ t, Dispatched ⟨s, op, s'⟩ t ↔ s'.currentThread = some t) :
    ∃ a', Inv tl s' a' ∧ NoneLost a ⟨s, op, s'⟩ a' ∧ Ordered a ⟨s, op, s'⟩ a' := by
  refine ⟨_, h, fun t ht hnot _ => ?_, .of_dispatch n rest h (hqueue.symm.trans hready)
    (by simp [Sched.dequeue, hready]) hcur hd⟩
  have htn : t ≠ n := fun htn => hnot ((hd t).mpr (htn ▸ hcur))
  exact Sched.waiting_dequeue hready (hwaits t ht) htn

/-- An allowed `scheduler_post` puts the thread behind the default queue. -/
theorem schedulerPost (h : Inv tl s a) (hallowed : s.Allowed (.schedulerPost (some t)))
    (hcall : s.schedulerPost (some t) = some s') :
    Inv tl s' (a.enqueue processPriDefault t) ∧ QueueFrame s s' ∧
      ∀ c, s.currentThread = some c → s'.fixed c = s.fixed c := by
  obtain ⟨⟨th, hth, hlive⟩, hcur, hqueued⟩ := hallowed t rfl
  obtain ⟨s₁, hs₁, hinv, hframe, hfixed⟩ :=
    h.post hth hlive (fun hw => hqueued (h.waiting_iff.mp hw)) hcur
  obtain rfl := Option.some.inj (hcall.symm.trans hs₁)
  refine ⟨hinv, hframe, fun c hc => ?_⟩
  have hct : c ≠ t := fun hct => hcur (hct ▸ hc)
  rw [hfixed, Function.update_of_ne hct]

/-- A timer interrupt counts the time slice down, or posts the current thread and
dispatches the head of the queue. -/
theorem schedulerTick (h : Inv tl s a) {context : Nat} (hhalted : s.halted = false)
    (hcall : { s with ints := false }.schedulerTick P context = some s') :
    s'.procs = s.procs ∧ s'.processTable = s.processTable ∧
    (¬s.SliceOver ∧ Inv tl s' a ∧ s'.currentThread = s.currentThread ∧
        (∀ t, (s'.fixed t).map Thread.state = (s.fixed t).map Thread.state) ∨
      s.SliceOver ∧ ∃ c n rest, s.currentThread = some c ∧
        (a.enqueue processPriDefault c).ready processPriDefault = n :: rest ∧
        Inv tl s' ((a.enqueue processPriDefault c).dequeue processPriDefault) ∧
        s'.currentThread = some n ∧
        (n ≠ c → ∃ th, s'.fixed n = some th ∧ th.state = .running)) := by
  have h₀ : Inv tl { s with ints := false } a := h.congr rfl
  by_cases hslice : s.SliceOver
  · obtain ⟨c, th, hc, -⟩ := h.current
    obtain ⟨s₁, n, rest, hs₁, hsplit, hinv, hcur, hprocs, htable, hrun⟩ :=
      h₀.tick_switches P context hhalted hc hslice
    obtain rfl := Option.some.inj (hcall.symm.trans hs₁)
    have hready : (a.enqueue processPriDefault c).ready processPriDefault = n :: rest := by
      simpa [Sched.enqueue] using hsplit
    exact ⟨hprocs, htable, .inr ⟨hslice, c, n, rest, hc, hready, hinv, hcur, hrun⟩⟩
  · obtain ⟨s₁, hs₁, hinv, hcur, hprocs, htable, hstate⟩ := h₀.tick_counts P context hslice
    obtain rfl := Option.some.inj (hcall.symm.trans hs₁)
    exact ⟨hprocs, htable, .inl ⟨hslice, hinv, hcur, hstate⟩⟩

/-- `thread_exit` halts the kernel, or dispatches the head of the queue. -/
theorem threadExit (h : Inv tl s a) (hcall : s.threadExit P = some s') :
    s'.procs = s.procs ∧ s'.processTable = s.processTable ∧
    (s'.halted = true ∧ Inv tl s' a ∧ a.ready processPriDefault = [] ∨
      ∃ n rest, a.ready processPriDefault = n :: rest ∧
        Inv tl s' (a.dequeue processPriDefault) ∧ s'.currentThread = some n ∧
        ∃ th, s'.fixed n = some th ∧ th.state = .running) := by
  obtain ⟨s₁, hs₁, hprocs, htable, hcases⟩ := h.exit P
  obtain rfl := Option.some.inj (hcall.symm.trans hs₁)
  refine ⟨hprocs, htable, ?_⟩
  rcases hcases with hhalt | ⟨i, n, rest, hi, hswitch⟩
  · exact .inl hhalt
  · -- every thread waits at the default priority
    obtain rfl : i = processPriDefault := by
      refine h.ready.index_unique (t := n) (by simp [hi]) ?_
      exact h.waiting_iff_default.mp ⟨i, by simp [hi]⟩
    exact .inr ⟨n, rest, hi, hswitch⟩

/-- **Step lemma**: an allowed and safe step preserves the invariant, loses no
waiting thread and keeps the queue in the order of the posts. -/
theorem step (h : Inv (tailOf kp junk) s a) (hexec : s.exec P op = some s') (hallowed : s.Allowed op)
    (hsafe : s.Safe kp junk op) :
    ∃ a', Inv (tailOf kp junk) s' a' ∧ NoneLost a ⟨s, op, s'⟩ a' ∧ Ordered a ⟨s, op, s'⟩ a' := by
  obtain ⟨hhalted, hcall⟩ := exec_eq_some.mp hexec
  cases op with
  | processCreate p name priority =>
    obtain ⟨hinv, -⟩ := h.processCreate hallowed hcall
    exact hinv.quiet (fun _ => id) rfl fun _ _ => id
  | processDestroy p =>
    obtain ⟨pr, -, hinv, hd⟩ := h.processDestroy hallowed hsafe hcall
    -- of the waiting threads only those of the process leave
    have hgone : ∀ t ∈ a.members p, s'.threads.lookup t = none := fun t ht =>
      lookup_eq_none_of_fixed (by rw [hd.fixed, if_pos ht])
    refine ⟨_, hinv, .of_subset (fun _ => id) fun t ⟨i, hi⟩ hlive => ⟨i, ?_⟩,
      .of_forget hinv rfl (fun _ => id) hgone⟩
    have hmem : t ∉ a.members p := fun hm =>
      hlive (hgone t hm)
    simpa [Sched.forget, hmem] using hi
  | processSpawn openFile filename alloc stackJunk =>
    obtain ⟨⟨r, s₁⟩, hs₁, rfl⟩ := Option.map_eq_some_iff.mp hcall
    obtain ⟨a', hinv, hgrows, happ, -⟩ := h.spawn hallowed hs₁
    exact ⟨a', hinv, .of_grows (fun _ => id) hgrows, .of_appends (fun _ => id) happ⟩
  | processFork alloc =>
    obtain ⟨⟨r, s₁⟩, hs₁, rfl⟩ := Option.map_eq_some_iff.mp hcall
    obtain ⟨a', hinv, hgrows, happ, -⟩ := h.fork hallowed hs₁
    exact ⟨a', hinv, .of_grows (fun _ => id) hgrows, .of_appends (fun _ => id) happ⟩
  | threadCreate p entry arg thread stack =>
    obtain ⟨⟨r, s₁⟩, hs₁, rfl⟩ := Option.map_eq_some_iff.mp hcall
    rcases h.threadCreate P hallowed hs₁ with ⟨-, -, rfl⟩ | ⟨t, pr, -, -, -, -, hinv, -, -⟩
    · have hinv : Inv (tailOf kp junk) { s with currentTid := s.currentTid + 1 } a :=
        h.congr rfl
      exact hinv.quiet (fun _ => id) rfl fun _ _ => id
    · have hordered : Ordered (a.adopt p t) ⟨s, .threadCreate p entry arg thread stack, s₁⟩
          (a.adopt p t) := hinv.ordered_quiet rfl fun _ _ => id
      exact ⟨_, hinv, .of_subset (fun _ => id) fun _ ht _ => ht, hordered⟩
  | threadDestroy thread =>
    obtain ⟨⟨r, s₁⟩, hs₁, rfl⟩ := Option.map_eq_some_iff.mp hcall
    rcases h.threadDestroy hsafe hs₁ with rfl | ⟨t, hinv, -, hfixed⟩
    · have hinv : Inv (tailOf kp junk) s.sti a := h.congr rfl
      exact hinv.quiet (fun _ => id) rfl fun _ _ => id
    · have hgone : s₁.threads.lookup t = none :=
        lookup_eq_none_of_fixed (by rw [hfixed, Function.update_self])
      refine ⟨_, hinv, .of_subset (fun _ => id) fun x ⟨i, hi⟩ hlive => ⟨i, ?_⟩,
        .of_forget hinv rfl (fun _ => id) (by simpa using hgone)⟩
      have hxt : x ≠ t := by
        rintro rfl
        exact hlive hgone
      simpa [Sched.forget, hxt] using hi
  | schedulerPost thread =>
    cases thread with
    | none =>
      obtain rfl := Option.some.inj hcall
      have hinv : Inv (tailOf kp junk) s.cli.sti a := h.congr rfl
      exact hinv.quiet (fun t ht => by cases ht.1) rfl fun _ _ => id
    | some t =>
      obtain ⟨hinv, -, -⟩ := h.schedulerPost hallowed hcall
      refine ⟨_, hinv, ?_, .of_appends (fun _ => id) hinv.appends_enqueue⟩
      rintro x (hx | ⟨hx, -⟩) - -
      · exact Sched.waiting_enqueue.mpr (.inl hx)
      · exact Sched.waiting_enqueue.mpr (.inr (Option.some.inj hx).symm)
  | schedulerTick context =>
    obtain ⟨-, -, ⟨hslice, hinv, -⟩ | ⟨hslice, c, n, rest, hc, hready, hinv, hcur, -⟩⟩ :=
      h.schedulerTick hhalted hcall
    · exact hinv.quiet (fun _ ht => hslice ht.1) (if_neg hslice) fun _ _ ht => hslice ht.1
    · refine hinv.dispatched hready ?_ (fun x hx => Sched.waiting_enqueue.mpr ?_) hcur
        fun t => and_iff_right hslice
      · simp [postedBy, hslice, hc, Sched.enqueue]
      · rcases hx with hx | ⟨-, hx⟩
        · exact .inl hx
        · exact .inr (Option.some.inj (hx.symm.trans hc))
  | threadExit =>
    obtain ⟨-, -, ⟨-, hinv, -⟩ | ⟨n, rest, hready, hinv, hcur, -⟩⟩ := h.threadExit hcall
    · exact hinv.quiet (fun _ => id) rfl fun t ht hcur => hinv.idle t hcur ht
    · exact hinv.dispatched hready (by simp [postedBy]) (fun x hx => hx.resolve_right id) hcur
        fun t => Iff.rfl
  | work mem ints vm =>
    obtain rfl := Option.some.inj hcall
    have hinv : Inv (tailOf kp junk) { s with mem := mem, ints := ints, vm := vm } a :=
      h.congr rfl
    exact hinv.quiet (fun _ => id) rfl fun _ _ => id

/-- `scheduler_init` establishes the invariant, with every queue empty. -/
theorem started (P : Platform) (mem : Mem) (cpu : Cpu) (vm : Vm) (kp kt : Ptr) (junk : Junk) :
    Inv (tailOf kp junk) (started P mem cpu vm kp kt junk)
      ⟨fun _ => [], fun p => if p = kp then [kt] else []⟩ := by
  have hfixed : ∀ t th, (Kernel.started P mem cpu vm kp kt junk).fixed t = some th →
      t = kt ∧ th.parent = some kp ∧ th.state = .running ∧ th.priority = processPriDefault := by
    intro t th hth
    by_cases ht : t = kt
    · subst ht
      simp only [Kernel.started, schedulerInit, boot, fixed, proj_insert, Function.update_self,
        Option.some.injEq] at hth
      subst hth
      exact ⟨rfl, rfl, rfl, rfl⟩
    · simp [Kernel.started, schedulerInit, boot, fixed, ht, proj] at hth
  have hkt : ∃ th, (Kernel.started P mem cpu vm kp kt junk).fixed kt = some th ∧
      th.parent = some kp ∧ th.state = .running := by
    simp [Kernel.started, schedulerInit, boot, fixed, Thread.fixed]
  have hprocs : ∀ p pr, (Kernel.started P mem cpu vm kp kt junk).procs.lookup p = some pr →
      p = kp ∧ pr.threads = some kt ∧ pr.state = .running := by
    intro p pr hp
    by_cases hpk : p = kp
    · subst hpk
      simp only [Kernel.started, schedulerInit, boot, Finmap.lookup_insert, Option.some.injEq] at hp
      subst hp
      exact ⟨rfl, rfl, rfl⟩
    · simp [Kernel.started, schedulerInit, boot, Finmap.lookup_insert_of_ne _ hpk] at hp
  have hkp : ∃ pr, (Kernel.started P mem cpu vm kp kt junk).procs.lookup kp = some pr :=
    ⟨_, Finmap.lookup_insert _⟩
  obtain ⟨thk, hthk, hpark, hstatek⟩ := hkt
  refine ⟨⟨⟨fun _ _ => rfl, fun _ _ => rfl, by simp⟩, by simp [TailsAgree],
    ⟨fun p pr hp => ?_, fun p => ?_, fun p t => ?_, fun t th ht => ?_⟩,
    fun t th ht => (hfixed t th ht).2.2.2, fun p pr hp => ?_, fun p hp => ?_⟩,
    ⟨kt, thk, rfl, hthk, hpark.symm, fun _ => by simp [hstatek]⟩,
    fun c _ => by simp [Sched.Waiting], fun t th ht _ => ?_⟩
  · obtain ⟨rfl, hhead, -⟩ := hprocs p pr hp
    simp only [if_true, tailOf]
    refine ⟨hhead, junk.next, ?_, rfl⟩
    simp [Kernel.started, schedulerInit, next]
  · by_cases hp : p = kp <;> simp [hp]
  · constructor
    · intro ht
      by_cases hp : p = kp
      · simp only [hp, if_true, List.mem_singleton] at ht
        exact ⟨thk, ht ▸ hthk, hp ▸ hpark⟩
      · simp [hp] at ht
    · rintro ⟨th, hth, hpar⟩
      obtain ⟨rfl, hpar', -⟩ := hfixed t th hth
      obtain rfl := Option.some.inj (hpar.symm.trans hpar')
      simp
  · obtain ⟨pr, hpr⟩ := hkp
    exact ⟨kp, pr, (hfixed t th ht).2.1, hpr⟩
  · simp [(hprocs p pr hp).2.2]
  · have hpk : p = kp := by
      by_contra hpk
      exact hp (if_neg hpk)
    exact hpk ▸ hkp
  · exact (hfixed t th ht).1 ▸ rfl

/-- **Run lemma**: a run of allowed and safe steps from `scheduler_init` keeps
the invariant, and every waiting thread in its queue. -/
theorem run {mem : Mem} {cpu : Cpu} {vm : Vm} {kt : Ptr} {tr : List (Edge Kernel Op)}
    (hrun : Run (exec P) (Kernel.started P mem cpu vm kp kt junk) tr s)
    (hok : ∀ e ∈ tr, e.pre.Allowed e.op ∧ e.pre.Safe kp junk e.op) :
    ∃ a, Inv (tailOf kp junk) s a ∧ ∀ t, waiting tr t → a.Waiting t := by
  refine hrun.invariant_ghost
    (P := fun s W => ∃ a, Inv (tailOf kp junk) s a ∧ ∀ t, W t → a.Waiting t) waitStep hok
    ⟨_, started P mem cpu vm kp kt junk, fun _ => False.elim⟩ ?_
  rintro m op m' W ⟨a, hinv, hW⟩ hstep ⟨hallowed, hsafe⟩
  obtain ⟨a', hinv', hlost, -⟩ := hinv.step hstep hallowed hsafe
  exact ⟨a', hinv', fun t ⟨ht, hnd, hlive⟩ => hlost t (ht.imp_left (hW t)) hnd hlive⟩

end Inv

end Kernel

end Leenix
