import Leenix.Proc.Effects

/-!
# The context of the current thread

`scheduler_switch` loads the page directory only when the processes of the two
threads differ, and the TSS stack pointer only for a thread with a stack of its
own. `Coherent` says that the skipping is harmless: between the calls the active
directory, `current_proc` and `esp0` are the ones of the current thread.

- `ContextKept`: a call that switches to no thread keeps the current thread, its
  process and every page directory there was.
- `Coherent.switch`: a switch restores the invariant from the incoming thread.
- `run_coherent`: it holds in every reachable state.
-/

namespace Leenix

/-- What the scheduler relies on of the memory manager: creating and cloning a
directory leave the active one alone, and switching to a directory succeeds and
makes it active. -/
structure Vmm.Switches (V : Vmm) : Prop where
  create : ∀ m, (V.createAddressSpace m).2.active = m.active
  clone : ∀ m, (V.clonePagedir m).2.active = m.active
  switch : ∀ m d, (V.switchPagedir m (some d)).1 = true ∧
    (V.switchPagedir m (some d)).2.active = d

namespace Kernel

/-- The active page directory and `current_proc` are those of the current
thread's process, and a current thread with a stack of its own has the TSS point
to the end of it. -/
def Coherent (s : Kernel) : Prop :=
  ∃ c th p pr d, s.currentThread = some c ∧ s.threads.lookup c = some th ∧ th.parent = some p ∧
    s.procs.lookup p = some pr ∧ pr.dir = some d ∧ s.vm.active = d ∧ s.currentProc = some p ∧
    (th.kernel ≠ 0 → s.esp0 = u32 (th.kernel + 4 * 1024))

/-- The calls that create, post, fork and switch threads, where a fork succeeds,
and the code between them, which does not load a page directory. -/
def ContextOp (P : Platform) (s : Kernel) : Op → Prop
  | .processCreate .. | .threadCreate .. | .schedulerPost _ | .schedulerTick _ | .threadExit => True
  | .processFork alloc => ∀ r s', s.processFork P alloc = some (r, s') → r ≠ -1
  | .work _ _ vm => vm.active = s.vm.active
  | _ => False

variable {P : Platform} {s s' s'' : Kernel} {t p : Ptr}

/-- Process and stack block of each live thread. -/
def owner (s : Kernel) : Ptr → Option (Option Ptr × Nat) :=
  proj (fun th => (th.parent, th.kernel)) s.threads

/-- The page directory of each live process. -/
def dirOf (s : Kernel) : Ptr → Option (Option Ptr) := proj Process.dir s.procs

/-! ## Calls that switch to no thread -/

/-- The current thread and its context are the same, no live thread has changed
its process or stack, no live process its directory, and no process without a
directory has appeared. -/
structure ContextKept (s s' : Kernel) : Prop where
  currentThread : s'.currentThread = s.currentThread
  currentProc : s'.currentProc = s.currentProc
  esp0 : s'.esp0 = s.esp0
  active : s'.vm.active = s.vm.active
  owner : ∀ t o, s.owner t = some o → s'.owner t = some o
  dirs : ∀ p d, s.dirOf p = some d → s'.dirOf p = some d
  noNull : ∀ p, s'.dirOf p = some none → s.dirOf p = some none

theorem ContextKept.trans (h : ContextKept s s') (h' : ContextKept s' s'') : ContextKept s s'' where
  currentThread := h'.currentThread.trans h.currentThread
  currentProc := h'.currentProc.trans h.currentProc
  esp0 := h'.esp0.trans h.esp0
  active := h'.active.trans h.active
  owner t o ht := h'.owner t o (h.owner t o ht)
  dirs p d hp := h'.dirs p d (h.dirs p d hp)
  noNull p hp := h.noNull p (h'.noNull p hp)

theorem ContextKept.refl (s : Kernel) : ContextKept s s where
  currentThread := rfl
  currentProc := rfl
  esp0 := rfl
  active := rfl
  owner _ _ := id
  dirs _ _ := id
  noNull _ := id

/-- Stores to other variables. -/
theorem ContextKept.of_eq (hthread : s'.currentThread = s.currentThread)
    (hproc : s'.currentProc = s.currentProc) (hesp : s'.esp0 = s.esp0)
    (hactive : s'.vm.active = s.vm.active) (hthreads : s'.threads = s.threads)
    (hprocs : s'.procs = s.procs) : ContextKept s s' where
  currentThread := hthread
  currentProc := hproc
  esp0 := hesp
  active := hactive
  owner t o ht := by
    rw [Kernel.owner, hthreads]
    exact ht
  dirs p d hp := by
    rw [dirOf, hprocs]
    exact hp
  noNull p hp := by
    rw [dirOf, hprocs] at hp
    exact hp

/-- A store to a live thread that keeps its process and its stack. -/
theorem ContextKept.insertThread {th : Thread} (th' : Thread) (hth : s.threads.lookup t = some th)
    (hparent : th'.parent = th.parent) (hkernel : th'.kernel = th.kernel) :
    ContextKept s { s with threads := s.threads.insert t th' } := by
  refine { ContextKept.refl s with owner := fun x o hx => ?_ }
  show proj _ (s.threads.insert t th') x = some o
  rw [proj_insert, hparent, hkernel]
  by_cases hxt : x = t
  · subst hxt
    rw [Function.update_self, ← hx]
    simp [Kernel.owner, proj, hth]
  · rw [Function.update_of_ne hxt]
    exact hx

theorem ContextKept.updateThread {f : Thread → Thread} (h : s.updateThread t f = some s')
    (hf : ∀ th, (f th).parent = th.parent ∧ (f th).kernel = th.kernel) : ContextKept s s' := by
  obtain ⟨th, hth, rfl⟩ := Option.map_eq_some_iff.mp h
  exact .insertThread (f th) hth (hf th).1 (hf th).2

theorem ContextKept.setNextReady {v : Option Ptr} (h : s.setNextReady t v = some s') :
    ContextKept s s' := by
  have hlog : ContextKept s (s.logWrite (.nextReady t)) := .of_eq rfl rfl rfl rfl rfl rfl
  exact hlog.trans (.updateThread h fun _ => ⟨rfl, rfl⟩)

/-- A new process with a directory, or a store to a process that was not there
before. -/
theorem ContextKept.insertProcess {d : Ptr} (h : ContextKept s s') (pr : Process) (vm : Vm)
    (hfresh : s.procs.lookup p = none) (hdir : pr.dir = some d)
    (hactive : vm.active = s.vm.active) :
    ContextKept s { s' with procs := s'.procs.insert p pr, vm := vm } := by
  have hp : s.dirOf p = none := by simp [dirOf, proj, hfresh]
  have hdirs : proj Process.dir (s'.procs.insert p pr) =
      Function.update s'.dirOf p (some (some d)) := by
    rw [proj_insert, hdir]
    rfl
  refine ⟨h.currentThread, h.currentProc, h.esp0, hactive, h.owner, fun q e hq => ?_, fun q hq => ?_⟩
  · show proj _ (s'.procs.insert p pr) q = some e
    have hqp : q ≠ p := by
      rintro rfl
      cases hp.symm.trans hq
    rw [hdirs, Function.update_of_ne hqp]
    exact h.dirs q e hq
  · replace hq : proj _ (s'.procs.insert p pr) q = some none := hq
    rw [hdirs] at hq
    by_cases hqp : q = p
    · rw [hqp, Function.update_self] at hq
      cases hq
    · rw [Function.update_of_ne hqp] at hq
      exact h.noNull q hq

/-- A store to a live process that keeps its directory. -/
theorem ContextKept.updateProcess {f : Process → Process} (h : s.updateProcess p f = some s')
    (hf : ∀ pr, (f pr).dir = pr.dir) : ContextKept s s' := by
  obtain ⟨pr, hpr, rfl⟩ := Option.map_eq_some_iff.mp h
  have hdirs : proj Process.dir (s.procs.insert p (f pr)) = s.dirOf := by
    rw [proj_insert, hf]
    exact Function.update_eq_iff.mpr ⟨by simp [dirOf, proj, hpr], fun _ _ => rfl⟩
  refine { ContextKept.refl s with
    dirs := fun q d hq => ?_
    noNull := fun q hq => ?_ }
  · exact (congrFun hdirs q).trans hq
  · exact (congrFun hdirs q).symm.trans hq

/-- The stores of the scheduler are to other variables. -/
theorem ContextKept.of_stores (h : Stores s s') : ContextKept s s' := by
  induction h with
  | refl => exact .refl s
  | tail _ hstore ih =>
    refine ih.trans ?_
    cases hstore with
    | flag => exact .of_eq rfl rfl rfl rfl rfl rfl
    | queue => exact .of_eq rfl rfl rfl rfl rfl rfl
    | queueTail => exact .of_eq rfl rfl rfl rfl rfl rfl
    | link h => exact .setNextReady h
    | state h => exact .updateThread h fun _ => ⟨rfl, rfl⟩

theorem ContextKept.threadCreate {entry arg stack : Nat} {thread r : Option Ptr}
    (hfresh : ∀ t ∈ thread, s.threads.lookup t = none)
    (h : s.threadCreate P p entry arg thread stack = some (r, s')) : ContextKept s s' := by
  obtain ⟨t, rfl, ⟨-, -, rfl⟩ | ⟨-, -, pr, hp, rfl⟩⟩ := threadCreate_eq_some h
  · exact .of_eq rfl rfl rfl rfl rfl rfl
  · have hprocess : ContextKept s
        { s with procs := s.procs.insert p { pr with threads := some t } } :=
      .updateProcess (f := fun pr => { pr with threads := some t })
        (Option.map_eq_some_iff.mpr ⟨pr, hp, rfl⟩) fun _ => rfl
    refine { hprocess with owner := fun x o hx => ?_ }
    have hxt : x ≠ t := by
      rintro rfl
      have hlookup := hfresh x rfl
      simp [Kernel.owner, proj, hlookup] at hx
    show proj _ (s.threads.insert t _) x = some o
    rw [proj_insert, Function.update_of_ne hxt]
    exact hx

theorem ContextKept.processCreate {name : List Byte} {priority : Nat} (hP : P.vmm.Switches)
    (hfresh : s.procs.lookup p = none) (h : s.processCreate P p name priority = some s') :
    ContextKept s s' := by
  obtain ⟨d, vm, vm', hcreate, hcopy, rfl⟩ := processCreate_eq_some h
  obtain ⟨-, -, -, -, -, -, -, hactive⟩ := Vm.copyEntries_eq_some hcopy
  have hvm : vm.active = s.vm.active := by
    have hcreated := hP.create s.vm
    rwa [hcreate] at hcreated
  have hnew := (ContextKept.refl s).insertProcess
    ⟨s.currentPid, name.take 31, none, priority, some d, .ready⟩ vm' hfresh rfl (hactive.trans hvm)
  exact hnew.trans (.of_eq rfl rfl rfl rfl rfl rfl)

/-- A fork that succeeds gives the child a directory of its own, and posts its
thread. -/
theorem ContextKept.processFork {alloc : Alloc} {r : Int} (hP : P.vmm.Switches)
    (hfresh : s.AllocFresh alloc) (h : s.processFork P alloc = some (r, s')) (hr : r ≠ -1) :
    ContextKept s s' := by
  rcases processFork_cases h with ⟨hfail, -⟩ | ⟨pp, c, par, ppr, p, s₁, pr, -, -, -, -, hp, hs₁, hpr,
    hcases⟩
  · exact absurd hfail hr
  have hpfresh : s.procs.lookup p = none := hfresh.1 p hp
  have hcli : ContextKept s s.cli := .of_eq rfl rfl rfl rfl rfl rfl
  have hcreate : ContextKept s s₁ := hcli.trans (.processCreate hP hpfresh hs₁)
  rcases hcases with ⟨hfail, -⟩ | ⟨dir, vm, s₂, t, s₃, ⟨d, vm', hclone, rfl⟩, rfl, hs₃, hcases⟩
  · exact absurd hfail hr
  have hactive : vm'.active = s.vm.active := by
    have hcloned := hP.clone s₁.vm
    rw [hclone] at hcloned
    exact hcloned.trans hcreate.active
  have hchild := hcreate.insertProcess { pr with dir := some dir } (vm'.freeDir d) hpfresh rfl
    hactive
  rcases hcases with ⟨hfail, -⟩ | ⟨t', ch, s₄, pr', -, -, hpost, -, -, rfl⟩
  · exact absurd hfail hr
  -- the child has no thread yet, so `_get_main_thread` creates one
  obtain ⟨d₀, vm₁, vm₂, -, -, heq⟩ := processCreate_eq_some hs₁
  have hnone : pr.threads = none := processCreate_threads hs₁ hpr
  obtain ⟨s₅, hthread, hset⟩ := getMainThread_cases { pr with dir := some dir }
    (Finmap.lookup_insert _) hnone hs₃
  have hthreads : s₁.threads = s.threads := by
    rw [heq]
    rfl
  have hmain : ContextKept s s₃ :=
    (hchild.trans (.threadCreate (fun t ht => hthreads ▸ hfresh.2.1 t ht) hthread)).trans
      (.updateProcess hset fun _ => rfl)
  have hmem : ContextKept s₃
      { s₃ with mem := copyTrapFrame s₃.mem ch.trapFrame par.trapFrame } :=
    .of_eq rfl rfl rfl rfl rfl rfl
  exact ((hmain.trans hmem).trans (.of_stores (schedulerPost_stores hpost))).trans
    (.of_eq rfl rfl rfl rfl rfl rfl)

/-! ## The invariant -/

/-- No live process is without a page directory. -/
def HaveDirs (s : Kernel) : Prop := ∀ p, s.dirOf p ≠ some none

theorem Coherent.kept (h : s.Coherent) (hkept : ContextKept s s') : s'.Coherent := by
  obtain ⟨c, th, p, pr, d, hc, hth, hparent, hpr, hdir, hactive, hproc, hesp⟩ := h
  obtain ⟨th', hth', howner⟩ := proj_eq_some.mp
    (hkept.owner c (th.parent, th.kernel) (proj_eq_some.mpr ⟨th, hth, rfl⟩))
  obtain ⟨pr', hpr', hdir'⟩ := proj_eq_some.mp (hkept.dirs p pr.dir (proj_eq_some.mpr ⟨pr, hpr, rfl⟩))
  obtain ⟨hparent', hkernel'⟩ := Prod.mk.inj howner
  refine ⟨c, th', p, pr', d, hkept.currentThread.trans hc, hth', hparent'.trans hparent, hpr',
    hdir'.trans hdir, hkept.active.trans hactive, hkept.currentProc.trans hproc, fun hk => ?_⟩
  rw [hkept.esp0, hkernel']
  exact hesp (hkernel' ▸ hk)

theorem HaveDirs.kept (h : s.HaveDirs) (hkept : ContextKept s s') : s'.HaveDirs :=
  fun p hp => h p (hkept.noNull p hp)

/-- A switch leaves the context of the thread it runs. -/
theorem Coherent.switch (hP : P.vmm.Switches) (h : s.Coherent) (hdirs : s.HaveDirs) {n : Ptr}
    (hswitch : s.schedulerSwitch P (some n) = some s') : s'.Coherent ∧ s'.HaveDirs := by
  rcases schedulerSwitch_eq_some hswitch with ⟨-, rfl⟩ | ⟨c, cur, th, vm, hc, hne, hcur, hth, hvm, rfl⟩
  · exact ⟨h, hdirs⟩
  obtain ⟨c', cur', p, pr, d, hc', hcur', hparent, hpr, hdir, hactive, -, hesp⟩ := h
  obtain rfl := Option.some.inj (hc.symm.trans hc')
  obtain rfl := Option.some.inj (hcur.symm.trans hcur')
  -- the directory of the incoming thread's process is active
  have hspace : ∃ q qr e, th.parent = some q ∧ s.procs.lookup q = some qr ∧ qr.dir = some e ∧
      vm.active = e := by
    unfold switchAddressSpace at hvm
    split at hvm
    case isTrue hsame =>
      obtain rfl := Option.some.inj hvm
      exact ⟨p, pr, d, hsame.trans hparent, hpr, hdir, hactive⟩
    case isFalse =>
      simp only [Option.bind_eq_bind, Option.bind_eq_some_iff] at hvm
      obtain ⟨q, hq, qr, hqr, hvm⟩ := hvm
      obtain ⟨e, he⟩ : ∃ e, qr.dir = some e := by
        refine Option.ne_none_iff_exists'.mp fun hnull => hdirs q ?_
        exact proj_eq_some.mpr ⟨qr, hqr, hnull⟩
      rw [he] at hvm
      obtain rfl := Option.some.inj hvm
      exact ⟨q, qr, e, hq, hqr, he, (hP.switch s.vm e).2⟩
  obtain ⟨q, qr, e, hq, hqr, he, hactive'⟩ := hspace
  refine ⟨⟨n, { th with state := .running }, q, qr, e, rfl, Finmap.lookup_insert _, hq, hqr, he,
    hactive', hq, fun hk => ?_⟩, hdirs⟩
  exact if_neg hk

/-- **Step lemma**: every call keeps the context coherent. -/
theorem Coherent.step (hP : P.vmm.Switches) (h : s.Coherent) (hdirs : s.HaveDirs) {op : Op}
    (hexec : s.exec P op = some s') (hallowed : s.Allowed op) (hop : s.ContextOp P op) :
    s'.Coherent ∧ s'.HaveDirs := by
  obtain ⟨-, hcall⟩ := exec_eq_some.mp hexec
  have hkept : ∀ {s₁ : Kernel}, ContextKept s s₁ → s₁.Coherent ∧ s₁.HaveDirs :=
    fun hk => ⟨h.kept hk, hdirs.kept hk⟩
  cases op with
  | processCreate p name priority => exact hkept (.processCreate hP hallowed hcall)
  | threadCreate p entry arg thread stack =>
    obtain ⟨⟨r, s₁⟩, hs₁, rfl⟩ := Option.map_eq_some_iff.mp hcall
    exact hkept (.threadCreate hallowed.1 hs₁)
  | schedulerPost thread => exact hkept (.of_stores (schedulerPost_stores hcall))
  | processFork alloc =>
    obtain ⟨⟨r, s₁⟩, hs₁, rfl⟩ := Option.map_eq_some_iff.mp hcall
    exact hkept (.processFork hP hallowed hs₁ (hop r s₁ hs₁))
  | schedulerTick context =>
    obtain ⟨c, th, hc, hth, hcases⟩ := schedulerTick_cases hcall
    have hints : ContextKept s { s with ints := false } := .of_eq rfl rfl rfl rfl rfl rfl
    rcases hcases with ⟨-, rfl⟩ | ⟨-, s₂, r, s₃, hpost, htake, hswitch⟩
    · exact hkept (hints.trans (.insertThread _ hth rfl rfl))
    · have hslice := hints.trans
        (.insertThread { th with trapFrame := context, timeSlice := slice } hth rfl rfl)
      have hstores : Stores _ s₃ := (schedulerPost_stores hpost).trans (takeReady_stores htake)
      have h₃ : ContextKept s s₃ := hslice.trans (.of_stores hstores)
      rcases hswitch with ⟨-, rfl⟩ | ⟨n, -, hswitch⟩
      · exact hkept h₃
      · have hcli : ContextKept s₃ s₃.cli := .of_eq rfl rfl rfl rfl rfl rfl
        obtain ⟨hcoherent, hhave⟩ := hkept (h₃.trans hcli)
        exact hcoherent.switch hP hhave hswitch
  | threadExit =>
    obtain ⟨c, th, r, s₂, hc, hth, htake, hcases⟩ := threadExit_cases hcall
    have hints : ContextKept s { s with ints := false } := .of_eq rfl rfl rfl rfl rfl rfl
    have hmark := hints.trans (.insertThread { th with state := .terminated } hth rfl rfl)
    have h₂ : ContextKept s s₂ := hmark.trans (.of_stores (takeReady_stores htake))
    rcases hcases with ⟨-, rfl⟩ | ⟨n, -, hswitch⟩
    · exact hkept (h₂.trans (.of_eq rfl rfl rfl rfl rfl rfl))
    · obtain ⟨hcoherent, hhave⟩ := hkept h₂
      exact hcoherent.switch hP hhave hswitch
  | work mem ints vm =>
    obtain rfl := Option.some.inj hcall
    exact hkept (.of_eq rfl rfl rfl hop rfl rfl)
  | _ => exact hop.elim

variable {kp kt : Ptr} {junk : Junk} {mem : Mem} {cpu : Cpu} {vm : Vm}
  {tr : List (Edge Kernel Op)}

theorem coherent_started (hvm : vm.active = P.vmm.kerneldir) :
    (started P mem cpu vm kp kt junk).Coherent ∧ (started P mem cpu vm kp kt junk).HaveDirs := by
  refine ⟨⟨kt, _, kp, _, P.vmm.kerneldir, rfl, Finmap.lookup_insert _, rfl, Finmap.lookup_insert _,
    rfl, hvm, rfl, fun hk => absurd rfl hk⟩, fun p hp => ?_⟩
  replace hp : proj Process.dir ((boot mem cpu vm).procs.insert kp _) p = some none := hp
  rw [proj_insert] at hp
  by_cases hpk : p = kp
  · rw [hpk, Function.update_self] at hp
    cases hp
  · rw [Function.update_of_ne hpk] at hp
    cases hp

/-- In every state reachable from `scheduler_init` with the kernel directory
active, the active directory, `current_proc` and `esp0` are those of the current
thread. -/
theorem run_coherent (hP : P.vmm.Switches) (hvm : vm.active = P.vmm.kerneldir)
    (hrun : Run (exec P) (started P mem cpu vm kp kt junk) tr s)
    (hok : ∀ e ∈ tr, e.pre.Allowed e.op ∧ e.pre.ContextOp P e.op) : s.Coherent := by
  have hinv := hrun.invariant (P := fun s => s.Coherent ∧ s.HaveDirs) hok (coherent_started hvm)
    fun m op m' hm hstep hok => hm.1.step hP hm.2 hstep hok.1 hok.2
  exact hinv.1

end Kernel

theorem Vmm.reference_switches (kd : Ptr) : (Vmm.reference kd).Switches where
  create _ := rfl
  clone _ := rfl
  switch _ _ := ⟨rfl, rfl⟩

namespace Kernel

/-- A process and a thread of it are created and the thread is posted; the fifth
tick switches to it. -/
def otherProcess : List Op :=
  [.processCreate 2 [] 5, .threadCreate 2 0 0 (some 2) 4096, .schedulerPost (some 2)] ++
    List.replicate 5 (.schedulerTick 64)

/-- The switch loads the directory of the other process, and its stack. -/
theorem run_coherent_switch :
    Coherent (otherProcess.foldl (Run.next (exec samplePlatform)) sample) := by
  have hrun : Run (exec samplePlatform) sample _ _ := Run.of_defined otherProcess (by decide)
  refine run_coherent (Vmm.reference_switches 256) rfl hrun ?_
  simp only [otherProcess, List.replicate, Run.replay, List.cons_append, List.nil_append,
    List.forall_mem_cons]
  refine ⟨⟨show Finmap.lookup 2 (Kernel.procs _) = none by decide, trivial⟩,
    ⟨show ThreadFresh _ _ _ by decide, trivial⟩, ⟨?_, trivial⟩, ⟨trivial, trivial⟩,
    ⟨trivial, trivial⟩, ⟨trivial, trivial⟩, ⟨trivial, trivial⟩, ⟨trivial, trivial⟩, by simp⟩
  rintro t ⟨⟩
  refine ⟨⟨_, rfl, by decide⟩, by decide, ?_⟩
  rintro ⟨i, -, us, hus⟩
  cases us with
  | nil => cases hus
  | cons u us => cases hus.1

end Kernel

end Leenix
