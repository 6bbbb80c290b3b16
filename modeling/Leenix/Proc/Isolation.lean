import Leenix.Mm.Sharing
import Leenix.Proc.ElfStores
import Leenix.Proc.System

/-!
# Isolation of address spaces

Any number of processes that `process_create` sets up, with segments loaded into
their directories and processes destroyed in any order. The table of entry 0, for
the first 4 MB, is the kernel's in every directory, so isolation hangs on what the
steps do there.

- `Isolated`: the invariant; every process but the kernel's has a directory of its
  own, shaped as `process_create` leaves it.
- `Isolated.step`: a step keeps the invariant, and isolates if it keeps apart.
- `run_isolates`: so do runs.
- `load_shared_table`: a program at the address that user.ld gives it does not keep
  apart.
-/

namespace Leenix

namespace Kernel

/-- A step: one of the calls, or other code (`work`), which writes memory and
switches directories. -/
inductive SpaceOp
  | processCreate (process : Ptr) (name : List Byte) (priority : Nat)
  | elfLoadSeg (process : Ptr) (file : File) (phdr : ElfPhdr)
  | processDestroy (process : Ptr)
  | work (phys : Frame → Nat → Byte) (active : Ptr)

/-- What the step does. A segment is loaded into the directory of the process. -/
def spaceStep (P : Platform) (s : Kernel) : SpaceOp → Option Kernel
  | .processCreate p name priority => s.processCreate P p name priority
  | .elfLoadSeg p file phdr => do
    let pr ← s.procs.lookup p
    let (_, _, vm) ← Leenix.elfLoadSeg P.vmm s.vm file pr.dir phdr
    return { s with vm := vm }
  | .processDestroy p => s.processDestroy P p
  | .work phys active => some { s with vm := { s.vm with phys := phys, active := active } }

/-- What the callers promise: `malloc` returns an object that is not in use, segments
lie in the user's memory, and the kernel process `kp` is left alone. -/
def SpaceAllowed (kp : Ptr) (s : Kernel) : SpaceOp → Prop
  | .processCreate p _ _ => s.procs.lookup p = none
  | .elfLoadSeg p _ phdr => p ≠ kp ∧ phdr.pVaddr + phdr.pMemsz ≤ kernelBase
  | .processDestroy p => p ≠ kp
  | .work .. => True

/-- The process that the step is about. -/
def SpaceOp.process : SpaceOp → Option Ptr
  | .processCreate p _ _ | .elfLoadSeg p _ _ | .processDestroy p => some p
  | .work .. => none

/-- The step leaves the translations of the user addresses through the kernel
directory and through the directories of the other processes as they were. -/
def Isolates (P : Platform) (e : Edge Kernel SpaceOp) : Prop :=
  e.pre.vm.SameUser e.post.vm P.vmm.kerneldir ∧
    ∀ q pr d, e.op.process ≠ some q → e.pre.procs.lookup q = some pr → pr.dir = some d →
      e.pre.vm.SameUser e.post.vm d

/-- The step changes nothing in the kernel's table for the first 4 MB: a segment does
not reach an absent page of it, and a process is destroyed only when it maps nothing. -/
def KeepsApart (P : Platform) (s : Kernel) : SpaceOp → Prop
  | .elfLoadSeg _ _ phdr => ∀ j, Vm.RegionPage phdr.regionStart phdr.regionSize 0 j →
      s.vm.tableOf P.vmm.kerneldir 0 = none ∨ s.vm.page P.vmm.kerneldir 0 j ≠ none
  | .processDestroy _ => ∀ j, j < 1024 → s.vm.page P.vmm.kerneldir 0 j = none
  | .processCreate .. | .work .. => True

/-! ## The parts of a step -/

/-- A load is an allocation of the segment's region and then stores. -/
theorem elfLoadSeg_cases {V : Vmm} {vm vm' : Vm} {file file' : File} {d : Ptr} {phdr : ElfPhdr}
    {r : Int} (h : Leenix.elfLoadSeg V vm file (some d) phdr = some (r, file', vm')) :
    ∃ granted vm₁, V.allocRegion vm d phdr.regionStart phdr.regionSize segFlags =
      (granted, vm₁) ∧ vm₁.SameMaps vm' ∧ (r ≠ -1 → granted = true) := by
  rw [← elfLoadSegLog_result, elfLoadSegLog] at h
  rcases hregion : V.allocRegion vm d phdr.regionStart phdr.regionSize segFlags with
    ⟨_ | _, vm₁⟩
  · rw [hregion] at h
    obtain ⟨rfl, -, rfl⟩ : -1 = r ∧ _ ∧ vm₁ = vm' := by simpa using h
    exact ⟨false, vm₁, rfl, .refl vm₁, fun hr => absurd rfl hr⟩
  · refine ⟨true, vm₁, rfl, ?_, fun _ => rfl⟩
    rw [hregion] at h
    simp only at h
    split at h
    · simp only [Option.bind_eq_bind, Option.bind_eq_some_iff] at h
      obtain ⟨vm₂, hfile, vm₃, hzero, h⟩ := h
      obtain ⟨-, -, rfl⟩ : 0 = r ∧ _ ∧ vm₃ = vm' := by simpa using h
      exact (Vm.sameMaps_of_storeBytes hfile).trans (Vm.sameMaps_of_storeBytes hzero)
    · simp only [Option.bind_eq_bind, Option.bind_eq_some_iff] at h
      obtain ⟨vm₂, hfile, h⟩ := h
      obtain ⟨-, -, rfl⟩ : 0 = r ∧ _ ∧ vm₂ = vm' := by simpa using h
      exact Vm.sameMaps_of_storeBytes hfile

/-- Destroying a process without threads releases its user pages and its directory. -/
theorem processDestroy_childless {P : Platform} {s s' : Kernel} {p d : Ptr} {pr : Process}
    (hpr : s.procs.lookup p = some pr) (hthreads : pr.threads = none) (hstate : pr.state = .ready)
    (hdir : pr.dir = some d) (h : s.processDestroy P p = some s') :
    s'.vm = (P.vmm.freeRegion s.vm d 0x0 0xC0000000).2.freeDir d ∧
      s'.procs.lookup p = none ∧ ∀ q, q ≠ p → s'.procs.lookup q = s.procs.lookup q := by
  simp only [processDestroy, hpr, hstate, updateProcess, Option.bind_eq_bind, Option.bind_some,
    Option.map_some, reduceCtorEq, if_false, hthreads, destroyThreads, Finmap.lookup_insert,
    hdir, Option.pure_def, Option.some.injEq] at h
  subst h
  refine ⟨rfl, Finmap.lookup_erase _ _, fun q hq => ?_⟩
  rw [Finmap.lookup_erase_ne hq, Finmap.lookup_insert_of_ne _ hq]

/-! ## The invariant -/

/-- Every process but the kernel's is as `process_create` left it: it has no thread,
and a directory of its own that shares only the kernel's entries. -/
structure Isolated (k kp : Ptr) (s : Kernel) : Prop where
  kernel : s.vm.dirs.lookup k ≠ none
  process : ∀ p pr, s.procs.lookup p = some pr → p ≠ kp → pr.threads = none ∧ pr.state = .ready ∧
    ∃ d, pr.dir = some d ∧ s.vm.ProcessDir k d
  apart : ∀ p q pr qr d, s.procs.lookup p = some pr → s.procs.lookup q = some qr → p ≠ kp →
    q ≠ kp → pr.dir = some d → qr.dir = some d → p = q
  kernelProcess : ∃ pr, s.procs.lookup kp = some pr ∧ pr.dir = some k

namespace Isolated

variable {P : Platform} {k kp p : Ptr} {s s' : Kernel}

/-- A step that changes the address spaces of the processes that it has. -/
theorem of_vm {vm : Vm} (h : Isolated k kp s) (hk : vm.dirs.lookup k ≠ none)
    (hdirs : ∀ d, s.vm.ProcessDir k d → vm.ProcessDir k d) :
    Isolated k kp { s with vm := vm } where
  kernel := hk
  process q qr hq hqk := by
    obtain ⟨hthreads, hstate, d, hd, hdir⟩ := h.process q qr hq hqk
    exact ⟨hthreads, hstate, d, hd, hdirs d hdir⟩
  apart := h.apart
  kernelProcess := h.kernelProcess

theorem dir_kernel (h : Isolated k kp s) {pr : Process} {d : Ptr}
    (hp : s.procs.lookup kp = some pr) (hd : pr.dir = some d) : d = k := by
  obtain ⟨pr', hp', hd'⟩ := h.kernelProcess
  obtain rfl := Option.some.inj (hp.symm.trans hp')
  exact Option.some.inj (hd.symm.trans hd')

theorem processDir (h : Isolated k kp s) {pr : Process} {d : Ptr}
    (hp : s.procs.lookup p = some pr) (hpk : p ≠ kp) (hd : pr.dir = some d) :
    s.vm.ProcessDir k d := by
  obtain ⟨-, -, d', hd', hdir⟩ := h.process p pr hp hpk
  obtain rfl := Option.some.inj (hd.symm.trans hd')
  exact hdir

theorem live_dir (h : Isolated k kp s) {pr : Process} {d : Ptr} (hp : s.procs.lookup p = some pr)
    (hd : pr.dir = some d) : s.vm.dirs.lookup d ≠ none := by
  by_cases hpk : p = kp
  · subst hpk
    rw [h.dir_kernel hp hd]
    exact h.kernel
  · exact (h.processDir hp hpk hd).live

/-- The directories of the other processes are other directories. -/
theorem ne_dir (h : Isolated k kp s) {q d e : Ptr} {pr qr : Process}
    (hp : s.procs.lookup p = some pr) (hpk : p ≠ kp) (hd : pr.dir = some d)
    (hq : s.procs.lookup q = some qr) (he : qr.dir = some e) (hqp : q ≠ p) : e ≠ d := by
  rintro rfl
  by_cases hqk : q = kp
  · subst hqk
    exact (h.processDir hp hpk hd).ne (h.dir_kernel hq he)
  · exact hqp (h.apart q p qr pr e hq hp hqk hpk he hd)

/-- A step on the process `p` isolates, if no directory but that of `p` sees it. -/
theorem isolates (h : Isolated P.vmm.kerneldir kp s) {op : SpaceOp} {d : Ptr} {pr : Process}
    (hop : op.process = some p) (hp : s.procs.lookup p = some pr) (hpk : p ≠ kp)
    (hd : pr.dir = some d) (hsame : ∀ e, e ≠ d → s.vm.SameUser s'.vm e) :
    Isolates P ⟨s, op, s'⟩ := by
  refine ⟨hsame _ (h.processDir hp hpk hd).ne.symm, fun q qr e hq hqr he => hsame e ?_⟩
  exact h.ne_dir hp hpk hd hqr he fun hqp => hq (hqp ▸ hop)

/-- A step that no directory sees isolates. -/
theorem isolates_all (h : Isolated P.vmm.kerneldir kp s) {op : SpaceOp}
    (hsame : ∀ e, s.vm.dirs.lookup e ≠ none → s.vm.SameUser s'.vm e) : Isolates P ⟨s, op, s'⟩ :=
  ⟨hsame _ h.kernel, fun _ _ e _ hq he => hsame e (h.live_dir hq he)⟩

/-! ## The steps -/

/-- `process_create` adds a process. -/
theorem create (h : Isolated P.vmm.kerneldir kp s) (hV : P.vmm.Contract) {name : List Byte}
    {priority : Nat} (hfresh : s.procs.lookup p = none)
    (hs : s.processCreate P p name priority = some s') :
    Isolated P.vmm.kerneldir kp s' ∧ Isolates P ⟨s, .processCreate p name priority, s'⟩ := by
  obtain ⟨d, vm, vm', hcreate, hcopy, rfl⟩ := processCreate_eq_some hs
  have hcopied := Vm.CopyEffect.of_create (hV.create _ _ _ hcreate) hcopy h.kernel
  have hne : ∀ e, s.vm.dirs.lookup e ≠ none → e ≠ d := fun e he hed => he (hed ▸ hcopied.fresh)
  have hlive : ∀ q qr, s.procs.lookup q = some qr → q ≠ p := by
    rintro q qr hq rfl
    cases hq.symm.trans hfresh
  obtain ⟨kr, hkr, hkd⟩ := h.kernelProcess
  have hkp : kp ≠ p := hlive kp kr hkr
  constructor
  · have hnew : vm'.ProcessDir P.vmm.kerneldir d :=
      hcopied.processDir h.kernel (.inl rfl) fun i hi hI => hI.eq_zero hi
    refine ⟨?_, fun q qr hq hqk => ?_, fun q₁ q₂ r₁ r₂ e h₁ h₂ hk₁ hk₂ he₁ he₂ => ?_,
      kr, ?_, hkd⟩
    · show vm'.dirs.lookup P.vmm.kerneldir ≠ none
      rw [hcopied.other _ (hne _ h.kernel)]
      exact h.kernel
    · by_cases hqp : q = p
      · subst hqp
        obtain rfl := Option.some.inj ((Finmap.lookup_insert _).symm.trans hq)
        exact ⟨rfl, rfl, d, rfl, hnew⟩
      · rw [Finmap.lookup_insert_of_ne _ hqp] at hq
        obtain ⟨hthreads, hstate, e, he, hdir⟩ := h.process q qr hq hqk
        exact ⟨hthreads, hstate, e, he, hcopied.processDir_other h.kernel hdir⟩
    · -- the directory of the new process is no other's
      by_cases hq₁ : q₁ = p
      · by_cases hq₂ : q₂ = p
        · exact hq₁.trans hq₂.symm
        · subst hq₁
          obtain rfl := Option.some.inj ((Finmap.lookup_insert _).symm.trans h₁)
          rw [Finmap.lookup_insert_of_ne _ hq₂] at h₂
          exact absurd (Option.some.inj he₁).symm (hne e (h.live_dir h₂ he₂))
      · rw [Finmap.lookup_insert_of_ne _ hq₁] at h₁
        by_cases hq₂ : q₂ = p
        · subst hq₂
          obtain rfl := Option.some.inj ((Finmap.lookup_insert _).symm.trans h₂)
          exact absurd (Option.some.inj he₂).symm (hne e (h.live_dir h₁ he₁))
        · rw [Finmap.lookup_insert_of_ne _ hq₂] at h₂
          exact h.apart q₁ q₂ r₁ r₂ e h₁ h₂ hk₁ hk₂ he₁ he₂
    · rw [Finmap.lookup_insert_of_ne _ hkp, hkr]
  · exact h.isolates_all fun e he => .of_page fun i j _ => hcopied.page_other (hne e he) i j

/-- A load edits the tables of one process. -/
theorem load (h : Isolated P.vmm.kerneldir kp s) (hV : P.vmm.Contract) {file : File}
    {phdr : ElfPhdr} (hallowed : s.SpaceAllowed kp (.elfLoadSeg p file phdr))
    (hs : s.spaceStep P (.elfLoadSeg p file phdr) = some s') :
    Isolated P.vmm.kerneldir kp s' ∧ (s.KeepsApart P (.elfLoadSeg p file phdr) →
      Isolates P ⟨s, .elfLoadSeg p file phdr, s'⟩) := by
  obtain ⟨hpk, huser⟩ := hallowed
  simp only [spaceStep, Option.bind_eq_bind, Option.bind_eq_some_iff] at hs
  obtain ⟨pr, hp, ⟨r, file', vm⟩, hload, hs⟩ := hs
  obtain rfl := Option.some.inj hs
  obtain ⟨-, -, d, hd, hdir⟩ := h.process p pr hp hpk
  rw [hd] at hload
  obtain ⟨granted, vm₁, hregion, hmaps, -⟩ := elfLoadSeg_cases hload
  have heffect := hV.alloc _ _ _ _ _ _ _ hregion
  constructor
  · refine h.of_vm ?_ fun e he => (he.alloc heffect hdir.ne).congr hmaps.dirs
    rw [hmaps.dirs, heffect.other _ hdir.ne.symm]
    exact h.kernel
  · intro hkeeps
    refine h.isolates rfl hp hpk hd fun e he => ?_
    refine .trans (.of_page fun i j _ => heffect.page_other he (fun i' hR => ?_) i)
      (hmaps.sameUser e)
    obtain ⟨-, -, hend⟩ := phdr.region_eq huser
    have hi' := Vm.entry_lt_of_covers hend hR.2
    -- pages from 4 MB on lie under the process's own entries
    by_cases hzero : i' = 0
    · subst hzero
      rcases hdir.page_zero j with hown | hsame
      · exact .inl hown
      · rcases hkeeps j hR with hnone | hmapped
        · exact .inl (hdir.own 0 hi' fun _ => hnone)
        · exact .inr (hsame ▸ hmapped)
    · exact .inl (hdir.own i' hi' fun h0 => absurd h0 hzero)

/-- A destruction clears tables of one process and releases its directory. -/
theorem destroy (h : Isolated P.vmm.kerneldir kp s) (hV : P.vmm.Contract) (hpk : p ≠ kp)
    (hs : s.processDestroy P p = some s') :
    Isolated P.vmm.kerneldir kp s' ∧ (s.KeepsApart P (.processDestroy p) →
      Isolates P ⟨s, .processDestroy p, s'⟩) := by
  obtain ⟨pr, hp, -⟩ := processDestroy_cases hs
  obtain ⟨hthreads, hstate, d, hd, hdir⟩ := h.process p pr hp hpk
  obtain ⟨hvm, hgone, hothers⟩ := processDestroy_childless hp hthreads hstate hd hs
  rcases hfree : P.vmm.freeRegion s.vm d 0x0 0xC0000000 with ⟨r, vm⟩
  rw [hfree] at hvm
  have heffect := hV.free _ _ _ _ _ _ hfree
  have hlive : ∀ q qr, s'.procs.lookup q = some qr → q ≠ p ∧ s.procs.lookup q = some qr := by
    intro q qr hq
    have hqp : q ≠ p := by
      rintro rfl
      cases hgone.symm.trans hq
    exact ⟨hqp, by rw [← hothers q hqp, hq]⟩
  constructor
  · obtain ⟨kr, hkr, hkd⟩ := h.kernelProcess
    refine ⟨?_, fun q qr hq hqk => ?_, fun q₁ q₂ r₁ r₂ e h₁ h₂ => ?_, kr, ?_, hkd⟩
    · rw [hvm, Vm.freeDir, Finmap.lookup_erase_ne hdir.ne.symm, heffect.dirs]
      exact h.kernel
    · obtain ⟨hqp, hq⟩ := hlive q qr hq
      obtain ⟨hthreads', hstate', e, he, hdir'⟩ := h.process q qr hq hqk
      refine ⟨hthreads', hstate', e, he, ?_⟩
      rw [hvm]
      exact (hdir'.congr heffect.dirs).freeDir (h.ne_dir hp hpk hd hq he hqp) hdir.ne.symm
    · exact h.apart q₁ q₂ r₁ r₂ e (hlive q₁ r₁ h₁).2 (hlive q₂ r₂ h₂).2
    · rw [hothers kp hpk.symm, hkr]
  · intro hkeeps
    refine h.isolates rfl hp hpk hd fun e he => ?_
    rw [hvm]
    refine .trans (.of_page fun i j hj => heffect.page_other he (fun i' hR => ?_) i)
      (.of_page fun i j _ => Vm.page_freeDir he i j)
    have hi' := Vm.entry_lt_of_covers (Nat.le_refl kernelBase) hR
    by_cases hzero : i' = 0
    · subst hzero
      exact (hdir.page_zero j).imp_right fun hsame => hsame.trans (hkeeps j hj)
    · exact .inl (hdir.own i' hi' fun h0 => absurd h0 hzero)

/-- **Step lemma.** A step keeps the invariant, and one that keeps apart isolates. -/
theorem step (h : Isolated P.vmm.kerneldir kp s) (hV : P.vmm.Contract) {op : SpaceOp}
    (hs : s.spaceStep P op = some s') (hallowed : s.SpaceAllowed kp op) :
    Isolated P.vmm.kerneldir kp s' ∧ (s.KeepsApart P op → Isolates P ⟨s, op, s'⟩) := by
  cases op with
  | processCreate p name priority =>
    obtain ⟨hinv, hisolates⟩ := h.create hV hallowed hs
    exact ⟨hinv, fun _ => hisolates⟩
  | elfLoadSeg p file phdr => exact h.load hV hallowed hs
  | processDestroy p => exact h.destroy hV hallowed hs
  | work phys active =>
    obtain rfl := Option.some.inj hs
    refine ⟨h.of_vm h.kernel fun d hd => hd.congr rfl, fun _ => h.isolates_all fun e _ => ?_⟩
    exact .of_page fun i j _ => rfl

end Isolated

/-! ## Runs -/

/-- After `scheduler_init` there is only the kernel process. -/
theorem isolated_started (P : Platform) (mem : Mem) (cpu : Cpu) {vm : Vm} (kp kt : Ptr)
    (junk : Junk) (hkernel : vm.dirs.lookup P.vmm.kerneldir ≠ none) :
    Isolated P.vmm.kerneldir kp (started P mem cpu vm kp kt junk) := by
  have honly : ∀ q qr, (started P mem cpu vm kp kt junk).procs.lookup q = some qr → q = kp := by
    intro q qr hq
    by_contra hqk
    simp [started, schedulerInit, boot, Finmap.lookup_insert_of_ne _ hqk] at hq
  refine ⟨hkernel, fun q qr hq hqk => absurd (honly q qr hq) hqk,
    fun q₁ q₂ r₁ r₂ e h₁ h₂ _ _ _ _ => (honly q₁ r₁ h₁).trans (honly q₂ r₂ h₂).symm, ?_⟩
  exact ⟨_, Finmap.lookup_insert _, rfl⟩

/-- A load that returns 0 and does not keep apart shows through the kernel directory. -/
theorem Isolated.not_isolates {P : Platform} {kp p : Ptr} {s : Kernel} {pr : Process} {d : Ptr}
    (h : Isolated P.vmm.kerneldir kp s) (hV : P.vmm.Contract) {file file' : File}
    {phdr : ElfPhdr} {vm : Vm} {r : Int} (hp : s.procs.lookup p = some pr) (hpk : p ≠ kp)
    (hd : pr.dir = some d)
    (hload : Leenix.elfLoadSeg P.vmm s.vm file (some d) phdr = some (r, file', vm)) (hr : r ≠ -1)
    (hreach : ¬s.KeepsApart P (.elfLoadSeg p file phdr)) :
    ¬Isolates P ⟨s, .elfLoadSeg p file phdr, { s with vm := vm }⟩ := by
  obtain ⟨j, hj⟩ := not_forall.mp hreach
  obtain ⟨⟨hj, hlo, hhi⟩, hnone⟩ := Classical.not_imp.mp hj
  obtain ⟨hentry, hunmapped⟩ := not_or.mp hnone
  have hunmapped := not_not.mp hunmapped
  have hdir := h.processDir hp hpk hd
  obtain ⟨granted, vm₁, hregion, hmaps, hgranted⟩ := elfLoadSeg_cases hload
  obtain rfl := hgranted hr
  have heffect := hV.alloc _ _ _ _ _ _ _ hregion
  have hmapped : vm₁.page d 0 j ≠ none := by
    rw [← Vm.frameOf_page vm₁ d 0 hj]
    have haligned := phdr.regionStart_aligned
    refine hV.mapped _ _ _ _ _ _ hregion haligned _ ?_ hhi
    simp only [pageSize] at *
    omega
  -- the kernel directory names the table that got the page
  obtain ⟨t, ht⟩ := Option.ne_none_iff_exists'.mp hentry
  have htable : vm₁.tableOf P.vmm.kerneldir 0 = some t := by
    rw [Vm.tableOf_congr (heffect.other _ hdir.ne.symm), ht]
  have hkernel : vm.page P.vmm.kerneldir 0 j = vm₁.page d 0 j := by
    rw [hmaps.page, Vm.page, Vm.page, htable, heffect.entry_kept 0 t (hdir.shared t ht)]
  intro hisolates
  have hsame := hisolates.1 ((0 * 1024 + j) * pageSize) (by simp only [pageSize, kernelBase]; omega)
  simp only [Vm.translate, Vm.frameOf_page _ _ _ hj, hunmapped, hkernel, Option.map_none,
    Option.map_eq_none_iff] at hsame
  exact hmapped hsame

/-- Two processes, and a segment at `va` loaded into the first one, whose directory is
active. -/
def twoSpaces (va : Nat) : List SpaceOp :=
  [.processCreate 2 [] 5, .processCreate 3 [] 5, .work (fun _ _ => 0) 258,
    .elfLoadSeg 2 (File.ofContent [1, 2, 3, 4]) ⟨elfPtLoad, 0, va, 4, 4⟩]

theorem twoSpaces_allowed {va : Nat} (hva : va = 0x100000 ∨ va = 0x400000) :
    ∀ e ∈ Run.replay (spaceStep samplePlatform) sample (twoSpaces va),
      e.pre.SpaceAllowed 1 e.op := by
  simp only [twoSpaces, Run.replay, List.forall_mem_cons]
  refine ⟨show Finmap.lookup _ _ = none by decide, show Finmap.lookup _ _ = none by decide,
    trivial, ⟨by decide, ?_⟩, by simp⟩
  rcases hva with rfl | rfl <;> decide

end Kernel

end Leenix
