import Leenix.Proc.Entry
import Leenix.Proc.ForkFailure
import Leenix.Proc.Pids
import Leenix.Proc.Queues
import Leenix.Proc.SpawnImage

/-!
# Forks that succeed

`ForkCopied` is what a fork is for: a child with the parent's name, priority and
address space and one thread, which will return from the same trap with a zero in
`eax`.

The child's frame lies on its new stack, apart from the parent's, so the copy is
right whatever the state (`load_copyTrapFrame`). What can go wrong is the post: it
links the child behind `queue_tail`, and that may name a thread that was destroyed
(`run_forkCopies_iff`).
-/

namespace Leenix

namespace Kernel

/-- The fork of the thread `c` with the record `par` made the child. -/
structure ForkCopied (s s' : Kernel) (pids : List Nat) (c : Ptr) (par : Thread) (ppr : Process)
    (cd : Ptr) (r : Int) (p t : Ptr) (pr : Process) (th : Thread) : Prop
    extends Born s s' r p t pr th where
  parentProc : ∃ pp, s.currentProc = some pp ∧ s.procs.lookup pp = some ppr
  /-- No pid given out before is the same number in 32 bits. -/
  unissued : ∀ n ∈ pids, u32 n ≠ u32 pr.pid
  name : pr.name = ppr.name.take 31
  priority : pr.priority = ppr.priority
  dir : pr.dir = some cd
  ownStack : th.kernel ≤ th.trapFrame ∧
    th.trapFrame + InterruptContext.size ≤ th.kernel + 4 * 1024
  frame : InterruptContext.load s'.mem th.trapFrame =
    { InterruptContext.load s.mem par.trapFrame with eax := 0 }
  parentFrame : InterruptContext.load s'.mem par.trapFrame =
    InterruptContext.load s.mem par.trapFrame
  currentThread : s'.currentThread = s.currentThread
  current : s'.core c = s.core c

/-- The fork returns, and has made the child. -/
def ForkCopies (P : Platform) (s : Kernel) (alloc : Alloc) (pids : List Nat) (c : Ptr)
    (par : Thread) (cd : Ptr) : Prop :=
  ∃ r s', s.processFork P alloc = some (r, s') ∧
    ∃ ppr p t pr th, ForkCopied s s' pids c par ppr cd r p t pr th

/-- The current process is live. -/
def CurrentProcLive (s : Kernel) : Prop :=
  ∃ pp ppr, s.currentProc = some pp ∧ s.procs.lookup pp = some ppr

variable {P : Platform} {s s' : Kernel} {alloc : Alloc} {c p d t cd : Ptr} {par th : Thread}
  {vm vm' : Vm} {pids : List Nat} {m : Mem} {stack child parent : Nat}

/-! ## The pid -/

/-- Below `2 ^ 31`, the next pid is a new number in 32 bits too. -/
theorem PidsIssued.unissued (h : PidsIssued s pids) (hfew : pids.length < 2 ^ 31) :
    ∀ n ∈ pids, u32 n ≠ u32 s.currentPid := by
  intro n hn
  have hlt := h.lt n hn
  have hcounter := h.counter
  rw [u32, u32, Nat.mod_eq_of_lt (by omega), Nat.mod_eq_of_lt (by omega)]
  omega

/-! ## The trap frame -/

/-- A store to the ninth word of a context changes `eax`. -/
theorem load_update_eax (m : Mem) (a v : Nat) :
    InterruptContext.load (Function.update m (a + 32) v) a =
      { InterruptContext.load m a with eax := v } := by
  simp [InterruptContext.load, Function.update]

/-- The words of the child's frame are the parent's, but for `eax`. -/
theorem load_copyTrapFrame : InterruptContext.load (copyTrapFrame m child parent) child =
    { InterruptContext.load m parent with eax := 0 } := by
  rw [copyTrapFrame, load_update_eax, InterruptContext.load_store]

/-- The place of the trap frame on the new stack. -/
theorem frame_inside (stack : Nat) :
    stack ≤ threadStackTop 0 stack - InterruptContext.size ∧
      threadStackTop 0 stack - InterruptContext.size + InterruptContext.size ≤ stack + 4 * 1024 := by
  simp only [threadStackTop, if_true, InterruptContext.size]
  omega

/-- A frame apart from the new stack is not changed when the stack is set up. -/
theorem load_threadStack_apart
    (hapart : parent + InterruptContext.size ≤ stack ∨ stack + 4 * 1024 ≤ parent) :
    InterruptContext.load (threadStack P m 0 0 stack) parent = InterruptContext.load m parent := by
  refine InterruptContext.load_congr fun x hlo hhi => threadStack_outside ?_
  omega

/-- Nor when the child's frame is written. -/
theorem load_copyTrapFrame_apart
    (hapart : parent + InterruptContext.size ≤ stack ∨ stack + 4 * 1024 ≤ parent) :
    InterruptContext.load (copyTrapFrame m (threadStackTop 0 stack - InterruptContext.size) parent)
      parent = InterruptContext.load m parent := by
  obtain ⟨hlo, hhi⟩ := frame_inside stack
  refine InterruptContext.load_congr fun x hx hx' => copyTrapFrame_outside ?_
  omega

/-! ## The child -/

/-- A post ends with interrupts enabled, so `sti` after it changes nothing. -/
theorem schedulerPost_sti {thread : Option Ptr} (h : s.schedulerPost thread = some s') :
    s'.sti = s' := by
  have hints : s'.ints = true := (schedulerPost_cases h).2.1
  rw [sti, ← hints]

section Supplied

variable {ppr : Process} {pp : Ptr} (hbegins : ForkBegins s alloc pp c par ppr p)
  (hspace : s.spaceCreated P = some (d, vm)) (hclone : P.vmm.clonePagedir vm = (some cd, vm'))
  (hthread : alloc.thread = some t) (hstack : alloc.stack ≠ 0)

include hbegins hspace hclone hthread hstack

/-- Given all it allocates, the fork is the post of the child's thread. -/
theorem processFork_supplied : s.processFork P alloc =
    ((s.forked P p cd t (vm'.freeDir d) ppr par alloc.stack).schedulerPost (some t)).map
      fun s' => ((s.currentPid : Int), s') := by
  rw [← processForkLog_result, (fork_posts hbegins hspace hclone hthread hstack).2]
  cases hpost : (s.forked P p cd t (vm'.freeDir d) ppr par alloc.stack).schedulerPost (some t) with
  | none => rfl
  | some s' => rw [Option.map_some, Option.map_some, schedulerPost_sti hpost]

/-- A fork that copies had a sound queue before it. -/
theorem sound_of_copies (ht : s.threads.lookup t = none)
    (h : ForkCopies P s alloc pids c par cd) : s.QueueSound processPriDefault := by
  obtain ⟨r, s', hfork, ppr', p', t', pr, th, hcopied⟩ := h
  rw [processFork_supplied hbegins hspace hclone hthread hstack] at hfork
  obtain ⟨s'', hpost, heq⟩ := Option.map_eq_some_iff.mp hfork
  obtain ⟨-, rfl⟩ := Prod.mk.inj heq
  have hothers : ∀ q, q ≠ p →
      (s.forked P p cd t (vm'.freeDir d) ppr par alloc.stack).procs.lookup q =
        s.procs.lookup q := by
    intro q hq
    simp [forked, addThread, addProcess, cli, hq]
  obtain ⟨-, -, -, hsound⟩ := sound_of_born ht forked_procs hothers rfl rfl rfl ⟨rfl, rfl⟩ rfl rfl
    hpost hcopied.toBorn
  exact hsound

/-- With a sound queue, the fork copies. -/
theorem copies_of_sound (hp : s.procs.lookup p = none) (ht : s.threads.lookup t = none)
    (hissued : PidsIssued s pids) (hfew : pids.length < 2 ^ 31)
    (hapart : par.trapFrame + InterruptContext.size ≤ alloc.stack ∨
      alloc.stack + 4 * 1024 ≤ par.trapFrame)
    (hsound : s.QueueSound processPriDefault) : ForkCopies P s alloc pids c par cd := by
  obtain ⟨s', th, hpost, hborn, hsame⟩ := born_of_sound
    (s := s.forked P p cd t (vm'.freeDir d) ppr par alloc.stack) hp ht forked_procs rfl rfl rfl
    ⟨rfl, rfl⟩ rfl rfl rfl hsound
  have hcalm := (schedulerPost_cases hpost).1
  have hframe : th.trapFrame = threadStackTop 0 alloc.stack - InterruptContext.size :=
    congrArg Thread.trapFrame hsame
  have hkernel : th.kernel = alloc.stack := congrArg Thread.kernel hsame
  refine ⟨s.currentPid, s', ?_, ppr, p, t,
    { s.created cd ppr.name ppr.priority with threads := some t }, th, ?_⟩
  · rw [processFork_supplied hbegins hspace hclone hthread hstack, hpost, Option.map_some]
  · exact {
      toBorn := hborn
      parentProc := ⟨pp, hbegins.currentProc, hbegins.parentProc⟩
      unissued := hissued.unissued hfew
      name := rfl
      priority := rfl
      dir := rfl
      ownStack := by
        rw [hframe, hkernel]
        exact frame_inside alloc.stack
      frame := by
        rw [hcalm.mem, hframe, forked, load_copyTrapFrame, load_threadStack_apart hapart]
      parentFrame := by
        rw [hcalm.mem, forked, load_copyTrapFrame_apart hapart, load_threadStack_apart hapart]
      currentThread := hcalm.currentThread
      current := hborn.queued.core_eq fun heq => by
        cases (heq ▸ hbegins.parentThread).symm.trans ht }

end Supplied

/-! ## In a run -/

variable {kp kt : Ptr} {junk : Junk} {mem : Mem} {cpu : Cpu} {vm₀ : Vm}
  {tr : List (Edge Kernel Op)}

/-- **A fork copies its parent.** In every state that a run reaches, with fewer than
`2 ^ 31` pids given out, a fork that gets all it asks for makes the child with the
parent's trap frame at the end of its queue, and nothing else, if and only if the
current process is live and the queue of new threads is sound. -/
theorem run_forkCopies_iff (hrun : Run (exec P) (started P mem cpu vm₀ kp kt junk) tr s)
    (hfew : (issued tr).length < 2 ^ 31) (hc : s.currentThread = some c)
    (hpar : s.threads.lookup c = some par) (hframe : par.trapFrame ≠ 0)
    (hfresh : s.AllocFresh alloc) (hp : alloc.process = some p) (ht : alloc.thread = some t)
    (hstack : alloc.stack ≠ 0)
    (hapart : par.trapFrame + InterruptContext.size ≤ alloc.stack ∨
      alloc.stack + 4 * 1024 ≤ par.trapFrame)
    (hspace : s.spaceCreated P = some (d, vm)) (hclone : P.vmm.clonePagedir vm = (some cd, vm')) :
    ForkCopies P s alloc (issued tr) c par cd ↔
      s.CurrentProcLive ∧ s.QueueSound processPriDefault := by
  have hnewProc := hfresh.1 p hp
  have hnewThread := hfresh.2.1 t ht
  constructor
  · intro h
    obtain ⟨_, _, _, ppr, _, _, _, _, hcopied⟩ := id h
    obtain ⟨pp, hpp, hppr⟩ := hcopied.parentProc
    have hbegins : ForkBegins s alloc pp c par ppr p := ⟨hpp, hc, hpar, hframe, hppr, hp⟩
    exact ⟨⟨pp, ppr, hpp, hppr⟩, sound_of_copies hbegins hspace hclone ht hstack hnewThread h⟩
  · rintro ⟨⟨pp, ppr, hpp, hppr⟩, hsound⟩
    have hbegins : ForkBegins s alloc pp c par ppr p := ⟨hpp, hc, hpar, hframe, hppr, hp⟩
    exact copies_of_sound hbegins hspace hclone ht hstack hnewProc hnewThread (run_pids hrun) hfew
      hapart hsound

/-! ## Two forks -/

/-- A directory with no entries but those that all address spaces share. -/
def SharedOnly (pd : PageEntries) : Prop := ∀ i, i < 1024 → SharedIndex i ∨ pd i = none

instance (pd : PageEntries) : Decidable (SharedOnly pd) :=
  Nat.decidableBallLT 1024 fun i _ => SharedIndex i ∨ pd i = none

/-- `vmm_clone_pagedir` where the active directory is one of these: there is no table to
copy, only entries. -/
def cloneShared (m : Vm) : Option Ptr × Vm :=
  match m.dirs.lookup m.active, m.newDir.copyEntries m.active m.bound SharedIndex with
  | some pd, some m' => if SharedOnly pd then (some m.bound, m') else (none, m)
  | _, _ => (none, m)

theorem cloneShared_eq {m : Vm} {pd : PageEntries} (hpd : m.dirs.lookup m.active = some pd)
    (hshared : SharedOnly pd) : ∃ m', cloneShared m = (some m.bound, m') := by
  have hlive : m.dirs.lookup m.active ≠ none := by simp [hpd]
  obtain ⟨m', hcopy⟩ := Vm.newDir_copy SharedIndex hlive
  refine ⟨m', ?_⟩
  simp [cloneShared, hpd, hcopy, hshared]

/-- The platform of the samples, with memory for a clone. -/
def cloningPlatform : Platform :=
  { samplePlatform with vmm := { Vmm.reference 256 with clonePagedir := cloneShared } }

/-- The calls that neither fork nor load a program are the same on both. -/
theorem exec_cloningPlatform {op : Op} (hfork : ∀ alloc, op ≠ .processFork alloc)
    (hspawn : ∀ openFile filename alloc junk, op ≠ .processSpawn openFile filename alloc junk) :
    s.exec cloningPlatform op = s.exec samplePlatform op := by
  cases op with
  | processFork alloc => exact absurd rfl (hfork alloc)
  | processSpawn openFile filename alloc junk =>
    exact absurd rfl (hspawn openFile filename alloc junk)
  | _ => rfl

theorem kerneldir_sharedOnly : SharedOnly fun i => if i = 0 then some 257 else none := by
  intro i hi
  by_cases hzero : i = 0
  · exact .inl (.inl hzero)
  · exact .inr (if_neg hzero)

/-- The kernel's thread is forked after its first tick. -/
theorem run_forkCopies_sample : ∃ par,
    ForkCopies cloningPlatform ticked ⟨some 2, some 2, 4096⟩ [1] 1 par 259 := by
  have hrun : Run (exec cloningPlatform) sample _ ticked := run_ticked.congr fun e he => by
    obtain rfl : e = _ := List.mem_singleton.mp he
    exact exec_cloningPlatform (by simp) (by simp)
  have hfresh : ticked.AllocFresh ⟨some 2, some 2, 4096⟩ := by decide
  obtain ⟨d, vm, hspace, hclone⟩ : ∃ d vm, ticked.spaceCreated cloningPlatform = some (d, vm) ∧
      ∃ vm', cloneShared vm = (some 259, vm') :=
    ⟨_, _, rfl, cloneShared_eq rfl kerneldir_sharedOnly⟩
  obtain ⟨vm', hclone⟩ := hclone
  exact ⟨_, (run_forkCopies_iff hrun (by decide) rfl rfl (by decide) hfresh rfl rfl
    (by decide) (by decide) hspace hclone).mpr ⟨⟨1, _, rfl, rfl⟩, [], rfl, by simp⟩⟩

/-- A tick, after the default queue has lost its last thread. -/
def tailLostOps : List Op := tailDestroyed ++ [.schedulerTick 0x5000]

def tailLost : Kernel := tailLostOps.foldl (Run.next (exec samplePlatform)) sample

theorem run_tailLost : Run (exec cloningPlatform) sample
    (Run.replay (exec samplePlatform) sample tailLostOps) tailLost := by
  have hrun : Run (exec samplePlatform) sample _ tailLost :=
    Run.of_defined tailLostOps (by decide)
  refine hrun.congr fun e he => ?_
  have hop := Run.op_mem_of_mem_replay he
  simp only [tailLostOps, tailDestroyed, List.cons_append, List.nil_append, List.mem_cons,
    List.not_mem_nil, or_false] at hop
  refine exec_cloningPlatform (fun alloc heq => ?_) fun openFile filename alloc junk heq => ?_
  · simp [heq] at hop
  · simp [heq] at hop

theorem tailLost_allowed :
    ∀ e ∈ Run.replay (exec samplePlatform) sample tailLostOps, e.pre.Allowed e.op := by
  rw [tailLostOps, Run.replay_append, List.forall_mem_append]
  refine ⟨tailDestroyed_allowed, ?_⟩
  simp only [Run.replay, List.forall_mem_cons]
  exact ⟨trivial, by simp⟩

/-- The object of the lost thread may come back from `malloc`. -/
theorem tailLost_fresh : tailLost.AllocFresh ⟨some 2, some 3, 8192⟩ := by decide

theorem tailLost_not_sound : ¬tailLost.QueueSound processPriDefault := by
  rintro ⟨us, hseg, hlast⟩
  have hus : us = [2] := hseg.det ⟨by decide, none, by decide, rfl⟩
  subst hus
  exact absurd (hlast (by simp)) (by decide)

/-- It comes back for the child's thread: the child is linked behind itself and is in no
queue. -/
theorem forked_unqueued : ∃ tr s s' par, Run (exec cloningPlatform) sample tr s ∧
    (∀ e ∈ tr, e.pre.Allowed e.op) ∧ s.AllocFresh ⟨some 2, some 3, 8192⟩ ∧
    s.currentThread = some 1 ∧ s.threads.lookup 1 = some par ∧ par.trapFrame = 0x5000 ∧
    s.processFork cloningPlatform ⟨some 2, some 3, 8192⟩ = some (2, s') ∧
    s'.queue 5 = some 2 ∧ s'.nextReady 2 = some none ∧ s'.nextReady 3 = some (some 3) ∧
    ¬ForkCopies cloningPlatform s ⟨some 2, some 3, 8192⟩ (issued tr) 1 par 259 := by
  obtain ⟨d, vm, hspace, vm', hclone⟩ : ∃ d vm,
      tailLost.spaceCreated cloningPlatform = some (d, vm) ∧
        ∃ vm', cloneShared vm = (some 259, vm') :=
    ⟨_, _, rfl, cloneShared_eq rfl kerneldir_sharedOnly⟩
  obtain ⟨par, hpar, hframe⟩ : ∃ par, tailLost.threads.lookup 1 = some par ∧
      par.trapFrame = 0x5000 := ⟨_, rfl, by decide⟩
  obtain ⟨ppr, hppr⟩ : ∃ ppr, tailLost.procs.lookup 1 = some ppr := ⟨_, rfl⟩
  have hbegins : ForkBegins tailLost ⟨some 2, some 3, 8192⟩ 1 1 par ppr 2 :=
    ⟨rfl, rfl, hpar, by simp [hframe], hppr, rfl⟩
  have hfork := processFork_supplied (P := cloningPlatform) hbegins hspace hclone rfl (by simp)
  obtain ⟨s', hpost, hqueue, hlink, hself⟩ : ∃ s',
      (forked cloningPlatform tailLost 2 259 3 (vm'.freeDir d) ppr par 8192).schedulerPost
        (some 3) = some s' ∧ s'.queue 5 = some 2 ∧ s'.nextReady 2 = some none ∧
          s'.nextReady 3 = some (some 3) := ⟨_, rfl, rfl, rfl, rfl⟩
  rw [hpost] at hfork
  refine ⟨_, tailLost, s', par, run_tailLost, tailLost_allowed, tailLost_fresh, rfl, hpar, hframe,
    hfork, hqueue, hlink, hself, fun h => tailLost_not_sound ?_⟩
  exact sound_of_copies hbegins hspace hclone rfl (by simp) (tailLost_fresh.2.1 3 rfl) h

end Kernel

end Leenix
