import Leenix.Proc.Effects

/-!
# The first instruction of a thread

`thread_create` writes a stack image and `scheduler_switch` pops it, an
arbitrary number of calls later. The argument has three parts:

- `load_threadStack`, `threadStack_words`: what the image contains.
- `undisturbed_exec`: no call of process.c touches the image or the trap frame
  of a thread that is not current, and the call that makes it current resumes it
  from that frame.
- `first_dispatch_iff`: hence the thread starts in its entry function, with its
  argument and `thread_exit` on top of its stack, exactly when its entry lies
  below the kernel. A kernel entry is resumed by an `iret` without a change of
  privilege, which leaves `useresp` and `ss` on the stack.
-/

namespace Leenix

namespace Kernel

variable {P : Platform} {s s' s'' : Kernel} {op : Op} {tr : List (Edge Kernel Op)}

/-! ## The stack image -/

section Image

variable {m : Mem} {entry arg stack x : Nat}

theorem threadStackTop_of_ne (stack : Nat) (hentry : entry ≠ 0) :
    threadStackTop entry stack = stack + 4 * 1024 - 8 := by
  simp [threadStackTop, hentry]

/-- `thread_create` writes inside the stack block only. -/
theorem threadStack_outside (hx : x < stack ∨ stack + 4 * 1024 ≤ x) :
    threadStack P m entry arg stack x = m x := by
  unfold threadStack
  by_cases hentry : entry = 0
  · simp only [hentry, if_true, threadStackTop]
    exact InterruptContext.store_outside (by simp only [InterruptContext.size]; omega)
  · simp only [hentry, if_false, threadStackTop_of_ne stack hentry]
    rw [InterruptContext.store_outside (by simp only [InterruptContext.size]; omega),
      Function.update_of_ne (by omega), Function.update_of_ne (by omega)]

/-- The trap frame is the context that `thread_create` built. -/
theorem load_threadStack (P : Platform) (m : Mem) (entry arg stack : Nat) :
    InterruptContext.load (threadStack P m entry arg stack)
        (threadStackTop entry stack - InterruptContext.size) =
      threadContext entry (threadStackTop entry stack) :=
  InterruptContext.load_store ..

/-- Above the trap frame lie the return address and the argument. -/
theorem threadStack_words (P : Platform) (m : Mem) (arg stack : Nat) (hentry : entry ≠ 0) :
    threadStack P m entry arg stack (threadStackTop entry stack) = P.threadExit ∧
      threadStack P m entry arg stack (threadStackTop entry stack + 4) = arg := by
  unfold threadStack
  simp only [hentry, if_false, threadStackTop_of_ne stack hentry]
  constructor
  · rw [InterruptContext.store_outside (by simp only [InterruptContext.size]; omega),
      Function.update_self]
  · rw [InterruptContext.store_outside (by simp only [InterruptContext.size]; omega),
      Function.update_of_ne (by omega),
      show stack + 4 * 1024 - 8 + 4 = stack + 4 * 1024 - 4 by omega, Function.update_self]

end Image

/-! ## Until the first dispatch -/

/-- Other code leaves a stack block alone. -/
def KeepsBlock (stack : Nat) (s : Kernel) : Op → Prop
  | .work mem _ _ => ∀ x, stack ≤ x → x < stack + 4 * 1024 → mem x = s.mem x
  | _ => True

/-- The stack block of the thread holds what it holds in `m`, and the thread,
unless it is freed, has that block and its trap frame. -/
structure ImageIntact (m : Mem) (t : Ptr) (par : Option Ptr) (stack trapFrame : Nat)
    (s : Kernel) : Prop where
  frame : s.frame t = some (par, stack, trapFrame) ∨ s.frame t = none
  block : ∀ x, stack ≤ x → x < stack + 4 * 1024 → s.mem x = m x

/-- The thread is not current, or was resumed from its trap frame just now. -/
def Resumed (t : Ptr) (trapFrame : Nat) (s : Kernel) : Prop :=
  s.currentThread = some t → s.cpu = Cpu.resume s.mem trapFrame 0x10

variable {m : Mem} {t : Ptr} {stack trapFrame : Nat} {par : Option Ptr}

theorem ImageIntact.of_eq (h : ImageIntact m t par stack trapFrame s) (hframe : s'.frame t = s.frame t)
    (hmem : s'.mem = s.mem) : ImageIntact m t par stack trapFrame s' :=
  ⟨hframe ▸ h.frame, fun x hlo hhi => hmem ▸ h.block x hlo hhi⟩

theorem ImageIntact.calm (h : ImageIntact m t par stack trapFrame s) (hcalm : Calm s s') :
    ImageIntact m t par stack trapFrame s' := by
  refine ⟨?_, fun x hlo hhi => hcalm.mem ▸ h.block x hlo hhi⟩
  rcases hcalm.frames t with hf | hf
  · rw [hf]
    exact h.frame
  · exact .inr hf

theorem Calm.resumed (hcalm : Calm s s') (hcur : s.currentThread ≠ some t) : s'.Resumed t trapFrame :=
  fun ht => absurd (hcalm.currentThread.symm.trans ht) hcur

/-- A switch to the thread resumes it from its trap frame. -/
theorem ImageIntact.schedulerSwitch {n : Ptr} (h : ImageIntact m t par stack trapFrame s)
    (hcur : s.currentThread ≠ some t) (hswitch : s.schedulerSwitch P (some n) = some s') :
    ImageIntact m t par stack trapFrame s' ∧ s'.Resumed t trapFrame := by
  rcases schedulerSwitch_cases hswitch with ⟨-, rfl⟩ | ⟨th, -, hth, hframe, hmem, -, hnow, hcpu⟩
  · exact ⟨h, fun ht => absurd ht hcur⟩
  · refine ⟨h.of_eq (by rw [hframe]) hmem, fun ht => ?_⟩
    obtain rfl : n = t := Option.some.inj (hnow.symm.trans ht)
    rcases h.frame with hsaved | hfreed
    · rw [frame_of_lookup hth] at hsaved
      simp only [Option.some.injEq, Prod.mk.injEq] at hsaved
      rw [hcpu, hmem, hsaved.2.2]
    · rw [frame_eq_none, hth] at hfreed
      cases hfreed

/-- Taking a thread from a queue, and the switch to it if there is one. -/
theorem ImageIntact.dispatch {n : Nat} {r : Option Ptr} {s₁ : Kernel}
    (h : ImageIntact m t par stack trapFrame s) (hcur : s.currentThread ≠ some t)
    (htake : s.takeReady n = some (r, s₁))
    (hswitch : r = none ∧ Calm s₁ s' ∨
      ∃ n s₂, r = some n ∧ Calm s₁ s₂ ∧ s₂.schedulerSwitch P (some n) = some s') :
    ImageIntact m t par stack trapFrame s' ∧ s'.Resumed t trapFrame := by
  obtain ⟨hframe, hmem, hcurrent⟩ := takeReady_frames htake
  have h₁ : ImageIntact m t par stack trapFrame s₁ := h.of_eq (by rw [hframe]) hmem
  have hcur₁ : s₁.currentThread ≠ some t := hcurrent ▸ hcur
  rcases hswitch with ⟨-, hcalm⟩ | ⟨n, s₂, -, hcalm, hswitch⟩
  · exact ⟨h₁.calm hcalm, hcalm.resumed hcur₁⟩
  · exact (h₁.calm hcalm).schedulerSwitch (hcalm.currentThread ▸ hcur₁) hswitch

/-- Changing fields of the current thread, which is another one. -/
theorem ImageIntact.setCurrent {c : Ptr} (h : ImageIntact m t par stack trapFrame s)
    (hcur : s.currentThread ≠ some t) (hc : s.currentThread = some c) (th : Thread) (ints : Bool) :
    ImageIntact m t par stack trapFrame
      { s with ints := ints, threads := s.threads.insert c th } := by
  have hne : t ≠ c := fun heq => hcur (heq ▸ hc)
  refine h.of_eq ?_ rfl
  show proj _ (s.threads.insert c th) t = s.frame t
  rw [proj_insert, Function.update_of_ne hne]
  rfl

theorem ImageIntact.schedulerTick {context : Nat} (h : ImageIntact m t par stack trapFrame s)
    (hcur : s.currentThread ≠ some t) (htick : s.schedulerTick P context = some s') :
    ImageIntact m t par stack trapFrame s' ∧ s'.Resumed t trapFrame := by
  obtain ⟨c, th, hc, hth, hcases⟩ := schedulerTick_cases htick
  rcases hcases with ⟨-, rfl⟩ | ⟨-, s₂, r, s₃, hpost, htake, hswitch⟩
  · exact ⟨h.setCurrent hcur hc _ s.ints, fun ht => absurd ht hcur⟩
  · obtain ⟨hcalm, -, -⟩ := schedulerPost_cases hpost
    have h₁ := h.setCurrent hcur hc { th with trapFrame := context, timeSlice := slice } s.ints
    have hcur₂ : s₂.currentThread ≠ some t := hcalm.currentThread ▸ hcur
    refine (h₁.calm hcalm).dispatch (P := P) hcur₂ htake ?_
    rcases hswitch with ⟨hr, rfl⟩ | ⟨n, hr, hswitch⟩
    · exact .inl ⟨hr, .of_eq rfl rfl rfl rfl⟩
    · exact .inr ⟨n, s₃.cli, hr, calm_cli s₃, hswitch⟩

theorem ImageIntact.threadExit (h : ImageIntact m t par stack trapFrame s)
    (hcur : s.currentThread ≠ some t) (hexit : s.threadExit P = some s') :
    ImageIntact m t par stack trapFrame s' ∧ s'.Resumed t trapFrame := by
  obtain ⟨c, th, r, s₂, hc, hth, htake, hcases⟩ := threadExit_cases hexit
  refine (h.setCurrent hcur hc _ _).dispatch (P := P) hcur htake ?_
  rcases hcases with ⟨hr, rfl⟩ | ⟨n, hr, hswitch⟩
  · exact .inl ⟨hr, .of_eq rfl rfl rfl rfl⟩
  · exact .inr ⟨n, s₂, hr, .of_eq rfl rfl rfl rfl, hswitch⟩

/-- Creating another thread, in a block that `malloc` found free. -/
theorem ImageIntact.threadCreate {p : Ptr} {entry arg newStack : Nat} {thread r : Option Ptr}
    (h : ImageIntact m t par stack trapFrame s) (hne : ∀ t' ∈ thread, t' ≠ t)
    (hfree : newStack ≠ 0 → newStack + 4 * 1024 ≤ stack ∨ stack + 4 * 1024 ≤ newStack)
    (hcreate : s.threadCreate P p entry arg thread newStack = some (r, s')) :
    ImageIntact m t par stack trapFrame s' ∧ s'.currentThread = s.currentThread := by
  rcases threadCreate_cases hcreate with ⟨-, rfl⟩ | ⟨t', -, ht', hstack, -, hcurrent, hframe, hmem⟩
  · exact ⟨h.of_eq rfl rfl, rfl⟩
  · refine ⟨⟨?_, fun x hlo hhi => ?_⟩, hcurrent⟩
    · rw [hframe, Function.update_of_ne (hne t' ht').symm]
      exact h.frame
    · have hdisjoint := hfree hstack
      rw [hmem, threadStack_outside (by omega)]
      exact h.block x hlo hhi

theorem ImageIntact.processSpawn {openFile : List Byte → Option File} {filename : List Byte}
    {alloc : Alloc} {junk : StackJunk} {r : Int} (h : ImageIntact m t par stack trapFrame s)
    (hcur : s.currentThread ≠ some t) (hne : ∀ t' ∈ alloc.thread, t' ≠ t)
    (hfree : alloc.stack ≠ 0 →
      alloc.stack + 4 * 1024 ≤ stack ∨ stack + 4 * 1024 ≤ alloc.stack)
    (hspawn : s.processSpawn P openFile filename alloc junk = some (r, s')) :
    ImageIntact m t par stack trapFrame s' ∧ s'.currentThread ≠ some t := by
  obtain ⟨p, s₁, pr, result, entry, vm, -, hs₁, -, -, hcases⟩ := processSpawn_cases hspawn
  have hcalm : Calm s { s₁ with vm := vm } :=
    (calm_processCreate hs₁).trans (.of_eq rfl rfl rfl rfl)
  have h₁ := h.calm hcalm
  rcases hcases with ⟨-, -, hdestroy⟩ | ⟨-, e, t', s₂, s₃, pr₃, -, hcreate, hupdate, hpost, -, -⟩
  · have hcalm' := hcalm.trans (calm_processDestroy hdestroy)
    exact ⟨h.calm hcalm', hcalm'.currentThread ▸ hcur⟩
  · obtain ⟨h₂, hcurrent⟩ := h₁.threadCreate hne hfree hcreate
    have hcalm' := (calm_updateProcess hupdate).trans (schedulerPost_cases hpost).1
    refine ⟨h₂.calm hcalm', ?_⟩
    rw [hcalm'.currentThread, hcurrent, hcalm.currentThread]
    exact hcur

/-- The child's trap frame is copied inside the child's stack block. -/
theorem copyTrapFrame_outside {mem : Mem} {child parent x : Nat}
    (hx : x < child ∨ child + InterruptContext.size ≤ x) :
    copyTrapFrame mem child parent x = mem x := by
  have hne : x ≠ child + 32 := by
    simp only [InterruptContext.size] at hx
    omega
  rw [copyTrapFrame, Function.update_of_ne hne, InterruptContext.store_outside hx]

theorem ImageIntact.processFork {alloc : Alloc} {r : Int}
    (h : ImageIntact m t par stack trapFrame s) (hcur : s.currentThread ≠ some t)
    (hne : ∀ t' ∈ alloc.thread, t' ≠ t)
    (hfree : alloc.stack ≠ 0 →
      alloc.stack + 4 * 1024 ≤ stack ∨ stack + 4 * 1024 ≤ alloc.stack)
    (hfork : s.processFork P alloc = some (r, s')) :
    ImageIntact m t par stack trapFrame s' ∧ s'.currentThread ≠ some t := by
  rcases processFork_cases hfork with ⟨-, rfl⟩ | ⟨pp, c, parent, ppr, p, s₁, pr, -, -, -, -, -, hs₁,
    hpr, hcases⟩
  · exact ⟨h.of_eq rfl rfl, hcur⟩
  have hcalm : Calm s s₁ := (calm_cli s).trans (calm_processCreate hs₁)
  rcases hcases with ⟨-, -, vm, rfl⟩ | ⟨dir, vm, s₂, main, s₃, -, rfl, hs₃, hcases⟩
  · have hcalm' : Calm s { s₁ with vm := vm } := hcalm.trans (.of_eq rfl rfl rfl rfl)
    exact ⟨(h.calm hcalm').of_eq rfl rfl, hcalm'.currentThread ▸ hcur⟩
  have hnone : pr.threads = none := processCreate_threads hs₁ hpr
  obtain ⟨s₄, hcreate, hupdate⟩ := getMainThread_cases { pr with dir := some dir }
    (Finmap.lookup_insert _) hnone hs₃
  have hset := calm_updateProcess hupdate
  have h₂ : ImageIntact m t par stack trapFrame { s₁ with
      vm := vm, procs := s₁.procs.insert p { pr with dir := some dir } } :=
    (h.calm hcalm).of_eq rfl rfl
  obtain ⟨h₄, hcurrent⟩ := h₂.threadCreate hne hfree hcreate
  have h₃ := h₄.calm hset
  have hcur₃ : s₃.currentThread ≠ some t := by
    rw [hset.currentThread, hcurrent]
    show s₁.currentThread ≠ some t
    exact hcalm.currentThread ▸ hcur
  rcases hcases with ⟨-, -, vm', rfl⟩ | ⟨t', ch, s₅, pr₅, rfl, hch, hpost, -, -, rfl⟩
  · exact ⟨h₃.of_eq rfl rfl, hcur₃⟩
  · rcases threadCreate_cases hcreate with ⟨hmain, -⟩ | ⟨t'', hmain, -, hstack, -, -, hframe, -⟩
    · cases hmain
    obtain rfl := Option.some.inj hmain
    have hchild : ch.trapFrame = threadStackTop 0 alloc.stack - InterruptContext.size := by
      have hkept := hset.frames t'
      rw [frame_of_lookup hch, hframe, Function.update_self] at hkept
      simp only [Option.some.injEq, Prod.mk.injEq, reduceCtorEq, or_false] at hkept
      exact hkept.2.2
    have hdisjoint := hfree hstack
    obtain ⟨hcalm', -, -⟩ := schedulerPost_cases hpost
    have h₅ : ImageIntact m t par stack trapFrame { s₃ with
        mem := copyTrapFrame s₃.mem ch.trapFrame parent.trapFrame } := by
      refine ⟨h₃.frame, fun x hlo hhi => ?_⟩
      show copyTrapFrame s₃.mem ch.trapFrame parent.trapFrame x = m x
      rw [copyTrapFrame_outside, h₃.block x hlo hhi]
      simp only [hchild, threadStackTop, if_true, InterruptContext.size]
      omega
    have hcalm'' := Calm.trans hcalm' (calm_sti s₅)
    refine ⟨h₅.calm hcalm'', ?_⟩
    rw [hcalm''.currentThread]
    exact hcur₃

/-- **Step lemma**: a call keeps the image of a live thread that is not current,
and resumes the thread from its trap frame if it makes it current. -/
theorem ImageIntact.exec (h : ImageIntact m t par stack trapFrame s) (hstack : stack ≠ 0)
    (hlive : s.threads.lookup t ≠ none) (hcur : s.currentThread ≠ some t)
    (hstep : s.exec P op = some s') (hallowed : s.Allowed op) (hkeeps : s.KeepsBlock stack op) :
    ImageIntact m t par stack trapFrame s' ∧ s'.Resumed t trapFrame := by
  obtain ⟨-, hcall⟩ := exec_eq_some.mp hstep
  have hcalm : ∀ {s₁ : Kernel}, Calm s s₁ →
      ImageIntact m t par stack trapFrame s₁ ∧ s₁.Resumed t trapFrame :=
    fun hcalm => ⟨h.calm hcalm, hcalm.resumed hcur⟩
  have hother : ∀ {thread : Option Ptr}, (∀ t' ∈ thread, s.threads.lookup t' = none) →
      ∀ t' ∈ thread, t' ≠ t := by
    rintro thread hfresh t' ht' rfl
    exact hlive (hfresh t' ht')
  have hdisjoint : ∀ {newStack : Nat}, (newStack ≠ 0 → s.StackFree newStack) → newStack ≠ 0 →
      newStack + 4 * 1024 ≤ stack ∨ stack + 4 * 1024 ≤ newStack := by
    intro newStack hfree hne
    obtain ⟨th, hth⟩ := Option.ne_none_iff_exists'.mp hlive
    have hframe := h.frame
    rw [frame_of_lookup hth] at hframe
    simp only [Option.some.injEq, Prod.mk.injEq, reduceCtorEq, or_false] at hframe
    obtain ⟨-, rfl, -⟩ := hframe
    exact hfree hne t th hth hstack
  cases op with
  | processCreate p name priority => exact hcalm (calm_processCreate hcall)
  | processDestroy p => exact hcalm (calm_processDestroy hcall)
  | processSpawn openFile filename alloc junk =>
    obtain ⟨⟨r, s₁⟩, hspawn, rfl⟩ := Option.map_eq_some_iff.mp hcall
    obtain ⟨-, hthread, hfree⟩ := hallowed
    obtain ⟨h', hcur'⟩ := h.processSpawn hcur (hother hthread) (hdisjoint hfree) hspawn
    exact ⟨h', fun ht => absurd ht hcur'⟩
  | processFork alloc =>
    obtain ⟨⟨r, s₁⟩, hfork, rfl⟩ := Option.map_eq_some_iff.mp hcall
    obtain ⟨-, hthread, hfree⟩ := hallowed
    obtain ⟨h', hcur'⟩ := h.processFork hcur (hother hthread) (hdisjoint hfree) hfork
    exact ⟨h', fun ht => absurd ht hcur'⟩
  | threadCreate p entry arg thread newStack =>
    obtain ⟨⟨r, s₁⟩, hcreate, rfl⟩ := Option.map_eq_some_iff.mp hcall
    obtain ⟨hthread, hfree⟩ := hallowed
    obtain ⟨h', hsame⟩ := h.threadCreate (hother hthread) (hdisjoint hfree) hcreate
    exact ⟨h', fun ht => absurd (hsame.symm.trans ht) hcur⟩
  | threadDestroy thread =>
    obtain ⟨⟨r, s₁⟩, hdestroy, rfl⟩ := Option.map_eq_some_iff.mp hcall
    exact hcalm (calm_threadDestroy hdestroy)
  | schedulerPost thread => exact hcalm (schedulerPost_cases hcall).1
  | schedulerTick context =>
    have hentered : ImageIntact m t par stack trapFrame { s with ints := false } := h.of_eq rfl rfl
    exact hentered.schedulerTick hcur hcall
  | threadExit => exact h.threadExit hcur hcall
  | work mem ints vm =>
    obtain rfl := Option.some.inj hcall
    refine ⟨⟨h.frame, fun x hlo hhi => ?_⟩, fun ht => absurd ht hcur⟩
    exact (hkeeps x hlo hhi).trans (h.block x hlo hhi)

/-! ## The first dispatch -/

/-- A step of a run in which the thread is neither freed nor dispatched. -/
def Waits (t : Ptr) (stack : Nat) (e : Edge Kernel Op) : Prop :=
  e.pre.Allowed e.op ∧ e.pre.KeepsBlock stack e.op ∧ e.post.threads.lookup t ≠ none ∧
    e.post.currentThread ≠ some t

/-- The CPU is about to execute `entry(arg)`, called from `thread_exit`'s address. -/
def StartsIn (P : Platform) (entry arg : Nat) (s : Kernel) : Prop :=
  s.cpu.eip = entry ∧ s.mem s.cpu.esp = P.threadExit ∧ s.mem (s.cpu.esp + 4) = arg

/-- What a resumed thread finds, read off its image. -/
theorem startsIn_iff {entry arg : Nat} (hentry : entry ≠ 0)
    (hexit : P.threadExit < stack ∨ stack + 4 * 1024 ≤ P.threadExit)
    (hblock : ∀ x, stack ≤ x → x < stack + 4 * 1024 →
      s.mem x = threadStack P m entry arg stack x)
    (hcpu : s.cpu =
      Cpu.resume s.mem (threadStackTop entry stack - InterruptContext.size) 0x10) :
    s.StartsIn P entry arg ↔ entry < kernelBase := by
  have htop := threadStackTop_of_ne stack hentry
  have hload : InterruptContext.load s.mem (threadStackTop entry stack - InterruptContext.size) =
      threadContext entry (threadStackTop entry stack) := by
    rw [← load_threadStack P m entry arg]
    refine InterruptContext.load_congr fun x hlo hhi => hblock x ?_ ?_
    · simp only [htop, InterruptContext.size] at hlo
      omega
    · simp only [htop, InterruptContext.size] at hhi
      omega
  by_cases hkernel : entry < kernelBase
  · refine iff_of_true ?_ hkernel
    have huser : ¬(entry = 0 ∨ kernelBase ≤ entry) := by omega
    have hcs : (threadContext entry (threadStackTop entry stack)).cs % 4 ≠ 0 := by
      simp [threadContext, huser]
    obtain ⟨heip, hesp⟩ := Cpu.resume_user 0x10 hload hcs
    have hwords := threadStack_words P m arg stack hentry
    have hesp' : s.cpu.esp = threadStackTop entry stack := by
      rw [hcpu, hesp]
      simp [threadContext, huser]
    refine ⟨?_, ?_, ?_⟩
    · rw [hcpu, heip]
      simp [threadContext, huser]
    · rw [hesp', hblock _ (by omega) (by omega)]
      exact hwords.1
    · rw [hesp', hblock _ (by omega) (by omega)]
      exact hwords.2
  · refine iff_of_false ?_ hkernel
    have hsame : entry = 0 ∨ kernelBase ≤ entry := .inr (Nat.le_of_not_lt hkernel)
    have hcs : (threadContext entry (threadStackTop entry stack)).cs % 4 = 0 := by
      simp [threadContext, hsame]
    obtain ⟨-, hesp⟩ := Cpu.resume_ring0 0x10 hload hcs
    rintro ⟨-, hreturn, -⟩
    -- `iret` stopped below the frame's `useresp`, which is what lies on top of the stack
    have huseresp := congrArg InterruptContext.useresp hload
    simp only [InterruptContext.load, threadContext, hsame, if_true] at huseresp
    rw [hcpu, hesp, huseresp, htop] at hreturn
    omega

/-- **First dispatch.** When the thread that `thread_create` returned is
dispatched for the first time, however late, it starts in its entry function
with its argument and returns into `thread_exit` exactly when its entry lies
below the kernel. -/
theorem first_dispatch_iff {p : Ptr} {entry arg : Nat} {thread : Option Ptr} {s₁ s₂ s₃ : Kernel}
    (hcreate : s.threadCreate P p entry arg thread stack = some (some t, s₁)) (hentry : entry ≠ 0)
    (hexit : P.threadExit < stack ∨ stack + 4 * 1024 ≤ P.threadExit)
    (hcur : s.currentThread ≠ some t) (hrun : Run (exec P) s₁ tr s₂)
    (hwaits : ∀ e ∈ tr, Waits t stack e) (hstep : s₂.exec P op = some s₃)
    (hallowed : s₂.Allowed op) (hkeeps : s₂.KeepsBlock stack op)
    (hdispatch : s₃.currentThread = some t) :
    s₃.StartsIn P entry arg ↔ entry < kernelBase := by
  rcases threadCreate_cases hcreate with ⟨hfailed, -⟩ | ⟨t', ht', -, hstack, -, hsame, hframe, hmem⟩
  · cases hfailed
  obtain rfl := Option.some.inj ht'
  have hcreated : s₁.frame t = some
      (some p, stack, threadStackTop entry stack - InterruptContext.size) := by
    rw [hframe, Function.update_self]
  have hcreated_live : s₁.threads.lookup t ≠ none := by
    intro hnone
    rw [← frame_eq_none, hcreated] at hnone
    cases hnone
  obtain ⟨h, hlive, hcur₂⟩ := hrun.invariant
    (P := fun s => ImageIntact s₁.mem t (some p) stack
      (threadStackTop entry stack - InterruptContext.size) s ∧
      s.threads.lookup t ≠ none ∧ s.currentThread ≠ some t)
    hwaits ⟨⟨.inl hcreated, fun _ _ _ => rfl⟩, hcreated_live, hsame ▸ hcur⟩
    (by
      rintro u op u' ⟨h, hlive, hcur⟩ hstep ⟨hallowed, hkeeps, hlive', hcur'⟩
      exact ⟨(h.exec hstack hlive hcur hstep hallowed hkeeps).1, hlive', hcur'⟩)
  obtain ⟨h₃, hresumed⟩ := h.exec hstack hlive hcur₂ hstep hallowed hkeeps
  exact startsIn_iff (m := s.mem) hentry hexit
    (fun x hlo hhi => (h₃.block x hlo hhi).trans (by rw [hmem])) (hresumed hdispatch)

/-- The calls between the creation of thread 2 and its dispatch by the fifth tick. -/
def postAndTick : List Op := .schedulerPost (some 2) :: List.replicate 4 (.schedulerTick 64)

/-- Thread 2 has been created with entry function `entry` and argument 7. -/
def withEntry (entry : Nat) : Kernel :=
  Run.next (exec samplePlatform) sample (.threadCreate 1 entry 7 (some 2) 4096)

/-- The state before the fifth tick. -/
def beforeDispatch (entry : Nat) : Kernel :=
  postAndTick.foldl (Run.next (exec samplePlatform)) (withEntry entry)

theorem postAndTick_waits {entry : Nat} (hentry : entry = 0x400000 ∨ entry = 0xC0200000) :
    ∀ e ∈ Run.replay (exec samplePlatform) (withEntry entry) postAndTick, Waits 2 4096 e := by
  have htick : ∀ u u' : Kernel, u'.threads.lookup 2 ≠ none → u'.currentThread ≠ some 2 →
      Waits 2 4096 ⟨u, .schedulerTick 64, u'⟩ := fun u u' hlive hcur => ⟨trivial, trivial, hlive, hcur⟩
  have hpost : ∀ u : Kernel, (∀ i, i ≤ processPriMax → u.queue i = none) → (u.threads.lookup 2).isSome →
      (u.threads.lookup 2).map Thread.state ≠ some .terminated → u.currentThread ≠ some 2 →
      u.Allowed (.schedulerPost (some 2)) := by
    rintro u hqueue hlive hstate hcur t ⟨⟩
    obtain ⟨th, hth⟩ := Option.isSome_iff_exists.mp hlive
    refine ⟨⟨th, hth, fun hterm => hstate (by simp [hth, hterm])⟩, hcur, ?_⟩
    rintro ⟨i, hi, us, hus⟩
    rw [hqueue i hi] at hus
    cases us with
    | nil => cases hus
    | cons u us => cases hus.1
  simp only [postAndTick, List.replicate, Run.replay, List.forall_mem_cons]
  rcases hentry with rfl | rfl
  all_goals
    exact ⟨⟨hpost _ (by decide) (by decide) (by decide) (by decide), trivial, by decide, by decide⟩,
      htick _ _ (by decide) (by decide), htick _ _ (by decide) (by decide),
      htick _ _ (by decide) (by decide), htick _ _ (by decide) (by decide), by simp⟩

/-- A user entry: the fifth tick starts it with its argument. -/
theorem first_dispatch_iff_user :
    StartsIn samplePlatform 0x400000 7
        (Run.next (exec samplePlatform) (beforeDispatch 0x400000) (.schedulerTick 64)) ↔
      0x400000 < kernelBase := by
  have hcreate : sample.threadCreate samplePlatform 1 0x400000 7 (some 2) 4096 =
      some (some 2, withEntry 0x400000) := rfl
  have hrun : Run (exec samplePlatform) (withEntry 0x400000) _ (beforeDispatch 0x400000) :=
    Run.of_defined postAndTick (by decide)
  have hstep : (beforeDispatch 0x400000).exec samplePlatform (.schedulerTick 64) =
      some (Run.next (exec samplePlatform) (beforeDispatch 0x400000) (.schedulerTick 64)) := rfl
  exact first_dispatch_iff hcreate (by decide) (by decide) (by decide) hrun
    (postAndTick_waits (.inl rfl)) hstep trivial trivial (by decide)

/-- A kernel entry: the thread starts with `useresp` where its return address
should be and `ss` where its argument should be. -/
theorem kernel_entry_misses : ∃ tr s s', Run (exec samplePlatform) (withEntry 0xC0200000) tr s ∧
    sample.threadCreate samplePlatform 1 0xC0200000 7 (some 2) 4096 =
      some (some 2, withEntry 0xC0200000) ∧
    (∀ e ∈ tr, Waits 2 4096 e) ∧ s.exec samplePlatform (.schedulerTick 64) = some s' ∧
    s'.currentThread = some 2 ∧ s'.cpu.eip = 0xC0200000 ∧ s'.mem s'.cpu.esp = 8184 ∧
    s'.mem (s'.cpu.esp + 4) = 0x10 ∧ ¬s'.StartsIn samplePlatform 0xC0200000 7 := by
  refine ⟨_, beforeDispatch 0xC0200000,
    Run.next (exec samplePlatform) (beforeDispatch 0xC0200000) (.schedulerTick 64),
    Run.of_defined postAndTick (by decide), rfl, postAndTick_waits (.inr rfl), rfl, by decide,
    by decide, by decide, by decide, ?_⟩
  rintro ⟨-, hreturn, -⟩
  exact absurd hreturn (by decide)

end Kernel

end Leenix
