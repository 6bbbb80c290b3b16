import Mathlib.Order.CompletePartialOrder
import Leenix.Proc.Entry
import Leenix.Proc.Coherence

/-!
# The stack a trap is taken on

A thread has one block of 4096 bytes. `thread_create` starts its user stack eight
bytes below the end of the block, and `scheduler_switch` makes the end of the block
the stack of the traps that the thread takes in ring 3.

- `StackKept.exec`: whatever is called, a live thread keeps its block, and `esp0` is
  the end of it while the thread is the current one.
- `pushed_live`: so the first byte that a trap pushes is the last one of the
  argument of the thread's entry function, however deep the user stack is.
- `run_not_trapsSafe`: no thread with a user entry keeps its stack through a trap.
-/

namespace Leenix

namespace Kernel

variable {P : Platform} {s s' s'' : Kernel} {t p : Ptr} {op : Op} {tr : List (Edge Kernel Op)}

/-- The stack block of each live thread. -/
def stackOf (s : Kernel) : Ptr → Option Nat := proj Thread.kernel s.threads

/-- The thread keeps its block as long as it lives, and neither the current thread
nor its trap stack changes. -/
structure StackKept (t : Ptr) (s s' : Kernel) : Prop where
  stack : s'.stackOf t = s.stackOf t ∨ s'.stackOf t = none
  esp0 : s'.esp0 = s.esp0
  currentThread : s'.currentThread = s.currentThread

theorem StackKept.trans (h : StackKept t s s') (h' : StackKept t s' s'') : StackKept t s s'' where
  stack := by
    rcases h'.stack with hsame | hgone
    · rw [hsame]
      exact h.stack
    · exact .inr hgone
  esp0 := h'.esp0.trans h.esp0
  currentThread := h'.currentThread.trans h.currentThread

theorem StackKept.of_calm (t : Ptr) (h : Calm s s') (hesp : s'.esp0 = s.esp0) :
    StackKept t s s' where
  stack := by
    have hstack : ∀ s : Kernel, s.stackOf t = (s.frame t).map fun f => f.2.1 := by
      intro s
      rw [frame, proj_map]
      rfl
    rcases h.frames t with hsame | hgone
    · exact .inl (by rw [hstack, hstack, hsame])
    · exact .inr (by rw [hstack, hgone]; rfl)
  esp0 := hesp
  currentThread := h.currentThread

theorem StackKept.of_eq (hthreads : s'.threads = s.threads) (hesp : s'.esp0 = s.esp0)
    (hcur : s'.currentThread = s.currentThread) : StackKept t s s' :=
  ⟨.inl (by rw [stackOf, stackOf, hthreads]), hesp, hcur⟩

/-- A store to a live thread that keeps its block. -/
theorem StackKept.insertThread {c : Ptr} {th : Thread} (th' : Thread)
    (hth : s.threads.lookup c = some th) (hkernel : th'.kernel = th.kernel) :
    StackKept t s { s with threads := s.threads.insert c th' } := by
  refine ⟨.inl ?_, rfl, rfl⟩
  show proj _ (s.threads.insert c th') t = _
  rw [proj_insert, hkernel]
  by_cases htc : t = c
  · subst htc
    simp [stackOf, proj, hth]
  · simp [stackOf, htc]

/-- The scheduler's stores. -/
theorem StackKept.of_stores (h : Stores s s') : StackKept t s s' := by
  have hkept := ContextKept.of_stores h
  refine ⟨?_, hkept.esp0, hkept.currentThread⟩
  induction h with
  | refl => exact .inl rfl
  | tail hstores hstore ih =>
    have ih := ih (.of_stores hstores)
    have hlast : ∀ {m m' : Kernel} {x : Ptr} {f : Thread → Thread}, m.updateThread x f = some m' →
        (∀ th, (f th).kernel = th.kernel) → m'.stackOf t = m.stackOf t := by
      intro m m' x f h hf
      obtain ⟨th, hth, rfl⟩ := Option.map_eq_some_iff.mp h
      rcases (StackKept.insertThread (t := t) (f th) hth (hf th)).stack with hsame | hgone
      · exact hsame
      · by_cases htx : t = x
        · subst htx
          simp [stackOf] at hgone
        · simp [stackOf, htx]
    cases hstore with
    | flag => exact ih
    | queue => exact ih
    | queueTail => exact ih
    | link h =>
      rw [hlast h fun _ => rfl]
      exact ih
    | state h =>
      rw [hlast h fun _ => rfl]
      exact ih

/-! ## Creation and destruction -/

theorem unlinkThread_esp0 (h : s.unlinkThread t = some s') : s'.esp0 = s.esp0 := by
  rcases unlinkThread_cases h with rfl | ⟨p, next, h⟩ | ⟨prev, next, h⟩
  · rfl
  · obtain ⟨pr, -, rfl⟩ := Option.map_eq_some_iff.mp h
    rfl
  · obtain ⟨th, -, rfl⟩ := Option.map_eq_some_iff.mp h
    rfl

theorem threadDestroy_esp0 {thread : Option Ptr} {r : Int}
    (h : s.threadDestroy thread = some (r, s')) : s'.esp0 = s.esp0 := by
  rcases threadDestroy_cases h with ⟨-, rfl⟩ | ⟨-, t, s₁, s₂, -, hs₁, hs₂, rfl⟩
  · rfl
  · have hready : s₁.esp0 = s.esp0 := (ContextKept.of_stores (unlinkReady_stores hs₁)).esp0
    have hthread : s₂.esp0 = s₁.esp0 := unlinkThread_esp0 hs₂
    exact hthread.trans hready

theorem destroyThreads_esp0 {n : Nat} {thread : Option Ptr}
    (h : s.destroyThreads n thread = some s') : s'.esp0 = s.esp0 :=
  destroyThreads_keeps (R := fun s s' => s'.esp0 = s.esp0) (fun _ => rfl)
    (fun h h' => h'.trans h) threadDestroy_esp0 h

theorem processDestroy_esp0 (h : s.processDestroy P p = some s') : s'.esp0 = s.esp0 := by
  obtain ⟨pr, -, ⟨-, rfl⟩ | ⟨-, n, s₁, vm, hs₁, rfl⟩⟩ := processDestroy_cases h
  · rfl
  · have hdestroyed := destroyThreads_esp0 hs₁
    exact hdestroyed

theorem StackKept.processCreate {name : List Byte} {priority : Nat}
    (h : s.processCreate P p name priority = some s') : StackKept t s s' := by
  refine .of_calm t (calm_processCreate h) ?_
  obtain ⟨d, vm, vm', -, -, rfl⟩ := processCreate_eq_some h
  rfl

theorem StackKept.updateProcess {f : Process → Process} (h : s.updateProcess p f = some s') :
    StackKept t s s' := by
  obtain ⟨pr, -, rfl⟩ := Option.map_eq_some_iff.mp h
  exact .of_eq rfl rfl rfl

/-- A new thread leaves the blocks of the others alone. -/
theorem StackKept.threadCreate {entry arg stack : Nat} {thread r : Option Ptr}
    (hne : ∀ t' ∈ thread, t' ≠ t) (h : s.threadCreate P p entry arg thread stack = some (r, s')) :
    StackKept t s s' := by
  obtain ⟨t', rfl, ⟨-, -, rfl⟩ | ⟨-, -, pr, -, rfl⟩⟩ := threadCreate_eq_some h
  · exact .of_eq rfl rfl rfl
  · refine ⟨.inl ?_, rfl, rfl⟩
    have htt : t ≠ t' := (hne t' rfl).symm
    simp [stackOf, htt]

theorem StackKept.processSpawn {openFile : List Byte → Option File} {filename : List Byte}
    {alloc : Alloc} {junk : StackJunk} {r : Int} (hne : ∀ t' ∈ alloc.thread, t' ≠ t)
    (h : s.processSpawn P openFile filename alloc junk = some (r, s')) : StackKept t s s' := by
  obtain ⟨p, s₁, pr, result, entry, vm, -, hs₁, -, -, ⟨-, -, hdestroy⟩ |
    ⟨-, e, t', s₂, s₃, pr', -, hs₂, hs₃, hpost, -, -⟩⟩ := processSpawn_cases h
  all_goals
    have hloaded : StackKept t s { s₁ with vm := vm } :=
      (StackKept.processCreate hs₁).trans (.of_eq rfl rfl rfl)
  · exact hloaded.trans (.of_calm t (calm_processDestroy hdestroy) (processDestroy_esp0 hdestroy))
  · exact ((hloaded.trans (.threadCreate hne hs₂)).trans (.updateProcess hs₃)).trans
      (.of_stores (schedulerPost_stores hpost))

theorem StackKept.processFork {alloc : Alloc} {r : Int} (hne : ∀ t' ∈ alloc.thread, t' ≠ t)
    (h : s.processFork P alloc = some (r, s')) : StackKept t s s' := by
  rcases processFork_cases h with ⟨-, rfl⟩ | ⟨pp, c, par, ppr, p, s₁, pr, -, -, -, -, -, hs₁, hpr,
    hcases⟩
  · exact .of_eq rfl rfl rfl
  have hcli : StackKept t s s.cli := .of_eq rfl rfl rfl
  have hcreated : StackKept t s s₁ := hcli.trans (.processCreate hs₁)
  rcases hcases with ⟨-, -, vm, rfl⟩ | ⟨dir, vm, s₂, main, s₃, -, rfl, hs₃, hcases⟩
  · exact hcreated.trans (.of_eq rfl rfl rfl)
  have hnone : pr.threads = none := processCreate_threads hs₁ hpr
  obtain ⟨s₄, hs₄, hset⟩ := getMainThread_cases { pr with dir := some dir }
    (Finmap.lookup_insert _) hnone hs₃
  have hchild : StackKept t s { s₁ with
      vm := vm, procs := s₁.procs.insert p { pr with dir := some dir } } :=
    hcreated.trans (.of_eq rfl rfl rfl)
  have hmain : StackKept t s s₃ := (hchild.trans (.threadCreate hne hs₄)).trans (.updateProcess hset)
  rcases hcases with ⟨-, -, vm', rfl⟩ | ⟨t', ch, s₅, pr', -, -, hpost, -, -, rfl⟩
  · exact hmain.trans (.of_eq rfl rfl rfl)
  · have hcopy : StackKept t s₃
        { s₃ with mem := copyTrapFrame s₃.mem ch.trapFrame par.trapFrame } := .of_eq rfl rfl rfl
    exact ((hmain.trans hcopy).trans (.of_stores (schedulerPost_stores hpost))).trans
      (.of_eq rfl rfl rfl)

/-! ## The trap stack of the current thread -/

/-- The thread lives on the block `stack`, and its traps use it. -/
structure OnStack (t : Ptr) (stack : Nat) (s : Kernel) : Prop where
  block : s.stackOf t = some stack ∨ s.stackOf t = none
  trap : s.currentThread = some t → s.esp0 = u32 (stack + 4 * 1024)

theorem OnStack.kept {stack : Nat} (h : OnStack t stack s) (hkept : StackKept t s s') :
    OnStack t stack s' where
  block := by
    rcases hkept.stack with hsame | hgone
    · rw [hsame]
      exact h.block
    · exact .inr hgone
  trap hc := by
    rw [hkept.esp0]
    exact h.trap (hkept.currentThread.symm.trans hc)

/-- A switch to the thread installs the end of its block. -/
theorem OnStack.switch {stack : Nat} {n : Ptr} (h : OnStack t stack s) (hstack : stack ≠ 0)
    (hs : s.schedulerSwitch P (some n) = some s') : OnStack t stack s' := by
  rcases schedulerSwitch_eq_some hs with ⟨-, rfl⟩ | ⟨c, cur, th, vm, -, -, -, hth, -, rfl⟩
  · exact h
  · have hkept : StackKept t s _ := .insertThread { th with state := .running } hth rfl
    refine ⟨?_, fun hn => ?_⟩
    · rcases hkept.stack with hsame | hgone
      · exact h.block.imp hsame.trans hsame.trans
      · exact .inr hgone
    · obtain rfl := Option.some.inj hn
      have hkernel : th.kernel = stack := by
        rcases h.block with hblock | hblock
        · simpa [stackOf, proj, hth] using hblock
        · simp [stackOf, proj, hth] at hblock
      show (if th.kernel = 0 then s.esp0 else u32 (th.kernel + 4 * 1024)) = _
      rw [hkernel, if_neg hstack]

/-- **Step lemma**: every call keeps a live thread on its block. -/
theorem OnStack.exec {stack : Nat} (h : OnStack t stack s) (hstack : stack ≠ 0)
    (hlive : s.threads.lookup t ≠ none) (hstep : s.exec P op = some s') (hallowed : s.Allowed op) :
    OnStack t stack s' := by
  obtain ⟨-, hcall⟩ := exec_eq_some.mp hstep
  have hother : ∀ {thread : Option Ptr}, (∀ t' ∈ thread, s.threads.lookup t' = none) →
      ∀ t' ∈ thread, t' ≠ t := by
    rintro thread hfresh t' ht' rfl
    exact hlive (hfresh t' ht')
  cases op with
  | processCreate p name priority => exact h.kept (.processCreate hcall)
  | processDestroy p =>
    exact h.kept (.of_calm t (calm_processDestroy hcall) (processDestroy_esp0 hcall))
  | processSpawn openFile filename alloc junk =>
    obtain ⟨⟨r, s₁⟩, hspawn, rfl⟩ := Option.map_eq_some_iff.mp hcall
    exact h.kept (.processSpawn (hother hallowed.2.1) hspawn)
  | processFork alloc =>
    obtain ⟨⟨r, s₁⟩, hfork, rfl⟩ := Option.map_eq_some_iff.mp hcall
    exact h.kept (.processFork (hother hallowed.2.1) hfork)
  | threadCreate p entry arg thread newStack =>
    obtain ⟨⟨r, s₁⟩, hcreate, rfl⟩ := Option.map_eq_some_iff.mp hcall
    exact h.kept (.threadCreate (hother hallowed.1) hcreate)
  | threadDestroy thread =>
    obtain ⟨⟨r, s₁⟩, hdestroy, rfl⟩ := Option.map_eq_some_iff.mp hcall
    exact h.kept (.of_calm t (calm_threadDestroy hdestroy) (threadDestroy_esp0 hdestroy))
  | schedulerPost thread => exact h.kept (.of_stores (schedulerPost_stores hcall))
  | schedulerTick context =>
    obtain ⟨c, th, hc, hth, hcases⟩ := schedulerTick_cases hcall
    have h₁ : OnStack t stack { s with ints := false } := h.kept (.of_eq rfl rfl rfl)
    rcases hcases with ⟨-, rfl⟩ | ⟨-, s₂, r, s₃, hpost, htake, hend⟩
    · exact h₁.kept (.insertThread _ hth rfl)
    · have h₃ : OnStack t stack s₃ :=
        (h₁.kept (.insertThread { th with trapFrame := context, timeSlice := slice } hth rfl)).kept
          (.of_stores ((schedulerPost_stores hpost).trans (takeReady_stores htake)))
      rcases hend with ⟨-, rfl⟩ | ⟨n, -, hswitch⟩
      · exact h₃
      · have h₄ : OnStack t stack s₃.cli := h₃.kept (.of_eq rfl rfl rfl)
        exact h₄.switch hstack hswitch
  | threadExit =>
    obtain ⟨c, th, r, s₂, hc, hth, htake, hend⟩ := threadExit_cases hcall
    have h₁ : OnStack t stack { s with ints := false } := h.kept (.of_eq rfl rfl rfl)
    have h₂ : OnStack t stack s₂ := (h₁.kept (.insertThread { th with state := .terminated } hth rfl)).kept
      (.of_stores (takeReady_stores htake))
    rcases hend with ⟨-, rfl⟩ | ⟨n, -, hswitch⟩
    · exact h₂.kept (.of_eq rfl rfl rfl)
    · exact h₂.switch hstack hswitch
  | work mem ints vm =>
    obtain rfl := Option.some.inj hcall
    exact h.kept (.of_eq rfl rfl rfl)

/-! ## Traps from ring 3 -/

/-- The addresses of the bytes that a trap pushes, downward from `esp0`: one
`interrupt_context_t`. -/
def pushedBytes (esp0 : Nat) : Set Nat :=
  {x | ∃ k, k < InterruptContext.size ∧ x = u32 (esp0 + 2 ^ 32 - (k + 1))}

/-- The addresses of the user stack in use: from the stack pointer up to the
argument, the word above the return address that `useresp` pointed to at first. -/
def liveStack (useresp esp : Nat) : Set Nat :=
  {x | ∃ a, esp ≤ a ∧ a < useresp + 8 ∧ x = u32 a}

/-- A trap from ring 3 with stack pointer `esp` pushes nothing over the user stack in
use, and that stack started at a user address. -/
def TrapSafe (s : Kernel) (useresp esp : Nat) : Prop :=
  Disjoint (pushedBytes s.esp0) (liveStack useresp esp) ∧ useresp < kernelBase

/-- The first byte that is pushed is the last one of the argument. -/
theorem pushed_live {stack esp : Nat} (hesp : esp ≤ stack + 4 * 1024 - 8) :
    u32 (stack + 4095) ∈ pushedBytes (u32 (stack + 4 * 1024)) ∧
      u32 (stack + 4095) ∈ liveStack (stack + 4 * 1024 - 8) esp := by
  constructor
  · refine ⟨0, by decide, ?_⟩
    simp only [u32]
    omega
  · exact ⟨stack + 4095, by omega, by omega, rfl⟩

variable {entry arg stack : Nat} {thread : Option Ptr} {th : Thread} {s₁ s₂ : Kernel}

/-- **Trap stack.** Let a thread be created with an entry function. Whenever it is the
current thread later on, a trap from ring 3 destroys its user stack, at every depth of
that stack. -/
theorem run_not_trapSafe
    (hcreate : s.threadCreate P p entry arg thread stack = some (some t, s₁)) (hentry : entry ≠ 0)
    (hcur : s.currentThread ≠ some t) (hth : s₁.threads.lookup t = some th)
    (hrun : Run (exec P) s₁ tr s₂)
    (hok : ∀ e ∈ tr, e.pre.Allowed e.op ∧ e.post.threads.lookup t ≠ none)
    (hdispatched : s₂.currentThread = some t) {esp : Nat}
    (hesp : esp ≤ (InterruptContext.load s₁.mem th.trapFrame).useresp) :
    ¬s₂.TrapSafe (InterruptContext.load s₁.mem th.trapFrame).useresp esp := by
  obtain ⟨t', rfl, ⟨-, hnone, -⟩ | ⟨hstack, ht, pr, -, rfl⟩⟩ := threadCreate_eq_some hcreate
  · cases hnone
  obtain rfl := Option.some.inj ht
  rw [Finmap.lookup_insert] at hth
  obtain rfl := Option.some.inj hth
  -- the stack pointer that the new thread starts with
  have huseresp : (InterruptContext.load (threadStack P s.mem entry arg stack)
      (threadStackTop entry stack - InterruptContext.size)).useresp = stack + 4 * 1024 - 8 := by
    rw [load_threadStack, threadStackTop_of_ne stack hentry]
    unfold threadContext
    split <;> rfl
  obtain ⟨hon, -⟩ := hrun.invariant
    (P := fun s => OnStack t stack s ∧ s.threads.lookup t ≠ none) hok
    ⟨⟨.inl (by simp [stackOf, newThread]), fun hc => absurd hc hcur⟩, by simp⟩
    (by
      rintro u op u' ⟨h, hlive⟩ hstep ⟨hallowed, hlive'⟩
      exact ⟨h.exec hstack hlive hstep hallowed, hlive'⟩)
  rintro ⟨hdisjoint, -⟩
  simp only [newThread] at hesp hdisjoint
  rw [huseresp] at hesp hdisjoint
  rw [hon.trap hdispatched] at hdisjoint
  obtain ⟨hpushed, hlive⟩ := pushed_live hesp
  exact Set.disjoint_left.mp hdisjoint hpushed hlive

/-- The state after the tick that dispatches a thread with entry function `0x400000`. -/
def firstTrap : Kernel :=
  Run.next (exec samplePlatform) (beforeDispatch 0x400000) (.schedulerTick 64)

/-- A thread at the start of its entry function. -/
theorem run_not_trapSafe_first : ¬firstTrap.TrapSafe 8184 8184 := by
  have hcreate : sample.threadCreate samplePlatform 1 0x400000 7 (some 2) 4096 =
      some (some 2, withEntry 0x400000) := rfl
  have hstep : (beforeDispatch 0x400000).exec samplePlatform (.schedulerTick 64) =
      some firstTrap := rfl
  have hrun : Run (exec samplePlatform) (withEntry 0x400000) _ firstTrap :=
    (Run.of_defined postAndTick (by decide)).snoc hstep
  refine run_not_trapSafe hcreate (by decide) (by decide) rfl hrun ?_ (by decide) (Nat.le_refl _)
  intro e he
  rcases List.mem_append.mp he with he | he
  · obtain ⟨hallowed, -, hlive, -⟩ := postAndTick_waits (.inl rfl) e he
    exact ⟨hallowed, hlive⟩
  · obtain rfl := List.mem_singleton.mp he
    exact ⟨trivial, by decide⟩

/-- It runs in ring 3 with its stack pointer at `8184`, and its traps push from
`8192` downward: over its argument and its return address. -/
theorem trap_overwrites_argument : firstTrap.currentThread = some 2 ∧ firstTrap.cpu.cs % 4 = 3 ∧
    firstTrap.cpu.esp = 8184 ∧ firstTrap.mem 8188 = 7 ∧ firstTrap.esp0 = 8192 ∧
    8188 ∈ pushedBytes firstTrap.esp0 ∧ 8188 ∈ liveStack 8184 8184 ∧
    ¬firstTrap.TrapSafe 8184 8184 := by
  have hesp0 : firstTrap.esp0 = 8192 := by decide
  have hpushed : 8188 ∈ pushedBytes firstTrap.esp0 := by
    rw [hesp0]
    exact ⟨3, by decide, by decide⟩
  have hlive : 8188 ∈ liveStack 8184 8184 := ⟨8188, by decide, by decide, by decide⟩
  refine ⟨by decide, by decide, by decide, by decide, hesp0, hpushed, hlive, fun hsafe => ?_⟩
  exact Set.disjoint_left.mp hsafe.1 hpushed hlive

end Kernel

end Leenix
