import Mathlib.Logic.Relation
import Leenix.Proc.System

/-!
# What the functions can touch

Frame facts that hold of the functions of process.c in any state whatsoever,
with no invariant assumed: `Calm` says that a call logs no unprotected store to
a ready-queue cell, and leaves memory, the current thread and the trap frames of
the surviving threads alone.

Only four functions are not calm. The dispatch loop logs its two stores with
whatever flag it is entered with (`takeReady_cases`); `scheduler_switch` changes
the current thread (`schedulerSwitch_cases`); `thread_create` writes its new
stack; and `scheduler_tick` stores the trap frame of the current thread.
-/

namespace Leenix

namespace Kernel

variable {P : Platform} {s s' s'' : Kernel} {t p : Ptr}

/-- Process, stack block and trap frame of each live thread. -/
def frame (s : Kernel) : Ptr → Option (Option Ptr × Nat × Nat) :=
  proj (fun th => (th.parent, th.kernel, th.trapFrame)) s.threads

theorem frame_eq_none : s.frame t = none ↔ s.threads.lookup t = none := by
  simp [frame, proj]

theorem frame_of_lookup {th : Thread} (h : s.threads.lookup t = some th) :
    s.frame t = some (th.parent, th.kernel, th.trapFrame) := by
  simp [frame, proj, h]

/-- From `s` to `s'`, every store to a ready-queue cell was made with interrupts
disabled. -/
def Guarded (s s' : Kernel) : Prop :=
  ∃ ws, s'.writes = ws ++ s.writes ∧ ∀ w ∈ ws, w.interruptsOff = true

theorem Guarded.of_eq (h : s'.writes = s.writes) : Guarded s s' := ⟨[], h, by simp⟩

theorem Guarded.trans (h : Guarded s s') (h' : Guarded s' s'') : Guarded s s'' := by
  obtain ⟨ws, hws, hok⟩ := h
  obtain ⟨ws', hws', hok'⟩ := h'
  refine ⟨ws' ++ ws, by rw [hws', hws, List.append_assoc], fun w hw => ?_⟩
  rcases List.mem_append.mp hw with hw | hw
  · exact hok' w hw
  · exact hok w hw

/-- The call logs protected stores only, and leaves alone what a waiting thread
needs. -/
structure Calm (s s' : Kernel) : Prop where
  guarded : Guarded s s'
  frames : ∀ t, s'.frame t = s.frame t ∨ s'.frame t = none
  mem : s'.mem = s.mem
  currentThread : s'.currentThread = s.currentThread

theorem Calm.trans (h : Calm s s') (h' : Calm s' s'') : Calm s s'' where
  guarded := h.guarded.trans h'.guarded
  frames t := by
    rcases h'.frames t with hf' | hf'
    · rw [hf']
      exact h.frames t
    · exact .inr hf'
  mem := h'.mem.trans h.mem
  currentThread := h'.currentThread.trans h.currentThread

/-- A call that keeps the log, the threads, the memory and the current thread. -/
theorem Calm.of_eq (hwrites : s'.writes = s.writes) (hthreads : s'.threads = s.threads)
    (hmem : s'.mem = s.mem) (hcur : s'.currentThread = s.currentThread) : Calm s s' :=
  ⟨.of_eq hwrites, fun _ => .inl (by simp only [frame, hthreads]), hmem, hcur⟩

/-! ## The stores -/

theorem calm_updateThread {f : Thread → Thread} (h : s.updateThread t f = some s')
    (hf : ∀ th, (f th).parent = th.parent ∧ (f th).kernel = th.kernel ∧
      (f th).trapFrame = th.trapFrame) : Calm s s' ∧ s'.ints = s.ints ∧ s'.queue = s.queue := by
  obtain ⟨th, hth, rfl⟩ := Option.map_eq_some_iff.mp h
  refine ⟨⟨.of_eq rfl, fun x => .inl ?_, rfl, rfl⟩, rfl, rfl⟩
  by_cases hx : x = t
  · subst hx
    obtain ⟨h₁, h₂, h₃⟩ := hf th
    simp [frame, proj, hth, h₁, h₂, h₃]
  · simp [frame, hx]

theorem calm_updateProcess {f : Process → Process} (h : s.updateProcess p f = some s') :
    Calm s s' := by
  obtain ⟨pr, -, rfl⟩ := Option.map_eq_some_iff.mp h
  exact .of_eq rfl rfl rfl rfl

theorem calm_logWrite (c : QueueCell) (hints : s.ints = false) : Calm s (s.logWrite c) :=
  ⟨⟨[⟨c, true⟩], by simp [logWrite, hints], by simp⟩, fun _ => .inl rfl, rfl, rfl⟩

theorem calm_setQueue (i : Nat) (v : Option Ptr) (hints : s.ints = false) : Calm s (s.setQueue i v) :=
  (calm_logWrite (.queue i) hints).trans (.of_eq rfl rfl rfl rfl)

theorem calm_setQueueTail (i : Nat) (v : Option Ptr) (hints : s.ints = false) :
    Calm s (s.setQueueTail i v) :=
  (calm_logWrite (.queueTail i) hints).trans (.of_eq rfl rfl rfl rfl)

theorem calm_setNextReady {v : Option Ptr} (hints : s.ints = false)
    (h : s.setNextReady t v = some s') : Calm s s' ∧ s'.ints = false ∧ s'.queue = s.queue := by
  obtain ⟨hcalm, hi, hq⟩ := calm_updateThread h fun _ => ⟨rfl, rfl, rfl⟩
  exact ⟨(calm_logWrite (.nextReady t) hints).trans hcalm, hi.trans hints, hq⟩

theorem calm_cli (s : Kernel) : Calm s s.cli := .of_eq rfl rfl rfl rfl

theorem calm_sti (s : Kernel) : Calm s s.sti := .of_eq rfl rfl rfl rfl

/-! ## Sequences of stores -/

/-- One store of the scheduler: to the interrupt flag, to a cell of a queue, or to
the state of a thread. -/
inductive Store : Kernel → Kernel → Prop
  | flag (s : Kernel) (ints : Bool) : Store s { s with ints := ints }
  | queue (s : Kernel) (i : Nat) (v : Option Ptr) : Store s (s.setQueue i v)
  | queueTail (s : Kernel) (i : Nat) (v : Option Ptr) : Store s (s.setQueueTail i v)
  | link {s s' : Kernel} {t : Ptr} {v : Option Ptr} : s.setNextReady t v = some s' → Store s s'
  | state {s s' : Kernel} {t : Ptr} {st : RunState} :
      s.updateThread t (fun th => { th with state := st }) = some s' → Store s s'

/-- Such stores one after the other. What each of them keeps, the sequence keeps. -/
abbrev Stores : Kernel → Kernel → Prop := Relation.ReflTransGen Store

/-- The scheduler's stores leave the processes and the address spaces alone. -/
theorem Stores.same (h : Stores s s') :
    s'.procs = s.procs ∧ s'.processTable = s.processTable ∧ s'.vm = s.vm := by
  induction h with
  | refl => exact ⟨rfl, rfl, rfl⟩
  | tail _ hstore ih =>
    cases hstore with
    | flag => exact ih
    | queue => exact ih
    | queueTail => exact ih
    | link h =>
      obtain ⟨th, -, rfl⟩ := Option.map_eq_some_iff.mp h
      exact ih
    | state h =>
      obtain ⟨th, -, rfl⟩ := Option.map_eq_some_iff.mp h
      exact ih

theorem schedulerPost_stores {thread : Option Ptr} (h : s.schedulerPost thread = some s') :
    Stores s s' := by
  have hcli : Stores s s.cli := .single (.flag s false)
  unfold schedulerPost at h
  cases thread with
  | none =>
    obtain rfl := Option.some.inj h
    exact hcli.tail (.flag _ true)
  | some t =>
    simp only [Option.bind_eq_bind, Option.bind_eq_some_iff] at h
    obtain ⟨th, hth, h⟩ := h
    by_cases hterm : th.state = .terminated
    · simp only [hterm, if_true] at h
      obtain rfl := Option.some.inj h
      exact hcli.tail (.flag _ true)
    simp only [hterm, if_false, Option.bind_eq_some_iff] at h
    obtain ⟨s₁, hs₁, s₂, hs₂, h⟩ := h
    have hready : Stores s s₂ := (hcli.tail (.state hs₁)).tail (.link hs₂)
    split at h
    case isFalse => cases h
    case isTrue =>
      split at h
      case h_1 =>
        obtain rfl := Option.some.inj h
        exact ((hready.tail (.queue _ _ _)).tail (.queueTail _ _ _)).tail (.flag _ true)
      case h_2 =>
        simp only [Option.bind_eq_some_iff] at h
        obtain ⟨l, -, s₃, hs₃, h⟩ := h
        obtain rfl := Option.some.inj h
        exact ((hready.tail (.link hs₃)).tail (.queueTail _ _ _)).tail (.flag _ true)

theorem takeReady_stores {n : Nat} {r : Option Ptr} (h : s.takeReady n = some (r, s')) :
    Stores s s' := by
  induction n with
  | zero =>
    obtain rfl := (Prod.mk.inj (Option.some.inj h)).2
    exact .refl
  | succ n ih =>
    rw [takeReady] at h
    cases hq : s.queue n with
    | none => exact ih (by simpa only [hq] using h)
    | some t =>
      simp only [hq, Option.bind_eq_bind, Option.bind_eq_some_iff] at h
      obtain ⟨th, -, s₁, hs₁, h⟩ := h
      obtain rfl := (Prod.mk.inj (Option.some.inj h)).2
      exact (Relation.ReflTransGen.single (.queue s n th.nextReady)).tail (.link hs₁)

theorem unlinkReady_stores (h : s.unlinkReady t = some s') : Stores s s' := by
  simp only [unlinkReady, Option.bind_eq_bind, Option.bind_eq_some_iff] at h
  obtain ⟨th, -, h⟩ := h
  split at h
  case isFalse => cases h
  case isTrue =>
    split at h
    case isTrue =>
      obtain rfl := Option.some.inj h
      exact .single (.queue _ _ _)
    case isFalse =>
      simp only [Option.bind_eq_some_iff] at h
      obtain ⟨⟨prev, found⟩, -, h⟩ := h
      cases found with
      | none =>
        obtain rfl := Option.some.inj h
        exact .refl
      | some _ =>
        simp only [Option.bind_eq_some_iff] at h
        obtain ⟨q, -, h⟩ := h
        exact .single (.link h)

/-! ## `scheduler_post` -/

/-- A post stores under `cli`, enables interrupts at its end, and leaves the
queue of a thread that is not terminated nonempty. -/
theorem schedulerPost_cases {thread : Option Ptr} (h : s.schedulerPost thread = some s') :
    Calm s s' ∧ s'.ints = true ∧
      ((∀ t th, thread = some t → s.threads.lookup t = some th → th.state = .terminated) ∧
          s'.queue = s.queue ∨
        ∃ t th, thread = some t ∧ s.threads.lookup t = some th ∧ th.state ≠ .terminated ∧
          th.priority ≤ processPriMax ∧ s'.queue th.priority ≠ none ∧
          ∀ i, i ≠ th.priority → s'.queue i = s.queue i) := by
  unfold schedulerPost at h
  cases thread with
  | none =>
    obtain rfl := Option.some.inj h
    exact ⟨(calm_cli s).trans (calm_sti _), rfl, .inl ⟨fun _ _ ht => (nomatch ht), rfl⟩⟩
  | some t =>
    simp only [Option.bind_eq_bind, Option.bind_eq_some_iff] at h
    obtain ⟨th, hth, h⟩ := h
    replace hth : s.threads.lookup t = some th := hth
    by_cases hterm : th.state = .terminated
    · simp only [hterm, if_true] at h
      obtain rfl := Option.some.inj h
      refine ⟨(calm_cli s).trans (calm_sti _), rfl, .inl ⟨fun t' th' ht' hth' => ?_, rfl⟩⟩
      obtain rfl := Option.some.inj ht'
      exact Option.some.inj (hth.symm.trans hth') ▸ hterm
    · simp only [hterm, if_false, Option.bind_eq_some_iff] at h
      obtain ⟨s₁, hs₁, s₂, hs₂, h⟩ := h
      obtain ⟨hcalm₁, hints₁, hqueue₁⟩ := calm_updateThread hs₁ fun _ => ⟨rfl, rfl, rfl⟩
      obtain ⟨hcalm₂, hints₂, hqueue₂⟩ := calm_setNextReady hints₁ hs₂
      have hcalm := ((calm_cli s).trans hcalm₁).trans hcalm₂
      have hqueue : s₂.queue = s.queue := hqueue₂.trans hqueue₁
      by_cases hprio : th.priority ≤ processPriMax
      · simp only [hprio, if_true] at h
        split at h
        case h_1 hnil =>
          obtain rfl := Option.some.inj h
          refine ⟨((hcalm.trans (calm_setQueue _ _ hints₂)).trans
            (calm_setQueueTail _ _ hints₂)).trans (calm_sti _), rfl,
            .inr ⟨t, th, rfl, hth, hterm, hprio, ?_, fun i hi => ?_⟩⟩
          · simp [sti, setQueueTail, setQueue, logWrite]
          · simp [sti, setQueueTail, setQueue, logWrite, hi, hqueue]
        case h_2 x hcons =>
          simp only [Option.bind_eq_some_iff] at h
          obtain ⟨l, -, s₃, hs₃, h⟩ := h
          obtain ⟨hcalm₃, hints₃, hqueue₃⟩ := calm_setNextReady hints₂ hs₃
          obtain rfl := Option.some.inj h
          refine ⟨((hcalm.trans hcalm₃).trans (calm_setQueueTail _ _ hints₃)).trans (calm_sti _), rfl,
            .inr ⟨t, th, rfl, hth, hterm, hprio, ?_, fun i _ => ?_⟩⟩
          · simp [sti, setQueueTail, logWrite, hqueue₃, hcons]
          · simp [sti, setQueueTail, logWrite, hqueue₃, hqueue]
      · simp [hprio] at h

/-! ## The dispatch loop and the switch -/

/-- The loop finds every queue below index `n` empty and changes nothing, or it
makes two stores, to a queue head and to the link of the thread it takes. -/
theorem takeReady_cases {n : Nat} {r : Option Ptr} (h : s.takeReady n = some (r, s')) :
    (r = none ∧ s' = s ∧ ∀ i, i < n → s.queue i = none) ∨
    ∃ i t th, i < n ∧ s.queue i = some t ∧ r = some t ∧ s.threads.lookup t = some th ∧
      s' = { s with
        threads := s.threads.insert t { th with nextReady := none }
        queue := Function.update s.queue i th.nextReady
        writes := ⟨.nextReady t, !s.ints⟩ :: ⟨.queue i, !s.ints⟩ :: s.writes } := by
  induction n with
  | zero =>
    simp only [takeReady, Option.some.injEq, Prod.mk.injEq] at h
    exact .inl ⟨h.1.symm, h.2.symm, fun i hi => absurd hi (Nat.not_lt_zero i)⟩
  | succ n ih =>
    rw [takeReady] at h
    cases hq : s.queue n with
    | none =>
      simp only [hq] at h
      rcases ih h with ⟨hr, hs, hempty⟩ | ⟨i, t, th, hi, hrest⟩
      · refine .inl ⟨hr, hs, fun i hi => ?_⟩
        rcases Nat.lt_succ_iff_lt_or_eq.mp hi with hi | rfl
        · exact hempty i hi
        · exact hq
      · exact .inr ⟨i, t, th, Nat.lt_succ_of_lt hi, hrest⟩
    | some t =>
      simp only [hq, Option.bind_eq_bind, Option.bind_eq_some_iff] at h
      obtain ⟨th, hth, s₁, hs₁, h⟩ := h
      simp only [Option.pure_def, Option.some.injEq, Prod.mk.injEq] at h
      obtain ⟨rfl, rfl⟩ := h
      refine .inr ⟨n, t, th, Nat.lt_succ_self n, hq, rfl, hth, ?_⟩
      simp only [setNextReady, logWrite, setQueue, Kernel.updateThread, hth, Option.map_some,
        Option.some.injEq] at hs₁
      exact hs₁.symm

/-- Taking a thread out of its queue leaves memory, the current thread and all
trap frames alone. -/
theorem takeReady_frames {n : Nat} {r : Option Ptr} (h : s.takeReady n = some (r, s')) :
    s'.frame = s.frame ∧ s'.mem = s.mem ∧ s'.currentThread = s.currentThread := by
  rcases takeReady_cases h with ⟨-, rfl, -⟩ | ⟨i, t, th, -, -, -, hth, rfl⟩
  · exact ⟨rfl, rfl, rfl⟩
  · refine ⟨funext fun x => ?_, rfl, rfl⟩
    by_cases hx : x = t
    · subst hx
      simp [frame, proj, hth]
    · simp [frame, hx]

/-- A switch does nothing, or runs to its end. -/
theorem schedulerSwitch_eq_some {n : Ptr} (h : s.schedulerSwitch P (some n) = some s') :
    s.currentThread = some n ∧ s' = s ∨
    ∃ c cur th vm, s.currentThread = some c ∧ c ≠ n ∧ s.threads.lookup c = some cur ∧
      s.threads.lookup n = some th ∧ s.switchAddressSpace P cur.parent th.parent = some vm ∧
      s' = { s with
        threads := s.threads.insert n { th with state := .running }
        currentThread := some n
        currentProc := th.parent
        vm := vm
        esp0 := if th.kernel = 0 then s.esp0 else u32 (th.kernel + 4 * 1024)
        cpu := Cpu.resume s.mem th.trapFrame 0x10
        ints := decide ((Cpu.resume s.mem th.trapFrame 0x10).eflags / 512 % 2 = 1) } := by
  unfold schedulerSwitch at h
  by_cases hcur : s.currentThread = some n
  · simp only [hcur, if_true] at h
    exact .inl ⟨hcur, (Option.some.inj h).symm⟩
  · simp only [hcur, if_false, Option.bind_eq_bind, Option.bind_eq_some_iff] at h
    obtain ⟨th, hth, c, hc, cur, hcur', vm, hvm, s₁, hs₁, h⟩ := h
    obtain ⟨th', hth', rfl⟩ := Option.map_eq_some_iff.mp hs₁
    obtain rfl := Option.some.inj (hth.symm.trans hth')
    obtain rfl := Option.some.inj h
    exact .inr ⟨c, cur, th, vm, hc, fun heq => hcur (heq ▸ hc), hcur', hth, hvm, rfl⟩

/-- A switch does nothing, or resumes the new thread from its trap frame. -/
theorem schedulerSwitch_cases {n : Ptr} (h : s.schedulerSwitch P (some n) = some s') :
    s.currentThread = some n ∧ s' = s ∨
    ∃ th, s.currentThread ≠ some n ∧ s.threads.lookup n = some th ∧ s'.frame = s.frame ∧
      s'.mem = s.mem ∧ s'.writes = s.writes ∧ s'.currentThread = some n ∧
      s'.cpu = Cpu.resume s.mem th.trapFrame 0x10 := by
  rcases schedulerSwitch_eq_some h with hself | ⟨c, cur, th, vm, hc, hne, -, hth, -, rfl⟩
  · exact .inl hself
  · refine .inr ⟨th, fun hcur => hne (Option.some.inj (hc.symm.trans hcur)), hth, ?_, rfl, rfl,
      rfl, rfl⟩
    funext x
    by_cases hx : x = n
    · subst hx
      simp [frame, proj, hth]
    · simp [frame, hx]

/-- A tick counts the slice down, or posts the current thread, takes a thread
and switches to it. -/
theorem schedulerTick_cases {context : Nat} (h : s.schedulerTick P context = some s') :
    ∃ c th, s.currentThread = some c ∧ s.threads.lookup c = some th ∧
      (0 < sliceLeft th.timeSlice ∧ s' = { s with
          threads := s.threads.insert c
            { th with trapFrame := context, timeSlice := sliceLeft th.timeSlice } } ∨
        sliceLeft th.timeSlice = 0 ∧ ∃ s₂ r s₃, { s with
            threads := s.threads.insert c { th with trapFrame := context, timeSlice := slice }
          }.schedulerPost (some c) = some s₂ ∧
          s₂.takeReady processPriMax = some (r, s₃) ∧
          (r = none ∧ s' = s₃ ∨ ∃ n, r = some n ∧ s₃.cli.schedulerSwitch P (some n) = some s')) := by
  simp only [schedulerTick, Option.bind_eq_bind, Option.bind_eq_some_iff] at h
  obtain ⟨c, hc, th, hth, s₁, hs₁, h⟩ := h
  simp only [Kernel.updateThread, hth, Option.map_some, Option.some.injEq] at hs₁
  subst hs₁
  refine ⟨c, th, hc, hth, ?_⟩
  split at h
  case isTrue hleft =>
    exact .inl ⟨hleft, (Option.some.inj h).symm⟩
  case isFalse hleft =>
    simp only [Option.bind_eq_some_iff, Kernel.updateThread, Finmap.lookup_insert, Option.map_some,
      Finmap.insert_insert, Option.some.injEq] at h
    obtain ⟨s₁, rfl, s₂, hs₂, ⟨r, s₃⟩, hs₃, h⟩ := h
    refine .inr ⟨Nat.eq_zero_of_not_pos hleft, s₂, r, s₃, hs₂, hs₃, ?_⟩
    cases r with
    | none => exact .inl ⟨rfl, (Option.some.inj h).symm⟩
    | some n => exact .inr ⟨n, rfl, h⟩

/-- An exiting thread is marked, a thread is taken and switched to, or the
kernel halts. -/
theorem threadExit_cases (h : s.threadExit P = some s') :
    ∃ c th r s₂, s.currentThread = some c ∧ s.threads.lookup c = some th ∧
      { s with
          ints := false, threads := s.threads.insert c { th with state := .terminated }
        }.takeReady processPriMax = some (r, s₂) ∧
      (r = none ∧ s' = { s₂ with halted := true } ∨
        ∃ n, r = some n ∧ s₂.schedulerSwitch P (some n) = some s') := by
  simp only [threadExit, Option.bind_eq_bind, Option.bind_eq_some_iff] at h
  obtain ⟨c, hc, s₁, hs₁, ⟨r, s₂⟩, hs₂, h⟩ := h
  obtain ⟨th, hth, rfl⟩ := Option.map_eq_some_iff.mp hs₁
  refine ⟨c, th, r, s₂, hc, hth, hs₂, ?_⟩
  cases r with
  | none => exact .inl ⟨rfl, (Option.some.inj h).symm⟩
  | some n => exact .inr ⟨n, rfl, h⟩

/-! ## Destruction -/

theorem calm_unlinkReady (hints : s.ints = false) (h : s.unlinkReady t = some s') :
    Calm s s' ∧ s'.ints = false := by
  simp only [unlinkReady, Option.bind_eq_bind, Option.bind_eq_some_iff] at h
  obtain ⟨th, -, h⟩ := h
  split at h
  case isTrue hprio =>
    split at h
    case isTrue hhead =>
      obtain rfl := Option.some.inj h
      exact ⟨calm_setQueue _ _ hints, hints⟩
    case isFalse hhead =>
      simp only [Option.bind_eq_some_iff] at h
      obtain ⟨⟨prev, found⟩, -, h⟩ := h
      cases found with
      | none =>
        obtain rfl := Option.some.inj h
        exact ⟨.of_eq rfl rfl rfl rfl, hints⟩
      | some _ =>
        simp only [Option.bind_eq_some_iff] at h
        obtain ⟨q, -, h⟩ := h
        obtain ⟨hcalm, hints', -⟩ := calm_setNextReady hints h
        exact ⟨hcalm, hints'⟩
  case isFalse => cases h

theorem calm_unlinkThread (h : s.unlinkThread t = some s') : Calm s s' := by
  rcases unlinkThread_cases h with rfl | ⟨p, next, h⟩ | ⟨prev, next, h⟩
  · exact .of_eq rfl rfl rfl rfl
  · exact calm_updateProcess h
  · exact (calm_updateThread h fun _ => ⟨rfl, rfl, rfl⟩).1

theorem calm_threadDestroy {thread : Option Ptr} {r : Int}
    (h : s.threadDestroy thread = some (r, s')) : Calm s s' := by
  rcases threadDestroy_cases h with ⟨-, rfl⟩ | ⟨-, t, s₁, s₂, -, hs₁, hs₂, rfl⟩
  · exact (calm_cli s).trans (calm_sti _)
  · obtain ⟨hcalm₁, -⟩ := calm_unlinkReady rfl hs₁
    have hcalm₂ := ((calm_cli s).trans hcalm₁).trans (calm_unlinkThread hs₂)
    refine hcalm₂.trans ⟨.of_eq rfl, fun x => ?_, rfl, rfl⟩
    by_cases hx : x = t
    · exact .inr (by simp [sti, frame, hx])
    · exact .inl (by simp [sti, frame, hx])

theorem calm_destroyThreads {n : Nat} {thread : Option Ptr}
    (h : s.destroyThreads n thread = some s') : Calm s s' :=
  destroyThreads_keeps (fun _ => .of_eq rfl rfl rfl rfl) Calm.trans calm_threadDestroy h

theorem calm_processDestroy (h : s.processDestroy P p = some s') : Calm s s' := by
  obtain ⟨pr, -, ⟨-, rfl⟩ | ⟨-, n, s₁, vm, hs₁, rfl⟩⟩ := processDestroy_cases h
  · exact .of_eq rfl rfl rfl rfl
  · have hmarked : Calm s { s with
        procs := s.procs.insert p { pr with state := .terminated }
        processTable := tableRemove s.processTable p } := .of_eq rfl rfl rfl rfl
    exact (hmarked.trans (calm_destroyThreads hs₁)).trans (.of_eq rfl rfl rfl rfl)

/-! ## Creation -/

theorem calm_processCreate {name : List Byte} {priority : Nat}
    (h : s.processCreate P p name priority = some s') : Calm s s' := by
  obtain ⟨d, vm, vm', -, -, rfl⟩ := processCreate_eq_some h
  exact .of_eq rfl rfl rfl rfl

/-- `thread_create` logs nothing. With a stack, it adds a thread and writes its
block; the other threads keep their frames. -/
theorem threadCreate_cases {entry arg stack : Nat} {thread r : Option Ptr}
    (h : s.threadCreate P p entry arg thread stack = some (r, s')) :
    r = none ∧ s' = { s with currentTid := s.currentTid + 1 } ∨
    ∃ t, r = some t ∧ thread = some t ∧ stack ≠ 0 ∧ s'.writes = s.writes ∧
      s'.currentThread = s.currentThread ∧
      s'.frame = Function.update s.frame t
        (some (some p, stack, threadStackTop entry stack - InterruptContext.size)) ∧
      s'.mem = threadStack P s.mem entry arg stack := by
  obtain ⟨t, rfl, ⟨-, hr, hs⟩ | ⟨hstack, rfl, pr, -, rfl⟩⟩ := threadCreate_eq_some h
  · exact .inl ⟨hr, hs⟩
  · exact .inr ⟨t, rfl, rfl, hstack, rfl, rfl, proj_insert .., rfl⟩

end Kernel

end Leenix
