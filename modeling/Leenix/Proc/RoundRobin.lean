import Mathlib.Data.List.Rotate
import Leenix.Proc.Invariant

/-!
# Round robin

With every runnable thread in the default queue, the timer alone drives the
scheduler: `Turn s c ts left` says that thread `c` runs with `left` ticks of its
slice to go, and that `ts` wait behind it.

- `Turn.counts`: a tick that does not use up the slice only counts it down.
- `Turn.passes`: the tick that does hands the turn to the head of `ts` and
  queues `c` last.
- `roundRobin`: hence any number of ticks rotates the list `c :: ts` by one place
  for each whole slice.
-/

namespace Leenix

/-- Queues of which only the default one is in use. -/
def onlyDefault (ts : List Ptr) (i : Nat) : List Ptr := if i = processPriDefault then ts else []

namespace Kernel

/-- Thread `c` runs, with `left` ticks to go, and the threads `ts` wait in the
default queue, each with a whole slice. No other thread is runnable. -/
structure Turn (s : Kernel) (c : Ptr) (ts : List Ptr) (left : Nat) : Prop where
  current : s.currentThread = some c
  ready : ReadyRep s (onlyDefault ts)
  tails : TailsAgree s (onlyDefault ts)
  idle : c ∉ ts
  threads : ∀ t ∈ c :: ts, ∃ th, s.core t = some th ∧ th.priority = processPriDefault ∧
    th.state ≠ .terminated ∧ th.timeSlice = (if t = c then left else slice) ∧
    ∃ p pr, th.parent = some p ∧ s.procs.lookup p = some pr

namespace Turn

variable {s : Kernel} {c t : Ptr} {ts rest : List Ptr} {left : Nat}

theorem default_ready (ts : List Ptr) : onlyDefault ts processPriDefault = ts := if_pos rfl

theorem sliceLeft_succ (n : Nat) : sliceLeft (n + 1) = n := by
  simp [sliceLeft]

/-- The current thread's record. -/
theorem lookup_current (h : s.Turn c ts left) : ∃ th, s.threads.lookup c = some th ∧
    th.priority = processPriDefault ∧ th.state ≠ .terminated ∧ th.timeSlice = left := by
  obtain ⟨thc, hthc, hprio, hstate, hleft, -⟩ := h.threads c List.mem_cons_self
  obtain ⟨th, hth, rfl⟩ := lookup_of_core hthc
  exact ⟨th, hth, hprio, hstate, by simpa [Thread.core] using hleft⟩

/-- Changing the slice and the trap frame of the current thread. -/
theorem setSlice (h : s.Turn c ts left) {th : Thread} (hth : s.threads.lookup c = some th)
    (context left' : Nat) : Turn { s with
      threads := s.threads.insert c { th with trapFrame := context, timeSlice := left' }
    } c ts left' := by
  have hother : ∀ t ∈ ts, t ≠ c := fun t ht heq => h.idle (heq ▸ ht)
  have hready : ∀ i, ∀ t ∈ onlyDefault ts i, t ≠ c := by
    intro i t ht
    unfold onlyDefault at ht
    split at ht
    · exact hother t ht
    · cases ht
  refine ⟨h.current, h.ready.transport (fun _ _ => rfl) (fun i t ht => ?_) (fun i t ht => ?_),
    h.tails, h.idle, fun t ht => ?_⟩
  · simp [nextReady, hready i t ht]
  · simp [core, hready i t ht]
  · obtain ⟨thc, hthc, hprio, hstate, hleft, hparent⟩ := h.threads t ht
    rcases List.mem_cons.mp ht with rfl | ht
    · rw [core_of_lookup hth] at hthc
      obtain rfl := Option.some.inj hthc
      exact ⟨Thread.core { th with trapFrame := context, timeSlice := left' }, by simp [core], hprio,
        hstate, by simp [Thread.core], hparent⟩
    · refine ⟨thc, by simpa [core, hother t ht] using hthc, hprio, hstate, ?_, hparent⟩
      simpa [hother t ht] using hleft

/-- A tick within the slice counts it down. -/
theorem counts (h : s.Turn c ts (left + 2)) (P : Platform) (context : Nat) :
    ∃ s', s.schedulerTick P context = some s' ∧ s'.Turn c ts (left + 1) := by
  obtain ⟨th, hth, -, -, hslice⟩ := h.lookup_current
  have hleft : sliceLeft th.timeSlice = left + 1 := by rw [hslice, sliceLeft_succ]
  refine ⟨_, Inv.schedulerTick_within P h.current hth (by omega), ?_⟩
  rw [hleft]
  exact h.setSlice hth context (left + 1)

theorem onlyDefault_enqueue (ts : List Ptr) (members : Ptr → List Ptr) (c : Ptr) :
    (Sched.enqueue ⟨onlyDefault ts, members⟩ processPriDefault c).ready =
      onlyDefault (ts ++ [c]) := by
  funext i
  by_cases hi : i = processPriDefault
  · simp [Sched.enqueue, onlyDefault, hi]
  · simp [Sched.enqueue, onlyDefault, hi]

theorem onlyDefault_dequeue (ts : List Ptr) (members : Ptr → List Ptr) :
    (Sched.dequeue ⟨onlyDefault ts, members⟩ processPriDefault).ready = onlyDefault ts.tail := by
  funext i
  by_cases hi : i = processPriDefault
  · simp [Sched.dequeue, onlyDefault, hi]
  · simp [Sched.dequeue, onlyDefault, hi]

/-- The queue after the post and the dequeue of a tick, from the default queue
`t :: rest` and the current thread `c`. -/
theorem requeue (h : s.Turn c (t :: rest) left) {th : Thread} (hth : s.threads.lookup c = some th) :
    ∃ s₂ s₃, s.schedulerPost (some c) = some s₂ ∧
      s₂.takeReady processPriMax = some (some t, s₃) ∧ ReadyRep s₃ (onlyDefault (rest ++ [c])) ∧
      TailsAgree s₃ (onlyDefault (rest ++ [c])) ∧ QueueFrame s s₃ ∧
      s₃.core = Function.update s.core c (some { th.core with state := .ready }) := by
  obtain ⟨th', hth', hprio, hstate, -⟩ := h.lookup_current
  obtain rfl := Option.some.inj (hth.symm.trans hth')
  have hidle : ¬Sched.Waiting ⟨onlyDefault (t :: rest), fun _ => []⟩ c := by
    rintro ⟨i, hi⟩
    simp only [onlyDefault] at hi
    split at hi
    · exact h.idle hi
    · cases hi
  obtain ⟨s₂, hpost, hready₂, htails₂, hframe₂, hcore₂⟩ :=
    schedulerPost_spec (a := ⟨onlyDefault (t :: rest), fun _ => []⟩) h.ready h.tails hth hstate
      (hprio ▸ by decide) hidle
  rw [hprio, onlyDefault_enqueue] at hready₂ htails₂
  rcases takeReady_spec (a := ⟨onlyDefault (t :: rest ++ [c]), fun _ => []⟩) hready₂ processPriMax
    (Nat.le_succ _) with ⟨hempty, -⟩ | ⟨i, n, rest', s₃, -, hcons, -, htake, hready₃, htails₃, hframe₃,
      hcore₃, -⟩
  · have hnil : onlyDefault (t :: rest ++ [c]) processPriDefault = [] :=
      hempty processPriDefault (by decide)
    rw [default_ready] at hnil
    cases hnil
  · have hi : i = processPriDefault := by
      by_contra hne
      simp [onlyDefault, hne] at hcons
    subst hi
    have hcons : onlyDefault (t :: rest ++ [c]) processPriDefault = n :: rest' := hcons
    rw [default_ready] at hcons
    obtain ⟨rfl, rfl⟩ := List.cons.inj hcons
    rw [onlyDefault_dequeue] at hready₃ htails₃
    exact ⟨s₂, s₃, hpost, htake, hready₃, htails₃ htails₂, hframe₂.trans hframe₃,
      hcore₃.trans hcore₂⟩

/-- The tick that uses up the slice passes the turn on. -/
theorem passes (h : s.Turn c (t :: rest) 1) (P : Platform) (context : Nat) :
    ∃ s', s.schedulerTick P context = some s' ∧ s'.Turn t (rest ++ [c]) slice := by
  obtain ⟨th, hth, -, -, hslice⟩ := h.lookup_current
  have hover : sliceLeft th.timeSlice = 0 := by rw [hslice, sliceLeft_succ]
  have h₁ := h.setSlice hth context slice
  obtain ⟨s₂, s₃, hpost, htake, hready, htails, hframe, hcore⟩ :=
    h₁.requeue (Finmap.lookup_insert _)
  have htc : t ≠ c := fun heq => h.idle (heq ▸ List.mem_cons_self)
  have hnd : (t :: rest).Nodup := default_ready (t :: rest) ▸ h.ready.nodup processPriDefault
  -- the switch to `t`
  have hlookup : ∀ x ∈ t :: rest, ∃ thx, s₃.core x = some thx ∧ thx.priority = processPriDefault ∧
      thx.state ≠ .terminated ∧ thx.timeSlice = slice ∧
      ∃ p pr, thx.parent = some p ∧ s₃.procs.lookup p = some pr := by
    intro x hx
    have hxc : x ≠ c := fun heq => h.idle (heq ▸ hx)
    obtain ⟨thx, hthx, hprio, hstate, hslice, hparent⟩ := h₁.threads x (List.mem_cons_of_mem c hx)
    refine ⟨thx, by rw [hcore, Function.update_of_ne hxc, hthx], hprio, hstate, ?_, ?_⟩
    · simpa [hxc] using hslice
    · rw [hframe.procs]
      exact hparent
  obtain ⟨tht, htht, hprio, hstate, hslice, p, pr, hp, hpr⟩ := hlookup t List.mem_cons_self
  obtain ⟨tht, hlookt, rfl⟩ := lookup_of_core htht
  obtain ⟨thc, hlookc, -⟩ := lookup_of_core ((congrFun hcore c).trans (Function.update_self ..))
  obtain ⟨vm, hvm⟩ := switchAddressSpace_isSome (s := s₃.cli) P thc hp hpr
  have hswitch := schedulerSwitch_other (s := s₃.cli) P htc
    (hframe.currentThread.trans h₁.current) hlookc hlookt hvm
  refine ⟨_, (Inv.schedulerTick_over P h.current hth hover hpost htake).trans hswitch, rfl, ?_,
    htails, ?_, fun x hx => ?_⟩
  · have hlinks : proj Thread.nextReady (s₃.threads.insert t { tht with state := .running }) =
        s₃.nextReady := by
      rw [proj_insert]
      exact Function.update_eq_iff.mpr ⟨(nextReady_of_lookup hlookt).symm, fun _ _ => rfl⟩
    have hprios : proj Thread.priority (s₃.threads.insert t { tht with state := .running }) =
        proj Thread.priority s₃.threads := by
      rw [proj_insert]
      exact Function.update_eq_iff.mpr ⟨by simp [proj, hlookt], fun _ _ => rfl⟩
    refine hready.transport (fun _ _ => rfl) (fun i x _ => congrFun hlinks x) (fun i x _ => ?_)
    have hprio := congrFun hprios x
    simp only [proj] at hprio
    simp only [core, proj, Option.map_map]
    exact hprio
  · simp only [List.mem_append, List.mem_singleton, not_or]
    exact ⟨(List.nodup_cons.mp hnd).1, htc⟩
  · by_cases hxt : x = t
    · refine ⟨Thread.core { tht with state := .running }, by simp [core, hxt], hprio,
        by simp [Thread.core], ?_, p, pr, hp, hpr⟩
      simpa [hxt, Thread.core] using hslice
    · have hkept : ∀ thx, s₃.core x = some thx → proj Thread.core
          (s₃.cli.threads.insert t { tht with state := .running }) x = some thx := fun thx hthx => by
        rw [proj_insert, Function.update_of_ne hxt]
        exact hthx
      rcases List.mem_append.mp ((List.mem_cons.mp hx).resolve_left hxt) with hx | hx
      · obtain ⟨thx, hthx, hprio, hstate, hslice, hparent⟩ := hlookup x (List.mem_cons_of_mem t hx)
        exact ⟨thx, hkept thx hthx, hprio, hstate, by rw [if_neg hxt]; exact hslice, hparent⟩
      · obtain rfl := List.mem_singleton.mp hx
        obtain ⟨th₁, hth₁, hprio, -, hslice, hparent⟩ := h₁.threads x List.mem_cons_self
        rw [core_of_lookup (Finmap.lookup_insert _)] at hth₁
        obtain rfl := Option.some.inj hth₁
        refine ⟨_, hkept _ ((congrFun hcore x).trans (Function.update_self ..)), hprio, by simp, ?_,
          ?_⟩
        · rw [if_neg hxt]
          simpa using hslice
        · show ∃ p pr, _ = some p ∧ s₃.procs.lookup p = some pr
          rw [hframe.procs]
          exact hparent

end Turn

/-! ## Any number of ticks -/

/-- Timer interrupts, each with the trap frame it finds. -/
def ticks (P : Platform) (s : Kernel) (contexts : List Nat) : Option Kernel :=
  contexts.foldlM (fun s context => s.call P (.schedulerTick context)) s

variable {P : Platform} {s : Kernel} {c : Ptr} {ts : List Ptr} {left : Nat}

theorem Turn.entered (h : s.Turn c ts left) : Turn { s with ints := false } c ts left :=
  ⟨h.current, h.ready.transport (fun _ _ => rfl) (fun _ _ _ => rfl) (fun _ _ _ => rfl), h.tails,
    h.idle, h.threads⟩

theorem ticks_cons (context : Nat) (contexts : List Nat) {s₁ : Kernel}
    (h : { s with ints := false }.schedulerTick P context = some s₁) :
    s.ticks P (context :: contexts) = s₁.ticks P contexts := by
  simp [ticks, call, h]

/-- Ticks from a point inside a slice, `e` ticks after its start. -/
theorem Turn.ticks {e : Nat} (h : s.Turn c ts (slice - e)) (he : e < slice) (hts : ts ≠ [])
    (contexts : List Nat) : ∃ s' c' ts', s.ticks P contexts = some s' ∧
      (c :: ts).rotate ((e + contexts.length) / slice) = c' :: ts' ∧
      s'.Turn c' ts' (slice - (e + contexts.length) % slice) := by
  induction contexts generalizing s c ts e with
  | nil =>
    refine ⟨s, c, ts, rfl, ?_, ?_⟩
    · rw [List.length_nil, Nat.add_zero, Nat.div_eq_of_lt he, List.rotate_zero]
    · rw [List.length_nil, Nat.add_zero, Nat.mod_eq_of_lt he]
      exact h
  | cons context contexts ih =>
    have hslice : slice = 5 := rfl
    rw [List.length_cons]
    by_cases hnext : e + 1 < slice
    · have hleft : slice - e = (slice - e - 2) + 2 := by omega
      obtain ⟨s₁, htick, h₁⟩ := (hleft ▸ h).entered.counts P context
      rw [show slice - e - 2 + 1 = slice - (e + 1) by omega] at h₁
      obtain ⟨s', c', ts', hticks, hrotate, h'⟩ := ih h₁ hnext hts
      rw [show e + 1 + contexts.length = e + (contexts.length + 1) by omega] at hrotate h'
      exact ⟨s', c', ts', (ticks_cons context contexts htick).trans hticks, hrotate, h'⟩
    · obtain ⟨t, rest, rfl⟩ := List.exists_cons_of_ne_nil hts
      have hleft : slice - e = 1 := by omega
      obtain ⟨s₁, htick, h₁⟩ := (hleft ▸ h).entered.passes P context
      obtain ⟨s', c', ts', hticks, hrotate, h'⟩ := ih (e := 0) h₁ (by decide) (by simp)
      rw [Nat.zero_add] at hrotate h'
      have hwrap : e + (contexts.length + 1) = contexts.length + slice := by omega
      refine ⟨s', c', ts', (ticks_cons context contexts htick).trans hticks, ?_, ?_⟩
      · rw [hwrap, Nat.add_div_right _ (by decide), List.rotate_cons_succ]
        exact hrotate
      · rw [hwrap, Nat.add_mod_right]
        exact h'

/-- **Round robin.** From the start of a slice of `c`, with the threads `ts` in
the queue behind it, any number of ticks rotates the list `c :: ts` by one place
for each whole slice, and leaves the rest of the last slice. -/
theorem roundRobin (h : s.Turn c ts slice) (hts : ts ≠ []) (contexts : List Nat) :
    ∃ s' c' ts', s.ticks P contexts = some s' ∧
      (c :: ts)[contexts.length / slice % (ts.length + 1)]? = some c' ∧
      (c :: ts).rotate (contexts.length / slice) = c' :: ts' ∧
      s'.Turn c' ts' (slice - contexts.length % slice) := by
  obtain ⟨s', c', ts', hticks, hrotate, h'⟩ :=
    Turn.ticks (P := P) (e := 0) h (by decide) hts contexts
  rw [Nat.zero_add] at hrotate h'
  refine ⟨s', c', ts', hticks, ?_, hrotate, h'⟩
  have hmod : contexts.length / slice % (c :: ts).length < (c :: ts).length :=
    Nat.mod_lt _ (by simp)
  have hhead := List.head?_rotate hmod
  rw [List.rotate_mod, hrotate, List.head?_cons] at hhead
  exact hhead.symm

/-- The kernel thread runs and thread 2 waits. -/
def twoRunnable : Kernel :=
  [Op.threadCreate 1 0 0 (some 2) 4096, .schedulerPost (some 2)].foldl
    (Run.next (exec samplePlatform)) sample

theorem twoRunnable_turn : twoRunnable.Turn 1 [2] slice := by
  have hqueue : ∀ i, i ≤ processPriMax → i ≠ 5 → twoRunnable.queue i = none := by decide
  refine ⟨by decide, ⟨fun i hi => ?_, fun i hi => ?_, fun i t ht => ?_⟩, fun i hi hne => ?_, by decide,
    fun t ht => ?_⟩
  · by_cases h5 : i = 5
    · subst h5
      exact ⟨by decide, none, by decide, rfl⟩
    · rw [show onlyDefault [2] i = [] from if_neg h5]
      exact hqueue i hi h5
  · rw [onlyDefault, if_neg]
    simp only [processPriMax, processPriDefault] at hi ⊢
    omega
  · by_cases h5 : i = 5
    · subst h5
      obtain rfl := List.mem_singleton.mp ht
      exact ⟨_, rfl, by decide⟩
    · simp [onlyDefault, processPriDefault, h5] at ht
  · by_cases h5 : i = 5
    · subst h5
      decide
    · simp [onlyDefault, processPriDefault, h5] at hne
  · simp only [List.mem_cons, List.not_mem_nil, or_false] at ht
    rcases ht with rfl | rfl
    · exact ⟨_, rfl, by decide, by decide, by decide, 1, _, by decide, rfl⟩
    · exact ⟨_, rfl, by decide, by decide, by decide, 1, _, by decide, rfl⟩

/-- Seven ticks of these two threads. -/
theorem roundRobin_two : ∃ s' c' ts',
    twoRunnable.ticks samplePlatform (List.replicate 7 64) = some s' ∧
    [1, 2][7 / slice % 2]? = some c' ∧ [1, 2].rotate (7 / slice) = c' :: ts' ∧
    s'.Turn c' ts' (slice - 7 % slice) :=
  roundRobin twoRunnable_turn (by decide) (List.replicate 7 64)

end Kernel

end Leenix
