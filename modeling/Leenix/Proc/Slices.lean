import Leenix.Proc.Effects
import Leenix.Proc.Steps

/-!
# Time slices

Who gets another slice or another run state in a step.

- `Restates`: a step keeps every slice, and the records of all threads but a few.
  `schedulerPost_restates`, `takeReady_restates` and `schedulerSwitch_restates` name the few.
- `Joins`: what `process_spawn` and `process_fork` leave, failed or not.
  `Inv.spawn_joins`, `Inv.fork_joins`: at most one new thread, behind the queue.
-/

namespace Leenix

namespace Kernel

variable {P : Platform} {tl : Ptr → Option Ptr} {s s' s'' : Kernel} {a : Sched} {t p : Ptr}
  {K : Ptr → Prop}

/-- Between the two states no slice changes, and of the threads outside `K` only links do. -/
structure Restates (K : Ptr → Prop) (s s' : Kernel) : Prop where
  slice : ∀ x, (s'.fixed x).map Thread.timeSlice = (s.fixed x).map Thread.timeSlice
  other : ∀ x, ¬K x → s'.fixed x = s.fixed x
  halted : s'.halted = s.halted

namespace Restates

theorem of_fixed (h : s'.fixed = s.fixed) (hhalted : s'.halted = s.halted) : Restates K s s' :=
  ⟨fun x => by rw [h], fun x _ => by rw [h], hhalted⟩

theorem trans (h : Restates K s s') (h' : Restates K s' s'') : Restates K s s'' where
  slice x := (h'.slice x).trans (h.slice x)
  other x hx := (h'.other x hx).trans (h.other x hx)
  halted := h'.halted.trans h.halted

theorem mono {L : Ptr → Prop} (h : Restates K s s') (hK : ∀ x, K x → L x) :
    Restates L s s' where
  slice := h.slice
  other x hx := h.other x fun hxK => hx (hK x hxK)
  halted := h.halted

/-- A store to the state or the link of a thread. -/
theorem updateThread {f : Thread → Thread} (h : s.updateThread t f = some s')
    (hslice : ∀ th, (f th).timeSlice = th.timeSlice) (hfixed : ¬K t → ∀ th, (f th).fixed = th.fixed) :
    Restates K s s' := by
  obtain ⟨th, hth, rfl⟩ := Option.map_eq_some_iff.mp h
  refine ⟨fun x => ?_, fun x hx => ?_, rfl⟩
  · by_cases hxt : x = t
    · subst hxt
      simp [fixed, proj, hth, Thread.fixed, hslice]
    · simp [fixed, hxt]
  · by_cases hxt : x = t
    · subst hxt
      simp [fixed, proj, hth, hfixed hx]
    · simp [fixed, hxt]

theorem setNextReady {v : Option Ptr} (h : s.setNextReady t v = some s') : Restates K s s' := by
  have hlog : Restates K s (s.logWrite (.nextReady t)) := of_fixed rfl rfl
  exact hlog.trans (updateThread h (fun _ => rfl) fun _ _ => rfl)

end Restates

/-- A post changes the state of the thread it posts. -/
theorem schedulerPost_restates (h : s.schedulerPost (some t) = some s') :
    Restates (· = t) s s' := by
  have hcli : Restates (· = t) s s.cli := .of_fixed rfl rfl
  simp only [schedulerPost, Option.bind_eq_bind, Option.bind_eq_some_iff] at h
  obtain ⟨th, -, h⟩ := h
  split at h
  case isTrue =>
    obtain rfl := Option.some.inj h
    exact .of_fixed rfl rfl
  case isFalse =>
    simp only [Option.bind_eq_some_iff] at h
    obtain ⟨s₁, hs₁, s₂, hs₂, h⟩ := h
    have hready : Restates (· = t) s s₁ :=
      hcli.trans (.updateThread hs₁ (fun _ => rfl) fun ht => absurd rfl ht)
    have hlinked : Restates (· = t) s s₂ := hready.trans (.setNextReady hs₂)
    split at h
    case isFalse => cases h
    case isTrue =>
      split at h
      case h_1 =>
        obtain rfl := Option.some.inj h
        exact hlinked.trans (.of_fixed rfl rfl)
      case h_2 =>
        simp only [Option.bind_eq_some_iff] at h
        obtain ⟨l, -, s₃, hs₃, h⟩ := h
        obtain rfl := Option.some.inj h
        exact (hlinked.trans (.setNextReady hs₃)).trans (.of_fixed rfl rfl)

/-- The dispatch loop changes links only. -/
theorem takeReady_restates {n : Nat} {r : Option Ptr} (h : s.takeReady n = some (r, s')) :
    Restates K s s' := by
  rcases takeReady_cases h with ⟨-, rfl, -⟩ | ⟨i, t, th, -, -, -, hth, rfl⟩
  · exact .of_fixed rfl rfl
  · refine .of_fixed ?_ rfl
    rw [fixed, proj_insert]
    exact Function.update_eq_iff.mpr ⟨(fixed_of_lookup hth).symm, fun _ _ => rfl⟩

theorem schedulerSwitch_current {n : Ptr} (h : s.schedulerSwitch P (some n) = some s') :
    s'.currentThread = some n := by
  rcases schedulerSwitch_cases h with ⟨hcur, rfl⟩ | ⟨-, -, -, -, -, -, hcur, -⟩
  · exact hcur
  · exact hcur

/-- A switch changes the state of the thread it switches to. -/
theorem schedulerSwitch_restates {n : Ptr} (h : s.schedulerSwitch P (some n) = some s') :
    Restates (· = n) s s' := by
  rcases schedulerSwitch_eq_some h with ⟨-, rfl⟩ | ⟨c, cur, th, vm, -, -, -, hth, -, rfl⟩
  · exact .of_fixed rfl rfl
  · have hrun : s.updateThread n (fun th => { th with state := .running }) =
        some { s with threads := s.threads.insert n { th with state := .running } } := by
      simp [updateThread, hth]
    have hrunning : Restates (· = n) s _ :=
      .updateThread hrun (fun _ => rfl) fun hn => absurd rfl hn
    exact hrunning.trans (.of_fixed rfl rfl)

/-- A tick within the slice counts it down. -/
theorem schedulerTick_counted {context : Nat} {c : Ptr} {th : Thread}
    (h : s.schedulerTick P context = some s') (hc : s.currentThread = some c)
    (hth : s.threads.lookup c = some th) (hslice : ¬s.SliceOver) :
    s'.fixed = Function.update s.fixed c
        (some { th with trapFrame := context, timeSlice := sliceLeft th.timeSlice }.fixed) ∧
      s'.halted = s.halted := by
  have hleft : 0 < sliceLeft th.timeSlice :=
    Nat.pos_of_ne_zero fun hzero => hslice ⟨c, th, hc, hth, hzero⟩
  rw [Inv.schedulerTick_within P hc hth hleft] at h
  obtain rfl := Option.some.inj h
  exact ⟨proj_insert .., rfl⟩

/-- The tick that uses up the slice gives the thread a whole one, posts it, and switches to
the next one. -/
theorem schedulerTick_renewed {context : Nat} {c n : Ptr} {th : Thread}
    (h : s.schedulerTick P context = some s') (hc : s.currentThread = some c)
    (hth : s.threads.lookup c = some th) (hslice : s.SliceOver) (hn : s'.currentThread = some n) :
    Restates (fun x => x = c ∨ x = n)
      { s with threads := s.threads.insert c { th with trapFrame := context, timeSlice := slice } }
      s' := by
  obtain ⟨c₀, th₀, hc₀, hth₀, hover⟩ := hslice
  obtain rfl := Option.some.inj (hc.symm.trans hc₀)
  obtain rfl := Option.some.inj (hth.symm.trans hth₀)
  obtain ⟨c₁, th₁, hc₁, hth₁, hcases⟩ := schedulerTick_cases h
  obtain rfl := Option.some.inj (hc.symm.trans hc₁)
  obtain rfl := Option.some.inj (hth.symm.trans hth₁)
  rcases hcases with ⟨hleft, -⟩ | ⟨-, s₂, r, s₃, hpost, htake, hcases⟩
  · exact absurd hover hleft.ne'
  have hposted := (schedulerPost_restates hpost).mono (L := fun x => x = c ∨ x = n) fun _ => .inl
  have htaken := hposted.trans (takeReady_restates htake)
  rcases hcases with ⟨-, rfl⟩ | ⟨m, -, hswitch⟩
  · exact htaken
  · obtain rfl := Option.some.inj ((schedulerSwitch_current hswitch).symm.trans hn)
    have hcli : Restates (fun x => x = c ∨ x = m) s₃ s₃.cli := .of_fixed rfl rfl
    exact (htaken.trans hcli).trans ((schedulerSwitch_restates hswitch).mono fun _ => .inr)

/-- `thread_exit` marks the current thread, and halts the kernel or switches to the next one. -/
theorem threadExit_restates {c : Ptr} (h : s.threadExit P = some s') (hc : s.currentThread = some c) :
    ∃ s₁, Restates (· = c) s s₁ ∧ (∀ th, s₁.fixed c = some th → th.state = .terminated) ∧
      (s'.fixed = s₁.fixed ∧ s'.currentThread = some c ∧ s'.halted = true ∨
        ∃ n, s'.currentThread = some n ∧ Restates (· = n) s₁ s') := by
  obtain ⟨c₀, th, r, s₂, hc₀, hth, htake, hcases⟩ := threadExit_cases h
  obtain rfl := Option.some.inj (hc.symm.trans hc₀)
  have hmarked : s.updateThread c (fun th => { th with state := .terminated }) =
      some { s with threads := s.threads.insert c { th with state := .terminated } } := by
    simp [Kernel.updateThread, hth]
  have hmark : Restates (· = c) s _ := .updateThread hmarked (fun _ => rfl) fun hne => absurd rfl hne
  have hcli : Restates (· = c) s { s with
      ints := false, threads := s.threads.insert c { th with state := .terminated } } :=
    hmark.trans (.of_fixed rfl rfl)
  have htaken : ∀ K, Restates K _ s₂ := fun K => takeReady_restates htake
  refine ⟨s₂, hcli.trans (htaken _), fun th' hth' => ?_, ?_⟩
  · rw [(htaken fun _ => False).other c id] at hth'
    obtain rfl : { th with state := .terminated }.fixed = th' := by simpa [fixed] using hth'
    rfl
  · rcases hcases with ⟨-, rfl⟩ | ⟨n, -, hswitch⟩
    · exact .inl ⟨rfl, (takeReady_frames htake).2.2.trans hc, rfl⟩
    · exact .inr ⟨n, schedulerSwitch_current hswitch, schedulerSwitch_restates hswitch⟩

/-! ## New threads -/

/-- At most one thread is new. It has a whole slice and waits behind the queue. -/
structure Joins (tl : Ptr → Option Ptr) (s : Kernel) (a : Sched) (s' : Kernel) : Prop where
  currentThread : s'.currentThread = s.currentThread
  halted : s'.halted = s.halted
  joined : Inv tl s' a ∧ s'.fixed = s.fixed ∨
    ∃ p t th, Inv tl s' ((a.adopt p t).enqueue processPriDefault t) ∧ s.fixed t = none ∧
      s'.fixed t = some th ∧ th.timeSlice = slice ∧ ∀ x, x ≠ t → s'.fixed x = s.fixed x

namespace Inv

/-- The post of the thread that was just created, as seen from before its creation. -/
theorem joins_post {s₀ s₁ : Kernel} {pr : Process} {entry stack : Nat} (h : Inv tl s (a.adopt p t))
    (hinv₀ : Inv tl s₀ a) (ht : s₀.threads.lookup t = none) (hframe : ListFrame s₀ s)
    (hfixed : s.fixed = Function.update s₀.fixed t (some (s₁.newThread p pr entry stack).fixed))
    (hpost : s.schedulerPost (some t) = some s') : Joins tl s₀ a s' := by
  obtain ⟨s₂, hs₂, hinv, hqframe, hother⟩ := h.postNew hinv₀ ht hframe hfixed rfl
  obtain rfl := Option.some.inj (hpost.symm.trans hs₂)
  have hslice : (s'.fixed t).map Thread.timeSlice = some slice := by
    rw [(schedulerPost_restates hpost).slice t, hfixed, Function.update_self]
    rfl
  obtain ⟨th, hth, hwhole⟩ := Option.map_eq_some_iff.mp hslice
  exact ⟨hqframe.currentThread.trans hframe.currentThread, hqframe.halted.trans hframe.halted,
    .inr ⟨p, t, th, hinv, by simp [fixed, proj, ht], hth, hwhole, hother⟩⟩

/-- What does not change who runs, who waits, or any record. -/
theorem joins_congr {s₀ : Kernel} (h : Joins tl s₀ a s') (hfixed : s₀.fixed = s.fixed)
    (hcur : s₀.currentThread = s.currentThread) (hhalted : s₀.halted = s.halted) :
    Joins tl s a s' :=
  ⟨h.currentThread.trans hcur, h.halted.trans hhalted, by simpa only [hfixed] using h.joined⟩

/-- The current process is not the one that is being made. -/
theorem currentProc_ne (h : Inv tl s a) (hfresh : s.procs.lookup p = none) :
    s.currentProc ≠ some p := by
  obtain ⟨c, th, -, hth, hproc, -⟩ := h.current
  obtain ⟨q, qr, hq, hqr⟩ := h.members.parent_live c th hth
  rw [hproc, hq]
  intro hqp
  cases (Option.some.inj hqp ▸ hqr).symm.trans hfresh

/-- A new process goes again before it has a thread. -/
theorem destroyNew (h : Inv tl s a) {pr : Process} (hp : s.procs.lookup p = some pr)
    (hmem : a.members p = []) (htl : tl p = none) (hcur : s.currentProc ≠ some p) :
    ∃ s', s.processDestroy P p = some s' ∧ Inv tl s' a ∧ s'.fixed = s.fixed ∧
      s'.currentThread = s.currentThread ∧ s'.halted = s.halted := by
  have hsafe : s.TailSafe (s.OwnedBy p) := by
    rintro i - l - - ⟨th, hth, hpar⟩
    exact absurd (h.members.mem_of_lookup hth hpar) (by simp [hmem])
  obtain ⟨s', hs', hinv, hd⟩ := h.destroyProcess P hp htl hcur hsafe
  rw [hmem, Sched.forget_nil] at hinv
  refine ⟨s', hs', hinv, funext fun x => ?_, hd.currentThread, hd.halted⟩
  rw [hd.fixed, hmem]
  rfl

/-- `process_spawn`, on every path. -/
theorem spawn_joins (h : Inv tl s a) {openFile : List Byte → Option File} {filename : List Byte}
    {alloc : Alloc} {junk : StackJunk} {r : Int} (hfresh : s.AllocFresh alloc)
    (hs : s.processSpawn P openFile filename alloc junk = some (r, s')) : Joins tl s a s' := by
  obtain ⟨p, s₁, pr, result, entry, vm, hp, hs₁, hpr, -, hcases⟩ := processSpawn_cases hs
  have hpfresh : s.procs.lookup p = none := hfresh.1 p hp
  obtain ⟨hmem, htl⟩ := h.members_of_fresh hpfresh
  obtain ⟨hinv₁, hthreads₁, hct₁, hcp₁, hhalted₁, -, pr', hpr', hnone, -⟩ :=
    h.processCreate hpfresh hs₁
  obtain rfl := Option.some.inj (hpr.symm.trans hpr')
  have hfixed₁ : s₁.fixed = s.fixed := by simp only [fixed, hthreads₁]
  have hinv₂ : Inv tl { s₁ with vm := vm } a := hinv₁.congr rfl
  rcases hcases with ⟨-, -, hdestroy⟩ | ⟨-, e, t, s₂, s₃, pr₃, -, hcreate, hupdate, hpost, -, -⟩
  · -- the loader failed
    obtain ⟨s₂, hs₂, hinv₃, hfixed, hcur, hhalted⟩ :=
      hinv₂.destroyNew (P := P) hpr hmem htl (hcp₁ ▸ h.currentProc_ne hpfresh)
    obtain rfl := Option.some.inj (hdestroy.symm.trans hs₂)
    exact ⟨hcur.trans hct₁, hhalted.trans hhalted₁, .inl ⟨hinv₃, hfixed.trans hfixed₁⟩⟩
  · have hfresh₂ : ThreadFresh { s₁ with vm := vm } alloc.thread alloc.stack := by
      simpa only [ThreadFresh, StackFree, hthreads₁] using hfresh.2
    obtain ⟨hself, hcases⟩ := hinv₂.firstThread P pr hfresh₂ hpr hnone hcreate
    obtain rfl := Option.some.inj (hself.symm.trans hupdate)
    rcases hcases with ⟨rfl, -, rfl⟩ | ⟨t', pr₂, rfl, ht, hinv₃, hframe, hfixed⟩
    -- no stack: a null thread is posted, which does nothing
    · obtain rfl := Option.some.inj hpost
      exact ⟨hct₁, hhalted₁, .inl ⟨hinv₂.congr rfl, hfixed₁⟩⟩
    · exact joins_congr (hinv₃.joins_post hinv₂ ht hframe hfixed hpost) hfixed₁ hct₁ hhalted₁

/-- `process_fork`, on every path. -/
theorem fork_joins (h : Inv tl s a) {alloc : Alloc} {r : Int} (hfresh : s.AllocFresh alloc)
    (hs : s.processFork P alloc = some (r, s')) : Joins tl s a s' := by
  rcases processFork_cases hs with ⟨-, rfl⟩ | ⟨pp, c, par, ppr, p, s₁, pr, -, -, -, -, hp, hs₁, hpr,
    hcases⟩
  -- nothing was created
  · exact ⟨rfl, rfl, .inl ⟨h.congr rfl, rfl⟩⟩
  have hpfresh : s.procs.lookup p = none := hfresh.1 p hp
  obtain ⟨hmem, htl⟩ := h.members_of_fresh hpfresh
  have hinv₀ : Inv tl s.cli a := h.congr rfl
  obtain ⟨hinv₁, hthreads₁, hct₁, -, hhalted₁, -, pr', hpr', hnone, hstate, -⟩ :=
    hinv₀.processCreate hpfresh hs₁
  obtain rfl := Option.some.inj (hpr.symm.trans hpr')
  have hfixed₁ : s₁.fixed = s.fixed := by simp only [fixed, hthreads₁, cli]
  rcases hcases with ⟨-, -, vm, rfl⟩ | ⟨dir, vm, s₂, t, s₃, -, rfl, hs₃, hcases⟩
  -- the child is freed before it has a thread
  · exact ⟨hct₁, hhalted₁, .inl ⟨hinv₁.eraseProcess hmem htl rfl, hfixed₁⟩⟩
  -- the child's process is complete: its main thread is a new one
  have hinv₂ : Inv tl { s₁ with
      vm := vm, procs := s₁.procs.insert p { pr with dir := some dir } } a :=
    hinv₁.insertProcess { pr with dir := some dir } hmem htl hnone (by simp [hstate]) rfl
  have hpr₂ : (s₁.procs.insert p { pr with dir := some dir }).lookup p =
      some { pr with dir := some dir } := Finmap.lookup_insert _
  obtain ⟨s₂, hcreate, hupdate⟩ := getMainThread_cases { pr with dir := some dir } hpr₂ hnone hs₃
  have hfresh₂ : ThreadFresh { s₁ with
      vm := vm, procs := s₁.procs.insert p { pr with dir := some dir } } alloc.thread
      alloc.stack := by
    simpa only [ThreadFresh, StackFree, hthreads₁, cli] using hfresh.2
  obtain ⟨hself, hthread⟩ := hinv₂.firstThread P { pr with dir := some dir } hfresh₂ hpr₂ hnone hcreate
  obtain rfl := Option.some.inj (hself.symm.trans hupdate)
  rcases hthread with ⟨rfl, -, rfl⟩ | ⟨t', pr₂, rfl, ht, hinv₃, hframe, hfixed⟩
  · rcases hcases with ⟨-, -, vm', rfl⟩ | ⟨t', -, -, -, ht', -⟩
    -- no stack for the thread: the child is freed again
    · exact ⟨hct₁, hhalted₁, .inl ⟨hinv₂.eraseProcess hmem htl rfl, hfixed₁⟩⟩
    · cases ht'
  · rcases hcases with ⟨-, ht', -⟩ | ⟨t₀, ch, s₄, pr₄, ht₀, -, hpost, -, -, rfl⟩
    · cases ht'
    · obtain rfl := Option.some.inj ht₀
      -- the copied trap frame is memory, which the invariant does not read
      have hinv₃' : Inv tl { s₂ with
          mem := copyTrapFrame s₂.mem ch.trapFrame par.trapFrame } (a.adopt p t') := hinv₃.congr rfl
      have hframe' := hframe.trans (⟨rfl, rfl, rfl, rfl, rfl, rfl, rfl⟩ : ListFrame s₂
        { s₂ with mem := copyTrapFrame s₂.mem ch.trapFrame par.trapFrame })
      obtain ⟨hcur, hhalted, hjoined⟩ :=
        joins_congr (hinv₃'.joins_post hinv₂ ht hframe' hfixed hpost) hfixed₁ hct₁ hhalted₁
      refine ⟨hcur, hhalted, hjoined.imp (And.imp_left fun hinv => hinv.congr rfl) ?_⟩
      rintro ⟨q, x, th, hinv, hnew⟩
      exact ⟨q, x, th, hinv.congr rfl, hnew⟩

end Inv

end Kernel

end Leenix
