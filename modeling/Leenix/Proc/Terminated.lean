import Leenix.Proc.Effects

/-!
# Terminated threads

Only `scheduler_post` looks at the mark: `scheduler_tick` and `thread_exit`
dispatch what they find in a queue. So a thread that is marked while it waits in
a queue runs again (`terminated_dispatched`), and a thread that is marked at any
other time never does (`run_staysTerminated`).

The invariant is that what the queues lead to is live and not terminated
(`QueuedAlive`). It needs no other property of the queues: a post and a dequeue
add no path to a thread other than the one that is posted (`NewPaths`), even
around a queue that double posts have made cyclic.
-/

namespace Leenix

namespace Kernel

/-- The calls of the scheduler, and the assignment
`thread->state = STATE_TERMINATED` from outside. -/
inductive MarkOp
  | threadCreate (parentProcess : Ptr) (entry arg : Nat) (thread : Option Ptr) (stack : Nat)
  | schedulerPost (thread : Option Ptr)
  | schedulerTick (context : Nat)
  | threadExit
  | terminate (thread : Ptr)

/-- One step. -/
def markExec (P : Platform) (s : Kernel) : MarkOp → Option Kernel
  | .threadCreate p entry arg thread stack => s.exec P (.threadCreate p entry arg thread stack)
  | .schedulerPost thread => s.exec P (.schedulerPost thread)
  | .schedulerTick context => s.exec P (.schedulerTick context)
  | .threadExit => s.exec P .threadExit
  | .terminate t => s.updateThread t fun th => { th with state := .terminated }

/-- The `state` of each live thread. -/
def stateOf (s : Kernel) : Ptr → Option RunState := proj Thread.state s.threads

/-- What the queues lead to is live and not terminated. -/
def QueuedAlive (s : Kernel) : Prop :=
  ∀ t, s.Queued t → ∃ st, s.stateOf t = some st ∧ st ≠ .terminated

/-- `malloc` returns a thread object that is not in use. -/
def FreshThread (s : Kernel) : MarkOp → Prop
  | .threadCreate _ _ _ thread _ => ∀ t ∈ thread, s.threads.lookup t = none
  | _ => True

/-- No thread is marked terminated while it waits in a queue. -/
def MarksUnqueued (s : Kernel) : MarkOp → Prop
  | .threadExit => ∀ c, s.currentThread = some c → ¬s.Queued c
  | .terminate t => ¬s.Queued t
  | _ => True

variable {P : Platform} {s s' s'' : Kernel} {t x : Ptr}

theorem stateOf_of_lookup {th : Thread} (h : s.threads.lookup t = some th) :
    s.stateOf t = some th.state := by
  simp [stateOf, proj, h]

theorem stateOf_eq_none : s.stateOf t = none ↔ s.threads.lookup t = none := by
  simp [stateOf, proj]

/-! ## Paths -/

/-- From `s` to `s'`, new links and queue heads lead to the threads `New` only,
and these lead to such threads only. -/
structure NewPaths (New : Ptr → Prop) (s s' : Kernel) : Prop where
  heads : ∀ i x, i ≤ processPriMax → s'.queue i = some x → s.Queued x ∨ New x
  links : ∀ x y, s'.nextReady x = some (some y) →
    (s.nextReady x = some (some y) ∧ ¬New x) ∨ New y

theorem queued_link {y : Ptr} (hx : s.Queued x) (hlink : s.nextReady x = some (some y)) :
    s.Queued y := by
  obtain ⟨i, hi, us, hus⟩ := hx
  exact ⟨i, hi, us ++ [x], Seg.append_iff.mpr ⟨some x, hus, rfl, some y, hlink, rfl⟩⟩

theorem queued_head {i : Nat} (hi : i ≤ processPriMax) (hq : s.queue i = some x) : s.Queued x :=
  ⟨i, hi, [], hq⟩

/-- Afterwards the queues lead to the same threads, and to new ones. -/
theorem NewPaths.queued {New : Ptr → Prop} (h : NewPaths New s s') (hx : s'.Queued x) :
    s.Queued x ∨ New x := by
  obtain ⟨i, hi, us, hus⟩ := hx
  refine hus.reaches_closed (R := fun x => s.Queued x ∨ New x) (fun y hy => h.heads i y hi hy)
    fun y z hy hlink => ?_
  rcases h.links y z hlink with ⟨hold, hnot⟩ | hnew
  · exact .inl (queued_link (hy.resolve_right hnot) hold)
  · exact .inr hnew

theorem NewPaths.of_eq {New : Ptr → Prop} (hqueue : s'.queue = s.queue)
    (hlinks : ∀ x y, s'.nextReady x = some (some y) → s.nextReady x = some (some y))
    (hnew : ∀ x, ¬New x) : NewPaths New s s' where
  heads _ _ hi hx := .inl (queued_head hi (hqueue ▸ hx))
  links x y hxy := .inl ⟨hlinks x y hxy, hnew x⟩

/-! ## The stores -/

/-- A store that keeps the state of a thread. -/
theorem stateOf_insert {th th' : Thread} (hth : s.threads.lookup t = some th)
    (hst : th'.state = th.state) :
    proj Thread.state (s.threads.insert t th') = s.stateOf := by
  rw [proj_insert, hst]
  exact Function.update_eq_iff.mpr ⟨stateOf_of_lookup hth |>.symm, fun _ _ => rfl⟩

/-- A store that keeps the link of a thread. -/
theorem nextReady_insert {th th' : Thread} (hth : s.threads.lookup t = some th)
    (hlink : th'.nextReady = th.nextReady) :
    proj Thread.nextReady (s.threads.insert t th') = s.nextReady := by
  rw [proj_insert, hlink]
  exact Function.update_eq_iff.mpr ⟨by simp [nextReady, proj, hth], fun _ _ => rfl⟩

theorem updateThread_state {f : Thread → Thread} {st : RunState}
    (h : s.updateThread t f = some s') (hlink : ∀ th, (f th).nextReady = th.nextReady)
    (hstate : ∀ th, (f th).state = st) : s'.stateOf = Function.update s.stateOf t (some st) ∧
      s'.nextReady = s.nextReady ∧ s'.queue = s.queue := by
  obtain ⟨th, hth, rfl⟩ := Option.map_eq_some_iff.mp h
  exact ⟨by simp [stateOf, hstate], nextReady_insert hth (hlink th), rfl⟩

theorem setNextReady_state {v : Option Ptr} (h : s.setNextReady t v = some s') :
    s'.stateOf = s.stateOf ∧ s'.nextReady = Function.update s.nextReady t (some v) ∧
      s'.queue = s.queue := by
  obtain ⟨th, hth, rfl⟩ := Option.map_eq_some_iff.mp h
  exact ⟨stateOf_insert (s := s) hth rfl, proj_insert .., rfl⟩

/-- A post leaves a terminated thread alone, and otherwise marks its thread ready
and adds paths to it. -/
theorem schedulerPost_state {thread : Option Ptr} (h : s.schedulerPost thread = some s') :
    s'.stateOf = s.stateOf ∧ NewPaths (fun _ => False) s s' ∨
    ∃ t st, s.stateOf t = some st ∧ st ≠ .terminated ∧
      s'.stateOf = Function.update s.stateOf t (some .ready) ∧ NewPaths (· = t) s s' := by
  unfold schedulerPost at h
  cases thread with
  | none =>
    obtain rfl := Option.some.inj h
    exact .inl ⟨rfl, .of_eq rfl (fun _ _ hxy => hxy) fun _ => id⟩
  | some t =>
    simp only [Option.bind_eq_bind, Option.bind_eq_some_iff] at h
    obtain ⟨th, hth, h⟩ := h
    replace hth : s.threads.lookup t = some th := hth
    by_cases hterm : th.state = .terminated
    · simp only [hterm, if_true] at h
      obtain rfl := Option.some.inj h
      exact .inl ⟨rfl, .of_eq rfl (fun _ _ hxy => hxy) fun _ => id⟩
    simp only [hterm, if_false, Option.bind_eq_some_iff] at h
    obtain ⟨s₁, hs₁, s₂, hs₂, h⟩ := h
    obtain ⟨hstate₁, hlinks₁, hqueue₁⟩ := updateThread_state hs₁ (fun _ => rfl) fun _ => rfl
    obtain ⟨hstate₂, hlinks₂, hqueue₂⟩ := setNextReady_state hs₂
    have hstate : s₂.stateOf = Function.update s.stateOf t (some .ready) := hstate₂.trans hstate₁
    have hlinks : s₂.nextReady = Function.update s.nextReady t (some none) := by
      rw [hlinks₂, hlinks₁]
      rfl
    have hqueue : s₂.queue = s.queue := hqueue₂.trans hqueue₁
    -- a link of `s₂` is an old one, and not the cleared one of `t`
    have hold : ∀ x y, s₂.nextReady x = some (some y) →
        s.nextReady x = some (some y) ∧ ¬x = t := by
      intro x y hxy
      by_cases hx : x = t
      · rw [hlinks, hx, Function.update_self] at hxy
        cases hxy
      · rw [hlinks, Function.update_of_ne hx] at hxy
        exact ⟨hxy, hx⟩
    refine .inr ⟨t, th.state, stateOf_of_lookup hth, hterm, ?_⟩
    split at h
    case isFalse => cases h
    case isTrue hprio =>
      split at h
      case h_1 hnil =>
        obtain rfl := Option.some.inj h
        refine ⟨hstate, ⟨fun i x hi hx => ?_, fun x y hxy => .inl (hold x y hxy)⟩⟩
        by_cases hip : i = th.priority
        · subst hip
          have hxt : some t = some x := by
            simpa [sti, setQueueTail, setQueue, logWrite] using hx
          exact .inr (Option.some.inj hxt).symm
        · refine .inl (queued_head hi ?_)
          simpa [sti, setQueueTail, setQueue, logWrite, hip, hqueue] using hx
      case h_2 hcons =>
        simp only [Option.bind_eq_some_iff] at h
        obtain ⟨l, -, s₃, hs₃, h⟩ := h
        obtain ⟨hstate₃, hlinks₃, hqueue₃⟩ := setNextReady_state hs₃
        obtain rfl := Option.some.inj h
        refine ⟨hstate₃.trans hstate, ⟨fun i x hi hx => ?_, fun x y hxy => ?_⟩⟩
        · exact .inl (queued_head hi (by rw [← hqueue, ← hqueue₃]; exact hx))
        · replace hxy : s₃.nextReady x = some (some y) := hxy
          by_cases hxl : x = l
          · rw [hlinks₃, hxl, Function.update_self] at hxy
            exact .inr (Option.some.inj (Option.some.inj hxy)).symm
          · rw [hlinks₃, Function.update_of_ne hxl] at hxy
            exact .inl (hold x y hxy)

/-- The dispatch loop takes a thread that a queue led to. -/
theorem takeReady_state {n : Nat} (hn : n ≤ processPriMax + 1) {r : Option Ptr}
    (h : s.takeReady n = some (r, s')) :
    s'.stateOf = s.stateOf ∧ NewPaths (fun _ => False) s s' ∧ ∀ t, r = some t → s.Queued t := by
  rcases takeReady_cases h with ⟨rfl, rfl, -⟩ | ⟨i, t, th, hi, hq, rfl, hth, rfl⟩
  · exact ⟨rfl, .of_eq rfl (fun _ _ hxy => hxy) fun _ => id, fun _ ht => by cases ht⟩
  · have hqueued : s.Queued t := queued_head (by omega) hq
    refine ⟨stateOf_insert hth rfl, ⟨fun j x hj hx => ?_, fun x y hxy => ?_⟩, fun t' ht' => ?_⟩
    · refine .inl ?_
      by_cases hji : j = i
      · subst hji
        refine queued_link hqueued ?_
        simp only [Function.update_self] at hx
        rw [nextReady, proj_eq_some]
        exact ⟨th, hth, hx⟩
      · exact queued_head hj (by simpa [hji] using hx)
    · replace hxy : proj Thread.nextReady (s.threads.insert t { th with nextReady := none }) x =
          some (some y) := hxy
      refine .inl ⟨?_, id⟩
      by_cases hx : x = t
      · rw [proj_insert, hx, Function.update_self] at hxy
        cases hxy
      · rw [proj_insert, Function.update_of_ne hx] at hxy
        exact hxy
    · exact Option.some.inj ht' ▸ hqueued

/-! ## Terminated threads stay terminated -/

/-- Every terminated thread is still terminated, and none has become current. -/
structure KeepsTerminated (s s' : Kernel) : Prop where
  state : ∀ x, s.stateOf x = some .terminated → s'.stateOf x = some .terminated
  current : ∀ x, s.stateOf x = some .terminated → s'.currentThread = some x →
    s.currentThread = some x

theorem KeepsTerminated.trans (h : KeepsTerminated s s') (h' : KeepsTerminated s' s'') :
    KeepsTerminated s s'' where
  state x hx := h'.state x (h.state x hx)
  current x hx hc := h.current x hx (h'.current x (h.state x hx) hc)

theorem KeepsTerminated.of_eq (hstate : s'.stateOf = s.stateOf)
    (hcur : s'.currentThread = s.currentThread) : KeepsTerminated s s' where
  state x hx := by rw [hstate, hx]
  current x _ hc := by rw [← hcur, hc]

/-- Marking a thread that was not terminated. -/
theorem KeepsTerminated.of_update {st st' : RunState} (ht : s.stateOf t = some st')
    (hst : st' ≠ .terminated) (hstate : s'.stateOf = Function.update s.stateOf t (some st))
    (hcur : s'.currentThread = s.currentThread) : KeepsTerminated s s' where
  state x hx := by
    have hxt : x ≠ t := by
      rintro rfl
      exact hst (Option.some.inj (ht.symm.trans hx))
    rw [hstate, Function.update_of_ne hxt, hx]
  current x _ hc := by rw [← hcur, hc]

theorem QueuedAlive.of_newPaths (h : s.QueuedAlive) (hpaths : NewPaths (fun _ => False) s s')
    (hstate : s'.stateOf = s.stateOf) : s'.QueuedAlive := by
  intro x hx
  rw [hstate]
  exact h x ((hpaths.queued hx).resolve_right id)

/-- A post keeps the invariant. -/
theorem QueuedAlive.post (h : s.QueuedAlive) {thread : Option Ptr}
    (hpost : s.schedulerPost thread = some s') : s'.QueuedAlive ∧ KeepsTerminated s s' := by
  obtain ⟨hcalm, -, -⟩ := schedulerPost_cases hpost
  rcases schedulerPost_state hpost with ⟨hstate, hpaths⟩ | ⟨t, st, ht, hst, hstate, hpaths⟩
  · exact ⟨h.of_newPaths hpaths hstate, .of_eq hstate hcalm.currentThread⟩
  · refine ⟨fun x hx => ?_, .of_update ht hst hstate hcalm.currentThread⟩
    by_cases hxt : x = t
    · exact ⟨.ready, by rw [hstate, hxt, Function.update_self], by simp⟩
    · rw [hstate, Function.update_of_ne hxt]
      exact h x ((hpaths.queued hx).resolve_right hxt)

/-- A switch to a thread that is not terminated. -/
theorem QueuedAlive.switch (h : s.QueuedAlive) {n : Ptr} {st : RunState} (hn : s.stateOf n = some st)
    (hst : st ≠ .terminated) (hswitch : s.schedulerSwitch P (some n) = some s') :
    s'.QueuedAlive ∧ KeepsTerminated s s' := by
  rcases schedulerSwitch_eq_some hswitch with ⟨-, rfl⟩ | ⟨c, cur, th, vm, -, -, -, hth, -, rfl⟩
  · exact ⟨h, .of_eq rfl rfl⟩
  have hne : ∀ x, s.stateOf x = some .terminated → x ≠ n := by
    rintro x hx rfl
    exact hst (Option.some.inj (hn.symm.trans hx))
  have hstate : proj Thread.state (s.threads.insert n { th with state := .running }) =
      Function.update s.stateOf n (some .running) := proj_insert ..
  have hlinks : proj Thread.nextReady (s.threads.insert n { th with state := .running }) =
      s.nextReady := nextReady_insert hth rfl
  refine ⟨fun x hx => ?_, ⟨fun x hx => ?_, fun x hx hc => ?_⟩⟩
  · have hold : s.Queued x := by
      obtain ⟨i, hi, us, hus⟩ := hx
      exact ⟨i, hi, us, hlinks ▸ hus⟩
    show ∃ st, proj Thread.state _ x = some st ∧ _
    by_cases hxn : x = n
    · exact ⟨.running, by rw [hstate, hxn, Function.update_self], by simp⟩
    · rw [hstate, Function.update_of_ne hxn]
      exact h x hold
  · show proj Thread.state _ x = _
    rw [hstate, Function.update_of_ne (hne x hx), hx]
  · exact absurd (Option.some.inj hc).symm (hne x hx)

/-- Taking a thread from a queue and switching to it, with interrupts disabled or
as they were. -/
theorem QueuedAlive.dispatch (h : s.QueuedAlive) {n : Ptr} {s₁ : Kernel} (ints : Bool)
    (htake : s.takeReady processPriMax = some (some n, s₁))
    (hswitch : { s₁ with ints := ints }.schedulerSwitch P (some n) = some s') :
    s'.QueuedAlive ∧ KeepsTerminated s s' := by
  obtain ⟨hstate, hpaths, htaken⟩ := takeReady_state (by decide) htake
  obtain ⟨st, hst, hlive⟩ := h n (htaken n rfl)
  have h₁ : s₁.QueuedAlive := h.of_newPaths hpaths hstate
  have h₁' : QueuedAlive { s₁ with ints := ints } := h₁
  obtain ⟨h', hkeeps'⟩ := h₁'.switch (hstate ▸ hst) hlive hswitch
  have hkeeps : KeepsTerminated s s₁ := .of_eq hstate (takeReady_frames htake).2.2
  exact ⟨h', hkeeps.trans ⟨hkeeps'.state, hkeeps'.current⟩⟩

/-- The dispatch loop alone keeps the invariant. -/
theorem QueuedAlive.takeReady (h : s.QueuedAlive) {r : Option Ptr}
    (htake : s.takeReady processPriMax = some (r, s')) :
    s'.QueuedAlive ∧ KeepsTerminated s s' := by
  obtain ⟨hstate, hpaths, -⟩ := takeReady_state (by decide) htake
  exact ⟨h.of_newPaths hpaths hstate, .of_eq hstate (takeReady_frames htake).2.2⟩

theorem QueuedAlive.tick (h : s.QueuedAlive) {context : Nat}
    (htick : s.schedulerTick P context = some s') : s'.QueuedAlive ∧ KeepsTerminated s s' := by
  obtain ⟨c, th, hc, hth, hcases⟩ := schedulerTick_cases htick
  -- the trap frame and the slice are in no path
  have hstores : ∀ th' : Thread, th'.state = th.state → th'.nextReady = th.nextReady →
      QueuedAlive { s with threads := s.threads.insert c th' } ∧
        KeepsTerminated s { s with threads := s.threads.insert c th' } := by
    intro th' hst hlink
    have hstate := stateOf_insert hth hst
    exact ⟨h.of_newPaths (.of_eq rfl (fun x y hxy => nextReady_insert hth hlink ▸ hxy) fun _ => id)
      hstate, .of_eq hstate rfl⟩
  rcases hcases with ⟨-, rfl⟩ | ⟨-, s₂, r, s₃, hpost, htake, hswitch⟩
  · exact hstores _ rfl rfl
  · obtain ⟨h₁, hkeeps₁⟩ := hstores { th with trapFrame := context, timeSlice := slice } rfl rfl
    obtain ⟨h₂, hkeeps₂⟩ := h₁.post hpost
    rcases hswitch with ⟨-, rfl⟩ | ⟨n, rfl, hswitch⟩
    · obtain ⟨h₃, hkeeps₃⟩ := h₂.takeReady htake
      exact ⟨h₃, (hkeeps₁.trans hkeeps₂).trans hkeeps₃⟩
    · obtain ⟨h₃, hkeeps₃⟩ := h₂.dispatch false htake hswitch
      exact ⟨h₃, (hkeeps₁.trans hkeeps₂).trans hkeeps₃⟩

/-- Marking a thread that waits in no queue. -/
theorem QueuedAlive.mark (h : s.QueuedAlive) {th : Thread} (hth : s.threads.lookup t = some th)
    (hqueued : ¬s.Queued t) (ints : Bool) :
    QueuedAlive { s with
      ints := ints, threads := s.threads.insert t { th with state := .terminated } } ∧
    KeepsTerminated s { s with
      ints := ints, threads := s.threads.insert t { th with state := .terminated } } := by
  have hstate : proj Thread.state (s.threads.insert t { th with state := .terminated }) =
      Function.update s.stateOf t (some .terminated) := proj_insert ..
  have hlinks : proj Thread.nextReady (s.threads.insert t { th with state := .terminated }) =
      s.nextReady := nextReady_insert hth rfl
  refine ⟨fun x hx => ?_, ⟨fun x hx => ?_, fun _ _ => id⟩⟩
  · have hold : s.Queued x := by
      obtain ⟨i, hi, us, hus⟩ := hx
      exact ⟨i, hi, us, hlinks ▸ hus⟩
    have hxt : x ≠ t := fun hxt => hqueued (hxt ▸ hold)
    show ∃ st, proj Thread.state _ x = some st ∧ _
    rw [hstate, Function.update_of_ne hxt]
    exact h x hold
  · show proj Thread.state _ x = _
    rw [hstate]
    by_cases hxt : x = t
    · rw [hxt, Function.update_self]
    · rw [Function.update_of_ne hxt, hx]

theorem QueuedAlive.exit (h : s.QueuedAlive) (hcur : ∀ c, s.currentThread = some c → ¬s.Queued c)
    (hexit : s.threadExit P = some s') : s'.QueuedAlive ∧ KeepsTerminated s s' := by
  obtain ⟨c, th, r, s₂, hc, hth, htake, hcases⟩ := threadExit_cases hexit
  obtain ⟨h₁, hkeeps₁⟩ := h.mark hth (hcur c hc) false
  rcases hcases with ⟨-, rfl⟩ | ⟨n, rfl, hswitch⟩
  · obtain ⟨h₂, hkeeps₂⟩ := h₁.takeReady htake
    exact ⟨h₂, (hkeeps₁.trans hkeeps₂).trans (.of_eq rfl rfl)⟩
  · obtain ⟨h₂, hkeeps₂⟩ := h₁.dispatch s₂.ints htake hswitch
    exact ⟨h₂, hkeeps₁.trans hkeeps₂⟩

/-- A new thread was not live, so no queue leads to it. -/
theorem QueuedAlive.create (h : s.QueuedAlive) {p : Ptr} {entry arg stack : Nat}
    {thread r : Option Ptr} (hfresh : ∀ t ∈ thread, s.threads.lookup t = none)
    (hcreate : s.threadCreate P p entry arg thread stack = some (r, s')) :
    s'.QueuedAlive ∧ KeepsTerminated s s' := by
  obtain ⟨t, rfl, ⟨-, -, rfl⟩ | ⟨-, -, pr, hp, rfl⟩⟩ := threadCreate_eq_some hcreate
  · exact ⟨h, .of_eq rfl rfl⟩
  · have ht := hfresh t rfl
    have hstate : proj Thread.state (s.threads.insert t (s.newThread p pr entry stack)) =
        Function.update s.stateOf t (some .ready) := proj_insert ..
    have hne : ∀ {x : Ptr} {st : RunState}, s.stateOf x = some st → x ≠ t := by
      rintro x st hx rfl
      cases (stateOf_eq_none.mpr ht).symm.trans hx
    refine ⟨fun x hx => ?_, ⟨fun x hx => ?_, fun _ _ => id⟩⟩
    · have hold : s.Queued x := by
        obtain ⟨i, hi, us, hus⟩ := hx
        refine hus.reaches_closed (R := s.Queued) (fun y hy => queued_head hi hy)
          fun y z hy hlink => queued_link hy ?_
        obtain ⟨st, hst, -⟩ := h y hy
        replace hlink : proj Thread.nextReady
            (s.threads.insert t (s.newThread p pr entry stack)) y = some (some z) := hlink
        rwa [proj_insert, Function.update_of_ne (hne hst)] at hlink
      obtain ⟨st, hst, hlive⟩ := h x hold
      refine ⟨st, ?_, hlive⟩
      show proj Thread.state _ x = _
      rw [hstate, Function.update_of_ne (hne hst), hst]
    · show proj Thread.state _ x = _
      rw [hstate, Function.update_of_ne (hne hx), hx]

/-- **Step lemma**: every call keeps the invariant and every terminated thread
terminated, unless it marks a thread that waits in a queue. -/
theorem QueuedAlive.step (h : s.QueuedAlive) {op : MarkOp} (hexec : s.markExec P op = some s')
    (hfresh : s.FreshThread op) (hmark : s.MarksUnqueued op) :
    s'.QueuedAlive ∧ KeepsTerminated s s' := by
  cases op with
  | threadCreate p entry arg thread stack =>
    obtain ⟨-, hcall⟩ := exec_eq_some.mp hexec
    obtain ⟨⟨r, s₁⟩, hs₁, rfl⟩ := Option.map_eq_some_iff.mp hcall
    exact h.create hfresh hs₁
  | schedulerPost thread => exact h.post (exec_eq_some.mp hexec).2
  | schedulerTick context =>
    have h₀ : QueuedAlive { s with ints := false } := h
    obtain ⟨h', hkeeps⟩ := h₀.tick (exec_eq_some.mp hexec).2
    exact ⟨h', hkeeps.state, hkeeps.current⟩
  | threadExit => exact h.exit hmark (exec_eq_some.mp hexec).2
  | terminate t =>
    obtain ⟨th, hth, rfl⟩ := Option.map_eq_some_iff.mp hexec
    exact h.mark hth hmark s.ints

variable {kp kt : Ptr} {junk : Junk} {mem : Mem} {cpu : Cpu} {vm : Vm}
  {tr tr' : List (Edge Kernel MarkOp)}

/-- The invariant holds in every state of a run in which no thread is marked
while it waits in a queue. -/
theorem run_queuedAlive (hrun : Run (markExec P) (started P mem cpu vm kp kt junk) tr s)
    (hok : ∀ e ∈ tr, e.pre.FreshThread e.op ∧ e.pre.MarksUnqueued e.op) : s.QueuedAlive := by
  refine hrun.invariant hok ?_ fun m op m' hm hstep hok => (hm.step hstep hok.1 hok.2).1
  -- `scheduler_init` leaves every queue empty
  rintro t ⟨i, -, us, hus⟩
  cases us with
  | nil => cases hus
  | cons u us => cases hus.1

/-- What is terminated in some state of a run stays so, and no later step makes
it current. -/
theorem run_keepsTerminated (h : s.QueuedAlive) (hrun : Run (markExec P) s tr s')
    (hok : ∀ e ∈ tr, e.pre.FreshThread e.op ∧ e.pre.MarksUnqueued e.op) (hx : s.stateOf x = some .terminated) :
    s'.stateOf x = some .terminated ∧ s'.QueuedAlive ∧
      ∀ e ∈ tr, e.post.stateOf x = some .terminated ∧ ¬e.post.Queued x ∧
        (e.post.currentThread = some x → e.pre.currentThread = some x) := by
  induction hrun with
  | nil => exact ⟨hx, h, by simp⟩
  | @snoc tr m m' op hrun hlast ih =>
    obtain ⟨hm, hmalive, hedges⟩ := ih fun e he => hok e (List.mem_append_left _ he)
    obtain ⟨hfresh, hmark⟩ := hok ⟨m, op, m'⟩ (by simp)
    obtain ⟨halive, hkeeps⟩ := hmalive.step hlast hfresh hmark
    have hx' := hkeeps.state x hm
    refine ⟨hx', halive, fun e he => ?_⟩
    rcases List.mem_append.mp he with hold | hnew
    · exact hedges e hold
    · obtain rfl := List.mem_singleton.mp hnew
      refine ⟨hx', fun hqueued => ?_, hkeeps.current x hm⟩
      obtain ⟨st, hst, hlive⟩ := halive x hqueued
      exact hlive (Option.some.inj (hst.symm.trans hx'))

/-- In every run in which no thread is marked while it waits in a queue, a
thread that is terminated in some state stays terminated, no queue leads to it
and no later call switches to it. -/
theorem run_staysTerminated
    (hbefore : Run (markExec P) (started P mem cpu vm kp kt junk) tr s)
    (hafter : Run (markExec P) s tr' s')
    (hfresh : ∀ e ∈ tr ++ tr', e.pre.FreshThread e.op)
    (hmark : ∀ e ∈ tr ++ tr', e.pre.MarksUnqueued e.op)
    (hx : s.stateOf x = some .terminated) :
    s'.stateOf x = some .terminated ∧
      ∀ e ∈ tr', e.post.stateOf x = some .terminated ∧ ¬e.post.Queued x ∧
        (e.post.currentThread = some x → e.pre.currentThread = some x) := by
  have hs := run_queuedAlive hbefore fun e he =>
    ⟨hfresh e (List.mem_append_left _ he), hmark e (List.mem_append_left _ he)⟩
  obtain ⟨hx', -, hedges⟩ := run_keepsTerminated hs hafter (fun e he =>
    ⟨hfresh e (List.mem_append_right _ he), hmark e (List.mem_append_right _ he)⟩) hx
  exact ⟨hx', hedges⟩

/-- A thread is created and marked, and then posted. -/
def markedFirst : List MarkOp := [.threadCreate 1 0 0 (some 2) 4096, .terminate 2]

/-- The post, and the ticks of a time slice. -/
def postedAfter : List MarkOp := .schedulerPost (some 2) :: List.replicate 5 (.schedulerTick 64)

/-- The marked thread never runs. -/
theorem run_staysTerminated_posted :
    ((postedAfter.foldl (Run.next (markExec samplePlatform))
      (markedFirst.foldl (Run.next (markExec samplePlatform)) sample)).stateOf 2) =
        some .terminated := by
  have hbefore : Run (markExec samplePlatform) sample _ _ :=
    Run.of_defined markedFirst (by decide)
  have hafter : Run (markExec samplePlatform)
      (markedFirst.foldl (Run.next (markExec samplePlatform)) sample) _ _ :=
    Run.of_defined postedAfter (by decide)
  refine (run_staysTerminated hbefore hafter ?_ ?_ (by decide)).1
  · simp only [markedFirst, postedAfter, List.replicate, Run.replay, List.cons_append,
      List.nil_append, List.forall_mem_cons]
    refine ⟨show ∀ t ∈ some 2, _ by decide, trivial, trivial, trivial, trivial, trivial, trivial,
      trivial, by simp⟩
  · simp only [markedFirst, postedAfter, List.replicate, Run.replay, List.cons_append,
      List.nil_append, List.forall_mem_cons]
    refine ⟨trivial, ?_, trivial, trivial, trivial, trivial, trivial, trivial, by simp⟩
    rintro ⟨i, -, us, hus⟩
    cases us with
    | nil => cases hus
    | cons u us => cases hus.1

/-- A thread is created, posted, and marked while it waits. -/
def markedWaiting : List MarkOp :=
  [.threadCreate 1 0 0 (some 2) 4096, .schedulerPost (some 2), .terminate 2]

/-- Five ticks later it runs. -/
theorem terminated_dispatched : ∃ tr m tr' s, Run (markExec samplePlatform) sample tr m ∧
    Run (markExec samplePlatform) m tr' s ∧ (∀ e ∈ tr ++ tr', e.pre.FreshThread e.op) ∧
    m.stateOf 2 = some .terminated ∧ m.currentThread = some 1 ∧
    s.stateOf 2 = some .running ∧ s.currentThread = some 2 := by
  refine ⟨_, markedWaiting.foldl (Run.next (markExec samplePlatform)) sample, _, _,
    Run.of_defined markedWaiting (by decide),
    Run.of_defined (List.replicate 5 (.schedulerTick 64)) (by decide), ?_, by decide, by decide,
    by decide, by decide⟩
  simp only [markedWaiting, List.replicate, Run.replay, List.cons_append, List.nil_append,
    List.forall_mem_cons]
  exact ⟨show ∀ t ∈ some 2, _ by decide, trivial, trivial, trivial, trivial, trivial, trivial,
    trivial, by simp⟩

end Kernel

end Leenix
