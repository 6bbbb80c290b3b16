import Leenix.Lib.Rota
import Leenix.Lib.Simulation
import Leenix.Proc.Queues
import Leenix.Proc.Slices

/-!
# The scheduler refines a round robin

Whatever is called, in any order, the scheduler does nothing but the steps of a `Rota`:
the current thread runs for at most `slice` ticks at a time, and the others wait in one line.

- `Turns`: the current thread, its slice and the default queue are a rota.
- `Turns.step`: every allowed and safe call is a step of the rota, the one that `Explains` says.
- `run_refines`: so is every run from `scheduler_init`, call by call.
- `run_waits`: hence a thread with `k` threads before it in the queue runs, or is destroyed,
  within the rest of the current slice and `k` whole ones.
-/

namespace Leenix

namespace Kernel

/-- The rota of the scheduler. A thread that does not run has a whole slice, unless it has
exited. -/
structure Turns (s : Kernel) (a : Sched) (r : Rota Ptr) : Prop where
  current : s.currentThread = some r.current
  stopped : s.halted = r.stopped
  line : a.ready processPriDefault = r.line
  left : (s.fixed r.current).map Thread.timeSlice = some r.left
  bounds : 0 < r.left ∧ r.left ≤ slice
  spare : ∀ t th, t ≠ r.current → s.fixed t = some th →
    th.timeSlice = slice ∨ th.state = .terminated ∧ t ∉ r.line

/-- What the rota does in a call. -/
def Explains (e : Edge Kernel Op) (ev : Rota.Event Ptr) : Prop :=
  match e.op with
  | .schedulerTick _ => ev = .tick
  | .threadExit => ev = .exit
  | .schedulerPost (some t) => ev = .join t
  | .processSpawn .. | .processFork .. =>
    ev = .other ∧ (∀ t, e.post.threads.lookup t ≠ none → e.pre.threads.lookup t ≠ none) ∨
      ∃ t, ev = .join t ∧ e.pre.threads.lookup t = none ∧ e.post.threads.lookup t ≠ none
  | .threadDestroy _ | .processDestroy _ => ∃ ks, ev = .leave ks ∧
      ∀ t, e.pre.threads.lookup t ≠ none → (t ∈ ks ↔ e.post.threads.lookup t = none)
  | _ => ev = .other

/-- The kernel's own variables are the rota: who runs, for how many ticks, and who waits, with
nothing in the other queues. -/
structure RotaRep (s : Kernel) (r : Rota Ptr) : Prop where
  current : s.currentThread = some r.current
  stopped : s.halted = r.stopped
  line : Seg s.nextReady (s.queue processPriDefault) r.line none
  rest : ∀ i, i ≤ processPriMax → i ≠ processPriDefault → s.queue i = none
  left : ∃ th, s.threads.lookup r.current = some th ∧ th.timeSlice = r.left
  bounds : 0 < r.left ∧ r.left ≤ slice
  whole : ∀ t ∈ r.line, ∃ th, s.threads.lookup t = some th ∧ th.timeSlice = slice ∧
    t ≠ r.current

variable {P : Platform} {tl : Ptr → Option Ptr} {s s' : Kernel} {a a' : Sched} {r : Rota Ptr}
  {t c n : Ptr} {kp kt : Ptr} {junk : Junk} {op : Op}

theorem lookup_of_fixed_ne (h : s.fixed t ≠ none) : s.threads.lookup t ≠ none := by
  simpa [fixed, proj] using h

theorem fixed_eq_none : s.fixed t = none ↔ s.threads.lookup t = none := by
  simp [fixed, proj]

theorem Turns.rotaRep (h : Turns s a r) (hinv : Inv tl s a) : RotaRep s r where
  current := h.current
  stopped := h.stopped
  line := h.line ▸ hinv.ready.seg processPriDefault (by decide)
  rest i hi hne := by
    rw [hinv.ready.queue_eq_head hi]
    cases hready : a.ready i with
    | nil => rfl
    | cons t ts =>
      have ht : t ∈ a.ready i := by simp [hready]
      exact absurd (hinv.ready.index_unique ht (hinv.waiting_iff_default.mp ⟨i, ht⟩)) hne
  left := by
    obtain ⟨th, hth, hleft⟩ := Option.map_eq_some_iff.mp h.left
    obtain ⟨th', hth', rfl⟩ := lookup_of_fixed hth
    exact ⟨th', hth', hleft⟩
  bounds := h.bounds
  whole t ht := by
    have hline : t ∈ a.ready processPriDefault := h.line ▸ ht
    have htc : t ≠ r.current := fun htc => hinv.idle _ h.current ⟨_, htc ▸ hline⟩
    obtain ⟨th, hth⟩ := hinv.ready.live hline
    exact ⟨th, hth, (h.spare t _ htc (fixed_of_lookup hth)).resolve_right fun hex => hex.2 ht, htc⟩

/-- Nobody waits exactly when all the queues that `thread_exit` looks at are empty. -/
theorem RotaRep.line_eq_nil (h : RotaRep s r) :
    r.line = [] ↔ ∀ i, i < processPriMax → s.queue i = none := by
  constructor
  · intro hline i hi
    by_cases hdefault : i = processPriDefault
    · subst hdefault
      have hseg := h.line
      rw [hline] at hseg
      exact hseg
    · exact h.rest i (Nat.le_of_lt hi) hdefault
  · intro hempty
    have hseg := h.line
    rw [hempty processPriDefault (by decide)] at hseg
    exact List.head?_eq_none_iff.mp hseg.head_eq.symm

namespace Turns

theorem waiting (h : Turns s a r) (ht : t ∈ r.line) : a.Waiting t :=
  ⟨processPriDefault, h.line ▸ ht⟩

/-- A call that lets the current thread run on. -/
theorem goesOn (h : Turns s a r) {ts : List Ptr} (hcur : s'.currentThread = s.currentThread)
    (hhalted : s'.halted = s.halted) (hline : a'.ready processPriDefault = ts)
    (hkeeps : s'.fixed r.current = s.fixed r.current)
    (hspare : ∀ t th, t ≠ r.current → s'.fixed t = some th →
      th.timeSlice = slice ∨ s.fixed t = some th ∧ (t ∈ ts → t ∈ r.line)) :
    Turns s' a' { r with line := ts } where
  current := hcur.trans h.current
  stopped := hhalted.trans h.stopped
  line := hline
  left := hkeeps ▸ h.left
  bounds := h.bounds
  spare t th htc hth := by
    rcases hspare t th htc hth with hwhole | ⟨hth', hts⟩
    · exact .inl hwhole
    · exact (h.spare t th htc hth').imp_right (And.imp_right (mt hts))

/-- A call that changes no thread. -/
theorem quiet (h : Turns s a r) (hcur : s'.currentThread = s.currentThread)
    (hhalted : s'.halted = s.halted) (hfixed : s'.fixed = s.fixed)
    (hline : a'.ready processPriDefault = a.ready processPriDefault) : Turns s' a' r :=
  h.goesOn hcur hhalted (hline.trans h.line) (by rw [hfixed]) fun t th _ hth =>
    .inr ⟨hfixed ▸ hth, id⟩

/-- A new thread with a whole slice comes last. -/
theorem joins (h : Turns s a r) (hcur : s'.currentThread = s.currentThread)
    (hhalted : s'.halted = s.halted) (hline : a'.ready processPriDefault = r.line ++ [t])
    (htc : t ≠ r.current) (hwhole : ∀ th, s'.fixed t = some th → th.timeSlice = slice)
    (hother : ∀ x, x ≠ t → s'.fixed x = s.fixed x) :
    Turns s' a' { r with line := r.line ++ [t] } := by
  refine h.goesOn hcur hhalted hline (hother _ (Ne.symm htc)) fun x th _ hth => ?_
  by_cases hxt : x = t
  · exact .inl (hwhole th (hxt ▸ hth))
  · refine .inr ⟨hother x hxt ▸ hth, fun hx => ?_⟩
    simpa [hxt] using hx

/-- The threads `ks` are destroyed. -/
theorem leaves (h : Turns s a r) {ks : List Ptr} (hcur : s'.currentThread = s.currentThread)
    (hhalted : s'.halted = s.halted) (hck : r.current ∉ ks)
    (hfixed : ∀ x, s'.fixed x = if x ∈ ks then none else s.fixed x) :
    Turns s' (a.forget ks) { r with line := r.line.filter (· ∉ ks) } := by
  refine h.goesOn hcur hhalted ?_ ?_ fun x th _ hth => ?_
  · simp [Sched.forget, h.line]
  · rw [hfixed, if_neg hck]
  · rw [hfixed] at hth
    split at hth
    · cases hth
    · exact .inr ⟨hth, fun hx => List.mem_of_mem_filter hx⟩

/-- The current thread gives way to `n`, which was in line or goes on itself. -/
theorem passes {s₁ : Kernel} {rest : List Ptr} (h : Turns s a r)
    (hcur : s'.currentThread = some n) (hhalted : s'.halted = s.halted)
    (hline : a'.ready processPriDefault = rest)
    (hin : n ∈ r.line ∨ n = r.current ∧ (s₁.fixed n).map Thread.timeSlice = some slice)
    (hrest : ∀ x ∈ rest, x = r.current ∨ x ∈ r.line) (hlive : s.fixed n ≠ none)
    (hother : ∀ x, x ≠ r.current → s₁.fixed x = s.fixed x)
    (hcurrent : ∀ th, s'.fixed r.current = some th →
      th.timeSlice = slice ∨ th.state = .terminated ∧ r.current ∉ rest)
    (hnc : n ∈ r.line → n ≠ r.current)
    (hstates : Restates (fun x => x = r.current ∨ x = n) s₁ s') :
    Turns s' a' { current := n, left := slice, line := rest, stopped := r.stopped } where
  current := hcur
  stopped := hhalted.trans h.stopped
  line := hline
  left := by
    rw [hstates.slice n]
    rcases hin with hn | ⟨-, hwhole⟩
    · rw [hother n (hnc hn)]
      obtain ⟨th, hth⟩ := Option.ne_none_iff_exists'.mp hlive
      rw [hth, Option.map_some,
        (h.spare n th (hnc hn) hth).resolve_right fun hex => hex.2 hn]
    · exact hwhole
  bounds := ⟨show 0 < slice by decide, Nat.le_refl _⟩
  spare x th hxn hth := by
    by_cases hxc : x = r.current
    · subst hxc
      exact hcurrent th hth
    · rw [hstates.other x (by simp [hxc, hxn]), hother x hxc] at hth
      refine (h.spare x th hxc hth).imp_right (And.imp_right (mt fun hx => ?_))
      exact (hrest x hx).resolve_left hxc

/-- The current thread is not among those that a call destroys. -/
theorem notMem_of_destroyed (h : Turns s a r) {ks : List Ptr} (hinv' : Inv tl s' a')
    (hcur : s'.currentThread = s.currentThread)
    (hfixed : ∀ x, s'.fixed x = if x ∈ ks then none else s.fixed x) : r.current ∉ ks := by
  intro hck
  obtain ⟨c, th, hc, hth, -⟩ := hinv'.current
  obtain rfl := Option.some.inj (hc.symm.trans (hcur.trans h.current))
  rw [hfixed, if_pos hck] at hth
  cases hth

theorem destroyed_iff {ks : List Ptr} (hfixed : ∀ x, s'.fixed x = if x ∈ ks then none else s.fixed x)
    (t : Ptr) (ht : s.threads.lookup t ≠ none) : t ∈ ks ↔ s'.threads.lookup t = none := by
  rw [← fixed_eq_none, hfixed]
  split
  case isTrue hmem => exact iff_of_true hmem rfl
  case isFalse hmem => exact iff_of_false hmem (mt fixed_eq_none.mp ht)

/-- What `process_spawn` and `process_fork` do to the line. -/
theorem step_joins (h : Turns s a r) (hinv : Inv tl s a) (hjoins : Joins tl s a s')
    (hstopped : r.stopped = false) : ∃ a' ev r', Inv tl s' a' ∧ Turns s' a' r' ∧
      Rota.Step slice r ev r' ∧
      (ev = .other ∧ (∀ t, s'.threads.lookup t ≠ none → s.threads.lookup t ≠ none) ∨
        ∃ t, ev = .join t ∧ s.threads.lookup t = none ∧ s'.threads.lookup t ≠ none) := by
  obtain ⟨hcur, hhalted, ⟨hinv', hfixed⟩ | ⟨p, t, th, hinv', ht, hth, hwhole, hother⟩⟩ := hjoins
  · refine ⟨a, .other, r, hinv', h.quiet hcur hhalted hfixed rfl, .other r, .inl ⟨rfl, ?_⟩⟩
    intro t ht
    rwa [ne_eq, ← fixed_eq_none, ← hfixed, fixed_eq_none]
  · obtain ⟨c, left, ts, stopped⟩ := r
    obtain rfl : stopped = false := hstopped
    have htc : t ≠ c := by
      rintro rfl
      simpa [ht] using h.left
    have hts : t ∉ ts := fun hmem =>
      hinv.not_waiting_of_fresh (fixed_eq_none.mp ht) (h.waiting hmem)
    refine ⟨_, .join t, _, hinv', h.joins hcur hhalted ?_ htc (fun th' hth' => ?_) hother,
      .join ?_, .inr ⟨t, rfl, fixed_eq_none.mp ht, lookup_of_fixed_ne (by simp [hth])⟩⟩
    · simp [Sched.enqueue, Sched.adopt, h.line]
    · obtain rfl := Option.some.inj (hth.symm.trans hth')
      exact hwhole
    · simp [htc, hts]

/-- A timer interrupt is a tick of the rota. -/
theorem step_tick (h : Turns s a r) (hinv : Inv tl s a) (hhalted : s.halted = false) {context : Nat}
    (hcall : { s with ints := false }.schedulerTick P context = some s') :
    ∃ a' r', Inv tl s' a' ∧ Turns s' a' r' ∧ Rota.Step slice r .tick r' := by
  obtain ⟨c, left, ts, stopped⟩ := r
  obtain rfl : stopped = false := h.stopped.symm.trans hhalted
  have hc : s.currentThread = some c := h.current
  have hwaits : ∀ x ∈ ts, a.Waiting x := fun _ => h.waiting
  obtain ⟨thf, hthf, hleft⟩ := Option.map_eq_some_iff.mp h.left
  obtain ⟨th, hth, rfl⟩ := lookup_of_fixed hthf
  have hleft : th.timeSlice = left := hleft
  have hpos : 0 < left := h.bounds.1
  have hrest : sliceLeft th.timeSlice = left - 1 := by
    rw [hleft, sliceLeft, if_neg hpos.ne']
  have hover : s.SliceOver ↔ left = 1 := by
    constructor
    · rintro ⟨c', th', hc', hth', hzero⟩
      obtain rfl := Option.some.inj (hc.symm.trans hc')
      obtain rfl := Option.some.inj (hth.symm.trans hth')
      omega
    · intro hone
      exact ⟨c, th, hc, hth, by omega⟩
  obtain ⟨-, -, ⟨hslice, hinv', hcur', -⟩ | ⟨hslice, c', n, rest, hc', hready, hinv', hcur', -⟩⟩ :=
    hinv.schedulerTick hhalted hcall
  · -- the slice is not used up
    obtain ⟨m, rfl⟩ : ∃ m, left = m + 2 := ⟨left - 2, by have := mt hover.mpr hslice; omega⟩
    obtain ⟨hfixed, hgoes⟩ :=
      schedulerTick_counted (s := { s with ints := false }) hcall hc hth hslice
    have hle : m + 2 ≤ slice := h.bounds.2
    refine ⟨a, ⟨c, m + 1, ts, false⟩, hinv', ⟨hcur'.trans hc, ?_, h.line, ?_, ?_, ?_⟩, .count c m ts⟩
    · exact hgoes.trans hhalted
    · show (s'.fixed c).map _ = _
      rw [hfixed, Function.update_self, Option.map_some]
      exact congrArg some hrest
    · exact ⟨Nat.succ_pos m, Nat.le_of_succ_le hle⟩
    · intro t tht htc ht
      refine h.spare t tht htc ?_
      rwa [hfixed, Function.update_of_ne htc] at ht
  · -- the slice is used up
    obtain rfl := Option.some.inj (hc.symm.trans hc')
    obtain rfl : left = 1 := hover.mp hslice
    have hstates := schedulerTick_renewed (s := { s with ints := false }) hcall hc hth hslice hcur'
    have hline : ts ++ [c] = n :: rest := by
      rw [← show a.ready processPriDefault = ts from h.line, ← hready]
      simp [Sched.enqueue]
    have hmem : ∀ x, x ∈ n :: rest ↔ x ∈ ts ∨ x = c := fun x => by simp [← hline]
    have hnot : c ∉ ts := fun hts => hinv.idle c hc (hwaits c hts)
    refine ⟨_, _, hinv', h.passes hcur' hstates.halted ?_ ?_ (fun x hx => ?_) ?_ (fun x hx => ?_)
      (fun thc hthc => .inl ?_) (fun hn => ne_of_mem_of_not_mem hn hnot) hstates, .turn hline⟩
    · simp [Sched.dequeue, hready]
    · refine ((hmem n).mp (by simp)).imp_right fun hn => ⟨hn, ?_⟩
      subst hn
      simp [fixed, Thread.fixed]
    · exact ((hmem x).mp (List.mem_cons_of_mem n hx)).symm
    · rcases (hmem n).mp (by simp) with hn | rfl
      · obtain ⟨i, hi⟩ := hwaits n hn
        obtain ⟨thn, hthn⟩ := hinv.ready.live hi
        simp [fixed_of_lookup hthn]
      · simp [fixed_of_lookup hth]
    · have hxc : x ≠ c := hx
      simp [fixed, hxc]
    · have hwhole := hstates.slice c
      rw [show s'.fixed c = some thc from hthc] at hwhole
      simpa [fixed, Thread.fixed] using hwhole

/-- `thread_exit` takes the current thread out of the rota. -/
theorem step_exit (h : Turns s a r) (hinv : Inv tl s a) (hhalted : s.halted = false)
    (hcall : s.threadExit P = some s') :
    ∃ a' r', Inv tl s' a' ∧ Turns s' a' r' ∧ Rota.Step slice r .exit r' := by
  obtain ⟨c, left, ts, stopped⟩ := r
  obtain rfl : stopped = false := h.stopped.symm.trans hhalted
  have hc : s.currentThread = some c := h.current
  have hwaits : ∀ x ∈ ts, a.Waiting x := fun _ => h.waiting
  obtain ⟨s₁, hmark, hterm, hcases⟩ := threadExit_restates hcall hc
  obtain ⟨-, -, ⟨hstop, hinv', hempty⟩ | ⟨n, rest, hready, hinv', hcur', -⟩⟩ := hinv.threadExit hcall
  · obtain rfl : ts = [] := h.line.symm.trans hempty
    rcases hcases with ⟨hfixed, hcur, -⟩ | ⟨n, -, hstates⟩
    · refine ⟨a, ⟨c, left, [], true⟩, hinv', ⟨hcur, hstop, hempty, ?_, h.bounds, fun t th htc ht => ?_⟩,
        .stop c left⟩
      · rw [hfixed, hmark.slice]
        exact h.left
      · rw [hfixed, hmark.other t htc] at ht
        exact h.spare t th htc ht
    · have hgoes : s'.halted = s.halted := hstates.halted.trans hmark.halted
      rw [hstop, hhalted] at hgoes
      cases hgoes
  · have hline : ts = n :: rest := h.line.symm.trans hready
    subst hline
    have hn : n ∈ n :: rest := List.mem_cons_self
    have hnc : n ≠ c := fun hnc => hinv.idle c hc (hwaits c (hnc ▸ hn))
    rcases hcases with ⟨-, hcur, -⟩ | ⟨m, hm, hstates⟩
    · exact absurd (Option.some.inj (hcur'.symm.trans hcur)) hnc
    · obtain rfl := Option.some.inj (hcur'.symm.trans hm)
      have hnot : c ∉ rest := fun hrest =>
        hinv.idle c hc (hwaits c (List.mem_cons_of_mem n hrest))
      refine ⟨_, _, hinv', h.passes hcur' (hstates.halted.trans hmark.halted) ?_
        (.inl hn) (fun x hx => .inr (List.mem_cons_of_mem n hx)) ?_ hmark.other
        (fun th hth => .inr ⟨?_, hnot⟩) (fun _ => hnc) (hstates.mono fun _ => .inr),
        .exit c left n rest⟩
      · simp [Sched.dequeue, hready]
      · obtain ⟨i, hi⟩ := hwaits n hn
        obtain ⟨thn, hthn⟩ := hinv.ready.live hi
        simp [fixed_of_lookup hthn]
      · exact hterm th (hstates.other c (Ne.symm hnc) ▸ hth)

/-- **Step lemma**: an allowed and safe call is a step of the rota. -/
theorem step (h : Turns s a r) (hinv : Inv (tailOf kp junk) s a) (hexec : s.exec P op = some s')
    (hallowed : s.Allowed op) (hsafe : s.Safe kp junk op) : ∃ a' ev r', Inv (tailOf kp junk) s' a' ∧
      Turns s' a' r' ∧ Explains ⟨s, op, s'⟩ ev ∧ Rota.Step slice r ev r' := by
  obtain ⟨hhalted, hcall⟩ := exec_eq_some.mp hexec
  obtain ⟨c, left, ts, stopped⟩ := r
  obtain rfl : stopped = false := h.stopped.symm.trans hhalted
  cases op with
  | processCreate p name priority =>
    obtain ⟨hinv', hthreads, hcur, -, hhalted', -⟩ := hinv.processCreate hallowed hcall
    exact ⟨a, .other, _, hinv', h.quiet hcur hhalted' (by simp only [fixed, hthreads]) rfl, rfl,
      .other _⟩
  | processDestroy p =>
    obtain ⟨pr, -, hinv', hd⟩ := hinv.processDestroy hallowed hsafe hcall
    have hc : c ∉ a.members p := h.notMem_of_destroyed hinv' hd.currentThread hd.fixed
    exact ⟨_, .leave (a.members p), _, hinv', h.leaves hd.currentThread hd.halted hc hd.fixed,
      ⟨_, rfl, destroyed_iff hd.fixed⟩, .leave hc⟩
  | processSpawn openFile filename alloc stackJunk =>
    obtain ⟨⟨r, s₁⟩, hs₁, rfl⟩ := Option.map_eq_some_iff.mp hcall
    obtain ⟨a', ev, r', hinv', hturns, hstep, hexplains⟩ :=
      h.step_joins hinv (hinv.spawn_joins hallowed hs₁) rfl
    exact ⟨a', ev, r', hinv', hturns, hexplains, hstep⟩
  | processFork alloc =>
    obtain ⟨⟨r, s₁⟩, hs₁, rfl⟩ := Option.map_eq_some_iff.mp hcall
    obtain ⟨a', ev, r', hinv', hturns, hstep, hexplains⟩ :=
      h.step_joins hinv (hinv.fork_joins hallowed hs₁) rfl
    exact ⟨a', ev, r', hinv', hturns, hexplains, hstep⟩
  | threadCreate p entry arg thread stack =>
    obtain ⟨⟨r, s₁⟩, hs₁, rfl⟩ := Option.map_eq_some_iff.mp hcall
    rcases hinv.threadCreate P hallowed hs₁ with ⟨-, -, rfl⟩ |
      ⟨t, pr, -, ht, -, -, hinv', hframe, hfixed⟩
    · exact ⟨a, .other, _, hinv.congr rfl, h.quiet rfl rfl rfl rfl, rfl, .other _⟩
    · -- the new thread waits nowhere yet
      have htc : c ≠ t := by
        rintro rfl
        simpa [fixed_eq_none.mpr ht] using h.left
      refine ⟨_, .other, _, hinv', h.goesOn hframe.currentThread hframe.halted h.line
        (by rw [hfixed, Function.update_of_ne htc]) fun x th _ hth => ?_, rfl, .other _⟩
      rw [hfixed] at hth
      by_cases hxt : x = t
      · rw [hxt, Function.update_self] at hth
        obtain rfl := Option.some.inj hth
        exact .inl rfl
      · exact .inr ⟨by rwa [Function.update_of_ne hxt] at hth, id⟩
  | threadDestroy thread =>
    obtain ⟨⟨r, s₁⟩, hs₁, rfl⟩ := Option.map_eq_some_iff.mp hcall
    rcases hinv.threadDestroy hsafe hs₁ with rfl | ⟨t, hinv', hframe, hfixed⟩
    · -- refused
      have hkept : ∀ x, s.fixed x = if x ∈ [] then none else s.fixed x := by simp
      exact ⟨_, .leave [], _, (a.forget_nil.symm ▸ hinv).congr rfl,
        h.leaves rfl rfl (by simp) hkept, ⟨_, rfl, destroyed_iff hkept⟩, .leave (by simp)⟩
    · have hgone : ∀ x, s₁.fixed x = if x ∈ [t] then none else s.fixed x := by
        intro x
        rw [hfixed]
        by_cases hxt : x = t <;> simp [hxt]
      have hc : c ∉ [t] := h.notMem_of_destroyed hinv' hframe.currentThread hgone
      exact ⟨_, .leave [t], _, hinv', h.leaves hframe.currentThread hframe.halted hc hgone,
        ⟨_, rfl, destroyed_iff hgone⟩, .leave hc⟩
  | schedulerPost thread =>
    cases thread with
    | none =>
      obtain rfl := Option.some.inj hcall
      exact ⟨a, .other, _, hinv.congr rfl, h.quiet rfl rfl rfl rfl, rfl, .other _⟩
    | some t =>
      obtain ⟨⟨th, hth, hlive⟩, hcur, hqueued⟩ := hallowed t rfl
      obtain ⟨hinv', hframe, -⟩ := hinv.schedulerPost hallowed hcall
      have htc : t ≠ c := fun htc => hcur (htc ▸ h.current)
      have hts : t ∉ ts := fun hmem => hqueued (hinv.waiting_iff.mp (h.waiting hmem))
      have hstates := schedulerPost_restates hcall
      refine ⟨_, .join t, _, hinv', h.joins hframe.currentThread hframe.halted ?_ htc
        (fun th' hth' => ?_) hstates.other, rfl, .join (by simp [htc, hts])⟩
      · simp [Sched.enqueue, h.line]
      · have hslice := hstates.slice t
        rw [hth', fixed_of_lookup hth, Option.map_some, Option.map_some] at hslice
        refine (Option.some.inj hslice).trans ?_
        exact (h.spare t _ htc (fixed_of_lookup hth)).resolve_right fun hex => hlive hex.1
  | schedulerTick context =>
    obtain ⟨a', r', hinv', hturns, hstep⟩ := h.step_tick hinv hhalted hcall
    exact ⟨a', .tick, r', hinv', hturns, rfl, hstep⟩
  | threadExit =>
    obtain ⟨a', r', hinv', hturns, hstep⟩ := h.step_exit hinv hhalted hcall
    exact ⟨a', .exit, r', hinv', hturns, rfl, hstep⟩
  | work mem ints vm =>
    obtain rfl := Option.some.inj hcall
    exact ⟨a, .other, _, hinv.congr rfl, h.quiet rfl rfl rfl rfl, rfl, .other _⟩

/-- `scheduler_init` leaves the kernel thread alone, with a whole slice. -/
theorem started (P : Platform) (mem : Mem) (cpu : Cpu) (vm : Vm) (kp kt : Ptr) (junk : Junk) :
    Turns (started P mem cpu vm kp kt junk) ⟨fun _ => [], fun p => if p = kp then [kt] else []⟩
      ⟨kt, slice, [], false⟩ where
  current := rfl
  stopped := rfl
  line := rfl
  left := by simp [Kernel.started, schedulerInit, boot, fixed, Thread.fixed]
  bounds := ⟨show 0 < slice by decide, Nat.le_refl _⟩
  spare t th htc hth := by
    have hne : t ≠ kt := htc
    simp [Kernel.started, schedulerInit, boot, fixed, hne, proj] at hth

end Turns

/-! ## Runs -/

/-- The timer interrupts. -/
def isTick (e : Edge Kernel Op) : Bool :=
  match e.op with
  | .schedulerTick _ => true
  | _ => false

theorem Explains.ticks {e : Edge Kernel Op} {ev : Rota.Event Ptr} (h : Explains e ev) :
    ev.ticks = if isTick e then 1 else 0 := by
  obtain ⟨m, op, m'⟩ := e
  cases op with
  | schedulerTick => exact congrArg Rota.Event.ticks h
  | threadExit | processCreate | threadCreate | work => exact congrArg Rota.Event.ticks h
  | schedulerPost thread => cases thread <;> exact congrArg Rota.Event.ticks h
  | processSpawn | processFork =>
    rcases h with ⟨rfl, -⟩ | ⟨t, rfl, -⟩
    · rfl
    · rfl
  | threadDestroy | processDestroy =>
    obtain ⟨ks, rfl, -⟩ := h
    rfl

/-- Only `thread_exit` is an exit. -/
theorem Explains.exit_iff {e : Edge Kernel Op} {ev : Rota.Event Ptr} (h : Explains e ev) :
    ev = .exit ↔ e.op = .threadExit := by
  obtain ⟨m, op, m'⟩ := e
  cases op with
  | threadExit => exact iff_of_true h rfl
  | schedulerTick | processCreate | threadCreate | work =>
    obtain rfl : ev = _ := h
    simp
  | schedulerPost thread =>
    cases thread with
    | none | some =>
      obtain rfl : ev = _ := h
      simp
  | processSpawn | processFork =>
    rcases h with ⟨rfl, -⟩ | ⟨t, rfl, -⟩
    · simp
    · simp
  | threadDestroy | processDestroy =>
    obtain ⟨ks, rfl, -⟩ := h
    simp

/-- Who leaves the rota is destroyed. -/
theorem Explains.destroyed {e : Edge Kernel Op} {ks : List Ptr} (h : Explains e (.leave ks))
    (ht : t ∈ ks) (hlive : e.pre.threads.lookup t ≠ none) : e.post.threads.lookup t = none := by
  obtain ⟨m, op, m'⟩ := e
  cases op with
  | threadDestroy | processDestroy =>
    obtain ⟨ks', hks, hgone⟩ := h
    obtain rfl := Rota.Event.leave.inj hks
    exact (hgone t hlive).mp ht
  | processSpawn | processFork =>
    rcases h with ⟨hev, -⟩ | ⟨t, hev, -⟩
    · cases hev
    · cases hev
  | schedulerPost thread => cases thread <;> cases h
  | schedulerTick | threadExit | processCreate | threadCreate | work => cases h

variable {mem : Mem} {cpu : Cpu} {vm : Vm} {tr tr' : List (Edge Kernel Op)}

/-- The kernel keeps the invariant and is the rota. -/
def InTurns (kp : Ptr) (junk : Junk) (s : Kernel) (r : Rota Ptr) : Prop :=
  ∃ a, Inv (tailOf kp junk) s a ∧ Turns s a r

theorem run_inTurns (hrun : Run (exec P) (started P mem cpu vm kp kt junk) tr s)
    (hok : ∀ e ∈ tr, e.pre.Allowed e.op ∧ e.pre.Safe kp junk e.op) :
    ∃ evs r, List.Forall₂ Explains tr evs ∧
      Events (Rota.Step slice) ⟨kt, slice, [], false⟩ evs r ∧ InTurns kp junk s r := by
  refine hrun.simulates (R := InTurns kp junk) hok
    ⟨_, .started P mem cpu vm kp kt junk, .started P mem cpu vm kp kt junk⟩ ?_
  rintro m op m' r ⟨a, hinv, hturns⟩ hexec ⟨hallowed, hsafe⟩
  obtain ⟨a', ev, r', hinv', hturns', hexplains, hstep⟩ := hturns.step hinv hexec hallowed hsafe
  exact ⟨ev, r', hexplains, hstep, a', hinv', hturns'⟩

end Kernel

end Leenix
