import Leenix.Proc.Effects

/-!
# The thread list of a process

`thread_create` puts a thread at the head of the list of its process, and
`thread_destroy` takes one out wherever it stands, by way of the `parent` field
of the thread. `createdThreads` is the list as the calls of a run make it: the threads
that `thread_create` returned, newest first, without those for which
`thread_destroy` returned 0. `run_threadList` compares it with the links.

Nothing is asked of the ready queues. A thread may be posted twice, or while it
runs; whatever that does to `next_ready`, it does nothing to `next`. Where it makes a
later call fault or walk in a circle, the run ends in front of that call: the list part
of `thread_destroy` itself always comes to its end (`Listed.unlinkThread`).
-/

namespace Leenix

namespace Kernel

variable {P : Platform} {s s' s'' : Kernel} {t p : Ptr} {l : List Ptr}

/-! ## The calls and their history -/

/-- The calls in question: `thread_create` on `p` with a block from `malloc`,
`thread_destroy` of a live thread of `p`, the scheduler's calls, and other code. -/
def CallOn (p : Ptr) (e : Edge Kernel Op) : Prop :=
  match e.op with
  | .threadCreate q _ _ thread _ => q = p ∧ ∀ t ∈ thread, e.pre.threads.lookup t = none
  | .threadDestroy thread =>
    ∀ t ∈ thread, ∃ th ∈ e.pre.threads.lookup t, th.parent = some p
  | .schedulerPost _ | .schedulerTick _ | .work .. => True
  | _ => False

instance (p : Ptr) (e : Edge Kernel Op) : Decidable (CallOn p e) :=
  match e with
  | ⟨s, .threadCreate q _ _ thread _, _⟩ =>
    inferInstanceAs (Decidable (q = p ∧ ∀ t ∈ thread, s.threads.lookup t = none))
  | ⟨s, .threadDestroy thread, _⟩ =>
    inferInstanceAs (Decidable (∀ t ∈ thread, ∃ th ∈ s.threads.lookup t, th.parent = some p))
  | ⟨_, .schedulerPost _, _⟩ | ⟨_, .schedulerTick _, _⟩ | ⟨_, .work .., _⟩ => isTrue trivial
  | ⟨_, .processCreate .., _⟩ | ⟨_, .processDestroy _, _⟩ | ⟨_, .processSpawn .., _⟩
  | ⟨_, .processFork _, _⟩ | ⟨_, .threadExit, _⟩ => isFalse id

/-- The thread that a `thread_create` on `p` returned. -/
def createdBy (P : Platform) (p : Ptr) (e : Edge Kernel Op) : Option Ptr :=
  match e.op with
  | .threadCreate q entry arg thread stack =>
    if q = p then (e.pre.threadCreate P p entry arg thread stack).bind Prod.fst else none
  | _ => none

/-- The thread for which `thread_destroy` returned 0. -/
def destroyedBy (e : Edge Kernel Op) : Option Ptr :=
  match e.op with
  | .threadDestroy thread =>
    if (e.pre.threadDestroy thread).map Prod.fst = some 0 then thread else none
  | _ => none

/-- The threads of `p` after a step: a new one comes first, a destroyed one is gone. -/
def createdStep (P : Platform) (p : Ptr) (l : List Ptr) (e : Edge Kernel Op) : List Ptr :=
  (createdBy P p e).toList ++ l.filter (· ∉ (destroyedBy e).toList)

/-- The threads created for `p` in a run and not destroyed since, newest first. -/
def createdThreads (P : Platform) (p : Ptr) (tr : List (Edge Kernel Op)) : List Ptr :=
  tr.foldl (createdStep P p) []

/-- The call is a `thread_create`. -/
def Op.isThreadCreate : Op → Bool
  | .threadCreate .. => true
  | _ => false

/-- The number of calls of `thread_create` in a run. -/
def creations (tr : List (Edge Kernel Op)) : Nat := tr.countP fun e => e.op.isThreadCreate

/-- The `tid` field of each live thread, a `uint32_t`. -/
def tid (s : Kernel) : Ptr → Option Nat := proj (fun th => u32 th.tid) s.threads

/-! ## Calls that leave the lists alone -/

/-- What the lists of threads are made of, for each live thread: `tid`, `parent`
and `next`. -/
def listing (s : Kernel) : Ptr → Option (Nat × Option Ptr × Option Ptr) :=
  proj (fun th => (th.tid, th.parent, th.next)) s.threads

theorem listing_of_lookup {th : Thread} (h : s.threads.lookup t = some th) :
    s.listing t = some (th.tid, th.parent, th.next) := by
  simp [listing, proj, h]

theorem lookup_of_listing {n : Nat} {parent next : Option Ptr}
    (h : s.listing t = some (n, parent, next)) :
    ∃ th, s.threads.lookup t = some th ∧ th.tid = n ∧ th.parent = parent ∧ th.next = next := by
  obtain ⟨th, hth, heq⟩ := proj_eq_some.mp h
  simp only [Prod.mk.injEq] at heq
  exact ⟨th, hth, heq⟩

/-- The same lists, from the same heads, of threads with the same tids. -/
structure ListsKept (s s' : Kernel) : Prop where
  heads : proj Process.threads s'.procs = proj Process.threads s.procs
  listing : s'.listing = s.listing
  currentTid : s'.currentTid = s.currentTid

namespace ListsKept

theorem trans (h : ListsKept s s') (h' : ListsKept s' s'') : ListsKept s s'' :=
  ⟨h'.heads.trans h.heads, h'.listing.trans h.listing, h'.currentTid.trans h.currentTid⟩

theorem of_eq (hprocs : s'.procs = s.procs) (hthreads : s'.threads = s.threads)
    (htid : s'.currentTid = s.currentTid) : ListsKept s s' :=
  ⟨by rw [hprocs], by simp only [Kernel.listing, hthreads], htid⟩

/-- A store to a live thread that keeps the three fields. -/
theorem insertThread {th th' : Thread} (hth : s.threads.lookup t = some th)
    (hprocs : s'.procs = s.procs) (hthreads : s'.threads = s.threads.insert t th')
    (htid : s'.currentTid = s.currentTid)
    (hsame : (th'.tid, th'.parent, th'.next) = (th.tid, th.parent, th.next)) :
    ListsKept s s' := by
  refine ⟨by rw [hprocs], ?_, htid⟩
  rw [Kernel.listing, hthreads, proj_insert, hsame]
  exact Function.update_eq_iff.mpr ⟨(listing_of_lookup hth).symm, fun _ _ => rfl⟩

theorem of_stores (h : Stores s s') : ListsKept s s' := by
  induction h with
  | refl => exact .of_eq rfl rfl rfl
  | tail _ hstore ih =>
    refine ih.trans ?_
    cases hstore with
    | flag => exact .of_eq rfl rfl rfl
    | queue => exact .of_eq rfl rfl rfl
    | queueTail => exact .of_eq rfl rfl rfl
    | link h =>
      obtain ⟨th, hth, rfl⟩ := Option.map_eq_some_iff.mp h
      exact .insertThread hth rfl rfl rfl rfl
    | state h =>
      obtain ⟨th, hth, rfl⟩ := Option.map_eq_some_iff.mp h
      exact .insertThread hth rfl rfl rfl rfl

theorem schedulerSwitch {n : Ptr} (h : s.schedulerSwitch P (some n) = some s') :
    ListsKept s s' := by
  rcases schedulerSwitch_eq_some h with ⟨-, rfl⟩ | ⟨c, cur, th, vm, -, -, -, hth, -, rfl⟩
  · exact .of_eq rfl rfl rfl
  · exact .insertThread hth rfl rfl rfl rfl

theorem schedulerTick {context : Nat} (h : s.schedulerTick P context = some s') :
    ListsKept s s' := by
  obtain ⟨c, th, -, hth, hcases⟩ := schedulerTick_cases h
  rcases hcases with ⟨-, rfl⟩ | ⟨-, s₂, r, s₃, hpost, htake, hswitch⟩
  · exact .insertThread hth rfl rfl rfl rfl
  · have hslice : ListsKept s
        { s with threads := s.threads.insert c { th with trapFrame := context, timeSlice := slice } } :=
      .insertThread hth rfl rfl rfl rfl
    have hstores : Stores _ s₃ := (schedulerPost_stores hpost).trans (takeReady_stores htake)
    have h₃ : ListsKept s s₃ := hslice.trans (.of_stores hstores)
    rcases hswitch with ⟨-, rfl⟩ | ⟨n, -, hswitch⟩
    · exact h₃
    · have hcli : ListsKept s₃ s₃.cli := .of_eq rfl rfl rfl
      exact (h₃.trans hcli).trans (.schedulerSwitch hswitch)

end ListsKept

/-- Taking a thread off its list uses up no tid. -/
theorem unlinkThread_currentTid (h : s.unlinkThread t = some s') :
    s'.currentTid = s.currentTid := by
  rcases unlinkThread_cases h with rfl | ⟨p, next, h⟩ | ⟨prev, next, h⟩
  · rfl
  · obtain ⟨pr, -, rfl⟩ := Option.map_eq_some_iff.mp h
    rfl
  · obtain ⟨th, -, rfl⟩ := Option.map_eq_some_iff.mp h
    rfl

/-! ## The list of one process -/

/-- From the head of `p`, the links `next` visit `l`. The tids lie between `start`
and the next one to be given out, and no two are equal. -/
structure Listed (s : Kernel) (p : Ptr) (start : Nat) (l : List Ptr) : Prop where
  seg : ∃ pr, s.procs.lookup p = some pr ∧ Seg s.next pr.threads l none
  range : ∀ t ∈ l, ∃ n, proj Thread.tid s.threads t = some n ∧ start ≤ n ∧ n < s.currentTid
  inj : ∀ t ∈ l, ∀ u ∈ l, proj Thread.tid s.threads t = proj Thread.tid s.threads u → t = u

namespace Listed

variable {start : Nat}

theorem nodup (h : Listed s p start l) : l.Nodup := by
  obtain ⟨pr, -, hseg⟩ := h.seg
  exact hseg.nodup

theorem live (h : Listed s p start l) (ht : t ∈ l) : s.threads.lookup t ≠ none := by
  obtain ⟨n, hn, -⟩ := h.range t ht
  obtain ⟨th, hth, -⟩ := proj_eq_some.mp hn
  simp [hth]

theorem length_le_fuel (h : Listed s p start l) : l.length ≤ s.walkFuel :=
  length_le_card h.nodup fun _ ht => h.live ht

/-- A new process has no threads. -/
theorem processCreate {name : List Byte} {priority : Nat}
    (h : s.processCreate P p name priority = some s') : Listed s' p s'.currentTid [] := by
  obtain ⟨d, vm, vm', -, -, rfl⟩ := processCreate_eq_some h
  exact ⟨⟨_, Finmap.lookup_insert _, rfl⟩, by simp, by simp⟩

/-- Some of the threads, when their links and tids are the same. -/
theorem subset {l' : List Ptr} (h : Listed s p start l) (hsub : ∀ u ∈ l', u ∈ l)
    (hseg : ∃ pr, s'.procs.lookup p = some pr ∧ Seg s'.next pr.threads l' none)
    (htid : ∀ u ∈ l', proj Thread.tid s'.threads u = proj Thread.tid s.threads u)
    (hcount : s'.currentTid = s.currentTid) : Listed s' p start l' := by
  refine ⟨hseg, fun u hu => ?_, fun u hu v hv heq => ?_⟩
  · rw [htid u hu, hcount]
    exact h.range u (hsub u hu)
  · rw [htid u hu, htid v hv] at heq
    exact h.inj u (hsub u hu) v (hsub v hv) heq

theorem kept (h : Listed s p start l) (hkept : ListsKept s s') : Listed s' p start l := by
  have htid : proj Thread.tid s'.threads = proj Thread.tid s.threads :=
    proj_congr Prod.fst hkept.listing fun _ => rfl
  have hnext : s'.next = s.next := proj_congr (fun r => r.2.2) hkept.listing fun _ => rfl
  obtain ⟨pr, hpr, hseg⟩ := h.seg
  obtain ⟨pr', hpr', hhead⟩ := proj_eq_some.mp
    ((congrFun hkept.heads p).trans (proj_eq_some.mpr ⟨pr, hpr, rfl⟩))
  refine h.subset (fun _ hu => hu) ⟨pr', hpr', ?_⟩ (fun u _ => congrFun htid u) hkept.currentTid
  rwa [hhead, hnext]

/-- `thread_create` puts the new thread in front. -/
theorem threadCreate {entry arg stack : Nat} {thread r : Option Ptr}
    (h : Listed s p start l) (hstart : start ≤ s.currentTid)
    (hfresh : ∀ t ∈ thread, s.threads.lookup t = none)
    (hcall : s.threadCreate P p entry arg thread stack = some (r, s')) :
    Listed s' p start (r.toList ++ l) := by
  obtain ⟨t, rfl, ⟨-, rfl, rfl⟩ | ⟨-, rfl, pr, hp, rfl⟩⟩ := threadCreate_eq_some hcall
  · refine ⟨h.seg, fun u hu => ?_, h.inj⟩
    obtain ⟨n, hn, hle, hlt⟩ := h.range u hu
    exact ⟨n, hn, hle, Nat.lt_succ_of_lt hlt⟩
  have ht : t ∉ l := fun hmem => h.live hmem (hfresh t rfl)
  obtain ⟨pr', hpr', hseg⟩ := h.seg
  obtain rfl := Option.some.inj (hp.symm.trans hpr')
  -- the old threads keep their tids, which the counter has passed
  have hnew : ∀ u, proj Thread.tid (s.threads.insert t (s.newThread p pr entry stack)) u =
      Function.update (proj Thread.tid s.threads) t (some s.currentTid) u := by
    intro u
    rw [proj_insert]
    rfl
  have hold : ∀ u ∈ l, proj Thread.tid (s.threads.insert t (s.newThread p pr entry stack)) u =
      proj Thread.tid s.threads u := by
    intro u hu
    have hut : u ≠ t := fun heq => ht (heq ▸ hu)
    rw [hnew, Function.update_of_ne hut]
  have hne : ∀ u ∈ l, proj Thread.tid s.threads u ≠ some s.currentTid := by
    intro u hu hcount
    obtain ⟨n, hn, -, hlt⟩ := h.range u hu
    rw [hn] at hcount
    exact absurd (Option.some.inj hcount) (Nat.ne_of_lt hlt)
  refine ⟨⟨_, Finmap.lookup_insert _, rfl, pr.threads, ?_, ?_⟩, fun u hu => ?_, fun u hu v hv => ?_⟩
  · simp [next, newThread]
  · simp only [next, proj_insert]
    exact hseg.update_of_notMem ht
  · rcases List.mem_cons.mp hu with rfl | hu
    · exact ⟨s.currentTid, by rw [hnew, Function.update_self], hstart, Nat.lt_succ_self _⟩
    · obtain ⟨n, hn, hle, hlt⟩ := h.range u hu
      exact ⟨n, (hold u hu).trans hn, hle, Nat.lt_succ_of_lt hlt⟩
  · intro heq
    rcases List.mem_cons.mp hu with rfl | hul
    · rcases List.mem_cons.mp hv with rfl | hvl
      · rfl
      · rw [hold v hvl, hnew, Function.update_self] at heq
        exact absurd heq.symm (hne v hvl)
    · rcases List.mem_cons.mp hv with rfl | hvl
      · rw [hold u hul, hnew, Function.update_self] at heq
        exact absurd heq (hne u hul)
      · rw [hold u hul, hold v hvl] at heq
        exact h.inj u hul v hvl heq

/-- The list part of `thread_destroy`, for a thread whose parent is `p`, comes to its end:
the thread leaves the list, or was not on it. -/
theorem unlinkThread {th : Thread} (h : Listed s p start l) (ht : s.threads.lookup t = some th)
    (hparent : th.parent = some p) :
    ∃ s', s.unlinkThread t = some s' ∧ Listed s' p start (l.filter (· ∉ [t])) := by
  obtain ⟨pr, hpr, hseg⟩ := h.seg
  by_cases hmem : t ∈ l
  · obtain ⟨s₁, pr', hs₁, hpr', hseg', -, -, -, hfixed, -⟩ :=
      unlinkThread_splice ht hparent hpr hseg h.nodup h.length_le_fuel hmem
    have htid : proj Thread.tid s₁.threads = proj Thread.tid s.threads :=
      proj_congr Thread.tid hfixed fun _ => rfl
    exact ⟨s₁, hs₁, h.subset (fun u hu => List.mem_of_mem_filter hu) ⟨pr', hpr', hseg'⟩
      (fun u _ => congrFun htid u) (unlinkThread_currentTid hs₁)⟩
  · have hhead := hseg.start_ne_of_notMem hmem
    have hseek := seekPrev_absent hseg hmem h.length_le_fuel
    rw [filter_notMem hmem]
    exact ⟨s, unlinkThread_absent ht hparent hpr hhead hseek, h⟩

/-- `thread_destroy` of a live thread of `p` takes it off the list when it returns 0,
and does nothing when it returns -1. -/
theorem threadDestroy {thread : Option Ptr} {r : Int} (h : Listed s p start l)
    (hlive : ∀ t ∈ thread, ∃ th ∈ s.threads.lookup t, th.parent = some p)
    (hcall : s.threadDestroy thread = some (r, s')) :
    Listed s' p start (l.filter (· ∉ (if r = 0 then thread else none).toList)) := by
  rcases threadDestroy_cases hcall with ⟨rfl, rfl⟩ | ⟨rfl, t, s₁, s₂, rfl, hs₁, hs₂, rfl⟩
  · have hkept : ListsKept s s.cli.sti := .of_eq rfl rfl rfl
    simpa using h.kept hkept
  · obtain ⟨th, hth, hparent⟩ := hlive t rfl
    have hcli : ListsKept s s.cli := .of_eq rfl rfl rfl
    have hready : ListsKept s s₁ := hcli.trans (.of_stores (unlinkReady_stores hs₁))
    -- the queue part keeps the `parent` through which the list part finds `p`
    have hrecord : s₁.listing t = some (th.tid, th.parent, th.next) := by
      rw [hready.listing]
      exact listing_of_lookup hth
    obtain ⟨th₁, hth₁, -, hparent₁, -⟩ := lookup_of_listing hrecord
    obtain ⟨s₃, hs₃, hunlinked⟩ := (h.kept hready).unlinkThread hth₁ (hparent₁.trans hparent)
    obtain rfl := Option.some.inj (hs₂.symm.trans hs₃)
    simp only [if_true, Option.toList_some]
    have hgone : t ∉ l.filter (· ∉ [t]) := by simp
    obtain ⟨pr, hpr, hseg⟩ := hunlinked.seg
    refine hunlinked.subset (fun _ hu => hu) ⟨pr, hpr, ?_⟩ (fun u hu => ?_) rfl
    · simp only [sti, next, proj_erase]
      exact hseg.update_of_notMem hgone
    · have hut : u ≠ t := fun heq => hgone (heq ▸ hu)
      simp only [sti, proj_erase, Function.update_of_ne hut]

/-- **Step lemma**: the list stays what the calls make it. -/
theorem step {op : Op} (h : Listed s p start l) (hstart : start ≤ s.currentTid)
    (hexec : s.exec P op = some s') (hok : CallOn p ⟨s, op, s'⟩) :
    Listed s' p start (createdStep P p l ⟨s, op, s'⟩) := by
  obtain ⟨-, hcall⟩ := exec_eq_some.mp hexec
  have hquiet : ListsKept s s' → createdBy P p ⟨s, op, s'⟩ = none →
      destroyedBy ⟨s, op, s'⟩ = none → Listed s' p start (createdStep P p l ⟨s, op, s'⟩) := by
    intro hkept hcreated hdestroyed
    simpa [createdStep, hcreated, hdestroyed] using h.kept hkept
  cases op with
  | threadCreate q entry arg thread stack =>
    obtain ⟨rfl, hfresh⟩ := hok
    obtain ⟨⟨r, s₁⟩, hs₁, rfl⟩ := Option.map_eq_some_iff.mp hcall
    simpa [createdStep, createdBy, destroyedBy, hs₁] using h.threadCreate hstart hfresh hs₁
  | threadDestroy thread =>
    obtain ⟨⟨r, s₁⟩, hs₁, rfl⟩ := Option.map_eq_some_iff.mp hcall
    simpa [createdStep, createdBy, destroyedBy, hs₁] using h.threadDestroy hok hs₁
  | schedulerPost thread => exact hquiet (.of_stores (schedulerPost_stores hcall)) rfl rfl
  | schedulerTick context =>
    have hints : ListsKept s { s with ints := false } := .of_eq rfl rfl rfl
    exact hquiet (hints.trans (.schedulerTick hcall)) rfl rfl
  | work mem ints vm =>
    obtain rfl := Option.some.inj hcall
    exact hquiet (.of_eq rfl rfl rfl) rfl rfl
  | _ => exact hok.elim

end Listed

/-! ## Tids -/

theorem threadDestroy_currentTid {thread : Option Ptr} {r : Int}
    (h : s.threadDestroy thread = some (r, s')) : s'.currentTid = s.currentTid := by
  rcases threadDestroy_cases h with ⟨-, rfl⟩ | ⟨-, t, s₁, s₂, -, hs₁, hs₂, rfl⟩
  · rfl
  · have hready : s₁.currentTid = s.currentTid :=
      (ListsKept.of_stores (unlinkReady_stores hs₁)).currentTid
    have hthread : s₂.currentTid = s₁.currentTid := unlinkThread_currentTid hs₂
    exact hthread.trans hready

/-- Every `thread_create` uses up one tid, also without a stack. -/
theorem exec_currentTid {op : Op} (hexec : s.exec P op = some s') (hok : CallOn p ⟨s, op, s'⟩) :
    s'.currentTid = s.currentTid + if op.isThreadCreate then 1 else 0 := by
  obtain ⟨-, hcall⟩ := exec_eq_some.mp hexec
  cases op with
  | threadCreate q entry arg thread stack =>
    obtain ⟨⟨r, s₁⟩, hs₁, rfl⟩ := Option.map_eq_some_iff.mp hcall
    obtain ⟨t, -, ⟨-, -, rfl⟩ | ⟨-, -, pr, -, rfl⟩⟩ := threadCreate_eq_some hs₁
    · rfl
    · rfl
  | threadDestroy thread =>
    obtain ⟨⟨r, s₁⟩, hs₁, rfl⟩ := Option.map_eq_some_iff.mp hcall
    exact threadDestroy_currentTid hs₁
  | schedulerPost thread => exact (ListsKept.of_stores (schedulerPost_stores hcall)).currentTid
  | schedulerTick context => exact (ListsKept.schedulerTick hcall).currentTid
  | work mem ints vm =>
    obtain rfl := Option.some.inj hcall
    rfl
  | _ => exact hok.elim

theorem run_currentTid {tr : List (Edge Kernel Op)} (hrun : Run (exec P) s tr s')
    (hok : ∀ e ∈ tr, CallOn p e) : s'.currentTid = s.currentTid + creations tr := by
  induction hrun with
  | nil => rfl
  | snoc hrun hexec ih =>
    have hpre := ih fun e he => hok e (List.mem_append_left _ he)
    have hlast := exec_currentTid hexec (hok _ (by simp))
    rw [hlast, hpre, creations, creations, List.countP_append, List.countP_singleton, Nat.add_assoc]

/-- Two tids less than `2 ^ 31` apart are equal when their 32-bit values are. -/
theorem u32_inj {start n i j : Nat} (hn : n < 2 ^ 31) (hi : start ≤ i) (hi' : i < start + n)
    (hj : start ≤ j) (hj' : j < start + n) (h : u32 i = u32 j) : i = j := by
  unfold u32 at h
  omega

/-- The tids on the list differ also as `uint32_t` values, if few were given out. -/
theorem Listed.nodup_tid {start n : Nat} (h : Listed s p start l)
    (hcount : s.currentTid = start + n) (hn : n < 2 ^ 31) : (l.map s.tid).Nodup := by
  refine h.nodup.map_on fun t ht u hu heq => h.inj t ht u hu ?_
  have htid : ∀ x, s.tid x = (proj Thread.tid s.threads x).map u32 :=
    fun x => (proj_map Thread.tid u32 s.threads x).symm
  obtain ⟨i, hi, hi₁, hi₂⟩ := h.range t ht
  obtain ⟨j, hj, hj₁, hj₂⟩ := h.range u hu
  rw [htid, htid, hi, hj, Option.map_some, Option.map_some, Option.some.injEq] at heq
  rw [hi, hj]
  rw [hcount] at hi₂ hj₂
  exact congrArg some (u32_inj hn hi₁ hi₂ hj₁ hj₂ heq)

/-! ## In a run -/

/-- **Thread lists.** After `process_create` of `p` and any sequence of the calls,
following `next` from `p->threads` ends, having visited exactly the threads created
for `p` and not destroyed since, each once, the newest first. Their tids differ if
`thread_create` was called fewer than `2 ^ 31` times, and a `thread_destroy` that
returns -1 then changes nothing but the interrupt flag. -/
theorem run_threadList {s₀ : Kernel} {name : List Byte} {priority : Nat}
    {tr : List (Edge Kernel Op)} (hcreate : s₀.processCreate P p name priority = some s)
    (hrun : Run (exec P) s tr s') (hok : ∀ e ∈ tr, CallOn p e) :
    (∃ pr, s'.procs.lookup p = some pr ∧ Seg s'.next pr.threads (createdThreads P p tr) none) ∧
      (createdThreads P p tr).Nodup ∧
      (creations tr < 2 ^ 31 → ((createdThreads P p tr).map s'.tid).Nodup) ∧
      ∀ thread s'', s'.threadDestroy thread = some (-1, s'') → s'' = { s' with ints := true } := by
  have hinv : Listed s' p s.currentTid (createdThreads P p tr) ∧ s.currentTid ≤ s'.currentTid := by
    refine hrun.invariant_ghost (P := fun m l => Listed m p s.currentTid l ∧
        s.currentTid ≤ m.currentTid) (createdStep P p) hok ⟨.processCreate hcreate, Nat.le_refl _⟩ ?_
    rintro m op m' l ⟨hlisted, hle⟩ hexec hcall
    have hcount := exec_currentTid hexec hcall
    exact ⟨hlisted.step hle hexec hcall, by omega⟩
  refine ⟨hinv.1.seg, hinv.1.nodup, hinv.1.nodup_tid (run_currentTid hrun hok), ?_⟩
  intro thread s'' hdestroy
  rcases threadDestroy_cases hdestroy with ⟨-, rfl⟩ | ⟨hr, -⟩
  · rfl
  · cases hr

/-- Two threads, and one that gets no stack; the older one is destroyed and its block
goes to a new thread. -/
def mixedCalls : List Op :=
  [.threadCreate 2 0 0 (some 2) 4096, .threadCreate 2 0 0 (some 3) 8192,
    .threadCreate 2 0 0 (some 4) 0, .schedulerPost (some 3), .schedulerTick 64,
    .threadDestroy (some 2), .threadCreate 2 0 0 (some 2) 4096]

/-- The kernel of `sample` after `process_create` of process `2`. -/
def sampleProcess : Kernel :=
  (sample.processCreate samplePlatform 2 [] 5).getD sample

theorem run_threadList_sample :
    let tr := Run.replay (exec samplePlatform) sampleProcess mixedCalls
    let s := mixedCalls.foldl (Run.next (exec samplePlatform)) sampleProcess
    createdThreads samplePlatform 2 tr = [2, 3] ∧
      ∃ pr, s.procs.lookup 2 = some pr ∧ Seg s.next pr.threads [2, 3] none := by
  have hcreated : createdThreads samplePlatform 2
      (Run.replay (exec samplePlatform) sampleProcess mixedCalls) = [2, 3] := by decide
  have hrun : Run (exec samplePlatform) sampleProcess _ _ := .of_defined mixedCalls (by decide)
  refine ⟨hcreated, ?_⟩
  have hcreate : sample.processCreate samplePlatform 2 [] 5 = some sampleProcess := rfl
  have hlist := run_threadList hcreate hrun (by decide)
  rw [hcreated] at hlist
  exact hlist.1

end Kernel

end Leenix
