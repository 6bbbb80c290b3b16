import Leenix.Lib.Slots
import Leenix.Proc.Processes

/-!
# Finding a process by its pid

`process_find_by_pid` scans `process_table`, and the two ways in which it misses
are kept apart here. A process that was created while the table was full is not
in it; and a scan that finds nothing runs off the end of the function, which has
no `return` there, where the caller expects a null pointer.

`Registry` is the history of a run: the processes that were created and not
destroyed since, and those among them that found a free slot. The table holds
the latter (`Registry.Tracks`), so a lookup is right for the pids of processes
with a slot, and for no other pid (`run_findByPid`).
-/

namespace Leenix

namespace Kernel

/-- The processes created and not destroyed since, and those of them that got
one of the 128 slots of the table. -/
structure Registry where
  live : List Ptr
  slots : List Ptr

/-- What a step does to the two lists. -/
def Registry.step (r : Registry) (e : Edge Kernel Op) : Registry :=
  match e.op with
  | .processCreate p _ _ => ⟨p :: r.live, if r.slots.length < 128 then p :: r.slots else r.slots⟩
  | .processDestroy p => ⟨r.live.erase p, r.slots.erase p⟩
  | _ => r

/-- The lists after a run. -/
def registry (tr : List (Edge Kernel Op)) : Registry := tr.foldl Registry.step ⟨[], []⟩

/-- `Pid` of each live process. -/
def pidOf (s : Kernel) : Ptr → Option Nat := proj (fun pr => u32 pr.pid) s.procs

/-- The lookup of `pid` returns the process of `live` that has it, and a null
pointer if there is none. -/
def FindCorrect (s : Kernel) (live : List Ptr) (pid : Nat) : Prop :=
  (∀ p ∈ live, s.pidOf p = some pid → s.processFindByPid pid = some (some p)) ∧
    ((∀ p ∈ live, s.pidOf p ≠ some pid) → s.processFindByPid pid = some none)

/-- Processes are created on fresh objects, and otherwise by nobody; they may be
destroyed, and given threads that come, run and go. -/
def RegistryOp (s : Kernel) : Op → Prop
  | .processCreate p _ _ => s.procs.lookup p = none
  | .processSpawn .. | .processFork .. => False
  | _ => True

variable {P : Platform} {s s' s'' : Kernel} {t p : Ptr} {pid : Nat}

/-! ## The scan -/

/-- What the scan returns is an entry with the pid. -/
theorem findSlot_sound {entries : List (Option Ptr)} {r : Option Ptr}
    (h : s.findSlot pid entries = some r) :
    ∃ p, r = some p ∧ some p ∈ entries ∧ s.pidOf p = some pid := by
  induction entries with
  | nil => cases h
  | cons e entries ih =>
    cases e with
    | none =>
      obtain ⟨p, hr, hp, hpid⟩ := ih h
      exact ⟨p, hr, List.mem_cons_of_mem _ hp, hpid⟩
    | some q =>
      simp only [findSlot, Option.bind_eq_bind, Option.bind_eq_some_iff] at h
      obtain ⟨qr, hqr, h⟩ := h
      split at h
      case isTrue hpid =>
        obtain rfl := Option.some.inj h
        exact ⟨q, rfl, List.mem_cons_self, proj_eq_some.mpr ⟨qr, hqr, hpid⟩⟩
      case isFalse =>
        obtain ⟨p, hr, hp, hpid⟩ := ih h
        exact ⟨p, hr, List.mem_cons_of_mem _ hp, hpid⟩

/-- With live entries, one of which has the pid, the scan returns. -/
theorem findSlot_complete {entries : List (Option Ptr)}
    (hlive : ∀ q, some q ∈ entries → s.procs.lookup q ≠ none) (hp : some p ∈ entries)
    (hpid : s.pidOf p = some pid) : ∃ r, s.findSlot pid entries = some r := by
  induction entries with
  | nil => cases hp
  | cons e entries ih =>
    have hrest := ih fun q hq => hlive q (List.mem_cons_of_mem _ hq)
    cases e with
    | none => exact hrest ((List.mem_cons.mp hp).resolve_left (by simp))
    | some q =>
      obtain ⟨qr, hqr⟩ := Option.ne_none_iff_exists'.mp (hlive q List.mem_cons_self)
      by_cases hqpid : u32 qr.pid = pid
      · exact ⟨some q, by simp [findSlot, hqr, hqpid]⟩
      · have hpq : some p ≠ some q := by
          rintro ⟨⟩
          obtain ⟨pr, hpr, hprpid⟩ := proj_eq_some.mp hpid
          obtain rfl := Option.some.inj (hpr.symm.trans hqr)
          exact hqpid hprpid
        obtain ⟨r, hr⟩ := hrest ((List.mem_cons.mp hp).resolve_left hpq)
        exact ⟨r, by simpa [findSlot, hqr, hqpid] using hr⟩

/-! ## Calls that leave the processes alone -/

/-- Pid and state of each live process. -/
def idOf (s : Kernel) : Ptr → Option (Nat × RunState) :=
  proj (fun pr => (pr.pid, pr.state)) s.procs

/-- The same processes, with the same pids, in the same slots. -/
structure ProcessesKept (s s' : Kernel) : Prop where
  processTable : s'.processTable = s.processTable
  ids : s'.idOf = s.idOf

theorem ProcessesKept.trans (h : ProcessesKept s s') (h' : ProcessesKept s' s'') :
    ProcessesKept s s'' :=
  ⟨h'.processTable.trans h.processTable, h'.ids.trans h.ids⟩

theorem ProcessesKept.of_eq (htable : s'.processTable = s.processTable)
    (hprocs : s'.procs = s.procs) : ProcessesKept s s' :=
  ⟨htable, by rw [idOf, idOf, hprocs]⟩

theorem ProcessesKept.updateProcess {f : Process → Process} (h : s.updateProcess p f = some s')
    (hf : ∀ pr, (f pr).pid = pr.pid ∧ (f pr).state = pr.state) : ProcessesKept s s' := by
  obtain ⟨pr, hpr, rfl⟩ := Option.map_eq_some_iff.mp h
  refine ⟨rfl, ?_⟩
  show proj _ (s.procs.insert p (f pr)) = proj _ s.procs
  rw [proj_insert, (hf pr).1, (hf pr).2]
  exact Function.update_eq_iff.mpr ⟨by simp [proj, hpr], fun _ _ => rfl⟩

theorem ProcessesKept.of_fixed (h : ProcessesFixed s s') : ProcessesKept s s' := by
  have hids : s'.idOf = s.idOf :=
    proj_congr (fun pr => (pr.pid, pr.state)) h.procs fun _ => rfl
  exact ⟨h.processTable, hids⟩

/-! ## Creating and destroying a process -/

theorem processCreate_ids {name : List Byte} {priority : Nat}
    (h : s.processCreate P p name priority = some s') :
    s'.processTable = Slots.insert s.processTable p ∧
      s'.idOf = Function.update s.idOf p (some (s.currentPid, .ready)) := by
  obtain ⟨d, vm, vm', -, -, rfl⟩ := processCreate_eq_some h
  exact ⟨rfl, proj_insert ..⟩

/-- However many threads it has and whatever becomes of them, a destroyed process
leaves the table and the heap. -/
theorem processDestroy_ids (hlive : ∀ id, s.idOf p = some id → id.2 ≠ .terminated)
    (h : s.processDestroy P p = some s') :
    s'.processTable = Slots.remove s.processTable p ∧
      s'.idOf = Function.update s.idOf p none := by
  obtain ⟨pr, hpr, ⟨hstate, -⟩ | ⟨-, n, s₁, vm, hs₁, rfl⟩⟩ := processDestroy_cases h
  · exact absurd hstate (hlive (pr.pid, pr.state) (proj_eq_some.mpr ⟨pr, hpr, rfl⟩))
  have hkept := ProcessesKept.of_fixed (.destroyThreads hs₁)
  refine ⟨hkept.processTable, ?_⟩
  show proj _ (s₁.procs.erase p) = _
  rw [proj_erase]
  have hids : proj (fun pr => (pr.pid, pr.state)) s₁.procs =
      Function.update s.idOf p (some (pr.pid, .terminated)) := hkept.ids.trans (proj_insert ..)
  rw [hids, Function.update_idem]

/-! ## The table and the history -/

/-- The table holds the processes that the history says have a slot; they are
among the live ones; and no process is left half destroyed. -/
structure Registry.Tracks (r : Registry) (s : Kernel) : Prop where
  length : s.processTable.length = 128
  slots : s.processTable.reduceOption.Perm r.slots
  nodupSlots : r.slots.Nodup
  nodupLive : r.live.Nodup
  subset : ∀ p ∈ r.slots, p ∈ r.live
  live : ∀ p ∈ r.live, s.idOf p ≠ none
  awake : ∀ p id, s.idOf p = some id → id.2 ≠ .terminated

variable {r : Registry}

theorem idOf_eq_none : s.idOf p = none ↔ s.procs.lookup p = none := by
  simp [idOf, proj]

theorem Registry.Tracks.mem_table (h : r.Tracks s) : some p ∈ s.processTable ↔ p ∈ r.slots := by
  rw [← List.reduceOption_mem_iff]
  exact h.slots.mem_iff

theorem Registry.Tracks.kept (h : r.Tracks s) (hkept : ProcessesKept s s') : r.Tracks s' where
  length := by rw [hkept.processTable, h.length]
  slots := by
    rw [hkept.processTable]
    exact h.slots
  nodupSlots := h.nodupSlots
  nodupLive := h.nodupLive
  subset := h.subset
  live p hp := by
    rw [hkept.ids]
    exact h.live p hp
  awake p id hp := h.awake p id (hkept.ids ▸ hp)

/-- A new process gets a slot if one is free. -/
theorem Registry.Tracks.create (h : r.Tracks s) {id : Nat × RunState}
    (hfresh : s.procs.lookup p = none) (hid : id.2 ≠ .terminated)
    (htable : s'.processTable = Slots.insert s.processTable p)
    (hids : s'.idOf = Function.update s.idOf p (some id)) :
    Registry.Tracks
      ⟨p :: r.live, if r.slots.length < 128 then p :: r.slots else r.slots⟩ s' := by
  have hnotLive : p ∉ r.live := fun hp => h.live p hp (idOf_eq_none.mpr hfresh)
  have hnotSlot : p ∉ r.slots := fun hp => hnotLive (h.subset p hp)
  have hfree : r.slots.length < 128 ↔ none ∈ s.processTable := by
    rw [← List.reduceOption_length_lt_iff, h.length, h.slots.length_eq]
  have hids_ne : ∀ q, q ≠ p → s'.idOf q = s.idOf q := by
    intro q hq
    rw [hids, Function.update_of_ne hq]
  refine ⟨?_, ?_, ?_, List.nodup_cons.mpr ⟨hnotLive, h.nodupLive⟩, fun q hq => ?_, fun q hq => ?_,
    fun q i hq => ?_⟩
  · rw [htable, Slots.length_insert, h.length]
  · rw [htable]
    by_cases hlt : r.slots.length < 128
    · rw [if_pos hlt]
      exact (Slots.insert_perm (hfree.mp hlt)).trans (h.slots.cons p)
    · rw [if_neg hlt, Slots.insert_full fun hnone => hlt (hfree.mpr hnone)]
      exact h.slots
  · split
    · exact List.nodup_cons.mpr ⟨hnotSlot, h.nodupSlots⟩
    · exact h.nodupSlots
  · by_cases hqp : q = p
    · exact hqp ▸ List.mem_cons_self
    · refine List.mem_cons_of_mem _ (h.subset q ?_)
      split at hq
      · exact (List.mem_cons.mp hq).resolve_left hqp
      · exact hq
  · by_cases hqp : q = p
    · rw [hqp, hids, Function.update_self]
      simp
    · rw [hids_ne q hqp]
      exact h.live q ((List.mem_cons.mp hq).resolve_left hqp)
  · by_cases hqp : q = p
    · rw [hqp, hids, Function.update_self] at hq
      exact Option.some.inj hq ▸ hid
    · rw [hids_ne q hqp] at hq
      exact h.awake q i hq

/-- A destroyed process frees its slot, if it has one. -/
theorem Registry.Tracks.destroy (h : r.Tracks s)
    (htable : s'.processTable = Slots.remove s.processTable p)
    (hids : s'.idOf = Function.update s.idOf p none) :
    Registry.Tracks ⟨r.live.erase p, r.slots.erase p⟩ s' := by
  refine ⟨?_, ?_, h.nodupSlots.erase p, h.nodupLive.erase p, fun q hq => ?_, fun q hq => ?_,
    fun q i hq => ?_⟩
  · rw [htable, Slots.length_remove, h.length]
  · rw [htable, Slots.remove_reduceOption]
    exact h.slots.erase p
  · obtain ⟨hne, hslot⟩ := h.nodupSlots.mem_erase_iff.mp hq
    exact h.nodupLive.mem_erase_iff.mpr ⟨hne, h.subset q hslot⟩
  · obtain ⟨hne, hlive⟩ := h.nodupLive.mem_erase_iff.mp hq
    rw [hids, Function.update_of_ne hne]
    exact h.live q hlive
  · by_cases hqp : q = p
    · rw [hqp, hids, Function.update_self] at hq
      cases hq
    · rw [hids, Function.update_of_ne hqp] at hq
      exact h.awake q i hq

/-- **Step lemma**: the table follows the history. -/
theorem Registry.Tracks.step (h : r.Tracks s) {op : Op} (hexec : s.exec P op = some s')
    (hop : s.RegistryOp op) : (r.step ⟨s, op, s'⟩).Tracks s' := by
  obtain ⟨-, hcall⟩ := exec_eq_some.mp hexec
  cases op with
  | processCreate p name priority =>
    obtain ⟨htable, hids⟩ := processCreate_ids hcall
    exact h.create hop (by simp) htable hids
  | processDestroy p =>
    obtain ⟨htable, hids⟩ := processDestroy_ids (fun id => h.awake p id) hcall
    exact h.destroy htable hids
  | threadCreate p entry arg thread stack =>
    obtain ⟨⟨_, s₁⟩, hs₁, rfl⟩ := Option.map_eq_some_iff.mp hcall
    exact h.kept (.of_fixed (.threadCreate hs₁))
  | threadDestroy thread =>
    obtain ⟨⟨_, s₁⟩, hs₁, rfl⟩ := Option.map_eq_some_iff.mp hcall
    exact h.kept (.of_fixed (.threadDestroy hs₁))
  | schedulerPost thread => exact h.kept (.of_fixed (.of_stores (schedulerPost_stores hcall)))
  | schedulerTick context =>
    have hints : ProcessesKept s { s with ints := false } := .of_eq rfl rfl
    exact h.kept (hints.trans (.of_fixed (.schedulerTick hcall)))
  | threadExit => exact h.kept (.of_fixed (.threadExit hcall))
  | work mem ints vm =>
    obtain rfl := Option.some.inj hcall
    exact h.kept (.of_eq rfl rfl)
  | _ => exact hop.elim

variable {kp kt : Ptr} {junk : Junk} {mem : Mem} {cpu : Cpu} {vm : Vm}
  {tr : List (Edge Kernel Op)}

theorem Registry.Tracks.started (P : Platform) (mem : Mem) (cpu : Cpu) (vm : Vm) (kp kt : Ptr)
    (junk : Junk) : Registry.Tracks ⟨[], []⟩ (started P mem cpu vm kp kt junk) := by
  refine ⟨List.length_replicate, ?_, List.nodup_nil, List.nodup_nil, by simp, by simp,
    fun p id hp => ?_⟩
  · exact .of_eq List.reduceOption_replicate_none
  · replace hp : proj _ ((boot mem cpu vm).procs.insert kp _) p = some id := hp
    rw [proj_insert] at hp
    by_cases hpk : p = kp
    · rw [hpk, Function.update_self] at hp
      exact Option.some.inj hp ▸ by simp
    · rw [Function.update_of_ne hpk] at hp
      cases hp

theorem registry_tracks (hrun : Run (exec P) (started P mem cpu vm kp kt junk) tr s)
    (hok : ∀ e ∈ tr, e.pre.RegistryOp e.op) : (registry tr).Tracks s :=
  hrun.invariant_ghost (P := fun s r => Registry.Tracks r s) Registry.step hok
    (.started P mem cpu vm kp kt junk) fun _ _ _ _ h hstep hop => h.step hstep hop

/-- After every run that creates processes on fresh objects and destroys them, a
lookup is right if and only if one live process has the pid, and that process
found a free slot when it was created. -/
theorem run_findByPid (hrun : Run (exec P) (started P mem cpu vm kp kt junk) tr s)
    (hok : ∀ e ∈ tr, e.pre.RegistryOp e.op) (pid : Nat) :
    s.FindCorrect (registry tr).live pid ↔
      ∃ p ∈ (registry tr).slots, s.pidOf p = some pid ∧
        ∀ q ∈ (registry tr).live, s.pidOf q = some pid → q = p := by
  have h := registry_tracks hrun hok
  constructor
  · rintro ⟨hfound, hnone⟩
    -- a pid of no live process would need a null pointer, which the scan never returns
    have hhas : ∃ q ∈ (registry tr).live, s.pidOf q = some pid := by
      by_contra hno
      obtain ⟨p, hp, -⟩ := findSlot_sound (hnone fun q hq hpid => hno ⟨q, hq, hpid⟩)
      cases hp
    obtain ⟨q, hq, hpid⟩ := hhas
    have hret := hfound q hq hpid
    obtain ⟨p, hp, hmem, -⟩ := findSlot_sound hret
    obtain rfl := Option.some.inj hp
    refine ⟨q, h.mem_table.mp hmem, hpid, fun q' hq' hpid' => ?_⟩
    exact Option.some.inj (Option.some.inj ((hfound q' hq' hpid').symm.trans hret))
  · rintro ⟨p, hp, hpid, hunique⟩
    have hlive : ∀ q, some q ∈ s.processTable → s.procs.lookup q ≠ none := by
      intro q hq hnone
      exact h.live q (h.subset q (h.mem_table.mp hq)) (idOf_eq_none.mpr hnone)
    obtain ⟨ret, hret⟩ := findSlot_complete hlive (h.mem_table.mpr hp) hpid
    obtain ⟨q, rfl, hq, hqpid⟩ := findSlot_sound hret
    obtain rfl := hunique q (h.subset q (h.mem_table.mp hq)) hqpid
    refine ⟨fun q' hq' hpid' => ?_, fun hnone => absurd hpid (hnone q (h.subset q hp))⟩
    rw [hunique q' hq' hpid']
    exact hret

/-- Two processes are created, the first is destroyed, and a third is created in its slot. -/
def slotReused : List Op :=
  [.processCreate 2 [] 5, .processCreate 3 [] 5, .processDestroy 2, .processCreate 4 [] 5]

/-- The pids of both live processes are found, in the table with the third process first. -/
theorem run_findByPid_reused :
    let s := slotReused.foldl (Run.next (exec samplePlatform)) sample
    s.processTable.take 2 = [some 4, some 3] ∧ s.FindCorrect [4, 3] 4 ∧ s.FindCorrect [4, 3] 3 := by
  intro s
  have hrun : Run (exec samplePlatform) sample _ s := Run.of_defined slotReused (by decide)
  have hok : ∀ e ∈ Run.replay (exec samplePlatform) sample slotReused, e.pre.RegistryOp e.op := by
    simp only [slotReused, Run.replay, List.forall_mem_cons]
    exact ⟨show Finmap.lookup 2 (Kernel.procs _) = none by decide,
      show Finmap.lookup 3 (Kernel.procs _) = none by decide, trivial,
      show Finmap.lookup 4 (Kernel.procs _) = none by decide, by simp⟩
  refine ⟨by decide, (run_findByPid hrun hok 4).mpr ⟨4, by decide, by decide, by decide⟩,
    (run_findByPid hrun hok 3).mpr ⟨3, by decide, by decide, by decide⟩⟩

/-- A process is created and destroyed. -/
def createdDestroyed : List Op := [.processCreate 2 [] 5, .processDestroy 2]

/-- No live process has the pid any more, and the lookup returns no value. -/
theorem find_destroyed : ∃ tr s, Run (exec samplePlatform) sample tr s ∧
    (∀ e ∈ tr, e.pre.RegistryOp e.op) ∧ (registry tr).live = [] ∧
    s.processFindByPid 2 = none ∧ ¬s.FindCorrect (registry tr).live 2 := by
  refine ⟨_, createdDestroyed.foldl (Run.next (exec samplePlatform)) sample,
    Run.of_defined createdDestroyed (by decide), ?_, by decide, by decide, ?_⟩
  · simp only [createdDestroyed, Run.replay, List.forall_mem_cons]
    exact ⟨show Finmap.lookup 2 (Kernel.procs _) = none by decide, trivial, by simp⟩
  · rintro ⟨-, hnone⟩
    have hnull := hnone (by decide)
    exact absurd hnull (by decide)

end Kernel

end Leenix
