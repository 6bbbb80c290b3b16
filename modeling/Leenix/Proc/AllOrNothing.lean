import Leenix.Proc.Privilege

/-!
# `process_spawn` as a whole

A spawn should hand over a process with one thread that waits for its turn, or
leave nothing behind. `AllOrNothing` says so of the state and of the record of
what was allocated and freed, and `processSpawn_allOrNothing_iff` says exactly
when it holds.

Of the two outcomes, the first needs all that the code does not check: a place in
`process_table`, a stack for the thread, and a queue whose `queue_tail` is right.
The second happens only if `vfs_open` returns a null pointer: once there is a
`file_t`, nothing closes it. Then the directory is given to `free`, although it is
the memory manager that has made it: `freesDirs` says whether that releases it.
-/

namespace Leenix

namespace Kernel

/-- The call made a process with its only thread, and the process is in the table. -/
structure Spawned (s s' : Kernel) (r : Int) (p t : Ptr) (pr : Process) (th : Thread) : Prop
    extends Born s s' r p t pr th where
  listed : some p ∈ s'.processTable

/-- The table and the queues are as before, and what was allocated is released. -/
structure Undone (freesDirs : Prop) (s s' : Kernel) (events : List HeapEvent) : Prop where
  processTable : s'.processTable = s.processTable
  queue : s'.queue = s.queue
  queueTail : s'.queueTail = s.queueTail
  nextReady : s'.nextReady = s.nextReady
  released : ∀ o, .alloc o ∈ events → .free o ∈ events
  dirs : ∀ d, .alloc (.dir d) ∈ events → freesDirs

/-- The call makes a process or returns `-1` with everything undone, and it uses no
result of a failed allocation. -/
def AllOrNothing (freesDirs : Prop) (s : Kernel) (x : Recorded HeapEvent (Int × Kernel)) :
    Prop :=
  .nullDeref ∉ x.events ∧ ∃ r s', x.result = some (r, s') ∧
    ((∃ p t pr th, Spawned s s' r p t pr th) ∨ r = -1 ∧ Undone freesDirs s s' x.events)

/-- The process object and its address space are there; and `vfs_open` returns a null pointer,
or a file whose ELF header passes and whose segments are placed, the thread gets its object
and its stack, and there is room for the process in the table and for the thread in its
queue. -/
def SpawnSupplied (P : Platform) (freesDirs : Prop) (s : Kernel)
    (openFile : List Byte → Option File) (filename : List Byte) (alloc : Alloc)
    (file : Option Ptr) (junk : StackJunk) : Prop :=
  ∃ p d vm, alloc.process = some p ∧ s.spaceCreated P = some (d, vm) ∧
    (openFile filename = none ∧ freesDirs ∧ some p ∉ s.processTable.takeWhile (· ≠ none) ∨
      ∃ f o t, openFile filename = some f ∧ file = some o ∧ ¬f.Refused junk ∧
        P.vmm.Places d f vm (f.loads junk) ∧ alloc.thread = some t ∧ alloc.stack ≠ 0 ∧
        (none ∈ s.processTable ∨ some p ∈ s.processTable) ∧ s.QueueSound processPriDefault)

/-- `process_spawn` with its record, on a kernel that can be overwritten. -/
def processSpawnLogRun (P : Platform) (kernel : Frame → Bool)
    (wild : Recorded HeapEvent (Int × Kernel)) (openFile : List Byte → Option File) (s : Kernel)
    (filename : List Byte) (alloc : Alloc) (file : Option Ptr) (junk : StackJunk) :
    Recorded HeapEvent (Int × Kernel) :=
  unlessOverwritten (s.SpawnKeepsOff P kernel openFile filename junk)
    (s.processSpawnLog P openFile filename alloc file junk) wild

open Recorded

variable {P : Platform} {freesDirs : Prop} {s : Kernel} {p d t o : Ptr} {vm vm' : Vm}
  {openFile : List Byte → Option File} {filename : List Byte} {alloc : Alloc}
  {file : Option Ptr} {junk : StackJunk} {f : File} {e : Nat}

/-! ## The stages -/

theorem destroyThreadsLog_none (s : Kernel) (n : Nat) : s.destroyThreadsLog n none = pure s := by
  cases n <;> rfl

/-- A process without threads is destroyed with its directory. -/
theorem processDestroyLog_childless {pr : Process} (hp : s.procs.lookup p = some pr)
    (hstate : pr.state ≠ .terminated) (hthreads : pr.threads = none) (hdir : pr.dir = some d) :
    s.processDestroyLog P p = ⟨[.free (.dir d), .free (.process p)], some { s with
      processTable := Slots.remove s.processTable p
      vm := (P.vmm.freeRegion s.vm d 0x0 0xC0000000).2.freeDir d
      procs := (s.procs.insert p { pr with state := .terminated }).erase p }⟩ := by
  simp only [processDestroyLog, hp, lift_some_bind, hstate, if_false, updateProcess, Option.map_some,
    hthreads, destroyThreadsLog_none]
  simp [hdir, tableRemove, Slots.remove]

/-- Without a file, the process is created and destroyed again. -/
theorem spawn_notOpened (file : Option Ptr) (junk : StackJunk) (hproc : alloc.process = some p)
    (hspace : s.spaceCreated P = some (d, vm)) (hopen : openFile filename = none) :
    ∃ s', s.processSpawnLog P openFile filename alloc file junk =
        ⟨[.alloc (.process p), .alloc (.dir d), .free (.dir d), .free (.process p)],
          some (-1, s')⟩ ∧
      s'.processTable = Slots.remove (Slots.insert s.processTable p) p ∧ s'.queue = s.queue ∧
      s'.queueTail = s.queueTail ∧ s'.threads = s.threads := by
  have hcreated : Finmap.lookup p
      (s.addProcess p d vm filename processPriDefault).procs = some _ := addProcess_lookup
  have hdestroy := processDestroyLog_childless (P := P) hcreated (by simp [created]) rfl rfl
  simp only [processSpawnLog, hproc, processCreateLog_of_space hspace, emit_bind, mk_some_bind,
    addProcess_lookup, lift_some_bind, hopen, vfsOpenLog, created, elfLoad, pure_bind]
  simp only [hdestroy, ne_eq, Int.reduceNeg, Int.reduceEq, not_false_eq_true, if_true,
    mk_some_bind]
  exact ⟨_, rfl, rfl, rfl, rfl, rfl⟩

section Opened

variable (hproc : alloc.process = some p) (hspace : s.spaceCreated P = some (d, vm))
  (hopen : openFile filename = some f)

include hproc hspace hopen

/-- `vfs_open` does not check its `malloc`. -/
theorem spawn_fileNull :
    .nullDeref ∈ (s.processSpawnLog P openFile filename alloc none junk).events := by
  simp [processSpawnLog, hproc, processCreateLog_of_space hspace, hopen, vfsOpenLog, created]

theorem spawn_loadFaults (hload : elfLoad P.vmm vm (some f) (some d) junk = none) :
    (s.processSpawnLog P openFile filename alloc (some o) junk).result = none := by
  have hvm : (s.addProcess p d vm filename processPriDefault).vm = vm := rfl
  simp [processSpawnLog, hproc, processCreateLog_of_space hspace, hopen, vfsOpenLog, created, hvm,
    hload]

/-- A file that is refused stays open. -/
theorem spawn_refused {r : Int} {entry : Option Nat} (hr : r ≠ 0)
    (hload : elfLoad P.vmm vm (some f) (some d) junk = some (r, entry, vm')) :
    ∃ s', s.processSpawnLog P openFile filename alloc (some o) junk =
      ⟨[.alloc (.process p), .alloc (.dir d), .alloc (.file o), .free (.dir d),
        .free (.process p)], some (-1, s')⟩ := by
  have hvm : (s.addProcess p d vm filename processPriDefault).vm = vm := rfl
  have hcreated : Finmap.lookup p
      ({ s.addProcess p d vm filename processPriDefault with vm := vm' } : Kernel).procs =
        some _ := addProcess_lookup
  have hdestroy := processDestroyLog_childless (P := P) hcreated (by simp [created]) rfl rfl
  simp [processSpawnLog, hproc, processCreateLog_of_space hspace, hopen, vfsOpenLog, created, hvm,
    hload, hr, hdestroy]

/-- `thread_create` does not check its `malloc` for the thread. -/
theorem spawn_threadNull (hthread : alloc.thread = none)
    (hload : elfLoad P.vmm vm (some f) (some d) junk = some (0, some e, vm')) :
    .nullDeref ∈ (s.processSpawnLog P openFile filename alloc (some o) junk).events := by
  have hvm : (s.addProcess p d vm filename processPriDefault).vm = vm := rfl
  simp [processSpawnLog, hproc, processCreateLog_of_space hspace, hopen, vfsOpenLog, created, hvm,
    hload, threadCreateLog, hthread]

/-- Without a stack the pid is returned all the same. -/
theorem spawn_stackNull (hthread : alloc.thread = some t) (hstack : alloc.stack = 0)
    (hload : elfLoad P.vmm vm (some f) (some d) junk = some (0, some e, vm')) :
    ∃ s', (s.processSpawnLog P openFile filename alloc (some o) junk).result =
      some ((s.currentPid : Int), s') ∧ s'.threads = s.threads := by
  have hvm : (s.addProcess p d vm filename processPriDefault).vm = vm := rfl
  simp [processSpawnLog, hproc, processCreateLog_of_space hspace, hopen, vfsOpenLog, created, hvm,
    hload, threadCreateLog, hthread, threadCreate, hstack, updateProcess, schedulerPost, cli, sti]
  rfl

/-- With its thread and its stack, the spawn comes down to the post of the thread. -/
theorem spawn_posts (hthread : alloc.thread = some t) (hstack : alloc.stack ≠ 0)
    (hload : elfLoad P.vmm vm (some f) (some d) junk = some (0, some e, vm')) :
    .nullDeref ∉ (s.processSpawnLog P openFile filename alloc (some o) junk).events ∧
      (s.processSpawnLog P openFile filename alloc (some o) junk).result =
        (((s.addProcess p d vm' filename processPriDefault).addThread P p t
          (s.created d filename processPriDefault) e 0 alloc.stack).schedulerPost (some t)).map
            fun s' => ((s.currentPid : Int), s') := by
  have hvm : (s.addProcess p d vm filename processPriDefault).vm = vm := rfl
  have hcreated : (s.addProcess p d vm' filename processPriDefault).procs.lookup p = some _ :=
    addProcess_lookup
  have hthreadCreate := threadCreate_eq P t e 0 hcreated hstack
  rw [← addThread] at hthreadCreate
  have hprocs : ∀ s', ((s.addProcess p d vm' filename processPriDefault).addThread P p t
      (s.created d filename processPriDefault) e 0 alloc.stack).schedulerPost (some t) = some s' →
        s'.procs.lookup p =
          some { s.created d filename processPriDefault with threads := some t } := by
    intro s' hpost
    rw [(schedulerPost_stores hpost).same.1]
    exact Finmap.lookup_insert _
  simp only [processSpawnLog, hproc, processCreateLog_of_space hspace, hopen, vfsOpenLog, emit_bind,
    mk_some_bind, lift_some_bind, addProcess_lookup, created_dir, hvm, result_pure, events_pure,
    hload, addProcess_vm, threadCreateLog, hthread, hthreadCreate, hstack, addThread_again, ne_eq,
    not_true_eq_false, if_false]
  cases hpost : ((s.addProcess p d vm' filename processPriDefault).addThread P p t
      (s.created d filename processPriDefault) e 0 alloc.stack).schedulerPost (some t) with
  | none => simp
  | some s' => simp [hprocs s' hpost]

end Opened

/-! ## The two outcomes -/

/-- Without a file, nothing is left behind, if the directory is released and the table has
the process in the slot that it was given and in none before. -/
theorem allOrNothing_notOpened (hproc : alloc.process = some p)
    (hspace : s.spaceCreated P = some (d, vm)) (hopen : openFile filename = none) :
    s.AllOrNothing freesDirs (s.processSpawnLog P openFile filename alloc file junk) ↔
      freesDirs ∧ some p ∉ s.processTable.takeWhile (· ≠ none) := by
  obtain ⟨s', hlog, htable, hqueue, htail, hthreads⟩ :=
    spawn_notOpened file junk hproc hspace hopen
  rw [hlog, ← Slots.remove_insert_iff, ← htable]
  constructor
  · rintro ⟨-, r, s'', hresult, hout⟩
    obtain ⟨rfl, rfl⟩ := Prod.mk.inj (Option.some.inj hresult)
    rcases hout with ⟨p', t, pr, th, hspawned⟩ | ⟨-, hundone⟩
    · exact absurd rfl hspawned.ne_neg_one
    · exact ⟨hundone.dirs d (by simp), hundone.processTable⟩
  · rintro ⟨hfrees, hsame⟩
    refine ⟨by simp, -1, s', rfl, .inr ⟨rfl, hsame, hqueue, htail, ?_, by simp, fun _ _ => hfrees⟩⟩
    rw [nextReady, nextReady, hthreads]

/-- With a loaded file and a thread, it is the table and the queue that decide. -/
theorem allOrNothing_posted (hproc : alloc.process = some p)
    (hspace : s.spaceCreated P = some (d, vm)) (hopen : openFile filename = some f)
    (hload : elfLoad P.vmm vm (some f) (some d) junk = some (0, some e, vm'))
    (hthread : alloc.thread = some t) (hstack : alloc.stack ≠ 0)
    (hp : s.procs.lookup p = none) (ht : s.threads.lookup t = none) :
    s.AllOrNothing freesDirs (s.processSpawnLog P openFile filename alloc (some o) junk) ↔
      (none ∈ s.processTable ∨ some p ∈ s.processTable) ∧ s.QueueSound processPriDefault := by
  obtain ⟨hnull, hresult⟩ := spawn_posts (o := o) hproc hspace hopen hthread hstack hload
  generalize hs₂ : (s.addProcess p d vm' filename processPriDefault).addThread P p t
    (s.created d filename processPriDefault) e 0 alloc.stack = s₂ at hresult
  have hprocess : s₂.procs.lookup p = some
      { s.created d filename processPriDefault with threads := some t } := by
    rw [← hs₂]
    exact Finmap.lookup_insert _
  have hothers : ∀ q, q ≠ p → s₂.procs.lookup q = s.procs.lookup q := by
    intro q hq
    rw [← hs₂]
    simp [addThread, addProcess, hq]
  have hthreads : s₂.threads = s.threads.insert t ((s.addProcess p d vm' filename
      processPriDefault).newThread p (s.created d filename processPriDefault) e alloc.stack) := by
    rw [← hs₂]
    rfl
  have hqueue : s₂.queue = s.queue := by rw [← hs₂]; rfl
  have htail : s₂.queueTail = s.queueTail := by rw [← hs₂]; rfl
  have htable : ∀ s', s₂.schedulerPost (some t) = some s' →
      s'.processTable = Slots.insert s.processTable p := by
    intro s' hpost
    rw [(schedulerPost_stores hpost).same.2.1, ← hs₂]
    rfl
  constructor
  · rintro ⟨-, r, s', h, hout⟩
    rw [hresult] at h
    obtain ⟨s'', hpost, heq⟩ := Option.map_eq_some_iff.mp h
    obtain ⟨rfl, rfl⟩ := Prod.mk.inj heq
    rcases hout with ⟨p', t', pr, th, hspawned⟩ | ⟨hr, -⟩
    · obtain ⟨rfl, -, -, hsound⟩ := sound_of_born ht hprocess hothers hthreads hqueue htail
        ⟨rfl, rfl⟩ rfl rfl hpost hspawned.toBorn
      refine ⟨?_, hsound⟩
      rw [← Slots.mem_insert_self, ← htable s'' hpost]
      exact hspawned.listed
    · omega
  · rintro ⟨hroom, hsound⟩
    obtain ⟨s', th', hpost, hborn, -⟩ := born_of_sound hp ht hprocess hthreads hqueue htail
      ⟨rfl, rfl⟩ rfl rfl rfl hsound
    have hlisted : some p ∈ s'.processTable := by
      rw [htable s' hpost]
      exact Slots.mem_insert_self.mpr hroom
    refine ⟨hnull, s.currentPid, s', ?_, .inl ⟨p, t, _, th', hborn, hlisted⟩⟩
    rw [hresult, hpost, Option.map_some]

/-- Without a stack a pid is returned, but no thread was made. -/
theorem not_allOrNothing_of_stackNull (hproc : alloc.process = some p)
    (hspace : s.spaceCreated P = some (d, vm)) (hopen : openFile filename = some f)
    (hthread : alloc.thread = some t) (hstack : alloc.stack = 0)
    (hload : elfLoad P.vmm vm (some f) (some d) junk = some (0, some e, vm')) :
    ¬s.AllOrNothing freesDirs (s.processSpawnLog P openFile filename alloc (some o) junk) := by
  rintro ⟨-, r, s', hresult, hout⟩
  obtain ⟨s'', h, hsame⟩ := spawn_stackNull (o := o) hproc hspace hopen hthread hstack hload
  rw [h] at hresult
  obtain ⟨rfl, rfl⟩ := Prod.mk.inj (Option.some.inj hresult)
  rcases hout with ⟨p', t', pr, th, hspawned⟩ | ⟨hr, -⟩
  · have hlive := hspawned.thread
    rw [hsame, hspawned.newThread] at hlive
    cases hlive
  · omega

/-- Once the file is open, everything has to be there. -/
theorem allOrNothing_opened (hproc : alloc.process = some p)
    (hspace : s.spaceCreated P = some (d, vm)) (hopen : openFile filename = some f)
    (hp : s.procs.lookup p = none) (ht : ∀ t, alloc.thread = some t → s.threads.lookup t = none) :
    s.AllOrNothing freesDirs (s.processSpawnLog P openFile filename alloc file junk) ↔
      ∃ o t, file = some o ∧ ¬f.Refused junk ∧ P.vmm.Places d f vm (f.loads junk) ∧
        alloc.thread = some t ∧ alloc.stack ≠ 0 ∧
        (none ∈ s.processTable ∨ some p ∈ s.processTable) ∧ s.QueueSound processPriDefault := by
  constructor
  · intro hwhole
    obtain ⟨hnull, r, s', hresult, hout⟩ := id hwhole
    cases file with
    | none => exact absurd (spawn_fileNull hproc hspace hopen) hnull
    | some o =>
      rcases hload : elfLoad P.vmm vm (some f) (some d) junk with _ | ⟨result, entry, vm'⟩
      · rw [spawn_loadFaults hproc hspace hopen hload] at hresult
        cases hresult
      · by_cases hzero : result = 0
        · subst hzero
          obtain ⟨haccepted, hplaces⟩ := elfLoad_zero_iff.mp ⟨entry, vm', hload⟩
          obtain ⟨e, rfl⟩ : ∃ e, entry = some e := by
            rcases elfLoad_cases hload with ⟨h, -⟩ | ⟨d', f', r', -, -, -, -, -, h⟩
            · cases h
            · rcases h with ⟨-, h, -⟩ | ⟨-, -, h⟩
              · cases h
              · exact ⟨_, h⟩
          cases hthread : alloc.thread with
          | none => exact absurd (spawn_threadNull hproc hspace hopen hthread hload) hnull
          | some t =>
            by_cases hstack : alloc.stack = 0
            · exact absurd hwhole
                (not_allOrNothing_of_stackNull hproc hspace hopen hthread hstack hload)
            · obtain ⟨hroom, hsound⟩ := (allOrNothing_posted hproc hspace hopen hload hthread hstack
                hp (ht t hthread)).mp hwhole
              exact ⟨o, t, rfl, haccepted, hplaces, rfl, hstack, hroom, hsound⟩
        · -- the file is still open
          obtain ⟨s'', hlog⟩ := spawn_refused (o := o) hproc hspace hopen hzero hload
          rw [hlog] at hresult hout
          obtain ⟨rfl, rfl⟩ := Prod.mk.inj (Option.some.inj hresult)
          rcases hout with ⟨p', t', pr, th, hspawned⟩ | ⟨-, hundone⟩
          · exact absurd rfl hspawned.ne_neg_one
          · exact absurd (hundone.released (.file o) (by simp)) (by simp)
  · rintro ⟨o, t, rfl, haccepted, hplaces, hthread, hstack, hroom, hsound⟩
    obtain ⟨vm', hload⟩ := elfLoad_of_places haccepted hplaces
    exact (allOrNothing_posted hproc hspace hopen hload hthread hstack hp (ht t hthread)).mpr
      ⟨hroom, hsound⟩

/-- Without an address space the call ends in `process_create`. -/
theorem not_allOrNothing_of_noSpace (hproc : alloc.process = some p)
    (hspace : s.spaceCreated P = none) :
    ¬s.AllOrNothing freesDirs (s.processSpawnLog P openFile filename alloc file junk) := by
  rintro ⟨hnull, r, s', hresult, -⟩
  have hcreate : s.processCreate P p filename processPriDefault = none := by
    rw [processCreate_eq, hspace, Option.map_none]
  cases hdir : (P.vmm.createAddressSpace s.vm).1 with
  | none => exact hnull (by simp [processSpawnLog, hproc, processCreateLog, hdir])
  | some d => simp [processSpawnLog, hproc, processCreateLog, hdir, hcreate] at hresult

/-- **All or nothing.** Whatever the state, the file and the allocations, if no segment is stored
over the kernel: `process_spawn` makes its process with one thread that is the last of its
queue, or returns `-1` with everything undone, if and only if all that it leaves unchecked is
supplied, or `vfs_open` returns a null pointer. -/
theorem processSpawn_allOrNothing_iff {kernel : Frame → Bool}
    {wild : Recorded HeapEvent (Int × Kernel)}
    (hkeeps : s.SpawnKeepsOff P kernel openFile filename junk)
    (hp : ∀ p, alloc.process = some p → s.procs.lookup p = none)
    (ht : ∀ t, alloc.thread = some t → s.threads.lookup t = none) :
    s.AllOrNothing freesDirs
        (s.processSpawnLogRun P kernel wild openFile filename alloc file junk) ↔
      SpawnSupplied P freesDirs s openFile filename alloc file junk := by
  rw [processSpawnLogRun, unlessOverwritten_of hkeeps]
  cases hproc : alloc.process with
  | none =>
    constructor
    · rintro ⟨hnull, -⟩
      exact absurd (by simp [processSpawnLog, hproc]) hnull
    · rintro ⟨p, d, vm, hp', -⟩
      cases hproc.symm.trans hp'
  | some p =>
    cases hspace : s.spaceCreated P with
    | none =>
      constructor
      · intro h
        exact absurd h (not_allOrNothing_of_noSpace hproc hspace)
      · rintro ⟨p', d, vm, -, hspace', -⟩
        cases hspace.symm.trans hspace'
    | some space =>
      obtain ⟨d, vm⟩ := space
      cases hopen : openFile filename with
      | none =>
        rw [allOrNothing_notOpened hproc hspace hopen]
        simp [SpawnSupplied, hproc, hspace, hopen]
      | some f =>
        rw [allOrNothing_opened hproc hspace hopen (hp p hproc) ht]
        simp [SpawnSupplied, hproc, hspace, hopen]

/-- A program at 1 MB, spawned from the kernel with all it needs. -/
theorem processSpawn_allOrNothing_sample :
    sample.AllOrNothing True (sample.processSpawnLogRun samplePlatform lowFrames (fault .nullDeref)
      (openContent (sampleElf 0x10)) [] ⟨some 2, some 2, 4096⟩ (some 2) ⟨[], []⟩) := by
  refine (processSpawn_allOrNothing_iff sampleElf_keepsOff ?_ ?_).mpr ⟨2, _, _, rfl, rfl,
    .inr ⟨_, 2, 2, rfl, rfl, by decide, by decide, rfl, by decide, by decide, [], rfl, by simp⟩⟩
  · rintro p ⟨⟩
    decide
  · rintro t ⟨⟩
    decide

/-- The same without a stack: the caller gets the pid of a process in the table that has
no thread. -/
theorem spawned_without_thread : ∃ s',
    (sample.processSpawnLogRun samplePlatform lowFrames (fault .nullDeref)
      (openContent (sampleElf 0x10)) [] ⟨some 2, some 2, 0⟩ (some 2) ⟨[], []⟩).result =
        some (2, s') ∧
    some 2 ∈ s'.processTable ∧ (s'.procs.lookup 2).map Process.threads = some none ∧
    s'.threads = sample.threads ∧
    ¬sample.AllOrNothing True (sample.processSpawnLogRun samplePlatform lowFrames
      (fault .nullDeref) (openContent (sampleElf 0x10)) [] ⟨some 2, some 2, 0⟩ (some 2)
      ⟨[], []⟩) := by
  rw [processSpawnLogRun, unlessOverwritten_of sampleElf_keepsOff]
  refine ⟨_, rfl, by decide, by decide, rfl, ?_⟩
  exact not_allOrNothing_of_stackNull rfl rfl rfl rfl rfl rfl

end Kernel

end Leenix
