import Leenix.Proc.ElfImage
import Leenix.Proc.ElfSegments
import Leenix.Proc.Entry
import Leenix.Proc.Offspring

/-!
# The privilege level of a spawned program

`thread_create` picks the selectors of a thread by its entry address, and
`process_spawn` hands it the `e_entry` of the file unchecked
(`processSpawn_userFrame_iff`), if the file has not been loaded over the kernel before
(`SpawnKeepsOff`).
-/

namespace Leenix

namespace Kernel

variable {P : Platform} {s s' : Kernel} {t : Ptr}

/-- The file that `process_spawn` opens is loaded into the new directory without a store to the
kernel's memory. -/
def SpawnKeepsOff (P : Platform) (kernel : Frame → Bool) (s : Kernel)
    (openFile : List Byte → Option File) (filename : List Byte) (junk : StackJunk) : Prop :=
  ∀ space ∈ s.spaceCreated P, ∀ file ∈ openFile filename,
    file.KeepsOff P.vmm kernel space.2 (some space.1) junk

instance (P : Platform) (kernel : Frame → Bool) (s : Kernel) (openFile : List Byte → Option File)
    (filename : List Byte) (junk : StackJunk) :
    Decidable (s.SpawnKeepsOff P kernel openFile filename junk) := by
  unfold SpawnKeepsOff
  infer_instance

/-- `process_spawn`, on a kernel that can be overwritten. -/
def processSpawnRun (P : Platform) (kernel : Frame → Bool) (wild : Option (Int × Kernel))
    (openFile : List Byte → Option File) (s : Kernel) (filename : List Byte) (alloc : Alloc)
    (junk : StackJunk) : Option (Int × Kernel) :=
  unlessOverwritten (s.SpawnKeepsOff P kernel openFile filename junk)
    (s.processSpawn P openFile filename alloc junk) wild

/-- The thread's trap frame returns to user mode, below the kernel. -/
def UserFrame (s : Kernel) (th : Thread) : Prop :=
  let context := InterruptContext.load s.mem th.trapFrame
  context.cs = 0x1B ∧ context.ds = 0x23 ∧ context.ss = 0x23 ∧ context.eip < kernelBase

instance (s : Kernel) (th : Thread) : Decidable (s.UserFrame th) :=
  inferInstanceAs (Decidable (_ ∧ _))

theorem threadContext_user_iff {entry top : Nat} :
    (let context := threadContext entry top
     context.cs = 0x1B ∧ context.ds = 0x23 ∧ context.ss = 0x23 ∧ context.eip < kernelBase) ↔
      0 < entry ∧ entry < kernelBase := by
  by_cases hkernel : entry = 0 ∨ kernelBase ≤ entry
  · refine iff_of_false ?_ (by omega)
    simp [threadContext, hkernel]
  · refine iff_of_true ?_ (by omega)
    simp only [threadContext, hkernel, if_false, true_and]
    omega

/-- **Privilege.** A thread that `process_spawn` posts, whatever the file, starts in user mode
below the kernel exactly when the file's `e_entry` is not zero and below the kernel, if no
segment of the file was stored over the kernel before. -/
theorem processSpawn_userFrame_iff {kernel : Frame → Bool} {wild : Option (Int × Kernel)}
    {openFile : List Byte → Option File} {filename : List Byte} {alloc : Alloc}
    {junk : StackJunk} {r : Int} {th : Thread}
    (hkeeps : s.SpawnKeepsOff P kernel openFile filename junk)
    (h : s.processSpawnRun P kernel wild openFile filename alloc junk = some (r, s'))
    (hnew : s.threads.lookup t = none) (ht : s'.threads.lookup t = some th) :
    ∃ file, openFile filename = some file ∧
      (s'.UserFrame th ↔
        0 < (file.header junk).eEntry ∧ (file.header junk).eEntry < kernelBase) := by
  rw [processSpawnRun, unlessOverwritten_of hkeeps] at h
  obtain ⟨p, s₁, pr, result, entry, vm, -, hs₁, -, hload, hcases⟩ := processSpawn_cases h
  have hcalm : Calm s { s₁ with vm := vm } :=
    (calm_processCreate hs₁).trans (.of_eq rfl rfl rfl rfl)
  have hgone : ∀ {u : Kernel}, Calm s u → u.frame t = none := by
    intro u hcalm
    have hnone : s.frame t = none := frame_eq_none.mpr hnew
    rcases hcalm.frames t with hf | hf
    · rw [hf, hnone]
    · exact hf
  have hframe := frame_of_lookup ht
  rcases hcases with ⟨-, -, hdestroy⟩ |
    ⟨hresult, e, t', s₂, s₃, pr₃, rfl, hcreate, hupdate, hpost, -, -⟩
  · rw [hgone (hcalm.trans (calm_processDestroy hdestroy))] at hframe
    cases hframe
  have hposted := (calm_updateProcess hupdate).trans (schedulerPost_cases hpost).1
  have hframe₂ : s₂.frame t = some (th.parent, th.kernel, th.trapFrame) := by
    rcases hposted.frames t with hf | hf
    · rw [← hf, hframe]
    · rw [hframe] at hf
      cases hf
  rcases threadCreate_cases hcreate with ⟨-, hfailed⟩ | ⟨t₀, -, -, -, -, -, hs₂, hmem⟩
  · have hnone : s₂.frame t = none := by
      rw [hfailed]
      exact hgone (hcalm.trans (.of_eq rfl rfl rfl rfl))
    rw [hnone] at hframe₂
    cases hframe₂
  obtain rfl : t = t₀ := by
    by_contra hne
    rw [hs₂, Function.update_of_ne hne, hgone hcalm] at hframe₂
    cases hframe₂
  rw [hs₂, Function.update_self] at hframe₂
  simp only [Option.some.injEq, Prod.mk.injEq] at hframe₂
  rcases elfLoad_cases hload with ⟨-, hnone, -⟩ | ⟨d, file, r', -, hfile, -, -, -, hout⟩
  · cases hnone
  refine ⟨file, hfile, ?_⟩
  have hentry : e = (file.header junk).eEntry := by
    rcases hout with ⟨-, -, hnone⟩ | ⟨-, -, hsome⟩
    · cases hnone
    · exact Option.some.inj hsome
  rw [UserFrame, ← hframe₂.2.2, hposted.mem, hmem, load_threadStack, ← hentry]
  exact threadContext_user_iff

/-- An ELF header without program headers, whose entry point is the given
little-endian word. -/
def headerWithEntry (e₀ e₁ e₂ e₃ : Byte) : List Byte :=
  [0x7F, 0x45, 0x4C, 0x46, 1, 1] ++ List.replicate 10 0 ++ [2, 0, 3, 0, 1, 0, 0, 0] ++
    [e₀, e₁, e₂, e₃] ++ List.replicate 20 0

/-- Opens the same file under every name. -/
def openContent (content : List Byte) (_ : List Byte) : Option File := some (.ofContent content)

/-- The state after spawning such a file as process 2 with thread 2. -/
def spawned (content : List Byte) : Kernel :=
  Run.next (exec samplePlatform) sample
    (.processSpawn (openContent content) [] ⟨some 2, some 2, 4096⟩ ⟨[], []⟩)

/-- A segment at 1 MB is loaded without harm to the kernel. -/
theorem sampleElf_keepsOff :
    sample.SpawnKeepsOff samplePlatform lowFrames (openContent (sampleElf 0x10)) [] ⟨[], []⟩ := by
  decide

/-- A spawned program with a segment at 1 MB and its entry point at `0x400000`. -/
theorem processSpawn_userFrame_iff_low : ∃ th,
    (spawned (sampleElf 0x10)).threads.lookup 2 = some th ∧
    ∃ file, openContent (sampleElf 0x10) [] = some file ∧
      ((spawned (sampleElf 0x10)).UserFrame th ↔
        0 < (file.header ⟨[], []⟩).eEntry ∧ (file.header ⟨[], []⟩).eEntry < kernelBase) := by
  have hspawn : sample.processSpawnRun samplePlatform lowFrames none
      (openContent (sampleElf 0x10)) [] ⟨some 2, some 2, 4096⟩ ⟨[], []⟩ =
        some (2, spawned (sampleElf 0x10)) :=
    (unlessOverwritten_of sampleElf_keepsOff _ _).trans rfl
  obtain ⟨th, hth⟩ := Option.isSome_iff_exists.mp
    (show ((spawned (sampleElf 0x10)).threads.lookup 2).isSome by decide)
  exact ⟨th, hth, processSpawn_userFrame_iff sampleElf_keepsOff hspawn (by decide) hth⟩

/-- A file without segments whose entry point is `0xC0100000` gets a ring 0 thread. -/
theorem spawned_ring0 :
    sample.SpawnKeepsOff samplePlatform lowFrames (openContent (headerWithEntry 0 0 0x10 0xC0)) []
      ⟨[], []⟩ ∧
    sample.processSpawnRun samplePlatform lowFrames none
      (openContent (headerWithEntry 0 0 0x10 0xC0)) [] ⟨some 2, some 2, 4096⟩ ⟨[], []⟩ =
        some (2, spawned (headerWithEntry 0 0 0x10 0xC0)) ∧
    sample.threads.lookup 2 = none ∧ (spawned (headerWithEntry 0 0 0x10 0xC0)).queue 5 = some 2 ∧
    ∃ th, (spawned (headerWithEntry 0 0 0x10 0xC0)).threads.lookup 2 = some th ∧
      (InterruptContext.load (spawned (headerWithEntry 0 0 0x10 0xC0)).mem th.trapFrame).cs = 0x08 ∧
      (InterruptContext.load (spawned (headerWithEntry 0 0 0x10 0xC0)).mem th.trapFrame).eip =
        0xC0100000 ∧
      ¬(spawned (headerWithEntry 0 0 0x10 0xC0)).UserFrame th := by
  have hkeeps : sample.SpawnKeepsOff samplePlatform lowFrames
      (openContent (headerWithEntry 0 0 0x10 0xC0)) [] ⟨[], []⟩ := by
    decide
  exact ⟨hkeeps, (unlessOverwritten_of hkeeps _ _).trans rfl, by decide, by decide, _, rfl,
    by decide, by decide, by decide⟩

end Kernel

end Leenix
