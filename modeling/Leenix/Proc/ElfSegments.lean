import Leenix.Mm.Memory
import Leenix.Proc.ElfStores

/-!
# What a file asks for

The segments of a file, by its tables alone, and what they need of the memory manager and
of the directory that is active: a region, and pages under the bytes that are stored.

Every directory has the kernel's part of memory, and the table for the first 4 MB is shared.
So a file can be loaded over the kernel itself: its code, its variables, its stack. What the
kernel does then is not in its source (`unlessOverwritten`).

- `Vmm.Places`, `Vmm.Faults`: the regions are granted and mapped; one is granted and not
  mapped.
- `Vmm.KeepsOff`: no byte is stored over the kernel.
- `elfLoad_zero_iff`, `elfLoad_none_iff`: what `elf_load` returns, by the file, the manager and
  the mapped pages.
-/

namespace Leenix

/-! ## The file -/

section File

variable (file : File)

/-- The `PT_LOAD` headers of a file with this header, from header `i` on, `n` headers; `buf`
holds the bytes of the variable that they are read to. -/
def File.segments (hdr : ElfHeader) : Nat → Nat → List Byte → List ElfPhdr
  | _, 0, _ => []
  | i, n + 1, buf =>
    let offsetStart := u32 (hdr.ePhoff + i * hdr.ePhentsize)
    let buf := overlay buf (vfsRead { file with offset := offsetStart } false elfPhdrSize).2.1
    let phdr := ElfPhdr.ofBytes buf
    if phdr.pType = elfPtLoad then phdr :: File.segments hdr (i + 1) n buf
    else File.segments hdr (i + 1) n buf

/-- The `PT_LOAD` headers of a file. -/
def File.loads (junk : StackJunk) : List ElfPhdr :=
  file.segments (file.header junk) 0 (file.header junk).ePhnum junk.phdr

/-- The ELF header is not there in full, or is not that of a program. -/
def File.Refused (junk : StackJunk) : Prop :=
  (vfsRead file false elfHeaderSize).1 ≠ (elfHeaderSize : Int) ∨
    elfCheckHdr (file.header junk) = false

instance (junk : StackJunk) : Decidable (file.Refused junk) := inferInstanceAs (Decidable (_ ∨ _))

/-- The bytes that `vfs_read` stores for a segment. -/
def File.segmentBytes (phdr : ElfPhdr) : List Byte :=
  (vfsRead { file with offset := phdr.pOffset } (phdr.pVaddr = 0) phdr.pFilesz).2.1

/-- `n` addresses from `va` on, wrapping around at `2 ^ 32`. -/
def addressesFrom : Nat → Nat → List Nat
  | _, 0 => []
  | va, n + 1 => va :: addressesFrom (u32 (va + 1)) n

/-- The addresses that a segment is stored to: the bytes of the file, and the zeros. -/
def File.storedAt (phdr : ElfPhdr) : List Nat :=
  addressesFrom phdr.pVaddr (file.segmentBytes phdr).length ++
    addressesFrom (u32 (phdr.pVaddr + phdr.pFilesz)) (phdr.pMemsz - phdr.pFilesz)

end File

/-! ## The manager and the active directory -/

namespace Vm

/-- The addresses are mapped in the active directory. -/
def Maps (vm : Vm) (addresses : List Nat) : Prop :=
  ∀ a ∈ addresses, vm.translate vm.active a ≠ none

instance (vm : Vm) (addresses : List Nat) : Decidable (vm.Maps addresses) :=
  inferInstanceAs (Decidable (∀ a ∈ addresses, _))

/-- The address is one of the kernel's, or is mapped to a frame that the kernel uses. -/
def HitsKernel (kernel : Frame → Bool) (vm : Vm) (a : Nat) : Prop :=
  kernelBase ≤ a ∨ ∃ f ∈ vm.frameOf vm.active a, kernel f = true

instance (kernel : Frame → Bool) (vm : Vm) (a : Nat) : Decidable (vm.HitsKernel kernel a) :=
  inferInstanceAs (Decidable (_ ∨ _))

/-- The stores of `elf_load_seg`, through the active directory. -/
def storeSegment (vm : Vm) (file : File) (phdr : ElfPhdr) : Option Vm := do
  let vm ← vm.storeBytes phdr.pVaddr (file.segmentBytes phdr)
  vm.storeBytes (u32 (phdr.pVaddr + phdr.pFilesz))
    (List.replicate (phdr.pMemsz - phdr.pFilesz) 0)

end Vm

namespace Vmm

variable (V : Vmm) (d : Ptr) (file : File) (kernel : Frame → Bool)

/-- The region of the segment is granted. -/
def Grants (vm : Vm) (phdr : ElfPhdr) : Prop :=
  (V.allocRegion vm d phdr.regionStart phdr.regionSize segFlags).1 = true

instance (vm : Vm) (phdr : ElfPhdr) : Decidable (V.Grants d vm phdr) :=
  inferInstanceAs (Decidable (_ = _))

/-- The address spaces once the region is asked for. -/
def asked (vm : Vm) (phdr : ElfPhdr) : Vm :=
  (V.allocRegion vm d phdr.regionStart phdr.regionSize segFlags).2

/-- The address spaces with the segment in its region. -/
def placed (vm : Vm) (phdr : ElfPhdr) : Vm :=
  ((V.asked d vm phdr).storeSegment file phdr).getD (V.asked d vm phdr)

/-- One after the other, the segments get their regions, and every address that they are
stored to is mapped. -/
def Places : Vm → List ElfPhdr → Prop
  | _, [] => True
  | vm, phdr :: phdrs => V.Grants d vm phdr ∧ (V.asked d vm phdr).Maps (file.storedAt phdr) ∧
      Places (V.placed d file vm phdr) phdrs

/-- The first segment that cannot be placed has its region, and is stored to an address that
is not mapped. -/
def Faults : Vm → List ElfPhdr → Prop
  | _, [] => False
  | vm, phdr :: phdrs => V.Grants d vm phdr ∧ (¬(V.asked d vm phdr).Maps (file.storedAt phdr) ∨
      Faults (V.placed d file vm phdr) phdrs)

/-- No segment that is loaded is stored over the kernel. -/
def KeepsOff : Vm → List ElfPhdr → Prop
  | _, [] => True
  | vm, phdr :: phdrs => V.Grants d vm phdr →
      (∀ a ∈ file.storedAt phdr, ¬(V.asked d vm phdr).HitsKernel kernel a) ∧
        ((V.asked d vm phdr).Maps (file.storedAt phdr) → KeepsOff (V.placed d file vm phdr) phdrs)

instance decidablePlaces : (vm : Vm) → (phdrs : List ElfPhdr) →
    Decidable (V.Places d file vm phdrs)
  | _, [] => inferInstanceAs (Decidable True)
  | vm, phdr :: phdrs =>
    have := decidablePlaces (V.placed d file vm phdr) phdrs
    inferInstanceAs (Decidable (_ ∧ _ ∧ _))

instance decidableKeepsOff : (vm : Vm) → (phdrs : List ElfPhdr) →
    Decidable (V.KeepsOff d file kernel vm phdrs)
  | _, [] => inferInstanceAs (Decidable True)
  | vm, phdr :: phdrs =>
    have := decidableKeepsOff (V.placed d file vm phdr) phdrs
    inferInstanceAs (Decidable (_ → _ ∧ (_ → _)))

end Vmm

/-- Loading the file into the directory leaves the kernel's memory alone. -/
def File.KeepsOff (file : File) (V : Vmm) (kernel : Frame → Bool) (vm : Vm) (dir : Option Ptr)
    (junk : StackJunk) : Prop :=
  file.Refused junk ∨ ∀ d ∈ dir, V.KeepsOff d file kernel vm (file.loads junk)

instance (file : File) (V : Vmm) (kernel : Frame → Bool) (vm : Vm) (dir : Option Ptr)
    (junk : StackJunk) : Decidable (file.KeepsOff V kernel vm dir junk) :=
  inferInstanceAs (Decidable (_ ∨ _))

/-- The outcome of a call that loads a file. A file that is loaded over the kernel replaces
the code and the data that the call goes on with; `wild` stands for what comes of that. -/
def unlessOverwritten {α : Type*} (keepsOff : Prop) [Decidable keepsOff] (outcome wild : α) : α :=
  if keepsOff then outcome else wild

theorem unlessOverwritten_of {α : Type*} {keepsOff : Prop} [Decidable keepsOff] (h : keepsOff)
    (outcome wild : α) : unlessOverwritten keepsOff outcome wild = outcome :=
  if_pos h

/-- The kernel's frames in the samples: those up to the one of its directory. -/
def lowFrames (f : Frame) : Bool := decide (f ≤ 256)

/-! ## Reads -/

variable {V : Vmm} {vm vm' : Vm} {file file' : File} {d : Ptr} {dir : Option Ptr}
  {hdr : ElfHeader} {phdr : ElfPhdr} {junk : StackJunk} {buf : List Byte} {i n : Nat}

theorem vfsRead_read (file : File) (bufIsNull : Bool) (size : Nat) :
    (vfsRead file bufIsNull size).2.2.read = file.read := by
  unfold vfsRead
  split
  · rfl
  · split
    · rfl
    · simp only
      split
      · rfl
      · rfl

/-- What a read returns depends on the file's `read` operation and its offset. -/
theorem vfsRead_congr (h : file'.read = file.read) (offset : Nat) (bufIsNull : Bool) (size : Nat) :
    vfsRead { file' with offset := offset } bufIsNull size =
      vfsRead { file with offset := offset } bufIsNull size := by
  unfold vfsRead
  simp only [h]

/-! ## Stores -/

/-- Stores succeed exactly on mapped addresses. -/
theorem storeBytes_eq_none_iff (va : Nat) (bs : List Byte) :
    vm.storeBytes va bs = none ↔ ¬vm.Maps (addressesFrom va bs.length) := by
  induction bs generalizing vm va with
  | nil => simp [Vm.storeBytes, Vm.Maps, addressesFrom]
  | cons b bs ih =>
    rw [Vm.storeBytes, Vm.storeByte, List.length_cons, addressesFrom]
    cases htranslate : vm.translate vm.active va with
    | none => simp [Vm.Maps, htranslate]
    | some at' =>
      obtain ⟨f, o⟩ := at'
      simp only [Option.bind_eq_bind, Option.bind_some, Option.pure_def]
      rw [ih]
      refine not_congr ?_
      rw [Vm.Maps, Vm.Maps, List.forall_mem_cons, htranslate]
      exact (and_iff_right (Option.some_ne_none _)).symm

/-- The stores of a segment. -/
theorem storeSegment_eq_none_iff :
    vm.storeSegment file phdr = none ↔ ¬vm.Maps (file.storedAt phdr) := by
  have hsplit : vm.Maps (file.storedAt phdr) ↔
      vm.Maps (addressesFrom phdr.pVaddr (file.segmentBytes phdr).length) ∧
        vm.Maps (addressesFrom (u32 (phdr.pVaddr + phdr.pFilesz))
          (phdr.pMemsz - phdr.pFilesz)) :=
    List.forall_mem_append
  rw [Vm.storeSegment, hsplit]
  cases hstore : vm.storeBytes phdr.pVaddr (file.segmentBytes phdr) with
  | none =>
    have hnot := (storeBytes_eq_none_iff _ _).mp hstore
    simp [hnot]
  | some vm₁ =>
    have hfirst : vm.Maps (addressesFrom phdr.pVaddr (file.segmentBytes phdr).length) := by
      by_contra hnot
      rw [(storeBytes_eq_none_iff _ _).mpr hnot] at hstore
      cases hstore
    have hsame := Vm.sameMaps_of_storeBytes hstore
    have hmaps : ∀ addresses, vm₁.Maps addresses ↔ vm.Maps addresses := fun addresses => by
      simp only [Vm.Maps, Vm.translate, hsame.frameOf, hsame.active]
    rw [Option.bind_eq_bind, Option.bind_some, storeBytes_eq_none_iff, List.length_replicate,
      hmaps, and_iff_right hfirst]

/-! ## The loader -/

/-- `elf_load_seg` asks for the region and stores the segment. -/
theorem elfLoadSeg_eq (hread : file'.read = file.read) : elfLoadSeg V vm file' (some d) phdr =
    if V.Grants d vm phdr then
      ((V.asked d vm phdr).storeSegment file phdr).map fun vm =>
        (0, (vfsRead { file' with offset := phdr.pOffset } (phdr.pVaddr = 0) phdr.pFilesz).2.2, vm)
    else some (-1, file', V.asked d vm phdr) := by
  have hbytes : (vfsRead { file' with offset := phdr.pOffset } (phdr.pVaddr = 0)
      phdr.pFilesz).2.1 = file.segmentBytes phdr := by
    rw [File.segmentBytes, vfsRead_congr hread]
  rw [← elfLoadSegLog_result, elfLoadSegLog]
  rcases hregion : V.allocRegion vm d phdr.regionStart phdr.regionSize segFlags with
    ⟨granted, vm₁⟩
  have hgrants : V.Grants d vm phdr ↔ granted = true := by rw [Vmm.Grants, hregion]
  have hasked : V.asked d vm phdr = vm₁ := by rw [Vmm.asked, hregion]
  rw [hasked]
  cases granted with
  | false => rw [if_neg fun h => Bool.false_ne_true (hgrants.mp h)]
  | true =>
    rw [if_pos (hgrants.mpr rfl)]
    simp only [hbytes, Vm.storeSegment, Option.bind_eq_bind, Option.pure_def,
      Option.map_bind]
    by_cases hzero : phdr.pFilesz < phdr.pMemsz
    · simp only [hzero, if_true]
      refine Option.bind_congr fun vm₂ _ => ?_
      rw [Function.comp_apply, Option.map_eq_bind]
      rfl
    · have hlength : phdr.pMemsz - phdr.pFilesz = 0 := by omega
      simp only [hzero, if_false, hlength, List.replicate_zero, Vm.storeBytes]
      rfl

theorem elfLoadSeg_read {r : Int} (h : elfLoadSeg V vm file (some d) phdr = some (r, file', vm')) :
    file'.read = file.read := by
  rw [elfLoadSeg_eq rfl] at h
  split at h
  case isTrue =>
    obtain ⟨vm₁, -, heq⟩ := Option.map_eq_some_iff.mp h
    rw [← (Prod.mk.inj (Prod.mk.inj heq).2).1]
    exact vfsRead_read _ _ _
  case isFalse =>
    rw [← (Prod.mk.inj (Prod.mk.inj (Option.some.inj h)).2).1]

/-- **Loop lemma.** What the loop over the header table returns is decided by the segments,
the manager and the mapped pages. -/
theorem elfLoadPhdrs_spec (hread : file'.read = file.read) :
    (V.Places d file vm (file.segments hdr i n buf) →
        ∃ vm', elfLoadPhdrs V hdr (some d) i n file' buf vm = some (0, vm')) ∧
      (V.Faults d file vm (file.segments hdr i n buf) →
        elfLoadPhdrs V hdr (some d) i n file' buf vm = none) ∧
      (¬V.Places d file vm (file.segments hdr i n buf) →
        ¬V.Faults d file vm (file.segments hdr i n buf) →
          ∃ vm', elfLoadPhdrs V hdr (some d) i n file' buf vm = some (-1, vm')) := by
  induction n generalizing i file' buf vm with
  | zero => exact ⟨fun _ => ⟨vm, rfl⟩, fun h => h.elim, fun h _ => absurd trivial h⟩
  | succ n ih =>
    rw [elfLoadPhdrs, File.segments, vfsRead_congr hread]
    have hread₁ : (vfsRead { file with offset := u32 (hdr.ePhoff + i * hdr.ePhentsize) } false
        elfPhdrSize).2.2.read = file.read := vfsRead_read _ _ _
    rcases hcall : vfsRead { file with offset := u32 (hdr.ePhoff + i * hdr.ePhentsize) } false
      elfPhdrSize with ⟨r, bytes, file₁⟩
    rw [hcall] at hread₁
    simp only
    by_cases hload : (ElfPhdr.ofBytes (overlay buf bytes)).pType = elfPtLoad
    · simp only [hload, if_true]
      generalize ElfPhdr.ofBytes (overlay buf bytes) = phdr
      rw [elfLoadSeg_eq hread₁, Vmm.Places, Vmm.Faults]
      by_cases hgrants : V.Grants d vm phdr
      · rw [if_pos hgrants]
        simp only [hgrants, true_and]
        cases hstore : (V.asked d vm phdr).storeSegment file phdr with
        | none =>
          have hnot := storeSegment_eq_none_iff.mp hstore
          simp [hnot]
        | some vm₁ =>
          have hmaps : (V.asked d vm phdr).Maps (file.storedAt phdr) := by
            by_contra hnot
            rw [storeSegment_eq_none_iff.mpr hnot] at hstore
            cases hstore
          have hplaced : V.placed d file vm phdr = vm₁ := by rw [Vmm.placed, hstore]; rfl
          simp only [hmaps, not_true_eq_false, true_and, false_or, hplaced, Option.map_some,
            Option.bind_eq_bind, Option.bind_some, Int.reduceNeg, reduceCtorEq, if_false]
          exact ih ((vfsRead_read _ _ _).trans hread₁)
      · rw [if_neg hgrants]
        simp [hgrants]
    · simp only [hload, if_false]
      exact ih hread₁

/-- The loop behind an ELF header that passes. -/
theorem elfLoad_of_accepted (h : ¬file.Refused junk) :
    elfLoad V vm (some file) (some d) junk =
      (elfLoadPhdrs V (file.header junk) (some d) 0 (file.header junk).ePhnum
        (vfsRead file false elfHeaderSize).2.2 junk.phdr vm).bind fun r =>
          if r.1 = -1 then some (-1, none, r.2)
          else some (0, some (file.header junk).eEntry, r.2) := by
  simp only [File.Refused, not_or, not_not] at h
  obtain ⟨hread, hcheck⟩ := h
  have hcheck' : ¬elfCheckHdr (.ofBytes (overlay junk.eHdr
      (vfsRead file false elfHeaderSize).2.1)) = false := hcheck
  simp only [elfLoad, hread, ne_eq, not_true_eq_false, if_false, hcheck']
  rfl

theorem elfLoad_of_refused (h : file.Refused junk) :
    elfLoad V vm (some file) (some d) junk = some (-1, none, vm) := by
  unfold elfLoad
  by_cases hread : (vfsRead file false elfHeaderSize).1 = (elfHeaderSize : Int)
  · have hcheck := h.resolve_left (not_not.mpr hread)
    unfold File.header at hcheck
    simp [hread, hcheck]
  · simp [hread]

/-- `elf_load` on a file whose segments are placed. -/
theorem elfLoad_of_places (h : ¬file.Refused junk) (hplaces : V.Places d file vm (file.loads junk)) :
    ∃ vm', elfLoad V vm (some file) (some d) junk =
      some (0, some (file.header junk).eEntry, vm') := by
  obtain ⟨vm', hloop⟩ := (elfLoadPhdrs_spec (vfsRead_read file false elfHeaderSize)).1 hplaces
  refine ⟨vm', ?_⟩
  rw [elfLoad_of_accepted h, hloop]
  rfl

/-- A file with a store to an address that is not mapped, and no region before it that is
refused. -/
theorem elfLoad_of_faults (h : ¬file.Refused junk) (hfaults : V.Faults d file vm (file.loads junk)) :
    elfLoad V vm (some file) (some d) junk = none := by
  have hloop := (elfLoadPhdrs_spec (vfsRead_read file false elfHeaderSize)).2.1 hfaults
  rw [elfLoad_of_accepted h, hloop, Option.bind_none]

/-- A file with a region that is refused, and no store before it that faults. -/
theorem elfLoad_of_notPlaced (h : ¬file.Refused junk) (hplaces : ¬V.Places d file vm (file.loads junk))
    (hfaults : ¬V.Faults d file vm (file.loads junk)) :
    ∃ vm', elfLoad V vm (some file) (some d) junk = some (-1, none, vm') := by
  obtain ⟨vm', hloop⟩ :=
    (elfLoadPhdrs_spec (vfsRead_read file false elfHeaderSize)).2.2 hplaces hfaults
  refine ⟨vm', ?_⟩
  rw [elfLoad_of_accepted h, hloop]
  rfl

/-- **Success.** `elf_load` returns 0 exactly when the ELF header passes and the segments are
placed. No other read matters. -/
theorem elfLoad_zero_iff : (∃ entry vm', elfLoad V vm (some file) (some d) junk =
      some (0, entry, vm')) ↔
    ¬file.Refused junk ∧ V.Places d file vm (file.loads junk) := by
  constructor
  · rintro ⟨entry, vm', hload⟩
    by_cases h : file.Refused junk
    · rw [elfLoad_of_refused h] at hload
      cases hload
    refine ⟨h, ?_⟩
    by_contra hplaces
    by_cases hfaults : V.Faults d file vm (file.loads junk)
    · rw [elfLoad_of_faults h hfaults] at hload
      cases hload
    · obtain ⟨vm₁, hrefused⟩ := elfLoad_of_notPlaced h hplaces hfaults
      rw [hrefused] at hload
      cases hload
  · rintro ⟨h, hplaces⟩
    exact ⟨_, elfLoad_of_places h hplaces⟩

/-- **Faults.** `elf_load` does not return exactly when it stores to an address that is not
mapped. -/
theorem elfLoad_none_iff : elfLoad V vm (some file) (some d) junk = none ↔
    ¬file.Refused junk ∧ V.Faults d file vm (file.loads junk) := by
  constructor
  · intro hnone
    by_cases h : file.Refused junk
    · rw [elfLoad_of_refused h] at hnone
      cases hnone
    refine ⟨h, ?_⟩
    by_contra hfaults
    by_cases hplaces : V.Places d file vm (file.loads junk)
    · obtain ⟨vm₁, hplaced⟩ := elfLoad_of_places h hplaces
      rw [hplaced] at hnone
      cases hnone
    · obtain ⟨vm₁, hrefused⟩ := elfLoad_of_notPlaced h hplaces hfaults
      rw [hrefused] at hnone
      cases hnone
  · rintro ⟨h, hfaults⟩
    exact elfLoad_of_faults h hfaults

end Leenix
