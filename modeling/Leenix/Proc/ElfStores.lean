import Leenix.Mm.Reference
import Leenix.Proc.Elf

/-!
# Where the loader stores

`elf_load_seg` and `elf_load` with a record of the regions they request and of
the addresses they store to. The record decides a question that does not depend
on the memory manager: whether the stores stay inside the region that was
requested for them, and that region below the kernel.

- `elfLoadSegLog_result`, `elfLoadPhdrsLog_result`: the record changes nothing.
- `region_eq`, `region_cases`: what the rounding and the 32-bit sums make of the
  header's fields.
- `elfLoadSeg_safe_iff`: the stores are safe exactly when the file's bytes fit
  the pages of the segment and the segment lies below the kernel, apart from two
  ways in which the sum of address and size can wrap around harmlessly.
-/

namespace Leenix

/-- A region requested from `vmm_alloc_region`, with the answer, or bytes stored
from an address on. -/
inductive LoadEvent
  | request (dir : Ptr) (va size : Nat) (granted : Bool)
  | store (va len : Nat)
deriving DecidableEq

namespace ElfPhdr

/-- `start_addr` of `elf_load_seg`. -/
def regionStart (phdr : ElfPhdr) : Nat := pageAlignUp phdr.pVaddr

/-- `size` of `elf_load_seg`. -/
def regionSize (phdr : ElfPhdr) : Nat :=
  u32 (pageAlignDwn (u32 (phdr.pVaddr + phdr.pMemsz)) + (2 ^ 32 - phdr.regionStart))

end ElfPhdr

section Log

variable (V : Vmm)

/-- `elfLoadSeg` with a record of its requests and stores. A call that faults in
the first of its two stores is recorded with both. -/
def elfLoadSegLog (vm : Vm) (file : File) (dir : Option Ptr) (phdr : ElfPhdr) :
    List LoadEvent × Option (Int × File × Vm) :=
  match dir with
  | none => ([], some (-1, file, vm))
  | some d =>
    let startAddr := phdr.regionStart
    let size := phdr.regionSize
    match V.allocRegion vm d startAddr size segFlags with
    | (false, vm) => ([.request d startAddr size false], some (-1, file, vm))
    | (true, vm) =>
      let (_, bytes, file) :=
        vfsRead { file with offset := phdr.pOffset } (phdr.pVaddr = 0) phdr.pFilesz
      let events : List LoadEvent :=
        [.request d startAddr size true, .store phdr.pVaddr bytes.length]
      if phdr.pFilesz < phdr.pMemsz then
        (events ++ [.store (u32 (phdr.pVaddr + phdr.pFilesz)) (phdr.pMemsz - phdr.pFilesz)], do
          let vm ← vm.storeBytes phdr.pVaddr bytes
          let vm ← vm.storeBytes (u32 (phdr.pVaddr + phdr.pFilesz))
            (List.replicate (phdr.pMemsz - phdr.pFilesz) 0)
          return (0, file, vm))
      else
        (events, do
          let vm ← vm.storeBytes phdr.pVaddr bytes
          return (0, file, vm))

/-- `elfLoadPhdrs` with a record. -/
def elfLoadPhdrsLog (hdr : ElfHeader) (dir : Option Ptr) :
    Nat → Nat → File → List Byte → Vm → List LoadEvent × Option (Int × Vm)
  | _, 0, _, _, vm => ([], some (0, vm))
  | i, n + 1, file, buf, vm =>
    let offsetStart := u32 (hdr.ePhoff + i * hdr.ePhentsize)
    let (_, bytes, file) := vfsRead { file with offset := offsetStart } false elfPhdrSize
    let buf := overlay buf bytes
    let phdr := ElfPhdr.ofBytes buf
    if phdr.pType = elfPtLoad then
      match elfLoadSegLog V vm file dir phdr with
      | (events, none) => (events, none)
      | (events, some (result, file, vm)) =>
        if result = -1 then (events, some (-1, vm))
        else
          let (rest, result) := elfLoadPhdrsLog hdr dir (i + 1) n file buf vm
          (events ++ rest, result)
    else
      elfLoadPhdrsLog hdr dir (i + 1) n file buf vm

variable {V}

/-- Recording leaves `elf_load_seg` as it is. -/
theorem elfLoadSegLog_result (vm : Vm) (file : File) (dir : Option Ptr) (phdr : ElfPhdr) :
    (elfLoadSegLog V vm file dir phdr).2 = elfLoadSeg V vm file dir phdr := by
  cases dir with
  | none => rfl
  | some d =>
    have hregion : elfLoadSeg V vm file (some d) phdr =
        match V.allocRegion vm d phdr.regionStart phdr.regionSize segFlags with
        | (false, vm) => some (-1, file, vm)
        | (true, vm) => do
          let (_, bytes, file) :=
            vfsRead { file with offset := phdr.pOffset } (phdr.pVaddr = 0) phdr.pFilesz
          let vm ← vm.storeBytes phdr.pVaddr bytes
          if phdr.pFilesz < phdr.pMemsz then
            let vm ← vm.storeBytes (u32 (phdr.pVaddr + phdr.pFilesz))
              (List.replicate (phdr.pMemsz - phdr.pFilesz) 0)
            return (0, file, vm)
          else
            return (0, file, vm) := rfl
    rw [hregion, elfLoadSegLog]
    rcases V.allocRegion vm d phdr.regionStart phdr.regionSize segFlags with ⟨_ | _, vm'⟩
    · rfl
    · by_cases hzero : phdr.pFilesz < phdr.pMemsz
      · simp only [hzero, if_true]
      · simp only [hzero, if_false]

/-- Recording leaves the loop of `elf_load` as it is. -/
theorem elfLoadPhdrsLog_result (hdr : ElfHeader) (dir : Option Ptr) (i n : Nat) (file : File)
    (buf : List Byte) (vm : Vm) : (elfLoadPhdrsLog V hdr dir i n file buf vm).2 =
      elfLoadPhdrs V hdr dir i n file buf vm := by
  induction n generalizing i file buf vm with
  | zero => rfl
  | succ n ih =>
    rw [elfLoadPhdrsLog, elfLoadPhdrs]
    simp only
    split
    · rw [← elfLoadSegLog_result]
      rcases elfLoadSegLog V vm _ dir _ with ⟨events, _ | ⟨result, file', vm'⟩⟩
      · rfl
      · by_cases hfail : result = -1
        · simp [hfail]
        · simp [hfail, ih]
    · exact ih ..

end Log

/-! ## The region -/

/-- The fields are 32-bit words. -/
structure ElfPhdr.Fits (phdr : ElfPhdr) : Prop where
  pVaddr : phdr.pVaddr < 2 ^ 32
  pFilesz : phdr.pFilesz < 2 ^ 32
  pMemsz : phdr.pMemsz < 2 ^ 32

namespace ElfPhdr

variable {phdr : ElfPhdr}

theorem regionStart_le : phdr.regionStart ≤ phdr.pVaddr := Nat.sub_le _ _

theorem regionStart_aligned (phdr : ElfPhdr) : phdr.regionStart % pageSize = 0 := by
  simp only [regionStart, pageAlignUp, pageSize]
  omega

/-- A segment that ends at or below the kernel gets its own pages. -/
theorem region_eq (h : phdr.pVaddr + phdr.pMemsz ≤ kernelBase) :
    phdr.regionStart + phdr.regionSize = pageAlignDwn (phdr.pVaddr + phdr.pMemsz) ∧
      phdr.pVaddr + phdr.pMemsz ≤ phdr.regionStart + phdr.regionSize ∧
      phdr.regionStart + phdr.regionSize ≤ kernelBase := by
  simp only [regionStart, regionSize, pageAlignDwn, pageAlignUp, u32, pageSize, kernelBase] at h ⊢
  omega

/-- Of the others, the region is empty, or reaches the kernel, or is the single
page into which the end of the segment has wrapped around. -/
theorem region_cases (hfits : phdr.Fits) (h : kernelBase < phdr.pVaddr + phdr.pMemsz) :
    phdr.regionSize = 0 ∧ phdr.pVaddr + phdr.pMemsz ≤ phdr.regionStart + 2 ^ 32 ∨
      phdr.regionSize ≠ 0 ∧ kernelBase < phdr.regionStart + phdr.regionSize ∧
        (phdr.regionStart + 2 ^ 32 < phdr.pVaddr + phdr.pMemsz →
          kernelBase < phdr.regionStart + pageSize) ∨
      phdr.regionSize = pageSize ∧ phdr.regionStart + pageSize ≤ kernelBase ∧
        phdr.regionStart + 2 ^ 32 < phdr.pVaddr + phdr.pMemsz := by
  obtain ⟨hv, -, hm⟩ := hfits
  simp only [regionStart, regionSize, pageAlignDwn, pageAlignUp, u32, pageSize, kernelBase] at *
  omega

end ElfPhdr

/-! ## Safe stores -/

/-- A region that was granted lies below the kernel; a byte that is stored lies in
a region that was granted. -/
def LoadEvent.Safe (events : List LoadEvent) : LoadEvent → Prop
  | .request _ va size granted =>
    granted = true → ∀ a, va ≤ a → a < va + size → a < kernelBase
  | .store va len => ∀ k, k < len → ∃ d start size, .request d start size true ∈ events ∧
      start ≤ u32 (va + k) ∧ u32 (va + k) < start + size

/-- Every request and every store of the record is safe. -/
def LoadSafe (events : List LoadEvent) : Prop := ∀ e ∈ events, e.Safe events

/-- Bytes that are stored in order, wrapping around at `2 ^ 32`, stay in a region
below that exactly when the first and the last do. -/
theorem inside_iff {va len start size : Nat} (hva : va < 2 ^ 32) (hend : start + size < 2 ^ 32) :
    (∀ k, k < len → start ≤ u32 (va + k) ∧ u32 (va + k) < start + size) ↔
      len = 0 ∨ start ≤ va ∧ va + len ≤ start + size := by
  simp only [u32]
  constructor
  · intro h
    rcases Nat.eq_zero_or_pos len with hlen | hlen
    · exact .inl hlen
    have hfirst := h 0 hlen
    have hlast := h (min (len - 1) (2 ^ 32 - 1 - va)) (by omega)
    omega
  · intro h k hk
    have hsmall : (va + k) % 2 ^ 32 = va + k := Nat.mod_eq_of_lt (by omega)
    omega

/-- The number of bytes that the file has for the segment. A null address stops
`vfs_read`. -/
def fileBytes (content : List Byte) (phdr : ElfPhdr) : Nat :=
  if phdr.pVaddr = 0 then 0 else min phdr.pFilesz (content.length - phdr.pOffset)

/-- The `n` bytes of the file and the zero fill stay in the segment's pages, below
the kernel. In the second case nothing is stored; in the third the segment is as
long as the address space, less than its own first page, and its end comes to lie
in that page again. -/
def StoresInside (phdr : ElfPhdr) (n : Nat) : Prop :=
  phdr.pVaddr + phdr.pMemsz ≤ kernelBase ∧
      (n = 0 ∨ phdr.pVaddr + n ≤ pageAlignDwn (phdr.pVaddr + phdr.pMemsz)) ∨
    kernelBase < phdr.pVaddr + phdr.pMemsz ∧ phdr.regionSize = 0 ∧ n = 0 ∧
      phdr.pMemsz ≤ phdr.pFilesz ∨
    pageAlignUp phdr.pVaddr + 2 ^ 32 < phdr.pVaddr + phdr.pMemsz ∧
      pageAlignUp phdr.pVaddr + pageSize ≤ kernelBase ∧
      (n = 0 ∨ phdr.pVaddr + n ≤ pageAlignUp phdr.pVaddr + pageSize) ∧
      (phdr.pMemsz ≤ phdr.pFilesz ∨ pageAlignUp phdr.pVaddr + 2 ^ 32 ≤ phdr.pVaddr + phdr.pFilesz)

theorem length_vfsRead_ofContent (content : List Byte) (phdr : ElfPhdr) :
    (vfsRead { File.ofContent content with offset := phdr.pOffset } (phdr.pVaddr = 0)
      phdr.pFilesz).2.1.length = fileBytes content phdr := by
  unfold vfsRead File.ofContent fileBytes
  by_cases hv : phdr.pVaddr = 0
  · simp [hv]
  · by_cases hf : phdr.pFilesz = 0
    · simp [hv, hf]
    · simp [hv, hf, List.length_take, List.length_drop]

/-- The only region that was granted is the one the stores must lie in. -/
theorem store_safe_iff {d start size : Nat} {events : List LoadEvent}
    (hmem : .request d start size true ∈ events)
    (honly : ∀ d' start' size', .request d' start' size' true ∈ events →
      start' = start ∧ size' = size) (va len : Nat) :
    (LoadEvent.store va len).Safe events ↔
      ∀ k, k < len → start ≤ u32 (va + k) ∧ u32 (va + k) < start + size := by
  constructor
  · intro h k hk
    obtain ⟨d', start', size', hreq, hin⟩ := h k hk
    obtain ⟨rfl, rfl⟩ := honly d' start' size' hreq
    exact hin
  · intro h k hk
    exact ⟨d, start, size, hmem, h k hk⟩

/-- The record of a granted region, its first store, and a second one. -/
theorem loadSafe_granted {d start size va n z len : Nat} (zero : Prop) [Decidable zero] :
    LoadSafe (if zero then [.request d start size true, .store va n, .store z len]
        else [.request d start size true, .store va n]) ↔
      (∀ a, start ≤ a → a < start + size → a < kernelBase) ∧
        (∀ k, k < n → start ≤ u32 (va + k) ∧ u32 (va + k) < start + size) ∧
        (zero → ∀ k, k < len → start ≤ u32 (z + k) ∧ u32 (z + k) < start + size) := by
  have hrequest : ∀ events, (LoadEvent.request d start size true).Safe events ↔
      ∀ a, start ≤ a → a < start + size → a < kernelBase := by
    simp [LoadEvent.Safe]
  by_cases hzero : zero
  · have honly : ∀ d' start' size', LoadEvent.request d' start' size' true ∈
        [.request d start size true, .store va n, .store z len] → start' = start ∧ size' = size := by
      simp
    simp only [hzero, if_true, LoadSafe, List.forall_mem_cons, hrequest,
      store_safe_iff List.mem_cons_self honly, List.not_mem_nil, false_implies, implies_true,
      and_true, forall_const]
  · have honly : ∀ d' start' size', LoadEvent.request d' start' size' true ∈
        [.request d start size true, .store va n] → start' = start ∧ size' = size := by
      simp
    simp only [hzero, if_false, LoadSafe, List.forall_mem_cons, hrequest,
      store_safe_iff List.mem_cons_self honly, List.not_mem_nil, false_implies, implies_true,
      and_true]

/-- The region of a header and the two stores, against the header's fields. -/
theorem storesInside_iff {phdr : ElfPhdr} {n : Nat} (hfits : phdr.Fits) :
    ((∀ a, phdr.regionStart ≤ a → a < phdr.regionStart + phdr.regionSize → a < kernelBase) ∧
      (∀ k, k < n → phdr.regionStart ≤ u32 (phdr.pVaddr + k) ∧
        u32 (phdr.pVaddr + k) < phdr.regionStart + phdr.regionSize) ∧
      (phdr.pFilesz < phdr.pMemsz → ∀ k, k < phdr.pMemsz - phdr.pFilesz →
        phdr.regionStart ≤ u32 (u32 (phdr.pVaddr + phdr.pFilesz) + k) ∧
        u32 (u32 (phdr.pVaddr + phdr.pFilesz) + k) < phdr.regionStart + phdr.regionSize)) ↔
      StoresInside phdr n := by
  have hstart := phdr.regionStart_le
  have hfill : u32 (phdr.pVaddr + phdr.pFilesz) < 2 ^ 32 := Nat.mod_lt _ (by decide)
  have hbelow : (∀ a, phdr.regionStart ≤ a → a < phdr.regionStart + phdr.regionSize →
      a < kernelBase) ↔
        phdr.regionSize = 0 ∨ phdr.regionStart + phdr.regionSize ≤ kernelBase := by
    constructor
    · intro h
      rcases Nat.eq_zero_or_pos phdr.regionSize with hsize | hsize
      · exact .inl hsize
      · have hlast := h (phdr.regionStart + phdr.regionSize - 1) (by omega) (by omega)
        omega
    · intro h a hlo hhi
      omega
  have hv := hfits.pVaddr
  rw [hbelow]
  by_cases hend : phdr.pVaddr + phdr.pMemsz ≤ kernelBase
  · -- the ordinary case: only the file's bytes can be too many
    obtain ⟨heq, hfit, hle⟩ := phdr.region_eq hend
    have hlt : phdr.regionStart + phdr.regionSize < 2 ^ 32 := Nat.lt_of_le_of_lt hle (by decide)
    have hsum : phdr.pFilesz < phdr.pMemsz →
        u32 (phdr.pVaddr + phdr.pFilesz) = phdr.pVaddr + phdr.pFilesz := fun h =>
      Nat.mod_eq_of_lt (by omega)
    rw [inside_iff hv hlt, inside_iff hfill hlt]
    unfold StoresInside
    rw [← heq]
    by_cases hzero : phdr.pFilesz < phdr.pMemsz
    · rw [hsum hzero]
      omega
    · omega
  · have hstart' : pageAlignUp phdr.pVaddr = phdr.regionStart := rfl
    unfold StoresInside
    rw [hstart']
    rcases phdr.region_cases hfits (Nat.lt_of_not_le hend) with ⟨hsize, hwrap⟩ |
      ⟨hsize, hkernel, hpage⟩ | ⟨hsize, hpage, hwrap⟩
    · -- an empty region: nothing may be stored
      have hlt : phdr.regionStart + phdr.regionSize < 2 ^ 32 := by omega
      rw [inside_iff hv hlt, inside_iff hfill hlt]
      omega
    · -- a region that reaches the kernel
      constructor
      · rintro ⟨hbase, -⟩
        omega
      · intro h
        omega
    · -- the segment's end has wrapped into its first page
      have hlt : phdr.regionStart + phdr.regionSize < 2 ^ 32 := by
        rw [hsize]
        exact Nat.lt_of_le_of_lt hpage (by decide)
      have hm := hfits.pMemsz
      have hf := hfits.pFilesz
      have hlast : phdr.pVaddr < phdr.regionStart + pageSize := by
        simp only [ElfPhdr.regionStart, pageAlignUp, pageSize]
        omega
      rw [inside_iff hv hlt, inside_iff hfill hlt, hsize]
      simp only [u32, pageSize, kernelBase] at *
      omega

instance (phdr : ElfPhdr) (n : Nat) : Decidable (StoresInside phdr n) := by
  unfold StoresInside
  infer_instance

/-- The record of `elf_load_seg`, by the answer to its request. -/
theorem elfLoadSegLog_events (V : Vmm) (vm : Vm) (content : List Byte) (offset : Nat) (d : Ptr)
    (phdr : ElfPhdr) :
    (elfLoadSegLog V vm { File.ofContent content with offset := offset } (some d) phdr).1 =
      if (V.allocRegion vm d phdr.regionStart phdr.regionSize segFlags).1 = true then
        if phdr.pFilesz < phdr.pMemsz then
          [.request d phdr.regionStart phdr.regionSize true,
            .store phdr.pVaddr (fileBytes content phdr),
            .store (u32 (phdr.pVaddr + phdr.pFilesz)) (phdr.pMemsz - phdr.pFilesz)]
        else
          [.request d phdr.regionStart phdr.regionSize true,
            .store phdr.pVaddr (fileBytes content phdr)]
      else [.request d phdr.regionStart phdr.regionSize false] := by
  rw [elfLoadSegLog, ← length_vfsRead_ofContent content phdr]
  rcases V.allocRegion vm d phdr.regionStart phdr.regionSize segFlags with ⟨_ | _, vm'⟩
  · rfl
  · by_cases hzero : phdr.pFilesz < phdr.pMemsz
    · simp only [hzero, if_true]
      rfl
    · simp only [hzero, if_false]
      rfl

/-- A segment of 16 bytes at 4 MB, two of them in the file. -/
def samplePage : ElfPhdr := ⟨elfPtLoad, 0, 0x400000, 2, 16⟩

/-- Two bytes of file for one byte of memory, at the end of a page. -/
def samplePhdr : ElfPhdr := ⟨elfPtLoad, 0, 0x400FFF, 2, 1⟩

end Leenix
