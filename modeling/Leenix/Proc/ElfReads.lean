import Leenix.Proc.ElfImage
import Leenix.Proc.ElfSegments

/-!
# The loader and short reads

`elf_load` compares the result of its first read with the size of the ELF header,
and drops the results of all later reads: those of the program headers, and those
of the segments.

- `elfLoadReads_eq`: a call that returns 0 has read every program header and every
  segment, one read each, an induction over the header table.
- `elfLoad_readsFull_iff`: it returns 0 only after full reads exactly when the file
  serves them, or the call fails for another reason.
-/

namespace Leenix

/-- A call of `vfs_read`: the size that was asked for, and the result. -/
structure FileRead where
  size : Nat
  result : Int
deriving DecidableEq

/-- All of the bytes were read. -/
def FileRead.Full (r : FileRead) : Prop := r.size = 0 ∨ r.result = r.size

instance (r : FileRead) : Decidable r.Full := inferInstanceAs (Decidable (_ ∨ _))

/-- The read of a segment's bytes. -/
def File.segmentRead (file : File) (phdr : ElfPhdr) : FileRead :=
  ⟨phdr.pFilesz,
    (vfsRead { file with offset := phdr.pOffset } (phdr.pVaddr = 0) phdr.pFilesz).1⟩

section Reads

variable (V : Vmm)

/-- The reads of the loop of `elf_load` (elf.c:52–67), up to the segment that ends
it. -/
def elfLoadPhdrsReads (hdr : ElfHeader) (dir : Option Ptr) :
    Nat → Nat → File → List Byte → Vm → List FileRead
  | _, 0, _, _, _ => []
  | i, n + 1, file, buf, vm =>
    let offsetStart := u32 (hdr.ePhoff + i * hdr.ePhentsize)
    let (r, bytes, file) := vfsRead { file with offset := offsetStart } false elfPhdrSize
    let buf := overlay buf bytes
    let phdr := ElfPhdr.ofBytes buf
    ⟨elfPhdrSize, r⟩ ::
      if phdr.pType = elfPtLoad then
        match elfLoadSeg V vm file dir phdr with
        | none => []
        | some (result, file', vm) =>
          -- a refused segment is not read
          if result = -1 then []
          else
            file.segmentRead phdr :: elfLoadPhdrsReads hdr dir (i + 1) n file' buf vm
      else
        elfLoadPhdrsReads hdr dir (i + 1) n file buf vm

/-- The reads of `elf_load` (elf.c:37–71). -/
def elfLoadReads (vm : Vm) (thisfile : Option File) (dir : Option Ptr) (junk : StackJunk) :
    List FileRead :=
  match dir, thisfile with
  | some d, some file =>
    let (n, bytes, file) := vfsRead file false elfHeaderSize
    let hdr := ElfHeader.ofBytes (overlay junk.eHdr bytes)
    ⟨elfHeaderSize, n⟩ ::
      if n ≠ (elfHeaderSize : Int) ∨ elfCheckHdr hdr = false then []
      else elfLoadPhdrsReads V hdr (some d) 0 hdr.ePhnum file junk.phdr vm
  | _, _ => []

end Reads

/-- The reads of the program headers and segments that a file with this header has,
from header `i` on, `n` headers. -/
def File.tableReads (file : File) (hdr : ElfHeader) : Nat → Nat → List Byte → List FileRead
  | _, 0, _ => []
  | i, n + 1, buf =>
    let offsetStart := u32 (hdr.ePhoff + i * hdr.ePhentsize)
    let (r, bytes, _) := vfsRead { file with offset := offsetStart } false elfPhdrSize
    let buf := overlay buf bytes
    let phdr := ElfPhdr.ofBytes buf
    ⟨elfPhdrSize, r⟩ ::
      ((if phdr.pType = elfPtLoad then [file.segmentRead phdr] else []) ++
        file.tableReads hdr (i + 1) n buf)

/-- The file serves the ELF header, every program header and every segment in full. -/
def File.ServesAll (file : File) (junk : StackJunk) : Prop :=
  (vfsRead file false elfHeaderSize).1 = (elfHeaderSize : Int) ∧
    ∀ r ∈ file.tableReads (file.header junk) 0 (file.header junk).ePhnum junk.phdr, r.Full

/-- `elf_load`, with the reads that it makes. -/
def elfLoadRun (V : Vmm) (kernel : Frame → Bool)
    (wild : Option (Int × Option Nat × Vm) × List FileRead) (vm : Vm) (file : File)
    (dir : Option Ptr) (junk : StackJunk) : Option (Int × Option Nat × Vm) × List FileRead :=
  unlessOverwritten (file.KeepsOff V kernel vm dir junk)
    (elfLoad V vm (some file) dir junk, elfLoadReads V vm (some file) dir junk) wild

variable {V : Vmm} {vm vm' : Vm} {file file' : File} {d : Ptr} {dir : Option Ptr}
  {hdr : ElfHeader} {phdr : ElfPhdr} {junk : StackJunk} {buf : List Byte} {i n : Nat}

/-! ## What is read -/

theorem segmentRead_congr (h : file'.read = file.read) (phdr : ElfPhdr) :
    file'.segmentRead phdr = file.segmentRead phdr := by
  rw [File.segmentRead, File.segmentRead, vfsRead_congr h]

theorem tableReads_congr (h : file'.read = file.read) :
    file'.tableReads hdr i n buf = file.tableReads hdr i n buf := by
  induction n generalizing i buf with
  | zero => rfl
  | succ n ih =>
    rw [File.tableReads, File.tableReads, vfsRead_congr h]
    simp only [segmentRead_congr h, ih]

/-- **Loop lemma**: a loop that ends with 0 has made every read of the table. -/
theorem elfLoadPhdrsReads_eq (h : elfLoadPhdrs V hdr (some d) i n file buf vm = some (0, vm')) :
    elfLoadPhdrsReads V hdr (some d) i n file buf vm = file.tableReads hdr i n buf := by
  induction n generalizing i file buf vm with
  | zero => rfl
  | succ n ih =>
    rw [elfLoadPhdrs] at h
    rw [elfLoadPhdrsReads, File.tableReads]
    have hread := vfsRead_read { file with offset := u32 (hdr.ePhoff + i * hdr.ePhentsize) }
      false elfPhdrSize
    rcases hcall : vfsRead { file with offset := u32 (hdr.ePhoff + i * hdr.ePhentsize) } false
      elfPhdrSize with ⟨r, bytes, file₁⟩
    simp only [hcall] at h hread ⊢
    by_cases hload : (ElfPhdr.ofBytes (overlay buf bytes)).pType = elfPtLoad
    · simp only [hload, if_true, Option.bind_eq_bind, Option.bind_eq_some_iff] at h ⊢
      obtain ⟨⟨result, file₂, vm₁⟩, hseg, h⟩ := h
      have hread₂ : file₂.read = file.read := (elfLoadSeg_read hseg).trans hread
      by_cases hfail : result = -1
      · simp [hfail] at h
      · simp only [hfail, if_false] at h
        simp only [hseg, hfail, if_false, ih h, tableReads_congr hread₂, segmentRead_congr hread]
        rfl
    · simp only [hload, if_false] at h ⊢
      rw [ih h, tableReads_congr hread]
      rfl

/-! ## Short files -/

/-- A call that returns 0 has read the ELF header, every program header and every
segment. -/
theorem elfLoadReads_eq {entry : Option Nat}
    (h : elfLoad V vm (some file) (some d) junk = some (0, entry, vm')) :
    elfLoadReads V vm (some file) (some d) junk =
      ⟨elfHeaderSize, (vfsRead file false elfHeaderSize).1⟩ ::
        file.tableReads (file.header junk) 0 (file.header junk).ePhnum junk.phdr := by
  obtain ⟨haccepted, hplaces⟩ := elfLoad_zero_iff.mp ⟨entry, vm', h⟩
  obtain ⟨vm₁, hloop⟩ := (elfLoadPhdrs_spec (vfsRead_read file false elfHeaderSize)).1 hplaces
  have hreads := elfLoadPhdrsReads_eq hloop
  rw [tableReads_congr (vfsRead_read file false elfHeaderSize)] at hreads
  rw [← hreads]
  simp only [File.Refused, not_or, not_not] at haccepted
  obtain ⟨hread, hcheck⟩ := haccepted
  have hcheck' : ¬elfCheckHdr (.ofBytes (overlay junk.eHdr
      (vfsRead file false elfHeaderSize).2.1)) = false := by simpa [File.header] using hcheck
  simp only [elfLoadReads, hread, ne_eq, not_true_eq_false, hcheck']
  rfl

/-- **Short files.** For every file that leaves the kernel alone, and every memory: whenever
`elf_load` returns 0, each of its reads has returned as many bytes as were asked for, exactly
when the file serves all of them, or there is no directory, or the ELF header is refused, or
the segments cannot be placed. -/
theorem elfLoad_readsFull_iff {V : Vmm} {kernel : Frame → Bool} {vm : Vm} {file : File}
    {dir : Option Ptr} {junk : StackJunk} (hkeeps : file.KeepsOff V kernel vm dir junk)
    (wild : Option (Int × Option Nat × Vm) × List FileRead) :
    (∀ entry vm', (elfLoadRun V kernel wild vm file dir junk).1 = some (0, entry, vm') →
        ∀ r ∈ (elfLoadRun V kernel wild vm file dir junk).2, r.Full) ↔
      dir = none ∨ file.Refused junk ∨ (∃ d ∈ dir, ¬V.Places d file vm (file.loads junk)) ∨
        file.ServesAll junk := by
  rw [elfLoadRun, unlessOverwritten_of hkeeps]
  cases dir with
  | none => simp [elfLoad]
  | some d =>
    have hzero := @elfLoad_zero_iff V vm file d junk
    simp only [reduceCtorEq, false_or, Option.mem_def, Option.some.injEq, exists_eq_left']
    constructor
    · intro hfull
      by_cases hsucceeds : ¬file.Refused junk ∧ V.Places d file vm (file.loads junk)
      · obtain ⟨entry, vm', hload⟩ := hzero.mpr hsucceeds
        have hreads := hfull entry vm' hload
        rw [elfLoadReads_eq hload, List.forall_mem_cons] at hreads
        exact .inr (.inr ⟨not_not.mp fun hread => hsucceeds.1 (.inl hread), hreads.2⟩)
      · tauto
    · intro hcases entry vm' hload
      obtain ⟨haccepted, hplaces⟩ := hzero.mp ⟨entry, vm', hload⟩
      obtain ⟨hheader, htable⟩ : file.ServesAll junk := by tauto
      rw [elfLoadReads_eq hload, List.forall_mem_cons]
      exact ⟨.inr hheader, htable⟩

/-- The sample file, with all that is read of it. -/
theorem elfLoad_readsFull_sample :
    (∀ entry vm', (elfLoadRun (.reference 256) lowFrames (none, []) .booted
        (.ofContent (sampleElf 0x40)) (some 256) ⟨[], []⟩).1 = some (0, entry, vm') →
      ∀ r ∈ (elfLoadRun (.reference 256) lowFrames (none, []) .booted
        (.ofContent (sampleElf 0x40)) (some 256) ⟨[], []⟩).2, r.Full) ↔
    some 256 = none ∨ (File.ofContent (sampleElf 0x40)).Refused ⟨[], []⟩ ∨
      (∃ d ∈ some 256, ¬(Vmm.reference 256).Places d (.ofContent (sampleElf 0x40)) .booted
        ((File.ofContent (sampleElf 0x40)).loads ⟨[], []⟩)) ∨
      (File.ofContent (sampleElf 0x40)).ServesAll ⟨[], []⟩ :=
  elfLoad_readsFull_iff (by decide) (none, [])

/-- A file that ends behind the ELF header, which promises one program header. -/
def truncatedElf : File := .ofContent ((sampleElf 0x40).take 48)

/-- Its program header is not read, and it is loaded. -/
theorem truncatedElf_loads : truncatedElf.KeepsOff (.reference 256) lowFrames .booted (some 256)
      ⟨[], []⟩ ∧
    elfLoadRun (.reference 256) lowFrames (none, []) .booted truncatedElf (some 256) ⟨[], []⟩ =
      (some (0, some 0x400000, .booted), [⟨48, 48⟩, ⟨32, 0⟩]) ∧
    ¬∀ entry vm', (elfLoadRun (.reference 256) lowFrames (none, []) .booted truncatedElf (some 256)
        ⟨[], []⟩).1 = some (0, entry, vm') →
      ∀ r ∈ (elfLoadRun (.reference 256) lowFrames (none, []) .booted truncatedElf (some 256)
        ⟨[], []⟩).2, r.Full := by
  have hkeeps : truncatedElf.KeepsOff (.reference 256) lowFrames .booted (some 256) ⟨[], []⟩ := by
    decide
  have hload : elfLoadRun (.reference 256) lowFrames (none, []) .booted truncatedElf (some 256)
      ⟨[], []⟩ = (some (0, some 0x400000, .booted), [⟨48, 48⟩, ⟨32, 0⟩]) :=
    (unlessOverwritten_of hkeeps _ _).trans rfl
  refine ⟨hkeeps, hload, fun hfull => ?_⟩
  rw [hload] at hfull
  exact absurd (hfull _ _ rfl ⟨32, 0⟩ (by simp)) (by decide)

end Leenix
