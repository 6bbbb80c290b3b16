import Leenix.Mm.Vmm

/-!
# The ELF loader (proc/elf.c)

A file is known to the loader through `vfs_read` only, and `vfs_read` reaches
the file system through one operation of the file's vnode. That operation is
the parameter `read` of a `File`: for an offset and a size, the value it returns
and the bytes it stores from the start of the buffer.

The header structures are decoded from the bytes of the local variables that
`vfs_read` fills, so a short read leaves what was there before.
-/

namespace Leenix

/-- A `file_t`. `read` is `vnode_ptr->ops->read`, absent when the vnode pointer
is null. -/
structure File where
  read : Option (Nat → Nat → Int × List Byte)
  offset : Nat

/-- An open file with the given content, at offset 0: a read returns the bytes
that are there, as many as fit. -/
def File.ofContent (content : List Byte) : File where
  read := some fun offset size =>
    let bytes := (content.drop offset).take size
    (bytes.length, bytes)
  offset := 0

/-- `vfs_read` (vfs.c:171–190): the result, the bytes stored from the start of
the buffer, and the file with its offset advanced. -/
def vfsRead (file : File) (bufIsNull : Bool) (size : Nat) : Int × List Byte × File :=
  match file.read with
  | none => (-1, [], file)
  | some read =>
    if bufIsNull ∨ size = 0 then (-1, [], file)
    else
      let (bytesRead, bytes) := read file.offset size
      (bytesRead, bytes,
        if 0 < bytesRead then { file with offset := u32 (file.offset + bytesRead.toNat) }
        else file)

/-- The fields of `elf_header_t` (elf.h:82–94) that the loader reads. -/
structure ElfHeader where
  eIdent : List Byte
  eType : Nat
  eEntry : Nat
  ePhoff : Nat
  ePhentsize : Nat
  ePhnum : Nat
deriving DecidableEq, Repr

/-- `sizeof (elf_header_t)`, with the two bytes of padding at its end. -/
def elfHeaderSize : Nat := 48

def ElfHeader.ofBytes (b : List Byte) : ElfHeader where
  eIdent := b.take 16
  eType := le16 b 16
  eEntry := le32 b 24
  ePhoff := le32 b 28
  ePhentsize := le16 b 42
  ePhnum := le16 b 44

/-- The fields of `elf_phdr_t` (elf.h:96–105) that the loader reads. -/
structure ElfPhdr where
  pType : Nat
  pOffset : Nat
  pVaddr : Nat
  pFilesz : Nat
  pMemsz : Nat
deriving DecidableEq, Repr

/-- `sizeof (elf_phdr_t)`. -/
def elfPhdrSize : Nat := 32

def ElfPhdr.ofBytes (b : List Byte) : ElfPhdr where
  pType := le32 b 0
  pOffset := le32 b 4
  pVaddr := le32 b 8
  pFilesz := le32 b 16
  pMemsz := le32 b 20

/-- `ELF_PT_LOAD`. -/
def elfPtLoad : Nat := 1

/-- `elf_check_hdr` (elf.c:5–17). -/
def elfCheckHdr (hdr : ElfHeader) : Bool :=
  if hdr.eIdent.getD 0 0 ≠ 0x7F ∨ hdr.eIdent.getD 1 0 ≠ 0x45 ∨
      hdr.eIdent.getD 2 0 ≠ 0x4C ∨ hdr.eIdent.getD 3 0 ≠ 0x46 then
    false
  else if hdr.eType ≠ 2 then
    false
  else if hdr.eIdent.getD 4 0 ≠ 1 then
    false
  else if hdr.eIdent.getD 5 0 ≠ 1 then
    false
  else
    true

/-- `PAGE_ALIGN_UP` (utils.h:181), which rounds down. -/
def pageAlignUp (addr : Nat) : Nat := addr - addr % pageSize

/-- `PAGE_ALIGN_DWN` (utils.h:184), which rounds up, in 32 bits. -/
def pageAlignDwn (addr : Nat) : Nat := pageAlignUp (u32 (addr + 0xFFF))

/-- `PDE_USER | PDE_PRESENT | PDE_WRITABLE`. -/
def segFlags : Nat := 7

/-- What the stack holds where `elf_load` puts its two header variables. -/
structure StackJunk where
  eHdr : List Byte
  phdr : List Byte

/-- The ELF header that `elf_load` reads from the file. -/
def File.header (file : File) (junk : StackJunk) : ElfHeader :=
  .ofBytes (overlay junk.eHdr (vfsRead file false elfHeaderSize).2.1)

variable (V : Vmm)

/-- `elf_load_seg` (elf.c:18–36). The region is allocated in `dir`; the file's
bytes and the zero fill are ordinary stores. -/
def elfLoadSeg (vm : Vm) (file : File) (dir : Option Ptr) (phdr : ElfPhdr) :
    Option (Int × File × Vm) :=
  match dir with
  | none => some (-1, file, vm)
  | some d =>
    let startAddr := pageAlignUp phdr.pVaddr
    let endAddr := pageAlignDwn (u32 (phdr.pVaddr + phdr.pMemsz))
    let size := u32 (endAddr + (2 ^ 32 - startAddr))
    match V.allocRegion vm d startAddr size segFlags with
    | (false, vm) => some (-1, file, vm)
    | (true, vm) => do
      -- the result of the read is dropped, and what it did not store stays
      let (_, bytes, file) :=
        vfsRead { file with offset := phdr.pOffset } (phdr.pVaddr = 0) phdr.pFilesz
      let vm ← vm.storeBytes phdr.pVaddr bytes
      if phdr.pFilesz < phdr.pMemsz then
        let vm ← vm.storeBytes (u32 (phdr.pVaddr + phdr.pFilesz))
          (List.replicate (phdr.pMemsz - phdr.pFilesz) 0)
        return (0, file, vm)
      else
        return (0, file, vm)

/-- The loop of `elf_load` over the program headers (elf.c:52–67), from header
`i` on, `n` of them left; `buf` holds the bytes of its variable `phdr`. -/
def elfLoadPhdrs (hdr : ElfHeader) (dir : Option Ptr) :
    Nat → Nat → File → List Byte → Vm → Option (Int × Vm)
  | _, 0, _, _, vm => some (0, vm)
  | i, n + 1, file, buf, vm =>
    let offsetStart := u32 (hdr.ePhoff + i * hdr.ePhentsize)
    let (_, bytes, file) := vfsRead { file with offset := offsetStart } false elfPhdrSize
    -- `phdr` keeps what a short read leaves of the header before
    let buf := overlay buf bytes
    let phdr := ElfPhdr.ofBytes buf
    if phdr.pType = elfPtLoad then do
      let (result, file, vm) ← elfLoadSeg V vm file dir phdr
      if result = -1 then
        return (-1, vm)
      else
        elfLoadPhdrs hdr dir (i + 1) n file buf vm
    else
      elfLoadPhdrs hdr dir (i + 1) n file buf vm

/-- `elf_load` (elf.c:37–71) on the file that `vfs_open` returned: the result,
the entry point it stored, and the address spaces after. -/
def elfLoad (vm : Vm) (thisfile : Option File) (dir : Option Ptr) (junk : StackJunk) :
    Option (Int × Option Nat × Vm) :=
  match dir, thisfile with
  | none, _ => some (-1, none, vm)
  | some _, none => some (-1, none, vm)
  | some d, some file =>
    let (n, bytes, file) := vfsRead file false elfHeaderSize
    if n ≠ (elfHeaderSize : Int) then some (-1, none, vm)
    else
      let hdr := ElfHeader.ofBytes (overlay junk.eHdr bytes)
      if elfCheckHdr hdr = false then some (-1, none, vm)
      else do
        let (result, vm) ← elfLoadPhdrs V hdr (some d) 0 hdr.ePhnum file junk.phdr vm
        if result = -1 then
          return (-1, none, vm)
        else
          return (0, some hdr.eEntry, vm)

/-- The paths of `elf_load`: refused before the first program header, or the
result of the loop, with the entry point of the header if that succeeded. -/
theorem elfLoad_cases {V : Vmm} {vm vm' : Vm} {thisfile : Option File} {dir : Option Ptr}
    {junk : StackJunk} {result : Int} {entry : Option Nat}
    (h : elfLoad V vm thisfile dir junk = some (result, entry, vm')) :
    result = -1 ∧ entry = none ∧ vm' = vm ∨
    ∃ d file r, dir = some d ∧ thisfile = some file ∧
      (vfsRead file false elfHeaderSize).1 = (elfHeaderSize : Int) ∧
      elfCheckHdr (file.header junk) = true ∧
      elfLoadPhdrs V (file.header junk) (some d) 0 (file.header junk).ePhnum
        (vfsRead file false elfHeaderSize).2.2 junk.phdr vm = some (r, vm') ∧
      (r = -1 ∧ result = -1 ∧ entry = none ∨
        r ≠ -1 ∧ result = 0 ∧ entry = some (file.header junk).eEntry) := by
  unfold elfLoad at h
  split at h
  case h_1 =>
    simp only [Option.some.injEq, Prod.mk.injEq] at h
    exact .inl ⟨h.1.symm, h.2.1.symm, h.2.2.symm⟩
  case h_2 =>
    simp only [Option.some.injEq, Prod.mk.injEq] at h
    exact .inl ⟨h.1.symm, h.2.1.symm, h.2.2.symm⟩
  case h_3 d file =>
    simp only at h
    split at h
    case isTrue =>
      simp only [Option.some.injEq, Prod.mk.injEq] at h
      exact .inl ⟨h.1.symm, h.2.1.symm, h.2.2.symm⟩
    case isFalse hread =>
      split at h
      case isTrue =>
        simp only [Option.some.injEq, Prod.mk.injEq] at h
        exact .inl ⟨h.1.symm, h.2.1.symm, h.2.2.symm⟩
      case isFalse hcheck =>
        simp only [Option.bind_eq_bind, Option.bind_eq_some_iff] at h
        obtain ⟨⟨r, vm₁⟩, hloop, h⟩ := h
        by_cases hr : r = -1
        · simp only [hr, if_true, Option.pure_def, Option.some.injEq, Prod.mk.injEq] at h
          obtain ⟨rfl, rfl, rfl⟩ := h
          exact .inr ⟨d, file, r, rfl, rfl, not_not.mp hread, by simpa [File.header] using hcheck,
            hloop, .inl ⟨hr, rfl, rfl⟩⟩
        · simp only [hr, if_false, Option.pure_def, Option.some.injEq, Prod.mk.injEq] at h
          obtain ⟨rfl, rfl, rfl⟩ := h
          exact .inr ⟨d, file, r, rfl, rfl, not_not.mp hread, by simpa [File.header] using hcheck,
            hloop, .inr ⟨hr, rfl, rfl⟩⟩

end Leenix
