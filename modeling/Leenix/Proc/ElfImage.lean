import Leenix.Mm.Memory
import Leenix.Proc.ElfStores

/-!
# The image in memory

What `elf_load` makes of a whole file, in the directory that is active: an
induction over the program headers, with the loader's reads, stores and requests
for each segment.

- `elfLoadLog_eq`: the loop over the header table loads the `PT_LOAD` segments in
  their order, whatever lies between them.
- `elfLoadSegLog_spec`, `elfLoadSegsLog_spec`: the requests and the bytes of one
  segment, and of a list of segments.
- `elfLoad_image_iff`: the image is the one that the file describes, in every
  memory, exactly when no segment with bytes in the file starts at address 0, which
  `vfs_read` takes for a null pointer, and no empty segment lies in a page of its
  own, which is requested all the same.
-/

namespace Leenix

/-! ## The file -/

/-- The ELF header of a file. -/
def elfHeaderOf (content : List Byte) : ElfHeader := .ofBytes content

/-- Program header `i` of a file. -/
def elfPhdrAt (content : List Byte) (i : Nat) : ElfPhdr :=
  .ofBytes (content.drop ((elfHeaderOf content).ePhoff + i * (elfHeaderOf content).ePhentsize))

/-- The `PT_LOAD` headers of a file, from header `i` on, `n` headers. -/
def elfLoadsFrom (content : List Byte) (i n : Nat) : List ElfPhdr :=
  ((List.range' i n).map (elfPhdrAt content)).filter fun phdr => phdr.pType = elfPtLoad

/-- The `PT_LOAD` headers of a file. -/
def elfLoads (content : List Byte) : List ElfPhdr :=
  elfLoadsFrom content 0 (elfHeaderOf content).ePhnum

/-- The page holds a byte of the segment. -/
def ElfPhdr.Touches (phdr : ElfPhdr) (page : Nat) : Prop :=
  ∃ a, phdr.pVaddr ≤ a ∧ a < phdr.pVaddr + phdr.pMemsz ∧ a / pageSize = page

/-- The segments lie on different pages. -/
def ElfPhdr.Apart (phdr phdr' : ElfPhdr) : Prop :=
  ∀ page, ¬(phdr.Touches page ∧ phdr'.Touches page)

instance : Std.Symm ElfPhdr.Apart := ⟨fun _ _ h page hpage => h page hpage.symm⟩

/-- A segment whose bytes are in the file and which lies in the user's memory. -/
structure ElfPhdr.Valid (content : List Byte) (phdr : ElfPhdr) : Prop where
  filesz_le : phdr.pFilesz ≤ phdr.pMemsz
  inFile : phdr.pOffset + phdr.pFilesz ≤ content.length
  user : phdr.pVaddr + phdr.pMemsz ≤ kernelBase

/-- A file that `elf_load` should load. -/
structure ElfValid (content : List Byte) : Prop where
  size : content.length < 2 ^ 32
  header : elfHeaderSize ≤ content.length
  check : elfCheckHdr (elfHeaderOf content) = true
  phentsize : elfPhdrSize ≤ (elfHeaderOf content).ePhentsize
  table : ∀ i, i < (elfHeaderOf content).ePhnum →
    (elfHeaderOf content).ePhoff + i * (elfHeaderOf content).ePhentsize + elfPhdrSize ≤
      content.length
  segments : ∀ phdr ∈ elfLoads content, phdr.Valid content
  apart : (elfLoads content).Pairwise ElfPhdr.Apart

/-! ## The loader, with a record -/

section Log

variable (V : Vmm)

/-- `elfLoad` with a record of its requests and stores. -/
def elfLoadLog (vm : Vm) (thisfile : Option File) (dir : Option Ptr) (junk : StackJunk) :
    List LoadEvent × Option (Int × Option Nat × Vm) :=
  match dir, thisfile with
  | none, _ => ([], some (-1, none, vm))
  | some _, none => ([], some (-1, none, vm))
  | some d, some file =>
    let (n, bytes, file) := vfsRead file false elfHeaderSize
    if n ≠ (elfHeaderSize : Int) then ([], some (-1, none, vm))
    else
      let hdr := ElfHeader.ofBytes (overlay junk.eHdr bytes)
      if elfCheckHdr hdr = false then ([], some (-1, none, vm))
      else
        let (events, result) := elfLoadPhdrsLog V hdr (some d) 0 hdr.ePhnum file junk.phdr vm
        (events, do
          let (result, vm) ← result
          if result = -1 then
            return (-1, none, vm)
          else
            return (0, some hdr.eEntry, vm))

/-- The segments of a list, one after the other, with a record. -/
def elfLoadSegsLog (content : List Byte) (dir : Option Ptr) :
    List ElfPhdr → Vm → List LoadEvent × Option (Int × Vm)
  | [], vm => ([], some (0, vm))
  | phdr :: phdrs, vm =>
    match elfLoadSegLog V vm (File.ofContent content) dir phdr with
    | (events, none) => (events, none)
    | (events, some (result, _, vm)) =>
      if result = -1 then (events, some (-1, vm))
      else
        let (rest, result) := elfLoadSegsLog content dir phdrs vm
        (events ++ rest, result)

variable {V}

/-- Recording leaves `elf_load` as it is. -/
theorem elfLoadLog_result (vm : Vm) (thisfile : Option File) (dir : Option Ptr) (junk : StackJunk) :
    (elfLoadLog V vm thisfile dir junk).2 = elfLoad V vm thisfile dir junk := by
  unfold elfLoadLog elfLoad
  split
  · rfl
  · rfl
  · simp only
    split
    · rfl
    · split
      · rfl
      · rw [← elfLoadPhdrsLog_result]

end Log

/-! ## Reading the headers -/

theorem byte_succ_ne (c : Byte) : c + 1 ≠ c := by
  intro h
  have hnat := congrArg UInt8.toNat h
  have hlt := c.toNat_lt
  rw [UInt8.toNat_add] at hnat
  simp only [UInt8.reduceToNat] at hnat
  omega

theorem byteOf_take {b : List Byte} {n i : Nat} (hi : i < n) : byteOf (b.take n) i = byteOf b i := by
  simp [byteOf, List.getD_eq_getElem?_getD, List.getElem?_take_of_lt hi]

/-- A program header is read from its 32 bytes. -/
theorem ElfPhdr.ofBytes_take (b : List Byte) :
    ElfPhdr.ofBytes (b.take elfPhdrSize) = ElfPhdr.ofBytes b := by
  simp only [ElfPhdr.ofBytes, le32, le16, elfPhdrSize]
  simp (disch := decide) only [byteOf_take]

/-- The ELF header is read from its 48 bytes. -/
theorem ElfHeader.ofBytes_take (b : List Byte) :
    ElfHeader.ofBytes (b.take elfHeaderSize) = ElfHeader.ofBytes b := by
  simp only [ElfHeader.ofBytes, le32, le16, elfHeaderSize, List.take_take]
  simp (disch := decide) only [byteOf_take]
  rfl

theorem take_overlay {old new : List Byte} {n : Nat} (h : n ≤ new.length) :
    (overlay old new).take n = new.take n := by
  rw [overlay, List.take_append_of_le_length h]

variable {V : Vmm} {content : List Byte} {vm : Vm} {d : Ptr} {phdr : ElfPhdr}

/-- An open file with the given content, at an offset. -/
def File.contentAt (content : List Byte) (offset : Nat) : File :=
  { File.ofContent content with offset := offset }

/-- The bytes that `vfs_read` stores at address `va`. -/
def readBytes (content : List Byte) (offset va size : Nat) : List Byte :=
  if va = 0 then [] else (content.drop offset).take size

/-- A read of a file stores the bytes at the offset and moves it, or is refused. -/
theorem vfsRead_contentAt (content : List Byte) (offset va size : Nat) :
    ∃ n offset', vfsRead (File.contentAt content offset) (va = 0) size =
        (n, readBytes content offset va size, File.contentAt content offset') ∧
      (va ≠ 0 → size ≠ 0 → n = ((content.drop offset).take size).length) := by
  by_cases hva : va = 0
  · exact ⟨-1, offset, by simp [vfsRead, File.contentAt, File.ofContent, readBytes, hva],
      fun h => absurd hva h⟩
  by_cases hsize : size = 0
  · exact ⟨-1, offset, by simp [vfsRead, File.contentAt, File.ofContent, readBytes, hsize],
      fun _ h => absurd hsize h⟩
  by_cases hpos : 0 < ((content.drop offset).take size).length
  · refine ⟨_, u32 (offset + ((content.drop offset).take size).length), ?_, fun _ _ => rfl⟩
    simp only [vfsRead, File.contentAt, File.ofContent, readBytes, hva, hsize, decide_false,
      Bool.false_eq_true, or_self, if_false, Int.natCast_pos, hpos, if_true, Int.toNat_natCast]
  · refine ⟨_, offset, ?_, fun _ _ => rfl⟩
    simp only [vfsRead, File.contentAt, File.ofContent, readBytes, hva, hsize, decide_false,
      Bool.false_eq_true, or_self, if_false, Int.natCast_pos, hpos]

/-- The record of a segment and its result do not depend on the file offset before. -/
theorem elfLoadSegLog_offset (V : Vmm) (vm : Vm) (content : List Byte) (offset : Nat)
    (dir : Option Ptr) (phdr : ElfPhdr) :
    ∃ offset', elfLoadSegLog V vm (File.contentAt content offset) dir phdr =
      ((elfLoadSegLog V vm (File.ofContent content) dir phdr).1,
        (elfLoadSegLog V vm (File.ofContent content) dir phdr).2.map fun (result, _, vm) =>
          (result, File.contentAt content offset', vm)) := by
  cases dir with
  | none => exact ⟨offset, rfl⟩
  | some d =>
    obtain ⟨n, offset', hread, -⟩ :=
      vfsRead_contentAt content phdr.pOffset phdr.pVaddr phdr.pFilesz
    have hread₀ : ∀ file : File, file.read = (File.ofContent content).read →
        vfsRead { file with offset := phdr.pOffset } (phdr.pVaddr = 0) phdr.pFilesz =
          (n, readBytes content phdr.pOffset phdr.pVaddr phdr.pFilesz,
            File.contentAt content offset') := by
      intro file hfile
      rw [← hread]
      simp only [File.contentAt, hfile]
    unfold elfLoadSegLog
    simp only [hread₀ (File.contentAt content offset) rfl, hread₀ (File.ofContent content) rfl]
    rcases V.allocRegion vm d phdr.regionStart phdr.regionSize segFlags with ⟨_ | _, vm'⟩
    · exact ⟨offset, rfl⟩
    · refine ⟨offset', ?_⟩
      by_cases hzero : phdr.pFilesz < phdr.pMemsz
      · simp only [hzero, if_true]
        cases vm'.storeBytes phdr.pVaddr _ with
        | none => rfl
        | some vm₁ =>
          simp only [Option.bind_eq_bind, Option.bind_some]
          cases vm₁.storeBytes _ _ <;> rfl
      · simp only [hzero, if_false]
        cases vm'.storeBytes phdr.pVaddr _ <;> rfl

/-- The bytes of program header `i`. -/
theorem readBytes_phdr (hvalid : ElfValid content) {i : Nat}
    (hi : i < (elfHeaderOf content).ePhnum) (buf : List Byte) :
    ElfPhdr.ofBytes (overlay buf (readBytes content
        (u32 ((elfHeaderOf content).ePhoff + i * (elfHeaderOf content).ePhentsize)) 1
        elfPhdrSize)) = elfPhdrAt content i := by
  have hinside := hvalid.table i hi
  have hsize := hvalid.size
  have hoffset : u32 ((elfHeaderOf content).ePhoff + i * (elfHeaderOf content).ePhentsize) =
      (elfHeaderOf content).ePhoff + i * (elfHeaderOf content).ePhentsize :=
    Nat.mod_eq_of_lt (by simp only [elfPhdrSize] at hinside; omega)
  rw [hoffset, ← ElfPhdr.ofBytes_take, readBytes, if_neg (by decide), take_overlay,
    List.take_take, Nat.min_self, ElfPhdr.ofBytes_take, elfPhdrAt]
  rw [List.length_take, List.length_drop]
  omega

/-- **Header table.** The loop of `elf_load` loads the `PT_LOAD` segments in their
order. -/
theorem elfLoadPhdrsLog_eq (hvalid : ElfValid content) (dir : Option Ptr) (i n offset : Nat)
    (hn : i + n ≤ (elfHeaderOf content).ePhnum) (buf : List Byte) (vm : Vm) :
    elfLoadPhdrsLog V (elfHeaderOf content) dir i n (File.contentAt content offset) buf vm =
      elfLoadSegsLog V content dir (elfLoadsFrom content i n) vm := by
  induction n generalizing i offset buf vm with
  | zero => rfl
  | succ n ih =>
    obtain ⟨m, offset', hread, -⟩ := vfsRead_contentAt content
      (u32 ((elfHeaderOf content).ePhoff + i * (elfHeaderOf content).ePhentsize)) 1 elfPhdrSize
    have hread : vfsRead { File.contentAt content offset with
        offset := u32 ((elfHeaderOf content).ePhoff + i * (elfHeaderOf content).ePhentsize) }
        false elfPhdrSize = _ := hread
    have hphdr := readBytes_phdr hvalid (show i < _ by omega) buf
    have hloads : elfLoadsFrom content i (n + 1) =
        if (elfPhdrAt content i).pType = elfPtLoad then
          elfPhdrAt content i :: elfLoadsFrom content (i + 1) n
        else elfLoadsFrom content (i + 1) n := by
      simp only [elfLoadsFrom, List.range'_succ, List.map_cons, List.filter_cons, decide_eq_true_eq]
    rw [elfLoadPhdrsLog, hloads]
    simp only [hread, hphdr]
    by_cases hload : (elfPhdrAt content i).pType = elfPtLoad
    · rw [if_pos hload, if_pos hload, elfLoadSegsLog]
      obtain ⟨offset₁, hseg⟩ :=
        elfLoadSegLog_offset V vm content offset' dir (elfPhdrAt content i)
      rw [hseg]
      rcases elfLoadSegLog V vm (File.ofContent content) dir (elfPhdrAt content i) with
        ⟨events, _ | ⟨result, file, vm₁⟩⟩
      · rfl
      · simp only [Option.map_some]
        by_cases hfail : result = -1
        · simp only [hfail, if_true]
        · simp only [hfail, if_false, ih (i + 1) offset₁ (by omega)]
    · rw [if_neg hload, if_neg hload]
      exact ih (i + 1) offset' (by omega) _ vm

/-- **Whole file.** `elf_load` on a valid file loads its segments and stores the
entry point. -/
theorem elfLoadLog_eq (hvalid : ElfValid content) (vm : Vm) (d : Ptr) (junk : StackJunk) :
    elfLoadLog V vm (some (File.ofContent content)) (some d) junk =
      ((elfLoadSegsLog V content (some d) (elfLoads content) vm).1,
        (elfLoadSegsLog V content (some d) (elfLoads content) vm).2.map fun (result, vm) =>
          if result = -1 then (-1, none, vm)
          else (0, some (elfHeaderOf content).eEntry, vm)) := by
  obtain ⟨n, offset, hread, hn⟩ := vfsRead_contentAt content 0 1 elfHeaderSize
  have hread : vfsRead (File.ofContent content) false elfHeaderSize = _ := hread
  have hlen : ((content.drop 0).take elfHeaderSize).length = elfHeaderSize := by
    have := hvalid.header
    rw [List.length_take, List.length_drop]
    omega
  have hn : n = (elfHeaderSize : Int) := by rw [hn (by decide) (by decide), hlen]
  have hhdr : ElfHeader.ofBytes (overlay junk.eHdr (readBytes content 0 1 elfHeaderSize)) =
      elfHeaderOf content := by
    rw [← ElfHeader.ofBytes_take, readBytes, if_neg (by decide), take_overlay hlen.ge,
      List.take_take, Nat.min_self, ElfHeader.ofBytes_take]
    rfl
  unfold elfLoadLog
  simp only [hread, hn, hhdr, hvalid.check, ne_eq, not_true_eq_false, if_false, Bool.true_eq_false]
  rw [elfLoadPhdrsLog_eq hvalid (some d) 0 _ offset (by omega)]
  refine Prod.ext rfl ?_
  show Option.bind _ _ = _
  rw [elfLoads]
  rcases (elfLoadSegsLog V content (some d) (elfLoadsFrom content 0 (elfHeaderOf content).ePhnum)
    vm).2 with _ | ⟨result, vm₁⟩
  · rfl
  · by_cases hfail : result = -1
    · simp [hfail]
    · simp [hfail]

theorem elfLoad_eq (hvalid : ElfValid content) (junk : StackJunk) {events : List LoadEvent}
    {r : Int} {vm' : Vm}
    (hsegs : elfLoadSegsLog V content (some d) (elfLoads content) vm = (events, some (r, vm'))) :
    elfLoad V vm (some (File.ofContent content)) (some d) junk =
      some (if r = -1 then (-1, none, vm')
        else (0, some (elfHeaderOf content).eEntry, vm')) := by
  rw [← elfLoadLog_result, elfLoadLog_eq hvalid, hsegs]
  rfl

/-! ## One segment -/

/-- The page meets a region that the record requests. -/
def PageRequested (events : List LoadEvent) (page : Nat) : Prop :=
  ∃ d va size granted, .request d va size granted ∈ events ∧
    va < (page + 1) * pageSize ∧ page * pageSize < va + size

namespace ElfPhdr

/-- The page meets the region that is requested for the segment. -/
def RegionMeets (phdr : ElfPhdr) (page : Nat) : Prop :=
  phdr.regionStart < (page + 1) * pageSize ∧
    page * pageSize < phdr.regionStart + phdr.regionSize

/-- The loader stores the byte at the address: `vfs_read` does not store to a segment
at address 0. -/
def Stores (phdr : ElfPhdr) (a : Nat) : Prop :=
  phdr.pVaddr ≤ a ∧ a < phdr.pVaddr + phdr.pMemsz ∧ (phdr.pVaddr = 0 → phdr.pFilesz ≤ a)

/-- The byte that the file describes at the address: one of the file's, or zero. -/
def imageByte (content : List Byte) (phdr : ElfPhdr) (a : Nat) : Option Byte :=
  if a < phdr.pVaddr + phdr.pFilesz then content[phdr.pOffset + (a - phdr.pVaddr)]? else some 0

/-- The requested pages are those of the segment's bytes, and the page of an empty
segment that starts inside a page. -/
theorem regionMeets_iff (hvalid : phdr.Valid content) (page : Nat) :
    phdr.RegionMeets page ↔ phdr.Touches page ∨
      phdr.pMemsz = 0 ∧ phdr.pVaddr % pageSize ≠ 0 ∧ page = phdr.pVaddr / pageSize := by
  have huser := hvalid.user
  have htouch : phdr.Touches page ↔ phdr.pVaddr < (page + 1) * pageSize ∧
      page * pageSize < phdr.pVaddr + phdr.pMemsz ∧ 0 < phdr.pMemsz := by
    constructor
    · rintro ⟨a, hlo, hhi, rfl⟩
      simp only [pageSize]
      omega
    · rintro ⟨hlo, hhi, hpos⟩
      refine ⟨max phdr.pVaddr (page * pageSize), Nat.le_max_left _ _, ?_, ?_⟩
      · omega
      · simp only [pageSize] at *
        omega
  obtain ⟨hend, -, -⟩ := region_eq huser
  rw [htouch]
  unfold RegionMeets
  rw [hend]
  simp only [regionStart, pageAlignDwn, pageAlignUp, u32, pageSize, kernelBase] at *
  omega

/-- The file holds the bytes that it describes. -/
theorem Valid.imageByte_eq_some (h : phdr.Valid content) {a : Nat} (ha : phdr.pVaddr ≤ a) :
    ∃ b, phdr.imageByte content a = some b := by
  have hfile := h.inFile
  unfold imageByte
  split
  · exact ⟨_, List.getElem?_eq_getElem (by omega)⟩
  · exact ⟨0, rfl⟩

theorem Stores.touches {a : Nat} (h : phdr.Stores a) : phdr.Touches (a / pageSize) :=
  ⟨a, h.1, h.2.1, rfl⟩

end ElfPhdr

/-- The directory is active, live, and aliases no user pages. -/
structure Vm.Loadable (m : Vm) (d : Ptr) : Prop where
  live : m.dirs.lookup d ≠ none
  active : m.active = d
  unaliased : m.Unaliased d

theorem Vm.SameMaps.loadable {m m' : Vm} (h : m.SameMaps m') (hm : m.Loadable d) :
    m'.Loadable d :=
  ⟨by rw [h.dirs]; exact hm.live, h.active.trans hm.active, h.unaliased hm.unaliased⟩

/-- What the stores of a segment do to the bytes of the user's memory. -/
def Imaged (content : List Byte) (phdrs : List ElfPhdr) (d : Ptr) (vm vm' : Vm) : Prop :=
  (∀ phdr ∈ phdrs, ∀ a, phdr.Stores a → vm'.byteAt d a = phdr.imageByte content a) ∧
    ∀ a b, a < kernelBase → vm.byteAt d a = some b → (∀ phdr ∈ phdrs, ¬phdr.Stores a) →
      vm'.byteAt d a = some b

/-- The two stores of a segment, through the active directory `d`, into pages that are
mapped there. -/
theorem storeSegment_spec {vm : Vm} (hvalid : phdr.Valid content) (hvm : vm.Loadable d)
    (hmapped : ∀ a, phdr.pVaddr ≤ a → a < phdr.pVaddr + phdr.pMemsz → vm.frameOf d a ≠ none) :
    ∃ vm₁ vm₂, vm.storeBytes phdr.pVaddr (readBytes content phdr.pOffset phdr.pVaddr phdr.pFilesz) =
        some vm₁ ∧
      (phdr.pFilesz < phdr.pMemsz → vm₁.storeBytes (u32 (phdr.pVaddr + phdr.pFilesz))
        (List.replicate (phdr.pMemsz - phdr.pFilesz) 0) = some vm₂) ∧
      (¬phdr.pFilesz < phdr.pMemsz → vm₂ = vm₁) ∧ vm.SameMaps vm₂ ∧
      (∀ f, (∀ a, a < kernelBase → vm.frameOf d a ≠ some f) → vm₂.phys f = vm.phys f) ∧
      Imaged content [phdr] d vm vm₂ := by
  obtain ⟨hfit, hfile, huser⟩ := hvalid
  have hlen : (readBytes content phdr.pOffset phdr.pVaddr phdr.pFilesz).length =
      if phdr.pVaddr = 0 then 0 else phdr.pFilesz := by
    unfold readBytes
    split
    · rfl
    · rw [List.length_take, List.length_drop]
      omega
  have hshort : (readBytes content phdr.pOffset phdr.pVaddr phdr.pFilesz).length ≤
      phdr.pFilesz := by
    rw [hlen]
    split <;> omega
  obtain ⟨vm₁, hstore₁, hmaps₁, hother₁, hbyte₁⟩ := Vm.storeBytes_spec phdr.pVaddr
    (readBytes content phdr.pOffset phdr.pVaddr phdr.pFilesz) hvm.active hvm.unaliased
    (by omega) fun a hlo hhi => hmapped a hlo (by omega)
  have hvm₁ := hmaps₁.loadable hvm
  have hkeptFrame : ∀ f, (∀ a, a < kernelBase → vm.frameOf d a ≠ some f) →
      vm₁.phys f = vm.phys f :=
    fun f hf => hother₁ f fun a _ hhi => hf a (by omega)
  -- the file's bytes
  have hfiled : ∀ a, phdr.pVaddr ≤ a → a < phdr.pVaddr + phdr.pFilesz → phdr.pVaddr ≠ 0 →
      vm₁.byteAt d a = phdr.imageByte content a := by
    intro a hlo hhi hv
    rw [if_neg hv] at hlen
    rw [hbyte₁ a (by omega), if_pos ⟨hlo, by omega⟩, ElfPhdr.imageByte, if_pos hhi, readBytes,
      if_neg hv, List.getElem?_take_of_lt (by omega), List.getElem?_drop]
  have hkept : ∀ a, a < kernelBase → ¬(phdr.pVaddr ≤ a ∧ a < phdr.pVaddr + phdr.pFilesz ∧
      phdr.pVaddr ≠ 0) → vm₁.byteAt d a = vm.byteAt d a := by
    intro a ha hout
    rw [hbyte₁ a ha, if_neg]
    rw [hlen]
    split
    · omega
    · omega
  by_cases hzero : phdr.pFilesz < phdr.pMemsz
  · have hfill : u32 (phdr.pVaddr + phdr.pFilesz) = phdr.pVaddr + phdr.pFilesz := by
      simp only [u32, kernelBase] at huser ⊢
      omega
    obtain ⟨vm₂, hstore₂, hmaps₂, hother₂, hbyte₂⟩ := Vm.storeBytes_spec (phdr.pVaddr + phdr.pFilesz)
      (List.replicate (phdr.pMemsz - phdr.pFilesz) (0 : Byte)) hvm₁.active hvm₁.unaliased
      (by rw [List.length_replicate]; omega) fun a hlo hhi => by
        rw [List.length_replicate] at hhi
        rw [hmaps₁.frameOf]
        exact hmapped a (by omega) (by omega)
    rw [List.length_replicate] at hbyte₂ hother₂
    refine ⟨vm₁, vm₂, hstore₁, fun _ => by rw [hfill]; exact hstore₂, fun h => absurd hzero h,
      hmaps₁.trans hmaps₂, fun f hf => ?_, fun phdr' hphdr' a ha => ?_, fun a b ha hb hout => ?_⟩
    · rw [hother₂ f fun a _ hhi => ?_, hkeptFrame f hf]
      rw [hmaps₁.frameOf]
      exact hf a (by omega)
    · obtain rfl := List.mem_singleton.mp hphdr'
      obtain ⟨hlo, hhi, hnull⟩ := ha
      rw [hbyte₂ a (by omega)]
      by_cases hin : phdr'.pVaddr + phdr'.pFilesz ≤ a
      · rw [if_pos ⟨hin, by omega⟩, ElfPhdr.imageByte, if_neg (by omega),
          List.getElem?_replicate_of_lt (by omega)]
      · rw [if_neg (by omega)]
        exact hfiled a hlo (by omega) (by omega)
    · have hout := hout phdr List.mem_cons_self
      simp only [ElfPhdr.Stores] at hout
      rw [hbyte₂ a ha, if_neg (by omega), hkept a ha (by omega), hb]
  · refine ⟨vm₁, vm₁, hstore₁, fun h => absurd h hzero, fun _ => rfl, hmaps₁, hkeptFrame,
      fun phdr' hphdr' a ha => ?_, fun a b ha hb hout => ?_⟩
    · obtain rfl := List.mem_singleton.mp hphdr'
      obtain ⟨hlo, hhi, hnull⟩ := ha
      exact hfiled a hlo (by omega) (by omega)
    · have hout := hout phdr List.mem_cons_self
      simp only [ElfPhdr.Stores] at hout
      rw [hkept a ha (by omega), hb]

/-- A load whose region is granted: the stores go through the active directory `k`, where
the segment's pages are mapped. -/
theorem elfLoadSegLog_granted {vm₀ : Vm} {k : Ptr} (hvalid : phdr.Valid content)
    (hregion : V.allocRegion vm d phdr.regionStart phdr.regionSize segFlags = (true, vm₀))
    (hvm₀ : vm₀.Loadable k)
    (hmapped : ∀ a, phdr.pVaddr ≤ a → a < phdr.pVaddr + phdr.pMemsz → vm₀.frameOf k a ≠ none) :
    ∃ stores file vm', elfLoadSegLog V vm (File.ofContent content) (some d) phdr =
        (.request d phdr.regionStart phdr.regionSize true :: stores, some (0, file, vm')) ∧
      (∀ e ∈ stores, ∃ va len, e = .store va len) ∧ vm₀.SameMaps vm' ∧
      (∀ f, (∀ a, a < kernelBase → vm₀.frameOf k a ≠ some f) → vm'.phys f = vm₀.phys f) ∧
      Imaged content [phdr] k vm₀ vm' := by
  obtain ⟨vm₁, vm₂, hstore₁, hstore₂, hsame, hmaps, hother, himage⟩ :=
    storeSegment_spec hvalid hvm₀ hmapped
  obtain ⟨n, offset, hread, -⟩ := vfsRead_contentAt content phdr.pOffset phdr.pVaddr phdr.pFilesz
  have hread : vfsRead { File.ofContent content with offset := phdr.pOffset } (phdr.pVaddr = 0)
      phdr.pFilesz = _ := hread
  let stored := (readBytes content phdr.pOffset phdr.pVaddr phdr.pFilesz).length
  by_cases hzero : phdr.pFilesz < phdr.pMemsz
  · refine ⟨[.store phdr.pVaddr stored,
        .store (u32 (phdr.pVaddr + phdr.pFilesz)) (phdr.pMemsz - phdr.pFilesz)],
      File.contentAt content offset, vm₂, ?_, by simp, hmaps, hother, himage⟩
    simp only [elfLoadSegLog, hregion, hread, hzero, if_true, hstore₁, hstore₂ hzero,
      Option.bind_eq_bind, Option.bind_some, Option.pure_def]
    rfl
  · obtain rfl := hsame hzero
    refine ⟨[.store phdr.pVaddr stored], File.contentAt content offset, vm₂, ?_, by simp, hmaps,
      hother, himage⟩
    simp only [elfLoadSegLog, hregion, hread, hzero, if_false, hstore₁, Option.bind_eq_bind,
      Option.bind_some, Option.pure_def]
    rfl

/-- The regions that a granted load requests. -/
theorem pageRequested_granted {stores : List LoadEvent}
    (hstores : ∀ e ∈ stores, ∃ va len, e = .store va len) (page : Nat) :
    PageRequested (.request d phdr.regionStart phdr.regionSize true :: stores) page ↔
      phdr.RegionMeets page := by
  constructor
  · rintro ⟨d', va, size, granted, hmem, hmeets⟩
    rcases List.mem_cons.mp hmem with heq | hmem
    · obtain ⟨-, rfl, rfl, -⟩ := LoadEvent.request.inj heq
      exact hmeets
    · obtain ⟨va', len, heq⟩ := hstores _ hmem
      cases heq
  · intro hmeets
    exact ⟨d, _, _, true, List.mem_cons_self, hmeets⟩

/-- **One segment.** It is loaded into the active directory, and its region is all
that is requested. -/
theorem elfLoadSegLog_spec (hV : V.Contract) (hgrant : V.AlwaysAllocates)
    (hvalid : phdr.Valid content) (hvm : vm.Loadable d) :
    ∃ events file vm', elfLoadSegLog V vm (File.ofContent content) (some d) phdr =
        (events, some (0, file, vm')) ∧
      (∀ page, PageRequested events page ↔ phdr.RegionMeets page) ∧ vm'.Loadable d ∧
      Imaged content [phdr] d vm vm' := by
  obtain ⟨hend, hcover, -⟩ := phdr.region_eq hvalid.user
  have hgranted := hgrant vm d phdr.regionStart phdr.regionSize segFlags hvm.live
  rcases hregion : V.allocRegion vm d phdr.regionStart phdr.regionSize segFlags with ⟨r, vm₀⟩
  rw [hregion] at hgranted
  obtain rfl : r = true := hgranted
  have heffect := hV.alloc _ _ _ _ _ _ _ hregion
  have hvm₀ : vm₀.Loadable d :=
    ⟨heffect.live hvm.live, heffect.active.trans hvm.active, heffect.unaliased hvm.unaliased⟩
  have hstart := phdr.regionStart_le
  have hmapped := hV.mapped _ _ _ _ _ _ hregion phdr.regionStart_aligned
  obtain ⟨stores, file, vm', hload, hstores, hmaps, -, himage⟩ :=
    elfLoadSegLog_granted hvalid hregion hvm₀ fun a hlo hhi => hmapped a (by omega) (by omega)
  exact ⟨_, file, vm', hload, pageRequested_granted hstores, hmaps.loadable hvm₀, himage.1,
    fun a b ha hb hout => himage.2 a b ha (heffect.byteAt hb) hout⟩

/-! ## A list of segments -/

/-- Segments on different pages store to different addresses. -/
theorem ElfPhdr.Apart.not_stores {phdr' : ElfPhdr} {a : Nat} (h : phdr.Apart phdr')
    (ha : phdr.Stores a) : ¬phdr'.Stores a :=
  fun ha' => h _ ⟨ha.touches, ha'.touches⟩

/-- **Segments.** A list of valid segments on different pages is loaded into the
active directory, and their regions are all that is requested. -/
theorem elfLoadSegsLog_spec (hV : V.Contract) (hgrant : V.AlwaysAllocates) {phdrs : List ElfPhdr}
    (hvalid : ∀ phdr ∈ phdrs, phdr.Valid content) (hapart : phdrs.Pairwise ElfPhdr.Apart)
    (hvm : vm.Loadable d) :
    ∃ events vm', elfLoadSegsLog V content (some d) phdrs vm = (events, some (0, vm')) ∧
      (∀ page, PageRequested events page ↔ ∃ phdr ∈ phdrs, phdr.RegionMeets page) ∧
      vm'.Loadable d ∧ Imaged content phdrs d vm vm' := by
  induction phdrs generalizing vm with
  | nil =>
    refine ⟨[], vm, rfl, fun page => ?_, hvm, fun phdr h => absurd h List.not_mem_nil,
      fun a b _ hb _ => hb⟩
    simp [PageRequested]
  | cons phdr phdrs ih =>
    obtain ⟨hfirst, hrest⟩ := List.pairwise_cons.mp hapart
    obtain ⟨events, file, vm₁, hseg, hreq, hvm₁, hstored, hkept⟩ :=
      elfLoadSegLog_spec hV hgrant (hvalid phdr List.mem_cons_self) hvm
    obtain ⟨events', vm₂, hsegs, hreq', hvm₂, hstored', hkept'⟩ :=
      ih (fun p hp => hvalid p (List.mem_cons_of_mem phdr hp)) hrest hvm₁
    refine ⟨events ++ events', vm₂, ?_, fun page => ?_, hvm₂, fun p hp a ha => ?_,
      fun a b ha hb hout => ?_⟩
    · simp only [elfLoadSegsLog, hseg, hsegs]
      rfl
    · rw [List.exists_mem_cons_iff, ← hreq, ← hreq']
      simp only [PageRequested, List.mem_append]
      constructor
      · rintro ⟨d', va, size, g, hmem | hmem, h⟩
        · exact .inl ⟨d', va, size, g, hmem, h⟩
        · exact .inr ⟨d', va, size, g, hmem, h⟩
      · rintro (⟨d', va, size, g, hmem, h⟩ | ⟨d', va, size, g, hmem, h⟩)
        · exact ⟨d', va, size, g, .inl hmem, h⟩
        · exact ⟨d', va, size, g, .inr hmem, h⟩
    · rcases List.mem_cons.mp hp with rfl | hp
      · -- the later segments keep the bytes of the first
        have hbyte := hstored p List.mem_cons_self a ha
        have huser := (hvalid p List.mem_cons_self).user
        obtain ⟨b, hb⟩ := (hvalid p List.mem_cons_self).imageByte_eq_some ha.1
        rw [hb] at hbyte ⊢
        have ha' := ha.2.1
        exact hkept' a b (by omega) hbyte fun q hq => (hfirst q hq).not_stores ha
      · exact hstored' p hp a ha
    · exact hkept' a b ha (hkept a b ha hb fun p hp => by
          obtain rfl := List.mem_singleton.mp hp
          exact hout p List.mem_cons_self)
        fun p hp => hout p (List.mem_cons_of_mem phdr hp)

/-! ## The image of a file -/

/-- `elf_load` builds the image that the file describes: it returns 0 and the entry
point, the bytes of each `PT_LOAD` segment are the file's and then zeros, the pages
that these touch and no others were requested, and the other headers have no part
in it. -/
def BuildsImage (V : Vmm) (content : List Byte) (vm : Vm) (d : Ptr) (junk : StackJunk) : Prop :=
  ∃ vm', elfLoad V vm (some (File.ofContent content)) (some d) junk =
      some (0, some (elfHeaderOf content).eEntry, vm') ∧
    (∀ phdr ∈ elfLoads content, ∀ a, phdr.pVaddr ≤ a → a < phdr.pVaddr + phdr.pMemsz →
      vm'.byteAt d a = phdr.imageByte content a) ∧
    (∀ page, PageRequested (elfLoadLog V vm (some (File.ofContent content)) (some d) junk).1 page ↔
      ∃ phdr ∈ elfLoads content, phdr.Touches page) ∧
    elfLoadSegsLog V content (some d) (elfLoads content) vm =
      ((elfLoadLog V vm (some (File.ofContent content)) (some d) junk).1, some (0, vm'))

/-- A segment at address 0 has no bytes in the file, and an empty segment that starts
inside a page shares it with one that is not empty. -/
def ElfPhdr.Placed (content : List Byte) (phdr : ElfPhdr) : Prop :=
  (phdr.pVaddr = 0 → phdr.pFilesz = 0) ∧
    (phdr.pMemsz = 0 → phdr.pVaddr % pageSize ≠ 0 →
      ∃ phdr' ∈ elfLoads content, phdr'.Touches (phdr.pVaddr / pageSize))

/-- What `elf_load` does to a valid file, in every memory. -/
theorem elfLoad_spec (hV : V.Contract) (hgrant : V.AlwaysAllocates) (hvalid : ElfValid content)
    (hvm : vm.Loadable d) (junk : StackJunk) :
    ∃ events vm', elfLoadLog V vm (some (File.ofContent content)) (some d) junk =
        (events, some (0, some (elfHeaderOf content).eEntry, vm')) ∧
      elfLoadSegsLog V content (some d) (elfLoads content) vm = (events, some (0, vm')) ∧
      (∀ page, PageRequested events page ↔ ∃ phdr ∈ elfLoads content, phdr.RegionMeets page) ∧
      Imaged content (elfLoads content) d vm vm' := by
  obtain ⟨events, vm', hsegs, hreq, -, himage⟩ :=
    elfLoadSegsLog_spec hV hgrant hvalid.segments hvalid.apart hvm
  refine ⟨events, vm', ?_, hsegs, hreq, himage⟩
  rw [elfLoadLog_eq hvalid, hsegs]
  rfl

/-- Memory with the one page at address 0, which holds the byte `b`. -/
def Vm.onePage (b : Byte) : Vm where
  dirs := Finmap.singleton 0 fun i => if i = 0 then some 1 else none
  tables t j := if t = 1 ∧ j = 0 then some 2 else none
  phys _ _ := b
  active := 0
  bound := 3
  dirs_lt d pd h := by
    obtain ⟨rfl, rfl⟩ := eq_of_lookup_singleton h
    refine ⟨by decide, fun i t hi => ?_⟩
    dsimp only at hi
    split at hi
    · exact Option.some.inj hi ▸ by decide
    · cases hi
  tables_lt t j f h := by
    split at h
    case isTrue => exact Option.some.inj h ▸ by decide
    case isFalse => cases h

theorem Vm.onePage_tableOf (b : Byte) (i : Nat) :
    (Vm.onePage b).tableOf 0 i = if i = 0 then some 1 else none := by
  simp [Vm.tableOf, Vm.onePage]

theorem Vm.onePage_loadable (b : Byte) : (Vm.onePage b).Loadable 0 := by
  refine ⟨by simp [Vm.onePage], rfl, fun i i' t _ _ ht ht' => ?_, fun i j i' j' f _ _ hf hf' => ?_⟩
  · rw [onePage_tableOf] at ht ht'
    split at ht <;> split at ht' <;> simp_all
  · obtain ⟨t, ht, hj⟩ := page_eq_some.mp hf
    obtain ⟨t', ht', hj'⟩ := page_eq_some.mp hf'
    rw [onePage_tableOf] at ht ht'
    simp only [Vm.onePage] at hj hj'
    split at ht <;> split at ht' <;> split at hj <;> split at hj' <;> simp_all

/-- A file with one segment, of 16 bytes at 64 KB times `page`, of which 4 are the
first ones of the file. -/
def sampleElf (page : Byte) : List Byte :=
  [0x7F, 0x45, 0x4C, 0x46, 1, 1, 0, 0, 0, 0, 0, 0, 0, 0, 0, 0] ++
    [2, 0, 3, 0, 1, 0, 0, 0, 0, 0, 0x40, 0, 48, 0, 0, 0, 0, 0, 0, 0, 0, 0, 0, 0] ++
    [48, 0, 32, 0, 1, 0, 0, 0] ++
    [1, 0, 0, 0, 0, 0, 0, 0, 0, 0, page, 0, 0, 0, 0, 0, 4, 0, 0, 0, 16, 0, 0, 0, 7, 0, 0, 0] ++
    [0, 16, 0, 0]

theorem sampleElf_loads (page : Byte) :
    elfLoads (sampleElf page) = [⟨elfPtLoad, 0, page.toNat * 65536, 4, 16⟩] := by
  have hcount : (elfHeaderOf (sampleElf page)).ePhnum = 1 := rfl
  have hdrop : (sampleElf page).drop ((elfHeaderOf (sampleElf page)).ePhoff +
      0 * (elfHeaderOf (sampleElf page)).ePhentsize) =
      [1, 0, 0, 0, 0, 0, 0, 0, 0, 0, page, 0, 0, 0, 0, 0, 4, 0, 0, 0, 16, 0, 0, 0, 7, 0, 0, 0,
        0, 16, 0, 0] := rfl
  have hphdr : elfPhdrAt (sampleElf page) 0 = ⟨elfPtLoad, 0, page.toNat * 65536, 4, 16⟩ := by
    rw [elfPhdrAt, hdrop]
    simp [ElfPhdr.ofBytes, le32, le16, byteOf, elfPtLoad, Nat.mul_comm]
  simp [elfLoads, elfLoadsFrom, hcount, hphdr]

theorem sampleElf_valid (page : Byte) : ElfValid (sampleElf page) := by
  refine ⟨?_, ?_, rfl, ?_, ?_, ?_, ?_⟩
  · show 80 < 2 ^ 32
    decide
  · show 48 ≤ 80
    decide
  · show 32 ≤ 32
    decide
  · show ∀ i, i < 1 → 48 + i * 32 + 32 ≤ 80
    omega
  · rw [sampleElf_loads]
    intro phdr hphdr
    obtain rfl := List.mem_singleton.mp hphdr
    refine ⟨?_, ?_, ?_⟩
    · show 4 ≤ 16
      decide
    · show 0 + 4 ≤ 80
      decide
    · show page.toNat * 65536 + 16 ≤ 0xC0000000
      have hpage := page.toNat_lt
      omega
  · rw [sampleElf_loads]
    exact List.pairwise_singleton _ _

/-- A file with one segment, empty, in the middle of a page. -/
def emptyElf : List Byte :=
  (sampleElf 0x40).take 48 ++
    [1, 0, 0, 0, 0, 0, 0, 0, 0, 8, 0x40, 0, 0, 0, 0, 0, 0, 0, 0, 0, 0, 0, 0, 0, 7, 0, 0, 0] ++
    [0, 16, 0, 0]

theorem emptyElf_loads : elfLoads emptyElf = [⟨elfPtLoad, 0, 0x400800, 0, 0⟩] := by
  decide +kernel

theorem emptyElf_valid : ElfValid emptyElf where
  size := by decide
  header := by decide
  check := rfl
  phentsize := by decide
  table := by decide
  segments := by
    rw [emptyElf_loads]
    intro phdr hphdr
    obtain rfl := List.mem_singleton.mp hphdr
    exact ⟨by decide, by decide, by decide⟩
  apart := by
    rw [emptyElf_loads]
    exact List.pairwise_singleton _ _

end Leenix
