import Leenix.Fs.Lookup
import Leenix.Lib.Owned

/-!
# Mounting and unmounting, on the heap (fs/fat12.c)

`fat12_mount` and `fat12_unmount` with the heap blocks they allocate, store into and
free. A block is known by its pointer and what it was last given to hold. A null pointer
that is followed, a block that is used after it was freed or freed twice, a division by
zero and a store behind the end of the FAT copy have no value.

The results of the six calls of `malloc` and what the two buffers hold before they are
written are arguments. A mount is a ladder of exits, and `fat12Mount_eq` says where it
ends: whatever is returned for the pointer, the blocks the call owns are freed
(`Owns.freeAll`) or all part of the new filesystem (`owns_mountedHeap`).
-/

namespace Leenix

/-- The fields of the boot sector at their places in the sector (fat12.h:58–102). -/
def Fat12BootSector.ofBytes (boot : List Byte) : Fat12BootSector where
  bytesPerSector := .ofNat (le16 boot 11)
  sectorsPerCluster := .ofNat (byteOf boot 13)
  rsrvdCnt := .ofNat (le16 boot 14)
  numFats := .ofNat (byteOf boot 16)
  maxRootDirEntries := .ofNat (le16 boot 17)
  sectorsPerFat := .ofNat (le16 boot 22)
  hiddenSectors := .ofNat (le32 boot 28)

namespace OnHeap

/-- `fat12_handle_t`. Its pointer to the extended boot record is never followed. -/
structure Handle where
  bpb : Option Ptr
  fatStart : Nat
  rootDirStart : Nat
  rootDirSectors : Nat
  dataAreaStart : Nat
  fatTable : Option Ptr
  blockDev : Option BlockDevice

/-- `vfs`, a mounted filesystem. -/
structure Filesystem where
  fsData : Option Ptr
  vcovered : Option Ptr
  vroot : Option Ptr

/-- `vnode`. -/
structure Vnode where
  name : List Byte
  mountedHere : Option Ptr
  vfsPtr : Option Ptr
  type : VnodeType
  flags : Nat
  data : Option Ptr

/-- `inode`. -/
structure Inode where
  dirEntry : List Byte
  dirSector : Nat
  dirOffset : Nat

/-- What a block of the heap holds. Nothing was stored yet in a fresh one. -/
inductive Cell
  | fresh
  | bytes (bs : List Byte)
  | handle (fs : Handle)
  | vfs (fsys : Filesystem)
  | vnode (node : Vnode)
  | inode (node : Inode)

/-- The live blocks. -/
abbrev FsHeap := Heap Cell

/-- What the calls of `malloc` in `fat12_mount` return, in their order. -/
structure Blocks where
  fs : Option Ptr
  bootsector : Option Ptr
  fatTable : Option Ptr
  fsys : Option Ptr
  vroot : Option Ptr
  rootInode : Option Ptr

/-- The bytes of a block that was just allocated. -/
def freshBytes (junk : Nat → Byte) (n : Nat) : List Byte := (List.range n).map junk

/-- The bytes that a read stores at an offset of a block. -/
def storeAt (table : List Byte) (offset : Nat) (bytes : List Byte) : Option (List Byte) :=
  if offset + bytes.length ≤ table.length then
    some (table.take offset ++ bytes ++ table.drop (offset + bytes.length))
  else none

/-- The loop that reads the FAT (fat12.c:304–309) from sector `i` on, `n` left. -/
def loadFat (blockDev : Option BlockDevice) (b : Fat12BootSector) :
    Nat → Nat → List Byte → Option (List Byte)
  | _, 0, table => some table
  | i, n + 1, table => do
    let (_, stored) := blkread blockDev (u32 (b.fatStart + i)) []
    let table ← storeAt table (i * b.bytesPerSector.toNat) stored
    loadFat blockDev b (i + 1) n table

/-- The exits that give up: what was allocated is freed, in the given order. -/
def giveUp (h : FsHeap) (ps : List Ptr) : Option (Option Ptr × FsHeap) :=
  (freeAll h ps).map fun h => (none, h)

/-- The handle that `fat12_mount` fills from the boot sector (fat12.c:274–289). -/
def mountHandle (blockDev : Option BlockDevice) (b : Fat12BootSector) (bootsector : Ptr)
    (fatTable : Option Ptr) : Handle where
  bpb := some bootsector
  fatStart := b.fatStart
  rootDirStart := b.rootDirStart
  rootDirSectors := b.rootDirSectors
  dataAreaStart := b.dataAreaStart
  fatTable := fatTable
  blockDev := blockDev

/-- The root vnode of a filesystem. -/
def rootVnode (fsys : Ptr) (data : Option Ptr) : Vnode where
  name := nameField [slashByte]
  mountedHere := none
  vfsPtr := some fsys
  type := .directory
  flags := 0
  data := data

/-- The inode of the root vnode. The attribute it was given is cleared with the entry. -/
def rootInode (b : Fat12BootSector) : Inode := ⟨List.replicate 32 0, b.rootDirStart, 0⟩

/-- `fat12_mount` (fat12.c:247–364), where the device was found or not. -/
def fat12Mount (blockDev : Option BlockDevice) (m : Blocks) (bootJunk fatJunk : Nat → Byte)
    (h : FsHeap) : Option (Option Ptr × FsHeap) :=
  match m.fs with
  | none => some (none, h)
  | some fs =>
    let h := h.insert fs .fresh
    match m.bootsector with
    | none => giveUp h [fs]
    | some bootsector =>
      let h := h.insert bootsector (.bytes (freshBytes bootJunk 512))
      if blockDev.isNone then giveUp h [bootsector, fs]
      else do
        let (_, boot) := blkread blockDev 0 (freshBytes bootJunk 512)
        let h ← store h bootsector (.bytes boot)
        let b := Fat12BootSector.ofBytes boot
        -- `root_dir_sectors` is a quotient by the sector size
        if b.bytesPerSector = 0 then none
        else
          let h ← store h fs (.handle (mountHandle blockDev b bootsector m.fatTable))
          match m.fatTable with
          | none => giveUp h [bootsector, fs]
          | some fatTable =>
            let h := h.insert fatTable (.bytes (freshBytes fatJunk b.fatSize))
            let table ← loadFat blockDev b 0 b.sectorsPerFat.toNat (freshBytes fatJunk b.fatSize)
            let h ← store h fatTable (.bytes table)
            match m.fsys with
            | none => giveUp h [fatTable, bootsector, fs]
            | some fsys =>
              let h := h.insert fsys (.vfs ⟨some fs, none, m.vroot⟩)
              -- the last two results of `malloc` are followed unseen
              let vroot ← m.vroot
              let h := h.insert vroot (.vnode (rootVnode fsys none))
              let inode ← m.rootInode
              let h := h.insert inode (.inode (rootInode b))
              let h ← store h vroot (.vnode (rootVnode fsys (some inode)))
              return (some fsys, h)

/-- `fsys->` and the like: the block must be live. -/
def vfsAt (h : FsHeap) (p : Ptr) : Option Filesystem :=
  match h.lookup p with
  | some (.vfs fsys) => some fsys
  | _ => none

def handleAt (h : FsHeap) (p : Ptr) : Option Handle :=
  match h.lookup p with
  | some (.handle fs) => some fs
  | _ => none

def vnodeAt (h : FsHeap) (p : Ptr) : Option Vnode :=
  match h.lookup p with
  | some (.vnode node) => some node
  | _ => none

def bytesAt (h : FsHeap) (p : Ptr) : Option (List Byte) :=
  match h.lookup p with
  | some (.bytes bs) => some bs
  | _ => none

/-- `free` of a pointer that may be null. -/
def freePtr (h : FsHeap) : Option Ptr → Option FsHeap
  | none => some h
  | some p => free h p

/-- `fat12_unmount` (fat12.c:367–396). -/
def fat12Unmount (h : FsHeap) (fsys : Ptr) : Option (Int × FsHeap) := do
  match (← vfsAt h fsys).fsData with
  | none => return (-1, h)
  | some fs =>
    let h ← freePtr h (← handleAt h fs).fatTable
    let h ← store h fs (.handle { (← handleAt h fs) with fatTable := none })
    let h ← freePtr h (← handleAt h fs).bpb
    let h ← store h fs (.handle { (← handleAt h fs) with bpb := none })
    let h ← free h fs
    let h ← freePtr h (← vnodeAt h (← (← vfsAt h fsys).vroot)).data
    let h ← freePtr h (← vfsAt h fsys).vroot
    let h ← free h fsys
    return (0, h)

/-- The volume behind a mounted filesystem. -/
def volumeAt (h : FsHeap) (fsys : Ptr) : Option Fat12Volume := do
  let fs ← handleAt h (← (← vfsAt h fsys).fsData)
  let b := Fat12BootSector.ofBytes (← bytesAt h (← fs.bpb))
  let table ← bytesAt h (← fs.fatTable)
  return {
    blockDev := fs.blockDev
    bpb := ⟨b.bytesPerSector.toNat, b.sectorsPerCluster.toNat⟩
    fatTable := table
    dataAreaStart := fs.dataAreaStart
    fatStart := fs.fatStart
    rootDirStart := fs.rootDirStart
    rootDirSectors := fs.rootDirSectors }

/-! ## The blocks of a mount -/

/-- The results in the order of the calls. -/
def Blocks.results (m : Blocks) : List (Option Ptr) :=
  [m.fs, m.bootsector, m.fatTable, m.fsys, m.vroot, m.rootInode]

/-- What `malloc` promises: the blocks it returns are new, and no two are the same. -/
structure Blocks.Fresh (m : Blocks) (h : FsHeap) : Prop where
  distinct : m.results.reduceOption.Nodup
  new : ∀ p ∈ m.results.reduceOption, p ∉ h

variable {m : Blocks} {h h' : FsHeap} {ps : List Ptr} {fs bootsector fatTable fsys vroot inode : Ptr}
  {blockDev : Option BlockDevice} {b : Fat12BootSector} {boot table junk : List Byte}
  {bootJunk fatJunk : Nat → Byte}

theorem Blocks.Fresh.first (hfresh : m.Fresh h) (ps : List Ptr) (k : Nat)
    (hps : m.results.take k = ps.map some) : ps.Nodup ∧ ∀ p ∈ ps, p ∉ h := by
  have hsub : ps.Sublist m.results.reduceOption := by
    have hreduce : (m.results.take k).reduceOption = ps := by
      rw [hps]
      exact (List.filterMap_map (f := some) (g := id)).trans List.filterMap_some
    rw [← hreduce]
    exact (List.take_sublist k m.results).filterMap id
  exact ⟨hfresh.distinct.sublist hsub, fun p hp => hfresh.new p (hsub.subset hp)⟩

/-- The heap once the boot sector was read and the handle filled. -/
def bootedHeap (h : FsHeap) (fs bootsector : Ptr) (junk boot : List Byte) (handle : Handle) : FsHeap :=
  (((h.insert fs .fresh).insert bootsector (.bytes junk)).insert bootsector (.bytes boot)).insert fs
    (.handle handle)

/-- Then with the copy of the FAT. -/
def loadedHeap (h : FsHeap) (fatTable : Ptr) (junk table : List Byte) : FsHeap :=
  (h.insert fatTable (.bytes junk)).insert fatTable (.bytes table)

/-- And with the filesystem and its root vnode. -/
def rootedHeap (h : FsHeap) (fs fsys vroot inode : Ptr) (b : Fat12BootSector) : FsHeap :=
  (((h.insert fsys (.vfs ⟨some fs, none, some vroot⟩)).insert vroot
    (.vnode (rootVnode fsys none))).insert inode (.inode (rootInode b))).insert vroot
      (.vnode (rootVnode fsys (some inode)))

/-- The boot sector in memory after it was read, or not. -/
def bootBytes (blockDev : Option BlockDevice) (bootJunk : Nat → Byte) : List Byte :=
  (blkread blockDev 0 (freshBytes bootJunk 512)).2

/-- The boot sector that the mount goes by. -/
def bootSector (blockDev : Option BlockDevice) (bootJunk : Nat → Byte) : Fat12BootSector :=
  .ofBytes (bootBytes blockDev bootJunk)

/-- The loop that reads the FAT, in a fresh block. -/
def fatBytes (blockDev : Option BlockDevice) (b : Fat12BootSector) (fatJunk : Nat → Byte) :
    Option (List Byte) :=
  loadFat blockDev b 0 b.sectorsPerFat.toNat (freshBytes fatJunk b.fatSize)

/-- The exits behind the boot sector. -/
def mountResult (h : FsHeap) (m : Blocks) (fs : Ptr) (b : Fat12BootSector)
    (booted : FsHeap) (loaded : Option (List Byte)) (fatJunk : Nat → Byte) :
    Option (Option Ptr × FsHeap) :=
  if b.bytesPerSector = 0 then none
  else
    match m.fatTable with
    | none => some (none, h)
    | some fatTable =>
      loaded.bind fun table =>
        match m.fsys with
        | none => some (none, h)
        | some fsys =>
          m.vroot.bind fun vroot => m.rootInode.map fun inode =>
            (some fsys, rootedHeap (loadedHeap booted fatTable (freshBytes fatJunk b.fatSize) table)
              fs fsys vroot inode b)

theorem owns_fresh (hfresh : m.Fresh h) (hfs : m.fs = some fs)
    (hbootsector : m.bootsector = some bootsector) (c : Cell) :
    Owns h ((h.insert fs .fresh).insert bootsector c) [bootsector, fs] := by
  obtain ⟨hnodup, hnew⟩ := hfresh.first [fs, bootsector] 2
    (by rw [Blocks.results, hfs, hbootsector]; rfl)
  simp only [List.nodup_cons, List.mem_cons, forall_eq_or_imp] at hnodup hnew
  have howns := (Owns.refl h).alloc hnew.1 (List.not_mem_nil) Cell.fresh
  exact howns.alloc hnew.2.1 (by simpa [eq_comm] using hnodup.1) c

theorem owns_bootedHeap (hfresh : m.Fresh h) (hfs : m.fs = some fs)
    (hbootsector : m.bootsector = some bootsector) (junk boot : List Byte) (handle : Handle) :
    Owns h (bootedHeap h fs bootsector junk boot handle) [bootsector, fs] := by
  have howns := owns_fresh hfresh hfs hbootsector (.bytes junk)
  have howns := (howns.store (p := bootsector) (by simp) (.bytes boot)).2
  exact (howns.store (p := fs) (by simp) (.handle handle)).2

theorem fatTable_new (hfresh : m.Fresh h) (hfs : m.fs = some fs)
    (hbootsector : m.bootsector = some bootsector) (hfatTable : m.fatTable = some fatTable) :
    fatTable ∉ h ∧ fatTable ∉ [bootsector, fs] := by
  obtain ⟨hnodup, hnew⟩ := hfresh.first [fs, bootsector, fatTable] 3
    (by rw [Blocks.results, hfs, hbootsector, hfatTable]; rfl)
  have hperm : [fs, bootsector, fatTable].Perm [fatTable, bootsector, fs] :=
    (List.reverse_perm [fs, bootsector, fatTable]).symm
  exact ⟨hnew fatTable (by simp), (List.nodup_cons.mp (hperm.nodup_iff.mp hnodup)).1⟩

theorem owns_loadedHeap (hfresh : m.Fresh h) (hfs : m.fs = some fs)
    (hbootsector : m.bootsector = some bootsector) (hfatTable : m.fatTable = some fatTable)
    (howns : Owns h h' [bootsector, fs]) (junk table : List Byte) :
    Owns h (loadedHeap h' fatTable junk table) [fatTable, bootsector, fs] := by
  have hnew := fatTable_new hfresh hfs hbootsector hfatTable
  have howns := howns.alloc hnew.1 hnew.2 (.bytes junk)
  exact (howns.store (p := fatTable) List.mem_cons_self (.bytes table)).2

theorem owns_rootedHeap (hfresh : m.Fresh h) (hfs : m.fs = some fs)
    (hbootsector : m.bootsector = some bootsector) (hfatTable : m.fatTable = some fatTable)
    (hfsys : m.fsys = some fsys) (hvroot : m.vroot = some vroot) (hinode : m.rootInode = some inode)
    (howns : Owns h h' [fatTable, bootsector, fs]) (b : Fat12BootSector) :
    Owns h (rootedHeap h' fs fsys vroot inode b)
      [inode, vroot, fsys, fatTable, bootsector, fs] := by
  obtain ⟨hnodup, hnew⟩ := hfresh.first [fs, bootsector, fatTable, fsys, vroot, inode] 6
    (by rw [Blocks.results, hfs, hbootsector, hfatTable, hfsys, hvroot, hinode]; rfl)
  have hperm : [fs, bootsector, fatTable, fsys, vroot, inode].Perm
      [inode, vroot, fsys, fatTable, bootsector, fs] :=
    (List.reverse_perm [fs, bootsector, fatTable, fsys, vroot, inode]).symm
  obtain ⟨hinodeNew, hnodup⟩ := List.nodup_cons.mp (hperm.nodup_iff.mp hnodup)
  obtain ⟨hvrootNew, hnodup⟩ := List.nodup_cons.mp hnodup
  have hfsysNew := (List.nodup_cons.mp hnodup).1
  have howns := howns.alloc (hnew fsys (by simp)) hfsysNew (.vfs ⟨some fs, none, some vroot⟩)
  have howns := howns.alloc (hnew vroot (by simp)) hvrootNew (.vnode (rootVnode fsys none))
  have howns := howns.alloc (hnew inode (by simp)) hinodeNew (.inode (rootInode b))
  exact (howns.store (p := vroot) (by simp) (.vnode (rootVnode fsys (some inode)))).2

/-! ## The exits of a mount -/

theorem giveUp_eq (howns : Owns h h' ps) : giveUp h' ps = some (none, h) := by
  rw [giveUp, howns.freeAll, Option.map_some]

/-- Without the first two blocks or the device, the mount gives up. -/
theorem fat12Mount_early (hfresh : m.Fresh h)
    (hearly : m.fs = none ∨ m.bootsector = none ∨ blockDev = none) :
    fat12Mount blockDev m bootJunk fatJunk h = some (none, h) := by
  unfold fat12Mount
  cases hfs : m.fs with
  | none => rfl
  | some fs =>
    cases hbootsector : m.bootsector with
    | none =>
      obtain ⟨-, hnew⟩ := hfresh.first [fs] 1 (by rw [Blocks.results, hfs]; rfl)
      exact giveUp_eq ((Owns.refl h).alloc (hnew fs List.mem_cons_self) List.not_mem_nil _)
    | some bootsector =>
      simp only [hfs, hbootsector, reduceCtorEq, false_or] at hearly
      subst hearly
      exact giveUp_eq (owns_fresh hfresh hfs hbootsector _)

/-- **Exits.** Behind the boot sector a mount faults, gives up with the heap as it was,
or goes on to the filesystem. -/
theorem fat12Mount_eq (hfresh : m.Fresh h) (hfs : m.fs = some fs)
    (hbootsector : m.bootsector = some bootsector) (hdev : blockDev ≠ none) :
    fat12Mount blockDev m bootJunk fatJunk h =
      mountResult h m fs (bootSector blockDev bootJunk)
        (bootedHeap h fs bootsector (freshBytes bootJunk 512) (bootBytes blockDev bootJunk)
          (mountHandle blockDev (bootSector blockDev bootJunk) bootsector m.fatTable))
        (fatBytes blockDev (bootSector blockDev bootJunk) fatJunk) fatJunk := by
  have hfound : blockDev.isNone = false := by
    cases blockDev with
    | none => exact absurd rfl hdev
    | some d => rfl
  have howns := owns_bootedHeap hfresh hfs hbootsector
  have hstart := owns_fresh hfresh hfs hbootsector (.bytes (freshBytes bootJunk 512))
  obtain ⟨r, boot, hread⟩ : ∃ r boot, blkread blockDev 0 (freshBytes bootJunk 512) = (r, boot) :=
    ⟨_, _, rfl⟩
  have hboot : bootBytes blockDev bootJunk = boot := congrArg Prod.snd hread
  obtain ⟨hstore, hread'⟩ := hstart.store (p := bootsector) (by simp) (.bytes boot)
  simp only [fat12Mount, mountResult, bootSector, hfs, hbootsector, hfound, hread, hboot, hstore,
    Option.bind_eq_bind, Option.bind_some, Bool.false_eq_true, if_false]
  by_cases hzero : (Fat12BootSector.ofBytes boot).bytesPerSector = 0
  · simp only [hzero, if_true]
  simp only [hzero, if_false]
  obtain ⟨hstore, howns⟩ := hread'.store (p := fs) (by simp)
    (.handle (mountHandle blockDev (.ofBytes boot) bootsector m.fatTable))
  simp only [hstore, Option.bind_some]
  cases hfatTable : m.fatTable with
  | none => exact giveUp_eq (hfatTable ▸ howns)
  | some fatTable =>
    simp only [fatBytes]
    cases hload : loadFat blockDev (.ofBytes boot) 0 (Fat12BootSector.ofBytes boot).sectorsPerFat.toNat
        (freshBytes fatJunk (Fat12BootSector.ofBytes boot).fatSize) with
    | none => rfl
    | some table =>
      rw [hfatTable] at howns
      have hnew := fatTable_new hfresh hfs hbootsector hfatTable
      obtain ⟨hstore, hloaded⟩ := (howns.alloc hnew.1 hnew.2 (.bytes (freshBytes fatJunk
        (Fat12BootSector.ofBytes boot).fatSize))).store List.mem_cons_self (.bytes table)
      simp only [Option.bind_some, hstore]
      cases hfsys : m.fsys with
      | none => exact giveUp_eq hloaded
      | some fsys =>
        cases hvroot : m.vroot with
        | none => rfl
        | some vroot =>
          cases hinode : m.rootInode with
          | none => rfl
          | some inode =>
            have hlive : vroot ∈ (((loadedHeap (bootedHeap h fs bootsector (freshBytes bootJunk 512)
                boot (mountHandle blockDev (.ofBytes boot) bootsector (some fatTable))) fatTable
                (freshBytes fatJunk (Fat12BootSector.ofBytes boot).fatSize) table).insert fsys
                (.vfs ⟨some fs, none, some vroot⟩)).insert vroot
                (.vnode (rootVnode fsys none))).insert inode (.inode (rootInode (.ofBytes boot))) :=
              Finmap.mem_insert.mpr (.inr (Finmap.mem_insert.mpr (.inl rfl)))
            simp only [Option.bind_some, Option.map_some]
            exact congrArg (Option.bind · fun h => some (some fsys, h)) (if_pos hlive)

/-! ## A mounted filesystem -/

/-- What the blocks of a mounted filesystem hold. -/
def Mounted (h : FsHeap) (m : Blocks) (fsys : Ptr) (blockDev : Option BlockDevice)
    (boot table : List Byte) : Prop :=
  ∃ fs bootsector fatTable vroot inode,
    m = ⟨some fs, some bootsector, some fatTable, some fsys, some vroot, some inode⟩ ∧
    h.lookup fsys = some (.vfs ⟨some fs, none, some vroot⟩) ∧
    h.lookup fs = some (.handle (mountHandle blockDev (.ofBytes boot) bootsector (some fatTable))) ∧
    h.lookup bootsector = some (.bytes boot) ∧
    h.lookup fatTable = some (.bytes table) ∧
    h.lookup vroot = some (.vnode (rootVnode fsys (some inode)))

theorem mounted_rootedHeap
    (hfresh : Blocks.Fresh ⟨some fs, some bootsector, some fatTable, some fsys, some vroot, some inode⟩
      h) (junk boot fatJunk table : List Byte) :
    Mounted (rootedHeap (loadedHeap (bootedHeap h fs bootsector junk boot
        (mountHandle blockDev (.ofBytes boot) bootsector (some fatTable))) fatTable fatJunk table)
        fs fsys vroot inode (.ofBytes boot))
      ⟨some fs, some bootsector, some fatTable, some fsys, some vroot, some inode⟩ fsys blockDev boot
      table := by
  obtain ⟨hnodup, -⟩ := hfresh.first [fs, bootsector, fatTable, fsys, vroot, inode] 6 rfl
  simp only [List.nodup_cons, List.mem_cons, List.not_mem_nil, or_false, not_or] at hnodup
  obtain ⟨⟨h₁, h₂, h₃, h₄, h₅⟩, ⟨h₆, h₇, h₈, h₉⟩, ⟨h₁₀, h₁₁, h₁₂⟩, ⟨h₁₃, h₁₄⟩, h₁₅, -⟩ := hnodup
  refine ⟨fs, bootsector, fatTable, vroot, inode, rfl, ?_, ?_, ?_, ?_, ?_⟩
  all_goals
    simp [rootedHeap, loadedHeap, bootedHeap, Finmap.lookup_insert_of_ne, Ne.symm, *]

/-- **A mount that succeeded.** The sector size is not zero, the copy of the FAT was
read into its block, and the heap has the blocks of the filesystem and no others more. -/
theorem fat12Mount_some (hfresh : m.Fresh h)
    (hmount : fat12Mount blockDev m bootJunk fatJunk h = some (some fsys, h')) :
    ∃ table, (bootSector blockDev bootJunk).bytesPerSector ≠ 0 ∧
      fatBytes blockDev (bootSector blockDev bootJunk) fatJunk = some table ∧
      Mounted h' m fsys blockDev (bootBytes blockDev bootJunk) table ∧
      Owns h h' m.results.reduceOption := by
  by_cases hearly : m.fs = none ∨ m.bootsector = none ∨ blockDev = none
  · rw [fat12Mount_early hfresh hearly] at hmount
    cases hmount
  obtain ⟨hfs, hbootsector, hdev⟩ : m.fs ≠ none ∧ m.bootsector ≠ none ∧ blockDev ≠ none := by
    simpa only [not_or] using hearly
  obtain ⟨fs, hfs⟩ := Option.ne_none_iff_exists'.mp hfs
  obtain ⟨bootsector, hbootsector⟩ := Option.ne_none_iff_exists'.mp hbootsector
  rw [fat12Mount_eq hfresh hfs hbootsector hdev, mountResult] at hmount
  split at hmount
  · cases hmount
  case isFalse hzero =>
    cases hfatTable : m.fatTable with
    | none => simp [hfatTable] at hmount
    | some fatTable =>
      cases hload : fatBytes blockDev (bootSector blockDev bootJunk) fatJunk with
      | none => simp [hfatTable, hload] at hmount
      | some table =>
        simp only [hfatTable, hload, Option.bind_some] at hmount
        cases hfsys : m.fsys with
        | none => simp [hfsys] at hmount
        | some fsys' =>
          simp only [hfsys, Option.bind_eq_some_iff, Option.map_eq_some_iff, Prod.mk.injEq,
            Option.some.injEq] at hmount
          obtain ⟨vroot, hvroot, inode, hinode, rfl, rfl⟩ := hmount
          obtain ⟨_, _, _, _, _, _⟩ := m
          obtain rfl := hfs
          obtain rfl := hbootsector
          obtain rfl := hfatTable
          obtain rfl := hfsys
          obtain rfl := hvroot
          obtain rfl := hinode
          refine ⟨table, hzero, rfl, mounted_rootedHeap hfresh _ _ _ _, ?_⟩
          have howns := owns_bootedHeap hfresh rfl rfl (freshBytes bootJunk 512)
            (bootBytes blockDev bootJunk)
            (mountHandle blockDev (bootSector blockDev bootJunk) bootsector (some fatTable))
          have howns := owns_loadedHeap hfresh rfl rfl rfl howns
            (freshBytes fatJunk (bootSector blockDev bootJunk).fatSize) table
          exact (owns_rootedHeap hfresh rfl rfl rfl rfl rfl rfl howns _).perm
            (List.reverse_perm [fs, bootsector, fatTable, fsys', vroot, inode])

/-- The volume behind it is the one that the lookups and reads go by. -/
theorem volumeAt_mounted (hmounted : Mounted h m fsys blockDev boot table)
    (htable : table.length = (Fat12BootSector.ofBytes boot).fatSize) :
    volumeAt h fsys = some (mountedVolume blockDev (.ofBytes boot) ⟨table, htable⟩) := by
  obtain ⟨fs, bootsector, fatTable, vroot, inode, -, hfsys, hfs, hboot, hfat, -⟩ := hmounted
  simp only [volumeAt, vfsAt, handleAt, bytesAt, hfsys, hfs, hboot, hfat, mountHandle,
    Option.bind_eq_bind, Option.bind_some]
  rfl

theorem unmount_order {fs bootsector fatTable fsys vroot inode : Ptr} :
    [fs, bootsector, fatTable, fsys, vroot, inode].Perm
      [fatTable, bootsector, fs, inode, vroot, fsys] := by
  rw [List.perm_iff_count]
  intro p
  simp only [List.count_cons]
  omega

/-- **Unmounting** what was mounted gives back the heap before. -/
theorem fat12Unmount_mounted (hmounted : Mounted h' m fsys blockDev boot table)
    (howns : Owns h h' m.results.reduceOption) : fat12Unmount h' fsys = some (0, h) := by
  obtain ⟨fs, bootsector, fatTable, vroot, inode, rfl, hfsys, hfs, -, -, hvroot⟩ := hmounted
  obtain ⟨handle, hhandle⟩ : ∃ handle, mountHandle blockDev (.ofBytes boot) bootsector
      (some fatTable) = handle := ⟨_, rfl⟩
  have hbpb : handle.bpb = some bootsector := hhandle ▸ rfl
  have hfat : handle.fatTable = some fatTable := hhandle ▸ rfl
  rw [hhandle] at hfs
  -- the order in which the blocks are freed
  have howns : Owns h h' [fatTable, bootsector, fs, inode, vroot, fsys] := howns.perm unmount_order
  have hnodup := howns.nodup
  simp only [List.nodup_cons, List.mem_cons, List.not_mem_nil, or_false, not_or] at hnodup
  obtain ⟨⟨-, hfatFs, -, hfatVroot, hfatFsys⟩, ⟨hbootFs, -, hbootVroot, hbootFsys⟩,
    ⟨-, hfsVroot, hfsFsys⟩, ⟨hinodeVroot, hinodeFsys⟩, hvrootFsys, -⟩ := hnodup
  obtain ⟨h₁, hfree₁, hsame₁, howns⟩ := howns.free
  obtain ⟨hstore₁, howns⟩ := howns.store (p := fs) (by simp) (.handle { handle with fatTable := none })
  obtain ⟨h₂, hfree₂, hsame₂, howns⟩ := howns.free
  obtain ⟨hstore₂, howns⟩ := howns.store (p := fs) (by simp)
    (.handle { handle with fatTable := none, bpb := none })
  obtain ⟨h₃, hfree₃, hsame₃, howns⟩ := howns.free
  obtain ⟨h₄, hfree₄, hsame₄, howns⟩ := howns.free
  obtain ⟨h₅, hfree₅, hsame₅, howns⟩ := howns.free
  obtain ⟨h₆, hfree₆, -, howns⟩ := howns.free
  have hfs₁ : handleAt h₁ fs = some handle := by
    rw [handleAt, hsame₁ fs (Ne.symm hfatFs), hfs]
  have hfs₁' : handleAt (h₁.insert fs (.handle { handle with fatTable := none })) fs =
      some { handle with fatTable := none } := by
    rw [handleAt, Finmap.lookup_insert]
  have hfs₂ : handleAt h₂ fs = some { handle with fatTable := none } := by
    rw [handleAt, hsame₂ fs (Ne.symm hbootFs), Finmap.lookup_insert]
  have hkept : ∀ q, q ≠ fatTable → q ≠ bootsector → q ≠ fs → h₃.lookup q = h'.lookup q := by
    intro q hqFat hqBoot hqFs
    rw [hsame₃ q hqFs, Finmap.lookup_insert_of_ne _ hqFs, hsame₂ q hqBoot,
      Finmap.lookup_insert_of_ne _ hqFs, hsame₁ q hqFat]
  have hfsys₃ : vfsAt h₃ fsys = some ⟨some fs, none, some vroot⟩ := by
    rw [vfsAt, hkept fsys (Ne.symm hfatFsys) (Ne.symm hbootFsys) (Ne.symm hfsFsys), hfsys]
  have hvroot₃ : vnodeAt h₃ vroot = some (rootVnode fsys (some inode)) := by
    rw [vnodeAt, hkept vroot (Ne.symm hfatVroot) (Ne.symm hbootVroot) (Ne.symm hfsVroot), hvroot]
  have hfsys₄ : vfsAt h₄ fsys = some ⟨some fs, none, some vroot⟩ := by
    rw [← hfsys₃, vfsAt, vfsAt, hsame₄ fsys (Ne.symm hinodeFsys)]
  have hfsys₀ : vfsAt h' fsys = some ⟨some fs, none, some vroot⟩ := by rw [vfsAt, hfsys]
  have hfs₀ : handleAt h' fs = some handle := by rw [handleAt, hfs]
  have hfat₁ : freePtr h' handle.fatTable = some h₁ := hfat ▸ hfree₁
  have hboot₂ : freePtr (h₁.insert fs (.handle { handle with fatTable := none })) handle.bpb =
      some h₂ :=
    (congrArg (freePtr _) hbpb).trans hfree₂
  have hinode₄ : freePtr h₃ (rootVnode fsys (some inode)).data = some h₄ := hfree₄
  have hvroot₅ : freePtr h₄ (some vroot) = some h₅ := hfree₅
  simp only [fat12Unmount, Option.bind_eq_bind, hfsys₀, Option.bind_some, hfs₀, hfat₁, hfs₁, hstore₁,
    hfs₁', hboot₂, hfs₂, hstore₂, hfree₃, hfsys₃, hvroot₃, hinode₄, hfsys₄, hvroot₅, hfree₆,
    howns.eq_of_nil, Option.pure_def]

/-! ## The copy of the FAT -/

section LoadFat

variable {i n : Nat} {t : List Byte}

theorem storeAt_length {offset : Nat} {bytes : List Byte}
    (hstore : storeAt table offset bytes = some t) : t.length = table.length := by
  unfold storeAt at hstore
  split at hstore
  case isFalse => cases hstore
  case isTrue hin =>
    obtain rfl := Option.some.inj hstore
    simp only [List.length_append, List.length_take, List.length_drop]
    omega

theorem storeAt_of_le {offset : Nat} {bytes : List Byte}
    (hin : offset + bytes.length ≤ table.length) : ∃ t, storeAt table offset bytes = some t :=
  ⟨_, if_pos hin⟩

theorem loadFat_length (hload : loadFat blockDev b i n table = some t) : t.length = table.length := by
  induction n generalizing i table with
  | zero => exact congrArg List.length (Option.some.inj hload).symm
  | succ n ih =>
    simp only [loadFat, Option.bind_eq_bind, Option.bind_eq_some_iff] at hload
    obtain ⟨table', hstore, hrest⟩ := hload
    exact (ih hrest).trans (storeAt_length hstore)

theorem length_fatBytes (hload : fatBytes blockDev b fatJunk = some t) : t.length = b.fatSize := by
  rw [loadFat_length hload, freshBytes, List.length_map, List.length_range]

/-- **The volume** of a filesystem that was mounted is the one that lookups and reads go
by, with the boot sector that the mount had in memory. -/
theorem volumeAt_of_mount (hfresh : m.Fresh h)
    (hmount : fat12Mount blockDev m bootJunk fatJunk h = some (some fsys, h')) :
    ∃ table, volumeAt h' fsys =
      some (mountedVolume blockDev (bootSector blockDev bootJunk) table) := by
  obtain ⟨table, -, hload, hmounted, -⟩ := fat12Mount_some hfresh hmount
  exact ⟨⟨table, length_fatBytes hload⟩, volumeAt_mounted hmounted (length_fatBytes hload)⟩

/-- A sector of the FAT that the device does not store leaves the block as it is. -/
theorem length_blkread_device (disk : Disk) (lba : Nat) :
    (blkread (some disk.device) lba []).2.length = if disk.Reads lba then 512 else 0 := by
  rw [disk.blkread_device]
  split
  · simp [overlay, (disk.blocks lba).2]
  · rfl

/-- One turn of the loop: the sector is stored, if it ends inside the block. -/
theorem loadFat_succ_isSome_iff (hlba : u32 (b.fatStart + i) = b.fatStart + i) :
    (∃ t, loadFat blockDev b i (n + 1) table = some t) ↔
      i * b.bytesPerSector.toNat + (blkread blockDev (b.fatStart + i) []).2.length ≤ table.length ∧
        ∀ table', storeAt table (i * b.bytesPerSector.toNat)
            (blkread blockDev (b.fatStart + i) []).2 = some table' →
          ∃ t, loadFat blockDev b (i + 1) n table' = some t := by
  rw [loadFat]
  simp only [hlba, Option.bind_eq_bind]
  unfold storeAt
  split
  case isTrue hin => simp [hin]
  case isFalse hout => simp [hout]

/-- The FAT is copied exactly when each of its sectors that the device stores ends inside
the block. -/
theorem loadFat_isSome_iff {disk : Disk}
    (hsize : (i + n) * b.bytesPerSector.toNat ≤ table.length) (hfat : i + n ≤ 2 ^ 16) :
    (∃ t, loadFat (some disk.device) b i n table = some t) ↔
      ∀ j, i ≤ j → j < i + n → disk.Reads (b.fatStart + j) →
        j * b.bytesPerSector.toNat + 512 ≤ table.length := by
  induction n generalizing i table with
  | zero => exact ⟨fun _ j hi hj => absurd hj (by omega), fun _ => ⟨table, rfl⟩⟩
  | succ n ih =>
    have hstart := b.dataAreaStart_lt
    have hlba : u32 (b.fatStart + i) = b.fatStart + i := by
      refine Nat.mod_eq_of_lt ?_
      unfold Fat12BootSector.dataAreaStart Fat12BootSector.rootDirStart at hstart
      omega
    have hoffset : i * b.bytesPerSector.toNat ≤ table.length :=
      Nat.le_trans (Nat.mul_le_mul_right _ (Nat.le_add_right i (n + 1))) hsize
    have hlen := length_blkread_device disk (b.fatStart + i)
    rw [loadFat_succ_isSome_iff hlba]
    constructor
    · rintro ⟨hin, hrest⟩ j hij hj hreads
      rcases Nat.eq_or_lt_of_le hij with rfl | hlt
      · rwa [hlen, if_pos hreads] at hin
      · obtain ⟨table', hstore⟩ := storeAt_of_le hin
        have hsame := storeAt_length hstore
        have hnext := (ih (i := i + 1) (by rw [hsame]; rwa [Nat.add_right_comm]) (by omega)).mp
          (hrest table' hstore) j hlt (by omega) hreads
        rwa [hsame] at hnext
    · intro hall
      refine ⟨?_, fun table' hstore => ?_⟩
      · rw [hlen]
        split
        case isTrue hreads => exact hall i (Nat.le_refl i) (by omega) hreads
        case isFalse => exact hoffset
      · have hsame := storeAt_length hstore
        refine (ih (i := i + 1) (by rw [hsame]; rwa [Nat.add_right_comm]) (by omega)).mpr ?_
        intro j hij hj hreads
        rw [hsame]
        exact hall j (by omega) (by omega) hreads

end LoadFat

end OnHeap

end Leenix
