import Leenix.Fs.Sequential
import Leenix.Fs.Survival
import Leenix.Lib.Requests

/-!
# The file system as a program of reads

The functions of fs/fat12.c and fs/vfs.c that read blocks, with the device left open: each
call of `blkread` is a request. With the answers of a block device they are the functions
that were verified on it.

- `answeredBy_fat12Mount`, `answeredBy_fat12Open`, `answeredBy_readAll`.
- `readFile`: mounting, opening and reading a file, one after the other.
-/

namespace Leenix

/-- A program that reads blocks. A request has the block number and the buffer, an answer
what `blkread` returns and the buffer after. -/
abbrev BlockReads := Requests (UInt32 × List Byte) (Int × List Byte)

/-- The answers of a block device. -/
def blockOf (dev : Option BlockDevice) (call : UInt32 × List Byte) : Int × List Byte :=
  blkread dev call.1.toNat call.2

namespace OnDrive

open OnHeap (Blocks FsHeap freshBytes storeAt mountHandle rootVnode rootInode volumeAt)

/-- A call of `blkread` (block.c:108–123). -/
def blkread (lba : Nat) (buffer : List Byte) : BlockReads (Int × List Byte) :=
  .send (.ofNat lba, buffer)

/-! ## Mounting -/

/-- The loop that reads the FAT (fat12.c:304–309) from sector `i` on, `n` left. -/
def loadFat (b : Fat12BootSector) : Nat → Nat → List Byte → BlockReads (List Byte)
  | _, 0, table => return table
  | i, n + 1, table => do
    let (_, stored) ← blkread (u32 (b.fatStart + i)) []
    let table ← .ofOption (storeAt table (i * b.bytesPerSector.toNat) stored)
    loadFat b (i + 1) n table

/-- The exits that give up. -/
def giveUp (h : FsHeap) (ps : List Ptr) : BlockReads (Option Ptr × FsHeap) :=
  .ofOption (OnHeap.giveUp h ps)

/-- `fat12_mount` (fat12.c:247–364), where the device was found or not. -/
def fat12Mount (blockDev : Option BlockDevice) (m : Blocks) (bootJunk fatJunk : Nat → Byte)
    (h : FsHeap) : BlockReads (Option Ptr × FsHeap) :=
  match m.fs with
  | none => return (none, h)
  | some fs =>
    let h := h.insert fs .fresh
    match m.bootsector with
    | none => giveUp h [fs]
    | some bootsector =>
      let h := h.insert bootsector (.bytes (freshBytes bootJunk 512))
      if blockDev.isNone then giveUp h [bootsector, fs]
      else do
        let (_, boot) ← blkread 0 (freshBytes bootJunk 512)
        let h ← .ofOption (store h bootsector (.bytes boot))
        let b := Fat12BootSector.ofBytes boot
        if b.bytesPerSector = 0 then .stuck
        else
          let h ← .ofOption (store h fs (.handle (mountHandle blockDev b bootsector m.fatTable)))
          match m.fatTable with
          | none => giveUp h [bootsector, fs]
          | some fatTable =>
            let h := h.insert fatTable (.bytes (freshBytes fatJunk b.fatSize))
            let table ← loadFat b 0 b.sectorsPerFat.toNat (freshBytes fatJunk b.fatSize)
            let h ← .ofOption (store h fatTable (.bytes table))
            match m.fsys with
            | none => giveUp h [fatTable, bootsector, fs]
            | some fsys =>
              let h := h.insert fsys (.vfs ⟨some fs, none, m.vroot⟩)
              let vroot ← .ofOption m.vroot
              let h := h.insert vroot (.vnode (rootVnode fsys none))
              let inode ← .ofOption m.rootInode
              let h := h.insert inode (.inode (rootInode b))
              let h ← .ofOption (store h vroot (.vnode (rootVnode fsys (some inode))))
              return (some fsys, h)

/-! ## Opening -/

/-- The sectors of the root directory from `s` on, `n` left (fat12.c:170–236). -/
def scanSectors (fs : Fat12Volume) (fatName : List Byte) :
    Nat → Nat → List Byte → BlockReads (Option (Nat × Nat × List Byte))
  | _, 0, _ => return none
  | s, n + 1, dirEntries => do
    let sector := u32 (fs.rootDirStart + s)
    let (_, dirEntries) ← blkread sector dirEntries
    match scanEntries fatName dirEntries 0 16 with
    | .ended => return none
    | .found i => return some (sector, i, dirEntryAt dirEntries i)
    | .notFound => scanSectors fs fatName (s + 1) n dirEntries

/-- `_fat12_lookup` (fat12.c:148–241). -/
def fat12Lookup (dirNode : Fat12Root) (name : List Byte) (env : LookupEnv) :
    BlockReads (Option Fat12Node) :=
  if strcmp dirNode.name (terminated [slashByte]) ≠ some 0 then return none
  else
    match dirNode.fs with
    | none => return none
    | some fs => do
      match ← scanSectors fs (fat12NormalTo8_3 name) 0 fs.rootDirSectors env.dirEntries with
      | none => return none
      | some (sector, i, entry) =>
        if !env.vnode then return none
        else if !env.inode then return none
        else
          return some
            { name := nameField name
              type := if byteOf entry 11 &&& fat12Dir ≠ 0 then .directory else .file
              flags := 0
              dirEntry := entry
              dirSector := sector
              dirOffset := i
              fs := dirNode.fs }

/-- `fat12_open` (fat12.c:399–422). -/
def fat12Open (node : Option Fat12Root) (path : Option (List Byte)) (env : LookupEnv) :
    BlockReads (Option Fat12Node) :=
  match node, path with
  | some root, some path => if path.length = 0 then return none else fat12Lookup root path env
  | _, _ => return none

/-! ## Reading -/

/-- The loop of `fat12_read` (fat12.c:488–519) from iteration `i` on, `n` left of
`clustersToRead`. -/
def readClusters (fs : Fat12Handle) (offs size clustersToRead : Nat) :
    Nat → Nat → Nat → List Byte → BlockReads (List Byte)
  | _, 0, _, _ => return []
  | i, n + 1, currCluster, readBuf => do
    let fentry ← .ofOption (fs.getFentry currCluster)
    let lba := fs.clusterToLba currCluster
    let (_, readBuf) ← blkread lba readBuf
    let copyStart := if i = 0 then offs % fs.bytesPerCluster else 0
    let copyEnd :=
      if i + 1 = clustersToRead then u32 (offs + size) % fs.bytesPerCluster
      else fs.bytesPerCluster
    let copyEnd := if copyEnd = 0 then fs.bytesPerCluster else copyEnd
    if copyEnd < copyStart then .stuck
    else
      let bytes := (readBuf.drop copyStart).take (copyEnd - copyStart)
      if fat12EocMin ≤ currCluster then return bytes
      else return bytes ++ (← readClusters fs offs size clustersToRead (i + 1) n fentry readBuf)

/-- `fat12_read` (fat12.c:425–523). -/
def fat12Read (node : Option Fat12Vnode) (offs size : Nat) (bufIsNull : Bool)
    (readBuf : Option (List Byte)) : BlockReads (Int × List Byte) :=
  match node.bind Fat12Vnode.inode with
  | none => return (-1, [])
  | some inode =>
    if bufIsNull ∨ size = 0 then return (-1, [])
    else
      match node.bind Fat12Vnode.fs with
      | none => return (-1, [])
      | some fs =>
        if inode.attributes &&& fat12Dir ≠ 0 then return (-1, [])
        else if inode.fileSize ≤ offs then return (0, [])
        else
          let size := if inode.fileSize < u32 (offs + size) then inode.fileSize - offs else size
          let bytesPerCluster := fs.bytesPerCluster
          if bytesPerCluster = 0 then .stuck
          else
            let startCluster := u16 (inode.firstClusterLow + offs / bytesPerCluster)
            let wanted := u32 (offs % bytesPerCluster + size)
            let clustersToRead :=
              u16 (wanted / bytesPerCluster + if wanted % bytesPerCluster = 0 then 0 else 1)
            match readBuf with
            | none => return (-1, [])
            | some readBuf => do
              let stored ←
                readClusters fs offs size clustersToRead 0 clustersToRead startCluster readBuf
              return (i32 size, stored)

/-- `vfs_read` (vfs.c:171–190) on a file at `offset`. -/
def vfsReadAt (read : Nat → Nat → BlockReads (Int × List Byte)) (offset : Nat) (bufIsNull : Bool)
    (size : Nat) : BlockReads (Int × List Byte × Nat) :=
  if bufIsNull ∨ size = 0 then return (-1, [], offset)
  else do
    let (bytesRead, bytes) ← read offset size
    return (bytesRead, bytes, if 0 < bytesRead then u32 (offset + bytesRead.toNat) else offset)

/-- Calls of `vfs_read` one after the other. -/
def readAll (node : Fat12Vnode) : Nat → List ReadCall → BlockReads (List (Int × List Byte) × Nat)
  | offset, [] => return ([], offset)
  | offset, call :: calls => do
    let (bytesRead, bytes, offset) ← vfsReadAt
      (fun offs size => fat12Read (some node) offs size false (some call.readBuf)) offset false
      call.size
    let (results, last) ← readAll node offset calls
    return ((bytesRead, bytes) :: results, last)

/-- `fat12_mount`, `fat12_open` of a name, and calls of `vfs_read` on the open file. The
result is absent where a pointer is null. -/
def readFile (blockDev : Option BlockDevice) (m : Blocks) (bootJunk fatJunk : Nat → Byte)
    (h : FsHeap) (name : List Byte) (env : LookupEnv) (calls : List ReadCall) :
    BlockReads (Option (List (Int × List Byte) × Nat)) := do
  match ← fat12Mount blockDev m bootJunk fatJunk h with
  | (none, _) => return none
  | (some fsys, h) =>
    let fs ← .ofOption (volumeAt h fsys)
    match ← fat12Open (some (rootOf fs)) (some name) env with
    | none => return none
    | some node => return some (← readAll node.vnode 0 calls)

/-! ## With a device -/

section Answers

variable {dev : Option BlockDevice}

/-- A block number of 32 bits is what the device gets. -/
theorem answeredBy_blkread {lba : Nat} (hlba : lba < 2 ^ 32) (buffer : List Byte) :
    (blkread lba buffer).answeredBy (blockOf dev) = some (Leenix.blkread dev lba buffer) := by
  have hsame : (UInt32.ofNat lba).toNat = lba := UInt32.toNat_ofNat_of_lt' hlba
  rw [blkread, Requests.answeredBy_send, blockOf, hsame]

theorem u32_lt (n : Nat) : u32 n < 2 ^ 32 := Nat.mod_lt _ (by decide)

theorem clusterToLba_lt (fs : Fat12Handle) (cluster : Nat) : fs.clusterToLba cluster < 2 ^ 32 := by
  unfold Fat12Handle.clusterToLba
  split
  · decide
  · exact u32_lt _

theorem answeredBy_loadFat (b : Fat12BootSector) (i n : Nat) (table : List Byte) :
    (loadFat b i n table).answeredBy (blockOf dev) = OnHeap.loadFat dev b i n table := by
  induction n generalizing i table with
  | zero => rfl
  | succ n ih =>
    rw [loadFat, Requests.answeredBy_bind, answeredBy_blkread (u32_lt _)]
    simp [OnHeap.loadFat, ih]

theorem answeredBy_fat12Mount (m : Blocks) (bootJunk fatJunk : Nat → Byte) (h : FsHeap) :
    (fat12Mount dev m bootJunk fatJunk h).answeredBy (blockOf dev) =
      OnHeap.fat12Mount dev m bootJunk fatJunk h := by
  obtain ⟨fs, bootsector, fatTable, fsys, vroot, inode⟩ := m
  cases fs with
  | none => rfl
  | some fs =>
  cases bootsector with
  | none => simp [fat12Mount, OnHeap.fat12Mount, giveUp]
  | some bootsector =>
  cases hdev : dev.isNone with
  | true => simp [fat12Mount, OnHeap.fat12Mount, giveUp, hdev]
  | false =>
    simp only [fat12Mount, OnHeap.fat12Mount, hdev, Bool.false_eq_true, if_false]
    rw [Requests.answeredBy_bind, answeredBy_blkread (by decide)]
    simp only [Option.bind_some, Requests.answeredBy_bind, Requests.answeredBy_ofOption]
    refine congrArg _ (funext fun h => ?_)
    split
    · rfl
    · rw [Requests.answeredBy_bind, Requests.answeredBy_ofOption]
      refine congrArg _ (funext fun h => ?_)
      cases fatTable with
      | none => simp [giveUp]
      | some fatTable =>
        simp only [Requests.answeredBy_bind, Requests.answeredBy_ofOption, answeredBy_loadFat]
        refine congrArg _ (funext fun table => congrArg _ (funext fun h => ?_))
        cases fsys with
        | none => simp [giveUp]
        | some fsys => simp

theorem answeredBy_scanSectors {fs : Fat12Volume} (hdev : fs.blockDev = dev) (fatName : List Byte)
    (s n : Nat) (dirEntries : List Byte) :
    (scanSectors fs fatName s n dirEntries).answeredBy (blockOf dev) =
      some (Leenix.scanSectors fs fatName s n dirEntries) := by
  induction n generalizing s dirEntries with
  | zero => rfl
  | succ n ih =>
    rw [scanSectors, Requests.answeredBy_bind, answeredBy_blkread (u32_lt _), Leenix.scanSectors, hdev]
    simp only [Option.bind_some]
    split <;> simp [*]

theorem answeredBy_fat12Open {root : Fat12Root} (hdev : ∀ fs ∈ root.fs, fs.blockDev = dev)
    (path : Option (List Byte)) (env : LookupEnv) :
    (fat12Open (some root) path env).answeredBy (blockOf dev) =
      some (Leenix.fat12Open (some root) path env) := by
  cases path with
  | none => rfl
  | some path =>
    simp only [fat12Open, Leenix.fat12Open, fat12Lookup, Leenix.fat12Lookup]
    split
    · rfl
    split
    · rfl
    cases hfs : root.fs with
    | none => rfl
    | some fs =>
      simp only
      rw [Requests.answeredBy_bind, answeredBy_scanSectors (hdev fs hfs)]
      simp only [Option.bind_some]
      cases Leenix.scanSectors fs (fat12NormalTo8_3 path) 0 fs.rootDirSectors env.dirEntries with
      | none => rfl
      | some found =>
        simp only
        split
        · rfl
        · split <;> rfl

theorem answeredBy_readClusters {fs : Fat12Handle} (hdev : fs.blockDev = dev)
    (offs size clustersToRead i n currCluster : Nat) (readBuf : List Byte) :
    (readClusters fs offs size clustersToRead i n currCluster readBuf).answeredBy (blockOf dev) =
      fs.readClusters offs size clustersToRead i n currCluster readBuf := by
  induction n generalizing i currCluster readBuf with
  | zero => rfl
  | succ n ih =>
    rw [readClusters, Fat12Handle.readClusters, Requests.answeredBy_bind,
      Requests.answeredBy_ofOption]
    refine congrArg _ (funext fun fentry => ?_)
    rw [Requests.answeredBy_bind, answeredBy_blkread (clusterToLba_lt _ _), hdev]
    simp only [Option.bind_some]
    rw [apply_ite (Requests.answeredBy _), apply_ite (Requests.answeredBy _),
      Requests.answeredBy_bind, ih]
    rfl

theorem answeredBy_fat12Read {node : Fat12Vnode} (hdev : ∀ fs ∈ node.fs, fs.blockDev = dev)
    (offs size : Nat) (bufIsNull : Bool) (readBuf : Option (List Byte)) :
    (fat12Read (some node) offs size bufIsNull readBuf).answeredBy (blockOf dev) =
      Leenix.fat12Read (some node) offs size bufIsNull readBuf := by
  obtain ⟨inode, fs⟩ := node
  cases inode with
  | none => rfl
  | some inode =>
  simp only [fat12Read, Leenix.fat12Read, Option.bind_some]
  split
  · rfl
  cases fs with
  | none => rfl
  | some fs =>
  simp only
  split
  · rfl
  split
  · rfl
  split
  · rfl
  cases readBuf with
  | none => rfl
  | some readBuf =>
    rw [Requests.answeredBy_bind, answeredBy_readClusters (hdev fs rfl)]
    rfl

theorem answeredBy_vfsReadAt {read : Nat → Nat → BlockReads (Int × List Byte)}
    {read' : Nat → Nat → Option (Int × List Byte)}
    (hread : ∀ offs size, (read offs size).answeredBy (blockOf dev) = read' offs size)
    (offset : Nat) (bufIsNull : Bool) (size : Nat) :
    (vfsReadAt read offset bufIsNull size).answeredBy (blockOf dev) =
      Leenix.vfsReadAt read' offset bufIsNull size := by
  rw [vfsReadAt, Leenix.vfsReadAt]
  split
  · rfl
  · rw [Requests.answeredBy_bind, hread]
    rfl

theorem answeredBy_readAll {node : Fat12Vnode} (hdev : ∀ fs ∈ node.fs, fs.blockDev = dev)
    (offset : Nat) (calls : List ReadCall) :
    (readAll node offset calls).answeredBy (blockOf dev) = Leenix.readAll node offset calls := by
  induction calls generalizing offset with
  | nil => rfl
  | cons call calls ih =>
    rw [readAll, Leenix.readAll, Requests.answeredBy_bind,
      answeredBy_vfsReadAt fun offs size => answeredBy_fat12Read hdev offs size false _]
    refine congrArg _ (funext fun result => ?_)
    rw [Requests.answeredBy_bind, ih]
    rfl

end Answers

end OnDrive

end Leenix
