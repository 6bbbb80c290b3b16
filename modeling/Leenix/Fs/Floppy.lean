import Leenix.Driver.FdcServer
import Leenix.Fs.OnDrive

/-!
# Reading a file from a diskette

The whole way of a file: `fat12_mount`, `fat12_open` and `vfs_read` over the block layer, over
the floppy driver, over the ports of the board.

- `HoldsFile`: what the blocks of a disk are when it has the file.
- `loadFat_holding`: the copy of the FAT.
- `answeredBy_readFile`: the file is read from a device with these blocks.
- `floppy_delivers`: and from the machine with the diskette in it.
-/

namespace Leenix

open OnHeap (Blocks FsHeap volumeAt onDisk)

/-! ## A disk with a file -/

namespace Disk

variable (disk : Disk)

/-- The first FAT. -/
def fat : List Byte :=
  (List.range (onDisk disk).sectorsPerFat.toNat).flatMap fun i =>
    disk.blocks ((onDisk disk).fatBegin + i)

/-- The entries of the root directory. -/
def directory : List (List Byte) :=
  entriesOf ((List.range (onDisk disk).rootDirLength).map fun s =>
    disk.blocks ((onDisk disk).rootDirBegin + s))

/-- The volume, with its clusters where the boot sector says. -/
def handle : Fat12Handle where
  blockDev := some disk.device
  bpb := ⟨(onDisk disk).bytesPerSector.toNat, (onDisk disk).sectorsPerCluster.toNat⟩
  fatTable := disk.fat
  dataAreaStart := (onDisk disk).dataAreaBegin

/-- The disk has a volume with sectors of 512 bytes and one of them to a cluster, all of which
can be read, and `e` is the first entry of the name: a file in `count` consecutive
clusters. The hidden sectors and the root directory are such that the driver finds the
regions. -/
structure HoldsFile (name e : List Byte) (count : Nat) : Prop where
  bytesPerSector : (onDisk disk).bytesPerSector = 512
  sectorsPerCluster : (onDisk disk).sectorsPerCluster = 1
  hiddenSectors_lt : (onDisk disk).hiddenSectors.toNat < 2 ^ 8
  fillsSectors : 16 ∣ (onDisk disk).maxRootDirEntries.toNat
  readable : disk.fails = fun _ => false
  numBlocks_pos : 0 < disk.numBlocks
  numBlocks_le : disk.numBlocks ≤ 2 ^ 32
  fat_le : (onDisk disk).fatBegin + (onDisk disk).sectorsPerFat.toNat ≤ disk.numBlocks
  root_le : (onDisk disk).rootDirBegin + (onDisk disk).rootDirLength ≤ disk.numBlocks
  nonempty : name ≠ []
  listed : ∃ k, FirstListed (fat12NormalTo8_3 name) disk.directory k ∧ disk.directory[k]? = some e
  file : byteOf e 11 &&& fat12Dir = 0
  consecutive : disk.handle.Consecutive disk.numBlocks (le16 e 26) count
  size_le : le32 e 28 ≤ 512 * count

/-- The bytes of the file. -/
def content (e : List Byte) (count : Nat) : List Byte :=
  disk.handle.fileContent (fun lba => disk.blocks lba) (le16 e 26) count (le32 e 28)

end Disk

/-! ## Mounting it -/

section Mount

variable {numBlocks : Nat} {blocks : Nat → List Byte} {b : Fat12BootSector}

/-- The copy of the FAT, from sector `i` on. -/
theorem loadFat_holding (hblocks : ∀ lba, (blocks lba).length = 512)
    (hsectors : b.bytesPerSector = 512) {i n : Nat} (hin : b.fatStart + (i + n) ≤ numBlocks)
    (hfat : i + n ≤ 2 ^ 16) {copied rest : List Byte} (hcopied : copied.length = i * 512)
    (hrest : rest.length = n * 512) :
    OnHeap.loadFat (some (.holding numBlocks blocks)) b i n (copied ++ rest) =
      some (copied ++ (List.range' i n).flatMap fun j => blocks (b.fatStart + j)) := by
  induction n generalizing i copied rest with
  | zero =>
    obtain rfl := List.eq_nil_of_length_eq_zero (by simpa using hrest)
    simp [OnHeap.loadFat]
  | succ n ih =>
    have hstart := b.dataAreaStart_lt
    have hlba : u32 (b.fatStart + i) = b.fatStart + i := by
      refine Nat.mod_eq_of_lt ?_
      unfold Fat12BootSector.dataAreaStart Fat12BootSector.rootDirStart at hstart
      omega
    have hread : blkread (some (.holding numBlocks blocks)) (b.fatStart + i) [] =
        (0, blocks (b.fatStart + i)) := by
      have hnot : ¬numBlocks ≤ b.fatStart + i := by omega
      simp [blkread, BlockDevice.holding, hnot, overlay]
    have hoffset : i * b.bytesPerSector.toNat = copied.length := by
      rw [hsectors, hcopied]
      rfl
    have hstore : OnHeap.storeAt (copied ++ rest) (i * b.bytesPerSector.toNat)
        (blocks (b.fatStart + i)) =
        some (copied ++ blocks (b.fatStart + i) ++ rest.drop 512) := by
      rw [OnHeap.storeAt, if_pos, hoffset]
      · simp [hblocks, List.drop_append, Nat.add_comm]
      · rw [List.length_append, hblocks, hoffset, hrest]
        omega
    rw [OnHeap.loadFat, hlba, hread]
    simp only [hstore, Option.bind_eq_bind, Option.bind_some]
    rw [ih (by omega) (by omega) (by simp [hcopied, hblocks]; omega) (by simp [hrest]; omega),
      List.range'_succ, List.flatMap_cons, List.append_assoc]

end Mount

namespace Disk

variable {disk : Disk} {name e : List Byte} {count : Nat}

/-- A disk without unreadable blocks. -/
theorem device_eq_holding (hreadable : disk.fails = fun _ => false) :
    disk.device = .holding disk.numBlocks fun lba => disk.blocks lba := by
  simp [device, BlockDevice.holding, hreadable]

theorem length_blocks (disk : Disk) (lba : Nat) : (disk.blocks lba).1.length = 512 :=
  (disk.blocks lba).2

namespace HoldsFile

variable (hfile : disk.HoldsFile name e count)
include hfile

theorem device_eq : disk.device = .holding disk.numBlocks fun lba => disk.blocks lba :=
  device_eq_holding hfile.readable

theorem fatStart_eq : (onDisk disk).fatStart = (onDisk disk).fatBegin :=
  Fat12BootSector.fatStart_eq hfile.hiddenSectors_lt

theorem rootDirStart_eq : (onDisk disk).rootDirStart = (onDisk disk).rootDirBegin :=
  Fat12BootSector.rootDirStart_eq hfile.hiddenSectors_lt

theorem rootDirSectors_eq : (onDisk disk).rootDirSectors = (onDisk disk).rootDirLength :=
  Fat12BootSector.rootDirSectors_eq hfile.bytesPerSector hfile.fillsSectors

theorem dataAreaStart_eq : (onDisk disk).dataAreaStart = (onDisk disk).dataAreaBegin :=
  Fat12BootSector.dataAreaStart_eq hfile.hiddenSectors_lt hfile.bytesPerSector hfile.fillsSectors

theorem singleSector : disk.handle.SingleSector where
  bytesPerSector := congrArg UInt16.toNat hfile.bytesPerSector
  sectorsPerCluster := congrArg UInt8.toNat hfile.sectorsPerCluster

/-- The mount copies the FAT of the disk. -/
theorem fatBytes_eq (fatJunk : Nat → Byte) :
    OnHeap.fatBytes (some disk.device) (onDisk disk) fatJunk = some disk.fat := by
  have hlength : (OnHeap.freshBytes fatJunk (onDisk disk).fatSize).length =
      (onDisk disk).sectorsPerFat.toNat * 512 := by
    rw [OnHeap.freshBytes, List.length_map, List.length_range, Fat12BootSector.fatSize,
      hfile.bytesPerSector]
    rfl
  have hnil : ([] : List Byte).length = 0 * 512 := rfl
  have hin : (onDisk disk).fatStart + (0 + (onDisk disk).sectorsPerFat.toNat) ≤ disk.numBlocks := by
    rw [Nat.zero_add, hfile.fatStart_eq]
    exact hfile.fat_le
  have hload := loadFat_holding disk.length_blocks hfile.bytesPerSector hin
    (by rw [Nat.zero_add]; exact (onDisk disk).sectorsPerFat.toNat_lt.le) hnil hlength
  rw [OnHeap.fatBytes, hfile.device_eq, fat, ← hfile.fatStart_eq, List.range_eq_range']
  exact hload

/-- The mount succeeds, and its volume is the one on the disk. -/
theorem mounts {m : Blocks} {h : FsHeap} (hfresh : m.Fresh h) (hall : ∀ r ∈ m.results, r ≠ none)
    (bootJunk fatJunk : Nat → Byte) :
    ∃ fsys h' fs, OnHeap.fat12Mount (some disk.device) m bootJunk fatJunk h = some (some fsys, h') ∧
      volumeAt h' fsys = some fs ∧ fs.toFat12Handle = disk.handle ∧
      fs.rootDirStart = (onDisk disk).rootDirStart ∧
      fs.rootDirSectors = (onDisk disk).rootDirSectors := by
  have hread : disk.Reads 0 := ⟨hfile.numBlocks_pos, congrFun hfile.readable 0⟩
  have hfat := hfile.fatBytes_eq fatJunk
  have hsectors : (onDisk disk).bytesPerSector ≠ 0 := by
    rw [hfile.bytesPerSector]
    decide
  obtain ⟨hmounts, hcopied⟩ := OnHeap.fat12Mount_allocated bootJunk fatJunk hfresh hall hread
  obtain ⟨fsys, h', hmount⟩ := hmounts.mp (hcopied.mpr ⟨hsectors, _, hfat⟩)
  obtain ⟨table, -, hload, hmounted, -⟩ := OnHeap.fat12Mount_some hfresh hmount
  have hboot := OnHeap.bootSector_of_reads hread bootJunk
  have hlength := OnHeap.length_fatBytes hload
  rw [hboot, hfat] at hload
  obtain rfl := Option.some.inj hload
  refine ⟨fsys, h', _, hmount, OnHeap.volumeAt_mounted hmounted hlength, ?_⟩
  have hsame : Fat12BootSector.ofBytes (OnHeap.bootBytes (some disk.device) bootJunk) = onDisk disk :=
    hboot
  simp only [mountedVolume, fat12Mount, hsame, handle, hfile.dataAreaStart_eq, and_self]

/-- The name opens the entry. -/
theorem opens {fs : Fat12Volume} (hhandle : fs.toFat12Handle = disk.handle)
    (hstart : fs.rootDirStart = (onDisk disk).rootDirStart)
    (hsectors : fs.rootDirSectors = (onDisk disk).rootDirSectors) {env : LookupEnv}
    (hvnode : env.vnode = true) (hinode : env.inode = true) (hentries : env.dirEntries.length = 512) :
    ∃ node, fat12Open (some (rootOf fs)) (some name) env = some node ∧
      node.vnode = ⟨some (.ofBytes e), some disk.handle⟩ := by
  obtain ⟨k, hfirst, he⟩ := hfile.listed
  have hdev : fs.blockDev = some disk.device := congrArg Fat12Handle.blockDev hhandle
  have hroot : rootEntries fs env.dirEntries = disk.directory := by
    have hbuffers := sectorBuffers_congr fs (mountedVolume (some disk.device) (onDisk disk)
      ⟨List.replicate (onDisk disk).fatSize 0, List.length_replicate⟩) hdev hstart 0
      (onDisk disk).rootDirSectors env.dirEntries
    rw [hfile.device_eq] at hbuffers
    rw [rootEntries, hsectors, hbuffers, sectorBuffers_holding disk.length_blocks hentries
      (by rw [Nat.zero_add, hfile.rootDirStart_eq, hfile.rootDirSectors_eq]; exact hfile.root_le)
      (Nat.zero_add _).le, ← List.range_eq_range', hfile.rootDirSectors_eq, directory,
      ← hfile.rootDirStart_eq]
  rw [← hroot] at hfirst he
  rw [LookupEnv.eq_of_allocated hvnode hinode]
  refine ⟨_, fat12Open_of_first (hdev ▸ disk.readsBlocks) hentries hfile.nonempty hfirst he, ?_⟩
  rw [← hhandle]
  rfl

/-- The file is read from front to back. -/
theorem reads {calls : List ReadCall}
    (hcalls : ∀ call ∈ calls, 0 < call.size ∧ call.readBuf.length = 512)
    (hrange : ∀ i (hi : i < calls.length),
      min (le32 e 28) ((calls.map ReadCall.size).take i).sum + calls[i].size < 2 ^ 32) :
    ∃ results, readAll ⟨some (.ofBytes e), some disk.handle⟩ 0 calls =
        some (results, min (le32 e 28) (calls.map ReadCall.size).sum) ∧
      results.length = calls.length ∧
      (∀ i (hi : i < calls.length), results[i]? =
        some (((min calls[i].size (le32 e 28 - ((calls.map ReadCall.size).take i).sum) : Nat) : Int),
          ((disk.content e count).drop ((calls.map ReadCall.size).take i).sum).take calls[i].size)) ∧
      results.flatMap Prod.snd = (disk.content e count).take (calls.map ReadCall.size).sum := by
  have hsame : disk.handle = disk.handle.onDevice disk.numBlocks fun lba => disk.blocks lba := by
    rw [Fat12Handle.onDevice, ← hfile.device_eq]
    rfl
  rw [hsame]
  have hregular : (Fat12DirEntry.ofBytes e).attributes &&& fat12Dir = 0 := hfile.file
  exact readAll_sequential hfile.singleSector hfile.numBlocks_le disk.length_blocks hregular
    hfile.consecutive hfile.size_le hcalls hrange

/-- **The file of a disk** is read by mounting, opening and reading. -/
theorem answeredBy_readFile {m : Blocks} {h : FsHeap} (hfresh : m.Fresh h)
    (hall : ∀ r ∈ m.results, r ≠ none) (bootJunk fatJunk : Nat → Byte) {env : LookupEnv}
    (hvnode : env.vnode = true) (hinode : env.inode = true) (hentries : env.dirEntries.length = 512)
    {calls : List ReadCall} {results : List (Int × List Byte)} {last : Nat}
    (hreads : readAll ⟨some (.ofBytes e), some disk.handle⟩ 0 calls = some (results, last)) :
    (OnDrive.readFile (some disk.device) m bootJunk fatJunk h name env calls).answeredBy
      (blockOf (some disk.device)) = some (some (results, last)) := by
  obtain ⟨fsys, h', fs, hmount, hvolume, hhandle, hstart, hsectors⟩ :=
    hfile.mounts hfresh hall bootJunk fatJunk
  obtain ⟨node, hopen, hvnode⟩ := hfile.opens hhandle hstart hsectors hvnode hinode hentries
  have hdev : ∀ fs' ∈ (rootOf fs).fs, fs'.blockDev = some disk.device := by
    intro fs' hfs'
    obtain rfl := Option.some.inj hfs'
    exact congrArg Fat12Handle.blockDev hhandle
  have hnode : ∀ fs' ∈ node.vnode.fs, fs'.blockDev = some disk.device := by
    rw [hvnode]
    intro fs' hfs'
    obtain rfl := Option.some.inj hfs'
    rfl
  have hall : (OnDrive.readAll node.vnode 0 calls).answeredBy (blockOf (some disk.device)) =
      some (results, last) := by
    rw [OnDrive.answeredBy_readAll hnode, hvnode, hreads]
  rw [OnDrive.readFile, Requests.answeredBy_bind, OnDrive.answeredBy_fat12Mount, hmount]
  simp only [Option.bind_some, Requests.answeredBy_bind, Requests.answeredBy_ofOption, hvolume,
    OnDrive.answeredBy_fat12Open hdev, hopen, hall, Requests.answeredBy_pure]

end HoldsFile

end Disk

/-! ## From the machine -/

section Machine

open FdcPorts (onMachine latchedBlock)

/-- The blocks of a diskette. -/
def Diskette.asDisk (disk : Diskette) : Disk where
  numBlocks := 2880
  blocks := fun n => (disk.block n).getD ⟨List.replicate 512 0, length_zeroBlock⟩
  fails := fun _ => false

theorem Diskette.asDisk_reads_iff (disk : Diskette) (n : Nat) : disk.asDisk.Reads n ↔ n < 2880 :=
  and_iff_left rfl

theorem Diskette.asDisk_blocks {disk : Diskette} {n : Nat}
    {bytes : { bytes : List Byte // bytes.length = 512 }} (hblock : disk.block n = some bytes) :
    disk.asDisk.blocks n = bytes := by
  simp only [asDisk, hblock, Option.getD_some]

/-- A diskette without unreadable blocks answers as its blocks do. -/
theorem latchedBlock_eq {disk : Diskette} (hreadable : ∀ n, n < 2880 → (disk.block n).isSome)
    (last : List Byte) (call : UInt32 × List Byte) :
    (latchedBlock disk last call).1 = blockOf (some disk.asDisk.device) call := by
  obtain ⟨lba, buffer⟩ := call
  rw [blockOf, disk.asDisk.blkread_device, latchedBlock]
  by_cases hout : 2880 ≤ lba
  · have hlba : ¬lba.toNat < 2880 := Nat.not_lt.mpr (UInt32.le_iff_toNat_le.mp hout)
    rw [if_pos hout, if_neg (mt (disk.asDisk_reads_iff _).mp hlba)]
  · have hlba : lba.toNat < 2880 := Nat.not_le.mp fun h => hout (UInt32.le_iff_toNat_le.mpr h)
    obtain ⟨bytes, hblock⟩ := Option.isSome_iff_exists.mp (hreadable lba.toNat hlba)
    rw [if_neg hout, if_pos ((disk.asDisk_reads_iff _).mpr hlba), Diskette.asDisk_blocks hblock, hblock]
    rfl

variable (disks : Nat → Diskette) {latency : Nat → Nat} (drive : Fdc.Drive) {m : FloppyMachine}

/-- **From the ports to the file.** From any state of the controllers, whatever the fresh
memory holds and however the file is cut into requests: after a reset of the drive, mounting,
opening and reading store the bytes of the file that is on the diskette, once and in order. The
motor is off then, and the controllers wrote no memory but the DMA buffer. -/
theorem floppy_delivers (hlatency : ∀ k, latency k < 500) (hbusy : m.busy < 500)
    (htrack : m.board.track drive.1.toNat ≤ 79) (hdma : (m.board.dma 0).disabled = false)
    (hreadable : ∀ n, n < 2880 → ((disks drive.1.toNat).block n).isSome)
    {name e : List Byte} {count : Nat}
    (hfile : (disks drive.1.toNat).asDisk.HoldsFile name e count)
    {blocks : Blocks} {h : FsHeap} (hfresh : blocks.Fresh h)
    (hall : ∀ r ∈ blocks.results, r ≠ none) (bootJunk fatJunk : Nat → Byte) {env : LookupEnv}
    (hvnode : env.vnode = true) (hinode : env.inode = true) (hentries : env.dirEntries.length = 512)
    {calls : List ReadCall} (hcalls : ∀ call ∈ calls, 0 < call.size ∧ call.readBuf.length = 512)
    (hrange : ∀ i (hi : i < calls.length),
      min (le32 e 28) ((calls.map ReadCall.size).take i).sum + calls[i].size < 2 ^ 32) :
    ∃ m' results,
      onMachine disks drive (OnDrive.readFile (some (disks drive.1.toNat).asDisk.device) blocks
        bootJunk fatJunk h name env calls) latency m =
        some (some (results, min (le32 e 28) (calls.map ReadCall.size).sum), m') ∧
      m'.board.dor = 0x0C ∧
      (∀ addr, addr < 0x1000 ∨ 0x1200 ≤ addr → m'.board.ram addr = m.board.ram addr) ∧
      results.length = calls.length ∧
      (∀ i (hi : i < calls.length), results[i]? =
        some (((min calls[i].size (le32 e 28 - ((calls.map ReadCall.size).take i).sum) : Nat) : Int),
          (((disks drive.1.toNat).asDisk.content e count).drop
            ((calls.map ReadCall.size).take i).sum).take calls[i].size)) ∧
      results.flatMap Prod.snd =
        ((disks drive.1.toNat).asDisk.content e count).take (calls.map ReadCall.size).sum := by
  obtain ⟨results, hreads, hlength, heach, hbytes⟩ := hfile.reads hcalls hrange
  have hanswered := hfile.answeredBy_readFile hfresh hall bootJunk fatJunk hvnode hinode hentries
    hreads
  have hserve := Requests.serve_eq _ (latchedBlock_eq hreadable)
    (OnDrive.readFile (some (disks drive.1.toNat).asDisk.device) blocks bootJunk fatJunk h name env
      calls) (FdcPorts.buffer m.board)
  rw [hanswered] at hserve
  obtain ⟨⟨answer, last⟩, hserve, rfl⟩ := Option.map_eq_some_iff.mp hserve
  obtain ⟨m', hrun, hdor, -, hram⟩ :=
    (FdcPorts.fdc_serves disks drive _ hlatency hbusy htrack hdma).1 _ _ hserve
  exact ⟨m', results, hrun, hdor, hram, hlength, heach, hbytes⟩

/-- The FAT links cluster 2 to cluster 3, and the directory has the file `A` of 1000 bytes
there. -/
def fileFloppy : Diskette where
  block := fun n =>
    if n = 0 then some OnHeap.sampleBootBytes
    else if n = 1 then
      some ⟨[0xF0, 0xFF, 0xFF, 0x03, 0xF0, 0xFF] ++ List.replicate 506 0, by decide +kernel⟩
    else if n = 2 then
      some ⟨0x41 :: List.replicate 10 spaceByte ++ List.replicate 15 0 ++ [2, 0, 0xE8, 3, 0, 0] ++
        List.replicate 480 0, by decide +kernel⟩
    else some ⟨List.replicate 512 (.ofNat n), List.length_replicate⟩

theorem fileFloppy_onDisk : onDisk fileFloppy.asDisk = sampleBoot := OnHeap.ofBytes_sampleBootBytes

/-- Its entry. -/
def fileEntry : List Byte :=
  0x41 :: List.replicate 10 spaceByte ++ List.replicate 15 0 ++ [2, 0, 0xE8, 3, 0, 0]

theorem fileFloppy_holdsFile : fileFloppy.asDisk.HoldsFile [0x41] fileEntry 2 where
  bytesPerSector := by rw [fileFloppy_onDisk]; rfl
  sectorsPerCluster := by rw [fileFloppy_onDisk]; rfl
  hiddenSectors_lt := by rw [fileFloppy_onDisk]; decide
  fillsSectors := by rw [fileFloppy_onDisk]; decide
  readable := rfl
  numBlocks_pos := by decide
  numBlocks_le := by decide
  fat_le := by rw [fileFloppy_onDisk]; decide
  root_le := by rw [fileFloppy_onDisk]; decide
  nonempty := by decide
  listed := ⟨0, findListed_eq_some_iff.mp (by decide +kernel), by decide +kernel⟩
  file := by decide
  consecutive :=
    { first_ge := by decide
      first_lt := by decide
      links := ⟨by decide +kernel, some 3, by decide +kernel, by decide +kernel, none,
        by decide +kernel, rfl⟩
      readable := by decide +kernel }
  size_le := by decide

/-- It is read in three calls from a machine that hung, into memory that was never cleared. -/
theorem floppy_delivers_hung : ∃ m' results,
    onMachine (fun _ => fileFloppy) ⟨0, by decide⟩
      (OnDrive.readFile (some fileFloppy.asDisk.device) OnHeap.sampleBlocks (fun _ => 0xA5)
        (fun _ => 0xA5) ∅ [0x41] ⟨List.replicate 512 0xA5, true, true⟩ sampleCalls)
      (fun _ => 499) FdcPorts.hung = some (some (results, 1000), m') ∧
    results.flatMap Prod.snd = (fileFloppy.asDisk.content fileEntry 2).take 1205 := by
  have hcalls : ∀ call ∈ sampleCalls, 0 < call.size ∧ call.readBuf.length = 512 := by
    refine List.forall_mem_map.mpr fun size hsize => ⟨?_, List.length_replicate⟩
    show 0 < size
    revert size
    decide
  have hreadable : ∀ n, n < 2880 → (fileFloppy.block n).isSome := by
    intro n hn
    simp only [fileFloppy]
    split <;> [rfl; split <;> [rfl; split <;> rfl]]
  have hlatency : ∀ k : Nat, (fun _ => 499) k < 500 := fun _ => (by decide : 499 < 500)
  let env : LookupEnv := ⟨List.replicate 512 0xA5, true, true⟩
  have hentries : env.dirEntries.length = 512 := List.length_replicate
  obtain ⟨m', results, hrun, -, -, -, -, hbytes⟩ := floppy_delivers (fun _ => fileFloppy)
    ⟨0, by decide⟩ hlatency (by decide : FdcPorts.hung.busy < 500) (by decide) rfl
    hreadable fileFloppy_holdsFile (OnHeap.fresh_empty OnHeap.sampleBlocks (by decide)) (by decide)
    (fun _ => 0xA5) (fun _ => 0xA5) rfl rfl hentries hcalls (by decide)
  exact ⟨m', results, hrun, hbytes⟩

end Machine

end Leenix
