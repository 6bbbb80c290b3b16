import Leenix.Fs.Atomic

/-!
# Boot sectors that are survived

Nothing that `fat12_mount` reads from the boot sector is checked. The sector size is a
divisor, an allocation size and the distance between the sectors of the FAT copy, which
are stored 512 bytes each; the cluster size is a divisor of `fat12_read`.

`fat12Mount_survives_iff`: the disks on which this does no harm.
-/

namespace Leenix

/-- What `fat12_read` divides by, if it comes to a division. All its divisions are by
the number of bytes of a cluster. -/
def fat12ReadDivisor (node : Option Fat12Vnode) (offs size : Nat) (bufIsNull : Bool) : Option Nat :=
  match node.bind Fat12Vnode.inode with
  | none => none
  | some inode =>
    if bufIsNull ∨ size = 0 then none
    else
      match node.bind Fat12Vnode.fs with
      | none => none
      | some fs =>
        if inode.attributes &&& fat12Dir ≠ 0 then none
        else if inode.fileSize ≤ offs then none
        else some fs.bytesPerCluster

/-- A read divides if it is a request for bytes of a regular file. -/
theorem fat12ReadDivisor_eq (inode : Fat12DirEntry) (fs : Fat12Handle) (offs size : Nat)
    (bufIsNull : Bool) :
    fat12ReadDivisor (some ⟨some inode, some fs⟩) offs size bufIsNull =
      if (bufIsNull ∨ size = 0) ∨ inode.attributes &&& fat12Dir ≠ 0 ∨ inode.fileSize ≤ offs then none
      else some fs.bytesPerCluster := by
  unfold fat12ReadDivisor
  simp only [Option.bind_some]
  by_cases hnull : (bufIsNull : Prop) ∨ size = 0
  · rw [if_pos hnull, if_pos (.inl hnull)]
  by_cases hdir : inode.attributes &&& fat12Dir ≠ 0
  · rw [if_neg hnull, if_pos hdir, if_pos (.inr (.inl hdir))]
  by_cases hend : inode.fileSize ≤ offs
  · rw [if_neg hnull, if_neg hdir, if_pos hend, if_pos (.inr (.inr hend))]
  · rw [if_neg hnull, if_neg hdir, if_neg hend,
      if_neg (not_or.mpr ⟨hnull, not_or.mpr ⟨hdir, hend⟩⟩)]

/-- A read that comes to no division returns at once, and one that divides by zero has
no result. -/
theorem fat12Read_divisor (node : Option Fat12Vnode) (offs size : Nat) (bufIsNull : Bool)
    (readBuf : Option (List Byte)) :
    (fat12ReadDivisor node offs size bufIsNull = none →
        ∃ r, fat12Read node offs size bufIsNull readBuf = some (r, [])) ∧
      (fat12ReadDivisor node offs size bufIsNull = some 0 →
        fat12Read node offs size bufIsNull readBuf = none) := by
  unfold fat12ReadDivisor fat12Read
  cases node.bind Fat12Vnode.inode with
  | none => exact ⟨fun _ => ⟨-1, rfl⟩, fun h => (nomatch h)⟩
  | some inode =>
    by_cases hnull : (bufIsNull : Prop) ∨ size = 0
    · simp [hnull]
    cases node.bind Fat12Vnode.fs with
    | none => simp [hnull]
    | some fs =>
      by_cases hdir : inode.attributes &&& fat12Dir ≠ 0
      · simp [hnull, hdir]
      by_cases hend : inode.fileSize ≤ offs
      · simp [hnull, hdir, hend]
      · simp only [hnull, hdir, hend, if_false, reduceCtorEq, false_implies, true_and,
          Option.some.injEq]
        intro hzero
        rw [if_pos hzero]

/-- The vnode that a read is called with. -/
def Fat12Node.vnode (node : Fat12Node) : Fat12Vnode :=
  ⟨some (.ofBytes node.dirEntry), node.fs.map Fat12Volume.toFat12Handle⟩

/-- The directory depends on the device and on where the directory is. -/
theorem sectorBuffers_congr (fs fs' : Fat12Volume) (hdev : fs.blockDev = fs'.blockDev)
    (hstart : fs.rootDirStart = fs'.rootDirStart) (s n : Nat) (dirEntries : List Byte) :
    sectorBuffers fs s n dirEntries = sectorBuffers fs' s n dirEntries := by
  induction n generalizing s dirEntries with
  | zero => rfl
  | succ n ih => rw [sectorBuffers, sectorBuffers, hdev, hstart, ih]

namespace OnHeap

/-- The root directory of a disk, as a lookup sees it. -/
def rootDirectory (disk : Disk) (dirEntries : List Byte) : List (List Byte) :=
  rootEntries (mountedVolume (some disk.device) (onDisk disk)
    ⟨List.replicate (onDisk disk).fatSize 0, List.length_replicate⟩) dirEntries

/-- Some name stands for a regular file that is not empty. -/
def HasData (disk : Disk) : Prop :=
  ∃ name dirEntries k e, name ≠ [] ∧ 0 ∉ name ∧ dirEntries.length = 512 ∧
    FirstListed (fat12NormalTo8_3 name) (rootDirectory disk dirEntries) k ∧
    (rootDirectory disk dirEntries)[k]? = some e ∧ byteOf e 11 &&& 0x10 = 0 ∧ le32 e 28 ≠ 0

/-- Whatever fresh blocks hold: the mount neither divides by zero nor stores outside the
FAT copy, and no read of a file of the filesystem divides by zero. -/
def Survives (disk : Disk) (m : Blocks) (h : FsHeap) : Prop :=
  ∀ bootJunk fatJunk,
    (∃ r, fat12Mount (some disk.device) m bootJunk fatJunk h = some r) ∧
    ∀ fsys h' fs, fat12Mount (some disk.device) m bootJunk fatJunk h = some (some fsys, h') →
      volumeAt h' fsys = some fs → ∀ name env node, 0 ∉ name → env.dirEntries.length = 512 →
        fat12Open (some (rootOf fs)) (some name) env = some node →
        ∀ offs size bufIsNull, fat12ReadDivisor (some node.vnode) offs size bufIsNull ≠ some 0

variable {disk : Disk} {m : Blocks} {h : FsHeap} {bootJunk fatJunk : Nat → Byte}

theorem rootEntries_mountedVolume
    (table : { bytes : List Byte // bytes.length = (onDisk disk).fatSize }) (dirEntries : List Byte) :
    rootEntries (mountedVolume (some disk.device) (onDisk disk) table) dirEntries =
      rootDirectory disk dirEntries := by
  have hsame := sectorBuffers_congr (mountedVolume (some disk.device) (onDisk disk) table)
    (mountedVolume (some disk.device) (onDisk disk)
      ⟨List.replicate (onDisk disk).fatSize 0, List.length_replicate⟩) rfl rfl 0
    (onDisk disk).rootDirSectors dirEntries
  exact congrArg entriesOf hsame

theorem volumeAt_of_reads {h' : FsHeap} {fsys : Ptr} (hfresh : m.Fresh h) (hread : disk.Reads 0)
    (hmount : fat12Mount (some disk.device) m bootJunk fatJunk h = some (some fsys, h')) :
    ∃ table, volumeAt h' fsys =
      some (mountedVolume (some disk.device) (onDisk disk) table) := by
  have hvolume := volumeAt_of_mount hfresh hmount
  rwa [bootSector_of_reads hread] at hvolume

/-- With its blocks allocated and the boot sector read, a mount returns a filesystem
exactly when the sector size is not zero and the FAT is copied within its block; else it
faults. -/
theorem fat12Mount_allocated (bootJunk fatJunk : Nat → Byte) (hfresh : m.Fresh h)
    (hall : ∀ r ∈ m.results, r ≠ none) (hread : disk.Reads 0) :
    ((∃ r, fat12Mount (some disk.device) m bootJunk fatJunk h = some r) ↔
      ∃ fsys h', fat12Mount (some disk.device) m bootJunk fatJunk h = some (some fsys, h')) ∧
    ((∃ r, fat12Mount (some disk.device) m bootJunk fatJunk h = some r) ↔
      (onDisk disk).bytesPerSector ≠ 0 ∧
        ∃ table, fatBytes (some disk.device) (onDisk disk) fatJunk = some table) := by
  obtain ⟨fs, bootsector, fatTable, fsys, vroot, inode⟩ := m
  simp only [Blocks.results, List.mem_cons, List.not_mem_nil, or_false, forall_eq_or_imp, forall_eq,
    Option.ne_none_iff_exists'] at hall
  obtain ⟨⟨fs, rfl⟩, ⟨bootsector, rfl⟩, ⟨fatTable, rfl⟩, ⟨fsys, rfl⟩, ⟨vroot, rfl⟩, ⟨inode, rfl⟩⟩ :=
    hall
  rw [fat12Mount_eq hfresh rfl rfl (Option.some_ne_none _), bootSector_of_reads hread, mountResult]
  by_cases hzero : (onDisk disk).bytesPerSector = 0
  · simp [hzero]
  · rw [if_neg hzero]
    cases hload : fatBytes (some disk.device) (onDisk disk) fatJunk with
    | none => simp
    | some table => simp [hzero]

/-- When the FAT is copied within its block. -/
theorem fatBytes_isSome_iff (disk : Disk) (b : Fat12BootSector) (fatJunk : Nat → Byte) :
    (∃ table, fatBytes (some disk.device) b fatJunk = some table) ↔
      ∀ i, i < b.sectorsPerFat.toNat → disk.Reads (b.fatStart + i) →
        i * b.bytesPerSector.toNat + 512 ≤ b.sectorsPerFat.toNat * b.bytesPerSector.toNat := by
  have hlen : (freshBytes fatJunk b.fatSize).length =
      b.sectorsPerFat.toNat * b.bytesPerSector.toNat := by
    rw [freshBytes, List.length_map, List.length_range, Fat12BootSector.fatSize]
  have hsectors := b.sectorsPerFat.toNat_lt
  rw [fatBytes, loadFat_isSome_iff (by rw [hlen, Nat.zero_add]) (by omega), hlen, Nat.zero_add]
  constructor
  · exact fun hall i hi hreads => hall i (Nat.zero_le i) hi hreads
  · exact fun hall i _ hi hreads => hall i hi hreads

/-- When a read of an opened entry divides by zero. -/
theorem fat12ReadDivisor_zero_iff (fs : Fat12Volume) (name e : List Byte) (k offs size : Nat)
    (bufIsNull : Bool) :
    fat12ReadDivisor (some (openedNode fs name k e).vnode) offs size bufIsNull = some 0 ↔
      (bufIsNull = false ∧ size ≠ 0) ∧ byteOf e 11 &&& 0x10 = 0 ∧ offs < le32 e 28 ∧
        fs.bytesPerCluster = 0 := by
  have hdivisor : fat12ReadDivisor (some (openedNode fs name k e).vnode) offs size bufIsNull =
      if (bufIsNull ∨ size = 0) ∨ byteOf e 11 &&& 0x10 ≠ 0 ∨ le32 e 28 ≤ offs then none
      else some fs.bytesPerCluster :=
    fat12ReadDivisor_eq (.ofBytes e) fs.toFat12Handle offs size bufIsNull
  rw [hdivisor]
  split
  case isTrue hskips =>
    refine iff_of_false (fun h => (nomatch h)) ?_
    rintro ⟨⟨hbuf, hsize⟩, hfile, hoffs, -⟩
    rcases hskips with (hskips | hskips) | hskips | hskips
    · rw [hbuf] at hskips
      cases hskips
    · exact hsize hskips
    · exact hskips hfile
    · exact absurd hoffs (Nat.not_lt.mpr hskips)
  case isFalse hdivides =>
    obtain ⟨⟨hbuf, hsize⟩, hfile, hoffs⟩ :
        (bufIsNull = false ∧ size ≠ 0) ∧ byteOf e 11 &&& 0x10 = 0 ∧ offs < le32 e 28 := by
      simpa only [not_or, not_not, Bool.not_eq_true, Nat.not_le] using hdivides
    rw [Option.some.injEq]
    exact ⟨fun hzero => ⟨⟨hbuf, hsize⟩, hfile, hoffs, hzero⟩, fun h => h.2.2.2⟩

/-- The bytes of a cluster, by the boot sector. -/
theorem bytesPerCluster_eq_zero_iff (hbytes : (onDisk disk).bytesPerSector ≠ 0)
    (table : { bytes : List Byte // bytes.length = (onDisk disk).fatSize }) :
    (mountedVolume (some disk.device) (onDisk disk) table).bytesPerCluster = 0 ↔
      (onDisk disk).sectorsPerCluster = 0 := by
  have hbytes' : (onDisk disk).bytesPerSector.toNat ≠ 0 := fun h => hbytes (UInt16.toNat_inj.mp h)
  show (onDisk disk).sectorsPerCluster.toNat * (onDisk disk).bytesPerSector.toNat = 0 ↔ _
  rw [Nat.mul_eq_zero, or_iff_left hbytes']
  exact UInt8.toNat_inj (b := 0)

/-- **Any boot sector.** A disk whose boot sector is read, whatever that holds, is
survived exactly when its sector size is not zero, every sector of the FAT that can be
read ends inside the copy, and its clusters have sectors or no name opens a file with
something in it. -/
theorem fat12Mount_survives_iff (hfresh : m.Fresh h) (hall : ∀ r ∈ m.results, r ≠ none)
    (hread : disk.Reads 0) :
    Survives disk m h ↔
      (onDisk disk).bytesPerSector ≠ 0 ∧
        (∀ i, i < (onDisk disk).sectorsPerFat.toNat → disk.Reads ((onDisk disk).fatStart + i) →
          i * (onDisk disk).bytesPerSector.toNat + 512 ≤
            (onDisk disk).sectorsPerFat.toNat * (onDisk disk).bytesPerSector.toNat) ∧
        ((onDisk disk).sectorsPerCluster ≠ 0 ∨ ¬HasData disk) := by
  have hdev := disk.readsBlocks
  have hallocated := fun bootJunk fatJunk =>
    fat12Mount_allocated bootJunk fatJunk hfresh hall hread
  constructor
  · intro hsurvives
    obtain ⟨hreturns, hreads⟩ := hsurvives (fun _ => 0) (fun _ => 0)
    obtain ⟨hmounts, hfat⟩ := hallocated (fun _ => 0) (fun _ => 0)
    obtain ⟨hbytes, hcopied⟩ := hfat.mp hreturns
    refine ⟨hbytes, (fatBytes_isSome_iff disk _ _).mp hcopied, ?_⟩
    by_contra hnot
    obtain ⟨hsectors, hdata⟩ := not_or.mp hnot
    obtain ⟨name, dirEntries, k, e, hname, hzero, hlen, hfirst, he, hfile, hsize⟩ := not_not.mp hdata
    obtain ⟨fsys, h', hmount⟩ := hmounts.mp hreturns
    obtain ⟨table, hvolume⟩ := volumeAt_of_reads hfresh hread hmount
    -- the entry is opened, and a read of its first byte divides by zero
    rw [← rootEntries_mountedVolume table] at hfirst he
    have hopen := fat12Open_of_first hdev hlen hname hfirst he
    refine hreads fsys h' _ hmount hvolume name _ _ hzero hlen hopen 0 1 false ?_
    exact (fat12ReadDivisor_zero_iff ..).mpr ⟨by decide, hfile, Nat.pos_of_ne_zero hsize,
      (bytesPerCluster_eq_zero_iff hbytes table).mpr (not_not.mp hsectors)⟩
  · rintro ⟨hbytes, hcopied, hfiles⟩ bootJunk fatJunk
    obtain ⟨-, hfat⟩ := hallocated bootJunk fatJunk
    refine ⟨hfat.mpr ⟨hbytes, (fatBytes_isSome_iff disk _ _).mpr hcopied⟩, ?_⟩
    intro fsys h' fs hmount hvolume name env node hzero hlen hopen offs size bufIsNull hdivisor
    obtain ⟨table, hvolume'⟩ := volumeAt_of_reads hfresh hread hmount
    obtain rfl := Option.some.inj (hvolume.symm.trans hvolume')
    have hname : name ≠ [] := by
      rintro rfl
      cases hopen
    obtain ⟨hvnode, hinode⟩ := fat12Open_allocated hopen
    rw [LookupEnv.eq_of_allocated hvnode hinode] at hopen
    obtain ⟨k, e, hfirst, he, rfl⟩ := fat12Open_first hdev hlen hname hopen
    obtain ⟨-, hfile, hoffs, hzeroBytes⟩ := (fat12ReadDivisor_zero_iff ..).mp hdivisor
    have hsectors := (bytesPerCluster_eq_zero_iff hbytes table).mp hzeroBytes
    rw [rootEntries_mountedVolume table] at hfirst he
    refine (hfiles.resolve_left (not_not.mpr hsectors)) ?_
    exact ⟨name, env.dirEntries, k, e, hname, hzero, hlen, hfirst, he, hfile, by omega⟩

/-- The sample disk is survived. -/
theorem fat12Mount_survives_iff_sample :
    Survives (sampleDisk fun _ => false) sampleBlocks ∅ := by
  have hboot := sampleDisk_onDisk fun _ => false
  refine (fat12Mount_survives_iff (fresh_empty sampleBlocks (by decide)) (by decide)
    (by decide)).mpr ?_
  rw [hboot]
  exact ⟨by decide, by decide, .inl (by decide)⟩

/-- A disk of zeros, as one that was never formatted. -/
def blankDisk : Disk := ⟨8, fun _ => ⟨List.replicate 512 0, length_zeroBlock⟩, fun _ => false⟩

/-- To mount it divides by zero. -/
theorem fat12Mount_blank :
    fat12Mount (some blankDisk.device) sampleBlocks (fun _ => 0) (fun _ => 0) ∅ = none ∧
      ¬Survives blankDisk sampleBlocks ∅ := by
  have hfault : fat12Mount (some blankDisk.device) sampleBlocks (fun _ => 0) (fun _ => 0) ∅ = none := by
    have hboot : (onDisk blankDisk).bytesPerSector = 0 := by decide +kernel
    rw [fat12Mount_eq (fresh_empty sampleBlocks (by decide)) rfl rfl (Option.some_ne_none _),
      bootSector_of_reads (by decide), mountResult, if_pos hboot]
  refine ⟨hfault, fun hsurvives => ?_⟩
  obtain ⟨⟨r, hr⟩, -⟩ := hsurvives (fun _ => 0) (fun _ => 0)
  rw [hfault] at hr
  cases hr

end OnHeap

end Leenix
