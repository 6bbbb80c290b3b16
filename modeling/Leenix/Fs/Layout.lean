import Leenix.Fs.Atomic

/-!
# The layout of a mounted volume

A FAT volume is laid out as its boot sector says: behind the hidden sectors the reserved
ones, the FATs, the root directory, and the clusters. `fat12_mount` keeps the number of
hidden sectors in eight bits and rounds the size of the root directory down, which shifts
every region behind.

`fat12Mount_layout_iff`: the layout of a mounted volume is right exactly when neither
loses anything.
-/

namespace Leenix

/-- The sectors of a cluster. -/
def clusterSectors (fs : Fat12Volume) (c s : Nat) : Prop :=
  fs.clusterToLba c ≤ s ∧ s < fs.clusterToLba c + fs.bpb.sectorsPerCluster

/-- The cluster is in the data area, and its sectors have 32-bit numbers. -/
def DataCluster (fs : Fat12Volume) (c : Nat) : Prop :=
  2 ≤ c ∧ fs.dataAreaStart + (c - 2 + 1) * fs.bpb.sectorsPerCluster ≤ 2 ^ 32

/-- The regions of the volume are where its boot sector says. The clusters are disjoint,
and none has a sector between the hidden sectors and the data area, where the reserved
sectors, the FATs and the root directory are. -/
structure LaidOut (b : Fat12BootSector) (fs : Fat12Volume) : Prop where
  fatStart : fs.fatStart = b.hiddenSectors.toNat + b.rsrvdCnt.toNat
  rootDirStart : fs.rootDirStart = fs.fatStart + b.numFats.toNat * b.sectorsPerFat.toNat
  rootDirSectors : b.maxRootDirEntries.toNat * 32 ≤ fs.rootDirSectors * 512 ∧
    ∀ n, b.maxRootDirEntries.toNat * 32 ≤ n * 512 → fs.rootDirSectors ≤ n
  dataAreaStart : fs.dataAreaStart = fs.rootDirStart + fs.rootDirSectors
  disjoint : ∀ c c', DataCluster fs c → DataCluster fs c' → c ≠ c' →
    ∀ s, clusterSectors fs c s → ¬clusterSectors fs c' s
  behind : ∀ c, DataCluster fs c → ∀ s, clusterSectors fs c s →
    ¬(b.hiddenSectors.toNat ≤ s ∧ s < b.hiddenSectors.toNat + b.rsrvdCnt.toNat) ∧
    ¬(fs.fatStart ≤ s ∧ s < fs.rootDirStart) ∧ ¬(fs.rootDirStart ≤ s ∧ s < fs.dataAreaStart)

variable {fs : Fat12Volume} {b : Fat12BootSector} {c c' s : Nat}

/-- The sectors of a data cluster, by the formula of the source. -/
theorem DataCluster.lba (h : DataCluster fs c) (hpos : 0 < fs.bpb.sectorsPerCluster) :
    fs.clusterToLba c = fs.dataAreaStart + (c - 2) * fs.bpb.sectorsPerCluster := by
  have hin := h.2
  rw [Nat.succ_mul] at hin
  rw [Fat12Handle.clusterToLba, if_neg (Nat.not_lt.mpr h.1), u32, Nat.mod_eq_of_lt (by omega)]

/-- A cluster with sectors has at least one. -/
theorem sectorsPerCluster_pos (h : clusterSectors fs c s) : 0 < fs.bpb.sectorsPerCluster := by
  obtain ⟨hle, hlt⟩ := h
  omega

theorem DataCluster.le (h : DataCluster fs c) (hs : clusterSectors fs c s) : fs.dataAreaStart ≤ s := by
  have hlow := hs.1
  rw [h.lba (sectorsPerCluster_pos hs)] at hlow
  exact Nat.le_trans (Nat.le_add_right _ _) hlow

/-- Clusters in order have their sectors in order. -/
theorem DataCluster.lt_of_lt (h : DataCluster fs c) (h' : DataCluster fs c') (hlt : c < c')
    (hs : clusterSectors fs c s) : ¬clusterSectors fs c' s := by
  intro hs'
  have hpos := sectorsPerCluster_pos hs
  have hhigh := hs.2
  have hlow := hs'.1
  rw [h.lba hpos] at hhigh
  rw [h'.lba hpos] at hlow
  have hc := h.1
  have hnext : (c - 2 + 1) * fs.bpb.sectorsPerCluster ≤ (c' - 2) * fs.bpb.sectorsPerCluster :=
    Nat.mul_le_mul_right _ (by omega)
  rw [Nat.succ_mul] at hnext
  omega

/-- The sectors of a volume whose first regions are right. -/
theorem laidOut_of_fields (hfat : fs.fatStart = b.hiddenSectors.toNat + b.rsrvdCnt.toNat)
    (hroot : fs.rootDirStart = fs.fatStart + b.numFats.toNat * b.sectorsPerFat.toNat)
    (hsectors : b.maxRootDirEntries.toNat * 32 ≤ fs.rootDirSectors * 512 ∧
      ∀ n, b.maxRootDirEntries.toNat * 32 ≤ n * 512 → fs.rootDirSectors ≤ n)
    (hdata : fs.dataAreaStart = fs.rootDirStart + fs.rootDirSectors) : LaidOut b fs where
  fatStart := hfat
  rootDirStart := hroot
  rootDirSectors := hsectors
  dataAreaStart := hdata
  disjoint c c' hc hc' hne s hs := by
    rcases Nat.lt_or_gt_of_ne hne with hlt | hgt
    · exact hc.lt_of_lt hc' hlt hs
    · exact fun hs' => hc'.lt_of_lt hc hgt hs' hs
  behind c hc s hs := by
    have hle := hc.le hs
    refine ⟨?_, ?_, ?_⟩
    all_goals omega

/-- The layout that the driver computes, against the one in the boot sector. -/
theorem laidOut_mountedVolume_iff {blockDev : Option BlockDevice}
    {table : { bytes : List Byte // bytes.length = b.fatSize }} (hbytes : b.bytesPerSector = 512) :
    LaidOut b (mountedVolume blockDev b table) ↔
      b.hiddenSectors.toNat < 2 ^ 8 ∧ 16 ∣ b.maxRootDirEntries.toNat := by
  have hsectors : (mountedVolume blockDev b table).rootDirSectors =
      b.maxRootDirEntries.toNat * 32 / 512 := by
    show b.maxRootDirEntries.toNat * 32 / b.bytesPerSector.toNat = _
    rw [hbytes]
    rfl
  have hfat : (mountedVolume blockDev b table).fatStart =
      b.hiddenSectors.toNat % 2 ^ 8 + b.rsrvdCnt.toNat := rfl
  constructor
  · intro h
    have hstart := hfat.symm.trans h.fatStart
    have hroom := h.rootDirSectors.1
    rw [hsectors] at hroom
    exact ⟨by omega, by omega⟩
  · rintro ⟨hhidden, hentries⟩
    refine laidOut_of_fields ?_ rfl ⟨?_, fun n hn => ?_⟩ rfl
    · exact Fat12BootSector.fatStart_eq hhidden
    · rw [hsectors]
      omega
    · rw [hsectors]
      omega

namespace OnHeap

variable {m : Blocks} {h h' : FsHeap} {fsys : Ptr} {blockDev : Option BlockDevice}
  {bootJunk fatJunk : Nat → Byte}

/-- **Volume layout.** A successful mount of a boot sector with 512-byte sectors sets up
the layout that the boot sector describes exactly when its hidden sectors fit in eight
bits and its root directory fills whole sectors. -/
theorem fat12Mount_layout_iff (hfresh : m.Fresh h)
    (hbytes : (bootSector blockDev bootJunk).bytesPerSector = 512)
    (hmount : fat12Mount blockDev m bootJunk fatJunk h = some (some fsys, h')) :
    (∃ fs, volumeAt h' fsys = some fs ∧ LaidOut (bootSector blockDev bootJunk) fs) ↔
      (bootSector blockDev bootJunk).hiddenSectors.toNat < 2 ^ 8 ∧
        16 ∣ (bootSector blockDev bootJunk).maxRootDirEntries.toNat := by
  obtain ⟨table, hvolume⟩ := volumeAt_of_mount hfresh hmount
  have hiff : LaidOut (bootSector blockDev bootJunk)
      (mountedVolume blockDev (bootSector blockDev bootJunk) table) ↔ _ :=
    laidOut_mountedVolume_iff hbytes
  rw [hvolume, ← hiff]
  constructor
  · rintro ⟨fs, hfs, hlaidOut⟩
    exact Option.some.inj hfs ▸ hlaidOut
  · exact fun hlaidOut => ⟨_, rfl, hlaidOut⟩

/-- The sample disk is mounted with its layout. -/
theorem fat12Mount_layout_iff_sample : ∃ fsys h' fs,
    fat12Mount (some (sampleDisk fun _ => false).device) sampleBlocks (fun _ => 0) (fun _ => 0) ∅ =
        some (some fsys, h') ∧
      volumeAt h' fsys = some fs ∧ LaidOut sampleBoot fs := by
  have hread : (sampleDisk fun _ => false).Reads 0 := by decide
  have hboot := (bootSector_of_reads hread fun _ => 0).trans (sampleDisk_onDisk _)
  obtain ⟨fsys, h', hmount⟩ := ((fat12Mount_valid (fun _ => 0) (fun _ => 0)
    (by rw [sampleDisk_onDisk]; rfl) (fresh_empty sampleBlocks (by decide)) rfl rfl hread).2
    (by decide) (by decide)).2 (by decide) (by decide)
  obtain ⟨fs, hfs, hlaidOut⟩ := (fat12Mount_layout_iff (fresh_empty sampleBlocks (by decide))
    (by rw [hboot]; rfl) hmount).mpr (by rw [hboot]; decide)
  exact ⟨fsys, h', fs, hmount, hfs, hboot ▸ hlaidOut⟩

/-- A boot sector with 256 hidden sectors. -/
def shiftedBootBytes : { block : List Byte // block.length = 512 } :=
  ⟨List.replicate 11 0 ++ [0, 2, 1, 1, 0, 1, 16, 0, 0, 0, 0, 1, 0, 0, 0, 0, 0, 0, 1, 0, 0] ++
    List.replicate 480 0, by decide +kernel⟩

/-- A disk with that boot sector. -/
def shiftedDisk : Disk := ⟨512, fun _ => shiftedBootBytes, fun _ => false⟩

theorem shiftedDisk_onDisk : onDisk shiftedDisk = ⟨512, 1, 1, 1, 16, 1, 256⟩ := by
  decide +kernel

/-- With 256 hidden sectors the FAT is looked for in sector 1, not in 257. -/
theorem fat12Mount_shifted : (onDisk shiftedDisk).hiddenSectors = 256 ∧
    ∃ fsys h' fs, fat12Mount (some shiftedDisk.device) sampleBlocks (fun _ => 0) (fun _ => 0) ∅ =
        some (some fsys, h') ∧
      volumeAt h' fsys = some fs ∧ fs.fatStart = 1 ∧ ¬LaidOut (onDisk shiftedDisk) fs := by
  have hread : shiftedDisk.Reads 0 := by decide
  have hfresh := fresh_empty sampleBlocks (by decide)
  obtain ⟨fsys, h', hmount⟩ := ((fat12Mount_valid (fun _ => 0) (fun _ => 0)
    (by rw [shiftedDisk_onDisk]) hfresh rfl rfl hread).2 (by decide) (by decide)).2 (by decide)
    (by decide)
  obtain ⟨table, hvolume⟩ := volumeAt_of_mount hfresh hmount
  have hboot := bootSector_of_reads hread fun _ => 0
  have hstart : (bootSector (some shiftedDisk.device) fun _ => 0).fatStart = 1 := by
    rw [hboot, shiftedDisk_onDisk]
    decide
  refine ⟨by rw [shiftedDisk_onDisk], fsys, h', _, hmount, hvolume, hstart, fun hlaidOut => ?_⟩
  have hright := hlaidOut.fatStart
  rw [shiftedDisk_onDisk] at hright
  exact absurd (hstart.symm.trans hright) (by decide)

end OnHeap

end Leenix
