import Leenix.Fs.Mount

/-!
# Is mounting atomic?

A mount that fails should leave the set of live blocks as it was, and one that succeeds
should have read the boot sector and the FAT. `fat12_mount` cleans up behind the first
four calls of `malloc` and not behind the last two, whose result it follows; and it looks
at the result of no read, so that it goes by whatever the buffers held.

`fat12Mount_atomic_iff`: what a mount has to meet for it to be atomic. To unmount a
filesystem that was mounted undoes the mount in any case.
-/

namespace Leenix

namespace OnHeap

/-- The boot sector on the disk. -/
def onDisk (disk : Disk) : Fat12BootSector := .ofBytes (disk.blocks 0)

/-- The boot sector and all sectors of the FAT can be read. -/
def ReadsAll (disk : Disk) : Prop :=
  disk.Reads 0 ∧ ∀ i, i < (onDisk disk).sectorsPerFat.toNat → disk.Reads ((onDisk disk).fatStart + i)

/-- Whatever fresh blocks hold: the mount returns, without a filesystem and with the live
blocks as they were, or with a filesystem for which everything was read; and unmounting
this at once gives back the live blocks. -/
def MountsAtomically (disk : Disk) (m : Blocks) (h : FsHeap) : Prop :=
  ∀ bootJunk fatJunk,
    (∃ r h', fat12Mount (some disk.device) m bootJunk fatJunk h = some (r, h') ∧
      (r = none → h'.keys = h.keys) ∧ (r ≠ none → ReadsAll disk)) ∧
    ∀ fsys h', fat12Mount (some disk.device) m bootJunk fatJunk h = some (some fsys, h') →
      ∃ h'', fat12Unmount h' fsys = some (0, h'') ∧ h''.keys = h.keys

variable {disk : Disk} {m : Blocks} {h : FsHeap} {fs bootsector : Ptr} {bootJunk fatJunk : Nat → Byte}

/-- A boot sector that can be read is the one the mount goes by. -/
theorem bootSector_of_reads (hread : disk.Reads 0) (bootJunk : Nat → Byte) :
    bootSector (some disk.device) bootJunk = onDisk disk := by
  have hlen : (freshBytes bootJunk 512).length = 512 := by
    rw [freshBytes, List.length_map, List.length_range]
  rw [bootSector, bootBytes, disk.blkread_device, if_pos hread, onDisk]
  simp only
  rw [overlay_of_length_le (by rw [hlen, (disk.blocks 0).2])]

/-- With sectors of 512 bytes the copy of the FAT fits, whichever of them are read. -/
theorem fatBytes_of_valid {b : Fat12BootSector} (hvalid : b.bytesPerSector = 512)
    (fatJunk : Nat → Byte) : ∃ table, fatBytes (some disk.device) b fatJunk = some table := by
  have hlen : (freshBytes fatJunk b.fatSize).length = b.sectorsPerFat.toNat * 512 := by
    rw [freshBytes, List.length_map, List.length_range, Fat12BootSector.fatSize, hvalid]
    rfl
  have hbytes : b.bytesPerSector.toNat = 512 := by rw [hvalid]; rfl
  have hsectors := b.sectorsPerFat.toNat_lt
  refine (loadFat_isSome_iff (by rw [hbytes, hlen, Nat.zero_add]) (by omega)).mpr ?_
  intro j _ hj _
  rw [hbytes, hlen]
  omega

/-- A boot sector that could not be read leaves zeros, in a block of zeros. -/
theorem bootSector_of_not_reads (hread : ¬disk.Reads 0) :
    (bootSector (some disk.device) fun _ => 0).bytesPerSector = 0 := by
  rw [bootSector, bootBytes, disk.blkread_device, if_neg hread]
  decide +kernel

/-- The mount of a readable boot sector with 512-byte sectors. -/
theorem fat12Mount_valid (bootJunk fatJunk : Nat → Byte)
    (hvalid : (onDisk disk).bytesPerSector = 512) (hfresh : m.Fresh h) (hfs : m.fs = some fs)
    (hbootsector : m.bootsector = some bootsector) (hread : disk.Reads 0) :
    (m.fatTable = none ∨ m.fsys = none →
      fat12Mount (some disk.device) m bootJunk fatJunk h = some (none, h)) ∧
    (m.fatTable ≠ none → m.fsys ≠ none →
      (m.vroot = none ∨ m.rootInode = none →
        fat12Mount (some disk.device) m bootJunk fatJunk h = none) ∧
      (m.vroot ≠ none → m.rootInode ≠ none →
        ∃ fsys h', fat12Mount (some disk.device) m bootJunk fatJunk h = some (some fsys, h'))) := by
  rw [fat12Mount_eq hfresh hfs hbootsector (Option.some_ne_none _), bootSector_of_reads hread,
    mountResult, hvalid, if_neg (by decide)]
  obtain ⟨table, htable⟩ : ∃ table, fatBytes (some disk.device) (onDisk disk) fatJunk = some table :=
    fatBytes_of_valid hvalid fatJunk
  rw [htable]
  refine ⟨fun hnone => ?_, fun hfat hfsys => ⟨fun hnone => ?_, fun hvroot hinode => ?_⟩⟩
  · cases hfat : m.fatTable with
    | none => rfl
    | some fatTable =>
      rw [hfat] at hnone
      rw [hnone.resolve_left (Option.some_ne_none _)]
      rfl
  · obtain ⟨fatTable, hfat⟩ := Option.ne_none_iff_exists'.mp hfat
    obtain ⟨fsys, hfsys⟩ := Option.ne_none_iff_exists'.mp hfsys
    rw [hfat, hfsys]
    rcases hnone with hvroot | hinode
    · rw [hvroot]
      rfl
    · rw [hinode]
      cases m.vroot <;> rfl
  · obtain ⟨fatTable, hfat⟩ := Option.ne_none_iff_exists'.mp hfat
    obtain ⟨fsys, hfsys⟩ := Option.ne_none_iff_exists'.mp hfsys
    obtain ⟨vroot, hvroot⟩ := Option.ne_none_iff_exists'.mp hvroot
    obtain ⟨inode, hinode⟩ := Option.ne_none_iff_exists'.mp hinode
    rw [hfat, hfsys, hvroot, hinode]
    exact ⟨fsys, _, rfl⟩

/-- A filesystem that was mounted is unmounted without a trace. -/
theorem fat12Unmount_of_mount {blockDev : Option BlockDevice} {fsys : Ptr} {h' : FsHeap}
    (hfresh : m.Fresh h)
    (hmount : fat12Mount blockDev m bootJunk fatJunk h = some (some fsys, h')) :
    fat12Unmount h' fsys = some (0, h) := by
  obtain ⟨table, -, -, hmounted, howns⟩ := fat12Mount_some hfresh hmount
  exact fat12Unmount_mounted hmounted howns

/-- **Atomic mounts.** On a disk with 512-byte sectors a mount is atomic, and undone by
the unmount behind it, exactly when one of the first two blocks is not allocated, or the
boot sector is read, and: one of the next two blocks is not allocated, or the last two
blocks are and the whole FAT is read. -/
theorem fat12Mount_atomic_iff (hvalid : (onDisk disk).bytesPerSector = 512) (hfresh : m.Fresh h) :
    MountsAtomically disk m h ↔
      m.fs = none ∨ m.bootsector = none ∨
        disk.Reads 0 ∧ (m.fatTable = none ∨ m.fsys = none ∨
          m.vroot ≠ none ∧ m.rootInode ≠ none ∧ ReadsAll disk) := by
  have hundone : ∀ bootJunk fatJunk fsys h',
      fat12Mount (some disk.device) m bootJunk fatJunk h = some (some fsys, h') →
        ∃ h'', fat12Unmount h' fsys = some (0, h'') ∧ h''.keys = h.keys :=
    fun _ _ _ _ hmount => ⟨h, fat12Unmount_of_mount hfresh hmount, rfl⟩
  constructor
  · intro hatomic
    by_contra hnot
    simp only [not_or, not_and] at hnot
    obtain ⟨hfs, hbootsector, hrest⟩ := hnot
    obtain ⟨fs, hfs⟩ := Option.ne_none_iff_exists'.mp hfs
    obtain ⟨bootsector, hbootsector⟩ := Option.ne_none_iff_exists'.mp hbootsector
    by_cases hread : disk.Reads 0
    · obtain ⟨hfat, hfsys, hroot⟩ := hrest hread
      obtain ⟨⟨r, h', hmount, -, hall⟩, -⟩ := hatomic (fun _ => 0) (fun _ => 0)
      obtain ⟨hfault, hmounts⟩ := (fat12Mount_valid (fun _ => 0) (fun _ => 0)
        hvalid hfresh hfs hbootsector hread).2 hfat hfsys
      by_cases hnone : m.vroot = none ∨ m.rootInode = none
      · rw [hfault hnone] at hmount
        cases hmount
      · obtain ⟨hvroot, hinode⟩ := not_or.mp hnone
        obtain ⟨fsys, h'', hsome⟩ := hmounts hvroot hinode
        obtain ⟨rfl, rfl⟩ := Prod.mk.inj (Option.some.inj (hmount.symm.trans hsome))
        exact hroot hvroot hinode (hall (Option.some_ne_none fsys))
    · -- a block of zeros has the sector size zero
      obtain ⟨⟨r, h', hmount, -⟩, -⟩ := hatomic (fun _ => 0) (fun _ => 0)
      rw [fat12Mount_eq hfresh hfs hbootsector (Option.some_ne_none _), mountResult,
        if_pos (bootSector_of_not_reads hread)] at hmount
      cases hmount
  · intro hcases bootJunk fatJunk
    refine ⟨?_, hundone bootJunk fatJunk⟩
    by_cases hearly : m.fs = none ∨ m.bootsector = none
    · have hnull : fat12Mount (some disk.device) m bootJunk fatJunk h = some (none, h) :=
        fat12Mount_early hfresh (hearly.imp_right .inl)
      exact ⟨none, h, hnull, fun _ => rfl, fun hne => absurd rfl hne⟩
    obtain ⟨hfs, hbootsector⟩ := not_or.mp hearly
    obtain ⟨hread, hrest⟩ := (hcases.resolve_left hfs).resolve_left hbootsector
    obtain ⟨fs, hfs⟩ := Option.ne_none_iff_exists'.mp hfs
    obtain ⟨bootsector, hbootsector⟩ := Option.ne_none_iff_exists'.mp hbootsector
    obtain ⟨hnull, hmounts⟩ := fat12Mount_valid bootJunk fatJunk hvalid
      hfresh hfs hbootsector hread
    by_cases hnone : m.fatTable = none ∨ m.fsys = none
    · exact ⟨none, h, hnull hnone, fun _ => rfl, fun hne => absurd rfl hne⟩
    · obtain ⟨hfat, hfsys⟩ := not_or.mp hnone
      obtain ⟨hvroot, hinode, hall⟩ := (hrest.resolve_left hfat).resolve_left hfsys
      obtain ⟨fsys, h', hmount⟩ := (hmounts hfat hfsys).2 hvroot hinode
      exact ⟨some fsys, h', hmount, fun hnull => absurd hnull (Option.some_ne_none fsys),
        fun _ => hall⟩

/-- A boot sector with one FAT of one sector and one sector of root directory. -/
def sampleBootBytes : { block : List Byte // block.length = 512 } :=
  ⟨List.replicate 11 0 ++ [0, 2, 1, 1, 0, 1, 16, 0, 0, 0, 0, 1, 0] ++ List.replicate 488 0,
    by decide +kernel⟩

/-- A disk of eight such blocks. -/
def sampleDisk (fails : Nat → Bool) : Disk := ⟨8, fun _ => sampleBootBytes, fails⟩

theorem ofBytes_sampleBootBytes : Fat12BootSector.ofBytes sampleBootBytes = sampleBoot := by
  decide +kernel

theorem sampleDisk_onDisk (fails : Nat → Bool) : onDisk (sampleDisk fails) = sampleBoot :=
  ofBytes_sampleBootBytes

/-- Six blocks. -/
def sampleBlocks : Blocks := ⟨some 1, some 2, some 3, some 4, some 5, some 6⟩

theorem fresh_empty (m : Blocks) (hsub : m.results.reduceOption.Nodup) : m.Fresh ∅ :=
  ⟨hsub, fun _ _ => Finmap.notMem_empty⟩

/-- A mount in which everything succeeds. -/
theorem fat12Mount_atomic_iff_sample : MountsAtomically (sampleDisk fun _ => false) sampleBlocks ∅ := by
  have hboot := sampleDisk_onDisk fun _ => false
  refine (fat12Mount_atomic_iff (by rw [hboot]; rfl) (fresh_empty _ (by decide))).mpr ?_
  refine .inr (.inr ⟨by decide, .inr (.inr ⟨by decide, by decide, by decide, ?_⟩)⟩)
  rw [hboot]
  decide

/-- Without a block for the root vnode the mount follows a null pointer. With a FAT that
cannot be read it returns a filesystem. -/
theorem fat12Mount_not_atomic :
    (fat12Mount (some (sampleDisk fun _ => false).device) { sampleBlocks with vroot := none }
        (fun _ => 0) (fun _ => 0) ∅ = none ∧
      ¬MountsAtomically (sampleDisk fun _ => false) { sampleBlocks with vroot := none } ∅) ∧
    (∃ fsys h', fat12Mount (some (sampleDisk fun lba => lba = 1).device) sampleBlocks
        (fun _ => 0) (fun _ => 0) ∅ = some (some fsys, h')) ∧
      ¬MountsAtomically (sampleDisk fun lba => lba = 1) sampleBlocks ∅ := by
  have hvalid : ∀ fails, (onDisk (sampleDisk fails)).bytesPerSector = 512 := by
    intro fails
    rw [sampleDisk_onDisk]
    rfl
  have hfault : fat12Mount (some (sampleDisk fun _ => false).device)
      { sampleBlocks with vroot := none } (fun _ => 0) (fun _ => 0) ∅ = none :=
    ((fat12Mount_valid _ _ (hvalid _) (fresh_empty _ (by decide)) rfl rfl (by decide)).2
      (by decide) (by decide)).1 (.inl rfl)
  obtain ⟨fsys, h', hmount⟩ : ∃ fsys h', fat12Mount (some (sampleDisk fun lba => lba = 1).device)
      sampleBlocks (fun _ => 0) (fun _ => 0) ∅ = some (some fsys, h') :=
    ((fat12Mount_valid _ _ (hvalid _) (fresh_empty _ (by decide)) rfl rfl (by decide)).2
      (by decide) (by decide)).2 (by decide) (by decide)
  refine ⟨⟨hfault, fun hatomic => ?_⟩, ⟨fsys, h', hmount⟩, fun hatomic => ?_⟩
  · obtain ⟨⟨r, h', hsome, -⟩, -⟩ := hatomic (fun _ => 0) (fun _ => 0)
    rw [hfault] at hsome
    cases hsome
  · obtain ⟨⟨r, h'', hsome, -, hall⟩, -⟩ := hatomic (fun _ => 0) (fun _ => 0)
    obtain ⟨rfl, rfl⟩ := Prod.mk.inj (Option.some.inj (hmount.symm.trans hsome))
    -- sector 1 is the only one of the FAT
    have hsector := (hall (Option.some_ne_none fsys)).2 0 (by rw [sampleDisk_onDisk]; decide)
    rw [sampleDisk_onDisk] at hsector
    exact absurd hsector (by decide)

end OnHeap

end Leenix
