import Leenix.Fs.Fat12

/-!
# What a read of a file touches

`fat12_read` with a record of its accesses: the offsets at which it looks into
the loaded FAT, and the sectors it asks the block device for. The cluster numbers
behind them come from the directory entry, from an addition and from the FAT, and
the code checks none of them: `_fat12_cluster_to_lba` answers an invalid number
with sector 0, which the read then takes for file data.

- `fat12ReadLog_result`: the record changes nothing about the read.
- `readClustersLog_accesses`: the accesses of the loop, by the FAT alone.
- `fat12Read_safe_iff`: they stay in the table and in the data area exactly when
  the clusters of the chain do, as far as the request follows it.
-/

namespace Leenix

/-! ## Mounting (fat12.c:247–) -/

/-- The fields of `fat12_bpb_t` that `fat12_mount` uses, as they stand in the boot
sector. -/
structure Fat12BootSector where
  bytesPerSector : UInt16
  sectorsPerCluster : UInt8
  rsrvdCnt : UInt16
  numFats : UInt8
  maxRootDirEntries : UInt16
  sectorsPerFat : UInt16
  hiddenSectors : UInt32
deriving DecidableEq

namespace Fat12BootSector

variable (b : Fat12BootSector)

/-- `fs->fat_start`. The partition start is cut to eight bits. -/
def fatStart : Nat := b.hiddenSectors.toNat % 2 ^ 8 + b.rsrvdCnt.toNat

/-- `fs->root_dir_start`. -/
def rootDirStart : Nat := b.fatStart + b.numFats.toNat * b.sectorsPerFat.toNat

/-- `fs->root_dir_sectors`. A directory entry has 32 bytes. -/
def rootDirSectors : Nat := b.maxRootDirEntries.toNat * 32 / b.bytesPerSector.toNat

/-- `fs->data_area_start`. -/
def dataAreaStart : Nat := b.rootDirStart + b.rootDirSectors

/-- The size of `fs->fat_table`. -/
def fatSize : Nat := b.sectorsPerFat.toNat * b.bytesPerSector.toNat

/-- The sectors of a mounted volume are numbered far below `2 ^ 32`. -/
theorem dataAreaStart_lt : b.dataAreaStart < 2 ^ 25 := by
  have hfats : b.numFats.toNat * b.sectorsPerFat.toNat ≤ 255 * 65535 :=
    Nat.mul_le_mul (Nat.le_of_lt_succ b.numFats.toNat_lt) (Nat.le_of_lt_succ b.sectorsPerFat.toNat_lt)
  have hroot : b.rootDirSectors ≤ 65535 * 32 :=
    Nat.le_trans (Nat.div_le_self _ _)
      (Nat.mul_le_mul_right 32 (Nat.le_of_lt_succ b.maxRootDirEntries.toNat_lt))
  have hreserved := b.rsrvdCnt.toNat_lt
  simp only [dataAreaStart, rootDirStart, fatStart]
  omega

/-! ### Where the boot sector says that the volume has its regions

Not where the driver looks for them: all bits of `hidden_sectors` count, and the
root directory has a sector for its last entries. -/

/-- The first sector of the FATs. -/
def fatBegin : Nat := b.hiddenSectors.toNat + b.rsrvdCnt.toNat

/-- The first sector of the root directory. -/
def rootDirBegin : Nat := b.fatBegin + b.numFats.toNat * b.sectorsPerFat.toNat

/-- The sectors that hold the entries of the root directory. -/
def rootDirLength : Nat :=
  (b.maxRootDirEntries.toNat * 32 + b.bytesPerSector.toNat - 1) / b.bytesPerSector.toNat

/-- The first sector of the first cluster. -/
def dataAreaBegin : Nat := b.rootDirBegin + b.rootDirLength

/-- The boot sector (the device is mounted from sector 0, and the volume begins
behind the hidden sectors), a FAT, or the root directory. -/
def SystemSector (s : Nat) : Prop :=
  (s = 0 ∨ s = b.hiddenSectors.toNat) ∨ (b.fatBegin ≤ s ∧ s < b.rootDirBegin) ∨
    (b.rootDirBegin ≤ s ∧ s < b.dataAreaBegin)

instance (s : Nat) : Decidable (b.SystemSector s) := inferInstanceAs (Decidable (_ ∨ _ ∨ _))

section Layout

variable {b} (hhidden : b.hiddenSectors.toNat < 2 ^ 8) (hbytes : b.bytesPerSector = 512)
  (hentries : 16 ∣ b.maxRootDirEntries.toNat)

include hhidden in
theorem fatStart_eq : b.fatStart = b.fatBegin := by
  rw [fatStart, fatBegin, Nat.mod_eq_of_lt hhidden]

include hhidden in
theorem rootDirStart_eq : b.rootDirStart = b.rootDirBegin := by
  rw [rootDirStart, rootDirBegin, fatStart_eq hhidden]

include hbytes hentries in
theorem rootDirSectors_eq : b.rootDirSectors = b.rootDirLength := by
  have hsector : b.bytesPerSector.toNat = 512 := congrArg UInt16.toNat hbytes
  rw [rootDirSectors, rootDirLength, hsector]
  omega

include hhidden hbytes hentries

theorem dataAreaStart_eq : b.dataAreaStart = b.dataAreaBegin := by
  rw [dataAreaStart, dataAreaBegin, rootDirStart_eq hhidden, rootDirSectors_eq hbytes hentries]

/-- Where the driver's layout is the disk's, its data area has no other region in it. -/
theorem not_systemSector {s : Nat} (hreserved : 0 < b.rsrvdCnt.toNat) (hs : b.dataAreaStart ≤ s) :
    ¬b.SystemSector s := by
  rw [dataAreaStart_eq hhidden hbytes hentries] at hs
  unfold SystemSector
  unfold dataAreaBegin rootDirBegin fatBegin at hs ⊢
  omega

end Layout

end Fat12BootSector

/-- The handle that `fat12_mount` makes: the boot sector, and the FAT with
whatever bytes the device returned for it. -/
def fat12Mount (blockDev : Option BlockDevice) (b : Fat12BootSector)
    (fatTable : { bytes : List Byte // bytes.length = b.fatSize }) : Fat12Handle where
  blockDev := blockDev
  bpb := ⟨b.bytesPerSector.toNat, b.sectorsPerCluster.toNat⟩
  fatTable := fatTable
  dataAreaStart := b.dataAreaStart

/-! ## The read, with a record -/

/-- A lookup of the two bytes at an offset of the FAT, or a sector that is read as
file data. -/
inductive Access
  | fatEntry (offset : Nat)
  | sector (lba : Nat)
deriving DecidableEq

/-- The two bytes lie in the loaded table; the sector lies in the data area of the
mounted volume, and in none of the regions that the disk has in front of its files. -/
def Access.Safe (b : Fat12BootSector) (fs : Fat12Handle) : Access → Prop
  | .fatEntry offset => offset + 1 < fs.fatTable.length
  | .sector lba => fs.dataAreaStart ≤ lba ∧ ¬b.SystemSector lba

instance (b : Fat12BootSector) (fs : Fat12Handle) (a : Access) : Decidable (a.Safe b fs) := by
  cases a <;> unfold Access.Safe <;> infer_instance

/-- `copy_start` of iteration `i`. -/
def Fat12Handle.copyStart (fs : Fat12Handle) (offs i : Nat) : Nat :=
  if i = 0 then offs % fs.bytesPerCluster else 0

/-- `copy_end` of iteration `i`. -/
def Fat12Handle.copyEnd (fs : Fat12Handle) (offs size clustersToRead i : Nat) : Nat :=
  let copyEnd :=
    if i + 1 = clustersToRead then u32 (offs + size) % fs.bytesPerCluster
    else fs.bytesPerCluster
  if copyEnd = 0 then fs.bytesPerCluster else copyEnd

/-- `Fat12Handle.readClusters` with a record of its accesses. After a lookup
outside the table nothing more is known. -/
def Fat12Handle.readClustersLog (fs : Fat12Handle) (offs size clustersToRead : Nat) :
    Nat → Nat → Nat → List Byte → List Access × Option (List Byte)
  | _, 0, _, _ => ([], some [])
  | i, n + 1, currCluster, readBuf =>
    match fs.getFentry currCluster with
    | none => ([.fatEntry (currCluster * 3 / 2)], none)
    | some fentry =>
      let lba := fs.clusterToLba currCluster
      let accesses : List Access := [.fatEntry (currCluster * 3 / 2), .sector lba]
      let (_, readBuf) := blkread fs.blockDev lba readBuf
      let copyStart := fs.copyStart offs i
      let copyEnd := fs.copyEnd offs size clustersToRead i
      if copyEnd < copyStart then (accesses, none)
      else
        let bytes := (readBuf.drop copyStart).take (copyEnd - copyStart)
        if fat12EocMin ≤ currCluster then (accesses, some bytes)
        else
          let (rest, stored) := fs.readClustersLog offs size clustersToRead (i + 1) n fentry readBuf
          (accesses ++ rest, stored.map (bytes ++ ·))

/-- `start_cluster` of `fat12_read`. -/
def startCluster (fs : Fat12Handle) (inode : Fat12DirEntry) (offs : Nat) : Nat :=
  u16 (inode.firstClusterLow + offs / fs.bytesPerCluster)

/-- `size` of `fat12_read` once it is cut to the end of the file. -/
def clippedSize (inode : Fat12DirEntry) (offs size : Nat) : Nat :=
  if inode.fileSize < u32 (offs + size) then inode.fileSize - offs else size

/-- `clusters_to_read` of `fat12_read`. -/
def clustersToRead (fs : Fat12Handle) (inode : Fat12DirEntry) (offs size : Nat) : Nat :=
  let wanted := u32 (offs % fs.bytesPerCluster + clippedSize inode offs size)
  u16 (wanted / fs.bytesPerCluster + if wanted % fs.bytesPerCluster = 0 then 0 else 1)

/-- `fat12Read` with a record of its accesses. -/
def fat12ReadLog (node : Option Fat12Vnode) (offs size : Nat) (bufIsNull : Bool)
    (readBuf : Option (List Byte)) : List Access × Option (Int × List Byte) :=
  match node.bind Fat12Vnode.inode with
  | none => ([], some (-1, []))
  | some inode =>
    if bufIsNull ∨ size = 0 then ([], some (-1, []))
    else
      match node.bind Fat12Vnode.fs with
      | none => ([], some (-1, []))
      | some fs =>
        if inode.attributes &&& fat12Dir ≠ 0 then ([], some (-1, []))
        else if inode.fileSize ≤ offs then ([], some (0, []))
        else if fs.bytesPerCluster = 0 then ([], none)
        else
          match readBuf with
          | none => ([], some (-1, []))
          | some readBuf =>
            let size' := clippedSize inode offs size
            let n := clustersToRead fs inode offs size
            let (accesses, stored) :=
              fs.readClustersLog offs size' n 0 n (startCluster fs inode offs) readBuf
            (accesses, stored.map fun stored => (i32 size', stored))

namespace Fat12Handle

variable {fs : Fat12Handle} {offs size clustersToRead n i curr : Nat} {readBuf : List Byte}

/-- One iteration of the loop, with its copy bounds by name. -/
theorem readClusters_succ {fentry : Nat} (h : fs.getFentry curr = some fentry) :
    fs.readClusters offs size clustersToRead i (n + 1) curr readBuf =
      let buf := (blkread fs.blockDev (fs.clusterToLba curr) readBuf).2
      let bytes := (buf.drop (fs.copyStart offs i)).take
        (fs.copyEnd offs size clustersToRead i - fs.copyStart offs i)
      if fs.copyEnd offs size clustersToRead i < fs.copyStart offs i then none
      else if fat12EocMin ≤ curr then some bytes
      else (fs.readClusters offs size clustersToRead (i + 1) n fentry buf).map (bytes ++ ·) := by
  rw [readClusters, h]
  simp only [Option.map_eq_bind]
  rfl

theorem readClustersLog_result :
    (fs.readClustersLog offs size clustersToRead i n curr readBuf).2 =
      fs.readClusters offs size clustersToRead i n curr readBuf := by
  induction n generalizing i curr readBuf with
  | zero => rfl
  | succ n ih =>
    cases hentry : fs.getFentry curr with
    | none => simp [readClustersLog, readClusters, hentry]
    | some fentry =>
      rw [readClusters_succ hentry, readClustersLog, hentry]
      simp only
      split
      · rfl
      · split
        · rfl
        · rw [← ih]

end Fat12Handle

/-- Recording the accesses leaves the read as it is. -/
theorem fat12ReadLog_result (node : Option Fat12Vnode) (offs size : Nat) (bufIsNull : Bool)
    (readBuf : Option (List Byte)) :
    (fat12ReadLog node offs size bufIsNull readBuf).2 =
      fat12Read node offs size bufIsNull readBuf := by
  unfold fat12ReadLog fat12Read
  cases node.bind Fat12Vnode.inode with
  | none => rfl
  | some inode =>
    by_cases hnull : (bufIsNull : Prop) ∨ size = 0
    · simp only [hnull, if_true]
    simp only [hnull, if_false]
    cases node.bind Fat12Vnode.fs with
    | none => rfl
    | some fs =>
      by_cases hdir : inode.attributes &&& fat12Dir ≠ 0
      · simp only [if_pos hdir]
      by_cases hend : inode.fileSize ≤ offs
      · simp only [hdir, hend, if_true, if_false]
      by_cases hzero : fs.bytesPerCluster = 0
      · simp only [hdir, hend, hzero, if_true, if_false]
      simp only [hdir, hend, hzero, if_false]
      cases readBuf with
      | none => rfl
      | some readBuf =>
        simp only [Fat12Handle.readClustersLog_result, Option.map_eq_bind, Option.bind_eq_bind]
        rfl

/-! ## The chain behind the accesses -/

namespace Fat12Handle

variable {b : Fat12BootSector} {fs : Fat12Handle} {offs size clustersToRead n i curr : Nat}
  {readBuf : List Byte}

/-- Cluster number `i` of the FAT chain that starts at `first`. An end-of-chain
mark is the last, and a cluster whose entry is not in the table has no next. -/
def chainAt (fs : Fat12Handle) (first : Nat) : Nat → Option Nat
  | 0 => some first
  | i + 1 => do
    let c ← fs.chainAt first i
    if fat12EocMin ≤ c then none else fs.getFentry c

theorem chainAt_succ (fs : Fat12Handle) (first i : Nat) : fs.chainAt first (i + 1) =
    if fat12EocMin ≤ first then none
    else (fs.getFentry first).bind fun next => fs.chainAt next i := by
  induction i with
  | zero =>
    by_cases heoc : fat12EocMin ≤ first
    · simp [chainAt, heoc]
    · simp [chainAt, heoc]
  | succ i ih =>
    rw [chainAt, ih]
    split
    · rfl
    · rw [Option.bind_eq_bind, Option.bind_assoc]
      rfl

/-- The accesses of the loop for `n` clusters from `curr` on. -/
def chainAccesses (fs : Fat12Handle) : Nat → Nat → List Access
  | 0, _ => []
  | n + 1, curr =>
    match fs.getFentry curr with
    | none => [.fatEntry (curr * 3 / 2)]
    | some fentry =>
      .fatEntry (curr * 3 / 2) :: .sector (fs.clusterToLba curr) ::
        if fat12EocMin ≤ curr then [] else fs.chainAccesses n fentry

/-- What the loop touches depends on the FAT alone, and not on the offsets it
copies from or on what the device returns. -/
theorem readClustersLog_accesses (hin : i + n = clustersToRead) (hbytes : fs.bytesPerCluster ≠ 0) :
    (fs.readClustersLog offs size clustersToRead i n curr readBuf).1 = fs.chainAccesses n curr := by
  induction n generalizing i curr readBuf with
  | zero => rfl
  | succ n ih =>
    rw [readClustersLog, chainAccesses]
    cases fs.getFentry curr with
    | none => rfl
    | some fentry =>
      simp only
      split
      case isTrue hback =>
        -- only the last iteration can copy backwards
        have hlast : n = 0 := by
          by_contra hn
          have hmod := Nat.mod_lt offs (Nat.pos_of_ne_zero hbytes)
          have hnot : ¬i + 1 = clustersToRead := by omega
          simp only [copyEnd, copyStart, hnot, hbytes, if_false] at hback
          split at hback <;> omega
        subst hlast
        simp only [chainAccesses, ite_self]
      case isFalse =>
        split
        · rfl
        · rw [ih (by omega)]
          rfl

/-- A cluster whose two accesses are safe. -/
def GoodCluster (b : Fat12BootSector) (fs : Fat12Handle) (c : Nat) : Prop :=
  2 ≤ c ∧ c * 3 / 2 + 1 < fs.fatTable.length ∧
    ¬b.SystemSector (fs.dataAreaStart + (c - 2) * fs.bpb.sectorsPerCluster)

theorem getFentry_isSome {c : Nat} :
    (∃ e, fs.getFentry c = some e) ↔ c * 3 / 2 + 1 < fs.fatTable.length := by
  unfold getFentry
  constructor
  · rintro ⟨e, he⟩
    simp only [Option.bind_eq_bind, Option.bind_eq_some_iff] at he
    obtain ⟨low, -, high, hhigh, -⟩ := he
    exact (List.getElem?_eq_some_iff.mp hhigh).1
  · intro h
    have hlow : c * 3 / 2 < fs.fatTable.length := by omega
    simp [List.getElem?_eq_getElem h, List.getElem?_eq_getElem hlow]

/-- Without wrap-around, the sector of a cluster is in the data area exactly for
the numbers from 2 on. Sector 0, the answer for the others, is the boot sector. -/
theorem sector_safe {c : Nat}
    (hlba : fs.dataAreaStart + (c - 2) * fs.bpb.sectorsPerCluster < 2 ^ 32) :
    (Access.sector (fs.clusterToLba c)).Safe b fs ↔
      2 ≤ c ∧ ¬b.SystemSector (fs.dataAreaStart + (c - 2) * fs.bpb.sectorsPerCluster) := by
  unfold Access.Safe clusterToLba u32
  by_cases hc : c < 2
  · have hboot : b.SystemSector 0 := .inl (.inl rfl)
    simp [hc, hboot]
  · have hle : fs.dataAreaStart ≤ fs.dataAreaStart + (c - 2) * fs.bpb.sectorsPerCluster :=
      Nat.le_add_right _ _
    simp only [if_neg hc, Nat.mod_eq_of_lt hlba, hle, true_and, Nat.not_lt.mp hc]

theorem getFentry_lt {c e : Nat} (h : fs.getFentry c = some e) : e < 2 ^ 12 := by
  simp only [getFentry, Option.bind_eq_bind, Option.bind_eq_some_iff] at h
  obtain ⟨low, -, high, -, h⟩ := h
  obtain rfl := Option.some.inj h
  exact Nat.mod_lt _ (by decide)

/-- What holds of all the clusters of a walk holds of the first and of the others. -/
theorem forall_chainAt_succ {Q : Nat → Prop} :
    (∀ i c, i < n + 1 → fs.chainAt curr i = some c → Q c) ↔
      Q curr ∧ ∀ i c, i < n → fs.chainAt curr (i + 1) = some c → Q c := by
  constructor
  · intro h
    exact ⟨h 0 curr (Nat.succ_pos n) rfl, fun i c hi => h (i + 1) c (Nat.succ_lt_succ hi)⟩
  · rintro ⟨hzero, hsucc⟩ i c hi hc
    cases i with
    | zero => exact Option.some.inj hc ▸ hzero
    | succ i => exact hsucc i c (Nat.lt_of_succ_lt_succ hi) hc

/-- **The accesses are safe** exactly when the clusters of the chain are good, as
far as the loop follows it. -/
theorem chainAccesses_safe_iff
    (hlba : ∀ c, c < 2 ^ 16 → fs.dataAreaStart + (c - 2) * fs.bpb.sectorsPerCluster < 2 ^ 32)
    (hcurr : curr < 2 ^ 16) :
    (∀ a ∈ fs.chainAccesses n curr, a.Safe b fs) ↔
      ∀ i c, i < n → fs.chainAt curr i = some c → fs.GoodCluster b c := by
  induction n generalizing curr with
  | zero => simp [chainAccesses]
  | succ n ih =>
    rw [forall_chainAt_succ, chainAccesses]
    cases hentry : fs.getFentry curr with
    | none =>
      -- the lookup itself is out of the table
      have hout : ¬curr * 3 / 2 + 1 < fs.fatTable.length := by
        rw [← getFentry_isSome, hentry]
        simp
      simp only [List.mem_singleton, forall_eq, Access.Safe]
      exact ⟨fun h => absurd h hout, fun h => absurd h.1.2.1 hout⟩
    | some fentry =>
      have hinside := getFentry_isSome.mp ⟨fentry, hentry⟩
      have hgood : fs.GoodCluster b curr ↔
          (Access.sector (fs.clusterToLba curr)).Safe b fs := by
        rw [sector_safe (hlba curr hcurr)]
        simp only [GoodCluster, hinside, true_and]
      simp only [List.forall_mem_cons, hgood, chainAt_succ, hentry, Option.bind_some]
      have hfat : (Access.fatEntry (curr * 3 / 2)).Safe b fs := hinside
      simp only [hfat, true_and]
      refine and_congr_right fun _ => ?_
      by_cases heoc : fat12EocMin ≤ curr
      · simp [heoc]
      · simp only [heoc, if_false]
        exact ih (Nat.lt_trans (getFentry_lt hentry) (by decide))

end Fat12Handle

/-! ## Reads of a mounted volume -/

/-- The request is not refused, and the loop runs. -/
def Requested (fs : Fat12Handle) (inode : Fat12DirEntry) (offs size : Nat) (bufIsNull : Bool)
    (readBuf : Option (List Byte)) : Prop :=
  ¬(bufIsNull ∨ size = 0) ∧ inode.attributes &&& fat12Dir = 0 ∧ offs < inode.fileSize ∧
    fs.bytesPerCluster ≠ 0 ∧ readBuf ≠ none

variable (blockDev : Option BlockDevice) (b : Fat12BootSector)
  (fatTable : { bytes : List Byte // bytes.length = b.fatSize }) (inode : Fat12DirEntry)
  (offs size : Nat) (bufIsNull : Bool) (readBuf : Option (List Byte))

/-- No sector number of a mounted volume wraps around. -/
theorem fat12Mount_lba_lt {c : Nat} (hc : c < 2 ^ 16) :
    (fat12Mount blockDev b fatTable).dataAreaStart +
      (c - 2) * (fat12Mount blockDev b fatTable).bpb.sectorsPerCluster < 2 ^ 32 := by
  have hdata : (fat12Mount blockDev b fatTable).dataAreaStart < 2 ^ 25 := b.dataAreaStart_lt
  have hsectors : (fat12Mount blockDev b fatTable).bpb.sectorsPerCluster ≤ 255 :=
    Nat.le_of_lt_succ b.sectorsPerCluster.toNat_lt
  have hmul : (c - 2) * (fat12Mount blockDev b fatTable).bpb.sectorsPerCluster ≤ 2 ^ 16 * 255 :=
    Nat.mul_le_mul (by omega) hsectors
  omega

/-- The accesses of a read are those of its chain, when the loop runs. -/
theorem fat12ReadLog_accesses (fs : Fat12Handle) :
    (fat12ReadLog (some ⟨some inode, some fs⟩) offs size bufIsNull readBuf).1 = [] ∧
        ¬Requested fs inode offs size bufIsNull readBuf ∨
      (fat12ReadLog (some ⟨some inode, some fs⟩) offs size bufIsNull readBuf).1 =
          fs.chainAccesses (clustersToRead fs inode offs size) (startCluster fs inode offs) ∧
        Requested fs inode offs size bufIsNull readBuf := by
  unfold fat12ReadLog Requested
  simp only [Option.bind_some]
  by_cases hnull : (bufIsNull : Prop) ∨ size = 0
  · simp [hnull]
  by_cases hdir : inode.attributes &&& fat12Dir = 0
  · by_cases hend : inode.fileSize ≤ offs
    · simp [hnull, hdir, hend]
    · by_cases hzero : fs.bytesPerCluster = 0
      · simp [hnull, hdir, hend, hzero]
      · cases readBuf with
        | none => simp [hnull, hdir, hend, hzero]
        | some readBuf =>
          refine .inr ⟨?_, hnull, hdir, by omega, hzero, by simp⟩
          rw [if_neg hnull, if_neg (not_not.mpr hdir), if_neg hend, if_neg hzero]
          exact Fat12Handle.readClustersLog_accesses (Nat.zero_add _) hzero
  · simp [hnull, hdir]

/-- **Reads of a mounted volume**, whatever its FAT and the directory entry: every
access is safe if and only if each cluster of the FAT chain from the computed
start cluster on, as far as the request follows it, is at least 2, has its entry
in the loaded table, and does not lie in the boot sector, a FAT or the root
directory of the disk. -/
theorem fat12Read_safe_iff (hsector : b.bytesPerSector = 512) :
    (∀ a ∈ (fat12ReadLog (some ⟨some inode, some (fat12Mount blockDev b fatTable)⟩) offs size
        bufIsNull readBuf).1, a.Safe b (fat12Mount blockDev b fatTable)) ↔
      (Requested (fat12Mount blockDev b fatTable) inode offs size bufIsNull readBuf →
        ∀ i c, i < clustersToRead (fat12Mount blockDev b fatTable) inode offs size →
          (fat12Mount blockDev b fatTable).chainAt
            (startCluster (fat12Mount blockDev b fatTable) inode offs) i = some c →
          2 ≤ c ∧ c * 3 / 2 + 1 < b.sectorsPerFat.toNat * 512 ∧
            ¬b.SystemSector (b.dataAreaStart + (c - 2) * b.sectorsPerCluster.toNat)) := by
  have hsize : (fat12Mount blockDev b fatTable).fatTable.length = b.sectorsPerFat.toNat * 512 := by
    rw [show (fat12Mount blockDev b fatTable).fatTable.length = b.fatSize from fatTable.2,
      Fat12BootSector.fatSize, hsector]
    rfl
  rcases fat12ReadLog_accesses inode offs size bufIsNull readBuf (fat12Mount blockDev b fatTable)
    with ⟨hlog, hrefused⟩ | ⟨hlog, hrequested⟩
  · rw [hlog]
    exact ⟨fun _ h => absurd h hrefused, fun _ a ha => nomatch ha⟩
  · have hstart : startCluster (fat12Mount blockDev b fatTable) inode offs < 2 ^ 16 :=
      Nat.mod_lt _ (by decide)
    rw [hlog, Fat12Handle.chainAccesses_safe_iff
      (fun c hc => fat12Mount_lba_lt blockDev b fatTable hc) hstart]
    simp only [hrequested, forall_const, Fat12Handle.GoodCluster, hsize]
    rfl

/-- A volume with one sector for its single FAT, and a data area from sector 3. -/
def sampleBoot : Fat12BootSector := ⟨512, 1, 1, 1, 16, 1, 0⟩

/-- A FAT of zeros. -/
def sampleFat : { bytes : List Byte // bytes.length = sampleBoot.fatSize } :=
  ⟨List.replicate 512 0, List.length_replicate⟩

/-- A file of one byte in cluster 2 is read safely. -/
theorem fat12Read_safe_first :
    let accesses := (fat12ReadLog
      (some ⟨some ⟨0x20, 2, 1⟩, some (fat12Mount none sampleBoot sampleFat)⟩) 0 1 false
      (some (List.replicate 512 0))).1
    accesses ≠ [] ∧ ∀ a ∈ accesses, a.Safe sampleBoot (fat12Mount none sampleBoot sampleFat) := by
  refine ⟨by decide +kernel, (fat12Read_safe_iff none sampleBoot sampleFat ⟨0x20, 2, 1⟩ 0 1 false
    (some (List.replicate 512 0)) rfl).mpr fun _ i c hi hc => ?_⟩
  obtain rfl : i = 0 := Nat.lt_one_iff.mp hi
  obtain rfl := Option.some.inj hc
  exact ⟨by decide, by decide, Fat12BootSector.not_systemSector (by decide) rfl (by decide)
    (by decide) (Nat.le_add_right _ _)⟩

/-- A directory entry with first cluster 0 makes the read take the boot sector for
the file. -/
theorem bootSector_read :
    Access.sector 0 ∈ (fat12ReadLog
      (some ⟨some ⟨0x20, 0, 1⟩, some (fat12Mount none sampleBoot sampleFat)⟩) 0 1 false
      (some (List.replicate 512 0))).1 ∧
    ¬(Access.sector 0).Safe sampleBoot (fat12Mount none sampleBoot sampleFat) := by
  refine ⟨?_, by decide +kernel⟩
  rcases fat12ReadLog_accesses ⟨0x20, 0, 1⟩ 0 1 false (some (List.replicate 512 0))
    (fat12Mount none sampleBoot sampleFat) with ⟨-, hrefused⟩ | ⟨hlog, -⟩
  · exact absurd ⟨by decide, by decide, by decide, by decide, Option.some_ne_none _⟩ hrefused
  · rw [hlog]
    decide +kernel

end Leenix
