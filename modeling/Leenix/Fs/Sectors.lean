import Leenix.Fs.Sequential

/-!
# Clusters of several sectors

`fat12_read` asks the block device for one block in each iteration, the first of
the cluster, and copies from `read_buf` as if the whole cluster had been read. The
rest of the buffer is what its `malloc` returned.

- `Contiguous.read`: what a request inside a file in consecutive clusters gets.
- `Contiguous.byte`: byte by byte, it comes from the right sector in the first 512
  bytes of a cluster, and from the fresh buffer behind them.
- `fat12Read_sectors_iff`: so a request is answered from the file's sectors,
  whatever they hold, exactly when it stays in the first sector of one cluster.
-/

namespace Leenix

/-- A regular file in consecutive clusters of two sectors or more, on a device that
has all of them. -/
structure Contiguous (fs : Fat12Handle) (numBlocks : Nat) (inode : Fat12DirEntry) (count : Nat) :
    Prop where
  bytesPerSector : fs.bpb.bytesPerSector = 512
  sectorsPerCluster : 2 ≤ fs.bpb.sectorsPerCluster ∧ fs.bpb.sectorsPerCluster < 2 ^ 8
  regular : inode.attributes &&& fat12Dir = 0
  clusters : fs.Consecutive numBlocks inode.firstClusterLow count
  sectors : ∀ c ∈ List.range' inode.firstClusterLow count,
    fs.dataAreaStart + (c - 2 + 1) * fs.bpb.sectorsPerCluster ≤ numBlocks
  room : inode.fileSize ≤ fs.bytesPerCluster * count

/-- The sector of the file's byte at offset `x`. -/
def sectorOf (fs : Fat12Handle) (inode : Fat12DirEntry) (x : Nat) : Nat :=
  fs.dataAreaStart + (inode.firstClusterLow - 2) * fs.bpb.sectorsPerCluster + x / 512

/-- Whatever the sectors of the device hold, the read returns `size` and stores the
`size` bytes from `offs` on, each from its place in its sector. -/
def ReadsSectors (fs : Fat12Handle) (numBlocks : Nat) (inode : Fat12DirEntry) (offs size : Nat)
    (readBuf : List Byte) : Prop :=
  ∀ blocks : Nat → List Byte, (∀ lba, (blocks lba).length = 512) →
    ∃ stored, fat12Read (some ⟨some inode, some (fs.onDevice numBlocks blocks)⟩) offs size false
        (some readBuf) = some ((size : Int), stored) ∧
      stored.length = size ∧
      ∀ k, k < size →
        stored[k]? = (blocks (sectorOf fs inode (offs + k)))[(offs + k) % 512]?

/-- The place of a byte in blocks of one length. -/
theorem getElem?_flatMap {α β : Type} {f : α → List β} {B : Nat} {l : List α}
    (hf : ∀ a ∈ l, (f a).length = B) (hB : 0 < B) (j : Nat) :
    (l.flatMap f)[j]? = (l[j / B]?).bind fun a => (f a)[j % B]? := by
  have hsplit : (l.flatMap f)[j]? = ((l.flatMap f).drop (j / B * B))[j % B]? := by
    rw [List.getElem?_drop, Nat.div_add_mod']
  rw [hsplit, Fat12Handle.drop_flatMap hf]
  by_cases hj : j / B < l.length
  · have hlen : (f l[j / B]).length = B := hf _ (List.getElem_mem hj)
    have hin : j % B < (f l[j / B]).length := by
      rw [hlen]
      exact Nat.mod_lt j hB
    rw [List.drop_eq_getElem_cons hj, List.flatMap_cons, List.getElem?_append_left hin,
      List.getElem?_eq_getElem hj, Option.bind_some]
  · rw [List.drop_eq_nil_of_le (Nat.not_lt.mp hj), List.getElem?_eq_none (Nat.not_lt.mp hj)]
    rfl

/-- The walk of the FAT from cluster number `q` of the file. -/
theorem Fat12Handle.Consecutive.walk {fs : Fat12Handle} {numBlocks first count q : Nat}
    (h : fs.Consecutive numBlocks first count) (hq : q < count) :
    (∀ c ∈ List.range' (first + q) (count - q), ∃ e, fs.getFentry c = some e) ∧
      ∀ k, k < count - q → fs.chainAt (first + q) k = (List.range' (first + q) (count - q))[k]? := by
  have hhead : (List.range' first count)[q]? = some (first + q) := by
    rw [List.getElem?_range' hq, Nat.one_mul]
  have hlinks := links_drop h.links hhead
  rw [List.drop_range', Nat.mul_one] at hlinks
  obtain ⟨hentry, hchain⟩ := chainAt_of_links fs hlinks (h.goes_on q)
  exact ⟨hentry, fun k hk => hchain k (by rwa [List.length_range'])⟩

section Contiguous

variable {fs : Fat12Handle} {numBlocks count offs size : Nat} {inode : Fat12DirEntry}
  {blocks : Nat → List Byte} {readBuf : List Byte} (h : Contiguous fs numBlocks inode count)
include h

theorem Contiguous.bytesPerCluster : fs.bytesPerCluster = fs.bpb.sectorsPerCluster * 512 := by
  rw [Fat12Handle.bytesPerCluster, h.bytesPerSector]

theorem Contiguous.bytes : 1024 ≤ fs.bytesPerCluster ∧ fs.bytesPerCluster < 2 ^ 17 := by
  have hsectors := h.sectorsPerCluster
  rw [h.bytesPerCluster]
  omega

/-- The sectors of the file's clusters are on the device. -/
theorem Contiguous.lba (hblocks : numBlocks ≤ 2 ^ 32) {c : Nat}
    (hc : c ∈ List.range' inode.firstClusterLow count) :
    fs.clusterToLba c = fs.dataAreaStart + (c - 2) * fs.bpb.sectorsPerCluster ∧
      fs.clusterToLba c < numBlocks := by
  have hge := Nat.le_trans h.clusters.first_ge (List.mem_range'_1.mp hc).1
  have hin := h.sectors c hc
  have hsectors := h.sectorsPerCluster
  rw [Nat.succ_mul] at hin
  have hlba : fs.clusterToLba c = fs.dataAreaStart + (c - 2) * fs.bpb.sectorsPerCluster := by
    rw [Fat12Handle.clusterToLba, if_neg (Nat.not_lt.mpr hge), u32, Nat.mod_eq_of_lt (by omega)]
  exact ⟨hlba, by omega⟩

theorem Contiguous.countable : Countable fs inode := by
  have hbytes := h.bytes
  have hcount : count < 2 ^ 13 := by
    by_cases hone : count ≤ 1
    · omega
    · have hlast := h.clusters.last_lt (by omega)
      simp only [fat12EocMin] at hlast
      omega
  exact countable_of_room count ⟨by omega, hbytes.2⟩ hcount h.room

/-- **What a request gets**: of each cluster its first sector, and then the rest of
the fresh buffer. -/
theorem Contiguous.read (hblocks : numBlocks ≤ 2 ^ 32)
    (hdev : fs.blockDev = some (.holding numBlocks blocks))
    (hdisk : ∀ lba, (blocks lba).length = 512) (hbuf : readBuf.length = fs.bytesPerCluster)
    (hsize : 0 < size) (hrange : offs + size ≤ inode.fileSize) :
    fat12Read (some ⟨some inode, some fs⟩) offs size false (some readBuf) =
      some ((size : Int), (((List.range' (inode.firstClusterLow + offs / fs.bytesPerCluster)
        (count - offs / fs.bytesPerCluster)).flatMap fun c =>
          blocks (fs.clusterToLba c) ++ readBuf.drop 512).drop
            (offs % fs.bytesPerCluster)).take size) := by
  have hbytes := h.bytes
  have hcountable := h.countable
  have hfile := hcountable.result
  have hmin : min size (inode.fileSize - offs) = size := Nat.min_eq_left (by omega)
  have hoffs : offs < inode.fileSize := by omega
  have hend : offs + size < 2 ^ 32 := by omega
  have hcovers := hcountable.covers hoffs hsize hend
  have hread := hcountable.read hoffs hsize hend h.regular
  rw [hmin] at hcovers hread
  have hroom := h.room
  have hin : offs / fs.bytesPerCluster < count := Nat.div_lt_of_lt_mul (by omega)
  have henough : clustersToRead fs inode offs size ≤ count - offs / fs.bytesPerCluster := by
    have hdiv : (offs + size - 1) / fs.bytesPerCluster < count :=
      Nat.div_lt_of_lt_mul (by omega)
    by_contra hless
    have hlast := (hcovers.lt_iff hsize).mp (Nat.not_le.mp hless)
    omega
  generalize offs / fs.bytesPerCluster = q at *
  have hstart : inode.firstClusterLow + q < 2 ^ 16 := by
    have hlast := h.clusters.count_lt.2
    omega
  obtain ⟨hentry, hchain⟩ := h.clusters.walk hin
  have hmem : ∀ c ∈ List.range' (inode.firstClusterLow + q) (count - q),
      c ∈ List.range' inode.firstClusterLow count := by
    intro c hc
    rw [List.mem_range'_1] at hc ⊢
    omega
  have hcontent : ∀ c, (blocks (fs.clusterToLba c) ++ readBuf.drop 512).length =
      fs.bytesPerCluster := by
    intro c
    rw [List.length_append, List.length_drop, hdisk, hbuf]
    omega
  -- a read keeps the buffer from byte 512 on
  have hstep : ∀ c ∈ List.range' (inode.firstClusterLow + q) (count - q), ∀ buf : List Byte,
      buf.drop 512 = readBuf.drop 512 →
        (blkread fs.blockDev (fs.clusterToLba c) buf).2 =
            blocks (fs.clusterToLba c) ++ readBuf.drop 512 ∧
          (blocks (fs.clusterToLba c) ++ readBuf.drop 512).drop 512 = readBuf.drop 512 := by
    intro c hc buf hkept
    have hlba := (h.lba hblocks (hmem c hc)).2
    constructor
    · rw [hdev]
      simp only [blkread, BlockDevice.holding, Nat.not_le.mpr hlba, if_false, overlay, hdisk, hkept]
    · rw [List.drop_append_of_le_length (hdisk _).ge, List.drop_eq_nil_of_le (hdisk _).le,
        List.nil_append]
  rw [hread hstart, Fat12Handle.readClusters_content hcovers (Nat.zero_add _) hstep
    (fun c _ => hcontent c) hentry (by rwa [List.length_range'])
    (fun k hk => hchain k (Nat.lt_of_lt_of_le hk henough)) rfl, Fat12Handle.copyStart_zero,
    Fat12Handle.left_zero, Option.map_some]

/-- **Byte by byte**: the first 512 bytes of a cluster come from their sector, the
others from the fresh buffer. -/
theorem Contiguous.byte (hblocks : numBlocks ≤ 2 ^ 32)
    (hdisk : ∀ lba, (blocks lba).length = 512) (hbuf : readBuf.length = fs.bytesPerCluster)
    (hrange : offs + size ≤ inode.fileSize) {k : Nat} (hk : k < size) :
    ((((List.range' (inode.firstClusterLow + offs / fs.bytesPerCluster)
        (count - offs / fs.bytesPerCluster)).flatMap fun c =>
          blocks (fs.clusterToLba c) ++ readBuf.drop 512).drop
            (offs % fs.bytesPerCluster)).take size)[k]? =
      if (offs + k) % fs.bytesPerCluster < 512 then
        (blocks (sectorOf fs inode (offs + k)))[(offs + k) % 512]?
      else readBuf[(offs + k) % fs.bytesPerCluster]? := by
  have hbytes := h.bytes
  have hroom := h.room
  have hpos : 0 < fs.bytesPerCluster := by omega
  have hin : (offs + k) / fs.bytesPerCluster < count := Nat.div_lt_of_lt_mul (by omega)
  have hplace : (offs % fs.bytesPerCluster + k) % fs.bytesPerCluster =
      (offs + k) % fs.bytesPerCluster := Nat.mod_add_mod _ _ _
  have hcluster : (offs + k) / fs.bytesPerCluster =
      offs / fs.bytesPerCluster + (offs % fs.bytesPerCluster + k) / fs.bytesPerCluster := by
    conv_lhs => rw [← Nat.div_add_mod offs fs.bytesPerCluster, Nat.add_assoc]
    exact Nat.mul_add_div hpos _ _
  have hcontent : ∀ c, (blocks (fs.clusterToLba c) ++ readBuf.drop 512).length =
      fs.bytesPerCluster := by
    intro c
    rw [List.length_append, List.length_drop, hdisk, hbuf]
    omega
  -- the sector of the cluster that the byte is in, and the byte's place in the cluster
  have hsector : (offs + k) % fs.bytesPerCluster < 512 →
      fs.clusterToLba (inode.firstClusterLow + (offs + k) / fs.bytesPerCluster) =
          sectorOf fs inode (offs + k) ∧
        (offs + k) % 512 = (offs + k) % fs.bytesPerCluster := by
    intro hfirst
    have hc : inode.firstClusterLow + (offs + k) / fs.bytesPerCluster ∈
        List.range' inode.firstClusterLow count :=
      List.mem_range'_1.mpr ⟨Nat.le_add_right _ _, Nat.add_lt_add_left hin _⟩
    have hge := h.clusters.first_ge
    have hx := Nat.div_add_mod (offs + k) fs.bytesPerCluster
    rw [(h.lba hblocks hc).1, sectorOf]
    generalize (offs + k) % fs.bytesPerCluster = place at *
    generalize (offs + k) / fs.bytesPerCluster = q at *
    rw [h.bytesPerCluster, Nat.mul_right_comm] at hx
    have hlow : inode.firstClusterLow + q - 2 = inode.firstClusterLow - 2 + q := by omega
    rw [hlow, Nat.add_mul, Nat.mul_comm q]
    omega
  rw [List.getElem?_take_of_lt hk, List.getElem?_drop,
    getElem?_flatMap (fun c _ => hcontent c) hpos, hplace]
  generalize (offs + k) % fs.bytesPerCluster = place at *
  rw [hcluster] at hin hsector
  rw [List.getElem?_range' (Nat.lt_sub_iff_add_lt'.mpr hin), Option.bind_some, Nat.one_mul,
    Nat.add_assoc]
  split
  case isTrue hfirst =>
    obtain ⟨hlba, hmod⟩ := hsector hfirst
    rw [List.getElem?_append_left (by rwa [hdisk]), hlba, hmod]
  case isFalse hbehind =>
    rw [List.getElem?_append_right (by rw [hdisk]; omega), hdisk, List.getElem?_drop,
      Nat.add_sub_cancel' (Nat.not_lt.mp hbehind)]

theorem Contiguous.length (hblocks : numBlocks ≤ 2 ^ 32)
    (hdisk : ∀ lba, (blocks lba).length = 512) (hbuf : readBuf.length = fs.bytesPerCluster)
    (hsize : 0 < size) (hrange : offs + size ≤ inode.fileSize) :
    ((((List.range' (inode.firstClusterLow + offs / fs.bytesPerCluster)
        (count - offs / fs.bytesPerCluster)).flatMap fun c =>
          blocks (fs.clusterToLba c) ++ readBuf.drop 512).drop
            (offs % fs.bytesPerCluster)).take size).length = size := by
  refine Nat.le_antisymm (List.length_take_le _ _) ?_
  -- the last byte is there
  have hbytes := h.bytes
  have hlast := h.byte hblocks hdisk hbuf hrange (show size - 1 < size by omega)
  by_contra hshort
  rw [List.getElem?_eq_none (by omega)] at hlast
  split at hlast
  · have hnone := List.getElem?_eq_none_iff.mp hlast.symm
    have hmod := Nat.mod_lt (offs + (size - 1)) (show 0 < 512 by decide)
    rw [hdisk] at hnone
    omega
  · have hnone := List.getElem?_eq_none_iff.mp hlast.symm
    have hmod := Nat.mod_lt (offs + (size - 1)) (show 0 < fs.bytesPerCluster by omega)
    omega

/-- What a device holds does not matter to the layout of the file. -/
theorem Contiguous.onDevice (blocks : Nat → List Byte) :
    Contiguous (fs.onDevice numBlocks blocks) numBlocks inode count where
  bytesPerSector := h.bytesPerSector
  sectorsPerCluster := h.sectorsPerCluster
  regular := h.regular
  clusters := ⟨h.clusters.first_ge, h.clusters.first_lt, h.clusters.links, h.clusters.readable⟩
  sectors := h.sectors
  room := h.room

/-- **Clusters of several sectors** are read from the file's sectors, whatever these
hold, exactly when the request stays in the first sector of a cluster. -/
theorem fat12Read_sectors_iff (hblocks : numBlocks ≤ 2 ^ 32)
    (hbuf : readBuf.length = fs.bytesPerCluster) (hsize : 0 < size)
    (hrange : offs + size ≤ inode.fileSize) :
    ReadsSectors fs numBlocks inode offs size readBuf ↔
      offs % fs.bytesPerCluster + size ≤ 512 := by
  have hbytes := h.bytes
  have hmod := Nat.mod_lt offs (show 0 < fs.bytesPerCluster by omega)
  constructor
  · intro hread
    by_contra hbig
    -- the first requested byte that is not in the first sector of its cluster
    obtain ⟨k, hk, hbehind, hin⟩ : ∃ k, k < size ∧ 512 ≤ offs % fs.bytesPerCluster + k ∧
        offs % fs.bytesPerCluster + k < fs.bytesPerCluster :=
      ⟨512 - offs % fs.bytesPerCluster, by omega, by omega, by omega⟩
    have hplace : (offs + k) % fs.bytesPerCluster = offs % fs.bytesPerCluster + k := by
      rw [← Nat.mod_add_mod, Nat.mod_eq_of_lt hin]
    obtain ⟨x, hx⟩ : ∃ x, readBuf[offs % fs.bytesPerCluster + k]? = some x :=
      ⟨_, List.getElem?_eq_getElem (hbuf ▸ hin)⟩
    -- blocks in which that byte of the fresh buffer does not occur
    have hdisk : ∀ lba : Nat, ((fun _ => List.replicate 512 (if x = 0 then 1 else 0) :
        Nat → List Byte) lba).length = 512 := fun _ => List.length_replicate
    obtain ⟨stored, hstored, -, hbyte⟩ := hread _ hdisk
    have hvalue := hbyte k hk
    rw [(h.onDevice _).read hblocks rfl hdisk hbuf hsize hrange] at hstored
    rw [← (Prod.mk.inj (Option.some.inj hstored)).2,
      (h.onDevice _).byte hblocks hdisk hbuf hrange hk] at hvalue
    change (if (offs + k) % fs.bytesPerCluster < 512 then _ else
      readBuf[(offs + k) % fs.bytesPerCluster]?) = _ at hvalue
    rw [hplace, if_neg (Nat.not_lt.mpr hbehind), hx,
      List.getElem?_replicate_of_lt (Nat.mod_lt _ (by decide))] at hvalue
    have heq := Option.some.inj hvalue
    by_cases hzero : x = 0
    · rw [if_pos hzero, hzero] at heq
      exact absurd heq (by decide)
    · rw [if_neg hzero] at heq
      exact hzero heq
  · intro hfits blocks hdisk
    refine ⟨_, (h.onDevice blocks).read hblocks rfl hdisk hbuf hsize hrange, ?_, fun k hk => ?_⟩
    · exact (h.onDevice blocks).length hblocks hdisk hbuf hsize hrange
    · rw [(h.onDevice blocks).byte hblocks hdisk hbuf hrange hk]
      have hin : offs % fs.bytesPerCluster + k < fs.bytesPerCluster := by omega
      have hplace : (offs + k) % fs.bytesPerCluster = offs % fs.bytesPerCluster + k := by
        rw [← Nat.mod_add_mod, Nat.mod_eq_of_lt hin]
      exact if_pos (show (offs + k) % fs.bytesPerCluster < 512 by omega)

end Contiguous

/-- A volume with two sectors to a cluster. Cluster 2 is a file's only one, in
blocks 10 and 11. -/
def sampleVolume₃ : Fat12Handle where
  blockDev := none
  bpb := ⟨512, 2⟩
  fatTable := [0xF0, 0xFF, 0xFF, 0xFF, 0x0F]
  dataAreaStart := 10

theorem sampleVolume₃_contiguous : Contiguous sampleVolume₃ 100 sampleFile 1 where
  bytesPerSector := rfl
  sectorsPerCluster := by decide
  regular := rfl
  clusters := ⟨by decide, by decide, ⟨rfl, none, rfl, rfl⟩, by decide⟩
  sectors := by decide
  room := by decide

/-- The first byte of the file. -/
theorem fat12Read_sectors_iff_first :
    ReadsSectors sampleVolume₃ 100 sampleFile 0 1 (List.replicate 1024 0) ↔
      0 % sampleVolume₃.bytesPerCluster + 1 ≤ 512 :=
  fat12Read_sectors_iff sampleVolume₃_contiguous (by decide) List.length_replicate (by decide)
    (by decide)

/-- Byte 512 of the file is the first of block 11; the read stores what `malloc`
left in the buffer. -/
theorem second_sector_missed :
    Contiguous sampleVolume₃ 100 sampleFile 1 ∧ sectorOf sampleVolume₃ sampleFile 512 = 11 ∧
    fat12Read (some ⟨some sampleFile, some (sampleVolume₃.onDevice 100 sampleDisk)⟩) 512 1 false
      (some (List.replicate 1024 0)) = some (1, [0]) ∧
    ¬ReadsSectors sampleVolume₃ 100 sampleFile 512 1 (List.replicate 1024 0) := by
  have hread : fat12Read (some ⟨some sampleFile, some (sampleVolume₃.onDevice 100 sampleDisk)⟩) 512
      1 false (some (List.replicate 1024 0)) = some (1, [0]) := by decide +kernel
  refine ⟨sampleVolume₃_contiguous, by decide, hread, fun h => ?_⟩
  obtain ⟨stored, hstored, -, hbyte⟩ := h sampleDisk fun _ => List.length_replicate
  rw [hread] at hstored
  have hvalue := hbyte 0 (by decide)
  rw [← (Prod.mk.inj (Option.some.inj hstored)).2] at hvalue
  exact absurd hvalue (by decide +kernel)

end Leenix
