import Leenix.Fs.Chain

/-!
# Clipping a read to the file

`fat12_read` compares `offs + size` with the size of the file to cut the request,
and computes the number of clusters and the end of the last copy from the same
sums, all in 32 bits. A request whose end is not below `2 ^ 32` is compared wrapped
around, so it is not cut.

- `clipped_of_range`: without a wrap-around the stored bytes are counted right as
  long as the FAT leads from the computed start cluster through enough clusters.
- `fat12Read_clipped_iff`: on a healthy volume these are all the requests whose
  bytes are counted right.
-/

namespace Leenix

/-- A regular file on a volume in good order: its chain leads through data
clusters that the device has, and has room for the file's bytes. An empty file
has no chain. -/
structure Healthy (fs : Fat12Handle) (numBlocks : Nat) (inode : Fat12DirEntry) (cs : List Nat) :
    Prop where
  device : ∃ blocks, fs.blockDev = some (.holding numBlocks blocks) ∧
    ∀ lba, (blocks lba).length = 512
  bytesPerSector : fs.bpb.bytesPerSector = 512
  sectorsPerCluster : 0 < fs.bpb.sectorsPerCluster ∧ fs.bpb.sectorsPerCluster < 2 ^ 8
  regular : inode.attributes &&& fat12Dir = 0
  links : 0 < inode.fileSize → Seg fs.nextCluster (some inode.firstClusterLow) cs none
  valid : ∀ c ∈ cs, 2 ≤ c ∧ c < fat12BadCluster ∧
    fs.dataAreaStart + (c - 2 + 1) * fs.bpb.sectorsPerCluster ≤ numBlocks
  room : inode.fileSize ≤ fs.bytesPerCluster * cs.length

/-- The read returns the smaller of the requested size and what the file has from
`offs` on, and stores that many bytes. -/
def Clipped (fs : Fat12Handle) (inode : Fat12DirEntry) (offs size : Nat)
    (readBuf : Option (List Byte)) : Prop :=
  ∃ stored, fat12Read (some ⟨some inode, some fs⟩) offs size false readBuf =
      some (((min size (inode.fileSize - offs) : Nat) : Int), stored) ∧
    stored.length = min size (inode.fileSize - offs)

/-- Every cluster number that the request needs from the cluster `first` on, which
is taken for the one at `offs`, is reached in the FAT and has its entry in the
loaded table. -/
def Reaches (fs : Fat12Handle) (first offs size : Nat) : Prop :=
  ∀ i, offs / fs.bytesPerCluster + i ≤ (offs + size - 1) / fs.bytesPerCluster →
    ∃ c, fs.chainAt (first + offs / fs.bytesPerCluster) i = some c ∧
      c * 3 / 2 + 1 < fs.fatTable.length

section Healthy

variable {fs : Fat12Handle} {numBlocks : Nat} {inode : Fat12DirEntry} {cs : List Nat}
  {offs size : Nat} (h : Healthy fs numBlocks inode cs)
include h

theorem Healthy.bytesPerCluster : fs.bytesPerCluster = fs.bpb.sectorsPerCluster * 512 := by
  rw [Fat12Handle.bytesPerCluster, h.bytesPerSector]

theorem Healthy.bytes : 512 ≤ fs.bytesPerCluster ∧ fs.bytesPerCluster < 2 ^ 17 := by
  have hsectors := h.sectorsPerCluster
  rw [h.bytesPerCluster]
  omega

/-- The chain of a file with a byte at `offs`. -/
theorem Healthy.bounds (hoffs : offs < inode.fileSize) :
    inode.firstClusterLow < fat12BadCluster ∧ cs.length ≤ fat12BadCluster ∧
      offs / fs.bytesPerCluster < cs.length := by
  have hlinks := h.links (Nat.zero_lt_of_lt hoffs)
  have hin : offs / fs.bytesPerCluster < cs.length := by
    have hroom := h.room
    exact Nat.div_lt_of_lt_mul (by omega)
  refine ⟨?_, Fat12Handle.length_le_of_links hlinks fun c hc => (h.valid c hc).2.1, hin⟩
  obtain ⟨c, rest, rfl⟩ := List.exists_cons_of_length_pos (Nat.zero_lt_of_lt hin)
  obtain rfl := Option.some.inj hlinks.1
  exact (h.valid _ List.mem_cons_self).2.1

theorem Healthy.countable : Countable fs inode := by
  have hbytes := h.bytes
  by_cases hempty : inode.fileSize = 0
  · exact countable_of_room 0 ⟨by omega, hbytes.2⟩ (by decide) (by omega)
  · have hcs := (h.bounds (Nat.pos_of_ne_zero hempty)).2.1
    simp only [fat12BadCluster] at hcs
    exact countable_of_room cs.length ⟨by omega, hbytes.2⟩ (by omega) h.room

end Healthy

section Clipped

variable {fs : Fat12Handle} {numBlocks : Nat} {inode : Fat12DirEntry} {cs : List Nat}
  {offs size : Nat}

/-- A read keeps the size of `read_buf`. -/
theorem Healthy.length_blkread (h : Healthy fs numBlocks inode cs) (lba : Nat) {buf : List Byte}
    (hbuf : buf.length = fs.bytesPerCluster) :
    (blkread fs.blockDev lba buf).2.length = fs.bytesPerCluster := by
  obtain ⟨blocks, hdev, hlen⟩ := h.device
  rw [← hbuf, hdev]
  refine blkread_length fun d hd read hread lba => ?_
  obtain rfl := Option.some.inj hd
  obtain rfl := Option.some.inj hread
  show (blocks lba).length ≤ buf.length
  rw [hlen, hbuf]
  exact h.bytes.1

/-- Without a wrap-around everything hangs on the walk of the FAT. -/
theorem clipped_of_range (h : Healthy fs numBlocks inode cs) {readBuf : List Byte}
    (hbuf : readBuf.length = fs.bytesPerCluster) (hoffs : offs < inode.fileSize)
    (hsize : 0 < size) (hrange : offs + size < 2 ^ 32) :
    Clipped fs inode offs size (some readBuf) ↔
      Reaches fs inode.firstClusterLow offs (min size (inode.fileSize - offs)) := by
  have hcovers := h.countable.covers hoffs hsize hrange
  have hmin : 0 < min size (inode.fileSize - offs) := by omega
  have hstart : inode.firstClusterLow + offs / fs.bytesPerCluster < 2 ^ 16 := by
    obtain ⟨hfirst, hcs, hin⟩ := h.bounds hoffs
    simp only [fat12BadCluster] at hfirst hcs
    omega
  have hgood := Fat12Handle.good_iff (fun _ => True)
    (inode.firstClusterLow + offs / fs.bytesPerCluster) hcovers hmin (Nat.zero_add _)
    (fun lba _ hlen => h.length_blkread lba hlen) hbuf
  simp only [Fat12Handle.left_zero, Fat12Handle.getFentry_isSome, implies_true, and_true,
    hcovers.lt_iff hmin, Fat12Handle.goodPrefix_of_all] at hgood
  rw [Reaches, ← hgood, Clipped, h.countable.read hoffs hsize hrange h.regular hstart,
    ← Fat12Handle.readClustersFrom_bytes]
  simp only [Option.map_map, Option.map_eq_some_iff, Function.comp_apply, Prod.mk.injEq, true_and]
  constructor
  · rintro ⟨_, ⟨stored, hstored, rfl⟩, hlen⟩
    exact ⟨stored, hstored, by rwa [List.length_map] at hlen⟩
  · rintro ⟨stored, hstored, hlen⟩
    exact ⟨_, ⟨stored, hstored, rfl⟩, by rwa [List.length_map]⟩

/-- A request that wraps around is not cut, and its size is no size of a file. -/
theorem not_clipped_of_wrap (h : Healthy fs numBlocks inode cs) {readBuf : List Byte}
    (hoffs : offs < inode.fileSize) (hsize : size < 2 ^ 32) (hrange : 2 ^ 32 ≤ offs + size) :
    ¬Clipped fs inode offs size (some readBuf) := by
  have hfile := h.countable.result
  have hrequest : Requested fs inode offs size false (some readBuf) := by
    have hbytes := h.bytes.1
    have hpos : ¬size = 0 := by omega
    exact ⟨by simp [hpos], h.regular, hoffs, by omega, by simp⟩
  rintro ⟨stored, hread, -⟩
  rw [fat12Read_requested hrequest, clippedSize_wrapped hrange hoffs hsize] at hread
  obtain ⟨_, -, heq⟩ := Option.map_eq_some_iff.mp hread
  have hresult := (Prod.mk.inj heq).1
  rw [i32, if_neg (by omega)] at hresult
  omega

/-- **Requests are clipped to the file** exactly when they start at its end or
behind it, or do not wrap around, get a `read_buf`, and reach all their clusters
from the computed start cluster on. -/
theorem fat12Read_clipped_iff (h : Healthy fs numBlocks inode cs)
    {readBuf : Option (List Byte)} (hbuf : ∀ buf ∈ readBuf, buf.length = fs.bytesPerCluster)
    (hsize : 0 < size ∧ size < 2 ^ 32) :
    Clipped fs inode offs size readBuf ↔
      inode.fileSize ≤ offs ∨
        offs + size < 2 ^ 32 ∧ readBuf ≠ none ∧
          Reaches fs inode.firstClusterLow offs (min size (inode.fileSize - offs)) := by
  by_cases hoffs : inode.fileSize ≤ offs
  · have hzero : min size (inode.fileSize - offs) = 0 := by omega
    simp only [hoffs, true_or, iff_true]
    refine ⟨[], ?_, hzero.symm⟩
    rw [fat12Read_end h.regular hsize.1 hoffs, hzero]
    rfl
  · simp only [hoffs, false_or]
    have hin := Nat.not_le.mp hoffs
    cases readBuf with
    | none =>
      have hbytes := h.bytes.1
      have hfail : fat12Read (some ⟨some inode, some fs⟩) offs size false none = some (-1, []) := by
        simp [fat12Read, hsize.1.ne', h.regular, hoffs, show fs.bytesPerCluster ≠ 0 by omega]
      constructor
      · rintro ⟨stored, hread, -⟩
        rw [hfail] at hread
        have hneg := (Prod.mk.inj (Option.some.inj hread)).1
        omega
      · exact fun hcond => absurd rfl hcond.2.1
    | some readBuf =>
      by_cases hrange : offs + size < 2 ^ 32
      · simp only [hrange, true_and, ne_eq, reduceCtorEq, not_false_eq_true]
        exact clipped_of_range h (hbuf readBuf rfl) hin hsize.1 hrange
      · simp only [hrange, false_and, iff_false]
        exact not_clipped_of_wrap h hin hsize.2 (Nat.not_lt.mp hrange)

end Clipped

/-- The sample volume on a device is in good order. -/
theorem sampleVolume_healthy :
    Healthy (sampleVolume.onDevice 100 sampleDisk) 100 sampleFile [2, 5] where
  device := ⟨sampleDisk, rfl, fun _ => List.length_replicate⟩
  bytesPerSector := rfl
  sectorsPerCluster := by decide
  regular := rfl
  links _ := sampleVolume_chain.links
  valid := by decide
  room := by decide

/-- The first byte of the file. -/
theorem fat12Read_clipped_iff_first :
    Clipped (sampleVolume.onDevice 100 sampleDisk) sampleFile 0 1
        (some (List.replicate 512 0)) ↔
      sampleFile.fileSize ≤ 0 ∨
        0 + 1 < 2 ^ 32 ∧ some (List.replicate 512 (0 : Byte)) ≠ none ∧
          Reaches (sampleVolume.onDevice 100 sampleDisk) sampleFile.firstClusterLow 0
            (min 1 (sampleFile.fileSize - 0)) :=
  fat12Read_clipped_iff sampleVolume_healthy
    (fun _ h => Option.some.inj h ▸ List.length_replicate) (by decide)

/-- A request for everything from offset 1 on wraps around to nothing: the read
stores no byte of the 999 that the file has there, and fails. -/
theorem wrapped_request_fails :
    Healthy (sampleVolume.onDevice 100 sampleDisk) 100 sampleFile [2, 5] ∧
    fat12Read (some ⟨some sampleFile, some (sampleVolume.onDevice 100 sampleDisk)⟩) 1
      (2 ^ 32 - 1) false (some (List.replicate 512 0)) = some (-1, []) ∧
    ¬Clipped (sampleVolume.onDevice 100 sampleDisk) sampleFile 1 (2 ^ 32 - 1)
      (some (List.replicate 512 0)) := by
  have hread : fat12Read (some ⟨some sampleFile, some (sampleVolume.onDevice 100 sampleDisk)⟩) 1
      (2 ^ 32 - 1) false (some (List.replicate 512 0)) = some (-1, []) := by decide +kernel
  refine ⟨sampleVolume_healthy, hread, ?_⟩
  rintro ⟨stored, h, -⟩
  rw [hread] at h
  exact absurd (Prod.mk.inj (Option.some.inj h)).1 (by decide)

end Leenix
