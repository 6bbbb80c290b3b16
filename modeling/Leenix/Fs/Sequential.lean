import Mathlib.Algebra.GroupWithZero.Nat
import Mathlib.Data.List.SplitLengths
import Leenix.Fs.Chain

/-!
# Reading a file from front to back

`vfs_read` advances the offset of an open file by what `fat12_read` returns. For
a file in consecutive clusters the start cluster that `fat12_read` computes from
the offset is the right one, so however the requests are cut, the calls store the
file once, in order.

- `fat12Read_clip`: a request past the end is the request for what is left.
- `Consecutive.read`: one call stores the next bytes.
- `readAll_eq`: a sequence of calls splits the file at the requested sizes.
-/

namespace Leenix

/-- `vfs_read` (vfs.c:171–190) on a file at `offset` whose read operation may have
no defined result: the result, the bytes stored from the start of the buffer, and
the offset after. -/
def vfsReadAt (read : Nat → Nat → Option (Int × List Byte)) (offset : Nat) (bufIsNull : Bool)
    (size : Nat) : Option (Int × List Byte × Nat) :=
  if bufIsNull ∨ size = 0 then some (-1, [], offset)
  else do
    let (bytesRead, bytes) ← read offset size
    return (bytesRead, bytes, if 0 < bytesRead then u32 (offset + bytesRead.toNat) else offset)

/-- A call of `vfs_read`: the requested size, and the block that the `malloc` of
`fat12_read` returns. -/
structure ReadCall where
  size : Nat
  readBuf : List Byte

/-- Calls of `vfs_read` one after the other on the open file of a vnode: what each
returns and stores, and the offset after the last. -/
def readAll (node : Fat12Vnode) : Nat → List ReadCall → Option (List (Int × List Byte) × Nat)
  | offset, [] => some ([], offset)
  | offset, call :: calls => do
    let (bytesRead, bytes, offset) ← vfsReadAt
      (fun offs size => fat12Read (some node) offs size false (some call.readBuf)) offset false
      call.size
    let (results, last) ← readAll node offset calls
    return ((bytesRead, bytes) :: results, last)

namespace Fat12Handle

/-- The file of `count` clusters from `first` on: chained in that order to an
end-of-chain mark, with the sector of each on the device. -/
structure Consecutive (fs : Fat12Handle) (numBlocks first count : Nat) : Prop where
  first_ge : 2 ≤ first
  first_lt : first < 2 ^ 16
  links : Seg fs.nextCluster (some first) (List.range' first count) none
  readable : ∀ c ∈ List.range' first count, fs.dataAreaStart + (c - 2) < numBlocks

/-- The bytes of the file: those of its clusters, up to its size. -/
def fileContent (fs : Fat12Handle) (blocks : Nat → List Byte) (first count size : Nat) :
    List Byte :=
  ((List.range' first count).flatMap fun c => blocks (fs.clusterToLba c)).take size

variable {fs : Fat12Handle} {numBlocks first count : Nat} {blocks : Nat → List Byte}

/-- A second cluster is linked to, so no cluster number is an end-of-chain mark. -/
theorem Consecutive.last_lt (h : fs.Consecutive numBlocks first count) (hcount : 2 ≤ count) :
    first + (count - 1) < fat12EocMin := by
  obtain ⟨m, rfl⟩ : ∃ m, count = m + 2 := ⟨count - 2, by omega⟩
  have hlinks := h.links
  rw [List.range'_1_concat, List.range'_1_concat] at hlinks
  obtain ⟨q, hinit, hq, -⟩ := Seg.append_iff.mp hlinks
  have hlink := hinit.last_link
  rw [hq] at hlink
  obtain ⟨e, -, he⟩ := Option.map_eq_some_iff.mp hlink
  split at he
  case isTrue => cases he
  case isFalse hlt =>
    have heq := Option.some.inj he
    show first + (m + 1) < fat12EocMin
    omega

/-- From cluster number `q` of the file on, the loop is not ended before the last. -/
theorem Consecutive.goes_on (h : fs.Consecutive numBlocks first count) (q : Nat) :
    (List.range' (first + q) (count - q)).length ≤ 1 ∨
      ∀ c ∈ List.range' (first + q) (count - q), c < fat12EocMin := by
  by_cases hone : count ≤ 1
  · refine .inl ?_
    rw [List.length_range']
    omega
  · refine .inr fun c hc => ?_
    have hle := List.mem_range'_1.mp hc
    have hlt := h.last_lt (by omega)
    omega

theorem Consecutive.count_lt (h : fs.Consecutive numBlocks first count) :
    count < 2 ^ 16 ∧ (count = 0 ∨ first + (count - 1) < 2 ^ 16) := by
  have hfirst := h.first_lt
  by_cases hcount : 2 ≤ count
  · have hlast := h.last_lt hcount
    simp only [fat12EocMin] at hlast
    omega
  · omega

end Fat12Handle

/-- A request that runs past the end of the file is clipped to what is left. -/
theorem fat12Read_clip {fs : Fat12Handle} {inode : Fat12DirEntry} {offs size : Nat}
    {readBuf : List Byte} (hoffs : offs < inode.fileSize) (hsize : 0 < size)
    (hrange : offs + size < 2 ^ 32) :
    fat12Read (some ⟨some inode, some fs⟩) offs size false (some readBuf) =
      fat12Read (some ⟨some inode, some fs⟩) offs (min size (inode.fileSize - offs)) false
        (some readBuf) := by
  have hsum : u32 (offs + size) = offs + size := Nat.mod_eq_of_lt hrange
  have hsum' : u32 (offs + min size (inode.fileSize - offs)) =
      offs + min size (inode.fileSize - offs) := Nat.mod_eq_of_lt (by omega)
  have hclip : (if inode.fileSize < offs + size then inode.fileSize - offs else size) =
      min size (inode.fileSize - offs) := by
    split <;> omega
  have hnoclip : ¬inode.fileSize < offs + min size (inode.fileSize - offs) := by omega
  have hmin : ¬min size (inode.fileSize - offs) = 0 := by omega
  simp only [fat12Read, Option.bind_some, Bool.false_eq_true, false_or, if_neg hsize.ne',
    if_neg hmin, hsum, hsum', hclip, if_neg hnoclip]

section Sequence

variable {fs : Fat12Handle} {numBlocks count : Nat} {blocks : Nat → List Byte}
  {inode : Fat12DirEntry} {offs : Nat} {call : ReadCall} {calls : List ReadCall}

/-- The blocks of the file hold at least its size. -/
theorem length_fileContent (fs : Fat12Handle) (hdisk : ∀ lba, (blocks lba).length = 512)
    (hlen : inode.fileSize ≤ 512 * count) :
    (fs.fileContent blocks inode.firstClusterLow count inode.fileSize).length = inode.fileSize := by
  have hclusters : ((List.range' inode.firstClusterLow count).flatMap fun c =>
      blocks (fs.clusterToLba c)).length = 512 * count := by
    simp [List.length_flatMap, hdisk, Nat.mul_comm]
  rw [Fat12Handle.fileContent, List.length_take, hclusters, Nat.min_eq_left hlen]

/-- One call inside the file: it stores the next bytes, as many as are wanted and
left, and advances the offset by their number. -/
theorem Fat12Handle.Consecutive.read (hs : fs.SingleSector) (hblocks : numBlocks ≤ 2 ^ 32)
    (hdisk : ∀ lba, (blocks lba).length = 512) (hfile : inode.attributes &&& fat12Dir = 0)
    (h : fs.Consecutive numBlocks inode.firstClusterLow count)
    (hlen : inode.fileSize ≤ 512 * count) (hoffs : offs ≤ inode.fileSize) (hsize : 0 < call.size)
    (hbuf : call.readBuf.length = 512) (hrange : offs + call.size < 2 ^ 32) :
    vfsReadAt (fun offs size => fat12Read
        (some ⟨some inode, some (fs.onDevice numBlocks blocks)⟩) offs size false
        (some call.readBuf)) offs false call.size =
      some (((min call.size (inode.fileSize - offs) : Nat) : Int),
        ((fs.fileContent blocks inode.firstClusterLow count inode.fileSize).drop offs).take
          call.size,
        offs + min call.size (inode.fileSize - offs)) := by
  have hcontent := length_fileContent fs hdisk hlen
  rw [vfsReadAt, if_neg (by simp [hsize.ne'])]
  rcases Nat.eq_or_lt_of_le hoffs with hend | hin
  · -- the end of the file
    rw [fat12Read_end hfile hsize hend.ge, List.drop_eq_nil_of_le (by omega), hend]
    simp
  · have hmin : 0 < min call.size (inode.fileSize - offs) := by omega
    have hcluster : offs / 512 < count := by omega
    obtain ⟨hcount, hlast⟩ := h.count_lt
    have hlba : ∀ c ∈ List.range' inode.firstClusterLow count, fs.clusterToLba c < numBlocks := by
      intro c hc
      have hreadable := h.readable c hc
      have hge : 2 ≤ c := Nat.le_trans h.first_ge (List.mem_range'_1.mp hc).1
      rw [hs.clusterToLba hge, u32, Nat.mod_eq_of_lt (by omega)]
      exact hreadable
    have hread : Delivers fs numBlocks inode (List.range' inode.firstClusterLow count) offs
        (min call.size (inode.fileSize - offs)) call.readBuf blocks := by
      refine delivers_of_start hs hfile h.links hlba (h.goes_on 0) (by rwa [List.length_range']) (by omega)
        (by rwa [List.length_range']) hmin (by omega) hbuf hdisk ?_
      rw [List.getElem?_range' hcluster, Nat.one_mul]
    have hbytes : (((List.range' inode.firstClusterLow count).flatMap fun c =>
          blocks (fs.clusterToLba c)).drop offs).take (min call.size (inode.fileSize - offs)) =
        ((fs.fileContent blocks inode.firstClusterLow count inode.fileSize).drop offs).take
          call.size := by
      rw [Fat12Handle.fileContent, List.drop_take, List.take_take]
    have hsum : u32 (offs + min call.size (inode.fileSize - offs)) =
        offs + min call.size (inode.fileSize - offs) := Nat.mod_eq_of_lt (by omega)
    rw [fat12Read_clip hin hsize hrange, hread, hbytes]
    simp only [Option.bind_eq_bind, Option.bind_some, Option.pure_def, Int.toNat_natCast, hsum]
    rw [if_pos (by omega)]

/-- The calls from an offset inside the file on split what is left at their sizes. -/
theorem readAll_splitLengths (hs : fs.SingleSector) (hblocks : numBlocks ≤ 2 ^ 32)
    (hdisk : ∀ lba, (blocks lba).length = 512) (hfile : inode.attributes &&& fat12Dir = 0)
    (h : fs.Consecutive numBlocks inode.firstClusterLow count)
    (hlen : inode.fileSize ≤ 512 * count) (hoffs : offs ≤ inode.fileSize)
    (hcalls : ∀ call ∈ calls, 0 < call.size ∧ call.readBuf.length = 512)
    (hrange : ∀ i (hi : i < calls.length),
      min inode.fileSize (offs + ((calls.map ReadCall.size).take i).sum) + calls[i].size < 2 ^ 32) :
    readAll ⟨some inode, some (fs.onDevice numBlocks blocks)⟩ offs calls =
      some (((calls.map ReadCall.size).splitLengths
          ((fs.fileContent blocks inode.firstClusterLow count inode.fileSize).drop offs)).map
          fun bytes => ((bytes.length : Int), bytes),
        min inode.fileSize (offs + (calls.map ReadCall.size).sum)) := by
  induction calls generalizing offs with
  | nil => simp [readAll, hoffs]
  | cons call calls ih =>
    obtain ⟨hsize, hbuf⟩ := hcalls call List.mem_cons_self
    have hfirst : offs + call.size < 2 ^ 32 := by
      have hzero := hrange 0 (by simp)
      simp only [List.take_zero, List.sum_nil, Nat.add_zero, List.getElem_cons_zero] at hzero
      omega
    have hcontent := length_fileContent fs hdisk hlen
    have hnext : offs + min call.size (inode.fileSize - offs) ≤ inode.fileSize := by omega
    have hrest := ih hnext (fun call hc => hcalls call (List.mem_cons_of_mem _ hc)) fun i hi => by
      have hlater := hrange (i + 1) (by simpa using hi)
      simp only [List.map_cons, List.take_succ_cons, List.sum_cons, List.getElem_cons_succ] at hlater
      omega
    rw [readAll, h.read hs hblocks hdisk hfile hlen hoffs hsize hbuf hfirst]
    simp only [Option.bind_eq_bind, Option.bind_some, hrest, Option.pure_def, Option.some.injEq,
      Prod.mk.injEq, List.map_cons, List.splitLengths_cons, List.sum_cons]
    have hdrop : ((fs.fileContent blocks inode.firstClusterLow count inode.fileSize).drop offs).drop
        call.size = (fs.fileContent blocks inode.firstClusterLow count inode.fileSize).drop
          (offs + min call.size (inode.fileSize - offs)) := by
      rw [List.drop_drop]
      by_cases hfit : call.size ≤ inode.fileSize - offs
      · rw [Nat.min_eq_left hfit]
      · rw [List.drop_eq_nil_of_le (by omega), List.drop_eq_nil_of_le (by omega)]
    have hlength : (((fs.fileContent blocks inode.firstClusterLow count inode.fileSize).drop
        offs).take call.size).length = min call.size (inode.fileSize - offs) := by
      rw [List.length_take, List.length_drop, hcontent]
    refine ⟨?_, by omega⟩
    rw [hlength, hdrop]

/-- The pieces together are what the sizes add up to. -/
theorem flatten_splitLengths_take {α : Type} (ns : List Nat) (l : List α) :
    (ns.splitLengths l).flatten = l.take ns.sum := by
  induction ns generalizing l with
  | nil => simp
  | cons n ns ih =>
    rw [List.splitLengths_cons, List.flatten_cons, ih, List.sum_cons, List.take_add]

/-- Each piece starts where the ones before it end. -/
theorem getElem?_splitLengths {α : Type} {ns : List Nat} (l : List α) {i : Nat}
    (hi : i < ns.length) :
    (ns.splitLengths l)[i]? = some ((l.drop (ns.take i).sum).take ns[i]) := by
  induction ns generalizing l i with
  | nil => cases hi
  | cons n ns ih =>
    cases i with
    | zero => simp
    | succ i =>
      rw [List.splitLengths_cons, List.getElem?_cons_succ, ih (l.drop n) (Nat.lt_of_succ_lt_succ hi),
        List.drop_drop, List.take_succ_cons, List.sum_cons, List.getElem_cons_succ]

/-- **Sequential reads.** On a file in consecutive clusters, freshly opened, call
number `i` returns the smaller of its size and what the calls before it left, and
stores that many bytes from where they stopped; so the buffers together are the
file, up to the sum of the sizes. -/
theorem readAll_sequential (hs : fs.SingleSector) (hblocks : numBlocks ≤ 2 ^ 32)
    (hdisk : ∀ lba, (blocks lba).length = 512) (hfile : inode.attributes &&& fat12Dir = 0)
    (h : fs.Consecutive numBlocks inode.firstClusterLow count)
    (hlen : inode.fileSize ≤ 512 * count)
    (hcalls : ∀ call ∈ calls, 0 < call.size ∧ call.readBuf.length = 512)
    (hrange : ∀ i (hi : i < calls.length),
      min inode.fileSize ((calls.map ReadCall.size).take i).sum + calls[i].size < 2 ^ 32) :
    ∃ results, readAll ⟨some inode, some (fs.onDevice numBlocks blocks)⟩ 0 calls =
        some (results, min inode.fileSize (calls.map ReadCall.size).sum) ∧
      results.length = calls.length ∧
      (∀ i (hi : i < calls.length), results[i]? =
        some (((min calls[i].size
            (inode.fileSize - ((calls.map ReadCall.size).take i).sum) : Nat) : Int),
          ((fs.fileContent blocks inode.firstClusterLow count inode.fileSize).drop
            ((calls.map ReadCall.size).take i).sum).take calls[i].size)) ∧
      results.flatMap Prod.snd =
        (fs.fileContent blocks inode.firstClusterLow count inode.fileSize).take
          (calls.map ReadCall.size).sum := by
  have hcontent := length_fileContent fs hdisk hlen
  have hall := readAll_splitLengths hs hblocks hdisk hfile h hlen (Nat.zero_le _) hcalls
    (by simpa using hrange)
  rw [List.drop_zero, Nat.zero_add] at hall
  refine ⟨_, hall, by simp, fun i hi => ?_, ?_⟩
  · have hi' : i < (calls.map ReadCall.size).length := by rwa [List.length_map]
    rw [List.getElem?_map, getElem?_splitLengths _ hi', Option.map_some, List.length_take,
      List.length_drop, hcontent, List.getElem_map]
  · rw [List.flatMap_map]
    exact (congrArg List.flatten (List.map_id _)).trans (flatten_splitLengths_take _ _)

end Sequence

/-- A volume whose FAT links cluster 2 to cluster 3 and ends there. -/
def sampleVolume₂ : Fat12Handle where
  blockDev := none
  bpb := ⟨512, 1⟩
  fatTable := [0xF0, 0xFF, 0xFF, 0x03, 0xF0, 0xFF]
  dataAreaStart := 10

theorem sampleVolume₂_consecutive : sampleVolume₂.Consecutive 100 2 2 where
  first_ge := by decide
  first_lt := by decide
  links := ⟨rfl, some 3, rfl, rfl, none, rfl, rfl⟩
  readable := by decide

/-- Three calls of `vfs_read`. -/
def sampleCalls : List ReadCall := [600, 600, 5].map fun size => ⟨size, List.replicate 512 0⟩

/-- They read a file of 1000 bytes to its end. -/
theorem readAll_sequential_cut :
    ∃ results, readAll ⟨some sampleFile, some (sampleVolume₂.onDevice 100 sampleDisk)⟩ 0
        sampleCalls = some (results, 1000) ∧
      results.flatMap Prod.snd = (sampleVolume₂.fileContent sampleDisk 2 2 1000).take 1205 := by
  have hcalls : ∀ call ∈ sampleCalls, 0 < call.size ∧ call.readBuf.length = 512 := by
    refine List.forall_mem_map.mpr fun size hsize => ⟨?_, List.length_replicate⟩
    show 0 < size
    revert size
    decide
  have hdisk : ∀ lba, (sampleDisk lba).length = 512 := fun _ => List.length_replicate
  obtain ⟨results, hall, -, -, hbytes⟩ := readAll_sequential ⟨rfl, rfl⟩ (by decide) hdisk
    (show sampleFile.attributes &&& fat12Dir = 0 from rfl) sampleVolume₂_consecutive (by decide)
    hcalls (by decide)
  exact ⟨results, hall, hbytes⟩

end Leenix
