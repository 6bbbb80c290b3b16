import Leenix.Fs.Loop
import Leenix.Lib.Seg

/-!
# Reads and the cluster chain

- `chainAt_of_links`: started on a cluster of the chain, the loop of `fat12_read`
  follows the chain from there on, so that it delivers the chain's bytes.
- `readClusters_head`: the first byte it delivers comes from the cluster it is
  started with, whichever that is.
- `fat12Read_chain_iff`: hence a request is answered with the file's bytes,
  whatever they are, exactly when the computed start cluster is the chain's.
-/

namespace Leenix

namespace Fat12Handle

/-- The link of a cluster in the FAT, null at an end-of-chain mark. -/
def nextCluster (fs : Fat12Handle) (cluster : Nat) : Option (Option Nat) :=
  (fs.getFentry cluster).map fun e => if fat12EocMin ≤ e then none else some e

/-- `cs` is the FAT chain of a file: the links lead through data clusters of the
volume, whose sectors the device has, to an end-of-chain mark. -/
structure Chain (fs : Fat12Handle) (numBlocks first : Nat) (cs : List Nat) : Prop where
  links : Seg fs.nextCluster (some first) cs none
  valid : ∀ c ∈ cs, 2 ≤ c ∧ c < fat12BadCluster ∧ fs.dataAreaStart + (c - 2) < numBlocks

/-- The links from a cluster inside a list of clusters. -/
theorem links_drop {fs : Fat12Handle} {first k c : Nat} {cs : List Nat}
    (h : Seg fs.nextCluster (some first) cs none) (hc : cs[k]? = some c) :
    Seg fs.nextCluster (some c) (cs.drop k) none := by
  rw [← List.take_append_drop k cs] at h
  obtain ⟨q, -, hrest⟩ := Seg.append_iff.mp h
  rwa [Seg.head_eq hrest, List.head?_drop, hc] at hrest

/-- The volume has 512-byte sectors, one to a cluster. -/
structure SingleSector (fs : Fat12Handle) : Prop where
  bytesPerSector : fs.bpb.bytesPerSector = 512
  sectorsPerCluster : fs.bpb.sectorsPerCluster = 1

variable {fs : Fat12Handle} {numBlocks first : Nat} {cs : List Nat} {blocks : Nat → List Byte}

theorem SingleSector.bytesPerCluster (h : fs.SingleSector) : fs.bytesPerCluster = 512 := by
  simp [Fat12Handle.bytesPerCluster, h.bytesPerSector, h.sectorsPerCluster]

theorem SingleSector.clusterToLba (h : fs.SingleSector) {c : Nat} (hc : 2 ≤ c) :
    fs.clusterToLba c = u32 (fs.dataAreaStart + (c - 2)) := by
  simp [Fat12Handle.clusterToLba, h.sectorsPerCluster, Nat.not_lt.mpr hc]

/-- Links visit no cluster twice, so there are no more than the FAT's numbers allow. -/
theorem length_le_of_links {q : Option Nat} (h : Seg fs.nextCluster q cs none)
    (hcs : ∀ c ∈ cs, c < fat12BadCluster) : cs.length ≤ fat12BadCluster := by
  have hsub : cs ⊆ List.range fat12BadCluster := fun c hc => List.mem_range.mpr (hcs c hc)
  have hle := (List.subperm_of_subset h.nodup hsub).length_le
  rwa [List.length_range] at hle

theorem Chain.length_le (h : fs.Chain numBlocks first cs) : cs.length ≤ fat12BadCluster :=
  length_le_of_links h.links fun c hc => (h.valid c hc).2.1

/-- The cluster numbers that the offsets of a chain's file give fit the code's
16-bit variables. -/
theorem Chain.bounds (h : fs.Chain numBlocks first cs) {offs : Nat} (hoffs : offs / 512 < cs.length) :
    first + offs / 512 < 2 ^ 16 ∧ cs.length < 2 ^ 16 := by
  have hle := h.length_le
  have hfirst : first < fat12BadCluster := by
    obtain ⟨c, rest, rfl⟩ := List.exists_cons_of_length_pos (Nat.zero_lt_of_lt hoffs)
    obtain rfl := Option.some.inj h.links.1
    exact (h.valid _ List.mem_cons_self).2.1
  simp only [fat12BadCluster] at hle hfirst
  omega

/-- The sector of a chain's cluster is on the device. -/
theorem Chain.lba_lt (h : fs.Chain numBlocks first cs) (hs : fs.SingleSector)
    (hblocks : numBlocks ≤ 2 ^ 32) {c : Nat} (hc : c ∈ cs) :
    fs.clusterToLba c = fs.dataAreaStart + (c - 2) ∧ fs.clusterToLba c < numBlocks := by
  obtain ⟨hlo, -, hin⟩ := h.valid c hc
  have hlba : fs.clusterToLba c = fs.dataAreaStart + (c - 2) := by
    rw [hs.clusterToLba hlo, u32, Nat.mod_eq_of_lt (by omega)]
  exact ⟨hlba, hlba ▸ hin⟩

/-- No other cluster number has the sector of a chain's cluster. -/
theorem Chain.lba_injective (h : fs.Chain numBlocks first cs) (hs : fs.SingleSector)
    {c c' : Nat} (hc : c ∈ cs) (hlo : 2 ≤ c') (hhi : c' < 2 ^ 16)
    (heq : fs.clusterToLba c' = fs.clusterToLba c) : c' = c := by
  obtain ⟨hc2, hbad, hin⟩ := h.valid c hc
  rw [hs.clusterToLba hlo, hs.clusterToLba hc2] at heq
  simp only [u32, fat12BadCluster] at heq hbad
  omega

/-! ## The loop -/

/-- The entries of a linked list of clusters are in the table, and the walk of
the FAT from its first cluster runs through it, when no number in it ends the
loop before its end. -/
theorem chainAt_of_links (fs : Fat12Handle) {cs : List Nat} {curr : Nat}
    (h : Seg fs.nextCluster (some curr) cs none)
    (hgo : cs.length ≤ 1 ∨ ∀ c ∈ cs, c < fat12EocMin) :
    (∀ c ∈ cs, ∃ e, fs.getFentry c = some e) ∧
      ∀ k, k < cs.length → fs.chainAt curr k = cs[k]? := by
  induction cs generalizing curr with
  | nil => cases h
  | cons c rest ih =>
    obtain ⟨hc, q, hlink, hrest⟩ := h
    obtain rfl := Option.some.inj hc
    obtain ⟨e, hentry, hq⟩ := Option.map_eq_some_iff.mp hlink
    cases rest with
    | nil =>
      refine ⟨List.forall_mem_singleton.mpr ⟨e, hentry⟩, fun k hk => ?_⟩
      obtain rfl := Nat.lt_one_iff.mp hk
      rfl
    | cons d rest =>
      obtain rfl := hrest.1
      have he : e = d := by
        split at hq
        · cases hq
        · exact Option.some.inj hq
      have hall : ∀ c ∈ curr :: d :: rest, c < fat12EocMin := by
        refine hgo.resolve_left ?_
        rw [List.length_cons, List.length_cons]
        omega
      obtain ⟨hentries, hwalk⟩ := ih hrest (.inr fun c hc => hall c (List.mem_cons_of_mem _ hc))
      refine ⟨List.forall_mem_cons.mpr ⟨⟨e, hentry⟩, hentries⟩, fun k hk => ?_⟩
      cases k with
      | zero => rfl
      | succ k =>
        rw [chainAt_next hentry (hall curr List.mem_cons_self), he,
          hwalk k (Nat.lt_of_succ_lt_succ hk), List.getElem?_cons_succ]

theorem head?_take_drop_append {α : Type} {l r : List α} {k m : Nat} (hk : k < l.length)
    (hm : 0 < m) : ((l.drop k).take m ++ r).head? = l[k]? := by
  rw [List.head?_append, List.head?_take, if_neg (by omega), List.head?_drop,
    List.getElem?_eq_getElem hk, Option.some_or]

/-- The first byte stored, wherever the start cluster lies: it is read from
that cluster's sector. -/
theorem readClusters_head {offs size n : Nat} (hc : fs.Covers offs size (n + 1)) (hsize : 0 < size)
    {curr : Nat} {readBuf stored : List Byte}
    (hfull : (blkread fs.blockDev (fs.clusterToLba curr) readBuf).2.length = fs.bytesPerCluster)
    (h : fs.readClusters offs size (n + 1) 0 (n + 1) curr readBuf = some stored) :
    stored.head? =
      (blkread fs.blockDev (fs.clusterToLba curr) readBuf).2[offs % fs.bytesPerCluster]? := by
  cases hentry : fs.getFentry curr with
  | none => simp [readClusters, hentry] at h
  | some e =>
    have hpos : offs % fs.bytesPerCluster < fs.copyEnd offs size (n + 1) 0 := by
      have hmod := Nat.mod_lt offs hc.bytes
      rw [hc.copyEnd_eq (Nat.succ_pos n)]
      omega
    have hin : offs % fs.bytesPerCluster <
        (blkread fs.blockDev (fs.clusterToLba curr) readBuf).2.length := by
      rw [hfull]
      exact Nat.mod_lt offs hc.bytes
    rw [readClusters_succ hentry] at h
    simp only [copyStart_zero, if_neg (Nat.not_lt.mpr hpos.le)] at h
    by_cases heoc : fat12EocMin ≤ curr
    · rw [if_pos heoc] at h
      obtain rfl := Option.some.inj h
      rw [← head?_take_drop_append (r := []) hin (Nat.sub_pos_of_lt hpos), List.append_nil]
    · rw [if_neg heoc] at h
      obtain ⟨rest, -, rfl⟩ := Option.map_eq_some_iff.mp h
      exact head?_take_drop_append hin (Nat.sub_pos_of_lt hpos)

/-! ## Requests -/

/-- Blocks of one length: skipping `k` of them skips their bytes. -/
theorem drop_flatMap {α β : Type} {f : α → List β} {B : Nat} {l : List α} {k : Nat}
    (hf : ∀ a ∈ l, (f a).length = B) : (l.flatMap f).drop (k * B) = (l.drop k).flatMap f := by
  induction k generalizing l with
  | zero => simp
  | succ k ih =>
    cases l with
    | nil => simp
    | cons a l =>
      rw [List.flatMap_cons, List.drop_succ_cons, Nat.succ_mul, Nat.add_comm, ← List.drop_drop,
        ← hf a List.mem_cons_self, List.drop_left, hf a List.mem_cons_self]
      exact ih fun b hb => hf b (List.mem_cons_of_mem a hb)

end Fat12Handle

/-- The number of clusters a request touches, from the start of its first one. -/
def clustersWanted (offs size : Nat) : Nat := (offs % 512 + size + 511) / 512

theorem Fat12Handle.SingleSector.covers {fs : Fat12Handle} (hs : fs.SingleSector) {offs size : Nat}
    (hsize : 0 < size) : fs.Covers offs size (clustersWanted offs size) := by
  constructor
  case bytes => simp [hs.bytesPerCluster]
  all_goals
    rw [hs.bytesPerCluster]
    simp only [clustersWanted, u32]
    omega

/-- A request inside the file is answered by the loop, started on the cluster
that the offset gives. -/
theorem fat12Read_eq {fs : Fat12Handle} {inode : Fat12DirEntry} {offs size clusters : Nat}
    {readBuf : List Byte} (hs : fs.SingleSector)
    (hfile : inode.attributes &&& fat12Dir = 0)
    (hfirst : inode.firstClusterLow + offs / 512 < 2 ^ 16) (hcount : clusters < 2 ^ 16)
    (hlen : inode.fileSize ≤ 512 * clusters) (hsize : 0 < size)
    (hrange : offs + size ≤ inode.fileSize) :
    fat12Read (some ⟨some inode, some fs⟩) offs size false (some readBuf) =
      (fs.readClusters offs size (clustersWanted offs size) 0 (clustersWanted offs size)
        (inode.firstClusterLow + offs / 512) readBuf).map fun stored => ((size : Int), stored) := by
  have hbytes := hs.bytesPerCluster
  have hcountable : Countable fs inode := by
    refine ⟨?_, ?_, by omega⟩
    all_goals
      rw [hbytes]
      omega
  have hmin : min size (inode.fileSize - offs) = size := Nat.min_eq_left (by omega)
  have hoffs : offs < inode.fileSize := by omega
  have hend : offs + size < 2 ^ 32 := by omega
  have hcovers := hcountable.covers hoffs hsize hend
  have hn : clustersToRead fs inode offs size = clustersWanted offs size := by
    have hlast := hcovers.last
    have hfits := hcovers.fits
    rw [hbytes] at hlast hfits
    simp only [clustersWanted]
    omega
  have hread := hcountable.read hoffs hsize hend hfile (by rwa [hbytes]) readBuf
  rwa [hmin, hn, hbytes] at hread

/-- The volume on a readable device that holds the given blocks. -/
def Fat12Handle.onDevice (fs : Fat12Handle) (numBlocks : Nat) (blocks : Nat → List Byte) :
    Fat12Handle :=
  { fs with blockDev := some (.holding numBlocks blocks) }

/-- The blocks differ from those of `disk` in the content of the file only. -/
def Fat12Handle.SameOutside (fs : Fat12Handle) (cs : List Nat) (disk blocks : Nat → List Byte) :
    Prop :=
  (∀ lba, (blocks lba).length = 512) ∧
    ∀ lba, (∀ c ∈ cs, fs.clusterToLba c ≠ lba) → blocks lba = disk lba

section Request

variable {fs : Fat12Handle} {numBlocks : Nat} {disk blocks : Nat → List Byte} {cs : List Nat}
  {inode : Fat12DirEntry} {offs size : Nat} {readBuf : List Byte}

/-- The read stores the requested bytes of the chain's clusters and returns
their number. -/
def Delivers (fs : Fat12Handle) (numBlocks : Nat) (inode : Fat12DirEntry) (cs : List Nat)
    (offs size : Nat) (readBuf : List Byte) (blocks : Nat → List Byte) : Prop :=
  fat12Read (some ⟨some inode, some (fs.onDevice numBlocks blocks)⟩) offs size false (some readBuf) =
    some ((size : Int), ((cs.flatMap fun c => blocks (fs.clusterToLba c)).drop offs).take size)

/-- The requested bytes, from the cluster at the offset on. -/
theorem requested_eq (fs : Fat12Handle) (cs : List Nat) (offs : Nat)
    (hlen : ∀ lba, (blocks lba).length = 512) :
    (cs.flatMap fun c => blocks (fs.clusterToLba c)).drop offs =
      ((cs.drop (offs / 512)).flatMap fun c => blocks (fs.clusterToLba c)).drop (offs % 512) := by
  rw [← Fat12Handle.drop_flatMap fun c _ => hlen _, List.drop_drop]
  congr 1
  omega

/-- With the right start cluster the request is answered. -/
theorem delivers_of_start (hs : fs.SingleSector) (hfile : inode.attributes &&& fat12Dir = 0)
    (hlinks : Seg fs.nextCluster (some inode.firstClusterLow) cs none)
    (hlba : ∀ c ∈ cs, fs.clusterToLba c < numBlocks)
    (hgo : cs.length ≤ 1 ∨ ∀ c ∈ cs, c < fat12EocMin) (hcount : cs.length < 2 ^ 16)
    (hfirst : inode.firstClusterLow + offs / 512 < 2 ^ 16)
    (hlen : inode.fileSize ≤ 512 * cs.length) (hsize : 0 < size)
    (hrange : offs + size ≤ inode.fileSize) (hbuf : readBuf.length = 512)
    (hdisk : ∀ lba, (blocks lba).length = 512)
    (hstart : cs[offs / 512]? = some (inode.firstClusterLow + offs / 512)) :
    Delivers fs numBlocks inode cs offs size readBuf blocks := by
  have hclusters : clustersWanted offs size ≤ (cs.drop (offs / 512)).length := by
    simp only [clustersWanted, List.length_drop]
    omega
  have hs' : (fs.onDevice numBlocks blocks).SingleSector :=
    ⟨hs.bytesPerSector, hs.sectorsPerCluster⟩
  have hgo' : (cs.drop (offs / 512)).length ≤ 1 ∨ ∀ c ∈ cs.drop (offs / 512), c < fat12EocMin := by
    refine hgo.imp (fun hle => ?_) fun hall c hc => hall c (List.mem_of_mem_drop hc)
    rw [List.length_drop]
    omega
  obtain ⟨hentry, hchain⟩ := (fs.onDevice numBlocks blocks).chainAt_of_links
    (Fat12Handle.links_drop hlinks hstart) hgo'
  have hread : ∀ c ∈ cs.drop (offs / 512), ∀ buf : List Byte, buf.length = 512 →
      (blkread (fs.onDevice numBlocks blocks).blockDev
          ((fs.onDevice numBlocks blocks).clusterToLba c) buf).2 = blocks (fs.clusterToLba c) ∧
        (blocks (fs.clusterToLba c)).length = 512 := by
    intro c hc buf hbuf
    refine ⟨?_, hdisk _⟩
    exact congrArg Prod.snd (blkread_holding (hlba c (List.mem_of_mem_drop hc))
      (hbuf.trans (hdisk _).symm))
  rw [Delivers, fat12Read_eq hs' hfile hfirst hcount hlen hsize hrange,
    Fat12Handle.readClusters_content (hs'.covers hsize) (Nat.zero_add _) hread
      (fun c _ => (hdisk _).trans hs'.bytesPerCluster.symm) hentry hclusters
      (fun k hk => hchain k (Nat.lt_of_lt_of_le hk hclusters)) hbuf,
    requested_eq fs cs offs hdisk, Fat12Handle.copyStart_zero, Fat12Handle.left_zero,
    hs'.bytesPerCluster]
  rfl

/-- The first requested byte. -/
theorem requested_head (fs : Fat12Handle) (cs : List Nat) (offs : Nat)
    (hlen : ∀ lba, (blocks lba).length = 512) (hk : offs / 512 < cs.length) (hsize : 0 < size) :
    (((cs.flatMap fun c => blocks (fs.clusterToLba c)).drop offs).take size).head? =
      (blocks (fs.clusterToLba cs[offs / 512]))[offs % 512]? := by
  have hin : offs % 512 < (blocks (fs.clusterToLba cs[offs / 512])).length := by
    rw [hlen]
    omega
  rw [requested_eq fs cs offs hlen, List.head?_take, if_neg hsize.ne',
    List.drop_eq_getElem_cons hk, List.flatMap_cons, List.head?_drop, List.getElem?_append_left hin]

/-- What the read delivers first, when it returns. -/
theorem delivers_head (hs : fs.SingleSector) (hfile : inode.attributes &&& fat12Dir = 0)
    (hchain : fs.Chain numBlocks inode.firstClusterLow cs)
    (hlen : inode.fileSize ≤ 512 * cs.length) (hsize : 0 < size)
    (hrange : offs + size ≤ inode.fileSize) (hbuf : readBuf.length = 512)
    (hdisk : ∀ lba, (blocks lba).length = 512)
    (h : Delivers fs numBlocks inode cs offs size readBuf blocks) :
    (((cs.flatMap fun c => blocks (fs.clusterToLba c)).drop offs).take size).head? =
      (blkread (some (.holding numBlocks blocks))
        (fs.clusterToLba (inode.firstClusterLow + offs / 512)) readBuf).2[offs % 512]? := by
  have hs' : (fs.onDevice numBlocks blocks).SingleSector :=
    ⟨hs.bytesPerSector, hs.sectorsPerCluster⟩
  have hfull : (blkread (fs.onDevice numBlocks blocks).blockDev
      ((fs.onDevice numBlocks blocks).clusterToLba (inode.firstClusterLow + offs / 512))
      readBuf).2.length = 512 :=
    (blkread_holding_length fun lba => (hdisk lba).trans hbuf.symm).trans hbuf
  obtain ⟨hfirst, hcount⟩ := hchain.bounds (show offs / 512 < cs.length by omega)
  rw [Delivers, fat12Read_eq hs' hfile hfirst hcount hlen hsize hrange] at h
  obtain ⟨stored, hloop, hstored⟩ := Option.map_eq_some_iff.mp h
  obtain ⟨n, hn⟩ : ∃ n, clustersWanted offs size = n + 1 :=
    ⟨clustersWanted offs size - 1, by simp only [clustersWanted]; omega⟩
  have hcovers : (fs.onDevice numBlocks blocks).Covers offs size (clustersWanted offs size) :=
    hs'.covers hsize
  rw [hn] at hloop hcovers
  rw [← (Prod.mk.inj hstored).2, Fat12Handle.readClusters_head hcovers hsize
    (hfull.trans hs'.bytesPerCluster.symm) hloop, hs'.bytesPerCluster]
  rfl

/-- **The cluster chain.** For a request inside the file, the read delivers the
bytes of the chain's clusters, whatever they hold, exactly when cluster number
`offs / 512` of the chain is the one `offs / 512` behind the first. -/
theorem fat12Read_chain_iff (hs : fs.SingleSector) (hblocks : numBlocks ≤ 2 ^ 32)
    (hfile : inode.attributes &&& fat12Dir = 0)
    (hchain : fs.Chain numBlocks inode.firstClusterLow cs)
    (hlen : inode.fileSize ≤ 512 * cs.length) (hsize : 0 < size)
    (hrange : offs + size ≤ inode.fileSize) (hbuf : readBuf.length = 512)
    (hdisk : ∀ lba, (disk lba).length = 512) :
    (∀ blocks, fs.SameOutside cs disk blocks →
        Delivers fs numBlocks inode cs offs size readBuf blocks) ↔
      cs[offs / 512]? = some (inode.firstClusterLow + offs / 512) := by
  constructor
  · intro h
    by_contra hstart
    have hk : offs / 512 < cs.length := by omega
    have hc := List.getElem_mem hk
    have hcs := hchain.length_le
    have hfirst : 2 ≤ inode.firstClusterLow ∧ inode.firstClusterLow < fat12BadCluster := by
      obtain ⟨c, rest, rfl⟩ := List.exists_cons_of_length_pos (Nat.zero_lt_of_lt hk)
      obtain rfl := Option.some.inj hchain.links.1
      have hv := hchain.valid _ List.mem_cons_self
      exact ⟨hv.1, hv.2.1⟩
    simp only [fat12BadCluster] at hcs hfirst
    have hother : fs.clusterToLba (inode.firstClusterLow + offs / 512) ≠
        fs.clusterToLba cs[offs / 512] := by
      intro heq
      have hsame := hchain.lba_injective hs hc (by omega) (by omega) heq
      exact hstart (by rw [List.getElem?_eq_getElem hk, hsame])
    -- a byte that the sector of the computed cluster does not have at this place
    obtain ⟨x, hx⟩ : ∃ x, (blkread (some (.holding numBlocks disk))
        (fs.clusterToLba (inode.firstClusterLow + offs / 512)) readBuf).2[offs % 512]? = some x := by
      refine ⟨_, List.getElem?_eq_getElem ?_⟩
      rw [blkread_holding_length fun lba => (hdisk lba).trans hbuf.symm, hbuf]
      omega
    have hcontent : fs.SameOutside cs disk (Function.update disk (fs.clusterToLba cs[offs / 512])
        (List.replicate 512 (if x = 0 then 1 else 0))) := by
      constructor
      · intro lba
        by_cases hlba : lba = fs.clusterToLba cs[offs / 512]
        · rw [hlba, Function.update_self, List.length_replicate]
        · rw [Function.update_of_ne hlba, hdisk]
      · intro lba hoff
        exact Function.update_of_ne (hoff _ hc).symm _ _
    have hhead := delivers_head hs hfile hchain hlen hsize hrange hbuf hcontent.1 (h _ hcontent)
    rw [requested_head fs cs offs hcontent.1 hk hsize, Function.update_self,
      blkread_holding_congr (Function.update_of_ne hother _ disk), hx,
      List.getElem?_replicate_of_lt (by omega)] at hhead
    have hne : (if x = 0 then 1 else 0 : Byte) = x := Option.some.inj hhead
    by_cases hzero : x = 0
    · rw [if_pos hzero, hzero] at hne
      exact absurd hne (by decide)
    · rw [if_neg hzero] at hne
      exact hzero hne.symm
  · intro hstart blocks hblocks'
    obtain ⟨hfirst, hcount⟩ := hchain.bounds (show offs / 512 < cs.length by omega)
    have hgo : ∀ c ∈ cs, c < fat12EocMin := fun c hc =>
      Nat.lt_trans (hchain.valid c hc).2.1 (by decide)
    exact delivers_of_start hs hfile hchain.links (fun c hc => (hchain.lba_lt hs hblocks hc).2)
      (.inr hgo) hcount hfirst hlen hsize hrange hbuf hblocks'.1 hstart

end Request

/-- A volume whose FAT links cluster 2 to cluster 5 and ends there; block 10 is
the first of the data area. -/
def sampleVolume : Fat12Handle where
  blockDev := none
  bpb := ⟨512, 1⟩
  fatTable := [0xF0, 0xFF, 0xFF, 0x05, 0x00, 0x00, 0x00, 0xF0, 0xFF]
  dataAreaStart := 10

/-- A file of 1000 bytes that starts at cluster 2. -/
def sampleFile : Fat12DirEntry := ⟨0x20, 2, 1000⟩

/-- Every block holds its number. -/
def sampleDisk (lba : Nat) : List Byte := List.replicate 512 (UInt8.ofNat lba)

theorem sampleVolume_chain : sampleVolume.Chain 100 2 [2, 5] where
  links := ⟨rfl, some 5, rfl, rfl, none, rfl, rfl⟩
  valid := by decide

/-- The first byte of the file. -/
theorem fat12Read_chain_iff_first :
    (∀ blocks, sampleVolume.SameOutside [2, 5] sampleDisk blocks →
        Delivers sampleVolume 100 sampleFile [2, 5] 0 1 (List.replicate 512 0) blocks) ↔
      [2, 5][0 / 512]? = some (sampleFile.firstClusterLow + 0 / 512) :=
  fat12Read_chain_iff ⟨rfl, rfl⟩ (by decide) rfl sampleVolume_chain (by decide) (by decide)
    (by decide) List.length_replicate fun _ => List.length_replicate

/-- Byte 512 of the file lies in cluster 5, in block 13; the read stores the
first byte of block 11. -/
theorem second_cluster_missed :
    sampleVolume.Chain 100 sampleFile.firstClusterLow [2, 5] ∧
    fat12Read (some ⟨some sampleFile, some (sampleVolume.onDevice 100 sampleDisk)⟩) 512 1 false
      (some (List.replicate 512 0)) = some (1, [11]) ∧
    (([2, 5].flatMap fun c => sampleDisk (sampleVolume.clusterToLba c)).drop 512).take 1 = [13] ∧
    ¬Delivers sampleVolume 100 sampleFile [2, 5] 512 1 (List.replicate 512 0) sampleDisk := by
  have hread : fat12Read (some ⟨some sampleFile, some (sampleVolume.onDevice 100 sampleDisk)⟩) 512 1
      false (some (List.replicate 512 0)) = some (1, [11]) := by decide +kernel
  have hwant : (([2, 5].flatMap fun c => sampleDisk (sampleVolume.clusterToLba c)).drop 512).take 1 =
      [13] := by decide +kernel
  refine ⟨sampleVolume_chain, hread, hwant, fun h => ?_⟩
  rw [Delivers, hread, hwant] at h
  exact absurd h (by decide)

end Leenix
