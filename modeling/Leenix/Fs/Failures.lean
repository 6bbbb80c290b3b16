import Leenix.Fs.Chain

/-!
# Reads that fail

`fat12_read` ignores what `blkread` returns, and when the FAT ends its loop early
it returns the size all the same. So its result says nothing about the bytes it
stored. `fat12ReadFrom` is the read with the origin of every byte, and a byte is
the file's when its cluster belongs to the chain, the device could read it, and the
byte is one of those the device stored.

- `good_of_oneBlock`: with one block to a cluster, all bytes of a request are the
  file's exactly when all its clusters are.
- `good_of_moreBlocks`: with more, the request has to stay in the first block of
  the first cluster.
- `fat12Read_truthful_iff`: exactly then is the result true, but for the requests
  that are refused, and for those of `2 ^ 32 - 1` bytes, whose size reads as -1.
-/

namespace Leenix

namespace Fat12Handle

/-- The device reads the block of the cluster without an error. -/
def Readable (fs : Fat12Handle) (cluster : Nat) : Prop :=
  (blkread fs.blockDev (fs.clusterToLba cluster) []).1 = 0

/-- A data cluster of the chain from `first` on, before any free, bad or
end-of-chain mark. -/
def InChain (fs : Fat12Handle) (first cluster : Nat) : Prop :=
  ∃ k, fs.chainAt first k = some cluster ∧
    ∀ j, j ≤ k → ∀ c ∈ fs.chainAt first j, 2 ≤ c ∧ c < fat12BadCluster

/-- The byte was stored by a read of a cluster of the file. -/
def FromFile (fs : Fat12Handle) (inode : Fat12DirEntry) (origin : Origin) : Prop :=
  (fs.Readable origin.cluster ∧ fs.InChain inode.firstClusterLow origin.cluster) ∧
    origin.place < (blkread fs.blockDev (fs.clusterToLba origin.cluster) []).2.length

theorem fromFile_iff {fs : Fat12Handle} (inode : Fat12DirEntry) (hdev : ReadsBlocks fs.blockDev)
    (cluster place : Nat) : fs.FromFile inode ⟨cluster, place⟩ ↔
      (fs.Readable cluster ∧ fs.InChain inode.firstClusterLow cluster) ∧ place < 512 := by
  refine and_congr_right fun hok => ?_
  rw [hdev.length_stored hok.1]

end Fat12Handle

/-- `fat12Read` with the origin of every byte. -/
def fat12ReadFrom (node : Option Fat12Vnode) (offs size : Nat) (bufIsNull : Bool)
    (readBuf : Option (List Byte)) : Option (Int × List (Byte × Fat12Handle.Origin)) :=
  match node.bind Fat12Vnode.inode with
  | none => some (-1, [])
  | some inode =>
    if bufIsNull ∨ size = 0 then some (-1, [])
    else
      match node.bind Fat12Vnode.fs with
      | none => some (-1, [])
      | some fs =>
        if inode.attributes &&& fat12Dir ≠ 0 then some (-1, [])
        else if inode.fileSize ≤ offs then some (0, [])
        else if fs.bytesPerCluster = 0 then none
        else
          match readBuf with
          | none => some (-1, [])
          | some readBuf =>
            let size' := clippedSize inode offs size
            let n := clustersToRead fs inode offs size
            (fs.readClustersFrom offs size' n 0 n (startCluster fs inode offs) readBuf).map
              fun stored => (i32 size', stored)

/-- Forgetting the origins gives the read of the code. -/
theorem fat12ReadFrom_bytes (node : Option Fat12Vnode) (offs size : Nat) (bufIsNull : Bool)
    (readBuf : Option (List Byte)) :
    (fat12ReadFrom node offs size bufIsNull readBuf).map (fun r => (r.1, r.2.map Prod.fst)) =
      fat12Read node offs size bufIsNull readBuf := by
  unfold fat12ReadFrom fat12Read
  cases node.bind Fat12Vnode.inode with
  | none => rfl
  | some inode =>
    by_cases hnull : (bufIsNull : Prop) ∨ size = 0
    · simp only [hnull, if_true]
      rfl
    simp only [hnull, if_false]
    cases node.bind Fat12Vnode.fs with
    | none => rfl
    | some fs =>
      by_cases hdir : inode.attributes &&& fat12Dir ≠ 0
      · simp only [if_pos hdir]
        rfl
      by_cases hend : inode.fileSize ≤ offs
      · simp only [hdir, hend, if_true, if_false]
        rfl
      by_cases hzero : fs.bytesPerCluster = 0
      · simp only [hdir, hend, hzero, if_true, if_false]
        rfl
      simp only [hdir, hend, hzero, if_false]
      cases readBuf with
      | none => rfl
      | some readBuf =>
        simp only [Option.map_map, Option.bind_eq_bind]
        change _ = (fs.readClusters offs (clippedSize inode offs size)
          (clustersToRead fs inode offs size) 0 (clustersToRead fs inode offs size)
          (startCluster fs inode offs) readBuf).bind _
        rw [← Fat12Handle.readClustersFrom_bytes, Option.map_eq_bind, Option.map_eq_bind,
          Option.bind_assoc]
        rfl

namespace Fat12Handle

variable {fs : Fat12Handle} {offs size n m i curr : Nat} {good : Origin → Prop}
  [DecidablePred good]

/-! ## Loops of one block to a cluster -/

/-- An iteration that is not the last copies to the end of its cluster. -/
theorem copyEnd_of_lt (hbytes : fs.bytesPerCluster ≠ 0) (hi : i + 1 < n) :
    fs.copyEnd offs size n i = fs.bytesPerCluster := by
  rw [copyEnd, if_neg (by omega : ¬i + 1 = n), if_neg hbytes]

theorem copyEnd_le (hbytes : 0 < fs.bytesPerCluster) :
    fs.copyEnd offs size n i ≤ fs.bytesPerCluster := by
  have hmod := Nat.mod_lt (u32 (offs + size)) hbytes
  rw [copyEnd]
  split <;> split <;> omega

/-- No iteration stores more than a cluster. -/
theorem length_readClustersFrom_le (hbytes : 0 < fs.bytesPerCluster) {readBuf : List Byte}
    {stored : List (Byte × Origin)}
    (h : fs.readClustersFrom offs size n i m curr readBuf = some stored) :
    stored.length ≤ m * fs.bytesPerCluster := by
  induction m generalizing i curr readBuf stored with
  | zero =>
    obtain rfl := Option.some.inj h
    exact Nat.zero_le _
  | succ m ih =>
    cases hentry : fs.getFentry curr with
    | none => simp [readClustersFrom, hentry] at h
    | some e =>
      have hpiece (buf : List Byte) : (piece curr (fs.copyStart offs i) (fs.copyEnd offs size n i)
          buf).length ≤ fs.bytesPerCluster :=
        (List.length_take_le _ _).trans
          (Nat.le_trans (Nat.sub_le _ _) (copyEnd_le hbytes))
      rw [readClustersFrom_succ hentry] at h
      simp only at h
      rw [Nat.succ_mul]
      split at h
      · cases h
      split at h
      · obtain rfl := Option.some.inj h
        exact Nat.le_add_left_of_le (hpiece _)
      · obtain ⟨rest, hrest, rfl⟩ := Option.map_eq_some_iff.mp h
        rw [List.length_append, Nat.add_comm]
        exact Nat.add_le_add (ih hrest) (hpiece _)

/-- **One block to a cluster**: the bytes of a request are the file's when each of
its clusters is on the walk of the FAT, with its entry in the table, and good. -/
theorem good_of_oneBlock (h : fs.Covers offs size n) (hsize : 0 < size)
    (hbytes : fs.bytesPerCluster = 512)
    (hdev : ∀ lba buf, buf.length = fs.bytesPerCluster →
      (blkread fs.blockDev lba buf).2.length = fs.bytesPerCluster)
    {readBuf : List Byte} (hbuf : readBuf.length = fs.bytesPerCluster) {whole : Nat → Prop}
    (hgood : ∀ c place, good ⟨c, place⟩ ↔ whole c ∧ place < 512) :
    (∃ stored, fs.readClustersFrom offs size n 0 n curr readBuf = some stored ∧
        (goodPrefix good stored).length = size) ↔
      ∀ k, k < n → ∃ c, fs.chainAt curr k = some c ∧ (∃ e, fs.getFentry c = some e) ∧ whole c := by
  have hiff := good_iff good curr h hsize (Nat.zero_add n) hdev hbuf
  rw [left_zero] at hiff
  rw [hiff]
  refine forall₂_congr fun k hk => exists_congr fun c => and_congr_right fun _ =>
    and_congr_right fun _ => ?_
  rw [Nat.zero_add]
  constructor
  · intro hall
    exact ((hgood c _).mp (hall _ (Nat.le_refl _) (h.copyStart_lt hk hsize))).1
  · intro hc place _ hplace
    have hend : fs.copyEnd offs size n k ≤ fs.bytesPerCluster := copyEnd_le h.bytes
    exact (hgood c place).mpr ⟨hc, by omega⟩

/-! ## Loops of more blocks to a cluster -/

/-- A piece in two parts. -/
theorem piece_append {cluster copyStart mid copyEnd : Nat} {readBuf : List Byte}
    (hlo : copyStart ≤ mid) (hhi : mid ≤ copyEnd) :
    piece cluster copyStart copyEnd readBuf =
      piece cluster copyStart mid readBuf ++ piece cluster mid copyEnd readBuf := by
  have hdrop (l : List (Byte × Origin)) :
      l.drop mid = (l.drop copyStart).drop (mid - copyStart) := by
    rw [List.drop_drop, Nat.add_sub_cancel' hlo]
  rw [piece, piece, piece, hdrop, ← List.take_add]
  congr 1
  omega

/-- A bad first byte leaves nothing of the prefix. -/
theorem goodPrefix_piece_of_bad {cluster copyStart copyEnd : Nat} {readBuf : List Byte}
    {rest : List (Byte × Origin)} (hend : copyEnd ≤ readBuf.length) (hlt : copyStart < copyEnd)
    (hbad : ¬good ⟨cluster, copyStart⟩) :
    goodPrefix good (piece cluster copyStart copyEnd readBuf ++ rest) = [] := by
  have horigin := piece_origin cluster hend (show 0 < copyEnd - copyStart by omega)
  cases hpiece : piece cluster copyStart copyEnd readBuf with
  | nil =>
    rw [hpiece] at horigin
    cases horigin
  | cons b bs =>
    rw [hpiece] at horigin
    have hb : b.2 = ⟨cluster, copyStart⟩ := Option.some.inj horigin
    simp [goodPrefix, hb, hbad]

/-- The good bytes of a piece that runs into the second block of its cluster, or
has nothing behind it: those of the first block. -/
theorem length_goodPrefix_piece {cluster copyStart copyEnd : Nat} {readBuf : List Byte}
    {rest : List (Byte × Origin)} {whole : Nat → Prop} [DecidablePred whole]
    (hgood : ∀ c place, good ⟨c, place⟩ ↔ whole c ∧ place < 512)
    (hend : copyEnd ≤ readBuf.length) (hle : copyStart ≤ copyEnd)
    (hrest : rest = [] ∨ copyStart < copyEnd ∧ 512 < copyEnd) :
    (goodPrefix good (piece cluster copyStart copyEnd readBuf ++ rest)).length =
      if whole cluster then min copyEnd 512 - copyStart else 0 := by
  rcases Nat.eq_or_lt_of_le hle with heq | hlt
  · -- nothing in the piece, and nothing behind it
    obtain rfl : rest = [] := hrest.resolve_right fun h => by omega
    have hpiece : piece cluster copyStart copyEnd readBuf = [] := by
      rw [piece, heq, Nat.sub_self, List.take_zero]
    rw [hpiece, show goodPrefix good ([] ++ []) = [] from rfl, List.length_nil]
    split <;> omega
  · by_cases hwhole : whole cluster
    · rw [if_pos hwhole]
      by_cases hfirst : copyStart < 512
      · have hmid : min copyEnd 512 ≤ copyEnd := Nat.min_le_left _ _
        have hin : min copyEnd 512 ≤ readBuf.length := hmid.trans hend
        have hall : ∀ b ∈ piece cluster copyStart (min copyEnd 512) readBuf, good b.2 :=
          (forall_piece_iff hin).mpr fun place _ hplace =>
            (hgood cluster place).mpr ⟨hwhole, by omega⟩
        rw [piece_append (show copyStart ≤ min copyEnd 512 by omega) hmid, List.append_assoc,
          goodPrefix_append_of_all hall, List.length_append, length_piece cluster copyStart hin]
        have htail : goodPrefix good
            (piece cluster (min copyEnd 512) copyEnd readBuf ++ rest) = [] := by
          rcases Nat.lt_or_ge 512 copyEnd with hbig | hsmall
          · refine goodPrefix_piece_of_bad hend (by omega) fun hg => ?_
            have := ((hgood cluster _).mp hg).2
            omega
          · obtain rfl : rest = [] := hrest.resolve_right fun h => by omega
            rw [Nat.min_eq_left hsmall, piece, Nat.sub_self, List.take_zero]
            rfl
        rw [htail, List.length_nil, Nat.add_zero]
      · rw [goodPrefix_piece_of_bad hend hlt fun hg => hfirst ((hgood cluster _).mp hg).2,
          List.length_nil]
        omega
    · rw [if_neg hwhole, goodPrefix_piece_of_bad hend hlt fun hg =>
        hwhole ((hgood cluster _).mp hg).1, List.length_nil]

/-- What the loop stores first. -/
theorem readClustersFrom_first {readBuf : List Byte} {stored : List (Byte × Origin)}
    (h : fs.readClustersFrom offs size (n + 1) 0 (n + 1) curr readBuf = some stored) :
    (∃ e, fs.getFentry curr = some e) ∧
      offs % fs.bytesPerCluster ≤ fs.copyEnd offs size (n + 1) 0 ∧
      ∃ rest, stored = piece curr (offs % fs.bytesPerCluster) (fs.copyEnd offs size (n + 1) 0)
          (blkread fs.blockDev (fs.clusterToLba curr) readBuf).2 ++ rest ∧
        (n = 0 → rest = []) := by
  cases hentry : fs.getFentry curr with
  | none => simp [readClustersFrom, hentry] at h
  | some e =>
    rw [readClustersFrom_succ hentry, copyStart_zero] at h
    simp only at h
    split at h
    case isTrue => cases h
    case isFalse hle =>
      refine ⟨⟨e, rfl⟩, Nat.not_lt.mp hle, ?_⟩
      split at h
      · obtain rfl := Option.some.inj h
        exact ⟨[], (List.append_nil _).symm, fun _ => rfl⟩
      · obtain ⟨rest, hrest, rfl⟩ := Option.map_eq_some_iff.mp h
        refine ⟨rest, rfl, fun hn => ?_⟩
        subst hn
        exact (Option.some.inj hrest).symm

/-- **More blocks to a cluster**: the bytes of a request are the file's when it
stays in the first block of the first cluster, and that is good. -/
theorem good_of_moreBlocks (hbytes : 512 < fs.bytesPerCluster) (hsize : 0 < size)
    (hn : offs % fs.bytesPerCluster + size ≤ 512 → n = 1)
    (hdev : ∀ lba buf, buf.length = fs.bytesPerCluster →
      (blkread fs.blockDev lba buf).2.length = fs.bytesPerCluster)
    {readBuf : List Byte} (hbuf : readBuf.length = fs.bytesPerCluster) {whole : Nat → Prop}
    [DecidablePred whole] (hgood : ∀ c place, good ⟨c, place⟩ ↔ whole c ∧ place < 512) :
    (∃ stored, fs.readClustersFrom offs size n 0 n curr readBuf = some stored ∧
        (goodPrefix good stored).length = size) ↔
      (offs % fs.bytesPerCluster + size ≤ 512 ∧
          min (fs.copyEnd offs size 1 0) 512 = offs % fs.bytesPerCluster + size) ∧
        (∃ e, fs.getFentry curr = some e) ∧ whole curr := by
  have hmod := Nat.mod_lt offs (show 0 < fs.bytesPerCluster by omega)
  have hfull := hdev (fs.clusterToLba curr) readBuf hbuf
  have hend (n : Nat) : fs.copyEnd offs size n 0 ≤
      (blkread fs.blockDev (fs.clusterToLba curr) readBuf).2.length :=
    hfull ▸ copyEnd_le (by omega)
  constructor
  · rintro ⟨stored, hstored, hlen⟩
    cases n with
    | zero =>
      obtain rfl := Option.some.inj hstored
      exact absurd hlen hsize.ne
    | succ n =>
      obtain ⟨hentry, hle, rest, rfl, hrest⟩ := readClustersFrom_first hstored
      have hmore : rest = [] ∨ offs % fs.bytesPerCluster < fs.copyEnd offs size (n + 1) 0 ∧
          512 < fs.copyEnd offs size (n + 1) 0 := by
        rcases Nat.eq_zero_or_pos n with hzero | hpos
        · exact .inl (hrest hzero)
        · rw [copyEnd_of_lt (by omega) (by omega)]
          exact .inr ⟨hmod, hbytes⟩
      rw [length_goodPrefix_piece hgood (hend _) hle hmore] at hlen
      by_cases hwhole : whole curr
      · rw [if_pos hwhole] at hlen
        have hone := hn (by omega)
        rw [hone] at hlen
        exact ⟨⟨by omega, by omega⟩, hentry, hwhole⟩
      · rw [if_neg hwhole] at hlen
        exact absurd hlen hsize.ne
  · rintro ⟨⟨hfits, hcopy⟩, ⟨e, hentry⟩, hwhole⟩
    obtain rfl := hn hfits
    have hle : offs % fs.bytesPerCluster ≤ fs.copyEnd offs size 1 0 := by omega
    have hlen : (goodPrefix good (piece curr (offs % fs.bytesPerCluster)
        (fs.copyEnd offs size 1 0) (blkread fs.blockDev (fs.clusterToLba curr) readBuf).2 ++
          [])).length = _ := length_goodPrefix_piece hgood (hend 1) hle (.inl rfl)
    refine ⟨_, ?_, hlen.trans ?_⟩
    · rw [readClustersFrom_succ hentry]
      simp only [copyStart_zero, if_neg (Nat.not_lt.mpr hle), readClustersFrom, Option.map_some,
        List.append_nil, ite_self]
    · rw [if_pos hwhole]
      omega

/-! ## Loops that run through -/

/-- The loop has a defined result: it looks up no entry outside the table, and does
not copy backwards. -/
def RunsThrough (fs : Fat12Handle) (offs size n first : Nat) : Prop :=
  (n = 1 → offs % fs.bytesPerCluster ≤ fs.copyEnd offs size 1 0) ∧
    ∀ k c, k < n → fs.chainAt first k = some c → ∃ e, fs.getFentry c = some e

/-- Only a loop of one iteration can copy backwards. -/
theorem copyStart_le_copyEnd (hbytes : 0 < fs.bytesPerCluster)
    (hone : n = 1 → offs % fs.bytesPerCluster ≤ fs.copyEnd offs size 1 0) (hi : i < n) :
    fs.copyStart offs i ≤ fs.copyEnd offs size n i := by
  have hmod := Nat.mod_lt offs hbytes
  cases i with
  | zero =>
    rw [copyStart_zero]
    by_cases hn : n = 1
    · exact hn ▸ hone hn
    · rw [copyEnd_of_lt (by omega) (by omega)]
      exact hmod.le
  | succ i =>
    rw [copyStart_succ]
    exact Nat.zero_le _

theorem readClustersFrom_isSome_iff (hin : i + m = n)
    (hforward : ∀ j, j < n → fs.copyStart offs j ≤ fs.copyEnd offs size n j)
    {readBuf : List Byte} :
    (∃ stored, fs.readClustersFrom offs size n i m curr readBuf = some stored) ↔
      ∀ k c, k < m → fs.chainAt curr k = some c → ∃ e, fs.getFentry c = some e := by
  induction m generalizing i curr readBuf with
  | zero => exact ⟨fun _ k _ hk => absurd hk (Nat.not_lt_zero k), fun _ => ⟨[], rfl⟩⟩
  | succ m ih =>
    rw [forall_chainAt_succ]
    cases hentry : fs.getFentry curr with
    | none => simp [readClustersFrom, hentry]
    | some e =>
      rw [readClustersFrom_succ hentry]
      simp only [if_neg (Nat.not_lt.mpr (hforward i (by omega))), Option.some.injEq, exists_eq',
        true_and]
      by_cases heoc : fat12EocMin ≤ curr
      · simp [heoc, chainAt_succ]
      · simp only [if_neg heoc, Option.map_eq_some_iff, chainAt_next hentry (Nat.not_le.mp heoc)]
        rw [← ih (i := i + 1) (by omega)]
        constructor
        · rintro ⟨_, rest, hrest, rfl⟩
          exact ⟨rest, hrest⟩
        · rintro ⟨rest, hrest⟩
          exact ⟨_, rest, hrest, rfl⟩

theorem readClustersFrom_runs_iff (hbytes : 0 < fs.bytesPerCluster) (readBuf : List Byte) :
    (∃ stored, fs.readClustersFrom offs size n 0 n curr readBuf = some stored) ↔
      fs.RunsThrough offs size n curr := by
  by_cases hone : n = 1 → offs % fs.bytesPerCluster ≤ fs.copyEnd offs size 1 0
  · rw [RunsThrough, readClustersFrom_isSome_iff (Nat.zero_add n)
      fun j hj => copyStart_le_copyEnd hbytes hone hj]
    exact (and_iff_right hone).symm
  · refine iff_of_false ?_ fun h => hone h.1
    obtain ⟨rfl, hback⟩ := Classical.not_imp.mp hone
    rintro ⟨stored, hstored⟩
    exact hback (readClustersFrom_first hstored).2.1

end Fat12Handle

/-! ## Results -/

section Truthful

variable (fs : Fat12Handle) (inode : Fat12DirEntry) (offs size : Nat) (bufIsNull : Bool)
  (readBuf : Option (List Byte))

open Classical in
/-- The read returns -1 or the number of bytes at the start of the buffer that are
the file's. -/
def Truthful : Prop :=
  ∃ result stored, fat12ReadFrom (some ⟨some inode, some fs⟩) offs size bufIsNull readBuf =
      some (result, stored) ∧
    (result = -1 ∨ result = (Fat12Handle.goodPrefix (fs.FromFile inode) stored).length)

/-- The request needs the first block of its clusters only, and the code computes
the number of these and the end of the last copy without a wrap-around. -/
def FirstBlocks : Prop :=
  if fs.bytesPerCluster = 512 then offs % 512 + size ≤ (2 ^ 16 - 1) * 512
  else offs % fs.bytesPerCluster + size ≤ 512 ∧
    min (fs.copyEnd offs size 1 0) 512 = offs % fs.bytesPerCluster + size

/-- From the computed start cluster on, the FAT leads through all clusters that the
request needs, they are the chain's, and the device reads them. -/
def Intact : Prop :=
  ∀ k, offs / fs.bytesPerCluster + k ≤ (offs + size - 1) / fs.bytesPerCluster →
    ∃ c, fs.chainAt (startCluster fs inode offs) k = some c ∧ (∃ e, fs.getFentry c = some e) ∧
      fs.Readable c ∧ fs.InChain inode.firstClusterLow c

end Truthful

section Result

variable {fs : Fat12Handle} {inode : Fat12DirEntry} {offs size : Nat} {bufIsNull : Bool}

/-- A request that is not refused runs the loop. -/
theorem fat12ReadFrom_requested {readBuf : List Byte}
    (h : Requested fs inode offs size bufIsNull (some readBuf)) :
    fat12ReadFrom (some ⟨some inode, some fs⟩) offs size bufIsNull (some readBuf) =
      (fs.readClustersFrom offs (clippedSize inode offs size) (clustersToRead fs inode offs size) 0
        (clustersToRead fs inode offs size) (startCluster fs inode offs) readBuf).map
        fun stored => (i32 (clippedSize inode offs size), stored) := by
  obtain ⟨hnull, hfile, hoffs, hbytes, -⟩ := h
  simp only [fat12ReadFrom, Option.bind_some, hnull, hfile, Nat.not_le.mpr hoffs, hbytes, ne_eq,
    not_true_eq_false, if_false]

/-- A refused request is answered with -1 or 0, and nothing is stored. -/
theorem truthful_of_refused {readBuf : Option (List Byte)} (hbytes : fs.bytesPerCluster ≠ 0)
    (h : ¬Requested fs inode offs size bufIsNull readBuf) :
    Truthful fs inode offs size bufIsNull readBuf := by
  have hread := fat12ReadFrom_bytes (some ⟨some inode, some fs⟩) offs size bufIsNull readBuf
  have hanswer : ∃ result : Int, (result = -1 ∨ result = 0) ∧
      fat12Read (some ⟨some inode, some fs⟩) offs size bufIsNull readBuf = some (result, []) := by
    rcases fat12Read_refused hbytes h with hfail | hend
    · exact ⟨-1, .inl rfl, hfail⟩
    · exact ⟨0, .inr rfl, hend⟩
  obtain ⟨result, hresult, hanswer⟩ := hanswer
  obtain ⟨⟨r, stored⟩, hfrom, heq⟩ := Option.map_eq_some_iff.mp (hread.trans hanswer)
  obtain ⟨rfl, hstored⟩ := Prod.mk.inj heq
  obtain rfl := List.map_eq_nil_iff.mp hstored
  exact ⟨r, [], hfrom, hresult⟩

section Requested

variable {readBuf : List Byte} (hbytes : 512 ≤ fs.bytesPerCluster ∧ fs.bytesPerCluster < 2 ^ 24)
  (hdev : ReadsBlocks fs.blockDev) (hbuf : readBuf.length = fs.bytesPerCluster)
include hbytes hdev hbuf

open Classical in
/-- The bytes of a request of a size below `2 ^ 31` are all the file's. -/
theorem good_requested_iff (hsize : 0 < clippedSize inode offs size)
    (hsmall : clippedSize inode offs size < 2 ^ 31) :
    (∃ stored, fs.readClustersFrom offs (clippedSize inode offs size)
          (clustersToRead fs inode offs size) 0 (clustersToRead fs inode offs size)
          (startCluster fs inode offs) readBuf = some stored ∧
        (Fat12Handle.goodPrefix (fs.FromFile inode) stored).length = clippedSize inode offs size) ↔
      FirstBlocks fs offs (clippedSize inode offs size) ∧
        Intact fs inode offs (clippedSize inode offs size) := by
  have hfull : ∀ lba (buf : List Byte), buf.length = fs.bytesPerCluster →
      (blkread fs.blockDev lba buf).2.length = fs.bytesPerCluster := by
    intro lba buf hlen
    rw [← hlen]
    refine blkread_length fun d hd read hread lba => ?_
    have hle := (hdev d hd read hread lba).1
    omega
  have hgood := Fat12Handle.fromFile_iff inode hdev
  have hmod := Nat.mod_lt offs (show 0 < fs.bytesPerCluster by omega)
  rcases Nat.eq_or_lt_of_le hbytes.1 with hone | hmore
  · by_cases hcount : offs % 512 + clippedSize inode offs size ≤ (2 ^ 16 - 1) * 512
    · have hcovers : fs.Covers offs (clippedSize inode offs size)
          (clustersToRead fs inode offs size) := by
        refine clustersToRead_covers (by omega) hsize ?_ (by omega) ?_
        all_goals rw [← hone]
        · exact hcount
        · simp only [u32]
          omega
      rw [Fat12Handle.good_of_oneBlock hcovers hsize hone.symm hfull hbuf hgood]
      simp only [FirstBlocks, if_pos hone.symm, hcount, true_and, Intact, hcovers.lt_iff hsize]
    · -- the number of clusters does not fit 16 bits
      refine iff_of_false ?_ fun h => hcount (by simpa [FirstBlocks, ← hone] using h.1)
      rintro ⟨stored, hstored, hlen⟩
      have hle := Fat12Handle.length_readClustersFrom_le (by omega) hstored
      have hprefix : (Fat12Handle.goodPrefix (fs.FromFile inode) stored).length ≤ stored.length :=
        Fat12Handle.length_goodPrefix_le stored
      simp only [clustersToRead, ← hone, u16, u32] at hle
      split at hle <;> omega
  · have hn : offs % fs.bytesPerCluster + clippedSize inode offs size ≤ 512 →
        clustersToRead fs inode offs size = 1 := by
      intro hfits
      have hsum : u32 (offs % fs.bytesPerCluster + clippedSize inode offs size) =
          offs % fs.bytesPerCluster + clippedSize inode offs size := Nat.mod_eq_of_lt (by omega)
      simp only [clustersToRead, hsum]
      rw [Nat.div_eq_of_lt (by omega), Nat.mod_eq_of_lt (a := offs % _ + _) (by omega),
        if_neg (by omega)]
      rfl
    rw [Fat12Handle.good_of_moreBlocks hmore hsize hn hfull hbuf hgood]
    simp only [FirstBlocks, if_neg hmore.ne']
    refine and_congr_right fun hfits => ?_
    have hlast : (offs + clippedSize inode offs size - 1) / fs.bytesPerCluster =
        offs / fs.bytesPerCluster := by
      have hzero : (offs % fs.bytesPerCluster + clippedSize inode offs size - 1) /
          fs.bytesPerCluster = 0 := Nat.div_eq_of_lt (by omega)
      rw [Fat12Handle.last_div (by omega) hsize, hzero, Nat.add_zero]
    rw [Intact, hlast]
    constructor
    · intro hc k hk
      obtain rfl : k = 0 := by omega
      exact ⟨_, rfl, hc⟩
    · intro hall
      obtain ⟨c, hc, hwhole⟩ := hall 0 (Nat.le_refl _)
      exact Option.some.inj hc ▸ hwhole

end Requested

open Classical in
/-- A request that is not refused is answered with its size. -/
theorem truthful_requested_iff {readBuf : List Byte}
    (hread : Requested fs inode offs size bufIsNull (some readBuf)) :
    Truthful fs inode offs size bufIsNull (some readBuf) ↔
      ∃ stored, fs.readClustersFrom offs (clippedSize inode offs size)
          (clustersToRead fs inode offs size) 0 (clustersToRead fs inode offs size)
          (startCluster fs inode offs) readBuf = some stored ∧
        (i32 (clippedSize inode offs size) = -1 ∨ i32 (clippedSize inode offs size) =
          (Fat12Handle.goodPrefix (fs.FromFile inode) stored).length) := by
  rw [Truthful, fat12ReadFrom_requested hread]
  simp only [Option.map_eq_some_iff, Prod.mk.injEq]
  constructor
  · rintro ⟨_, _, ⟨stored, hstored, rfl, rfl⟩, hresult⟩
    exact ⟨stored, hstored, hresult⟩
  · rintro ⟨stored, hstored, hresult⟩
    exact ⟨_, stored, ⟨stored, hstored, rfl, rfl⟩, hresult⟩

/-- **A true result**: the request is refused; or its size reads as -1 and the loop
runs through; or it needs only the first blocks of its clusters, and these are
intact. -/
theorem fat12Read_truthful_iff
    (hbytes : 512 ≤ fs.bytesPerCluster ∧ fs.bytesPerCluster < 2 ^ 24)
    (hdev : ReadsBlocks fs.blockDev) {readBuf : Option (List Byte)}
    (hbuf : ∀ buf ∈ readBuf, buf.length = fs.bytesPerCluster)
    (hsize : size < 2 ^ 32 ∧ inode.fileSize < 2 ^ 32) :
    Truthful fs inode offs size bufIsNull readBuf ↔
      (Requested fs inode offs size bufIsNull readBuf →
        clippedSize inode offs size = 2 ^ 32 - 1 ∧
            fs.RunsThrough offs (clippedSize inode offs size) (clustersToRead fs inode offs size)
              (startCluster fs inode offs) ∨
          clippedSize inode offs size < 2 ^ 31 ∧
            FirstBlocks fs offs (clippedSize inode offs size) ∧
              Intact fs inode offs (clippedSize inode offs size)) := by
  by_cases hread : Requested fs inode offs size bufIsNull readBuf
  · obtain ⟨readBuf, rfl⟩ := Option.ne_none_iff_exists'.mp hread.2.2.2.2
    have hclip : 0 < clippedSize inode offs size ∧ clippedSize inode offs size < 2 ^ 32 := by
      have hnonzero : size ≠ 0 := fun h => hread.1 (.inr h)
      have hoffs := hread.2.2.1
      rw [clippedSize]
      split <;> omega
    rw [truthful_requested_iff hread]
    simp only [hread, forall_const]
    by_cases hsmall : clippedSize inode offs size < 2 ^ 31
    · -- the result is the size
      have hresult : i32 (clippedSize inode offs size) = clippedSize inode offs size := by
        rw [i32, if_pos hsmall]
      have hnotall : ¬clippedSize inode offs size = 2 ^ 32 - 1 := by omega
      simp only [hnotall, false_and, false_or, hsmall, true_and]
      rw [← good_requested_iff hbytes hdev (hbuf readBuf rfl) hclip.1 hsmall, hresult]
      refine exists_congr fun stored => and_congr_right fun _ => ?_
      omega
    · -- the result is negative
      have hresult : i32 (clippedSize inode offs size) = clippedSize inode offs size - 2 ^ 32 := by
        rw [i32, if_neg hsmall]
      rw [hresult]
      simp only [hsmall, false_and, or_false]
      by_cases hall : clippedSize inode offs size = 2 ^ 32 - 1
      · rw [← Fat12Handle.readClustersFrom_runs_iff (by omega) readBuf]
        simp only [hall, true_and]
        exact exists_congr fun stored => and_iff_left (.inl (by decide))
      · simp only [hall, false_and, iff_false]
        rintro ⟨stored, -, hresult | hresult⟩ <;> omega
  · exact iff_of_true (truthful_of_refused (by omega) hread) fun h => absurd h hread

end Result

/-- A device on which every read fails. -/
def brokenDevice : BlockDevice := ⟨100, some fun _ => (-1, [])⟩

theorem brokenDevice_readsBlocks : ReadsBlocks (some brokenDevice) := by
  intro d hd read hread lba
  obtain rfl := Option.some.inj hd
  obtain rfl := Option.some.inj hread
  exact ⟨Nat.zero_le _, fun h => absurd h (show ¬(-1 : Int) = 0 by decide)⟩

theorem brokenDevice_fails (lba : Nat) : (blkread (some brokenDevice) lba []).1 ≠ 0 := by
  have hfail : (blkread (some brokenDevice) lba []).1 = -1 := by
    show (if brokenDevice.numBlocks ≤ lba then ((-1 : Int), ([] : List Byte))
      else (-1, overlay [] [])).1 = -1
    split <;> rfl
  rw [hfail]
  decide

/-- The sample volume on the broken device. -/
def brokenVolume : Fat12Handle := { sampleVolume with blockDev := some brokenDevice }

/-- The first byte of the sample file. -/
theorem fat12Read_truthful_iff_broken :
    Truthful brokenVolume sampleFile 0 1 false (some (List.replicate 512 0)) ↔
      (Requested brokenVolume sampleFile 0 1 false (some (List.replicate 512 0)) →
        clippedSize sampleFile 0 1 = 2 ^ 32 - 1 ∧
            brokenVolume.RunsThrough 0 (clippedSize sampleFile 0 1)
              (clustersToRead brokenVolume sampleFile 0 1) (startCluster brokenVolume sampleFile 0) ∨
          clippedSize sampleFile 0 1 < 2 ^ 31 ∧
            FirstBlocks brokenVolume 0 (clippedSize sampleFile 0 1) ∧
              Intact brokenVolume sampleFile 0 (clippedSize sampleFile 0 1)) :=
  fat12Read_truthful_iff (by decide) brokenDevice_readsBlocks
    (fun _ h => Option.some.inj h ▸ List.length_replicate) (by decide)

/-- A byte that the device cannot read is reported as read: the buffer gets what
`malloc` left in `read_buf`. -/
theorem failed_read_reported :
    fat12Read (some ⟨some sampleFile, some brokenVolume⟩) 0 1 false
      (some (List.replicate 512 7)) = some (1, [7]) ∧
    ¬Truthful brokenVolume sampleFile 0 1 false (some (List.replicate 512 7)) := by
  have hread : fat12Read (some ⟨some sampleFile, some brokenVolume⟩) 0 1 false
      (some (List.replicate 512 7)) = some (1, [7]) := by decide +kernel
  refine ⟨hread, ?_⟩
  rintro ⟨result, stored, hfrom, hresult⟩
  -- no byte is the file's
  have hbad : ∀ origin, ¬brokenVolume.FromFile sampleFile origin :=
    fun _ h => brokenDevice_fails _ h.1.1
  have hbytes := fat12ReadFrom_bytes (some ⟨some sampleFile, some brokenVolume⟩) 0 1 false
    (some (List.replicate 512 7))
  rw [hfrom, hread] at hbytes
  obtain ⟨rfl, -⟩ := Prod.mk.inj (Option.some.inj hbytes)
  cases stored with
  | nil => simp [Fat12Handle.goodPrefix] at hresult
  | cons b bs => simp [Fat12Handle.goodPrefix, hbad] at hresult

end Leenix
