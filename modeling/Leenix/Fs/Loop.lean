import Leenix.Fs.Accesses

/-!
# The loop of a read, for any cluster size

`readClusters` copies a piece of `read_buf` in every iteration. When the copy
bounds cover the request (`Covers`), the pieces put together are the requested
stretch of the clusters that the loop visits, as long as it visits them all.

- `readClusters_content`: what is stored, when the reads determine the buffer.
- `readClustersFrom`: the loop with the origin of every byte it stores.
- `good_iff`: the whole request comes from good origins exactly when the chain
  is followed to its last cluster and every piece of it is good.
-/

namespace Leenix

namespace Fat12Handle

variable {fs : Fat12Handle} {offs size n m i curr : Nat}

/-! ## Copy bounds -/

/-- `n` iterations are just enough for `size` bytes from `offs` on, and the end of
the request is where the code computes it. -/
structure Covers (fs : Fat12Handle) (offs size n : Nat) : Prop where
  bytes : 0 < fs.bytesPerCluster
  last : (n - 1) * fs.bytesPerCluster < offs % fs.bytesPerCluster + size
  fits : offs % fs.bytesPerCluster + size ≤ n * fs.bytesPerCluster
  tail : u32 (offs + size) % fs.bytesPerCluster =
    (offs % fs.bytesPerCluster + size) % fs.bytesPerCluster

/-- The number of bytes that are left to store before iteration `i`. -/
def left (fs : Fat12Handle) (offs size i : Nat) : Nat :=
  offs % fs.bytesPerCluster + size - i * fs.bytesPerCluster - fs.copyStart offs i

theorem copyStart_zero : fs.copyStart offs 0 = offs % fs.bytesPerCluster := if_pos rfl

theorem copyStart_succ : fs.copyStart offs (i + 1) = 0 := if_neg (Nat.succ_ne_zero i)

theorem left_zero : fs.left offs size 0 = size := by
  rw [left, copyStart_zero, Nat.zero_mul]
  omega

section Covers

variable (h : fs.Covers offs size n) (hi : i < n)
include h hi

theorem Covers.lt_end : i * fs.bytesPerCluster < offs % fs.bytesPerCluster + size :=
  Nat.lt_of_le_of_lt (Nat.mul_le_mul_right _ (Nat.le_sub_one_of_lt hi)) h.last

/-- The end of the copy in iteration `i`: the end of the request or of the cluster. -/
theorem Covers.copyEnd_eq : fs.copyEnd offs size n i =
    min fs.bytesPerCluster (offs % fs.bytesPerCluster + size - i * fs.bytesPerCluster) := by
  have hbytes := h.bytes
  have hstart := h.lt_end hi
  rw [copyEnd, h.tail]
  by_cases hend : i + 1 = n
  · have hfits := h.fits
    rw [← hend, Nat.succ_mul] at hfits
    have hmod : (offs % fs.bytesPerCluster + size) % fs.bytesPerCluster =
        (offs % fs.bytesPerCluster + size - i * fs.bytesPerCluster) % fs.bytesPerCluster := by
      rw [Nat.mul_comm i, Nat.sub_mul_mod (Nat.mul_comm i _ ▸ hstart.le)]
    rw [if_pos hend, hmod, Nat.min_eq_right (by omega)]
    rcases Nat.lt_or_eq_of_le (show offs % fs.bytesPerCluster + size - i * fs.bytesPerCluster ≤
        fs.bytesPerCluster by omega) with hlt | heq
    · rw [Nat.mod_eq_of_lt hlt, if_neg (by omega)]
    · rw [heq, Nat.mod_self, if_pos rfl]
  · have hnext : (i + 1) * fs.bytesPerCluster ≤ (n - 1) * fs.bytesPerCluster :=
      Nat.mul_le_mul_right _ (by omega)
    have hlast := h.last
    rw [Nat.succ_mul] at hnext
    rw [if_neg hend, if_neg hbytes.ne']
    omega

theorem Covers.copyStart_le : fs.copyStart offs i ≤ fs.copyEnd offs size n i := by
  have hstart := h.lt_end hi
  have hmod := Nat.mod_lt offs h.bytes
  rw [h.copyEnd_eq hi, copyStart]
  split
  case isTrue hzero =>
    rw [hzero, Nat.zero_mul]
    omega
  case isFalse => omega

/-- One iteration stores its piece of what is left. -/
theorem Covers.left_eq : fs.left offs size i =
    fs.copyEnd offs size n i - fs.copyStart offs i + fs.left offs size (i + 1) := by
  have hle := h.copyStart_le hi
  rw [h.copyEnd_eq hi] at hle ⊢
  rw [left, left, copyStart_succ, Nat.succ_mul]
  omega

/-- Of a request that is not empty every iteration stores something. -/
theorem Covers.copyStart_lt (hsize : 0 < size) :
    fs.copyStart offs i < fs.copyEnd offs size n i := by
  have hstart := h.lt_end hi
  have hmod := Nat.mod_lt offs h.bytes
  rw [h.copyEnd_eq hi, copyStart]
  split
  case isTrue hzero =>
    rw [hzero, Nat.zero_mul]
    omega
  case isFalse => omega

theorem Covers.left_pos (hsize : 0 < size) : 0 < fs.left offs size i := by
  have hlt := h.copyStart_lt hi hsize
  rw [h.left_eq hi]
  omega

end Covers

/-- The cluster of the last requested byte. -/
theorem last_div (hbytes : 0 < fs.bytesPerCluster) (hsize : 0 < size) :
    (offs + size - 1) / fs.bytesPerCluster = offs / fs.bytesPerCluster +
      (offs % fs.bytesPerCluster + size - 1) / fs.bytesPerCluster := by
  have hsplit : offs + size - 1 = fs.bytesPerCluster * (offs / fs.bytesPerCluster) +
      (offs % fs.bytesPerCluster + size - 1) := by
    have := Nat.div_add_mod offs fs.bytesPerCluster
    omega
  rw [hsplit, Nat.mul_add_div hbytes]

/-- The iterations are numbered by the clusters of the file from the one at `offs`
to the one with the last requested byte. -/
theorem Covers.lt_iff (h : fs.Covers offs size n) (hsize : 0 < size) :
    i < n ↔ offs / fs.bytesPerCluster + i ≤ (offs + size - 1) / fs.bytesPerCluster := by
  rw [last_div h.bytes hsize, Nat.add_le_add_iff_left, Nat.le_div_iff_mul_le h.bytes]
  constructor
  · intro hi
    have hstart := h.lt_end hi
    omega
  · intro hle
    have hfits := h.fits
    exact Nat.lt_of_mul_lt_mul_right (a := fs.bytesPerCluster) (by omega)

theorem Covers.left_end (h : fs.Covers offs size n) : fs.left offs size n = 0 := by
  have hfits := h.fits
  rw [left]
  omega

/-! ## What is stored -/

/-- Cutting `L` bytes off a block and what follows it, from index `k` of the block. -/
theorem take_drop_append {α : Type} {b r : List α} {k L B : Nat} (hb : b.length = B)
    (hk : k ≤ min B L) :
    ((b ++ r).drop k).take (L - k) = (b.drop k).take (min B L - k) ++ r.take (L - B) := by
  have hlen : (b.drop k).length = B - k := by simp [hb]
  rw [List.drop_append_of_le_length (by omega), List.take_append, hlen,
    show L - k - (B - k) = L - B by omega]
  congr 1
  rcases Nat.le_total L B with hL | hL
  · rw [Nat.min_eq_right hL]
  · rw [Nat.min_eq_left hL, List.take_of_length_le (by omega), List.take_of_length_le (by omega)]

/-- Where the chain goes on behind a cluster that has its entry. -/
theorem chainAt_next {e : Nat} (hentry : fs.getFentry curr = some e) (hgo : curr < fat12EocMin)
    (k : Nat) : fs.chainAt curr (k + 1) = fs.chainAt e k := by
  rw [chainAt_succ, if_neg (Nat.not_le.mpr hgo), hentry, Option.bind_some]

/-- **The bytes stored.** Where every read of a cluster `c` makes the buffer
`content c`, the loop stores the contents of the clusters it visits, from the
offset in the first to the end of the request. -/
theorem readClusters_content (h : fs.Covers offs size n) {content : Nat → List Byte}
    {Kept : List Byte → Prop} {cs : List Nat} {readBuf : List Byte} (hin : i + m = n)
    (hread : ∀ c ∈ cs, ∀ buf, Kept buf →
      (blkread fs.blockDev (fs.clusterToLba c) buf).2 = content c ∧ Kept (content c))
    (hlen : ∀ c ∈ cs, (content c).length = fs.bytesPerCluster)
    (hentry : ∀ c ∈ cs, ∃ e, fs.getFentry c = some e) (hm : m ≤ cs.length)
    (hchain : ∀ k, k < m → fs.chainAt curr k = cs[k]?) (hbuf : Kept readBuf) :
    fs.readClusters offs size n i m curr readBuf =
      some (((cs.flatMap content).drop (fs.copyStart offs i)).take (fs.left offs size i)) := by
  induction m generalizing i cs curr readBuf with
  | zero =>
    obtain rfl : i = n := hin
    rw [h.left_end, List.take_zero, readClusters]
  | succ m ih =>
    have hi : i < n := by omega
    obtain ⟨c, rest, rfl⟩ := List.exists_cons_of_length_pos (Nat.zero_lt_of_lt hm)
    obtain rfl : curr = c := Option.some.inj (hchain 0 (Nat.succ_pos m))
    obtain ⟨e, hcurr⟩ := hentry curr List.mem_cons_self
    obtain ⟨hfull, hkept⟩ := hread curr List.mem_cons_self readBuf hbuf
    have hstart := h.copyStart_le hi
    rw [readClusters_succ hcurr, hfull]
    simp only
    rw [if_neg (Nat.not_lt.mpr hstart), List.flatMap_cons]
    -- the piece of this cluster, and what the iterations after it have left
    have hcut : ((content curr ++ rest.flatMap content).drop (fs.copyStart offs i)).take
          (fs.left offs size i) =
        ((content curr).drop (fs.copyStart offs i)).take
            (fs.copyEnd offs size n i - fs.copyStart offs i) ++
          (rest.flatMap content).take (fs.left offs size (i + 1)) := by
      have hnext : fs.left offs size (i + 1) =
          offs % fs.bytesPerCluster + size - i * fs.bytesPerCluster - fs.bytesPerCluster := by
        rw [left, copyStart_succ, Nat.succ_mul]
        omega
      rw [h.copyEnd_eq hi] at hstart ⊢
      rw [left, take_drop_append (hlen curr List.mem_cons_self) hstart, hnext]
    rw [hcut]
    cases m with
    | zero =>
      obtain rfl : i + 1 = n := hin
      rw [h.left_end, List.take_zero, List.append_nil, readClusters, Option.map_some,
        List.append_nil, ite_self]
    | succ m =>
      -- the chain goes on, so the cluster is no end-of-chain mark
      have hgo : curr < fat12EocMin := by
        by_contra heoc
        have hnone := hchain 1 (by omega)
        rw [chainAt_succ, if_pos (Nat.not_lt.mp heoc)] at hnone
        have hshort := List.getElem?_eq_none_iff.mp hnone.symm
        rw [List.length_cons] at hshort hm
        omega
      have hrest : fs.readClusters offs size n (i + 1) (m + 1) e (content curr) =
          some (((rest.flatMap content).drop (fs.copyStart offs (i + 1))).take
            (fs.left offs size (i + 1))) := ih (by omega)
        (fun c hc => hread c (List.mem_cons_of_mem _ hc))
        (fun c hc => hlen c (List.mem_cons_of_mem _ hc))
        (fun c hc => hentry c (List.mem_cons_of_mem _ hc)) (by simpa using hm)
        (fun k hk => by rw [← chainAt_next hcurr hgo, hchain (k + 1) (by omega),
          List.getElem?_cons_succ])
        hkept
      rw [if_neg (Nat.not_le.mpr hgo), hrest, Option.map_some, copyStart_succ, List.drop_zero]

/-! ## Where it comes from -/

/-- The origin of a stored byte: the cluster that its iteration asked for, and its
place in `read_buf`. -/
structure Origin where
  cluster : Nat
  place : Nat
deriving DecidableEq

/-- The bytes of a buffer with their origins, from `copyStart` to `copyEnd`. -/
def piece (cluster copyStart copyEnd : Nat) (readBuf : List Byte) : List (Byte × Origin) :=
  ((readBuf.mapIdx fun place byte => (byte, ⟨cluster, place⟩)).drop copyStart).take
    (copyEnd - copyStart)

/-- `Fat12Handle.readClusters` with the origin of every byte. -/
def readClustersFrom (fs : Fat12Handle) (offs size clustersToRead : Nat) :
    Nat → Nat → Nat → List Byte → Option (List (Byte × Origin))
  | _, 0, _, _ => some []
  | i, n + 1, currCluster, readBuf => do
    let fentry ← fs.getFentry currCluster
    let (_, readBuf) := blkread fs.blockDev (fs.clusterToLba currCluster) readBuf
    let copyStart := fs.copyStart offs i
    let copyEnd := fs.copyEnd offs size clustersToRead i
    if copyEnd < copyStart then none
    else
      let bytes := piece currCluster copyStart copyEnd readBuf
      if fat12EocMin ≤ currCluster then return bytes
      else return bytes ++ (← fs.readClustersFrom offs size clustersToRead (i + 1) n fentry readBuf)

theorem readClustersFrom_succ {e : Nat} {readBuf : List Byte} (h : fs.getFentry curr = some e) :
    fs.readClustersFrom offs size n i (m + 1) curr readBuf =
      let buf := (blkread fs.blockDev (fs.clusterToLba curr) readBuf).2
      let bytes := piece curr (fs.copyStart offs i) (fs.copyEnd offs size n i) buf
      if fs.copyEnd offs size n i < fs.copyStart offs i then none
      else if fat12EocMin ≤ curr then some bytes
      else (fs.readClustersFrom offs size n (i + 1) m e buf).map (bytes ++ ·) := by
  rw [readClustersFrom, h]
  simp only [Option.map_eq_bind]
  rfl

theorem piece_bytes (cluster copyStart copyEnd : Nat) (readBuf : List Byte) :
    (piece cluster copyStart copyEnd readBuf).map Prod.fst =
      (readBuf.drop copyStart).take (copyEnd - copyStart) := by
  have hbytes : (readBuf.mapIdx fun place byte => (byte, (⟨cluster, place⟩ : Origin))).map
      Prod.fst = readBuf := List.ext_getElem? fun k => by simp [Function.comp_def]
  rw [piece, List.map_take, List.map_drop, hbytes]

/-- Forgetting the origins gives the loop of the code. -/
theorem readClustersFrom_bytes {readBuf : List Byte} :
    (fs.readClustersFrom offs size n i m curr readBuf).map (List.map Prod.fst) =
      fs.readClusters offs size n i m curr readBuf := by
  induction m generalizing i curr readBuf with
  | zero => rfl
  | succ m ih =>
    cases hentry : fs.getFentry curr with
    | none => simp [readClustersFrom, readClusters, hentry]
    | some e =>
      rw [readClusters_succ hentry, readClustersFrom_succ hentry]
      simp only
      split
      · rfl
      · split
        · rw [Option.map_some, piece_bytes]
        · rw [← ih, Option.map_map, Option.map_map]
          congr 1
          funext rest
          simp [piece_bytes]

theorem length_piece (cluster copyStart : Nat) {copyEnd : Nat} {readBuf : List Byte}
    (hend : copyEnd ≤ readBuf.length) :
    (piece cluster copyStart copyEnd readBuf).length = copyEnd - copyStart := by
  simp only [piece, List.length_take, List.length_drop, List.length_mapIdx]
  omega

/-- The origins of a piece are its places, one after the other. -/
theorem piece_origin (cluster : Nat) {copyStart copyEnd k : Nat} {readBuf : List Byte}
    (hend : copyEnd ≤ readBuf.length) (hk : k < copyEnd - copyStart) :
    ((piece cluster copyStart copyEnd readBuf)[k]?).map Prod.snd =
      some ⟨cluster, copyStart + k⟩ := by
  rw [piece, List.getElem?_take_of_lt hk, List.getElem?_drop, List.getElem?_mapIdx,
    List.getElem?_eq_getElem (by omega)]
  rfl

/-- All bytes of a piece are good when its places are. -/
theorem forall_piece_iff {good : Origin → Prop} {cluster copyStart copyEnd : Nat}
    {readBuf : List Byte} (hend : copyEnd ≤ readBuf.length) :
    (∀ b ∈ piece cluster copyStart copyEnd readBuf, good b.2) ↔
      ∀ place, copyStart ≤ place → place < copyEnd → good ⟨cluster, place⟩ := by
  constructor
  · intro h place hlo hhi
    have hin : place - copyStart < copyEnd - copyStart := by omega
    have horigin := piece_origin cluster hend hin
    obtain ⟨b, hb, heq⟩ := Option.map_eq_some_iff.mp horigin
    rw [show copyStart + (place - copyStart) = place by omega] at heq
    exact heq ▸ h b (List.mem_of_getElem? hb)
  · intro h b hb
    obtain ⟨k, hk, rfl⟩ := List.getElem_of_mem hb
    have hin := length_piece cluster copyStart hend ▸ hk
    have horigin := piece_origin cluster hend hin
    rw [List.getElem?_eq_getElem hk, Option.map_some] at horigin
    rw [Option.some.inj horigin]
    exact h _ (Nat.le_add_right _ _) (by omega)

/-- The good bytes at the start of the buffer. -/
def goodPrefix (good : Origin → Prop) [DecidablePred good] (stored : List (Byte × Origin)) :
    List (Byte × Origin) :=
  stored.takeWhile fun b => good b.2

variable {good : Origin → Prop} [DecidablePred good]

theorem length_goodPrefix_le (stored : List (Byte × Origin)) :
    (goodPrefix good stored).length ≤ stored.length :=
  (List.takeWhile_prefix _).length_le

theorem goodPrefix_append_of_all {xs ys : List (Byte × Origin)} (h : ∀ b ∈ xs, good b.2) :
    goodPrefix good (xs ++ ys) = xs ++ goodPrefix good ys :=
  List.takeWhile_append_of_pos fun b hb => decide_eq_true (h b hb)

theorem goodPrefix_of_all {stored : List (Byte × Origin)} (h : ∀ b ∈ stored, good b.2) :
    goodPrefix good stored = stored := by
  have hall : goodPrefix good (stored ++ []) = stored ++ goodPrefix good [] :=
    goodPrefix_append_of_all h
  rwa [List.append_nil, show goodPrefix good [] = [] from rfl, List.append_nil] at hall

/-- With a bad byte in it, the good prefix ends inside the first list. -/
theorem length_goodPrefix_append_lt {xs ys : List (Byte × Origin)} (h : ¬∀ b ∈ xs, good b.2) :
    (goodPrefix good (xs ++ ys)).length < xs.length := by
  induction xs with
  | nil => exact absurd (fun _ hb => nomatch hb) h
  | cons x xs ih =>
    by_cases hx : good x.2
    · have hrest : ¬∀ b ∈ xs, good b.2 := fun hall => h (List.forall_mem_cons.mpr ⟨hx, hall⟩)
      simpa [goodPrefix, hx] using ih hrest
    · simp [goodPrefix, hx]

/-- More good bytes than the first list has: it is good, and the rest comes from
the second. -/
theorem length_goodPrefix_append_iff {xs ys : List (Byte × Origin)} {r : Nat} :
    (goodPrefix good (xs ++ ys)).length = xs.length + r ↔
      (∀ b ∈ xs, good b.2) ∧ (goodPrefix good ys).length = r := by
  by_cases hxs : ∀ b ∈ xs, good b.2
  · rw [goodPrefix_append_of_all hxs, List.length_append, Nat.add_left_cancel_iff]
    exact (and_iff_right hxs).symm
  · have hlt : (goodPrefix good (xs ++ ys)).length < xs.length := length_goodPrefix_append_lt hxs
    constructor
    · intro heq
      omega
    · exact fun h => absurd h.1 hxs

/-- A walk reaches the clusters that an iteration and those after it need. -/
theorem reaches_succ_iff (Q : Nat → Nat → Prop) :
    (∀ k, k < m + 1 → ∃ c, fs.chainAt curr k = some c ∧ Q (i + k) c) ↔
      Q i curr ∧ ∀ k, k < m → ∃ c, fs.chainAt curr (k + 1) = some c ∧ Q (i + 1 + k) c := by
  constructor
  · intro hall
    obtain ⟨c, hc, hzero⟩ := hall 0 (Nat.succ_pos m)
    obtain rfl := Option.some.inj hc
    refine ⟨hzero, fun k hk => ?_⟩
    have hk' := hall (k + 1) (Nat.succ_lt_succ hk)
    rwa [show i + (k + 1) = i + 1 + k by omega] at hk'
  · rintro ⟨hzero, hsucc⟩ k hk
    cases k with
    | zero => exact ⟨curr, rfl, hzero⟩
    | succ k =>
      rw [show i + (k + 1) = i + 1 + k by omega]
      exact hsucc k (Nat.lt_of_succ_lt_succ hk)

/-- **The whole request is good** exactly when the chain leads to its last cluster
and every piece on the way is good. -/
theorem good_iff (good : Origin → Prop) [DecidablePred good] (curr : Nat)
    (h : fs.Covers offs size n) (hsize : 0 < size) (hin : i + m = n)
    (hdev : ∀ lba buf, buf.length = fs.bytesPerCluster →
      (blkread fs.blockDev lba buf).2.length = fs.bytesPerCluster)
    {readBuf : List Byte} (hbuf : readBuf.length = fs.bytesPerCluster) :
    (∃ stored, fs.readClustersFrom offs size n i m curr readBuf = some stored ∧
        (goodPrefix good stored).length = fs.left offs size i) ↔
      ∀ k, k < m → ∃ c, fs.chainAt curr k = some c ∧ (∃ e, fs.getFentry c = some e) ∧
        ∀ place, fs.copyStart offs (i + k) ≤ place → place < fs.copyEnd offs size n (i + k) →
          good ⟨c, place⟩ := by
  induction m generalizing i curr readBuf with
  | zero =>
    obtain rfl : i = n := hin
    rw [h.left_end]
    exact ⟨fun _ k hk => absurd hk (Nat.not_lt_zero k), fun _ => ⟨[], rfl, rfl⟩⟩
  | succ m ih =>
    have hi : i < n := by omega
    rw [reaches_succ_iff fun j c => (∃ e, fs.getFentry c = some e) ∧
      ∀ place, fs.copyStart offs j ≤ place → place < fs.copyEnd offs size n j → good ⟨c, place⟩]
    cases hentry : fs.getFentry curr with
    | none => simp [readClustersFrom, hentry]
    | some e =>
      have hstart := h.copyStart_le hi
      have hfull := hdev (fs.clusterToLba curr) readBuf hbuf
      generalize hb : (blkread fs.blockDev (fs.clusterToLba curr) readBuf).2 = buf at hfull
      have hend : fs.copyEnd offs size n i ≤ buf.length := by
        rw [hfull, h.copyEnd_eq hi]
        exact Nat.min_le_left _ _
      rw [readClustersFrom_succ hentry, hb]
      simp only [if_neg (Nat.not_lt.mpr hstart), Option.some.injEq, exists_eq', true_and]
      rw [h.left_eq hi, ← length_piece curr (fs.copyStart offs i) hend, ← forall_piece_iff hend]
      by_cases heoc : fat12EocMin ≤ curr
      · -- the mark ends the loop: nothing may be left
        have hnone (k : Nat) : fs.chainAt curr (k + 1) = none := by
          rw [chainAt_succ, if_pos heoc]
        simp only [if_pos heoc, hnone, Option.some.injEq, exists_eq_left', reduceCtorEq, false_and,
          exists_false, imp_false]
        have hstop : fs.left offs size (i + 1) = 0 ↔ ∀ k, ¬k < m := by
          constructor
          · intro hzero k hk
            exact absurd hzero (h.left_pos (show i + 1 < n by omega) hsize).ne'
          · intro hm
            obtain rfl : i + 1 = n := by
              have := hm 0
              omega
            exact h.left_end
        rw [← hstop]
        generalize piece curr (fs.copyStart offs i) (fs.copyEnd offs size n i) buf = bytes
        have happend : (goodPrefix good (bytes ++ [])).length =
            bytes.length + fs.left offs size (i + 1) ↔ _ := length_goodPrefix_append_iff
        rw [List.append_nil] at happend
        rw [happend]
        exact and_congr_right fun _ => eq_comm
      · have hgo := Nat.not_le.mp heoc
        simp only [if_neg heoc, chainAt_next hentry hgo, Option.map_eq_some_iff]
        rw [← ih e (by omega) hfull]
        constructor
        · rintro ⟨_, ⟨rest, hrest, rfl⟩, hlen⟩
          obtain ⟨hpiece, hlen⟩ := length_goodPrefix_append_iff.mp hlen
          exact ⟨hpiece, rest, hrest, hlen⟩
        · rintro ⟨hpiece, rest, hrest, hlen⟩
          exact ⟨_, ⟨rest, hrest, rfl⟩, length_goodPrefix_append_iff.mpr ⟨hpiece, hlen⟩⟩

end Fat12Handle

/-! ## Requests -/

section Request

variable {fs : Fat12Handle} {inode : Fat12DirEntry} {offs size : Nat} {bufIsNull : Bool}

/-- A request that is not refused runs the loop on its clipped size. -/
theorem fat12Read_requested {readBuf : List Byte}
    (h : Requested fs inode offs size bufIsNull (some readBuf)) :
    fat12Read (some ⟨some inode, some fs⟩) offs size bufIsNull (some readBuf) =
      (fs.readClusters offs (clippedSize inode offs size) (clustersToRead fs inode offs size) 0
        (clustersToRead fs inode offs size) (startCluster fs inode offs) readBuf).map
        fun stored => (i32 (clippedSize inode offs size), stored) := by
  obtain ⟨hnull, hfile, hoffs, hbytes, -⟩ := h
  simp only [fat12Read, Option.bind_some, hnull, hfile, Nat.not_le.mpr hoffs, hbytes, ne_eq,
    not_true_eq_false, if_false, Option.map_eq_bind, Option.bind_eq_bind]
  rfl

/-- A refused request stores nothing. -/
theorem fat12Read_refused {readBuf : Option (List Byte)} (hbytes : fs.bytesPerCluster ≠ 0)
    (h : ¬Requested fs inode offs size bufIsNull readBuf) :
    fat12Read (some ⟨some inode, some fs⟩) offs size bufIsNull readBuf = some (-1, []) ∨
      fat12Read (some ⟨some inode, some fs⟩) offs size bufIsNull readBuf = some (0, []) := by
  simp only [fat12Read, Option.bind_some]
  by_cases hnull : (bufIsNull : Prop) ∨ size = 0
  · simp [hnull]
  by_cases hfile : inode.attributes &&& fat12Dir = 0
  · by_cases hoffs : inode.fileSize ≤ offs
    · simp [hnull, hfile, hoffs]
    · cases readBuf with
      | none => simp [hnull, hfile, hoffs, hbytes]
      | some readBuf =>
        exact absurd ⟨hnull, hfile, by omega, hbytes, by simp⟩ h
  · simp [hnull, hfile]

/-- At the end of the file, and behind it, nothing is read. -/
theorem fat12Read_end {readBuf : Option (List Byte)} (hfile : inode.attributes &&& fat12Dir = 0)
    (hsize : 0 < size) (hoffs : inode.fileSize ≤ offs) :
    fat12Read (some ⟨some inode, some fs⟩) offs size false readBuf = some (0, []) := by
  simp [fat12Read, hsize.ne', hfile, hoffs]

/-- The iterations of a request that stays below `2 ^ 32` and needs less than
`2 ^ 16` clusters cover it. -/
theorem clustersToRead_covers (hbytes : 0 < fs.bytesPerCluster)
    (hsize : 0 < clippedSize inode offs size)
    (hcount : offs % fs.bytesPerCluster + clippedSize inode offs size ≤
      (2 ^ 16 - 1) * fs.bytesPerCluster)
    (hwrap : offs % fs.bytesPerCluster + clippedSize inode offs size < 2 ^ 32)
    (htail : u32 (offs + clippedSize inode offs size) % fs.bytesPerCluster =
      (offs % fs.bytesPerCluster + clippedSize inode offs size) % fs.bytesPerCluster) :
    fs.Covers offs (clippedSize inode offs size) (clustersToRead fs inode offs size) := by
  generalize hwanted : offs % fs.bytesPerCluster + clippedSize inode offs size = wanted at *
  -- the quotient, rounded up
  have hsplit : fs.bytesPerCluster * (wanted / fs.bytesPerCluster) + wanted % fs.bytesPerCluster =
      wanted := Nat.div_add_mod _ _
  have hmod := Nat.mod_lt wanted hbytes
  rw [Nat.mul_comm] at hsplit
  have hround : ∀ q, q = wanted / fs.bytesPerCluster +
        (if wanted % fs.bytesPerCluster = 0 then 0 else 1) →
      (q - 1) * fs.bytesPerCluster < wanted ∧ wanted ≤ q * fs.bytesPerCluster := by
    rintro q rfl
    split
    case isTrue hzero =>
      rw [Nat.add_zero, Nat.sub_one_mul]
      omega
    case isFalse =>
      rw [Nat.add_sub_cancel, Nat.succ_mul]
      omega
  obtain ⟨hlast, hfits⟩ := hround _ rfl
  have hsmall : wanted / fs.bytesPerCluster +
      (if wanted % fs.bytesPerCluster = 0 then 0 else 1) < 2 ^ 16 := by
    by_contra hbig
    have hle := Nat.mul_le_mul_right fs.bytesPerCluster
      (show 2 ^ 16 - 1 ≤ wanted / fs.bytesPerCluster +
        (if wanted % fs.bytesPerCluster = 0 then 0 else 1) - 1 by omega)
    omega
  have hn : clustersToRead fs inode offs size = wanted / fs.bytesPerCluster +
      if wanted % fs.bytesPerCluster = 0 then 0 else 1 := by
    simp only [clustersToRead, hwanted, u32, u16, Nat.mod_eq_of_lt hwrap, Nat.mod_eq_of_lt hsmall]
  exact ⟨hbytes, by rwa [hn, hwanted], by rwa [hn, hwanted], by rw [hwanted, htail]⟩

/-- A request that runs past the end of the file is cut to what is left. -/
theorem clippedSize_eq (hrange : offs + size < 2 ^ 32) (hoffs : offs < inode.fileSize) :
    clippedSize inode offs size = min size (inode.fileSize - offs) := by
  rw [clippedSize, u32, Nat.mod_eq_of_lt hrange]
  split <;> omega

/-- A request whose end is not below `2 ^ 32` is not cut. -/
theorem clippedSize_wrapped (hrange : 2 ^ 32 ≤ offs + size) (hoffs : offs < inode.fileSize)
    (hsize : size < 2 ^ 32) : clippedSize inode offs size = size := by
  rw [clippedSize, u32, if_neg (by omega)]

/-- The clusters of a file of this size can be counted in 16 bits, and its bytes in
a result. -/
structure Countable (fs : Fat12Handle) (inode : Fat12DirEntry) : Prop where
  bytes : 0 < fs.bytesPerCluster ∧ fs.bytesPerCluster < 2 ^ 17
  clusters : inode.fileSize ≤ (2 ^ 16 - 1) * fs.bytesPerCluster
  result : inode.fileSize < 2 ^ 31

/-- A chain of clusters that has room for a file can be counted. -/
theorem countable_of_room (clusters : Nat)
    (hbytes : 0 < fs.bytesPerCluster ∧ fs.bytesPerCluster < 2 ^ 17) (hclusters : clusters < 2 ^ 13)
    (hroom : inode.fileSize ≤ fs.bytesPerCluster * clusters) : Countable fs inode := by
  have hcount : fs.bytesPerCluster * clusters ≤ fs.bytesPerCluster * (2 ^ 16 - 1) :=
    Nat.mul_le_mul_left _ (by omega)
  have hresult : fs.bytesPerCluster * clusters ≤ fs.bytesPerCluster * 2 ^ 13 :=
    Nat.mul_le_mul_left _ hclusters.le
  exact ⟨hbytes, by omega, by omega⟩

section Countable

variable (h : Countable fs inode) (hoffs : offs < inode.fileSize) (hsize : 0 < size)
  (hrange : offs + size < 2 ^ 32)
include h hoffs hsize hrange

/-- A request that starts in the file runs just enough iterations. -/
theorem Countable.covers :
    fs.Covers offs (min size (inode.fileSize - offs)) (clustersToRead fs inode offs size) := by
  have hclip : clippedSize inode offs size = min size (inode.fileSize - offs) :=
    clippedSize_eq hrange hoffs
  obtain ⟨⟨hlow, hhigh⟩, hcount, hresult⟩ := h
  have hmod := Nat.mod_lt offs hlow
  have hle := Nat.mod_le offs fs.bytesPerCluster
  have htail : u32 (offs + min size (inode.fileSize - offs)) =
      offs + min size (inode.fileSize - offs) := Nat.mod_eq_of_lt (by omega)
  rw [← hclip]
  refine clustersToRead_covers hlow ?_ ?_ ?_ ?_
  all_goals rw [hclip]
  · omega
  · omega
  · omega
  · rw [htail, Nat.mod_add_mod]

/-- It is answered by the loop, started on the cluster that the offset gives. -/
theorem Countable.read (hfile : inode.attributes &&& fat12Dir = 0)
    (hstart : inode.firstClusterLow + offs / fs.bytesPerCluster < 2 ^ 16) (readBuf : List Byte) :
    fat12Read (some ⟨some inode, some fs⟩) offs size false (some readBuf) =
      (fs.readClusters offs (min size (inode.fileSize - offs)) (clustersToRead fs inode offs size)
        0 (clustersToRead fs inode offs size)
        (inode.firstClusterLow + offs / fs.bytesPerCluster) readBuf).map fun stored =>
          (((min size (inode.fileSize - offs) : Nat) : Int), stored) := by
  have hrequest : Requested fs inode offs size false (some readBuf) :=
    ⟨by simp [hsize.ne'], hfile, hoffs, h.bytes.1.ne', by simp⟩
  have hresult : i32 (min size (inode.fileSize - offs)) =
      ((min size (inode.fileSize - offs) : Nat) : Int) := by
    have hfits := h.result
    rw [i32, if_pos (by omega)]
  rw [fat12Read_requested hrequest, clippedSize_eq hrange hoffs, hresult, startCluster, u16,
    Nat.mod_eq_of_lt hstart]

end Countable

end Request

end Leenix
