import Leenix.Fs.Accesses
import Leenix.Fs.Vfs
import Leenix.Libc.String

/-!
# Looking up a name in the root directory (fs/fat12.c)

`fat12_open` and `_fat12_lookup` on a mounted volume. The directory is read sector by
sector into a buffer of sixteen entries; what the buffer holds before the first read is
an argument, and so are the results of the two allocations.

- `findListed`, `scanSectors_eq`: the two nested loops are one walk over the entries in
  disk order.
- `findListed_eq_some_iff`: that walk finds the first entry that is listed under the
  name: in use, no volume label, and not behind an end mark.
- `fat12Open_listed`: what `fat12_open` returns on a readable volume.
-/

namespace Leenix

/-- The handle of a mounted volume, with the layout of its directory. -/
structure Fat12Volume extends Fat12Handle where
  fatStart : Nat
  rootDirStart : Nat
  rootDirSectors : Nat

/-- The volume that `fat12_mount` sets up. -/
def mountedVolume (blockDev : Option BlockDevice) (b : Fat12BootSector)
    (fatTable : { bytes : List Byte // bytes.length = b.fatSize }) : Fat12Volume where
  toFat12Handle := fat12Mount blockDev b fatTable
  fatStart := b.fatStart
  rootDirStart := b.rootDirStart
  rootDirSectors := b.rootDirSectors

/-- The fields of `fat12_dir_entry_t` that reading uses, at their places in an entry. -/
def Fat12DirEntry.ofBytes (e : List Byte) : Fat12DirEntry where
  attributes := byteOf e 11
  firstClusterLow := le16 e 26
  fileSize := le32 e 28

/-- `FAT12_VID`. -/
def fat12Vid : Nat := 0x08

/-- `FAT12_DELETED`. -/
def fat12Deleted : Nat := 0xE5

/-- `FAT12_ENDDIR`. -/
def fat12EndDir : Nat := 0x00

/-- The values of `vnode_type_t` that the driver sets. -/
inductive VnodeType
  | file
  | directory
deriving DecidableEq, Repr

/-- A root vnode: the bytes of its name, and `vfs_ptr->fs_data`. -/
structure Fat12Root where
  name : List Byte
  fs : Option Fat12Volume

/-- A vnode that was opened, with its inode. -/
structure Fat12Node where
  name : List Byte
  type : VnodeType
  flags : Nat
  dirEntry : List Byte
  dirSector : Nat
  dirOffset : Nat
  fs : Option Fat12Volume

/-- What a lookup meets: the initial bytes of its buffer, and whether the allocations of
the vnode and the inode succeed. -/
structure LookupEnv where
  dirEntries : List Byte
  vnode : Bool
  inode : Bool

/-- `'/'` as the name of a root vnode, and `'.'` and `' '` in file names. -/
def slashByte : Byte := 0x2F

def dotByte : Byte := 0x2E

def spaceByte : Byte := 0x20

/-- What `strncpy` leaves in the name field of a vnode. -/
def nameField (name : List Byte) : List Byte :=
  name.take Vfs.nameSize ++ List.replicate (Vfs.nameSize - name.length) 0

/-- `_fat12_8_3to_normal` (fat12.c:84–105): the string it stores. -/
def fat12_8_3toNormal (fatName : List Byte) : List Byte :=
  let base := (fatName.take 8).takeWhile (· ≠ spaceByte)
  if fatName[8]? = some spaceByte then base
  else base ++ dotByte :: ((fatName.drop 8).take 3).takeWhile (· ≠ spaceByte)

/-- `_fat12_normal_to_8_3` (fat12.c:107–129) on the characters of a string. What is left
of a base of more than eight characters goes on into the extension. -/
def fat12NormalTo8_3 (name : List Byte) : List Byte :=
  let base := (name.take 8).takeWhile (· ≠ dotByte)
  let rest := name.drop base.length
  let rest := if rest.head? = some dotByte then rest.tail else rest
  let ext := rest.take 3
  base ++ List.replicate (8 - base.length) spaceByte ++
    (ext ++ List.replicate (3 - ext.length) spaceByte)

/-- `dir_entries[i]`. -/
def dirEntryAt (dirEntries : List Byte) (i : Nat) : List Byte := (dirEntries.drop (32 * i)).take 32

/-- How the loop over the entries of a sector is left. -/
inductive Scan
  | ended
  | notFound
  | found (i : Nat)
deriving DecidableEq

/-- The entries of a sector from `i` on, `n` left (fat12.c:178–235). -/
def scanEntries (fatName dirEntries : List Byte) : Nat → Nat → Scan
  | _, 0 => .notFound
  | i, n + 1 =>
    let entry := dirEntryAt dirEntries i
    if byteOf entry 0 = fat12EndDir then .ended
    else if byteOf entry 0 = fat12Deleted ∨ byteOf entry 11 &&& fat12Vid ≠ 0 then
      scanEntries fatName dirEntries (i + 1) n
    else if memcmp entry fatName 11 = some 0 then .found i
    else scanEntries fatName dirEntries (i + 1) n

/-- The sectors of the root directory from `s` on, `n` left (fat12.c:170–236): the
sector, the index and the bytes of the entry that is found. -/
def scanSectors (fs : Fat12Volume) (fatName : List Byte) :
    Nat → Nat → List Byte → Option (Nat × Nat × List Byte)
  | _, 0, _ => none
  | s, n + 1, dirEntries =>
    let sector := u32 (fs.rootDirStart + s)
    -- a sector that cannot be read leaves the entries of the one before
    let (_, dirEntries) := blkread fs.blockDev sector dirEntries
    match scanEntries fatName dirEntries 0 16 with
    | .ended => none
    | .found i => some (sector, i, dirEntryAt dirEntries i)
    | .notFound => scanSectors fs fatName (s + 1) n dirEntries

/-- `_fat12_lookup` (fat12.c:148–241). -/
def fat12Lookup (dirNode : Fat12Root) (name : List Byte) (env : LookupEnv) : Option Fat12Node :=
  if strcmp dirNode.name (terminated [slashByte]) ≠ some 0 then none
  else
    match dirNode.fs with
    | none => none
    | some fs =>
      match scanSectors fs (fat12NormalTo8_3 name) 0 fs.rootDirSectors env.dirEntries with
      | none => none
      | some (sector, i, entry) =>
        if !env.vnode then none
        else if !env.inode then none
        else
          some
            { name := nameField name
              type := if byteOf entry 11 &&& fat12Dir ≠ 0 then .directory else .file
              flags := 0
              dirEntry := entry
              dirSector := sector
              dirOffset := i
              fs := dirNode.fs }

/-- `fat12_open` (fat12.c:399–422). `node` is known by the root vnode of its filesystem;
the flags are not used. -/
def fat12Open (node : Option Fat12Root) (path : Option (List Byte)) (env : LookupEnv) :
    Option Fat12Node :=
  match node, path with
  | some root, some path => if path.length = 0 then none else fat12Lookup root path env
  | _, _ => none

/-! ## The directory in disk order -/

/-- The entries of a list of directory sectors. -/
def entriesOf (sectors : List (List Byte)) : List (List Byte) :=
  sectors.flatMap fun sector => (List.range 16).map (dirEntryAt sector)

/-- Entry `k` is not behind an end mark, and is one itself no more than those before. -/
def BeforeEnd (entries : List (List Byte)) (k : Nat) : Prop :=
  ∀ j, j ≤ k → ∃ e, entries[j]? = some e ∧ byteOf e 0 ≠ 0x00

/-- The entry is in use for a file or a directory of the given name. -/
def Matches (fatName e : List Byte) : Prop :=
  byteOf e 0 ≠ 0xE5 ∧ byteOf e 11 &&& 0x08 = 0 ∧ e.take 11 = fatName

/-- Entry `k` is listed under the name. -/
def Listed (fatName : List Byte) (entries : List (List Byte)) (k : Nat) : Prop :=
  BeforeEnd entries k ∧ ∃ e, entries[k]? = some e ∧ Matches fatName e

/-- Entry `k` is the first that is listed under the name. -/
def FirstListed (fatName : List Byte) (entries : List (List Byte)) (k : Nat) : Prop :=
  Listed fatName entries k ∧ ∀ j, j < k → ¬Listed fatName entries j

instance (fatName e : List Byte) : Decidable (Matches fatName e) :=
  inferInstanceAs (Decidable (_ ∧ _ ∧ _))

/-- One walk over the entries. -/
def findListed (fatName : List Byte) : List (List Byte) → Option Nat
  | [] => none
  | e :: entries =>
    if byteOf e 0 = 0x00 then none
    else if Matches fatName e then some 0
    else (findListed fatName entries).map (· + 1)

variable {fatName : List Byte} {entries : List (List Byte)} {e : List Byte} {k : Nat}

theorem beforeEnd_cons_zero : BeforeEnd (e :: entries) 0 ↔ byteOf e 0 ≠ 0x00 := by
  constructor
  · intro h
    obtain ⟨d, hd, hne⟩ := h 0 (Nat.le_refl 0)
    exact Option.some.inj hd ▸ hne
  · intro hne j hj
    obtain rfl := Nat.le_zero.mp hj
    exact ⟨e, rfl, hne⟩

theorem beforeEnd_cons_succ :
    BeforeEnd (e :: entries) (k + 1) ↔ byteOf e 0 ≠ 0x00 ∧ BeforeEnd entries k := by
  constructor
  · intro h
    exact ⟨beforeEnd_cons_zero.mp fun j hj => h j (by omega), fun j hj => h (j + 1) (by omega)⟩
  · rintro ⟨hne, h⟩ j hj
    cases j with
    | zero => exact ⟨e, rfl, hne⟩
    | succ j => exact h j (by omega)

theorem listed_cons_zero :
    Listed fatName (e :: entries) 0 ↔ byteOf e 0 ≠ 0x00 ∧ Matches fatName e := by
  unfold Listed
  rw [beforeEnd_cons_zero]
  simp

theorem listed_cons_succ :
    Listed fatName (e :: entries) (k + 1) ↔ byteOf e 0 ≠ 0x00 ∧ Listed fatName entries k := by
  unfold Listed
  rw [beforeEnd_cons_succ, and_assoc]
  rfl

/-- **The walk** finds the first entry that is listed. -/
theorem findListed_eq_some_iff :
    findListed fatName entries = some k ↔ FirstListed fatName entries k := by
  induction entries generalizing k with
  | nil =>
    refine ⟨fun h => (nomatch h), fun h => ?_⟩
    obtain ⟨e, he, -⟩ := h.1.2
    cases he
  | cons e entries ih =>
    unfold findListed FirstListed
    by_cases hend : byteOf e 0 = 0x00
    · have hnot : ∀ k, ¬Listed fatName (e :: entries) k := by
        intro k
        cases k with
        | zero => rw [listed_cons_zero]; exact fun h => h.1 hend
        | succ k => rw [listed_cons_succ]; exact fun h => h.1 hend
      simp [hend, hnot]
    · by_cases hmatch : Matches fatName e
      · have hzero : Listed fatName (e :: entries) 0 := listed_cons_zero.mpr ⟨hend, hmatch⟩
        simp only [hend, hmatch, if_true, if_false, Option.some.injEq]
        constructor
        · rintro rfl
          exact ⟨hzero, fun j hj => nomatch hj⟩
        · rintro ⟨-, hfirst⟩
          by_contra hne
          exact hfirst 0 (by omega) hzero
      · have hzero : ¬Listed fatName (e :: entries) 0 := fun h => hmatch (listed_cons_zero.mp h).2
        simp only [hend, hmatch, if_false, Option.map_eq_some_iff, ih]
        constructor
        · rintro ⟨k, ⟨hlisted, hfirst⟩, rfl⟩
          refine ⟨listed_cons_succ.mpr ⟨hend, hlisted⟩, fun j hj => ?_⟩
          cases j with
          | zero => exact hzero
          | succ j => exact fun h => hfirst j (by omega) (listed_cons_succ.mp h).2
        · rintro ⟨hlisted, hfirst⟩
          cases k with
          | zero => exact absurd hlisted hzero
          | succ k =>
            refine ⟨k, ⟨(listed_cons_succ.mp hlisted).2, fun j hj h => ?_⟩, rfl⟩
            exact hfirst (j + 1) (by omega) (listed_cons_succ.mpr ⟨hend, h⟩)

/-- The walk finds something exactly when there is something. -/
theorem findListed_isSome_iff :
    (∃ k, findListed fatName entries = some k) ↔ ∃ k, Listed fatName entries k := by
  constructor
  · rintro ⟨k, h⟩
    exact ⟨k, (findListed_eq_some_iff.mp h).1⟩
  · intro h
    classical
    refine ⟨Nat.find h, findListed_eq_some_iff.mpr ⟨Nat.find_spec h, fun j hj => ?_⟩⟩
    exact Nat.find_min h hj

/-! ## The loops -/

/-- What the buffer holds when each of the sectors from `s` on is scanned. -/
def sectorBuffers (fs : Fat12Volume) : Nat → Nat → List Byte → List (List Byte)
  | _, 0, _ => []
  | s, n + 1, dirEntries =>
    let dirEntries := (blkread fs.blockDev (u32 (fs.rootDirStart + s)) dirEntries).2
    dirEntries :: sectorBuffers fs (s + 1) n dirEntries

/-- The root directory as a lookup sees it. -/
def rootEntries (fs : Fat12Volume) (dirEntries : List Byte) : List (List Byte) :=
  entriesOf (sectorBuffers fs 0 fs.rootDirSectors dirEntries)

/-- The entry at index `i` of a sector is complete. -/
theorem length_dirEntryAt {dirEntries : List Byte} {i : Nat} (hlen : dirEntries.length = 512)
    (hi : i < 16) : (dirEntryAt dirEntries i).length = 32 := by
  simp only [dirEntryAt, List.length_take, List.length_drop, hlen]
  omega

theorem length_fat12NormalTo8_3 (name : List Byte) : (fat12NormalTo8_3 name).length = 11 := by
  have hbase := (List.takeWhile_prefix (· ≠ dotByte) (l := name.take 8)).length_le
  rw [List.length_take] at hbase
  simp only [fat12NormalTo8_3, List.length_append, List.length_replicate, List.length_take]
  omega

/-- One turn of the loop over a sector. -/
theorem scanEntries_succ {dirEntries : List Byte} {i n : Nat} (hname : fatName.length = 11)
    (hlen : dirEntries.length = 512) (hi : i < 16) :
    scanEntries fatName dirEntries i (n + 1) =
      if byteOf (dirEntryAt dirEntries i) 0 = 0x00 then .ended
      else if Matches fatName (dirEntryAt dirEntries i) then .found i
      else scanEntries fatName dirEntries (i + 1) n := by
  have hentry := length_dirEntryAt hlen hi
  have hcmp : memcmp (dirEntryAt dirEntries i) fatName 11 = some 0 ↔
      (dirEntryAt dirEntries i).take 11 = fatName := by
    rw [memcmp_eq_zero_iff (by omega) hname.ge, List.take_of_length_le hname.le]
  rw [scanEntries]
  simp only [fat12EndDir, fat12Deleted, fat12Vid, hcmp]
  by_cases hskip : byteOf (dirEntryAt dirEntries i) 0 = 0xE5 ∨
      byteOf (dirEntryAt dirEntries i) 11 &&& 0x08 ≠ 0
  · have hnot : ¬Matches fatName (dirEntryAt dirEntries i) := fun h =>
      hskip.elim h.1 fun hvid => hvid h.2.1
    rw [if_pos hskip, if_neg hnot]
  · obtain ⟨hdeleted, hvid⟩ := not_or.mp hskip
    have hiff : Matches fatName (dirEntryAt dirEntries i) ↔
        (dirEntryAt dirEntries i).take 11 = fatName :=
      ⟨fun h => h.2.2, fun h => ⟨hdeleted, not_not.mp hvid, h⟩⟩
    rw [if_neg hskip]
    simp only [hiff]

/-- The loop over one sector is the walk over its entries, as far as it goes. -/
theorem scanEntries_walk {dirEntries : List Byte} {i n : Nat} (hname : fatName.length = 11)
    (hlen : dirEntries.length = 512) (hin : i + n ≤ 16) (more : List (List Byte)) :
    match scanEntries fatName dirEntries i n with
    | .ended => findListed fatName ((List.range' i n).map (dirEntryAt dirEntries) ++ more) = none
    | .notFound => findListed fatName ((List.range' i n).map (dirEntryAt dirEntries) ++ more) =
        (findListed fatName more).map (· + n)
    | .found j => i ≤ j ∧ j < i + n ∧
        findListed fatName ((List.range' i n).map (dirEntryAt dirEntries) ++ more) = some (j - i) := by
  induction n generalizing i with
  | zero => simp [scanEntries]
  | succ n ih =>
    rw [List.range'_succ, List.map_cons, List.cons_append,
      scanEntries_succ hname hlen (by omega), findListed]
    by_cases hend : byteOf (dirEntryAt dirEntries i) 0 = 0x00
    · simp only [hend, if_true]
    · by_cases hmatch : Matches fatName (dirEntryAt dirEntries i)
      · simp only [hend, hmatch, if_true, if_false]
        exact ⟨Nat.le_refl i, by omega, by rw [Nat.sub_self]⟩
      · have hrest := ih (i := i + 1) (by omega)
        simp only [hend, hmatch, if_false]
        cases hscan : scanEntries fatName dirEntries (i + 1) n with
        | ended =>
          simp only [hscan] at hrest ⊢
          rw [hrest]
          rfl
        | notFound =>
          simp only [hscan] at hrest ⊢
          rw [hrest, Option.map_map]
          congr 1
        | found j =>
          simp only [hscan] at hrest ⊢
          obtain ⟨hle, hlt, hfind⟩ := hrest
          refine ⟨by omega, by omega, ?_⟩
          rw [hfind, Option.map_some, Nat.sub_add_eq, Nat.sub_add_cancel (by omega)]

/-- The device stores no more than the buffer of a lookup holds. -/
theorem length_sectorBuffer {dev : Option BlockDevice} (hdev : ReadsBlocks dev)
    {dirEntries : List Byte} (hlen : dirEntries.length = 512) (lba : Nat) :
    (blkread dev lba dirEntries).2.length = 512 := by
  rw [blkread_length fun d hd read hread lba => hlen ▸ (hdev d hd read hread lba).1, hlen]

/-- **The two loops** are one walk over the entries of the directory. -/
theorem scanSectors_eq {fs : Fat12Volume} (hdev : ReadsBlocks fs.blockDev)
    (hname : fatName.length = 11) {dirEntries : List Byte} (hlen : dirEntries.length = 512)
    (s n : Nat) :
    scanSectors fs fatName s n dirEntries =
      (findListed fatName (entriesOf (sectorBuffers fs s n dirEntries))).bind fun k =>
        (entriesOf (sectorBuffers fs s n dirEntries))[k]?.map fun e =>
          (u32 (fs.rootDirStart + (s + k / 16)), k % 16, e) := by
  induction n generalizing s dirEntries with
  | zero => rfl
  | succ n ih =>
    have hbuffer := length_sectorBuffer hdev hlen (u32 (fs.rootDirStart + s))
    obtain ⟨buf, hbuf⟩ : ∃ buf, (blkread fs.blockDev (u32 (fs.rootDirStart + s)) dirEntries).2 = buf :=
      ⟨_, rfl⟩
    rw [hbuf] at hbuffer
    have hsplit : entriesOf (sectorBuffers fs s (n + 1) dirEntries) =
        (List.range 16).map (dirEntryAt buf) ++ entriesOf (sectorBuffers fs (s + 1) n buf) := by
      rw [sectorBuffers, hbuf]
      rfl
    have hwalk := scanEntries_walk (i := 0) (n := 16) hname hbuffer (Nat.le_refl 16)
      (entriesOf (sectorBuffers fs (s + 1) n buf))
    rw [← List.range_eq_range', ← hsplit] at hwalk
    rw [scanSectors]
    simp only [hbuf]
    cases hscan : scanEntries fatName buf 0 16 with
    | ended =>
      simp only [hscan] at hwalk ⊢
      rw [hwalk]
      rfl
    | notFound =>
      simp only [hscan] at hwalk ⊢
      rw [hwalk, ih hbuffer, Option.bind_map]
      congr 1
      funext k
      have hindex : k + 16 - ((List.range 16).map (dirEntryAt buf)).length = k := by simp
      have hquot : s + (k + 16) / 16 = s + 1 + k / 16 := by omega
      have hrem : (k + 16) % 16 = k % 16 := by omega
      rw [hsplit, Function.comp_apply, List.getElem?_append_right (by simp), hindex, hquot, hrem]
    | found i =>
      simp only [hscan] at hwalk ⊢
      obtain ⟨-, hi, hfind⟩ := hwalk
      rw [hfind, hsplit, Nat.sub_zero, Option.bind_some, List.getElem?_append_left (by simpa using hi)]
      have hquot : i / 16 = 0 := by omega
      have hrem : i % 16 = i := by omega
      have hentry : ((List.range 16).map (dirEntryAt buf))[i]? = some (dirEntryAt buf i) := by
        rw [List.getElem?_map, List.getElem?_range (by omega), Option.map_some]
      rw [hentry, hquot, hrem, Option.map_some, Nat.add_zero]

/-! ## Opening -/

/-- The root vnode of a mounted volume. -/
def rootOf (fs : Fat12Volume) : Fat12Root := ⟨nameField [slashByte], some fs⟩

/-- The vnode for entry `k` of the directory. -/
def openedNode (fs : Fat12Volume) (name : List Byte) (k : Nat) (e : List Byte) : Fat12Node where
  name := nameField name
  type := if byteOf e 11 &&& fat12Dir ≠ 0 then .directory else .file
  flags := 0
  dirEntry := e
  dirSector := u32 (fs.rootDirStart + k / 16)
  dirOffset := k % 16
  fs := some fs

/-- `fat12_open` is the walk over the directory as the buffer shows it. -/
theorem fat12Open_eq {fs : Fat12Volume} {name dirEntries : List Byte}
    (hdev : ReadsBlocks fs.blockDev) (hlen : dirEntries.length = 512) (hname : name ≠ []) :
    fat12Open (some (rootOf fs)) (some name) ⟨dirEntries, true, true⟩ =
      (findListed (fat12NormalTo8_3 name) (rootEntries fs dirEntries)).bind fun k =>
        (rootEntries fs dirEntries)[k]?.map (openedNode fs name k) := by
  have hstrcmp : strcmp (rootOf fs).name (terminated [slashByte]) = some 0 := by
    show strcmp (nameField [slashByte]) _ = _
    decide
  have hlength : name.length ≠ 0 := fun h => hname (List.eq_nil_of_length_eq_zero h)
  simp only [fat12Open, if_neg hlength, fat12Lookup, hstrcmp, ne_eq, not_true_eq_false, if_false]
  simp only [rootOf, scanSectors_eq hdev (length_fat12NormalTo8_3 name) hlen]
  rw [← rootEntries]
  cases findListed (fat12NormalTo8_3 name) (rootEntries fs dirEntries) with
  | none => rfl
  | some k =>
    simp only [Option.bind_some]
    cases (rootEntries fs dirEntries)[k]? with
    | none => rfl
    | some e => simp [openedNode]

theorem LookupEnv.eq_of_allocated {env : LookupEnv} (hvnode : env.vnode = true)
    (hinode : env.inode = true) : env = ⟨env.dirEntries, true, true⟩ := by
  cases env
  simp_all

/-- A vnode is returned only if its memory was allocated. -/
theorem fat12Open_allocated {root : Option Fat12Root} {path : Option (List Byte)} {env : LookupEnv}
    {node : Fat12Node} (h : fat12Open root path env = some node) :
    env.vnode = true ∧ env.inode = true := by
  unfold fat12Open at h
  split at h
  case h_2 => cases h
  split at h
  · cases h
  unfold fat12Lookup at h
  split at h
  · cases h
  split at h
  · cases h
  split at h
  · cases h
  split at h
  · cases h
  case isFalse hvnode =>
    split at h
    · cases h
    case isFalse hinode => exact ⟨by simpa using hvnode, by simpa using hinode⟩

/-- A listed entry is opened, and only such. -/
theorem fat12Open_isSome_iff {fs : Fat12Volume} {name dirEntries : List Byte}
    (hdev : ReadsBlocks fs.blockDev) (hlen : dirEntries.length = 512) (hname : name ≠ []) :
    (∃ node, fat12Open (some (rootOf fs)) (some name) ⟨dirEntries, true, true⟩ = some node) ↔
      ∃ k, Listed (fat12NormalTo8_3 name) (rootEntries fs dirEntries) k := by
  rw [fat12Open_eq hdev hlen hname, ← findListed_isSome_iff]
  constructor
  · rintro ⟨node, hnode⟩
    obtain ⟨k, hk, -⟩ := Option.bind_eq_some_iff.mp hnode
    exact ⟨k, hk⟩
  · rintro ⟨k, hk⟩
    obtain ⟨e, he, -⟩ := (findListed_eq_some_iff.mp hk).1.2
    exact ⟨openedNode fs name k e, by rw [hk, Option.bind_some, he, Option.map_some]⟩

/-- What is opened is the first listed entry. -/
theorem fat12Open_first {fs : Fat12Volume} {name dirEntries : List Byte} {node : Fat12Node}
    (hdev : ReadsBlocks fs.blockDev) (hlen : dirEntries.length = 512) (hname : name ≠ [])
    (hopen : fat12Open (some (rootOf fs)) (some name) ⟨dirEntries, true, true⟩ = some node) :
    ∃ k e, FirstListed (fat12NormalTo8_3 name) (rootEntries fs dirEntries) k ∧
      (rootEntries fs dirEntries)[k]? = some e ∧ node = openedNode fs name k e := by
  rw [fat12Open_eq hdev hlen hname] at hopen
  obtain ⟨k, hk, hmap⟩ := Option.bind_eq_some_iff.mp hopen
  obtain ⟨e, he, rfl⟩ := Option.map_eq_some_iff.mp hmap
  exact ⟨k, e, findListed_eq_some_iff.mp hk, he, rfl⟩

theorem fat12Open_of_first {fs : Fat12Volume} {name dirEntries e : List Byte} {k : Nat}
    (hdev : ReadsBlocks fs.blockDev) (hlen : dirEntries.length = 512) (hname : name ≠ [])
    (hfirst : FirstListed (fat12NormalTo8_3 name) (rootEntries fs dirEntries) k)
    (he : (rootEntries fs dirEntries)[k]? = some e) :
    fat12Open (some (rootOf fs)) (some name) ⟨dirEntries, true, true⟩ =
      some (openedNode fs name k e) := by
  rw [fat12Open_eq hdev hlen hname, findListed_eq_some_iff.mpr hfirst, Option.bind_some, he,
    Option.map_some]

section Readable

variable {b : Fat12BootSector} {fatTable : { bytes : List Byte // bytes.length = b.fatSize }}
  {numBlocks : Nat} {blocks : Nat → List Byte} {name dirEntries : List Byte}

theorem readsBlocks_holding (hblocks : ∀ lba, (blocks lba).length = 512) :
    ReadsBlocks (some (.holding numBlocks blocks)) := by
  intro d hd read hread lba
  obtain rfl := Option.some.inj hd
  obtain rfl := Option.some.inj hread
  exact ⟨(hblocks lba).le, fun _ => hblocks lba⟩

/-- On a readable directory the buffer holds each sector in turn. -/
theorem sectorBuffers_holding (hblocks : ∀ lba, (blocks lba).length = 512)
    (hlen : dirEntries.length = 512) {s n : Nat} (hin : b.rootDirStart + (s + n) ≤ numBlocks)
    (hsectors : s + n ≤ b.rootDirSectors) :
    sectorBuffers (mountedVolume (some (.holding numBlocks blocks)) b fatTable) s n dirEntries =
      (List.range' s n).map fun s => blocks (b.rootDirStart + s) := by
  induction n generalizing s dirEntries with
  | zero => rfl
  | succ n ih =>
    have hlt := b.dataAreaStart_lt
    unfold Fat12BootSector.dataAreaStart at hlt
    have hu32 : u32 (b.rootDirStart + s) = b.rootDirStart + s := Nat.mod_eq_of_lt (by omega)
    have hread : blkread (some (.holding numBlocks blocks)) (u32 (b.rootDirStart + s)) dirEntries =
        (0, blocks (b.rootDirStart + s)) := by
      rw [hu32]
      exact blkread_holding (by omega) (by rw [hlen, hblocks])
    rw [List.range'_succ, List.map_cons, ← ih (hblocks _) (by omega) (by omega), sectorBuffers]
    show _ :: sectorBuffers _ _ _ (blkread (some (.holding numBlocks blocks))
      (u32 (b.rootDirStart + s)) dirEntries).2 = _
    rw [hread]
    exact congrArg (· :: _) (congrArg Prod.snd hread)

/-- **Directory search.** On every mounted volume whose directory can be read, whatever
its sectors hold, `fat12_open` returns a vnode exactly when an entry in front of the first
end mark is listed under the name, and then one for the first such entry: with its
bytes, the place where it is, and its type. -/
theorem fat12Open_listed (hblocks : ∀ lba, (blocks lba).length = 512)
    (hroot : b.rootDirStart + b.rootDirSectors ≤ numBlocks) (hlen : dirEntries.length = 512)
    (hname : name ≠ []) :
    let fs := mountedVolume (some (.holding numBlocks blocks)) b fatTable
    let entries := entriesOf ((List.range b.rootDirSectors).map fun s => blocks (b.rootDirStart + s))
    let opened := fat12Open (some (rootOf fs)) (some name) ⟨dirEntries, true, true⟩
    ((∃ node, opened = some node) ↔ ∃ k, Listed (fat12NormalTo8_3 name) entries k) ∧
      ∀ node, opened = some node → ∃ k e, FirstListed (fat12NormalTo8_3 name) entries k ∧
        entries[k]? = some e ∧ node.dirEntry = e ∧
        node.dirSector = b.rootDirStart + k / 16 ∧ node.dirOffset = k % 16 ∧
        (node.type = .directory ↔ byteOf e 11 &&& 0x10 ≠ 0) := by
  intro fs entries opened
  have hdev : ReadsBlocks fs.blockDev := readsBlocks_holding hblocks
  have hentries : rootEntries fs dirEntries = entries := by
    have hbuffers : sectorBuffers fs 0 b.rootDirSectors dirEntries = _ :=
      sectorBuffers_holding hblocks hlen (by omega) (Nat.zero_add _).le
    rw [← List.range_eq_range'] at hbuffers
    exact congrArg entriesOf hbuffers
  rw [← hentries]
  refine ⟨fat12Open_isSome_iff hdev hlen hname, fun node hnode => ?_⟩
  obtain ⟨k, e, hfirst, he, rfl⟩ := fat12Open_first hdev hlen hname hnode
  have hk : k / 16 < b.rootDirSectors := by
    have hlt := (List.getElem?_eq_some_iff.mp he).1
    rw [hentries] at hlt
    have hlength : entries.length = b.rootDirSectors * 16 := by
      simp [entries, entriesOf, List.length_flatMap, Function.comp_def, List.map_const',
        List.sum_replicate]
    omega
  have hlt := b.dataAreaStart_lt
  unfold Fat12BootSector.dataAreaStart at hlt
  refine ⟨k, e, hfirst, he, rfl, Nat.mod_eq_of_lt ?_, rfl, ?_⟩
  · show b.rootDirStart + k / 16 < 2 ^ 32
    omega
  · by_cases hdir : byteOf e 11 &&& 0x10 = 0
    · simp [openedNode, fat12Dir, hdir]
    · simp [openedNode, fat12Dir, hdir]

end Readable

/-- An entry with a name of one character. -/
def shortEntry (first attributes : Byte) : List Byte :=
  first :: List.replicate 10 spaceByte ++ attributes :: List.replicate 20 0

/-- A directory of two sectors. In the first `A` was deleted, is the label of the volume, and
then there are fourteen entries of `B`. The second begins with a directory `A`. -/
def crowdedBlocks (lba : Nat) : List Byte :=
  if lba = 2 then
    shortEntry 0xE5 0x20 ++ shortEntry 0x41 0x08 ++ (List.replicate 14 (shortEntry 0x42 0x20)).flatten
  else shortEntry 0x41 0x10 ++ List.replicate 480 0

/-- Its boot sector. -/
def crowdedBoot : Fat12BootSector := ⟨512, 1, 1, 1, 32, 1, 0⟩

/-- The FAT plays no part in a lookup. -/
def crowdedFat : { bytes : List Byte // bytes.length = crowdedBoot.fatSize } :=
  ⟨List.replicate 512 0, length_zeroBlock⟩

def crowdedVolume : Fat12Volume :=
  mountedVolume (some (.holding 8 crowdedBlocks)) crowdedBoot crowdedFat

theorem length_crowdedBlocks (lba : Nat) : (crowdedBlocks lba).length = 512 := by
  unfold crowdedBlocks
  split <;> decide +kernel

/-- `A` opens the directory, which is the first entry of the second sector. -/
theorem fat12Open_listed_second : ∃ node,
    fat12Open (some (rootOf crowdedVolume)) (some [0x41]) ⟨List.replicate 512 0xAA, true, true⟩ =
        some node ∧
      node.dirEntry = shortEntry 0x41 0x10 ∧ node.dirSector = 3 ∧ node.dirOffset = 0 ∧
      node.type = .directory := by
  have hlisted : FirstListed (fat12NormalTo8_3 [0x41]) (entriesOf ((List.range
      crowdedBoot.rootDirSectors).map fun s => crowdedBlocks (crowdedBoot.rootDirStart + s))) 16 :=
    findListed_eq_some_iff.mp (by decide +kernel)
  obtain ⟨hopens, hfirst⟩ := @fat12Open_listed crowdedBoot crowdedFat 8 _ [0x41]
    (List.replicate 512 0xAA) length_crowdedBlocks (by decide) List.length_replicate (by decide)
  obtain ⟨node, hnode⟩ := hopens.mpr ⟨16, hlisted.1⟩
  obtain ⟨k, e, hk, he, hentry, hsector, hoffset, htype⟩ := hfirst node hnode
  obtain rfl : 16 = k := Option.some.inj
    ((findListed_eq_some_iff.mpr hlisted).symm.trans (findListed_eq_some_iff.mpr hk))
  obtain rfl : shortEntry 0x41 0x10 = e :=
    Option.some.inj (Eq.trans (by decide +kernel) he)
  exact ⟨node, hnode, hentry, hsector, hoffset, htype.mpr (by decide +kernel)⟩

end Leenix
