import Leenix.Fs.Vfs
import Leenix.Libc.String

/-!
# Opening a file (fs/vfs.c)

`vfs_open` as a function on the mount table that `vfs_mount` fills: it takes the
first token of the path, compares it with the name of every covered vnode, and
hands the rest of the path to the filesystem that matches.

The name on the vnode is a field of 28 bytes, and the bounded copy into it leaves
no terminator behind a name that fills it. A comparison then reads on into the
pointer that follows (`cstr_vnodeBytes`). So the filesystem is reached under the
name it was mounted with, and under no other, exactly when the name is shorter
than the field or happens to continue with the bytes of that pointer
(`vfsOpen_mounted_iff`).
-/

namespace Leenix

namespace Vfs

/-- `'/'`. -/
def slash : Byte := 0x2F

/-- The four bytes of a word, lowest first. -/
def wordBytes (w : Nat) : List Byte := (List.range 4).map fun i => UInt8.ofNat (w / 2 ^ (8 * i))

/-- A vnode from its name on (vfs.h:123–126): the name, padded by `strncpy`, then
`vfs_mountedhere` and `vfs_ptr`, which `vfs_mount` leaves zero. -/
def vnodeBytes (filesystem : Ptr) (name : List Byte) : List Byte :=
  name ++ List.replicate (nameSize - name.length) 0 ++ wordBytes filesystem ++ wordBytes 0

/-- A call of a vnode's `open` operation. -/
structure OpenCall where
  node : Ptr
  path : Option (List Byte)
  flags : Nat
deriving DecidableEq

/-- `file_t`. -/
structure OpenFile where
  vnodePtr : Option Ptr
  fOffset : Nat
  fFlags : Nat
deriving DecidableEq

/-- What `vfs_open` meets: the root vnode that `fat12_mount` allocated for each
filesystem, the result of the `open` operation, whether `malloc` succeeds, and
the value of memory that was never written. -/
structure Open where
  vroot : Ptr → Ptr
  result : OpenCall → Option Ptr
  malloc : Bool
  unspecified : Nat → Option Ptr

/-- The body of the loop of `vfs_open` (vfs.c:139–151). The last match wins. -/
def matchMount (s : Vfs) (call : Open) (token : Option (List Byte)) (root : Option Ptr) (i : Nat) :
    Option (Option Ptr) :=
  match s.mountpoints.read call.unspecified i with
  | none => some root
  | some filesystem => do
    let name ← s.vcovered.lookup filesystem
    let order ← strcmp (vnodeBytes filesystem name) (← token)
    return if order = 0 then some (call.vroot filesystem) else root

/-- The loop of `vfs_open`. -/
def rootNode (s : Vfs) (call : Open) (token : Option (List Byte)) : Option (Option Ptr) :=
  (List.range s.currSize).foldlM (s.matchMount call token) none

/-- `vfs_open` (vfs.c:128–168): the calls of `open` it makes, and its result. -/
def vfsOpen (s : Vfs) (call : Open) (path : List Byte) (flags : Nat) :
    List OpenCall × Option (Option OpenFile) :=
  match strtokR path (some 0) [slash] none with
  | none => ([], none)
  | some (token, buf, nextToken) =>
    match s.rootNode call (token.map fun i => buf.drop i) with
    | none => ([], none)
    | some none => ([], some none)
    | some (some root) =>
      let opened : OpenCall := ⟨root, nextToken.map fun i => cstr (buf.drop i), flags⟩
      ([opened], if call.malloc then some (some ⟨call.result opened, 0, flags⟩) else none)

/-- A buffer that holds `"/" + m + "/" + f`. -/
def pathBuffer (m f : List Byte) : List Byte := slash :: m ++ slash :: terminated f

/-- A name that a path can contain: not empty, without `'/'` and without a zero. -/
structure IsName (m : List Byte) : Prop where
  nonempty : m ≠ []
  noSlash : slash ∉ m
  noZero : 0 ∉ m

/-- The table is empty and has room for a filesystem: a slot of its block is free;
or it has no slots yet, the block that `realloc` returns holds one, and the other
slots, which nothing wrote, read as `NULL`. -/
def EmptyWithRoom (s : Vfs) (mount : Mount) (unspecified : Nat → Option Ptr) : Prop :=
  (0 < s.currSize ∧ s.currSize * Block.wordSize ≤ s.mountpoints.bytes ∧
      ∀ i, i < s.currSize → s.mountpoints.words i = some none) ∨
    (s.currSize = 0 ∧ mount.realloc = true ∧ ∀ i, unspecified i = none)

variable {s s' : Vfs} {mount : Mount} {call : Open} {filesystem : Ptr} {m m' f : List Byte}
  {flags : Nat}

/-! ## The name of the covered vnode -/

theorem zero_mem_vnodeBytes (filesystem : Ptr) (m : List Byte) : 0 ∈ vnodeBytes filesystem m :=
  List.mem_append_right _ (by decide)

/-- **Stored name.** What a comparison reads of a stored name: all of a name that
is shorter than the field, else the bytes that fit and then those of the pointer
behind the field. -/
theorem cstr_vnodeBytes (hm : 0 ∉ m) : cstr (vnodeBytes filesystem (m.take nameSize)) =
    m.take nameSize ++ if m.length < nameSize then [] else cstr (wordBytes filesystem) := by
  have htake : 0 ∉ m.take nameSize := fun h => hm (List.mem_of_mem_take h)
  unfold vnodeBytes
  simp only [List.append_assoc]
  rw [cstr_append htake, List.length_take]
  congr 1
  split
  · -- a shorter name: the first padding byte ends it
    obtain ⟨k, hk⟩ : ∃ k, nameSize - min nameSize m.length = k + 1 :=
      ⟨nameSize - min nameSize m.length - 1, by omega⟩
    rw [hk, List.replicate_succ, List.cons_append, cstr_zero]
  · have hpad : nameSize - min nameSize m.length = 0 := by omega
    rw [hpad, List.replicate_zero, List.nil_append]
    by_cases hzero : 0 ∈ wordBytes filesystem
    · obtain ⟨rest, hrest⟩ := exists_cstr_append hzero
      conv_lhs => rw [hrest, List.append_assoc]
      exact cstr_terminated (zero_notMem_cstr _) _
    · rw [cstr_append hzero]
      have hall : cstr (wordBytes filesystem) = wordBytes filesystem := by
        simpa [cstr] using cstr_append hzero []
      rw [hall, show wordBytes 0 = 0 :: [0, 0, 0] by decide, cstr_zero, List.append_nil]

/-- The stored name is the name, exactly when nothing of it was lost or added. -/
theorem cstr_vnodeBytes_eq_iff (hm : 0 ∉ m) :
    cstr (vnodeBytes filesystem (m.take nameSize)) = m ↔
      m.length < nameSize ∨ m.drop nameSize = cstr (wordBytes filesystem) := by
  rw [cstr_vnodeBytes hm]
  by_cases hlen : m.length < nameSize
  · simp [hlen, List.take_of_length_le hlen.le]
  · simp only [hlen, if_false, false_or]
    conv_lhs => rhs; rw [← List.take_append_drop nameSize m]
    rw [List.append_cancel_left_eq]
    exact eq_comm

/-! ## The table after a mount -/

/-- The block read back at a word that was written. -/
theorem read_write (b : Block) {unspecified : Nat → Option Ptr} {i j : Nat} {v : Option Ptr}
    (hi : b.Inside i) : (b.write i v).read unspecified j =
      if j = i then v else b.read unspecified j := by
  unfold Block.write
  rw [if_pos hi]
  by_cases hj : j = i
  · subst hj
    have hbytes : Block.wordSize * (j + 1) ≤ b.bytes := hi
    simp [Block.read, Block.Inside, hbytes]
  · simp only [Block.read, Block.Inside, Function.update_of_ne hj, if_neg hj]
    rfl

/-- A filesystem added to an empty table with room is in the first slot, and the
others read as `NULL`. -/
theorem addToMpoints_slots (filesystem : Ptr) (hroom : EmptyWithRoom s mount call.unspecified) :
    ∃ n, (s.addToMpoints mount filesystem).currSize = n + 1 ∧
      ∀ i, i < n + 1 → (s.addToMpoints mount filesystem).mountpoints.read call.unspecified i =
        if i = 0 then some filesystem else none := by
  rcases hroom with ⟨hpos, hbytes, hnull⟩ | ⟨hzero, hrealloc, hclean⟩
  · have hinside : ∀ i, i < s.currSize → s.mountpoints.Inside i := by
      intro i hi
      exact Nat.le_trans (Nat.mul_le_mul_left _ hi) (by rwa [Nat.mul_comm])
    have hread : ∀ unspecified i, i < s.currSize → s.mountpoints.read unspecified i = none := by
      intro unspecified i hi
      simp [Block.read, hinside i hi, hnull i hi]
    obtain ⟨n, hn⟩ := Nat.exists_eq_add_of_lt hpos
    have hfree : s.freeSlot mount.unspecified = some 0 := by
      rw [freeSlot, hn, Nat.zero_add, List.range_succ_eq_map, List.find?_cons_of_pos]
      simpa using hread _ 0 hpos
    refine ⟨n, ?_, fun i hi => ?_⟩
    · simp only [addToMpoints, hfree]
      omega
    · simp only [addToMpoints, hfree]
      rw [read_write _ (hinside 0 hpos)]
      split
      · rfl
      · exact hread _ i (by omega)
  · have hfree : s.freeSlot mount.unspecified = none := by simp [freeSlot, hzero]
    refine ⟨4, ?_, fun i hi => ?_⟩
    · simp only [addToMpoints, hfree, hrealloc, if_true, hzero]
    · simp only [addToMpoints, hfree, hrealloc, if_true, hzero]
      have hinside : (s.mountpoints.realloc (0 + 5)).Inside 0 := by
        simp only [Block.Inside, Block.realloc, Block.wordSize]
        omega
      rw [read_write _ hinside]
      split
      · rfl
      · -- the block of five bytes has one slot
        have houtside : ¬(s.mountpoints.realloc (0 + 5)).Inside i := by
          simp only [Block.Inside, Block.realloc, Block.wordSize]
          omega
        simp [Block.read, houtside, hclean]

/-- A mount that succeeds stores the name on the covered vnode, and fills the
first slot of an empty table. -/
theorem vfsMount_slots (hroom : EmptyWithRoom s mount call.unspecified)
    (hpath : mount.mountPath = slash :: m) (hdriver : mount.driver = some filesystem)
    (hmount : s.vfsMount mount = some (0, s')) :
    ∃ n, s'.currSize = n + 1 ∧
      (∀ i, i < n + 1 → s'.mountpoints.read call.unspecified i =
        if i = 0 then some filesystem else none) ∧
      s'.vcovered.lookup filesystem = some (m.take nameSize) := by
  have htype : ¬mount.fsType ∉ fsTypes := by
    intro htype
    simp [vfsMount, htype] at hmount
  simp only [vfsMount, if_neg htype, hdriver, hpath] at hmount
  cases hmalloc : mount.malloc with
  | false => simp [hmalloc] at hmount
  | true =>
    simp only [hmalloc, Option.some.injEq, Prod.mk.injEq, true_and] at hmount
    subst hmount
    obtain ⟨n, hsize, hslots⟩ := addToMpoints_slots filesystem
      (s := { s with vcovered := s.vcovered.insert filesystem (m.take nameSize) }) hroom
    refine ⟨n, hsize, hslots, ?_⟩
    unfold addToMpoints
    split
    · exact Finmap.lookup_insert _
    · split
      · exact Finmap.lookup_insert _
      · exact Finmap.lookup_insert _

/-- The loop of `vfs_open` over a table with one filesystem, in the first slot. -/
theorem rootNode_single {n : Nat} {token : Option (List Byte)} (hsize : s.currSize = n + 1)
    (hslots : ∀ i, i < n + 1 → s.mountpoints.read call.unspecified i =
      if i = 0 then some filesystem else none) :
    s.rootNode call token = s.matchMount call token none 0 := by
  have hskip : ∀ k root, k ≤ n →
      (List.range' 1 k).foldlM (s.matchMount call token) root = some root := by
    intro k root hk
    induction k with
    | zero => rfl
    | succ k ih =>
      have hslot : s.mountpoints.read call.unspecified (1 + k) = none := by
        rw [hslots _ (by omega), if_neg (by omega)]
      rw [List.range'_concat, List.foldlM_append, ih (by omega)]
      simp [matchMount, hslot]
  rw [rootNode, hsize, List.range_eq_range', List.range'_succ, List.foldlM_cons]
  cases s.matchMount call token none 0 with
  | none => rfl
  | some root => exact hskip n root (Nat.le_refl n)

/-! ## Opening by path -/

/-- `vfs_open` with one filesystem mounted: it opens the rest of the path there if
the first name of the path is the one that is read on the covered vnode. -/
theorem vfsOpen_single {n : Nat} {name : List Byte} (flags : Nat) (hsize : s.currSize = n + 1)
    (hslots : ∀ i, i < n + 1 → s.mountpoints.read call.unspecified i =
      if i = 0 then some filesystem else none)
    (hcovered : s.vcovered.lookup filesystem = some name) (hm : IsName m) (hf : 0 ∉ f) :
    (cstr (vnodeBytes filesystem name) = m →
      (s.vfsOpen call (pathBuffer m f) flags).1 = [⟨call.vroot filesystem, some f, flags⟩]) ∧
    (cstr (vnodeBytes filesystem name) ≠ m →
      s.vfsOpen call (pathBuffer m f) flags = ([], some none)) := by
  obtain ⟨rest, hrest⟩ := exists_cstr_append (zero_mem_vnodeBytes filesystem name)
  obtain ⟨order, horder, hiff⟩ := strcmp_eq_zero_iff
    (zero_notMem_cstr (vnodeBytes filesystem name)) hm.noZero rest (terminated f)
  rw [← hrest] at horder
  -- the buffer behind the token, and behind the delimiter that was overwritten
  have htoken : (slash :: m ++ 0 :: terminated f).drop 1 = terminated m ++ terminated f := by
    simp [terminated]
  have hpath : cstr ((slash :: m ++ 0 :: terminated f).drop (m.length + 2)) = f := by
    have hdrop : (slash :: m ++ 0 :: terminated f).drop (m.length + 2) = terminated f := by
      simp [List.drop_append]
    rw [hdrop]
    simpa using cstr_terminated hf []
  have hroot : s.rootNode call (some (terminated m ++ terminated f)) =
      some (if order = 0 then some (call.vroot filesystem) else none) := by
    rw [rootNode_single hsize hslots]
    simp [matchMount, hslots 0 (Nat.succ_pos n), hcovered, horder]
  have hfirst := strtokR_first (show slash ≠ 0 by decide) hm.nonempty hm.noZero hm.noSlash
    (terminated f) none
  constructor
  · intro heq
    rw [if_pos (hiff.mpr heq)] at hroot
    simp only [vfsOpen, pathBuffer, hfirst, Option.map_some, htoken, hroot, hpath]
  · intro hne
    rw [if_neg fun hzero => hne (hiff.mp hzero)] at hroot
    simp only [vfsOpen, pathBuffer, hfirst, Option.map_some, htoken, hroot]

/-- **Mounted names.** After a filesystem was mounted at `"/" + m` into an empty
table with room for it, `vfs_open` reaches its root under `m` and reports no file
under every other name, exactly when `m` is shorter than the name field, or goes
on behind its first 28 bytes with the bytes of the pointer that the vnode keeps
there. -/
theorem vfsOpen_mounted_iff (hm : IsName m) (hf : 0 ∉ f)
    (hroom : EmptyWithRoom s mount call.unspecified) (hpath : mount.mountPath = slash :: m)
    (hdriver : mount.driver = some filesystem) (hmount : s.vfsMount mount = some (0, s')) :
    ((s'.vfsOpen call (pathBuffer m f) flags).1 = [⟨call.vroot filesystem, some f, flags⟩] ∧
        ∀ m', IsName m' → m' ≠ m →
          s'.vfsOpen call (pathBuffer m' f) flags = ([], some none)) ↔
      m.length < nameSize ∨ m.drop nameSize = cstr (wordBytes filesystem) := by
  obtain ⟨n, hsize, hslots, hcovered⟩ := vfsMount_slots hroom hpath hdriver hmount
  have hopen := fun m (hm : IsName m) =>
    vfsOpen_single flags hsize hslots hcovered hm hf
  rw [← cstr_vnodeBytes_eq_iff hm.noZero]
  constructor
  · rintro ⟨hcalls, -⟩
    by_contra hne
    rw [(hopen m hm).2 hne] at hcalls
    cases hcalls
  · intro heq
    refine ⟨(hopen m hm).1 heq, fun m' hm' hne => (hopen m' hm').2 fun heq' => ?_⟩
    exact hne (heq'.symm.trans heq)

/-- A mount under the given name in which everything succeeds. -/
def mountNamed (filesystem : Ptr) (m : List Byte) : Mount :=
  { mountAt (some filesystem) with mountPath := slash :: m }

/-- Surroundings in which every `open` finds a vnode. -/
def openSample : Open := ⟨fun filesystem => filesystem + 1, fun _ => some 0, true, fun _ => none⟩

/-- The filesystem at `0x107` mounted as `a`, and `a/b` opened. -/
theorem vfsOpen_mounted_iff_short :
    let s' := ((vfsInit.vfsMount (mountNamed 0x107 [0x61])).map Prod.snd).getD vfsInit
    ((s'.vfsOpen openSample (pathBuffer [0x61] [0x62]) 0).1 = [⟨0x108, some [0x62], 0⟩] ∧
        ∀ m', IsName m' → m' ≠ [0x61] →
          s'.vfsOpen openSample (pathBuffer m' [0x62]) 0 = ([], some none)) ↔
      [(0x61 : Byte)].length < nameSize ∨
        [(0x61 : Byte)].drop nameSize = cstr (wordBytes 0x107) :=
  vfsOpen_mounted_iff ⟨by decide, by decide, by decide⟩ (by decide)
    (.inr ⟨rfl, rfl, fun _ => rfl⟩) rfl rfl
    (rfl : vfsInit.vfsMount (mountNamed 0x107 [0x61]) = some (0, _))

/-- A name of 28 bytes is mounted and cannot be opened. -/
theorem vfsOpen_long_name : ∃ m s', IsName m ∧ m.length = 28 ∧
    EmptyWithRoom vfsInit (mountNamed 0x107 m) openSample.unspecified ∧
    vfsInit.vfsMount (mountNamed 0x107 m) = some (0, s') ∧
    s'.vfsOpen openSample (pathBuffer m [0x62]) 0 = ([], some none) := by
  refine ⟨List.replicate 28 0x61, _, ⟨by decide, by decide, by decide⟩, by decide,
    .inr ⟨rfl, rfl, fun _ => rfl⟩, rfl, by decide⟩

end Vfs

end Leenix
