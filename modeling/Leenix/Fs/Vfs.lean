import Leenix.Lib.Run
import Leenix.Machine

/-!
# The mount table (fs/vfs.c)

`vfs_mount` as a function on the two static variables `_mountpoints` and
`_curr_size`, with the heap block behind the former. What the surroundings
decide is part of the call: the filesystem that the driver returns, the results
of `malloc` and `realloc`, and the value that a read of memory yields which
nothing has written.

The table is sound (`TableSound`) when the block has room for the slots the code
believes in, these are initialised, and they hold exactly the filesystems whose
mount returned 0. It is so after a run exactly when no call of the run got as
far as the table (`run_tableSound_iff`): the first that does leaves a block of
five bytes with five slots.
-/

namespace Leenix

/-- A heap block that holds pointers: its length in bytes, and its words. A word
is `none` while nothing has written it. -/
structure Block where
  bytes : Nat
  words : Nat → Option (Option Ptr)

namespace Block

/-- `sizeof (vfs*)`. -/
def wordSize : Nat := 4

/-- Word `i` lies inside the block. -/
def Inside (b : Block) (i : Nat) : Prop := wordSize * (i + 1) ≤ b.bytes

instance (b : Block) (i : Nat) : Decidable (b.Inside i) := inferInstanceAs (Decidable (_ ≤ _))

/-- The value of word `i`: `unspecified i` outside the block, and inside it if
nothing was stored there. -/
def read (b : Block) (unspecified : Nat → Option Ptr) (i : Nat) : Option Ptr :=
  if b.Inside i then (b.words i).getD (unspecified i) else unspecified i

/-- Store to word `i`. A store outside the block changes other memory. -/
def write (b : Block) (i : Nat) (v : Option Ptr) : Block :=
  if b.Inside i then { b with words := Function.update b.words i (some v) } else b

/-- `realloc` to `n` bytes: the words in the first `min` of both lengths stay. -/
def realloc (b : Block) (n : Nat) : Block where
  bytes := n
  words i := if wordSize * (i + 1) ≤ min b.bytes n then b.words i else none

end Block

/-- The static variables of vfs.c, and the name of the vnode that each mounted
filesystem covers. -/
structure Vfs where
  mountpoints : Block
  currSize : Nat
  vcovered : Heap (List Byte)

namespace Vfs

/-- `INIT_MPOINTS`. -/
def initMpoints : Nat := 16

/-- `fs_type_t` names in `fs_types`: `"fat12"`. -/
def fsTypes : List (List Byte) := [[0x66, 0x61, 0x74, 0x31, 0x32]]

/-- `vfs_init` (vfs.c:69–76), when its `malloc` succeeds; the result is not
checked. -/
def vfsInit : Vfs where
  mountpoints := ⟨initMpoints * Block.wordSize, fun i => if i < initMpoints then some none else none⟩
  currSize := 0
  vcovered := ∅

/-- A call of `vfs_mount` and what it meets: the filesystem returned by the
driver's `mount`, whether `malloc` and `realloc` succeed, and the value of
memory that was never written. -/
structure Mount where
  mountPath : List Byte
  fsType : List Byte
  driver : Option Ptr
  malloc : Bool
  realloc : Bool
  unspecified : Nat → Option Ptr

/-- The first slot below `currSize` that reads as `NULL`. -/
def freeSlot (s : Vfs) (unspecified : Nat → Option Ptr) : Option Nat :=
  (List.range s.currSize).find? fun i => s.mountpoints.read unspecified i = none

/-- `_add_to_mpoints` (vfs.c:42–64). The size handed to `realloc` counts slots. -/
def addToMpoints (s : Vfs) (call : Mount) (v : Ptr) : Vfs :=
  match s.freeSlot call.unspecified with
  | some i => { s with mountpoints := s.mountpoints.write i (some v) }
  | none =>
    if call.realloc then
      { s with
        mountpoints := (s.mountpoints.realloc (s.currSize + 5)).write s.currSize (some v)
        currSize := s.currSize + 5 }
    else s

/-- `sizeof (mount_at->name)`. -/
def nameSize : Nat := 28

/-- `vfs_mount` (vfs.c:78–125). It skips the first character of the mount path
unseen, and does not check the vnode it allocates. -/
def vfsMount (s : Vfs) (call : Mount) : Option (Int × Vfs) :=
  if call.fsType ∉ fsTypes then some (-1, s)
  else
    match call.driver with
    | none => some (-1, s)
    | some filesystem =>
      match call.malloc, call.mountPath with
      | true, _ :: name =>
        let s := { s with vcovered := s.vcovered.insert filesystem (name.take nameSize) }
        some (0, s.addToMpoints call filesystem)
      | _, _ => none

/-- One call as a step. -/
def step (s : Vfs) (call : Mount) : Option Vfs := (s.vfsMount call).map Prod.snd

/-- The filesystems mounted by the calls of a run that returned 0. -/
def mounted (tr : List (Edge Vfs Mount)) : List Ptr :=
  tr.filterMap fun e => if (e.pre.vfsMount e.op).map Prod.fst = some 0 then e.op.driver else none

/-- The filesystems in the first `_curr_size` slots. -/
def table (s : Vfs) : List Ptr :=
  (List.range s.currSize).filterMap fun i => (s.mountpoints.words i).join

/-- The block has room for its `_curr_size` slots, these are initialised, and
they hold exactly the filesystems of the list, each as often as in it. -/
structure TableSound (mounted : List Ptr) (s : Vfs) : Prop where
  room : s.currSize * Block.wordSize ≤ s.mountpoints.bytes
  initialised : ∀ i, i < s.currSize → s.mountpoints.words i ≠ none
  exact : s.table.Perm mounted

/-- The call finds its filesystem type and the driver mounts the device. -/
def Mount.ReachesTable (call : Mount) : Prop := call.fsType ∈ fsTypes ∧ call.driver ≠ none

variable {s s' : Vfs} {call : Mount} {tr : List (Edge Vfs Mount)}

/-! ## What a call can do -/

/-- Adding to the table keeps it, stores into a slot of it, or grows it. -/
theorem addToMpoints_cases (s : Vfs) (call : Mount) (v : Ptr) :
    (s.addToMpoints call v).currSize = s.currSize ∧
        (s.addToMpoints call v).mountpoints.bytes = s.mountpoints.bytes ∨
      (s.addToMpoints call v).currSize = s.currSize + 5 ∧
        (s.addToMpoints call v).mountpoints.bytes = s.currSize + 5 := by
  have hwrite : ∀ (b : Block) i v, (b.write i v).bytes = b.bytes := by
    intro b i v
    unfold Block.write
    split <;> rfl
  unfold addToMpoints
  split
  case h_1 i _ => exact .inl ⟨rfl, hwrite _ _ _⟩
  case h_2 =>
    split
    · exact .inr ⟨rfl, hwrite _ _ _⟩
    · exact .inl ⟨rfl, rfl⟩

/-- A call is refused and changes nothing, or reaches the table and returns 0. -/
theorem vfsMount_cases {r : Int} (h : s.vfsMount call = some (r, s')) :
    ¬call.ReachesTable ∧ r = -1 ∧ s' = s ∨
    ∃ v name, call.ReachesTable ∧ call.driver = some v ∧ r = 0 ∧
      s' = ({ s with vcovered := s.vcovered.insert v name } : Vfs).addToMpoints call v := by
  unfold vfsMount at h
  by_cases htype : call.fsType ∉ fsTypes
  · rw [if_pos htype] at h
    obtain ⟨rfl, rfl⟩ := Prod.mk.inj (Option.some.inj h)
    exact .inl ⟨fun hreach => htype hreach.1, rfl, rfl⟩
  rw [if_neg htype] at h
  cases hdriver : call.driver with
  | none =>
    simp only [hdriver] at h
    obtain ⟨rfl, rfl⟩ := Prod.mk.inj (Option.some.inj h)
    exact .inl ⟨fun hreach => hreach.2 hdriver, rfl, rfl⟩
  | some v =>
    simp only [hdriver] at h
    split at h
    case h_1 name _ _ =>
      obtain ⟨rfl, rfl⟩ := Prod.mk.inj (Option.some.inj h)
      exact .inr ⟨v, _, ⟨not_not.mp htype, by simp [hdriver]⟩, rfl, rfl, rfl⟩
    case h_2 => cases h

theorem step_cases (h : s.step call = some s') :
    ¬call.ReachesTable ∧ s.vfsMount call = some (-1, s) ∧ s' = s ∨
    ∃ v name, call.ReachesTable ∧ call.driver = some v ∧ s.vfsMount call = some (0, s') ∧
      s' = ({ s with vcovered := s.vcovered.insert v name } : Vfs).addToMpoints call v := by
  obtain ⟨⟨r, s₁⟩, hmount, rfl⟩ := Option.map_eq_some_iff.mp h
  rcases vfsMount_cases hmount with ⟨hreach, rfl, rfl⟩ | ⟨v, name, hreach, hdriver, rfl, hs⟩
  · exact .inl ⟨hreach, hmount, rfl⟩
  · exact .inr ⟨v, name, hreach, hdriver, hmount, hs⟩

/-! ## Runs -/

/-- A run without a call that reaches the table leaves it empty. -/
theorem run_untouched (hrun : Run step vfsInit tr s) (hrefused : ∀ e ∈ tr, ¬e.op.ReachesTable) :
    s = vfsInit ∧ mounted tr = [] := by
  induction hrun with
  | nil => exact ⟨rfl, rfl⟩
  | @snoc tr m s' call hrun hlast ih =>
    obtain ⟨rfl, hmounted⟩ := ih fun e he => hrefused e (List.mem_append_left _ he)
    rcases step_cases hlast with ⟨-, hmount, rfl⟩ | ⟨v, name, hreach, -⟩
    · refine ⟨rfl, ?_⟩
      rw [mounted, List.filterMap_append, ← mounted, hmounted]
      simp [hmount]
    · exact absurd hreach (hrefused ⟨vfsInit, call, s'⟩ (by simp))

/-- The block of a table that was never grown is the initial one; of one that
was, it has one byte for each slot. -/
def Sized (s : Vfs) : Prop := s.currSize = 0 ∨ s.mountpoints.bytes = s.currSize

theorem sized_step (h : s.Sized) (hstep : s.step call = some s') : s'.Sized := by
  rcases step_cases hstep with ⟨-, -, rfl⟩ | ⟨v, name, -, -, -, rfl⟩
  · exact h
  · rcases addToMpoints_cases { s with vcovered := s.vcovered.insert v name } call v with
      ⟨hsize, hbytes⟩ | ⟨hsize, hbytes⟩
    · rcases h with h | h
      · exact .inl (hsize.trans h)
      · exact .inr (by rw [hsize, hbytes, h])
    · exact .inr (by rw [hsize, hbytes])

/-- A call that reaches the table is one whose filesystem counts as mounted. -/
theorem mounted_ne_nil (hrun : Run step vfsInit tr s) {e : Edge Vfs Mount} (he : e ∈ tr)
    (hreach : e.op.ReachesTable) : mounted tr ≠ [] := by
  obtain ⟨tr₁, tr₂, rfl, -, hstep⟩ := hrun.prefix_of_mem he
  rcases step_cases hstep with ⟨hno, -, -⟩ | ⟨v, name, -, hdriver, hmount, -⟩
  · exact absurd hreach hno
  · simp [mounted, hmount, hdriver]

/-- **Mount table.** After a run of mounts the table is sound, and no call that
failed changed it, exactly when none of them reached the table. -/
theorem run_tableSound_iff (hrun : Run step vfsInit tr s) :
    TableSound (mounted tr) s ∧
        (∀ e ∈ tr, ∀ r, e.pre.vfsMount e.op = some (r, e.post) → r ≠ 0 → e.post = e.pre) ↔
      ∀ e ∈ tr, ¬e.op.ReachesTable := by
  constructor
  · rintro ⟨hsound, -⟩ e he hreach
    have hany : ∀ e ∈ tr, True := fun _ _ => trivial
    have hsized : s.Sized := hrun.invariant hany (.inl rfl) fun _ _ _ h hstep _ => sized_step h hstep
    have hmounted := mounted_ne_nil hrun he hreach
    rcases hsized with hzero | hbytes
    · -- every `realloc` failed: the mounts that returned 0 are lost
      have hempty : s.table = [] := by simp [table, hzero]
      exact hmounted (List.nil_perm.mp (hempty ▸ hsound.exact))
    · have hroom := hsound.room
      have hpos : s.currSize ≠ 0 := by
        intro hzero
        have hempty : s.table = [] := by simp [table, hzero]
        exact hmounted (List.nil_perm.mp (hempty ▸ hsound.exact))
      simp only [Block.wordSize, hbytes] at hroom
      omega
  · intro hrefused
    obtain ⟨rfl, hmounted⟩ := run_untouched hrun hrefused
    rw [hmounted]
    refine ⟨⟨by decide, fun i hi => absurd hi (Nat.not_lt_zero i), .nil⟩, fun e he r hmount hr => ?_⟩
    rcases vfsMount_cases hmount with ⟨-, -, hsame⟩ | ⟨v, name, -, -, hzero, -⟩
    · exact hsame
    · exact absurd hzero hr

/-- A mount of the given filesystem at `/a` in which everything succeeds. -/
def mountAt (filesystem : Option Ptr) : Mount :=
  ⟨[0x2F, 0x61], [0x66, 0x61, 0x74, 0x31, 0x32], filesystem, true, true, fun _ => none⟩

/-- A mount that the driver refuses. -/
theorem run_tableSound_iff_refused :
    TableSound (mounted (Run.replay step vfsInit [mountAt none]))
          ([mountAt none].foldl (Run.next step) vfsInit) ∧
        (∀ e ∈ Run.replay step vfsInit [mountAt none], ∀ r,
          e.pre.vfsMount e.op = some (r, e.post) → r ≠ 0 → e.post = e.pre) ↔
      ∀ e ∈ Run.replay step vfsInit [mountAt none], ¬e.op.ReachesTable :=
  run_tableSound_iff (Run.of_defined _ (by decide))

/-- One mount that succeeds leaves five slots in a block of five bytes. -/
theorem first_mount_unsound : ∃ tr s, Run step vfsInit tr s ∧ mounted tr = [7] ∧
    s.currSize = 5 ∧ s.mountpoints.bytes = 5 ∧ s.mountpoints.words 1 = none ∧
    ¬TableSound (mounted tr) s := by
  refine ⟨_, _, Run.of_defined [mountAt (some 7)] (by decide), by decide, by decide, by decide,
    by decide, fun hsound => ?_⟩
  exact absurd hsound.room (by decide)

end Vfs

end Leenix
