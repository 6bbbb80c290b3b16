import Leenix.Fs.Lookup
import Leenix.Fs.Open
import Leenix.Libc.Tokens

/-!
# What `vfs_open` answers

`vfs_open` over a table of FAT12 volumes, with `fat12_open` as the `open` operation of
every root vnode. It compares the first token of the path without having looked at it,
and puts the result of `open` into the `file_t` the same way: a path without a token ends
in a comparison with `NULL`, and a missing file in a `file_t` without a vnode.

- `strtokR_path`: the token, and the rest of the path, for every path string.
- `rootNode_mounted`: the loop over the table finds the last filesystem of that name.
- `vfsOpen_answers_iff`: the paths that are answered as they should be.
-/

namespace Leenix

namespace Vfs

/-- The driver behind the root vnodes: their volumes, what a lookup meets, and the block
that `malloc` returns for a vnode. Buffers and devices have blocks of 512 bytes. -/
structure Fat12Driver where
  volume : Ptr → Fat12Volume
  lookup : LookupEnv
  vnode : Ptr
  readsBlocks : ∀ root, ReadsBlocks (volume root).blockDev
  length_dirEntries : lookup.dirEntries.length = 512

/-- The `open` operation of a root vnode. -/
def Fat12Driver.openVnode (driver : Fat12Driver) (call : OpenCall) : Option Ptr :=
  (fat12Open (some (rootOf (driver.volume call.node))) call.path driver.lookup).map
    fun _ => driver.vnode

/-- The surroundings of `vfs_open` with that driver. -/
def Fat12Driver.surroundings (driver : Fat12Driver) (vroot : Ptr → Ptr) (malloc : Bool)
    (unspecified : Nat → Option Ptr) : Open where
  vroot := vroot
  result := driver.openVnode
  malloc := malloc
  unspecified := unspecified

/-- The first component of a path. -/
def component (path : List Byte) : Option (List Byte) :=
  match path.dropWhile (· = slash) with
  | [] => none
  | c :: names => some ((c :: names).takeWhile (· ≠ slash))

/-- What stands behind the slash that ends the first component. -/
def filePart (path : List Byte) : Option (List Byte) :=
  match (path.dropWhile (· = slash)).dropWhile (· ≠ slash) with
  | [] => none
  | _ :: file => some file

/-- The string on the vnode that a filesystem covers. -/
def nameOf (s : Vfs) (filesystem : Ptr) : Option (List Byte) :=
  (s.vcovered.lookup filesystem).map fun name => cstr (vnodeBytes filesystem name)

/-- The filesystem mounted under a name. A later slot hides an earlier one. -/
def mountedAt (s : Vfs) (name : List Byte) : Option Ptr :=
  (s.table.filter fun filesystem => s.nameOf filesystem = some name).getLast?

/-- The root directory lists the file, as the driver reads it. -/
def HasFile (driver : Fat12Driver) (root : Ptr) (file : List Byte) : Prop :=
  file ≠ [] ∧ ∃ k, Listed (fat12NormalTo8_3 file)
    (rootEntries (driver.volume root) driver.lookup.dirEntries) k

/-- The table has room for its slots, these are initialised, and every filesystem in it
covers a vnode. -/
structure WellFormed (s : Vfs) : Prop where
  room : s.currSize * Block.wordSize ≤ s.mountpoints.bytes
  initialised : ∀ i, i < s.currSize → s.mountpoints.words i ≠ none
  covered : ∀ filesystem ∈ s.table, ∃ name, s.vcovered.lookup filesystem = some name

/-- The path has a component, it names a mounted filesystem, and that has the file. -/
def Finds (s : Vfs) (driver : Fat12Driver) (vroot : Ptr → Ptr) (path : List Byte) : Prop :=
  ∃ name filesystem file, component path = some name ∧ s.mountedAt name = some filesystem ∧
    filePart path = some file ∧ HasFile driver (vroot filesystem) file

/-- `vfs_open` returns: a `file_t` with a vnode and offset 0 for a path that finds a
file, and `NULL` for the others. -/
def Answers (s : Vfs) (driver : Fat12Driver) (call : Open) (buf path : List Byte) (flags : Nat) :
    Prop :=
  ∃ r, (s.vfsOpen call buf flags).2 = some r ∧
    (¬s.Finds driver call.vroot path → r = none) ∧
    (s.Finds driver call.vroot path → ∃ file, r = some file ∧ file.vnodePtr ≠ none ∧
      file.fOffset = 0)

variable {s : Vfs} {call : Open} {driver : Fat12Driver} {path rest name tail : List Byte} {n : Nat}

/-! ## The path -/

/-- A path is slashes, and then nothing or its first component; behind that there is
nothing, or a slash and the file. -/
theorem path_cases (path : List Byte) :
    component path = none ∧ (∀ c ∈ path, c = slash) ∨
    ∃ lead name after, path = lead ++ (name ++ after) ∧ (∀ c ∈ lead, c = slash) ∧ name ≠ [] ∧
      slash ∉ name ∧ component path = some name ∧
      (after = [] ∧ filePart path = none ∨
        ∃ file, after = slash :: file ∧ filePart path = some file) := by
  have hlead : ∀ c ∈ path.takeWhile (· = slash), c = slash := fun c hc => by
    simpa using List.all_eq_true.mp List.all_takeWhile c hc
  have hpath : path.takeWhile (· = slash) ++ path.dropWhile (· = slash) = path :=
    List.takeWhile_append_dropWhile
  rcases hnames : path.dropWhile (· = slash) with _ | ⟨c, names⟩
  · rw [hnames, List.append_nil] at hpath
    exact .inl ⟨by simp [component, hnames], fun c hc => hlead c (by rwa [hpath])⟩
  · have hc : c ≠ slash := by
      have hhead := List.head?_dropWhile_not (· = slash) path
      rw [hnames] at hhead
      simpa using hhead
    have hsplit : (c :: names).takeWhile (· ≠ slash) ++ (c :: names).dropWhile (· ≠ slash) =
        c :: names := List.takeWhile_append_dropWhile
    have hnoSlash : slash ∉ (c :: names).takeWhile (· ≠ slash) := fun h => by
      simpa using List.all_eq_true.mp List.all_takeWhile slash h
    refine .inr ⟨path.takeWhile (· = slash), (c :: names).takeWhile (· ≠ slash),
      (c :: names).dropWhile (· ≠ slash), ?_, hlead, by simp [hc], hnoSlash,
      by rw [component, hnames], ?_⟩
    · rw [hsplit, ← hnames, hpath]
    · rcases hrest : (c :: names).dropWhile (· ≠ slash) with _ | ⟨d, file⟩
      · exact .inl ⟨rfl, by rw [filePart, hnames, hrest]⟩
      · have hhead := List.head?_dropWhile_not (· ≠ slash) (c :: names)
        rw [hrest] at hhead
        obtain rfl : d = slash := by simpa using hhead
        exact .inr ⟨file, rfl, by rw [filePart, hnames, hrest]⟩

/-- The first run of a path is its first component. -/
theorem runsFrom_path {lead after : List Byte} (hlead : ∀ c ∈ lead, c = slash) (hne : name ≠ [])
    (hname : slash ∉ name) (hafter : after = [] ∨ after.head? = some slash) :
    ∃ ts, runsFrom (isDelim [slash]) (lead ++ (name ++ after)) 0 =
      (lead.length, lead.length + name.length) :: ts := by
  obtain ⟨c, name, rfl⟩ := List.exists_cons_of_ne_nil hne
  have hc : c ≠ slash := fun hc => hname (hc ▸ List.mem_cons_self)
  have hskip : skip (isDelim [slash]) (lead ++ (c :: name ++ after)) 0 = lead.length := by
    rw [skip, List.drop_zero, List.takeWhile_append_of_pos fun b hb => by simp [isDelim, hlead b hb]]
    simp [isDelim, hc]
  have hnot : (fun b => !isDelim [slash] b) = fun b => decide (b ≠ slash) := by
    funext b
    simp [isDelim]
  have hstop : skip (fun b => !isDelim [slash] b) (lead ++ (c :: name ++ after)) lead.length =
      lead.length + (c :: name).length := by
    rw [skip, List.drop_left, hnot, takeWhile_ne hname hafter]
  rw [runsFrom]
  simp only [hskip, hstop]
  rw [if_pos (by simp)]
  exact ⟨_, rfl⟩

/-- **The token.** A path without a component has none. Else it is the component, it is
terminated, and the saved pointer leads to the file part. -/
theorem strtokR_path (hpath : 0 ∉ path) (rest : List Byte) :
    ∃ token buf next, strtokR (terminated path ++ rest) (some 0) [slash] none =
        some (token, buf, next) ∧
      (component path = none → token = none) ∧
      ∀ name, component path = some name →
        0 ∉ name ∧ (∃ i tail, token = some i ∧ buf.drop i = terminated name ++ tail) ∧
          next.map (fun i => cstr (buf.drop i)) = filePart path := by
  rcases path_cases path with ⟨hnone, hslashes⟩ |
    ⟨lead, name, after, rfl, hlead, hne, hname, hcomponent, hafter⟩
  · refine ⟨none, _, none, strtokR_of_separators (by decide) hslashes rest none, fun _ => rfl,
      fun name hsome => ?_⟩
    rw [hnone] at hsome
    cases hsome
  · have hhead : after = [] ∨ after.head? = some slash := by
      rcases hafter with ⟨rfl, -⟩ | ⟨file, rfl, -⟩
      · exact .inl rfl
      · exact .inr rfl
    obtain ⟨ts, hruns⟩ := runsFrom_path hlead hne hname hhead
    obtain ⟨hcall, -, -⟩ := (strtokR_scans hpath [slash] rest).token _ (some 0) none 0 _ _ ts rfl
      (Nat.zero_le _) rfl hruns
    have hzero : 0 ∉ name := fun h =>
      hpath (List.mem_append_right _ (List.mem_append_left _ h))
    refine ⟨_, _, _, hcall, fun hnone => ?_, fun name' hsome => ?_⟩
    · rw [hcomponent] at hnone
      cases hnone
    obtain rfl : name = name' := Option.some.inj (hcomponent.symm.trans hsome)
    refine ⟨hzero, ?_⟩
    rcases hafter with ⟨rfl, hfile⟩ | ⟨file, rfl, hfile⟩
    · -- the string ends with the token
      have hend : ¬lead.length + name.length < (lead ++ (name ++ [])).length := by simp
      rw [cutAt, savedAfter, if_neg hend, if_neg hend, hfile]
      refine ⟨⟨_, rest, rfl, ?_⟩, rfl⟩
      simp [terminated]
    · have hcut : lead.length + name.length < (lead ++ (name ++ slash :: file)).length := by simp
      have hbuf : (terminated (lead ++ (name ++ slash :: file)) ++ rest).set
          (lead.length + name.length) 0 = lead ++ (terminated name ++ (terminated file ++ rest)) := by
        simp [terminated]
      have hzeroFile : 0 ∉ file := fun h => hpath (by simp [h])
      have hdrop : (lead ++ (terminated name ++ (terminated file ++ rest))).drop
          (lead.length + name.length + 1) = terminated file ++ rest := by
        have hlen : lead.length + name.length + 1 = (lead ++ terminated name).length := by
          simp [terminated, Nat.add_assoc]
        rw [hlen, ← List.append_assoc, List.drop_left]
      rw [cutAt, savedAfter, if_pos hcut, if_pos hcut, hbuf, hfile, Option.map_some, hdrop,
        cstr_terminated hzeroFile]
      exact ⟨⟨_, _, rfl, List.drop_left⟩, rfl⟩

/-! ## The table -/

/-- The filesystem in slot `i`. -/
def slot (s : Vfs) (i : Nat) : Option Ptr := (s.mountpoints.words i).join

/-- The filesystems in the first `n` slots. -/
def tableUpTo (s : Vfs) (n : Nat) : List Ptr := (List.range n).filterMap s.slot

theorem tableUpTo_succ (s : Vfs) (n : Nat) :
    s.tableUpTo (n + 1) = s.tableUpTo n ++ (s.slot n).toList := by
  rw [tableUpTo, List.range_succ, List.filterMap_append, ← tableUpTo]
  cases h : s.slot n <;> simp [h]

namespace WellFormed

variable (h : s.WellFormed)
include h

/-- The slots are read as they are. -/
theorem read_slot {i : Nat} (hi : i < s.currSize) (unspecified : Nat → Option Ptr) :
    s.mountpoints.read unspecified i = s.slot i := by
  have hinside : s.mountpoints.Inside i := by
    have hroom := h.room
    unfold Block.Inside
    unfold Block.wordSize at hroom ⊢
    omega
  obtain ⟨word, hword⟩ := Option.ne_none_iff_exists'.mp (h.initialised i hi)
  simp [Block.read, slot, hinside, hword]

theorem covered_slot {i : Nat} {filesystem : Ptr} (hi : i < s.currSize)
    (hslot : s.slot i = some filesystem) : ∃ stored, s.vcovered.lookup filesystem = some stored :=
  h.covered filesystem (List.mem_filterMap.mpr ⟨i, List.mem_range.mpr hi, hslot⟩)

/-- One turn of the loop of `vfs_open`. -/
theorem matchMount_eq (hname : 0 ∉ name) {i : Nat} (hi : i < s.currSize) (root : Option Ptr) :
    s.matchMount call (some (terminated name ++ tail)) root i =
      some (match s.slot i with
        | none => root
        | some filesystem =>
          if s.nameOf filesystem = some name then some (call.vroot filesystem) else root) := by
  rw [matchMount, h.read_slot hi]
  cases hslot : s.slot i with
  | none => rfl
  | some filesystem =>
    obtain ⟨stored, hstored⟩ := h.covered_slot hi hslot
    obtain ⟨bytes, hbytes⟩ := exists_cstr_append (zero_mem_vnodeBytes filesystem stored)
    obtain ⟨order, horder, hiff⟩ := strcmp_eq_zero_iff
      (zero_notMem_cstr (vnodeBytes filesystem stored)) hname bytes tail
    rw [← hbytes] at horder
    simp only [hstored, Option.bind_eq_bind, Option.bind_some, horder, nameOf, Option.map_some,
      Option.some.injEq, hiff]
    rfl

/-- **The loop over the table** finds the last filesystem mounted under the name. -/
theorem rootNode_mounted (hname : 0 ∉ name) :
    s.rootNode call (some (terminated name ++ tail)) = some ((s.mountedAt name).map call.vroot) := by
  have hprefix : ∀ n, n ≤ s.currSize →
      (List.range n).foldlM (s.matchMount call (some (terminated name ++ tail))) none =
        some ((((s.tableUpTo n).filter fun filesystem =>
          s.nameOf filesystem = some name).getLast?).map call.vroot) := by
    intro n hn
    induction n with
    | zero => rfl
    | succ n ih =>
      rw [List.range_succ, List.foldlM_append, ih (by omega), tableUpTo_succ, List.filter_append]
      simp only [List.foldlM_cons, List.foldlM_nil, Option.bind_eq_bind, Option.bind_some,
        h.matchMount_eq hname (show n < s.currSize by omega)]
      cases s.slot n with
      | none => simp
      | some filesystem =>
        by_cases hnamed : s.nameOf filesystem = some name
        · simp [hnamed]
        · simp [hnamed]
  exact hprefix s.currSize (Nat.le_refl _)

/-- Without a token the loop compares with `NULL`, unless there is no filesystem. -/
theorem rootNode_null : s.rootNode call none = if s.table = [] then some none else none := by
  have hprefix : ∀ n, n ≤ s.currSize →
      (List.range n).foldlM (s.matchMount call none) none =
        if s.tableUpTo n = [] then some none else none := by
    intro n hn
    induction n with
    | zero => rfl
    | succ n ih =>
      rw [List.range_succ, List.foldlM_append, ih (by omega), tableUpTo_succ]
      by_cases hempty : s.tableUpTo n = []
      · have hn : n < s.currSize := by omega
        simp only [hempty, if_true, List.foldlM_cons, List.foldlM_nil, Option.bind_eq_bind,
          Option.bind_some, List.nil_append, matchMount, h.read_slot hn]
        cases hslot : s.slot n with
        | none => rfl
        | some filesystem =>
          obtain ⟨stored, hstored⟩ := h.covered_slot hn hslot
          simp [hstored]
      · simp [hempty]
  exact hprefix s.currSize (Nat.le_refl _)

end WellFormed

/-! ## Opening -/

/-- A vnode is returned for a file that the filesystem has, if its memory is allocated. -/
theorem openVnode_iff (driver : Fat12Driver) (root : Ptr) (file : Option (List Byte)) (flags : Nat) :
    driver.openVnode ⟨root, file, flags⟩ ≠ none ↔
      (∃ f, file = some f ∧ HasFile driver root f) ∧
        driver.lookup.vnode = true ∧ driver.lookup.inode = true := by
  have hdev := driver.readsBlocks root
  have hlen := driver.length_dirEntries
  rw [Fat12Driver.openVnode, Option.ne_none_iff_exists']
  constructor
  · rintro ⟨_, hmap⟩
    obtain ⟨node, hopen, -⟩ := Option.map_eq_some_iff.mp hmap
    obtain ⟨hvnode, hinode⟩ := fat12Open_allocated hopen
    cases file with
    | none => cases hopen
    | some f =>
      have hf : f ≠ [] := by
        rintro rfl
        cases hopen
      rw [LookupEnv.eq_of_allocated hvnode hinode] at hopen
      exact ⟨⟨f, rfl, hf, (fat12Open_isSome_iff hdev hlen hf).mp ⟨node, hopen⟩⟩, hvnode, hinode⟩
  · rintro ⟨⟨f, rfl, hf, hlisted⟩, hvnode, hinode⟩
    obtain ⟨node, hopen⟩ := (fat12Open_isSome_iff hdev hlen hf).mpr hlisted
    exact ⟨driver.vnode, by rw [LookupEnv.eq_of_allocated hvnode hinode, hopen, Option.map_some]⟩

section Calls

variable (hwell : s.WellFormed) (hpath : 0 ∉ path) (rest : List Byte) (flags : Nat)
include hwell hpath

/-- Without a component in the path, only an empty table keeps `NULL` out of `strcmp`. -/
theorem vfsOpen_noComponent (hnone : component path = none) :
    (s.vfsOpen call (terminated path ++ rest) flags).2 =
      if s.table = [] then some none else none := by
  obtain ⟨token, buf, next, hcall, htoken, -⟩ := strtokR_path hpath rest
  obtain rfl := htoken hnone
  rw [vfsOpen, hcall]
  simp only [Option.map_none, hwell.rootNode_null]
  by_cases htable : s.table = []
  · rw [if_pos htable, if_pos htable]
  · rw [if_neg htable, if_neg htable]

/-- With one, the filesystem of that name is asked for the file part. -/
theorem vfsOpen_component (hname : component path = some name) :
    (s.vfsOpen call (terminated path ++ rest) flags).2 =
      match s.mountedAt name with
      | none => some none
      | some filesystem =>
        if call.malloc then
          some (some ⟨call.result ⟨call.vroot filesystem, filePart path, flags⟩, 0, flags⟩)
        else none := by
  obtain ⟨token, buf, next, hcall, -, hsome⟩ := strtokR_path hpath rest
  obtain ⟨hzero, ⟨i, tail, rfl, htoken⟩, hnext⟩ := hsome name hname
  rw [vfsOpen, hcall]
  simp only [Option.map_some, htoken, hwell.rootNode_mounted hzero, hnext]
  cases s.mountedAt name with
  | none => rfl
  | some filesystem => rfl

end Calls

theorem not_finds_of_noComponent {vroot : Ptr → Ptr} (hnone : component path = none) :
    ¬s.Finds driver vroot path := by
  rintro ⟨name, _, _, hname, -⟩
  rw [hnone] at hname
  cases hname

theorem not_finds_of_unmounted {vroot : Ptr → Ptr} (hname : component path = some name)
    (hmounted : s.mountedAt name = none) : ¬s.Finds driver vroot path := by
  rintro ⟨name', filesystem, _, hname', hfilesystem, -⟩
  obtain rfl : name = name' := Option.some.inj (hname.symm.trans hname')
  rw [hmounted] at hfilesystem
  cases hfilesystem

theorem finds_iff {vroot : Ptr → Ptr} {filesystem : Ptr} (hname : component path = some name)
    (hmounted : s.mountedAt name = some filesystem) :
    s.Finds driver vroot path ↔
      ∃ file, filePart path = some file ∧ HasFile driver (vroot filesystem) file := by
  constructor
  · rintro ⟨name', filesystem', file, hname', hmounted', hfile⟩
    obtain rfl : name = name' := Option.some.inj (hname.symm.trans hname')
    obtain rfl : filesystem = filesystem' := Option.some.inj (hmounted.symm.trans hmounted')
    exact ⟨file, hfile⟩
  · rintro ⟨file, hfile⟩
    exact ⟨name, filesystem, file, hname, hmounted, hfile⟩

section Cases

variable (hwell : s.WellFormed) (hpath : 0 ∉ path) (rest : List Byte) (flags : Nat)
include hwell hpath

theorem answers_noComponent (hnone : component path = none) :
    s.Answers driver call (terminated path ++ rest) path flags ↔ s.table = [] := by
  have hmissing : ¬s.Finds driver call.vroot path := not_finds_of_noComponent hnone
  rw [Answers, vfsOpen_noComponent hwell hpath rest flags hnone]
  constructor
  · rintro ⟨r, hr, -⟩
    by_contra htable
    rw [if_neg htable] at hr
    cases hr
  · intro htable
    exact ⟨none, if_pos htable, fun _ => rfl, fun hfinds => absurd hfinds hmissing⟩

theorem answers_unmounted (hname : component path = some name)
    (hmounted : s.mountedAt name = none) :
    s.Answers driver call (terminated path ++ rest) path flags := by
  have hmissing : ¬s.Finds driver call.vroot path := not_finds_of_unmounted hname hmounted
  rw [Answers, vfsOpen_component hwell hpath rest flags hname, hmounted]
  exact ⟨none, rfl, fun _ => rfl, fun hfinds => absurd hfinds hmissing⟩

/-- Whatever `open` returned, there is a `file_t`, if it could be allocated. -/
theorem answers_mounted {vroot : Ptr → Ptr} {malloc : Bool} {unspecified : Nat → Option Ptr}
    {filesystem : Ptr} (hname : component path = some name)
    (hmounted : s.mountedAt name = some filesystem) :
    s.Answers driver (driver.surroundings vroot malloc unspecified) (terminated path ++ rest) path
        flags ↔
      (∃ file, filePart path = some file ∧ HasFile driver (vroot filesystem) file) ∧
        (driver.lookup.vnode = true ∧ driver.lookup.inode = true) ∧ malloc = true := by
  have hfinds : s.Finds driver vroot path ↔ _ := finds_iff hname hmounted
  have hopen := openVnode_iff driver (vroot filesystem) (filePart path) flags
  rw [Answers, vfsOpen_component hwell hpath rest flags hname, hmounted]
  constructor
  · rintro ⟨r, hr, hmissing, hfound⟩
    cases malloc with
    | false => cases hr
    | true =>
      obtain rfl := Option.some.inj hr
      by_cases hfile : s.Finds driver vroot path
      · obtain ⟨file, hsame, hvnode, -⟩ := hfound hfile
        obtain rfl := Option.some.inj hsame
        obtain ⟨hf, hallocated⟩ := hopen.mp hvnode
        exact ⟨hf, hallocated, rfl⟩
      · cases hmissing hfile
  · rintro ⟨hf, hallocated, rfl⟩
    refine ⟨_, if_pos rfl, fun hnot => absurd (hfinds.mpr hf) hnot, fun _ => ?_⟩
    exact ⟨_, rfl, hopen.mpr ⟨hf, hallocated⟩, rfl⟩

end Cases

/-- **Answers.** Over every well-formed table and for every path, `vfs_open` answers as
it should exactly when the path has a component or there is no filesystem to compare it
with, and, if the component is the name of one, that has the file and every allocation
succeeds. -/
theorem vfsOpen_answers_iff (hwell : s.WellFormed) (hpath : 0 ∉ path) (driver : Fat12Driver)
    (vroot : Ptr → Ptr) (malloc : Bool) (unspecified : Nat → Option Ptr) (rest : List Byte)
    (flags : Nat) :
    s.Answers driver (driver.surroundings vroot malloc unspecified) (terminated path ++ rest) path
        flags ↔
      (component path = none → s.table = []) ∧
        ∀ name filesystem, component path = some name → s.mountedAt name = some filesystem →
          (∃ file, filePart path = some file ∧ HasFile driver (vroot filesystem) file) ∧
            (driver.lookup.vnode = true ∧ driver.lookup.inode = true) ∧ malloc = true := by
  cases hcomponent : component path with
  | none =>
    rw [answers_noComponent hwell hpath rest flags hcomponent]
    constructor
    · intro htable
      exact ⟨fun _ => htable, fun name _ hname => nomatch hname⟩
    · intro h
      exact h.1 rfl
  | some name =>
    cases hmounted : s.mountedAt name with
    | none =>
      refine iff_of_true (answers_unmounted hwell hpath rest flags hcomponent hmounted)
        ⟨fun hnone => (nomatch hnone), fun name' filesystem hname' hfilesystem => ?_⟩
      rw [← Option.some.inj hname', hmounted] at hfilesystem
      cases hfilesystem
    | some filesystem =>
      rw [answers_mounted hwell hpath rest flags hcomponent hmounted]
      constructor
      · intro h
        refine ⟨fun hnone => (nomatch hnone), fun name' filesystem' hname' hmounted' => ?_⟩
        obtain rfl : name = name' := Option.some.inj hname'
        obtain rfl : filesystem = filesystem' := Option.some.inj (hmounted.symm.trans hmounted')
        exact h
      · intro h
        exact h.2 name filesystem rfl hmounted

/-- A table with the filesystem `0x107` mounted as `a`, in the first of five slots. -/
def sampleTable : Vfs where
  mountpoints := ⟨20, fun i => some (if i = 0 then some 0x107 else none)⟩
  currSize := 5
  vcovered := Finmap.singleton 0x107 [0x61]

theorem sampleTable_wellFormed : sampleTable.WellFormed where
  room := by decide
  initialised i hi := Option.some_ne_none _
  covered := by
    intro filesystem hmem
    obtain rfl : filesystem = 0x107 := by
      have htable : sampleTable.table = [0x107] := by decide
      rw [htable] at hmem
      exact List.mem_singleton.mp hmem
    exact ⟨[0x61], Finmap.lookup_singleton_eq⟩

/-- Every volume has an empty root directory. -/
def sampleDriver : Fat12Driver where
  volume _ := mountedVolume (some (.holding 8 fun _ => List.replicate 512 0)) sampleBoot sampleFat
  lookup := ⟨List.replicate 512 0, true, true⟩
  vnode := 0x200
  readsBlocks _ := readsBlocks_holding fun _ => length_zeroBlock
  length_dirEntries := length_zeroBlock

/-- Every volume has a root directory of two sectors. -/
def crowdedDriver : Fat12Driver where
  volume _ := crowdedVolume
  lookup := ⟨List.replicate 512 0, true, true⟩
  vnode := 0x200
  readsBlocks _ := readsBlocks_holding length_crowdedBlocks
  length_dirEntries := length_zeroBlock

/-- The path `/a/A` opens what the second sector lists. -/
theorem vfsOpen_answers_iff_listed :
    let call := crowdedDriver.surroundings (· + 1) true fun _ => none
    sampleTable.Answers crowdedDriver call (terminated [0x2F, 0x61, 0x2F, 0x41])
        [0x2F, 0x61, 0x2F, 0x41] 0 ∧
      ∃ file, (sampleTable.vfsOpen call (terminated [0x2F, 0x61, 0x2F, 0x41]) 0).2 =
        some (some file) ∧ file.vnodePtr ≠ none := by
  intro call
  have hlisted : Listed (fat12NormalTo8_3 [0x41])
      (rootEntries crowdedVolume (List.replicate 512 0)) 16 :=
    (findListed_eq_some_iff.mp (by decide +kernel)).1
  have hfile : HasFile crowdedDriver 0x108 [0x41] := ⟨by decide, 16, hlisted⟩
  have hanswers : sampleTable.Answers crowdedDriver call (terminated [0x2F, 0x61, 0x2F, 0x41])
      [0x2F, 0x61, 0x2F, 0x41] 0 := by
    refine (@vfsOpen_answers_iff _ [0x2F, 0x61, 0x2F, 0x41] sampleTable_wellFormed
      (by decide) crowdedDriver (· + 1) true (fun _ => none) [] 0).mpr ⟨fun h => ?_, ?_⟩
    · exact absurd h (show ¬some [0x61] = none by simp)
    · intro name filesystem hname hmounted
      obtain rfl : [0x61] = name := Option.some.inj hname
      obtain rfl : 0x107 = filesystem := Option.some.inj hmounted
      exact ⟨⟨[0x41], rfl, hfile⟩, ⟨rfl, rfl⟩, rfl⟩
  refine ⟨hanswers, ?_⟩
  obtain ⟨r, hr, -, hfound⟩ := hanswers
  obtain ⟨file, rfl, hvnode, -⟩ := hfound ⟨[0x61], 0x107, [0x41], rfl, rfl, rfl, hfile⟩
  exact ⟨file, hr, hvnode⟩

/-- The path `/` has no token, and the comparison with the name of the filesystem has
nothing to compare. The path `/a/c` names a missing file, and there is a `file_t` for it. -/
theorem vfsOpen_unanswered :
    let call := sampleDriver.surroundings (· + 1) true fun _ => none
    (sampleTable.vfsOpen call (terminated [0x2F]) 0).2 = none ∧
      ¬sampleTable.Answers sampleDriver call (terminated [0x2F]) [0x2F] 0 ∧
      (sampleTable.vfsOpen call (terminated [0x2F, 0x61, 0x2F, 0x63]) 0).2 = some (some ⟨none, 0, 0⟩) ∧
      ¬sampleTable.Answers sampleDriver call (terminated [0x2F, 0x61, 0x2F, 0x63])
        [0x2F, 0x61, 0x2F, 0x63] 0 := by
  intro call
  have hnull : (sampleTable.vfsOpen call (terminated [0x2F]) 0).2 = none := by decide +kernel
  have hmissing : (sampleTable.vfsOpen call (terminated [0x2F, 0x61, 0x2F, 0x63]) 0).2 =
      some (some ⟨none, 0, 0⟩) := by decide +kernel
  refine ⟨hnull, ?_, hmissing, ?_⟩
  · rintro ⟨r, hr, -⟩
    rw [hnull] at hr
    cases hr
  · rintro ⟨r, hr, hnone, hsome⟩
    rw [hmissing] at hr
    obtain rfl := Option.some.inj hr
    by_cases hfinds : sampleTable.Finds sampleDriver call.vroot [0x2F, 0x61, 0x2F, 0x63]
    · obtain ⟨file, hfile, hvnode, -⟩ := hsome hfinds
      exact hvnode (Option.some.inj hfile ▸ rfl)
    · cases hnone hfinds

end Vfs

end Leenix
