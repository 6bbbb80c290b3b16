import Leenix.Fs.Open

/-!
# The path that `vfs_open` is given

`vfs_open` takes a `const char*` and hands it to `strtok_r`, which ends the first
token in place. The caller's path is therefore cut at the first `'/'` behind the
mount point's name, and a second call with the same buffer opens another path.

`vfsOpen_keepsPath_iff`: the buffer stays as it was, for every mount table, exactly
when there is no such `'/'`, that is, when the path names no file.
-/

namespace Leenix

namespace Vfs

/-- `vfs_open` with the path buffer it leaves. The token and the rest of the path
are pointers into that buffer; `strcmp` and `fat12_open` only read them. -/
def vfsOpenPath (s : Vfs) (call : Open) (path : List Byte) (flags : Nat) :
    Option (List Byte × List OpenCall × Option (Option OpenFile)) :=
  (strtokR path (some 0) [slash] none).map fun r => (r.2.1, s.vfsOpen call path flags)

/-- The call leaves every byte of the path as it was, and a second call with the
same buffer makes the same calls of `open` and has the same result. -/
def KeepsPath (s : Vfs) (call : Open) (path : List Byte) (flags : Nat) : Prop :=
  ∃ path' opened, s.vfsOpenPath call path flags = some (path', opened) ∧ path' = path ∧
    s.vfsOpen call path' flags = opened

/-- What follows the slashes at the start of the path in a buffer: the name of the
mount point, and the rest of the path behind it. -/
def pathNames (path : List Byte) : List Byte := (cstr path).dropWhile (· = slash)

variable {s : Vfs} {call : Open} {path : List Byte} {flags : Nat}

/-- **Paths.** On a buffer that holds a terminated path, `vfs_open` leaves every byte
of it, so that a second call opens the same, exactly when the path has no `'/'`
behind its first name. -/
theorem vfsOpen_keepsPath_iff (s : Vfs) (call : Open) (flags : Nat) (hpath : 0 ∈ path) :
    s.KeepsPath call path flags ↔ slash ∉ pathNames path := by
  obtain ⟨rest, hrest⟩ := exists_cstr_append hpath
  have hkeeps := strtokR_keeps_iff (show slash ≠ 0 by decide) (zero_notMem_cstr path) rest none
  rw [← hrest] at hkeeps
  rw [pathNames, ← hkeeps]
  constructor
  · rintro ⟨path', opened, hopen, rfl, -⟩
    obtain ⟨r, hr, hsame⟩ := Option.map_eq_some_iff.mp hopen
    rw [hr, Option.map_some, (Prod.mk.inj hsame).1]
  · intro hbuf
    obtain ⟨r, hr, hsame⟩ := Option.map_eq_some_iff.mp hbuf
    refine ⟨path, s.vfsOpen call path flags, ?_, rfl, rfl⟩
    rw [vfsOpenPath, hr, Option.map_some, hsame]

/-- A path that is only the name of a mount point. -/
theorem vfsOpen_keepsPath_iff_name :
    vfsInit.KeepsPath openSample (slash :: terminated [0x61]) 0 :=
  (vfsOpen_keepsPath_iff vfsInit openSample 0 (by decide)).mpr (by decide)

/-- Surroundings in which the root directory has one file, `b`. Like `fat12_open`, its
`open` fails when it is given no path. -/
def openB : Open :=
  { openSample with result := fun call => if call.path = some [0x62] then some 9 else none }

/-- With a filesystem mounted at `a`, the first call with `/a/b` finds the file. It
leaves `/a` in the buffer, and the second call finds no vnode. -/
theorem second_open_fails :
    let s := ((vfsInit.vfsMount (mountNamed 0x107 [0x61])).map Prod.snd).getD vfsInit
    let path := pathBuffer [0x61] [0x62]
    s.vfsOpenPath openB path 0 = some (slash :: 0x61 :: 0 :: terminated [0x62],
      [⟨0x108, some [0x62], 0⟩], some (some ⟨some 9, 0, 0⟩)) ∧
    (s.vfsOpen openB (slash :: 0x61 :: 0 :: terminated [0x62]) 0).2 = some (some ⟨none, 0, 0⟩) ∧
    ¬s.KeepsPath openB path 0 := by
  refine ⟨by decide, by decide, ?_⟩
  rintro ⟨path', opened, hopen, rfl, -⟩
  have hbuf := congrArg (Option.map Prod.fst) hopen
  exact absurd hbuf (show ¬_ = some (pathBuffer [0x61] [0x62]) by decide)

end Vfs

end Leenix
