import Leenix.Lib.ForLoop
import Leenix.Machine

/-!
# The dump commands (init/shell.c, user/shall.c)

`mdmp` prints rows of sixteen bytes, in hexadecimal and as text; both shells have the
same loop. `ptwalk` prints a line for each page of a range. The counters are 32-bit
values that go up to a bound which any 32-bit value may be.

- `dumpRow_visits`: what a row shows, whatever the count.
- `dumps_iff`: `mdmp` ends exactly when the count is at most `2 ^ 32 - 16`, `ptwalk`
  exactly when `vend` is below the last address that is a whole number of pages from
  `vstart`; then they have visited what they should.
-/

namespace Leenix

/-- One row of `mdmp`: the address in front, the cells of the hex column with the byte
that each shows, and the characters of the text column with the address of each. -/
structure DumpRow where
  address : UInt32
  hex : List (Option (UInt32 × Byte))
  text : List (UInt32 × Byte)
deriving DecidableEq

/-- `(c >= 32 && c <= 126) ? c : '.'` for a `char` with the given bits. -/
def textChar (c : Byte) : Byte := if 32 ≤ c ∧ c ≤ 126 then c else 0x2E

/-- The body of the loop of `mdmp` (shell.c:79–91, shall.c:59–71). -/
def dumpRow (mem : UInt32 → Byte) (addr count i : UInt32) : DumpRow where
  address := addr + i
  hex := (List.range 16).map fun j =>
    if i + UInt32.ofNat j < count then
      some (addr + (i + UInt32.ofNat j), mem (addr + (i + UInt32.ofNat j)))
    else none
  text := ((List.range 16).takeWhile fun j => i + UInt32.ofNat j < count).map fun j =>
    (addr + (i + UInt32.ofNat j), textChar (mem (addr + (i + UInt32.ofNat j))))

/-- The loop of `mdmp` (shell.c:78–92, shall.c:58–72). -/
def mdmp (mem : UInt32 → Byte) (addr count : UInt32) (fuel : Nat) : Option (List DumpRow) :=
  forLoop (· < count) (· + 16) (dumpRow mem addr count) fuel 0

/-- One line of `ptwalk`. -/
inductive PtwalkLine
  | pdeNotPresent (addr : UInt32)
  | entry (addr frame : UInt32) (present rw user : Bool)
deriving DecidableEq

/-- The page directory, and the page tables by their physical addresses. -/
structure PageTables where
  pdbr : UInt32 → UInt32
  ptable : UInt32 → UInt32 → UInt32

/-- The body of the loop of `ptwalk` (shell.c:105–124). -/
def ptwalkLine (pages : PageTables) (addr : UInt32) : PtwalkLine :=
  let pdi := (addr >>> 22) &&& 0x3FF
  let pti := (addr >>> 12) &&& 0x3FF
  let pde := pages.pdbr pdi
  if pde &&& 0x001 = 0 then .pdeNotPresent addr
  else
    let pte := pages.ptable (pde &&& 0xFFFFF000) pti
    .entry addr (pte &&& 0xFFFFF000) (pte &&& 1 ≠ 0) (pte &&& 2 ≠ 0) (pte &&& 4 ≠ 0)

/-- The loop of `ptwalk` (shell.c:104–125). -/
def ptwalk (pages : PageTables) (vstart vend : UInt32) (fuel : Nat) : Option (List PtwalkLine) :=
  forLoop (· ≤ vend) (· + 0x1000) (ptwalkLine pages) fuel vstart

/-- The address that a line is about. -/
def PtwalkLine.addr : PtwalkLine → UInt32
  | .pdeNotPresent addr => addr
  | .entry addr _ _ _ _ => addr

/-- `mdmp` ends, and each column has shown the bytes from `addr` on, `count` of them, each
once. -/
def MdmpCovers (addr count : UInt32) : Prop :=
  ∀ mem, ∃ fuel rows, mdmp mem addr count fuel = some rows ∧
    (rows.flatMap fun row => row.hex.filterMap id) =
      (List.range count.toNat).map (fun k => (addr + UInt32.ofNat k, mem (addr + UInt32.ofNat k))) ∧
    (rows.flatMap fun row => row.text) =
      (List.range count.toNat).map
        (fun k => (addr + UInt32.ofNat k, textChar (mem (addr + UInt32.ofNat k))))

/-- `ptwalk` ends, and its lines are about the addresses `vstart`, `vstart + 0x1000`, …
up to `vend`. -/
def PtwalkCovers (vstart vend : UInt32) : Prop :=
  ∀ pages, ∃ fuel lines n, ptwalk pages vstart vend fuel = some lines ∧
    (lines.map fun line => line.addr.toNat) = (List.range n).map (vstart.toNat + 0x1000 * ·) ∧
    ∀ k, k < n ↔ vstart.toNat + 0x1000 * k ≤ vend.toNat

variable {mem : UInt32 → Byte} {addr count vstart vend : UInt32} {pages : PageTables} {n : Nat}

/-! ## The rows of a dump -/

theorem range_eq_append (m k : Nat) :
    List.range m = List.range (min k m) ++ (List.range (m - k)).map (k + ·) := by
  rcases Nat.le_total m k with h | h
  · simp [Nat.min_eq_right h, Nat.sub_eq_zero_of_le h]
  · rw [Nat.min_eq_left h, ← List.range_add, Nat.add_sub_cancel' h]

/-- The indices below a bound, by a filter. -/
theorem filter_range (m k : Nat) : (List.range m).filter (· < k) = List.range (min k m) := by
  rw [range_eq_append m k, List.filter_append, List.filter_eq_self.mpr, List.filter_eq_nil_iff.mpr,
    List.append_nil]
  · intro j hj
    obtain ⟨d, -, rfl⟩ := List.mem_map.mp hj
    simp
  · intro j hj
    have hlt := List.mem_range.mp hj
    simp only [decide_eq_true_eq]
    omega

/-- The indices below a bound, by a loop that stops. -/
theorem takeWhile_range (m k : Nat) : (List.range m).takeWhile (· < k) = List.range (min k m) := by
  have hall : ∀ j ∈ List.range (min k m), decide (j < k) = true := by
    intro j hj
    have hlt := List.mem_range.mp hj
    simp only [decide_eq_true_eq]
    omega
  rw [range_eq_append m k, List.takeWhile_append_of_pos hall]
  cases m - k with
  | zero => simp
  | succ d => simp [List.range_succ_eq_map]

/-- A scan depends on its test on the elements of the list only. -/
theorem takeWhile_congr {α : Type*} {p q : α → Bool} {l : List α} (h : ∀ a ∈ l, p a = q a) :
    l.takeWhile p = l.takeWhile q := by
  induction l with
  | nil => rfl
  | cons a l ih =>
    have hrest := ih fun b hb => h b (List.mem_cons_of_mem a hb)
    rw [List.takeWhile_cons, List.takeWhile_cons, h a List.mem_cons_self, hrest]

theorem filterMap_guard {α β : Type*} (l : List α) (p : α → Bool) (f : α → β) :
    (l.filterMap fun a => if p a then some (f a) else none) = (l.filter p).map f := by
  induction l with
  | nil => rfl
  | cons a l ih =>
    cases hp : p a with
    | false => simp [hp, ih]
    | true => simp [hp, ih]

/-- Rows of sixteen, cut at the end, one behind the other. -/
theorem flatMap_rows {β : Type*} (f : Nat → β) (c n : Nat) :
    ((List.range n).flatMap fun k =>
      (List.range (min (c - 16 * k) 16)).map fun j => f (16 * k + j)) =
      (List.range (min c (16 * n))).map f := by
  induction n with
  | zero => simp
  | succ n ih =>
    have hblock : min c (16 * (n + 1)) = min c (16 * n) + min (c - 16 * n) 16 := by omega
    rw [List.range_succ, List.flatMap_append, ih, hblock, List.range_add, List.map_append,
      List.flatMap_singleton, List.map_map]
    congr 1
    rcases Nat.le_total c (16 * n) with h | h
    · simp [Nat.sub_eq_zero_of_le h]
    · rw [Nat.min_eq_right h]
      rfl

/-- The test of both columns in the row from `16 * k` on. -/
theorem cell_lt_iff {k j : Nat} (count : UInt32) (hk : 16 * k + 16 ≤ 2 ^ 32) (hj : j < 16) :
    UInt32.ofNat (16 * k) + UInt32.ofNat j < count ↔ j < count.toNat - 16 * k := by
  rw [← UInt32.ofNat_add, UInt32.lt_iff_toNat_lt, UInt32.toNat_ofNat', Nat.mod_eq_of_lt (by omega)]
  omega

/-- **A row** shows its bytes as far as the count goes, in both columns. -/
theorem dumpRow_visits {k : Nat} (hk : 16 * k + 16 ≤ 2 ^ 32) :
    (dumpRow mem addr count (UInt32.ofNat (16 * k))).hex.filterMap id =
        (List.range (min (count.toNat - 16 * k) 16)).map (fun j =>
          (addr + UInt32.ofNat (16 * k + j), mem (addr + UInt32.ofNat (16 * k + j)))) ∧
      (dumpRow mem addr count (UInt32.ofNat (16 * k))).text =
        (List.range (min (count.toNat - 16 * k) 16)).map (fun j =>
          (addr + UInt32.ofNat (16 * k + j), textChar (mem (addr + UInt32.ofNat (16 * k + j))))) := by
  constructor
  · rw [← filter_range, ← filterMap_guard, dumpRow, List.filterMap_map]
    refine List.filterMap_congr fun j hj => ?_
    have hlt := cell_lt_iff count hk (List.mem_range.mp hj)
    simp only [Function.comp_apply, id_eq, hlt, UInt32.ofNat_add, decide_eq_true_eq]
  · have htest : (List.range 16).takeWhile (fun j => decide (UInt32.ofNat (16 * k) +
        UInt32.ofNat j < count)) = (List.range 16).takeWhile (· < count.toNat - 16 * k) :=
      takeWhile_congr fun j hj => by
        rw [decide_eq_decide]
        exact cell_lt_iff count hk (List.mem_range.mp hj)
    simp only [dumpRow, htest, takeWhile_range, UInt32.ofNat_add]

/-! ## The loops -/

/-- The counter of `mdmp`. -/
theorem iterate_sixteen (k : Nat) : (· + 16)^[k] (0 : UInt32) = UInt32.ofNat (16 * k) := by
  apply UInt32.toNat_inj.mp
  rw [toNat_iterate_add, UInt32.toNat_ofNat', UInt32.toNat_zero, Nat.zero_add]
  rfl

/-- **`mdmp` ends** if the counter can step over the count. -/
theorem mdmpCovers_of_le (hcount : count.toNat ≤ 2 ^ 32 - 16) : MdmpCovers addr count := by
  intro mem
  obtain ⟨n, hn⟩ : ∃ n, n = (count.toNat + 15) / 16 := ⟨_, rfl⟩
  have hcounter : ∀ k, k ≤ n → ((· + 16)^[k] (0 : UInt32)).toNat = 16 * k := by
    intro k hk
    rw [iterate_sixteen, UInt32.toNat_ofNat', Nat.mod_eq_of_lt (by omega)]
  have hends : forLoop (· < count) (· + 16) (dumpRow mem addr count) (n + 1) 0 = _ :=
    forLoop_of_stops (n := n)
      (fun k hk => by
        rw [decide_eq_true_eq, UInt32.lt_iff_toNat_lt, hcounter k hk.le]
        omega)
      (by
        rw [decide_eq_false_iff_not, UInt32.lt_iff_toNat_lt, hcounter n (Nat.le_refl n)]
        omega)
      (Nat.lt_succ_self n)
  simp only [iterate_sixteen] at hends
  have hall : min count.toNat (16 * n) = count.toNat := by omega
  refine ⟨n + 1, _, hends, ?_, ?_⟩
  · rw [List.flatMap_map, ← hall, ← flatMap_rows]
    refine List.flatMap_congr fun k hk => ?_
    have hlt := List.mem_range.mp hk
    exact (dumpRow_visits (by omega)).1
  · rw [List.flatMap_map, ← hall, ← flatMap_rows]
    refine List.flatMap_congr fun k hk => ?_
    have hlt := List.mem_range.mp hk
    exact (dumpRow_visits (by omega)).2

/-- **`mdmp` does not end** if the count is above every value of the counter. -/
theorem mdmp_never (hcount : 2 ^ 32 - 16 < count.toNat) (fuel : Nat) :
    mdmp mem addr count fuel = none := by
  refine forLoop_of_never (fun k => ?_) fuel
  rw [decide_eq_true_eq, UInt32.lt_iff_toNat_lt, iterate_sixteen, UInt32.toNat_ofNat']
  omega

/-- **`ptwalk` ends** if an address that the counter takes lies above `vend`. -/
theorem ptwalkCovers_of_lt (hend : vend.toNat < 2 ^ 32 - 0x1000 + vstart.toNat % 0x1000) :
    PtwalkCovers vstart vend := by
  intro pages
  obtain ⟨n, hn⟩ : ∃ n, n = (vend.toNat + 0x1000 - vstart.toNat) / 0x1000 := ⟨_, rfl⟩
  have hvend : vend.toNat < 2 ^ 32 := vend.toNat_lt
  have hvstart : vstart.toNat < 2 ^ 32 := vstart.toNat_lt
  have hbelow : ∀ k, k < n ↔ vstart.toNat + 0x1000 * k ≤ vend.toNat := by
    intro k
    omega
  have hcounter : ∀ k, k ≤ n → ((· + 0x1000)^[k] vstart).toNat = vstart.toNat + 0x1000 * k := by
    intro k hk
    rw [toNat_iterate_add]
    refine Nat.mod_eq_of_lt ?_
    show vstart.toNat + 0x1000 * k < 2 ^ 32
    omega
  have hends : forLoop (· ≤ vend) (· + 0x1000) (ptwalkLine pages) (n + 1) vstart = _ :=
    forLoop_of_stops (n := n)
      (fun k hk => by
        rw [decide_eq_true_eq, UInt32.le_iff_toNat_le, hcounter k hk.le]
        exact (hbelow k).mp hk)
      (by
        rw [decide_eq_false_iff_not, UInt32.le_iff_toNat_le, hcounter n (Nat.le_refl n), ← hbelow]
        exact Nat.lt_irrefl n)
      (Nat.lt_succ_self n)
  refine ⟨n + 1, _, n, hends, ?_, hbelow⟩
  rw [List.map_map]
  refine List.map_congr_left fun k hk => ?_
  have hline : ∀ addr, (ptwalkLine pages addr).addr = addr := by
    intro addr
    unfold ptwalkLine
    dsimp only
    split <;> rfl
  rw [Function.comp_apply, hline, hcounter k (List.mem_range.mp hk).le]

/-- **`ptwalk` does not end** if no address that the counter takes lies above `vend`. -/
theorem ptwalk_never (hend : 2 ^ 32 - 0x1000 + vstart.toNat % 0x1000 ≤ vend.toNat) (fuel : Nat) :
    ptwalk pages vstart vend fuel = none := by
  refine forLoop_of_never (fun k => ?_) fuel
  have hcounter : ((· + 0x1000)^[k] vstart).toNat = (vstart.toNat + 0x1000 * k) % 2 ^ 32 :=
    toNat_iterate_add 0x1000 vstart k
  rw [decide_eq_true_eq, UInt32.le_iff_toNat_le, hcounter]
  omega

/-- **Dumps.** `mdmp` ends and covers its range exactly when the count is no more than the
largest multiple of sixteen, `ptwalk` exactly when `vend` lies below the last address that
is a whole number of pages from `vstart`. -/
theorem dumps_iff (addr count vstart vend : UInt32) :
    (MdmpCovers addr count ↔ count.toNat ≤ 2 ^ 32 - 16) ∧
      (PtwalkCovers vstart vend ↔
        vend.toNat < 2 ^ 32 - 0x1000 + vstart.toNat % 0x1000) := by
  refine ⟨⟨fun h => ?_, mdmpCovers_of_le⟩, ⟨fun h => ?_, ptwalkCovers_of_lt⟩⟩
  · by_contra hcount
    obtain ⟨fuel, rows, hrows, -⟩ := h fun _ => 0
    rw [mdmp_never (by omega)] at hrows
    cases hrows
  · by_contra hend
    obtain ⟨fuel, lines, n, hlines, -⟩ := h ⟨fun _ => 0, fun _ _ => 0⟩
    rw [ptwalk_never (by omega)] at hlines
    cases hlines

/-- A count of `-1`, and a walk up to the last address. -/
theorem not_dumps_to_end : ¬MdmpCovers 0 0xFFFFFFFF ∧ ¬PtwalkCovers 0 0xFFFFFFFF := by
  constructor
  · intro h
    obtain ⟨fuel, rows, hrows, -⟩ := h fun _ => 0
    rw [mdmp_never (by decide)] at hrows
    cases hrows
  · intro h
    obtain ⟨fuel, lines, n, hlines, -⟩ := h ⟨fun _ => 0, fun _ _ => 0⟩
    rw [ptwalk_never (by decide)] at hlines
    cases hlines

end Leenix
