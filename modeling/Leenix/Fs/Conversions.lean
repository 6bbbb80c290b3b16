import Leenix.Fs.Names
import Leenix.Lib.Buffer

/-!
# The conversions in memory (fs/fat12.c)

The two conversions of 8.3 names, loop by loop, with the reads from the argument and the
stores into the buffer of the caller. A read or a store outside of these has no value.

- `OnMemory.fat12NormalTo8_3_eq`, `OnMemory.fat12_8_3toNormal_eq`: they store the bytes
  that `Leenix.fat12NormalTo8_3` and `Leenix.fat12_8_3toNormal` describe, at the start of
  the buffer, and nothing else.
- `OnMemory.conversions_roundTrip`: on plain names and padded fields they are inverse to
  each other; what they write.
-/

namespace Leenix

namespace OnMemory

/-- `_fat12_8_3to_normal` (fat12.c:84–105): the buffer `output` after. -/
def fat12_8_3toNormal (fatName output : List Byte) : Option (List Byte) := do
  let (_, j, output) ← copyWhile (· ≠ spaceByte) fatName 8 0 0 output
  let c ← fatName[8]?
  if c ≠ spaceByte then
    let output ← put output j dotByte
    let (_, j, output) ← copyWhile (· ≠ spaceByte) fatName 3 8 (j + 1) output
    put output j 0
  else put output j 0

/-- `_fat12_normal_to_8_3` (fat12.c:107–129): the buffer `fatName` after. -/
def fat12NormalTo8_3 (name fatName : List Byte) : Option (List Byte) := do
  let fatName ← putAll fatName 0 (List.replicate 11 spaceByte)
  let (j, _, fatName) ← copyWhile (fun c => c ≠ dotByte ∧ c ≠ 0) name 8 0 0 fatName
  let c ← name[j]?
  let j := if c = dotByte then j + 1 else j
  let (_, _, fatName) ← copyWhile (· ≠ 0) name 3 j 8 fatName
  return fatName

end OnMemory

variable {s name base ext fatName output rest : List Byte} {n : Nat}

/-- Stores at the start of a buffer that has room for them. -/
theorem putAll_zero (h : s.length ≤ output.length) : putAll output 0 s = some (overlay output s) := by
  rw [putAll_eq (by omega), List.take_zero, List.nil_append, Nat.zero_add]
  rfl

/-- A string in memory, read up to a bound. -/
theorem takeWhile_take_terminated (hs : 0 ∉ s) (rest : List Byte) :
    ((terminated s ++ rest).take n).takeWhile (· ≠ 0) = s.take n := by
  have hmem : terminated s ++ rest = s ++ 0 :: rest := by simp [terminated]
  rw [hmem, List.take_append]
  refine takeWhile_ne (fun h => hs (List.mem_of_mem_take h)) ?_
  cases n - s.length with
  | zero => exact .inl rfl
  | succ k => exact .inr rfl

/-- A copy loop that a zero stops, over a string in memory. -/
theorem copyWhile_terminated {p q : Byte → Bool} {mem : List Byte} {i j : Nat} (dst : List Byte)
    (hp : ∀ c, p c = true ↔ q c = true ∧ c ≠ 0) (hs : 0 ∉ s) (hmem : mem.drop i = terminated s ++ rest) :
    copyWhile p mem n i j dst =
      (putAll dst j ((s.take n).takeWhile q)).map fun dst =>
        (i + ((s.take n).takeWhile q).length, j + ((s.take n).takeWhile q).length, dst) := by
  obtain rfl : (fun c => decide (q c = true ∧ c ≠ 0)) = p := by
    funext c
    simp only [← hp, Bool.decide_eq_true]
  have hstop : ∃ c ∈ mem.drop i, decide (q c ∧ c ≠ 0) = false :=
    ⟨0, by simp [hmem, terminated], by simp⟩
  have hread : ((mem.drop i).take n).takeWhile (fun c => decide (q c ∧ c ≠ 0)) =
      (s.take n).takeWhile q := by
    rw [hmem, ← takeWhile_take_terminated hs rest, List.takeWhile_takeWhile]
    simp
  rw [copyWhile_eq dst (.inr hstop), hread]

/-! ## What is stored -/

theorem length_terminated_fat12_8_3toNormal (fatName : List Byte) :
    (terminated (fat12_8_3toNormal fatName)).length ≤ 13 := by
  have hbase : ((fatName.take 8).takeWhile (· ≠ spaceByte)).length ≤ 8 :=
    Nat.le_trans (List.takeWhile_prefix _).length_le (List.length_take_le 8 fatName)
  have hext : (((fatName.drop 8).take 3).takeWhile (· ≠ spaceByte)).length ≤ 3 :=
    Nat.le_trans (List.takeWhile_prefix _).length_le (List.length_take_le 3 _)
  simp only [fat12_8_3toNormal, terminated, List.length_append, List.length_singleton]
  split
  · omega
  · simp only [List.length_append, List.length_cons]
    omega

/-- A field is read up to its end. -/
theorem fat12_8_3toNormal_append {field : List Byte} (h : field.length = 11) (rest : List Byte) :
    fat12_8_3toNormal (field ++ rest) = fat12_8_3toNormal field := by
  have hbase : (field ++ rest).take 8 = field.take 8 := List.take_append_of_le_length (by omega)
  have hext : ((field ++ rest).drop 8).take 3 = (field.drop 8).take 3 := by
    rw [List.drop_append_of_le_length (by omega), List.take_append_of_le_length]
    rw [List.length_drop]
    omega
  have hfirst : (field ++ rest)[8]? = field[8]? := List.getElem?_append_left (by omega)
  simp only [fat12_8_3toNormal, hbase, hext, hfirst]

theorem PlainParts.zero_notMem_spelled (h : PlainParts base ext) : 0 ∉ spelled base ext := by
  have hplain : ∀ c ∈ base ++ ext, c ≠ 0 := fun c hc => (h.plain c hc).2.2
  intro hzero
  unfold spelled at hzero
  split at hzero
  · exact hplain 0 (List.mem_append_left _ hzero) rfl
  · rcases List.mem_append.mp hzero with hbase | hext
    · exact hplain 0 (List.mem_append_left _ hbase) rfl
    · rcases List.mem_cons.mp hext with hdot | hext
      · cases hdot
      · exact hplain 0 (List.mem_append_right _ hext) rfl

namespace OnMemory

/-- **From 8.3.** Of a field of eleven bytes or more, the string it holds is stored. -/
theorem fat12_8_3toNormal_eq (hfat : 11 ≤ fatName.length) (output : List Byte) :
    fat12_8_3toNormal fatName output =
      putAll output 0 (terminated (Leenix.fat12_8_3toNormal fatName)) := by
  have hbase : copyWhile (· ≠ spaceByte) fatName 8 0 0 output = _ :=
    copyWhile_eq output (.inl (by omega))
  have hext : ∀ j dst, copyWhile (· ≠ spaceByte) fatName 3 8 j dst = _ := fun j dst =>
    copyWhile_eq dst (.inl hfat)
  have hfirst : fatName[8]? = some fatName[8] := List.getElem?_eq_getElem (by omega)
  rw [List.drop_zero] at hbase
  simp only [fat12_8_3toNormal, hbase, hfirst, hext, Option.bind_eq_bind, Option.bind_some,
    Nat.zero_add, Option.bind_map, Function.comp_def, Leenix.fat12_8_3toNormal, Option.some.injEq,
    terminated]
  by_cases hspace : fatName[8] = spaceByte
  · simp only [hspace, ne_eq, not_true_eq_false, if_false, if_true, putAll_append, putAll,
      Nat.zero_add, Option.bind_fun_some]
  · simp only [hspace, ne_eq, not_false_eq_true, if_false, if_true, putAll_append, putAll,
      Nat.zero_add, Option.bind_fun_some, Option.bind_assoc, List.length_append, List.length_cons]
    simp only [Nat.add_assoc, Nat.add_comm 1]

/-- The eleven spaces, with the base over the first eight and the extension over the
last three. -/
theorem putAll_fields (hbase : base.length ≤ 8) (hext : ext.length ≤ 3) (hfat : 11 ≤ fatName.length) :
    ((putAll fatName 0 (List.replicate 11 spaceByte)).bind fun fatName =>
      (putAll fatName 0 base).bind fun fatName => putAll fatName 8 ext) =
      some (overlay fatName (padded 8 base ++ padded 3 ext)) := by
  have hspaces : List.replicate 11 spaceByte = List.replicate base.length spaceByte ++
      (List.replicate (8 - base.length) spaceByte ++
        (List.replicate ext.length spaceByte ++ List.replicate (3 - ext.length) spaceByte)) := by
    simp only [List.replicate_append_replicate]
    congr 1
    omega
  have hlen : (padded 8 base ++ padded 3 ext).length = 11 := by
    rw [List.length_append, length_padded hbase, length_padded hext]
  have hover : ∀ part : List Byte, (List.replicate part.length spaceByte).length = part.length :=
    fun part => List.length_replicate
  have hfirst := putAll_over [] (List.replicate (8 - base.length) spaceByte ++
    (List.replicate ext.length spaceByte ++
      (List.replicate (3 - ext.length) spaceByte ++ fatName.drop 11))) (hover base)
  have hsecond := putAll_over (padded 8 base)
    (List.replicate (3 - ext.length) spaceByte ++ fatName.drop 11) (hover ext)
  rw [length_padded hbase] at hsecond
  simp only [List.nil_append, List.length_nil] at hfirst
  rw [putAll_zero (by simpa using hfat), Option.bind_some, overlay, List.length_replicate, hspaces]
  simp only [List.append_assoc]
  rw [hfirst, Option.bind_some]
  simp only [padded, List.append_assoc] at hsecond
  rw [hsecond, overlay, hlen]
  simp only [padded, List.append_assoc]

/-- **To 8.3.** Of a string, the eleven bytes of its name are stored. -/
theorem fat12NormalTo8_3_eq (hname : 0 ∉ name) (rest : List Byte) (hfat : 11 ≤ fatName.length) :
    fat12NormalTo8_3 (terminated name ++ rest) fatName =
      some (overlay fatName (Leenix.fat12NormalTo8_3 name)) := by
  obtain ⟨base, hbase⟩ : ∃ base, base = (name.take 8).takeWhile (· ≠ dotByte) := ⟨_, rfl⟩
  have hle : base.length ≤ 8 := by
    rw [hbase]
    exact Nat.le_trans (List.takeWhile_prefix _).length_le (List.length_take_le 8 name)
  obtain ⟨tail, rfl⟩ : ∃ tail, name = base ++ tail := by
    obtain ⟨t, ht⟩ := List.takeWhile_prefix (· ≠ dotByte) (l := name.take 8)
    exact ⟨t ++ name.drop 8, by rw [hbase, ← List.append_assoc, ht, List.take_append_drop]⟩
  have hmem : terminated (base ++ tail) ++ rest = base ++ (terminated tail ++ rest) := by
    simp [terminated]
  have hdrop : (base ++ (terminated tail ++ rest)).drop base.length = terminated tail ++ rest :=
    List.drop_left
  -- the base ends at the bound, at a dot or at the end of the string
  have hcopyBase := fun dst => copyWhile_terminated (p := fun c => c ≠ dotByte ∧ c ≠ 0)
    (q := (· ≠ dotByte)) (n := 8) (j := 0) dst (by simp) hname
    (List.drop_zero (l := terminated (base ++ tail) ++ rest))
  have hread : (base ++ (terminated tail ++ rest))[base.length]? = some (tail.head?.getD 0) := by
    rw [List.getElem?_append_right (Nat.le_refl _), Nat.sub_self]
    cases tail <;> rfl
  have hdot : tail.head?.getD 0 = dotByte ↔ tail.head? = some dotByte := by
    cases tail with
    | nil => decide
    | cons d tail => simp
  have hzero : 0 ∉ tail := fun h => hname (List.mem_append_right _ h)
  -- and the extension starts behind a dot, if there is one
  obtain ⟨ext, hext⟩ : ∃ ext, ext = if tail.head? = some dotByte then tail.tail else tail := ⟨_, rfl⟩
  have hext0 : 0 ∉ ext := by
    rw [hext]
    split
    · exact fun h => hzero (List.mem_of_mem_tail h)
    · exact hzero
  have hbehind : (base ++ (terminated tail ++ rest)).drop
      (if tail.head? = some dotByte then base.length + 1 else base.length) = terminated ext ++ rest := by
    rw [hext]
    split
    case isTrue hhead =>
      obtain ⟨ext, rfl⟩ := List.head?_eq_some_iff.mp hhead
      rw [← List.drop_drop, hdrop]
      rfl
    case isFalse => exact hdrop
  have hcopyExt := fun dst => copyWhile_terminated (p := (· ≠ 0)) (q := fun _ => true) (n := 3)
    (j := 8) dst (by simp) hext0 hbehind
  have hall : (ext.take 3).takeWhile (fun _ => true) = ext.take 3 :=
    List.takeWhile_eq_self_iff.mpr fun _ _ => rfl
  simp only [hall] at hcopyExt
  simp only [← hbase, hmem] at hcopyBase
  have hfields := putAll_fields hle (List.length_take_le 3 ext) hfat
  simp only [fat12NormalTo8_3, hmem, hcopyBase, Nat.zero_add, Option.bind_eq_bind, Option.bind_map,
    Function.comp_def, hread, Option.bind_some, hdot, hcopyExt, Leenix.fat12NormalTo8_3, ← hbase,
    List.drop_left, ← hext, Option.pure_def, Option.bind_fun_some]
  exact hfields

/-- The string of a field fits into thirteen bytes. -/
theorem fat12_8_3toNormal_stores {field : List Byte} (hlen : 11 ≤ field.length)
    (hout : 13 ≤ output.length) : fat12_8_3toNormal field output =
      some (overlay output (terminated (Leenix.fat12_8_3toNormal field))) := by
  have hshort := length_terminated_fat12_8_3toNormal field
  rw [fat12_8_3toNormal_eq hlen, putAll_zero (by omega)]

/-- **Round trips.** For the name and the field with the given base and extension: the name
is converted to the field and back, the field to the name and back. Whatever is converted,
exactly the first eleven bytes are written, or at most the first thirteen. -/
theorem conversions_roundTrip (h : PlainParts base ext) (hfat : 11 ≤ fatName.length)
    (hout : 13 ≤ output.length) (rest : List Byte) :
    (fat12NormalTo8_3 (terminated (spelled base ext) ++ rest) fatName).bind
          (fat12_8_3toNormal · output) =
        some (overlay output (terminated (spelled base ext))) ∧
      (fat12_8_3toNormal (padded 8 base ++ padded 3 ext ++ rest) output).bind
          (fat12NormalTo8_3 · fatName) =
        some (overlay fatName (padded 8 base ++ padded 3 ext)) ∧
      (∀ name, 0 ∉ name → ∃ bytes, bytes.length = 11 ∧ ∀ fatName, 11 ≤ fatName.length →
        fat12NormalTo8_3 (terminated name ++ rest) fatName = some (overlay fatName bytes)) ∧
      ∀ field, 11 ≤ field.length → ∃ bytes, bytes.length ≤ 13 ∧ ∀ output, 13 ≤ output.length →
        fat12_8_3toNormal field output = some (overlay output bytes) := by
  have hfield : (padded 8 base ++ padded 3 ext).length = 11 := by
    rw [List.length_append, length_padded h.base_le, length_padded h.ext_le]
  have hprinted : ∀ rest, Leenix.fat12_8_3toNormal (padded 8 base ++ padded 3 ext ++ rest) =
      spelled base ext := by
    intro rest
    rw [fat12_8_3toNormal_append hfield, fat12_8_3toNormal_padded h]
  refine ⟨?_, ?_, fun name hname => ?_, fun field hlen => ?_⟩
  · rw [fat12NormalTo8_3_eq h.zero_notMem_spelled rest hfat, Option.bind_some,
      fat12NormalTo8_3_spelled h, overlay, fat12_8_3toNormal_stores _ hout, hprinted]
    rw [List.length_append]
    omega
  · rw [fat12_8_3toNormal_stores _ hout, Option.bind_some, hprinted, overlay,
      fat12NormalTo8_3_eq h.zero_notMem_spelled _ hfat, fat12NormalTo8_3_spelled h]
    rw [List.length_append]
    omega
  · exact ⟨_, length_fat12NormalTo8_3 name, fun fatName => fat12NormalTo8_3_eq hname rest⟩
  · exact ⟨_, length_terminated_fat12_8_3toNormal field, fun output => fat12_8_3toNormal_stores hlen⟩

/-- `A.B` in buffers that have just the room. -/
theorem conversions_roundTrip_short :
    (fat12NormalTo8_3 (terminated [0x41, 0x2E, 0x42] ++ []) (List.replicate 11 0)).bind
          (fat12_8_3toNormal · (List.replicate 13 0)) =
        some (overlay (List.replicate 13 0) (terminated [0x41, 0x2E, 0x42])) :=
  (@conversions_roundTrip [0x41] [0x42] (List.replicate 11 0) (List.replicate 13 0)
    ⟨by decide, by decide, by decide, by simp; decide⟩ (by decide) (by decide) []).1

end OnMemory

end Leenix
