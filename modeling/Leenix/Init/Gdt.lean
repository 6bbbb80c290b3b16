import Mathlib.Data.List.GetD
import Leenix.Lib.Run
import Leenix.Lib.Segments
import Leenix.Proc.Process

/-!
# The descriptor table (init/gdt.c, proc/tss.c)

The six descriptors and the task state segment as bytes in memory, and what the processor makes
of them.

- `createGdtEntry_decode`: a descriptor is built from its parts.
- `Held`, `run_held`: what the table and the segment are after any run of the calls of
  `tss_update_esp0`.
-/

namespace Leenix

namespace Gdt

/-! ## Descriptors -/

/-- `gdt_entry_t` (gdt.h:64–86). -/
structure GdtEntry where
  limitLow : UInt16
  baseLow : UInt16
  baseMiddle : UInt8
  access : UInt8
  granularity : UInt8
  baseHigh : UInt8

/-- The bytes of a value, lowest first. -/
def bytes16 (v : UInt16) : List Byte := [v.toUInt8, (v >>> 8).toUInt8]

def bytes32 (v : UInt32) : List Byte :=
  [v.toUInt8, (v >>> 8).toUInt8, (v >>> 16).toUInt8, (v >>> 24).toUInt8]

/-- The structure is packed. -/
def GdtEntry.bytes (e : GdtEntry) : List Byte :=
  bytes16 e.limitLow ++ bytes16 e.baseLow ++ [e.baseMiddle, e.access, e.granularity, e.baseHigh]

/-- `create_gdt_entry` (gdt.c:53–66). -/
def createGdtEntry (base limit : UInt32) (access granularity : UInt8) : GdtEntry where
  baseLow := (base &&& 0xFFFF).toUInt16
  baseMiddle := ((base >>> 16) &&& 0xFF).toUInt8
  baseHigh := ((base >>> 24) &&& 0xFF).toUInt8
  limitLow := (limit &&& 0xFFFF).toUInt16
  granularity := ((limit >>> 16) &&& 0x0F).toUInt8 ||| (granularity &&& 0xF0)
  access := access

/-- `GDT_ACCESS_KERNEL_CODE`, `GDT_ACCESS_KERNEL_DATA`, `GDT_ACCESS_USER_CODE`,
`GDT_ACCESS_USER_DATA` (gdt.c:9–28, gdt.h:26–55). -/
def kernelCode : UInt8 := 0x80 ||| 0x00 ||| 0x10 ||| 0x08 ||| 0x02

def kernelData : UInt8 := 0x80 ||| 0x00 ||| 0x10 ||| 0x00 ||| 0x02

def userCode : UInt8 := 0x80 ||| 0x60 ||| 0x10 ||| 0x08 ||| 0x02

def userData : UInt8 := 0x80 ||| 0x60 ||| 0x10 ||| 0x00 ||| 0x02

/-! ## The task state segment -/

/-- `tss_t` (tss.h:37–76). -/
structure Tss where
  prevTss : UInt32
  esp0 : UInt32
  ss0 : UInt32
  esp1 : UInt32
  ss1 : UInt32
  esp2 : UInt32
  ss2 : UInt32
  cr3 : UInt32
  eip : UInt32
  eflags : UInt32
  eax : UInt32
  ecx : UInt32
  edx : UInt32
  ebx : UInt32
  esp : UInt32
  ebp : UInt32
  esi : UInt32
  edi : UInt32
  es : UInt32
  cs : UInt32
  ss : UInt32
  ds : UInt32
  fs : UInt32
  gs : UInt32
  ldt : UInt32
  trap : UInt16
  iomapBase : UInt16

namespace Tss

def words (t : Tss) : List UInt32 :=
  [t.prevTss, t.esp0, t.ss0, t.esp1, t.ss1, t.esp2, t.ss2, t.cr3, t.eip, t.eflags, t.eax, t.ecx,
    t.edx, t.ebx, t.esp, t.ebp, t.esi, t.edi, t.es, t.cs, t.ss, t.ds, t.fs, t.gs, t.ldt]

def bytes (t : Tss) : List Byte := t.words.flatMap bytes32 ++ bytes16 t.trap ++ bytes16 t.iomapBase

/-- `sizeof (tss_t)`. -/
def size : Nat := 104

/-- `memset (tss, 0x0, sizeof (tss_t))`. -/
def zero : Tss :=
  ⟨0, 0, 0, 0, 0, 0, 0, 0, 0, 0, 0, 0, 0, 0, 0, 0, 0, 0, 0, 0, 0, 0, 0, 0, 0, 0, 0⟩

@[simp] theorem length_bytes (t : Tss) : t.bytes.length = size := rfl

end Tss

/-- `GDT_SEG_OFFSET` (gdt.c:44). -/
def segOffset (entry : UInt32) : UInt32 := entry * 8

/-- The segment that `gdt_init_flat_protected` fills (gdt.c:102–114), with the stack pointer that
`tss_update_esp0` (tss.c:9–12) set last. -/
def tssWith (esp0 : UInt32) : Tss :=
  { Tss.zero with
    ss0 := segOffset 2
    esp0 := esp0
    cs := segOffset 1 ||| 0x3
    ss := segOffset 2 ||| 0x3
    ds := segOffset 2 ||| 0x3
    es := segOffset 2 ||| 0x3
    fs := segOffset 2 ||| 0x3
    gs := segOffset 2 ||| 0x3 }

/-! ## Initialisation -/

/-- The first five descriptors (gdt.c:80–98). -/
def segments : List GdtEntry :=
  [createGdtEntry 0 0 0 0, createGdtEntry 0x0 0xFFFFFFFF kernelCode 0xCF,
    createGdtEntry 0x0 0xFFFFFFFF kernelData 0xCF, createGdtEntry 0x0 0xFFFFFFFF userCode 0xCF,
    createGdtEntry 0x0 0xFFFFFFFF userData 0xCF]

/-- The last one (gdt.c:116–119). -/
def tssEntry (tss : UInt32) : GdtEntry :=
  createGdtEntry tss (.ofNat (Tss.size - 1)) (0x80 ||| 0x60 ||| 0x09) 0x00

/-- The value of `gdt_ptr` (gdt.c:71–74), which `load_gdt` loads (load_descriptors.s:16–19). -/
def gdtPtr (gdt : UInt32) : DescTable := ⟨gdt.toNat, 8 * 6 - 1⟩

/-- The table in memory. -/
def table (tss : UInt32) : List Byte := segments.flatMap GdtEntry.bytes ++ (tssEntry tss).bytes

/-- What `tss_flush` loads (tss.c:4–8) with the selector of the last entry. The processor marks
the segment as busy. -/
def taskSegment (tss : UInt32) : TaskSegment := ⟨tss.toNat, Tss.size - 1⟩

/-- `gdt_init_flat_protected` (gdt.c:69–127), with the table at `gdt` and the segment at `tss`. -/
def gdtInitFlatProtected (gdt tss : UInt32) (mem : Nat → Byte) : Nat → Byte :=
  let mem := blit mem gdt.toNat (segments.flatMap GdtEntry.bytes)
  let mem := blit mem tss.toNat (tssWith 0).bytes
  let mem := blit mem (gdt.toNat + 40) (tssEntry tss).bytes
  Function.update mem (gdt.toNat + 45) (mem (gdt.toNat + 45) ||| 0x02)

example : table 0xC0104000 = [0, 0, 0, 0, 0, 0, 0, 0, 0xFF, 0xFF, 0, 0, 0, 0x9A, 0xCF, 0, 0xFF, 0xFF, 0, 0,
    0, 0x92, 0xCF, 0, 0xFF, 0xFF, 0, 0, 0, 0xFA, 0xCF, 0, 0xFF, 0xFF, 0, 0, 0, 0xF2, 0xCF, 0, 103, 0,
    0x00, 0x40, 0x10, 0xE9, 0, 0xC0] := by decide

/-- The table of the boot loader (boot/gdt.s:15–32). -/
def bootTable : List Byte :=
  List.replicate 8 0 ++ [0xFF, 0xFF, 0x00, 0x00, 0x00, 0b10011010, 0b11001111, 0x00] ++
    [0xFF, 0xFF, 0x00, 0x00, 0x00, 0b10010010, 0b11001111, 0x00]

/-- The table begins like that of the boot loader, so that the segments which are in use when it
is loaded stay what they are. -/
theorem bootTable_prefix (tss : UInt32) : bootTable <+: table tss :=
  ⟨(table tss).drop 24, rfl⟩

/-! ## What the processor reads -/

/-- The byte with the limit and the flags. -/
theorem granularity_toNat (x granularity : UInt8) :
    ((x &&& 0x0F) ||| (granularity &&& 0xF0)).toNat = x.toNat % 16 + granularity.toNat / 16 * 16 := by
  have hlow : (x &&& 0x0F).toNat = x.toNat % 2 ^ 4 := by
    rw [UInt8.toNat_and]
    exact Nat.and_two_pow_sub_one_eq_mod x.toNat 4
  have hmask : ∀ n < 256, n &&& 240 = 2 ^ 4 * (n / 16) := by decide +kernel
  have hhigh : (granularity &&& 0xF0).toNat = 2 ^ 4 * (granularity.toNat / 16) := by
    rw [UInt8.toNat_and]
    exact hmask _ granularity.toNat_lt
  have hlt : x.toNat % 2 ^ 4 < 2 ^ 4 := Nat.mod_lt _ (by decide)
  rw [UInt8.toNat_or, hlow, hhigh, Nat.or_comm, ← Nat.two_pow_add_eq_or_of_lt hlt]
  omega

theorem and_byte (n : Nat) : n &&& 255 = n % 256 := Nat.and_two_pow_sub_one_eq_mod n 8

theorem and_half (n : Nat) : n &&& 65535 = n % 65536 := Nat.and_two_pow_sub_one_eq_mod n 16

/-- The bytes of the base. -/
theorem base_toNat (base : UInt32) :
    (base &&& 0xFFFF).toUInt16.toUInt8.toNat + 2 ^ 8 * ((base &&& 0xFFFF).toUInt16 >>> 8).toUInt8.toNat +
        2 ^ 16 * ((base >>> 16) &&& 0xFF).toUInt8.toNat + 2 ^ 24 * ((base >>> 24) &&& 0xFF).toUInt8.toNat =
      base.toNat := by
  have hbase := base.toNat_lt
  simp [Nat.shiftRight_eq_div_pow, and_byte, and_half]
  omega

/-- **A descriptor** has the base, the low twenty bits of the limit, the access byte and the
flags that it is built from. -/
theorem createGdtEntry_decode (base limit : UInt32) (access granularity : UInt8) :
    SegDescriptor.ofBytes (fun i => (createGdtEntry base limit access granularity).bytes.getD i 0) =
      ⟨base.toNat, limit.toNat % 2 ^ 20, access, granularity.toNat / 2 ^ 4⟩ := by
  have hhalf : ((limit >>> 16) &&& 0x0F).toUInt8 = (limit >>> 16).toUInt8 &&& 0x0F := by simp
  have hgranularity := granularity_toNat (limit >>> 16).toUInt8 granularity
  have hshift : (limit >>> 16).toUInt8.toNat = limit.toNat / 2 ^ 16 % 2 ^ 8 := by
    simp [Nat.shiftRight_eq_div_pow]
  rw [hshift] at hgranularity
  have hlow : (limit &&& 0xFFFF).toUInt16.toUInt8.toNat +
      2 ^ 8 * ((limit &&& 0xFFFF).toUInt16 >>> 8).toUInt8.toNat = limit.toNat % 2 ^ 16 := by
    simp [Nat.shiftRight_eq_div_pow, and_byte, and_half]
    omega
  have hgran := granularity.toNat_lt
  have hlimit : limit.toNat % 2 ^ 16 + 2 ^ 16 * ((limit.toNat / 2 ^ 16 % 2 ^ 8 % 16 +
      granularity.toNat / 16 * 16) % 2 ^ 4) = limit.toNat % 2 ^ 20 := by
    omega
  have hflags : (limit.toNat / 2 ^ 16 % 2 ^ 8 % 16 + granularity.toNat / 16 * 16) / 2 ^ 4 =
      granularity.toNat / 2 ^ 4 := by
    omega
  show SegDescriptor.mk ((base &&& 0xFFFF).toUInt16.toUInt8.toNat +
      2 ^ 8 * ((base &&& 0xFFFF).toUInt16 >>> 8).toUInt8.toNat +
      2 ^ 16 * ((base >>> 16) &&& 0xFF).toUInt8.toNat + 2 ^ 24 * ((base >>> 24) &&& 0xFF).toUInt8.toNat)
    ((limit &&& 0xFFFF).toUInt16.toUInt8.toNat +
      2 ^ 8 * ((limit &&& 0xFFFF).toUInt16 >>> 8).toUInt8.toNat +
      2 ^ 16 * ((((limit >>> 16) &&& 0x0F).toUInt8 ||| (granularity &&& 0xF0)).toNat % 2 ^ 4)) access
    ((((limit >>> 16) &&& 0x0F).toUInt8 ||| (granularity &&& 0xF0)).toNat / 2 ^ 4) = _
  rw [base_toNat, hlow, hhalf, hgranularity, hlimit, hflags]

/-! ## Runs -/

/-- What is stored after the initialisation: `tss_update_esp0` (tss.c:9–12), the mark that the
processor sets in the descriptor of a segment when it is loaded, and anything elsewhere. -/
inductive Store
  | updateEsp0 (esp0 : UInt32)
  | accessed (entry : Nat)
  | elsewhere (a : Nat) (value : Byte)

/-- The table and the segment do not overlap. -/
def Apart (gdt tss : UInt32) : Prop :=
  gdt.toNat + 48 ≤ tss.toNat ∨ tss.toNat + Tss.size ≤ gdt.toNat

/-- The address is in the table or in the segment. -/
def Inside (gdt tss : UInt32) (a : Nat) : Prop :=
  gdt.toNat ≤ a ∧ a < gdt.toNat + 48 ∨ tss.toNat ≤ a ∧ a < tss.toNat + Tss.size

instance (gdt tss : UInt32) (a : Nat) : Decidable (Inside gdt tss a) :=
  inferInstanceAs (Decidable (_ ∨ _))

def step (gdt tss : UInt32) (mem : Nat → Byte) : Store → Option (Nat → Byte)
  | .updateEsp0 esp0 => some (blit mem (tss.toNat + 4) (bytes32 esp0))
  | .accessed entry =>
    if 1 ≤ entry ∧ entry ≤ 4 then
      let a := gdt.toNat + 8 * entry + 5
      some (Function.update mem a (mem a ||| 0x01))
    else none
  | .elsewhere a value => if Inside gdt tss a then none else some (Function.update mem a value)

/-- The stack pointer set last. -/
def lastEsp0 (esp0 : UInt32) (e : Edge (Nat → Byte) Store) : UInt32 :=
  match e.op with
  | .updateEsp0 new => new
  | _ => esp0

/-- The table with the last segment marked as busy. -/
def busyTable (tss : UInt32) : List Byte :=
  segments.flatMap GdtEntry.bytes ++ { tssEntry tss with access := 0x80 ||| 0x60 ||| 0x0B }.bytes

/-- The bits of a byte of the table that the processor may have set. -/
def mark (i : Nat) : Byte := if i % 8 = 5 ∧ 8 ≤ i ∧ i < 40 then 0x01 else 0x00

/-- The table is in memory but for the marks, and the segment with its stack pointer. -/
structure Held (gdt tss : UInt32) (mem : Nat → Byte) (esp0 : UInt32) : Prop where
  table : ∀ i, i < 48 → mem (gdt.toNat + i) ||| mark i = (busyTable tss).getD i 0 ||| mark i
  task : ∀ i, i < Tss.size → mem (tss.toNat + i) = (tssWith esp0).bytes.getD i 0

variable {gdt tss : UInt32} {mem mem' mem₀ : Nat → Byte} {esp0 : UInt32}

theorem blit_inside (mem : Nat → Byte) (a : Nat) {bs : List Byte} {i : Nat} (hi : i < bs.length) :
    blit mem a bs (a + i) = bs.getD i 0 := by
  simp [blit, List.getElem?_eq_getElem hi, List.getD_eq_getElem?_getD]

/-- The table and the segment after the initialisation. -/
theorem held_init (hapart : Apart gdt tss) (mem : Nat → Byte) :
    Held gdt tss (gdtInitFlatProtected gdt tss mem) 0 := by
  unfold Apart at hapart
  have hsegments : (segments.flatMap GdtEntry.bytes).length = 40 := rfl
  have hentry : (tssEntry tss).bytes.length = 8 := rfl
  refine ⟨fun i hi => congrArg (· ||| mark i) ?_, fun i hi => ?_⟩
  · rw [gdtInitFlatProtected, busyTable]
    rcases Nat.lt_or_ge i 40 with hlow | hhigh
    · rw [Function.update_of_ne (by omega), blit_outside _ (.inl (by omega)),
        blit_outside _ (by rw [Tss.length_bytes]; omega), blit_inside _ _ (by rw [hsegments]; exact hlow),
        List.getD_append _ _ _ _ (by rw [hsegments]; exact hlow)]
    · obtain ⟨j, rfl⟩ : ∃ j, i = 40 + j := ⟨i - 40, by omega⟩
      rw [List.getD_append_right _ _ _ _ (by rw [hsegments]; omega), hsegments, Nat.add_sub_cancel_left,
        ← Nat.add_assoc]
      by_cases hj : j = 5
      · subst hj
        rw [Function.update_self, Nat.add_assoc _ 40 5, ← Nat.add_assoc,
          blit_inside _ _ (by rw [hentry]; decide)]
        show (0x80 ||| 0x60 ||| 0x09 : Byte) ||| 0x02 = 0x80 ||| 0x60 ||| 0x0B
        decide
      · rw [Function.update_of_ne (by omega), blit_inside _ _ (by rw [hentry]; omega)]
        have hj8 : j < 8 := by omega
        obtain rfl | rfl | rfl | rfl | rfl | rfl | rfl : j = 0 ∨ j = 1 ∨ j = 2 ∨ j = 3 ∨ j = 4 ∨ j = 6 ∨
            j = 7 := by omega
        all_goals rfl
  · rw [gdtInitFlatProtected]
    simp only [Tss.size] at hi hapart
    rw [Function.update_of_ne (by omega), blit_outside _ (by rw [hentry]; omega),
      blit_inside _ _ (by rw [Tss.length_bytes]; exact hi)]

/-- The stack pointer is at bytes 4 to 7 of the segment. -/
theorem tssWith_bytes (esp0 esp0' : UInt32) (i : Nat) :
    (tssWith esp0).bytes.getD i 0 =
      if 4 ≤ i ∧ i < 8 then (bytes32 esp0).getD (i - 4) 0 else (tssWith esp0').bytes.getD i 0 := by
  generalize hrest : (tssWith 0).bytes.drop 8 = rest
  have hsplit : ∀ esp0, (tssWith esp0).bytes = bytes32 0 ++ (bytes32 esp0 ++ rest) :=
    fun _ => hrest ▸ rfl
  have hlen : ∀ v, (bytes32 v).length = 4 := fun _ => rfl
  rw [hsplit esp0, hsplit esp0']
  rcases Nat.lt_or_ge i 4 with hlow | hhigh
  · rw [if_neg (by omega), List.getD_append _ _ _ _ hlow, List.getD_append _ _ _ _ hlow]
  · have hfirst : ∀ v, (bytes32 0 ++ (bytes32 v ++ rest)).getD i 0 = (bytes32 v ++ rest).getD (i - 4) 0 :=
      fun v => List.getD_append_right _ _ _ _ hhigh
    rw [hfirst, hfirst]
    by_cases hword : i < 8
    · have hin : i - 4 < (bytes32 esp0).length := by
        rw [hlen]
        omega
      rw [if_pos ⟨hhigh, hword⟩, List.getD_append _ _ _ _ hin]
    · have hbehind : ∀ v, (bytes32 v ++ rest).getD (i - 4) 0 = rest.getD (i - 4 - 4) 0 :=
        fun v => List.getD_append_right _ _ _ _ (by rw [hlen]; omega)
      rw [if_neg (fun h => hword h.2), hbehind, hbehind]

/-- **One store** keeps the table and the segment. -/
theorem Held.step {op : Store} (hapart : Apart gdt tss) (h : Held gdt tss mem esp0)
    (hstep : step gdt tss mem op = some mem') : Held gdt tss mem' (lastEsp0 esp0 ⟨mem, op, mem'⟩) := by
  unfold Apart at hapart
  cases op with
  | updateEsp0 new =>
    obtain rfl := Option.some.inj hstep
    have hlen : (bytes32 new).length = 4 := rfl
    simp only [Tss.size] at hapart
    refine ⟨fun i hi => ?_, fun i hi => ?_⟩
    · rw [blit_outside _ (by rw [hlen]; omega), h.table i hi]
    · show blit mem (tss.toNat + 4) (bytes32 new) (tss.toNat + i) = (tssWith new).bytes.getD i 0
      rw [tssWith_bytes new esp0 i]
      by_cases hword : 4 ≤ i ∧ i < 8
      · have haddr : tss.toNat + i = tss.toNat + 4 + (i - 4) := by omega
        rw [if_pos hword, haddr, blit_inside _ _ (by rw [hlen]; omega)]
      · rw [if_neg hword, blit_outside _ (by rw [hlen]; omega), h.task i hi]
  | accessed entry =>
    simp only [Gdt.step] at hstep
    split at hstep
    case isFalse => cases hstep
    case isTrue hentry =>
      obtain rfl := Option.some.inj hstep
      simp only [Tss.size] at hapart
      refine ⟨fun i hi => ?_, fun i hi => ?_⟩
      · by_cases hi' : i = 8 * entry + 5
        · subst hi'
          have hmark : mark (8 * entry + 5) = 0x01 := if_pos (by omega)
          have hor : ∀ x : Byte, x ||| 0x01 ||| 0x01 = x ||| 0x01 := fun x => by
            rw [UInt8.or_assoc]
            rfl
          rw [← h.table _ hi, hmark, ← Nat.add_assoc, Function.update_self, hor]
        · rw [Function.update_of_ne (by omega), h.table i hi]
      · have hi' : i < 104 := hi
        rw [Function.update_of_ne (by omega)]
        exact h.task i hi
  | elsewhere a value =>
    simp only [Gdt.step] at hstep
    split at hstep
    · cases hstep
    case isFalse houtside =>
      obtain rfl := Option.some.inj hstep
      unfold Inside at houtside
      refine ⟨fun i hi => ?_, fun i hi => ?_⟩
      · rw [Function.update_of_ne (by omega), h.table i hi]
      · rw [Function.update_of_ne (by omega)]
        exact h.task i hi

/-- **Every run** from the initialisation on leaves the table as it was filled, and the segment
with the stack pointer that was set last. -/
theorem run_held (hapart : Apart gdt tss) {tr : List (Edge (Nat → Byte) Store)}
    (hrun : Run (step gdt tss) (gdtInitFlatProtected gdt tss mem₀) tr mem) :
    Held gdt tss mem (tr.foldl lastEsp0 0) := by
  have hany : ∀ e ∈ tr, True := fun _ _ => trivial
  exact hrun.invariant_ghost lastEsp0 hany (held_init hapart mem₀) fun _ _ _ _ h hstep _ =>
    h.step hapart hstep

end Gdt

end Leenix
