import Leenix.Lib.Buffer
import Leenix.Lib.Owned
import Leenix.Lib.Run
import Leenix.Libc.String

/-!
# The registry of block devices (driver/block.c)

The table of devices is allocated by the first call of `blkdev_register`. A call
allocates the new device before it looks for another one of the same name, and does not
free it when there is one.

The answers of `malloc` are arguments: `NULL`, or a block that is not live. Names are
strings that nobody changes after the call; the table keeps the pointers.

- `Holds`: the registry is a list of devices with distinct names, at their addresses.
- `Holds.register_cases`: everything that one call can do.
- `registry_iff`: what holds after any calls, and which failing calls leave the registry
  and the heap as they were.
-/

namespace Leenix

namespace Blkdev

/-- The arguments of `blkdev_register`, which are the fields of `block_device_t`. -/
structure Device where
  name : CString
  blockSize : UInt32
  numBlocks : UInt32
  driverPrivate : Ptr
  ops : Ptr

/-- What a block of the heap holds. Nothing was stored yet in a fresh one. -/
inductive Cell
  | fresh
  | table (entries : List (Option Ptr))
  | device (dev : Device)

/-- The static variables (block.c:14–18) and the live blocks. -/
structure Registry where
  blockDevices : Option Ptr
  numBlockDevices : Nat
  maxBlockDevices : Nat
  heap : Heap Cell

/-- A call of `blkdev_register`, with the answers of its two calls of `malloc`. -/
structure Call where
  device : Device
  table : Option Ptr
  dev : Option Ptr

/-- `malloc`, given its answer. A block that is live is no possible one. -/
def malloc (h : Heap Cell) : Option Ptr → Option (Option Ptr × Heap Cell)
  | none => some (none, h)
  | some p => if p ∈ h then none else some (some p, h.insert p .fresh)

namespace Registry

variable (r : Registry)

/-- The entries of the table. -/
def entries : Option (List (Option Ptr)) :=
  r.blockDevices.bind fun t =>
    match r.heap.lookup t with
    | some (.table entries) => some entries
    | _ => none

/-- `*p` for a `block_device_t*`. -/
def deviceAt (p : Ptr) : Option Device :=
  match r.heap.lookup p with
  | some (.device dev) => some dev
  | _ => none

/-- The loop over the table from entry `i` on, `n` turns left (block.c:60–69, 93–101). -/
def findName (name : CString) : Nat → Nat → Option (Option Ptr)
  | 0, _ => some none
  | n + 1, i => do
    match ← (← r.entries)[i]? with
    | none => findName name n (i + 1)
    | some p =>
      let dev ← r.deviceAt p
      let cmp ← strcmp (terminated dev.name) (terminated name)
      if cmp = 0 then return some p else findName name n (i + 1)

/-- The table, if there is none yet (block.c:31–47): whether there is one now. -/
def initTable (table : Option Ptr) : Option (Bool × Registry) :=
  if r.blockDevices.isSome then some (true, r)
  else do
    let r := { r with numBlockDevices := 0, maxBlockDevices := 16 }
    match ← malloc r.heap table with
    | (none, _) => return (false, r)
    | (some t, heap) =>
      let heap ← store heap t (.table (List.replicate r.maxBlockDevices none))
      return (true, { r with blockDevices := some t, heap := heap })

end Registry

/-- `blkdev_register` (block.c:23–84). -/
def blkdevRegister (r : Registry) (c : Call) : Option (Int × Registry) := do
  let (hasTable, r) ← r.initTable c.table
  if !hasTable then return (-1, r)
  else if r.maxBlockDevices ≤ r.numBlockDevices then return (-1, r)
  else
    match ← malloc r.heap c.dev with
    | (none, _) => return (-1, r)
    | (some dev, heap) =>
      let r := { r with heap := heap }
      match ← r.findName c.device.name r.numBlockDevices 0 with
      -- the new block is still live
      | some _ => return (-1, r)
      | none =>
        let heap ← store r.heap dev (.device c.device)
        let entries ← put (← r.entries) r.numBlockDevices (some dev)
        let heap ← store heap (← r.blockDevices) (.table entries)
        return (0, { r with numBlockDevices := r.numBlockDevices + 1, heap := heap })

/-- `blkdev_get_by_name` (block.c:86–106). -/
def blkdevGetByName (r : Registry) (name : Option CString) : Option (Option Ptr) :=
  match name with
  | none => some none
  | some name => r.findName name r.numBlockDevices 0

/-! ## What is registered -/

namespace Registry

variable (r : Registry)

/-- The device of entry `i`. -/
def slot (i : Nat) : Option Device := do r.deviceAt (← (← (← r.entries)[i]?))

/-- The devices of the entries that are in use. -/
def devices : List (Option Device) := (List.range r.numBlockDevices).map r.slot

/-- No device yet. `heap` is what the rest of the kernel allocated. -/
def start (heap : Heap Cell) : Registry := ⟨none, 0, 16, heap⟩

/-- The table, the count and the live blocks are as before, apart from the table itself
where there was none. -/
def Unchanged (r r' : Registry) : Prop :=
  r'.numBlockDevices = r.numBlockDevices ∧
    (r'.blockDevices = r.blockDevices ∧ r'.entries = r.entries ∧ (∀ p, p ∈ r'.heap ↔ p ∈ r.heap) ∨
      r.blockDevices = none ∧ ∃ t, t ∉ r.heap ∧ r'.blockDevices = some t ∧
        r'.entries = some (List.replicate 16 none) ∧ ∀ p, p ∈ r'.heap ↔ p = t ∨ p ∈ r.heap)

/-- There is an entry left and a block for the device, but its name is registered. -/
def Leaks (c : Call) : Prop :=
  r.numBlockDevices < r.maxBlockDevices ∧ c.dev.isSome ∧
    ∃ dev, some dev ∈ r.devices ∧ dev.name = c.device.name

/-- The answers of `malloc` are blocks that are not live when it is called. -/
def Possible (c : Call) : Prop :=
  (∀ t, c.table = some t → t ∉ r.heap) ∧
    ∀ p, c.dev = some p → p ∉ r.heap ∧ (r.blockDevices = none → c.table ≠ some p)

end Registry

/-- The registry holds the devices `slots`, in this order, each at its address. -/
structure Holds (r : Registry) (slots : List (Ptr × Device)) : Prop where
  count : r.numBlockDevices = slots.length
  max : r.maxBlockDevices = 16
  le_max : slots.length ≤ 16
  table : ∀ t, r.blockDevices = some t → r.heap.lookup t =
    some (.table (slots.map (some ·.1) ++ List.replicate (16 - slots.length) none))
  empty : r.blockDevices = none → slots = []
  devices : ∀ x ∈ slots, r.heap.lookup x.1 = some (.device x.2)
  distinct : (slots.map (·.2.name)).Nodup

namespace Holds

variable {r r' : Registry} {slots : List (Ptr × Device)} {c : Call} {table : Option Ptr}
  {t p : Ptr} {i n : Nat} {b : Bool} {code : Int} {name : CString}

theorem start (heap : Heap Cell) : Holds (.start heap) [] where
  count := rfl
  max := rfl
  le_max := Nat.zero_le 16
  table t h := by cases h
  empty _ := rfl
  devices x hx := by cases hx
  distinct := .nil

theorem entries_eq (h : Holds r slots) (ht : r.blockDevices = some t) :
    r.entries = some (slots.map (some ·.1) ++ List.replicate (16 - slots.length) none) := by
  rw [Registry.entries, ht, Option.bind_some, h.table t ht]

theorem entries_of_lt (h : Holds r slots) (hi : i < slots.length) :
    (r.entries.bind fun entries => entries[i]?) = some (some slots[i].1) := by
  cases ht : r.blockDevices with
  | none =>
    rw [h.empty ht] at hi
    exact absurd hi (Nat.not_lt_zero i)
  | some t =>
    rw [h.entries_eq ht, Option.bind_some, List.getElem?_append_left (by simpa using hi)]
    simp [hi]

theorem deviceAt_eq (h : Holds r slots) {x : Ptr × Device} (hx : x ∈ slots) :
    r.deviceAt x.1 = some x.2 := by
  rw [Registry.deviceAt, h.devices x hx]

theorem slot_of_lt (h : Holds r slots) (hi : i < slots.length) :
    r.slot i = some slots[i].2 := by
  have hentry := h.entries_of_lt hi
  have hdev := h.deviceAt_eq (List.getElem_mem hi)
  simp only [Registry.slot, Option.bind_eq_bind, ← Option.bind_assoc, hentry, Option.bind_some,
    hdev]

/-- What the table holds. -/
theorem devices_eq (h : Holds r slots) : r.devices = slots.map (some ·.2) := by
  refine List.ext_getElem (by simp [Registry.devices, h.count]) fun i hi hi' => ?_
  simp only [List.length_map] at hi'
  simp [Registry.devices, h.slot_of_lt hi']

/-- **The loop** finds the first device of the name from its entry on. -/
theorem findName_eq (h : Holds r slots) (name : CString) (hi : i + n = slots.length) :
    r.findName name n i = some (((slots.drop i).find? (·.2.name = name)).map Prod.fst) := by
  induction n generalizing i with
  | zero =>
    rw [Registry.findName, List.drop_eq_nil_of_le (by omega), List.find?_nil, Option.map_none]
  | succ n ih =>
    have hlt : i < slots.length := by omega
    have hentry := h.entries_of_lt hlt
    have hdev := h.deviceAt_eq (List.getElem_mem hlt)
    obtain ⟨cmp, hcmp, hzero⟩ := strcmp_eq_zero_iff slots[i].2.name.2 name.2 [] []
    simp only [List.append_nil] at hcmp
    have hname : cmp = 0 ↔ slots[i].2.name = name := hzero.trans Subtype.ext_iff.symm
    simp only [Registry.findName, Option.bind_eq_bind, ← Option.bind_assoc, hentry, Option.bind_some,
      hdev, hcmp, List.drop_eq_getElem_cons hlt, List.find?_cons]
    by_cases heq : slots[i].2.name = name
    · simp [hname.mpr heq, heq]
    · simp [hname.not.mpr heq, heq, ih (Nat.add_right_comm i 1 n ▸ hi)]

/-- A block that is not live gets something. -/
theorem insert (h : Holds r slots) (hp : p ∉ r.heap) (cell : Cell) :
    Holds { r with heap := r.heap.insert p cell } slots where
  count := h.count
  max := h.max
  le_max := h.le_max
  table t ht := by
    have hlookup := h.table t ht
    have hne : t ≠ p := fun heq => hp (heq ▸ Finmap.mem_of_lookup_eq_some hlookup)
    exact (Finmap.lookup_insert_of_ne _ hne).trans hlookup
  empty := h.empty
  devices x hx := by
    have hlookup := h.devices x hx
    have hne : x.1 ≠ p := fun heq => hp (heq ▸ Finmap.mem_of_lookup_eq_some hlookup)
    exact (Finmap.lookup_insert_of_ne _ hne).trans hlookup
  distinct := h.distinct

/-- The first table. -/
theorem newTable (h : Holds r []) (t : Ptr) :
    Holds { r with
      blockDevices := some t
      heap := r.heap.insert t (.table (List.replicate 16 none)) } [] where
  count := h.count
  max := h.max
  le_max := h.le_max
  table t' ht' := by
    obtain rfl := Option.some.inj ht'
    exact Finmap.lookup_insert _
  empty _ := rfl
  devices x hx := by cases hx
  distinct := .nil

theorem initTable_cases (h : Holds r slots) (hinit : r.initTable table = some (b, r')) :
    Holds r' slots ∧ r.Unchanged r' ∧ r'.blockDevices.isSome = b ∧
      (r.blockDevices.isSome → r' = r) := by
  rw [Registry.initTable] at hinit
  obtain ⟨blockDevices, num, max, heap⟩ := r
  cases blockDevices with
  | some t =>
    simp only [Option.isSome_some, if_true, Option.some.injEq, Prod.mk.injEq] at hinit
    obtain ⟨rfl, rfl⟩ := hinit
    exact ⟨h, ⟨rfl, .inl ⟨rfl, rfl, fun _ => Iff.rfl⟩⟩, rfl, fun _ => rfl⟩
  | none =>
    obtain rfl := h.empty rfl
    -- the counters already are what they are set to
    obtain rfl : num = 0 := h.count
    obtain rfl : max = 16 := h.max
    simp only [Option.isSome_none, Bool.false_eq_true, if_false] at hinit
    cases table with
    | none =>
      simp only [malloc, Option.bind_eq_bind, Option.bind_some, Option.pure_def, Option.some.injEq,
        Prod.mk.injEq] at hinit
      obtain ⟨rfl, rfl⟩ := hinit
      exact ⟨h, ⟨rfl, .inl ⟨rfl, rfl, fun _ => Iff.rfl⟩⟩, rfl, fun _ => rfl⟩
    | some t =>
      by_cases ht : t ∈ heap
      · simp [malloc, ht] at hinit
      simp only [malloc, ht, if_false, Option.bind_eq_bind, Option.bind_some, store,
        Finmap.mem_insert, true_or, if_true, Finmap.insert_insert, Option.pure_def,
        Option.some.injEq, Prod.mk.injEq] at hinit
      obtain ⟨rfl, rfl⟩ := hinit
      have hnew := h.newTable t
      exact ⟨hnew, ⟨rfl, .inr ⟨rfl, t, ht, rfl, hnew.entries_eq rfl, fun p => Finmap.mem_insert⟩⟩,
        rfl, by simp⟩

/-- Another device, stored into a new block and entered into the table. -/
theorem push (h : Holds r slots) {dev : Device} (ht : r.blockDevices = some t) (hp : p ∉ r.heap)
    (hlt : slots.length < 16) (hnew : ∀ x ∈ slots, x.2.name ≠ dev.name) :
    Holds { r with
      numBlockDevices := r.numBlockDevices + 1
      heap := (r.heap.insert p (.device dev)).insert t
        (.table ((slots ++ [(p, dev)]).map (some ·.1) ++
          List.replicate (16 - (slots.length + 1)) none)) }
      (slots ++ [(p, dev)]) where
  count := by simp [h.count]
  max := h.max
  le_max := by
    rw [List.length_append]
    exact hlt
  table t' ht' := by
    obtain rfl : t' = t := Option.some.inj (ht'.symm.trans ht)
    rw [List.length_append, List.length_singleton]
    exact Finmap.lookup_insert _
  empty hnone := by
    rw [show r.blockDevices = none from hnone] at ht
    cases ht
  devices x hx := by
    have htable := h.table t ht
    rcases List.mem_append.mp hx with hx | hx
    · have hlookup := (h.insert hp (.device dev)).devices x hx
      have hne : x.1 ≠ t := by
        rintro rfl
        rw [h.devices x hx] at htable
        cases htable
      exact (Finmap.lookup_insert_of_ne _ hne).trans hlookup
    · obtain rfl := List.mem_singleton.mp hx
      have hne : p ≠ t := fun heq => hp (heq ▸ Finmap.mem_of_lookup_eq_some htable)
      exact (Finmap.lookup_insert_of_ne _ hne).trans (Finmap.lookup_insert _)
  distinct := by
    rw [List.map_append, List.map_singleton, List.nodup_append_comm]
    refine List.nodup_cons.mpr ⟨fun hmem => ?_, h.distinct⟩
    obtain ⟨x, hx, hname⟩ := List.mem_map.mp hmem
    exact hnew x hx hname

theorem leaks_iff (h : Holds r slots) : r.Leaks c ↔
    slots.length < 16 ∧ c.dev.isSome ∧ ∃ x ∈ slots, x.2.name = c.device.name := by
  rw [Registry.Leaks, h.count, h.max, h.devices_eq]
  simp only [List.mem_map, Option.some.injEq]
  refine and_congr_right' (and_congr_right' ⟨?_, ?_⟩)
  · rintro ⟨dev, ⟨x, hx, rfl⟩, hname⟩
    exact ⟨x, hx, hname⟩
  · rintro ⟨x, hx, hname⟩
    exact ⟨x.2, ⟨x, hx, rfl⟩, hname⟩

/-- No table, no entry left, or no block: the call returns at once. -/
theorem register_early (h : Holds r' slots) (hinit : r.initTable c.table = some (b, r'))
    (hstop : b = false ∨ 16 ≤ slots.length ∨ c.dev = none) :
    blkdevRegister r c = some (-1, r') := by
  simp only [blkdevRegister, hinit, Option.bind_eq_bind, Option.bind_some, h.max, h.count]
  cases b with
  | false => rfl
  | true =>
    by_cases hfull : 16 ≤ slots.length
    · simp [hfull]
    · have hdev : c.dev = none := by simpa [hfull] using hstop
      simp [hfull, hdev, malloc]

/-- There is room for the device. -/
theorem register_room (h : Holds r' slots) (hinit : r.initTable c.table = some (true, r'))
    (ht : r'.blockDevices = some t) (hlt : slots.length < 16) (hdev : c.dev = some p)
    (hp : p ∉ r'.heap) :
    blkdevRegister r c = some (if ∃ x ∈ slots, x.2.name = c.device.name then
      (-1, { r' with heap := r'.heap.insert p .fresh })
    else (0, { r' with
      numBlockDevices := r'.numBlockDevices + 1
      heap := (r'.heap.insert p (.device c.device)).insert t
        (.table ((slots ++ [(p, c.device)]).map (some ·.1) ++
          List.replicate (16 - (slots.length + 1)) none)) })) := by
  obtain ⟨blockDevices, num, max, heap⟩ := r'
  obtain rfl : blockDevices = some t := ht
  obtain rfl : num = slots.length := h.count
  obtain rfl : max = 16 := h.max
  have hfresh := h.insert hp .fresh
  have hfind := hfresh.findName_eq c.device.name (Nat.zero_add slots.length)
  have hlive : t ∈ heap := Finmap.mem_of_lookup_eq_some (h.table t rfl)
  simp only [blkdevRegister, hinit, Option.bind_eq_bind, Option.bind_some, hdev, malloc, hp, hfind,
    List.drop_zero, Bool.not_true, Bool.false_eq_true, if_false, Nat.not_le.mpr hlt]
  cases hfound : slots.find? fun x => x.2.name = c.device.name with
  | some x =>
    have hx := List.mem_of_find?_eq_some hfound
    have hname : x.2.name = c.device.name := by simpa using List.find?_some hfound
    rw [if_pos ⟨x, hx, hname⟩]
    rfl
  | none =>
    have hnew : ¬∃ x ∈ slots, x.2.name = c.device.name := by
      rintro ⟨x, hx, hname⟩
      exact List.find?_eq_none.mp hfound x hx (decide_eq_true hname)
    have hrest : List.replicate (16 - slots.length) (none : Option Ptr) =
        none :: List.replicate (16 - (slots.length + 1)) none := by
      rw [← List.replicate_succ]
      congr 1
      omega
    have hput := put_append (slots.map fun x => some x.1)
      (List.replicate (16 - (slots.length + 1)) none) none (some p)
    rw [List.length_map, ← hrest] at hput
    rw [if_neg hnew]
    simp [store, hfresh.entries_eq rfl, hput, hlive]

/-- **Everything that a call can do**: fail and change nothing, fail and leak the block, or
register the device. -/
theorem register_cases (h : Holds r slots) (hcall : blkdevRegister r c = some (code, r')) :
    code = -1 ∧ Holds r' slots ∧ r.Unchanged r' ∧ ¬r.Leaks c ∨
    code = -1 ∧ Holds r' slots ∧ ¬r.Unchanged r' ∧ r.Leaks c ∨
    code = 0 ∧ (∃ p, Holds r' (slots ++ [(p, c.device)])) ∧ ¬r.Leaks c := by
  obtain ⟨⟨b, r₁⟩, hinit, -⟩ := Option.bind_eq_some_iff.mp hcall
  obtain ⟨h₁, hsame, htable, hkeep⟩ := h.initTable_cases hinit
  rw [h.leaks_iff]
  by_cases hstop : b = false ∨ 16 ≤ slots.length ∨ c.dev = none
  · rw [h₁.register_early hinit hstop, Option.some.injEq, Prod.mk.injEq] at hcall
    obtain ⟨rfl, rfl⟩ := hcall
    refine .inl ⟨rfl, h₁, hsame, ?_⟩
    rintro ⟨hlt, hdev, x, hx, -⟩
    rcases hstop with rfl | hfull | hnone
    · have hnone : r₁.blockDevices = none := by simpa using htable
      rw [h₁.empty hnone] at hx
      cases hx
    · omega
    · rw [hnone] at hdev
      cases hdev
  · obtain ⟨hb, hlt, hdev⟩ : b = true ∧ slots.length < 16 ∧ c.dev ≠ none := by simpa using hstop
    subst hb
    obtain ⟨t, ht⟩ := Option.isSome_iff_exists.mp htable
    obtain ⟨p, hp⟩ := Option.ne_none_iff_exists'.mp hdev
    by_cases hlive : p ∈ r₁.heap
    · -- no answer of `malloc`
      simp [blkdevRegister, hinit, h₁.max, h₁.count, Nat.not_le.mpr hlt, hp, malloc, hlive] at hcall
    rw [h₁.register_room hinit ht hlt hp hlive, Option.some.injEq] at hcall
    split at hcall
    case isTrue hdup =>
      rw [Prod.mk.injEq] at hcall
      obtain ⟨rfl, rfl⟩ := hcall
      refine .inr (.inl ⟨rfl, h₁.insert hlive .fresh, ?_, hlt, by simp [hp], hdup⟩)
      have hsome : r.blockDevices.isSome := by
        obtain ⟨x, hx, -⟩ := hdup
        rw [Option.isSome_iff_ne_none]
        intro hnone
        rw [h.empty hnone] at hx
        cases hx
      obtain rfl := hkeep hsome
      rintro ⟨-, ⟨-, -, hblocks⟩ | ⟨hnone, -⟩⟩
      · exact hlive ((hblocks p).mp (Finmap.mem_insert.mpr (.inl rfl)))
      · rw [hnone] at hsome
        cases hsome
    case isFalse hnew =>
      rw [Prod.mk.injEq] at hcall
      obtain ⟨rfl, rfl⟩ := hcall
      have hnames : ∀ x ∈ slots, x.2.name ≠ c.device.name := fun x hx hname => hnew ⟨x, hx, hname⟩
      exact .inr (.inr ⟨rfl, ⟨p, h₁.push ht hlive hlt hnames⟩, fun hleak => hnew hleak.2.2⟩)

/-- No call faults. -/
theorem register_isSome (h : Holds r slots) (hc : r.Possible c) : (blkdevRegister r c).isSome := by
  obtain ⟨b, r₁, hinit, hfresh⟩ : ∃ b r₁, r.initTable c.table = some (b, r₁) ∧
      ∀ p, c.dev = some p → p ∉ r₁.heap := by
    cases ht : r.blockDevices with
    | some t => exact ⟨true, r, by simp [Registry.initTable, ht], fun p hp => (hc.2 p hp).1⟩
    | none =>
      cases htable : c.table with
      | none =>
        refine ⟨false, { r with numBlockDevices := 0, maxBlockDevices := 16 },
          by simp [Registry.initTable, ht, malloc], fun p hp => (hc.2 p hp).1⟩
      | some t =>
        refine ⟨true, _, by simp [Registry.initTable, ht, malloc, hc.1 t htable, store]; rfl,
          fun p hp hlive => ?_⟩
        rcases Finmap.mem_insert.mp hlive with rfl | hlive
        · exact (hc.2 p hp).2 ht htable
        · exact (hc.2 p hp).1 hlive
  obtain ⟨h₁, -, htable, -⟩ := h.initTable_cases hinit
  by_cases hstop : b = false ∨ 16 ≤ slots.length ∨ c.dev = none
  · rw [h₁.register_early hinit hstop]
    rfl
  · obtain ⟨hb, hlt, hdev⟩ : b = true ∧ slots.length < 16 ∧ c.dev ≠ none := by simpa using hstop
    subst hb
    obtain ⟨t, ht⟩ := Option.isSome_iff_exists.mp htable
    obtain ⟨p, hp⟩ := Option.ne_none_iff_exists'.mp hdev
    rw [h₁.register_room hinit ht hlt hp (hfresh p hp)]
    rfl

end Holds

/-! ## Any calls -/

/-- What the call of an edge returned. -/
def returned (e : Edge Registry Call) : Option Int := (blkdevRegister e.pre e.op).map Prod.fst

/-- The devices of the calls that returned 0, in this order. -/
def registered (tr : List (Edge Registry Call)) : List Device :=
  (tr.filter (returned · = some 0)).map (·.op.device)

/-- One call, as a step. -/
def step (r : Registry) (c : Call) : Option Registry := (blkdevRegister r c).map Prod.snd

/-- The registry has what the calls `tr` registered: distinct names, each of them found,
and no others. -/
structure Agrees (tr : List (Edge Registry Call)) (r : Registry) : Prop where
  devices : r.devices = (registered tr).map some
  distinct : ((registered tr).map Device.name).Nodup
  found : ∀ dev ∈ registered tr, ∃ p,
    blkdevGetByName r (some dev.name) = some (some p) ∧ r.deviceAt p = some dev
  missing : ∀ name, (∀ dev ∈ registered tr, dev.name ≠ name) →
    blkdevGetByName r (some name) = some none

variable {heap : Heap Cell} {tr : List (Edge Registry Call)} {r : Registry}
  {slots : List (Ptr × Device)}

theorem Holds.agrees (h : Holds r slots) (htr : slots.map Prod.snd = registered tr) :
    Agrees tr r := by
  have hfind : ∀ name, blkdevGetByName r (some name) =
      some ((slots.find? (·.2.name = name)).map Prod.fst) := fun name =>
    h.findName_eq name (by rw [h.count, Nat.zero_add])
  constructor
  · rw [h.devices_eq, ← htr, List.map_map]
    rfl
  · rw [← htr, List.map_map]
    exact h.distinct
  · intro dev hdev
    rw [← htr] at hdev
    obtain ⟨x, hx, rfl⟩ := List.mem_map.mp hdev
    obtain ⟨y, hy⟩ : ∃ y, slots.find? (fun y => y.2.name = x.2.name) = some y :=
      Option.isSome_iff_exists.mp (List.find?_isSome.mpr ⟨x, hx, by simp⟩)
    have hname : y.2.name = x.2.name := by simpa using List.find?_some hy
    obtain rfl := List.inj_on_of_nodup_map h.distinct (List.mem_of_find?_eq_some hy) hx hname
    exact ⟨y.1, by rw [hfind, hy, Option.map_some], h.deviceAt_eq hx⟩
  · intro name hname
    rw [hfind, Option.map_eq_none_iff.mpr (List.find?_eq_none.mpr fun x hx => ?_)]
    have hdev : x.2 ∈ registered tr := htr ▸ List.mem_map_of_mem hx
    simpa using hname x.2 hdev

/-- After any calls. -/
theorem run_holds (hrun : Run step (.start heap) tr r) :
    ∃ slots, Holds r slots ∧ slots.map Prod.snd = registered tr := by
  induction hrun with
  | nil => exact ⟨[], .start heap, rfl⟩
  | @snoc tr m r c hrun hstep ih =>
    obtain ⟨slots, h, htr⟩ := ih
    obtain ⟨⟨code, r⟩, hcall, rfl⟩ := Option.map_eq_some_iff.mp hstep
    have hreturned : returned ⟨m, c, r⟩ = some code := by rw [returned, hcall, Option.map_some]
    rcases h.register_cases hcall with ⟨rfl, h, -⟩ | ⟨rfl, h, -⟩ | ⟨rfl, ⟨p, h⟩, -⟩
    · exact ⟨slots, h, by simp [registered, htr, hreturned]⟩
    · exact ⟨slots, h, by simp [registered, htr, hreturned]⟩
    · exact ⟨slots ++ [(p, c.device)], h, by simp [registered, htr, hreturned]⟩

/-- **The registry.** After any calls it has what they registered, and no call faults. Each
call that failed changed nothing exactly when none of them had a name that was registered. -/
theorem registry_iff (hrun : Run step (.start heap) tr r) :
    Agrees tr r ∧ (∀ c, r.Possible c → (blkdevRegister r c).isSome) ∧
      ((∀ e ∈ tr, returned e = some (-1) → e.pre.Unchanged e.post) ↔
        ∀ e ∈ tr, ¬e.pre.Leaks e.op) := by
  obtain ⟨slots, h, htr⟩ := run_holds hrun
  refine ⟨h.agrees htr, fun c => h.register_isSome, forall₂_congr fun e he => ?_⟩
  obtain ⟨tr₁, tr₂, -, hpre, hstep⟩ := hrun.prefix_of_mem he
  obtain ⟨slots, h, -⟩ := run_holds hpre
  obtain ⟨⟨code, r⟩, hcall, hpost⟩ := Option.map_eq_some_iff.mp hstep
  have hreturned : returned e = some code := by rw [returned, hcall, Option.map_some]
  rw [hreturned, ← hpost]
  rcases h.register_cases hcall with ⟨rfl, -, hsame, hno⟩ | ⟨rfl, -, hchanged, hleak⟩ | ⟨rfl, -, hno⟩
  · exact ⟨fun _ => hno, fun _ _ => hsame⟩
  · exact ⟨fun hsame => absurd (hsame rfl) hchanged, fun hno => absurd hleak hno⟩
  · exact ⟨fun _ => hno, fun _ hfails => by simp at hfails⟩

theorem zero_notMem_fd0 : (0 : Byte) ∉ [0x66, 0x64, 0x30] := by decide

/-- The floppy drive, as `fdc_init` registers it. -/
def floppy (dev : Option Ptr) : Call :=
  ⟨⟨⟨[0x66, 0x64, 0x30], zero_notMem_fd0⟩, 512, 2880, 0, 0⟩, some 1, dev⟩

/-- The drive is registered once, although the first call gets no block for it. -/
theorem registry_floppy :
    Agrees (Run.replay step (.start ∅) [floppy none, floppy (some 2)])
      ([floppy none, floppy (some 2)].foldl (Run.next step) (.start ∅)) :=
  (registry_iff (Run.of_defined _ (by decide +kernel))).1

/-- Registering the drive twice leaves the second block live. -/
theorem not_unchanged_twice : ¬∀ tr r, Run step (.start ∅) tr r →
    ∀ e ∈ tr, returned e = some (-1) → e.pre.Unchanged e.post := by
  intro h
  obtain ⟨-, ⟨-, -, hlive⟩ | ⟨hnone, -⟩⟩ :=
    h _ _ (Run.of_defined [floppy (some 2), floppy (some 3)] (by decide +kernel)) _
      (List.mem_cons_of_mem _ List.mem_cons_self) (by decide +kernel)
  · exact absurd (hlive 3) (by decide +kernel)
  · exact absurd hnone (by decide +kernel)

end Blkdev

end Leenix
