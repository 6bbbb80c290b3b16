import Leenix.Machine

/-!
# Address spaces

The memory manager is linked in as an object file (mm/vmm.o), so its functions
are parameters of the model: `Vmm` collects the ones that process.c and elf.c
call, as functions on the state `Vm` that they share with the rest of the
kernel. What a development relies on of them is stated where it is used.

A page-directory or page-table entry is the frame it names, `none` when its
present bit is clear: the code under study copies entries and tests them, and
never looks at the flag bits. Addresses split as in vmm.h:33–44, ten bits of
directory index, ten of table index, twelve of offset.
-/

namespace Leenix

/-- A physical frame, by number. -/
abbrev Frame := Nat

/-- A page directory or a page table: its 1024 entries. -/
abbrev PageEntries := Nat → Option Frame

/-- The state of paging: live page directories, page tables and frame contents,
both by physical frame, and the active directory. Every frame that a directory
or table names lies below `bound`: the frames from there on were never handed
out, and there are always such frames. -/
structure Vm where
  dirs : Heap PageEntries
  tables : Frame → PageEntries
  phys : Frame → Nat → Byte
  active : Ptr
  bound : Frame
  dirs_lt : ∀ d pd, dirs.lookup d = some pd → d < bound ∧ ∀ i t, pd i = some t → t < bound
  tables_lt : ∀ t j f, tables t j = some f → f < bound

/-- First address of the kernel's part of every address space
(`PHYSMAP_BASE`, mem.h:14). -/
def kernelBase : Nat := 0xC0000000

/-- `VMM_PAGE_SIZE`. -/
def pageSize : Nat := 4096

/-- `VMM_DIR_INDEX`. -/
def dirIndex (va : Nat) : Nat := va / 0x400000

/-- `VMM_TABLE_INDEX`. -/
def tableIndex (va : Nat) : Nat := va / 0x1000 % 1024

/-- `VMM_PAGE_OFFSET`. -/
def pageOffset (va : Nat) : Nat := va % 0x1000

namespace Vm

/-- The page-table frame that directory `d` names at index `i`. -/
def tableOf (m : Vm) (d : Ptr) (i : Nat) : Option Frame := (m.dirs.lookup d).bind (· i)

/-- The hardware walk through directory `d`: the frame mapped at `va`. -/
def frameOf (m : Vm) (d : Ptr) (va : Nat) : Option Frame :=
  (m.tableOf d (dirIndex va)).bind fun t => m.tables t (tableIndex va)

/-- The translation of `va` through directory `d`: frame and offset. -/
def translate (m : Vm) (d : Ptr) (va : Nat) : Option (Frame × Nat) :=
  (m.frameOf d va).map fun f => (f, pageOffset va)

/-- The byte seen at `va` through directory `d`. -/
def byteAt (m : Vm) (d : Ptr) (va : Nat) : Option Byte :=
  (m.translate d va).map fun (f, o) => m.phys f o

/-- An ordinary store: it goes through the active directory and faults where
nothing is mapped. -/
def storeByte (m : Vm) (va : Nat) (b : Byte) : Option Vm := do
  let (f, o) ← m.translate m.active va
  return { m with phys := Function.update m.phys f (Function.update (m.phys f) o b) }

/-- Stores to consecutive addresses. -/
def storeBytes (m : Vm) (va : Nat) : List Byte → Option Vm
  | [] => some m
  | b :: bs => do (← m.storeByte va b).storeBytes (u32 (va + 1)) bs

/-- Release a page directory object. -/
def freeDir (m : Vm) (d : Ptr) : Vm where
  dirs := m.dirs.erase d
  tables := m.tables
  phys := m.phys
  active := m.active
  bound := m.bound
  dirs_lt d' pd h := by
    have hne : d' ≠ d := by
      rintro rfl
      simp at h
    exact m.dirs_lt d' pd (by simpa [Finmap.lookup_erase_ne hne] using h)
  tables_lt := m.tables_lt

/-- Copy the entries at the indices `I` from the live directory `k` into the
live directory `d`. -/
def copyEntries (m : Vm) (k d : Ptr) (I : Nat → Prop) [DecidablePred I] : Option Vm :=
  match hk : m.dirs.lookup k, hd : m.dirs.lookup d with
  | some kd, some pd => some
    { m with
      dirs := m.dirs.insert d fun i => if I i then kd i else pd i
      dirs_lt := fun d' pd' h => by
        by_cases hdd : d' = d
        · subst hdd
          rw [Finmap.lookup_insert] at h
          obtain rfl := Option.some.inj h
          refine ⟨(m.dirs_lt d' pd hd).1, fun i t hi => ?_⟩
          dsimp only at hi
          split at hi
          · exact (m.dirs_lt k kd hk).2 i t hi
          · exact (m.dirs_lt d' pd hd).2 i t hi
        · rw [Finmap.lookup_insert_of_ne _ hdd] at h
          exact m.dirs_lt d' pd' h }
  | _, _ => none

theorem copyEntries_eq_some {m m' : Vm} {k d : Ptr} {I : Nat → Prop} [DecidablePred I]
    (h : m.copyEntries k d I = some m') :
    ∃ kd pd, m.dirs.lookup k = some kd ∧ m.dirs.lookup d = some pd ∧
      m'.dirs = m.dirs.insert d (fun i => if I i then kd i else pd i) ∧
      m'.tables = m.tables ∧ m'.phys = m.phys ∧ m'.active = m.active := by
  unfold copyEntries at h
  split at h
  case h_1 kd pd hk hd =>
    obtain rfl := Option.some.inj h
    exact ⟨kd, pd, hk, hd, rfl, rfl, rfl, rfl⟩
  case h_2 => cases h

/-- Between two live directories the copy is defined. -/
theorem copyEntries_isSome {m : Vm} {k d : Ptr} (I : Nat → Prop) [DecidablePred I]
    (hk : m.dirs.lookup k ≠ none) (hd : m.dirs.lookup d ≠ none) :
    ∃ m', m.copyEntries k d I = some m' := by
  unfold copyEntries
  split
  case h_1 => exact ⟨_, rfl⟩
  case h_2 hnone =>
    obtain ⟨kd, hkd⟩ := Option.ne_none_iff_exists'.mp hk
    obtain ⟨pd, hpd⟩ := Option.ne_none_iff_exists'.mp hd
    exact absurd hpd (hnone kd pd hkd)

end Vm

/-- The functions of mm/vmm.o that the kernel sources call. A Boolean result is
the C return value; `none` is a null pointer. -/
structure Vmm where
  /-- `vmm_get_kerneldir ()` -/
  kerneldir : Ptr
  /-- `vmm_create_address_space ()` -/
  createAddressSpace : Vm → Option Ptr × Vm
  /-- `vmm_alloc_region (pdir, virtual, size, flags)` -/
  allocRegion : Vm → Ptr → Nat → Nat → Nat → Bool × Vm
  /-- `vmm_free_region (pdir, virtual, size)` -/
  freeRegion : Vm → Ptr → Nat → Nat → Bool × Vm
  /-- `vmm_clone_pagedir ()` -/
  clonePagedir : Vm → Option Ptr × Vm
  /-- `vmm_switch_pagedir (new_pagedir)` -/
  switchPagedir : Vm → Option Ptr → Bool × Vm

end Leenix
