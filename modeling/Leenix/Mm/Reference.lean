import Leenix.Mm.Vmm

/-!
# A reference memory manager

An executable `Vmm`, for the runs of this development that need a concrete one:
frames are handed out upwards from `bound`, a page table is made when its
directory entry is absent, and pages that are present are kept. It never runs
out of frames, except for `vmm_clone_pagedir`, which always does.
-/

namespace Leenix

namespace Vm

/-- A new, empty directory in the next frame. -/
def newDir (m : Vm) : Vm where
  dirs := m.dirs.insert m.bound fun _ => none
  tables := m.tables
  phys := m.phys
  active := m.active
  bound := m.bound + 1
  dirs_lt d pd h := by
    by_cases hd : d = m.bound
    · subst hd
      rw [Finmap.lookup_insert] at h
      obtain rfl := Option.some.inj h
      exact ⟨Nat.lt_succ_self _, fun i t hi => by cases hi⟩
    · rw [Finmap.lookup_insert_of_ne _ hd] at h
      obtain ⟨hlt, hent⟩ := m.dirs_lt d pd h
      exact ⟨Nat.lt_succ_of_lt hlt, fun i t hi => Nat.lt_succ_of_lt (hent i t hi)⟩
  tables_lt t j f h := Nat.lt_succ_of_lt (m.tables_lt t j f h)

/-- `vmm_create_pt`: an absent entry gets a new, empty table. -/
def createPt (m : Vm) (d : Ptr) (i : Nat) : Vm :=
  match hd : m.dirs.lookup d with
  | none => m
  | some pd =>
    if pd i ≠ none then m
    else
      { dirs := m.dirs.insert d (Function.update pd i (some m.bound))
        tables := Function.update m.tables m.bound fun _ => none
        phys := m.phys
        active := m.active
        bound := m.bound + 1
        dirs_lt := fun d' pd' h => by
          by_cases hdd : d' = d
          · subst hdd
            rw [Finmap.lookup_insert] at h
            obtain rfl := Option.some.inj h
            obtain ⟨hlt, hent⟩ := m.dirs_lt d' pd hd
            refine ⟨Nat.lt_succ_of_lt hlt, fun k t hk => ?_⟩
            by_cases hki : k = i
            · subst hki
              rw [Function.update_self] at hk
              exact Option.some.inj hk ▸ Nat.lt_succ_self _
            · rw [Function.update_of_ne hki] at hk
              exact Nat.lt_succ_of_lt (hent k t hk)
          · rw [Finmap.lookup_insert_of_ne _ hdd] at h
            obtain ⟨hlt, hent⟩ := m.dirs_lt d' pd' h
            exact ⟨Nat.lt_succ_of_lt hlt, fun k t hk => Nat.lt_succ_of_lt (hent k t hk)⟩
        tables_lt := fun t j f h => by
          by_cases ht : t = m.bound
          · subst ht
            rw [Function.update_self] at h
            cases h
          · rw [Function.update_of_ne ht] at h
            exact Nat.lt_succ_of_lt (m.tables_lt t j f h) }

/-- `vmm_page_alloc`: an absent page gets the next frame. -/
def pageAlloc (m : Vm) (t : Frame) (j : Nat) : Vm :=
  if m.tables t j ≠ none then m
  else
    { dirs := m.dirs
      tables := Function.update m.tables t (Function.update (m.tables t) j (some m.bound))
      phys := m.phys
      active := m.active
      bound := m.bound + 1
      dirs_lt := fun d pd h => by
        obtain ⟨hlt, hent⟩ := m.dirs_lt d pd h
        exact ⟨Nat.lt_succ_of_lt hlt, fun i t hi => Nat.lt_succ_of_lt (hent i t hi)⟩
      tables_lt := fun t' j' f h => by
        by_cases ht : t' = t
        · subst ht
          rw [Function.update_self] at h
          by_cases hj : j' = j
          · subst hj
            rw [Function.update_self] at h
            exact Option.some.inj h ▸ Nat.lt_succ_self _
          · rw [Function.update_of_ne hj] at h
            exact Nat.lt_succ_of_lt (m.tables_lt t' j' f h)
        · rw [Function.update_of_ne ht] at h
          exact Nat.lt_succ_of_lt (m.tables_lt t' j' f h) }

/-- One turn of the loop of `vmm_alloc_region`. -/
def allocPage (m : Vm) (d : Ptr) (va : Nat) : Vm :=
  let m := m.createPt d (dirIndex va)
  match m.tableOf d (dirIndex va) with
  | none => m
  | some t => m.pageAlloc t (tableIndex va)

/-- `n` turns of the loop, from address `va` on. -/
def allocPages (m : Vm) (d : Ptr) : Nat → Nat → Vm
  | _, 0 => m
  | va, n + 1 => (m.allocPage d va).allocPages d (va + pageSize) n

/-- The page at table index `j` under directory index `i` meets the region. -/
def Covers (va size i j : Nat) : Prop :=
  va < (i * 1024 + j + 1) * pageSize ∧ (i * 1024 + j) * pageSize < va + size

instance (va size i j : Nat) : Decidable (Covers va size i j) :=
  inferInstanceAs (Decidable (_ ∧ _))

/-- Entry `j` of table `t` maps a page of the region through directory `d`. -/
def InRegion (m : Vm) (d : Ptr) (va size : Nat) (t : Frame) (j : Nat) : Prop :=
  ∃ i, i < 1024 ∧ m.tableOf d i = some t ∧ Covers va size i j

instance (m : Vm) (d : Ptr) (va size : Nat) (t : Frame) (j : Nat) :
    Decidable (m.InRegion d va size t j) :=
  Nat.decidableExistsLT (p := fun i => m.tableOf d i = some t ∧ Covers va size i j) 1024

/-- Clear the pages of the region in the tables that `d` names. -/
def clearPages (m : Vm) (d : Ptr) (va size : Nat) : Vm where
  dirs := m.dirs
  tables t j := if m.InRegion d va size t j then none else m.tables t j
  phys := m.phys
  active := m.active
  bound := m.bound
  dirs_lt := m.dirs_lt
  tables_lt t j f h := by
    split at h
    · cases h
    · exact m.tables_lt t j f h

end Vm

/-- The reference manager, with the kernel directory `kd`. -/
def Vmm.reference (kd : Ptr) : Vmm where
  kerneldir := kd
  createAddressSpace m := (some m.bound, m.newDir)
  allocRegion m d va size _ :=
    if m.dirs.lookup d = none then (false, m)
    else (true, m.allocPages d va ((size + (pageSize - 1)) / pageSize))
  freeRegion m d va size := (true, m.clearPages d va size)
  clonePagedir m := (none, m)
  switchPagedir m
    | none => (false, m)
    | some d => (true, { m with active := d })

/-- Paging as `vmm_init` leaves it for the addresses below `kernelBase`: the
kernel directory names one table, which maps the first megabyte to itself. -/
def Vm.booted : Vm where
  dirs := Finmap.singleton 256 fun i => if i = 0 then some 257 else none
  tables t j := if t = 257 ∧ j < 256 then some j else none
  phys _ _ := 0
  active := 256
  bound := 258
  dirs_lt d pd h := by
    obtain ⟨rfl, rfl⟩ := eq_of_lookup_singleton h
    refine ⟨by decide, fun i t hi => ?_⟩
    dsimp only at hi
    split at hi
    · exact Option.some.inj hi ▸ by decide
    · cases hi
  tables_lt t j f h := by
    split at h
    case isTrue hj =>
      exact Option.some.inj h ▸ Nat.lt_trans hj.2 (by decide)
    case isFalse => cases h

end Leenix
