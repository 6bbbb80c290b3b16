import Leenix.Mm.Memory

/-!
# What directories share

Two directories that name one page table see each other's pages through it. So
what an operation on one directory does to the others depends on whose tables it
edits.

- `Exclusive`: the table of an entry is named by that entry alone.
- `ProcessDir`: a directory that shares with the kernel directory what
  `process_create` copied, and no table of its own.
- `AllocEffect.page_other`, `FreeEffect.page_other`: no other directory sees an
  allocation or a release, as long as its pages lie in exclusive tables or change
  nothing.
- `ProcessDir.alloc`, `CopyEffect.processDir`, …: the operations keep the shape.
-/

namespace Leenix

namespace Vm

/-- The table of entry `i` of `d`, if there is one, is named by no other entry of any
directory. -/
def Exclusive (m : Vm) (d : Ptr) (i : Nat) : Prop :=
  ∀ t, m.tableOf d i = some t → ∀ e i', m.tableOf e i' = some t → e = d ∧ i' = i

/-- Directory `d` as `process_create` sets it up, next to the kernel directory `k`: it
takes the kernel's entry 0, if there is one, and its other user entries are its own. -/
structure ProcessDir (m : Vm) (k d : Ptr) : Prop where
  ne : d ≠ k
  live : m.dirs.lookup d ≠ none
  shared : ∀ t, m.tableOf k 0 = some t → m.tableOf d 0 = some t
  own : ∀ i, i < userEntries → (i = 0 → m.tableOf k 0 = none) → m.Exclusive d i

/-- What the creation of directory `d` and the copy of the entries at `I` of directory
`k` do together. -/
structure CopyEffect (m m' : Vm) (k d : Ptr) (I : Nat → Prop) : Prop where
  active : m'.active = m.active
  phys : ∀ f, m.InUse f → m'.phys f = m.phys f
  fresh : m.dirs.lookup d = none
  live : m'.dirs.lookup d ≠ none
  copied : ∀ i, I i → m'.tableOf d i = m.tableOf k i
  empty : ∀ i, ¬I i → m'.tableOf d i = none
  other : ∀ e, e ≠ d → m'.dirs.lookup e = m.dirs.lookup e
  tables : ∀ t, m.Named t → m'.tables t = m.tables t

variable {m m₁ m' : Vm} {k d e : Ptr} {i j va size : Nat} {f t : Frame} {R : Nat → Nat → Prop}
  {I : Nat → Prop}

/-! ## Pages of other directories -/

/-- A page whose table is the same, and the same there. -/
theorem page_congr (hentry : m'.tableOf e i = m.tableOf e i)
    (htable : ∀ t, m.tableOf e i = some t → m'.tables t j = m.tables t j) :
    m'.page e i j = m.page e i j := by
  unfold page
  rw [hentry]
  cases ht : m.tableOf e i with
  | none => rfl
  | some t => exact htable t ht

theorem translate_congr (h : m'.page d (dirIndex va) (tableIndex va) =
    m.page d (dirIndex va) (tableIndex va)) : m'.translate d va = m.translate d va := by
  simp only [translate, frameOf_eq_page, h]

theorem byteAt_congr (h : m'.page d (dirIndex va) (tableIndex va) =
    m.page d (dirIndex va) (tableIndex va))
    (hphys : ∀ f, m.page d (dirIndex va) (tableIndex va) = some f → m'.phys f = m.phys f) :
    m'.byteAt d va = m.byteAt d va := by
  simp only [byteAt, translate, frameOf_eq_page, h]
  cases hf : m.page d (dirIndex va) (tableIndex va) with
  | none => rfl
  | some f => simp [hphys f hf]

/-- An allocation shows through no other directory, if the absent pages of its region
lie under exclusive entries. -/
theorem AllocEffect.page_other (h : AllocEffect m m' d R) (he : e ≠ d)
    (hpages : ∀ i, R i j → m.Exclusive d i ∨ m.page d i j ≠ none) (i : Nat) :
    m'.page e i j = m.page e i j := by
  refine page_congr (tableOf_congr (h.other e he) i) fun t ht => ?_
  cases hold : m.tables t j with
  | some f => exact h.page_kept t j f ⟨e, i, ht⟩ hold
  | none =>
    by_contra hchanged
    obtain ⟨f, hnew⟩ := Option.ne_none_iff_exists'.mp hchanged
    obtain ⟨-, i', hi', hR⟩ := h.page_new t j f ⟨e, i, ht⟩ hold hnew
    rcases hpages i' hR with hown | hmapped
    · exact he (hown t hi' e i ht).1
    · refine hmapped ?_
      rw [Vm.page, hi', Option.bind_some, hold]

/-- A release shows through no other directory, if the mapped pages of its region lie
under exclusive entries. -/
theorem FreeEffect.page_other (h : FreeEffect m m' d R) (he : e ≠ d)
    (hpages : ∀ i, R i j → m.Exclusive d i ∨ m.page d i j = none) (i : Nat) :
    m'.page e i j = m.page e i j := by
  refine page_congr (by simp only [tableOf, h.dirs]) fun t ht => ?_
  rcases h.page t j ⟨e, i, ht⟩ with hsame | ⟨hcleared, i', hi', hR⟩
  · exact hsame
  · rcases hpages i' hR with hown | hunmapped
    · exact absurd (hown t hi' e i ht).1 he
    · rw [Vm.page, hi', Option.bind_some] at hunmapped
      rw [hcleared, hunmapped]

theorem CopyEffect.page_other (h : CopyEffect m m' k d I) (he : e ≠ d) (i j : Nat) :
    m'.page e i j = m.page e i j :=
  page_congr (tableOf_congr (h.other e he) i) fun t ht => by rw [h.tables t ⟨e, i, ht⟩]

theorem tableOf_freeDir (he : e ≠ d) (i : Nat) : (m.freeDir d).tableOf e i = m.tableOf e i :=
  tableOf_congr (Finmap.lookup_erase_ne he) i

theorem page_freeDir (he : e ≠ d) (i j : Nat) : (m.freeDir d).page e i j = m.page e i j :=
  page_congr (tableOf_freeDir he i) fun _ _ => rfl

/-! ## Exclusive tables -/

/-- The tables that an allocation makes are new, and named once. -/
theorem AllocEffect.exclusive (h : AllocEffect m m' d R) (hown : m.Exclusive e i) :
    m'.Exclusive e i := by
  intro t ht e' i' ht'
  -- an entry was there before, or it is a new one of `d`
  have hsplit : ∀ x n, m'.tableOf x n = some t →
      m.tableOf x n = some t ∨ x = d ∧ m.tableOf d n = none := by
    intro x n hx
    by_cases hxd : x = d
    · subst hxd
      cases hold : m.tableOf x n with
      | none => exact .inr ⟨rfl, rfl⟩
      | some t₀ => exact .inl (by rw [← h.entry_kept n t₀ hold, hx])
    · exact .inl (by rw [← tableOf_congr (h.other x hxd) n, hx])
  rcases hsplit e i ht with hold | ⟨rfl, hnone⟩
  · rcases hsplit e' i' ht' with hold' | ⟨rfl, hnone'⟩
    · exact hown t hold e' i' hold'
    · exact absurd ⟨e, i, hold⟩ (h.entry_new i' t hnone' ht').1
  · obtain ⟨hnew, -, honly⟩ := h.entry_new i t hnone ht
    rcases hsplit e' i' ht' with hold' | ⟨rfl, -⟩
    · exact absurd ⟨e', i', hold'⟩ hnew
    · exact ⟨rfl, honly i' ht'⟩

/-- Only `k` loses its exclusive tables when its entries are copied. -/
theorem CopyEffect.exclusive (h : CopyEffect m m' k d I) (he : e ≠ d) (hek : e ≠ k)
    (hown : m.Exclusive e i) : m'.Exclusive e i := by
  intro t ht e' i' ht'
  rw [tableOf_congr (h.other e he)] at ht
  by_cases hd : e' = d
  · subst hd
    by_cases hI : I i'
    · rw [h.copied i' hI] at ht'
      exact absurd (hown t ht k i' ht').1.symm hek
    · rw [h.empty i' hI] at ht'
      cases ht'
  · rw [tableOf_congr (h.other e' hd)] at ht'
    exact hown t ht e' i' ht'

/-! ## Directories of processes -/

namespace ProcessDir

/-- With an entry 0 in the kernel directory, the first 4 MB are the kernel's. -/
theorem page_shared (h : m.ProcessDir k d) (hk : m.tableOf k 0 ≠ none) (j : Nat) :
    m.page d 0 j = m.page k 0 j := by
  obtain ⟨t, ht⟩ := Option.ne_none_iff_exists'.mp hk
  rw [page, page, h.shared t ht, ht]

/-- The table of entry 0 is the process's own, or the kernel's. -/
theorem page_zero (h : m.ProcessDir k d) (j : Nat) :
    m.Exclusive d 0 ∨ m.page d 0 j = m.page k 0 j := by
  by_cases hk : m.tableOf k 0 = none
  · exact .inl (h.own 0 (by decide) fun _ => hk)
  · exact .inr (h.page_shared hk j)

/-- The shape is one of the directories. -/
theorem congr (h : m.ProcessDir k e) (hdirs : m'.dirs = m.dirs) : m'.ProcessDir k e := by
  have htable : ∀ x n, m'.tableOf x n = m.tableOf x n := fun x n => by simp only [tableOf, hdirs]
  refine ⟨h.ne, by rw [hdirs]; exact h.live, ?_, fun i hi hzero => ?_⟩
  · simpa only [htable] using h.shared
  · intro t
    simpa only [htable] using h.own i hi (by simpa only [htable] using hzero) t

theorem alloc (h : m.ProcessDir k e) (halloc : AllocEffect m m' d R) (hd : d ≠ k) :
    m'.ProcessDir k e := by
  have hkernel : m'.tableOf k 0 = m.tableOf k 0 := tableOf_congr (halloc.other k hd.symm) 0
  refine ⟨h.ne, ?_, fun t ht => ?_, fun i hi hzero => ?_⟩
  · by_cases he : e = d
    · subst he
      exact halloc.live h.live
    · rw [halloc.other e he]
      exact h.live
  · rw [hkernel] at ht
    by_cases he : e = d
    · subst he
      exact halloc.entry_kept 0 t (h.shared t ht)
    · rw [tableOf_congr (halloc.other e he), h.shared t ht]
  · rw [hkernel] at hzero
    exact halloc.exclusive (h.own i hi hzero)

theorem freeDir (h : m.ProcessDir k e) (he : e ≠ d) (hk : k ≠ d) :
    (m.freeDir d).ProcessDir k e := by
  have hentry : ∀ x n t, (m.freeDir d).tableOf x n = some t → m.tableOf x n = some t := by
    intro x n t hx
    by_cases hxd : x = d
    · subst hxd
      simp [tableOf, Vm.freeDir] at hx
    · rw [← tableOf_freeDir hxd n, hx]
  refine ⟨h.ne, ?_, fun t ht => ?_, fun i hi hzero t ht e' i' ht' => ?_⟩
  · rw [Vm.freeDir, Finmap.lookup_erase_ne he]
    exact h.live
  · rw [tableOf_freeDir hk] at ht
    rw [tableOf_freeDir he, h.shared t ht]
  · rw [tableOf_freeDir hk] at hzero
    exact h.own i hi hzero t (hentry e i t ht) e' i' (hentry e' i' t ht')

end ProcessDir

namespace CopyEffect

theorem of_create [DecidablePred I] (hcreate : CreateEffect m m₁ d)
    (hcopy : m₁.copyEntries k d I = some m') (hk : m.dirs.lookup k ≠ none) :
    CopyEffect m m' k d I := by
  obtain ⟨kd, pd, hkd, hpd, hdirs, htables, hphys, hactive⟩ := copyEntries_eq_some hcopy
  have hne : k ≠ d := fun hkd => hk (hkd ▸ hcreate.fresh)
  have hentry : ∀ i, m'.tableOf d i = if I i then m₁.tableOf k i else m₁.tableOf d i := by
    intro i
    simp only [tableOf, hdirs, Finmap.lookup_insert, hkd, hpd, Option.bind_some]
  refine ⟨hactive.trans hcreate.active, fun f hf => ?_, hcreate.fresh, by simp [hdirs],
    fun i hi => ?_, fun i hi => ?_, fun e he => ?_, fun t ht => ?_⟩
  · rw [hphys, hcreate.phys f hf]
  · rw [hentry, if_pos hi, tableOf_congr (hcreate.other k hne)]
  · rw [hentry, if_neg hi, hcreate.empty]
  · rw [hdirs, Finmap.lookup_insert_of_ne _ he, hcreate.other e he]
  · rw [htables, hcreate.tables t ht]

variable (h : CopyEffect m m' k d I) (hk : m.dirs.lookup k ≠ none)
include h hk

theorem ne_kernel : d ≠ k := fun hdk => hk (hdk ▸ h.fresh)

/-- The new directory has the shape of a process's. -/
theorem processDir (hzero : I 0) (huser : ∀ i, i < userEntries → I i → i = 0) :
    m'.ProcessDir k d := by
  have hne := h.ne_kernel hk
  have hkernel : m'.tableOf k 0 = m.tableOf k 0 := tableOf_congr (h.other k hne.symm) 0
  refine ⟨hne, h.live, fun t ht => ?_, fun i hi hnone t ht => ?_⟩
  · rw [h.copied 0 hzero, ← hkernel, ht]
  · -- its user entries are empty
    by_cases hI : I i
    · obtain rfl := huser i hi hI
      rw [h.copied 0 hI, ← hkernel, hnone rfl] at ht
      cases ht
    · rw [h.empty i hI] at ht
      cases ht

/-- The directories of other processes keep it. -/
theorem processDir_other (hdir : m.ProcessDir k e) : m'.ProcessDir k e := by
  have hne := h.ne_kernel hk
  have hed : e ≠ d := fun hed => hdir.live (hed ▸ h.fresh)
  have hkernel : m'.tableOf k 0 = m.tableOf k 0 := tableOf_congr (h.other k hne.symm) 0
  refine ⟨hdir.ne, ?_, fun t ht => ?_, fun i hi hnone => ?_⟩
  · rw [h.other e hed]
    exact hdir.live
  · rw [hkernel] at ht
    rw [tableOf_congr (h.other e hed), hdir.shared t ht]
  · rw [hkernel] at hnone
    exact h.exclusive hed hdir.ne (hdir.own i hi hnone)

end CopyEffect

/-! ## Translations -/

/-- The translations of the user addresses through `d` are the same. -/
def SameUser (m m' : Vm) (d : Ptr) : Prop :=
  ∀ va, va < kernelBase → m'.translate d va = m.translate d va

theorem SameUser.of_page (h : ∀ i j, j < 1024 → m'.page d i j = m.page d i j) :
    m.SameUser m' d :=
  fun _ _ => translate_congr (h _ _ (Nat.mod_lt _ (by decide)))

theorem SameUser.trans (h : m.SameUser m₁ d) (h' : m₁.SameUser m' d) : m.SameUser m' d :=
  fun va hva => (h' va hva).trans (h va hva)

theorem SameMaps.sameUser (h : SameMaps m m') (d : Ptr) : m.SameUser m' d :=
  .of_page fun i j _ => h.page d i j

/-- The pages of a user region have user entries. -/
theorem entry_lt_of_covers (hend : va + size ≤ kernelBase) (h : Covers va size i j) :
    i < userEntries := by
  have := h.2
  simp only [pageSize, kernelBase, userEntries] at *
  omega

end Vm

end Leenix
