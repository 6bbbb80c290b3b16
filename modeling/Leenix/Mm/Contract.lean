import Leenix.Mm.Reference

/-!
# What the kernel relies on of the memory manager

mm/vmm.o is linked in as an object file. `Vmm.Contract` states what its functions
do to the directories, the page tables and the frames, as relations between the
states before and after: a new directory is empty, a region is mapped with frames
that nothing used, in the page table that the directory's entry names and in a new
one only where there is no entry, and a region is freed by clearing entries of
those tables.

- `AllocEffect.trans`: the effects of two allocations in one directory compose, so
  a loop over pages has the effect of its turns.
- `Vmm.reference_contract`: the reference manager keeps the contract.
-/

namespace Leenix

namespace Vm

/-- The frame at table index `j` under directory index `i`. -/
def page (m : Vm) (d : Ptr) (i j : Nat) : Option Frame := (m.tableOf d i).bind fun t => m.tables t j

/-- Some directory names the table. -/
def Named (m : Vm) (t : Frame) : Prop := ∃ d i, m.tableOf d i = some t

/-- Some table that a directory names maps the frame. -/
def InUse (m : Vm) (f : Frame) : Prop := ∃ t j, m.Named t ∧ m.tables t j = some f

/-- The pages of a region, by directory and table index. -/
def RegionPage (va size i j : Nat) : Prop := j < 1024 ∧ Covers va size i j

/-- What an allocation of pages in `R` through directory `d` does: it fills absent
entries of `d` with new tables and absent pages of `R` with frames that were not
in use, each of them once. -/
structure AllocEffect (m m' : Vm) (d : Ptr) (R : Nat → Nat → Prop) : Prop where
  active : m'.active = m.active
  phys : ∀ f, m.InUse f → m'.phys f = m.phys f
  other : ∀ e, e ≠ d → m'.dirs.lookup e = m.dirs.lookup e
  live : m.dirs.lookup d ≠ none → m'.dirs.lookup d ≠ none
  entry_kept : ∀ i t, m.tableOf d i = some t → m'.tableOf d i = some t
  entry_new : ∀ i t, m.tableOf d i = none → m'.tableOf d i = some t →
    ¬m.Named t ∧ (∃ j, R i j) ∧ ∀ i', m'.tableOf d i' = some t → i' = i
  page_kept : ∀ t j f, m.Named t → m.tables t j = some f → m'.tables t j = some f
  page_new : ∀ t j f, m.Named t → m.tables t j = none → m'.tables t j = some f →
    ¬m.InUse f ∧ ∃ i, m.tableOf d i = some t ∧ R i j
  page_fresh : ∀ i t j f, m.tableOf d i = none → m'.tableOf d i = some t →
    m'.tables t j = some f → ¬m.InUse f ∧ R i j
  once : ∀ i t j i' t' j' f, ¬m.InUse f → m'.tableOf d i = some t → m'.tables t j = some f →
    m'.tableOf d i' = some t' → m'.tables t' j' = some f → t = t' ∧ j = j'

/-- What the creation of directory `d` does: `d` is new and empty. -/
structure CreateEffect (m m' : Vm) (d : Ptr) : Prop where
  active : m'.active = m.active
  phys : ∀ f, m.InUse f → m'.phys f = m.phys f
  fresh : m.dirs.lookup d = none
  live : m'.dirs.lookup d ≠ none
  empty : ∀ i, m'.tableOf d i = none
  other : ∀ e, e ≠ d → m'.dirs.lookup e = m.dirs.lookup e
  tables : ∀ t, m.Named t → m'.tables t = m.tables t

/-- What freeing the pages in `R` through directory `d` does: entries of the tables
that `d` names are cleared. -/
structure FreeEffect (m m' : Vm) (d : Ptr) (R : Nat → Nat → Prop) : Prop where
  active : m'.active = m.active
  phys : m'.phys = m.phys
  dirs : m'.dirs = m.dirs
  page : ∀ t j, m.Named t → m'.tables t j = m.tables t j ∨
    m'.tables t j = none ∧ ∃ i, m.tableOf d i = some t ∧ R i j

end Vm

/-- The contract of the memory manager. -/
structure Vmm.Contract (V : Vmm) : Prop where
  create : ∀ m d m', V.createAddressSpace m = (some d, m') → m.CreateEffect m' d
  alloc : ∀ m d va size flags r m', V.allocRegion m d va size flags = (r, m') →
    m.AllocEffect m' d (Vm.RegionPage va size)
  mapped : ∀ m d va size flags m', V.allocRegion m d va size flags = (true, m') →
    va % pageSize = 0 → ∀ a, va ≤ a → a < va + size → m'.frameOf d a ≠ none
  free : ∀ m d va size r m', V.freeRegion m d va size = (r, m') →
    m.FreeEffect m' d (Vm.Covers va size)

/-- The manager does not run out of memory. -/
def Vmm.AlwaysAllocates (V : Vmm) : Prop :=
  ∀ m d va size flags, m.dirs.lookup d ≠ none → (V.allocRegion m d va size flags).1 = true

namespace Vm

variable {m m₁ m₂ m' : Vm} {d e : Ptr} {i j va size : Nat} {t f : Frame} {R R' : Nat → Nat → Prop}

theorem frameOf_eq_page (m : Vm) (d : Ptr) (va : Nat) :
    m.frameOf d va = m.page d (dirIndex va) (tableIndex va) := rfl

theorem page_eq_some : m.page d i j = some f ↔ ∃ t, m.tableOf d i = some t ∧ m.tables t j = some f :=
  Option.bind_eq_some_iff

theorem tableOf_congr (h : m'.dirs.lookup e = m.dirs.lookup e) (i : Nat) :
    m'.tableOf e i = m.tableOf e i := by
  simp only [tableOf, h]

theorem inUse_of_page (ht : m.tableOf d i = some t) (hf : m.tables t j = some f) : m.InUse f :=
  ⟨t, j, ⟨d, i, ht⟩, hf⟩

/-- The page of an address, by its indices. -/
theorem indices_eq (va : Nat) : dirIndex va * 1024 + tableIndex va = va / pageSize := by
  simp only [dirIndex, tableIndex, pageSize]
  omega

namespace AllocEffect

theorem refl (m : Vm) (d : Ptr) (R : Nat → Nat → Prop) : AllocEffect m m d R where
  active := rfl
  phys _ _ := rfl
  other _ _ := rfl
  live h := h
  entry_kept _ _ h := h
  entry_new i t hnone ht := by cases hnone.symm.trans ht
  page_kept _ _ _ _ h := h
  page_new t j f _ hnone hf := by cases hnone.symm.trans hf
  page_fresh i t j f hnone ht := by cases hnone.symm.trans ht
  once i t j i' t' j' f hfree ht hf _ _ := absurd (inUse_of_page ht hf) hfree

/-- A larger region allows more. -/
theorem mono (h : AllocEffect m m' d R) (hR : ∀ i j, R i j → R' i j) : AllocEffect m m' d R' where
  active := h.active
  phys := h.phys
  other := h.other
  live := h.live
  entry_kept := h.entry_kept
  entry_new i t hnone ht := by
    obtain ⟨hnew, ⟨j, hj⟩, honly⟩ := h.entry_new i t hnone ht
    exact ⟨hnew, ⟨j, hR i j hj⟩, honly⟩
  page_kept := h.page_kept
  page_new t j f hnamed hnone hf := by
    obtain ⟨hfree, i, hi, hij⟩ := h.page_new t j f hnamed hnone hf
    exact ⟨hfree, i, hi, hR i j hij⟩
  page_fresh i t j f hnone ht hf := by
    obtain ⟨hfree, hij⟩ := h.page_fresh i t j f hnone ht hf
    exact ⟨hfree, hR i j hij⟩
  once := h.once

theorem named (h : AllocEffect m m' d R) (ht : m.Named t) : m'.Named t := by
  obtain ⟨e, i, hi⟩ := ht
  by_cases he : e = d
  · subst he
    exact ⟨e, i, h.entry_kept i t hi⟩
  · exact ⟨e, i, (tableOf_congr (h.other e he) i).trans hi⟩

theorem inUse (h : AllocEffect m m' d R) (hf : m.InUse f) : m'.InUse f := by
  obtain ⟨t, j, ht, hj⟩ := hf
  exact ⟨t, j, h.named ht, h.page_kept t j f ht hj⟩

/-- A frame that was in use before is where it was before. -/
theorem page_old (h : AllocEffect m m' d R) (hf : m.InUse f) (ht : m'.tableOf d i = some t)
    (hj : m'.tables t j = some f) : m.tableOf d i = some t ∧ m.tables t j = some f := by
  cases hi : m.tableOf d i with
  | none => exact absurd hf (h.page_fresh i t j f hi ht hj).1
  | some t₀ =>
    obtain rfl := Option.some.inj ((h.entry_kept i t₀ hi).symm.trans ht)
    refine ⟨rfl, ?_⟩
    cases hj₀ : m.tables t₀ j with
    | none => exact absurd hf (h.page_new t₀ j f ⟨d, i, hi⟩ hj₀ hj).1
    | some f₀ =>
      exact congrArg some (Option.some.inj ((h.page_kept t₀ j f₀ ⟨d, i, hi⟩ hj₀).symm.trans hj))

/-- Two allocations, one after the other. -/
theorem trans (h : AllocEffect m m₁ d R) (h' : AllocEffect m₁ m₂ d R) : AllocEffect m m₂ d R where
  active := h'.active.trans h.active
  phys f hf := (h'.phys f (h.inUse hf)).trans (h.phys f hf)
  other e he := (h'.other e he).trans (h.other e he)
  live hd := h'.live (h.live hd)
  entry_kept i t ht := h'.entry_kept i t (h.entry_kept i t ht)
  entry_new i t hnone ht := by
    cases hmid : m₁.tableOf d i with
    | none =>
      obtain ⟨hnew, hR, honly⟩ := h'.entry_new i t hmid ht
      exact ⟨fun hnamed => hnew (h.named hnamed), hR, honly⟩
    | some t₁ =>
      obtain rfl := Option.some.inj ((h'.entry_kept i t₁ hmid).symm.trans ht)
      obtain ⟨hnew, hR, honly⟩ := h.entry_new i t₁ hnone hmid
      refine ⟨hnew, hR, fun i' hi' => ?_⟩
      cases hmid' : m₁.tableOf d i' with
      | none => exact absurd ⟨d, i, hmid⟩ (h'.entry_new i' t₁ hmid' hi').1
      | some t' =>
        obtain rfl := Option.some.inj ((h'.entry_kept i' t' hmid').symm.trans hi')
        exact honly i' hmid'
  page_kept t j f hnamed hf := h'.page_kept t j f (h.named hnamed) (h.page_kept t j f hnamed hf)
  page_new t j f hnamed hnone hf := by
    cases hmid : m₁.tables t j with
    | some f₁ =>
      obtain rfl := Option.some.inj ((h'.page_kept t j f₁ (h.named hnamed) hmid).symm.trans hf)
      exact h.page_new t j f₁ hnamed hnone hmid
    | none =>
      obtain ⟨hfree, i, hi, hij⟩ := h'.page_new t j f (h.named hnamed) hmid hf
      refine ⟨fun hf => hfree (h.inUse hf), i, ?_, hij⟩
      cases hi₀ : m.tableOf d i with
      | none => exact absurd hnamed (h.entry_new i t hi₀ hi).1
      | some t₀ => rw [← h.entry_kept i t₀ hi₀, hi]
  page_fresh i t j f hnone ht hf := by
    cases hmid : m₁.tableOf d i with
    | none =>
      obtain ⟨hfree, hij⟩ := h'.page_fresh i t j f hmid ht hf
      exact ⟨fun hf => hfree (h.inUse hf), hij⟩
    | some t₁ =>
      obtain rfl := Option.some.inj ((h'.entry_kept i t₁ hmid).symm.trans ht)
      cases hj : m₁.tables t₁ j with
      | some f₁ =>
        obtain rfl := Option.some.inj ((h'.page_kept t₁ j f₁ ⟨d, i, hmid⟩ hj).symm.trans hf)
        exact h.page_fresh i t₁ j f₁ hnone hmid hj
      | none =>
        obtain ⟨hfree, i', hi', hij⟩ := h'.page_new t₁ j f ⟨d, i, hmid⟩ hj hf
        obtain rfl := (h.entry_new i t₁ hnone hmid).2.2 i' hi'
        exact ⟨fun hf => hfree (h.inUse hf), hij⟩
  once i t j i' t' j' f hfree ht hj ht' hj' := by
    by_cases hmid : m₁.InUse f
    · obtain ⟨hti, hji⟩ := h'.page_old hmid ht hj
      obtain ⟨hti', hji'⟩ := h'.page_old hmid ht' hj'
      exact h.once i t j i' t' j' f hfree hti hji hti' hji'
    · exact h'.once i t j i' t' j' f hmid ht hj ht' hj'

end AllocEffect

/-! ## The reference manager keeps the contract -/

/-- The single page at the indices `i` and `j`. -/
def SinglePage (i j : Nat) (i' j' : Nat) : Prop := i' = i ∧ j' = j

theorem inUse_lt (hf : m.InUse f) : f < m.bound := by
  obtain ⟨t, j, -, hj⟩ := hf
  exact m.tables_lt t j f hj

theorem named_lt (ht : m.Named t) : t < m.bound := by
  obtain ⟨e, i, hi⟩ := ht
  obtain ⟨pd, hpd, hi⟩ := Option.bind_eq_some_iff.mp hi
  exact (m.dirs_lt e pd hpd).2 i t hi

/-- `vmm_create_pt` changes nothing, or fills the absent entry with the table
`bound`, which is empty. -/
theorem createPt_cases (m : Vm) (d : Ptr) (i : Nat) :
    m.createPt d i = m ∧ (m.dirs.lookup d = none ∨ m.tableOf d i ≠ none) ∨
    ∃ pd, m.dirs.lookup d = some pd ∧ m.tableOf d i = none ∧
      (m.createPt d i).dirs = m.dirs.insert d (Function.update pd i (some m.bound)) ∧
      (m.createPt d i).tables = Function.update m.tables m.bound (fun _ => none) ∧
      (m.createPt d i).phys = m.phys ∧ (m.createPt d i).active = m.active := by
  unfold createPt
  split
  case h_1 hd => exact .inl ⟨rfl, .inl hd⟩
  case h_2 pd hd =>
    have htable : m.tableOf d i = pd i := by simp [tableOf, hd]
    by_cases hi : pd i ≠ none
    · rw [if_pos hi]
      exact .inl ⟨rfl, .inr (htable ▸ hi)⟩
    · rw [if_neg hi]
      exact .inr ⟨pd, hd, htable.trans (not_not.mp hi), rfl, rfl, rfl, rfl⟩

theorem createPt_effect (m : Vm) (d : Ptr) (i j : Nat) :
    m.AllocEffect (m.createPt d i) d (SinglePage i j) := by
  rcases m.createPt_cases d i with ⟨heq, -⟩ | ⟨pd, hd, hnone, hdirs, htables, hphys, hactive⟩
  · rw [heq]
    exact .refl m d _
  have hentry : ∀ k, (m.createPt d i).tableOf d k = if k = i then some m.bound else m.tableOf d k := by
    intro k
    by_cases hk : k = i
    · simp [tableOf, hdirs, hk]
    · simp [tableOf, hdirs, hd, hk]
  have hold : ∀ t, m.Named t → (m.createPt d i).tables t = m.tables t := fun t ht => by
    rw [htables, Function.update_of_ne (Nat.ne_of_lt (named_lt ht))]
  have hbound : ∀ j, (m.createPt d i).tables m.bound j = none := fun j => by
    rw [htables, Function.update_self]
  -- the only new entry is `i`, and its table maps nothing
  have hnew : ∀ k t, m.tableOf d k = none → (m.createPt d i).tableOf d k = some t →
      k = i ∧ t = m.bound := by
    intro k t hk ht
    rw [hentry] at ht
    split at ht
    case isTrue hki => exact ⟨hki, (Option.some.inj ht).symm⟩
    case isFalse => cases hk.symm.trans ht
  exact
    { active := hactive
      phys := fun f _ => by rw [hphys]
      other := fun e he => by rw [hdirs, Finmap.lookup_insert_of_ne _ he]
      live := fun _ => by simp [hdirs]
      entry_kept := fun k t hk => by
        have hki : k ≠ i := by
          rintro rfl
          cases hnone.symm.trans hk
        rw [hentry, if_neg hki, hk]
      entry_new := fun k t hk ht => by
        obtain ⟨rfl, rfl⟩ := hnew k t hk ht
        refine ⟨fun hnamed => Nat.lt_irrefl _ (named_lt hnamed), ⟨j, rfl, rfl⟩, fun k' hk' => ?_⟩
        by_contra hne
        rw [hentry, if_neg hne] at hk'
        exact Nat.lt_irrefl _ (named_lt ⟨d, k', hk'⟩)
      page_kept := fun t k f ht hf => by rw [hold t ht, hf]
      page_new := fun t k f ht hk hf => by
        rw [hold t ht] at hf
        cases hk.symm.trans hf
      page_fresh := fun k t k' f hk ht hf => by
        obtain ⟨rfl, rfl⟩ := hnew k t hk ht
        cases (hbound k').symm.trans hf
      once := fun k t k' k₁ t₁ k₁' f hfree ht hf _ _ => by
        cases hk : m.tableOf d k with
        | none =>
          obtain ⟨rfl, rfl⟩ := hnew k t hk ht
          cases (hbound k').symm.trans hf
        | some t₀ =>
          have hki : k ≠ i := by
            rintro rfl
            cases hnone.symm.trans hk
          rw [hentry, if_neg hki] at ht
          rw [hold t ⟨d, k, ht⟩] at hf
          exact absurd (inUse_of_page ht hf) hfree }

/-- `vmm_page_alloc` changes nothing, or puts the frame `bound` into the absent
entry. -/
theorem pageAlloc_cases (m : Vm) (t : Frame) (j : Nat) :
    m.pageAlloc t j = m ∧ m.tables t j ≠ none ∨
    m.tables t j = none ∧ (m.pageAlloc t j).dirs = m.dirs ∧
      (∀ t' j', (m.pageAlloc t j).tables t' j' =
        if t' = t ∧ j' = j then some m.bound else m.tables t' j') ∧
      (m.pageAlloc t j).phys = m.phys ∧ (m.pageAlloc t j).active = m.active := by
  unfold pageAlloc
  by_cases hpage : m.tables t j ≠ none
  · rw [if_pos hpage]
    exact .inl ⟨rfl, hpage⟩
  · rw [if_neg hpage]
    refine .inr ⟨not_not.mp hpage, rfl, fun t' j' => ?_, rfl, rfl⟩
    by_cases ht : t' = t
    · subst ht
      by_cases hj : j' = j <;> simp [hj]
    · simp [ht]

theorem pageAlloc_effect (ht : m.tableOf d i = some t) (j : Nat) :
    m.AllocEffect (m.pageAlloc t j) d (SinglePage i j) := by
  rcases m.pageAlloc_cases t j with ⟨heq, -⟩ | ⟨hnone, hdirs, htables, hphys, hactive⟩
  · rw [heq]
    exact .refl m d _
  have hentry : ∀ e k, (m.pageAlloc t j).tableOf e k = m.tableOf e k := fun e k => by
    simp only [tableOf, hdirs]
  have hfresh : ¬m.InUse m.bound := fun h => Nat.lt_irrefl _ (inUse_lt h)
  -- a frame that was not in use is the new one
  have hat : ∀ k t' j' f, ¬m.InUse f → (m.pageAlloc t j).tableOf d k = some t' →
      (m.pageAlloc t j).tables t' j' = some f → t' = t ∧ j' = j := by
    intro k t' j' f hfree hk hf
    rw [htables] at hf
    rw [hentry] at hk
    split at hf
    case isTrue h => exact h
    case isFalse => exact absurd (inUse_of_page hk hf) hfree
  exact
    { active := hactive
      phys := fun f _ => by rw [hphys]
      other := fun e _ => by rw [hdirs]
      live := fun h => by rwa [hdirs]
      entry_kept := fun k t' h => by rw [hentry, h]
      entry_new := fun k t' h h' => by
        rw [hentry] at h'
        cases h.symm.trans h'
      page_kept := fun t' j' f _ hf => by
        rw [htables, if_neg, hf]
        rintro ⟨rfl, rfl⟩
        cases hnone.symm.trans hf
      page_new := fun t' j' f _ hn hf => by
        rw [htables] at hf
        split at hf
        case isTrue h =>
          obtain ⟨rfl, rfl⟩ := h
          exact ⟨Option.some.inj hf ▸ hfresh, i, ht, rfl, rfl⟩
        case isFalse => cases hn.symm.trans hf
      page_fresh := fun k t' j' f h h' => by
        rw [hentry] at h'
        cases h.symm.trans h'
      once := fun k t₁ j₁ k' t₂ j₂ f hfree hk hf hk' hf' => by
        obtain ⟨rfl, rfl⟩ := hat k t₁ j₁ f hfree hk hf
        obtain ⟨rfl, rfl⟩ := hat k' t₂ j₂ f hfree hk' hf'
        exact ⟨rfl, rfl⟩ }

/-- One turn of the loop maps one page. -/
theorem allocPage_effect (m : Vm) (d : Ptr) (va : Nat) :
    m.AllocEffect (m.allocPage d va) d (SinglePage (dirIndex va) (tableIndex va)) := by
  have hcreate := m.createPt_effect d (dirIndex va) (tableIndex va)
  unfold allocPage
  simp only
  cases ht : (m.createPt d (dirIndex va)).tableOf d (dirIndex va) with
  | none => exact hcreate
  | some t => exact hcreate.trans (pageAlloc_effect ht (tableIndex va))

theorem allocPage_mapped (va : Nat) (hd : m.dirs.lookup d ≠ none) :
    (m.allocPage d va).frameOf d va ≠ none := by
  have hentry : (m.createPt d (dirIndex va)).tableOf d (dirIndex va) ≠ none := by
    rcases m.createPt_cases d (dirIndex va) with ⟨heq, hnone | hsome⟩ | ⟨pd, -, -, hdirs, -⟩
    · exact absurd hnone hd
    · rwa [heq]
    · simp [tableOf, hdirs]
  obtain ⟨t, ht⟩ := Option.ne_none_iff_exists'.mp hentry
  simp only [allocPage, ht]
  rcases (m.createPt d (dirIndex va)).pageAlloc_cases t (tableIndex va) with
    ⟨heq, hpage⟩ | ⟨-, hdirs, htables, -⟩
  · rw [heq, frameOf, ht]
    exact hpage
  · have ht' : ((m.createPt d (dirIndex va)).pageAlloc t (tableIndex va)).tableOf d (dirIndex va) =
        some t := by
      simp only [tableOf, hdirs]
      exact ht
    rw [frameOf, ht', Option.bind_some, htables, if_pos ⟨rfl, rfl⟩]
    exact Option.some_ne_none _

/-- A page that is mapped stays mapped. -/
theorem AllocEffect.page_mono (h : AllocEffect m m' d R) (hf : m.page d i j = some f) :
    m'.page d i j = some f := by
  obtain ⟨t, ht, hj⟩ := page_eq_some.mp hf
  exact page_eq_some.mpr ⟨t, h.entry_kept i t ht, h.page_kept t j f ⟨d, i, ht⟩ hj⟩

/-- The pages of the loop. -/
theorem allocPages_spec (m : Vm) (d : Ptr) (va n : Nat) :
    m.AllocEffect (m.allocPages d va n) d
        (fun i j => ∃ k, k < n ∧ SinglePage (dirIndex (va + k * pageSize))
          (tableIndex (va + k * pageSize)) i j) ∧
      (m.dirs.lookup d ≠ none → ∀ k, k < n →
        (m.allocPages d va n).frameOf d (va + k * pageSize) ≠ none) := by
  induction n generalizing m va with
  | zero => exact ⟨.refl m d _, fun _ k hk => absurd hk (Nat.not_lt_zero k)⟩
  | succ n ih =>
    obtain ⟨hrest, hmapped⟩ := ih (m.allocPage d va) (va + pageSize)
    have hfirst := m.allocPage_effect d va
    have hnext : ∀ k, va + pageSize + k * pageSize = va + (k + 1) * pageSize := fun k => by
      rw [Nat.succ_mul]
      omega
    simp only [hnext] at hrest hmapped
    constructor
    · refine (hfirst.mono fun i j hij => ?_).trans (hrest.mono ?_)
      · exact ⟨0, Nat.succ_pos n, by simpa using hij⟩
      · rintro i j ⟨k, hk, hij⟩
        exact ⟨k + 1, Nat.succ_lt_succ hk, hij⟩
    · intro hd k hk
      cases k with
      | zero =>
        rw [Nat.zero_mul, Nat.add_zero]
        obtain ⟨f, hf⟩ := Option.ne_none_iff_exists'.mp (allocPage_mapped va hd)
        have hkept := hrest.page_mono hf
        exact fun hnone => Option.some_ne_none f (hkept.symm.trans hnone)
      | succ k => exact hmapped (hfirst.live hd) k (Nat.lt_of_succ_lt_succ hk)

/-- The loop writes no frame. -/
theorem allocPages_phys (m : Vm) (d : Ptr) (va n : Nat) : (m.allocPages d va n).phys = m.phys := by
  induction n generalizing m va with
  | zero => rfl
  | succ n ih =>
    have hcreate : (m.createPt d (dirIndex va)).phys = m.phys := by
      rcases m.createPt_cases d (dirIndex va) with ⟨heq, -⟩ | ⟨pd, -, -, -, -, hphys, -⟩
      · rw [heq]
      · exact hphys
    have hpage : (m.allocPage d va).phys = m.phys := by
      simp only [allocPage]
      split
      case h_1 => exact hcreate
      case h_2 t ht =>
        rcases (m.createPt d (dirIndex va)).pageAlloc_cases t (tableIndex va) with
          ⟨heq, -⟩ | ⟨-, -, -, hphys, -⟩
        · rw [heq, hcreate]
        · rw [hphys, hcreate]
    rw [allocPages, ih, hpage]

/-- The pages of the loop are those of the region. -/
theorem regionPage_of_turn {k : Nat} (hk : k < (size + (pageSize - 1)) / pageSize)
    (h : SinglePage (dirIndex (va + k * pageSize)) (tableIndex (va + k * pageSize)) i j) :
    RegionPage va size i j := by
  obtain ⟨rfl, rfl⟩ := h
  refine ⟨Nat.mod_lt _ (by decide), ?_⟩
  simp only [Covers, indices_eq, pageSize] at hk ⊢
  omega

end Vm

open Vm in
/-- The reference manager keeps the contract. -/
theorem Vmm.reference_contract (kd : Ptr) : (Vmm.reference kd).Contract where
  create m d m' h := by
    simp only [Vmm.reference, Prod.mk.injEq, Option.some.injEq] at h
    obtain ⟨rfl, rfl⟩ := h
    have hfresh : m.dirs.lookup m.bound = none := by
      by_contra hlive
      obtain ⟨pd, hpd⟩ := Option.ne_none_iff_exists'.mp hlive
      exact Nat.lt_irrefl _ (m.dirs_lt m.bound pd hpd).1
    exact
      { active := rfl
        phys := fun f _ => rfl
        fresh := hfresh
        live := by simp [newDir]
        empty := fun i => by simp [tableOf, newDir]
        other := fun e he => Finmap.lookup_insert_of_ne _ he
        tables := fun t _ => rfl }
  alloc m d va size flags r m' h := by
    simp only [Vmm.reference] at h
    split at h
    · obtain ⟨-, rfl⟩ := Prod.mk.inj h
      exact .refl m d _
    · obtain ⟨-, rfl⟩ := Prod.mk.inj h
      refine (m.allocPages_spec d va _).1.mono ?_
      rintro i j ⟨k, hk, hij⟩
      exact regionPage_of_turn hk hij
  mapped m d va size flags m' h hva a hlo hhi := by
    simp only [Vmm.reference] at h
    split at h
    · cases h
    · rename_i hd
      obtain ⟨-, rfl⟩ := Prod.mk.inj h
      have hk : (a - va) / pageSize < (size + (pageSize - 1)) / pageSize := by
        simp only [pageSize]
        omega
      have hmapped := (m.allocPages_spec d va _).2 hd _ hk
      have hsame : ∀ x, dirIndex x = dirIndex (pageSize * (x / pageSize)) ∧
          tableIndex x = tableIndex (pageSize * (x / pageSize)) := by
        intro x
        simp only [dirIndex, tableIndex, pageSize]
        omega
      have hpage : va + (a - va) / pageSize * pageSize = pageSize * (a / pageSize) := by
        simp only [pageSize] at hva ⊢
        omega
      rw [hpage] at hmapped
      rwa [frameOf_eq_page, (hsame a).1, (hsame a).2]
  free m d va size r m' h := by
    simp only [Vmm.reference] at h
    obtain ⟨-, rfl⟩ := Prod.mk.inj h
    refine ⟨by rw [clearPages], by rw [clearPages], by rw [clearPages], fun t j _ => ?_⟩
    by_cases hin : m.InRegion d va size t j
    · have hcleared : (m.clearPages d va size).tables t j = none := by
        simp only [clearPages, if_pos hin]
      obtain ⟨i, -, hi, hc⟩ := hin
      exact .inr ⟨hcleared, i, hi, hc⟩
    · exact .inl (by simp only [clearPages, if_neg hin])

/-- The reference manager hands out frames as they are. -/
theorem Vmm.reference_phys (kd : Ptr) (m : Vm) (d : Ptr) (va size flags : Nat) :
    ((Vmm.reference kd).allocRegion m d va size flags).2.phys = m.phys := by
  simp only [Vmm.reference]
  split
  · rfl
  · exact m.allocPages_phys d va _

theorem Vmm.reference_alwaysAllocates (kd : Ptr) : (Vmm.reference kd).AlwaysAllocates := by
  intro m d va size flags hd
  simp only [Vmm.reference, if_neg hd]

end Leenix
