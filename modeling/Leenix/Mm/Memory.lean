import Leenix.Mm.Contract

/-!
# Memory through a directory

What ordinary stores do to the bytes seen through the active directory, and what
an allocation does to them.

- `Unaliased`: no two user pages of a directory share a table entry or a frame, so
  a store to one address changes no other (`storeBytes_spec`).
- `AllocEffect.unaliased`, `AllocEffect.byteAt`: an allocation keeps this, and the
  bytes of the pages that were mapped.
-/

namespace Leenix

namespace Vm

/-- Directory indices of the user part. -/
def userEntries : Nat := 768

/-- The user pages of `d` are distinct entries of distinct tables and have distinct
frames. -/
structure Unaliased (m : Vm) (d : Ptr) : Prop where
  entries : ∀ i i' t, i < userEntries → i' < userEntries → m.tableOf d i = some t →
    m.tableOf d i' = some t → i = i'
  frames : ∀ i j i' j' f, i < userEntries → i' < userEntries → m.page d i j = some f →
    m.page d i' j' = some f → i = i' ∧ j = j'

/-- Directories, tables and the active directory are the same. -/
structure SameMaps (m m' : Vm) : Prop where
  dirs : m'.dirs = m.dirs
  tables : m'.tables = m.tables
  active : m'.active = m.active

variable {m m₁ m' : Vm} {d : Ptr} {a va : Nat} {b : Byte} {bs : List Byte} {f : Frame}
  {R : Nat → Nat → Prop}

theorem SameMaps.refl (m : Vm) : SameMaps m m := ⟨rfl, rfl, rfl⟩

theorem SameMaps.trans (h : SameMaps m m₁) (h' : SameMaps m₁ m') : SameMaps m m' :=
  ⟨h'.dirs.trans h.dirs, h'.tables.trans h.tables, h'.active.trans h.active⟩

theorem SameMaps.tableOf (h : SameMaps m m') (d : Ptr) (i : Nat) :
    m'.tableOf d i = m.tableOf d i := by
  simp only [Vm.tableOf, h.dirs]

theorem SameMaps.page (h : SameMaps m m') (d : Ptr) (i j : Nat) : m'.page d i j = m.page d i j := by
  simp only [Vm.page, h.tableOf, h.tables]

theorem SameMaps.frameOf (h : SameMaps m m') (d : Ptr) (va : Nat) :
    m'.frameOf d va = m.frameOf d va :=
  h.page d (dirIndex va) (tableIndex va)

theorem SameMaps.unaliased (h : SameMaps m m') (hu : m.Unaliased d) : m'.Unaliased d := by
  refine ⟨fun i i' t => ?_, fun i j i' j' f => ?_⟩
  · simpa only [h.tableOf] using hu.entries i i' t
  · simpa only [h.page] using hu.frames i j i' j' f

/-- A directory with the same entries and the same pages. -/
theorem Unaliased.congr (hu : m.Unaliased d) (hentries : ∀ i, m'.tableOf d i = m.tableOf d i)
    (hpages : ∀ i j, i < userEntries → m'.page d i j = m.page d i j) : m'.Unaliased d := by
  refine ⟨fun i i' t => ?_, fun i j i' j' f hi hi' => ?_⟩
  · simpa only [hentries] using hu.entries i i' t
  · rw [hpages i j hi, hpages i' j' hi']
    exact hu.frames i j i' j' f hi hi'

theorem byteAt_eq_some : m.byteAt d a = some b ↔
    ∃ f, m.frameOf d a = some f ∧ m.phys f (pageOffset a) = b := by
  simp [byteAt, translate]

theorem byteAt_eq_none : m.byteAt d a = none ↔ m.frameOf d a = none := by
  simp [byteAt, translate]

/-- The first address of a page, with the page's indices. -/
theorem frameOf_page (m : Vm) (d : Ptr) (i : Nat) {j : Nat} (hj : j < 1024) :
    m.frameOf d ((i * 1024 + j) * pageSize) = m.page d i j := by
  have hi : dirIndex ((i * 1024 + j) * pageSize) = i := by
    simp only [dirIndex, pageSize]
    omega
  have hj : tableIndex ((i * 1024 + j) * pageSize) = j := by
    simp only [tableIndex, pageSize]
    omega
  rw [frameOf_eq_page, hi, hj]

theorem dirIndex_lt (ha : a < kernelBase) : dirIndex a < userEntries := by
  simp only [dirIndex, userEntries, kernelBase] at ha ⊢
  omega

/-- Addresses with the same frame and offset are the same. -/
theorem Unaliased.eq_of_frame (hu : m.Unaliased d) (ha : a < kernelBase) (hva : va < kernelBase)
    (hfa : m.frameOf d a = some f) (hfva : m.frameOf d va = some f)
    (hoffset : pageOffset a = pageOffset va) : a = va := by
  obtain ⟨hdir, htable⟩ :=
    hu.frames _ _ _ _ f (dirIndex_lt ha) (dirIndex_lt hva) hfa hfva
  simp only [dirIndex, tableIndex, pageOffset] at *
  omega

/-! ## Stores -/

/-- Stores change no mapping. -/
theorem sameMaps_of_storeBytes (h : m.storeBytes va bs = some m') : SameMaps m m' := by
  induction bs generalizing m va with
  | nil =>
    obtain rfl := Option.some.inj h
    exact .refl m
  | cons b bs ih =>
    simp only [storeBytes, storeByte, Option.bind_eq_bind, Option.bind_eq_some_iff] at h
    obtain ⟨m₁, ⟨⟨f, o⟩, -, hm₁⟩, h⟩ := h
    obtain rfl := Option.some.inj hm₁
    have hrest := ih h
    exact ⟨hrest.dirs, hrest.tables, hrest.active⟩

theorem storeByte_spec (hd : m.active = d) (hu : m.Unaliased d) (hva : va < kernelBase)
    (hf : m.frameOf d va = some f) (b : Byte) :
    ∃ m', m.storeByte va b = some m' ∧ SameMaps m m' ∧ (∀ f', f' ≠ f → m'.phys f' = m.phys f') ∧
      ∀ a, a < kernelBase →
        m'.byteAt d a = if a = va then some b else m.byteAt d a := by
  subst hd
  have htranslate : m.translate m.active va = some (f, pageOffset va) := by
    simp [translate, hf]
  let m' : Vm :=
    { m with phys := Function.update m.phys f (Function.update (m.phys f) (pageOffset va) b) }
  have hmaps : SameMaps m m' := ⟨rfl, rfl, rfl⟩
  refine ⟨m', ?_, hmaps, fun f' hf' => Function.update_of_ne hf' .., fun a ha => ?_⟩
  · simp [storeByte, htranslate, m']
  -- the byte at `a` afterwards
  have hbyte : ∀ m₁ : Vm, SameMaps m m₁ →
      m₁.byteAt m.active a = (m.frameOf m.active a).map fun f => m₁.phys f (pageOffset a) := by
    intro m₁ hmaps
    simp only [byteAt, translate, hmaps.frameOf]
    cases m.frameOf m.active a <;> rfl
  rw [hbyte m' hmaps, hbyte m (.refl m)]
  by_cases hav : a = va
  · subst hav
    simp [m', hf]
  · rw [if_neg hav]
    cases hfa : m.frameOf m.active a with
    | none => rfl
    | some f' =>
      by_cases hff : f' = f
      · subst hff
        have hoffset : pageOffset a ≠ pageOffset va := fun hoffset =>
          hav (hu.eq_of_frame ha hva hfa hf hoffset)
        simp [m', hoffset]
      · simp [m', hff]

/-- **Stores.** Bytes stored to mapped user addresses are seen there, and the other
addresses and the frames that are not mapped there keep theirs. -/
theorem storeBytes_spec (va : Nat) (bs : List Byte) (hd : m.active = d) (hu : m.Unaliased d)
    (hend : va + bs.length ≤ kernelBase)
    (hmapped : ∀ a, va ≤ a → a < va + bs.length → m.frameOf d a ≠ none) :
    ∃ m', m.storeBytes va bs = some m' ∧ SameMaps m m' ∧
      (∀ f, (∀ a, va ≤ a → a < va + bs.length → m.frameOf d a ≠ some f) →
        m'.phys f = m.phys f) ∧
      ∀ a, a < kernelBase → m'.byteAt d a =
        if va ≤ a ∧ a < va + bs.length then bs[a - va]? else m.byteAt d a := by
  induction bs generalizing m va with
  | nil =>
    refine ⟨m, rfl, .refl m, fun _ _ => rfl, fun a _ => ?_⟩
    rw [if_neg]
    simp only [List.length_nil]
    omega
  | cons b bs ih =>
    rw [List.length_cons] at hend hmapped
    have hva : va < kernelBase := by omega
    obtain ⟨f, hf⟩ := Option.ne_none_iff_exists'.mp (hmapped va (Nat.le_refl va) (by omega))
    obtain ⟨m₁, hstore, hmaps, hother, hbyte⟩ := storeByte_spec hd hu hva hf b
    have hnext : u32 (va + 1) = va + 1 := by
      simp only [u32, kernelBase] at hva ⊢
      omega
    have hmapped₁ : ∀ a, va + 1 ≤ a → a < va + 1 + bs.length → m₁.frameOf d a ≠ none := by
      intro a hlo hhi
      rw [hmaps.frameOf]
      exact hmapped a (by omega) (by omega)
    obtain ⟨m₂, hrest, hmaps', hother', hbyte'⟩ :=
      ih (va + 1) (hmaps.active.trans hd) (hmaps.unaliased hu) (by omega) hmapped₁
    refine ⟨m₂, ?_, hmaps.trans hmaps', fun f' hf' => ?_, fun a ha => ?_⟩
    · simp [storeBytes, hstore, hnext, hrest]
    · have hne : f' ≠ f := fun hne => hf' va (Nat.le_refl va) (by simp) (hne ▸ hf)
      rw [hother' f' fun a hlo hhi => ?_, hother f' hne]
      rw [hmaps.frameOf]
      exact hf' a (by omega) (by rw [List.length_cons]; omega)
    · rw [hbyte' a ha, hbyte a ha, List.length_cons]
      by_cases hav : a = va
      · subst hav
        rw [if_neg (by omega), if_pos rfl, if_pos (by omega), Nat.sub_self]
        rfl
      · by_cases hin : va + 1 ≤ a ∧ a < va + 1 + bs.length
        · rw [if_pos hin, if_pos (by omega), show a - va = a - (va + 1) + 1 by omega]
          rfl
        · rw [if_neg hin, if_neg hav, if_neg (by omega)]

/-! ## Allocations -/

/-- An allocation aliases no pages. -/
theorem AllocEffect.unaliased (h : AllocEffect m m' d R) (hu : m.Unaliased d) :
    m'.Unaliased d := by
  have hentries : ∀ i i' t, i < userEntries → i' < userEntries → m'.tableOf d i = some t →
      m'.tableOf d i' = some t → i = i' := by
    intro i i' t hi hi' ht ht'
    cases hold : m.tableOf d i with
    | none => exact ((h.entry_new i t hold ht).2.2 i' ht').symm
    | some t₀ =>
      cases hold' : m.tableOf d i' with
      | none => exact (h.entry_new i' t hold' ht').2.2 i ht
      | some t₀' =>
        obtain rfl := Option.some.inj ((h.entry_kept i t₀ hold).symm.trans ht)
        obtain rfl := Option.some.inj ((h.entry_kept i' t₀' hold').symm.trans ht')
        exact hu.entries i i' _ hi hi' hold hold'
  refine ⟨hentries, fun i j i' j' f hi hi' hf hf' => ?_⟩
  obtain ⟨t, ht, hj⟩ := page_eq_some.mp hf
  obtain ⟨t', ht', hj'⟩ := page_eq_some.mp hf'
  by_cases huse : m.InUse f
  · obtain ⟨hto, hjo⟩ := h.page_old huse ht hj
    obtain ⟨hto', hjo'⟩ := h.page_old huse ht' hj'
    exact hu.frames i j i' j' f hi hi' (page_eq_some.mpr ⟨t, hto, hjo⟩)
      (page_eq_some.mpr ⟨t', hto', hjo'⟩)
  · obtain ⟨rfl, rfl⟩ := h.once i t j i' t' j' f huse ht hj ht' hj'
    exact ⟨hentries i i' t hi hi' ht ht', rfl⟩

/-- What was seen through `d` is still seen. -/
theorem AllocEffect.byteAt (h : AllocEffect m m' d R) (hb : m.byteAt d a = some b) :
    m'.byteAt d a = some b := by
  obtain ⟨f, hf, hphys⟩ := byteAt_eq_some.mp hb
  have huse : m.InUse f := by
    obtain ⟨t, ht, hj⟩ := page_eq_some.mp hf
    exact inUse_of_page ht hj
  exact byteAt_eq_some.mpr ⟨f, h.page_mono hf, by rw [h.phys f huse, hphys]⟩

end Vm

end Leenix
