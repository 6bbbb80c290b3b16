import Leenix.Proc.System

/-!
# The process table

`process_create` stores a process in the first free slot of `process_table` and
`process_destroy` clears the first slot that holds it. `TableOk` is what makes
the two inverse: the table holds live processes, each once. Every operation
keeps it, except a `process_fork` that fails after `process_create`: it frees the
child and leaves its entry.
-/

namespace Leenix

namespace Kernel

/-- The process table holds live processes, each once. -/
def TableOk (s : Kernel) : Prop :=
  ∀ p, s.processTable.count (some p) ≤ 1 ∧
    (some p ∈ s.processTable → ∃ pr, s.procs.lookup p = some pr)

/-- A `process_fork` that reaches `process_create` gets its page directory and
its stack. -/
def ForkCompletes (P : Platform) (s : Kernel) (alloc : Alloc) : Prop :=
  alloc.stack ≠ 0 ∧ ∀ p name priority s₁, s.cli.processCreate P p name priority = some s₁ →
    (P.vmm.clonePagedir s₁.vm).1 ≠ none

variable {P : Platform} {s s' : Kernel} {p q : Ptr}

theorem mem_tableInsert {table : List (Option Ptr)} (h : some q ∈ tableInsert table p) :
    q = p ∨ some q ∈ table := by
  rcases List.mem_or_eq_of_mem_set h with h | h
  · exact .inr h
  · exact .inl (Option.some.inj h)

theorem count_tableInsert (table : List (Option Ptr)) :
    (tableInsert table p).count (some q) ≤ table.count (some q) + if q = p then 1 else 0 := by
  unfold tableInsert
  by_cases hlt : table.idxOf none < table.length
  · rw [List.count_set hlt]
    by_cases hqp : q = p
    · subst hqp
      simp
    · have : ¬p = q := fun h => hqp h.symm
      simp [hqp, this]
  · rw [List.set_eq_of_length_le (by omega)]
    omega

theorem mem_tableRemove {table : List (Option Ptr)} (h : some q ∈ tableRemove table p) :
    some q ∈ table := by
  rcases List.mem_or_eq_of_mem_set h with h | h
  · exact h
  · cases h

theorem count_tableRemove_le (table : List (Option Ptr)) :
    (tableRemove table p).count (some q) ≤ table.count (some q) := by
  unfold tableRemove
  by_cases hlt : table.idxOf (some p) < table.length
  · rw [List.count_set hlt]
    simp
  · rw [List.set_eq_of_length_le (by omega)]

/-- A process that occurs once is gone when its first entry is cleared. -/
theorem notMem_tableRemove {table : List (Option Ptr)} (h : table.count (some p) ≤ 1) :
    some p ∉ tableRemove table p := by
  unfold tableRemove
  by_cases hmem : some p ∈ table
  · have hlt := List.idxOf_lt_length_of_mem hmem
    rw [← List.count_eq_zero, List.count_set hlt]
    simp
    omega
  · intro h'
    exact hmem (mem_tableRemove h')

theorem TableOk.congr (h : s.TableOk) (htable : s'.processTable = s.processTable)
    (hlive : ∀ p pr, s.procs.lookup p = some pr → ∃ pr', s'.procs.lookup p = some pr') :
    s'.TableOk := by
  intro p
  rw [htable]
  refine ⟨(h p).1, fun hp => ?_⟩
  obtain ⟨pr, hpr⟩ := (h p).2 hp
  exact hlive p pr hpr

theorem TableOk.of_listFrame (h : s.TableOk) (hframe : ListFrame s s') : s'.TableOk :=
  h.congr hframe.processTable fun _ _ hp =>
    let ⟨pr', hp', _⟩ := hframe.process hp
    ⟨pr', hp'⟩

theorem TableOk.insert (h : s.TableOk) {pr : Process} (hfresh : s.procs.lookup p = none)
    (htable : s'.processTable = tableInsert s.processTable p)
    (hprocs : s'.procs = s.procs.insert p pr) : s'.TableOk := by
  intro q
  rw [htable, hprocs]
  by_cases hqp : q = p
  · subst hqp
    have hnot : some q ∉ s.processTable := fun hm => by
      obtain ⟨pr, hpr⟩ := (h q).2 hm
      cases hpr.symm.trans hfresh
    have hcount := count_tableInsert s.processTable (p := q) (q := q)
    rw [List.count_eq_zero.mpr hnot, if_pos rfl] at hcount
    exact ⟨hcount, fun _ => ⟨pr, Finmap.lookup_insert _⟩⟩
  · have hcount := count_tableInsert s.processTable (p := p) (q := q)
    rw [if_neg hqp] at hcount
    refine ⟨hcount.trans (h q).1, fun hm => ?_⟩
    obtain ⟨qr, hqr⟩ := (h q).2 ((mem_tableInsert hm).resolve_left hqp)
    exact ⟨qr, by rw [Finmap.lookup_insert_of_ne _ hqp, hqr]⟩

theorem TableOk.destroyed (h : s.TableOk) {pr : Process} {ks : List Ptr}
    (hd : Destroyed P p pr ks s s') : s'.TableOk := by
  intro q
  rw [hd.processTable]
  refine ⟨(count_tableRemove_le _).trans (h q).1, fun hm => ?_⟩
  have hqp : q ≠ p := by
    rintro rfl
    exact notMem_tableRemove (h q).1 hm
  obtain ⟨qr, hqr⟩ := (h q).2 (mem_tableRemove hm)
  have hproj := congrFun hd.procs q
  rw [Function.update_of_ne hqp] at hproj
  obtain ⟨qr', hqr', -⟩ := proj_eq_some.mp
    (hproj.trans (show proj Process.fixed s.procs q = some qr.fixed by simp [proj, hqr]))
  exact ⟨qr', hqr'⟩

end Kernel

end Leenix
