import Mathlib.Data.Finmap
import Mathlib.Data.List.Perm.Basic

/-!
# Blocks that a call owns

A heap as a finite map from pointers to the contents of the live blocks. `free` of a
block that is not live has no value, so a run that has one frees no block twice.

`Owns before after ps`: between two heaps the blocks `ps` were added, and the blocks of
the first are as they were. Each operation of a call has one rule (`alloc`, `store`,
`free`), and `Owns.freeAll` closes an account: freeing the blocks, in any order, gives
back the first heap.
-/

namespace Leenix

universe u v

variable {κ : Type u} [DecidableEq κ] {α : Type v}

/-- `free`: the block must be live. -/
def free (h : Finmap fun _ : κ => α) (p : κ) : Option (Finmap fun _ : κ => α) :=
  if p ∈ h then some (h.erase p) else none

/-- Several blocks are freed, one after the other. -/
def freeAll (h : Finmap fun _ : κ => α) : List κ → Option (Finmap fun _ : κ => α)
  | [] => some h
  | p :: ps => (free h p).bind fun h => freeAll h ps

/-- A store into a block: it must be live. -/
def store (h : Finmap fun _ : κ => α) (p : κ) (c : α) : Option (Finmap fun _ : κ => α) :=
  if p ∈ h then some (h.insert p c) else none

/-- The blocks `ps` of the heap `after` are new, and the others are those of `before`. -/
structure Owns (before after : Finmap fun _ : κ => α) (ps : List κ) : Prop where
  nodup : ps.Nodup
  fresh : ∀ p ∈ ps, p ∉ before
  live : ∀ p ∈ ps, p ∈ after
  same : ∀ p, p ∉ ps → after.lookup p = before.lookup p

namespace Owns

variable {before after : Finmap fun _ : κ => α} {ps qs : List κ} {p : κ}

theorem refl (h : Finmap fun _ : κ => α) : Owns h h [] where
  nodup := .nil
  fresh _ hp := nomatch hp
  live _ hp := nomatch hp
  same _ _ := rfl

/-- Nothing owned, nothing changed. -/
theorem eq_of_nil (h : Owns before after []) : after = before :=
  Finmap.ext_lookup fun p => h.same p (List.not_mem_nil)

theorem perm (h : Owns before after ps) (hperm : ps.Perm qs) : Owns before after qs where
  nodup := hperm.nodup_iff.mp h.nodup
  fresh p hp := h.fresh p (hperm.mem_iff.mpr hp)
  live p hp := h.live p (hperm.mem_iff.mpr hp)
  same p hp := h.same p fun hp' => hp (hperm.mem_iff.mp hp')

/-- A new block. -/
theorem alloc (h : Owns before after ps) (hfresh : p ∉ before) (hnew : p ∉ ps) (c : α) :
    Owns before (after.insert p c) (p :: ps) where
  nodup := List.nodup_cons.mpr ⟨hnew, h.nodup⟩
  fresh q hq := by
    rcases List.mem_cons.mp hq with rfl | hq
    · exact hfresh
    · exact h.fresh q hq
  live q hq := by
    rcases List.mem_cons.mp hq with rfl | hq
    · exact Finmap.mem_insert.mpr (.inl rfl)
    · exact Finmap.mem_insert.mpr (.inr (h.live q hq))
  same q hq := by
    obtain ⟨hne, hq⟩ := not_or.mp (List.mem_cons.not.mp hq)
    rw [Finmap.lookup_insert_of_ne _ hne, h.same q hq]

/-- A store into a block that is owned. -/
theorem store (h : Owns before after ps) (hp : p ∈ ps) (c : α) :
    Leenix.store after p c = some (after.insert p c) ∧ Owns before (after.insert p c) ps := by
  refine ⟨if_pos (h.live p hp), h.nodup, h.fresh, fun q hq => ?_, fun q hq => ?_⟩
  · exact Finmap.mem_insert.mpr (.inr (h.live q hq))
  · have hne : q ≠ p := fun heq => hq (heq ▸ hp)
    rw [Finmap.lookup_insert_of_ne _ hne, h.same q hq]

/-- A block that is owned can be freed. The others keep what they hold. -/
theorem free (h : Owns before after (p :: ps)) :
    ∃ after', Leenix.free after p = some after' ∧ (∀ q, q ≠ p → after'.lookup q = after.lookup q) ∧
      Owns before after' ps := by
  obtain ⟨hnew, hnodup⟩ := List.nodup_cons.mp h.nodup
  refine ⟨after.erase p, if_pos (h.live p List.mem_cons_self),
    fun q hq => Finmap.lookup_erase_ne hq, hnodup,
    fun q hq => h.fresh q (List.mem_cons_of_mem p hq), fun q hq => ?_, fun q hq => ?_⟩
  · have hne : q ≠ p := fun heq => hnew (heq ▸ hq)
    exact Finmap.mem_erase.mpr ⟨hne, h.live q (List.mem_cons_of_mem p hq)⟩
  · by_cases heq : q = p
    · subst heq
      have hbefore := Finmap.lookup_eq_none.mpr (h.fresh q List.mem_cons_self)
      rw [Finmap.lookup_erase, hbefore]
    · rw [Finmap.lookup_erase_ne heq, h.same q fun hmem => (List.mem_cons.mp hmem).elim heq hq]

/-- **Closing the account.** Freeing what is owned gives back the heap before. -/
theorem freeAll (h : Owns before after ps) : Leenix.freeAll after ps = some before := by
  induction ps generalizing after with
  | nil => rw [h.eq_of_nil, Leenix.freeAll]
  | cons p ps ih =>
    obtain ⟨after', hfree, -, hrest⟩ := h.free
    rw [Leenix.freeAll, hfree, Option.bind_some]
    exact ih hrest

end Owns

end Leenix
