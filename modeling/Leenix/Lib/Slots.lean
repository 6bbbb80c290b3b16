import Mathlib.Data.List.ReduceOption

/-!
# Tables of slots

A table of bounded size whose entries are free (`none`) or taken: a value goes
into the first free slot, and is removed from the first slot that holds it. Up to
order, the values in the table are a list that grows by `cons` and shrinks by
`erase`, except that a full table drops what is inserted.

- `Slots.insert_perm`, `Slots.insert_full`: insertion with and without a free slot.
- `Slots.remove_reduceOption`: removal.
- `Slots.mem_insert_self`, `Slots.remove_insert_iff`: a value that was just inserted,
  and when its removal undoes that.
-/

namespace Leenix

namespace Slots

variable {α : Type*} [DecidableEq α] {l : List (Option α)} {a : α}

/-- Store `a` in the first free slot, if there is one. -/
def insert (l : List (Option α)) (a : α) : List (Option α) := l.set (l.idxOf none) (some a)

/-- Free the first slot that holds `a`. -/
def remove (l : List (Option α)) (a : α) : List (Option α) := l.set (l.idxOf (some a)) none

@[simp] theorem length_insert : (insert l a).length = l.length := List.length_set

@[simp] theorem length_remove : (remove l a).length = l.length := List.length_set

theorem insert_none_cons : insert (none :: l) a = some a :: l := by
  simp [insert]

theorem insert_some_cons (b : α) : insert (some b :: l) a = some b :: insert l a := by
  simp [insert]

/-- A full table drops the value. -/
theorem insert_full (h : none ∉ l) : insert l a = l := by
  rw [insert, List.idxOf_eq_length h, List.set_eq_of_length_le (Nat.le_refl _)]

theorem insert_perm (h : none ∈ l) : (insert l a).reduceOption.Perm (a :: l.reduceOption) := by
  induction l with
  | nil => cases h
  | cons e l ih =>
    cases e with
    | none =>
      rw [insert_none_cons, List.reduceOption_cons_of_some, List.reduceOption_cons_of_none]
    | some b =>
      have hl : none ∈ l := (List.mem_cons.mp h).resolve_left (by simp)
      rw [insert_some_cons, List.reduceOption_cons_of_some, List.reduceOption_cons_of_some]
      exact ((ih hl).cons b).trans (List.Perm.swap a b _)

theorem insert_eq_self_iff : insert l a = l ↔ none ∉ l := by
  constructor
  · intro heq hnone
    have hlen := (insert_perm (a := a) hnone).length_eq
    rw [heq, List.length_cons] at hlen
    omega
  · exact insert_full

theorem remove_reduceOption : (remove l a).reduceOption = l.reduceOption.erase a := by
  induction l with
  | nil => rfl
  | cons e l ih =>
    by_cases he : e = some a
    · subst he
      simp [remove, List.reduceOption_cons_of_some, List.reduceOption_cons_of_none]
    · have hcons : remove (e :: l) a = e :: remove l a := by
        simp [remove, List.idxOf_cons_ne l he]
      rw [hcons]
      cases e with
      | none => rw [List.reduceOption_cons_of_none, List.reduceOption_cons_of_none, ih]
      | some b =>
        have hb : ¬b = a := fun hba => he (congrArg some hba)
        rw [List.reduceOption_cons_of_some, List.reduceOption_cons_of_some, ih,
          List.erase_cons_tail (by simpa using hb)]

/-- What is inserted is in the table, unless the table is full and does not hold it
already. -/
theorem mem_insert_self : some a ∈ insert l a ↔ none ∈ l ∨ some a ∈ l := by
  induction l with
  | nil => simp [insert]
  | cons e l ih =>
    cases e with
    | none => simp [insert_none_cons]
    | some b =>
      rw [insert_some_cons, List.mem_cons, List.mem_cons, List.mem_cons, ih]
      simp only [reduceCtorEq, false_or]
      exact or_left_comm

theorem remove_some_cons_of_ne {b : α} (h : b ≠ a) :
    remove (some b :: l) a = some b :: remove l a := by
  have hne : some b ≠ some a := fun heq => h (Option.some.inj heq)
  simp [remove, List.idxOf_cons_ne l hne]

/-- Removal undoes an insertion, if the value is not in an earlier slot as well. -/
theorem remove_insert_iff : remove (insert l a) a = l ↔ some a ∉ l.takeWhile (· ≠ none) := by
  induction l with
  | nil => simp [insert, remove]
  | cons e l ih =>
    cases e with
    | none => simp [insert_none_cons, remove]
    | some b =>
      rw [insert_some_cons, List.takeWhile_cons_of_pos (by simp), List.mem_cons]
      by_cases hba : b = a
      · subst hba
        simp [remove]
      · have hab : ¬a = b := fun h => hba h.symm
        rw [remove_some_cons_of_ne hba, List.cons_inj_right, ih]
        simp [hab]

end Slots

end Leenix
