import Mathlib.Data.List.Basic
import Mathlib.Data.List.Nodup

/-!
# Round robin

One of the members runs, for at most `q` ticks at a time; the others wait in line. The
tick that ends a turn sends the one that ran to the end of the line and lets the first in
line run. `Rota.Step` has nothing but this, members that join at the end of the line,
and members that leave.

- `Rota.Step.stopped_iff`: everything stops when the last one exits.
- `Rota.Step.waits`: whoever waits in line is let in, leaves, or is `wait` nearer to its
  turn: nobody overtakes.
-/

namespace Leenix

universe u

/-- Who runs, the ticks left of the turn, the line, and whether everything has stopped. -/
structure Rota (α : Type u) where
  current : α
  left : Nat
  line : List α
  stopped : Bool

namespace Rota

variable {α : Type u} [DecidableEq α] {q : Nat} {a a' : Rota α} {t : α}

/-- What happens to a rota. -/
inductive Event (α : Type u)
  | tick
  | exit
  | join (t : α)
  | leave (ks : List α)
  | other

/-- The ticks that an event takes. -/
def Event.ticks : Event α → Nat
  | .tick => 1
  | _ => 0

/-- One step, for turns of `q` ticks. -/
inductive Step (q : Nat) : Rota α → Event α → Rota α → Prop
  | count (c : α) (left : Nat) (ts : List α) :
      Step q ⟨c, left + 2, ts, false⟩ .tick ⟨c, left + 1, ts, false⟩
  | turn {c n : α} {ts rest : List α} : ts ++ [c] = n :: rest →
      Step q ⟨c, 1, ts, false⟩ .tick ⟨n, q, rest, false⟩
  | exit (c : α) (left : Nat) (n : α) (ts : List α) :
      Step q ⟨c, left, n :: ts, false⟩ .exit ⟨n, q, ts, false⟩
  | stop (c : α) (left : Nat) : Step q ⟨c, left, [], false⟩ .exit ⟨c, left, [], true⟩
  | join {c t : α} {left : Nat} {ts : List α} : t ∉ c :: ts →
      Step q ⟨c, left, ts, false⟩ (.join t) ⟨c, left, ts ++ [t], false⟩
  | leave {c : α} {left : Nat} {ts ks : List α} : c ∉ ks →
      Step q ⟨c, left, ts, false⟩ (.leave ks) ⟨c, left, ts.filter (· ∉ ks), false⟩
  | other (a : Rota α) : Step q a .other a

/-- Everything stops when the last one exits, and else goes on. -/
theorem Step.stopped_iff {e : Event α} (h : Step q a e a') (hgoes : a.stopped = false) :
    a'.stopped = true ↔ e = .exit ∧ a.line = [] := by
  cases h with
  | stop => simp
  | exit => simp
  | count | turn | join | leave => simp
  | other => simp [hgoes]

/-- The ticks until the turn of `t`, if everybody before it takes the whole turn. -/
def wait (q : Nat) (a : Rota α) (t : α) : Nat := q * a.line.idxOf t + a.left

/-- Those who leave let the others move up. -/
theorem idxOf_filter_le {ts ks : List α} (ht : t ∉ ks) :
    (ts.filter (· ∉ ks)).idxOf t ≤ ts.idxOf t := by
  induction ts with
  | nil => simp
  | cons u us ih =>
    by_cases hu : u ∈ ks
    · have hut : u ≠ t := fun h => ht (h ▸ hu)
      rw [List.filter_cons_of_neg (by simpa using hu), List.idxOf_cons_ne _ hut]
      omega
    · rw [List.filter_cons_of_pos (by simpa using hu)]
      by_cases hut : u = t
      · simp [hut]
      · rw [List.idxOf_cons_ne _ hut, List.idxOf_cons_ne _ hut]
        omega

/-- The first in line is let in, and everybody else is one turn nearer. -/
theorem idxOf_rest {n : α} {ts rest more : List α} (hline : ts ++ more = n :: rest) (ht : t ∈ ts)
    (htn : t ≠ n) : t ∈ rest ∧ rest.idxOf t + 1 = ts.idxOf t := by
  obtain ⟨u, us, rfl⟩ := List.exists_cons_of_ne_nil (List.ne_nil_of_mem ht)
  rw [List.cons_append] at hline
  obtain ⟨rfl, rfl⟩ := List.cons.inj hline
  have hus : t ∈ us := (List.mem_cons.mp ht).resolve_left htn
  refine ⟨List.mem_append_left _ hus, ?_⟩
  rw [List.idxOf_append_of_mem hus, List.idxOf_cons_ne _ htn.symm]

/-- One turn nearer, in ticks. -/
theorem wait_rest {n : α} {ts rest more : List α} (hline : ts ++ more = n :: rest) (ht : t ∈ ts)
    (htn : t ≠ n) : q * rest.idxOf t + q = q * ts.idxOf t := by
  rw [← (idxOf_rest hline ht htn).2, Nat.mul_succ]

/-- **Nobody overtakes.** A step lets the waiting `t` in, or takes it out of the line, or
leaves it in line, with no more ticks to wait, and one fewer after a tick. -/
theorem Step.waits {e : Event α} (h : Step q a e a') (ht : t ∈ a.line) :
    a'.current = t ∨ (∃ ks, e = .leave ks ∧ t ∈ ks) ∨
      t ∈ a'.line ∧ wait q a' t + e.ticks ≤ wait q a t := by
  cases h with
  | count c left ts => exact .inr (.inr ⟨ht, by simp only [wait, Event.ticks]; omega⟩)
  | @turn c n ts rest hline =>
    by_cases htn : t = n
    · exact .inl htn.symm
    · have hwait : q * rest.idxOf t + q = q * ts.idxOf t := wait_rest hline ht htn
      exact .inr (.inr ⟨(idxOf_rest hline ht htn).1, by simp only [wait, Event.ticks]; omega⟩)
  | exit c left n ts =>
    by_cases htn : t = n
    · exact .inl htn.symm
    · have hline : n :: ts ++ [] = n :: ts := List.append_nil _
      have hwait : q * ts.idxOf t + q = q * (n :: ts).idxOf t := wait_rest hline ht htn
      exact .inr (.inr ⟨(idxOf_rest hline ht htn).1, by simp only [wait, Event.ticks]; omega⟩)
  | stop => cases ht
  | @join c u left ts hu =>
    refine .inr (.inr ⟨List.mem_append_left _ ht, ?_⟩)
    simp only [wait, Event.ticks, List.idxOf_append_of_mem ht]
    omega
  | @leave c left ts ks hc =>
    by_cases htk : t ∈ ks
    · exact .inr (.inl ⟨ks, rfl, htk⟩)
    · have hwait : q * (ts.filter (· ∉ ks)).idxOf t ≤ q * ts.idxOf t :=
        Nat.mul_le_mul_left q (idxOf_filter_le htk)
      refine .inr (.inr ⟨List.mem_filter.mpr ⟨ht, by simpa using htk⟩, ?_⟩)
      simp only [wait, Event.ticks]
      omega
  | other => exact .inr (.inr ⟨ht, by simp [Event.ticks]⟩)

end Rota

end Leenix
