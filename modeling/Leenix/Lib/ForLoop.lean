import Mathlib.Data.UInt
import Mathlib.Logic.Function.Iterate

/-!
# Loops over a counter

`for (x = start; cond (x); x = next (x)) body (x);` with a bound on the number of turns.

- `forLoop_of_stops`: a loop whose condition fails at value number `n` ends after `n`
  turns.
- `forLoop_of_never`: one whose condition never fails does not end.
- `toNat_iterate_add`: the values of a 32-bit counter that goes up in equal steps.
-/

namespace Leenix

variable {α β : Type*} {cond : α → Bool} {next : α → α} {body : α → β} {x : α} {n fuel : Nat}

/-- What the body yields, turn after turn; `none` if the loop does not end within the
given number of checks. -/
def forLoop (cond : α → Bool) (next : α → α) (body : α → β) : Nat → α → Option (List β)
  | 0, _ => none
  | fuel + 1, x =>
    if cond x then (forLoop cond next body fuel (next x)).map (body x :: ·) else some []

/-- **The loop ends** at the first value that fails the condition. -/
theorem forLoop_of_stops (hrun : ∀ k, k < n → cond (next^[k] x) = true)
    (hstop : cond (next^[n] x) = false) (hfuel : n < fuel) :
    forLoop cond next body fuel x = some ((List.range n).map fun k => body (next^[k] x)) := by
  induction n generalizing x fuel with
  | zero =>
    obtain ⟨fuel, rfl⟩ := Nat.exists_eq_add_of_lt hfuel
    rw [Function.iterate_zero_apply] at hstop
    simp [forLoop, hstop]
  | succ n ih =>
    obtain ⟨fuel, rfl⟩ : ∃ f, fuel = f + 1 := ⟨fuel - 1, by omega⟩
    have hfirst : cond x = true := hrun 0 (Nat.succ_pos n)
    have hrest := ih (x := next x) (fun k hk => hrun (k + 1) (by omega)) hstop
      (Nat.lt_of_succ_lt_succ hfuel)
    rw [forLoop, if_pos hfirst, hrest, List.range_succ_eq_map, Option.map_some, List.map_cons,
      List.map_map]
    rfl

/-- **The loop does not end** if no value fails the condition. -/
theorem forLoop_of_never (h : ∀ k, cond (next^[k] x) = true) (fuel : Nat) :
    forLoop cond next body fuel x = none := by
  induction fuel generalizing x with
  | zero => rfl
  | succ fuel ih =>
    have hfirst : cond x = true := h 0
    rw [forLoop, if_pos hfirst, ih fun k => h (k + 1)]
    rfl

/-- Value number `k` of a 32-bit counter. -/
theorem toNat_iterate_add (step x : UInt32) (k : Nat) :
    ((· + step)^[k] x).toNat = (x.toNat + step.toNat * k) % 2 ^ 32 := by
  induction k with
  | zero => exact (Nat.mod_eq_of_lt x.toNat_lt).symm
  | succ k ih =>
    rw [Function.iterate_succ_apply', UInt32.toNat_add, ih, Nat.mod_add_mod, Nat.mul_succ,
      Nat.add_assoc]

end Leenix
