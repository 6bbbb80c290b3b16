import Mathlib.Logic.Basic

/-!
# Loops that a step ends

`for (;;) { … if (…) break; }`: a step that may fault tells whether it was the last one.
`Loops` says what the loop does, `loop` computes it within a bound on the turns.

- `Loops.loop_eq`: a measure that every turn but the last makes smaller is such a bound.
-/

namespace Leenix

universe u

variable {σ : Type u} {step : σ → Option (Bool × σ)} {s m s' : σ}

/-- At most `fuel` turns. -/
def loop (step : σ → Option (Bool × σ)) : Nat → σ → Option σ
  | 0, _ => none
  | fuel + 1, s => do
    let (last, s) ← step s
    if last then return s else loop step fuel s

/-- The loop leads from one state to the other. -/
inductive Loops (step : σ → Option (Bool × σ)) : σ → σ → Prop
  | last {s s' : σ} : step s = some (true, s') → Loops step s s'
  | turn {s m s' : σ} : step s = some (false, m) → Loops step m s' → Loops step s s'

/-- **Enough fuel.** -/
theorem Loops.loop_eq (measure : σ → Nat)
    (hturn : ∀ s m, step s = some (false, m) → measure m < measure s) (h : Loops step s s')
    {fuel : Nat} (hfuel : measure s < fuel) : loop step fuel s = some s' := by
  induction h generalizing fuel with
  | last hstep =>
    obtain ⟨fuel, rfl⟩ := Nat.exists_eq_add_of_lt hfuel
    rw [loop, hstep]
    rfl
  | @turn s m s' hstep _ ih =>
    obtain ⟨fuel, rfl⟩ : ∃ f, fuel = f + 1 := ⟨fuel - 1, by omega⟩
    have hless := hturn s m hstep
    rw [loop, hstep]
    exact ih (by omega)

end Leenix
