import Mathlib.Data.List.Forall2
import Leenix.Lib.Run

/-!
# Refinement of runs

An abstract machine is a relation `α → ε → α → Prop` between states, labelled with
events.

- `Run.simulates`: if every allowed step of the program is explained by an event of the
  abstract machine, up to a relation between the states, every run is explained by the
  list of the events.
- `Run.response`: if the steps that matter (the ticks) use up a rank of the abstract
  state, and no step adds to it, what is waited for comes within as many ticks.
-/

namespace Leenix

universe u v w x

variable {σ : Type u} {ι : Type v} {α : Type w} {ε : Type x}

/-- `Events step a evs a'`: the events `evs`, oldest first, lead from `a` to `a'`. -/
inductive Events (step : α → ε → α → Prop) (a : α) : List ε → α → Prop
  | nil : Events step a [] a
  | snoc {evs : List ε} {m a' : α} {e : ε} :
      Events step a evs m → step m e a' → Events step a (evs ++ [e]) a'

namespace Run

variable {step : σ → ι → Option σ} {astep : α → ε → α → Prop} {R : σ → α → Prop}
  {ok : Edge σ ι → Prop} {s s' : σ} {a : α} {tr : List (Edge σ ι)}

/-- **Forward simulation.** `Obs` says which event explains which step. -/
theorem simulates {Obs : Edge σ ι → ε → Prop} (hrun : Run step s tr s') (hok : ∀ e ∈ tr, ok e)
    (hinit : R s a)
    (hstep : ∀ m i m' a, R m a → step m i = some m' → ok ⟨m, i, m'⟩ →
      ∃ ev a', Obs ⟨m, i, m'⟩ ev ∧ astep a ev a' ∧ R m' a') :
    ∃ evs a', List.Forall₂ Obs tr evs ∧ Events astep a evs a' ∧ R s' a' := by
  induction hrun with
  | nil => exact ⟨[], a, .nil, .nil, hinit⟩
  | snoc hrun hlast ih =>
    obtain ⟨evs, am, hobs, hevents, hm⟩ := ih fun e he => hok e (List.mem_append_left _ he)
    obtain ⟨ev, a', hev, hastep, hs'⟩ := hstep _ _ _ _ hm hlast (hok _ (by simp))
    exact ⟨evs ++ [ev], a', List.rel_append hobs (.cons hev .nil), hevents.snoc hastep, hs'⟩

/-- **Bounded response.** While something is pending, no step raises the rank and every
tick lowers it, so that a run with as many ticks as the rank holds a step that serves. -/
theorem response (pending : α → Prop) (rank : α → Nat) {serves : Edge σ ι → Prop}
    {tick : Edge σ ι → Bool} (hrun : Run step s tr s') (hok : ∀ e ∈ tr, ok e)
    (hinit : R s a) (hpending : pending a) (hpos : ∀ a, pending a → 0 < rank a)
    (hstep : ∀ m i m' a, R m a → step m i = some m' → ok ⟨m, i, m'⟩ → pending a →
      serves ⟨m, i, m'⟩ ∨ ∃ a', R m' a' ∧ pending a' ∧
        rank a' + (if tick ⟨m, i, m'⟩ then 1 else 0) ≤ rank a)
    (hticks : rank a ≤ tr.countP tick) : ∃ e ∈ tr, serves e := by
  suffices h : (∃ e ∈ tr, serves e) ∨
      ∃ a', R s' a' ∧ pending a' ∧ rank a' + tr.countP tick ≤ rank a by
    rcases h with hserved | ⟨a', -, ha', hrank⟩
    · exact hserved
    · have := hpos a' ha'
      omega
  clear hticks
  induction hrun with
  | nil => exact .inr ⟨a, hinit, hpending, by simp⟩
  | snoc hrun hlast ih =>
    rcases ih fun e he => hok e (List.mem_append_left _ he) with ⟨e, he, hserves⟩ |
      ⟨am, hm, ham, hrank⟩
    · exact .inl ⟨e, List.mem_append_left _ he, hserves⟩
    · rcases hstep _ _ _ _ hm hlast (hok _ (by simp)) ham with hserves | ⟨a', hs', ha', hless⟩
      · exact .inl ⟨_, by simp, hserves⟩
      · refine .inr ⟨a', hs', ha', ?_⟩
        rw [List.countP_append, List.countP_singleton]
        omega

end Run

end Leenix
