import Mathlib.Data.List.Basic

/-!
# Runs of a partial step function

A program whose operations may fault is a step function `σ → ι → Option σ`.
A run is the list of its edges, each recording the state before, the input and
the state after, so that side conditions ("no step of this run does …") and
ghost histories ("posted and not dispatched since") are functions of the run
itself and need no extra state component.

- `Run step s tr s'`: the edges `tr` lead from `s` to `s'`.
- `Run.congr`: what matters of the step function is its values at the edges.
- `Run.invariant`: what every allowed step preserves holds at the end.
- `Run.invariant_ghost`: the same with a ghost value folded along the edges.
- `Run.split_at`: a run up to one of its edges is a run.
- `Run.prefix_of_mem`: every edge starts in a state that a prefix of the run reaches.
- `Run.of_defined`: the run on given inputs, for runs on concrete states.
-/

namespace Leenix

universe u v w

/-- One step of a run: the state before, the input, the state after. -/
structure Edge (σ : Type u) (ι : Type v) where
  pre : σ
  op : ι
  post : σ

/-- `Run step s tr s'`: the steps `tr`, oldest first, lead from `s` to `s'`. -/
inductive Run {σ : Type u} {ι : Type v} (step : σ → ι → Option σ) (s : σ) :
    List (Edge σ ι) → σ → Prop
  | nil : Run step s [] s
  | snoc {tr : List (Edge σ ι)} {m s' : σ} {i : ι} :
      Run step s tr m → step m i = some s' → Run step s (tr ++ [⟨m, i, s'⟩]) s'

namespace Run

variable {σ : Type u} {ι : Type v} {γ : Type w} {step : σ → ι → Option σ}
  {s s' : σ} {tr : List (Edge σ ι)}

/-- A one-step run. -/
theorem single {i : ι} (h : step s i = some s') : Run step s [⟨s, i, s'⟩] s' :=
  .snoc .nil h

/-- A run of another step function that takes the same steps. -/
theorem congr {step' : σ → ι → Option σ} (hrun : Run step s tr s')
    (hsame : ∀ e ∈ tr, step' e.pre e.op = step e.pre e.op) : Run step' s tr s' := by
  induction hrun with
  | nil => exact .nil
  | snoc hrun hlast ih =>
    have hpre := ih fun e he => hsame e (List.mem_append_left _ he)
    have hstep := hsame _ (List.mem_append_right _ (List.mem_singleton_self _))
    exact hpre.snoc (hstep.trans hlast)

/-- **Invariant rule**: a predicate of the start state that every allowed step
preserves holds of the end state of every run of allowed steps. -/
theorem invariant {P : σ → Prop} {ok : Edge σ ι → Prop} (hrun : Run step s tr s')
    (hok : ∀ e ∈ tr, ok e) (hinit : P s)
    (hstep : ∀ m i m', P m → step m i = some m' → ok ⟨m, i, m'⟩ → P m') : P s' := by
  induction hrun with
  | nil => exact hinit
  | snoc hrun hlast ih =>
    have hpre := ih fun e he => hok e (List.mem_append_left _ he)
    exact hstep _ _ _ hpre hlast (hok _ (by simp))

/-- **Invariant rule with a ghost**: `upd` folds a history value along the
edges, and the invariant relates the state to that history. -/
theorem invariant_ghost {P : σ → γ → Prop} {ok : Edge σ ι → Prop} {g : γ}
    (upd : γ → Edge σ ι → γ) (hrun : Run step s tr s')
    (hok : ∀ e ∈ tr, ok e) (hinit : P s g)
    (hstep : ∀ m i m' g, P m g → step m i = some m' → ok ⟨m, i, m'⟩ →
      P m' (upd g ⟨m, i, m'⟩)) : P s' (tr.foldl upd g) := by
  induction hrun with
  | nil => exact hinit
  | snoc hrun hlast ih =>
    have hpre := ih fun e he => hok e (List.mem_append_left _ he)
    rw [List.foldl_append]
    exact hstep _ _ _ _ hpre hlast (hok _ (by simp))

/-- A run taken apart at one of its edges. -/
theorem split_at {tr₁ tr₂ : List (Edge σ ι)} {e : Edge σ ι}
    (hrun : Run step s (tr₁ ++ e :: tr₂) s') :
    Run step s tr₁ e.pre ∧ step e.pre e.op = some e.post := by
  generalize htr : tr₁ ++ e :: tr₂ = tr at hrun
  induction hrun generalizing tr₂ with
  | nil => simp at htr
  | snoc hrun hlast ih =>
    rcases List.eq_nil_or_concat tr₂ with rfl | ⟨tr₂, e', rfl⟩
    · obtain ⟨rfl, rfl⟩ := List.concat_inj.mp (by simpa using htr)
      exact ⟨hrun, hlast⟩
    · rw [List.concat_eq_append, ← List.cons_append, ← List.append_assoc] at htr
      exact ih (List.append_inj_left' htr rfl)

/-- Every edge of a run starts in a state that the run's own prefix reaches. -/
theorem prefix_of_mem {e : Edge σ ι} (hrun : Run step s tr s') (he : e ∈ tr) :
    ∃ tr₁ tr₂, tr = tr₁ ++ e :: tr₂ ∧ Run step s tr₁ e.pre ∧
      step e.pre e.op = some e.post := by
  obtain ⟨tr₁, tr₂, rfl⟩ := List.append_of_mem he
  exact ⟨tr₁, tr₂, rfl, hrun.split_at⟩

/-! ## Runs on given inputs -/

/-- The state after a step, the old one when the step is undefined. -/
def next (step : σ → ι → Option σ) (s : σ) (i : ι) : σ := (step s i).getD s

/-- The edges of the run on the inputs `is`. -/
def replay (step : σ → ι → Option σ) : σ → List ι → List (Edge σ ι)
  | _, [] => []
  | s, i :: is => ⟨s, i, next step s i⟩ :: replay step (next step s i) is

/-- Every step of the run on the inputs `is` is defined. -/
def defined (step : σ → ι → Option σ) : σ → List ι → Bool
  | _, [] => true
  | s, i :: is => (step s i).isSome && defined step (next step s i) is

theorem replay_append (s : σ) (is js : List ι) : replay step s (is ++ js) =
    replay step s is ++ replay step (is.foldl (next step) s) js := by
  induction is generalizing s with
  | nil => rfl
  | cons i is ih => simp [replay, ih]

theorem op_mem_of_mem_replay {is : List ι} {e : Edge σ ι} (he : e ∈ replay step s is) :
    e.op ∈ is := by
  induction is generalizing s with
  | nil => cases he
  | cons i is ih =>
    rcases List.mem_cons.mp he with rfl | he
    · exact List.mem_cons_self
    · exact List.mem_cons_of_mem i (ih he)

theorem cons {m : σ} {i : ι} (hrun : Run step m tr s') (h : step s i = some m) :
    Run step s (⟨s, i, m⟩ :: tr) s' := by
  induction hrun with
  | nil => exact single h
  | snoc _ hlast ih => exact .snoc ih hlast

/-- Defined inputs give a run. -/
theorem of_defined (is : List ι) (h : defined step s is = true) :
    Run step s (replay step s is) (is.foldl (next step) s) := by
  induction is generalizing s with
  | nil => exact .nil
  | cons i is ih =>
    simp only [defined, Bool.and_eq_true] at h
    obtain ⟨m, hm⟩ := Option.isSome_iff_exists.mp h.1
    have hnext : next step s i = m := by simp [next, hm]
    rw [hnext] at h
    simp only [replay, List.foldl_cons, hnext]
    exact (ih h.2).cons hm

end Run

end Leenix
