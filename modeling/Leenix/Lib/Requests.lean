import Leenix.Lib.PortIo

/-!
# Programs that ask

A program that knows its surroundings by requests and what they are answered. What it asks
may depend on the answers before.

- `answeredBy`: the program, if every request has one answer.
- `serve`: the same with a server whose answers depend on its state.
- `perform`: the program on a machine, where a request is a program for the ports.
- `perform_acts`: a machine that behaves like the server on each request does so on every
  program.
-/

namespace Leenix

/-- A program with requests `Q` and answers `R`. A step with no defined result is `stuck`. -/
inductive Requests (Q R α : Type) where
  | done (a : α)
  | stuck
  | ask (request : Q) (next : R → Requests Q R α)

namespace Requests

variable {Q R S α β : Type}

protected def bind : Requests Q R α → (α → Requests Q R β) → Requests Q R β
  | done a, f => f a
  | stuck, _ => stuck
  | ask request next, f => ask request fun r => (next r).bind f

instance : Monad (Requests Q R) where
  pure := done
  bind := Requests.bind

/-- One request. -/
def send (request : Q) : Requests Q R R := ask request done

/-- A step that asks nothing. -/
def ofOption : Option α → Requests Q R α
  | none => stuck
  | some a => done a

/-- What the program returns, with one answer for each request. -/
def answeredBy (answer : Q → R) : Requests Q R α → Option α
  | done a => some a
  | stuck => none
  | ask request next => (next (answer request)).answeredBy answer

/-- What the program returns, and the state in which it leaves the server. -/
def serve (answer : S → Q → R × S) : Requests Q R α → S → Option (α × S)
  | done a, s => some (a, s)
  | stuck, _ => none
  | ask request next, s => (next (answer s request).1).serve answer (answer s request).2

/-- The program with a program for each request. -/
def perform {σ : Type} (run : Q → Io σ R) : Requests Q R α → Io σ α
  | done a => pure a
  | stuck => fun _ => none
  | ask request next => do (next (← run request)).perform run

section Answers

variable (answer : Q → R)

@[simp] theorem answeredBy_pure (a : α) :
    (pure a : Requests Q R α).answeredBy answer = some a := rfl

@[simp] theorem answeredBy_stuck :
    (stuck : Requests Q R α).answeredBy answer = none := rfl

@[simp] theorem answeredBy_send (request : Q) :
    (send request).answeredBy answer = some (answer request) := rfl

@[simp] theorem answeredBy_ofOption (r : Option α) :
    (ofOption r : Requests Q R α).answeredBy answer = r := by
  cases r <;> rfl

@[simp] theorem answeredBy_bind (p : Requests Q R α) (f : α → Requests Q R β) :
    (p >>= f).answeredBy answer = (p.answeredBy answer).bind fun a => (f a).answeredBy answer := by
  show (p.bind f).answeredBy answer = _
  induction p with
  | done a => rfl
  | stuck => rfl
  | ask request next ih => exact ih (answer request)

/-- A server that always answers the same. -/
theorem serve_eq {server : S → Q → R × S} (hanswer : ∀ s request, (server s request).1 = answer request)
    (p : Requests Q R α) (s : S) : (p.serve server s).map Prod.fst = p.answeredBy answer := by
  induction p generalizing s with
  | done a => rfl
  | stuck => rfl
  | ask request next ih =>
    rw [serve, answeredBy, hanswer]
    exact ih (answer request) _

end Answers

section Machine

variable {σ τ : Type} {look : σ → Option τ} {run : Q → Io σ R} {server : S → Q → R × S}
  {implements : S → τ → Prop}

/-- **Implementation.** If every request leads from a state that implements one of the server
to another such, with the server's answer, then so does every program that the server can
answer; and one that gets stuck there gets stuck on the machine. -/
theorem perform_acts
    (hask : ∀ s v request, implements s v → ∃ v', Acts look (run request) v (server s request).1 v' ∧
      implements (server s request).2 v')
    (p : Requests Q R α) {s : S} {v : τ} (h : implements s v) :
    (∀ a s', p.serve server s = some (a, s') →
      ∃ v', Acts look (p.perform run) v a v' ∧ implements s' v') ∧
    (p.serve server s = none → ∀ m, look m = some v → p.perform run m = none) := by
  induction p generalizing s v with
  | done a =>
    refine ⟨fun a' s' hserve => ?_, fun hserve => (nomatch hserve)⟩
    obtain ⟨rfl, rfl⟩ := Prod.mk.inj (Option.some.inj hserve)
    exact ⟨v, .pure a, h⟩
  | stuck => exact ⟨fun _ _ hserve => (nomatch hserve), fun _ _ _ => rfl⟩
  | ask request next ih =>
    obtain ⟨v', hacts, h'⟩ := hask s v request h
    obtain ⟨hsome, hnone⟩ := ih (server s request).1 h'
    refine ⟨fun a s' hserve => ?_, fun hserve m hm => ?_⟩
    · obtain ⟨v'', hrest, h''⟩ := hsome a s' hserve
      exact ⟨v'', hacts.bind hrest, h''⟩
    · obtain ⟨m', hrun, hm'⟩ := hacts m hm
      rw [perform, Io.run_bind, hrun]
      exact hnone hserve m' hm'

end Machine

end Requests

end Leenix
