import Leenix.Lib.Simulation

/-!
# Call and answer

A service has a state, and answers each call by a function of the state and of the request. One
call is served at a time.

- `Service.Step`: the service as an abstract machine.
- `Service.replies`: what a list of calls is answered.
- `Service.events_replies`: whatever else happens, the answers are the replies to the calls, in
  order, and at most the last one is missing.
-/

namespace Leenix

namespace Service

universe u v w

variable {σ : Type u} {Req : Type v} {Rep : Type w}

/-- A service between two calls, and one that owes an answer. -/
inductive State (σ : Type u) (Rep : Type w)
  | idle (s : σ)
  | busy (s : σ) (reply : Rep)

inductive Event (Req : Type v) (Rep : Type w)
  | call (req : Req)
  | answer (reply : Rep)
  | internal

/-- What a service may do. -/
inductive Step (serve : σ → Req → σ × Rep) : State σ Rep → Event Req Rep → State σ Rep → Prop
  | call (s : σ) (req : Req) :
      Step serve (.idle s) (.call req) (.busy (serve s req).1 (serve s req).2)
  | answer (s : σ) (reply : Rep) : Step serve (.busy s reply) (.answer reply) (.idle s)
  | internal (a : State σ Rep) : Step serve a .internal a

/-- The request of a call. -/
def Event.request? : Event Req Rep → Option Req
  | .call req => some req
  | _ => none

/-- The reply of an answer. -/
def Event.reply? : Event Req Rep → Option Rep
  | .answer reply => some reply
  | _ => none

/-- The state after a list of calls. -/
def after (serve : σ → Req → σ × Rep) (s : σ) (reqs : List Req) : σ :=
  reqs.foldl (fun s req => (serve s req).1) s

/-- What a list of calls is answered. -/
def replies (serve : σ → Req → σ × Rep) : σ → List Req → List Rep
  | _, [] => []
  | s, req :: reqs => (serve s req).2 :: replies serve (serve s req).1 reqs

/-- The answer that is owed. -/
def State.owed : State σ Rep → List Rep
  | .idle _ => []
  | .busy _ reply => [reply]

/-- The state itself. -/
def State.state : State σ Rep → σ
  | .idle s => s
  | .busy s _ => s

variable {serve : σ → Req → σ × Rep} {s : σ} {a : State σ Rep} {evs : List (Event Req Rep)}

theorem after_append (serve : σ → Req → σ × Rep) (s : σ) (reqs reqs' : List Req) :
    after serve s (reqs ++ reqs') = after serve (after serve s reqs) reqs' :=
  List.foldl_append

theorem replies_append (serve : σ → Req → σ × Rep) (s : σ) (reqs reqs' : List Req) :
    replies serve s (reqs ++ reqs') =
      replies serve s reqs ++ replies serve (after serve s reqs) reqs' := by
  induction reqs generalizing s with
  | nil => rfl
  | cons r reqs ih =>
    rw [List.cons_append, replies, ih, replies, List.cons_append]
    rfl

/-- **Answers.** The answers given and the one that is owed are the replies to the calls. -/
theorem events_replies (hevents : Events (Step serve) (.idle s) evs a) :
    a.state = after serve s (evs.filterMap Event.request?) ∧
      evs.filterMap Event.reply? ++ a.owed = replies serve s (evs.filterMap Event.request?) := by
  induction hevents with
  | nil => exact ⟨rfl, rfl⟩
  | snoc _ hstep ih =>
    obtain ⟨hstate, hreplies⟩ := ih
    simp only [List.filterMap_append, List.filterMap_cons, List.filterMap_nil]
    cases hstep with
    | call s' req =>
      simp only [State.state, State.owed, List.append_nil] at hstate hreplies
      simp only [Event.request?, Event.reply?, State.state, State.owed, after_append,
        replies_append, replies, List.append_nil, ← hstate, hreplies, and_true]
      rfl
    | answer s' reply =>
      simp only [State.state, State.owed] at hstate hreplies
      simp only [Event.request?, Event.reply?, State.state, State.owed, List.append_nil, hstate,
        hreplies, and_self]
    | internal =>
      simp only [Event.request?, Event.reply?, List.append_nil, hstate, hreplies, and_self]

end Service

end Leenix
