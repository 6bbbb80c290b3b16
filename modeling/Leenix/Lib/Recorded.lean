import Mathlib.Data.List.Basic

/-!
# Partial computations with a record

A computation that may fault, with the events it has recorded so far. A fault
keeps the events before it, so that a record can end with the event that explains
the fault.

- `Recorded.result_bind`, `Recorded.events_bind`: sequencing, for either half.
- `Recorded.result_lift`, `Recorded.events_lift`: a step that records nothing.
-/

namespace Leenix

universe u v

/-- The events recorded, and the result if there was no fault. -/
structure Recorded (ε : Type u) (α : Type v) where
  events : List ε
  result : Option α

namespace Recorded

variable {ε : Type u} {α β : Type v}

/-- A step that records nothing. -/
def lift (x : Option α) : Recorded ε α := ⟨[], x⟩

/-- Record events. -/
def emit (es : List ε) : Recorded ε PUnit := ⟨es, some ⟨⟩⟩

/-- Record an event and fault. -/
def fault (e : ε) : Recorded ε α := ⟨[e], none⟩

instance : Monad (Recorded ε) where
  pure a := lift (some a)
  bind x f :=
    match x.result with
    | none => ⟨x.events, none⟩
    | some a => ⟨x.events ++ (f a).events, (f a).result⟩

@[simp] theorem result_pure (a : α) : (pure a : Recorded ε α).result = some a := rfl

@[simp] theorem events_pure (a : α) : (pure a : Recorded ε α).events = [] := rfl

@[simp] theorem result_lift (x : Option α) : (lift x : Recorded ε α).result = x := rfl

@[simp] theorem events_lift (x : Option α) : (lift x : Recorded ε α).events = [] := rfl

@[simp] theorem result_emit (es : List ε) : (emit es).result = some ⟨⟩ := rfl

@[simp] theorem events_emit (es : List ε) : (emit es).events = es := rfl

@[simp] theorem result_fault (e : ε) : (fault e : Recorded ε α).result = none := rfl

@[simp] theorem events_fault (e : ε) : (fault e : Recorded ε α).events = [e] := rfl

@[simp] theorem result_bind (x : Recorded ε α) (f : α → Recorded ε β) :
    (x >>= f).result = x.result.bind fun a => (f a).result := by
  show (match x.result with
    | none => (⟨x.events, none⟩ : Recorded ε β)
    | some a => ⟨x.events ++ (f a).events, (f a).result⟩).result = _
  cases x.result <;> rfl

@[simp] theorem events_bind (x : Recorded ε α) (f : α → Recorded ε β) :
    (x >>= f).events = x.events ++ (x.result.map fun a => (f a).events).getD [] := by
  show (match x.result with
    | none => (⟨x.events, none⟩ : Recorded ε β)
    | some a => ⟨x.events ++ (f a).events, (f a).result⟩).events = _
  cases x.result <;> simp

/-! ## A computation step by step -/

@[simp] theorem pure_bind (a : α) (f : α → Recorded ε β) : (pure a : Recorded ε α) >>= f = f a := rfl

@[simp] theorem lift_some_bind (a : α) (f : α → Recorded ε β) : lift (some a) >>= f = f a := rfl

@[simp] theorem lift_none_bind (f : α → Recorded ε β) : lift none >>= f = lift none := rfl

@[simp] theorem mk_some_bind (es : List ε) (a : α) (f : α → Recorded ε β) :
    (⟨es, some a⟩ : Recorded ε α) >>= f = ⟨es ++ (f a).events, (f a).result⟩ := rfl

@[simp] theorem mk_none_bind (es : List ε) (f : α → Recorded ε β) :
    (⟨es, none⟩ : Recorded ε α) >>= f = ⟨es, none⟩ := rfl

@[simp] theorem emit_bind (es : List ε) (f : PUnit → Recorded ε β) :
    emit es >>= f = ⟨es ++ (f ⟨⟩).events, (f ⟨⟩).result⟩ := rfl

@[simp] theorem fault_bind (e : ε) (f : α → Recorded ε β) : fault e >>= f = fault e := rfl

end Recorded

end Leenix
