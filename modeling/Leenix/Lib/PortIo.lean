import Mathlib.Data.List.Basic

/-!
# Programs that access ports

A machine is known to a program through its ports, its memory and the interrupts it waits
for. A program is a state transformer that may wait for ever.

- `Acts`: what a program does from all states that look alike, for a given way of looking.
- `Acts.bind`: programs one after the other.
-/

namespace Leenix

universe u v

/-- The ports of a machine with states `σ`. `await` is the wait for an interrupt, which has
no result if none comes. -/
structure Ports (σ : Type u) where
  input : Nat → σ → UInt8 × σ
  output : UInt8 → Nat → σ → σ
  await : σ → Option σ
  load : σ → Nat → UInt8

/-- A program for such a machine. -/
abbrev Io (σ : Type u) := StateT σ Option

namespace Io

variable {σ : Type u} {α β : Type u} (hw : Ports σ)

@[simp] theorem run_bind (m : Io σ α) (f : α → Io σ β) (s : σ) :
    (m >>= f) s = (m s).bind fun r => f r.1 r.2 := by
  show (m s >>= fun r => f r.1 r.2) = _
  cases m s <;> rfl

@[simp] theorem run_pure (a : α) (s : σ) : (pure a : Io σ α) s = some (a, s) := rfl

end Io

namespace Io

variable {σ : Type} (hw : Ports σ)

def inb (port : Nat) : Io σ UInt8 := fun s => some (hw.input port s)

def outb (value : UInt8) (port : Nat) : Io σ Unit := fun s => some ((), hw.output value port s)

/-- The wait for an interrupt. -/
def await : Io σ Unit := fun s => (hw.await s).map fun s' => ((), s')

/-- `n` bytes of the memory. -/
def copy (address n : Nat) : Io σ (List UInt8) := fun s =>
  some ((List.range' address n).map (hw.load s), s)

end Io

section Acts

variable {σ : Type u} {τ : Type v} {look : σ → Option τ} {α β : Type u}

/-- From every state that looks like `v`, the program returns `a`, and the state then looks
like `v'`. A state without a look is one in which the machine is not what it should be. -/
def Acts (look : σ → Option τ) (m : Io σ α) (v : τ) (a : α) (v' : τ) : Prop :=
  ∀ s, look s = some v → ∃ s', m s = some (a, s') ∧ look s' = some v'

namespace Acts

variable {v v' v'' : τ} {a : α} {b : β} {m : Io σ α} {f : α → Io σ β}

theorem pure (a : α) : Acts look (pure a) v a v := fun s hs => ⟨s, rfl, hs⟩

theorem bind (hm : Acts look m v a v') (hf : Acts look (f a) v' b v'') :
    Acts look (m >>= f) v b v'' := by
  intro s hs
  obtain ⟨s', hrun, hs'⟩ := hm s hs
  obtain ⟨s'', hrun', hs''⟩ := hf s' hs'
  exact ⟨s'', by simp [hrun, hrun'], hs''⟩

/-- Another description of the state after. -/
theorem congr (hm : Acts look m v a v') (h : v' = v'') : Acts look m v a v'' := h ▸ hm

/-- A function of what a program returns. -/
theorem map {g : α → β} (hm : Acts look m v a v') : Acts look (g <$> m) v (g a) v' := by
  rw [← bind_pure_comp]
  exact hm.bind (.pure (g a))

end Acts

end Acts

end Leenix
