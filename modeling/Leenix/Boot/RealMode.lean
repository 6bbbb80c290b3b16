import Leenix.Machine

/-!
# Memory in real mode

The boot loader calls the BIOS on a stack that grows down from 0x7BFF, and the BIOS has data of
its own. What its calls leave in that memory is not in the loader's source: any bytes, after
each call (`RealMode.spoil`).
-/

namespace Leenix

namespace Boot

abbrev PhysMem := Nat → Byte

/-- `_STACK_TOP_REAL` of boot/common.s. -/
def stackTopReal : Nat := 0x7BFF

/-- The memory that is lost to the stack and to the BIOS, and what call `k` leaves at each of
its addresses. A call is reached with `depth` bytes on the stack. -/
structure RealMode (depth : Nat) where
  uses : Nat → Bool
  left : Nat → Nat → Byte
  stack : ∀ x, stackTopReal - depth ≤ x → x < stackTopReal → uses x = true

namespace RealMode

variable {depth : Nat} (real : RealMode depth)

/-- The memory after the pushes of call `k` and what the BIOS does beside the call. -/
def spoil (k : Nat) (mem : PhysMem) : PhysMem := fun x => if real.uses x then real.left k x else mem x

variable {real}

theorem spoil_of_free {x : Nat} (hx : real.uses x = false) (k : Nat) (mem : PhysMem) :
    real.spoil k mem x = mem x := by
  simp [spoil, hx]

/-- What is free and begins below the stack ends below it. -/
theorem le_of_free {a b : Nat} (hdepth : 0 < depth) (ha : a ≤ stackTopReal - depth)
    (hfree : ∀ x, a ≤ x → x < b → real.uses x = false) : b ≤ stackTopReal - depth := by
  by_contra hb
  have hused := real.stack (stackTopReal - depth) (Nat.le_refl _)
    (Nat.sub_lt (by decide) hdepth)
  rw [hfree _ ha (by omega)] at hused
  cases hused

/-- A stack of `depth` bytes, under a BIOS that has its data up to 0x500. -/
def sample (depth : Nat) (left : Nat → Nat → Byte) : RealMode depth where
  uses x := decide (x < 0x500 ∨ stackTopReal - depth ≤ x ∧ x < stackTopReal)
  left := left
  stack _ hlow hhigh := decide_eq_true (.inr ⟨hlow, hhigh⟩)

theorem sample_free {left : Nat → Nat → Byte} {x : Nat} (hdata : 0x500 ≤ x)
    (hstack : x < stackTopReal - depth ∨ stackTopReal ≤ x) : (sample depth left).uses x = false :=
  decide_eq_false (by omega)

end RealMode

end Boot

end Leenix
