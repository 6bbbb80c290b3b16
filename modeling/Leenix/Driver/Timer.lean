import Mathlib.Algebra.BigOperators.Group.List.Basic
import Mathlib.Data.UInt

/-!
# Sleeping (driver/timer.c)

`sleep` compares the tick counter with a deadline until it has been reached. Product,
deadline and counter are 32-bit values that wrap, and the comparison is one of numbers.

A schedule is the number of timer interrupts before each check of the loop.

- `spin_returns`: when the loop is left, the counter shows the deadline or more.
- `sleep_neverEarly_iff`: `sleep` waits for its whole time, whatever the schedule,
  exactly when neither the product nor the deadline wraps.
-/

namespace Leenix

/-- `ticks` and `freq` (timer.c:7–8). -/
structure Timer where
  ticks : UInt32
  freq : UInt32

namespace Timer

/-- `_timer_interrupt_handler` (timer.c:18–22) on the variables of this file.
`scheduler_tick` changes neither. -/
def interruptHandler (t : Timer) : Timer := { t with ticks := t.ticks + 1 }

/-- A number of timer interrupts. -/
def interrupts (t : Timer) : Nat → Timer
  | 0 => t
  | n + 1 => (t.interrupts n).interruptHandler

/-- The loop of `sleep` (timer.c:30–34): how many interrupts there were when it is left,
`none` if that does not happen in the checks of the schedule. -/
def spin (finalTicks : UInt32) : Timer → List Nat → Option Nat
  | _, [] => none
  | t, n :: schedule =>
    let t := t.interrupts n
    if finalTicks ≤ t.ticks then some n else (spin finalTicks t schedule).map (n + ·)

/-- `sleep` (timer.c:27–35). -/
def sleep (t : Timer) (ms : UInt32) (schedule : List Nat) : Option Nat :=
  let initialTicks := t.ticks
  let finalTicks := initialTicks + ms * t.freq / 1000
  spin finalTicks t schedule

example : sleep ⟨7, 100⟩ 30 [1, 0, 1, 2, 1] = some 4 := by decide

/-- The ticks in the given time. -/
def ticksIn (t : Timer) (ms : UInt32) : Nat := ms.toNat * t.freq.toNat / 1000

/-- Whenever `sleep` returns, all ticks of the time have happened. -/
def NeverEarly (t : Timer) (ms : UInt32) : Prop :=
  ∀ schedule : List Nat, schedule.sum < 2 ^ 32 →
    ∀ n, sleep t ms schedule = some n → t.ticksIn ms ≤ n

variable {t : Timer} {ms finalTicks : UInt32} {schedule : List Nat} {n : Nat}

theorem ticks_interrupts (t : Timer) (n : Nat) :
    (t.interrupts n).ticks.toNat = (t.ticks.toNat + n) % 2 ^ 32 := by
  induction n with
  | zero => exact (Nat.mod_eq_of_lt t.ticks.toNat_lt).symm
  | succ n ih =>
    have hstep : (t.interrupts (n + 1)).ticks = (t.interrupts n).ticks + 1 := rfl
    rw [hstep, UInt32.toNat_add, ih, UInt32.toNat_one, Nat.mod_add_mod]
    rfl

/-- One check. -/
theorem spin_cons : spin finalTicks t (n :: schedule) =
    if finalTicks.toNat ≤ (t.ticks.toNat + n) % 2 ^ 32 then some n
    else (spin finalTicks (t.interrupts n) schedule).map (n + ·) := by
  have hle : finalTicks ≤ (t.interrupts n).ticks ↔
      finalTicks.toNat ≤ (t.ticks.toNat + n) % 2 ^ 32 := by
    rw [UInt32.le_iff_toNat_le, ticks_interrupts]
  simp only [spin, hle]

/-- **The loop.** When it is left, the deadline is not above the counter, and no more
interrupts were needed than there are in the schedule. -/
theorem spin_returns (h : spin finalTicks t schedule = some n) :
    finalTicks.toNat ≤ (t.ticks.toNat + n) % 2 ^ 32 ∧ n ≤ schedule.sum := by
  induction schedule generalizing t n with
  | nil => cases h
  | cons k schedule ih =>
    rw [spin_cons] at h
    split at h
    case isTrue hle =>
      obtain rfl := Option.some.inj h
      exact ⟨hle, by simp⟩
    case isFalse =>
      obtain ⟨m, hm, rfl⟩ := Option.map_eq_some_iff.mp h
      obtain ⟨hle, hsum⟩ := ih hm
      rw [ticks_interrupts, Nat.mod_add_mod, Nat.add_assoc] at hle
      refine ⟨hle, ?_⟩
      rw [List.sum_cons]
      omega

/-- All that matters of a schedule is how many interrupts there were at the check that
ends the loop. -/
theorem neverEarly_iff : NeverEarly t ms ↔ ∀ n, n < 2 ^ 32 →
    (t.ticks + ms * t.freq / 1000).toNat ≤ (t.ticks.toNat + n) % 2 ^ 32 → t.ticksIn ms ≤ n := by
  constructor
  · intro h n hn hle
    refine h [n] (by simpa using hn) n ?_
    rw [sleep, spin_cons, if_pos hle]
  · intro h schedule hsum n hreturn
    obtain ⟨hle, hn⟩ := spin_returns hreturn
    exact h n (Nat.lt_of_le_of_lt hn hsum) hle

/-- **When `sleep` waits long enough.** For every schedule, exactly when the product fits
into 32 bits and the counter does not wrap before the deadline. -/
theorem sleep_neverEarly_iff (t : Timer) (ms : UInt32) :
    NeverEarly t ms ↔
      ms.toNat * t.freq.toNat < 2 ^ 32 ∧ t.ticks.toNat + t.ticksIn ms < 2 ^ 32 := by
  have hticks : t.ticks.toNat < 2 ^ 32 := t.ticks.toNat_lt
  have hdeadline : (t.ticks + ms * t.freq / 1000).toNat =
      (t.ticks.toNat + ms.toNat * t.freq.toNat % 2 ^ 32 / 1000) % 2 ^ 32 := by
    rw [UInt32.toNat_add, UInt32.toNat_div, UInt32.toNat_mul]
    rfl
  rw [neverEarly_iff, hdeadline, ticksIn]
  generalize ms.toNat * t.freq.toNat = product
  constructor
  · intro h
    -- at the wrapped deadline at the latest, the loop is left
    have hstart := h 0
    have hwrapped := h (product % 2 ^ 32 / 1000)
    omega
  · rintro ⟨hproduct, hsum⟩ n hn hle
    omega

/-- At 1 kHz the product of 4294968 milliseconds is `2 ^ 32 + 704`, which leaves no tick to
wait for. -/
theorem not_neverEarly_long : ¬NeverEarly ⟨0, 1000⟩ 4294968 := by
  intro h
  exact absurd (h [0] (by decide) 0 (by decide)) (by decide)

end Timer

end Leenix
