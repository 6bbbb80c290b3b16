import Leenix.Libc.Numbers
import Mathlib.Data.Nat.Digits.Lemmas

/-!
# utoa (tests/testmain.c)

- `utoa_eq`: it prints what `%u` prints, in no more than eleven bytes.
-/

namespace Leenix

namespace Tests

open Vsprintf

/-- The loop of `utoa` that fills `tmp`, with room for `room` characters. -/
def utoaLoop : Nat → Nat → List Byte
  | 0, _ => []
  | room + 1, val =>
    if 0 < val then (ascii '0' + (val % 10).toUInt8) :: utoaLoop room (val / 10) else []

/-- `utoa` (testmain.c:12–32): the bytes that it stores. -/
def utoa (val : UInt32) : List Byte :=
  if val = 0 then terminated [ascii '0'] else terminated (utoaLoop 16 val.toNat).reverse

/-- `tmp` has room for all digits. -/
theorem utoaLoop_eq {room n : Nat} (hn : n < 10 ^ room) :
    utoaLoop room n = (Nat.digits 10 n).map (digit false) := by
  induction room generalizing n with
  | zero =>
    obtain rfl : n = 0 := by omega
    rfl
  | succ room ih =>
    by_cases hzero : n = 0
    · subst hzero
      rfl
    · have hdigit : ∀ d < 10, ascii '0' + d.toUInt8 = digit false d := by decide
      have hpos := Nat.pos_of_ne_zero hzero
      rw [utoaLoop, if_pos hpos, ih (Nat.div_lt_of_lt_mul (by rwa [Nat.pow_succ'] at hn)),
        Nat.digits_def' (by decide) hpos, List.map_cons, hdigit _ (Nat.mod_lt n (by decide))]

/-- A 32-bit number has at most ten digits. -/
theorem length_intDigits (val : UInt32) : (intDigits 10 64 val.toNat).length ≤ 10 := by
  have hval := val.toNat_lt
  rw [intDigits_eq (by decide) (Nat.lt_trans hval (by decide))]
  split
  · decide
  · exact (Nat.digits_length_le_iff (by decide) _).mpr (Nat.lt_trans hval (by decide))

/-- What is stored are the digits and the terminator. -/
theorem utoa_digits (val : UInt32) :
    utoa val = terminated ((intDigits 10 64 val.toNat).map (digit false)).reverse := by
  have hval := val.toNat_lt
  rw [utoa, intDigits_eq (by decide) (Nat.lt_trans hval (by decide))]
  by_cases hzero : val = 0
  · rw [if_pos hzero, if_pos (by rw [hzero]; rfl)]
    rfl
  · have hne : val.toNat ≠ 0 := fun h => hzero (UInt32.toNat_inj.mp h)
    rw [if_neg hzero, if_neg hne, utoaLoop_eq (Nat.lt_trans hval (by decide))]

theorem readDirective_u (ap : Args) :
    readDirective [ascii 'u'] ap = ⟨{}, 0, 0, ap, [ascii 'u']⟩ := by
  have hwidth : readWidth 0 {} [ascii 'u'] ap = (0, {}, [ascii 'u'], ap) := by
    rw [readWidth, if_neg (by decide), dif_neg (by decide)]
  have hflags : foldWhile addFlag {} [ascii 'u'] = ({}, [ascii 'u']) := rfl
  rw [readDirective, hflags]
  dsimp only
  rw [hwidth]
  rfl

/-- A number without flags and width. -/
theorem fmtInt_u (val : UInt32) :
    fmtInt val.toUInt64.toInt64 10 0 (convFlags (ascii 'u') {}) =
      ((intDigits 10 64 val.toNat).map (digit false)).reverse := by
  have hflags : convFlags (ascii 'u') {} = {} := by
    simp only [convFlags]
    rfl
  have hlength := length_intDigits val
  have hused : ¬Int32.ofNat (intDigits 10 64 val.toNat).length < 0 := by
    rw [Int32.lt_iff_toInt_lt, Int32.toInt_ofNat_of_lt (by omega)]
    exact Int.not_lt.mpr (Int.natCast_nonneg _)
  rw [hflags]
  simp [fmtInt, hused]

/-- **`utoa` prints what `%u` prints**, and no buffer of eleven bytes is too small for it. -/
theorem utoa_eq (strings : UInt32 → CString) (val : UInt32) :
    utoa val = text strings [ascii '%', ascii 'u'] (fun _ => val) ∧ (utoa val).length ≤ 11 := by
  constructor
  · have hnum : (fetchNum (ascii 'u') 0 fun _ => val).1 = val.toUInt64.toInt64 := rfl
    rw [text_int (by rw [readDirective_u]) (by decide), readDirective_u, utoa_digits]
    dsimp only
    rw [hnum]
    exact congrArg terminated (fmtInt_u val).symm
  · have hlength := length_intDigits val
    rw [utoa_digits, terminated, List.length_append, List.length_reverse, List.length_map,
      List.length_singleton]
    omega

end Tests

end Leenix
