import Leenix.Libc.Snprintf
import Leenix.Libc.Strtol

/-!
# Numbers, printed and read back (libc/vsprintf.c, libc/string.c)

What an integer directive of `vsnprintf` prints, `strtol` reads in the base of the directive:
white space in front, an optional sign, an optional `0x`, zeros, digits, white space behind. Both
work modulo `2 ^ 32`, so the value that is read back is always that of the argument, though
`strtol` overflows on the way when the printed magnitude is no `long`.

- `Prints`: the shape of a printed number.
- `prints_fmtInt`: `fmt_int` prints a number of this shape, whatever the flags and the width.
- `Prints.strtol`: `strtol` reads it.
- `vsnprintf_strtol`: the round trip through a buffer.
-/

namespace Leenix

variable {base : Nat} {small : Bool} {ds : List Nat} {t rest : List Byte}

/-! ## Arithmetic modulo `2 ^ 32` -/

/-- The loop over the digits computes their value, cut to a `long`. -/
theorem accumulate_long (base n : Nat) (ds : List Nat) :
    (accumulate base (long n) ds).1 = long (digitsValue base n ds) := by
  induction ds generalizing n with
  | nil => rw [accumulate, digitsValue]
  | cons d ds ih =>
    have hstep : long (long (long n * base) + d) = long (n * base + d : Nat) := by
      rw [long, long, long, long, Int.bmod_add_bmod, ← Int.bmod_add_bmod, Int.bmod_mul_bmod,
        Int.bmod_add_bmod, Int.natCast_add, Int.natCast_mul]
    rw [accumulate, digitsValue, ← ih, ← hstep]

/-- So does the sign. -/
theorem withSign_value (negative : Bool) (endptr base : Nat) (ds : List Nat) :
    (withSign negative endptr (accumulate base 0 ds)).value =
      long (if negative then -(digitsValue base 0 ds : Int) else digitsValue base 0 ds) := by
  have hresult := accumulate_long base 0 ds
  rw [long_eq (by decide), Int.natCast_zero] at hresult
  cases negative with
  | false => rw [withSign, if_neg Bool.false_ne_true, if_neg Bool.false_ne_true, hresult]
  | true =>
    rw [withSign, if_pos rfl, if_pos rfl, hresult]
    simp only [long, Int.bmod_neg_bmod]

/-- There is an overflow exactly when the digits are too large, whatever the sign. -/
theorem withSign_inLong_iff (hbase : 0 < base) (negative : Bool) (endptr : Nat) (ds : List Nat) :
    (∀ x ∈ (withSign negative endptr (accumulate base 0 ds)).arithmetic, InLong x) ↔
      (digitsValue base 0 ds : Int) ≤ longMax := by
  have hiff : (∀ x ∈ (accumulate base 0 ds).2, InLong x) ↔ (digitsValue base 0 ds : Int) ≤ longMax :=
    accumulate_inLong_iff hbase (by decide)
  cases negative with
  | false => exact hiff
  | true =>
    simp only [withSign, if_true, List.forall_mem_append, List.forall_mem_singleton, hiff]
    refine and_iff_left_of_imp fun hle => ?_
    have hresult := (accumulate_exact hbase hle).1
    rw [Int.natCast_zero] at hresult
    rw [hresult]
    unfold InLong longMin
    unfold longMax at *
    omega

/-! ## Digits -/

theorem digitsValue_eq (base n : Nat) (ds : List Nat) :
    digitsValue base n ds = n * base ^ ds.length + Nat.ofDigits base ds.reverse := by
  induction ds generalizing n with
  | nil => simp [digitsValue, Nat.ofDigits_nil]
  | cons d ds ih =>
    rw [digitsValue, ih, List.reverse_cons, Nat.ofDigits_append, Nat.ofDigits_singleton,
      List.length_cons, List.length_reverse, Nat.pow_succ]
    ring

/-- Zeros in front do not count. -/
theorem digitsValue_zeros (base k : Nat) (ds : List Nat) :
    digitsValue base 0 (List.replicate k 0 ++ ds) = digitsValue base 0 ds := by
  induction k with
  | zero => rfl
  | succ k ih => rw [List.replicate_succ, List.cons_append, digitsValue, Nat.zero_mul, ih]

namespace Vsprintf

/-- The characters of digits mean the digits. -/
theorem digitOf_digit (small : Bool) {d : Nat} (hd : d < 16) : digitOf (digit small d) = some d := by
  revert d
  cases small <;> decide

/-- They are no other characters that `strtol` knows. -/
theorem digit_plain (small : Bool) {d : Nat} (hd : d < 16) :
    isSpace (digit small d) = false ∧ digit small d ≠ 0 ∧ digit small d ≠ 0x2D ∧
      digit small d ≠ 0x2B ∧ digit small d ≠ 0x78 ∧ digit small d ≠ 0x58 := by
  revert d
  cases small <;> decide

theorem leadingDigits_digits (hbase : base ≤ 16) (hds : ∀ d ∈ ds, d < base) (t : List Byte) :
    leadingDigits base (ds.map (digit small) ++ t) = ds ++ leadingDigits base t := by
  induction ds with
  | nil => rfl
  | cons d ds ih =>
    obtain ⟨hd, hrest⟩ := List.forall_mem_cons.mp hds
    rw [List.map_cons, List.cons_append, leadingDigits, digitOf_digit small (by omega)]
    simp only [hd, if_true, ih hrest, List.cons_append]

/-- What is printed of a number: blanks, a sign, a mark for base 16, digits, and blanks. -/
structure Printed where
  base : Nat
  negative : Bool
  lead : Nat
  sign : List Byte
  mark : List Byte
  small : Bool
  digits : List Nat
  trail : Nat
  base_range : 2 ≤ base ∧ base ≤ 16
  sign_cases : sign = [0x2D] ∧ negative = true ∨ (sign = [0x2B] ∨ sign = []) ∧ negative = false
  mark_cases : mark = [] ∨ base = 16 ∧ (mark = [0x30, 0x78] ∨ mark = [0x30, 0x58])
  digits_ne : digits ≠ []
  digits_lt : ∀ d ∈ digits, d < base

namespace Printed

variable (p : Printed)

/-- The number without its sign. -/
def magnitude : Nat := digitsValue p.base 0 p.digits

/-- The characters from the mark on. -/
def body : List Byte := p.mark ++ (p.digits.map (digit p.small) ++ List.replicate p.trail 0x20)

/-- All characters. -/
def text : List Byte := List.replicate p.lead 0x20 ++ (p.sign ++ p.body)

theorem digits_lt_sixteen {d : Nat} (hd : d ∈ p.digits) : d < 16 :=
  Nat.lt_of_lt_of_le (p.digits_lt d hd) p.base_range.2

/-- What follows the sign starts with a digit. -/
theorem body_cons : ∃ d < 16, ∃ t, p.body = digit p.small d :: t := by
  obtain ⟨d, ds, hds⟩ := List.exists_cons_of_ne_nil p.digits_ne
  have hzero : digit p.small 0 = 0x30 := by cases p.small <;> rfl
  rw [body, hds]
  rcases p.mark_cases with h | ⟨-, h | h⟩ <;> rw [h]
  · exact ⟨d, p.digits_lt_sixteen (hds ▸ List.mem_cons_self), _, rfl⟩
  · exact ⟨0, by decide, _, congrArg (· :: _) hzero.symm⟩
  · exact ⟨0, by decide, _, congrArg (· :: _) hzero.symm⟩

theorem signed_text : signed p.text = p.sign ++ p.body := by
  obtain ⟨d, hd, t, hbody⟩ := p.body_cons
  have hspace := (digit_plain p.small hd).1
  have hblank : ∀ c ∈ List.replicate p.lead (0x20 : Byte), isSpace c = true := fun c hc =>
    (List.eq_of_mem_replicate hc) ▸ rfl
  rw [signed, text, List.dropWhile_append_of_pos hblank, hbody]
  rcases p.sign_cases with ⟨h, -⟩ | ⟨h | h, -⟩ <;> rw [h]
  · rfl
  · rfl
  · rw [List.nil_append, List.dropWhile_cons_of_neg (by rw [hspace]; exact Bool.false_ne_true)]

theorem unsigned_text : unsigned p.text = p.body := by
  obtain ⟨d, hd, t, hbody⟩ := p.body_cons
  obtain ⟨-, -, hminus, hplus, -⟩ := digit_plain p.small hd
  rw [unsigned, signed_text]
  rcases p.sign_cases with ⟨h, -⟩ | ⟨h | h, -⟩ <;> rw [h]
  · rfl
  · rfl
  · have hlength : signLength p.body = 0 := by
      rw [hbody, signLength, List.head?_cons, if_neg]
      rintro (h | h)
      · exact hminus (Option.some.inj h)
      · exact hplus (Option.some.inj h)
    rw [List.nil_append, hlength, List.drop_zero]

theorem negative_text : decide ((signed p.text).head? = some 0x2D) = p.negative := by
  obtain ⟨d, hd, t, hbody⟩ := p.body_cons
  obtain ⟨-, -, hminus, -⟩ := digit_plain p.small hd
  rw [signed_text, hbody]
  rcases p.sign_cases with ⟨h, hneg⟩ | ⟨h | h, hneg⟩ <;> rw [h, hneg]
  · rfl
  · rfl
  · refine decide_eq_false fun h => ?_
    rw [List.nil_append, List.head?_cons, Option.some.injEq] at h
    exact hminus h

/-- A mark is there, and seen, or neither of both. -/
theorem basePrefix_body : basePrefix p.base p.body = (p.base, p.mark.length) := by
  have hbase : p.base ≠ 0 := by
    have := p.base_range.1
    omega
  rcases p.mark_cases with h | ⟨h16, h | h⟩
  · -- the digits have no `x` among them
    have hx : ∀ c ∈ p.body, c ≠ 0x78 ∧ c ≠ 0x58 := by
      intro c hc
      rw [body, h, List.nil_append] at hc
      rcases List.mem_append.mp hc with hc | hc
      · obtain ⟨d, hd, rfl⟩ := List.mem_map.mp hc
        exact (digit_plain p.small (p.digits_lt_sixteen hd)).2.2.2.2
      · rw [List.eq_of_mem_replicate hc]
        decide
    have hmark : ¬HexMark p.body := by
      rintro ⟨-, h | h⟩
      · exact (hx _ (List.mem_of_getElem? h)).1 rfl
      · exact (hx _ (List.mem_of_getElem? h)).2 rfl
    rw [basePrefix, if_neg fun h => hmark h.2, if_pos hbase, h, List.length_nil]
  · rw [basePrefix, if_pos ⟨.inr h16, by rw [body, h]; exact ⟨rfl, .inl rfl⟩⟩, h16, h]
    rfl
  · rw [basePrefix, if_pos ⟨.inr h16, by rw [body, h]; exact ⟨rfl, .inr rfl⟩⟩, h16, h]
    rfl

theorem leadingDigits_body : leadingDigits p.base (p.body.drop p.mark.length) = p.digits := by
  have hblank : leadingDigits p.base (List.replicate p.trail 0x20) = [] := by
    cases p.trail with
    | zero => rfl
    | succ n =>
      have hspace : digitOf 0x20 = none := by decide
      rw [List.replicate_succ, leadingDigits, hspace]
  rw [body, List.drop_left, leadingDigits_digits p.base_range.2 p.digits_lt, hblank,
    List.append_nil]

theorem zero_notMem_text : 0 ∉ p.text := by
  have hblank : ∀ n, (0 : Byte) ∉ List.replicate n 0x20 := fun n h =>
    absurd (List.eq_of_mem_replicate h) (by decide)
  have hsign : 0 ∉ p.sign := by
    rcases p.sign_cases with ⟨h, -⟩ | ⟨h | h, -⟩ <;> rw [h] <;> decide
  have hmark : 0 ∉ p.mark := by
    rcases p.mark_cases with h | ⟨-, h | h⟩ <;> rw [h] <;> decide
  have hdigits : 0 ∉ p.digits.map (digit p.small) := by
    intro h
    obtain ⟨d, hd, h⟩ := List.mem_map.mp h
    exact (digit_plain p.small (p.digits_lt_sixteen hd)).2.1 h
  simp only [text, body, List.mem_append, hblank, hsign, hmark, hdigits, or_self,
    not_false_eq_true]

/-- **A printed number is read back**, up to the blanks behind it, modulo `2 ^ 32`. There is an
overflow on the way if the digits are too large. -/
theorem strtol (rest : List Byte) : ∃ r, Leenix.strtol (terminated p.text ++ rest) p.base = some r ∧
    r.value = long (if p.negative then -(p.magnitude : Int) else p.magnitude) ∧
    (terminated p.text ++ rest).drop r.endptr = terminated (List.replicate p.trail 0x20) ++ rest ∧
    ((∀ x ∈ r.arithmetic, InLong x) ↔ (p.magnitude : Int) ≤ longMax) := by
  have hcall := strtol_terminated p.zero_notMem_text rest p.base
  simp only [unsigned_text, negative_text, basePrefix_body, leadingDigits_body] at hcall
  refine ⟨_, hcall, withSign_value _ _ _ _, ?_,
    withSign_inLong_iff (Nat.lt_of_lt_of_le Nat.zero_lt_two p.base_range.1) _ _ _⟩
  have hendptr : ∀ n r, (withSign p.negative n r).endptr = n := by
    intro n r
    unfold withSign
    split <;> rfl
  have hsplit : terminated p.text ++ rest = (List.replicate p.lead 0x20 ++ p.sign ++ p.mark ++
      p.digits.map (digit p.small)) ++ (terminated (List.replicate p.trail 0x20) ++ rest) := by
    simp only [text, body, terminated, List.append_assoc]
  have hlength : p.text.length - p.body.length + p.mark.length + p.digits.length =
      (List.replicate p.lead 0x20 ++ p.sign ++ p.mark ++ p.digits.map (digit p.small)).length := by
    simp only [text, List.length_append, List.length_map]
    omega
  rw [hendptr, hlength, hsplit, List.drop_left]

end Printed

/-! ## The printed number -/

/-- The low half of a `long long`. -/
theorem long_low (x : Int64) : long x.toUInt64.toUInt32.toNat = long x.toInt := by
  have hint : x.toInt = (x.toUInt64.toNat : Int).bmod (2 ^ 64) :=
    BitVec.toInt_eq_toNat_bmod x.toBitVec
  rw [hint, long, long, Int.bmod_bmod_of_dvd (by decide), UInt64.toNat_toUInt32, Int.natCast_mod]
  exact Int.emod_bmod _ _

theorem long_neg_low (x : Int64) : long (-((-x).toUInt64.toUInt32.toNat : Int)) = long x.toInt := by
  have hneg : (-x).toInt = (-x.toInt).bmod (2 ^ 64) := Int64.toInt_neg x
  have hlow := long_low (-x)
  simp only [long] at hlow ⊢
  rw [← Int.bmod_neg_bmod, hlow, Int.bmod_neg_bmod, hneg, ← Int.bmod_neg_bmod,
    Int.bmod_bmod_of_dvd (by decide), Int.bmod_neg_bmod, Int.neg_neg]

/-- The number that `fmt_int` prints digits of. -/
def magnitude (num : Int64) (flags : Flags) : Nat :=
  (if flags.signed ∧ num < 0 then -num else num).toUInt64.toUInt32.toNat

/-- With its sign, it is the number that was given, cut to a `long`. -/
theorem long_magnitude (num : Int64) (flags : Flags) :
    long (if decide (flags.signed ∧ num < 0) then -(magnitude num flags : Int)
      else magnitude num flags) = num.toInt32.toInt := by
  rw [Int64.toInt_toInt32]
  unfold magnitude
  by_cases h : flags.signed ∧ num < 0
  · simp only [h, and_self, decide_true, if_true]
    exact long_neg_low num
  · simp only [h, decide_false, if_false, Bool.false_eq_true]
    exact long_low num

/-- The digits of a number that fits. -/
theorem intDigits_spec (hbase : 2 ≤ base) {n : Nat} (hn : n < 2 ^ 64) :
    intDigits base 64 n ≠ [] ∧ (∀ d ∈ intDigits base 64 n, d < base) ∧
      digitsValue base 0 (intDigits base 64 n).reverse = n := by
  rw [intDigits_eq hbase hn, digitsValue_eq, Nat.zero_mul, Nat.zero_add, List.reverse_reverse]
  by_cases hzero : n = 0
  · rw [if_pos hzero, hzero]
    exact ⟨List.cons_ne_nil 0 [], by simp; omega, rfl⟩
  · rw [if_neg hzero]
    exact ⟨Nat.digits_ne_nil_iff_ne_zero.mpr hzero, fun d hd => Nat.digits_lt_base hbase hd,
      Nat.ofDigits_digits base n⟩

/-- The sign and the mark in front of a printed number. -/
def altb (base : Nat) (negative : Bool) (flags : Flags) : List Byte :=
  (if negative then [ascii '-']
    else if flags.plus then [ascii '+']
    else if flags.space then [ascii ' ']
    else []) ++
  if flags.alternate ∧ base = 8 then [ascii '0']
  else if flags.alternate ∧ base = 16 then [ascii '0', if flags.small then ascii 'x' else ascii 'X']
  else []

/-- Blanks, a sign, a mark, zeros, digits and blanks: a printed number. -/
theorem exists_printed (hbase : 2 ≤ base ∧ base ≤ 16) (negative : Bool) (flags : Flags) {n : Nat}
    (hn : n < 2 ^ 64) (lead zeros trail : Nat) :
    ∃ p : Printed, p.base = base ∧ p.negative = negative ∧ p.magnitude = n ∧
      p.text = List.replicate lead (ascii ' ') ++ (altb base negative flags ++
        (List.replicate zeros (ascii '0') ++ (((intDigits base 64 n).map (digit flags.small)).reverse ++
          List.replicate trail (ascii ' ')))) := by
  obtain ⟨hne, hlt, hvalue⟩ := intDigits_spec hbase.1 hn
  have hzero : digit flags.small 0 = ascii '0' := by cases flags.small <;> rfl
  -- the sign, or one more blank
  obtain ⟨blank, sign, hsign, hcases⟩ : ∃ blank sign,
      (if negative then [ascii '-'] else if flags.plus then [ascii '+']
        else if flags.space then [ascii ' '] else []) = List.replicate blank (ascii ' ') ++ sign ∧
      (sign = [0x2D] ∧ negative = true ∨ (sign = [0x2B] ∨ sign = []) ∧ negative = false) := by
    cases negative with
    | true => exact ⟨0, [0x2D], rfl, .inl ⟨rfl, rfl⟩⟩
    | false =>
      cases flags.plus with
      | true => exact ⟨0, [0x2B], rfl, .inr ⟨.inl rfl, rfl⟩⟩
      | false =>
        cases flags.space with
        | true => exact ⟨1, [], rfl, .inr ⟨.inr rfl, rfl⟩⟩
        | false => exact ⟨0, [], rfl, .inr ⟨.inr rfl, rfl⟩⟩
  -- the mark, or one more zero
  obtain ⟨mark, more, hmark, hmarks⟩ : ∃ mark more,
      (if flags.alternate ∧ base = 8 then [ascii '0']
        else if flags.alternate ∧ base = 16 then
          [ascii '0', if flags.small then ascii 'x' else ascii 'X']
        else []) = mark ++ List.replicate more (ascii '0') ∧
      (mark = [] ∨ base = 16 ∧ (mark = [0x30, 0x78] ∨ mark = [0x30, 0x58])) := by
    split
    · exact ⟨[], 1, rfl, .inl rfl⟩
    · split
      case isTrue h =>
        cases flags.small with
        | true => exact ⟨[0x30, 0x78], 0, rfl, .inr ⟨h.2, .inl rfl⟩⟩
        | false => exact ⟨[0x30, 0x58], 0, rfl, .inr ⟨h.2, .inr rfl⟩⟩
      case isFalse => exact ⟨[], 0, rfl, .inl rfl⟩
  have hdigits : ∀ d ∈ List.replicate (more + zeros) 0 ++ (intDigits base 64 n).reverse, d < base := by
    intro d hd
    rcases List.mem_append.mp hd with hd | hd
    · rw [List.eq_of_mem_replicate hd]
      omega
    · exact hlt d (List.mem_reverse.mp hd)
  refine ⟨⟨base, negative, lead + blank, sign, mark, flags.small,
    List.replicate (more + zeros) 0 ++ (intDigits base 64 n).reverse, trail, hbase, hcases, hmarks,
    fun h => hne (List.reverse_eq_nil_iff.mp (List.append_eq_nil_iff.mp h).2), hdigits⟩, rfl, rfl,
    (digitsValue_zeros base _ _).trans hvalue, ?_⟩
  simp only [Printed.text, Printed.body, altb, hsign, hmark, List.replicate_add, List.map_append,
    List.map_replicate, List.map_reverse, hzero, List.append_assoc]
  rfl

/-- The padding is blanks in front, zeros, or blanks behind. -/
theorem fmtInt_shape (hbase : 2 ≤ base ∧ base ≤ 16) (num : Int64) (width : Int32) (flags : Flags) :
    ∃ lead zeros trail, fmtInt num base width flags =
      List.replicate lead (ascii ' ') ++ (altb base (decide (flags.signed ∧ num < 0)) flags ++
        (List.replicate zeros (ascii '0') ++
          (((intDigits base 64 (magnitude num flags)).map (digit flags.small)).reverse ++
            List.replicate trail (ascii ' ')))) := by
  have hrange : ¬(base < 2 ∨ 16 < base) := by omega
  obtain ⟨front, hfront⟩ : ∃ l, altb base (decide (flags.signed ∧ num < 0)) flags = l := ⟨_, rfl⟩
  obtain ⟨digits, hdigits⟩ : ∃ l,
    (intDigits base 64 (magnitude num flags)).map (digit flags.small) = l := ⟨_, rfl⟩
  rw [hfront, hdigits]
  simp only [altb, decide_eq_true_eq] at hfront
  rw [magnitude] at hdigits
  simp only [fmtInt, hrange, if_false]
  cases hleft : flags.left with
  | true =>
    simp only [if_true, hfront, hdigits, Bool.not_true, Bool.false_eq_true, and_false, if_false, pad]
    exact ⟨0, 0, _, List.append_assoc front digits.reverse _⟩
  | false =>
    simp only [Bool.false_eq_true, if_false, hfront, hdigits, Bool.not_false, and_true, hleft, pad]
    generalize (if Int32.ofNat (digits.length + front.length) < width then
      width - Int32.ofNat (digits.length + front.length) else 0) = npad
    by_cases hnpad : 0 < npad
    · cases hzeropad : flags.zeropad with
      | true => exact ⟨0, npad.toNatClampNeg, 0, by simp [hnpad]⟩
      | false => exact ⟨npad.toNatClampNeg, 0, 0, by simp [hnpad]⟩
    · exact ⟨0, 0, 0, by simp [hnpad]⟩

/-- **`fmt_int` prints a number** that `strtol` can read, in every base that it knows. -/
theorem fmtInt_printed (hbase : 2 ≤ base ∧ base ≤ 16) (num : Int64) (width : Int32)
    (flags : Flags) : ∃ p : Printed, p.base = base ∧
      p.negative = decide (flags.signed ∧ num < 0) ∧ p.magnitude = magnitude num flags ∧
      p.text = fmtInt num base width flags := by
  have hn : magnitude num flags < 2 ^ 64 :=
    Nat.lt_trans (UInt32.toNat_lt _) (by decide)
  obtain ⟨lead, zeros, trail, hshape⟩ := fmtInt_shape hbase num width flags
  rw [hshape]
  exact exists_printed hbase (decide (flags.signed ∧ num < 0)) flags hn lead zeros trail

/-! ## Directives -/

/-- The base of an integer conversion. -/
def convBase (c : Byte) : Nat :=
  if c = ascii 'x' ∨ c = ascii 'X' then 16
  else if c = ascii 'o' then 8
  else if c = ascii 'b' then 2
  else 10

/-- The flags as an integer conversion changes them. -/
def convFlags (c : Byte) (flags : Flags) : Flags :=
  { flags with
    signed := flags.signed || c = ascii 'd' || c = ascii 'i'
    small := flags.small || c = ascii 'x' }

theorem convBase_range (c : Byte) : 2 ≤ convBase c ∧ convBase c ≤ 16 := by
  unfold convBase
  repeat' split
  all_goals decide

variable {strings : UInt32 → CString} {buf spec chars : List Byte} {size : UInt32} {fmt : CString}
  {ap : Args} {c : Byte}

/-- A `long long` is cut to an `int` by its low half. -/
theorem toInt32_eq {x : Int64} {w : UInt32} (h : x.toUInt64.toUInt32 = w) :
    x.toInt32 = w.toInt32 := by
  have hword : w.toInt32.toInt = long w.toNat := BitVec.toInt_eq_toNat_bmod w.toBitVec
  refine Int32.toInt.inj ?_
  rw [Int64.toInt_toInt32, hword, ← h, long_low]
  rfl

/-- The argument that is fetched has the next word as its low half. -/
theorem fetchNum_low (c : Byte) (lflags : Nat) (ap : Args) :
    (fetchNum c lflags ap).1.toInt32 = (ap 0).toInt32 := by
  unfold fetchNum vaArg
  dsimp only
  split
  · exact Int32.toInt32_toInt64 _
  · split
    · refine toInt32_eq (UInt32.toNat.inj ?_)
      have hlow : (ap 0).toNat % 2 ^ 32 = (ap 0).toNat := Nat.mod_eq_of_lt (UInt32.toNat_lt _)
      have hhigh : (ap 1).toNat <<< 32 % 2 ^ 64 % 2 ^ 32 = 0 := by
        rw [Nat.shiftLeft_eq]
        omega
      rw [UInt64.toUInt64_toInt64, UInt64.toNat_toUInt32, UInt64.toNat_or, UInt64.toNat_shiftLeft,
        UInt32.toNat_toUInt64, UInt32.toNat_toUInt64, Nat.or_mod_two_pow, hlow]
      exact (congrArg (· ||| (ap 0).toNat) hhigh).trans (Nat.zero_or _)
    · split
      · exact Int32.toInt32_toInt64 _
      · exact toInt32_eq (by rw [UInt64.toUInt64_toInt64, UInt32.toUInt32_toUInt64])

/-- What an integer directive prints. -/
theorem text_int (hspec : (readDirective spec ap).rest = [c])
    (hc : c ∈ ['d', 'i', 'o', 'b', 'u', 'x', 'X'].map ascii) :
    text strings (ascii '%' :: spec) ap = terminated (fmtInt
      (fetchNum c (readDirective spec ap).lflags (readDirective spec ap).ap).1 (convBase c)
      (readDirective spec ap).width (convFlags c (readDirective spec ap).flags)) := by
  have hne : c ≠ 0 := by
    rintro rfl
    exact absurd hc (by decide)
  rw [text, if_pos rfl]
  split
  case h_1 h => cases hspec.symm.trans h
  case h_2 conv rest h =>
    obtain ⟨rfl, rfl⟩ := List.cons.inj (hspec.symm.trans h)
    have hbase : (if c = ascii 'x' ∨ c = ascii 'X' then 16 else if c = ascii 'o' then 8
      else if c = ascii 'b' then 2 else 10) = convBase c := rfl
    simp only [convert, hc, if_true, hne, if_false, hbase]
    rw [text]
    rfl

/-- **The round trip.** What an integer directive prints into a buffer that has room for it, however
its flags, width and length modifiers are written, `strtol` reads in the base of the directive as
the word of the argument, and it stops at the blanks in front of the terminator. It overflows on
the way exactly when the printed magnitude is no `long`. -/
theorem vsnprintf_strtol (hfmt : fmt.1 = ascii '%' :: spec)
    (hspec : (readDirective spec ap).rest = [c])
    (hc : c ∈ ['d', 'i', 'o', 'b', 'u', 'x', 'X'].map ascii) (hsize : size.toNat ≤ buf.length)
    (hroom : (text strings fmt.1 ap).length ≤ size.toNat) :
    ∃ f r trail, vsnprintf strings (some buf) size fmt ap = some f ∧
      strtol f.buf (convBase c) = some r ∧
      r.value = ((readDirective spec ap).ap 0).toInt32.toInt ∧
      f.buf.drop r.endptr = terminated (List.replicate trail (ascii ' ')) ++
        buf.drop (text strings fmt.1 ap).length ∧
      ((∀ x ∈ r.arithmetic, InLong x) ↔ (magnitude
        (fetchNum c (readDirective spec ap).lflags (readDirective spec ap).ap).1
        (convFlags c (readDirective spec ap).flags) : Int) ≤ longMax) := by
  have hlast := size.toNat_lt
  obtain ⟨f, k, hrun, hlen, hk, hbuf⟩ := vsnprintf_writes hsize
    (Nat.le_of_lt (Nat.lt_of_le_of_lt hroom hlast))
  have htext : text strings _ ap = _ := text_int hspec hc
  rw [← hfmt] at htext
  obtain ⟨p, hbase, hneg, hmag, hp⟩ := fmtInt_printed (convBase_range c)
    (fetchNum c (readDirective spec ap).lflags (readDirective spec ap).ap).1
    (readDirective spec ap).width (convFlags c (readDirective spec ap).flags)
  rw [← hp] at htext
  obtain ⟨r, hr, hvalue, hdrop, hover⟩ := p.strtol (buf.drop (text strings fmt.1 ap).length)
  rw [hbase] at hr
  rw [hneg, hmag, long_magnitude, fetchNum_low] at hvalue
  rw [hmag] at hover
  have hlength : (text strings fmt.1 ap).length = p.text.length + 1 := by
    rw [htext, terminated, List.length_append, List.length_singleton]
  have hcount : f.len.toUInt32.toNat = p.text.length := by
    rw [hlen, toNat_ofNat_sub_one]
    omega
  have hnonzero : size ≠ 0 := by
    rintro rfl
    rw [UInt32.toNat_zero] at hroom
    omega
  have hwritten : f.buf = terminated p.text ++ buf.drop (text strings fmt.1 ap).length := by
    rw [hcount, Nat.min_eq_left (by omega)] at hk
    rw [hbuf, if_neg hnonzero, hk, hlength, htext, terminated, List.append_assoc, List.take_left]
    rfl
  exact ⟨f, r, p.trail, hrun, hwritten ▸ hr, hvalue, hwritten ▸ hdrop, hover⟩

theorem readDirective_minus (ap : Args) : readDirective [ascii '-', ascii 'd'] ap =
    ⟨{ left := true }, 0, 0, ap, [ascii 'd']⟩ := by
  have hwidth : readWidth 0 { left := true } [ascii 'd'] ap =
      (0, { left := true }, [ascii 'd'], ap) := by
    rw [readWidth, if_neg (by decide), dif_neg (by decide)]
  have hflags : foldWhile addFlag {} [ascii '-', ascii 'd'] = ({ left := true }, [ascii 'd']) := rfl
  rw [readDirective, hflags]
  dsimp only
  rw [hwidth]
  rfl

/-- The number `-7` with `%-d` in four bytes. -/
theorem vsnprintf_strtol_minus : ∃ f r,
    vsnprintf (fun _ => nullText) (some [1, 2, 3, 4]) 4
      ⟨[ascii '%', ascii '-', ascii 'd'], by decide⟩ (fun _ => -7) = some f ∧
      strtol f.buf 10 = some r ∧ r.value = -7 := by
  have htext : text (fun _ => nullText) [ascii '%', ascii '-', ascii 'd'] (fun _ => -7) =
      [0x2D, 0x37, 0] := by
    rw [text_int (by rw [readDirective_minus]) (by decide), readDirective_minus]
    decide
  obtain ⟨f, r, -, hf, hr, hvalue, -⟩ := @vsnprintf_strtol (fun _ => nullText) [1, 2, 3, 4]
    [ascii '-', ascii 'd'] 4 ⟨[ascii '%', ascii '-', ascii 'd'], by decide⟩ (fun _ => -7) (ascii 'd')
    rfl (by rw [readDirective_minus]) (by decide) (by decide) (by rw [htext]; decide)
  rw [readDirective_minus] at hvalue
  exact ⟨f, r, hf, hr, hvalue⟩

end Vsprintf

end Leenix
