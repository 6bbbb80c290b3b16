import Leenix.Libc.Tokens

/-!
# Parsing numbers (libc/string.c)

`strtol` on memory, section by section as the source is commented: white space, sign,
base, digits. A `long` has 32 bits; the exact value of every multiplication, addition
and negation is recorded before it is cut to that size, so that an overflow, which C
leaves undefined, can be told from a result.

- `numeral`: the grammar, on the string alone.
- `accumulate_inRange_iff`: no intermediate result of the digits overflows exactly when
  their value does not.
- `strtol_exact_iff`: `strtol` follows the grammar exactly when there is no `0x` without
  a hexadecimal digit, nothing is skipped in front of a string without digits, and the
  number is not the most negative one.
-/

namespace Leenix

/-- The `white space` of `strtol`. -/
def isSpace (c : Byte) : Bool :=
  c = 0x20 ∨ c = 0x09 ∨ c = 0x0A ∨ c = 0x0B ∨ c = 0x0C ∨ c = 0x0D

/-- The value of a digit or a letter. -/
def digitOf (c : Byte) : Option Nat :=
  if 0x30 ≤ c ∧ c ≤ 0x39 then some (c.toNat - 0x30)
  else if 0x61 ≤ c ∧ c ≤ 0x7A then some (c.toNat - 0x61 + 10)
  else if 0x41 ≤ c ∧ c ≤ 0x5A then some (c.toNat - 0x41 + 10)
  else none

/-- A value cut to a `long`. -/
def long (x : Int) : Int := x.bmod (2 ^ 32)

/-- `LONG_MIN`. -/
def longMin : Int := -2 ^ 31

/-- `LONG_MAX`. -/
def longMax : Int := 2 ^ 31 - 1

/-- The value lies in `LONG_MIN..LONG_MAX`. -/
def InLong (x : Int) : Prop := longMin ≤ x ∧ x ≤ longMax

instance (x : Int) : Decidable (InLong x) := inferInstanceAs (Decidable (_ ∧ _))

/-- What `strtol` returns and stores in `*endptr`, as a position, and the exact results
of its arithmetic. -/
structure Strtol where
  value : Int
  endptr : Nat
  arithmetic : List Int
deriving DecidableEq

/-- The sign (string.c:133–139): whether it is a minus, and the position behind it. -/
def handleSign (str : List Byte) (s : Nat) : Bool × Nat :=
  if str[s]? = some 0x2D then (true, s + 1)
  else if str[s]? = some 0x2B then (false, s + 1)
  else (false, s)

/-- The base and the prefix (string.c:141–156). Whether a digit follows is not tested. -/
def detectBase (str : List Byte) (base s : Nat) : Nat × Nat :=
  if base = 0 then
    if str[s]? = some 0x30 then
      if str[s + 1]? = some 0x78 ∨ str[s + 1]? = some 0x58 then (16, s + 2) else (8, s + 1)
    else (10, s)
  else if base = 16 ∧ str[s]? = some 0x30 ∧ (str[s + 1]? = some 0x78 ∨ str[s + 1]? = some 0x58) then
    (base, s + 2)
  else (base, s)

/-- The loop over the digits (string.c:158–177): how many there are, the result, and
the exact value of each product and sum. -/
def convertDigits (base : Nat) : Int → List Byte → Option (Nat × Int × List Int)
  | _, [] => none
  | result, c :: str =>
    if c = 0 then some (0, result, [])
    else
      match digitOf c with
      | none => some (0, result, [])
      | some digit =>
        if base ≤ digit then some (0, result, [])
        else
          let product := result * base
          let sum := long product + digit
          (convertDigits base (long sum) str).map fun r =>
            (r.1 + 1, r.2.1, product :: sum :: r.2.2)

/-- `strtol` (string.c:122–184). -/
def strtol (str : List Byte) (base : Nat) : Option Strtol := do
  let s ← advance isSpace str
  let (negative, s) := handleSign str s
  let (base, s) := detectBase str base s
  let (digits, result, arithmetic) ← convertDigits base 0 (str.drop s)
  if negative then return ⟨long (-result), s + digits, arithmetic ++ [-result]⟩
  else return ⟨result, s + digits, arithmetic⟩

example : strtol (terminated [0x2D, 0x31, 0x37, 0x67]) 8 = some ⟨-15, 3, [0, 1, 8, 15, -15]⟩ := by
  decide +kernel

/-! ## The grammar -/

/-- The digits at the start of a string, as far as they are digits of the base. -/
def leadingDigits (base : Nat) : List Byte → List Nat
  | [] => []
  | c :: s =>
    match digitOf c with
    | none => []
    | some d => if d < base then d :: leadingDigits base s else []

/-- The value of digits that follow the number `n`. -/
def digitsValue (base : Nat) : Nat → List Nat → Nat
  | n, [] => n
  | n, d :: ds => digitsValue base (n * base + d) ds

/-- The length of an optional sign. -/
def signLength (s : List Byte) : Nat := if s.head? = some 0x2D ∨ s.head? = some 0x2B then 1 else 0

/-- The string starts with `0x` or `0X`. -/
def HexMark (s : List Byte) : Prop :=
  s[0]? = some 0x30 ∧ (s[1]? = some 0x78 ∨ s[1]? = some 0x58)

instance (s : List Byte) : Decidable (HexMark s) := inferInstanceAs (Decidable (_ ∧ _))

/-- A hexadecimal digit follows the first two characters. -/
def HexFollows (s : List Byte) : Prop := leadingDigits 16 (s.drop 2) ≠ []

instance (s : List Byte) : Decidable (HexFollows s) := inferInstanceAs (Decidable (_ ≠ _))

/-- A number in a string: its sign, where its digits start, their base, and themselves. -/
structure Numeral where
  negative : Bool
  start : Nat
  base : Nat
  digits : List Nat
deriving DecidableEq

/-- The value of a number. -/
def Numeral.value (n : Numeral) : Int :=
  if n.negative then -(digitsValue n.base 0 n.digits) else digitsValue n.base 0 n.digits

/-- What is left of a string behind white space. -/
def signed (s : List Byte) : List Byte := s.dropWhile isSpace

/-- What is left of a string behind white space and an optional sign. -/
def unsigned (s : List Byte) : List Byte := (signed s).drop (signLength (signed s))

/-- The number at the start of a string: white space, an optional sign, an optional
prefix, and the longest run of digits. The base `0` is chosen by how the digits start. -/
def numeral (s : List Byte) (base : Nat) : Numeral :=
  let body := unsigned s
  let isHex := (base = 0 ∨ base = 16) ∧ HexMark body ∧ HexFollows body
  let base' :=
    if base ≠ 0 then base
    else if isHex then 16
    else if body[0]? = some 0x30 then 8
    else 10
  let skipped := if isHex then 2 else 0
  { negative := (signed s).head? = some 0x2D
    start := s.length - body.length + skipped
    base := base'
    digits := leadingDigits base' (body.drop skipped) }

/-- `strtol` follows the grammar on the string: it stops behind the last digit, or where
it started if there is none, and returns the value of the number, if that is a `long`,
without an intermediate result that is none. -/
def ParsesExactly (s rest : List Byte) (base : Nat) : Prop :=
  ∃ r, strtol (terminated s ++ rest) base = some r ∧
    ((numeral s base).digits ≠ [] →
      r.endptr = (numeral s base).start + (numeral s base).digits.length) ∧
    ((numeral s base).digits = [] → r.endptr = 0 ∧ r.value = 0) ∧
    (InLong (numeral s base).value →
      r.value = (numeral s base).value ∧ ∀ x ∈ r.arithmetic, InLong x)

variable {s t rest : List Byte} {base k : Nat}

/-! ## The digits -/

/-- The results of the loop over digits that follow the value `result`. -/
def accumulate (base : Nat) : Int → List Nat → Int × List Int
  | result, [] => (result, [])
  | result, d :: ds =>
    let product := result * base
    let sum := long product + d
    let r := accumulate base (long sum) ds
    (r.1, product :: sum :: r.2)

/-- The loop reads the leading digits. -/
theorem convertDigits_terminated (hs : 0 ∉ s) (rest : List Byte) (result : Int) :
    convertDigits base result (terminated s ++ rest) =
      some ((leadingDigits base s).length, accumulate base result (leadingDigits base s)) := by
  induction s generalizing result with
  | nil => simp [convertDigits, terminated, leadingDigits, accumulate]
  | cons c s ih =>
    have hc : c ≠ 0 := fun hc => hs (hc ▸ List.mem_cons_self)
    have hrest := ih fun h => hs (List.mem_cons_of_mem c h)
    rw [terminated, List.cons_append, List.cons_append, ← terminated, convertDigits, if_neg hc,
      leadingDigits]
    cases digitOf c with
    | none => rfl
    | some d =>
      by_cases hd : d < base
      · simp only [hd, Nat.not_le.mpr hd, if_true, if_false, hrest, Option.map_some,
          List.length_cons, accumulate]
      · simp only [hd, Nat.not_lt.mp hd, if_true, if_false]
        rfl

theorem long_eq {x : Int} (h : InLong x) : long x = x := by
  obtain ⟨hlow, hhigh⟩ := h
  simp only [longMin, longMax] at hlow hhigh
  unfold long
  rw [Int.bmod_eq_of_le] <;> omega

theorem le_digitsValue (hbase : 0 < base) (n : Nat) (ds : List Nat) : n ≤ digitsValue base n ds := by
  induction ds generalizing n with
  | nil => exact Nat.le_refl n
  | cons d ds ih =>
    have hmul : n ≤ n * base := Nat.le_mul_of_pos_right n hbase
    exact Nat.le_trans (by omega) (ih (n * base + d))

/-- While the value of the digits is a `long`, so is every intermediate result, and the
result is that value. -/
theorem accumulate_exact (hbase : 0 < base) {n : Nat} {ds : List Nat}
    (hvalue : (digitsValue base n ds : Int) ≤ longMax) :
    (accumulate base n ds).1 = digitsValue base n ds ∧ ∀ x ∈ (accumulate base n ds).2, InLong x := by
  induction ds generalizing n with
  | nil => exact ⟨rfl, fun x hx => nomatch hx⟩
  | cons d ds ih =>
    have hle : n * base + d ≤ digitsValue base (n * base + d) ds := le_digitsValue hbase _ ds
    have hcast : ((n * base + d : Nat) : Int) = (n : Int) * base + d := by
      rw [Int.natCast_add, Int.natCast_mul]
    have hbound : (n : Int) * base + d ≤ longMax :=
      hcast ▸ Int.le_trans (Int.ofNat_le.mpr hle) hvalue
    have hnonneg : 0 ≤ (n : Int) * base :=
      Int.mul_nonneg (Int.natCast_nonneg n) (Int.natCast_nonneg base)
    have hproduct : InLong ((n : Int) * base) := by
      unfold InLong longMin
      omega
    have hsum : InLong ((n : Int) * base + d) := by
      unfold InLong longMin
      omega
    have hstep : accumulate base n (d :: ds) = ((accumulate base (n * base + d : Nat) ds).1,
        (n : Int) * base :: ((n : Int) * base + d) :: (accumulate base (n * base + d : Nat) ds).2) := by
      simp only [accumulate, long_eq hproduct, long_eq hsum, hcast]
    obtain ⟨hresult, hall⟩ := ih hvalue
    rw [hstep]
    exact ⟨hresult, List.forall_mem_cons.mpr ⟨hproduct, List.forall_mem_cons.mpr ⟨hsum, hall⟩⟩⟩

/-- **Digits.** Every intermediate result is a `long` exactly when the value is. -/
theorem accumulate_inLong_iff (hbase : 0 < base) {n : Nat} {ds : List Nat}
    (hn : (n : Int) ≤ longMax) :
    (∀ x ∈ (accumulate base n ds).2, InLong x) ↔ (digitsValue base n ds : Int) ≤ longMax := by
  constructor
  · intro hall
    induction ds generalizing n with
    | nil => exact hn
    | cons d ds ih =>
      simp only [accumulate, List.forall_mem_cons] at hall
      obtain ⟨hproduct, hsum, hrest⟩ := hall
      rw [long_eq hproduct] at hsum hrest
      have hcast : ((n * base + d : Nat) : Int) = (n : Int) * base + d := by
        rw [Int.natCast_add, Int.natCast_mul]
      rw [long_eq hsum, ← hcast] at hrest
      exact ih (by rw [hcast]; exact hsum.2) hrest
  · exact fun hvalue => (accumulate_exact hbase hvalue).2

/-- The result once the sign is known. -/
def withSign (negative : Bool) (endptr : Nat) (r : Int × List Int) : Strtol :=
  if negative then ⟨long (-r.1), endptr, r.2 ++ [-r.1]⟩ else ⟨r.1, endptr, r.2⟩

/-- **Values.** A number that is a `long` is computed without an overflow exactly when
it is not the most negative one. -/
theorem withSign_exact_iff (hbase : 0 < base) (negative : Bool) (endptr : Nat) (ds : List Nat) :
    (InLong (if negative then -(digitsValue base 0 ds : Int) else digitsValue base 0 ds) →
      (withSign negative endptr (accumulate base 0 ds)).value =
          (if negative then -(digitsValue base 0 ds : Int) else digitsValue base 0 ds) ∧
        ∀ x ∈ (withSign negative endptr (accumulate base 0 ds)).arithmetic, InLong x) ↔
      (if negative then -(digitsValue base 0 ds : Int) else digitsValue base 0 ds) ≠ longMin := by
  have hiff : (∀ x ∈ (accumulate base 0 ds).2, InLong x) ↔ (digitsValue base 0 ds : Int) ≤ longMax :=
    accumulate_inLong_iff hbase (by decide)
  by_cases hvalue : (digitsValue base 0 ds : Int) ≤ longMax
  · obtain ⟨hresult, hall⟩ := accumulate_exact hbase hvalue
    rw [Int.natCast_zero] at hresult hall
    cases negative with
    | false =>
      simp only [withSign, Bool.false_eq_true, if_false, hresult, longMin]
      exact ⟨fun _ => by omega, fun _ _ => ⟨trivial, hall⟩⟩
    | true =>
      have hneg : InLong (-(digitsValue base 0 ds : Int)) := by
        unfold InLong longMin
        unfold longMax at *
        omega
      simp only [withSign, if_true, hresult, long_eq hneg, List.forall_mem_append,
        List.forall_mem_singleton]
      refine ⟨fun _ => ?_, fun _ _ => ⟨trivial, hall, hneg⟩⟩
      unfold longMin
      unfold longMax at hvalue
      omega
  · cases negative with
    | false =>
      simp only [Bool.false_eq_true, if_false]
      refine ⟨fun _ => ?_, fun _ hin => absurd hin.2 hvalue⟩
      unfold longMin
      omega
    | true =>
      simp only [withSign, if_true, List.forall_mem_append]
      constructor
      · intro h heq
        -- the digits alone already overflow
        exact hvalue (hiff.mp (h (heq ▸ ⟨Int.le_refl _, by decide⟩)).2.1)
      · intro hne hin
        refine absurd hin.1 ?_
        unfold longMin at *
        unfold longMax at hvalue
        omega

/-! ## The string in front of the digits -/

/-- A character of the string, in memory. -/
theorem getElem?_terminated {c : Byte} (hc : c ≠ 0) (a t rest : List Byte) (i : Nat)
    (hi : i ≤ t.length) :
    (terminated (a ++ t) ++ rest)[a.length + i]? = some c ↔ t[i]? = some c := by
  have hmem : terminated (a ++ t) ++ rest = a ++ (t ++ 0 :: rest) := by simp [terminated]
  rw [hmem, List.getElem?_append_right (Nat.le_add_right _ _), Nat.add_sub_cancel_left]
  rcases Nat.eq_or_lt_of_le hi with rfl | hlt
  · simpa using hc.symm
  · rw [List.getElem?_append_left hlt]

theorem handleSign_terminated (a t rest : List Byte) :
    handleSign (terminated (a ++ t) ++ rest) a.length =
      (decide (t.head? = some 0x2D), a.length + signLength t) := by
  have hminus := getElem?_terminated (c := 0x2D) (by decide) a t rest 0 (Nat.zero_le _)
  have hplus := getElem?_terminated (c := 0x2B) (by decide) a t rest 0 (Nat.zero_le _)
  rw [Nat.add_zero, ← List.head?_eq_getElem?] at hminus hplus
  unfold handleSign signLength
  simp only [hminus, hplus]
  by_cases h : t.head? = some 0x2D
  · simp [h]
  · by_cases h' : t.head? = some 0x2B
    · simp [h']
    · simp [h, h']

/-- The base that is used and the length of the prefix. -/
def basePrefix (base : Nat) (t : List Byte) : Nat × Nat :=
  if (base = 0 ∨ base = 16) ∧ HexMark t then (16, 2)
  else if base ≠ 0 then (base, 0)
  else if t[0]? = some 0x30 then (8, 1)
  else (10, 0)

theorem detectBase_terminated (a t rest : List Byte) (base : Nat) :
    detectBase (terminated (a ++ t) ++ rest) base a.length =
      ((basePrefix base t).1, a.length + (basePrefix base t).2) := by
  have hzero := getElem?_terminated (c := 0x30) (by decide) a t rest 0 (Nat.zero_le _)
  have hmark : ((terminated (a ++ t) ++ rest)[a.length]? = some 0x30 ∧
      ((terminated (a ++ t) ++ rest)[a.length + 1]? = some 0x78 ∨
        (terminated (a ++ t) ++ rest)[a.length + 1]? = some 0x58)) ↔ HexMark t := by
    rw [Nat.add_zero] at hzero
    rw [hzero]
    refine and_congr_right fun h => ?_
    have hlen : 1 ≤ t.length := (List.getElem?_eq_some_iff.mp h).1
    rw [getElem?_terminated (by decide) a t rest 1 hlen,
      getElem?_terminated (by decide) a t rest 1 hlen]
  rw [Nat.add_zero] at hzero
  unfold detectBase basePrefix
  by_cases hbase : base = 0
  · subst hbase
    simp only [true_or, true_and, if_true, ne_eq, not_true_eq_false, if_false]
    by_cases hstart : t[0]? = some 0x30
    · have hmark' := hmark
      rw [hzero] at hmark'
      simp only [hstart, true_and] at hmark'
      simp only [hzero, hstart, if_true, hmark']
      split <;> rfl
    · have hnot : ¬HexMark t := fun h => hstart h.1
      simp only [hzero, hstart, hnot, if_false, Nat.add_zero]
  · simp only [hbase, false_or, hmark, if_false, ne_eq, not_false_eq_true, if_true]
    split
    case isTrue h => simp [h.1]
    case isFalse => rfl

theorem HexMark.length (h : HexMark t) : 2 ≤ t.length := by
  rcases h.2 with h | h <;> exact (List.getElem?_eq_some_iff.mp h).1

/-- A prefix is part of the string. -/
theorem basePrefix_le (base : Nat) (t : List Byte) : (basePrefix base t).2 ≤ t.length := by
  unfold basePrefix
  split
  case isTrue h => exact h.2.length
  case isFalse =>
    split
    · exact Nat.zero_le _
    · split
      case isTrue h => exact (List.getElem?_eq_some_iff.mp h).1
      case isFalse => exact Nat.zero_le _

theorem drop_terminated (a t rest : List Byte) {n : Nat} (hn : n ≤ t.length) :
    (terminated (a ++ t) ++ rest).drop (a.length + n) = terminated (t.drop n) ++ rest := by
  have hmem : terminated (a ++ t) ++ rest = a ++ (t ++ 0 :: rest) := by simp [terminated]
  rw [hmem, List.drop_append, List.drop_eq_nil_of_le (Nat.le_add_right _ _),
    Nat.add_sub_cancel_left, List.drop_append_of_le_length hn]
  simp [terminated]

theorem signLength_le (t : List Byte) : signLength t ≤ t.length := by
  cases t with
  | nil => decide
  | cons c t =>
    unfold signLength
    split <;> simp

/-- **`strtol`** on a terminated string. -/
theorem strtol_terminated (hs : 0 ∉ s) (rest : List Byte) (base : Nat) :
    strtol (terminated s ++ rest) base =
      let body := unsigned s
      let skipped := s.length - body.length + (basePrefix base body).2
      let digits := leadingDigits (basePrefix base body).1 (body.drop (basePrefix base body).2)
      some (withSign (decide ((signed s).head? = some 0x2D)) (skipped + digits.length)
        (accumulate (basePrefix base body).1 0 digits)) := by
  obtain ⟨blank, hblank⟩ : ∃ blank, s.takeWhile isSpace = blank := ⟨_, rfl⟩
  obtain ⟨sign, hsign⟩ : ∃ sign, (signed s).take (signLength (signed s)) = sign := ⟨_, rfl⟩
  have hsigned : s = blank ++ signed s := by
    rw [← hblank]
    exact List.takeWhile_append_dropWhile.symm
  have hbody : s = (blank ++ sign) ++ unsigned s := by
    rw [List.append_assoc, ← hsign, unsigned, List.take_append_drop]
    exact hsigned
  have hsignLength : sign.length = signLength (signed s) := by
    rw [← hsign, List.length_take, Nat.min_eq_left (signLength_le _)]
  have hskipped : (blank ++ sign).length = s.length - (unsigned s).length := by
    have hlength : s.length = (blank ++ sign).length + (unsigned s).length :=
      (congrArg List.length hbody).trans List.length_append
    omega
  have hadvance : advance isSpace (terminated s ++ rest) = some blank.length := by
    rw [advance_terminated hs, hblank]
  have hhandle : handleSign (terminated s ++ rest) blank.length =
      (decide ((signed s).head? = some 0x2D), (blank ++ sign).length) := by
    have := handleSign_terminated blank (signed s) rest
    rwa [← hsigned, ← hsignLength, ← List.length_append] at this
  have hdetect := detectBase_terminated (blank ++ sign) (unsigned s) rest base
  rw [← hbody] at hdetect
  have hdrop : (terminated s ++ rest).drop ((blank ++ sign).length + (basePrefix base (unsigned s)).2) =
      terminated ((unsigned s).drop (basePrefix base (unsigned s)).2) ++ rest := by
    have := drop_terminated (blank ++ sign) (unsigned s) rest (basePrefix_le base (unsigned s))
    rwa [← hbody] at this
  have hzero : 0 ∉ (unsigned s).drop (basePrefix base (unsigned s)).2 := fun h =>
    hs (hbody ▸ List.mem_append_right _ (List.mem_of_mem_drop h))
  rw [hskipped] at hhandle hdetect hdrop
  simp only [strtol, hadvance, hhandle, hdetect, hdrop, Option.bind_eq_bind, Option.bind_some,
    convertDigits_terminated hzero, withSign]
  split <;> rfl

/-! ## The grammar and the function -/

/-- A string whose first character is `0` starts with an octal digit. -/
theorem leadingDigits_zero (hbase : 0 < base) (hstart : t[0]? = some 0x30) :
    leadingDigits base t = 0 :: leadingDigits base (t.drop 1) := by
  cases t with
  | nil => cases hstart
  | cons c t =>
    obtain rfl := Option.some.inj hstart
    have hdigit : digitOf 0x30 = some 0 := by decide
    simp [leadingDigits, hdigit, hbase]

/-- Behind the `0` of a mark there is no digit of base 8 or 16. -/
theorem leadingDigits_mark (hbase : base = 8 ∨ base = 16) (hmark : HexMark t) :
    leadingDigits base t = [0] := by
  obtain ⟨hstart, hx⟩ := hmark
  rw [leadingDigits_zero (by omega) hstart]
  rcases t with _ | ⟨c, _ | ⟨d, t⟩⟩
  · cases hstart
  · rcases hx with hx | hx <;> cases hx
  · have hnone : leadingDigits base (d :: t) = [] := by
      rcases hx with hx | hx <;> obtain rfl := Option.some.inj hx
      · have hdigit : digitOf 0x78 = some 33 := by decide
        simp only [leadingDigits, hdigit]
        exact if_neg (by omega)
      · have hdigit : digitOf 0x58 = some 33 := by decide
        simp only [leadingDigits, hdigit]
        exact if_neg (by omega)
    simp [hnone]

/-- A call that stops where the grammar does, on digits of the same value. -/
theorem parsesExactly_iff (ds : List Nat) (hbase : 0 < (numeral s base).base)
    (hds : digitsValue (numeral s base).base 0 ds =
      digitsValue (numeral s base).base 0 (numeral s base).digits)
    (hcall : strtol (terminated s ++ rest) base = some (withSign (numeral s base).negative
      ((numeral s base).start + (numeral s base).digits.length)
      (accumulate (numeral s base).base 0 ds))) :
    ParsesExactly s rest base ↔
      ((numeral s base).digits = [] → (numeral s base).start = 0) ∧
        (numeral s base).value ≠ longMin := by
  have hvalue := withSign_exact_iff hbase (numeral s base).negative
    ((numeral s base).start + (numeral s base).digits.length) ds
  rw [hds, ← Numeral.value] at hvalue
  have hendptr : ∀ n r, (withSign (numeral s base).negative n r).endptr = n := by
    intro n r
    unfold withSign
    split <;> rfl
  unfold ParsesExactly
  rw [hcall]
  constructor
  · rintro ⟨r, hr, -, hnone, hin⟩
    obtain rfl := Option.some.inj hr
    refine ⟨fun hempty => ?_, hvalue.mp hin⟩
    have := (hnone hempty).1
    rw [hendptr] at this
    omega
  · rintro ⟨hstart, hne⟩
    have hin := hvalue.mpr hne
    refine ⟨_, rfl, fun _ => hendptr _ _, fun hempty => ⟨?_, ?_⟩, hin⟩
    · rw [hendptr, hstart hempty, hempty]
      rfl
    · have hzero : (numeral s base).value = 0 := by
        unfold Numeral.value
        rw [hempty]
        split <;> rfl
      rw [hzero] at hin
      exact (hin (by decide)).1

theorem unsigned_eq_iff (s : List Byte) : unsigned s = s ↔ s.length - (unsigned s).length = 0 := by
  have hsuffix : unsigned s <:+ s :=
    (List.drop_suffix _ _).trans (List.dropWhile_suffix _)
  constructor
  · intro heq
    rw [heq]
    omega
  · intro hzero
    have hle := hsuffix.length_le
    exact hsuffix.eq_of_length (by omega)

/-- A prefix, and digits behind it. -/
theorem numeral_prefixed (hbase : base = 0 ∨ base = 16) (hmark : HexMark (unsigned s))
    (hfollows : HexFollows (unsigned s)) :
    numeral s base = ⟨(signed s).head? = some 0x2D, s.length - (unsigned s).length + 2, 16,
      leadingDigits 16 ((unsigned s).drop 2)⟩ := by
  have hbase' : (if base ≠ 0 then base else 16) = 16 := by
    rcases hbase with rfl | rfl <;> rfl
  simp only [numeral, hbase, hmark, hfollows, and_self, if_true, hbase']

/-- Of a mark without a digit behind it, only the `0` belongs to the number. -/
theorem numeral_bareMark (hbase : base = 0 ∨ base = 16) (hmark : HexMark (unsigned s))
    (hfollows : ¬HexFollows (unsigned s)) :
    (numeral s base).digits = [0] ∧
      (numeral s base).start = s.length - (unsigned s).length := by
  have hstart : (unsigned s)[0]? = some 0x30 := hmark.1
  have hbase' : (if base ≠ 0 then base else 8) = 8 ∨ (if base ≠ 0 then base else 8) = 16 := by
    rcases hbase with rfl | rfl
    · exact .inl rfl
    · exact .inr rfl
  simp only [numeral, hfollows, and_false, if_false, hstart, if_true, List.drop_zero,
    Nat.add_zero, and_true]
  exact leadingDigits_mark hbase' hmark

/-- Without a mark no prefix is skipped, but a leading `0` that selects base 8, and that
is also the first digit. -/
theorem numeral_unmarked (hbase : base = 0 ∨ 2 ≤ base ∧ base ≤ 36)
    (hmark : ¬((base = 0 ∨ base = 16) ∧ HexMark (unsigned s))) :
    ∃ b m, basePrefix base (unsigned s) = (b, m) ∧ 0 < b ∧
      numeral s base = ⟨(signed s).head? = some 0x2D, s.length - (unsigned s).length, b,
        leadingDigits b (unsigned s)⟩ ∧
      m + (leadingDigits b ((unsigned s).drop m)).length = (leadingDigits b (unsigned s)).length ∧
      digitsValue b 0 (leadingDigits b ((unsigned s).drop m)) =
        digitsValue b 0 (leadingDigits b (unsigned s)) := by
  have hisHex : ¬((base = 0 ∨ base = 16) ∧ HexMark (unsigned s) ∧ HexFollows (unsigned s)) :=
    fun h => hmark ⟨h.1, h.2.1⟩
  simp only [basePrefix, hmark, numeral, hisHex, if_false, List.drop_zero, Nat.add_zero]
  rcases hbase with rfl | ⟨hlow, -⟩
  · by_cases hzero : (unsigned s)[0]? = some 0x30
    · refine ⟨8, 1, by simp [hzero], by decide, by simp [hzero], ?_, ?_⟩
      all_goals rw [leadingDigits_zero (by decide) hzero]
      · rw [List.length_cons, Nat.add_comm]
      · rfl
    · exact ⟨10, 0, by simp [hzero], by decide, by simp [hzero], Nat.zero_add _, rfl⟩
  · have hne : base ≠ 0 := by omega
    exact ⟨base, 0, by simp [hne], by omega, by simp [hne], Nat.zero_add _, rfl⟩

theorem parsesExactly_prefixed (hs : 0 ∉ s) (rest : List Byte) (hbase : base = 0 ∨ base = 16)
    (hmark : HexMark (unsigned s)) (hfollows : HexFollows (unsigned s)) :
    ParsesExactly s rest base ↔ (numeral s base).value ≠ longMin := by
  have hcall := strtol_terminated hs rest base
  have hnumeral := numeral_prefixed hbase hmark hfollows
  have hskipped : basePrefix base (unsigned s) = (16, 2) := if_pos ⟨hbase, hmark⟩
  simp only [hskipped] at hcall
  rw [parsesExactly_iff (leadingDigits 16 ((unsigned s).drop 2))
    (by rw [hnumeral]; exact Nat.succ_pos 15) (by rw [hnumeral]) (by rw [hnumeral, hcall])]
  have hne : (numeral s base).digits ≠ [] := by
    rw [hnumeral]
    exact hfollows
  simp only [hne, false_implies, true_and]

/-- The mark is skipped, and the call stops behind it. -/
theorem not_parsesExactly_bareMark (hs : 0 ∉ s) (rest : List Byte) (hbase : base = 0 ∨ base = 16)
    (hmark : HexMark (unsigned s)) (hfollows : ¬HexFollows (unsigned s)) :
    ¬ParsesExactly s rest base := by
  have hcall := strtol_terminated hs rest base
  obtain ⟨hdigits, hstart⟩ := numeral_bareMark hbase hmark hfollows
  have hskipped : basePrefix base (unsigned s) = (16, 2) := if_pos ⟨hbase, hmark⟩
  have hnone : leadingDigits 16 ((unsigned s).drop 2) = [] := not_not.mp hfollows
  rintro ⟨r, hr, hend, -⟩
  simp only [hcall, hskipped] at hr
  obtain rfl := Option.some.inj hr
  have hlast := hend (by rw [hdigits]; decide)
  rw [hdigits, hstart] at hlast
  simp only [hnone, withSign] at hlast
  split at hlast <;> simp at hlast

theorem parsesExactly_unmarked (hs : 0 ∉ s) (rest : List Byte)
    (hbase : base = 0 ∨ 2 ≤ base ∧ base ≤ 36)
    (hmark : ¬((base = 0 ∨ base = 16) ∧ HexMark (unsigned s))) :
    ParsesExactly s rest base ↔
      ((numeral s base).digits = [] → s.length - (unsigned s).length = 0) ∧
        (numeral s base).value ≠ longMin := by
  have hcall := strtol_terminated hs rest base
  obtain ⟨b, m, hskipped, hpos, hnumeral, hlength, hvalue⟩ := numeral_unmarked hbase hmark
  simp only [hskipped] at hcall
  rw [parsesExactly_iff (leadingDigits b ((unsigned s).drop m))
    (by rw [hnumeral]; exact hpos) (by rw [hnumeral]; exact hvalue)
    (by rw [hnumeral, hcall, Nat.add_assoc, hlength]), hnumeral]

/-- **Numbers.** For every base it may be called with, and every string, `strtol` parses
the number the grammar finds there exactly when a `0x` that counts as a prefix has a
hexadecimal digit behind it, a string without digits has neither white space nor a sign
in front of where they are missing, and the number is not `LONG_MIN`. -/
theorem strtol_exact_iff (hs : 0 ∉ s) (rest : List Byte) (hbase : base = 0 ∨ 2 ≤ base ∧ base ≤ 36) :
    ParsesExactly s rest base ↔
      (base = 0 ∨ base = 16 → HexMark (unsigned s) → HexFollows (unsigned s)) ∧
        ((numeral s base).digits = [] → unsigned s = s) ∧
        (numeral s base).value ≠ longMin := by
  rw [unsigned_eq_iff]
  by_cases hhex : (base = 0 ∨ base = 16) ∧ HexMark (unsigned s)
  · by_cases hfollows : HexFollows (unsigned s)
    · have hne : (numeral s base).digits ≠ [] := by
        rw [numeral_prefixed hhex.1 hhex.2 hfollows]
        exact hfollows
      rw [parsesExactly_prefixed hs rest hhex.1 hhex.2 hfollows]
      simp only [hne, false_implies, hfollows, implies_true, true_and]
    · exact iff_of_false (not_parsesExactly_bareMark hs rest hhex.1 hhex.2 hfollows)
        fun h => hfollows (h.1 hhex.1 hhex.2)
  · rw [parsesExactly_unmarked hs rest hbase hhex]
    exact ⟨fun h => ⟨fun hbase' hmark => absurd ⟨hbase', hmark⟩ hhex, h⟩, fun h => h.2⟩

/-- The string `-12`. -/
theorem strtol_exact_iff_minus :
    ParsesExactly [0x2D, 0x31, 0x32] [] 10 :=
  (strtol_exact_iff (by decide) [] (by decide)).mpr (by decide +kernel)

/-- In `0xg` the grammar finds the number `0`; `strtol` stops behind the `x`. -/
theorem strtol_bare_prefix : strtol (terminated [0x30, 0x78, 0x67]) 16 = some ⟨0, 2, []⟩ ∧
    (numeral [0x30, 0x78, 0x67] 16).start + (numeral [0x30, 0x78, 0x67] 16).digits.length = 1 ∧
    ¬ParsesExactly [0x30, 0x78, 0x67] [] 16 := by
  refine ⟨by decide +kernel, by decide, ?_⟩
  rintro ⟨r, hr, hend, -⟩
  obtain rfl := Option.some.inj (hr.symm.trans
    (by decide +kernel : _ = some (⟨0, 2, []⟩ : Strtol)))
  exact absurd (hend (by decide)) (by decide)

end Leenix
