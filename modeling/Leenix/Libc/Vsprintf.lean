import Leenix.Lib.Loop
import Leenix.Libc.String
import Mathlib.Data.Nat.Digits.Defs

/-!
# vsnprintf (libc/vsprintf.c)

An `int` is an `Int32`, so that overflow wraps. The variable arguments are the words on the
stack behind the format, `%s` finds a string at every pointer but `NULL`, and the precision,
which is read and ignored, is only read.

A function that prints with `bputc` alone returns the characters it prints.

- `intDigits_eq`: the loop of `fmt_int` leaves the digits of the number.
- `step`: one turn of the loop of `vsnprintf`, in its six states.
- `step_measure`: what every turn makes smaller.
-/

namespace Leenix

/-- The code of a character. -/
def ascii (c : Char) : Byte := c.toNat.toUInt8

namespace Vsprintf

/-- The words of the variable arguments that are left. -/
abbrev Args := Nat → UInt32

/-- `va_arg` for an argument of one word. -/
def vaArg (ap : Args) : UInt32 × Args := (ap 0, fun i => ap (i + 1))

def isDigit (c : Byte) : Bool := ascii '0' ≤ c && c ≤ ascii '9'

/-- `get_atoi` (vsprintf.c:31–37), with `n` so far: the number, and the string after. -/
def getAtoi (n : Int32) : List Byte → Int32 × List Byte
  | [] => (n, [])
  | c :: str =>
    if isDigit c then getAtoi (n * 10 + c.toUInt32.toInt32 - (ascii '0').toUInt32.toInt32) str
    else (n, c :: str)

/-- The `F_` bits (vsprintf.c:46–52). -/
structure Flags where
  alternate : Bool := false
  zeropad : Bool := false
  left : Bool := false
  space : Bool := false
  plus : Bool := false
  signed : Bool := false
  small : Bool := false

/-- `n` characters, none if `n` is negative. -/
def pad (n : Int32) (c : Byte) : List Byte := List.replicate n.toNatClampNeg c

/-- The digits, the least significant one first: the loop of `fmt_int`, with room for `room`
of them. -/
def intDigits (base : Nat) : Nat → Nat → List Nat
  | 0, _ => []
  | room + 1, n => n % base :: if 0 < n / base then intDigits base room (n / base) else []

/-- The character of a digit. -/
def digit (small : Bool) (d : Nat) : Byte :=
  ((if small then "0123456789abcdef" else "0123456789ABCDEF").toList.map ascii).getD d 0

/-- `fmt_int` (vsprintf.c:64–125). -/
def fmtInt (num : Int64) (base : Nat) (width : Int32) (flags : Flags) : List Byte :=
  if base < 2 ∨ 16 < base then []
  else
    let flags := if flags.left then { flags with zeropad := false } else flags
    let negative := flags.signed ∧ num < 0
    let n : UInt32 := (if negative then -num else num).toUInt64.toUInt32
    let sign := if negative then [ascii '-']
      else if flags.plus then [ascii '+']
      else if flags.space then [ascii ' ']
      else []
    let nbuf := (intDigits base 64 n.toNat).map (digit flags.small)
    let altb := sign ++
      if flags.alternate ∧ base = 8 then [ascii '0']
      else if flags.alternate ∧ base = 16 then
        [ascii '0', if flags.small then ascii 'x' else ascii 'X']
      else []
    let used := Int32.ofNat (nbuf.length + altb.length)
    let npad := if used < width then width - used else 0
    if 0 < npad ∧ !flags.left then
      if flags.zeropad then altb ++ pad npad (ascii '0') ++ nbuf.reverse
      else pad npad (ascii ' ') ++ altb ++ nbuf.reverse
    else altb ++ nbuf.reverse ++ if flags.left then pad npad (ascii ' ') else []

/-- `fmt_chr` (vsprintf.c:127–143). -/
def fmtChr (c : Byte) (width : Int32) (flags : Flags) : List Byte :=
  let npad := if 0 < width then width - 1 else 0
  if flags.left then c :: pad npad (ascii ' ') else pad npad (ascii ' ') ++ [c]

/-- `fmt_str` (vsprintf.c:156–173). -/
def fmtStr (s : CString) (width : Int32) (flags : Flags) : List Byte :=
  let npad := if 0 < width then width - Int32.ofNat s.1.length else 0
  if flags.left then s.1 ++ pad npad (ascii ' ') else pad npad (ascii ' ') ++ s.1

/-- The `switch` on a flag: the flags after, unless `c` is none. -/
def addFlag (flags : Flags) (c : Byte) : Option Flags :=
  if c = ascii '#' then some { flags with alternate := true }
  else if c = ascii '0' then some { flags with zeropad := true }
  else if c = ascii '-' then some { flags with left := true }
  else if c = ascii ' ' then some { flags with space := true }
  else if c = ascii '+' then some { flags with plus := true }
  else if c = 0x27 ∨ c = ascii 'I' then some flags
  else none

/-- The `switch` on a length modifier: `lflags` after, unless `c` is none. -/
def addLength (lflags : Nat) (c : Byte) : Option Nat :=
  if c = ascii 'h' then some (if lflags = 1 then 2 else 1)
  else if c = ascii 'l' then some (if lflags = 3 then 4 else 3)
  else if c = ascii 'L' then some 5
  else none

/-- The argument of an integer conversion. -/
def fetchNum (c : Byte) (lflags : Nat) (ap : Args) : Int64 × Args :=
  let (low, ap) := vaArg ap
  if lflags = 3 then (low.toInt32.toInt64, ap)
  -- `L_LLONG | L_DOUBLE`, which has the bit of `L_CHAR`
  else if lflags &&& (4 ||| 5) ≠ 0 then
    let (high, ap) := vaArg ap
    ((high.toUInt64 <<< 32 ||| low.toUInt64).toInt64, ap)
  else if c = ascii 'd' ∨ c = ascii 'i' then (low.toInt32.toInt64, ap)
  else (low.toUInt64.toInt64, ap)

theorem zero_notMem_nullText : 0 ∉ "(null)".toList.map ascii := by decide

/-- The string that stands for a null pointer. -/
def nullText : CString := ⟨_, zero_notMem_nullText⟩

/-- A conversion (vsprintf.c:265–306): the characters, the arguments and `c` after. What it
does to `flags`, the next directive undoes. -/
def convert (strings : UInt32 → CString) (c : Byte) (flags : Flags) (width : Int32)
    (lflags : Nat) (ap : Args) : List Byte × Args × Byte :=
  if c ∈ ['d', 'i', 'o', 'b', 'u', 'x', 'X'].map ascii then
    let (num, ap) := fetchNum c lflags ap
    let signed := flags.signed || c = ascii 'd' || c = ascii 'i'
    let small := flags.small || c = ascii 'x'
    let base := if c = ascii 'x' ∨ c = ascii 'X' then 16
      else if c = ascii 'o' then 8
      else if c = ascii 'b' then 2
      else 10
    (fmtInt num base width { flags with signed := signed, small := small }, ap, c)
  else if c = ascii 'p' then
    let (pointer, ap) := vaArg ap
    (fmtInt pointer.toInt32.toInt64 16 width { flags with small := true, alternate := true }, ap, c)
  else if c = ascii 's' then
    let (s, ap) := vaArg ap
    (fmtStr (if s = 0 then nullText else strings s) width flags, ap, c)
  else if c = ascii 'c' then
    let (value, ap) := vaArg ap
    (fmtChr value.toUInt8 width flags, ap, value.toUInt8)
  else if c = ascii '%' then ([c], ap, c)
  else ([ascii '%', c], ap, c)

/-! ## The loop -/

/-- The buffer, and the number of characters that were printed. -/
structure Out where
  buf : List Byte
  n : UInt32

/-- `bputc` (vsprintf.c:39–44). -/
def bputc (size : UInt32) (out : Out) (c : Byte) : Out :=
  ⟨if out.n < size then out.buf.set out.n.toNat c else out.buf, out.n + 1⟩

/-- The `S_` states (vsprintf.c:180–185). -/
inductive FmtState
  | default
  | flags
  | width
  | precis
  | length
  | conv

/-- The variables of `vsnprintf`. -/
structure Vars where
  fmt : List Byte
  ap : Args
  out : Out
  state : FmtState
  flags : Flags
  width : Int32
  lflags : Nat

/-- One turn of the loop (vsprintf.c:211–310), and whether it was the last one. -/
def step (strings : UInt32 → CString) (size : UInt32) (v : Vars) : Option (Bool × Vars) :=
  match v.fmt with
  | [] => none
  | c :: fmt =>
    match v.state with
    | .default =>
      if c = ascii '%' then some (c = 0, { v with fmt := fmt, state := .flags, flags := {} })
      else some (c = 0, { v with fmt := fmt, out := bputc size v.out c })
    | .flags =>
      match addFlag v.flags c with
      | some flags => some (c = 0, { v with fmt := fmt, flags := flags })
      | none => some (c = 0, { v with width := 0, state := .width })
    | .width =>
      if c = ascii '*' then
        let (word, ap) := vaArg v.ap
        let width := word.toInt32
        if width < 0 then
          some (c = 0, { v with
            fmt := fmt, ap := ap, width := -width, flags := { v.flags with left := true } })
        else some (c = 0, { v with fmt := fmt, ap := ap, width := width })
      else if isDigit c ∧ ascii '0' < c then
        let (width, fmt) := getAtoi 0 v.fmt
        some (c = 0, { v with fmt := fmt, width := width })
      else some (c = 0, { v with state := .precis })
    | .precis =>
      if c = ascii '.' then
        match fmt with
        | [] => none
        | d :: rest =>
          if isDigit d then
            some (c = 0, { v with fmt := (getAtoi 0 (d :: rest)).2, lflags := 0, state := .length })
          -- the star itself is not skipped
          else if d = ascii '*' then
            some (c = 0, { v with fmt := fmt, ap := (vaArg v.ap).2, lflags := 0, state := .length })
          else some (c = 0, { v with fmt := fmt, lflags := 0, state := .length })
      else some (c = 0, { v with lflags := 0, state := .length })
    | .length =>
      match addLength v.lflags c with
      | some lflags => some (c = 0, { v with fmt := fmt, lflags := lflags })
      | none => some (c = 0, { v with state := .conv })
    | .conv =>
      let (chars, ap, c) := convert strings c v.flags v.width v.lflags v.ap
      some (c = 0, { v with
        fmt := fmt, ap := ap, out := chars.foldl (bputc size) v.out, state := .default })

/-- What `vsnprintf` returns, the buffer after, and where it stored the terminator. -/
structure Formatted where
  len : Int32
  buf : List Byte
  terminator : Option UInt32

/-- The end of `vsnprintf` (vsprintf.c:312–319). -/
def finish (size : UInt32) (out : Out) : Formatted :=
  let n := out.n - 1
  if n < size then ⟨n.toInt32, out.buf.set n.toNat 0, some n⟩
  else if 0 < size then ⟨n.toInt32, out.buf.set (size - 1).toNat 0, some (size - 1)⟩
  else ⟨n.toInt32, out.buf, none⟩

/-- `vsnprintf` (vsprintf.c:199–319). The turns of the loop are bounded by six for each
character. -/
def vsnprintf (strings : UInt32 → CString) (buf : Option (List Byte)) (size : UInt32)
    (fmt : CString) (ap : Args) : Option Formatted :=
  let size := if buf.isNone then 0 else size
  (loop (step strings size) (6 * (fmt.1.length + 2))
    ⟨terminated fmt.1, ap, ⟨buf.getD [], 0⟩, .default, {}, 0, 0⟩).map fun v => finish size v.out

/-! ## The number of turns -/

/-- The loop of `fmt_int` ends by itself: it leaves the digits of the number, and `0` for
zero. -/
theorem intDigits_eq {base room n : Nat} (hbase : 1 < base) (hn : n < 2 ^ (room + 1)) :
    intDigits base (room + 1) n = if n = 0 then [0] else Nat.digits base n := by
  induction room generalizing n with
  | zero =>
    have hdiv : n / base = 0 := Nat.div_eq_of_lt (by omega)
    have hmod : n % base = n := Nat.mod_eq_of_lt (by omega)
    by_cases hzero : n = 0
    · simp [intDigits, hzero]
    · simp [intDigits, hzero, hdiv, hmod, Nat.digits_of_lt base n hzero (by omega)]
  | succ room ih =>
    by_cases hzero : n = 0
    · simp [intDigits, hzero]
    have hhalf : n / base ≤ n / 2 := Nat.div_le_div_left hbase (by decide)
    have hrest := ih (n := n / base) (by rw [Nat.pow_succ] at hn; omega)
    rw [intDigits, hrest, if_neg hzero, Nat.digits_def' hbase (Nat.pos_of_ne_zero hzero)]
    by_cases hdiv : n / base = 0
    · simp [hdiv]
    · simp [hdiv, Nat.pos_of_ne_zero hdiv]

variable {strings : UInt32 → CString} {size : UInt32} {v w : Vars} {n : Int32} {c : Byte}
  {str : List Byte}

theorem getAtoi_suffix (n : Int32) (str : List Byte) : (getAtoi n str).2 <:+ str := by
  induction str generalizing n with
  | nil => exact List.suffix_rfl
  | cons c str ih =>
    rw [getAtoi]
    split
    · exact (ih _).trans (List.suffix_cons c str)
    · exact List.suffix_rfl

theorem length_getAtoi_lt (hc : isDigit c) : (getAtoi n (c :: str)).2.length < str.length + 1 := by
  rw [getAtoi, if_pos hc]
  exact Nat.lt_succ_of_le (getAtoi_suffix _ str).length_le

/-- How many states are left before the next character must be passed. -/
def FmtState.rank : FmtState → Nat
  | .default => 5
  | .flags => 4
  | .width => 3
  | .precis => 2
  | .length => 1
  | .conv => 0

/-- Passing a character makes up for the state after. -/
def Vars.measure (v : Vars) : Nat := 6 * v.fmt.length + v.state.rank

/-- A turn passes a character or goes on to the next state. -/
theorem step_progress {last : Bool} (h : step strings size v = some (last, w)) :
    w.fmt.length < v.fmt.length ∨ w.fmt = v.fmt ∧ w.state.rank < v.state.rank := by
  obtain ⟨fmt, ap, out, state, flags, width, lflags⟩ := v
  cases fmt with
  | nil => cases h
  | cons c fmt =>
    cases state with
    | default =>
      simp only [step] at h
      split at h <;>
        · cases h
          exact .inl (Nat.lt_succ_self _)
    | flags =>
      simp only [step] at h
      split at h
      · cases h
        exact .inl (Nat.lt_succ_self _)
      · cases h
        exact .inr ⟨rfl, Nat.lt_succ_self 3⟩
    | width =>
      simp only [step] at h
      split at h
      · split at h <;>
          · cases h
            exact .inl (Nat.lt_succ_self _)
      · split at h
        case isTrue hdigit =>
          cases h
          exact .inl (length_getAtoi_lt hdigit.1)
        case isFalse =>
          cases h
          exact .inr ⟨rfl, Nat.lt_succ_self 2⟩
    | precis =>
      simp only [step] at h
      split at h
      · cases fmt with
        | nil => cases h
        | cons d rest =>
          simp only at h
          split at h
          · cases h
            exact .inl (Nat.lt_succ_of_le (getAtoi_suffix 0 (d :: rest)).length_le)
          · split at h <;>
              · cases h
                exact .inl (Nat.lt_succ_self _)
      · cases h
        exact .inr ⟨rfl, Nat.lt_succ_self 1⟩
    | length =>
      simp only [step] at h
      split at h
      · cases h
        exact .inl (Nat.lt_succ_self _)
      · cases h
        exact .inr ⟨rfl, Nat.lt_succ_self 0⟩
    | conv =>
      cases h
      exact .inl (Nat.lt_succ_self _)

theorem rank_le (state : FmtState) : state.rank ≤ 5 := by
  cases state <;> decide

theorem step_measure {last : Bool} (h : step strings size v = some (last, w)) :
    w.measure < v.measure := by
  have hrank := rank_le w.state
  rw [Vars.measure, Vars.measure]
  rcases step_progress h with hlt | ⟨hfmt, hlt⟩
  · omega
  · rw [hfmt]
    omega

end Vsprintf

end Leenix
