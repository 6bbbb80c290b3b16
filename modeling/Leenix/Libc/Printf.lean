import Leenix.Libc.FormatText

/-!
# printf and printk (libc/stdio.c, libc/kernel/stdio.c)

Both format into 1024 bytes of the stack. `printf` hands the buffer to `write` with the
number that `vsnprintf` returns, `printk` hands it to `terminal_writestring` as a string.

- `HandsOut`: the count stops at the terminator, and both hand out the same text.
- `handsOut_iff`: when it does, by the length of the text of the format.
-/

namespace Leenix

namespace Vsprintf

/-- `char buffer[1024]`, with what the stack held. -/
abbrev Local := { buffer : List Byte // buffer.length = 1024 }

/-- The arguments of `write`, and the index of the terminator in the buffer. -/
structure Written where
  buf : List Byte
  count : UInt32
  terminator : Option UInt32

/-- The bytes that `write` is told to write, if they are in the buffer. -/
def Written.bytes (w : Written) : Option (List Byte) :=
  if w.count.toNat ≤ w.buf.length then some (w.buf.take w.count.toNat) else none

/-- `printf` (stdio.c:7–19): what it passes to `write`. -/
def printf (strings : UInt32 → CString) (buffer : Local) (fmt : CString) (ap : Args) :
    Option Written := do
  let r ← vsnprintf strings (some buffer.1) 1024 fmt ap
  return ⟨r.buf, r.len.toUInt32, r.terminator⟩

/-- `printk` (kernel/stdio.c:11–26): the string that it passes to `terminal_writestring`. -/
def printk (strings : UInt32 → CString) (buffer : Local) (fmt : CString) (ap : Args) :
    Option (List Byte) := do
  let r ← vsnprintf strings (some buffer.1) 1024 fmt ap
  return cstr r.buf

/-- `write` gets no more characters than there are before the terminator, and if none of
these is a NUL, it gets the text that `printk` hands out. -/
def HandsOut (strings : UInt32 → CString) (buffer buffer' : Local) (fmt : CString) (ap : Args) :
    Prop :=
  ∃ w s stored, printf strings buffer fmt ap = some w ∧ printk strings buffer' fmt ap = some s ∧
    w.terminator = some stored ∧ w.count ≤ stored ∧
      (0 ∉ w.buf.take stored.toNat → w.bytes = some s)

variable {strings : UInt32 → CString} {size : UInt32} {chars fmt : List Byte} {out out' : Out}
  {ap : Args} {i k : Nat} {c : Byte}

/-! ## The buffer -/

theorem foldl_bputc_length (size : UInt32) (chars : List Byte) (out : Out) :
    (chars.foldl (bputc size) out).buf.length = out.buf.length := by
  induction chars generalizing out with
  | nil => rfl
  | cons c chars ih =>
    rw [List.foldl_cons, ih, bputc]
    split <;> simp

/-- What was printed does not depend on what the buffer held: the two outputs agree on the
places of the first `k` characters, which are all there are. -/
structure Agree (size : UInt32) (k : Nat) (out out' : Out) : Prop where
  n : out.n = UInt32.ofNat k
  n' : out'.n = UInt32.ofNat k
  length : out'.buf.length = out.buf.length
  same : ∀ i < k, i < size.toNat → out'.buf[i]? = out.buf[i]?

theorem Agree.bputc (h : Agree size k out out') (c : Byte) :
    Agree size (k + 1) (bputc size out c) (bputc size out' c) where
  n := by rw [Vsprintf.bputc, h.n, UInt32.ofNat_add]; rfl
  n' := by rw [Vsprintf.bputc, h.n', UInt32.ofNat_add]; rfl
  length := by
    have hlen := foldl_bputc_length size [c]
    exact (hlen out').trans (h.length.trans (hlen out).symm)
  same i hi hsize := by
    have hk : (UInt32.ofNat k).toNat = k % 2 ^ 32 := UInt32.toNat_ofNat'
    have hlt := size.toNat_lt
    simp only [Vsprintf.bputc, h.n, h.n', UInt32.lt_iff_toNat_lt, hk]
    by_cases hstore : k % 2 ^ 32 < size.toNat
    · -- the new place, or one of the old ones
      simp only [hstore, if_true, List.getElem?_set, h.length]
      by_cases hplace : k % 2 ^ 32 = i
      · simp only [hplace, if_true]
      · simp only [hplace, if_false]
        exact h.same i (by omega) hsize
    · simp only [hstore, if_false]
      exact h.same i (by omega) hsize

theorem Agree.foldl (h : Agree size k out out') (chars : List Byte) :
    Agree size (k + chars.length) (chars.foldl (Vsprintf.bputc size) out)
      (chars.foldl (Vsprintf.bputc size) out') := by
  induction chars generalizing out out' k with
  | nil => exact h
  | cons c chars ih =>
    rw [List.length_cons, Nat.add_comm chars.length 1, ← Nat.add_assoc]
    exact ih (h.bputc c)

/-! ## What is handed out -/

/-- The counter at the end. -/
theorem toNat_ofNat_sub_one (k : Nat) :
    (UInt32.ofNat k - 1).toNat = (k + (2 ^ 32 - 1)) % 2 ^ 32 := by
  rw [UInt32.toNat_sub, UInt32.toNat_ofNat', UInt32.toNat_one]
  omega

/-- Printing the terminator makes a string of what is before it. -/
theorem cstr_set {buf : List Byte} (hi : i < buf.length) (hzero : 0 ∉ buf.take i) :
    cstr (buf.set i 0) = buf.take i := by
  have hset : buf.set i 0 = terminated (buf.take i) ++ buf.drop (i + 1) := by
    rw [List.set_eq_take_append_cons_drop, if_pos hi, terminated, List.append_assoc]
    rfl
  rw [hset, cstr_terminated hzero]

/-- By the value of the counter at the end. -/
theorem handsOut_iff_n (strings : UInt32 → CString) (buffer buffer' : Local) (fmt : CString)
    (ap : Args) : HandsOut strings buffer buffer' fmt ap ↔
      UInt32.ofNat (text strings fmt.1 ap).length - 1 < 1024 := by
  have hstart : Agree 1024 0 ⟨buffer.1, 0⟩ ⟨buffer'.1, 0⟩ :=
    ⟨rfl, rfl, buffer'.2.trans buffer.2.symm, fun i hi => absurd hi (Nat.not_lt_zero i)⟩
  have hagree := hstart.foldl (text strings fmt.1 ap)
  have hlen := foldl_bputc_length 1024 (text strings fmt.1 ap) ⟨buffer.1, 0⟩
  rw [Nat.zero_add] at hagree
  rw [HandsOut, printf, printk, vsnprintf_eq, vsnprintf_eq]
  generalize (text strings fmt.1 ap).foldl (bputc 1024) ⟨buffer.1, 0⟩ = out at hagree hlen
  generalize (text strings fmt.1 ap).foldl (bputc 1024) ⟨buffer'.1, 0⟩ = out' at hagree
  rw [← hagree.n]
  constructor
  · rintro ⟨w, s, stored, hw, -, hstored, hcount, -⟩
    by_contra hge
    -- the terminator is in the last place
    have hfinish : finish 1024 out = ⟨(out.n - 1).toInt32, out.buf.set 1023 0, some 1023⟩ := by
      rw [finish, if_neg hge]
      rfl
    rw [hfinish] at hw
    obtain rfl := Option.some.inj hw
    obtain rfl := Option.some.inj hstored
    exact hge (UInt32.lt_of_le_of_lt hcount (by decide))
  · intro hlt
    have hfinish : ∀ o : Out, o.n = out.n → finish 1024 o =
        ⟨(out.n - 1).toInt32, o.buf.set (out.n - 1).toNat 0, some (out.n - 1)⟩ := by
      intro o ho
      rw [finish, ho, if_pos hlt]
    rw [hfinish out rfl, hfinish out' (hagree.n'.trans hagree.n.symm)]
    have hcount : (out.n - 1).toNat < 1024 := UInt32.lt_iff_toNat_lt.mp hlt
    have hprinted : (out.n - 1).toNat < (text strings fmt.1 ap).length := by
      rw [hagree.n, toNat_ofNat_sub_one] at hcount ⊢
      omega
    have hsame : out'.buf.take (out.n - 1).toNat = out.buf.take (out.n - 1).toNat := by
      refine List.ext_getElem? fun i => ?_
      rw [List.getElem?_take, List.getElem?_take]
      split
      case isTrue hi => exact hagree.same i (hi.trans hprinted) (hi.trans hcount)
      case isFalse => rfl
    refine ⟨_, _, _, rfl, rfl, rfl, UInt32.le_refl _, fun hzero => ?_⟩
    simp only [List.take_set_of_le (Nat.le_refl _)] at hzero
    have hroom : (out.n - 1).toNat < out'.buf.length := by
      rw [hagree.length, hlen, buffer.2]
      exact hcount
    rw [cstr_set hroom (hsame ▸ hzero), hsame, Written.bytes]
    simp only [UInt32.toUInt32_toInt32, List.length_set, List.take_set_of_le (Nat.le_refl _)]
    rw [if_pos (by rw [hlen, buffer.2]; exact hcount.le)]

/-- **What `printf` hands out.** It is what was formatted exactly when the length of the
text, one less for the terminator, is at most 1023 as a 32-bit number. -/
theorem handsOut_iff (strings : UInt32 → CString) (buffer buffer' : Local) (fmt : CString)
    (ap : Args) : HandsOut strings buffer buffer' fmt ap ↔
      ((text strings fmt.1 ap).length - 1 : Int) % 2 ^ 32 ≤ 1023 := by
  rw [handsOut_iff_n, UInt32.lt_iff_toNat_lt, toNat_ofNat_sub_one]
  have hbound : (1024 : UInt32).toNat = 1024 := rfl
  rw [hbound]
  omega

/-- A format without directives. -/
theorem text_of_notMem (h : ascii '%' ∉ fmt) : text strings fmt ap = terminated fmt := by
  induction fmt with
  | nil => rw [text]; rfl
  | cons c fmt ih =>
    obtain ⟨hc, hfmt⟩ := List.ne_and_not_mem_of_not_mem_cons h
    rw [text, if_neg hc.symm, ih hfmt]
    rfl

theorem length_replicate_zero : (List.replicate 1024 (0 : Byte)).length = 1024 :=
  List.length_replicate

/-- A format of 1024 characters. -/
theorem not_handsOut_long : ¬∀ strings buffer buffer' fmt ap,
    HandsOut strings buffer buffer' fmt ap := by
  intro h
  have hzero : (0 : Byte) ∉ List.replicate 1024 (ascii 'a') := fun hmem =>
    absurd (List.eq_of_mem_replicate hmem) (by decide)
  have hplain : ascii '%' ∉ List.replicate 1024 (ascii 'a') := fun hmem =>
    absurd (List.eq_of_mem_replicate hmem) (by decide)
  have hout := (handsOut_iff_n _ _ _ _ _).mp
    (h (fun _ => nullText) ⟨_, length_replicate_zero⟩ ⟨_, length_replicate_zero⟩ ⟨_, hzero⟩ fun _ => 0)
  rw [text_of_notMem hplain, terminated, List.length_append, List.length_replicate] at hout
  exact absurd hout (by decide)

end Vsprintf

end Leenix
