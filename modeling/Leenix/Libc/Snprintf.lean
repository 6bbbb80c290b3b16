import Leenix.Libc.Printf

/-!
# What vsnprintf leaves in the buffer (libc/vsprintf.c)

- `foldl_bputc`: printed characters fill the buffer as far as there is room.
- `vsnprintf_writes`: the buffer after, byte for byte, and the number that is returned.
-/

namespace Leenix

namespace Vsprintf

variable {strings : UInt32 → CString} {buf chars : List Byte} {size : UInt32} {fmt : CString}
  {ap : Args} {k : Nat}

/-- Characters printed one after the other fill the buffer as far as there is room. -/
theorem foldl_bputc (hsize : size.toNat ≤ buf.length) (hchars : chars.length ≤ 2 ^ 32) :
    chars.foldl (bputc size) ⟨buf, 0⟩ =
      ⟨chars.take size.toNat ++ buf.drop (min chars.length size.toNat),
        UInt32.ofNat chars.length⟩ := by
  induction chars using List.reverseRecOn with
  | nil => rw [List.foldl_nil, List.take_nil, List.length_nil, Nat.zero_min]; rfl
  | append_singleton done c ih =>
    rw [List.length_append, List.length_singleton] at hchars
    have hn : (UInt32.ofNat done.length).toNat = done.length :=
      UInt32.toNat_ofNat_of_lt' (Nat.lt_of_succ_le hchars)
    rw [List.foldl_append, ih (by omega), List.foldl_cons, List.foldl_nil]
    simp only [bputc, UInt32.lt_iff_toNat_lt, hn, List.length_append, List.length_singleton,
      UInt32.ofNat_add]
    by_cases hroom : done.length < size.toNat
    · -- the next place is free
      have hdrop : buf.drop done.length = buf[done.length] :: buf.drop (done.length + 1) :=
        List.drop_eq_getElem_cons (by omega)
      have hfits : (done ++ [c]).length ≤ size.toNat := by
        rw [List.length_append, List.length_singleton]
        exact hroom
      rw [if_pos hroom, List.take_of_length_le hroom.le, Nat.min_eq_left hroom.le, hdrop,
        List.set_append_right _ _ (Nat.le_refl _), Nat.sub_self, List.set_cons_zero,
        List.take_of_length_le hfits, Nat.min_eq_left hroom, List.append_assoc]
      rfl
    · have hfull := Nat.not_lt.mp hroom
      rw [if_neg hroom, Nat.min_eq_right hfull, Nat.min_eq_right (Nat.le_succ_of_le hfull),
        List.take_append_of_le_length hfull]
      rfl

/-- The terminator in place `k`: behind the characters, or in the last place there is. -/
theorem set_terminator (hsize : size.toNat ≤ buf.length) (hk : k < size.toNat)
    (hplace : k + 1 = chars.length ∨
      k + 1 = size.toNat ∧ (chars.length = 0 ∨ size.toNat < chars.length)) :
    (chars.take size.toNat ++ buf.drop (min chars.length size.toNat)).set k 0 =
      (chars ++ buf.drop chars.length).take k ++ 0 :: buf.drop (k + 1) := by
  have hlength : (chars.take size.toNat ++ buf.drop (min chars.length size.toNat)).length =
      buf.length := by
    rw [List.length_append, List.length_take, List.length_drop]
    omega
  rw [List.set_eq_take_append_cons_drop, if_pos (by omega)]
  by_cases hfits : chars.length ≤ size.toNat
  · rw [List.take_of_length_le hfits, Nat.min_eq_left hfits]
    rcases hplace with hplace | ⟨hplace, hempty | hlong⟩
    · rw [hplace, List.drop_left]
    · rw [List.length_eq_zero_iff.mp hempty]
      rfl
    · omega
  · have hlong := Nat.not_le.mp hfits
    have hplace : k + 1 = size.toNat := by omega
    have hcut : (chars.take size.toNat).length = size.toNat := by
      rw [List.length_take]
      omega
    rw [Nat.min_eq_right hlong.le, List.take_append_of_le_length (by omega), List.take_take,
      Nat.min_eq_left hk.le, List.take_append_of_le_length (by omega), hplace,
      List.drop_append_of_le_length hcut.ge, List.drop_eq_nil_of_le hcut.le, List.nil_append]

/-- The end: what is returned, and the place of the terminator. -/
theorem finish_eq (size : UInt32) (out : Out) : (finish size out).len.toUInt32 = out.n - 1 ∧
    (finish size out).buf = if size = 0 then out.buf
      else out.buf.set (min (out.n - 1).toNat (size.toNat - 1)) 0 := by
  have hpos : 0 < size ↔ ¬size = 0 := by
    rw [UInt32.lt_iff_toNat_lt, ← UInt32.toNat_inj]
    exact Nat.pos_iff_ne_zero
  rw [finish]
  by_cases hlt : out.n - 1 < size
  · have hle := UInt32.lt_iff_toNat_lt.mp hlt
    rw [if_pos hlt, if_neg (hpos.mp (UInt32.lt_of_le_of_lt (UInt32.zero_le) hlt)),
      Nat.min_eq_left (by omega)]
    exact ⟨rfl, rfl⟩
  · have hle := Nat.not_lt.mp (mt UInt32.lt_iff_toNat_lt.mpr hlt)
    by_cases hzero : size = 0
    · rw [if_neg hlt, if_neg fun h => hpos.mp h hzero, if_pos hzero]
      exact ⟨rfl, rfl⟩
    · have hone : (size - 1).toNat = size.toNat - 1 :=
        UInt32.toNat_sub_of_le _ _ (UInt32.le_iff_toNat_le.mpr (UInt32.lt_iff_toNat_lt.mp
          (hpos.mpr hzero)))
      rw [if_neg hlt, if_pos (hpos.mpr hzero), if_neg hzero, Nat.min_eq_right (by omega), ← hone]
      exact ⟨rfl, rfl⟩

/-- **The buffer after `vsnprintf`**, if no more than `2 ^ 32` characters are printed: the text as
far as there is room for it, the terminator in the place of its last character or in the last
place, and what was there before. What is returned is the length of the whole text. -/
theorem vsnprintf_writes (hsize : size.toNat ≤ buf.length)
    (htext : (text strings fmt.1 ap).length ≤ 2 ^ 32) :
    ∃ f k, vsnprintf strings (some buf) size fmt ap = some f ∧
      f.len.toUInt32 = UInt32.ofNat (text strings fmt.1 ap).length - 1 ∧
      k = min f.len.toUInt32.toNat (size.toNat - 1) ∧
      f.buf = if size = 0 then buf
        else (text strings fmt.1 ap ++ buf.drop (text strings fmt.1 ap).length).take k ++
          0 :: buf.drop (k + 1) := by
  rw [vsnprintf_eq, foldl_bputc hsize htext]
  have hcount := toNat_ofNat_sub_one (text strings fmt.1 ap).length
  generalize text strings fmt.1 ap = chars at htext hcount
  obtain ⟨hlen, hbuf⟩ := finish_eq size ⟨chars.take size.toNat ++
    buf.drop (min chars.length size.toNat), UInt32.ofNat chars.length⟩
  dsimp only at hlen hbuf
  refine ⟨_, _, rfl, hlen, rfl, hbuf.trans ?_⟩
  by_cases hzero : size = 0
  · rw [if_pos hzero, if_pos hzero, hzero, UInt32.toNat_zero, List.take_zero, Nat.min_zero,
      List.drop_zero, List.nil_append]
  · have hpos : 0 < size.toNat :=
      Nat.pos_of_ne_zero fun h => hzero (UInt32.toNat_inj.mp h)
    have hlast := size.toNat_lt
    rw [if_neg hzero, if_neg hzero, hlen]
    refine set_terminator hsize (by omega) ?_
    omega

/-- The text `ab` in two of three bytes. -/
theorem vsnprintf_writes_ab : ∃ f k,
    vsnprintf (fun _ => nullText) (some [7, 8, 9]) 2 ⟨[0x61, 0x62], by decide⟩ (fun _ => 0) = some f ∧
      f.len.toUInt32 = UInt32.ofNat (text (fun _ => nullText) [0x61, 0x62] fun _ => 0).length - 1 ∧
      k = min f.len.toUInt32.toNat ((2 : UInt32).toNat - 1) ∧
      f.buf = if (2 : UInt32) = 0 then [7, 8, 9]
        else (text (fun _ => nullText) [0x61, 0x62] (fun _ => 0) ++
          ([7, 8, 9] : List Byte).drop (text (fun _ => nullText) [0x61, 0x62] fun _ => 0).length).take
            k ++ 0 :: ([7, 8, 9] : List Byte).drop (k + 1) :=
  vsnprintf_writes (by decide) (by rw [text_of_notMem (by decide)]; decide)

end Vsprintf

end Leenix
