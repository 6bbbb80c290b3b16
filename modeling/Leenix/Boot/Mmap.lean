import Leenix.Boot.RealMode
import Leenix.Lib.PhysMem

/-!
# The memory map of the boot loader (boot/mmap.s)

The BIOS hands out the map entry by entry. Its answers to the calls of function 0xE820, one
after the other, are given; an answer has the bytes that it stores: 20 or 24 of them, or none.
The loader's stack is above the map, and the code does not look how far the map grows.

- `Stored`: the map is in memory, packed, up to `%di`.
- `e820loop_stored`: what the loop adds to it.
- `getMmap_stores`: what is stored in the end, and when, if there is room for it.
-/

namespace Leenix

namespace Boot

/-- What a call of function 0xE820 returns and stores at `%es:%di`. -/
structure E820Answer where
  carry : Bool
  eax : UInt32
  ebx : UInt32
  entry : List Byte
deriving DecidableEq

/-- The memory, `%di` and `%bp`. -/
structure MmapState where
  mem : PhysMem
  di : Nat
  bp : Nat

/-- The bytes on the stack when the BIOS is called: a return address, and what `int` pushes. -/
def mmapDepth : Nat := 2 + 6

/-- Call `k`, with the word that makes a short entry valid (mmap.s:30–32, 52–54). -/
def int15 (real : RealMode mmapDepth) (k : Nat) (a : E820Answer) (s : MmapState) : MmapState :=
  { s with mem := blit (real.spoil k (store32 s.mem (u16 (s.di + 20)) 1)) s.di a.entry }

/-- The code from `.tramp` to `.skipentry` (mmap.s:60–75). `%ecx` is the size of the entry. -/
def tramp (a : E820Answer) (s : MmapState) : MmapState :=
  if u16 a.entry.length = 0 then s
  else if 20 < a.entry.length % 2 ^ 8 ∧ (s.mem (u16 (s.di + 20))).toNat % 2 = 0 then s
  else if load32 s.mem (u16 (s.di + 8)) ||| load32 s.mem (u16 (s.di + 12)) = 0 then s
  else { s with bp := u16 (s.bp + 1), di := u16 (s.di + 24) }

/-- The loop from `.e820loop` on, with the answers from call `k` on (mmap.s:50–79). -/
def e820loop (real : RealMode mmapDepth) (bios : Nat → E820Answer) :
    Nat → Nat → MmapState → Option MmapState
  | 0, _, _ => none
  | fuel + 1, k, s =>
    let s := int15 real k (bios k) s
    if (bios k).carry then some s
    else
      let s := tramp (bios k) s
      if (bios k).ebx = 0 then some s else e820loop real bios fuel (k + 1) s

/-- `get_bios_e820_mmap` (mmap.s:21–92): the carry flag and the memory after. -/
def getMmap (real : RealMode mmapDepth) (bios : Nat → E820Answer) (fuel : Nat) (mem : PhysMem) :
    Option (Bool × PhysMem) :=
  let s := int15 real 0 (bios 0) ⟨mem, 0x300C, 0⟩
  if (bios 0).carry ∨ (bios 0).eax ≠ 0x534D4150 ∨ (bios 0).ebx = 0 then some (true, s.mem)
  else (e820loop real bios fuel 1 (tramp (bios 0) s)).map fun s =>
    (false, blit s.mem 0x3008 [s.bp.toUInt8, (s.bp / 256).toUInt8])

/-! ## The map -/

/-- The record of an answer: 24 bytes, the last four of which make a short entry valid. -/
def E820Answer.record (a : E820Answer) : List Byte :=
  if a.entry.length = 24 then a.entry else a.entry ++ [1, 0, 0, 0]

/-- There is a record, it is valid, and of memory that is there. -/
def E820Answer.Keeps (a : E820Answer) : Prop :=
  a.entry ≠ [] ∧ (a.record.getD 20 0).toNat % 2 = 1 ∧ ∃ i < 8, a.record.getD (8 + i) 0 ≠ 0

instance (a : E820Answer) : Decidable a.Keeps := inferInstanceAs (Decidable (_ ∧ _))

/-- The records that are kept of some answers. -/
def records (answers : List E820Answer) : List (List Byte) :=
  (answers.filter fun a => decide a.Keeps).map E820Answer.record

theorem records_append (as bs : List E820Answer) : records (as ++ bs) = records as ++ records bs := by
  simp [records]

/-- The sizes that the BIOS has for an entry. -/
def E820Answer.Sized (a : E820Answer) : Prop :=
  a.entry.length = 0 ∨ a.entry.length = 20 ∨ a.entry.length = 24

instance (a : E820Answer) : Decidable a.Sized := inferInstanceAs (Decidable (_ ∨ _))

/-- Neither the stack nor the BIOS reaches the place for `n` records, or their number. -/
def Room (real : RealMode mmapDepth) (n : Nat) : Prop :=
  ∀ x, 0x3008 ≤ x → x < 0x300C + 24 * n → real.uses x = false

theorem Room.mono {real : RealMode mmapDepth} {m n : Nat} (h : Room real n) (hmn : m ≤ n) :
    Room real m :=
  fun x hlow hhigh => h x hlow (by omega)

/-- The map with room for it is all below the stack. -/
theorem Room.le {real : RealMode mmapDepth} {n : Nat} (h : Room real n) :
    0x300C + 24 * n ≤ 0x7BF7 :=
  @RealMode.le_of_free mmapDepth _ _ _ (by decide) (by decide) h

/-! ## A call -/

section Call

variable {real : RealMode mmapDepth} {a : E820Answer} {s : MmapState} {k n : Nat}
  (hsize : a.Sized) (hroom : Room real (n + 1)) (hdi : s.di = 0x300C + 24 * n)

include hsize in
/-- A call changes the slot at `%di`, and what is used anyway. -/
theorem int15_outside (hlow : s.di + 24 ≤ 2 ^ 16) {x : Nat} (hx : x < s.di ∨ s.di + 24 ≤ x)
    (hfree : real.uses x = false) : (int15 real k a s).mem x = s.mem x := by
  have hlength : a.entry.length ≤ 24 := by
    unfold E820Answer.Sized at hsize
    omega
  have hword : u16 (s.di + 20) = s.di + 20 := Nat.mod_eq_of_lt (by omega)
  show blit (real.spoil k (store32 s.mem (u16 (s.di + 20)) 1)) s.di a.entry x = _
  rw [blit_outside _ (by omega), RealMode.spoil_of_free hfree, hword, store32_outside (by omega)]

include hsize in
theorem length_record (hne : a.entry ≠ []) : a.record.length = 24 := by
  have hpos : a.entry.length ≠ 0 := mt List.length_eq_zero_iff.mp hne
  rw [E820Answer.record]
  split
  case isTrue hlong => exact hlong
  case isFalse hshort => simp [(hsize.resolve_left hpos).resolve_right hshort]

include hroom hdi

/-- The slot at `%di` is free, and below 64 KB. -/
theorem slot_free {i : Nat} (hi : i < 24) : real.uses (s.di + i) = false :=
  hroom _ (by omega) (by omega)

theorem slot_le : s.di + 24 ≤ 2 ^ 15 := by
  have hle := hroom.le
  omega

/-- The offsets in the slot do not wrap around. -/
theorem u16_slot {i : Nat} (hi : i ≤ 24) : u16 (s.di + i) = s.di + i := by
  have hle := slot_le hroom hdi
  exact Nat.mod_eq_of_lt (by omega)

include hsize

/-- A call that has an entry stores the record. -/
theorem int15_byte (hne : a.entry ≠ []) {i : Nat} (hi : i < 24) :
    (int15 real k a s).mem (s.di + i) = a.record.getD i 0 := by
  have hpos : a.entry.length ≠ 0 := mt List.length_eq_zero_iff.mp hne
  have hspoil : real.spoil k (store32 s.mem (u16 (s.di + 20)) 1) (s.di + i) =
      store32 s.mem (s.di + 20) 1 (s.di + i) := by
    rw [RealMode.spoil_of_free (slot_free hroom hdi hi), u16_slot hroom hdi (by decide)]
  have hsub : s.di + i - s.di = i := Nat.add_sub_cancel_left ..
  show blit (real.spoil k (store32 s.mem (u16 (s.di + 20)) 1)) s.di a.entry (s.di + i) = _
  rw [blit, if_pos (Nat.le_add_right _ _), hsub, hspoil, E820Answer.record]
  rcases hsize.resolve_left hpos with hshort | hlong
  · -- the last four bytes are the word that was stored before the call
    by_cases hlow : i < 20
    · simp [hshort, hlow, List.getElem?_append_left]
    · obtain ⟨j, rfl⟩ : ∃ j, i = 20 + j := ⟨i - 20, by omega⟩
      obtain rfl | rfl | rfl | rfl : j = 0 ∨ j = 1 ∨ j = 2 ∨ j = 3 := by omega
      all_goals simp [hshort, store32, Nat.add_assoc]
  · simp [hlong, hi]

/-- The test of the flag, which a short entry passes. -/
theorem flag_iff (hne : a.entry ≠ []) : (20 < a.entry.length % 2 ^ 8 ∧
      ((int15 real k a s).mem (u16 ((int15 real k a s).di + 20))).toNat % 2 = 0) ↔
    (a.record.getD 20 0).toNat % 2 = 0 := by
  have hpos : a.entry.length ≠ 0 := mt List.length_eq_zero_iff.mp hne
  have hbyte : (int15 real k a s).mem (u16 ((int15 real k a s).di + 20)) = a.record.getD 20 0 := by
    rw [show (int15 real k a s).di = s.di from rfl, u16_slot hroom hdi (by decide),
      int15_byte hsize hroom hdi hne (by decide)]
  rw [hbyte]
  rcases hsize.resolve_left hpos with hshort | hlong
  · simp [E820Answer.record, hshort]
  · simp [hlong]

/-- The test of the length. -/
theorem length_iff (hne : a.entry ≠ []) :
    load32 (int15 real k a s).mem (u16 ((int15 real k a s).di + 8)) |||
      load32 (int15 real k a s).mem (u16 ((int15 real k a s).di + 12)) = 0 ↔
        ∀ i < 8, a.record.getD (8 + i) 0 = 0 := by
  have hbyte : ∀ i < 8, (int15 real k a s).mem (s.di + 8 + i) = a.record.getD (8 + i) 0 :=
    fun i hi => (congrArg _ (Nat.add_assoc _ _ _)).trans
      (int15_byte hsize hroom hdi hne (by omega))
  rw [show (int15 real k a s).di = s.di from rfl, u16_slot hroom hdi (by decide),
    u16_slot hroom hdi (by decide), Nat.or_eq_zero_iff, load32_eq_zero, load32_eq_zero]
  constructor
  · intro ⟨hlow, hhigh⟩ i hi
    rw [← hbyte i hi]
    by_cases hi4 : i < 4
    · exact hlow i hi4
    · obtain ⟨j, rfl⟩ : ∃ j, i = 4 + j := ⟨i - 4, by omega⟩
      exact (congrArg _ (by omega)).trans (hhigh j (by omega))
  · refine fun hall => ⟨fun i hi => ?_, fun i hi => ?_⟩
    · rw [hbyte i (by omega), hall i (by omega)]
    · have hlast := hbyte (4 + i) (by omega)
      rw [hall (4 + i) (by omega)] at hlast
      exact (congrArg _ (by omega)).trans hlast

/-- What is done with the record. -/
theorem tramp_int15 : tramp a (int15 real k a s) =
    if a.Keeps then { int15 real k a s with bp := u16 (s.bp + 1), di := u16 (s.di + 24) }
    else int15 real k a s := by
  by_cases hne : a.entry = []
  · have hnot : ¬a.Keeps := fun hkeeps => hkeeps.1 hne
    rw [if_neg hnot, tramp, hne]
    rfl
  have hpos : a.entry.length ≠ 0 := mt List.length_eq_zero_iff.mp hne
  have hlength : u16 a.entry.length ≠ 0 := by
    unfold E820Answer.Sized at hsize
    unfold u16
    omega
  rw [tramp, if_neg hlength]
  by_cases hflag : (a.record.getD 20 0).toNat % 2 = 0
  · rw [if_pos ((flag_iff hsize hroom hdi hne).mpr hflag), if_neg fun hkeeps => by
      have hodd := hkeeps.2.1
      omega]
  · rw [if_neg fun hf => hflag ((flag_iff hsize hroom hdi hne).mp hf)]
    by_cases hempty : ∀ i < 8, a.record.getD (8 + i) 0 = 0
    · rw [if_pos ((length_iff hsize hroom hdi hne).mpr hempty), if_neg fun hkeeps => by
        obtain ⟨i, hi, hne⟩ := hkeeps.2.2
        exact hne (hempty i hi)]
    · have hkeeps : a.Keeps := by
        refine ⟨hne, by omega, ?_⟩
        push Not at hempty
        exact hempty
      rw [if_neg fun hz => hempty ((length_iff hsize hroom hdi hne).mp hz), if_pos hkeeps]
      rfl

end Call

/-! ## The loop -/

/-- The records `rs` are in memory, one behind the other, and `%di` and `%bp` are behind
them. Below them the memory is `mem`. -/
structure Stored (real : RealMode mmapDepth) (mem : PhysMem) (rs : List (List Byte))
    (s : MmapState) : Prop where
  di : s.di = 0x300C + 24 * rs.length
  bp : s.bp = rs.length
  size : ∀ r ∈ rs, r.length = 24
  bytes : ∀ i < 24 * rs.length, s.mem (0x300C + i) = rs.flatten.getD i 0
  below : ∀ x < 0x300C, real.uses x = false → s.mem x = mem x

/-- The last call is call `n`. -/
structure Ends (bios : Nat → E820Answer) (n : Nat) : Prop where
  more : ∀ k, 1 ≤ k → k < n → (bios k).carry = false ∧ (bios k).ebx ≠ 0
  last : (bios n).carry = true ∨ (bios n).ebx = 0

/-- The answers from call `k` on, `d` calls before the last one. One with the carry flag has no
entry. -/
def answered (bios : Nat → E820Answer) (k d : Nat) : List E820Answer :=
  (List.range' k d).map bios ++ if (bios (k + d)).carry then [] else [bios (k + d)]

section Loop

variable {real : RealMode mmapDepth} {mem : PhysMem} {rs : List (List Byte)} {s : MmapState}
  {bios : Nat → E820Answer} {n : Nat}

theorem length_flatten {rs : List (List Byte)} (h : ∀ r ∈ rs, r.length = 24) :
    rs.flatten.length = 24 * rs.length := by
  induction rs with
  | nil => rfl
  | cons r rs ih =>
    rw [List.flatten_cons, List.length_append, ih fun r hr => h r (List.mem_cons_of_mem _ hr),
      h r List.mem_cons_self, List.length_cons]
    omega

variable (hsize : ∀ k, (bios k).Sized)
include hsize

/-- A call leaves the records as they are. -/
theorem Stored.int15 (hs : Stored real mem rs s) (hroom : Room real (rs.length + 1)) (k : Nat) :
    Stored real mem rs (int15 real k (bios k) s) := by
  have hlow : s.di + 24 ≤ 2 ^ 16 := Nat.le_trans (slot_le hroom hs.di) (by decide)
  refine ⟨hs.di, hs.bp, hs.size, fun i hi => ?_, fun x hx hfree => ?_⟩
  · have hfree : real.uses (0x300C + i) = false := hroom _ (by omega) (by omega)
    rw [int15_outside (hsize k) hlow (.inl (by rw [hs.di]; omega)) hfree, hs.bytes i hi]
  · rw [int15_outside (hsize k) hlow (.inl (by rw [hs.di]; omega)) hfree,
      hs.below x hx hfree]

/-- A record that is kept is stored behind the others. -/
theorem Stored.tramp (hs : Stored real mem rs s) (hroom : Room real (rs.length + 1)) (k : Nat) :
    Stored real mem (rs ++ records [bios k]) (tramp (bios k) (Boot.int15 real k (bios k) s)) := by
  have hcall := hs.int15 hsize hroom k
  rw [tramp_int15 (hsize k) hroom hs.di]
  by_cases hkeeps : (bios k).Keeps
  · have hrecords : records [bios k] = [(bios k).record] := by simp [records, hkeeps]
    have hlength := length_record (hsize k) hkeeps.1
    have hflatten := length_flatten hs.size
    have hle := slot_le hroom hs.di
    have hdi := hs.di
    rw [if_pos hkeeps, hrecords]
    refine ⟨?_, ?_, ?_, fun i hi => ?_, hcall.below⟩
    · show u16 (s.di + 24) = _
      rw [u16_slot hroom hs.di (Nat.le_refl _), hs.di, List.length_append, List.length_singleton]
      omega
    · show u16 (s.bp + 1) = _
      rw [hs.bp, List.length_append, List.length_singleton]
      exact Nat.mod_eq_of_lt (by omega)
    · intro r hr
      rcases List.mem_append.mp hr with hold | hnew
      · exact hs.size r hold
      · rw [List.mem_singleton.mp hnew, hlength]
    · rw [List.length_append, List.length_singleton] at hi
      rw [List.flatten_append, List.flatten_singleton, List.getD_eq_getElem?_getD]
      by_cases hold : i < 24 * rs.length
      · rw [List.getElem?_append_left (by omega), ← List.getD_eq_getElem?_getD]
        exact hcall.bytes i hold
      · obtain ⟨j, rfl⟩ : ∃ j, i = 24 * rs.length + j := ⟨i - 24 * rs.length, by omega⟩
        have hbyte : (Boot.int15 real k (bios k) s).mem (s.di + j) = (bios k).record.getD j 0 :=
          int15_byte (hsize k) hroom hs.di hkeeps.1 (by omega)
        have haddr : 0x300C + (24 * rs.length + j) = s.di + j := by omega
        rw [List.getElem?_append_right (by omega), hflatten, Nat.add_sub_cancel_left,
          ← List.getD_eq_getElem?_getD, haddr]
        exact hbyte
  · have hrecords : records [bios k] = [] := by simp [records, hkeeps]
    rw [if_neg hkeeps, hrecords, List.append_nil]
    exact hcall

/-- The rest of the calls. -/
theorem e820loop_stored {k d fuel : Nat} (hroom : Room real (n + 1)) (hends : Ends bios (k + d))
    (hk : 1 ≤ k) (hfuel : d < fuel)
    (hn : (rs ++ records (answered bios k d)).length ≤ n) (hs : Stored real mem rs s) :
    ∃ s', e820loop real bios fuel k s = some s' ∧
      Stored real mem (rs ++ records (answered bios k d)) s' := by
  induction d generalizing k rs s fuel with
  | zero =>
    obtain ⟨fuel, rfl⟩ : ∃ f, fuel = f + 1 := ⟨fuel - 1, by omega⟩
    rw [List.length_append] at hn
    have hroom' : Room real (rs.length + 1) := hroom.mono (by omega)
    rw [e820loop, answered]
    by_cases hcarry : (bios k).carry = true
    · refine ⟨_, if_pos hcarry, ?_⟩
      simpa [hcarry, records] using hs.int15 hsize hroom' k
    · have hebx : (bios k).ebx = 0 := hends.last.resolve_left hcarry
      refine ⟨_, (if_neg hcarry).trans (if_pos hebx), ?_⟩
      simpa [hcarry] using hs.tramp hsize hroom' k
  | succ d ih =>
    obtain ⟨fuel, rfl⟩ : ∃ f, fuel = f + 1 := ⟨fuel - 1, by omega⟩
    obtain ⟨hcarry, hebx⟩ := hends.more k hk (by omega)
    have hnext : k + 1 + d = k + (d + 1) := by omega
    have hanswered : answered bios k (d + 1) = bios k :: answered bios (k + 1) d := by
      rw [answered, answered, hnext, List.range'_succ]
      rfl
    have hsplit : rs ++ records (answered bios k (d + 1)) =
        rs ++ records [bios k] ++ records (answered bios (k + 1) d) := by
      rw [hanswered, ← List.singleton_append, records_append, List.append_assoc]
    rw [hsplit] at hn ⊢
    have hroom' : Room real (rs.length + 1) := by
      simp only [List.length_append] at hn
      exact hroom.mono (by omega)
    obtain ⟨s', hloop, hs'⟩ := ih (k := k + 1) (hnext ▸ hends) (by omega)
      (Nat.lt_of_succ_lt_succ hfuel) hn (hs.tramp hsize hroom' k)
    refine ⟨s', ?_, hs'⟩
    rw [e820loop, hcarry, if_neg Bool.false_ne_true, if_neg hebx, hloop]

/-- **The map that is stored.** With room for the records that are kept, and for one more, it is,
in the order of the answers, the records with a valid flag and a length, packed from 0x300C on,
with their number in front, if the first answer is neither an error nor the only one. Otherwise
the number is not stored. -/
theorem getMmap_stores {d fuel : Nat} (hends : Ends bios (1 + d)) (hfuel : d < fuel)
    (hroom : Room real ((records (bios 0 :: answered bios 1 d)).length + 1)) (mem : PhysMem) :
    ∃ failed mem', getMmap real bios fuel mem = some (failed, mem') ∧
      (failed = true ↔
        (bios 0).carry = true ∨ (bios 0).eax ≠ 0x534D4150 ∨ (bios 0).ebx = 0) ∧
      (∀ x < 0x3008, real.uses x = false → mem' x = mem x) ∧
      if failed then ∀ x, 0x3008 ≤ x → x < 0x300C → mem' x = mem x
      else
        (mem' 0x3008).toNat + 256 * (mem' 0x3009).toNat =
          (records (bios 0 :: answered bios 1 d)).length ∧
        (List.range' 0x300C (24 * (records (bios 0 :: answered bios 1 d)).length)).map mem' =
          (records (bios 0 :: answered bios 1 d)).flatten := by
  have hstart : Stored real mem [] ⟨mem, 0x300C, 0⟩ :=
    ⟨rfl, rfl, by simp, fun i hi => absurd hi (Nat.not_lt_zero i), fun _ _ _ => rfl⟩
  have hfirst : Room real (([] : List (List Byte)).length + 1) :=
    hroom.mono (Nat.succ_le_succ (Nat.zero_le _))
  by_cases hfail : (bios 0).carry = true ∨ (bios 0).eax ≠ 0x534D4150 ∨ (bios 0).ebx = 0
  · have hbelow := (hstart.int15 hsize hfirst 0).below
    exact ⟨true, _, if_pos hfail, iff_of_true rfl hfail, fun x hx => hbelow x (by omega),
      fun x hx hx' => hbelow x hx' (hroom x hx (by omega))⟩
  · have hrecords : records (bios 0 :: answered bios 1 d) =
        [] ++ records [bios 0] ++ records (answered bios 1 d) := by
      rw [List.nil_append, ← records_append, List.singleton_append]
    obtain ⟨s', hloop, hs'⟩ := e820loop_stored hsize hroom hends (Nat.le_refl 1) hfuel
      (by rw [hrecords]) (hstart.tramp hsize hfirst 0)
    rw [← hrecords] at hs'
    generalize records (bios 0 :: answered bios 1 d) = rs at hs' hroom ⊢
    have hcount := hroom.le
    refine ⟨false, blit s'.mem 0x3008 [s'.bp.toUInt8, (s'.bp / 256).toUInt8], ?_,
      iff_of_false Bool.false_ne_true hfail, fun x hx hfree => ?_, ?_, ?_⟩
    · show (if _ then _ else (e820loop real bios fuel 1 _).map _) = _
      rw [if_neg hfail, hloop]
      rfl
    · rw [blit_outside _ (.inl hx), hs'.below x (by omega) hfree]
    · have hlow : blit s'.mem 0x3008 [s'.bp.toUInt8, (s'.bp / 256).toUInt8] 0x3008 =
          s'.bp.toUInt8 := rfl
      have hhigh : blit s'.mem 0x3008 [s'.bp.toUInt8, (s'.bp / 256).toUInt8] 0x3009 =
          (s'.bp / 256).toUInt8 := rfl
      rw [hlow, hhigh, hs'.bp]
      simp
      omega
    · have hflatten := length_flatten hs'.size
      refine List.ext_getElem (by simp [hflatten]) fun i hi hi' => ?_
      rw [List.getElem_map, List.getElem_range', Nat.one_mul,
        blit_outside _ (.inr (by simp only [List.length_cons, List.length_nil]; omega)),
        hs'.bytes i (by omega), List.getD_eq_getElem?_getD, List.getElem?_eq_getElem hi',
        Option.getD_some]

end Loop

/-- A BIOS with one entry that is kept and an empty one; it says that neither is the last. -/
def oneEntry : Nat → E820Answer
  | 0 => ⟨false, 0x534D4150, 1, List.replicate 8 0 ++ [0, 0xFC, 9, 0, 0, 0, 0, 0, 1, 0, 0, 0]⟩
  | 1 => ⟨false, 0x534D4150, 2, []⟩
  | _ => ⟨true, 0, 0, []⟩

/-- The stored map has one entry, of 0x9FC00 bytes. -/
theorem getMmap_stores_one : ∃ mem',
    getMmap (.sample mmapDepth fun _ _ => 7) oneEntry 2 (fun _ => 0) = some (false, mem') ∧
      (mem' 0x3008).toNat + 256 * (mem' 0x3009).toNat = 1 ∧
      (List.range' 0x300C 24).map mem' =
        List.replicate 8 0 ++ [0, 0xFC, 9, 0, 0, 0, 0, 0, 1, 0, 0, 0, 1, 0, 0, 0] := by
  have hsize : ∀ k, (oneEntry k).Sized := by
    rintro (_ | _ | k)
    · exact .inr (.inl rfl)
    · exact .inl rfl
    · exact .inl rfl
  have hends : Ends oneEntry (1 + 1) := by
    refine ⟨fun k hlow hhigh => ?_, .inl rfl⟩
    obtain rfl : k = 1 := by omega
    decide
  have hcount : (records (oneEntry 0 :: answered oneEntry 1 1)).length = 1 := by decide
  have hroom : Room (.sample mmapDepth fun _ _ => 7)
      ((records (oneEntry 0 :: answered oneEntry 1 1)).length + 1) := by
    intro x hlow hhigh
    rw [hcount] at hhigh
    exact RealMode.sample_free (by omega) (.inl (by unfold stackTopReal mmapDepth; omega))
  obtain ⟨failed, mem', hresult, hfailed, -, hstored⟩ :=
    getMmap_stores hsize hends (by decide : 1 < 2) hroom fun _ => 0
  have hok : failed = false := Bool.eq_false_iff.mpr fun h => absurd (hfailed.mp h) (by decide)
  subst hok
  exact ⟨mem', hresult, hstored⟩

end Boot

end Leenix
