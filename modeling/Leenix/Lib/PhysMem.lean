import Mathlib.Algebra.Group.Nat.Defs
import Mathlib.Data.List.Basic
import Mathlib.Logic.Function.Basic

/-!
# Physical memory

A memory of bytes, its words of 32 bits, low byte first, and tables of such words.

- `blit`: a memory with a run of bytes stored.
- `Fills`: a table of words that a loop has written; `Fills.step` is one turn of it.
-/

namespace Leenix

/-- A memory with the bytes `bs` from address `a` on. -/
def blit (mem : Nat → UInt8) (a : Nat) (bs : List UInt8) (x : Nat) : UInt8 :=
  (if a ≤ x then bs[x - a]? else none).getD (mem x)

theorem blit_update (mem : Nat → UInt8) (a : Nat) (b : UInt8) (bs : List UInt8) :
    blit (Function.update mem a b) (a + 1) bs = blit mem a (b :: bs) := by
  funext x
  rcases Nat.lt_trichotomy x a with hlt | rfl | hgt
  · have hne : x ≠ a := Nat.ne_of_lt hlt
    simp [blit, hne, Nat.not_le.mpr hlt, Nat.not_le.mpr (Nat.lt_succ_of_lt hlt)]
  · have hnot : ¬x + 1 ≤ x := Nat.not_succ_le_self x
    simp [blit, hnot]
  · obtain ⟨k, rfl⟩ : ∃ k, x = a + 1 + k := ⟨x - (a + 1), by omega⟩
    have hne : a + 1 + k ≠ a := by omega
    have hle : a ≤ a + 1 + k := by omega
    have hk : a + 1 + k - a = k + 1 := by omega
    simp [blit, hne, hle, hk]

theorem blit_nil (mem : Nat → UInt8) (a : Nat) : blit mem a [] = mem := by
  funext x
  simp [blit]

/-- What is read back. -/
theorem map_blit (mem : Nat → UInt8) (a : Nat) (bs : List UInt8) :
    (List.range' a bs.length).map (blit mem a bs) = bs := by
  refine List.ext_getElem (by simp) fun i hi hi' => ?_
  simp [blit, List.getElem?_eq_getElem hi']

theorem blit_outside (mem : Nat → UInt8) {a x : Nat} {bs : List UInt8}
    (h : x < a ∨ a + bs.length ≤ x) : blit mem a bs x = mem x := by
  rw [blit]
  split
  · rw [List.getElem?_eq_none (by omega), Option.getD_none]
  · rfl

variable {mem mem' mem'' : Nat → UInt8} {a b n v : Nat} {f : Nat → Nat}

/-- The word at an address. -/
def load32 (mem : Nat → UInt8) (a : Nat) : Nat :=
  (mem a).toNat + 256 * (mem (a + 1)).toNat + 65536 * (mem (a + 2)).toNat +
    16777216 * (mem (a + 3)).toNat

/-- The memory after a store of a word. -/
def store32 (mem : Nat → UInt8) (a v : Nat) (x : Nat) : UInt8 :=
  if x = a then v.toUInt8
  else if x = a + 1 then (v / 256).toUInt8
  else if x = a + 2 then (v / 65536).toUInt8
  else if x = a + 3 then (v / 16777216).toUInt8
  else mem x

theorem load32_eq_zero : load32 mem a = 0 ↔ ∀ i < 4, mem (a + i) = 0 := by
  constructor
  · intro h i hi
    rw [load32] at h
    have hbytes : (mem a).toNat = 0 ∧ (mem (a + 1)).toNat = 0 ∧ (mem (a + 2)).toNat = 0 ∧
        (mem (a + 3)).toNat = 0 := by omega
    rw [← UInt8.toNat_inj]
    obtain rfl | rfl | rfl | rfl : i = 0 ∨ i = 1 ∨ i = 2 ∨ i = 3 := by omega
    · exact hbytes.1
    · exact hbytes.2.1
    · exact hbytes.2.2.1
    · exact hbytes.2.2.2
  · intro h
    have h0 : mem a = 0 := h 0 (by decide)
    simp [load32, h0, h 1 (by decide), h 2 (by decide), h 3 (by decide)]

theorem load32_congr (h : ∀ i < 4, mem' (a + i) = mem (a + i)) : load32 mem' a = load32 mem a := by
  have h0 : mem' a = mem a := h 0 (by decide)
  simp only [load32, h0, h 1 (by decide), h 2 (by decide), h 3 (by decide)]

theorem load32_store32 (hv : v < 2 ^ 32) : load32 (store32 mem a v) a = v := by
  simp [load32, store32]
  omega

theorem store32_outside {x : Nat} (h : x < a ∨ a + 4 ≤ x) : store32 mem a v x = mem x := by
  have hne : x ≠ a ∧ x ≠ a + 1 ∧ x ≠ a + 2 ∧ x ≠ a + 3 := by omega
  simp [store32, hne]

theorem load32_store32_of_ne (h : b + 4 ≤ a ∨ a + 4 ≤ b) :
    load32 (store32 mem a v) b = load32 mem b :=
  load32_congr fun i hi => store32_outside (by omega)

/-- The memory `mem'` has the words `f 0`, `f 1`, … from address `a` on, `n` of them, and is
`mem` elsewhere. -/
structure Fills (mem mem' : Nat → UInt8) (a n : Nat) (f : Nat → Nat) : Prop where
  word : ∀ i < n, load32 mem' (a + 4 * i) = f i
  outside : ∀ x, x < a ∨ a + 4 * n ≤ x → mem' x = mem x

namespace Fills

theorem zero : Fills mem mem a 0 f := ⟨fun i hi => absurd hi (Nat.not_lt_zero i), fun _ _ => rfl⟩

/-- One word, and the rest from the next address on. -/
theorem step (hv : v < 2 ^ 32) (h : Fills (store32 mem a v) mem' (a + 4) n fun i => f (i + 1))
    (hf : f 0 = v) : Fills mem mem' a (n + 1) f := by
  refine ⟨fun i hi => ?_, fun x hx => ?_⟩
  · cases i with
    | zero =>
      have hkept : ∀ i < 4, mem' (a + i) = store32 mem a v (a + i) := fun i hi =>
        h.outside _ (.inl (by omega))
      rw [Nat.mul_zero, Nat.add_zero, load32_congr hkept, load32_store32 hv, hf]
    | succ i =>
      have hword := h.word i (Nat.lt_of_succ_lt_succ hi)
      rwa [Nat.add_assoc, show 4 + 4 * i = 4 * (i + 1) by omega] at hword
  · rw [h.outside x (by omega), store32_outside (by omega)]

/-- A word outside the table. -/
theorem load32_outside (h : Fills mem mem' a n f) (hb : b + 4 ≤ a ∨ a + 4 * n ≤ b) :
    load32 mem' b = load32 mem b :=
  load32_congr fun i hi => h.outside _ (by omega)

end Fills

end Leenix
