import Leenix.Init.Dump
import Leenix.Lib.Paging

/-!
# What `ptwalk` shows (init/shell.c)

The lines of `ptwalk` beside the translation that the processor makes with the same page
directory. The tables are read through the mapping of physical memory from 3 GB on.

- `ptwalkLine_translation`: a line shows the translation of its address.
- `ptwalk_translations`: so do the lines of a walk, over its whole range.
-/

namespace Leenix

/-- The page directory at `cr3` and the page tables, as they are in physical memory. -/
def tablesIn (mem : Nat → Byte) (cr3 : Nat) : PageTables where
  pdbr i := UInt32.ofNat (load32 mem (cr3 / 4096 * 4096 + 4 * i.toNat))
  ptable t i := UInt32.ofNat (load32 mem (t.toNat + 4 * i.toNat))

/-- The physical address that a line shows for its address, if it shows a present page. -/
def PtwalkLine.translation : PtwalkLine → Option Nat
  | .pdeNotPresent _ => none
  | .entry addr frame present _ _ =>
    if present then some (frame.toNat + addr.toNat % 4096) else none

theorem load32_lt (mem : Nat → Byte) (a : Nat) : load32 mem a < 2 ^ 32 := by
  have h0 := (mem a).toNat_lt
  have h1 := (mem (a + 1)).toNat_lt
  have h2 := (mem (a + 2)).toNat_lt
  have h3 := (mem (a + 3)).toNat_lt
  rw [load32]
  omega

section Bits

variable (x : UInt32)

/-- The frame of an entry. -/
theorem and_frame_toNat : (x &&& 0xFFFFF000).toNat = x.toNat / 4096 * 4096 := by
  have hmask : (0xFFFFF000 : UInt32).toNat = (2 ^ 20 - 1) <<< 12 := rfl
  have hframe : x.toNat / 4096 * 4096 = (x.toNat >>> 12) <<< 12 := by
    rw [Nat.shiftRight_eq_div_pow, Nat.shiftLeft_eq]
  rw [UInt32.toNat_and, hmask, hframe]
  refine Nat.eq_of_testBit_eq fun i => ?_
  simp only [Nat.testBit_and, Nat.testBit_shiftLeft, Nat.testBit_shiftRight,
    Nat.testBit_two_pow_sub_one]
  by_cases hlow : 12 ≤ i
  · have hadd : 12 + (i - 12) = i := by omega
    by_cases hhigh : i < 32
    · have hin : i - 12 < 20 := by omega
      simp [hlow, hin, hadd]
    · have hbit : x.toNat.testBit i = false := Nat.testBit_lt_two_pow
        (Nat.lt_of_lt_of_le x.toNat_lt (Nat.pow_le_pow_right (by decide) (Nat.not_lt.mp hhigh)))
      simp [hadd, hbit]
  · simp [hlow]

/-- The lowest flag of an entry. -/
theorem and_present : x &&& 1 = 0 ↔ x.toNat % 2 = 0 := by
  rw [← UInt32.toNat_inj, UInt32.toNat_and]
  exact Iff.of_eq (congrArg (· = 0) (Nat.and_two_pow_sub_one_eq_mod _ 1))

/-- Ten bits of an address. -/
theorem index_toNat {k : UInt32} (hk : k.toNat < 32) :
    ((x >>> k) &&& 0x3FF).toNat = x.toNat / 2 ^ k.toNat % 1024 := by
  rw [UInt32.toNat_and, UInt32.toNat_shiftRight, Nat.mod_eq_of_lt hk, Nat.shiftRight_eq_div_pow]
  exact Nat.and_two_pow_sub_one_eq_mod _ 10

end Bits

variable {mem : Nat → Byte} {cr3 : Nat}

/-- **A line shows what the processor does** with its address. -/
theorem ptwalkLine_translation (addr : UInt32) :
    (ptwalkLine (tablesIn mem cr3) addr).translation = walk mem cr3 addr.toNat := by
  have hlt : addr.toNat < 2 ^ 32 := addr.toNat_lt
  have hindex : addr.toNat / 2 ^ 22 < 1024 := by omega
  have hdir : ((addr >>> 22) &&& 0x3FF).toNat = addr.toNat / 2 ^ 22 :=
    (index_toNat addr (by decide)).trans (Nat.mod_eq_of_lt hindex)
  have htable : ((addr >>> 12) &&& 0x3FF).toNat = addr.toNat / 4096 % 1024 :=
    index_toNat addr (by decide)
  have hword : ∀ a, (UInt32.ofNat (load32 mem a)).toNat = load32 mem a := fun a =>
    UInt32.toNat_ofNat_of_lt' (load32_lt mem a)
  simp only [ptwalkLine, tablesIn, walk, hdir, htable, and_present, and_frame_toNat, hword]
  split
  case isTrue => rfl
  case isFalse =>
    simp only [PtwalkLine.translation, and_frame_toNat, hword, ne_eq, decide_eq_true_eq, ite_not,
      and_present]

theorem ptwalkLine_addr (pages : PageTables) (addr : UInt32) :
    (ptwalkLine pages addr).addr = addr := by
  unfold ptwalkLine
  dsimp only
  split <;> rfl

/-- All lines of a run are the body at some value of the counter. -/
theorem forLoop_mem {α β : Type*} {cond : α → Bool} {next : α → α} {body : α → β} {fuel : Nat}
    {x : α} {lines : List β} (h : forLoop cond next body fuel x = some lines) :
    ∀ line ∈ lines, ∃ y, line = body y := by
  induction fuel generalizing x lines with
  | zero => cases h
  | succ fuel ih =>
    rw [forLoop] at h
    split at h
    case isTrue =>
      obtain ⟨rest, hrest, rfl⟩ := Option.map_eq_some_iff.mp h
      intro line hline
      rcases List.mem_cons.mp hline with rfl | hline
      · exact ⟨x, rfl⟩
      · exact ih hrest line hline
    case isFalse =>
      obtain rfl := Option.some.inj h
      exact fun line hline => absurd hline List.not_mem_nil

/-- **A walk shows what the processor does** with the addresses of its range, in order: it ends if
an address that the counter takes lies above `vend`, and has then shown the translation of each
address up to `vend`. -/
theorem ptwalk_translations {vstart vend : UInt32}
    (hend : vend.toNat < 2 ^ 32 - 0x1000 + vstart.toNat % 0x1000) :
    ∃ fuel lines n, ptwalk (tablesIn mem cr3) vstart vend fuel = some lines ∧
      lines.map PtwalkLine.translation =
        (List.range n).map (fun k => walk mem cr3 (vstart.toNat + 0x1000 * k)) ∧
      ∀ k, k < n ↔ vstart.toNat + 0x1000 * k ≤ vend.toNat := by
  obtain ⟨fuel, lines, n, hrun, haddrs, hn⟩ := ptwalkCovers_of_lt hend (tablesIn mem cr3)
  have hshown : lines.map PtwalkLine.translation =
      (lines.map fun line => line.addr.toNat).map (walk mem cr3) := by
    rw [List.map_map]
    refine List.map_congr_left fun line hline => ?_
    obtain ⟨addr, rfl⟩ := forLoop_mem hrun line hline
    rw [Function.comp_apply, ptwalkLine_translation, ptwalkLine_addr]
  refine ⟨fuel, lines, n, hrun, ?_, hn⟩
  rw [hshown, haddrs, List.map_map]
  rfl

/-- A directory at 0x1000 with one table, at 0x2000, which maps its first page and its third. -/
def sampleTables : Nat → Byte :=
  store32 (store32 (store32 (fun _ => 0) 0x1000 0x2003) 0x2000 0x5003) 0x2008 0x7001

/-- A walk over three pages, of which the second is not mapped. -/
theorem ptwalk_translations_three : ∃ fuel lines,
    ptwalk (tablesIn sampleTables 0x1000) 0x24 0x2FFF fuel = some lines ∧
      lines.map PtwalkLine.translation = [some 0x5024, none, some 0x7024] := by
  have hend : (0x2FFF : UInt32).toNat < 2 ^ 32 - 0x1000 + (0x24 : UInt32).toNat % 0x1000 := by decide
  obtain ⟨fuel, lines, n, hrun, hshown, hn⟩ := @ptwalk_translations sampleTables 0x1000 _ _ hend
  have hthree : n = 3 := by
    have hlast : 2 < n := (hn 2).mpr (by decide)
    have hnext : ¬3 < n := mt (hn 3).mp (by decide)
    omega
  subst hthree
  exact ⟨fuel, lines, hrun, hshown.trans (by decide)⟩

end Leenix
