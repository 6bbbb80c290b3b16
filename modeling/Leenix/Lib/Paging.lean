import Leenix.Lib.PhysMem

/-!
# Two-level paging

The translation of addresses that an x86 processor makes with pages of 4 KB.

- `walk_eq`: a translation through a present entry of the directory.
-/

namespace Leenix

variable {mem : Nat → UInt8}

/-- The physical address for a linear one, or none if an entry on the way is not present. -/
def walk (mem : Nat → UInt8) (cr3 va : Nat) : Option Nat :=
  let pde := load32 mem (cr3 / 4096 * 4096 + 4 * (va / 2 ^ 22))
  if pde % 2 = 0 then none
  else
    let pte := load32 mem (pde / 4096 * 4096 + 4 * (va / 4096 % 1024))
    if pte % 2 = 0 then none else some (pte / 4096 * 4096 + va % 4096)

theorem walk_eq_none {cr3 va : Nat}
    (h : load32 mem (cr3 / 4096 * 4096 + 4 * (va / 2 ^ 22)) = 0) : walk mem cr3 va = none := by
  simp only [walk, h, Nat.zero_mod, if_true]

/-- A translation through a directory entry for the table at `t` pages, by what the entry of
the table is. -/
theorem walk_eq {cr3 va t : Nat}
    (hpde : load32 mem (cr3 / 4096 * 4096 + 4 * (va / 2 ^ 22)) = 4096 * t + 3) :
    walk mem cr3 va =
      if load32 mem (4096 * t + 4 * (va / 4096 % 1024)) % 2 = 0 then none
      else some (load32 mem (4096 * t + 4 * (va / 4096 % 1024)) / 4096 * 4096 + va % 4096) := by
  have hpresent : (4096 * t + 3) % 2 ≠ 0 := by omega
  have htable : (4096 * t + 3) / 4096 * 4096 = 4096 * t := by omega
  simp only [walk, hpde, hpresent, if_false, htable]

end Leenix
