import Leenix.Lib.PhysMem

/-!
# Segmentation

Segment descriptors and the task state segment, as an x86 processor in protected mode goes by
them. The current privilege level is 0 for the most privileged code and 3 for the least. There
is no local descriptor table, and no gate among the descriptors.

- `DescTable.find`: the descriptor of a selector.
- `loadsData`, `loadsStack`, `jumps`, `returns`: the checks when a segment register is loaded.
- `TaskSegment.allows`: the check of an access to a port.
-/

namespace Leenix

/-- A descriptor, taken apart. -/
structure SegDescriptor where
  base : Nat
  limit : Nat
  access : UInt8
  flags : Nat
deriving DecidableEq

namespace SegDescriptor

/-- The eight bytes of a descriptor. -/
def ofBytes (byte : Nat → UInt8) : SegDescriptor where
  base := (byte 2).toNat + 2 ^ 8 * (byte 3).toNat + 2 ^ 16 * (byte 4).toNat + 2 ^ 24 * (byte 7).toNat
  limit := (byte 0).toNat + 2 ^ 8 * (byte 1).toNat + 2 ^ 16 * ((byte 6).toNat % 2 ^ 4)
  access := byte 5
  flags := (byte 6).toNat / 2 ^ 4

variable (d : SegDescriptor)

def present : Bool := d.access.toNat.testBit 7

/-- The privilege level of the segment. -/
def dpl : Nat := d.access.toNat / 2 ^ 5 % 4

def isData : Bool := d.access.toNat / 2 ^ 3 % 4 = 2

def isCode : Bool := d.access.toNat / 2 ^ 3 % 4 = 3

/-- Bit 2 says that a data segment expands down, or that a code segment is conforming. -/
def conforming : Bool := d.access.toNat.testBit 2

/-- Bit 1 says that a data segment can be written, or that a code segment can be read. -/
def writable : Bool := d.access.toNat.testBit 1

/-- The last offset of a segment that does not expand down. -/
def last : Nat := if d.flags.testBit 3 then d.limit * 2 ^ 12 + (2 ^ 12 - 1) else d.limit

/-- The linear address of an offset. -/
def linear (offset : Nat) : Option Nat :=
  if offset ≤ d.last then some ((d.base + offset) % 2 ^ 32) else none

/-- The segment is all of memory, one to one. -/
def Flat : Prop := ∀ offset, offset < 2 ^ 32 → d.linear offset = some offset

theorem flat_of_eq (hbase : d.base = 0) (hlimit : d.limit = 2 ^ 20 - 1)
    (hflags : d.flags.testBit 3 = true) : d.Flat := by
  intro offset hoffset
  have hlast : d.last = 2 ^ 32 - 1 := by simp [last, hflags, hlimit]
  rw [linear, if_pos (by omega), hbase, Nat.zero_add, Nat.mod_eq_of_lt hoffset]

end SegDescriptor

/-- A register for a table of descriptors. -/
structure DescTable where
  base : Nat
  limit : Nat

namespace DescTable

variable (t : DescTable) (mem : Nat → UInt8)

/-- The descriptor that a selector is for. -/
def find (selector : Nat) : Option SegDescriptor :=
  if selector / 8 = 0 ∨ selector / 4 % 2 = 1 ∨ t.limit < selector / 8 * 8 + 7 then none
  else some (.ofBytes fun i => mem (t.base + selector / 8 * 8 + i))

/-- At level `cpl` the selector can be loaded into a register for data segments, and does not
make it a null one. -/
def loadsData (cpl selector : Nat) : Bool :=
  (t.find mem selector).any fun d =>
    d.present && (d.isData || d.isCode && d.writable) &&
      (d.isCode && d.conforming || max cpl (selector % 4) ≤ d.dpl)

/-- It can be loaded into the register for the stack segment. -/
def loadsStack (cpl selector : Nat) : Bool :=
  (t.find mem selector).any fun d =>
    d.present && d.isData && d.writable && selector % 4 = cpl && d.dpl = cpl

/-- It can be the target of a far jump or call, which stays at level `cpl`. -/
def jumps (cpl selector : Nat) : Bool :=
  (t.find mem selector).any fun d =>
    d.present && d.isCode &&
      (d.conforming && d.dpl ≤ cpl || !d.conforming && selector % 4 ≤ cpl && d.dpl = cpl)

/-- It can be the target of a return from an interrupt at level `cpl`, which goes on at the level
that the selector asks for. -/
def returns (cpl selector : Nat) : Bool :=
  (t.find mem selector).any fun d =>
    d.present && d.isCode && cpl ≤ selector % 4 &&
      (d.conforming && d.dpl ≤ selector % 4 || !d.conforming && d.dpl = selector % 4)

end DescTable

/-- The segment of the current task. -/
structure TaskSegment where
  base : Nat
  limit : Nat

namespace TaskSegment

variable (tr : TaskSegment) (mem : Nat → UInt8)

/-- A word of 16 bits in it. -/
def word (offset : Nat) : Nat :=
  (mem (tr.base + offset)).toNat + 2 ^ 8 * (mem (tr.base + (offset + 1))).toNat

/-- The stack segment and the stack pointer for level 0. -/
def stack0 : Nat × Nat := (tr.word mem 8, load32 mem (tr.base + 4))

/-- At level `cpl` the port can be accessed, one byte wide. Above the level of the flags the map
in the segment decides, of which two bytes are read. -/
def allows (cpl iopl port : Nat) : Bool :=
  cpl ≤ iopl ||
    (tr.word mem 102 + port / 8 + 1 ≤ tr.limit &&
      !(mem (tr.base + (tr.word mem 102 + port / 8))).toNat.testBit (port % 8))

end TaskSegment

end Leenix
