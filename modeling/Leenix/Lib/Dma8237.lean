import Leenix.Lib.PhysMem
import Mathlib.Tactic.IntervalCases

/-!
# The 8237 DMA controller

Four channels behind sixteen registers. The address and count registers take two bytes each,
low byte first, told apart by a flip-flop that all channels share.

Left out are auto-initialisation, software requests and the temporary register.

- `setByte_both`: the two bytes make the word, whatever was there.
- `write_address`, `write_count`: so two stores set an address or a count.
- `store_all`: a channel that is set up right takes as many bytes as it counts, to
  consecutive addresses, and masks itself.
-/

namespace Leenix

/-- One channel. -/
structure DmaChannel where
  address : Nat
  count : Nat
  mode : UInt8
  masked : Bool
deriving DecidableEq

namespace DmaChannel

variable (ch : DmaChannel)

/-- The channel moves bytes to memory, one after the other upwards. -/
def Stores : Prop := ch.mode.toNat / 4 % 4 = 1 ∧ ¬ch.mode.toNat.testBit 5

instance : Decidable ch.Stores := inferInstanceAs (Decidable (_ ∧ _))

/-- The channel after a byte. It masks itself after the last one. -/
def next : DmaChannel where
  address := (if ch.mode.toNat.testBit 5 then ch.address + 65535 else ch.address + 1) % 65536
  count := (ch.count + 65535) % 65536
  mode := ch.mode
  masked := decide (ch.count = 0)

end DmaChannel

/-- The controller. `high` says that the next byte of an address or a count is the high one. -/
structure Dma8237 where
  channel : Nat → DmaChannel
  high : Bool
  disabled : Bool

namespace Dma8237

/-- One byte of a register of 16 bits. -/
def setByte (high : Bool) (old : Nat) (value : UInt8) : Nat :=
  if high then old % 256 + 256 * value.toNat else old / 256 * 256 + value.toNat

theorem setByte_both (old : Nat) (low high : UInt8) :
    setByte true (setByte false old low) high = low.toNat + 256 * high.toNat := by
  have hlow : low.toNat < 256 := low.toNat_lt
  simp only [setByte, Bool.false_eq_true, if_false, if_true]
  omega

variable (c : Dma8237)

/-- Another record for one channel. -/
def update (i : Nat) (f : DmaChannel → DmaChannel) : Dma8237 :=
  { c with channel := Function.update c.channel i (f (c.channel i)) }

@[simp] theorem update_update (i : Nat) (f g : DmaChannel → DmaChannel) :
    (c.update i f).update i g = c.update i fun ch => g (f ch) := by
  simp [update]

/-- All channels open. -/
def unmasked : Dma8237 := { c with channel := fun i => { c.channel i with masked := false } }

/-- A store to a register. -/
def write (register : Nat) (value : UInt8) : Dma8237 :=
  let i := value.toNat % 4
  match register with
  | 0x8 => { c with disabled := value.toNat.testBit 2 }
  | 0x9 => c
  | 0xA => c.update i fun ch => { ch with masked := value.toNat.testBit 2 }
  | 0xB => c.update i fun ch => { ch with mode := value }
  | 0xC => { c with high := false }
  | 0xD =>
    { channel := fun i => { c.channel i with masked := true }, high := false, disabled := false }
  | 0xE => c.unmasked
  | 0xF => { c with channel := fun i => { c.channel i with masked := value.toNat.testBit i } }
  | r =>
    let c' := c.update (r / 2) fun ch =>
      if r % 2 = 0 then { ch with address := setByte c.high ch.address value }
      else { ch with count := setByte c.high ch.count value }
    { c' with high := !c.high }

section Registers

variable {i : Nat} (low high : UInt8)

/-- Both bytes of an address. -/
theorem write_address (hi : i < 4) (hlow : c.high = false) :
    (c.write (2 * i) low).write (2 * i) high =
      c.update i fun ch => { ch with address := low.toNat + 256 * high.toNat } := by
  obtain ⟨channel, _, disabled⟩ := c
  obtain rfl := hlow
  have hboth := fun old => setByte_both old low high
  interval_cases i <;> simp [write, update, hboth]

/-- Both bytes of a count. -/
theorem write_count (hi : i < 4) (hlow : c.high = false) :
    (c.write (2 * i + 1) low).write (2 * i + 1) high =
      c.update i fun ch => { ch with count := low.toNat + 256 * high.toNat } := by
  obtain ⟨channel, _, disabled⟩ := c
  obtain rfl := hlow
  have hboth := fun old => setByte_both old low high
  interval_cases i <;> simp [write, update, hboth]

end Registers

/-- The bytes that a device offers on channel `i`, up to the last one that the channel counts:
whether that came, the controller and the memory after. `page` is the upper part of the
addresses. A masked channel does not answer. -/
def store (i page : Nat) (c : Dma8237) (mem : Nat → UInt8) :
    List UInt8 → Option (Bool × Dma8237 × (Nat → UInt8))
  | [] => some (false, c, mem)
  | b :: bs =>
    let ch := c.channel i
    if c.disabled || ch.masked then none
    else
      let c' := c.update i DmaChannel.next
      let mem' := if ch.Stores then Function.update mem (65536 * page + ch.address) b else mem
      if ch.count = 0 then some (true, c', mem') else store i page c' mem' bs

/-- **A whole transfer.** -/
theorem store_all {i : Nat} (page : Nat) {ch : DmaChannel} {bs : List UInt8} (mem : Nat → UInt8)
    (hch : c.channel i = ch) (henabled : c.disabled = false) (hopen : ch.masked = false)
    (hstores : ch.Stores) (hcount : bs.length = ch.count + 1) (hfits : ch.address + bs.length ≤ 65536) :
    ∃ c', store i page c mem bs = some (true, c', blit mem (65536 * page + ch.address) bs) ∧
      c'.disabled = false := by
  induction bs generalizing c ch mem with
  | nil => exact absurd hcount (Nat.succ_ne_zero _).symm
  | cons b bs ih =>
    have hlen : bs.length = ch.count := Nat.succ.inj hcount
    have hbound : ch.address + (bs.length + 1) ≤ 65536 := hfits
    by_cases hlast : ch.count = 0
    · obtain rfl : bs = [] := List.eq_nil_of_length_eq_zero (hlen.trans hlast)
      refine ⟨c.update i DmaChannel.next, ?_, henabled⟩
      simp [store, hch, henabled, hopen, hstores, hlast, ← blit_update, blit_nil]
    · -- the rest is a transfer of one byte less, from the next address on
      have hup : ch.mode.toNat.testBit 5 = false := by simpa using hstores.2
      have haddress : ch.next.address = ch.address + 1 := by
        simp only [DmaChannel.next, hup, Bool.false_eq_true, if_false]
        exact Nat.mod_eq_of_lt (by omega)
      have hleft : ch.next.count + 1 = ch.count := by
        simp only [DmaChannel.next]
        omega
      have hrest : (c.update i DmaChannel.next).channel i = ch.next := by
        simp [update, hch]
      obtain ⟨c', hstore, hc'⟩ := ih (c.update i DmaChannel.next)
        (Function.update mem (65536 * page + ch.address) b) hrest henabled
        (by simp [DmaChannel.next, hlast]) hstores (by omega) (by omega)
      refine ⟨c', ?_, hc'⟩
      rw [haddress, ← Nat.add_assoc, blit_update] at hstore
      simp [store, hch, henabled, hopen, hstores, hlast, hstore]

end Dma8237

end Leenix
