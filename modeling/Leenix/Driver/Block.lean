import Leenix.Machine

/-!
# Block devices (driver/block.c)

A device is known through the operation its driver registered: for a block
number, the value it returns and the bytes it stores in the caller's buffer.
-/

namespace Leenix

/-- The fields of `block_device_t` that a read uses. `read` is `ops->read`,
absent when one of the two pointers is null. -/
structure BlockDevice where
  numBlocks : Nat
  read : Option (Nat → Int × List Byte)

/-- `blkread` (block.c:108–123): the result, and the buffer after. -/
def blkread (dev : Option BlockDevice) (lba : Nat) (buffer : List Byte) : Int × List Byte :=
  match dev with
  | none => (-1, buffer)
  | some dev =>
    match dev.read with
    | none => (-1, buffer)
    | some read =>
      if dev.numBlocks ≤ lba then (-1, buffer)
      else
        let (result, bytes) := read lba
        (result, overlay buffer bytes)

/-- A device whose blocks are all readable and hold the given bytes. -/
def BlockDevice.holding (numBlocks : Nat) (blocks : Nat → List Byte) : BlockDevice where
  numBlocks := numBlocks
  read := some fun lba => (0, blocks lba)

/-- A read does not change the size of a buffer that has room for what is stored. -/
theorem blkread_length {dev : Option BlockDevice} {lba : Nat} {buffer : List Byte}
    (h : ∀ d ∈ dev, ∀ read ∈ d.read, ∀ lba, (read lba).2.length ≤ buffer.length) :
    (blkread dev lba buffer).2.length = buffer.length := by
  rcases dev with _ | ⟨numBlocks, _ | read⟩
  · rfl
  · rfl
  · have hle := h _ rfl read rfl lba
    simp only [blkread]
    split
    · rfl
    · simp only [overlay, List.length_append, List.length_drop]
      omega

/-- The device stores no more than a block of 512 bytes, and a whole one when it
succeeds. -/
def ReadsBlocks (dev : Option BlockDevice) : Prop :=
  ∀ d ∈ dev, ∀ read ∈ d.read, ∀ lba,
    (read lba).2.length ≤ 512 ∧ ((read lba).1 = 0 → (read lba).2.length = 512)

/-- What a successful read stores, in a buffer with nothing in it. -/
theorem ReadsBlocks.length_stored {dev : Option BlockDevice} (h : ReadsBlocks dev) {lba : Nat}
    (hok : (blkread dev lba []).1 = 0) : (blkread dev lba []).2.length = 512 := by
  rcases dev with _ | ⟨numBlocks, _ | read⟩
  · cases hok
  · cases hok
  · simp only [blkread] at hok ⊢
    split at hok
    · cases hok
    case isFalse hin =>
      rw [if_neg hin]
      simpa [overlay] using (h _ rfl read rfl lba).2 hok

section Holding

variable {numBlocks lba : Nat} {blocks blocks' : Nat → List Byte} {buffer : List Byte}

/-- Reading a block of the buffer's size fills the buffer with it. -/
theorem blkread_holding (hlba : lba < numBlocks) (hlen : buffer.length = (blocks lba).length) :
    blkread (some (.holding numBlocks blocks)) lba buffer = (0, blocks lba) := by
  simp only [blkread, BlockDevice.holding, Nat.not_le.mpr hlba, if_false]
  rw [overlay_of_length_le hlen.le]

/-- A read depends on the block it asks for only. -/
theorem blkread_holding_congr (h : blocks' lba = blocks lba) :
    blkread (some (.holding numBlocks blocks')) lba buffer =
      blkread (some (.holding numBlocks blocks)) lba buffer := by
  simp only [blkread, BlockDevice.holding, h]
  rfl

/-- A read fills the buffer with a block, or leaves it. -/
theorem blkread_holding_length (hlen : ∀ lba, (blocks lba).length = buffer.length) :
    (blkread (some (.holding numBlocks blocks)) lba buffer).2.length = buffer.length := by
  refine blkread_length fun d hd read hread lba => ?_
  obtain rfl := Option.some.inj hd
  obtain rfl := Option.some.inj hread
  exact (hlen lba).le

end Holding

/-- The length of a block of zeros. -/
theorem length_zeroBlock : (List.replicate 512 (0 : Byte)).length = 512 := List.length_replicate

/-- A device with blocks of 512 bytes, some of which cannot be read. -/
structure Disk where
  numBlocks : Nat
  blocks : Nat → { block : List Byte // block.length = 512 }
  fails : Nat → Bool

namespace Disk

variable (disk : Disk) {buffer : List Byte}

/-- A read that fails stores nothing. -/
def device : BlockDevice where
  numBlocks := disk.numBlocks
  read := some fun lba => if disk.fails lba then (-1, []) else (0, disk.blocks lba)

/-- The block is there and can be read. -/
def Reads (lba : Nat) : Prop := lba < disk.numBlocks ∧ disk.fails lba = false

instance (lba : Nat) : Decidable (disk.Reads lba) := inferInstanceAs (Decidable (_ ∧ _))

theorem blkread_device (lba : Nat) : blkread (some disk.device) lba buffer =
    if disk.Reads lba then (0, overlay buffer (disk.blocks lba)) else (-1, buffer) := by
  by_cases hin : disk.numBlocks ≤ lba
  · have hnot : ¬disk.Reads lba := fun h => Nat.not_lt.mpr hin h.1
    simp only [blkread, device, hin, if_true, if_neg hnot]
  · cases hfails : disk.fails lba with
    | true =>
      have hnot : ¬disk.Reads lba := fun h => by simp [Reads, hfails] at h
      simp [blkread, device, hin, hfails, hnot, overlay]
    | false =>
      have hreads : disk.Reads lba := ⟨Nat.not_le.mp hin, hfails⟩
      simp [blkread, device, hin, hfails, hreads]

theorem readsBlocks : ReadsBlocks (some disk.device) := by
  intro d hd read hread lba
  obtain rfl := Option.some.inj hd
  obtain rfl := Option.some.inj hread
  by_cases hfails : disk.fails lba = true
  · simp [hfails]
  · simp [hfails, (disk.blocks lba).2]

end Disk

end Leenix
