import Leenix.Driver.FdcCommands
import Leenix.Driver.Block

/-!
# Reading a diskette (driver/fdc.c)

The whole driver on the ports of a board, under the block layer.

- `readSector_acts`: a sector is read, and the board is ready again.
- `blkreads_acts`: so is any sequence of blocks.
- `fdc_answers`: what the block layer gets from the machine, from a reset on.
- `fdc_holds`: it is what the file system was verified on, if no block is unreadable.
-/

namespace Leenix

namespace FdcPorts

open FloppyMachine (look ports)

variable (disks : Nat → Diskette) {latency : Nat → Nat} {b : FloppyBoard} (drive : Fdc.Drive)

/-- The buffer of the DMA transfers. -/
def buffer (b : FloppyBoard) : List Byte := (List.range' 0x1000 512).map b.ram

/-- Consecutive calls of `blkread`. -/
def blkreads {σ : Type} (hw : Ports σ) (drive : Fdc.Drive) :
    List (UInt32 × List Byte) → Io σ (List (Int × List Byte))
  | [] => return []
  | (lba, buffer) :: calls => do
    let result ← blkread hw drive lba buffer
    return result :: (← blkreads hw drive calls)

/-- What a diskette answers through a buffer that holds `last`, and then the block that was
read last. An unreadable block leaves the buffer as it is, and is not told from a readable
one. -/
def latched (disk : Diskette) :
    List Byte → List (UInt32 × List Byte) → List (Int × List Byte)
  | _, [] => []
  | last, (lba, buffer) :: calls =>
    if 2880 ≤ lba then (-1, buffer) :: latched disk last calls
    else
      let block := ((disk.block lba.toNat).map Subtype.val).getD last
      (0, overlay buffer block) :: latched disk block calls

/-- The address that the driver computes for a block of the diskette. -/
theorem lbaToChs_toNat {lba : UInt32} (h : lba.toNat < 2880) :
    (Fdc.lbaToChs lba).1.toUInt8.toNat = lba.toNat / 36 ∧
      (Fdc.lbaToChs lba).2.1.toUInt8.toNat = lba.toNat % 36 / 18 ∧
      (Fdc.lbaToChs lba).2.2.toUInt8.toNat = lba.toNat % 36 % 18 + 1 := by
  simp [Fdc.lbaToChs]
  omega

/-- What a read leaves in the memory. -/
theorem buffer_elim {b' : FloppyBoard} {disk : Diskette} {n : Nat}
    (hram : b'.ram = (disk.block n).elim b.ram fun bytes => blit b.ram 0x1000 bytes) :
    buffer b' = ((disk.block n).map Subtype.val).getD (buffer b) ∧
      ∀ a, a < 0x1000 ∨ 0x1200 ≤ a → b'.ram a = b.ram a := by
  cases hblock : disk.block n with
  | none => simp [buffer, hram, hblock]
  | some bytes =>
    have hback := map_blit b.ram 0x1000 bytes
    rw [bytes.2] at hback
    refine ⟨by simpa [buffer, hram, hblock] using hback, fun a ha => ?_⟩
    rw [hram, hblock]
    exact blit_outside b.ram (by rw [bytes.2]; exact ha)

section Reads

variable (hlatency : ∀ k, latency k < 500)
include hlatency

/-- **A read of a sector.** The buffer gets what is in the DMA buffer then, which is the block,
or what was there before if the sector is unreadable. -/
theorem readSector_acts (hready : Ready drive b) {lba : UInt32} (hlba : lba.toNat < 2880)
    (buff : Option (List Byte)) :
    ∃ b', Acts (look 500) (readSector (ports disks latency) drive lba buff) b
        (if buff.isSome then 0 else -1, buff.map fun bytes => overlay bytes (buffer b')) b' ∧
      Ready drive b' ∧ b'.dor = 0x0C ∧
      b'.ram = ((disks drive.1.toNat).block lba.toNat).elim b.ram
        fun bytes => blit b.ram 0x1000 bytes := by
  obtain ⟨hcyl, hhead, hsector⟩ := lbaToChs_toNat hlba
  generalize hchs : Fdc.lbaToChs lba = chs at hcyl hhead hsector
  obtain ⟨cylinder, head, sector⟩ := chs
  simp only at hcyl hhead hsector
  obtain ⟨dor, hmotor, hon⟩ := controlMotor_acts disks drive hlatency true
    hready.enabled
  have hspins : ({ b with dor := dor } : FloppyBoard).spins drive.1.toNat := by
    simp [FloppyBoard.spins, hon.selected, hon.motor]
  have hseek := seek_acts disks drive hlatency (b := { b with dor := dor })
    ⟨hon.enabled, hon.gate, hready.phase, hready.pending, hready.fired⟩ hspins hready.pcn
    head.toUInt8 (by omega : cylinder.toUInt8.toNat < 80)
  have hthere : Ready drive
      (moved drive.1.toNat cylinder.toUInt8.toNat cylinder.toUInt8 { b with dor := dor }) :=
    ⟨⟨hon.enabled, hon.gate, hready.phase, hready.pending, hready.fired⟩, hready.rate,
      hready.nonDma, by simp [moved], hready.dma⟩
  obtain ⟨b₁, hread, hready₁, -, hram⟩ := readSectorChs_acts disks drive hlatency
    cylinder.toUInt8 head.toUInt8 sector.toUInt8 hthere hspins (by simp [moved]) (by omega)
  obtain ⟨dor', hoff, rfl⟩ := controlMotor_acts disks drive hlatency false
    hready₁.enabled
  rw [hcyl, hhead, hsector, Diskette.sector_block _ hlba] at hram
  refine ⟨{ b₁ with dor := 0x0C }, ?_, ?_, rfl, hram⟩
  · simp only [readSector, hchs]
    refine hmotor.bind <| hseek.bind ?_
    rw [if_neg (fun h => h rfl)]
    refine hread.bind <| hoff.bind ?_
    cases buff with
    | none => exact .pure _
    | some bytes => exact (FloppyMachine.copy_acts 0x1000 512).bind (.pure _)
  · exact ⟨⟨dorOff_bits.1, dorOff_bits.2, hready₁.phase, hready₁.pending, hready₁.fired⟩, hready₁.rate,
      hready₁.nonDma, hready₁.pcn, hready₁.dma⟩

/-- **A run of reads**, of blocks that the device has or has not. -/
theorem blkreads_acts (hready : Ready drive b) (calls : List (UInt32 × List Byte)) :
    ∃ b', Acts (look 500) (blkreads (ports disks latency) drive calls) b
        (latched (disks drive.1.toNat) (buffer b) calls) b' ∧
      Ready drive b' ∧ (b.dor = 0x0C → b'.dor = 0x0C) ∧
      ∀ a, a < 0x1000 ∨ 0x1200 ≤ a → b'.ram a = b.ram a := by
  induction calls generalizing b with
  | nil => exact ⟨b, .pure _, hready, id, fun _ _ => rfl⟩
  | cons call calls ih =>
    obtain ⟨lba, buff⟩ := call
    by_cases hout : 2880 ≤ lba
    · obtain ⟨b', hrun, hready', hdor, hram⟩ := ih hready
      refine ⟨b', ?_, hready', hdor, hram⟩
      have hblkread : Acts (look 500) (blkread (ports disks latency) drive lba buff) b (-1, buff) b := by
        rw [blkread, if_pos hout]
        exact .pure _
      rw [latched, if_pos hout]
      exact hblkread.bind (hrun.bind (.pure _))
    · have hlba : lba.toNat < 2880 := Nat.not_le.mp fun h => hout (UInt32.le_iff_toNat_le.mpr h)
      obtain ⟨b₁, hread, hready₁, hdor₁, hram₁⟩ := readSector_acts disks drive hlatency hready
        hlba (some buff)
      obtain ⟨hbuffer, hframe⟩ := buffer_elim hram₁
      obtain ⟨b', hrun, hready', hdor, hram⟩ := ih hready₁
      refine ⟨b', ?_, hready', fun _ => hdor hdor₁, fun a ha => (hram a ha).trans (hframe a ha)⟩
      have hblkread : Acts (look 500) (blkread (ports disks latency) drive lba buff) b
          (0, overlay buff (buffer b₁)) b₁ := by
        rw [blkread, if_neg hout]
        exact hread.bind (.pure _)
      rw [latched, if_neg hout, ← hbuffer]
      exact hblkread.bind (hrun.bind (.pure _))

/-- The same from a reset on. -/
theorem reset_blkreads (htrack : b.track drive.1.toNat ≤ 79) (hdma : (b.dma 0).disabled = false)
    (calls : List (UInt32 × List Byte)) : ∃ b',
    Acts (look 500) (do
      reset (ports disks latency) drive
      blkreads (ports disks latency) drive calls) b
      (latched (disks drive.1.toNat) (buffer b) calls) b' ∧
    b'.dor = 0x0C ∧ ∀ a, a < 0x1000 ∨ 0x1200 ≤ a → b'.ram a = b.ram a := by
  obtain ⟨b₁, hreset, hready, hdor, hram⟩ := reset_ready disks drive hlatency htrack hdma
  obtain ⟨b', hreads, -, hdor', hram'⟩ := blkreads_acts disks drive hlatency hready calls
  have hbuffer : buffer b₁ = buffer b := by rw [buffer, hram, buffer]
  rw [hbuffer] at hreads
  exact ⟨b', hreset.bind hreads, hdor' hdor, fun a ha => (hram' a ha).trans (congrFun hram a)⟩

end Reads

/-- The device that the block layer sees if all blocks can be read. -/
def device (disk : Diskette) : BlockDevice :=
  .holding 2880 fun n => ((disk.block n).map Subtype.val).getD []

/-- What a diskette answers, if no block that is read is unreadable. -/
theorem latched_eq {disk : Diskette} {calls : List (UInt32 × List Byte)}
    (hreadable : ∀ call ∈ calls, call.1.toNat < 2880 → (disk.block call.1.toNat).isSome)
    (last : List Byte) : latched disk last calls =
      calls.map fun call => Leenix.blkread (some (device disk)) call.1.toNat call.2 := by
  induction calls generalizing last with
  | nil => rfl
  | cons call calls ih =>
    obtain ⟨lba, buff⟩ := call
    have hrest := ih fun call hcall => hreadable call (List.mem_cons_of_mem _ hcall)
    by_cases hout : 2880 ≤ lba
    · have hlba : 2880 ≤ lba.toNat := UInt32.le_iff_toNat_le.mp hout
      rw [latched, if_pos hout, hrest, List.map_cons]
      simp [Leenix.blkread, device, BlockDevice.holding, hlba]
    · have hlba : ¬2880 ≤ lba.toNat := fun h => hout (UInt32.le_iff_toNat_le.mpr h)
      obtain ⟨bytes, hblock⟩ := Option.isSome_iff_exists.mp
        (hreadable (lba, buff) List.mem_cons_self (Nat.not_le.mp hlba))
      simp only at hblock
      simp only [latched, if_neg hout, hrest, List.map_cons]
      simp [Leenix.blkread, device, BlockDevice.holding, hlba, hblock]

section Machine

variable {disk : Diskette} (calls : List (UInt32 × List Byte)) {m : FloppyMachine}

/-- **The driver on the machine.** From any state of the controllers, whatever time the
handshakes take: after a reset, any sequence of reads ends, with what the diskette answers.
The motor is off then, and the memory outside the DMA buffer is as before. -/
theorem fdc_answers (hlatency : ∀ k, latency k < 500) (hbusy : m.busy < 500)
    (htrack : m.board.track drive.1.toNat ≤ 79) (hdma : (m.board.dma 0).disabled = false) :
    ∃ m', (do
        reset (ports disks latency) drive
        blkreads (ports disks latency) drive calls) m =
      some (latched (disks drive.1.toNat) (buffer m.board) calls, m') ∧
      m'.board.dor = 0x0C ∧ ∀ a, a < 0x1000 ∨ 0x1200 ≤ a → m'.board.ram a = m.board.ram a := by
  obtain ⟨b', hacts, hdor, hram⟩ := reset_blkreads disks drive hlatency htrack hdma calls
  obtain ⟨m', hrun, hlook⟩ := hacts m (FloppyMachine.look_eq_some.mpr ⟨hbusy, rfl⟩)
  obtain ⟨-, rfl⟩ := FloppyMachine.look_eq_some.mp hlook
  exact ⟨m', hrun, hdor, hram⟩

/-- A machine whose controller hangs in a command, with the heads of the drives on track 40. -/
def hung : FloppyMachine where
  board := Dma.scrambled
  busy := 17
  handshakes := 0

/-- A diskette with zeros. -/
def blank : Diskette where
  block := fun _ => some ⟨List.replicate 512 0, List.length_replicate⟩

/-- A block of it, and one that it does not have. -/
def sampleCalls : List (UInt32 × List Byte) := [(19, []), (2880, [7])]

theorem fdc_answers_hung : ∃ m', (do
      reset (ports (fun _ => blank) fun _ => 499) ⟨0, by decide⟩
      blkreads (ports (fun _ => blank) fun _ => 499) ⟨0, by decide⟩ sampleCalls) hung =
    some (latched blank (buffer hung.board) sampleCalls, m') ∧
    m'.board.dor = 0x0C ∧ ∀ a, a < 0x1000 ∨ 0x1200 ≤ a → m'.board.ram a = 0xA5 :=
  fdc_answers (fun _ => blank) _ sampleCalls (fun _ => by decide) (by decide)
    (by decide) rfl

/-- **The driver implements the device that the file system reads**, for a diskette on which no
block that is read is unreadable. -/
theorem fdc_holds (hlatency : ∀ k, latency k < 500) (hbusy : m.busy < 500)
    (htrack : m.board.track drive.1.toNat ≤ 79) (hdma : (m.board.dma 0).disabled = false)
    (hreadable : ∀ call ∈ calls, call.1.toNat < 2880 →
      ((disks drive.1.toNat).block call.1.toNat).isSome) :
    ∃ m', (do
        reset (ports disks latency) drive
        blkreads (ports disks latency) drive calls) m =
      some (calls.map fun call =>
        Leenix.blkread (some (device (disks drive.1.toNat))) call.1.toNat call.2, m') := by
  obtain ⟨b', hacts, -⟩ := reset_blkreads disks drive hlatency htrack hdma calls
  obtain ⟨m', hrun, -⟩ := hacts m (FloppyMachine.look_eq_some.mpr ⟨hbusy, rfl⟩)
  exact ⟨m', by rw [hrun, latched_eq hreadable]⟩

theorem fdc_holds_hung : ∃ m', (do
      reset (ports (fun _ => blank) fun _ => 499) ⟨0, by decide⟩
      blkreads (ports (fun _ => blank) fun _ => 499) ⟨0, by decide⟩ sampleCalls) hung =
    some (sampleCalls.map fun call =>
      Leenix.blkread (some (device blank)) call.1.toNat call.2, m') :=
  fdc_holds (fun _ => blank) _ sampleCalls (fun _ => by decide) (by decide)
    (by decide) rfl fun _ _ _ => rfl

end Machine

end FdcPorts

end Leenix
