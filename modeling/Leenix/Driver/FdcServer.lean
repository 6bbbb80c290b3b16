import Leenix.Driver.FdcReads
import Leenix.Lib.Requests

/-!
# Programs on the floppy driver (driver/fdc.c)

The driver as a server of block reads: it answers with the block, and with the block read
before where the diskette cannot be read.

- `blkread_implements`: one call on a board that is ready.
- `fdc_serves`: what any program of block reads returns on the machine, from a reset on.
-/

namespace Leenix

namespace FdcPorts

open FloppyMachine (look ports)

variable (disks : Nat → Diskette) {latency : Nat → Nat} (drive : Fdc.Drive)

/-- The answer of a diskette to a call of `blkread`, and what the DMA buffer holds then, if it
holds `last` before. -/
def latchedBlock (disk : Diskette) (last : List Byte) (call : UInt32 × List Byte) :
    (Int × List Byte) × List Byte :=
  if 2880 ≤ call.1 then ((-1, call.2), last)
  else
    let block := ((disk.block call.1.toNat).map Subtype.val).getD last
    ((0, overlay call.2 block), block)

/-- The board is ready with its motors off, `last` is in the DMA buffer and the memory
outside is as it was. -/
structure Implements (ram : Nat → Byte) (last : List Byte) (b : FloppyBoard) : Prop where
  ready : Ready drive b
  dor : b.dor = 0x0C
  buffer : buffer b = last
  frame : ∀ a, a < 0x1000 ∨ 0x1200 ≤ a → b.ram a = ram a

variable {ram : Nat → Byte} {last : List Byte} {b : FloppyBoard}

/-- **One call** is answered as by the diskette. -/
theorem blkread_implements (hlatency : ∀ k, latency k < 500) (h : Implements drive ram last b)
    (call : UInt32 × List Byte) :
    ∃ b', Acts (look 500) (blkread (ports disks latency) drive call.1 call.2) b
        (latchedBlock (disks drive.1.toNat) last call).1 b' ∧
      Implements drive ram (latchedBlock (disks drive.1.toNat) last call).2 b' := by
  obtain ⟨lba, buff⟩ := call
  by_cases hout : 2880 ≤ lba
  · refine ⟨b, ?_, ?_⟩
    · rw [blkread, if_pos hout, latchedBlock, if_pos hout]
      exact .pure _
    · rw [latchedBlock, if_pos hout]
      exact h
  · have hlba : lba.toNat < 2880 := Nat.not_le.mp fun hle => hout (UInt32.le_iff_toNat_le.mpr hle)
    obtain ⟨b', hread, hready, hdor, hram⟩ := readSector_acts disks drive hlatency h.ready hlba
      (some buff)
    obtain ⟨hbuffer, hframe⟩ := buffer_elim hram
    rw [h.buffer] at hbuffer
    refine ⟨b', ?_, ?_⟩
    · rw [blkread, if_neg hout, latchedBlock, if_neg hout]
      simp only
      rw [← hbuffer]
      exact hread.bind (.pure _)
    · rw [latchedBlock, if_neg hout]
      exact ⟨hready, hdor, hbuffer, fun a ha => (hframe a ha).trans (h.frame a ha)⟩

section Machine

variable {α : Type} (program : Requests (UInt32 × List Byte) (Int × List Byte) α) {m : FloppyMachine}

/-- A program of block reads on the machine, after a reset. -/
def onMachine (latency : Nat → Nat) : Io FloppyMachine α := do
  reset (ports disks latency) drive
  program.perform fun call => blkread (ports disks latency) drive call.1 call.2

/-- **The driver as a server.** From any state of the controllers, whatever time the
handshakes take: a program that decides from the blocks it has read which one to read next
returns what it returns when the diskette answers. The motor is off then, and the memory
outside the DMA buffer is as before. Where the program has no result on the diskette it has
none on the machine. -/
theorem fdc_serves (hlatency : ∀ k, latency k < 500) (hbusy : m.busy < 500)
    (htrack : m.board.track drive.1.toNat ≤ 79) (hdma : (m.board.dma 0).disabled = false) :
    (∀ a last, program.serve (latchedBlock (disks drive.1.toNat)) (buffer m.board) = some (a, last) →
      ∃ m', onMachine disks drive program latency m = some (a, m') ∧ m'.board.dor = 0x0C ∧
        buffer m'.board = last ∧
        ∀ addr, addr < 0x1000 ∨ 0x1200 ≤ addr → m'.board.ram addr = m.board.ram addr) ∧
    (program.serve (latchedBlock (disks drive.1.toNat)) (buffer m.board) = none →
      onMachine disks drive program latency m = none) := by
  obtain ⟨b, hreset, hready, hdor, hram⟩ := reset_ready disks drive hlatency htrack hdma
  have himplements : Implements drive m.board.ram (buffer m.board) b :=
    ⟨hready, hdor, by rw [buffer, hram, buffer], fun addr _ => congrFun hram addr⟩
  have hask : ∀ last b call, Implements drive m.board.ram last b →
      ∃ b', Acts (look 500) (blkread (ports disks latency) drive call.1 call.2) b
          (latchedBlock (disks drive.1.toNat) last call).1 b' ∧
        Implements drive m.board.ram (latchedBlock (disks drive.1.toNat) last call).2 b' :=
    fun _ _ call h => blkread_implements disks drive hlatency h call
  obtain ⟨hsome, hnone⟩ := Requests.perform_acts hask program himplements
  have hlook : look 500 m = some m.board := FloppyMachine.look_eq_some.mpr ⟨hbusy, rfl⟩
  refine ⟨fun a last hserve => ?_, fun hserve => ?_⟩
  · obtain ⟨b', hperform, hafter⟩ := hsome a last hserve
    have hall : Acts (look 500) (onMachine disks drive program latency) m.board a b' :=
      hreset.bind hperform
    obtain ⟨m', hrun, hlook'⟩ := hall m hlook
    obtain ⟨-, rfl⟩ := FloppyMachine.look_eq_some.mp hlook'
    exact ⟨m', hrun, hafter.dor, hafter.buffer, hafter.frame⟩
  · obtain ⟨m', hrun, hlook'⟩ := hreset m hlook
    rw [onMachine, Io.run_bind, hrun]
    exact hnone hserve m' hlook'

/-- Reads a block, and then the one that its first byte names. -/
def sampleProgram : Requests (UInt32 × List Byte) (Int × List Byte) (Int × List Byte) := do
  let (_, first) ← .send (0, [])
  .send ((first.headD 0).toUInt32 + 2880, [7])

theorem fdc_serves_hung : ∃ m',
    onMachine (fun _ => blank) ⟨0, by decide⟩ sampleProgram (fun _ => 499) hung =
      some ((-1, [7]), m') ∧ m'.board.dor = 0x0C ∧ buffer m'.board = List.replicate 512 0 := by
  have hlatency : ∀ k : Nat, (fun _ => 499) k < 500 := fun _ => (by decide : 499 < 500)
  obtain ⟨m', hrun, hdor, hbuffer, -⟩ := (fdc_serves (fun _ => blank) ⟨0, by decide⟩ sampleProgram
    hlatency (by decide : hung.busy < 500) (by decide) rfl).1 (-1, [7]) (List.replicate 512 0) rfl
  exact ⟨m', hrun, hdor, hbuffer⟩

end Machine

end FdcPorts

end Leenix
