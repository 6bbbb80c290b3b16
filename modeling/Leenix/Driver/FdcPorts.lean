import Leenix.Driver.Dma
import Leenix.Driver.Fdc

/-!
# The floppy driver on the ports of a machine (driver/fdc.c)

The same functions as in the model of the controller's answers, with every access to a port
of the machine, those of the DMA controllers included.

- `sendCommand_acts`, `readFifo_acts`: the two accesses to the data register of a board whose
  handshakes are done within 500 looks at the status.
- `sendCommands_acts`: the bytes of a command, which is then executed.
-/

namespace Leenix

namespace FdcPorts

open FloppyMachine (look ports)

/-! ## The driver -/

section Driver

variable {σ : Type} (hw : Ports σ)

/-- `_fdc_init_dma` (fdc.c:115–135). -/
def initDma (count : UInt16) (isWrite : Bool) : Io σ Unit := do
  Dma.maskChannel hw 2
  Dma.resetFlipflop hw 0
  Dma.setAddress hw 2 0x1000
  Dma.resetFlipflop hw 0
  Dma.setCount hw 2 count
  Dma.setExternalPagereg hw 2 0
  if isWrite then Dma.setupWrite hw 2 else Dma.setupRead hw 2
  Dma.unmaskAll hw

/-- `_fdc_get_status` (fdc.c:137–139). -/
def getStatus : Io σ Byte := Io.inb hw 0x3F4

/-- `_fdc_write_dor` (fdc.c:141–143). -/
def writeDor (value : Byte) : Io σ Unit := Io.outb hw value 0x3F2

/-- `_fdc_write_ccr` (fdc.c:145–147). -/
def writeCcr (value : Byte) : Io σ Unit := Io.outb hw value 0x3F7

/-- The loop of the next two functions, `n` turns left: whether the data register is ready. -/
def waitReady : Nat → Io σ Bool
  | 0 => pure false
  | n + 1 => do if (← getStatus hw) &&& 0x80 ≠ 0 then return true else waitReady n

/-- `_fdc_send_command` (fdc.c:149–162). -/
def sendCommand (command : Byte) : Io σ Int := do
  if ← waitReady hw 500 then
    Io.outb hw command 0x3F5
    return 0
  else return -1

/-- `_fdc_read_fifo` (fdc.c:164–174). -/
def readFifo : Io σ Byte := do
  if ← waitReady hw 500 then Io.inb hw 0x3F5 else return 0

/-- `_fdc_disable` (fdc.c:176–179). -/
def disable : Io σ Unit := writeDor hw 0x00

/-- `_fdc_enable` (fdc.c:181–185). -/
def enable : Io σ Unit := writeDor hw (0x04 ||| 0x08)

/-- `_fdc_control_motor` (fdc.c:187–207). -/
def controlMotor (drive : Byte) (enable : Bool) : Io σ Unit :=
  match Fdc.motorMask drive with
  | none => return
  | some motor =>
    writeDor hw (if enable then motor ||| drive ||| 0x08 ||| 0x04 else 0x04 ||| 0x08)

/-- `_fdc_wait_for_irq` (fdc.c:218–225). -/
def waitForIrq : Io σ Unit := Io.await hw

/-- Consecutive calls of `_fdc_send_command`, with what they return dropped. -/
def sendCommands : List Byte → Io σ Unit
  | [] => return
  | command :: commands => do
    let _ ← sendCommand hw command
    sendCommands commands

/-- Consecutive calls of `_fdc_read_fifo`, with the values dropped. -/
def readFifos : Nat → Io σ Unit
  | 0 => return
  | n + 1 => do
    let _ ← readFifo hw
    readFifos n

/-- `_fdc_sense_interrupt` (fdc.c:271–280): `*st0` and `*cyl`. -/
def senseInterrupt : Io σ (Byte × Byte) := do
  let _ ← sendCommand hw 0x08
  let st0 ← readFifo hw
  let cyl ← readFifo hw
  return (st0, cyl)

/-- `_fdc_read_sector_chs` (fdc.c:229–269). -/
def readSectorChs (currentDrive head track sector : Byte) : Io σ Unit := do
  initDma hw 511 false
  sendCommands hw [0x06 ||| 0x40 ||| 0x80 ||| 0x20, head <<< 2 ||| currentDrive, track,
    head, sector, 0x02, if 18 ≤ sector.toNat + 1 then 18 else sector + 1, 0x1B, 0xff]
  waitForIrq hw
  readFifos hw 7
  let _ ← senseInterrupt hw

/-- `_fdc_fix_drivedata` (fdc.c:281–296). -/
def fixDrivedata (steprate loadtime unloadtime : UInt32) (usedma : Bool) : Io σ Unit :=
  sendCommands hw [0x03,
    ((steprate &&& 0x0F) <<< 4).toUInt8 ||| (unloadtime &&& 0x0F).toUInt8,
    ((loadtime &&& 0x7F) <<< 1).toUInt8 ||| if usedma then 0 else 1]

/-- The loop of `_fdc_recalibrate`, `n` turns left (fdc.c:311–326). -/
def recalibrateLoop (drive : Byte) : Nat → Io σ Int
  | 0 => do
    controlMotor hw drive false
    return -1
  | n + 1 => do
    sendCommands hw [0x07, drive]
    waitForIrq hw
    let (_, cyl) ← senseInterrupt hw
    if cyl = 0 then
      controlMotor hw drive false
      return 0
    else recalibrateLoop drive n

/-- `_fdc_recalibrate` (fdc.c:298–327). -/
def recalibrate (drive : Byte) : Io σ Int := do
  if 3 < drive then return -1
  else
    controlMotor hw drive true
    recalibrateLoop hw drive 10

/-- The loop of `_fdc_seek`, `n` turns left (fdc.c:332–350). -/
def seekLoop (currentDrive cyl head : Byte) : Nat → Io σ Int
  | 0 => return -1
  | n + 1 => do
    sendCommands hw [0x0F, head <<< 2 ||| currentDrive, cyl]
    waitForIrq hw
    let (_, cylReturned) ← senseInterrupt hw
    if cylReturned = cyl then return 0
    else seekLoop currentDrive cyl head n

/-- `_fdc_seek` (fdc.c:329–352). -/
def seek (currentDrive cyl head : Byte) : Io σ Int := seekLoop hw currentDrive cyl head 10

/-- The loop of `fdc_reset`, `n` turns left (fdc.c:383–386). -/
def senseInterrupts : Nat → Io σ Unit
  | 0 => return
  | n + 1 => do
    let _ ← senseInterrupt hw
    senseInterrupts n

/-- `fdc_reset` (fdc.c:375–391). -/
def reset (currentDrive : Fdc.Drive) : Io σ Unit := do
  disable hw
  enable hw
  waitForIrq hw
  senseInterrupts hw 4
  writeCcr hw 0x00
  fixDrivedata hw 3 16 240 true
  let _ ← recalibrate hw currentDrive

/-- `fdc_read_sector` (fdc.c:393–419): what it returns, and the buffer after. -/
def readSector (currentDrive : Fdc.Drive) (sectorLBA : UInt32) (buff : Option (List Byte)) :
    Io σ (Int × Option (List Byte)) := do
  let (cylinder, head, sector) := Fdc.lbaToChs sectorLBA
  controlMotor hw currentDrive true
  let code ← seek hw currentDrive cylinder.toUInt8 head.toUInt8
  if code ≠ 0 then return (-1, buff)
  else
    readSectorChs hw currentDrive head.toUInt8 cylinder.toUInt8 sector.toUInt8
    controlMotor hw currentDrive false
    match buff with
    | some bytes => do
      let block ← Io.copy hw 0x1000 512
      return (0, some (overlay bytes block))
    | none => return (-1, none)

/-- `blkread` (block.c:108–123) on the device that `fdc_init` registers (fdc.c:100–104, 368–371). -/
def blkread (currentDrive : Fdc.Drive) (lba : UInt32) (buffer : List Byte) :
    Io σ (Int × List Byte) := do
  if 2880 ≤ lba then return (-1, buffer)
  else
    let (result, after) ← readSector hw currentDrive lba (some buffer)
    return (result, after.getD buffer)

end Driver

/-! ## Accesses to the data register -/

section Board

variable {disks : Nat → Diskette} {latency : Nat → Nat} {b : FloppyBoard}

/-- The data register gets ready within the polls. -/
theorem waitReady_run {m : FloppyMachine} {n : Nat} (hready : m.board.status &&& 0x80 ≠ 0)
    (hbusy : m.busy < n) :
    waitReady (ports disks latency) n m = some (true, { m with busy := 0 }) := by
  induction n generalizing m with
  | zero => exact absurd hbusy (Nat.not_lt_zero _)
  | succ n ih =>
    obtain ⟨board, busy, handshakes⟩ := m
    cases busy with
    | zero => simp [waitReady, getStatus, Io.inb, ports, FloppyMachine.input, hready]
    | succ busy =>
      have hbit : board.status &&& 0x7F &&& 0x80 = 0 := by
        rw [UInt8.and_assoc]
        exact UInt8.and_zero
      simp [waitReady, getStatus, Io.inb, ports, FloppyMachine.input, hbit]
      exact ih hready (Nat.lt_of_succ_lt_succ hbusy)

section Acts

variable (disks) (hlatency : ∀ k, latency k < 500)
include hlatency

/-- A byte of a command. -/
theorem sendCommand_acts {sent : List Byte} (henabled : b.enabled)
    (hphase : b.phase = .command sent) (command : Byte) :
    Acts (look 500) (sendCommand (ports disks latency) command) b 0 (b.accept disks command) := by
  intro m hm
  obtain ⟨hbusy, rfl⟩ := FloppyMachine.look_eq_some.mp hm
  have hready : m.board.status &&& 0x80 ≠ 0 := by
    simp only [FloppyBoard.status, henabled, hphase]
    rcases sent with _ | ⟨first, sent⟩
    · decide
    · exact (by decide : (0x90 : UInt8) &&& 0x80 ≠ 0)
  refine ⟨FloppyMachine.handshake latency { m with busy := 0 } (m.board.accept disks command), ?_,
    FloppyMachine.look_eq_some.mpr ⟨hlatency _, rfl⟩⟩
  rw [sendCommand, Io.run_bind, waitReady_run hready hbusy]
  simp only [Option.bind_some, if_true, Io.run_bind]
  simp [Io.outb, ports, FloppyMachine.output, henabled]

/-- A byte of a result. -/
theorem readFifo_acts {value : Byte} {left : List Byte} (henabled : b.enabled)
    (hphase : b.phase = .result (value :: left)) :
    Acts (look 500) (readFifo (ports disks latency)) b value (b.drop left) := by
  intro m hm
  obtain ⟨hbusy, rfl⟩ := FloppyMachine.look_eq_some.mp hm
  have hready : m.board.status &&& 0x80 ≠ 0 := by
    simp only [FloppyBoard.status, henabled, hphase]
    decide
  refine ⟨FloppyMachine.handshake latency { m with busy := 0 } (m.board.drop left), ?_,
    FloppyMachine.look_eq_some.mpr ⟨hlatency _, rfl⟩⟩
  rw [readFifo, Io.run_bind, waitReady_run hready hbusy]
  simp [Io.inb, ports, FloppyMachine.input, hphase]

omit hlatency in
/-- A read while the controller waits for a command. -/
theorem readFifo_idle (henabled : b.enabled) (hphase : b.phase = .command []) :
    Acts (look 500) (readFifo (ports disks latency)) b 0xFF b := by
  intro m hm
  obtain ⟨hbusy, rfl⟩ := FloppyMachine.look_eq_some.mp hm
  have hready : m.board.status &&& 0x80 ≠ 0 := by
    simp only [FloppyBoard.status, henabled, hphase]
    decide
  refine ⟨{ m with busy := 0 }, ?_, FloppyMachine.look_eq_some.mpr ⟨(by decide : 0 < 500), rfl⟩⟩
  rw [readFifo, Io.run_bind, waitReady_run hready hbusy]
  simp [Io.inb, ports, FloppyMachine.input, hphase]

/-- **The bytes of a command**, from the one behind `sent` on. -/
theorem sendCommands_acts {sent : List Byte} (commands : List Byte) (henabled : b.enabled)
    (hphase : b.phase = .command sent) (hne : commands ≠ [])
    (hlength : (sent ++ commands).length = FloppyBoard.commandLength ((sent ++ commands).headD 0)) :
    ∃ phase, Acts (look 500) (sendCommands (ports disks latency) commands) b ⟨⟩
      (({ b with phase := phase }).execute disks (sent ++ commands)) := by
  induction commands generalizing sent b with
  | nil => exact absurd rfl hne
  | cons command commands ih =>
    have hfirst := sendCommand_acts disks hlatency henabled hphase command
    cases commands with
    | nil =>
      have hlast : b.accept disks command = ({ b with phase := .command sent }).execute disks
          (sent ++ [command]) := by
        rw [FloppyBoard.accept, hphase]
        simp only [← hlength, lt_irrefl, if_false]
        rw [← hphase]
      exact ⟨_, hfirst.bind ((Acts.pure _).congr hlast)⟩
    | cons next rest =>
      have hmore : b.accept disks command = { b with phase := .command (sent ++ [command]) } := by
        have hhead : (sent ++ [command]).headD 0 = (sent ++ command :: next :: rest).headD 0 := by
          cases sent <;> rfl
        have hshort : (sent ++ [command]).length < (sent ++ command :: next :: rest).length := by
          simp
        rw [FloppyBoard.accept, hphase]
        simp only [hhead, ← hlength, hshort, if_true]
      have happend : sent ++ command :: next :: rest = sent ++ [command] ++ next :: rest := by simp
      obtain ⟨phase, hrest⟩ := ih (b := b.accept disks command)
        (hmore ▸ henabled) (hmore ▸ rfl) (List.cons_ne_nil _ _) (happend ▸ hlength)
      refine ⟨phase, ?_⟩
      rw [happend]
      exact (hfirst.bind hrest).congr (by rw [hmore])

end Acts

end Board

end FdcPorts

end Leenix
