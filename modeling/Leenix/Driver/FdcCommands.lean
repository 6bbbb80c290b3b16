import Leenix.Driver.FdcPorts

/-!
# The commands of the floppy driver (driver/fdc.c)

What the driver and the board do together, command by command.

- `Ready`: the board between two commands.
- `arrive_acts`: the commands that move the heads.
- `reset_ready`: `fdc_reset` makes the board ready from any state.
- `readSectorChs_acts`: `_fdc_read_sector_chs` fills the DMA buffer.
-/

namespace Leenix

namespace FdcPorts

open FloppyMachine (look ports)

variable (disks : Nat → Diskette) {latency : Nat → Nat} {b : FloppyBoard} (drive : Fdc.Drive)

/-- The controller waits for a command, and nothing is left over from earlier ones. -/
structure Idle (b : FloppyBoard) : Prop where
  enabled : b.enabled
  gate : b.gate
  phase : b.phase = .command []
  pending : b.pending = []
  fired : b.fired = false

/-- The controller is set up for the diskettes, and knows where the heads of the drive are. -/
structure Ready (drive : Byte) (b : FloppyBoard) : Prop extends Idle b where
  rate : b.rate = 0
  nonDma : b.nonDma = false
  pcn : (b.pcn drive.toNat).toNat = b.track drive.toNat
  dma : (b.dma 0).disabled = false

/-- The heads of a drive on another track, with the controller told so. -/
def moved (d track : Nat) (pcn : Byte) (b : FloppyBoard) : FloppyBoard :=
  { b with track := Function.update b.track d track, pcn := Function.update b.pcn d pcn }

/-- The value of the digital output register with the motor of a drive on. -/
structure MotorOn (drive : Fdc.Drive) (dor : Byte) : Prop where
  enabled : dor.toNat.testBit 2
  gate : dor.toNat.testBit 3
  selected : dor.toNat % 4 = drive.1.toNat
  motor : dor.toNat.testBit (4 + drive.1.toNat)

/-- The value with all motors off. -/
theorem dorOff_bits : (0x0C : Byte).toNat.testBit 2 = true ∧
    (0x0C : Byte).toNat.testBit 3 = true := by
  decide

theorem motorMask_spec (drive : Fdc.Drive) : ∃ motor, Fdc.motorMask drive = some motor ∧
    MotorOn drive (motor ||| drive ||| 0x08 ||| 0x04) := by
  obtain ⟨drive, hle⟩ := drive
  rcases Fdc.drive_cases ⟨drive, hle⟩ with rfl | rfl | rfl | rfl <;>
    exact ⟨_, rfl, by decide +revert, by decide +revert, by decide +revert, by decide +revert⟩

theorem drive_mod (drive : Fdc.Drive) : drive.1.toNat % 4 = drive.1.toNat :=
  Nat.mod_eq_of_lt (Nat.lt_succ_of_le (UInt8.le_iff_toNat_le.mp drive.2))

/-- The drive of the second byte of a command. -/
theorem headDrive_mod (head : Byte) (drive : Fdc.Drive) :
    (head <<< 2 ||| drive.1).toNat % 4 = drive.1.toNat := by
  have hzero : (head <<< 2).toNat % 4 = 0 := by
    simp [Nat.shiftLeft_eq]
  rw [UInt8.toNat_or, show 4 = 2 ^ 2 from rfl, Nat.or_mod_two_pow]
  show (head <<< 2).toNat % 4 ||| drive.1.toNat % 4 = drive.1.toNat
  rw [hzero, drive_mod, Nat.zero_or]

/-- The head of the second byte of a command. -/
theorem headDrive_div {head : Byte} (h : head.toNat < 2) (drive : Fdc.Drive) :
    (head <<< 2 ||| drive.1).toNat / 4 % 2 = head.toNat := by
  have hhead : head = 0 ∨ head = 1 := by
    simp only [← UInt8.toNat_inj]
    simp
    omega
  obtain ⟨drive, hle⟩ := drive
  rcases Fdc.drive_cases ⟨drive, hle⟩ with rfl | rfl | rfl | rfl <;>
    rcases hhead with rfl | rfl <;> decide +revert

/-- The board behind the interrupt of a reset. -/
def awake (b : FloppyBoard) : FloppyBoard :=
  { b with
    dor := 0x0C
    phase := .command []
    pcn := fun _ => 0
    pending := [(0xC0, 0), (0xC1, 0), (0xC2, 0), (0xC3, 0)].map fun r => [r.1, r.2]
    fired := false }

/-- The DMA controllers, set up for a sector. -/
def readying (b : FloppyBoard) : FloppyBoard :=
  (Dma.setPage (b.onDma 0 (Dma.prepared 2 0x1000 511 false)) 2 0).onDma 0 Dma8237.unmasked

theorem readying_channel (b : FloppyBoard) :
    ((readying b).dma 0).channel 2 = ⟨0x1000, 511, 0x46, false⟩ := rfl

theorem readying_ready (hready : Ready drive b) : Ready drive (readying b) :=
  ⟨⟨hready.enabled, hready.gate, hready.phase, hready.pending, hready.fired⟩, hready.rate,
    hready.nonDma, hready.pcn, hready.dma⟩

/-- READ DATA with what the driver sends and the DMA channel it set up. -/
theorem execute_read (cyl head sector eot : Byte) (hready : Ready drive b)
    (hspins : b.spins drive.1.toNat) (hcyl : cyl.toNat = b.track drive.1.toNat)
    (hhead : head.toNat < 2) (phase : FloppyPhase) :
    ∃ b' left, left.length = 7 ∧
      ({ readying b with phase := phase }).execute disks [0x06 ||| 0x40 ||| 0x80 ||| 0x20,
        head <<< 2 ||| drive, cyl, head, sector, 0x02, eot, 0x1B, 0xff] =
        { b' with phase := .result left, fired := true } ∧
      Ready drive b' ∧ b'.dor = b.dor ∧
      b'.ram = ((disks drive.1.toNat).sector cyl.toNat head.toNat sector.toNat).elim b.ram
        fun bytes => blit b.ram 0x1000 bytes := by
  have hreads : ({ readying b with phase := phase } : FloppyBoard).Reads
      (0x06 ||| 0x40 ||| 0x80 ||| 0x20) (head <<< 2 ||| drive) cyl head 0x02 drive.1.toNat :=
    ⟨headDrive_mod head drive, hspins, hready.gate, hready.nonDma, hcyl,
      (headDrive_div hhead drive).symm, rfl, by decide, hready.rate⟩
  cases hsector : (disks drive.1.toNat).sector cyl.toNat head.toNat sector.toNat with
  | none =>
    obtain ⟨left, hlength, hdata⟩ := FloppyBoard.readData_missing disks sector eot
      hreads (hcyl ▸ hsector)
    exact ⟨readying b, left, hlength, hdata, readying_ready drive hready, rfl, rfl⟩
  | some bytes =>
    obtain ⟨dma, hstore, hdma⟩ := Dma8237.store_all ((readying b).dma 0) 0
      b.ram (readying_channel b) hready.dma rfl (by decide) bytes.2 (by simp [bytes.2])
    obtain ⟨left, hlength, hdata⟩ := FloppyBoard.readData_last disks sector eot
      hreads (hcyl ▸ hsector) hstore
    refine ⟨{ readying b with dma := Function.update (readying b).dma 0 dma
                              ram := blit b.ram 0x1000 bytes }, left, hlength, hdata, ?_,
      rfl, rfl⟩
    exact { readying_ready drive hready with dma := by simpa using hdma }

section Commands

variable (hlatency : ∀ k, latency k < 500)
include hlatency

/-- The reply to an interrupt. -/
theorem senseInterrupt_acts {st0 cyl : Byte} {rest : List (List Byte)} (henabled : b.enabled)
    (hphase : b.phase = .command []) (hpending : b.pending = [st0, cyl] :: rest) :
    Acts (look 500) (senseInterrupt (ports disks latency)) b (st0, cyl)
      { b with pending := rest } := by
  have hsense : b.accept disks 0x08 = { b with phase := .result [st0, cyl], pending := rest } := by
    simp [FloppyBoard.accept, hphase, FloppyBoard.commandLength, FloppyBoard.execute,
      FloppyBoard.sense, hpending]
  have hst0 : Acts (look 500) (readFifo (ports disks latency))
      { b with phase := .result [st0, cyl], pending := rest } st0
      { b with phase := .result [cyl], pending := rest } :=
    (readFifo_acts disks hlatency (by exact henabled) rfl).congr rfl
  have hcyl : Acts (look 500) (readFifo (ports disks latency))
      { b with phase := .result [cyl], pending := rest } cyl { b with pending := rest } :=
    (readFifo_acts disks hlatency (by exact henabled) rfl).congr (by rw [FloppyBoard.drop, if_pos rfl, ← hphase])
  exact ((sendCommand_acts disks hlatency henabled hphase 0x08).congr hsense).bind <|
    hst0.bind <| hcyl.bind <| .pure _

/-- The reply when there was no interrupt. -/
theorem senseInterrupt_idle (henabled : b.enabled) (hphase : b.phase = .command [])
    (hpending : b.pending = []) :
    Acts (look 500) (senseInterrupt (ports disks latency)) b (0x80, 0xFF) b := by
  have hsense : b.accept disks 0x08 = { b with phase := .result [0x80] } := by
    simp [FloppyBoard.accept, hphase, FloppyBoard.commandLength, FloppyBoard.execute,
      FloppyBoard.sense, hpending]
  have hst0 : Acts (look 500) (readFifo (ports disks latency))
      { b with phase := .result [0x80] } 0x80 b :=
    (readFifo_acts disks hlatency (by exact henabled) rfl).congr (by rw [FloppyBoard.drop, if_pos rfl, ← hphase])
  exact ((sendCommand_acts disks hlatency henabled hphase 0x08).congr hsense).bind <|
    hst0.bind <| (readFifo_idle disks henabled hphase).bind <| .pure _

/-- A motor is turned on or off. -/
theorem controlMotor_acts (enable : Bool) (henabled : b.enabled) : ∃ dor : Byte,
    Acts (look 500) (controlMotor (ports disks latency) drive enable) b ⟨⟩ { b with dor := dor } ∧
      if enable then MotorOn drive dor else dor = 0x0C := by
  obtain ⟨motor, hmotor, hon⟩ := motorMask_spec drive
  have hacts : ∀ value : Byte, value.toNat.testBit 2 →
      Acts (look 500) (writeDor (ports disks latency) value) b ⟨⟩ { b with dor := value } :=
    fun value hvalue => (FloppyMachine.outb_acts hlatency (by decide)).congr
      (b.writeDor_enabled henabled hvalue)
  rw [controlMotor, hmotor]
  cases enable with
  | true => exact ⟨_, hacts _ hon.enabled, hon⟩
  | false => exact ⟨_, hacts 0x0C (by decide), rfl⟩

/-- A command that moves the heads, with the wait for its end. -/
theorem arrive_acts {d track : Nat} {st0 pcn : Byte} {commands : List Byte} (hidle : Idle b)
    (hne : commands ≠ [])
    (hlength : commands.length = FloppyBoard.commandLength (commands.headD 0))
    (hexecute : ∀ phase, ({ b with phase := phase }).execute disks commands =
      b.arrive d track st0 pcn) {α : Type} {f : Byte × Byte → Io FloppyMachine α} {a : α}
    {b' : FloppyBoard} (hrest : Acts (look 500) (f (st0, pcn)) (moved d track pcn b) a b') :
    Acts (look 500) (do
      sendCommands (ports disks latency) commands
      waitForIrq (ports disks latency)
      f (← senseInterrupt (ports disks latency))) b a b' := by
  obtain ⟨phase, hsend⟩ := sendCommands_acts disks hlatency commands hidle.enabled
    hidle.phase hne hlength
  rw [List.nil_append, hexecute] at hsend
  have hwait : Acts (look 500) (waitForIrq (ports disks latency)) (b.arrive d track st0 pcn) ⟨⟩
      { moved d track pcn b with pending := [[st0, pcn]] } := by
    refine (FloppyMachine.await_acts ?_).congr ?_
    · simp [FloppyBoard.arrive, hidle.gate]
    · simp [FloppyBoard.arrive, moved, hidle.pending, hidle.phase, hidle.fired]
  have hsense := senseInterrupt_acts disks hlatency
    (b := { moved d track pcn b with pending := [[st0, pcn]] }) hidle.enabled hidle.phase rfl
  have hback : { moved d track pcn b with pending := [] } = moved d track pcn b := by
    simp [moved, hidle.pending]
  exact hsend.bind <| hwait.bind <| (hsense.congr hback).bind hrest

/-- A drive that turns is on track 0 then. -/
theorem recalibrateLoop_acts (hidle : Idle b) (hspins : b.spins drive.1.toNat)
    (htrack : b.track drive.1.toNat ≤ 79) (n : Nat) :
    Acts (look 500) (recalibrateLoop (ports disks latency) drive (n + 1)) b 0
      { moved drive.1.toNat 0 0 b with dor := 0x0C } := by
  have hexecute : ∀ phase, ({ b with phase := phase }).execute disks [0x07, drive] =
      b.arrive drive.1.toNat 0 (0x20 ||| drive.1.toNat.toUInt8) 0 := by
    intro phase
    have hspins' : ({ b with phase := phase } : FloppyBoard).spins drive.1.toNat = true := hspins
    have hzero : b.track drive.1.toNat - 79 = 0 := Nat.sub_eq_zero_of_le htrack
    simp [FloppyBoard.execute, drive_mod, FloppyBoard.recalibrate, hspins', hzero,
      FloppyBoard.arrive, FloppyBoard.gate]
  obtain ⟨dor, hoff, rfl⟩ := controlMotor_acts disks drive
    (b := moved drive.1.toNat 0 0 b) hlatency false hidle.enabled
  exact arrive_acts disks hlatency hidle (List.cons_ne_nil _ _) rfl hexecute (hoff.bind (.pure _))

theorem recalibrate_acts (hidle : Idle b) (htrack : b.track drive.1.toNat ≤ 79) :
    Acts (look 500) (recalibrate (ports disks latency) drive) b 0
      { moved drive.1.toNat 0 0 b with dor := 0x0C } := by
  obtain ⟨dor, hmotor, hon⟩ := controlMotor_acts disks drive hlatency true
    hidle.enabled
  have hloop := recalibrateLoop_acts disks drive (b := { b with dor := dor })
    hlatency ⟨hon.enabled, hon.gate, hidle.phase, hidle.pending, hidle.fired⟩
    (by simp [FloppyBoard.spins, hon.selected, hon.motor]) htrack 9
  rw [recalibrate, if_neg (UInt8.not_lt.mpr drive.2)]
  exact hmotor.bind hloop

/-- A seek succeeds at once. -/
theorem seek_acts (hidle : Idle b) (hspins : b.spins drive.1.toNat)
    (hpcn : (b.pcn drive.1.toNat).toNat = b.track drive.1.toNat) {cyl : Byte} (head : Byte)
    (hcyl : cyl.toNat < 80) :
    Acts (look 500) (seek (ports disks latency) drive cyl head) b 0
      (moved drive.1.toNat cyl.toNat cyl b) := by
  have hexecute : ∀ phase,
      ({ b with phase := phase }).execute disks [0x0F, head <<< 2 ||| drive, cyl] =
        b.arrive drive.1.toNat cyl.toNat (0x20 ||| drive.1.toNat.toUInt8) cyl := by
    intro phase
    have hspins' : ({ b with phase := phase } : FloppyBoard).spins drive.1.toNat = true := hspins
    have htrack : min 79 (b.track drive.1.toNat + cyl.toNat - b.track drive.1.toNat) =
        cyl.toNat := by omega
    rw [FloppyBoard.execute, if_neg (by decide), headDrive_mod, FloppyBoard.seek]
    simp only [hspins', if_true, hpcn, htrack]
    rfl
  refine arrive_acts disks hlatency hidle (List.cons_ne_nil _ _) rfl hexecute ?_
  show Acts (look 500) (if cyl = cyl then _ else _) _ _ _
  rw [if_pos rfl]
  exact .pure _

/-- The four interrupts after a reset are all that is left to acknowledge. -/
theorem senseInterrupts_acts (replies : List (Byte × Byte)) (henabled : b.enabled)
    (hphase : b.phase = .command []) (hpending : b.pending = replies.map fun r => [r.1, r.2]) :
    Acts (look 500) (senseInterrupts (ports disks latency) replies.length) b ⟨⟩
      { b with pending := [] } := by
  induction replies generalizing b with
  | nil => exact (Acts.pure _).congr (by rw [← hpending.trans List.map_nil])
  | cons reply replies ih =>
    have hsense := senseInterrupt_acts disks hlatency henabled hphase hpending
    exact hsense.bind (ih (b := { b with pending := replies.map fun r => [r.1, r.2] }) henabled
      hphase rfl)

/-- SPECIFY, with the DMA bit of the driver. -/
theorem fixDrivedata_acts (henabled : b.enabled) (hphase : b.phase = .command []) :
    Acts (look 500) (fixDrivedata (ports disks latency) 3 16 240 true) b ⟨⟩
      { b with nonDma := false } := by
  obtain ⟨phase, hsend⟩ := sendCommands_acts disks hlatency [0x03, 0x30, 0x20] henabled
    hphase (List.cons_ne_nil _ _) rfl
  exact hsend.congr (by rw [hphase]; rfl)

/-- **A reset, from any state of the controller.** -/
theorem reset_ready (htrack : b.track drive.1.toNat ≤ 79) (hdma : (b.dma 0).disabled = false) :
    ∃ b', Acts (look 500) (reset (ports disks latency) drive) b ⟨⟩ b' ∧ Ready drive b' ∧
      b'.dor = 0x0C ∧ b'.ram = b.ram := by
  have hdisable : Acts (look 500) (disable (ports disks latency)) b ⟨⟩ (b.writeDor 0) :=
    FloppyMachine.outb_acts hlatency (by decide)
  have henable : Acts (look 500) (enable (ports disks latency)) (b.writeDor 0) ⟨⟩
      ((b.writeDor 0).writeDor 0x0C) :=
    FloppyMachine.outb_acts hlatency (by decide)
  have hinterrupt : (b.writeDor 0).writeDor 0x0C = { awake b with fired := true } := by
    have hzero : (0 : Byte).toNat.testBit 2 = false := by decide
    simp only [FloppyBoard.writeDor, FloppyBoard.enabled, hzero, dorOff_bits, awake]
    simp
  have hwait : Acts (look 500) (waitForIrq (ports disks latency))
      { awake b with fired := true } ⟨⟩ (awake b) :=
    FloppyMachine.await_acts rfl
  have henabled : (awake b).enabled := dorOff_bits.1
  have hgate : (awake b).gate := dorOff_bits.2
  have hsense := senseInterrupts_acts disks hlatency (b := awake b)
    [(0xC0, 0), (0xC1, 0), (0xC2, 0), (0xC3, 0)] henabled rfl rfl
  have hrate : Acts (look 500) (writeCcr (ports disks latency) 0x00)
      { awake b with pending := [] } ⟨⟩ { awake b with pending := [], rate := 0 } :=
    FloppyMachine.outb_acts hlatency (by decide)
  have hspecify := fixDrivedata_acts disks hlatency
    (b := { awake b with pending := [], rate := 0 }) henabled rfl
  have hrecalibrate := recalibrate_acts disks drive hlatency
    (b := { awake b with pending := [], rate := 0, nonDma := false })
    ⟨henabled, hgate, rfl, rfl, rfl⟩ htrack
  refine ⟨_, hdisable.bind <| (henable.congr hinterrupt).bind <| hwait.bind <| hsense.bind <| hrate.bind <|
    hspecify.bind <| hrecalibrate.bind <| .pure _, ?_, rfl, rfl⟩
  exact ⟨⟨henabled, hgate, rfl, rfl, rfl⟩, rfl, rfl, by simp [moved], hdma⟩

/-- The bytes of a result, which the driver drops. -/
theorem readFifos_acts {n : Nat} {left : List Byte} (henabled : b.enabled)
    (hlength : left.length = n + 1) :
    Acts (look 500) (readFifos (ports disks latency) (n + 1)) { b with phase := .result left } ⟨⟩
      { b with phase := .command [] } := by
  induction n generalizing left with
  | zero =>
    obtain ⟨value, rfl⟩ := List.length_eq_one_iff.mp hlength
    exact ((readFifo_acts disks hlatency (by exact henabled) rfl).congr rfl).bind (.pure _)
  | succ n ih =>
    obtain ⟨value, rest, rfl⟩ := List.exists_cons_of_length_eq_add_one hlength
    have hrest : rest.length = n + 1 := Nat.succ.inj hlength
    have hne : rest ≠ [] := fun h => by simp [h] at hrest
    have hdrop : ({ b with phase := .result (value :: rest) } : FloppyBoard).drop rest =
        { b with phase := .result rest } := by
      rw [FloppyBoard.drop, if_neg hne]
    exact ((readFifo_acts disks hlatency (by exact henabled) rfl).congr hdrop).bind (ih hrest)

theorem initDma_acts :
    Acts (look 500) (initDma (ports disks latency) 511 false) b ⟨⟩ (readying b) :=
  Dma.prepare_acts hlatency (by decide) 0x1000 511 0 false

/-- The end of a read: the interrupt, the result and the acknowledgement. -/
theorem readEnd_acts {left : List Byte} (hlength : left.length = 7) (hidle : Idle b) :
    Acts (look 500) (do
      waitForIrq (ports disks latency)
      readFifos (ports disks latency) 7
      let _ ← senseInterrupt (ports disks latency))
      { b with phase := .result left, fired := true } ⟨⟩ b := by
  have hback : { b with phase := .command [], fired := false } = b := by
    rw [← hidle.phase, ← hidle.fired]
  have hwait : Acts (look 500) (waitForIrq (ports disks latency))
      { b with phase := .result left, fired := true } ⟨⟩
      { b with phase := .result left, fired := false } :=
    FloppyMachine.await_acts rfl
  have hresult := readFifos_acts disks hlatency (b := { b with fired := false })
    hidle.enabled hlength
  exact hwait.bind <| (hresult.congr hback).bind <|
    (senseInterrupt_idle disks hlatency hidle.enabled hidle.phase hidle.pending).bind (.pure _)

theorem readSectorChs_acts (cyl head sector : Byte) (hready : Ready drive b)
    (hspins : b.spins drive.1.toNat) (hcyl : cyl.toNat = b.track drive.1.toNat)
    (hhead : head.toNat < 2) :
    ∃ b', Acts (look 500) (readSectorChs (ports disks latency) drive head cyl sector) b ⟨⟩ b' ∧
      Ready drive b' ∧ b'.dor = b.dor ∧
      b'.ram = ((disks drive.1.toNat).sector cyl.toNat head.toNat sector.toNat).elim b.ram
        fun bytes => blit b.ram 0x1000 bytes := by
  obtain ⟨phase, hsend⟩ := sendCommands_acts disks hlatency (b := readying b)
    [0x06 ||| 0x40 ||| 0x80 ||| 0x20, head <<< 2 ||| drive, cyl, head, sector, 0x02,
      if 18 ≤ sector.toNat + 1 then 18 else sector + 1, 0x1B, 0xff]
    hready.enabled hready.phase (List.cons_ne_nil _ _)
    (by decide : 9 = FloppyBoard.commandLength (0x06 ||| 0x40 ||| 0x80 ||| 0x20))
  obtain ⟨b', left, hlength, hexecute, hready', hdor, hram⟩ := execute_read disks drive cyl head
    sector (if 18 ≤ sector.toNat + 1 then 18 else sector + 1) hready hspins hcyl hhead phase
  refine ⟨b', (initDma_acts disks hlatency).bind <| (hsend.congr hexecute).bind <|
    readEnd_acts disks hlatency hlength hready'.toIdle, hready', hdor, hram⟩

end Commands

end FdcPorts

end Leenix
