import Leenix.Machine

/-!
# The floppy disk controller (driver/fdc.c)

The controller may answer anything: `answers` are the values that the reads of its status
and data ports return, in this order, whichever port is read. The interrupts that the
driver waits for arrive. The time that `sleep` takes and the ports of the DMA controller
are not modelled; what the transfers leave in the DMA buffer is given.

`_fdc_read_fifo` returns 0 when it times out. The model keeps the two apart (`none`), and
returns the statuses that the source drops, in `SectorRead`.

- `sendCommand_run`, `readFifo_run`: the two accesses to the data register, by the first
  status from a position on that says the register is ready.
- `seekLoop_cases`: the attempts of a seek.
-/

namespace Leenix

namespace Fdc

/-- The ports that the driver writes to. -/
inductive Port
  | dor
  | ccr
  | fifo
deriving DecidableEq

/-- What the controller answers, how much of it was read, what was written, and the buffer
of the DMA transfers. -/
structure Controller where
  answers : Nat → Byte
  reads : Nat
  writes : List (Port × Byte)
  dmaBuffer : List Byte

abbrev Driver := StateM Controller

/-- The number of the current drive. -/
abbrev Drive := { d : Byte // d ≤ 3 }

/-! ## The driver -/

def inb : Driver Byte := fun c => (c.answers c.reads, { c with reads := c.reads + 1 })

def outb (value : Byte) (port : Port) : Driver Unit := fun c =>
  ((), { c with writes := c.writes ++ [(port, value)] })

/-- `_fdc_get_status` (fdc.c:137–139). -/
def getStatus : Driver Byte := inb

/-- `_fdc_write_dor` (fdc.c:141–143). -/
def writeDor (value : Byte) : Driver Unit := outb value .dor

/-- `_fdc_write_ccr` (fdc.c:145–147). -/
def writeCcr (value : Byte) : Driver Unit := outb value .ccr

/-- The loop of the next two functions, `n` turns left: whether the data register is ready. -/
def waitReady : Nat → Driver Bool
  | 0 => pure false
  | n + 1 => do if (← getStatus) &&& 0x80 ≠ 0 then return true else waitReady n

/-- `_fdc_send_command` (fdc.c:149–162). -/
def sendCommand (command : Byte) : Driver Int := do
  if ← waitReady 500 then
    outb command .fifo
    return 0
  else return -1

/-- `_fdc_read_fifo` (fdc.c:164–174). -/
def readFifo : Driver (Option Byte) := do
  if ← waitReady 500 then return some (← inb) else return none

/-- `_fdc_disable` (fdc.c:176–179). -/
def disable : Driver Unit := writeDor 0x00

/-- `_fdc_enable` (fdc.c:181–185). -/
def enable : Driver Unit := writeDor (0x04 ||| 0x08)

/-- The `switch` of `_fdc_control_motor`. -/
def motorMask : Byte → Option Byte
  | 0 => some 0x10
  | 1 => some 0x20
  | 2 => some 0x40
  | 3 => some 0x80
  | _ => none

/-- `_fdc_control_motor` (fdc.c:187–207). -/
def controlMotor (drive : Byte) (enable : Bool) : Driver Unit :=
  match motorMask drive with
  | none => return
  | some motor => writeDor (if enable then motor ||| drive ||| 0x08 ||| 0x04 else 0x04 ||| 0x08)

/-- `_fdc_wait_for_irq` (fdc.c:218–225). -/
def waitForIrq : Driver Unit := return

/-- Consecutive calls of `_fdc_send_command`, with what they return. -/
def sendCommands : List Byte → Driver (List Int)
  | [] => return []
  | command :: commands => do
    let code ← sendCommand command
    return code :: (← sendCommands commands)

/-- Consecutive calls of `_fdc_read_fifo`. -/
def readFifos : Nat → Driver (List (Option Byte))
  | 0 => return []
  | n + 1 => do
    let value ← readFifo
    return value :: (← readFifos n)

/-- `_fdc_sense_interrupt` (fdc.c:271–280): `*st0` and `*cyl`. -/
def senseInterrupt : Driver (Option Byte × Option Byte) := do
  let _ ← sendCommand 0x08
  let st0 ← readFifo
  let cyl ← readFifo
  return (st0, cyl)

/-- `_fdc_read_sector_chs` (fdc.c:229–269): what the nine calls of `_fdc_send_command`
return, and the seven result bytes. -/
def readSectorChs (currentDrive head track sector : Byte) :
    Driver (List Int × List (Option Byte)) := do
  let codes ← sendCommands [0x06 ||| 0x40 ||| 0x80 ||| 0x20, head <<< 2 ||| currentDrive, track,
    head, sector, 0x02, if 18 ≤ sector.toNat + 1 then 18 else sector + 1, 0x1B, 0xff]
  waitForIrq
  let results ← readFifos 7
  let _ ← senseInterrupt
  return (codes, results)

/-- `_fdc_fix_drivedata` (fdc.c:281–296). -/
def fixDrivedata (steprate loadtime unloadtime : UInt32) (usedma : Bool) : Driver Unit := do
  let _ ← sendCommands [0x03,
    ((steprate &&& 0x0F) <<< 4).toUInt8 ||| (unloadtime &&& 0x0F).toUInt8,
    ((loadtime &&& 0x7F) <<< 1).toUInt8 ||| if usedma then 0 else 1]

/-- The loop of `_fdc_recalibrate`, `n` turns left (fdc.c:311–326). -/
def recalibrateLoop (drive : Byte) : Nat → Driver Int
  | 0 => do
    controlMotor drive false
    return -1
  | n + 1 => do
    let _ ← sendCommands [0x07, drive]
    waitForIrq
    let (_, cyl) ← senseInterrupt
    if cyl.getD 0 = 0 then
      controlMotor drive false
      return 0
    else recalibrateLoop drive n

/-- `_fdc_recalibrate` (fdc.c:298–327). -/
def recalibrate (drive : Byte) : Driver Int := do
  if 3 < drive then return -1
  else
    controlMotor drive true
    recalibrateLoop drive 10

/-- The loop of `_fdc_seek`, `n` turns left (fdc.c:332–350), with the reply that ended it. -/
def seekLoop (currentDrive cyl head : Byte) : Nat → Driver (Int × Option Byte)
  | 0 => return (-1, none)
  | n + 1 => do
    let _ ← sendCommands [0x0F, head <<< 2 ||| currentDrive, cyl]
    waitForIrq
    let (_, cylReturned) ← senseInterrupt
    if cylReturned.getD 0 = cyl then return (0, cylReturned)
    else seekLoop currentDrive cyl head n

/-- `_fdc_seek` (fdc.c:329–352). -/
def seek (currentDrive cyl head : Byte) : Driver (Int × Option Byte) :=
  seekLoop currentDrive cyl head 10

/-- The loop of `fdc_reset`, `n` turns left (fdc.c:383–386). -/
def senseInterrupts : Nat → Driver Unit
  | 0 => return
  | n + 1 => do
    let _ ← senseInterrupt
    senseInterrupts n

/-- `fdc_reset` (fdc.c:375–391). -/
def reset (currentDrive : Drive) : Driver Unit := do
  disable
  enable
  waitForIrq
  senseInterrupts 4
  writeCcr 0x00
  fixDrivedata 3 16 240 true
  let _ ← recalibrate currentDrive

/-- `fdc_lba_to_chs` (fdc.c:421–433): cylinder, head and sector. -/
def lbaToChs (lba : UInt32) : UInt32 × UInt32 × UInt32 :=
  ((lba / (18 * 2)).toUInt8.toUInt32, lba % (2 * 18) / 18, lba % (2 * 18) % 18 + 1)

/-- What `fdc_read_sector` returns and stores in `buff`, and what it learned on the way:
the reply that ended the seek, and what `_fdc_read_sector_chs` did. -/
structure SectorRead where
  result : Int
  buff : Option (List Byte)
  seekReply : Option Byte
  codes : List Int
  results : List (Option Byte)

/-- `fdc_read_sector` (fdc.c:393–419). -/
def readSector (currentDrive : Drive) (sectorLBA : UInt32) (buff : Option (List Byte)) :
    Driver SectorRead := do
  let (cylinder, head, sector) := lbaToChs sectorLBA
  controlMotor currentDrive true
  let (code, seekReply) ← seek currentDrive cylinder.toUInt8 head.toUInt8
  if code ≠ 0 then return ⟨-1, buff, seekReply, [], []⟩
  else
    let (codes, results) ← readSectorChs currentDrive head.toUInt8 cylinder.toUInt8 sector.toUInt8
    controlMotor currentDrive false
    match buff with
    | some bytes =>
      return ⟨0, some (overlay bytes ((← get).dmaBuffer.take 512)), seekReply, codes, results⟩
    | none => return ⟨-1, none, seekReply, codes, results⟩

/-- `fdc_set_drive` (fdc.c:435–443): the current drive after. -/
def setDrive (currentDrive : Drive) (drive : Byte) : Drive :=
  if h : drive ≤ 3 then ⟨drive, h⟩ else currentDrive

/-! ## Accesses to the data register -/

section Answers

variable (a : Nat → Byte) (n : Nat)

/-- The first status from position `n` on, among those that are polled, that says that the
data register is ready. -/
def firstReady : Option Nat := (List.range' n 500).find? fun i => a i &&& 0x80 ≠ 0

/-- What `_fdc_send_command` returns. -/
def sendCode : Int := if (firstReady a n).isSome then 0 else -1

/-- The position behind the polls. -/
def afterSend : Nat :=
  match firstReady a n with
  | some i => i + 1
  | none => n + 500

/-- The position behind the polls and the value. -/
def afterRead : Nat :=
  match firstReady a n with
  | some i => i + 2
  | none => n + 500

/-- The value that is read, if the register gets ready. -/
def reply : Option Byte := (firstReady a n).map fun i => a (i + 1)

/-- The position behind an attempt of a seek. -/
def nextAttempt : Nat := afterRead a (afterRead a ((afterSend a)^[4] n))

/-- The cylinder that the attempt with index `k` is told, if it is told one. -/
def seekReply (k : Nat) : Option Byte :=
  reply a (afterRead a ((afterSend a)^[4] ((nextAttempt a)^[k] n)))

/-- The attempt with index `k` is the first one that is told the cylinder `cyl`. A time-out
counts as cylinder 0. -/
def EndsAt (cyl : Byte) (k : Nat) : Prop :=
  (seekReply a n k).getD 0 = cyl ∧ ∀ i < k, (seekReply a n i).getD 0 ≠ cyl

end Answers

/-- The value that was last written to the digital output register. -/
def Controller.dor (c : Controller) : Option Byte :=
  (c.writes.filter (·.1 = .dor)).getLast?.map Prod.snd

/-- The four motor bits of that value are clear. -/
def Controller.MotorOff (c : Controller) : Prop := ∃ value, c.dor = some value ∧ value &&& 0xF0 = 0

section Run

variable {α β : Type} (c : Controller)

@[simp] theorem run_bind (m : Driver α) (f : α → Driver β) :
    (m >>= f) c = f (m c).1 (m c).2 := rfl

@[simp] theorem run_pure (x : α) : (pure x : Driver α) c = (x, c) := rfl

@[simp] theorem run_map (f : α → β) (m : Driver α) : (f <$> m) c = (f (m c).1, (m c).2) := rfl

@[simp] theorem run_get : (get : Driver Controller) c = (c, c) := rfl

@[simp] theorem run_ite (p : Prop) [Decidable p] (m m' : Driver α) :
    (if p then m else m') c = if p then m c else m' c := by
  split <;> rfl

@[simp] theorem outb_dor (value : Byte) (port : Port) :
    (outb value port c).2.dor = if port = .dor then some value else c.dor := by
  by_cases hport : port = .dor <;> simp [outb, Controller.dor, List.filter_append, hport]

theorem waitReady_run (k : Nat) : waitReady k c =
    match (List.range' c.reads k).find? fun i => c.answers i &&& 0x80 ≠ 0 with
    | some i => (true, { c with reads := i + 1 })
    | none => (false, { c with reads := c.reads + k }) := by
  induction k generalizing c with
  | zero => rfl
  | succ k ih =>
    rw [waitReady, run_bind, List.range'_succ, List.find?_cons]
    by_cases hready : c.answers c.reads &&& 0x80 = 0
    · have hnext : c.reads + 1 + k = c.reads + (k + 1) := Nat.add_right_comm c.reads 1 k
      simp [getStatus, inb, hready, ih, hnext]
    · simp [getStatus, inb, hready]

theorem sendCommand_run (command : Byte) : sendCommand command c =
    match firstReady c.answers c.reads with
    | some i => (0, { c with reads := i + 1, writes := c.writes ++ [(.fifo, command)] })
    | none => (-1, { c with reads := c.reads + 500 }) := by
  rw [sendCommand, run_bind, waitReady_run, firstReady]
  cases (List.range' c.reads 500).find? _ with
  | some i => rfl
  | none => rfl

theorem readFifo_run : readFifo c =
    match firstReady c.answers c.reads with
    | some i => (some (c.answers (i + 1)), { c with reads := i + 2 })
    | none => (none, { c with reads := c.reads + 500 }) := by
  rw [readFifo, run_bind, waitReady_run, firstReady]
  cases (List.range' c.reads 500).find? _ with
  | some i => rfl
  | none => rfl

@[simp] theorem sendCommand_code (command : Byte) : (sendCommand command c).1 =
    sendCode c.answers c.reads := by
  rw [sendCommand_run, sendCode]
  cases firstReady c.answers c.reads <;> rfl

@[simp] theorem sendCommand_reads (command : Byte) :
    (sendCommand command c).2.reads = afterSend c.answers c.reads := by
  rw [sendCommand_run, afterSend]
  cases firstReady c.answers c.reads <;> rfl

@[simp] theorem sendCommand_answers (command : Byte) :
    (sendCommand command c).2.answers = c.answers := by
  rw [sendCommand_run]
  cases firstReady c.answers c.reads <;> rfl

@[simp] theorem sendCommand_dor (command : Byte) : (sendCommand command c).2.dor = c.dor := by
  rw [sendCommand_run]
  cases firstReady c.answers c.reads with
  | some i => simp [Controller.dor, List.filter_append]
  | none => rfl

@[simp] theorem readFifo_value : (readFifo c).1 = reply c.answers c.reads := by
  rw [readFifo_run, reply]
  cases firstReady c.answers c.reads <;> rfl

@[simp] theorem readFifo_reads : (readFifo c).2.reads = afterRead c.answers c.reads := by
  rw [readFifo_run, afterRead]
  cases firstReady c.answers c.reads <;> rfl

@[simp] theorem readFifo_answers : (readFifo c).2.answers = c.answers := by
  rw [readFifo_run]
  cases firstReady c.answers c.reads <;> rfl

@[simp] theorem readFifo_dor : (readFifo c).2.dor = c.dor := by
  rw [readFifo_run]
  cases firstReady c.answers c.reads <;> rfl

@[simp] theorem sendCommands_codes (commands : List Byte) : (sendCommands commands c).1 =
    (List.range commands.length).map fun j =>
      sendCode c.answers ((afterSend c.answers)^[j] c.reads) := by
  induction commands generalizing c with
  | nil => rfl
  | cons command commands ih =>
    simp [sendCommands, ih, List.range_succ_eq_map]

@[simp] theorem sendCommands_reads (commands : List Byte) : (sendCommands commands c).2.reads =
    (afterSend c.answers)^[commands.length] c.reads := by
  induction commands generalizing c with
  | nil => rfl
  | cons command commands ih => simp [sendCommands, ih]

@[simp] theorem sendCommands_answers (commands : List Byte) :
    (sendCommands commands c).2.answers = c.answers := by
  induction commands generalizing c with
  | nil => rfl
  | cons command commands ih => simp [sendCommands, ih]

@[simp] theorem sendCommands_dor (commands : List Byte) :
    (sendCommands commands c).2.dor = c.dor := by
  induction commands generalizing c with
  | nil => rfl
  | cons command commands ih => simp [sendCommands, ih]

@[simp] theorem readFifos_dor (n : Nat) : (readFifos n c).2.dor = c.dor := by
  induction n generalizing c with
  | zero => rfl
  | succ n ih => simp [readFifos, ih]

@[simp] theorem senseInterrupt_dor : (senseInterrupt c).2.dor = c.dor := by
  simp [senseInterrupt]

@[simp] theorem readFifos_succ (n : Nat) :
    (readFifos (n + 1) c).1 = reply c.answers c.reads :: (readFifos n (readFifo c).2).1 := by
  simp [readFifos]

/-- One attempt of a seek. -/
theorem seekLoop_succ (currentDrive cyl head : Byte) (k : Nat) :
    ∃ c', c'.answers = c.answers ∧ c'.reads = nextAttempt c.answers c.reads ∧ c'.dor = c.dor ∧
      seekLoop currentDrive cyl head (k + 1) c =
        if (seekReply c.answers c.reads 0).getD 0 = cyl then
          ((0, seekReply c.answers c.reads 0), c')
        else seekLoop currentDrive cyl head k c' := by
  refine ⟨(senseInterrupt (sendCommands [0x0F, head <<< 2 ||| currentDrive, cyl] c).2).2,
    ?_, ?_, ?_, ?_⟩
  · simp [senseInterrupt]
  · simp [senseInterrupt, nextAttempt]
  · simp
  · simp [seekLoop, waitForIrq, senseInterrupt, seekReply]

@[simp] theorem seekLoop_dor (currentDrive cyl head : Byte) (k : Nat) :
    (seekLoop currentDrive cyl head k c).2.dor = c.dor := by
  induction k generalizing c with
  | zero => rfl
  | succ k ih =>
    obtain ⟨c', -, -, hdor, hloop⟩ := seekLoop_succ c currentDrive cyl head k
    rw [hloop]
    split
    · exact hdor
    · exact (ih c').trans hdor

@[simp] theorem seekLoop_answers (currentDrive cyl head : Byte) (k : Nat) :
    (seekLoop currentDrive cyl head k c).2.answers = c.answers := by
  induction k generalizing c with
  | zero => rfl
  | succ k ih =>
    obtain ⟨c', hanswers, -, -, hloop⟩ := seekLoop_succ c currentDrive cyl head k
    rw [hloop]
    split
    · exact hanswers
    · exact (ih c').trans hanswers

/-- **The attempts of a seek**: it ends with the first one that is told the cylinder. -/
theorem seekLoop_cases (currentDrive cyl head : Byte) (k : Nat) :
    (∃ j < k, EndsAt c.answers c.reads cyl j ∧
      (seekLoop currentDrive cyl head k c).1 = (0, seekReply c.answers c.reads j) ∧
      (seekLoop currentDrive cyl head k c).2.reads =
        (nextAttempt c.answers)^[j + 1] c.reads) ∨
    (∀ j < k, (seekReply c.answers c.reads j).getD 0 ≠ cyl) ∧
      (seekLoop currentDrive cyl head k c).1 = (-1, none) := by
  induction k generalizing c with
  | zero => exact .inr ⟨fun j hj => absurd hj (Nat.not_lt_zero j), rfl⟩
  | succ k ih =>
    obtain ⟨c', hanswers, hreads, -, hloop⟩ := seekLoop_succ c currentDrive cyl head k
    -- the attempts that are left, seen from the first one
    have hshift : ∀ j, seekReply c'.answers c'.reads j = seekReply c.answers c.reads (j + 1) := by
      intro j
      rw [hanswers, hreads]
      rfl
    rw [hloop]
    by_cases hfirst : (seekReply c.answers c.reads 0).getD 0 = cyl
    · rw [if_pos hfirst]
      have hends : EndsAt c.answers c.reads cyl 0 :=
        ⟨hfirst, fun i hi => absurd hi (Nat.not_lt_zero i)⟩
      exact .inl ⟨0, Nat.succ_pos k, hends, rfl, hreads⟩
    rw [if_neg hfirst]
    rcases ih c' with ⟨j, hj, ⟨hcyl, hbefore⟩, hresult, hend⟩ | ⟨hall, hresult⟩
    · refine .inl ⟨j + 1, Nat.succ_lt_succ hj, ⟨hshift j ▸ hcyl, fun i hi => ?_⟩,
        hshift j ▸ hresult, ?_⟩
      · cases i with
        | zero => exact hfirst
        | succ i => exact hshift i ▸ hbefore i (Nat.lt_of_succ_lt_succ hi)
      · rw [hend, hanswers, hreads, ← Function.iterate_succ_apply]
    · refine .inr ⟨fun j hj => ?_, hresult⟩
      cases j with
      | zero => exact hfirst
      | succ j => exact hshift j ▸ hall j (Nat.lt_of_succ_lt_succ hj)

/-! ## Reading a sector -/

theorem readSectorChs_codes (currentDrive head track sector : Byte) :
    (readSectorChs currentDrive head track sector c).1.1 =
      (List.range 9).map fun j => sendCode c.answers ((afterSend c.answers)^[j] c.reads) := by
  simp [readSectorChs, waitForIrq]

theorem readSectorChs_st0 (currentDrive head track sector : Byte) :
    (readSectorChs currentDrive head track sector c).1.2.head? =
      some (reply c.answers ((afterSend c.answers)^[9] c.reads)) := by
  simp [readSectorChs, waitForIrq]

@[simp] theorem readSectorChs_dor (currentDrive head track sector : Byte) :
    (readSectorChs currentDrive head track sector c).2.dor = c.dor := by
  simp [readSectorChs, waitForIrq]

variable (drive : Drive) (lba : UInt32) (buff : Option (List Byte))

theorem drive_cases : drive.1 = 0 ∨ drive.1 = 1 ∨ drive.1 = 2 ∨ drive.1 = 3 := by
  have hle : drive.1.toNat ≤ 3 := UInt8.le_iff_toNat_le.mp drive.2
  simp only [← UInt8.toNat_inj]
  simp
  omega

@[simp] theorem controlMotor_answers (drive : Byte) (enable : Bool) :
    (controlMotor drive enable c).2.answers = c.answers := by
  rw [controlMotor]
  cases motorMask drive <;> rfl

@[simp] theorem controlMotor_reads (drive : Byte) (enable : Bool) :
    (controlMotor drive enable c).2.reads = c.reads := by
  rw [controlMotor]
  cases motorMask drive <;> rfl

theorem controlMotor_motorOff (enable : Bool) :
    (controlMotor drive enable c).2.MotorOff ↔ enable = false := by
  obtain ⟨drive, hle⟩ := drive
  rcases drive_cases ⟨drive, hle⟩ with rfl | rfl | rfl | rfl <;>
    cases enable <;> simp [controlMotor, motorMask, writeDor, Controller.MotorOff] <;> decide

theorem motorOff_congr {c c' : Controller} (h : c'.dor = c.dor) : c'.MotorOff ↔ c.MotorOff := by
  rw [Controller.MotorOff, Controller.MotorOff, h]

/-- Everything that reading a sector can do: read, after the first attempt of the seek that
is told the cylinder, or give up. -/
theorem readSector_cases :
    (∃ k < 10, EndsAt c.answers c.reads (lba / 36).toUInt8 k ∧
      (readSector drive lba buff c).1.result = (if buff.isSome then 0 else -1) ∧
      (readSector drive lba buff c).1.seekReply = seekReply c.answers c.reads k ∧
      (readSector drive lba buff c).1.codes = (List.range 9).map (fun j => sendCode c.answers
        ((afterSend c.answers)^[j] ((nextAttempt c.answers)^[k + 1] c.reads))) ∧
      (readSector drive lba buff c).1.results.head? = some (reply c.answers
        ((afterSend c.answers)^[9] ((nextAttempt c.answers)^[k + 1] c.reads))) ∧
      (readSector drive lba buff c).2.MotorOff) ∨
    (∀ k < 10, (seekReply c.answers c.reads k).getD 0 ≠ (lba / 36).toUInt8) ∧
      (readSector drive lba buff c).1.result = -1 ∧
      ¬(readSector drive lba buff c).2.MotorOff := by
  have hcyl : (lbaToChs lba).1.toUInt8 = (lba / 36).toUInt8 := UInt8.toUInt8_toUInt32 _
  have hon := controlMotor_motorOff c drive true
  have hseek := seekLoop_cases (controlMotor drive true c).2 drive (lba / 36).toUInt8
    (lbaToChs lba).2.1.toUInt8 10
  have hdor := seekLoop_dor (controlMotor drive true c).2 drive (lba / 36).toUInt8
    (lbaToChs lba).2.1.toUInt8 10
  have hanswers := seekLoop_answers (controlMotor drive true c).2 drive (lba / 36).toUInt8
    (lbaToChs lba).2.1.toUInt8 10
  simp only [controlMotor_answers, controlMotor_reads] at hseek hanswers
  simp only [readSector, run_bind, run_ite, run_pure, seek, hcyl]
  generalize seekLoop _ _ _ 10 _ = outcome at hseek hdor hanswers
  obtain ⟨⟨code, cylReturned⟩, c₁⟩ := outcome
  rcases hseek with ⟨k, hk, hends, hresult, hreads⟩ | ⟨hall, hresult⟩
  · obtain ⟨rfl, rfl⟩ := Prod.mk.inj hresult
    have hoff := fun c => controlMotor_motorOff c drive false
    simp only at hanswers hreads
    left
    refine ⟨k, hk, hends, ?_⟩
    cases buff <;>
      simp [readSectorChs_codes, readSectorChs_st0, hanswers, hreads, hoff]
  · obtain ⟨rfl, rfl⟩ := Prod.mk.inj hresult
    exact .inr ⟨hall, by simp, by simp [motorOff_congr hdor, hon]⟩

end Run

end Fdc

end Leenix
