import Leenix.Lib.Dma8237
import Leenix.Lib.PortIo

/-!
# A board with a floppy disk controller

The 82077 in its PC/AT mode, with four drives of 1.44 MB and the two DMA controllers of a
PC, behind the PC's ports. Of its commands there are SPECIFY, SENSE INTERRUPT
STATUS, RECALIBRATE, SEEK and READ DATA; every other one is taken for an invalid one.

A command takes no time, but every handshake on the data register does: the controller is
busy for any number of looks at its status.

- `FloppyBoard.accept`: a byte of a command, and the command after the last one.
- `FloppyMachine.ports`: the board as a program sees it.
- `FloppyMachine.look`: the board, in a state in which no handshake takes as long as `limit`
  looks.
-/

namespace Leenix

/-- The sectors of a diskette in the order of an image, 18 to a track and 36 to a cylinder.
Some may be unreadable. -/
structure Diskette where
  block : Nat → Option { bytes : List UInt8 // bytes.length = 512 }

/-- A sector by cylinder, head and number. -/
def Diskette.sector (disk : Diskette) (c h s : Nat) :
    Option { bytes : List UInt8 // bytes.length = 512 } :=
  if c < 80 ∧ h < 2 ∧ 1 ≤ s ∧ s ≤ 18 then disk.block ((c * 2 + h) * 18 + (s - 1)) else none

/-- The address that the image has for a block. -/
theorem Diskette.sector_block (disk : Diskette) {n : Nat} (h : n < 2880) :
    disk.sector (n / 36) (n % 36 / 18) (n % 36 % 18 + 1) = disk.block n := by
  have hin : n / 36 < 80 ∧ n % 36 / 18 < 2 ∧ 1 ≤ n % 36 % 18 + 1 ∧ n % 36 % 18 + 1 ≤ 18 := by
    omega
  have hn : (n / 36 * 2 + n % 36 / 18) * 18 + (n % 36 % 18 + 1 - 1) = n := by omega
  rw [Diskette.sector, if_pos hin, hn]

/-- What the controller does with its data register. -/
inductive FloppyPhase
  | command (sent : List UInt8)
  | result (left : List UInt8)
  | executing
deriving DecidableEq

/-- The board. `track` is where the heads of the drives are, `pcn` where the controller takes
them to be, and `pending` what the next SENSE INTERRUPT STATUS commands return. `fired` says
that an interrupt came since the last wait. -/
structure FloppyBoard where
  dor : UInt8
  rate : UInt8
  nonDma : Bool
  phase : FloppyPhase
  track : Nat → Nat
  pcn : Nat → UInt8
  pending : List (List UInt8)
  dma : Nat → Dma8237
  page : Nat → UInt8
  ram : Nat → UInt8
  fired : Bool

namespace FloppyBoard

variable (disks : Nat → Diskette) (b : FloppyBoard)

/-! ## The controller -/

/-- The controller is not held in reset. -/
def enabled : Bool := b.dor.toNat.testBit 2

/-- Interrupts and DMA requests are let through. -/
def gate : Bool := b.dor.toNat.testBit 3

/-- The drive is selected, and its motor is on. -/
def spins (d : Nat) : Bool := decide (b.dor.toNat % 4 = d) && b.dor.toNat.testBit (4 + d)

/-- The digital output register. The end of a reset is an interrupt of each drive. -/
def writeDor (value : UInt8) : FloppyBoard :=
  if !value.toNat.testBit 2 then { b with dor := value, phase := .command [], pending := [] }
  else if b.enabled then { b with dor := value }
  else
    { b with
      dor := value
      phase := .command []
      pcn := fun _ => 0
      pending := [[0xC0, 0], [0xC1, 0], [0xC2, 0], [0xC3, 0]]
      fired := b.fired || value.toNat.testBit 3 }

theorem writeDor_enabled {value : UInt8} (henabled : b.enabled) (hvalue : value.toNat.testBit 2) :
    b.writeDor value = { b with dor := value } := by
  simp [writeDor, henabled, hvalue]

/-- The end of a seek. -/
def arrive (d track : Nat) (st0 pcn : UInt8) : FloppyBoard :=
  { b with
    phase := .command []
    track := Function.update b.track d track
    pcn := Function.update b.pcn d pcn
    pending := b.pending ++ [[st0, pcn]]
    fired := b.fired || b.gate }

/-- RECALIBRATE: at most 79 steps outwards, until the drive is on track 0. -/
def recalibrate (d : Nat) : FloppyBoard :=
  let track := if b.spins d then b.track d - 79 else b.track d
  b.arrive d track ((if track = 0 then 0x20 else 0x70) ||| d.toUInt8) 0

/-- SEEK: as many steps as the controller takes the cylinder to be away. -/
def seek (d : Nat) (ncn : UInt8) : FloppyBoard :=
  let track := if b.spins d then min 79 (b.track d + ncn.toNat - (b.pcn d).toNat) else b.track d
  b.arrive d track (0x20 ||| d.toUInt8) ncn

/-- SENSE INTERRUPT STATUS, an invalid command if there is no interrupt. -/
def sense : FloppyBoard :=
  match b.pending with
  | [] => { b with phase := .result [0x80] }
  | reply :: rest => { b with phase := .result reply, pending := rest }

/-- The sectors that READ DATA reads, from sector `s` of head `h` on, until the DMA controller
counted its last byte: ST0 and ST1, the sector after the last one, and the board. -/
def readFrom (d : Nat) (mt : Bool) (eot h s : Nat) :
    Nat → FloppyBoard → UInt8 × UInt8 × (Nat × Nat × Nat) × FloppyBoard
  | 0, b => (0x40, 0x04, (b.track d, h, s), b)
  | fuel + 1, b =>
    match (disks d).sector (b.track d) h s with
    | none => (0x40, 0x04, (b.track d, h, s), b)
    | some bytes =>
      let next :=
        if s ≠ eot then (b.track d, h, s + 1)
        else if mt && h == 0 then (b.track d, 1, 1)
        else (b.track d + 1, if mt then 0 else h, 1)
      match Dma8237.store 2 (b.page 0x81).toNat (b.dma 0) b.ram bytes with
      | none => (0x40, 0x10, (b.track d, h, s), b)
      | some (last, c, ram) =>
        let b' := { b with dma := Function.update b.dma 0 c, ram := ram }
        if last then (0, 0, next, b')
        else if next.1 ≠ b.track d then (0x40, 0x80, next, b')
        else readFrom d mt eot next.2.1 next.2.2 fuel b'

/-- The seven bytes of a result. -/
def resultBytes (hd n : UInt8) (r : UInt8 × UInt8 × (Nat × Nat × Nat) × FloppyBoard) : List UInt8 :=
  let (st0, st1, (c, h, s), _) := r
  [st0 ||| (hd &&& 7), st1, 0, c.toUInt8, h.toUInt8, s.toUInt8, n]

/-- READ DATA. It never ends on a drive that does not turn, and what it does without DMA is
left out. The diskette is of double density, at 500 kbit/s. -/
def readData (cmd hd c h r n eot : UInt8) : FloppyBoard :=
  let d := hd.toNat % 4
  if !b.spins d || !b.gate || b.nonDma then { b with phase := .executing }
  else
    let outcome :=
      if c.toNat = b.track d ∧ h.toNat = hd.toNat / 4 % 2 ∧ n = 2 ∧ cmd.toNat.testBit 6 ∧
          b.rate = 0 then
        b.readFrom disks d (cmd.toNat.testBit 7) eot.toNat h.toNat r.toNat 64
      else (0x40, 0x04, (c.toNat, h.toNat, r.toNat), b)
    { outcome.2.2.2 with phase := .result (resultBytes hd n outcome), fired := true }

section ReadData

variable {b} {cmd hd c h n : UInt8} {d : Nat} (r eot : UInt8)

/-- The command names the sector that is under the heads, on a drive that turns. -/
structure Reads (b : FloppyBoard) (cmd hd c h n : UInt8) (d : Nat) : Prop where
  drive : hd.toNat % 4 = d
  spins : b.spins d
  gate : b.gate
  dma : b.nonDma = false
  cylinder : c.toNat = b.track d
  head : h.toNat = hd.toNat / 4 % 2
  size : n = 2
  density : cmd.toNat.testBit 6
  rate : b.rate = 0

theorem readData_eq (hreads : b.Reads cmd hd c h n d) : ∃ left, left.length = 7 ∧
    b.readData disks cmd hd c h r n eot =
      { (b.readFrom disks d (cmd.toNat.testBit 7) eot.toNat h.toNat r.toNat 64).2.2.2 with
        phase := .result left, fired := true } := by
  obtain ⟨rfl, hspins, hgate, hdma, hcylinder, hhead, hsize, hdensity, hrate⟩ := hreads
  refine ⟨resultBytes hd n (b.readFrom disks (hd.toNat % 4) (cmd.toNat.testBit 7) eot.toNat
    h.toNat r.toNat 64), rfl, ?_⟩
  simp only [readData, hspins, hgate, hdma, Bool.not_true, Bool.or_self, Bool.false_eq_true,
    if_false, hcylinder, hhead, hsize, hdensity, hrate, and_self, if_true]

/-- An unreadable sector. The memory is as before. -/
theorem readData_missing (hreads : b.Reads cmd hd c h n d)
    (hsector : (disks d).sector (b.track d) h.toNat r.toNat = none) :
    ∃ left, left.length = 7 ∧ b.readData disks cmd hd c h r n eot =
      { b with phase := .result left, fired := true } := by
  obtain ⟨left, hlength, hdata⟩ := readData_eq disks r eot hreads
  exact ⟨left, hlength, hdata.trans (by simp [readFrom, hsector])⟩

/-- A sector that the DMA controller takes as its last one. -/
theorem readData_last (hreads : b.Reads cmd hd c h n d)
    {bytes : { bytes : List UInt8 // bytes.length = 512 }}
    (hsector : (disks d).sector (b.track d) h.toNat r.toNat = some bytes) {dma : Dma8237}
    {ram : Nat → UInt8}
    (hstore : Dma8237.store 2 (b.page 0x81).toNat (b.dma 0) b.ram bytes = some (true, dma, ram)) :
    ∃ left, left.length = 7 ∧ b.readData disks cmd hd c h r n eot =
      { b with
        phase := .result left, fired := true, dma := Function.update b.dma 0 dma, ram := ram } := by
  obtain ⟨left, hlength, hdata⟩ := readData_eq disks r eot hreads
  exact ⟨left, hlength, hdata.trans (by simp [readFrom, hsector, hstore])⟩

end ReadData

/-- How many bytes a command has. -/
def commandLength (cmd : UInt8) : Nat :=
  match cmd.toNat % 32 with
  | 0x03 => 3
  | 0x06 => 9
  | 0x07 => 2
  | 0x0F => 3
  | _ => 1

/-- A command. -/
def execute : List UInt8 → FloppyBoard
  | [cmd] => if cmd.toNat % 32 = 0x08 then b.sense else { b with phase := .result [0x80] }
  | [_, d] => b.recalibrate (d.toNat % 4)
  | [cmd, x, y] =>
    if cmd.toNat % 32 = 0x03 then
      { b with phase := .command [], nonDma := y.toNat.testBit 0 }
    else b.seek (x.toNat % 4) y
  | [cmd, hd, c, h, r, n, eot, _, _] => b.readData disks cmd hd c h r n eot
  | _ => b

/-- A byte for the data register. -/
def accept (value : UInt8) : FloppyBoard :=
  match b.phase with
  | .command sent =>
    let sent := sent ++ [value]
    if sent.length < commandLength (sent.headD 0) then { b with phase := .command sent }
    else b.execute disks sent
  | _ => b

/-- The main status register, when no handshake is under way. -/
def status : UInt8 :=
  if !b.enabled then 0
  else
    match b.phase with
    | .command [] => 0x80
    | .command _ => 0x90
    | .result _ => 0xD0
    | .executing => 0x10

/-- The rest of a result. -/
def drop (left : List UInt8) : FloppyBoard :=
  { b with phase := if left = [] then .command [] else .result left }

/-- A change of one of the DMA controllers. -/
def onDma (dmac : Nat) (f : Dma8237 → Dma8237) : FloppyBoard :=
  { b with dma := Function.update b.dma dmac (f (b.dma dmac)) }

@[simp] theorem onDma_onDma (dmac : Nat) (f g : Dma8237 → Dma8237) :
    (b.onDma dmac f).onDma dmac g = b.onDma dmac fun c => g (f c) := by
  simp [onDma]

@[simp] theorem onDma_dma (dmac j : Nat) (f : Dma8237 → Dma8237) :
    (b.onDma dmac f).dma j = if j = dmac then f (b.dma j) else b.dma j := by
  by_cases hj : j = dmac <;> simp [onDma, hj]

theorem unmasked_channel (i j : Nat) : ((b.onDma 0 Dma8237.unmasked).dma i).channel j =
    { (b.dma i).channel j with masked := i != 0 && ((b.dma i).channel j).masked } := by
  by_cases hi : i = 0
  · simp [hi, Dma8237.unmasked]
  · simp [hi, bne_iff_ne.mpr hi]

/-- A store to a port other than the data register. -/
def store (value : UInt8) (port : Nat) : FloppyBoard :=
  if port = 0x3F2 then b.writeDor value
  else if port = 0x3F7 then { b with rate := value &&& 3 }
  else if port < 0x10 then b.onDma 0 (·.write port value)
  else if 0xC0 ≤ port ∧ port < 0xE0 then b.onDma 1 (·.write ((port - 0xC0) / 2) value)
  else if 0x80 ≤ port ∧ port < 0x90 then { b with page := Function.update b.page port value }
  else b

end FloppyBoard

/-- The board, the looks at the status for which it stays busy, and the handshakes so far. -/
structure FloppyMachine where
  board : FloppyBoard
  busy : Nat
  handshakes : Nat

namespace FloppyMachine

variable (disks : Nat → Diskette) (latency : Nat → Nat) (m : FloppyMachine)

/-- The board after a handshake. -/
def handshake (board : FloppyBoard) : FloppyMachine where
  board := board
  busy := latency m.handshakes
  handshakes := m.handshakes + 1

def input (port : Nat) : UInt8 × FloppyMachine :=
  match port with
  | 0x3F4 =>
    if m.busy = 0 then (m.board.status, m)
    else (m.board.status &&& 0x7F, { m with busy := m.busy - 1 })
  | 0x3F5 =>
    match m.board.phase with
    | .result (value :: left) =>
      if m.busy = 0 then (value, m.handshake latency (m.board.drop left)) else (0xFF, m)
    | _ => (0xFF, m)
  | _ => (0xFF, m)

def output (value : UInt8) (port : Nat) : FloppyMachine :=
  if port = 0x3F5 then
    if m.busy = 0 ∧ m.board.enabled then m.handshake latency (m.board.accept disks value) else m
  else if port = 0x3F2 then m.handshake latency (m.board.store value port)
  else { m with board := m.board.store value port }

/-- The machine of a program. -/
def ports : Ports FloppyMachine where
  input := fun port m => m.input latency port
  output := fun value port m => m.output disks latency value port
  await := fun m =>
    if m.board.fired then some { m with board := { m.board with fired := false } } else none
  load := fun m => m.board.ram

/-- The board without its timing. -/
def look (limit : Nat) (m : FloppyMachine) : Option FloppyBoard :=
  if m.busy < limit then some m.board else none

/-! ## What the accesses do -/

section Access

variable {disks : Nat → Diskette} {latency : Nat → Nat} {limit : Nat} {b : FloppyBoard}
  {value : UInt8} {port : Nat}

theorem look_eq_some {m : FloppyMachine} :
    look limit m = some b ↔ m.busy < limit ∧ m.board = b := by
  simp [look]

/-- A store elsewhere than to the data register. -/
theorem outb_acts (hlatency : ∀ k, latency k < limit) (hport : port ≠ 0x3F5) :
    Acts (look limit) (Io.outb (ports disks latency) value port) b ⟨⟩ (b.store value port) := by
  intro m hm
  obtain ⟨hbusy, rfl⟩ := look_eq_some.mp hm
  refine ⟨_, rfl, look_eq_some.mpr ?_⟩
  by_cases hdor : port = 0x3F2
  · simp [ports, output, handshake, hdor, hlatency]
  · simp [ports, output, hport, hdor, hbusy]

/-- The wait for an interrupt that came. -/
theorem await_acts (hfired : b.fired = true) :
    Acts (look limit) (Io.await (ports disks latency)) b ⟨⟩ { b with fired := false } := by
  intro m hm
  obtain ⟨hbusy, rfl⟩ := look_eq_some.mp hm
  exact ⟨{ m with board := { m.board with fired := false } }, by simp [Io.await, ports, hfired],
    look_eq_some.mpr ⟨hbusy, rfl⟩⟩

theorem copy_acts (address n : Nat) :
    Acts (look limit) (Io.copy (ports disks latency) address n) b
      ((List.range' address n).map b.ram) b := by
  intro m hm
  obtain ⟨hbusy, rfl⟩ := look_eq_some.mp hm
  exact ⟨m, rfl, hm⟩

end Access

end FloppyMachine

end Leenix
