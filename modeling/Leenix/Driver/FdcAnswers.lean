import Leenix.Driver.FdcPorts

/-!
# The two models of the floppy driver (driver/fdc.c)

The model of the controller's answers is the driver on the ports, seen from a machine that
takes every read of a port from the answers and drops what goes to the DMA controllers.

- `Mirrors.bind`: programs one after the other.
- `readSector_mirrors`: so what is proved about the answers holds of the driver on the ports.
-/

namespace Leenix

namespace FdcPorts

open Fdc (Controller Driver)

/-- The machine of the answers. -/
def answerPorts : Ports Controller where
  input := fun _ c => Fdc.inb c
  output := fun value port c =>
    if port = 0x3F2 then (Fdc.outb value .dor c).2
    else if port = 0x3F7 then (Fdc.outb value .ccr c).2
    else if port = 0x3F5 then (Fdc.outb value .fifo c).2
    else c
  await := some
  load := fun c a => c.dmaBuffer.getD (a - 0x1000) 0

/-- The two programs do the same, and leave the DMA buffer alone. -/
def Mirrors {α β : Type} (m : Io Controller α) (d : Driver β) (f : β → α) : Prop :=
  ∀ c, m c = some (f (d c).1, (d c).2) ∧ (d c).2.dmaBuffer = c.dmaBuffer

section Mirrors

variable {α β γ δ : Type} {m : Io Controller α} {d : Driver β} {f : β → α}

theorem Mirrors.pure {a : α} {b : β} (h : f b = a) : Mirrors (pure a) (pure b) f :=
  fun _ => ⟨by rw [← h]; rfl, rfl⟩

/-- A last step that only the model of the answers has. -/
theorem Mirrors.result {g : β → δ} {k : δ → α} (h : Mirrors m d f) (hg : ∀ b, k (g b) = f b) :
    Mirrors m (d >>= fun b => Pure.pure (g b)) k :=
  fun c => ⟨(h c).1.trans (by rw [← hg]; rfl), (h c).2⟩

theorem Mirrors.bind {k : α → Io Controller γ} {e : β → Driver δ} {g : δ → γ}
    (h : Mirrors m d f) (hk : ∀ b, Mirrors (k (f b)) (e b) g) : Mirrors (m >>= k) (d >>= e) g := by
  intro c
  obtain ⟨hrun, hbuffer⟩ := h c
  obtain ⟨hrun', hbuffer'⟩ := hk (d c).1 (d c).2
  refine ⟨?_, hbuffer'.trans hbuffer⟩
  simp [hrun, hrun']

/-- The accesses to the DMA controllers are not seen. -/
theorem Mirrors.skip {m' : Io Controller Unit} (hskip : ∀ c, m' c = some (⟨⟩, c))
    (h : Mirrors m d f) : Mirrors (m' >>= fun _ => m) d f := by
  intro c
  rw [Io.run_bind, hskip]
  exact h c

theorem Mirrors.ite {p : Prop} [Decidable p] {m' : Io Controller α} {d' : Driver β}
    (h : Mirrors m d f) (h' : Mirrors m' d' f) :
    Mirrors (if p then m else m') (if p then d else d') f := by
  split
  · exact h
  · exact h'

end Mirrors

theorem waitReady_mirrors (n : Nat) : Mirrors (waitReady answerPorts n) (Fdc.waitReady n) id := by
  induction n with
  | zero => exact .pure rfl
  | succ n ih =>
    exact .bind (f := id) (d := Fdc.getStatus) (fun _ => ⟨rfl, rfl⟩) fun status =>
      .ite (.pure rfl) ih

theorem sendCommand_mirrors (command : Byte) :
    Mirrors (sendCommand answerPorts command) (Fdc.sendCommand command) id := by
  refine .bind (waitReady_mirrors 500) fun ready => .ite ?_ (.pure rfl)
  exact .bind (f := id) (d := Fdc.outb command .fifo) (fun _ => ⟨rfl, rfl⟩) fun _ => .pure rfl

theorem readFifo_mirrors : Mirrors (readFifo answerPorts) Fdc.readFifo (·.getD 0) :=
  .bind (waitReady_mirrors 500) fun _ => .ite (fun _ => ⟨rfl, rfl⟩) (.pure rfl)

theorem sendCommands_mirrors (commands : List Byte) :
    Mirrors (sendCommands answerPorts commands) (Fdc.sendCommands commands) fun _ => PUnit.unit := by
  induction commands with
  | nil => exact .pure rfl
  | cons command commands ih =>
    exact .bind (sendCommand_mirrors command) fun _ => ih.result fun _ => rfl

theorem readFifos_mirrors (n : Nat) :
    Mirrors (readFifos answerPorts n) (Fdc.readFifos n) fun _ => PUnit.unit := by
  induction n with
  | zero => exact .pure rfl
  | succ n ih => exact .bind readFifo_mirrors fun _ => ih.result fun _ => rfl

theorem senseInterrupt_mirrors : Mirrors (senseInterrupt answerPorts) Fdc.senseInterrupt
    fun r => (r.1.getD 0, r.2.getD 0) :=
  .bind (sendCommand_mirrors 0x08) fun _ => .bind readFifo_mirrors fun _ =>
    .bind readFifo_mirrors fun _ => .pure rfl

theorem controlMotor_mirrors (drive : Byte) (enable : Bool) :
    Mirrors (controlMotor answerPorts drive enable) (Fdc.controlMotor drive enable) id := by
  rw [controlMotor, Fdc.controlMotor]
  cases Fdc.motorMask drive with
  | none => exact .pure rfl
  | some motor => exact fun _ => ⟨rfl, rfl⟩

theorem seekLoop_mirrors (currentDrive cyl head : Byte) (n : Nat) :
    Mirrors (seekLoop answerPorts currentDrive cyl head n) (Fdc.seekLoop currentDrive cyl head n)
      Prod.fst := by
  induction n with
  | zero => exact .pure rfl
  | succ n ih =>
    refine .bind (sendCommands_mirrors _) fun _ => ?_
    refine .bind (f := id) (d := Fdc.waitForIrq) (fun _ => ⟨rfl, rfl⟩) fun _ => ?_
    exact .bind senseInterrupt_mirrors fun _ => .ite (.pure rfl) ih

theorem initDma_answers (count : UInt16) (c : Controller) :
    initDma answerPorts count false c = some (⟨⟩, c) := rfl

theorem readSectorChs_mirrors (currentDrive head track sector : Byte) :
    Mirrors (readSectorChs answerPorts currentDrive head track sector)
      (Fdc.readSectorChs currentDrive head track sector) fun _ => PUnit.unit := by
  refine .skip (initDma_answers 511) ?_
  refine .bind (sendCommands_mirrors _) fun _ => ?_
  refine .bind (f := id) (d := Fdc.waitForIrq) (fun _ => ⟨rfl, rfl⟩) fun _ => ?_
  refine .bind (readFifos_mirrors 7) fun _ => ?_
  exact .bind senseInterrupt_mirrors fun _ => .pure rfl

theorem copy_answers {c : Controller} (h : 512 ≤ c.dmaBuffer.length) :
    Io.copy answerPorts 0x1000 512 c = some (c.dmaBuffer.take 512, c) := by
  have hbytes : (List.range' 0x1000 512).map (answerPorts.load c) = c.dmaBuffer.take 512 := by
    refine List.ext_getElem (by simp [h]) fun i hi hi' => ?_
    have hi : i < c.dmaBuffer.length := by
      simp at hi'
      omega
    simp [answerPorts, hi]
  rw [Io.copy, hbytes]

/-- **One driver.** The model of the answers reads a sector as the driver on the ports does. -/
theorem readSector_mirrors (drive : Fdc.Drive) (lba : UInt32) (buff : Option (List Byte))
    {c : Controller} (h : 512 ≤ c.dmaBuffer.length) :
    readSector answerPorts drive lba buff c =
      some (((Fdc.readSector drive lba buff c).1.result, (Fdc.readSector drive lba buff c).1.buff),
        (Fdc.readSector drive lba buff c).2) := by
  generalize hchs : Fdc.lbaToChs lba = chs
  obtain ⟨cylinder, head, sector⟩ := chs
  obtain ⟨hon, hbuffer⟩ := controlMotor_mirrors drive true c
  obtain ⟨hseek, hbuffer'⟩ := seekLoop_mirrors drive cylinder.toUInt8 head.toUInt8 10
    (Fdc.controlMotor drive true c).2
  simp only [readSector, Fdc.readSector, hchs, Io.run_bind, hon, Option.bind_some, seek, id, hseek,
    Fdc.seek, Fdc.run_bind]
  generalize Fdc.seekLoop _ _ _ _ _ = outcome at hbuffer' ⊢
  obtain ⟨⟨code, reply⟩, c₁⟩ := outcome
  by_cases hcode : code = 0
  · obtain ⟨hread, hbuffer₂⟩ := readSectorChs_mirrors drive head.toUInt8 cylinder.toUInt8
      sector.toUInt8 c₁
    obtain ⟨hoff, hbuffer₃⟩ := controlMotor_mirrors drive false
      (Fdc.readSectorChs drive head.toUInt8 cylinder.toUInt8 sector.toUInt8 c₁).2
    have hcopy := copy_answers (h.trans_eq (congrArg List.length
      (hbuffer₃.trans (hbuffer₂.trans (hbuffer'.trans hbuffer))).symm))
    rw [if_neg (not_not.mpr hcode), if_neg (not_not.mpr hcode)]
    simp only [Io.run_bind, hread, hoff, Option.bind_some, Fdc.run_bind]
    cases buff with
    | none => rfl
    | some bytes =>
      simp only [Io.run_bind, hcopy]
      rfl
  · simp [hcode]

end FdcPorts

end Leenix
