import Leenix.Driver.Fdc

/-!
# When the motor of the floppy drive stays on (driver/fdc.c)

The digital output register cannot be read back: its value is the last one written.

- `recalibrateLoop_motorOff`: both ways out of the loop turn the motor off.
- `motorOff_iff`: `fdc_reset` leaves it off, `fdc_read_sector` exactly when the seek ends.
-/

namespace Leenix

namespace Fdc

variable (c : Controller) (drive : Drive)

@[simp] theorem senseInterrupts_dor (n : Nat) : (senseInterrupts n c).2.dor = c.dor := by
  induction n generalizing c with
  | zero => rfl
  | succ n ih => simp [senseInterrupts, ih]

theorem recalibrateLoop_motorOff (n : Nat) : (recalibrateLoop drive n c).2.MotorOff := by
  have hoff := fun c => (controlMotor_motorOff c drive false).mpr rfl
  induction n generalizing c with
  | zero => simp [recalibrateLoop, hoff]
  | succ n ih =>
    simp only [recalibrateLoop, run_bind, run_ite, run_pure]
    split
    · exact hoff _
    · exact ih _

theorem recalibrate_motorOff : (recalibrate drive c).2.MotorOff := by
  have hdrive : ¬3 < drive.1 := UInt8.not_lt.mpr drive.2
  simp only [recalibrate, hdrive, if_false, run_bind]
  exact recalibrateLoop_motorOff _ drive 10

/-- **When the motor is off again.** After a reset always. After the read of a sector exactly
when one of the ten attempts of the seek is told the cylinder. -/
theorem motorOff_iff (lba : UInt32) (buff : Option (List Byte)) :
    ((readSector drive lba buff c).2.MotorOff ↔
      ∃ k < 10, (seekReply c.answers c.reads k).getD 0 = (lba / 36).toUInt8) ∧
      (reset drive c).2.MotorOff := by
  constructor
  · rcases readSector_cases c drive lba buff with
      ⟨k, hk, hends, -, -, -, -, hoff⟩ | ⟨hall, -, hon⟩
    · exact iff_of_true hoff ⟨k, hk, hends.1⟩
    · refine iff_of_false hon ?_
      rintro ⟨k, hk, hcyl⟩
      exact hall k hk hcyl
  · simp only [reset, run_bind, run_pure]
    exact recalibrate_motorOff _ drive

/-- A controller that is ready whenever it is asked and always replies cylinder 128. -/
def stuck : Controller := ⟨fun _ => 0x80, 0, [], List.replicate 512 0⟩

/-- It leaves the motor on when block 0 is read. -/
theorem not_motorOff_stuck : ¬∀ (c : Controller) (drive : Drive) (lba : UInt32)
    (buff : Option (List Byte)),
      (readSector drive lba buff c).2.MotorOff ∧ (reset drive c).2.MotorOff := by
  intro h
  obtain ⟨value, hdor, hbits⟩ := (h stuck ⟨0, by decide⟩ 0 none).1
  have hvalue : (readSector ⟨0, by decide⟩ 0 none stuck).2.dor = some 0x1C := by decide +kernel
  rw [hvalue] at hdor
  obtain rfl := Option.some.inj hdor
  exact absurd hbits (by decide)

end Fdc

end Leenix
