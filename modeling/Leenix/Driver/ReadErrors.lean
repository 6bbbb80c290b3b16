import Leenix.Driver.Fdc

/-!
# Which read errors of the floppy controller are reported (driver/fdc.c)

`fdc_read_sector` looks at the cylinder that the seek was told and at the pointer of the
buffer, and at nothing else: a time-out of a command byte and the result bytes of the read
are dropped, and a reply that never came counts as cylinder 0.

- `Completed`: what a successful read should mean.
- `Clean`: the answers after the seek with which it does.
- `readSector_completed_iff`: the reads that are reported rightly are those.
-/

namespace Leenix

namespace Fdc

/-- The seek was confirmed on the cylinder of the sector, the nine bytes of the command were
taken, and the first result byte reports a normal termination. -/
structure Completed (lba : UInt32) (r : SectorRead) : Prop where
  seek : ∃ cyl, r.seekReply = some cyl ∧ cyl.toNat = lba.toNat / 36
  length : r.codes.length = 9
  sent : ∀ code ∈ r.codes, code = 0
  st0 : ∃ st0, r.results.head? = some (some st0) ∧ st0 &&& 0xC0 = 0

/-- With the answers `a` from position `n` on, the attempt with index `k` of the seek got a
reply, on a cylinder that fits into a byte, the data register gets ready for each of the
nine bytes of the command, and the first result byte comes, with its top two bits clear. -/
structure Clean (a : Nat → Byte) (n : Nat) (lba : UInt32) (k : Nat) : Prop where
  seek : (seekReply a n k).isSome
  cylinder : lba.toNat / 36 < 256
  sent : ∀ j < 9, (firstReady a ((afterSend a)^[j] ((nextAttempt a)^[k + 1] n))).isSome
  st0 : ∃ st0, reply a ((afterSend a)^[9] ((nextAttempt a)^[k + 1] n)) =
    some st0 ∧ st0 &&& 0xC0 = 0

variable {a : Nat → Byte} {n k : Nat} {lba : UInt32}

theorem sendCode_eq_zero_iff : sendCode a n = 0 ↔ (firstReady a n).isSome := by
  rw [sendCode]
  split
  case isTrue h => simp [h]
  case isFalse h => simp [h]

/-- The reply that ends a seek is the cylinder of the sector, if it fits into a byte. -/
theorem EndsAt.cylinder_iff (hends : EndsAt a n (lba / 36).toUInt8 k) :
    (∃ cyl, seekReply a n k = some cyl ∧ cyl.toNat = lba.toNat / 36) ↔
      (seekReply a n k).isSome ∧ lba.toNat / 36 < 256 := by
  have hcyl : (lba / 36).toUInt8.toNat = lba.toNat / 36 % 256 := by
    rw [UInt32.toNat_toUInt8, UInt32.toNat_div]
    rfl
  have hreply := hends.1
  cases hsome : seekReply a n k with
  | none => simp
  | some cyl =>
    rw [hsome, Option.getD_some] at hreply
    rw [← hreply] at hcyl
    simp only [Option.some.injEq, Option.isSome_some, true_and, exists_eq_left']
    omega

/-- Only one attempt ends a seek. -/
theorem EndsAt.unique {cyl : Byte} {i : Nat} (hi : EndsAt a n cyl i) (hk : EndsAt a n cyl k) :
    i = k := by
  rcases Nat.lt_trichotomy i k with hlt | heq | hlt
  · exact absurd hi.1 (hk.2 i hlt)
  · exact heq
  · exact absurd hk.1 (hi.2 k hlt)

/-- What a read learned is what it should be exactly with clean answers. -/
theorem completed_iff_clean {r : SectorRead} (hends : EndsAt a n (lba / 36).toUInt8 k)
    (hseek : r.seekReply = seekReply a n k)
    (hcodes : r.codes = (List.range 9).map fun j =>
      sendCode a ((afterSend a)^[j] ((nextAttempt a)^[k + 1] n)))
    (hresults : r.results.head? =
      some (reply a ((afterSend a)^[9] ((nextAttempt a)^[k + 1] n)))) :
    Completed lba r ↔ Clean a n lba k := by
  constructor
  · rintro ⟨hcyl, -, hsent, st0, hst0, hbits⟩
    rw [hseek, hends.cylinder_iff] at hcyl
    refine ⟨hcyl.1, hcyl.2, ?_, st0, ?_, hbits⟩
    · intro j hj
      refine sendCode_eq_zero_iff.mp (hsent _ ?_)
      rw [hcodes]
      exact List.mem_map_of_mem (List.mem_range.mpr hj)
    · rw [hresults] at hst0
      exact Option.some.inj hst0
  · rintro ⟨hreply, hcyl, hsent, st0, hst0, hbits⟩
    refine ⟨hseek ▸ hends.cylinder_iff.mpr ⟨hreply, hcyl⟩, by simp [hcodes], ?_, st0, ?_, hbits⟩
    · intro code hmem
      rw [hcodes] at hmem
      obtain ⟨j, hj, rfl⟩ := List.mem_map.mp hmem
      exact sendCode_eq_zero_iff.mpr (hsent j (List.mem_range.mp hj))
    · rw [hresults, hst0]

/-- **Which reads are reported rightly**: those without a buffer, and those in which the
controller answers as expected after the attempt that ends the seek, if one does. -/
theorem readSector_completed_iff (c : Controller) (drive : Drive) (lba : UInt32)
    (buff : Option (List Byte)) :
    ((readSector drive lba buff c).1.result = 0 → Completed lba (readSector drive lba buff c).1) ↔
      buff = none ∨ ∀ k < 10, EndsAt c.answers c.reads (lba / 36).toUInt8 k →
        Clean c.answers c.reads lba k := by
  cases buff with
  | none =>
    refine iff_of_true (fun hresult => ?_) (.inl rfl)
    rcases readSector_cases c drive lba none with ⟨k, -, -, hcode, -⟩ | ⟨-, hcode, -⟩ <;>
      simp [hcode] at hresult
  | some bytes =>
    rw [or_iff_right (Option.some_ne_none bytes)]
    rcases readSector_cases c drive lba (some bytes) with
      ⟨k, hk, hends, hcode, hseek, hcodes, hresults, -⟩ | ⟨hall, hcode, -⟩
    · rw [hcode, completed_iff_clean hends hseek hcodes hresults]
      constructor
      · intro h i _ hi
        rw [hi.unique hends]
        exact h rfl
      · intro h _
        exact h k hk hends
    · refine iff_of_true (fun hresult => ?_) fun k hk hends => absurd hends.1 (hall k hk)
      rw [hcode] at hresult
      cases hresult

/-- A controller that is ready whenever it is asked, replies cylinder 0 to the first attempt
and ends the read with an error. -/
def failing : Controller := 
  ⟨fun n => if n = 7 then 0 else 0xC0, 0, [], List.replicate 512 0⟩

/-- The read of block 0 succeeds all the same. -/
theorem not_completed_failing : ¬∀ (c : Controller) (drive : Drive) (lba : UInt32)
    (buff : Option (List Byte)), (readSector drive lba buff c).1.result = 0 →
      Completed lba (readSector drive lba buff c).1 := by
  intro h
  have hresult : (readSector ⟨0, by decide⟩ 0 (some (List.replicate 512 0)) failing).1.result =
      0 := by decide +kernel
  have hvalue :
      (readSector ⟨0, by decide⟩ 0 (some (List.replicate 512 0)) failing).1.results.head? =
        some (some 0xC0) := by decide +kernel
  obtain ⟨st0, hst0, hbits⟩ := (h _ _ _ _ hresult).st0
  rw [hvalue] at hst0
  obtain rfl := Option.some.inj (Option.some.inj hst0)
  exact absurd hbits (by decide)

end Fdc

end Leenix
