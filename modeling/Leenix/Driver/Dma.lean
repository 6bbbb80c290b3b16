import Leenix.Lib.FloppyBoard

/-!
# The DMA controllers (driver/dma.c)

A channel number is a byte; the functions do nothing for one they do not know.

- `setAddress_acts`, `setCount_acts`, `setMode_acts`, …: what each function leaves on a board.
-/

namespace Leenix

namespace Dma

/-! ## The driver -/

section Driver

variable {σ : Type} (hw : Ports σ)

/-- The `switch` of `dma_set_address`. -/
def addressPort : UInt8 → Option Nat
  | 0 => some 0x00
  | 1 => some 0x02
  | 2 => some 0x04
  | 3 => some 0x06
  | 4 => some 0xC0
  | 5 => some 0xC4
  | 6 => some 0xC8
  | 7 => some 0xCC
  | _ => none

/-- The `switch` of `dma_set_count`. -/
def countPort : UInt8 → Option Nat
  | 0 => some 0x01
  | 1 => some 0x03
  | 2 => some 0x05
  | 3 => some 0x07
  | 4 => some 0xC2
  | 5 => some 0xC6
  | 6 => some 0xCA
  | 7 => some 0xCE
  | _ => none

/-- The `switch` of `dma_set_external_pagereg`. -/
def pagePort : UInt8 → Option Nat
  | 0 => some 0x87
  | 1 => some 0x83
  | 2 => some 0x81
  | 3 => some 0x83
  | 5 => some 0x8B
  | 6 => some 0x89
  | 7 => some 0x8A
  | _ => none

/-- `BYTE_LOW` and `BYTE_HIGH` (dma.h). -/
def byteLow (address : UInt16) : UInt8 := (address &&& 0x00FF).toUInt8

def byteHigh (address : UInt16) : UInt8 := ((address &&& 0xFF00) >>> 8).toUInt8

/-- Two bytes for a register of 16 bits, if there is one. -/
def setWord (port : Option Nat) (value : UInt16) : Io σ Unit :=
  match port with
  | none => return
  | some port => do
    Io.outb hw (byteLow value) port
    Io.outb hw (byteHigh value) port

/-- `dma_set_address` (dma.c:8–32). -/
def setAddress (channel : UInt8) (address : UInt16) : Io σ Unit :=
  setWord hw (addressPort channel) address

/-- `dma_set_count` (dma.c:34–58). -/
def setCount (channel : UInt8) (count : UInt16) : Io σ Unit :=
  setWord hw (countPort channel) count

/-- `dma_set_external_pagereg` (dma.c:60–84). -/
def setExternalPagereg (channel page : UInt8) : Io σ Unit :=
  match pagePort channel with
  | none => return
  | some port => Io.outb hw page port

/-- `dma_mask_channel` (dma.c:115–128). -/
def maskChannel (channel : UInt8) : Io σ Unit :=
  if 7 < channel then return
  else
    let port := if channel < 4 then 0x0A else 0xD4
    let chan := if channel < 4 then channel else channel - 4
    Io.outb hw (0x04 ||| chan) port

/-- `dma_unmask_all` (dma.c:144–147). -/
def unmaskAll : Io σ Unit := Io.outb hw 0x00 0x0E

/-- `dma_set_mode` (dma.c:86–101). -/
def setMode (channel mode : UInt8) : Io σ Unit :=
  if 7 < channel then return
  else do
    let dmaNo := if channel < 4 then 0 else 1
    let chanNo := if dmaNo = 0 then channel else channel - 4
    let modeReg := if dmaNo = 0 then 0x0B else 0xD6
    maskChannel hw channel
    Io.outb hw (mode ||| chanNo) modeReg
    unmaskAll hw

/-- `dma_setup_read` (dma.c:103–107). -/
def setupRead (channel : UInt8) : Io σ Unit := setMode hw channel (0x04 ||| 0x40)

/-- `dma_setup_write` (dma.c:109–113). -/
def setupWrite (channel : UInt8) : Io σ Unit := setMode hw channel (0x08 ||| 0x40)

/-- The two functions before, by the flag of `_fdc_init_dma`. -/
def setup (isWrite : Bool) (channel : UInt8) : Io σ Unit :=
  if isWrite then setupWrite hw channel else setupRead hw channel

/-- `dma_reset_flipflop` (dma.c:149–154). -/
def resetFlipflop (dmac : UInt8) : Io σ Unit :=
  Io.outb hw 0xff (if dmac = 0 then 0x0C else 0xD8)

/-- The calls of `_fdc_init_dma` (fdc.c:115–135), for any channel, buffer and page. -/
def prepare (channel : UInt8) (address count : UInt16) (page : UInt8) (isWrite : Bool) :
    Io σ Unit := do
  maskChannel hw channel
  resetFlipflop hw (channel / 4)
  setAddress hw channel address
  resetFlipflop hw (channel / 4)
  setCount hw channel count
  setExternalPagereg hw channel page
  setup hw isWrite channel
  unmaskAll hw

end Driver

/-! ## What it does to the controllers -/

/-- The controller of a channel, and its number there. -/
abbrev dmac (channel : UInt8) : Nat := channel.toNat / 4

abbrev lane (channel : UInt8) : Nat := channel.toNat % 4

section Board

variable {disks : Nat → Diskette} {latency : Nat → Nat} {limit : Nat} {b : FloppyBoard}
  {channel : UInt8}

theorem channel_cases (h : channel ≤ 7) : channel = 0 ∨ channel = 1 ∨ channel = 2 ∨ channel = 3 ∨
    channel = 4 ∨ channel = 5 ∨ channel = 6 ∨ channel = 7 := by
  have hle : channel.toNat ≤ 7 := UInt8.le_iff_toNat_le.mp h
  simp only [← UInt8.toNat_inj]
  simp
  omega

theorem bytes_toNat (value : UInt16) :
    (byteLow value).toNat + 256 * (byteHigh value).toNat = value.toNat := by
  have hlt : value.toNat < 65536 := value.toNat_lt
  have hlow : value.toNat &&& 0x00FF = value.toNat % 256 := Nat.and_two_pow_sub_one_eq_mod _ 8
  have hhigh : (value.toNat &&& 0xFF00) >>> 8 = value.toNat / 256 := by
    rw [Nat.shiftRight_and_distrib]
    exact (Nat.and_two_pow_sub_one_eq_mod _ 8).trans
      (Nat.shiftRight_eq_div_pow _ 8 ▸ Nat.mod_eq_of_lt (by omega))
  simp only [byteLow, byteHigh, UInt16.toNat_toUInt8, UInt16.toNat_and, UInt16.toNat_shiftRight]
  simp [hlow, hhigh]
  omega

/-- The address register of a channel. -/
theorem addressPort_store (h : channel ≤ 7) : ∃ port, addressPort channel = some port ∧
    port ≠ 0x3F5 ∧ ∀ (b : FloppyBoard) value,
      b.store value port = b.onDma (dmac channel) (·.write (2 * lane channel) value) := by
  rcases channel_cases h with rfl | rfl | rfl | rfl | rfl | rfl | rfl | rfl <;>
    exact ⟨_, rfl, by decide, fun _ _ => rfl⟩

/-- The count register of a channel. -/
theorem countPort_store (h : channel ≤ 7) : ∃ port, countPort channel = some port ∧
    port ≠ 0x3F5 ∧ ∀ (b : FloppyBoard) value,
      b.store value port = b.onDma (dmac channel) (·.write (2 * lane channel + 1) value) := by
  rcases channel_cases h with rfl | rfl | rfl | rfl | rfl | rfl | rfl | rfl <;>
    exact ⟨_, rfl, by decide, fun _ _ => rfl⟩

/-- The mask register of a channel. -/
theorem maskPort_store (h : channel ≤ 7) (b : FloppyBoard) (value : UInt8) :
    b.store value (if channel < 4 then 0x0A else 0xD4) =
      b.onDma (dmac channel) (·.write 0xA value) := by
  rcases channel_cases h with rfl | rfl | rfl | rfl | rfl | rfl | rfl | rfl <;> rfl

/-- The mode register of a channel. -/
theorem modeReg_store (h : channel ≤ 7) (b : FloppyBoard) (value : UInt8) :
    b.store value (if channel < 4 then 0x0B else 0xD6) =
      b.onDma (dmac channel) (·.write 0xB value) := by
  rcases channel_cases h with rfl | rfl | rfl | rfl | rfl | rfl | rfl | rfl <;> rfl

/-- The board after a store to a page register. -/
def setPage (b : FloppyBoard) (channel page : UInt8) : FloppyBoard :=
  match pagePort channel with
  | none => b
  | some port => { b with page := Function.update b.page port page }

theorem setPage_onDma (dmac : Nat) (f : Dma8237 → Dma8237) (page : UInt8) :
    (setPage b channel page).onDma dmac f = setPage (b.onDma dmac f) channel page := by
  rw [setPage, setPage]
  cases pagePort channel <;> rfl

@[simp] theorem setPage_dma (page : UInt8) : (setPage b channel page).dma = b.dma := by
  rw [setPage]
  cases pagePort channel <;> rfl

theorem setPage_page (page : UInt8) (port : Nat) : (setPage b channel page).page port =
    if pagePort channel = some port then page else b.page port := by
  rw [setPage]
  cases hport : pagePort channel with
  | none => simp
  | some p =>
    by_cases hp : p = port
    · simp [hp]
    · simp [hp, Ne.symm hp]

/-- The channels that share a page register. -/
theorem pagePort_eq_iff {other : UInt8} (h : channel ≤ 7) (hother : other ≤ 7) {port : Nat}
    (hport : pagePort other = some port) : pagePort channel = some port ↔
      other = channel ∨ channel = 1 ∧ other = 3 ∨ channel = 3 ∧ other = 1 := by
  rw [← hport]
  rcases channel_cases h with rfl | rfl | rfl | rfl | rfl | rfl | rfl | rfl <;>
    rcases channel_cases hother with rfl | rfl | rfl | rfl | rfl | rfl | rfl | rfl <;> decide

/-- The mode of a transfer to memory or from memory, one byte at a time. -/
def modeByte (isWrite : Bool) (channel : UInt8) : UInt8 :=
  (if isWrite then 0x48 else 0x44) ||| channel % 4

/-- A channel that is set up. -/
def prepared (channel : UInt8) (address count : UInt16) (isWrite : Bool) (c : Dma8237) : Dma8237 :=
  { c.update (lane channel) fun _ =>
      ⟨address.toNat, count.toNat, modeByte isWrite channel, true⟩ with
    high := false }

theorem prepared_channel (address count : UInt16) (isWrite : Bool) (c : Dma8237) (j : Nat) :
    (prepared channel address count isWrite c).channel j = if j = lane channel then
      ⟨address.toNat, count.toNat, modeByte isWrite channel, true⟩ else c.channel j := by
  by_cases hj : j = lane channel <;> simp [prepared, Dma8237.update, hj]

section Acts

variable (hlatency : ∀ k, latency k < limit)
include hlatency

/-- Both bytes of a register, when the next byte is the low one. -/
theorem setWord_acts {port dmac register : Nat} (f : Nat → Dma8237) (value : UInt16)
    (hne : port ≠ 0x3F5)
    (hstore : ∀ (b : FloppyBoard) value,
      b.store value port = b.onDma dmac (·.write register value))
    (hwrite : ∀ low high : UInt8, ((b.dma dmac).write register low).write register high =
      f (low.toNat + 256 * high.toNat)) :
    Acts (FloppyMachine.look limit)
      (setWord (FloppyMachine.ports disks latency) (some port) value) b ⟨⟩
      (b.onDma dmac fun _ => f value.toNat) := by
  have hfinal : (b.store (byteLow value) port).store (byteHigh value) port =
      b.onDma dmac fun _ => f value.toNat := by
    rw [hstore, hstore, FloppyBoard.onDma_onDma]
    simp only [FloppyBoard.onDma, hwrite, bytes_toNat]
  rw [← hfinal]
  exact (FloppyMachine.outb_acts hlatency hne).bind (FloppyMachine.outb_acts hlatency hne)

theorem setAddress_acts (h : channel ≤ 7) (address : UInt16)
    (hlow : (b.dma (dmac channel)).high = false) :
    Acts (FloppyMachine.look limit) (setAddress (FloppyMachine.ports disks latency) channel address)
      b ⟨⟩ (b.onDma (dmac channel) fun c =>
        c.update (lane channel) fun ch => { ch with address := address.toNat }) := by
  obtain ⟨port, hport, hne, hstore⟩ := addressPort_store h
  rw [setAddress, hport]
  exact setWord_acts hlatency (fun address => (b.dma (dmac channel)).update (lane channel)
    fun ch => { ch with address := address }) address hne hstore fun low high =>
      Dma8237.write_address _ low high (Nat.mod_lt _ (by decide)) hlow

theorem setCount_acts (h : channel ≤ 7) (count : UInt16)
    (hlow : (b.dma (dmac channel)).high = false) :
    Acts (FloppyMachine.look limit) (setCount (FloppyMachine.ports disks latency) channel count)
      b ⟨⟩ (b.onDma (dmac channel) fun c =>
        c.update (lane channel) fun ch => { ch with count := count.toNat }) := by
  obtain ⟨port, hport, hne, hstore⟩ := countPort_store h
  rw [setCount, hport]
  exact setWord_acts hlatency (fun count => (b.dma (dmac channel)).update (lane channel)
    fun ch => { ch with count := count }) count hne hstore fun low high =>
      Dma8237.write_count _ low high (Nat.mod_lt _ (by decide)) hlow

theorem maskChannel_acts (h : channel ≤ 7) :
    Acts (FloppyMachine.look limit) (maskChannel (FloppyMachine.ports disks latency) channel)
      b ⟨⟩ (b.onDma (dmac channel) fun c =>
        c.update (lane channel) fun ch => { ch with masked := true }) := by
  have hne : (if channel < 4 then 0x0A else 0xD4) ≠ 0x3F5 := by split <;> decide
  have hvalue : (0x04 ||| if channel < 4 then channel else channel - 4).toNat % 4 = lane channel ∧
      (0x04 ||| if channel < 4 then channel else channel - 4).toNat.testBit 2 = true := by
    rcases channel_cases h with rfl | rfl | rfl | rfl | rfl | rfl | rfl | rfl <;> decide
  have hstore := maskPort_store h b (0x04 ||| if channel < 4 then channel else channel - 4)
  simp only [Dma8237.write, hvalue] at hstore
  rw [maskChannel, if_neg (UInt8.not_lt.mpr h), ← hstore]
  exact FloppyMachine.outb_acts hlatency hne

theorem unmaskAll_acts :
    Acts (FloppyMachine.look limit) (unmaskAll (FloppyMachine.ports disks latency)) b ⟨⟩
      (b.onDma 0 Dma8237.unmasked) :=
  FloppyMachine.outb_acts hlatency (by decide)

theorem resetFlipflop_acts (h : channel ≤ 7) :
    Acts (FloppyMachine.look limit)
      (resetFlipflop (FloppyMachine.ports disks latency) (channel / 4)) b ⟨⟩
      (b.onDma (dmac channel) fun c => { c with high := false }) := by
  have hdmac : channel / 4 = 0 ∧ dmac channel = 0 ∨ channel / 4 = 1 ∧ dmac channel = 1 := by
    rcases channel_cases h with rfl | rfl | rfl | rfl | rfl | rfl | rfl | rfl <;> decide
  rcases hdmac with ⟨hquot, hdmac⟩ | ⟨hquot, hdmac⟩ <;> rw [resetFlipflop, hquot, hdmac]
  · rw [if_pos rfl]
    exact FloppyMachine.outb_acts hlatency (by decide : (0x0C : Nat) ≠ 0x3F5)
  · rw [if_neg (by decide)]
    exact FloppyMachine.outb_acts hlatency (by decide : (0xD8 : Nat) ≠ 0x3F5)

theorem setup_acts (h : channel ≤ 7) (isWrite : Bool) :
    Acts (FloppyMachine.look limit) (setup (FloppyMachine.ports disks latency) isWrite channel)
      b ⟨⟩ ((b.onDma (dmac channel) fun c => c.update (lane channel) fun ch =>
        { ch with masked := true, mode := modeByte isWrite channel }).onDma 0 Dma8237.unmasked) := by
  have hsetup : setup (FloppyMachine.ports disks latency) isWrite channel =
      setMode (FloppyMachine.ports disks latency) channel (if isWrite then 0x48 else 0x44) := by
    cases isWrite <;> rfl
  have hreg : (if channel < 4 then 0x0B else 0xD6) ≠ 0x3F5 := by split <;> decide
  have hmode : (if isWrite then 0x48 else 0x44) ||| (if channel < 4 then channel else channel - 4) =
      modeByte isWrite channel ∧ (modeByte isWrite channel).toNat % 4 = lane channel := by
    rcases channel_cases h with rfl | rfl | rfl | rfl | rfl | rfl | rfl | rfl <;>
      cases isWrite <;> decide
  have hno : (if channel < 4 then 0 else 1) = 0 ↔ channel < 4 := by
    by_cases hlt : channel < 4 <;> simp [hlt]
  have hstore := modeReg_store h
    (b.onDma (dmac channel) fun c => c.update (lane channel) fun ch => { ch with masked := true })
    (modeByte isWrite channel)
  simp only [Dma8237.write, hmode.2, FloppyBoard.onDma_onDma, Dma8237.update_update] at hstore
  rw [hsetup, setMode, if_neg (UInt8.not_lt.mpr h), ← hstore]
  simp only [hno, hmode.1]
  exact (maskChannel_acts hlatency h).bind
    ((FloppyMachine.outb_acts hlatency hreg).bind (unmaskAll_acts hlatency))

theorem setExternalPagereg_acts (h : channel ≤ 7) (page : UInt8) :
    Acts (FloppyMachine.look limit)
      (setExternalPagereg (FloppyMachine.ports disks latency) channel page) b ⟨⟩
      (setPage b channel page) := by
  rcases channel_cases h with rfl | rfl | rfl | rfl | rfl | rfl | rfl | rfl
  case inr.inr.inr.inr.inl => exact .pure _
  all_goals exact FloppyMachine.outb_acts hlatency (by decide)

theorem prepare_acts (h : channel ≤ 7) (address count : UInt16) (page : UInt8) (isWrite : Bool) :
    Acts (FloppyMachine.look limit)
      (prepare (FloppyMachine.ports disks latency) channel address count page isWrite) b ⟨⟩
      ((setPage (b.onDma (dmac channel) (prepared channel address count isWrite)) channel page).onDma
        0 Dma8237.unmasked) := by
  refine Acts.congr ((maskChannel_acts hlatency h).bind <| (resetFlipflop_acts hlatency h).bind <|
    (setAddress_acts hlatency h address ?_).bind <| (resetFlipflop_acts hlatency h).bind <|
    (setCount_acts hlatency h count ?_).bind <| (setExternalPagereg_acts hlatency h page).bind <|
    (setup_acts hlatency h isWrite).bind (unmaskAll_acts hlatency)) ?_
  · simp [FloppyBoard.onDma]
  · simp [FloppyBoard.onDma]
  · simp only [FloppyBoard.onDma_onDma, setPage_onDma, Dma8237.update, Dma8237.unmasked,
      Function.update_idem, Function.update_self]
    rfl

/-- **A transfer is set up whatever the state of the controllers.** The channel gets the
address, the count and the mode. Of every other channel only the mask changes: all channels of
the first controller are open then. A channel of the second one stays masked. Channels 1 and 3
have one page register. -/
theorem prepare_sets (h : channel ≤ 7) (address count : UInt16) (page : UInt8) (isWrite : Bool)
    (b : FloppyBoard) : ∃ b',
      Acts (FloppyMachine.look limit)
        (prepare (FloppyMachine.ports disks latency) channel address count page isWrite) b ⟨⟩ b' ∧
      (b'.dma (dmac channel)).channel (lane channel) =
        ⟨address.toNat, count.toNat, modeByte isWrite channel, decide (4 ≤ channel)⟩ ∧
      (∀ i j, (i, j) ≠ (dmac channel, lane channel) → (b'.dma i).channel j =
        { (b.dma i).channel j with masked := i != 0 && ((b.dma i).channel j).masked }) ∧
      (∀ port, pagePort channel = some port → b'.page port = page) ∧
      ∀ other ≤ 7, other ≠ channel → ∀ port, pagePort other = some port →
        b'.page port = if channel = 1 ∧ other = 3 ∨ channel = 3 ∧ other = 1 then page
          else b.page port := by
  have hsecond : (dmac channel != 0 && true) = decide (4 ≤ channel) := by
    rcases channel_cases h with rfl | rfl | rfl | rfl | rfl | rfl | rfl | rfl <;> decide
  refine ⟨_, prepare_acts hlatency h address count page isWrite, ?_, fun i j hne => ?_,
    fun port hport => ?_, fun other hother hne port hport => ?_⟩
  · rw [FloppyBoard.unmasked_channel, setPage_dma, FloppyBoard.onDma_dma, if_pos rfl,
      prepared_channel, if_pos rfl, hsecond]
  · have hchannel : ((b.onDma (dmac channel) (prepared channel address count isWrite)).dma
        i).channel j = (b.dma i).channel j := by
      rw [FloppyBoard.onDma_dma]
      split
      case isTrue hi => rw [prepared_channel, if_neg fun hj => hne (by rw [hi, hj])]
      case isFalse => rfl
    rw [FloppyBoard.unmasked_channel, setPage_dma, hchannel]
  · exact (setPage_page page port).trans (if_pos hport)
  · have hshared := pagePort_eq_iff h hother hport
    rw [or_iff_right hne] at hshared
    exact (setPage_page page port).trans (if_congr hshared rfl rfl)

end Acts

end Board

/-- A board in the middle of things. -/
def scrambled : FloppyBoard where
  dor := 0x1C
  rate := 2
  nonDma := true
  phase := .executing
  track := fun _ => 40
  pcn := fun _ => 3
  pending := [[0x80, 9]]
  dma := fun _ => ⟨fun _ => ⟨7, 7, 7, true⟩, true, false⟩
  page := fun _ => 0xFF
  ram := fun _ => 0xA5
  fired := true

theorem prepare_sets_three : ∃ b',
    Acts (FloppyMachine.look 500) (prepare (FloppyMachine.ports (fun _ => ⟨fun _ => none⟩) fun _ => 0)
      3 0x2000 99 0x12 true) scrambled ⟨⟩ b' ∧
    (b'.dma 0).channel 3 = ⟨0x2000, 99, 0x4B, false⟩ ∧
    (b'.dma 1).channel 3 = ⟨7, 7, 7, true⟩ ∧ b'.page 0x83 = 0x12 ∧ b'.page 0x87 = 0xFF := by
  obtain ⟨b', hacts, hset, hothers, hpage, hpages⟩ := prepare_sets (fun _ => (by decide : 0 < 500))
    (by decide : (3 : UInt8) ≤ 7) 0x2000 99 0x12 true scrambled
  exact ⟨b', hacts, hset, hothers 1 3 (by decide), hpage 0x83 rfl,
    hpages 0 (by decide) (by decide) 0x87 rfl⟩

end Dma

end Leenix
