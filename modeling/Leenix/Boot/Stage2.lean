import Leenix.Boot.RealMode
import Leenix.Lib.Paging

/-!
# The second stage of the boot loader (boot/stage2.s)

It reads the kernel from the disk, moves it to 1 MB and turns on paging. The disk is its
bytes; reads of the BIOS succeed, and leave any bytes on the stack and in the data of the BIOS.
The registers that count a loop are the arguments of a recursion.

- `fillPt_fills`: the loop that writes page tables.
- `stage2_translates`: the addresses that are mapped then.
- `stage2_hands_over`: the kernel at its linear address, and what is left alone.
-/

namespace Leenix

namespace Boot

/-! ## The constants of boot/common.s -/

def kernelSectors : Nat := 200

def kernelBytes : Nat := kernelSectors * 512

def kernelLoadSeg : Nat := 0x1000

def initPhys0 : Nat := 0x10000

def initPhys1 : Nat := 0x100000

def initPdir : Nat := 0x8000

def initIdentmap : Nat := 0x9000

def initPtable : Nat := 0x10000

def initVirtual : Nat := 0xC0000000

/-! ## The program -/

/-- The bytes on the stack when the BIOS reads a sector: two return addresses, `pusha`, the
packet, and what `int` pushes (stage2.s:27, 57, 77–95). -/
def readDepth : Nat := 2 + 2 + 16 + 16 + 6

/-- `read_sector_ext` (stage2.s:75–100): sector `ebx` to the segment `es`. -/
def readSectorExt (disk : Nat → Byte) (real : RealMode readDepth) (ebx es : Nat) (mem : PhysMem) :
    PhysMem := fun x =>
  if 16 * es ≤ x ∧ x < 16 * es + 512 then disk (512 * ebx + (x - 16 * es))
  else real.spoil ebx mem x

/-- The loop of `load_kernel` (stage2.s:53–62). -/
def readSect (disk : Nat → Byte) (real : RealMode readDepth) :
    Nat → Nat → Nat → PhysMem → PhysMem
  | 0, _, _, mem => mem
  | cx + 1, ax, ebx, mem =>
    readSect disk real cx (ax + 0x20) (ebx + 1) (readSectorExt disk real ebx ax mem)

/-- `load_kernel` (stage2.s:47–64). -/
def loadKernel (disk : Nat → Byte) (real : RealMode readDepth) (mem : PhysMem) : PhysMem :=
  readSect disk real kernelSectors kernelLoadSeg 2 mem

/-- `rep movsb`. -/
def repMovsb : Nat → Nat → Nat → PhysMem → PhysMem
  | 0, _, _, mem => mem
  | ecx + 1, esi, edi, mem => repMovsb ecx (esi + 1) (edi + 1) (Function.update mem edi (mem esi))

/-- `rebase` (stage2.s:161–168). -/
def rebase (mem : PhysMem) : PhysMem := repMovsb kernelBytes initPhys0 initPhys1 mem

/-- `rep stosl`. -/
def repStosl (eax : Nat) : Nat → Nat → PhysMem → PhysMem
  | 0, _, mem => mem
  | ecx + 1, edi, mem => repStosl eax ecx (edi + 4) (store32 mem edi eax)

/-- The loops `.fill_pt` and `.pte_loop` (stage2.s:192–200, 266–273). -/
def fillPt : Nat → Nat → Nat → PhysMem → PhysMem
  | 0, _, _, mem => mem
  | ecx + 1, eax, edi, mem => fillPt ecx (eax + 0x1000) (edi + 4) (store32 mem edi (eax ||| 0x3))

/-- `set_identity_map` (stage2.s:176–209). -/
def setIdentityMap (mem : PhysMem) : PhysMem :=
  let mem := repStosl 0 2048 initPdir mem
  let mem := fillPt 256 0 initIdentmap mem
  store32 mem initPdir (initIdentmap ||| 0x3)

/-- `pde_loop` (stage2.s:253–259). -/
def pdeLoop : Nat → Nat → Nat → PhysMem → PhysMem
  | 0, _, _, mem => mem
  | ecx + 1, esi, ebx, mem =>
    pdeLoop ecx (esi + 0x1000) (ebx + 1) (store32 mem (initPdir + 4 * ebx) (esi ||| 0x3))

/-- `set_physmap` (stage2.s:243–273). -/
def setPhysmap (mem : PhysMem) : PhysMem :=
  fillPt 16384 0 initPtable (pdeLoop 16 initPtable 768 mem)

/-- The memory when the kernel is entered (stage2.s:20–289). -/
def stage2 (disk : Nat → Byte) (real : RealMode readDepth) (mem : PhysMem) : PhysMem :=
  setPhysmap (setIdentityMap (rebase (loadKernel disk real mem)))

/-! ## The copies -/

section Copies

variable {disk : Nat → Byte} {real : RealMode readDepth} {mem : PhysMem}

/-- The sectors that are read are consecutive in memory, as they are on the disk. -/
theorem readSect_apply {x : Nat} (hfree : real.uses x = false) (n s ebx : Nat) :
    readSect disk real n s ebx mem x =
      if 16 * s ≤ x ∧ x < 16 * s + 512 * n then disk (512 * ebx + (x - 16 * s)) else mem x := by
  induction n generalizing s ebx mem with
  | zero => rw [readSect, if_neg (by omega)]
  | succ n ih =>
    rw [readSect, ih, readSectorExt, RealMode.spoil_of_free hfree]
    by_cases hrest : 16 * (s + 0x20) ≤ x ∧ x < 16 * (s + 0x20) + 512 * n
    · have haddr : 512 * (ebx + 1) + (x - 16 * (s + 0x20)) = 512 * ebx + (x - 16 * s) := by omega
      rw [if_pos hrest, if_pos (by omega), haddr]
    · rw [if_neg hrest]
      exact if_congr (by omega) rfl rfl

/-- A copy to higher addresses, without overlap. -/
theorem repMovsb_apply {n a b : Nat} (h : a + n ≤ b) (x : Nat) :
    repMovsb n a b mem x = if b ≤ x ∧ x < b + n then mem (a + (x - b)) else mem x := by
  induction n generalizing a b mem with
  | zero => rw [repMovsb, if_neg (by omega)]
  | succ n ih =>
    rw [repMovsb, ih (by omega)]
    by_cases hrest : b + 1 ≤ x ∧ x < b + 1 + n
    · have haddr : a + 1 + (x - (b + 1)) = a + (x - b) := by omega
      rw [if_pos hrest, if_pos (by omega), haddr, Function.update_of_ne (by omega)]
    · rw [if_neg hrest]
      by_cases hx : x = b
      · rw [hx, Function.update_self, if_pos (by omega), Nat.sub_self, Nat.add_zero]
      · rw [Function.update_of_ne hx, if_neg (by omega)]

theorem loadKernel_apply {x : Nat} (hfree : real.uses x = false) : loadKernel disk real mem x =
    if 0x10000 ≤ x ∧ x < 0x29000 then disk (1024 + (x - 0x10000)) else mem x := by
  rw [loadKernel, readSect_apply hfree, kernelLoadSeg, kernelSectors]

theorem rebase_apply (x : Nat) : rebase mem x =
    if 0x100000 ≤ x ∧ x < 0x119000 then mem (0x10000 + (x - 0x100000)) else mem x := by
  have hbelow : initPhys0 + kernelBytes ≤ initPhys1 := by
    unfold initPhys0 initPhys1 kernelBytes kernelSectors
    omega
  rw [rebase, repMovsb_apply hbelow]
  unfold initPhys0 initPhys1 kernelBytes kernelSectors
  rfl

end Copies

/-! ## The tables -/

section Tables

variable {mem : PhysMem}

/-- The flags of an entry that is present and writable. -/
theorem page_or_flags (p : Nat) : 4096 * p ||| 0x3 = 4096 * p + 3 := by
  have h := Nat.two_pow_add_eq_or_of_lt (by decide : 3 < 2 ^ 12) p
  exact h.symm

theorem repStosl_fills (n a : Nat) : Fills mem (repStosl 0 n a mem) a n fun _ => 0 := by
  induction n generalizing a mem with
  | zero => exact .zero
  | succ n ih => exact .step (by decide) (ih (a + 4)) rfl

theorem fillPt_fills {n p : Nat} (h : p + n ≤ 2 ^ 20) (a : Nat) :
    Fills mem (fillPt n (4096 * p) a mem) a n fun i => 4096 * (p + i) + 3 := by
  induction n generalizing p a mem with
  | zero => exact .zero
  | succ n ih =>
    have hrest : Fills (store32 mem a (4096 * p + 3)) (fillPt n (4096 * (p + 1)) (a + 4)
        (store32 mem a (4096 * p + 3))) (a + 4) n fun i => 4096 * (p + 1 + i) + 3 :=
      ih (by omega) (a + 4)
    have hnext : ∀ i, p + 1 + i = p + (i + 1) := fun i => by omega
    simp only [hnext] at hrest
    rw [fillPt, page_or_flags]
    exact .step (by omega) hrest rfl

/-- The entries of the directory are written as those of a table. -/
theorem pdeLoop_eq (n esi ebx : Nat) :
    pdeLoop n esi ebx mem = fillPt n esi (initPdir + 4 * ebx) mem := by
  induction n generalizing esi ebx mem with
  | zero => rfl
  | succ n ih =>
    rw [pdeLoop, ih, fillPt]
    rfl

/-- The directory and the table for low memory, behind `set_identity_map`. -/
theorem setIdentityMap_spec (mem : PhysMem) :
    (∀ i < 1024, load32 (setIdentityMap mem) (0x8000 + 4 * i) = if i = 0 then 0x9003 else 0) ∧
      (∀ i < 1024, load32 (setIdentityMap mem) (0x9000 + 4 * i) =
        if i < 256 then 4096 * i + 3 else 0) ∧
      ∀ x, x < 0x8000 ∨ 0xA000 ≤ x → setIdentityMap mem x = mem x := by
  have hzero : Fills mem (repStosl 0 2048 initPdir mem) 0x8000 2048 fun _ => 0 :=
    repStosl_fills 2048 initPdir
  have htable : Fills (repStosl 0 2048 initPdir mem) (fillPt 256 0 initIdentmap
      (repStosl 0 2048 initPdir mem)) 0x9000 256 fun i => 4096 * (0 + i) + 3 :=
    fillPt_fills (p := 0) (by omega) initIdentmap
  have hlast : setIdentityMap mem = store32 (fillPt 256 0 initIdentmap
      (repStosl 0 2048 initPdir mem)) 0x8000 0x9003 := rfl
  rw [hlast]
  generalize repStosl 0 2048 initPdir mem = m₁ at hzero htable ⊢
  generalize fillPt 256 0 initIdentmap m₁ = m₂ at htable ⊢
  refine ⟨fun i hi => ?_, fun i hi => ?_, fun x hx => ?_⟩
  · by_cases hi0 : i = 0
    · rw [hi0, if_pos rfl, load32_store32 (by omega)]
    · rw [if_neg hi0, load32_store32_of_ne (by omega), htable.load32_outside (by omega),
        hzero.word i (by omega)]
  · rw [load32_store32_of_ne (by omega)]
    by_cases hlow : i < 256
    · rw [if_pos hlow, htable.word i hlow, Nat.zero_add]
    · have hword := hzero.word (1024 + i) (by omega)
      rw [if_neg hlow, htable.load32_outside (by omega)]
      rwa [show 0x8000 + 4 * (1024 + i) = 0x9000 + 4 * i by omega] at hword
  · rw [store32_outside (by omega), htable.outside x (by omega), hzero.outside x (by omega)]

/-- The directory and the tables for the mapped memory, behind `set_physmap`. -/
theorem setPhysmap_spec (mem : PhysMem) :
    (∀ i < 16, load32 (setPhysmap mem) (0x8000 + 4 * (768 + i)) = 4096 * (16 + i) + 3) ∧
      (∀ i < 16384, load32 (setPhysmap mem) (0x10000 + 4 * i) = 4096 * i + 3) ∧
      ∀ x, x < 0x8C00 ∨ 0x8C40 ≤ x ∧ x < 0x10000 ∨ 0x20000 ≤ x → setPhysmap mem x = mem x := by
  have hdir : Fills mem (pdeLoop 16 initPtable 768 mem) 0x8C00 16 fun i => 4096 * (16 + i) + 3 := by
    rw [pdeLoop_eq]
    exact fillPt_fills (p := 16) (by omega) _
  have htables : Fills (pdeLoop 16 initPtable 768 mem) (setPhysmap mem) 0x10000 16384
      fun i => 4096 * (0 + i) + 3 :=
    fillPt_fills (p := 0) (by omega) initPtable
  refine ⟨fun i hi => ?_, fun i hi => ?_, fun x hx => ?_⟩
  · rw [htables.load32_outside (by omega), show 0x8000 + 4 * (768 + i) = 0x8C00 + 4 * i by omega,
      hdir.word i hi]
  · rw [htables.word i hi, Nat.zero_add]
  · rw [htables.outside x (by omega), hdir.outside x (by omega)]

end Tables

/-! ## When the kernel is entered -/

section Entered

variable (disk : Nat → Byte) (real : RealMode readDepth) (mem : PhysMem)

/-- The entries of the directory. -/
theorem stage2_pde {i : Nat} (hi : i < 1024) : load32 (stage2 disk real mem) (0x8000 + 4 * i) =
    if i = 0 then 4096 * 9 + 3
    else if 768 ≤ i ∧ i < 784 then 4096 * (16 + (i - 768)) + 3 else 0 := by
  obtain ⟨hdir, -, houtside⟩ := setPhysmap_spec (setIdentityMap (rebase (loadKernel disk real mem)))
  obtain ⟨hidentity, -, -⟩ := setIdentityMap_spec (rebase (loadKernel disk real mem))
  by_cases hhigh : 768 ≤ i ∧ i < 784
  · obtain ⟨k, rfl⟩ : ∃ k, i = 768 + k := ⟨i - 768, by omega⟩
    rw [stage2, hdir k (by omega), if_neg (by omega), if_pos hhigh, Nat.add_sub_cancel_left]
  · rw [stage2, load32_congr fun j hj => houtside _ (by omega), hidentity i hi, if_neg hhigh]

/-- The entries of the table for low memory. -/
theorem stage2_identity {i : Nat} (hi : i < 1024) :
    load32 (stage2 disk real mem) (0x9000 + 4 * i) = if i < 256 then 4096 * i + 3 else 0 := by
  obtain ⟨-, -, houtside⟩ := setPhysmap_spec (setIdentityMap (rebase (loadKernel disk real mem)))
  obtain ⟨-, htable, -⟩ := setIdentityMap_spec (rebase (loadKernel disk real mem))
  rw [stage2, load32_congr fun j hj => houtside _ (by omega), htable i hi]

/-- The entries of the tables for the mapped memory. -/
theorem stage2_physmap {i : Nat} (hi : i < 16384) :
    load32 (stage2 disk real mem) (0x10000 + 4 * i) = 4096 * i + 3 :=
  (setPhysmap_spec _).2.1 i hi

/-- An address below 4 MB, through the first entry of the directory. -/
theorem walk_low {va : Nat} (hva : va < 2 ^ 22) : walk (stage2 disk real mem) initPdir va =
    if va < 0x100000 then some va else none := by
  have hdir : va / 2 ^ 22 = 0 := by omega
  have hpde : load32 (stage2 disk real mem) (initPdir / 4096 * 4096 + 4 * (va / 2 ^ 22)) =
      4096 * 9 + 3 := by
    rw [hdir]
    exact stage2_pde disk real mem (by decide : 0 < 1024)
  have hpte := stage2_identity disk real mem (Nat.mod_lt (va / 4096) (by decide : 0 < 1024))
  rw [walk_eq hpde, show 4096 * 9 = 0x9000 from rfl, hpte]
  by_cases hmb : va < 0x100000
  · have hword : (4096 * (va / 4096 % 1024) + 3) % 2 ≠ 0 := by omega
    rw [if_pos (by omega : va / 4096 % 1024 < 256), if_neg hword, if_pos hmb]
    exact congrArg some (by omega)
  · rw [if_neg (by omega : ¬va / 4096 % 1024 < 256), if_neg hmb, if_pos rfl]

/-- An address of the 64 MB from 3 GB on. -/
theorem walk_high {va : Nat} (hva : 0xC0000000 ≤ va ∧ va < 0xC4000000) :
    walk (stage2 disk real mem) initPdir va = some (va - 0xC0000000) := by
  have hpde : load32 (stage2 disk real mem) (initPdir / 4096 * 4096 + 4 * (va / 2 ^ 22)) =
      4096 * (16 + (va / 2 ^ 22 - 768)) + 3 := by
    have h := stage2_pde disk real mem (by omega : va / 2 ^ 22 < 1024)
    rwa [if_neg (by omega), if_pos (by omega)] at h
  have hpte := stage2_physmap disk real mem
    (by omega : (va / 2 ^ 22 - 768) * 1024 + va / 4096 % 1024 < 16384)
  have haddr : 4096 * (16 + (va / 2 ^ 22 - 768)) + 4 * (va / 4096 % 1024) =
      0x10000 + 4 * ((va / 2 ^ 22 - 768) * 1024 + va / 4096 % 1024) := by omega
  rw [walk_eq hpde, haddr, hpte, if_neg (by omega)]
  exact congrArg some (by omega)

/-- **What is mapped**: the first megabyte where it is, and the first 64 MB from 3 GB on. -/
theorem stage2_translates {va : Nat} (hva : va < 2 ^ 32) : walk (stage2 disk real mem) initPdir va =
    if va < 0x100000 then some va
    else if 0xC0000000 ≤ va ∧ va < 0xC4000000 then some (va - 0xC0000000)
    else none := by
  by_cases hlow : va < 2 ^ 22
  · rw [walk_low disk real mem hlow, if_neg (by omega : ¬(0xC0000000 ≤ va ∧ va < 0xC4000000))]
  · rw [if_neg (by omega : ¬va < 0x100000)]
    by_cases hhigh : 0xC0000000 ≤ va ∧ va < 0xC4000000
    · rw [walk_high disk real mem hhigh, if_pos hhigh]
    · have hpde := stage2_pde disk real mem (by omega : va / 2 ^ 22 < 1024)
      rw [if_neg (by omega), if_neg (by omega)] at hpde
      rw [if_neg hhigh]
      exact walk_eq_none hpde

theorem stage2_translates_entry : walk (stage2 (fun _ => 0) (.sample readDepth fun _ _ => 7)
    fun _ => 0xFF) initPdir 0xC0100018 = some 0x100018 :=
  (stage2_translates (fun _ => 0) (.sample readDepth fun _ _ => 7) (fun _ => 0xFF)
    (by decide : 0xC0100018 < 2 ^ 32)).trans (by decide)

variable {real}

/-- The kernel's image, from the disk. -/
theorem stage2_image (hbuffer : ∀ x, initPhys0 ≤ x → x < initPhys0 + kernelBytes → real.uses x = false)
    {k : Nat} (hk : k < 0x19000) : stage2 disk real mem (0x100000 + k) = disk (1024 + k) := by
  obtain ⟨-, -, hphysmap⟩ := setPhysmap_spec (setIdentityMap (rebase (loadKernel disk real mem)))
  obtain ⟨-, -, hidentity⟩ := setIdentityMap_spec (rebase (loadKernel disk real mem))
  have hfree : real.uses (0x10000 + k) = false := by
    unfold initPhys0 kernelBytes kernelSectors at hbuffer
    exact hbuffer _ (by omega) (by omega)
  rw [stage2, hphysmap _ (by omega), hidentity _ (by omega), rebase_apply, if_pos (by omega),
    Nat.add_sub_cancel_left, loadKernel_apply hfree, if_pos (by omega), Nat.add_sub_cancel_left]

/-- What is left alone. -/
theorem stage2_outside {x : Nat} (hfree : real.uses x = false)
    (hx : x < 0x8000 ∨ 0x29000 ≤ x ∧ x < 0x100000 ∨ 0x119000 ≤ x) : stage2 disk real mem x = mem x := by
  obtain ⟨-, -, hphysmap⟩ := setPhysmap_spec (setIdentityMap (rebase (loadKernel disk real mem)))
  obtain ⟨-, -, hidentity⟩ := setIdentityMap_spec (rebase (loadKernel disk real mem))
  rw [stage2, hphysmap x (by omega), hidentity x (by omega), rebase_apply, if_neg (by omega),
    loadKernel_apply hfree, if_neg (by omega)]

/-- **The kernel is entered** with its image at the address that it is linked to, which is the
file on the disk from sector 2 on, if the BIOS leaves the place alone where the sectors are read
to. Its entry point is what is jumped to. Low memory below the page directory, and what is above
the place where the sectors were read to, is as it was, without the stack and what the BIOS
uses. -/
theorem stage2_hands_over
    (hbuffer : ∀ x, initPhys0 ≤ x → x < initPhys0 + kernelBytes → real.uses x = false) :
    (∀ k < kernelBytes, (walk (stage2 disk real mem) initPdir (initVirtual + initPhys1 + k)).map
      (stage2 disk real mem) = some (disk (2 * 512 + k))) ∧
    load32 (stage2 disk real mem) (initPhys1 + 0x18) = load32 (fun k => disk (2 * 512 + k)) 0x18 ∧
    ∀ x, real.uses x = false →
      x < initPdir ∨ initPhys0 + kernelBytes ≤ x ∧ x < initPhys1 ∨ initPhys1 + kernelBytes ≤ x →
      stage2 disk real mem x = mem x := by
  refine ⟨fun k hk => ?_, ?_, fun x hfree hx => ?_⟩
  · have hk : k < 102400 := hk
    have hwalk := walk_high disk real mem (by omega :
      0xC0000000 ≤ 0xC0000000 + 0x100000 + k ∧ 0xC0000000 + 0x100000 + k < 0xC4000000)
    have haddr : 0xC0000000 + 0x100000 + k - 0xC0000000 = 0x100000 + k := by omega
    rw [initVirtual, initPhys1, hwalk, haddr, Option.map_some, stage2_image disk mem hbuffer hk]
  · have hword := fun i (hi : i < 4) => stage2_image disk mem hbuffer (by omega : 0x18 + i < 0x19000)
    simp only [← Nat.add_assoc] at hword
    have hfirst : stage2 disk real mem (0x100000 + 0x18) = disk (2 * 512 + 0x18) :=
      hword 0 (by decide)
    have hsecond : stage2 disk real mem (0x100000 + 0x18 + 1) = disk (2 * 512 + (0x18 + 1)) :=
      hword 1 (by decide)
    have hthird : stage2 disk real mem (0x100000 + 0x18 + 2) = disk (2 * 512 + (0x18 + 2)) :=
      hword 2 (by decide)
    have hfourth : stage2 disk real mem (0x100000 + 0x18 + 3) = disk (2 * 512 + (0x18 + 3)) :=
      hword 3 (by decide)
    rw [load32, load32, initPhys1, hfirst, hsecond, hthird, hfourth]
  · unfold initPdir initPhys0 initPhys1 kernelBytes kernelSectors at hx
    exact stage2_outside disk mem hfree (by omega)

/-- Over a stack full of sevens, the memory map at 0x300C stays, and the kernel's magic is where
it is linked to. -/
theorem stage2_hands_over_sample :
    let disk : Nat → Byte := fun k => if k = 1024 then 0x7F else 0
    let m := stage2 disk (.sample readDepth fun _ _ => 7) fun _ => 0xFF
    (walk m initPdir 0xC0100000).map m = some 0x7F ∧ m 0x300C = 0xFF := by
  have hbuffer : ∀ x, initPhys0 ≤ x → x < initPhys0 + kernelBytes →
      (RealMode.sample readDepth fun _ _ => 7).uses x = false := by
    intro x hlow _
    unfold initPhys0 at hlow
    exact RealMode.sample_free (by omega) (.inr (by unfold stackTopReal; omega))
  obtain ⟨himage, -, hframe⟩ := stage2_hands_over (fun k => if k = 1024 then 0x7F else 0)
    (fun _ => 0xFF) hbuffer
  exact ⟨himage 0 (by decide), hframe 0x300C (by decide) (.inl (by decide))⟩

end Entered

end Boot

end Leenix
