import Leenix.Init.Gdt

/-!
# What the descriptors allow (init/gdt.c, proc/tss.c)

The descriptor table after any run, from the side of the processor.

- `Held.find_segment`, `Held.find_task`: the descriptors that are found.
- `thread_segments`: the segments of a thread are flat and of its privilege level.
- `user_selectors`: what a program in ring 3 can load is user memory.
- `user_ports`: the ports it can access. The map of the ports is the task state segment
  itself.
-/

namespace Leenix

namespace Gdt

variable {gdt tss : UInt32} {mem mem₀ : Nat → Byte} {esp0 : UInt32}

/-! ## The descriptors that are found -/

/-- A byte with or without the mark. -/
theorem eq_or_of_mark {a c : UInt8} (h : a ||| 0x01 = c ||| 0x01) (hc : c.toNat % 2 = 0) :
    a = c ∨ a = c + 1 := by
  have hor : ∀ n < 256, n ||| 1 = 2 * (n / 2) + 1 := by decide +kernel
  have hone : (0x01 : UInt8).toNat = 1 := rfl
  have hnat : (a ||| 0x01).toNat = (c ||| 0x01).toNat := congrArg UInt8.toNat h
  have ha := a.toNat_lt
  have hc' := c.toNat_lt
  rw [UInt8.toNat_or, UInt8.toNat_or, hone, hor _ ha, hor _ hc'] at hnat
  simp only [← UInt8.toNat_inj, UInt8.toNat_add, hone]
  omega

/-- An entry for a segment, in the table as it is filled. -/
def IsSegment (entry : Nat) (access : UInt8) : Prop :=
  ∀ tss j, j < 8 → (busyTable tss).getD (8 * entry + j) 0 =
    (createGdtEntry 0x0 0xFFFFFFFF access 0xCF).bytes.getD j 0

theorem lt_eight {j : Nat} (hj : j < 8) :
    j = 0 ∨ j = 1 ∨ j = 2 ∨ j = 3 ∨ j = 4 ∨ j = 5 ∨ j = 6 ∨ j = 7 := by omega

theorem isSegment_kernelCode : IsSegment 1 kernelCode := by
  intro tss j hj
  rcases lt_eight hj with rfl | rfl | rfl | rfl | rfl | rfl | rfl | rfl <;> rfl

theorem isSegment_kernelData : IsSegment 2 kernelData := by
  intro tss j hj
  rcases lt_eight hj with rfl | rfl | rfl | rfl | rfl | rfl | rfl | rfl <;> rfl

theorem isSegment_userCode : IsSegment 3 userCode := by
  intro tss j hj
  rcases lt_eight hj with rfl | rfl | rfl | rfl | rfl | rfl | rfl | rfl <;> rfl

theorem isSegment_userData : IsSegment 4 userData := by
  intro tss j hj
  rcases lt_eight hj with rfl | rfl | rfl | rfl | rfl | rfl | rfl | rfl <;> rfl

/-- The descriptor of a segment is decoded from its bytes. -/
theorem ofBytes_congr {byte byte' : Nat → UInt8} (h : ∀ j, j < 8 → j ≠ 5 → byte j = byte' j) :
    SegDescriptor.ofBytes byte = { SegDescriptor.ofBytes byte' with access := byte 5 } := by
  simp only [SegDescriptor.ofBytes, h 0 (by decide) (by decide), h 1 (by decide) (by decide),
    h 2 (by decide) (by decide), h 3 (by decide) (by decide), h 4 (by decide) (by decide),
    h 6 (by decide) (by decide), h 7 (by decide) (by decide)]

/-- **A segment** that the table was filled with. -/
theorem Held.find_segment (h : Held gdt tss mem esp0) {entry selector : Nat} {access : UInt8}
    (hentry : 1 ≤ entry ∧ entry ≤ 4) (hsegment : IsSegment entry access)
    (hselector : selector / 4 = 2 * entry) (heven : access.toNat % 2 = 0) :
    ∃ a, (gdtPtr gdt).find mem selector = some ⟨0, 2 ^ 20 - 1, a, 12⟩ ∧
      (a = access ∨ a = access + 1) := by
  have hindex : selector / 8 = entry := by omega
  have hinside : ¬(selector / 8 = 0 ∨ selector / 4 % 2 = 1 ∨ 8 * 6 - 1 < selector / 8 * 8 + 7) := by
    omega
  have hbyte : ∀ j, j < 8 → j ≠ 5 → mem (gdt.toNat + selector / 8 * 8 + j) =
      (createGdtEntry 0x0 0xFFFFFFFF access 0xCF).bytes.getD j 0 := by
    intro j hj hne
    have hmark : mark (8 * entry + j) = 0x00 := if_neg (by omega)
    have htable := h.table (8 * entry + j) (by omega)
    have hor : ∀ x : Byte, x ||| 0x00 = x := fun x => UInt8.or_zero
    rw [hmark, hor, hor] at htable
    rw [← hsegment tss j hj, ← htable, hindex]
    congr 1
    omega
  have haccess := h.table (8 * entry + 5) (by omega)
  have hmark : mark (8 * entry + 5) = 0x01 := if_pos (by omega)
  rw [hmark, hsegment tss 5 (by decide)] at haccess
  refine ⟨mem (gdt.toNat + selector / 8 * 8 + 5), ?_, eq_or_of_mark ?_ heven⟩
  · rw [DescTable.find, gdtPtr, if_neg hinside, ofBytes_congr hbyte, createGdtEntry_decode]
    rfl
  · rw [hindex, Nat.mul_comm, Nat.add_assoc]
    exact haccess

/-- **The task state segment**, as `tss_flush` loads it. -/
theorem Held.find_task (h : Held gdt tss mem esp0) {selector : Nat} (hselector : selector / 4 = 10) :
    (gdtPtr gdt).find mem selector =
      some ⟨(taskSegment tss).base, (taskSegment tss).limit, 0xEB, 0⟩ := by
  have hindex : selector / 8 = 5 := by omega
  have hinside : ¬(selector / 8 = 0 ∨ selector / 4 % 2 = 1 ∨ 8 * 6 - 1 < selector / 8 * 8 + 7) := by
    omega
  have hbyte : ∀ j, j < 8 → mem (gdt.toNat + selector / 8 * 8 + j) =
      (createGdtEntry tss 103 0xEB 0x00).bytes.getD j 0 := by
    intro j hj
    have hmark : mark (40 + j) = 0x00 := if_neg (by omega)
    have htable := h.table (40 + j) (by omega)
    have hor : ∀ x : Byte, x ||| 0x00 = x := fun x => UInt8.or_zero
    rw [hmark, hor, hor] at htable
    rw [hindex, Nat.add_assoc, htable]
    rcases lt_eight hj with rfl | rfl | rfl | rfl | rfl | rfl | rfl | rfl <;> rfl
  have hcongr := ofBytes_congr fun j hj _ => hbyte j hj
  rw [hbyte 5 (by decide)] at hcongr
  rw [DescTable.find, gdtPtr, if_neg hinside, hcongr, createGdtEntry_decode]
  rfl

/-- No other selector has a descriptor. -/
theorem find_eq_none (gdt : UInt32) (mem : Nat → Byte) {selector : Nat}
    (h : selector / 4 ≠ 2 ∧ selector / 4 ≠ 4 ∧ selector / 4 ≠ 6 ∧ selector / 4 ≠ 8 ∧ selector / 4 ≠ 10) :
    (gdtPtr gdt).find mem selector = none := by
  have houtside : selector / 8 = 0 ∨ selector / 4 % 2 = 1 ∨ 8 * 6 - 1 < selector / 8 * 8 + 7 := by
    omega
  rw [DescTable.find, gdtPtr, if_pos houtside]

/-! ## The segments of a thread -/

/-- The descriptors by their access bytes. -/
theorem flat_segment (a : UInt8) : SegDescriptor.Flat ⟨0, 2 ^ 20 - 1, a, 12⟩ :=
  SegDescriptor.flat_of_eq _ rfl rfl (by decide : (12 : Nat).testBit 3 = true)

/-- What the checks say of a selector for code. -/
theorem Held.code (h : Held gdt tss mem esp0) {entry selector : Nat} {access : UInt8}
    (hentry : 1 ≤ entry ∧ entry ≤ 4) (hsegment : IsSegment entry access)
    (hselector : selector / 4 = 2 * entry) (haccess : access = kernelCode ∨ access = userCode) :
    ∃ d, (gdtPtr gdt).find mem selector = some d ∧ d.Flat ∧ d.dpl = access.toNat / 2 ^ 5 % 4 ∧
      d.present = true ∧ d.isCode = true ∧ d.isData = false ∧ d.writable = true ∧
      d.conforming = false := by
  have heven : access.toNat % 2 = 0 := by
    rcases haccess with rfl | rfl <;> rfl
  obtain ⟨a, hfind, ha⟩ := h.find_segment hentry hsegment hselector heven
  refine ⟨_, hfind, flat_segment a, ?_⟩
  rcases haccess with rfl | rfl <;> rcases ha with rfl | rfl <;> decide

/-- And of one for data. -/
theorem Held.data (h : Held gdt tss mem esp0) {entry selector : Nat} {access : UInt8}
    (hentry : 1 ≤ entry ∧ entry ≤ 4) (hsegment : IsSegment entry access)
    (hselector : selector / 4 = 2 * entry) (haccess : access = kernelData ∨ access = userData) :
    ∃ d, (gdtPtr gdt).find mem selector = some d ∧ d.Flat ∧ d.dpl = access.toNat / 2 ^ 5 % 4 ∧
      d.present = true ∧ d.isCode = false ∧ d.isData = true ∧ d.writable = true := by
  have heven : access.toNat % 2 = 0 := by
    rcases haccess with rfl | rfl <;> rfl
  obtain ⟨a, hfind, ha⟩ := h.find_segment hentry hsegment hselector heven
  refine ⟨_, hfind, flat_segment a, ?_⟩
  rcases haccess with rfl | rfl <;> rcases ha with rfl | rfl <;> decide

variable {tr : List (Edge (Nat → Byte) Store)}

/-- The segments that the context of a thread asks for. -/
theorem threadContext_segments (entry top : Nat) :
    ((Kernel.threadContext entry top).cs = 0x08 ∧ (Kernel.threadContext entry top).ds = 0x10 ∧
        (Kernel.threadContext entry top).ss = 0x10 ∨
      (Kernel.threadContext entry top).cs = 0x1B ∧ (Kernel.threadContext entry top).ds = 0x23 ∧
        (Kernel.threadContext entry top).ss = 0x23) ∧
      (Kernel.threadContext entry top).eflags = 0x202 := by
  unfold Kernel.threadContext
  dsimp only
  split
  · exact ⟨.inl ⟨rfl, rfl, rfl⟩, rfl⟩
  · exact ⟨.inr ⟨rfl, rfl, rfl⟩, rfl⟩

/-- The table and the segment where the linker could put them, and a switch to a thread. -/
theorem sampleRun : ∃ tr mem, Run (step 0xC0104000 0xC0104040)
    (gdtInitFlatProtected 0xC0104000 0xC0104040 fun _ => 0xA5) tr mem ∧
      tr.foldl lastEsp0 0 = 0xD0001000 :=
  ⟨_, _, .single (show step _ _ _ (.updateEsp0 0xD0001000) = some _ from rfl), rfl⟩

theorem apart_sample : Apart 0xC0104000 0xC0104040 := .inl (by decide)

/-- A code and a data segment of one level, on the way there from level 0. -/
theorem Held.pair (h : Held gdt tss mem esp0) {codeEntry dataEntry cs ss : Nat}
    {codeAccess dataAccess : UInt8} (hcode : 1 ≤ codeEntry ∧ codeEntry ≤ 4)
    (hcodeSegment : IsSegment codeEntry codeAccess) (hcs : cs / 4 = 2 * codeEntry)
    (hcodeAccess : codeAccess = kernelCode ∨ codeAccess = userCode)
    (hdata : 1 ≤ dataEntry ∧ dataEntry ≤ 4) (hdataSegment : IsSegment dataEntry dataAccess)
    (hss : ss / 4 = 2 * dataEntry) (hdataAccess : dataAccess = kernelData ∨ dataAccess = userData)
    (hcodeRing : codeAccess.toNat / 2 ^ 5 % 4 = cs % 4)
    (hdataRing : dataAccess.toNat / 2 ^ 5 % 4 = cs % 4) (hring : ss % 4 = cs % 4) :
    (gdtPtr gdt).loadsData mem 0 ss = true ∧ (gdtPtr gdt).returns mem 0 cs = true ∧
      (gdtPtr gdt).loadsStack mem (cs % 4) ss = true ∧
      ∀ selector, selector = cs ∨ selector = ss → ∃ d, (gdtPtr gdt).find mem selector = some d ∧
        d.dpl = cs % 4 ∧ d.Flat := by
  obtain ⟨code, hfindCode, hflatCode, hcodeDpl, hcodePresent, hcodeCode, -, -, hcodeConforming⟩ :=
    h.code hcode hcodeSegment hcs hcodeAccess
  obtain ⟨data, hfindData, hflatData, hdataDpl, hdataPresent, hdataCode, hdataData, hdataWritable⟩ :=
    h.data hdata hdataSegment hss hdataAccess
  rw [hcodeRing] at hcodeDpl
  rw [hdataRing] at hdataDpl
  refine ⟨?_, ?_, ?_, ?_⟩
  · simp [DescTable.loadsData, hfindData, hdataPresent, hdataCode, hdataData, hdataDpl, hring]
  · simp [DescTable.returns, hfindCode, hcodePresent, hcodeCode, hcodeConforming, hcodeDpl]
  · simp [DescTable.loadsStack, hfindData, hdataPresent, hdataData, hdataWritable, hdataDpl, hring]
  · rintro selector (rfl | rfl)
    · exact ⟨code, hfindCode, hcodeDpl, hflatCode⟩
    · exact ⟨data, hfindData, hdataDpl, hflatData⟩

/-- The bytes of a word. -/
theorem bytes32_toNat (v : UInt32) :
    v.toUInt8.toNat + 256 * (v >>> 8).toUInt8.toNat + 65536 * (v >>> 16).toUInt8.toNat +
      16777216 * (v >>> 24).toUInt8.toNat = v.toNat := by
  have hv := v.toNat_lt
  simp [Nat.shiftRight_eq_div_pow]
  omega

/-- The stack for ring 0. -/
theorem Held.stack0_eq (h : Held gdt tss mem esp0) :
    (taskSegment tss).stack0 mem = (0x10, esp0.toNat) := by
  have hss : (taskSegment tss).word mem 8 = 0x10 := by
    have hlow : mem (tss.toNat + 8) = (segOffset 2).toUInt8 := h.task 8 (by decide)
    have hhigh : mem (tss.toNat + 9) = (segOffset 2 >>> 8).toUInt8 := h.task 9 (by decide)
    rw [TaskSegment.word, taskSegment, hlow, hhigh]
    decide
  have hesp : load32 mem (tss.toNat + 4) = esp0.toNat := by
    have h0 : mem (tss.toNat + 4) = esp0.toUInt8 := h.task 4 (by decide)
    have h1 : mem (tss.toNat + 4 + 1) = (esp0 >>> 8).toUInt8 := h.task 5 (by decide)
    have h2 : mem (tss.toNat + 4 + 2) = (esp0 >>> 16).toUInt8 := h.task 6 (by decide)
    have h3 : mem (tss.toNat + 4 + 3) = (esp0 >>> 24).toUInt8 := h.task 7 (by decide)
    rw [load32, h0, h1, h2, h3, bytes32_toNat]
  rw [TaskSegment.stack0, hss]
  exact congrArg (Prod.mk 0x10) hesp

/-- **The segments of a thread.** After any run, `scheduler_switch` can load what
`thread_create` put into a context, and goes on at the level of that context, where every
offset is the linear address. A trap in ring 3 finds the stack that `tss_update_esp0` set
last, in a segment for ring 0. -/
theorem thread_segments (hapart : Apart gdt tss)
    (hrun : Run (step gdt tss) (gdtInitFlatProtected gdt tss mem₀) tr mem) (entry top : Nat) :
    let c := Kernel.threadContext entry top
    ((gdtPtr gdt).loadsData mem 0 c.ds = true ∧ (gdtPtr gdt).returns mem 0 c.cs = true ∧
        (gdtPtr gdt).loadsStack mem (c.cs % 4) c.ss = true ∧
        ∀ selector, selector = c.cs ∨ selector = c.ds ∨ selector = c.ss →
          ∃ d, (gdtPtr gdt).find mem selector = some d ∧ d.dpl = c.cs % 4 ∧ d.Flat) ∧
      (taskSegment tss).stack0 mem = (0x10, (tr.foldl lastEsp0 0).toNat) ∧
      (gdtPtr gdt).loadsStack mem 0 0x10 = true := by
  intro c
  have h := run_held hapart hrun
  have hkernel := h.pair (by decide) isSegment_kernelCode (by decide : 0x08 / 4 = 2 * 1) (.inl rfl)
    (by decide) isSegment_kernelData (by decide : 0x10 / 4 = 2 * 2) (.inl rfl) rfl rfl rfl
  have huser := h.pair (by decide) isSegment_userCode (by decide : 0x1B / 4 = 2 * 3) (.inr rfl)
    (by decide) isSegment_userData (by decide : 0x23 / 4 = 2 * 4) (.inr rfl) rfl rfl rfl
  refine ⟨?_, h.stack0_eq, hkernel.2.2.1⟩
  · obtain ⟨hsegments, -⟩ := threadContext_segments entry top
    rcases hsegments with ⟨hcs, hds, hss⟩ | ⟨hcs, hds, hss⟩
    · simpa only [c, hcs, hds, hss, or_self] using hkernel
    · simpa only [c, hcs, hds, hss, or_self] using huser

theorem thread_segments_sample : ∃ mem : Nat → Byte,
    (gdtPtr 0xC0104000).loadsStack mem 3 0x23 = true ∧
      (taskSegment 0xC0104040).stack0 mem = (0x10, 0xD0001000) := by
  obtain ⟨tr, mem, hrun, hesp⟩ := sampleRun
  obtain ⟨⟨-, -, hstack, -⟩, htrap, -⟩ := thread_segments apart_sample hrun 0x400000 0
  rw [hesp] at htrap
  exact ⟨mem, hstack, htrap⟩

/-! ## Programs in ring 3 -/

/-- The ports of the words that are not zero in the segment, but for the stack pointer. -/
def selectorPorts : List Nat :=
  [68, 576, 577, 580, 608, 609, 611, 640, 641, 644, 672, 673, 676, 704, 705, 708, 736, 737, 740]

/-- The bits of the segment, without the stack pointer. -/
theorem tssWith_bits : ∀ port < 824, port < 32 ∨ 64 ≤ port →
    ((((tssWith 0).bytes.getD (port / 8) 0).toNat.testBit (port % 8) = true ↔
      port ∈ selectorPorts)) := by
  decide +kernel

/-- The bits of the stack pointer. -/
theorem bytes32_bits (v : UInt32) {n : Nat} (hn : n < 32) :
    ((bytes32 v).getD (n / 8) 0).toNat.testBit (n % 8) = v.toNat.testBit n := by
  have hbyte : ((bytes32 v).getD (n / 8) 0).toNat = v.toNat / 2 ^ (8 * (n / 8)) % 2 ^ 8 := by
    obtain hj | hj | hj | hj : n / 8 = 0 ∨ n / 8 = 1 ∨ n / 8 = 2 ∨ n / 8 = 3 := by omega
    all_goals
      rw [hj]
      simp [bytes32, Nat.shiftRight_eq_div_pow]
  have hsum : n % 8 + 8 * (n / 8) = n := by omega
  rw [hbyte, Nat.testBit_mod_two_pow, Nat.testBit_div_two_pow, hsum]
  simp [Nat.mod_lt]

/-- The map of the ports starts at the segment itself. -/
theorem Held.allows_iff (h : Held gdt tss mem esp0) (port : Nat) :
    (taskSegment tss).allows mem 3 0 port = true ↔
      port < 824 ∧ ((tssWith esp0).bytes.getD (port / 8) 0).toNat.testBit (port % 8) = false := by
  have hmap : (taskSegment tss).word mem 102 = 0 := by
    have hlow : mem (tss.toNat + 102) = (0 : UInt16).toUInt8 := h.task 102 (by decide)
    have hhigh : mem (tss.toNat + 103) = ((0 : UInt16) >>> 8).toUInt8 := h.task 103 (by decide)
    rw [TaskSegment.word, taskSegment, hlow, hhigh]
    decide
  have hlimit : (taskSegment tss).limit = 103 := rfl
  have hbase : (taskSegment tss).base = tss.toNat := rfl
  simp only [TaskSegment.allows, hmap, hlimit, hbase, Nat.zero_add, Bool.or_eq_true, Bool.and_eq_true,
    decide_eq_true_eq, Bool.not_eq_true']
  have hring : ¬3 ≤ 0 := by decide
  rw [or_iff_right hring]
  by_cases hin : port < 824
  · have hbyte : mem (tss.toNat + port / 8) = (tssWith esp0).bytes.getD (port / 8) 0 :=
      h.task _ (show port / 8 < 104 by omega)
    rw [hbyte]
    exact and_congr_left' ⟨fun _ => hin, fun _ => by omega⟩
  · exact iff_of_false (fun hin' => by omega) fun hin' => hin hin'.1

/-- **The ports of ring 3.** After any run, with the flags that `thread_create` sets, a program in
ring 3 can access the ports below 824 whose bit is clear in the segment: all of them but those
of the set bits of the stack pointer, at 32, and of the selectors. -/
theorem user_ports (hapart : Apart gdt tss)
    (hrun : Run (step gdt tss) (gdtInitFlatProtected gdt tss mem₀) tr mem) (entry top port : Nat) :
    (taskSegment tss).allows mem 3 ((Kernel.threadContext entry top).eflags / 2 ^ 12 % 4) port = true ↔
      port < 824 ∧ port ∉ selectorPorts ∧
        ¬(32 ≤ port ∧ port < 64 ∧ (tr.foldl lastEsp0 0).toNat.testBit (port - 32) = true) := by
  have hiopl : (Kernel.threadContext entry top).eflags / 2 ^ 12 % 4 = 0 := by
    rw [(threadContext_segments entry top).2]
    decide
  rw [hiopl, (run_held hapart hrun).allows_iff]
  refine and_congr_right fun hport => ?_
  rw [tssWith_bytes _ 0]
  by_cases hword : 32 ≤ port ∧ port < 64
  · have hbits := bytes32_bits (tr.foldl lastEsp0 0) (show port - 32 < 32 by omega)
    have hindex : (port - 32) / 8 = port / 8 - 4 := by omega
    have hbit : (port - 32) % 8 = port % 8 := by omega
    have hother : port ∉ selectorPorts := by
      have hall : ∀ p ∈ selectorPorts, 64 ≤ p := by decide
      exact fun hmem => absurd (hall port hmem) (by omega)
    rw [hindex, hbit] at hbits
    rw [if_pos (by omega), hbits]
    simp [hword, hother]
  · have hbits := tssWith_bits port hport (by omega)
    rw [if_neg (by omega), ← Bool.not_eq_true, hbits]
    exact ⟨fun hmem => ⟨hmem, fun hin => hword ⟨hin.1, hin.2.1⟩⟩, fun hmem => hmem.1⟩

theorem user_ports_sample : ∃ mem : Nat → Byte,
    (taskSegment 0xC0104040).allows mem 3 0 0x00 = true ∧
      (taskSegment 0xC0104040).allows mem 3 0 0x2C = false ∧
      (taskSegment 0xC0104040).allows mem 3 0 0x3F8 = false := by
  obtain ⟨tr, mem, hrun, hesp⟩ := sampleRun
  have hports := fun port => user_ports apart_sample hrun 0x400000 0 port
  simp only [hesp] at hports
  refine ⟨mem, (hports 0).mpr (by decide), ?_, ?_⟩
  · exact Bool.eq_false_iff.mpr fun h => absurd ((hports 0x2C).mp h) (by decide)
  · exact Bool.eq_false_iff.mpr fun h => absurd ((hports 0x3F8).mp h) (by decide)

end Gdt

end Leenix
