import Mathlib.Data.Finmap
import Mathlib.Logic.Function.Basic

/-!
# Words, kernel memory and the trap frame

The machine vocabulary that the rest of the model shares.

- The value of a `uint32_t` (or an address) is a `Nat`; wrap-around is an
  explicit `u32` where the code's arithmetic can reach it.
- `Ptr`, `Heap`: the identity of a heap object and the finite map of the live
  ones. A null pointer is `none`; an object that was freed is absent, so a
  dereference of a null or dangling pointer has no value. `proj` reads one
  field of every live object.
- `Mem`: the words of kernel stacks, by address.
- `InterruptContext`: the sixteen words of interrupts.h:21–46, in memory order.
- `Cpu.resume`: the `pop`/`popa`/`add`/`iret` sequence of `scheduler_switch`
  (process.c:332–341), one pop after the other.
-/

namespace Leenix

abbrev Byte := UInt8

/-- The identity of a heap object. -/
abbrev Ptr := Nat

/-- The live objects of one type, by pointer. -/
abbrev Heap (α : Type) := Finmap (fun _ : Ptr => α)

/-- One field of every live object, as a function of the pointer. -/
def proj {α β : Type} (f : α → β) (h : Heap α) (p : Ptr) : Option β := (h.lookup p).map f

@[simp] theorem proj_insert {α β : Type} (f : α → β) (h : Heap α) (p : Ptr) (v : α) :
    proj f (h.insert p v) = Function.update (proj f h) p (some (f v)) := by
  funext q
  by_cases hq : q = p
  · subst hq
    simp [proj]
  · simp [proj, Finmap.lookup_insert_of_ne _ hq, Function.update_of_ne hq]

@[simp] theorem proj_erase {α β : Type} (f : α → β) (h : Heap α) (p : Ptr) :
    proj f (h.erase p) = Function.update (proj f h) p none := by
  funext q
  by_cases hq : q = p
  · subst hq
    simp [proj]
  · simp [proj, Finmap.lookup_erase_ne hq, Function.update_of_ne hq]

theorem proj_eq_some {α β : Type} {f : α → β} {h : Heap α} {p : Ptr} {b : β} :
    proj f h p = some b ↔ ∃ v, h.lookup p = some v ∧ f v = b := by
  simp [proj]

/-- A part of a field is a field. -/
theorem proj_map {α β γ : Type} (f : α → β) (g : β → γ) (h : Heap α) (p : Ptr) :
    (proj f h p).map g = proj (fun v => g (f v)) h p := by
  simp only [proj, Option.map_map]
  rfl

/-- Heaps that agree on a field agree on every part of it. -/
theorem proj_congr {α β γ : Type} {f : α → β} {k : α → γ} {h h' : Heap α} (g : β → γ)
    (heq : proj f h' = proj f h) (hk : ∀ v, g (f v) = k v) : proj k h' = proj k h := by
  obtain rfl : (fun v => g (f v)) = k := funext hk
  funext p
  rw [← proj_map f g h' p, heq, proj_map]

/-- A heap with one object has no other one. -/
theorem eq_of_lookup_singleton {α : Type} {p q : Ptr} {v w : α}
    (h : (Finmap.singleton p v : Heap α).lookup q = some w) : q = p ∧ w = v := by
  have hmem : q ∈ (Finmap.singleton p v : Heap α) := Finmap.mem_of_lookup_eq_some h
  rw [Finmap.mem_singleton] at hmem
  subst hmem
  rw [Finmap.lookup_singleton_eq] at h
  exact ⟨rfl, (Option.some.inj h).symm⟩

/-- A list of distinct live objects is no longer than the heap is large. -/
theorem length_le_card {α : Type} {h : Heap α} {ps : List Ptr} (hnd : ps.Nodup)
    (hlive : ∀ p ∈ ps, h.lookup p ≠ none) : ps.length ≤ h.keys.card := by
  rw [← List.toFinset_card_of_nodup hnd]
  refine Finset.card_le_card fun p hp => ?_
  rw [Finmap.mem_keys, ← Finmap.lookup_isSome, Option.isSome_iff_ne_none]
  exact hlive p (List.mem_toFinset.mp hp)

/-- Kernel memory, a 32-bit word at each (word-aligned) address. -/
abbrev Mem := Nat → Nat

/-- Reduction of a value to 32 bits. -/
def u32 (n : Nat) : Nat := n % 2 ^ 32

/-- Reduction of a value to 16 bits. -/
def u16 (n : Nat) : Nat := n % 2 ^ 16

/-- A 32-bit value read as an `int32_t`. -/
def i32 (n : Nat) : Int := if n < 2 ^ 31 then n else (n : Int) - 2 ^ 32

/-! ## Buffers -/

/-- The buffer `old` after `new` was stored at its start. -/
def overlay (old new : List Byte) : List Byte := new ++ old.drop new.length

theorem overlay_of_length_le {old new : List Byte} (h : old.length ≤ new.length) :
    overlay old new = new := by
  rw [overlay, List.drop_eq_nil_of_le h, List.append_nil]

/-- The byte at index `i` of a buffer. -/
def byteOf (b : List Byte) (i : Nat) : Nat := (b.getD i 0).toNat

/-- A little-endian `uint16_t` at index `i`. -/
def le16 (b : List Byte) (i : Nat) : Nat := byteOf b i + 2 ^ 8 * byteOf b (i + 1)

/-- A little-endian `uint32_t` at index `i`. -/
def le32 (b : List Byte) (i : Nat) : Nat := le16 b i + 2 ^ 16 * le16 b (i + 2)

/-! ## Blocks of words -/

/-- Store consecutive words from address `a` upwards. -/
def writeWords (m : Mem) (a : Nat) : List Nat → Mem
  | [] => m
  | w :: ws => writeWords (Function.update m a w) (a + 4) ws

theorem writeWords_outside {m : Mem} {ws : List Nat} :
    ∀ {a x : Nat}, x < a ∨ a + 4 * ws.length ≤ x → writeWords m a ws x = m x := by
  induction ws generalizing m with
  | nil => intros; rfl
  | cons w ws ih =>
    intro a x hx
    rw [writeWords, ih (by simp at hx; omega), Function.update_of_ne (by simp at hx; omega)]

theorem writeWords_getElem {m : Mem} {ws : List Nat} {a : Nat} {i : Nat}
    (hi : i < ws.length) : writeWords m a ws (a + 4 * i) = ws[i] := by
  induction ws generalizing m a i with
  | nil => simp at hi
  | cons w ws ih =>
    cases i with
    | zero => rw [writeWords, writeWords_outside (by omega)]; simp
    | succ i =>
      rw [writeWords, show a + 4 * (i + 1) = a + 4 + 4 * i by omega,
        ih (Nat.lt_of_succ_lt_succ hi)]
      rfl

/-! ## The trap frame (interrupts.h:21–46) -/

/-- The machine state saved on a kernel stack, lowest address first. -/
structure InterruptContext where
  ds : Nat
  edi : Nat
  esi : Nat
  ebp : Nat
  esp : Nat
  ebx : Nat
  edx : Nat
  ecx : Nat
  eax : Nat
  interruptNumber : Nat
  errorCode : Nat
  eip : Nat
  cs : Nat
  eflags : Nat
  useresp : Nat
  ss : Nat
deriving DecidableEq, Repr

namespace InterruptContext

/-- `memset (context, 0, sizeof (interrupt_context_t))`. -/
def zero : InterruptContext := ⟨0, 0, 0, 0, 0, 0, 0, 0, 0, 0, 0, 0, 0, 0, 0, 0⟩

/-- `sizeof (interrupt_context_t)`. -/
def size : Nat := 64

def words (c : InterruptContext) : List Nat :=
  [c.ds, c.edi, c.esi, c.ebp, c.esp, c.ebx, c.edx, c.ecx, c.eax, c.interruptNumber,
    c.errorCode, c.eip, c.cs, c.eflags, c.useresp, c.ss]

/-- Write a context at address `a`. -/
def store (m : Mem) (a : Nat) (c : InterruptContext) : Mem := writeWords m a c.words

/-- Read the context at address `a`. -/
def load (m : Mem) (a : Nat) : InterruptContext where
  ds := m a
  edi := m (a + 4)
  esi := m (a + 8)
  ebp := m (a + 12)
  esp := m (a + 16)
  ebx := m (a + 20)
  edx := m (a + 24)
  ecx := m (a + 28)
  eax := m (a + 32)
  interruptNumber := m (a + 36)
  errorCode := m (a + 40)
  eip := m (a + 44)
  cs := m (a + 48)
  eflags := m (a + 52)
  useresp := m (a + 56)
  ss := m (a + 60)

@[simp] theorem length_words (c : InterruptContext) : c.words.length = 16 := rfl

/-- What was stored is what is read back, field by field. -/
theorem load_store (m : Mem) (a : Nat) (c : InterruptContext) : load (store m a c) a = c := by
  have hget : ∀ i (hi : i < 16), store m a c (a + 4 * i) = c.words[i] := fun i hi =>
    writeWords_getElem (by simpa using hi)
  have h0 : store m a c a = c.words[0] := hget 0 (by decide)
  simp only [load, h0, hget 1 (by decide), hget 2 (by decide), hget 3 (by decide),
    hget 4 (by decide), hget 5 (by decide), hget 6 (by decide), hget 7 (by decide),
    hget 8 (by decide), hget 9 (by decide), hget 10 (by decide), hget 11 (by decide),
    hget 12 (by decide), hget 13 (by decide), hget 14 (by decide), hget 15 (by decide)]
  rfl

theorem store_outside {m : Mem} {a x : Nat} {c : InterruptContext}
    (h : x < a ∨ a + size ≤ x) : store m a c x = m x :=
  writeWords_outside (by simpa [size] using h)

/-- A context is read from its own sixteen words only. -/
theorem load_congr {m m' : Mem} {a : Nat} (h : ∀ x, a ≤ x → x < a + size → m' x = m x) :
    load m' a = load m a := by
  have hw : ∀ k, k < size → m' (a + k) = m (a + k) := fun k hk => h _ (by omega) (by omega)
  simp only [load, hw 4 (by decide), hw 8 (by decide), hw 12 (by decide), hw 16 (by decide),
    hw 20 (by decide), hw 24 (by decide), hw 28 (by decide), hw 32 (by decide),
    hw 36 (by decide), hw 40 (by decide), hw 44 (by decide), hw 48 (by decide),
    hw 52 (by decide), hw 56 (by decide), hw 60 (by decide), h a (Nat.le_refl a) (by simp [size])]

end InterruptContext

/-! ## Resuming a saved context -/

/-- The registers that the switch sequence loads. -/
structure Cpu where
  ds : Nat
  edi : Nat
  esi : Nat
  ebp : Nat
  ebx : Nat
  edx : Nat
  ecx : Nat
  eax : Nat
  eip : Nat
  cs : Nat
  eflags : Nat
  esp : Nat
  ss : Nat
deriving DecidableEq, Repr

namespace Cpu

/-- `popl`: the word at the stack pointer, and the stack pointer behind it. -/
def pop (m : Mem) (esp : Nat) : Nat × Nat := (m esp, esp + 4)

/-- `movl frame, %esp; popl %ds; popa; addl $8, %esp; iret`, executed in
ring 0. `popa` discards the saved `esp`; `iret` pops `useresp` and `ss` only
when the popped `cs` selects another privilege level, otherwise the stack
pointer stays behind the three words it popped and `ss` is kept. -/
def resume (m : Mem) (frame kernelSs : Nat) : Cpu :=
  let (ds, esp) := pop m frame
  let (edi, esp) := pop m esp
  let (esi, esp) := pop m esp
  let (ebp, esp) := pop m esp
  let (_, esp) := pop m esp
  let (ebx, esp) := pop m esp
  let (edx, esp) := pop m esp
  let (ecx, esp) := pop m esp
  let (eax, esp) := pop m esp
  let esp := esp + 8
  let (eip, esp) := pop m esp
  let (cs, esp) := pop m esp
  let (eflags, esp) := pop m esp
  if cs % 4 = 0 then
    ⟨ds, edi, esi, ebp, ebx, edx, ecx, eax, eip, cs, eflags, esp, kernelSs⟩
  else
    let (useresp, esp) := pop m esp
    let (ss, _) := pop m esp
    ⟨ds, edi, esi, ebp, ebx, edx, ecx, eax, eip, cs, eflags, useresp, ss⟩

/-- Resuming a frame whose `cs` stays in ring 0 leaves the stack pointer at the
frame's `useresp` word. -/
theorem resume_ring0 {m : Mem} {frame : Nat} (kernelSs : Nat) {c : InterruptContext}
    (hc : InterruptContext.load m frame = c) (hcs : c.cs % 4 = 0) :
    (resume m frame kernelSs).eip = c.eip ∧ (resume m frame kernelSs).esp = frame + 56 := by
  subst hc
  have hcs' : m (frame + 48) % 4 = 0 := hcs
  simp [resume, pop, hcs', InterruptContext.load]

/-- Resuming a frame whose `cs` leaves ring 0 loads the frame's `useresp`. -/
theorem resume_user {m : Mem} {frame : Nat} (kernelSs : Nat) {c : InterruptContext}
    (hc : InterruptContext.load m frame = c) (hcs : c.cs % 4 ≠ 0) :
    (resume m frame kernelSs).eip = c.eip ∧ (resume m frame kernelSs).esp = c.useresp := by
  subst hc
  have hcs' : m (frame + 48) % 4 ≠ 0 := hcs
  simp [resume, pop, hcs', InterruptContext.load]

end Cpu

end Leenix
