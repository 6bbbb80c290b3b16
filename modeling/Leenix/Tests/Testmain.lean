import Leenix.Libc.Vsprintf

/-!
# The kernel's side of the tests (tests/testmain.c, driver/serial.c)

The kernel reads commands from the serial port, a byte at a time, runs the test of that name and
sends what it reports. What a test does to the rest of the kernel, and what it sends, is given with
the table of the tests.

- `readTurn_stored`: the buffer holds the first 127 characters of a command.
- `dispatch_stored`: a command is looked up by them.
- `getc_char`, `getc_empty`, `getc_command`: what the kernel does with a byte.
-/

namespace Leenix

namespace Tests

variable {σ : Type*}

/-- The bytes that `serial_puts` writes (serial.c:92–102). -/
def serialPuts (str : List Byte) : List Byte :=
  str.flatMap fun c => if c = 0x0A then [0x0D, c] else [c]

/-- `send_msg` (testmain.c:151–154). -/
def sendMsg (msg : List Byte) : List Byte := serialPuts msg ++ [ascii '*']

/-- A test (testmain.h): its name, and what it does: the state after, and what it sends. -/
structure TestCase (σ : Type*) where
  name : CString
  func : σ → σ × List Byte

/-- `CMD_BUF_SIZE`. -/
def cmdBufSize : Nat := 128

/-- `cmd_buf` and the number of characters in it. -/
structure CmdBuf where
  buf : List Byte
  start : Nat

/-- `cmd_buf` after `memset`. -/
def CmdBuf.cleared : CmdBuf := ⟨List.replicate cmdBufSize 0, 0⟩

/-- A turn of the loop of `read_command` (testmain.c:127–143): whether it was the last one, and the
buffer after. -/
def readTurn (cmd : CmdBuf) (c : Byte) : Bool × CmdBuf :=
  if c = 0 ∨ c = 0x0A ∨ c = 0x0D then (true, ⟨cmd.buf.set cmd.start 0, cmd.start⟩)
  else if cmd.start < cmdBufSize - 1 then (false, ⟨cmd.buf.set cmd.start c, cmd.start + 1⟩)
  else (false, cmd)

/-- The text of the answer to a command that is not in the table. -/
def unknownCommand : List Byte := "Unknown command".toList.map ascii

/-- The search in the table, and the call (testmain.c:97–114). -/
def dispatch (tests : List (TestCase σ)) (s : σ) (cmdBuf : List Byte) : σ × List Byte :=
  match tests.find? fun t => strcmp cmdBuf (terminated t.name.1) = some 0 with
  | some t => t.func s
  | none => (s, sendMsg unknownCommand)

/-- Where `start_tests` is: in `read_command`, or sending the rest of an answer. -/
inductive Mode
  | reading (cmd : CmdBuf)
  | sending (out : List Byte)

/-- The kernel: what the tests change, and where `start_tests` is. -/
structure TestKernel (σ : Type*) where
  state : σ
  mode : Mode

/-- Back to `read_command`, once all is sent. -/
def Mode.resume (out : List Byte) : Mode := if out = [] then .reading .cleared else .sending out

/-- A byte that `serial_getc` returns, while one is waited for. -/
def TestKernel.getc (tests : List (TestCase σ)) (k : TestKernel σ) (c : Byte) : Option (TestKernel σ) :=
  match k.mode with
  | .sending _ => none
  | .reading cmd =>
    let (last, cmd) := readTurn cmd c
    if !last then some { k with mode := .reading cmd }
    -- empty command, ignore
    else if cmd.start = 0 then some { k with mode := .reading .cleared }
    else
      let (state, out) := dispatch tests k.state cmd.buf
      some ⟨state, .resume out⟩

/-- The byte that `serial_putc` writes, if there is one to write. -/
def TestKernel.putc (k : TestKernel σ) : Option (Byte × TestKernel σ) :=
  match k.mode with
  | .sending (c :: out) => some (c, { k with mode := .resume out })
  | _ => none

/-! ## What a command does -/

/-- The test that a command names, by its first 127 characters, and what is sent. -/
def answer (tests : List (TestCase σ)) (s : σ) (command : List Byte) : σ × List Byte :=
  match tests.find? fun t => t.name.1 = command.take (cmdBufSize - 1) with
  | some t => t.func s
  | none => (s, sendMsg unknownCommand)

/-- The buffer after some characters. -/
def stored (command : List Byte) : CmdBuf where
  buf := command.take (cmdBufSize - 1) ++
    List.replicate (cmdBufSize - min command.length (cmdBufSize - 1)) 0
  start := min command.length (cmdBufSize - 1)

/-- The characters that end a command. -/
def EndsCommand (c : Byte) : Prop := c = 0 ∨ c = 0x0A ∨ c = 0x0D

instance (c : Byte) : Decidable (EndsCommand c) := inferInstanceAs (Decidable (_ ∨ _))

variable {tests : List (TestCase σ)} {s : σ} {command : List Byte} {c : Byte}

theorem stored_nil : stored [] = .cleared := rfl

/-- A character is stored, as long as there is room. -/
theorem readTurn_stored (hc : ¬EndsCommand c) :
    readTurn (stored command) c = (false, stored (command ++ [c])) := by
  have hc : ¬(c = 0 ∨ c = 0x0A ∨ c = 0x0D) := hc
  unfold readTurn
  rw [if_neg hc]
  unfold stored cmdBufSize
  by_cases hroom : command.length < 127
  · have hlen : (command ++ [c]).length = command.length + 1 := List.length_append
    have hzeros : List.replicate (128 - command.length) (0 : Byte) =
        0 :: List.replicate (128 - (command.length + 1)) 0 := by
      rw [← List.replicate_succ]
      exact congrArg (List.replicate · 0) (by omega)
    simp only [Nat.reduceSub]
    rw [hlen, Nat.min_eq_left (by omega), Nat.min_eq_left (by omega), if_pos hroom,
      List.take_of_length_le (by omega), List.take_of_length_le (by omega), hzeros,
      List.set_append_right _ _ (Nat.le_refl _), Nat.sub_self, List.set_cons_zero,
      List.append_assoc]
    rfl
  · have hlen : (command ++ [c]).length = command.length + 1 := List.length_append
    simp only [Nat.reduceSub]
    rw [hlen, Nat.min_eq_right (by omega), Nat.min_eq_right (by omega), if_neg (by omega),
      List.take_append_of_le_length (by omega)]

/-- The end of a command leaves the buffer as it is. -/
theorem readTurn_end (hc : EndsCommand c) (command : List Byte) :
    readTurn (stored command) c = (true, stored command) := by
  have hc : c = 0 ∨ c = 0x0A ∨ c = 0x0D := hc
  unfold readTurn
  rw [if_pos hc]
  unfold stored cmdBufSize
  have hlen : (command.take 127).length = min command.length 127 := by
    rw [List.length_take, Nat.min_comm]
  obtain ⟨n, hn⟩ : ∃ n, 128 - min command.length 127 = n + 1 := ⟨127 - min command.length 127, by omega⟩
  simp only [Nat.reduceSub]
  rw [hn, List.replicate_succ, List.set_append_right _ _ hlen.le, hlen, Nat.sub_self,
    List.set_cons_zero]

/-- A command is looked up by what is in the buffer. -/
theorem dispatch_stored (hzero : 0 ∉ command) (s : σ) :
    dispatch tests s (stored command).buf = answer tests s command := by
  have hbuf : (stored command).buf = terminated (command.take (cmdBufSize - 1)) ++
      List.replicate (cmdBufSize - 1 - min command.length (cmdBufSize - 1)) 0 := by
    obtain ⟨n, hn⟩ : ∃ n, cmdBufSize - min command.length (cmdBufSize - 1) = n + 1 :=
      ⟨cmdBufSize - 1 - min command.length (cmdBufSize - 1), by unfold cmdBufSize; omega⟩
    have hrest : cmdBufSize - 1 - min command.length (cmdBufSize - 1) = n := by omega
    rw [stored, hn, hrest, terminated, List.replicate_succ, List.append_assoc]
    rfl
  have hsame : ∀ t : TestCase σ, (strcmp (stored command).buf (terminated t.name.1) = some 0) =
      (t.name.1 = command.take (cmdBufSize - 1)) := by
    intro t
    have hprefix : 0 ∉ command.take (cmdBufSize - 1) := fun h => hzero (List.mem_of_mem_take h)
    obtain ⟨r, hr, hiff⟩ := strcmp_eq_zero_iff hprefix t.name.2
      (List.replicate (cmdBufSize - 1 - min command.length (cmdBufSize - 1)) 0) []
    rw [← hbuf, List.append_nil] at hr
    rw [hr, Option.some.injEq]
    exact propext (hiff.trans eq_comm)
  simp only [dispatch, answer, hsame]

/-! ## What the kernel does with a byte -/

theorem getc_char (hc : ¬EndsCommand c) (s : σ) (command : List Byte) :
    TestKernel.getc tests ⟨s, .reading (stored command)⟩ c =
      some ⟨s, .reading (stored (command ++ [c]))⟩ := by
  simp only [TestKernel.getc, readTurn_stored hc, Bool.not_false, if_true]

/-- Nothing comes of an empty command. -/
theorem getc_empty (hc : EndsCommand c) (s : σ) :
    TestKernel.getc tests ⟨s, .reading (stored [])⟩ c = some ⟨s, .reading (stored [])⟩ := by
  have hstart : (stored []).start = 0 := rfl
  simp only [TestKernel.getc, readTurn_end hc, Bool.not_true, Bool.false_eq_true, if_false, hstart,
    if_true]
  rw [stored_nil]

theorem getc_command (hc : EndsCommand c) (s : σ) (hne : command ≠ []) (hzero : 0 ∉ command) :
    TestKernel.getc tests ⟨s, .reading (stored command)⟩ c =
      some ⟨(answer tests s command).1, .resume (answer tests s command).2⟩ := by
  have hstart : (stored command).start ≠ 0 := by
    have hpos := List.length_pos_iff.mpr hne
    simp only [stored, cmdBufSize]
    omega
  simp only [TestKernel.getc, readTurn_end hc, Bool.not_true, Bool.false_eq_true, if_false, hstart,
    dispatch_stored hzero]

end Tests

end Leenix
