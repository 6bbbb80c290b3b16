import Leenix.Lib.Run
import Leenix.Tests.Testmain

/-!
# The host's side of the tests, and the line between (tests/runner.py)

The host calls the kernel over a line that keeps the order of the bytes each way. A step of a
session is one of the kernel, which takes or sends one byte, or one of the host, which sends a
command, takes some of the bytes that have arrived, or gives up. How many bytes a `recv` returns
does not depend on where the answers end.

- `sessionStep`: the steps.
- `called`, `returned`: what a step says about the calls of `send_serial`.
-/

namespace Leenix

namespace Tests

variable {σ : Type*}

/-- `decode ('ascii', errors='ignore')`. -/
def decode (data : List Byte) : List Byte := data.filter (· < 0x80)

/-- `response.endswith ("*")`. -/
def EndsWithMarker (response : List Byte) : Prop := response.getLast? = some (ascii '*')

instance (response : List Byte) : Decidable (EndsWithMarker response) :=
  inferInstanceAs (Decidable (_ = _))

/-- The kernel, the bytes on the line each way, and the response so far, if the host is in
`send_serial`. -/
structure Session (σ : Type*) where
  kernel : TestKernel σ
  toKernel : List Byte
  toHost : List Byte
  response : Option (List Byte)

/-- The steps: a call of `send_serial`, a byte that the kernel takes, a byte that it sends, a
`recv` of that many bytes, and a timeout of a `recv`. -/
inductive SessionAct
  | call (command : List Byte)
  | getc
  | putc
  | recv (n : Nat)
  | timeout
deriving DecidableEq

/-- The kernel in `read_command` for the first time, and nothing on the line. -/
def Session.start (s : σ) : Session σ := ⟨⟨s, .reading .cleared⟩, [], [], none⟩

/-- A step of a session (runner.py:111–166). A step that is not possible has no value: one host
makes one call at a time. -/
def sessionStep (tests : List (TestCase σ)) (s : Session σ) : SessionAct → Option (Session σ)
  | .call command =>
    if s.response.isSome then none
    -- `encode ('ascii')` raises an exception on other characters
    else if ∃ c ∈ command, 0x80 ≤ c then some s
    else some { s with toKernel := s.toKernel ++ (command ++ [0x0A]), response := some [] }
  | .getc =>
    match s.toKernel with
    | [] => none
    | c :: rest => (s.kernel.getc tests c).map fun k => { s with kernel := k, toKernel := rest }
  | .putc => s.kernel.putc.map fun r => { s with kernel := r.2, toHost := s.toHost ++ [r.1] }
  | .recv n =>
    match s.response with
    | none => none
    | some response =>
      if n = 0 ∨ 1024 < n ∨ s.toHost.length < n then none
      else
        let data := decode (s.toHost.take n)
        -- without characters the line counts as closed
        if data = [] ∨ EndsWithMarker (response ++ data) then
          some { s with toHost := s.toHost.drop n, response := none }
        else some { s with toHost := s.toHost.drop n, response := some (response ++ data) }
  | .timeout => if s.response.isSome then some { s with response := none } else none

/-- The command of a step that is a call. -/
def called (e : Edge (Session σ) SessionAct) : Option (List Byte) :=
  match e.op with
  | .call command => some command
  | _ => none

/-- What a step makes `send_serial` return, if it makes it return a response. -/
def returned (e : Edge (Session σ) SessionAct) : Option (List Byte) :=
  match e.op, e.pre.response with
  | .recv n, some response =>
    let data := decode (e.pre.toHost.take n)
    if data ≠ [] ∧ EndsWithMarker (response ++ data) then some (response ++ data) else none
  | _, _ => none

/-- A command that can be sent: it has characters, all of them ASCII, and none that ends a
command. -/
structure Sendable (command : List Byte) : Prop where
  ne : command ≠ []
  ascii : ∀ c ∈ command, c < 0x80
  plain : ∀ c ∈ command, ¬EndsCommand c

/-- A test that reports as `send_msg` does: characters and one marker, at the end. -/
def Reports (t : TestCase σ) : Prop :=
  ∀ s, ∃ msg, (t.func s).2 = msg ++ [ascii '*'] ∧ ∀ c ∈ msg, c < 0x80 ∧ c ≠ ascii '*'

/-- A text without a marker is such a report. -/
theorem reports_sendMsg {msg : List Byte} (hmsg : ∀ c ∈ msg, c < 0x80 ∧ c ≠ ascii '*') :
    ∃ text, sendMsg msg = text ++ [ascii '*'] ∧ ∀ c ∈ text, c < 0x80 ∧ c ≠ ascii '*' := by
  refine ⟨serialPuts msg, rfl, fun c hc => ?_⟩
  obtain ⟨d, hd, hc⟩ := List.mem_flatMap.mp hc
  have hreturn : (0x0D : Byte) < 0x80 ∧ (0x0D : Byte) ≠ ascii '*' := by decide
  split at hc
  · rcases List.mem_cons.mp hc with rfl | hc
    · exact hreturn
    · exact List.mem_singleton.mp hc ▸ hmsg d hd
  · exact List.mem_singleton.mp hc ▸ hmsg d hd

theorem unknownCommand_plain : ∀ c ∈ unknownCommand, c < 0x80 ∧ c ≠ ascii '*' := by
  have hall : unknownCommand.all (fun c => c < 0x80 ∧ c ≠ ascii '*') = true := by decide
  exact fun c hc => of_decide_eq_true (List.all_eq_true.mp hall c hc)

/-- Every command is answered by a report. -/
theorem answer_reports {tests : List (TestCase σ)} (htests : ∀ t ∈ tests, Reports t) (s : σ)
    (command : List Byte) : ∃ msg, (answer tests s command).2 = msg ++ [ascii '*'] ∧
      ∀ c ∈ msg, c < 0x80 ∧ c ≠ ascii '*' := by
  unfold answer
  split
  case h_1 t ht => exact htests t (List.mem_of_find?_eq_some ht) s
  case h_2 => exact reports_sendMsg unknownCommand_plain

end Tests

end Leenix
