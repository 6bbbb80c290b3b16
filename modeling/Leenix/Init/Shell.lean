import Leenix.Init.Dump
import Leenix.Lib.Buffer
import Leenix.Libc.Strtol

/-!
# The shells (init/shell.c, user/shall.c)

`run_cmd` of the kernel shell and of the user shell, on the buffer with the line. What
the C code does without a check is checked here: a `NULL` for a string, an index outside
`args` or `str`, and a read behind the end of the line's memory each have a fault.

The two functions have the same bodies for the commands they share. They differ in the
commands and in the order in which these are compared.
-/

namespace Leenix

/-- The space, which `run_cmd` splits at. -/
def blank : Byte := 0x20

/-- `strlen` (string.c:8–14). -/
def strlen (str : List Byte) : Option Nat := advance (fun _ => true) str

/-- `strcat` (string.c:262–281): the buffer `dest` after. -/
def strcat (dest src : List Byte) : Option (List Byte) := do
  let d ← strlen dest
  let n ← strlen src
  putAll dest d (terminated (src.take n))

/-- A `long` cut to 32 bits. -/
def word (x : Int) : UInt32 := UInt32.ofNat (x % 2 ^ 32).toNat

namespace Shell

/-- What must not happen. -/
inductive Fault
  | nullPointer
  | argsIndex
  | strIndex
  | outside
deriving DecidableEq

def orFault {α : Type} (fault : Fault) : Option α → Except Fault α
  | none => .error fault
  | some a => .ok a

/-- The commands that one of the shells compares with. -/
inductive Command
  | exit
  | clear
  | help
  | heap
  | mdmp
  | ptwalk
  | empty
  | breakpoint
  | kinfo
  | sd
  | echo
  | repeatText
  | color
  | bgcolor
deriving DecidableEq

/-- The string that a command is compared with. -/
def Command.text : Command → List Byte
  | .exit => [0x65, 0x78, 0x69, 0x74]
  | .clear => [0x63, 0x6C, 0x65, 0x61, 0x72]
  | .help => [0x68, 0x65, 0x6C, 0x70]
  | .heap => [0x68, 0x65, 0x61, 0x70]
  | .mdmp => [0x6D, 0x64, 0x6D, 0x70]
  | .ptwalk => [0x70, 0x74, 0x77, 0x61, 0x6C, 0x6B]
  | .empty => []
  | .breakpoint => [0x62, 0x72, 0x65, 0x61, 0x6B]
  | .kinfo => [0x6B, 0x69, 0x6E, 0x66, 0x6F]
  | .sd => [0x73, 0x64]
  | .echo => [0x65, 0x63, 0x68, 0x6F]
  | .repeatText => [0x72, 0x65, 0x70, 0x65, 0x61, 0x74]
  | .color => [0x63, 0x6F, 0x6C, 0x6F, 0x72]
  | .bgcolor => [0x62, 0x67, 0x63, 0x6F, 0x6C, 0x6F, 0x72]

/-- The comparisons of shell.c:30–209, in order. -/
def kernelCommands : List Command :=
  [.exit, .clear, .help, .heap, .mdmp, .ptwalk, .empty, .breakpoint, .kinfo, .sd, .echo,
    .repeatText, .color, .bgcolor]

/-- The comparisons of shall.c:20–135, in order. -/
def userCommands : List Command :=
  [.exit, .help, .mdmp, .empty, .breakpoint, .kinfo, .sd, .echo, .repeatText]

/-- What a line makes a shell do. `plain` is a command without arguments; `exit` is the
one for which `run_cmd` returns true. -/
inductive Action
  | plain (command : Command)
  | usage
  | mdmp (count addr : UInt32)
  | ptwalk (vstart vend : UInt32)
  | echo (str : List Byte)
  | repeatText (n : Int) (str : List Byte)
  | nothing
  | unknown
deriving DecidableEq

/-- `args`, `argc` and the buffer of the line, once it is split. -/
structure Args where
  args : List (Option Nat)
  argc : Nat
  buf : List Byte

namespace Args

variable (a : Args)

/-- `args[i]`. -/
def arg (i : Nat) : Except Fault (Option Nat) := orFault .argsIndex a.args[i]?

/-- The memory behind a pointer that a string function is called with. -/
def str : Option Nat → Except Fault (List Byte)
  | none => .error .nullPointer
  | some p => .ok (a.buf.drop p)

/-- `strtol (p, NULL, base)`. -/
def number (p : Option Nat) (base : Nat) : Except Fault Int := do
  let r ← orFault .outside (strtol (← a.str p) base)
  return r.value

/-- The chain of comparisons with `cmd`, which is `args[0]`. -/
def findCommand (cmd : Option Nat) : List Command → Except Fault (Option Command)
  | [] => return none
  | command :: commands => do
    let r ← orFault .outside (strcmp (← a.str cmd) (terminated command.text))
    if r = 0 then return some command else findCommand cmd commands

/-- `for (; i < argc; i++)` with two `strcat` in the body, `n` turns left
(shell.c:178–181, 192–195, shall.c:127–130, 141–144). -/
def appendArgs : Nat → Nat → List Byte → Except Fault (List Byte)
  | 0, _, str => return str
  | n + 1, i, str => do
    let str ← orFault .strIndex (strcat str (← a.str (← a.arg i)))
    let str ← orFault .strIndex (strcat str (terminated [blank]))
    appendArgs n (i + 1) str

/-- `char str[1024] = ""`, the loop from `first` on, and the store over the last
character: what `str` holds then. -/
def joinArgs (first : Nat) : Except Fault (List Byte) := do
  let str ← a.appendArgs (a.argc - first) first (List.replicate 1024 0)
  let len ← orFault .outside (strlen str)
  -- the index is computed in 32 bits
  let str ← orFault .strIndex (put str (u32 (len + (2 ^ 32 - 1))) 0)
  return cstr str

/-- The body of a command. -/
def execute : Command → Except Fault Action
  | .mdmp =>
    if a.argc < 3 then return .usage
    else do
      let count ← a.number (← a.arg 1) 0
      let addr ← a.number (← a.arg 2) 0
      return .mdmp (word count) (word addr)
  | .ptwalk => do
    let start ← a.arg 1
    let vstart ← if start.isSome then a.number start 0 else pure 0
    let stop ← a.arg 2
    let vend ← if stop.isSome then a.number stop 0 else pure 0x10000
    return .ptwalk (word vstart) (word vend)
  | .echo => do
    let str ← a.joinArgs 1
    return .echo str
  | .repeatText =>
    if 1 < a.argc then do
      let n ← a.number (← a.arg 1) 10
      let str ← a.joinArgs 2
      return .repeatText n str
    else return .nothing
  | command => return .plain command

end Args

/-- `while (token && argc < 4)` (shell.c:22–25, shall.c:12–15), `n` turns left. -/
def readTokens : Nat → Option Nat → List Byte → Option Nat → Nat → List (Option Nat) →
    Except Fault Args
  | n + 1, some token, buf, nextToken, argc, args => do
    let args ← orFault .argsIndex (put args argc (some token))
    let (token, buf, nextToken) ← orFault .outside (strtok buf none [blank] nextToken)
    readTokens n token buf nextToken (argc + 1) args
  | _, _, buf, _, argc, args => return ⟨args, argc, buf⟩

/-- `run_cmd` with the given comparisons. `nextToken` is what earlier calls left in
`next_token`. -/
def runCmd (commands : List Command) (buf : List Byte) (nextToken : Option Nat) :
    Except Fault Action := do
  let (token, buf, nextToken) ← orFault .outside (strtok buf (some 0) [blank] nextToken)
  let a ← readTokens 4 token buf nextToken 0 (List.replicate 4 none)
  match ← a.findCommand (← a.arg 0) commands with
  | some command => a.execute command
  | none => return .unknown

/-- `run_cmd` (init/shell.c:14–220). -/
def kernelRunCmd : List Byte → Option Nat → Except Fault Action := runCmd kernelCommands

/-- `run_cmd` (user/shall.c:4–161). -/
def userRunCmd : List Byte → Option Nat → Except Fault Action := runCmd userCommands

end Shell

end Leenix
