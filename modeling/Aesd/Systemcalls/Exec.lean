/-
# Running a program

`examples/systemcalls/systemcalls.c`: `do_system`, `do_exec` and `do_exec_redirect`.  Each runs a
program in a child process and sums the attempt up in one boolean.  An invocation here is that
boolean together with what the two processes did: the system calls of the caller, and the child with
its own calls, the program it became, and the way it ended.

`World` holds everything the kernel decides: whether `open`, `fork`, `dup2` and `waitpid` fail, and
for every path and argument vector whether `execv` executes it and how the program then ends.  The
log is left out: its messages, and its opening and closing.
-/
import Aesd.Lib.WaitStatus
import Mathlib.Data.List.Basic

namespace Aesd.Systemcalls

open WaitStatus

/-! ## 1. Strings, calls and what the kernel answers -/

/-- A C string: the bytes before its NUL. -/
structure CStr where
  bytes : List UInt8
  noNul : 0 ∉ bytes
deriving DecidableEq

/-- The first byte: the NUL itself if the string is empty. -/
def CStr.first (s : CStr) : UInt8 := s.bytes.headD 0

/-- `command`: one string or more, without the NULL at the end. -/
structure Command where
  path : CStr
  args : List CStr

def Command.argv (command : Command) : List CStr := command.path :: command.args

inductive Syscall
  | «open» (path : CStr)
  | fork
  | dup2 (fd newfd : ℕ)
  | close (fd : ℕ)
  | execv (path : CStr) (argv : List CStr)
  | exit (code : ℤ)
  | waitpid (pid : ℕ)
deriving DecidableEq

/-- The answers of the kernel.  `execv` gives the end of the program, or nothing if it fails. -/
structure World where
  «open» : CStr → Option ℕ
  fork : Option ℕ
  dup2Fails : Bool := false
  execv : CStr → List CStr → Option Ending
  waitpidFails : Bool := false

/-- A child process: its calls, the program it became, and its end. -/
structure Child where
  calls : List Syscall
  image : Option (CStr × List CStr)
  ending : Ending

/-- What a function returns, the calls it made itself, and the child it created. -/
structure Invocation where
  ret : Bool
  calls : List Syscall
  child : Option Child

/-! ## 2. The child -/

/-- `execv(path, argv); exit(code);` -/
def execOrExit (w : World) (path : CStr) (argv : List CStr) (code : ℤ) : Child :=
  match w.execv path argv with
  | some ending => ⟨[.execv path argv], some (path, argv), ending⟩
  | none => ⟨[.execv path argv, .exit code], none, exit code⟩

/-- `STDOUT_FILENO` -/
def stdoutFileno : ℕ := 1

/-- The child of `do_exec`. -/
def doExecChild (w : World) (command : Command) : Child :=
  execOrExit w command.path command.argv (-1)

/-- The child of `do_exec_redirect`. -/
def doExecRedirectChild (w : World) (fd : ℕ) (command : Command) : Child :=
  if w.dup2Fails then ⟨[.dup2 fd stdoutFileno, .exit (-1)], none, exit (-1)⟩
  else
    let child := execOrExit w command.path command.argv (-1)
    { child with calls := .dup2 fd stdoutFileno :: .close fd :: child.calls }

/-! ## 3. The functions -/

/-- `waitpid` and the tests that follow it. -/
def waitChild (w : World) (child : Child) : Bool :=
  if w.waitpidFails then false
  else if wifexited child.ending.status then true
  else false

/-- The loop of `do_exec` over `command[1]` to `command[count - 1]`. -/
def checkArgs : List CStr → Bool
  | [] => true
  | arg :: args => if arg.first ≠ 45 ∧ arg.first ≠ 47 then false else checkArgs args

def doExec (w : World) (command : Command) : Invocation :=
  if command.path.first ≠ 47 then ⟨false, [], none⟩
  else if !checkArgs command.args then ⟨false, [], none⟩
  else
    match w.fork with
    | none => ⟨false, [.fork], none⟩
    | some pid =>
      let child := doExecChild w command
      ⟨waitChild w child, [.fork, .waitpid pid], some child⟩

def doExecRedirect (w : World) (outputfile : CStr) (command : Command) : Invocation :=
  if command.path.first ≠ 47 then ⟨false, [], none⟩
  else
    match w.open outputfile with
    | none => ⟨false, [.open outputfile], none⟩
    | some fd =>
      match w.fork with
      | none => ⟨false, [.open outputfile, .fork], none⟩
      | some pid =>
        let child := doExecRedirectChild w fd command
        ⟨waitChild w child, [.open outputfile, .fork, .close fd, .waitpid pid], some child⟩

/-- `"/bin/sh"` -/
def shell : CStr := ⟨[47, 98, 105, 110, 47, 115, 104], by decide⟩

/-- `"sh", "-c", cmd` -/
def shellArgv (cmd : CStr) : List CStr := [⟨[115, 104], by decide⟩, ⟨[45, 99], by decide⟩, cmd]

/-- The child of `system`. -/
def systemChild (w : World) (cmd : CStr) : Child := execOrExit w shell (shellArgv cmd) 127

/-- `system`: -1 if there is no child or its status cannot be had, else the status of a child that
executes the shell, or exits with 127 if it cannot. -/
def system (w : World) (cmd : CStr) : ℤ × List Syscall × Option Child :=
  match w.fork with
  | none => (-1, [.fork], none)
  | some pid =>
    let child := systemChild w cmd
    (if w.waitpidFails then -1 else child.ending.status, [.fork, .waitpid pid], some child)

def doSystem (w : World) (cmd : CStr) : Invocation :=
  let (ret, calls, child) := system w cmd
  if ret = -1 then ⟨false, calls, child⟩ else ⟨true, calls, child⟩

/-! ## 4. What they do -/

theorem checkArgs_iff {args : List CStr} :
    checkArgs args = true ↔ ∀ arg ∈ args, arg.first = 45 ∨ arg.first = 47 := by
  induction args with
  | nil => simp [checkArgs]
  | cons arg args ih =>
    rw [checkArgs, List.forall_mem_cons, ← ih]
    by_cases h : arg.first ≠ 45 ∧ arg.first ≠ 47
    · simp [h.1, h.2]
    · rw [if_neg h]
      exact ⟨fun ha => ⟨by tauto, ha⟩, fun ha => ha.2⟩

/-- `command[0]` is an absolute path and the loop finds nothing to refuse. -/
def Command.Accepted (command : Command) : Prop :=
  command.path.first = 47 ∧ checkArgs command.args = true

/-- The program a child became and its end come from the answer to its `execv`. -/
theorem execOrExit_image (w : World) (path : CStr) (argv : List CStr) (code : ℤ) :
    (execOrExit w path argv code).image = (w.execv path argv).map fun _ => (path, argv) := by
  unfold execOrExit
  cases w.execv path argv with
  | none => rfl
  | some e => rfl

theorem execOrExit_ending (w : World) (path : CStr) (argv : List CStr) (code : ℤ) :
    (execOrExit w path argv code).ending = endOf (w.execv path argv) code := by
  unfold execOrExit
  cases w.execv path argv with
  | none => rfl
  | some e => rfl

end Aesd.Systemcalls
