/-
# What the boolean says about the program

All three functions are documented to return true exactly if the program was executed and returned
zero.  They do not look at the exit status: `do_exec` and `do_exec_redirect` test `WIFEXITED`, which
is also true of a child whose `dup2` or `execv` failed and of a program that exits with 1, and
`do_system` tests only that there is a status.

`Tells` is what it takes for the test of a normal end to give the right answer, and
`truthful_iff_tells` the one argument for both functions.
-/
import Aesd.Systemcalls.Exec

namespace Aesd.Systemcalls

open WaitStatus

variable {w : World} {o : Invocation} {child : Child} {program : Option Ending} {path : CStr}
  {argv : List CStr} {code : ℤ}

/-! ## 1. Truthful invocations -/

/-- The child became the program, with these arguments, and exited with 0. -/
def Invocation.Ran (o : Invocation) (path : CStr) (argv : List CStr) : Prop :=
  ∃ child, o.child = some child ∧ child.image = some (path, argv) ∧ child.ending = .exited 0

/-- What is returned is whether the program ran and exited with 0. -/
def Invocation.Truthful (o : Invocation) (path : CStr) (argv : List CStr) : Prop :=
  o.ret = true ↔ o.Ran path argv

/-- A refusal is the truth. -/
theorem truthful_of_no_child (hret : o.ret = false) (hchild : o.child = none) :
    o.Truthful path argv := by
  refine iff_of_false (fun h => ?_) (fun ⟨child, hc, _⟩ => ?_)
  · rw [hret] at h
    exact Bool.false_ne_true h
  · rw [hchild] at hc
    cases hc

/-- A child that is to become a program: how it ends, and what it became. -/
structure Becomes (child : Child) (path : CStr) (argv : List CStr) (program : Option Ending)
    (code : ℤ) : Prop where
  image : child.image = program.map fun _ => (path, argv)
  ending : child.ending = endOf program code

theorem execOrExit_becomes (w : World) (path : CStr) (argv : List CStr) (code : ℤ) :
    Becomes (execOrExit w path argv code) path argv (w.execv path argv) code :=
  ⟨execOrExit_image w path argv code, execOrExit_ending w path argv code⟩

/-- A child whose `dup2` fails becomes nothing. -/
theorem doExecRedirectChild_becomes (w : World) (fd : ℕ) (command : Command) :
    Becomes (doExecRedirectChild w fd command) command.path command.argv
      (if w.dup2Fails then none else w.execv command.path command.argv) (-1) := by
  have h := execOrExit_becomes w command.path command.argv (-1)
  unfold doExecRedirectChild
  cases hd : w.dup2Fails with
  | true => exact ⟨rfl, rfl⟩
  | false => exact ⟨h.image, h.ending⟩

/-- The program ran and exited with 0 exactly if that is what the kernel answered. -/
theorem ran_iff (hchild : o.child = some child) (h : Becomes child path argv program code)
    (hcode : UInt8.ofInt code ≠ 0) : o.Ran path argv ↔ program = some (.exited 0) := by
  constructor
  · rintro ⟨c, hc, -, hend⟩
    obtain rfl := Option.some.inj (hchild.symm.trans hc)
    have hzero : (endOf program code).status = 0 := by
      rw [← h.ending]
      exact status_eq_zero_iff.mpr hend
    exact (status_endOf_eq_zero_iff hcode).mp hzero
  · rintro rfl
    exact ⟨child, hchild, h.image, h.ending⟩

/-! ## 2. The test for a normal end -/

/-- The test for a normal end gives the right answer.  Either `waitpid` fails, so that the answer is
no, and the program did not exit with 0; or the program ran, and exited with 0 if it exited. -/
def Tells (w : World) (program : Option Ending) : Prop :=
  if w.waitpidFails then program ≠ some (.exited 0)
  else ∃ e, program = some e ∧ ∀ n, e = .exited n → n = 0

theorem waitChild_iff (h : Becomes child path argv program code) :
    waitChild w child = true ↔
      w.waitpidFails = false ∧ ∀ e, program = some e → ∃ n, e = .exited n := by
  have hnormal : wifexited (endOf program code).status = true ↔
      ∀ e, program = some e → ∃ n, e = .exited n := wifexited_endOf_iff
  rw [waitChild, h.ending, ← hnormal]
  cases w.waitpidFails with
  | true => simp
  | false => simp

/-- **When the test tells the truth.** -/
theorem truthful_iff_tells (hchild : o.child = some child)
    (h : Becomes child path argv program (-1)) (hret : o.ret = waitChild w child) :
    o.Truthful path argv ↔ Tells w program := by
  have hran := ran_iff hchild h (by decide)
  rw [Invocation.Truthful, hran, hret, waitChild_iff h, Tells]
  cases w.waitpidFails with
  | true => simp
  | false =>
    rw [if_neg Bool.false_ne_true]
    cases program with
    | none => simp
    | some e =>
      cases e with
      | exited n => simp
      | killed signal core => simp

/-! ## 3. The three functions -/

theorem doExec_truthful_iff (w : World) (command : Command) :
    (doExec w command).Truthful command.path command.argv ↔
      ¬ command.Accepted ∨ w.fork = none ∨ Tells w (w.execv command.path command.argv) := by
  rw [doExec, Command.Accepted]
  by_cases hpath : command.path.first ≠ 47
  · rw [if_pos hpath]
    exact iff_of_true (truthful_of_no_child rfl rfl) (Or.inl fun h => hpath h.1)
  rw [if_neg hpath]
  cases hargs : checkArgs command.args with
  | false =>
    exact iff_of_true (truthful_of_no_child rfl rfl) (Or.inl fun h => Bool.false_ne_true h.2)
  | true =>
    cases hfork : w.fork with
    | none => exact iff_of_true (truthful_of_no_child rfl rfl) (Or.inr (Or.inl rfl))
    | some pid =>
      have h := execOrExit_becomes w command.path command.argv (-1)
      refine (truthful_iff_tells rfl h rfl).trans ⟨fun ht => Or.inr (Or.inr ht), ?_⟩
      rintro (hn | hn | ht)
      · exact absurd ⟨not_not.mp hpath, rfl⟩ hn
      · cases hn
      · exact ht

theorem doExecRedirect_truthful_iff (w : World) (outputfile : CStr) (command : Command) :
    (doExecRedirect w outputfile command).Truthful command.path command.argv ↔
      command.path.first ≠ 47 ∨ w.open outputfile = none ∨ w.fork = none ∨
        Tells w (if w.dup2Fails then none else w.execv command.path command.argv) := by
  unfold doExecRedirect
  by_cases hpath : command.path.first ≠ 47
  · rw [if_pos hpath]
    exact iff_of_true (truthful_of_no_child rfl rfl) (Or.inl hpath)
  rw [if_neg hpath]
  cases hopen : w.open outputfile with
  | none => exact iff_of_true (truthful_of_no_child rfl rfl) (Or.inr (Or.inl rfl))
  | some fd =>
    cases hfork : w.fork with
    | none => exact iff_of_true (truthful_of_no_child rfl rfl) (Or.inr (Or.inr (Or.inl rfl)))
    | some pid =>
      have h := doExecRedirectChild_becomes w fd command
      refine (truthful_iff_tells rfl h rfl).trans ⟨fun ht => Or.inr (Or.inr (Or.inr ht)), ?_⟩
      rintro (hn | hn | hn | ht)
      · exact absurd hn hpath
      · cases hn
      · cases hn
      · exact ht

/-- `do_system` returns true exactly if there is a status. -/
theorem doSystem_truthful_iff (w : World) (cmd : CStr) :
    (doSystem w cmd).Truthful shell (shellArgv cmd) ↔
      w.fork = none ∨ (w.waitpidFails = false ↔
        w.execv shell (shellArgv cmd) = some (.exited 0)) := by
  rw [doSystem, system]
  cases hfork : w.fork with
  | none => exact iff_of_true (truthful_of_no_child rfl rfl) (Or.inl rfl)
  | some pid =>
    have h := execOrExit_becomes w shell (shellArgv cmd) 127
    cases hw : w.waitpidFails with
    | true =>
      have hran := ran_iff (o := ⟨false, [.fork, .waitpid pid], some (systemChild w cmd)⟩) rfl h
        (by decide)
      simp only [Invocation.Truthful]
      simp [hran]
    | false =>
      have hne : ((systemChild w cmd).ending.status : ℤ) ≠ -1 := by omega
      have hran := ran_iff (o := ⟨true, [.fork, .waitpid pid], some (systemChild w cmd)⟩) rfl h
        (by decide)
      simp only [Invocation.Truthful]
      simp [hne, hran]

/-- **When the boolean is right.**  A refused command, an output file that cannot be opened and a
failed `fork` are reported as they should be.  Beyond that `do_exec` and `do_exec_redirect` are
right exactly if the test for a normal end is, and `do_system` if there is a status just when the
shell ran and exited with 0. -/
theorem truthful_iff (w : World) :
    (∀ cmd, (doSystem w cmd).Truthful shell (shellArgv cmd) ↔
        w.fork = none ∨ (w.waitpidFails = false ↔
          w.execv shell (shellArgv cmd) = some (.exited 0))) ∧
      (∀ command, (doExec w command).Truthful command.path command.argv ↔
        ¬ command.Accepted ∨ w.fork = none ∨ Tells w (w.execv command.path command.argv)) ∧
      ∀ outputfile command,
        (doExecRedirect w outputfile command).Truthful command.path command.argv ↔
          command.path.first ≠ 47 ∨ w.open outputfile = none ∨ w.fork = none ∨
            Tells w (if w.dup2Fails then none else w.execv command.path command.argv) :=
  ⟨doSystem_truthful_iff w, doExec_truthful_iff w, doExecRedirect_truthful_iff w⟩

/-- The program runs and exits with 1. -/
def exitsWithOne : World where
  «open» _ := some 3
  fork := some 2
  execv _ _ := some (.exited 1)

/-- **A program that exits with 1 is reported as a success**, by each of the three functions. -/
theorem failure_reported_as_success :
    (¬ ∀ w cmd, (doSystem w cmd).Truthful shell (shellArgv cmd)) ∧
      (¬ ∀ w command, (doExec w command).Truthful command.path command.argv) ∧
      ¬ ∀ w outputfile command,
        (doExecRedirect w outputfile command).Truthful command.path command.argv := by
  have hne : Ending.exited 1 ≠ .exited 0 := by decide
  refine ⟨?_, ?_, ?_⟩
  · intro h
    obtain ⟨child, hc, -, hend⟩ := (h exitsWithOne ⟨[102], by decide⟩).mp rfl
    obtain rfl := Option.some.inj hc
    exact hne hend
  · intro h
    obtain ⟨child, hc, -, hend⟩ := (h exitsWithOne ⟨⟨[47, 102], by decide⟩, []⟩).mp rfl
    obtain rfl := Option.some.inj hc
    exact hne hend
  · intro h
    obtain ⟨child, hc, -, hend⟩ :=
      (h exitsWithOne ⟨[47, 111], by decide⟩ ⟨⟨[47, 102], by decide⟩, []⟩).mp rfl
    obtain rfl := Option.some.inj hc
    exact hne hend

end Aesd.Systemcalls
