/-
# The two copies of `do_exec`

`do_exec_redirect` repeats `do_exec` with the output redirected: "The rest of the behaviour is same
as do_exec()".  The child is indeed the same after the two calls that redirect its output
(`doExecRedirectChild_eq`), but the copy lacks the loop over the arguments.  So the functions agree
where the loop lets the arguments through (`agree_of_checkArgs`) or is of no consequence.
-/
import Aesd.Systemcalls.Exec

namespace Aesd.Systemcalls

open WaitStatus

variable {w : World} {command : Command} {outputfile : CStr}

/-! ## 1. Started commands -/

/-- The path and the argument vector of an `execv`. -/
def Syscall.execv? : Syscall → Option (CStr × List CStr)
  | .execv path argv => some (path, argv)
  | _ => none

/-- The commands an invocation starts. -/
def Invocation.started (o : Invocation) : List (CStr × List CStr) :=
  (o.child.elim [] Child.calls).filterMap Syscall.execv?

/-- Two invocations start the same command, or none, and return the same. -/
structure Agree (o o' : Invocation) : Prop where
  started : o.started = o'.started
  ret : o.ret = o'.ret

theorem execOrExit_started (w : World) (path : CStr) (argv : List CStr) (code : ℤ) :
    (execOrExit w path argv code).calls.filterMap Syscall.execv? = [(path, argv)] := by
  unfold execOrExit
  cases w.execv path argv with
  | none => rfl
  | some e => rfl

/-! ## 2. The redirection -/

/-- **The redirected child does what the other one does, after redirecting its output.** -/
theorem doExecRedirectChild_eq (hdup : w.dup2Fails = false) (fd : ℕ) (command : Command) :
    doExecRedirectChild w fd command =
      { doExecChild w command with
        calls := .dup2 fd stdoutFileno :: .close fd :: (doExecChild w command).calls } := by
  rw [doExecRedirectChild, hdup, if_neg Bool.false_ne_true]
  rfl

/-- **Where the loop lets the arguments through, the functions agree.** -/
theorem agree_of_checkArgs (hopen : (w.open outputfile).isSome) (hdup : w.dup2Fails = false)
    (hargs : checkArgs command.args = true) :
    Agree (doExec w command) (doExecRedirect w outputfile command) := by
  obtain ⟨fd, hfd⟩ := Option.isSome_iff_exists.mp hopen
  rw [doExec, doExecRedirect, hargs, hfd]
  by_cases hpath : command.path.first ≠ 47
  · rw [if_pos hpath, if_pos hpath]
    exact ⟨rfl, rfl⟩
  · rw [if_neg hpath, if_neg hpath]
    cases w.fork with
    | none => exact ⟨rfl, rfl⟩
    | some pid =>
      have hchild := doExecRedirectChild_eq hdup fd command
      refine ⟨?_, ?_⟩
      · show (doExecChild w command).calls.filterMap _ =
          (doExecRedirectChild w fd command).calls.filterMap _
        rw [hchild]
        rfl
      · show waitChild w (doExecChild w command) = waitChild w (doExecRedirectChild w fd command)
        rw [hchild]
        rfl

/-- **The two copies agree** exactly if the command's path is refused by both, no process can be
created, or the loop that the copy lacks lets the arguments through. -/
theorem agree_iff (hopen : (w.open outputfile).isSome) (hdup : w.dup2Fails = false) :
    Agree (doExec w command) (doExecRedirect w outputfile command) ↔
      command.path.first ≠ 47 ∨ w.fork = none ∨
        ∀ arg ∈ command.args, arg.first = 45 ∨ arg.first = 47 := by
  rw [← checkArgs_iff]
  cases hargs : checkArgs command.args with
  | true =>
    exact iff_of_true (agree_of_checkArgs hopen hdup hargs) (Or.inr (Or.inr rfl))
  | false =>
    obtain ⟨fd, hfd⟩ := Option.isSome_iff_exists.mp hopen
    rw [doExec, doExecRedirect, hargs, hfd]
    by_cases hpath : command.path.first ≠ 47
    · rw [if_pos hpath, if_pos hpath]
      exact iff_of_true ⟨rfl, rfl⟩ (Or.inl hpath)
    rw [if_neg hpath, if_neg hpath]
    cases hfork : w.fork with
    | none => exact iff_of_true ⟨rfl, rfl⟩ (Or.inr (Or.inl rfl))
    | some pid =>
      -- the one refuses, the other starts the command
      refine iff_of_false (fun h => ?_) (fun h => ?_)
      · have hstarted : [] = (doExecRedirectChild w fd command).calls.filterMap Syscall.execv? :=
          h.started
        rw [doExecRedirectChild_eq hdup] at hstarted
        have hone := execOrExit_started w command.path command.argv (-1)
        exact List.cons_ne_nil _ _ (hone.symm.trans hstarted.symm)
      · rcases h with h | h | h
        · exact hpath h
        · cases h
        · cases h

/-- `/f -x` is run by both. -/
theorem agree_iff_option :
    let w : World := ⟨fun _ => some 3, some 2, false, fun _ _ => some (.exited 0), false⟩
    let command : Command := ⟨⟨[47, 102], by decide⟩, [⟨[45, 120], by decide⟩]⟩
    Agree (doExec w command) (doExecRedirect w ⟨[47, 111], by decide⟩ command) :=
  (agree_iff rfl rfl).mpr (Or.inr (Or.inr (by decide)))

/-- **`/f x` is refused by `do_exec` and run by `do_exec_redirect`.** -/
theorem plain_argument_disagrees :
    ¬ ∀ (w : World) (outputfile : CStr) (command : Command), (w.open outputfile).isSome →
      w.dup2Fails = false → Agree (doExec w command) (doExecRedirect w outputfile command) := by
  intro h
  have hagree := h ⟨fun _ => some 3, some 2, false, fun _ _ => some (.exited 0), false⟩
    ⟨[47, 111], by decide⟩ ⟨⟨[47, 102], by decide⟩, [⟨[120], by decide⟩]⟩ rfl rfl
  exact absurd hagree.ret (by decide)

end Aesd.Systemcalls
