/-
# One invocation after the other

A caller that invokes the three functions in any order, with the kernel deciding anew each time.
What a call does to the descriptors and the children of the process that makes it is said once
(`Syscall.onTable`, `Syscall.onChildren`); the invocations are those of `Aesd.Systemcalls.Exec`, and
a child begins with the descriptors its parent has at the `fork`.

The comment of `do_exec_redirect` says that the output file "will be closed at completion of the
function call".  It is, unless the `fork` fails: then the descriptor stays, and every program run
later has it too.  What else is left behind is the children `waitpid` did not get
(`Caller.accounts`).  The log is left out, and with it the descriptor `syslog` opens for it, which
stays open where `do_exec` returns behind a failed `fork` without a `closelog`.
-/
import Aesd.Lib.Transition
import Aesd.Systemcalls.Agreement
import Mathlib.Logic.Function.Basic

namespace Aesd.Systemcalls

open Transition

/-! ## 1. Descriptors and children -/

/-- What a descriptor refers to: a file of the caller's own, or one opened here. -/
inductive File
  | own (n : ℕ)
  | opened (path : CStr)

abbrev Table := ℕ → Option File

/-- What a call does to the descriptors. -/
def Syscall.onTable (w : World) (t : Table) : Syscall → Table
  | «open» path =>
    match w.open path with
    | none => t
    | some fd => Function.update t fd (some (.opened path))
  | dup2 fd newfd => if w.dup2Fails then t else Function.update t newfd (t fd)
  | close fd => Function.update t fd none
  | _ => t

/-- What a call does to the children that have not been waited for. -/
def Syscall.onChildren (w : World) (pids : List ℕ) : Syscall → List ℕ
  | fork => w.fork.toList ++ pids
  | waitpid pid => if w.waitpidFails then pids else pids.erase pid
  | _ => pids

def tableAfter (w : World) (t : Table) (calls : List Syscall) : Table :=
  calls.foldl (Syscall.onTable w) t

def childrenAfter (w : World) (pids : List ℕ) (calls : List Syscall) : List ℕ :=
  calls.foldl (Syscall.onChildren w) pids

/-- The program a child of the invocation became, and the descriptors it has then. -/
def Invocation.hands (w : World) (t : Table) (o : Invocation) :
    Option ((CStr × List CStr) × Table) :=
  o.child.bind fun child => child.image.map fun program =>
    (program, tableAfter w (tableAfter w t (o.calls.takeWhile fun c => c ≠ .fork))
      (child.calls.takeWhile fun c => c.execv?.isNone))

/-! ## 2. The caller -/

/-- An invocation. -/
inductive Request
  | system (cmd : CStr)
  | exec (command : Command)
  | redirect (outputfile : CStr) (command : Command)

def Request.invoke (w : World) : Request → Invocation
  | system cmd => doSystem w cmd
  | exec command => doExec w command
  | redirect outputfile command => doExecRedirect w outputfile command

/-- The caller's descriptors, and its children that have not been waited for. -/
structure Caller where
  table : Table
  children : List ℕ

/-- What the kernel hands out is not in use. -/
structure World.Fits (w : World) (c : Caller) : Prop where
  «open» : ∀ {path fd}, w.open path = some fd → c.table fd = none
  fork : ∀ {pid}, w.fork = some pid → pid ∉ c.children

namespace Caller

/-- One invocation. -/
inductive Step (c : Caller) : World × Request → Caller → Prop
  | invokes {w : World} {req : Request} : w.Fits c →
      Step c (w, req) ⟨tableAfter w c.table (req.invoke w).calls,
        childrenAfter w c.children (req.invoke w).calls⟩

end Caller

/-! ## 3. What an invocation does -/

/-- Whether an invocation opens a file of its own. -/
def Request.redirects : Request → Bool
  | redirect _ _ => true
  | _ => false

/-- **Every way an invocation can go.** -/
inductive Request.Does (w : World) : Request → Invocation → Prop
  | refusedExec {command : Command} : Does w (exec command) ⟨false, [], none⟩
  | refusedRedirect {outputfile : CStr} {command : Command} : command.path.first ≠ 47 →
      Does w (redirect outputfile command) ⟨false, [], none⟩
  | unopened {outputfile : CStr} {command : Command} : w.open outputfile = none →
      Does w (redirect outputfile command) ⟨false, [.open outputfile], none⟩
  | unforked {req : Request} : req.redirects = false → w.fork = none →
      Does w req ⟨false, [.fork], none⟩
  | leaks {outputfile : CStr} {command : Command} {fd : ℕ} : command.path.first = 47 →
      w.open outputfile = some fd → w.fork = none →
      Does w (redirect outputfile command) ⟨false, [.open outputfile, .fork], none⟩
  | forked {req : Request} {pid : ℕ} {ret : Bool} {path : CStr} {argv : List CStr} {code : ℤ} :
      req.redirects = false → w.fork = some pid →
      Does w req ⟨ret, [.fork, .waitpid pid], some (execOrExit w path argv code)⟩
  | redirected {outputfile : CStr} {command : Command} {fd pid : ℕ} {ret : Bool} :
      w.open outputfile = some fd → w.fork = some pid →
      Does w (redirect outputfile command)
        ⟨ret, [.open outputfile, .fork, .close fd, .waitpid pid],
          some (doExecRedirectChild w fd command)⟩

/-- **An invocation goes one of these ways.** -/
theorem Request.does (w : World) (req : Request) : req.Does w (req.invoke w) := by
  cases req with
  | system cmd =>
    rw [Request.invoke, doSystem, Aesd.Systemcalls.system]
    cases hfork : w.fork with
    | none => exact Does.unforked rfl hfork
    | some pid =>
      dsimp only
      split
      · exact Does.forked rfl hfork
      · exact Does.forked rfl hfork
  | exec command =>
    rw [Request.invoke, doExec]
    split
    · exact Does.refusedExec
    · split
      · exact Does.refusedExec
      · cases hfork : w.fork with
        | none => exact Does.unforked rfl hfork
        | some pid => exact Does.forked rfl hfork
  | redirect outputfile command =>
    rw [Request.invoke, doExecRedirect]
    split
    · rename_i hpath
      exact Does.refusedRedirect hpath
    · rename_i hpath
      cases hopen : w.open outputfile with
      | none => exact Does.unopened hopen
      | some fd =>
        cases hfork : w.fork with
        | none => exact Does.leaks (not_not.mp hpath) hopen hfork
        | some pid => exact Does.redirected hopen hfork

/-! ## 4. What it leaves behind -/

/-- The descriptor an invocation does not close, with its file. -/
def Request.leak (w : World) : Request → Option (ℕ × CStr)
  | redirect outputfile command =>
    if command.path.first = 47 ∧ w.fork = none then
      (w.open outputfile).map fun fd => (fd, outputfile)
    else none
  | _ => none

/-- The child an invocation does not wait for. -/
def Request.orphan (w : World) (req : Request) : Option ℕ :=
  if (req.invoke w).child.isSome ∧ w.waitpidFails = true then w.fork else none

section Invocation

variable {w : World} {t : Table} {pids : List ℕ} {req : Request} {o : Invocation}

theorem Request.leak_of_not_redirects (h : req.redirects = false) : req.leak w = none := by
  cases req with
  | redirect => cases h
  | _ => rfl

theorem onTable_open {path : CStr} {fd : ℕ} (h : w.open path = some fd) :
    Syscall.onTable w t (.open path) = Function.update t fd (some (.opened path)) := by
  rw [Syscall.onTable, h]

/-- **The descriptors behind an invocation** are those before it, and its leak. -/
theorem Request.Does.table (h : req.Does w o)
    (hopen : ∀ {path fd}, w.open path = some fd → t fd = none) :
    tableAfter w t o.calls =
      (req.leak w).elim t fun p => Function.update t p.1 (some (.opened p.2)) := by
  cases h with
  | refusedExec => rfl
  | refusedRedirect hpath =>
    rw [leak, if_neg fun h => hpath h.1]
    rfl
  | unopened hfile =>
    rw [leak, hfile, Option.map_none, ite_self]
    show Syscall.onTable w t (.open _) = t
    rw [Syscall.onTable, hfile]
  | unforked hno =>
    rw [leak_of_not_redirects hno]
    rfl
  | leaks hpath hfile hfork =>
    rw [leak, if_pos ⟨hpath, hfork⟩, hfile]
    exact onTable_open hfile
  | forked hno =>
    rw [leak_of_not_redirects hno]
    rfl
  | redirected hfile hfork =>
    rw [leak, if_neg fun h => by cases hfork.symm.trans h.2]
    show Syscall.onTable w (Syscall.onTable w t (.open _)) (.close _) = t
    rw [onTable_open hfile]
    show Function.update (Function.update t _ _) _ none = t
    rw [Function.update_idem, ← hopen hfile, Function.update_eq_self]

/-- A child is there until `waitpid` gets it. -/
theorem onChildren_waitpid {pid : ℕ} (h : w.fork = some pid) :
    Syscall.onChildren w (w.fork.toList ++ pids) (.waitpid pid) =
      (if w.waitpidFails = true then w.fork else none).toList ++ pids := by
  rw [Syscall.onChildren, h]
  cases w.waitpidFails with
  | true => rfl
  | false => exact List.erase_cons_head _ _

/-- **The children behind an invocation** are those before it, and its orphan. -/
theorem Request.children_eq (w : World) (pids : List ℕ) (req : Request) :
    childrenAfter w pids (req.invoke w).calls = (req.orphan w).toList ++ pids := by
  have h := req.does w
  unfold orphan
  generalize req.invoke w = o at h ⊢
  cases h with
  | refusedExec | refusedRedirect | unopened =>
    rw [if_neg fun h => Bool.false_ne_true h.1]
    rfl
  | unforked _ hfork | leaks _ _ hfork =>
    rw [hfork, ite_self]
    show w.fork.toList ++ pids = pids
    rw [hfork]
    rfl
  | forked _ hfork =>
    simp only [Option.isSome_some, true_and]
    exact onChildren_waitpid hfork
  | redirected _ hfork =>
    simp only [Option.isSome_some, true_and]
    exact onChildren_waitpid hfork

/-- The calls of a child up to its `execv`. -/
theorem takeWhile_execOrExit (w : World) (path : CStr) (argv : List CStr) (code : ℤ) :
    (execOrExit w path argv code).calls.takeWhile (fun c => c.execv?.isNone) = [] := by
  unfold execOrExit
  cases w.execv path argv <;> rfl

/-- **The program has what its caller has.** -/
theorem Request.Does.hands (h : req.Does w o) {program : CStr × List CStr} {table : Table}
    (hhands : o.hands w t = some (program, table)) :
    (req.redirects = false ∧ table = t) ∨
      ∃ outputfile command fd, req = .redirect outputfile command ∧
        w.open outputfile = some fd ∧
        table = Function.update (Function.update (Function.update t fd
          (some (.opened outputfile))) stdoutFileno (some (.opened outputfile))) fd none := by
  unfold Invocation.hands at hhands
  cases h with
  | @forked _ pid ret path argv code hno hfork =>
    rw [Option.bind_some] at hhands
    obtain ⟨image, -, heq⟩ := Option.map_eq_some_iff.mp hhands
    rw [takeWhile_execOrExit] at heq
    exact Or.inl ⟨hno, (Prod.mk.inj heq).2.symm⟩
  | @redirected outputfile command fd pid ret hfile hfork =>
    rw [Option.bind_some] at hhands
    obtain ⟨image, himage, heq⟩ := Option.map_eq_some_iff.mp hhands
    refine Or.inr ⟨outputfile, command, fd, rfl, hfile, ?_⟩
    rw [doExecRedirectChild] at himage heq
    cases hdup : w.dup2Fails with
    | true =>
      rw [if_pos hdup] at himage
      cases himage
    | false =>
      rw [if_neg (by simp [hdup])] at heq
      rw [← (Prod.mk.inj heq).2]
      have hchild := takeWhile_execOrExit w command.path command.argv (-1)
      have hbefore : ([.open outputfile, .fork, .close fd, .waitpid pid] : List Syscall).takeWhile
          (fun c => c ≠ .fork) = [.open outputfile] := by simp
      have hto : ((.dup2 fd stdoutFileno :: .close fd ::
          (execOrExit w command.path command.argv (-1)).calls) : List Syscall).takeWhile
            (fun c => c.execv?.isNone) = [.dup2 fd stdoutFileno, .close fd] := by
        rw [List.takeWhile_cons_of_pos rfl, List.takeWhile_cons_of_pos rfl, hchild]
      rw [hbefore, hto]
      show Syscall.onTable w (Syscall.onTable w (Syscall.onTable w t (.open outputfile))
        (.dup2 fd stdoutFileno)) (.close fd) = _
      rw [onTable_open hfile, Syscall.onTable, Syscall.onTable, if_neg (by simp [hdup]),
        Function.update_self]
  | _ => cases hhands

end Invocation

/-! ## 5. Any number of invocations -/

/-- The descriptors a run has left open, the last one first. -/
def leaks (h : List (Caller × (World × Request))) : List (ℕ × CStr) :=
  (h.filterMap fun ce => ce.2.2.leak ce.2.1).reverse

/-- The children a run has not waited for, the last one first. -/
def orphans (h : List (Caller × (World × Request))) : List ℕ :=
  (h.filterMap fun ce => ce.2.2.orphan ce.2.1).reverse

theorem leaks_concat (h : List (Caller × (World × Request))) (ce : Caller × (World × Request)) :
    leaks (h ++ [ce]) = (ce.2.2.leak ce.2.1).toList ++ leaks h := by
  rw [leaks, List.filterMap_append, List.reverse_append]
  cases hl : ce.2.2.leak ce.2.1 <;> simp [leaks, hl]

theorem orphans_concat (h : List (Caller × (World × Request))) (ce : Caller × (World × Request)) :
    orphans (h ++ [ce]) = (ce.2.2.orphan ce.2.1).toList ++ orphans h := by
  rw [orphans, List.filterMap_append, List.reverse_append]
  cases ho : ce.2.2.orphan ce.2.1 <;> simp [orphans, ho]

/-- A leak takes a descriptor that is not in use. -/
theorem World.Fits.leak {w : World} {c : Caller} (hw : w.Fits c) {req : Request} {fd : ℕ}
    {path : CStr} (h : req.leak w = some (fd, path)) : c.table fd = none := by
  cases req with
  | redirect outputfile command =>
    rw [Request.leak] at h
    split at h
    · obtain ⟨fd', hopen, heq⟩ := Option.map_eq_some_iff.mp h
      obtain ⟨rfl, rfl⟩ := Prod.mk.inj heq
      exact hw.open hopen
    · cases h
  | _ => cases h

namespace Caller

variable {t : Table} {c : Caller} {h : List (Caller × (World × Request))}

/-- What a run has left: its leaks, each on a descriptor of its own, and its orphans. -/
structure Accounts (t : Table) (h : List (Caller × (World × Request))) (c : Caller) : Prop where
  table : ∀ fd, c.table fd = ((leaks h).lookup fd).elim (t fd) fun path => some (.opened path)
  nodup : ((leaks h).map Prod.fst).Nodup
  unused : ∀ p ∈ leaks h, t p.1 = none
  children : c.children = orphans h

theorem Accounts.step {e : World × Request} {d : Caller} (ha : Accounts t h c)
    (hs : c.Step e d) : Accounts t (h ++ [(c, e)]) d := by
  cases hs with
  | @invokes w req hw =>
    have htable := (req.does w).table (t := c.table) hw.open
    cases hl : req.leak w with
    | none =>
      rw [hl, Option.elim_none] at htable
      have hleaks : leaks (h ++ [(c, (w, req))]) = leaks h := by
        rw [leaks_concat, hl]
        rfl
      refine ⟨fun fd => ?_, ?_, ?_, ?_⟩
      · rw [hleaks, htable]
        exact ha.table fd
      · rw [hleaks]
        exact ha.nodup
      · rw [hleaks]
        exact ha.unused
      · rw [orphans_concat, ← ha.children]
        exact Request.children_eq w c.children req
    | some p =>
      obtain ⟨fd, path⟩ := p
      rw [hl, Option.elim_some] at htable
      have hfree := hw.leak hl
      have hnew : ((leaks h).lookup fd).elim (t fd) (fun path => some (.opened path)) = none :=
        (ha.table fd).symm.trans hfree
      have hnone : (leaks h).lookup fd = none := by
        cases hlook : (leaks h).lookup fd with
        | none => rfl
        | some path =>
          rw [hlook] at hnew
          cases hnew
      have hleaks : leaks (h ++ [(c, (w, req))]) = (fd, path) :: leaks h := by
        rw [leaks_concat, hl]
        rfl
      refine ⟨fun n => ?_, ?_, ?_, ?_⟩
      · show tableAfter w c.table (req.invoke w).calls n = _
        rw [hleaks, htable]
        by_cases hn : n = fd
        · subst hn
          simp
        · have hno : (n == fd) = false := by simpa using hn
          rw [Function.update_of_ne hn, List.lookup_cons, hno]
          exact ha.table n
      · rw [hleaks, List.map_cons, List.nodup_cons]
        refine ⟨fun hmem => ?_, ha.nodup⟩
        obtain ⟨⟨fd', path'⟩, hin, rfl⟩ := List.mem_map.mp hmem
        have hex := List.lookup_eq_none_iff.mp hnone _ hin
        simp at hex
      · rw [hleaks]
        intro q hq
        rcases List.mem_cons.mp hq with rfl | hin
        · rw [hnone] at hnew
          exact hnew
        · exact ha.unused q hin
      · rw [orphans_concat, ← ha.children]
        exact Request.children_eq w c.children req

/-- **What any number of invocations leave behind, and what their programs get.**  For a caller that
invokes the three functions in any order, with the kernel answering as it likes:

* its descriptors are those it had, and one for each `do_exec_redirect` whose `fork` failed, on its
  output file; these are all different, and the caller had none of them;
* its children that have not been waited for are those `waitpid` failed for;
* a program run by `do_system` or `do_exec` has the descriptors of the caller; one run by
  `do_exec_redirect` has them too, but standard output is the output file, unless the file was
  opened on descriptor 1: then the program has no standard output. -/
theorem accounts (hr : Run Step ⟨t, []⟩ h c) :
    ((∀ fd, c.table fd = ((leaks h).lookup fd).elim (t fd) fun path => some (.opened path)) ∧
        ((leaks h).map Prod.fst).Nodup ∧ ∀ p ∈ leaks h, t p.1 = none) ∧
      c.children = orphans h ∧
      ∀ v w req program table, (v, (w, req)) ∈ h →
        (req.invoke w).hands w v.table = some (program, table) →
        (req.redirects = false ∧ table = v.table) ∨
          ∃ outputfile command fd, req = .redirect outputfile command ∧
            w.open outputfile = some fd ∧ v.table fd = none ∧
            table = if fd = stdoutFileno then v.table
              else Function.update v.table stdoutFileno (some (.opened outputfile)) := by
  have ha : Accounts t h c := hr.rule (Q := fun h c => Accounts t h c)
    ⟨fun _ => rfl, List.nodup_nil, fun p hp => absurd hp List.not_mem_nil, rfl⟩
    fun _ ha hs => ha.step hs
  refine ⟨⟨ha.table, ha.nodup, ha.unused⟩, ha.children, ?_⟩
  intro v w req program table hmem hhands
  obtain ⟨h₁, h₂, rfl⟩ := List.append_of_mem hmem
  obtain ⟨d, -, hs, -, -⟩ := hr.cut
  cases hs with
  | invokes hw =>
    rcases (req.does w).hands hhands with hplain | ⟨outputfile, command, fd, rfl, hopen, rfl⟩
    · exact Or.inl hplain
    · refine Or.inr ⟨outputfile, command, fd, rfl, hopen, hw.open hopen, ?_⟩
      have hfree := hw.open hopen
      by_cases hfd : fd = stdoutFileno
      · subst hfd
        rw [if_pos rfl, Function.update_idem, Function.update_idem, ← hfree,
          Function.update_eq_self]
      · rw [if_neg hfd, Function.update_comm hfd, Function.update_idem,
          Function.update_eq_self_iff, Function.update_of_ne hfd]
        exact hfree.symm

/-- A caller with standard input, output and error. -/
def standard : Table := fun fd => if fd < 3 then some (.own fd) else none

/-- `fork` fails. -/
def forkFails : World := ⟨fun _ => some 3, none, false, fun _ _ => some (.exited 0), false⟩

theorem accounts_leak : ∃ h c, Run Step ⟨standard, []⟩ h c ∧
    c.table 3 = some (.opened ⟨[47, 111], by decide⟩) ∧ c.children = [] := by
  have hfits : forkFails.Fits ⟨standard, []⟩ := by
    refine ⟨fun h => ?_, fun h => by cases h⟩
    obtain rfl := Option.some.inj h
    rfl
  have hstep : Step ⟨standard, []⟩
      (forkFails, .redirect ⟨[47, 111], by decide⟩ ⟨⟨[47, 102], by decide⟩, []⟩) _ :=
    Step.invokes hfits
  have hrun := Run.nil.concat hstep
  obtain ⟨⟨htable, -⟩, hchildren, -⟩ := accounts hrun
  exact ⟨_, _, hrun, (htable 3).trans rfl, hchildren.trans rfl⟩

end Caller

end Aesd.Systemcalls
