/-
# What `writer.c` leaves behind

Three things about `main` as a whole, for any arguments and any answers of the system.

* It keeps its log and its file in order: the log is opened first and closed last, once each, and
  every `write` and `close` is on the descriptor that is open (`LogAndFile.act`).
* Its status tells the truth: 0 exactly if the whole string was written, and otherwise the one
  error message says why (`exit_truthful`).  What `close` answers is not looked at.
* It returns as long as the system lets it write: only a `write` that is interrupted or takes
  nothing can keep it in its loop (`exit_bound`).
-/
import Aesd.FinderApp.Writer
import Aesd.Lib.Discipline

namespace Aesd.FinderApp

open Transition Discipline Transfer

/-! ## 1. The log and the file -/

/-- What is open: nothing yet, the log and perhaps a file, nothing any more. -/
inductive LogAndFile
  | fresh
  | logging (fd : Option ℤ)
  | finished
  deriving DecidableEq

/-- The discipline. -/
def LogAndFile.act : LogAndFile → Event → Option LogAndFile
  | fresh, (.openlog, _) => some (logging none)
  | logging fd, (.syslog _ _ _, _) => some (logging fd)
  | logging none, (.open _ _ _, ret) => some (logging (if ret.val = -1 then none else some ret.val))
  | logging (some fd), (.write fd' _ _ _, _) => if fd' = fd then some (logging (some fd)) else none
  | logging (some fd), (.close fd', _) => if fd' = fd then some (logging none) else none
  | logging none, (.closelog, _) => some finished
  | _, _ => none

/-- What is open at a point. -/
def Pc.logAndFile : Pc → LogAndFile
  | openlog _ => .fresh
  | missingLog | openFile _ _ | openFailLog _ | closelog _ => .logging none
  | writeCall w | interruptedLog w | writeFailLog w _ | failClose w | writtenLog w | closeFile w =>
    .logging (some w.fd)
  | exited _ => .finished

@[simp] theorem Writing.logAndFile_whileLen (w : Writing) :
    w.whileLen.logAndFile = .logging (some w.fd) := by
  unfold Writing.whileLen
  split <;> rfl

/-- **Every call is allowed where it is made.** -/
theorem Pc.Step.logAndFile {p p' : Pc} {e : Event} (hs : p.Step e p') :
    p.logAndFile.act e = some p'.logAndFile := by
  obtain ⟨op, ret⟩ := e
  obtain ⟨hop, -, hres⟩ := hs
  simp only at hop hres
  rw [hres]
  cases p with
  | exited status => exact absurd hop (by simp [Pc.op])
  | openlog argv =>
    obtain rfl := Option.some.inj hop
    unfold Pc.resume
    dsimp only
    split <;> rfl
  | openFile writefile writestr =>
    obtain rfl := Option.some.inj hop
    rw [Pc.resume, Pc.logAndFile, LogAndFile.act]
    split
    · rfl
    · rw [Writing.logAndFile_whileLen]
  | writeCall w =>
    obtain rfl := Option.some.inj hop
    rw [Pc.resume, Pc.logAndFile, LogAndFile.act, if_pos rfl]
    split
    · split <;> rfl
    · rw [Writing.logAndFile_whileLen]
      rfl
  | interruptedLog w =>
    obtain rfl := Option.some.inj hop
    rw [Pc.resume, Writing.logAndFile_whileLen]
    rfl
  | failClose w | closeFile w =>
    obtain rfl := Option.some.inj hop
    rw [Pc.logAndFile, LogAndFile.act, if_pos rfl]
    rfl
  | missingLog | openFailLog | writeFailLog | writtenLog | closelog =>
    obtain rfl := Option.some.inj hop
    rfl

/-! ## 2. The status -/

/-- An error that is logged. -/
def Op.isError : Op → Bool
  | syslog .err _ _ => true
  | _ => false

/-- A failing call that `main` reports, with what is logged about it: an `open`, or a `write` that
fails other than by an interruption.  A `close` that fails goes unnoticed. -/
def Op.failure : Op → Ret → Option Op
  | «open» _ _ _, ret =>
    if ret.val = -1 then some (.syslog .err "Open function failed: %s\n" [.strerror ret.errno])
    else none
  | write _ _ _ _, ret =>
    if ret.val = -1 ∧ ret.errno ≠ eintr then
      some (.syslog .err "Write function failed: %s" [.strerror ret.errno])
    else none
  | _, _ => none

def failures (h : History) : ℕ := h.countP fun x => (x.2.1.failure x.2.2).isSome

def errors (h : History) : ℕ := h.countP fun x => x.2.1.isError

/-- Whether the arguments are missing. -/
def missing (argv : List Text) : ℕ := if argv.length < 3 then 1 else 0

/-- How many failures there were on the way to a point, too few arguments included. -/
def Pc.status : Pc → ℕ
  | openlog argv => missing argv
  | missingLog | openFailLog _ | writeFailLog _ _ | failClose _ => 1
  | closelog status | exited status => status.toNat
  | _ => 0

/-- How many errors have been logged on the way to a point. -/
def Pc.logged : Pc → ℕ
  | openlog _ | missingLog | openFailLog _ | writeFailLog _ _ => 0
  | p => p.status

theorem Writing.status_whileLen (w : Writing) : w.whileLen.status = 0 ∧ w.whileLen.logged = 0 := by
  unfold Writing.whileLen
  split <;> exact ⟨rfl, rfl⟩

/-- **What a call adds to the two counts.** -/
theorem Pc.Step.counts {p p' : Pc} {e : Event} (hs : p.Step e p') :
    p'.status = p.status + (e.1.failure e.2).isSome.toNat ∧
      p'.logged = p.logged + e.1.isError.toNat := by
  obtain ⟨op, ret⟩ := e
  obtain ⟨hop, -, hres⟩ := hs
  simp only at hop hres
  rw [hres]
  cases p with
  | exited status => exact absurd hop (by simp [Pc.op])
  | openlog argv =>
    obtain rfl := Option.some.inj hop
    unfold Pc.resume
    dsimp only
    split
    · exact ⟨by simp [Pc.status, missing, Op.failure], rfl⟩
    · rename_i hargv
      have hshort : argv.length < 3 := by
        rcases argv with _ | ⟨_, _ | ⟨_, _ | ⟨_, _⟩⟩⟩
        · exact Nat.zero_lt_succ 2
        · exact Nat.one_lt_succ_succ 1
        · exact Nat.lt_succ_self 2
        · exact absurd rfl (hargv _ _ _ _)
      exact ⟨by simp [Pc.status, missing, hshort, Op.failure], rfl⟩
  | openFile writefile writestr =>
    obtain rfl := Option.some.inj hop
    rw [Pc.resume, Op.failure]
    split
    · exact ⟨rfl, rfl⟩
    · exact Writing.status_whileLen _
  | writeCall w =>
    obtain rfl := Option.some.inj hop
    rw [Pc.resume, Op.failure]
    by_cases hfail : ret.val = -1
    · rw [if_pos hfail]
      by_cases hint : ret.errno = eintr
      · rw [if_pos hint, if_neg fun h => h.2 hint]
        exact ⟨rfl, rfl⟩
      · rw [if_neg hint, if_pos ⟨hfail, hint⟩]
        exact ⟨rfl, rfl⟩
    · rw [if_neg hfail, if_neg fun h => hfail h.1]
      exact Writing.status_whileLen _
  | interruptedLog w =>
    obtain rfl := Option.some.inj hop
    exact w.status_whileLen
  | missingLog | openFailLog | writeFailLog | failClose | writtenLog | closeFile | closelog =>
    obtain rfl := Option.some.inj hop
    exact ⟨rfl, rfl⟩

variable {argv : List Text} {h : History} {p : Pc}

/-- **Both counts over a run.** -/
theorem counts_run (hr : Run Pc.Step (.openlog argv) h p) :
    failures h + missing argv = p.status ∧ errors h = p.logged := by
  induction hr with
  | nil => exact ⟨Nat.zero_add _, rfl⟩
  | @concat h p p' e hr hs ih =>
    obtain ⟨hfail, hlog⟩ := ih
    obtain ⟨hstatus, hlogged⟩ := hs.counts
    rw [failures, errors, List.countP_append, List.countP_append, ← failures, ← errors, hlog,
      hstatus, hlogged, ← hfail]
    refine ⟨?_, ?_⟩
    · rw [List.countP_singleton]
      cases (e.1.failure e.2).isSome
      · simp
      · simp
        omega
    · rw [List.countP_singleton]
      cases e.1.isError <;> simp

/-! ## 3. What was written -/

/-- A call that opens the file. -/
def Event.opens : Event → Bool
  | (.open _ _ _, ret) => ret.val ≠ -1
  | _ => false

/-- Whether the file was opened. -/
def opened (h : History) : Bool := h.any fun x => Event.opens x.2

/-- What is known at a point: `main` returns 0 only if the file was opened; where it was opened and
`main` returns 1, not everything was accepted. -/
def Pc.Judged (opened : Bool) (sup acc : List UInt8) : Pc → Prop
  | openlog _ | missingLog | openFile _ _ | openFailLog _ => opened = false
  | writeCall _ | interruptedLog _ | writtenLog _ | closeFile _ => opened = true
  | writeFailLog _ _ | failClose _ => acc ≠ sup
  | closelog status | exited status =>
    (status = 0 ∧ opened = true) ∨ (status = 1 ∧ (opened = true → acc ≠ sup))

theorem Writing.judged_whileLen (w : Writing) (sup acc : List UInt8) :
    w.whileLen.Judged true sup acc := by
  unfold Writing.whileLen
  split <;> rfl

/-- Before the end of the string not everything was accepted. -/
theorem Writing.Within.short {w : Writing} {sup acc : List UInt8} (h : w.Within argv sup acc)
    (hlen : 0 < w.len) : acc ≠ sup := by
  intro heq
  have h1 := h.buf_nonneg
  have h2 := h.rest
  have hlens := congrArg List.length heq
  rw [h.partway.accepted, h.partway.supplied, List.nil_append, List.nil_append,
    List.length_take] at hlens
  omega

/-- What is supplied and accepted after one more call. -/
theorem transfer_concat (h : History) (x : Pc × Event) :
    supplied (transfer (h ++ [x])) =
        supplied (transfer h) ++ (transferOf x).elim [] Transfer.Event.supplied ∧
      accepted (transfer (h ++ [x])) =
        accepted (transfer h) ++ (transferOf x).elim [] Transfer.Event.accepted := by
  have hsnoc : transfer (h ++ [x]) = transfer h ++ (transferOf x).toList := by
    rw [transfer, List.filterMap_append, ← transfer]
    cases hx : transferOf x <;> simp [hx]
  rw [hsnoc]
  cases transferOf x with
  | none => simp
  | some e => simp

/-- **One call.** -/
theorem Pc.Judged.step {o : Bool} {sup acc : List UInt8} {p p' : Pc} {e : Event}
    (hj : p.Judged o sup acc) (hp : p.Progress argv sup acc) (hs : p.Step e p') :
    p'.Judged (o || Event.opens e) (sup ++ (transferOf (p, e)).elim [] Transfer.Event.supplied)
      (acc ++ (transferOf (p, e)).elim [] Transfer.Event.accepted) := by
  obtain ⟨op, ret⟩ := e
  obtain ⟨hop, -, hres⟩ := hs
  simp only at hop hres
  rw [hres]
  cases p with
  | exited status => exact absurd hop (by simp [Pc.op])
  | openlog argv' =>
    obtain rfl := Option.some.inj hop
    have hclosed : o = false := hj
    unfold Pc.resume
    dsimp only
    split <;> simp [Pc.Judged, Event.opens, hclosed]
  | openFile writefile writestr =>
    obtain rfl := Option.some.inj hop
    have hclosed : o = false := hj
    rw [Pc.resume, Event.opens, hclosed]
    split
    · rename_i hfail
      simp [Pc.Judged, hfail]
    · rename_i hok
      rw [show (false || decide (ret.val ≠ -1)) = true by simp [hok]]
      exact Writing.judged_whileLen _ _ _
  | writeCall w =>
    obtain rfl := Option.some.inj hop
    obtain ⟨hw, hlen⟩ := hp
    have hopen : o = true := hj
    rw [Pc.resume, hopen, Bool.true_or]
    by_cases hfail : ret.val = -1
    · rw [if_pos hfail]
      by_cases hint : ret.errno = eintr
      · rw [if_pos hint]
        rfl
      · rw [if_neg hint]
        have hshort := hw.short hlen
        simpa [Pc.Judged, transferOf, hfail, answer_neg_one, Transfer.Event.supplied,
          Transfer.Event.accepted] using hshort
    · rw [if_neg hfail]
      exact Writing.judged_whileLen _ _ _
  | interruptedLog w =>
    obtain rfl := Option.some.inj hop
    have hopen : o = true := hj
    rw [hopen]
    exact w.judged_whileLen _ _
  | missingLog | openFailLog =>
    obtain rfl := Option.some.inj hop
    have hclosed : o = false := hj
    exact Or.inr ⟨rfl, by simp [hclosed, Event.opens]⟩
  | writeFailLog w err =>
    obtain rfl := Option.some.inj hop
    have hshort : acc ≠ sup := hj
    simpa [Pc.resume, Pc.Judged, transferOf] using hshort
  | failClose w =>
    obtain rfl := Option.some.inj hop
    have hshort : acc ≠ sup := hj
    exact Or.inr ⟨rfl, fun _ => by simpa [transferOf] using hshort⟩
  | writtenLog | closeFile =>
    obtain rfl := Option.some.inj hop
    have hopen : o = true := hj
    simp [Pc.resume, Pc.Judged, hopen]
  | closelog status =>
    obtain rfl := Option.some.inj hop
    simpa [Pc.resume, Pc.Judged, transferOf, Event.opens] using hj

/-- **The whole run.** -/
theorem judged_run (hr : Run Pc.Step (.openlog argv) h p) :
    p.Judged (opened h) (supplied (transfer h)) (accepted (transfer h)) := by
  induction hr with
  | nil => rfl
  | @concat h p p' e hr hs ih =>
    have hstep := ih.step (progress_run hr).2 hs
    obtain ⟨hsup, hacc⟩ := transfer_concat h (p, e)
    rw [hsup, hacc, opened, List.any_append, ← opened]
    simpa using hstep

/-! ## 4. The results -/

/-- **An `open` that fails, or a `write` that fails other than by an interruption, is followed at
once by the message about it.** -/
theorem failure_reported {h₁ h₂ : History} {q : Pc} {op message : Op} {ret : Ret}
    (hr : Run Pc.Step (.openlog argv) (h₁ ++ (q, (op, ret)) :: h₂) p)
    (hfail : op.failure ret = some message) :
    ∃ q', q'.op = some message ∧ (h₂ = [] → p = q') ∧
      ∀ q₂ e h₃, h₂ = (q₂, e) :: h₃ → q₂ = q' ∧ e.1 = message := by
  obtain ⟨v, -, hs, -, hrest⟩ := hr.cut
  have hv : v.op = some message := by
    obtain ⟨hop, -, hres⟩ := hs
    simp only at hop hres
    rw [hres]
    cases q with
    | openFile writefile writestr =>
      obtain rfl := Option.some.inj hop
      rw [Op.failure] at hfail
      split at hfail
      · rename_i hneg
        rw [Pc.resume, if_pos hneg, ← hfail]
        rfl
      · cases hfail
    | writeCall w =>
      obtain rfl := Option.some.inj hop
      rw [Op.failure] at hfail
      split at hfail
      · rename_i hneg
        rw [Pc.resume, if_pos hneg.1, if_neg hneg.2, ← hfail]
        rfl
      · cases hfail
    | exited status => exact absurd hop (by simp [Pc.op])
    | openlog | missingLog | openFailLog | interruptedLog | writeFailLog | failClose | writtenLog
    | closeFile | closelog =>
      obtain rfl := Option.some.inj hop
      cases hfail
  refine ⟨v, hv, ?_, ?_⟩
  · rintro rfl
    exact hrest.eq_of_nil
  · rintro q₂ e h₃ rfl
    obtain ⟨rfl, w, hs', -⟩ := hrest.uncons
    exact ⟨rfl, Option.some.inj (hs'.op.symm.trans hv)⟩

/-- **`writer.c` tells the truth.**  In every run of `main`:

* the log is opened first and closed last, and every `write` and `close` is on the file that is
  open, which is closed once;
* an `open` that fails, or a `write` that fails other than by an interruption, is followed at once
  by the message about it;
* once `main` has returned, its status is 0 or 1; it is the number of errors logged and the number
  of such failures, too few arguments included; and it is 0 exactly if the file was opened and the
  whole string accepted. -/
theorem exit_truthful (hr : Run Pc.Step (.openlog argv) h p) :
    Keeps LogAndFile.act .fresh (h.map Prod.snd) p.logAndFile ∧
    (∀ h₁ q op ret h₂ message, h = h₁ ++ (q, (op, ret)) :: h₂ → op.failure ret = some message →
      ∃ q', q'.op = some message ∧ (h₂ = [] → p = q') ∧
        ∀ q₂ e h₃, h₂ = (q₂, e) :: h₃ → q₂ = q' ∧ e.1 = message) ∧
    ∀ status, p = .exited status → (status = 0 ∨ status = 1) ∧ (errors h : ℤ) = status ∧
      ((failures h + missing argv : ℕ) : ℤ) = status ∧
      (status = 0 ↔ opened h = true ∧
        Written argv (supplied (transfer h)) (accepted (transfer h))) := by
  refine ⟨keeps_run Pc.logAndFile (fun _ hs => hs.logAndFile) hr, ?_, ?_⟩
  · rintro h₁ q op ret h₂ message rfl hfail
    exact failure_reported hr hfail
  · rintro status rfl
    obtain ⟨hfail, hlog⟩ := counts_run hr
    have hjudged := judged_run hr
    rw [hfail, hlog]
    rcases hjudged with ⟨rfl, hopen⟩ | ⟨rfl, hshort⟩
    · exact ⟨Or.inl rfl, rfl, rfl, iff_of_true rfl ⟨hopen, (progress_run hr).2 rfl⟩⟩
    · refine ⟨Or.inr rfl, rfl, rfl, iff_of_false (by decide) ?_⟩
      rintro ⟨hopen, -, -, -, hall⟩
      exact hshort hopen hall

/-- `writer f abc`. -/
def threeBytes : List Text :=
  [⟨⟨[119], by decide⟩, by decide⟩, ⟨⟨[102], by decide⟩, by decide⟩,
    ⟨⟨[97, 98, 99], by decide⟩, by decide⟩]

/-- One byte is written, a `write` is interrupted, and the next one fails. -/
theorem exit_truthful_failing : ∃ h, Run Pc.Step (.openlog threeBytes) h (.exited 1) ∧
    Keeps LogAndFile.act .fresh (h.map Prod.snd) .finished ∧ errors h = 1 ∧
    ¬ Written threeBytes (supplied (transfer h)) (accepted (transfer h)) := by
  have hrun := Run.of_played Pc.step_of_next (.openlog threeBytes)
    [{}, { val := 3 }, { val := 1 }, { val := -1, errno := 4 }, {}, { val := -1, errno := 28 }, {},
      {}, {}] (by decide)
  obtain ⟨hkeeps, -, hexit⟩ := exit_truthful hrun
  obtain ⟨-, herr, -, hiff⟩ := hexit 1 (by decide)
  refine ⟨_, hrun, hkeeps, by exact_mod_cast herr, fun hw => ?_⟩
  exact absurd (hiff.mpr ⟨by decide, hw⟩) (by decide)

/-! ## 5. How long it takes -/

/-- A `write` that moves nothing on: interrupted, or taking nothing. -/
def Event.idles : Event → Bool
  | (.write _ _ _ _, ret) => ret.val = 0 ∨ (ret.val = -1 ∧ ret.errno = eintr)
  | _ => false

def idles (h : History) : ℕ := h.countP fun x => Event.idles x.2

/-- The calls left if no `write` idles. -/
def Pc.rank : Pc → ℕ
  | openlog argv => 5 + (argv[2]?.elim 0 Text.strlen)
  | openFile _ writestr => 4 + writestr.strlen
  | writeCall w => 3 + w.len
  | interruptedLog w => 4 + w.len
  | writeFailLog _ _ | writtenLog _ => 3
  | missingLog | openFailLog _ | failClose _ | closeFile _ => 2
  | closelog _ => 1
  | exited _ => 0

theorem Writing.rank_whileLen (w : Writing) : w.whileLen.rank = 3 + w.len := by
  unfold Writing.whileLen
  split
  · rfl
  · simp only [Pc.rank]
    omega

/-- **Every call brings `main` nearer to its end**, but for a `write` that idles. -/
theorem Pc.Step.rank {sup acc : List UInt8} {p p' : Pc} {e : Event} (hs : p.Step e p')
    (hp : p.Progress argv sup acc) : p'.rank + 1 ≤ p.rank + 2 * (Event.idles e).toNat := by
  obtain ⟨op, ret⟩ := e
  obtain ⟨hop, hans, hres⟩ := hs
  simp only at hop hans hres
  rw [hres]
  cases p with
  | exited status => exact absurd hop (by simp [Pc.op])
  | openlog argv' =>
    obtain rfl := Option.some.inj hop
    unfold Pc.resume
    dsimp only
    split
    · simp only [Pc.rank, List.getElem?_cons_succ, List.getElem?_cons_zero, Option.elim_some]
      omega
    · simp only [Pc.rank]
      omega
  | openFile writefile writestr =>
    obtain rfl := Option.some.inj hop
    rw [Pc.resume]
    split
    · simp only [Pc.rank]
      omega
    · rw [Writing.rank_whileLen]
      simp only [Pc.rank]
      omega
  | writeCall w =>
    obtain rfl := Option.some.inj hop
    obtain ⟨hw, hlen⟩ := hp
    rw [Pc.resume]
    by_cases hfail : ret.val = -1
    · rw [if_pos hfail]
      by_cases hint : ret.errno = eintr
      · have hidle : Event.idles (.write w.fd w.writestr w.buf w.len, ret) = true := by
          simp [Event.idles, hfail, hint]
        rw [if_pos hint, hidle]
        simp only [Pc.rank, Bool.toNat_true]
        omega
      · rw [if_neg hint]
        simp only [Pc.rank]
        omega
    · obtain ⟨h0, hle⟩ := hans.resolve_left hfail
      have hadv := hw.len_advance h0 hle
      rw [if_neg hfail, Writing.rank_whileLen]
      simp only [Pc.rank]
      by_cases hzero : ret.val = 0
      · have hidle : Event.idles (.write w.fd w.writestr w.buf w.len, ret) = true := by
          simp [Event.idles, hzero]
        rw [hidle, Bool.toNat_true]
        omega
      · omega
  | interruptedLog w =>
    obtain rfl := Option.some.inj hop
    rw [Pc.resume, Writing.rank_whileLen]
    simp only [Pc.rank]
    omega
  | missingLog | openFailLog | writeFailLog | failClose | writtenLog | closeFile | closelog =>
    obtain rfl := Option.some.inj hop
    simp only [Pc.resume, Pc.rank]
    omega

/-- **`main` returns as long as it can write.**  A run has at most five calls and one for each byte
of the string, and two for each `write` that idles; and until `main` has returned it has a call to
make. -/
theorem exit_bound (hr : Run Pc.Step (.openlog argv) h p) :
    h.length + p.rank ≤ 5 + argv[2]?.elim 0 Text.strlen + 2 * idles h ∧
      ((∀ status, p ≠ .exited status) → ∃ e p', p.Step e p') := by
  constructor
  · induction hr with
    | nil => simp [Pc.rank, idles]
    | @concat h p p' e hr hs ih =>
      have hstep := hs.rank (progress_run hr).2
      rw [idles, List.countP_append, ← idles, List.length_append, List.countP_singleton,
        List.length_singleton]
      cases hidle : Event.idles e with
      | true =>
        rw [hidle, Bool.toNat_true] at hstep
        rw [if_pos rfl]
        omega
      | false =>
        rw [hidle, Bool.toNat_false] at hstep
        rw [if_neg Bool.false_ne_true]
        omega
  · intro hp
    have hop : ∃ op, p.op = some op := by
      cases p with
      | exited status => exact absurd rfl (hp status)
      | openlog | missingLog | openFile | openFailLog | writeCall | interruptedLog | writeFailLog
      | failClose | writtenLog | closeFile | closelog => exact ⟨_, rfl⟩
    obtain ⟨op, hop⟩ := hop
    refine ⟨(op, ⟨-1, 0⟩), p.resume ⟨-1, 0⟩, hop, ?_, rfl⟩
    cases op with
    | «open» | write => exact Or.inl rfl
    | openlog | syslog | closelog | close => trivial

/-- The first byte is written and then a `write` is interrupted. -/
def interrupted : History × Pc :=
  played Pc.next (.openlog threeBytes)
    [{}, { val := 3 }, { val := 1 }, { val := -1, errno := 4 }, {}]

theorem exit_bound_interrupted :
    interrupted.1.length + interrupted.2.rank ≤
        5 + threeBytes[2]?.elim 0 Text.strlen + 2 * idles interrupted.1 ∧
      ∃ e p', interrupted.2.Step e p' := by
  obtain ⟨hlen, hstep⟩ := exit_bound (h := interrupted.1) (p := interrupted.2)
    (Run.of_played Pc.step_of_next (.openlog threeBytes) _ (by decide))
  refine ⟨hlen, hstep fun status heq => ?_⟩
  have hrank : interrupted.2.rank = 0 := congrArg Pc.rank heq
  exact absurd hrank (by decide)

end Aesd.FinderApp
