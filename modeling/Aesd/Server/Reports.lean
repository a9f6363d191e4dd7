/-
# What the program reports

Each call of the start that can fail has a message of its own (`StartOp.message`).  What the
program still has to say can be read off its point (`Point.diag`), and it keeps to the discipline
`Diag.act`: behind a failure comes its message, and behind that of a call the program cannot do
without nothing comes but what gives back.  The status follows by counting (`program_reports`).
-/
import Aesd.Lib.Discipline
import Aesd.Server.Program

namespace Aesd.Server

open Transition Discipline

/-! ## 1. What is reported -/

namespace StartOp

/-- Whether a call of the start fails with this result. -/
def fails : StartOp → Ret → Bool
  | sigaction _, ret | socket, ret | setsockopt _, ret | bind _, ret | fork, ret | setsid, ret
  | chdir _, ret | listen _ _, ret => ret.val = -1
  | getaddrinfo _, ret => ret.val ≠ 0
  | _, _ => false

/-- Whether the program can do without a call. -/
def fatal : StartOp → Bool
  | sigaction _ => false
  | _ => true

/-- What is logged when a call fails. -/
def message : StartOp → String
  | sigaction .sigint => "Failed to set SIGINT handler"
  | sigaction .sigterm => "Failed to set SIGTERM handler"
  | getaddrinfo _ => "Creation of addrinfo structure failed: %s\n"
  | socket => "Socket creation failed: %s\n"
  | setsockopt _ => "Socket reuse setup failed: %s\n"
  | bind _ => "Socket-port binding failed: %s\n"
  | fork => "Daemon process fork failed: %s\n"
  | setsid => "Creating new session for daemon failed: %s\n"
  | chdir _ => "Changing working directory for daemon failed: %s\n"
  | listen _ _ => "Listening for incoming connections failed: %s\n"
  | _ => ""

/-- A call that gives something back. -/
def givesBack : StartOp → Bool
  | freeaddrinfo | close _ | mutexDestroy _ | closelog => true
  | _ => false

/-- An error that is logged. -/
def isError : StartOp → Bool
  | syslog .err _ => true
  | _ => false

end StartOp

/-- What the program has to say: nothing, this message of a call that failed, or nothing more. -/
inductive Diag
  | fine
  | owes (message : String) (fatal : Bool)
  | failed
  deriving DecidableEq

namespace Diag

/-- The discipline.  Behind a call that fails comes its message; behind that of a call the program
cannot do without, only what gives back. -/
def act : Diag → Doing → Option Diag
  | fine, .start op ret =>
    if op.fails ret then some (owes op.message op.fatal)
    else if op.isError then none
    else some fine
  | owes message fatal, .start op _ =>
    if op = .syslog .err message then some (if fatal then failed else fine) else none
  | failed, .start op _ => if op.givesBack then some failed else none
  | fine, .serve _ => some fine
  | s, .serve a => if a = .signal then some s else none

/-- Whether a call failed that the program cannot do without. -/
def isFatal : Diag → Bool
  | fine => false
  | owes _ fatal => fatal
  | failed => true

/-- Whether a message is still to be logged. -/
def isOwed : Diag → Bool
  | owes _ _ => true
  | _ => false

end Diag

namespace Doing

/-- A call that fails. -/
def fails : Doing → Bool
  | start op ret => op.fails ret
  | _ => false

/-- A call that fails and that the program cannot do without. -/
def failsFatally : Doing → Bool
  | start op ret => op.fails ret && op.fatal
  | _ => false

def logsError : Doing → Bool
  | start op _ => op.isError
  | _ => false

end Doing

namespace Point

/-- What an exit behind a failure has to say. -/
def owed : List StartOp → Diag
  | .syslog .err message :: _ => .owes message true
  | _ => .failed

/-- What the program has to say at a point. -/
def diag : Point → Diag
  | sigactionFailed sig => .owes (StartOp.sigaction sig).message false
  | leaving rest status => if status = 0 then .fine else owed rest
  | _ => .fine

/-- An exit without a failure says nothing; another gives back, once its message is logged. -/
def Telling : Point → Prop
  | leaving rest status =>
    (status = 0 → ∀ op ∈ rest, ∀ ret, op.fails ret = false ∧ op.isError = false) ∧
      (status ≠ 0 → (∀ op ∈ rest.tail, op.givesBack = true) ∧
        ∀ op ∈ rest.head?, op.givesBack = true ∨ op.isError = true)
  | _ => True

theorem owed_of_givesBack {rest : List StartOp} (h : ∀ op ∈ rest, op.givesBack = true) :
    owed rest = .failed := by
  unfold owed
  split
  · have hfirst := h _ List.mem_cons_self
    cases hfirst
  · rfl

/-- An exit with a message in front. -/
theorem telling_failed (message : String) {rest : List StartOp} {status : ℤ} (h : status ≠ 0)
    (hrest : ∀ op ∈ rest, op.givesBack = true) :
    (leaving (.syslog .err message :: rest) status).Telling ∧
      (leaving (.syslog .err message :: rest) status).diag = .owes message true := by
  refine ⟨⟨fun hzero => absurd hzero h, fun _ => ⟨hrest, ?_⟩⟩, if_neg h⟩
  intro op hop
  obtain rfl := Option.some.inj hop
  exact Or.inr rfl

theorem telling_shutdown (serverFd : ℤ) : (leaving (shutdown serverFd) 0).Telling := by
  refine ⟨fun _ => ?_, fun hzero => absurd rfl hzero⟩
  intro op hop ret
  simp only [shutdown, List.mem_cons, List.not_mem_nil, or_false] at hop
  rcases hop with rfl | rfl | rfl | rfl | rfl <;> exact ⟨rfl, rfl⟩

/-- What follows on an exit. -/
theorem diag_leaves {op : StartOp} {rest : List StartOp} {status : ℤ}
    (h : (leaving (op :: rest) status).Telling) (ret : Ret) :
    (leaving (op :: rest) status).diag.act (.start op ret) = some (leaving rest status).diag ∧
      (leaving rest status).Telling := by
  obtain ⟨hquiet, htold⟩ := h
  by_cases hstatus : status = 0
  · have hquiet := hquiet hstatus
    obtain ⟨hfails, herror⟩ := hquiet op List.mem_cons_self ret
    refine ⟨?_, fun _ op' hop' => hquiet op' (List.mem_cons_of_mem op hop'),
      fun hne => absurd hstatus hne⟩
    rw [diag, diag, if_pos hstatus, if_pos hstatus, Diag.act, hfails, herror]
    rfl
  · obtain ⟨hrest, hhead⟩ := htold hstatus
    have hback : ∀ op' ∈ rest, op'.givesBack = true := hrest
    refine ⟨?_, fun hzero => absurd hzero hstatus,
      fun _ => ⟨fun op' hop' => hback op' (List.mem_of_mem_tail hop'),
        fun op' hop' => Or.inl (hback op' (List.mem_of_mem_head? hop'))⟩⟩
    -- behind the first call nothing is said any more
    rw [diag, diag, if_neg hstatus, if_neg hstatus, owed_of_givesBack hback]
    rcases hhead op rfl with hop | hop
    · rw [owed_of_givesBack (List.forall_mem_cons.mpr ⟨hop, hback⟩)]
      exact if_pos hop
    · cases op with
      | syslog priority message =>
        cases priority with
        | err => exact if_pos rfl
        | debug => cases hop
      | _ => cases hop

section Failed

variable {message : String} {status : ℤ} {op : StartOp} {ret : Ret}

/-- **A call that fails for good** is followed by an exit with its message. -/
theorem diag_failed {rest : List StartOp} (hfails : op.fails ret = true) (hfatal : op.fatal = true)
    (hstatus : status ≠ 0) (hrest : ∀ op ∈ rest, op.givesBack = true) :
    Diag.fine.act (.start op ret) =
        some (leaving (.syslog .err op.message :: rest) status).diag ∧
      (leaving (.syslog .err op.message :: rest) status).Telling := by
  obtain ⟨htelling, hdiag⟩ := telling_failed op.message hstatus hrest
  refine ⟨?_, htelling⟩
  rw [hdiag, Diag.act, if_pos hfails, hfatal]

end Failed

/-- **Every call outside the accept loop** says what it has to. -/
theorem diag_resume {argv : List String} {pt : Point} {op : StartOp} (h : pt.Telling)
    (hop : pt.op = some op) (ret : Ret) :
    pt.diag.act (.start op ret) = some (pt.resume argv ret).diag ∧
      (pt.resume argv ret).Telling := by
  have hback : ∀ ops : List StartOp, ops.all StartOp.givesBack = true →
      ∀ op ∈ ops, op.givesBack = true := fun ops hall => List.all_eq_true.mp hall
  have hgoes := goes_resume argv hop ret
  generalize pt.resume argv ret = pt' at hgoes ⊢
  cases hgoes with
  | addrinfoFailed hval =>
    exact diag_failed (decide_eq_true hval) rfl (by decide) (hback _ rfl)
  | socketFailed hval | reuseFailed hval | bindFailed hval | forkFailed hval | setsidFailed hval
  | chdirFailed hval | listenFailed hval =>
    exact diag_failed (decide_eq_true hval) rfl (by decide) (hback _ rfl)
  | sigintFailed hval | sigtermFailed hval => exact ⟨if_pos (decide_eq_true hval), trivial⟩
  | leaves => exact diag_leaves h ret
  | @standardClosed _ serverFd fd rest => cases rest <;> exact ⟨rfl, trivial⟩
  | addrinfo hval =>
    have hok : (StartOp.getaddrinfo port).fails ret = false := decide_eq_false (not_not.mpr hval)
    refine ⟨?_, trivial⟩
    simp [diag, Diag.act, StartOp.isError, hok]
  | sigintSet hval | sigtermSet hval | socket hval | reuse hval | bound hval | forked hval
  | setsid hval | chdir hval | listening hval =>
    refine ⟨?_, trivial⟩
    simp [diag, Diag.act, StartOp.fails, StartOp.isError, hval]
  | child hval | parent hval =>
    have hok : ret.val ≠ -1 := by omega
    refine ⟨?_, trivial⟩
    simp [diag, Diag.act, StartOp.fails, StartOp.isError, hok]
  | sigintLogged | sigtermLogged => exact ⟨rfl, trivial⟩
  | _ => exact ⟨rfl, trivial⟩

end Point

namespace Diag

variable {s t : Diag} {d : Doing}

/-- **What fails and what is said**, in numbers. -/
theorem counted_act (h : s.act d = some t) :
    s.isFatal.toNat + d.failsFatally.toNat = t.isFatal.toNat ∧
      s.isOwed.toNat + d.fails.toNat = t.isOwed.toNat + d.logsError.toNat := by
  cases s with
  | fine =>
    cases d with
    | serve a =>
      obtain rfl := Option.some.inj h
      exact ⟨rfl, rfl⟩
    | start op ret =>
      rw [act] at h
      split_ifs at h with hfails herror
      · obtain rfl := Option.some.inj h
        have hsilent : op.isError = false := by
          cases op with
          | syslog => cases hfails
          | _ => rfl
        simp [isFatal, isOwed, Doing.failsFatally, Doing.fails, Doing.logsError, hfails, hsilent]
      · obtain rfl := Option.some.inj h
        simp [isFatal, isOwed, Doing.failsFatally, Doing.fails, Doing.logsError, hfails, herror]
  | owes message fatal =>
    cases d with
    | serve a =>
      obtain ⟨-, heq⟩ := Option.ite_none_right_eq_some.mp h
      obtain rfl := Option.some.inj heq
      exact ⟨rfl, rfl⟩
    | start op ret =>
      obtain ⟨rfl, heq⟩ := Option.ite_none_right_eq_some.mp h
      obtain rfl := Option.some.inj heq
      cases fatal <;> exact ⟨rfl, rfl⟩
  | failed =>
    cases d with
    | serve a =>
      obtain ⟨-, heq⟩ := Option.ite_none_right_eq_some.mp h
      obtain rfl := Option.some.inj heq
      exact ⟨rfl, rfl⟩
    | start op ret =>
      obtain ⟨hback, heq⟩ := Option.ite_none_right_eq_some.mp h
      obtain rfl := Option.some.inj heq
      cases op with
      | freeaddrinfo | close | mutexDestroy | closelog => exact ⟨rfl, rfl⟩
      | _ => cases hback

/-- Once a call has failed for good, its message is logged, things are given back, and a signal may
come; nothing else. -/
theorem act_fatal {message : String} (hs : s = .owes message true ∨ s = .failed)
    (h : s.act d = some t) :
    ((∃ op ret, d = .start op ret ∧ (op = .syslog .err message ∨ op.givesBack = true)) ∨
      d = .serve .signal) ∧ (t = .owes message true ∨ t = .failed) := by
  rcases hs with rfl | rfl
  · cases d with
    | serve a =>
      obtain ⟨rfl, heq⟩ := Option.ite_none_right_eq_some.mp h
      exact ⟨Or.inr rfl, Or.inl (Option.some.inj heq).symm⟩
    | start op ret =>
      obtain ⟨hop, heq⟩ := Option.ite_none_right_eq_some.mp h
      exact ⟨Or.inl ⟨op, ret, rfl, Or.inl hop⟩, Or.inr (Option.some.inj heq).symm⟩
  · cases d with
    | serve a =>
      obtain ⟨rfl, heq⟩ := Option.ite_none_right_eq_some.mp h
      exact ⟨Or.inr rfl, Or.inr (Option.some.inj heq).symm⟩
    | start op ret =>
      obtain ⟨hback, heq⟩ := Option.ite_none_right_eq_some.mp h
      exact ⟨Or.inl ⟨op, ret, rfl, Or.inr hback⟩, Or.inr (Option.some.inj heq).symm⟩

end Diag

namespace Program

section Runs

variable {argv : List String} {x y : Program} {d : Doing}

theorem telling_after {pt : Point} {mpc : MainPc} (h : pt.Telling) : (pt.after mpc).Telling := by
  rcases Point.after_eq_or pt mpc with heq | ⟨-, serverFd, -, heq⟩
  · rwa [heq]
  · rw [heq]
    exact Point.telling_shutdown serverFd

theorem diag_after (pt : Point) (mpc : MainPc) : (pt.after mpc).diag = pt.diag := by
  rcases Point.after_eq_or pt mpc with heq | ⟨-, serverFd, hserving, heq⟩
  · rw [heq]
  · rw [heq, hserving]
    rfl

/-- **Every step says what it has to.** -/
theorem Inv.diag (h : x.Inv) (htelling : x.point.Telling) (hs : x.Step argv d y) :
    x.point.diag.act d = some y.point.diag ∧ y.point.Telling := by
  cases hs with
  | start hop => exact Point.diag_resume htelling hop _
  | @serve a p hmain hopens hs =>
    refine ⟨?_, telling_after htelling⟩
    rw [diag_after]
    by_cases hserving : x.point.Serving
    · obtain ⟨serverFd, heq⟩ := hserving
      rw [heq]
      rfl
    · have hsignal : x.Step argv (.serve a) _ := Step.serve hmain hopens hs
      obtain ⟨rfl, -⟩ := h.signal hserving hsignal
      cases x.point.diag <;> rfl

/-- **What failed was logged, and decided the status.** -/
structure Reports (h : List (Program × Doing)) (x : Program) : Prop where
  /-- Behind a call that fails comes its message. -/
  keeps : Keeps Diag.act .fine (h.map Prod.snd) x.point.diag
  /-- Behind the failure of a call the program cannot do without it only gives back. -/
  refused : ∀ h₁ y op ret h₂, h = h₁ ++ (y, .start op ret) :: h₂ → op.fails ret = true →
    op.fatal = true → ∀ e ∈ h₂,
      (∃ op' ret', e.2 = .start op' ret' ∧
        (op' = .syslog .err op.message ∨ op'.givesBack = true)) ∨ e.2 = .serve .signal
  /-- The status is 0 if no such call failed, and as many errors were logged as calls failed. -/
  status : ∀ status, x.point = .leaving [] status →
    (status = 0 ↔ calls h Doing.failsFatally = 0) ∧ calls h Doing.failsFatally ≤ 1 ∧
      calls h Doing.logsError = calls h Doing.fails

/-- **The program reports what fails.**  Whatever its calls answer and however the threads take
their steps, a call of the start that fails is followed at once by its own message; if the program
cannot do without the call, nothing follows but what gives back, and no client is served; and the
status it returns is 0 exactly if no such call failed. -/
theorem program_reports {junk : ℕ → ℤ} {inherited : ℤ → Bool} {h : List (Program × Doing)}
    (hr : Run (Step argv) (launch junk inherited) h x) : Reports h x := by
  have htelling : ∀ {h x}, Run (Step argv) (launch junk inherited) h x → x.point.Telling :=
    fun hr => hr.rule (Q := fun _ x => x.point.Telling) trivial
      fun hr ht hs => ((inv_run hr).diag ht hs).2
  have hk : Keeps Diag.act .fine (h.map Prod.snd) x.point.diag :=
    keeps_run (fun x : Program => x.point.diag)
      (fun hr hs => ((inv_run hr).diag (htelling hr) hs).1) hr
  refine ⟨hk, ?_, ?_⟩
  · rintro h₁ y op ret h₂ rfl hfails hfatal e he
    rw [List.map_append, List.map_cons] at hk
    obtain ⟨s, -, hk⟩ := keeps_append.mp hk
    obtain ⟨t, ht, hafter⟩ := keeps_cons.mp hk
    have hfailed : t = .owes op.message true := by
      cases s with
      | fine =>
        rw [Diag.act, if_pos hfails, hfatal] at ht
        exact (Option.some.inj ht).symm
      | owes message fatal =>
        obtain ⟨rfl, -⟩ := Option.ite_none_right_eq_some.mp ht
        cases hfails
      | failed =>
        obtain ⟨hback, -⟩ := Option.ite_none_right_eq_some.mp ht
        cases op with
        | freeaddrinfo | close | mutexDestroy | closelog => cases hfails
        | _ => cases hback
    exact hafter.forall (P := fun s => s = .owes op.message true ∨ s = .failed)
      (fun hs hact => Diag.act_fatal hs hact) (Or.inl hfailed) e.2 (List.mem_map_of_mem he)
  · intro status hpoint
    have hfatal := hk.balance (fun s => s.isFatal.toNat) Doing.failsFatally (fun _ => false)
      fun hs => (Diag.counted_act hs).1
    have hlogged := hk.balance (fun s => s.isOwed.toNat) Doing.fails Doing.logsError
      fun hs => (Diag.counted_act hs).2
    rw [List.countP_false] at hfatal
    have hcalls : calls h Doing.failsFatally = x.point.diag.isFatal.toNat :=
      (Nat.zero_add _).symm.trans hfatal
    rw [hcalls]
    have hdiag : x.point.diag = if status = 0 then .fine else .failed := by
      rw [hpoint]
      rfl
    rw [hdiag] at hlogged ⊢
    by_cases hstatus : status = 0
    · rw [if_pos hstatus] at hlogged ⊢
      exact ⟨iff_of_true hstatus rfl, Nat.zero_le 1, (Nat.add_left_cancel hlogged).symm⟩
    · rw [if_neg hstatus] at hlogged ⊢
      exact ⟨iff_of_false hstatus Nat.one_ne_zero, le_refl 1, (Nat.add_left_cancel hlogged).symm⟩

end Runs

/-- A program that cannot bind its socket reports that. -/
theorem program_reports_bind : ∃ h x, Run (Step ["aesdsocket"]) launched h x ∧
    x.point = .leaving [] (-1) ∧ Reports h x := by
  have hr := Run.of_played (step_of_next ["aesdsocket"]) launched bindChoices (by decide +kernel)
  exact ⟨_, _, hr, by decide +kernel, program_reports hr⟩

end Program

end Aesd.Server
