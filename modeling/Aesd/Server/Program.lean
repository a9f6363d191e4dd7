/-
# The whole program

The program from its launch to its end: the start, the accept loop with the client threads in any
order, and the exits.  A signal may come at any time.  The descriptors that are open are part of the
state: what the system hands out was not open before.

Outside the accept loop nobody runs but `main`: before it no thread was created, and behind it all
have ended (`Inv`).
-/
import Aesd.Lib.Discipline
import Aesd.Server.Bookkeeping
import Aesd.Server.Startup

namespace Aesd.Server

open Transition

/-! ## 1. The program -/

/-- What the program does: a call outside the accept loop, or a step of the process. -/
inductive Doing
  | start (op : StartOp) (ret : Ret)
  | serve (a : Act)

/-- A step of `main`. -/
def Act.ofMain : Act → Bool
  | main _ _ => true
  | _ => false

/-- The descriptor a call opens. -/
def Doing.opens : Doing → Option ℤ
  | start .socket ret => if ret.val = -1 then none else some ret.val
  | serve (.main .accept ret) => if ret.val = -1 then none else some ret.val
  | serve (.client _ .open ret) => if ret.val = -1 then none else some ret.val
  | _ => none

/-- The program: the point `main` is at, the accept loop with the threads, the descriptors that are
open, `client_fd` of every record and `file_fd` of every thread. -/
structure Program where
  point : Point
  process : Process
  fds : ℤ → Bool
  clientFd : ℕ → ℤ
  fileFd : ℕ → ℤ

namespace Program

/-- The descriptor a call closes. -/
def closes (x : Program) : Doing → Option ℤ
  | .start (.close fd) _ => some fd
  | .serve (.main (.close fd) _) => some fd
  | .serve (.client i (.close .client) _) => some (x.clientFd i)
  | .serve (.client i (.close .file) _) => some (x.fileFd i)
  | _ => none

/-- The open descriptors after a call. -/
def fdsAfter (x : Program) (d : Doing) : ℤ → Bool :=
  match d.opens, x.closes d with
  | some fd, _ => Function.update x.fds fd true
  | none, some fd => Function.update x.fds fd false
  | none, none => x.fds

/-- `new_client->client_fd` is set before the thread of the record is created. -/
def clientFdAfter (x : Program) (a : Act) : ℕ → ℤ :=
  match x.process.main.pc, a with
  | .create fd record, .main _ _ => Function.update x.clientFd record fd
  | _, _ => x.clientFd

/-- `file_fd` is what `open` returned. -/
def fileFdAfter (x : Program) : Act → ℕ → ℤ
  | .client i .open ret => Function.update x.fileFd i ret.val
  | _ => x.fileFd

end Program

/-- The accept loop is left when its cleanup is done. -/
def Point.after : Point → MainPc → Point
  | serving serverFd, .finished => leaving (shutdown serverFd) 0
  | pt, _ => pt

namespace Program

/-- One step.  A descriptor that is opened was not open. -/
inductive Step (argv : List String) (x : Program) : Doing → Program → Prop
  | start {op : StartOp} {ret : Ret} : x.point.op = some op →
      (∀ fd, (Doing.start op ret).opens = some fd → x.fds fd = false) →
      Step argv x (.start op ret)
        { x with point := x.point.resume argv ret, fds := x.fdsAfter (.start op ret) }
  | serve {a : Act} {p : Process} : (a.ofMain = true → ∃ serverFd, x.point = .serving serverFd) →
      (∀ fd, (Doing.serve a).opens = some fd → x.fds fd = false) → x.process.Step a p →
      Step argv x (.serve a)
        { point := x.point.after p.main.pc, process := p, fds := x.fdsAfter (.serve a)
          clientFd := x.clientFdAfter a, fileFd := x.fileFdAfter a }

/-- The program when it is launched, with the descriptors it inherits. -/
def launch (junk : ℕ → ℤ) (inherited : ℤ → Bool) : Program :=
  { point := .openlog, process := Process.start junk, fds := inherited, clientFd := fun _ => 0
    fileFd := fun _ => 0 }

end Program

namespace Program

/-- Whether the system may give a call the descriptor it returns. -/
def grants (x : Program) (d : Doing) : Bool :=
  match d.opens with
  | none => true
  | some fd => !x.fds fd

theorem not_open_of_grants {x : Program} {d : Doing} (h : x.grants d = true) {fd : ℤ}
    (hfd : d.opens = some fd) : x.fds fd = false := by
  rw [grants, hfd] at h
  exact (Bool.not_eq_true' _).mp h

/-- The step of the call outside the accept loop that returns this, or of the process with this
choice. -/
def next (argv : List String) (x : Program) :
    Ret ⊕ Option (Actor × Ret) → Option (Doing × Program)
  | .inl ret =>
    match x.point.op with
    | none => none
    | some op =>
      if x.grants (.start op ret) then
        some (.start op ret,
          { x with point := x.point.resume argv ret, fds := x.fdsAfter (.start op ret) })
      else none
  | .inr choice =>
    match x.process.next choice with
    | none => none
    | some (a, p) =>
      if (a.ofMain = true → x.point.after .finished ≠ x.point) ∧
          x.grants (.serve a) = true then
        some (.serve a,
          { point := x.point.after p.main.pc, process := p, fds := x.fdsAfter (.serve a)
            clientFd := x.clientFdAfter a, fileFd := x.fileFdAfter a })
      else none

theorem step_of_next (argv : List String) (x : Program) (choice : Ret ⊕ Option (Actor × Ret))
    (d : Doing) (y : Program) (h : x.next argv choice = some (d, y)) : x.Step argv d y := by
  rcases choice with ret | choice
  · rw [next] at h
    split at h
    · cases h
    · rename_i op hop
      split at h
      · rename_i hgrants
        obtain ⟨rfl, rfl⟩ := Prod.mk.inj (Option.some.inj h)
        exact Step.start hop fun fd => not_open_of_grants hgrants
      · cases h
  · rw [next] at h
    split at h
    · cases h
    · rename_i a p hnext
      split at h
      · rename_i hallowed
        obtain ⟨rfl, rfl⟩ := Prod.mk.inj (Option.some.inj h)
        refine Step.serve ?_ (fun fd => not_open_of_grants hallowed.2)
          (Process.step_of_next _ _ _ _ hnext)
        intro hmain
        have hserving := hallowed.1 hmain
        unfold Point.after at hserving
        split at hserving
        · rename_i serverFd hpoint _
          exact ⟨serverFd, hpoint⟩
        · exact absurd rfl hserving
      · cases h

end Program

/-! ## 2. Outside the accept loop -/

/-- Nobody runs but `main`, and `main` is before its accept loop or behind it. -/
structure Process.Idle (p : Process) : Prop where
  exited : ∀ i pc, p.thread i = some pc → pc = .exited
  main : p.main.pc = .whileActive ∨ p.main.pc = .finished

namespace Process

variable {p q : Process}

/-- Behind the cleanup every thread has ended. -/
theorem Books.idle (h : p.Books) (hpc : p.main.pc = .finished) : p.Idle := by
  constructor
  · intro i pc hi
    refine (h.known.ended i pc hi).resolve_left ?_
    rw [h.hand.known_of_ended (Or.inr hpc)]
    exact List.not_mem_nil
  · exact Or.inr hpc

theorem idle_start (junk : ℕ → ℤ) : (start junk).Idle := by
  refine ⟨?_, Or.inl rfl⟩
  intro i pc h
  cases h

/-- `main` holds no mutex and has no descriptor in hand. -/
theorem Idle.free (h : p.Idle) :
    p.main.pc.holds = (fun _ => false) ∧ p.main.pc.accepted = none := by
  rcases h.main with heq | heq
  · rw [heq]
    exact ⟨rfl, rfl⟩
  · rw [heq]
    exact ⟨rfl, rfl⟩

/-- Nobody holds a mutex. -/
theorem Idle.holder (h : p.Idle) (hb : p.Books) (m : Mutex) : p.holder m = none := by
  cases hm : p.holder m with
  | none => rfl
  | some a =>
    have hheld := (hb.inv.agree m a).mp hm
    cases a with
    | main =>
      rw [holds_main, h.free.1] at hheld
      cases hheld
    | client i =>
      rw [holds_client] at hheld
      cases hpc : p.thread i with
      | none =>
        rw [hpc] at hheld
        cases hheld
      | some pc =>
        obtain rfl := h.exited i pc hpc
        rw [hpc] at hheld
        cases hheld

/-- Nobody but `main` can do anything; a signal may come. -/
theorem Idle.step (h : p.Idle) {a : Act} (hs : p.Step a q) (ha : a.ofMain = false) :
    a = .signal ∧ q.Idle := by
  cases hs with
  | main => cases ha
  | client hpc hop =>
    obtain rfl := h.exited _ _ hpc
    cases hop
  | signal => exact ⟨rfl, h.exited, h.main⟩

end Process

/-- The program is in the accept loop. -/
def Point.Serving (pt : Point) : Prop := ∃ serverFd, pt = .serving serverFd

theorem Point.not_serving {pt : Point} {op : StartOp} (hop : pt.op = some op) : ¬ pt.Serving := by
  rintro ⟨serverFd, rfl⟩
  cases hop

theorem Point.after_eq_or (pt : Point) (mpc : MainPc) :
    pt.after mpc = pt ∨ (mpc = .finished ∧ ∃ serverFd, pt = .serving serverFd ∧
      pt.after mpc = .leaving (shutdown serverFd) 0) := by
  unfold Point.after
  split
  · rename_i serverFd
    exact Or.inr ⟨rfl, serverFd, rfl, rfl⟩
  · exact Or.inl rfl

namespace Program

/-- **The invariant of the program.** -/
structure Inv (x : Program) : Prop where
  books : x.process.Books
  idle : ¬ x.point.Serving → x.process.Idle

theorem inv_launch (junk : ℕ → ℤ) (inherited : ℤ → Bool) : (launch junk inherited).Inv :=
  ⟨Process.books_start junk, fun _ => Process.idle_start junk⟩

section Step

variable {argv : List String} {x y : Program} {d : Doing}

/-- **Every step keeps the invariant.** -/
theorem Inv.step (h : x.Inv) (hs : x.Step argv d y) : y.Inv := by
  cases hs with
  | start hop =>
    exact ⟨h.books, fun _ => h.idle (Point.not_serving hop)⟩
  | @serve a p hmain _ hs =>
    have hbooks : p.Books := h.books.step hs
    refine ⟨hbooks, ?_⟩
    intro hnot
    rcases Point.after_eq_or x.point p.main.pc with heq | ⟨hpc, -⟩
    · have hnot' : ¬ x.point.Serving := fun hserving => hnot (by rwa [← heq] at hserving)
      have ha : a.ofMain = false := by
        cases hof : a.ofMain with
        | false => rfl
        | true => exact absurd (hmain hof) hnot'
      exact ((h.idle hnot').step hs ha).2
    · exact hbooks.idle hpc

/-- Outside the accept loop the process does nothing. -/
theorem Inv.signal (h : x.Inv) (hnot : ¬ x.point.Serving) {a : Act}
    (hs : x.Step argv (.serve a) y) : a = .signal ∧ y.point = x.point := by
  cases hs with
  | @serve _ p hmain _ hs =>
    have ha : a.ofMain = false := by
      cases hof : a.ofMain with
      | false => rfl
      | true => exact absurd (hmain hof) hnot
    refine ⟨((h.idle hnot).step hs ha).1, ?_⟩
    rcases Point.after_eq_or x.point p.main.pc with heq | ⟨-, serverFd, hserving, -⟩
    · exact heq
    · exact absurd ⟨serverFd, hserving⟩ hnot

theorem inv_run {junk : ℕ → ℤ} {inherited : ℤ → Bool} {h : List (Program × Doing)}
    (hr : Run (Step argv) (launch junk inherited) h x) : x.Inv :=
  hr.invariant (inv_launch junk inherited) fun hi hs => hi.step hs

end Step

/-- How often the program makes a call. -/
def calls (h : List (Program × Doing)) (f : Doing → Bool) : ℕ := (h.map Prod.snd).countP f

/-! ## 3. Choices -/

/-- Choices outside the accept loop, and in it. -/
abbrev Choice := Ret ⊕ Option (Actor × Ret)

def outside (rets : List Ret) : List Choice := rets.map Sum.inl

def inside (choices : List (Option (Actor × Ret))) : List Choice := choices.map Sum.inr

/-- The start of a daemon, up to its accept loop; no handler could be set for SIGINT. -/
def daemonChoices : List Choice :=
  outside [{}, {}, {}, { val := -1 }, {}, {}, {}, { val := 7 }, {}, {}, {}, {}, {}, {},
    { val := 1 }, {}, {}, {}, {}, {}, {}]

/-- The accept loop with one client, and the end of the program. -/
def clientChoices : List Choice :=
  inside (Process.acceptChoices ++ Process.inFlightChoices ++ Process.endChoices ++
    Process.cleanupChoices ++ Process.joinChoices) ++ outside [{}, {}, {}, {}, {}]

/-- A start that fails in `bind`. -/
def bindChoices : List Choice :=
  outside [{}, {}, {}, {}, {}, {}, { val := 7 }, {}, { val := -1 }, {}, {}, {}, {}, {}, {}]

/-- The program with the standard descriptors open. -/
def launched : Program := launch (fun _ => 0) fun fd => decide (fd = 0 ∨ fd = 1 ∨ fd = 2)

end Program

end Aesd.Server
