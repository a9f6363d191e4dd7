/-
# What the program sets up and gives back

The log, the two mutexes and the address information.  What is set up can be read off the point the
program is at (`Point.setup`): on an exit it is exactly what the calls still to come give back.  So
the program keeps to the discipline `Setup.act` whatever its calls answer: a mutex is used between
its initialisation and its destruction, and the log is closed last.

The mutexes are shared with the client threads.  They are destroyed behind the accept loop, when
every thread was joined; so nobody holds them, and nobody will want them (`program_setup`).

Of the messages those are modelled that `main` and `setup_server` log outside the accept loop.  The
message of `signal_handler` is left out: a signal may come behind `closelog`, and its `syslog` then
opens the log again.
-/
import Aesd.Lib.Discipline
import Aesd.Server.Program

namespace Aesd.Server

open Transition Discipline

/-! ## 1. What is set up -/

/-- The life of a mutex, and of the log. -/
inductive Stage
  | unmade
  | ready
  | gone
  deriving DecidableEq

namespace Stage

def made : Stage → Bool
  | unmade => false
  | _ => true

def past : Stage → Bool
  | gone => true
  | _ => false

end Stage

/-- What the program has set up and not given back. -/
structure Setup where
  log : Stage
  fileMutex : Stage
  listMutex : Stage
  addrinfo : Bool
  deriving DecidableEq

/-- The mutex a call locks or unlocks. -/
def Act.mutex : Act → Option Mutex
  | main (.lock m) _ | main (.unlock m) _ => some m
  | client _ (.lock m) _ | client _ (.unlock m) _ => some m
  | _ => none

namespace Setup

def mutex (s : Setup) : Mutex → Stage
  | .file => s.fileMutex
  | .list => s.listMutex

def setMutex (s : Setup) (stage : Stage) : Mutex → Setup
  | .file => { s with fileMutex := stage }
  | .list => { s with listMutex := stage }

/-- Before the first call. -/
def atStart : Setup := ⟨.unmade, .unmade, .unmade, false⟩

/-- When all is given back but the log. -/
def atClose : Setup := ⟨.ready, .gone, .gone, false⟩

def atEnd : Setup := ⟨.gone, .gone, .gone, false⟩

/-- The discipline.  A mutex is used between its initialisation and its destruction, a message of
`main` is logged while the log is open, and the log is closed when nothing else is set up. -/
def act (s : Setup) : Doing → Option Setup
  | .start .openlog _ => if s = atStart then some { s with log := .ready } else none
  | .start (.mutexInit m) _ => if s.mutex m = .unmade then some (s.setMutex .ready m) else none
  | .start (.mutexDestroy m) _ => if s.mutex m = .ready then some (s.setMutex .gone m) else none
  | .start (.getaddrinfo _) ret =>
    if s.addrinfo then none else some { s with addrinfo := ret.val = 0 }
  | .start .socket _ => if s.addrinfo then some s else none
  | .start (.bind _) _ => if s.addrinfo then some s else none
  | .start .freeaddrinfo _ => if s.addrinfo then some { s with addrinfo := false } else none
  | .start (.syslog _ _) _ => if s.log = .ready then some s else none
  | .start .closelog _ => if s = atClose then some atEnd else none
  | .start _ _ => some s
  | .serve a =>
    match a.mutex with
    | some m => if s.mutex m = .ready then some s else none
    | none => some s

/-- Whether a call is still to come. -/
def stage (rest : List StartOp) (op : StartOp) : Stage := if op ∈ rest then .ready else .gone

/-- What a list of calls gives back. -/
def givenBack (rest : List StartOp) : Setup :=
  ⟨stage rest .closelog, stage rest (.mutexDestroy .file), stage rest (.mutexDestroy .list),
    .freeaddrinfo ∈ rest⟩

/-- Each call of the list is allowed with what it and those behind it give back. -/
def Orderly : List StartOp → Prop
  | [] => True
  | op :: rest =>
    (∀ ret, (givenBack (op :: rest)).act (.start op ret) = some (givenBack rest)) ∧ Orderly rest

end Setup

namespace Point

/-- What is set up at a point. -/
def setup : Point → Setup
  | openlog => Setup.atStart
  | mutexInit .file => ⟨.ready, .unmade, .unmade, false⟩
  | mutexInit .list => ⟨.ready, .ready, .unmade, false⟩
  | socket | setsockopt _ | bind _ | logServerFd _ | freeaddrinfo _ =>
    ⟨.ready, .ready, .ready, true⟩
  | leaving rest _ => Setup.givenBack rest
  | _ => ⟨.ready, .ready, .ready, false⟩

/-- An exit gives back what is set up, in order. -/
def Orderly : Point → Prop
  | leaving rest _ => Setup.Orderly rest
  | _ => True

section Exits

variable (serverFd : ℤ) (message : String)

theorem orderly_addrinfoFailed : Setup.Orderly addrinfoFailed :=
  ⟨fun _ => rfl, fun _ => rfl, fun _ => rfl, fun _ => rfl, trivial⟩

theorem orderly_socketFailed : Setup.Orderly socketFailed :=
  ⟨fun _ => rfl, fun _ => rfl, fun _ => rfl, fun _ => rfl, fun _ => rfl, trivial⟩

theorem orderly_reuseFailed : Setup.Orderly (reuseFailed serverFd) :=
  ⟨fun _ => rfl, fun _ => rfl, fun _ => rfl, fun _ => rfl, fun _ => rfl, fun _ => rfl, trivial⟩

theorem orderly_bindFailed : Setup.Orderly (bindFailed serverFd) :=
  ⟨fun _ => rfl, fun _ => rfl, fun _ => rfl, fun _ => rfl, fun _ => rfl, fun _ => rfl, trivial⟩

theorem orderly_forkFailed : Setup.Orderly (forkFailed serverFd) :=
  ⟨fun _ => rfl, fun _ => rfl, fun _ => rfl, fun _ => rfl, fun _ => rfl, trivial⟩

theorem orderly_startFailed : Setup.Orderly (startFailed serverFd message) :=
  ⟨fun _ => rfl, fun _ => rfl, fun _ => rfl, fun _ => rfl, fun _ => rfl, trivial⟩

theorem orderly_shutdown : Setup.Orderly (shutdown serverFd) :=
  ⟨fun _ => rfl, fun _ => rfl, fun _ => rfl, fun _ => rfl, fun _ => rfl, trivial⟩

end Exits

/-- **Every call outside the accept loop is allowed** with what is set up. -/
theorem setup_resume {argv : List String} {pt : Point} {op : StartOp} (h : pt.Orderly)
    (hop : pt.op = some op) (ret : Ret) :
    pt.setup.act (.start op ret) = some (pt.resume argv ret).setup ∧
      (pt.resume argv ret).Orderly := by
  have hgoes := goes_resume argv hop ret
  generalize pt.resume argv ret = pt' at hgoes ⊢
  cases hgoes with
  | addrinfoFailed hval =>
    refine ⟨?_, orderly_addrinfoFailed⟩
    have hfails : decide (ret.val = 0) = false := decide_eq_false hval
    rw [setup, Setup.act, hfails]
    rfl
  | addrinfo hval =>
    refine ⟨?_, trivial⟩
    have hset : decide (ret.val = 0) = true := decide_eq_true hval
    rw [setup, Setup.act, hset]
    rfl
  | socketFailed => exact ⟨rfl, orderly_socketFailed⟩
  | reuseFailed => exact ⟨rfl, orderly_reuseFailed _⟩
  | bindFailed => exact ⟨rfl, orderly_bindFailed _⟩
  | forkFailed => exact ⟨rfl, orderly_forkFailed _⟩
  | setsidFailed | chdirFailed | listenFailed => exact ⟨rfl, orderly_startFailed _ _⟩
  | leaves => exact ⟨h.1 ret, h.2⟩
  | @standardClosed _ serverFd fd rest => cases rest <;> exact ⟨rfl, trivial⟩
  | _ => exact ⟨rfl, trivial⟩

end Point

namespace Program

section Step

variable {argv : List String} {x y : Program} {d : Doing}

theorem orderly_after {pt : Point} {mpc : MainPc} (h : pt.Orderly) : (pt.after mpc).Orderly := by
  rcases Point.after_eq_or pt mpc with heq | ⟨-, serverFd, -, heq⟩
  · rwa [heq]
  · rw [heq]
    exact Point.orderly_shutdown serverFd

theorem setup_after (pt : Point) (mpc : MainPc) : (pt.after mpc).setup = pt.setup := by
  rcases Point.after_eq_or pt mpc with heq | ⟨-, serverFd, hserving, heq⟩
  · rw [heq]
  · rw [heq, hserving]
    rfl

/-- In the accept loop both mutexes may be used. -/
theorem setup_serving {pt : Point} (h : pt.Serving) (a : Act) :
    pt.setup.act (.serve a) = some pt.setup := by
  obtain ⟨serverFd, rfl⟩ := h
  unfold Setup.act
  dsimp only
  split
  · rename_i m _
    cases m <;> rfl
  · rfl

/-- **Every step is allowed** with what is set up. -/
theorem Inv.setup (h : x.Inv) (horderly : x.point.Orderly) (hs : x.Step argv d y) :
    x.point.setup.act d = some y.point.setup ∧ y.point.Orderly := by
  cases hs with
  | start hop => exact Point.setup_resume horderly hop _
  | @serve a p hmain hopens hs =>
    refine ⟨?_, orderly_after horderly⟩
    rw [setup_after]
    by_cases hserving : x.point.Serving
    · exact setup_serving hserving a
    · have hsignal : x.Step argv (.serve a) _ := Step.serve hmain hopens hs
      obtain ⟨rfl, -⟩ := h.signal hserving hsignal
      rfl

end Step

end Program

namespace Doing

def initsMutex (m : Mutex) : Doing → Bool
  | start (.mutexInit m') _ => m' = m
  | _ => false

def destroysMutex (m : Mutex) : Doing → Bool
  | start (.mutexDestroy m') _ => m' = m
  | _ => false

/-- A `getaddrinfo` that succeeds. -/
def getsAddrinfo : Doing → Bool
  | start (.getaddrinfo _) ret => ret.val = 0
  | _ => false

def freesAddrinfo : Doing → Bool
  | start .freeaddrinfo _ => true
  | _ => false

def opensLog : Doing → Bool
  | start .openlog _ => true
  | _ => false

def closesLog : Doing → Bool
  | start .closelog _ => true
  | _ => false

end Doing

namespace Setup

variable {s t : Setup} {d : Doing}

theorem mutex_setMutex (stage : Stage) (m m' : Mutex) :
    (s.setMutex stage m).mutex m' = if m' = m then stage else s.mutex m' := by
  cases m <;> cases m' <;> rfl

theorem setMutex_log (stage : Stage) (m : Mutex) : (s.setMutex stage m).log = s.log := by
  cases m <;> rfl

theorem setMutex_addrinfo (stage : Stage) (m : Mutex) :
    (s.setMutex stage m).addrinfo = s.addrinfo := by
  cases m <;> rfl

/-- A step of the process sets nothing up and gives nothing back. -/
theorem act_serve {a : Act} (h : s.act (.serve a) = some t) : s = t := by
  unfold act at h
  dsimp only at h
  split at h
  · exact Option.some.inj (Option.ite_none_right_eq_some.mp h).2
  · exact Option.some.inj h

/-- **What a call sets up and gives back**, in numbers. -/
structure Counted (s : Setup) (d : Doing) (t : Setup) : Prop where
  inits : ∀ m, (s.mutex m).made.toNat + (d.initsMutex m).toNat = (t.mutex m).made.toNat
  destroys : ∀ m, (s.mutex m).past.toNat + (d.destroysMutex m).toNat = (t.mutex m).past.toNat
  addrinfo : s.addrinfo.toNat + d.getsAddrinfo.toNat = t.addrinfo.toNat + d.freesAddrinfo.toNat
  opens : s.log.made.toNat + d.opensLog.toNat = t.log.made.toNat
  closes : s.log.past.toNat + d.closesLog.toNat = t.log.past.toNat

theorem counted_act (h : s.act d = some t) : s.Counted d t := by
  cases d with
  | serve a =>
    obtain rfl := act_serve h
    exact ⟨fun _ => rfl, fun _ => rfl, rfl, rfl, rfl⟩
  | start op ret =>
    cases op with
    | mutexInit m =>
      obtain ⟨hmutex, heq⟩ := Option.ite_none_right_eq_some.mp h
      obtain rfl := Option.some.inj heq
      constructor
      case inits | destroys =>
        intro m'
        rw [mutex_setMutex]
        by_cases hm : m' = m
        · rw [if_pos hm, hm, hmutex]
          simp [Doing.initsMutex, Doing.destroysMutex, Stage.made, Stage.past]
        · rw [if_neg hm]
          simp [Doing.initsMutex, Doing.destroysMutex, Ne.symm hm]
      case addrinfo => rw [setMutex_addrinfo]; rfl
      case opens | closes => rw [setMutex_log]; rfl
    | mutexDestroy m =>
      obtain ⟨hmutex, heq⟩ := Option.ite_none_right_eq_some.mp h
      obtain rfl := Option.some.inj heq
      constructor
      case inits | destroys =>
        intro m'
        rw [mutex_setMutex]
        by_cases hm : m' = m
        · rw [if_pos hm, hm, hmutex]
          simp [Doing.initsMutex, Doing.destroysMutex, Stage.made, Stage.past]
        · rw [if_neg hm]
          simp [Doing.initsMutex, Doing.destroysMutex, Ne.symm hm]
      case addrinfo => rw [setMutex_addrinfo]; rfl
      case opens | closes => rw [setMutex_log]; rfl
    | getaddrinfo =>
      obtain ⟨hno, heq⟩ := Option.ite_none_left_eq_some.mp h
      obtain rfl := Option.some.inj heq
      refine ⟨fun m => by cases m <;> rfl, fun m => by cases m <;> rfl, ?_, rfl, rfl⟩
      simp [Bool.eq_false_iff.mpr hno, Doing.getsAddrinfo, Doing.freesAddrinfo]
    | freeaddrinfo =>
      obtain ⟨hset, heq⟩ := Option.ite_none_right_eq_some.mp h
      obtain rfl := Option.some.inj heq
      refine ⟨fun m => by cases m <;> rfl, fun m => by cases m <;> rfl, ?_, rfl, rfl⟩
      rw [hset]
      rfl
    | openlog | closelog =>
      obtain ⟨rfl, heq⟩ := Option.ite_none_right_eq_some.mp h
      obtain rfl := Option.some.inj heq
      exact ⟨fun m => by cases m <;> rfl, fun m => by cases m <;> rfl, rfl, rfl, rfl⟩
    | socket | bind | syslog =>
      obtain ⟨-, heq⟩ := Option.ite_none_right_eq_some.mp h
      obtain rfl := Option.some.inj heq
      exact ⟨fun _ => rfl, fun _ => rfl, rfl, rfl, rfl⟩
    | _ =>
      obtain rfl := Option.some.inj h
      exact ⟨fun _ => rfl, fun _ => rfl, rfl, rfl, rfl⟩

end Setup

namespace Program

/-- **What was set up is given back.** -/
structure SetUp (h : List (Program × Doing)) (x : Program) : Prop where
  /-- Every call is allowed with what is set up. -/
  keeps : Keeps Setup.act Setup.atStart (h.map Prod.snd) x.point.setup
  /-- When a mutex is destroyed nobody holds it and every thread has ended; nobody locks or unlocks
  a mutex any more. -/
  unused : ∀ h₁ y m ret h₂, h = h₁ ++ (y, .start (.mutexDestroy m) ret) :: h₂ →
    y.process.holder m = none ∧ (∀ i pc, y.process.thread i = some pc → pc = .exited) ∧
      ∀ e ∈ h₂, ∀ a, e.2 = .serve a → a.mutex = none
  /-- A program that has returned has initialised and destroyed each mutex once, freed the address
  information as often as it has obtained it, and called `openlog` and `closelog` once. -/
  returned : ∀ status, x.point = .leaving [] status →
    (∀ m, calls h (Doing.initsMutex m) = 1 ∧ calls h (Doing.destroysMutex m) = 1) ∧
      calls h Doing.freesAddrinfo = calls h Doing.getsAddrinfo ∧
      calls h Doing.opensLog = 1 ∧ calls h Doing.closesLog = 1

/-- The program is on its way out. -/
def Leaving (x : Program) : Prop := ∃ rest status, x.point = .leaving rest status

theorem Leaving.not_serving {x : Program} (h : x.Leaving) : ¬ x.point.Serving := by
  obtain ⟨rest, status, hpoint⟩ := h
  rintro ⟨serverFd, hserving⟩
  rw [hpoint] at hserving
  cases hserving

section Runs

variable {argv : List String} {x y : Program} {d : Doing}

/-- A mutex is destroyed on the way out only. -/
theorem leaving_of_destroy {m : Mutex} (hop : x.point.op = some (.mutexDestroy m)) : x.Leaving := by
  unfold Leaving
  generalize x.point = pt at hop ⊢
  cases pt with
  | leaving rest status => exact ⟨rest, status, rfl⟩
  | sigactionFailed sig => cases sig <;> cases hop
  | closeStandard serverFd rest => cases rest <;> cases hop
  | _ => cases hop

/-- There is no way back. -/
theorem Leaving.step (h : x.Leaving) (hi : x.Inv) (hs : x.Step argv d y) : y.Leaving := by
  cases hd : d with
  | serve a =>
    rw [hd] at hs
    rw [Leaving, (hi.signal h.not_serving hs).2]
    exact h
  | start op ret =>
    rw [hd] at hs
    obtain ⟨rest, status, hpoint⟩ := h
    cases hs with
    | start hop =>
      refine ⟨rest.tail, status, ?_⟩
      rw [hpoint]
      rfl

theorem keeps_setup {junk : ℕ → ℤ} {inherited : ℤ → Bool} {h : List (Program × Doing)}
    (hr : Run (Step argv) (launch junk inherited) h x) :
    Keeps Setup.act Setup.atStart (h.map Prod.snd) x.point.setup := by
  have horderly : ∀ {h x}, Run (Step argv) (launch junk inherited) h x → x.point.Orderly :=
    fun hr => hr.rule (Q := fun _ x => x.point.Orderly) trivial
      fun hr ho hs => ((inv_run hr).setup ho hs).2
  exact keeps_run (fun x : Program => x.point.setup)
    (fun hr hs => ((inv_run hr).setup (horderly hr) hs).1) hr

/-- **What the program sets up it gives back, and its mutexes outlive their users.**  Whatever its
calls answer and however the client threads take their steps, a mutex is locked and unlocked only
between its initialisation and its destruction, and when it is destroyed it is free and all threads
have ended; the messages of the start and of the end are logged between `openlog` and `closelog`;
and a program that returns has destroyed both mutexes, freed the address information if it had any,
and called `closelog` last. -/
theorem program_setup {junk : ℕ → ℤ} {inherited : ℤ → Bool} {h : List (Program × Doing)}
    (hr : Run (Step argv) (launch junk inherited) h x) : SetUp h x := by
  have hk := keeps_setup hr
  refine ⟨hk, ?_, ?_⟩
  · rintro h₁ y m ret h₂ rfl
    obtain ⟨v, hy, hs, hv, hrest⟩ := hr.cut
    have hi := inv_run hy
    have hleaving : y.Leaving := by
      cases hs with
      | start hop => exact leaving_of_destroy hop
    have hidle := hi.idle hleaving.not_serving
    refine ⟨hidle.holder hi.books m, hidle.exited, ?_⟩
    rintro ⟨z, d⟩ he a rfl
    obtain ⟨h₃, h₄, rfl⟩ := List.append_of_mem he
    obtain ⟨hz, w, hzs, -⟩ := hrest.split
    have hout := hz.invariant (I := fun x => x.Leaving ∧ x.Inv)
      ⟨hleaving.step hi hs, inv_run hv⟩ fun hi hs => ⟨hi.1.step hi.2 hs, hi.2.step hs⟩
    obtain ⟨rfl, -⟩ := hout.2.signal hout.1.not_serving hzs
    rfl
  · intro status hpoint
    have hend : x.point.setup = Setup.atEnd := by
      rw [hpoint]
      rfl
    rw [hend] at hk
    refine ⟨?_, ?_, ?_, ?_⟩
    · intro m
      have hinits := hk.balance (fun s => (s.mutex m).made.toNat) (Doing.initsMutex m)
        (fun _ => false) fun hs => (Setup.counted_act hs).inits m
      have hdestroys := hk.balance (fun s => (s.mutex m).past.toNat) (Doing.destroysMutex m)
        (fun _ => false) fun hs => (Setup.counted_act hs).destroys m
      rw [List.countP_false] at hinits hdestroys
      cases m <;> exact ⟨(Nat.zero_add _).symm.trans hinits, (Nat.zero_add _).symm.trans hdestroys⟩
    · have hb := hk.balance (fun s => s.addrinfo.toNat) Doing.getsAddrinfo Doing.freesAddrinfo
        fun hs => (Setup.counted_act hs).addrinfo
      exact (Nat.add_left_cancel hb).symm
    · have hb := hk.balance (fun s => s.log.made.toNat) Doing.opensLog (fun _ => false)
        fun hs => (Setup.counted_act hs).opens
      rw [List.countP_false] at hb
      exact (Nat.zero_add _).symm.trans hb
    · have hb := hk.balance (fun s => s.log.past.toNat) Doing.closesLog (fun _ => false)
        fun hs => (Setup.counted_act hs).closes
      rw [List.countP_false] at hb
      exact (Nat.zero_add _).symm.trans hb

end Runs

/-- A daemon that serves a client gives back what it set up. -/
theorem program_setup_daemon : ∃ h x, Run (Step ["aesdsocket", "-d"]) launched h x ∧
    x.point = .leaving [] 0 ∧ SetUp h x := by
  have hr := Run.of_played (step_of_next ["aesdsocket", "-d"]) launched
    (daemonChoices ++ clientChoices) (by decide +kernel)
  exact ⟨_, _, hr, by decide +kernel, program_setup hr⟩

end Program

end Aesd.Server
