/-
# The server process

`main` from its accept loop on, and the client threads it creates, taking steps in any order.
`main` is a machine like a client thread: a program point (`MainPc`), the call it makes there
(`MainPc.op`), and where each result leads (`Main.resume`, with all its ways in `Main.Goes`).  The
list of clients is `main`'s own: no client thread touches it.

A client thread here may get any answer the system can give (`Op.Answers`), failures included, and
`active` may be cleared at any point.  A mutex is acquired when it is free, and a join returns
when the thread has ended.

A record of a client is known by the number of its `malloc`; the thread that gets the record has
the same number.
-/
import Aesd.Server.Locks

namespace Aesd.Server

open Locking

/-! ## 1. `main` -/

/-- The calls of `main`. -/
inductive MainOp
  | loadActive
  /-- `client_setup`, that is an `accept`. -/
  | accept
  | malloc
  | create (record : ℕ)
  | lock (m : Mutex)
  | unlock (m : Mutex)
  /-- A read of `thread_complete`. -/
  | loadComplete (record : ℕ)
  | join (record : ℕ)
  | free (record : ℕ)
  | close (fd : ℤ)
  deriving DecidableEq

/-- The points at which `main` makes a call, in the order of the source.  `rest` are the records
the sweep has not come to yet. -/
inductive MainPc
  | whileActive
  | accept
  /-- The test of `active` behind a failed `accept`. -/
  | acceptFailed
  | mallocRecord (fd : ℤ)
  | mallocFailedClose (fd : ℤ)
  | create (fd : ℤ) (record : ℕ)
  | createFailedClose (fd : ℤ) (record : ℕ)
  | createFailedFree (record : ℕ)
  | sweepLock
  | sweepTest (record : ℕ) (rest : List ℕ)
  | sweepJoin (record : ℕ) (rest : List ℕ)
  | sweepFree (record : ℕ) (rest : List ℕ)
  | sweepUnlock
  | cleanupLock
  | cleanupJoin (record : ℕ)
  | cleanupFree (record : ℕ)
  | cleanupUnlock
  /-- Behind the cleanup. -/
  | finished
  deriving DecidableEq

/-- `main` with its list of clients, head first. -/
structure Main where
  pc : MainPc
  clients : List ℕ
  deriving DecidableEq

/-- The call made at a point. -/
def MainPc.op : MainPc → Option MainOp
  | whileActive => some .loadActive
  | accept => some .accept
  | acceptFailed => some .loadActive
  | mallocRecord _ => some .malloc
  | mallocFailedClose fd => some (.close fd)
  | create _ record => some (.create record)
  | createFailedClose fd _ => some (.close fd)
  | createFailedFree record => some (.free record)
  | sweepLock => some (.lock .list)
  | sweepTest record _ => some (.loadComplete record)
  | sweepJoin record _ => some (.join record)
  | sweepFree record _ => some (.free record)
  | sweepUnlock => some (.unlock .list)
  | cleanupLock => some (.lock .list)
  | cleanupJoin record => some (.join record)
  | cleanupFree record => some (.free record)
  | cleanupUnlock => some (.unlock .list)
  | finished => none

/-- The head of `SLIST_FOREACH_SAFE`. -/
def MainPc.sweep : List ℕ → MainPc
  | [] => sweepUnlock
  | record :: rest => sweepTest record rest

/-- The head of the loop of the cleanup. -/
def MainPc.cleanup : List ℕ → MainPc
  | [] => cleanupUnlock
  | record :: _ => cleanupJoin record

/-- The point `main` goes to when its call returns `ret`, and its list there. -/
def Main.resume (m : Main) (ret : Ret) : Main :=
  match m.pc with
  | .whileActive => { m with pc := if ret.val ≠ 0 then .accept else .cleanupLock }
  | .accept => { m with pc := if ret.val = -1 then .acceptFailed else .mallocRecord ret.val }
  | .acceptFailed => { m with pc := if ret.val = 0 then .cleanupLock else .whileActive }
  | .mallocRecord fd =>
    match ret.ptr with
    | none => { m with pc := .mallocFailedClose fd }
    | some record => { m with pc := .create fd record }
  | .mallocFailedClose _ => { m with pc := .whileActive }
  | .create fd record =>
    if ret.val ≠ 0 then { m with pc := .createFailedClose fd record }
    else ⟨.sweepLock, record :: m.clients⟩
  | .createFailedClose _ record => { m with pc := .createFailedFree record }
  | .createFailedFree _ => { m with pc := .whileActive }
  | .sweepLock => { m with pc := .sweep m.clients }
  | .sweepTest record rest =>
    { m with pc := if ret.val = 1 then .sweepJoin record rest else .sweep rest }
  | .sweepJoin record rest => ⟨.sweepFree record rest, m.clients.erase record⟩
  | .sweepFree _ rest => { m with pc := .sweep rest }
  | .sweepUnlock => { m with pc := .whileActive }
  | .cleanupLock => { m with pc := .cleanup m.clients }
  | .cleanupJoin record => ⟨.cleanupFree record, m.clients.tail⟩
  | .cleanupFree _ => { m with pc := .cleanup m.clients }
  | .cleanupUnlock => { m with pc := .finished }
  | .finished => m

/-- **Every way from a state of `main` by a call and its result to the next.** -/
inductive Main.Goes : Main → MainOp → Ret → Main → Prop
  | active {clients : List ℕ} {ret : Ret} : ret.val ≠ 0 →
      Goes ⟨.whileActive, clients⟩ .loadActive ret ⟨.accept, clients⟩
  | inactive {clients : List ℕ} {ret : Ret} : ret.val = 0 →
      Goes ⟨.whileActive, clients⟩ .loadActive ret ⟨.cleanupLock, clients⟩
  | acceptFailed {clients : List ℕ} {ret : Ret} : ret.val = -1 →
      Goes ⟨.accept, clients⟩ .accept ret ⟨.acceptFailed, clients⟩
  | accepted {clients : List ℕ} {ret : Ret} : ret.val ≠ -1 →
      Goes ⟨.accept, clients⟩ .accept ret ⟨.mallocRecord ret.val, clients⟩
  | stopped {clients : List ℕ} {ret : Ret} : ret.val = 0 →
      Goes ⟨.acceptFailed, clients⟩ .loadActive ret ⟨.cleanupLock, clients⟩
  | retried {clients : List ℕ} {ret : Ret} : ret.val ≠ 0 →
      Goes ⟨.acceptFailed, clients⟩ .loadActive ret ⟨.whileActive, clients⟩
  | mallocFailed {clients : List ℕ} {ret : Ret} {fd : ℤ} : ret.ptr = none →
      Goes ⟨.mallocRecord fd, clients⟩ .malloc ret ⟨.mallocFailedClose fd, clients⟩
  | malloced {clients : List ℕ} {ret : Ret} {fd : ℤ} {record : ℕ} : ret.ptr = some record →
      Goes ⟨.mallocRecord fd, clients⟩ .malloc ret ⟨.create fd record, clients⟩
  | mallocFailedClosed {clients : List ℕ} {ret : Ret} {fd : ℤ} :
      Goes ⟨.mallocFailedClose fd, clients⟩ (.close fd) ret ⟨.whileActive, clients⟩
  | createFailed {clients : List ℕ} {ret : Ret} {fd : ℤ} {record : ℕ} : ret.val ≠ 0 →
      Goes ⟨.create fd record, clients⟩ (.create record) ret ⟨.createFailedClose fd record, clients⟩
  | created {clients : List ℕ} {ret : Ret} {fd : ℤ} {record : ℕ} : ret.val = 0 →
      Goes ⟨.create fd record, clients⟩ (.create record) ret ⟨.sweepLock, record :: clients⟩
  | createFailedClosed {clients : List ℕ} {ret : Ret} {fd : ℤ} {record : ℕ} :
      Goes ⟨.createFailedClose fd record, clients⟩ (.close fd) ret
        ⟨.createFailedFree record, clients⟩
  | createFailedFreed {clients : List ℕ} {ret : Ret} {record : ℕ} :
      Goes ⟨.createFailedFree record, clients⟩ (.free record) ret ⟨.whileActive, clients⟩
  | sweepLocked {clients : List ℕ} {ret : Ret} :
      Goes ⟨.sweepLock, clients⟩ (.lock .list) ret ⟨.sweep clients, clients⟩
  | complete {clients rest : List ℕ} {ret : Ret} {record : ℕ} : ret.val = 1 →
      Goes ⟨.sweepTest record rest, clients⟩ (.loadComplete record) ret
        ⟨.sweepJoin record rest, clients⟩
  | running {clients rest : List ℕ} {ret : Ret} {record : ℕ} : ret.val ≠ 1 →
      Goes ⟨.sweepTest record rest, clients⟩ (.loadComplete record) ret ⟨.sweep rest, clients⟩
  | sweepJoined {clients rest : List ℕ} {ret : Ret} {record : ℕ} :
      Goes ⟨.sweepJoin record rest, clients⟩ (.join record) ret
        ⟨.sweepFree record rest, clients.erase record⟩
  | sweepFreed {clients rest : List ℕ} {ret : Ret} {record : ℕ} :
      Goes ⟨.sweepFree record rest, clients⟩ (.free record) ret ⟨.sweep rest, clients⟩
  | sweepUnlocked {clients : List ℕ} {ret : Ret} :
      Goes ⟨.sweepUnlock, clients⟩ (.unlock .list) ret ⟨.whileActive, clients⟩
  | cleanupLocked {clients : List ℕ} {ret : Ret} :
      Goes ⟨.cleanupLock, clients⟩ (.lock .list) ret ⟨.cleanup clients, clients⟩
  | cleanupJoined {clients : List ℕ} {ret : Ret} {record : ℕ} :
      Goes ⟨.cleanupJoin record, clients⟩ (.join record) ret ⟨.cleanupFree record, clients.tail⟩
  | cleanupFreed {clients : List ℕ} {ret : Ret} {record : ℕ} :
      Goes ⟨.cleanupFree record, clients⟩ (.free record) ret ⟨.cleanup clients, clients⟩
  | cleanupUnlocked {clients : List ℕ} {ret : Ret} :
      Goes ⟨.cleanupUnlock, clients⟩ (.unlock .list) ret ⟨.finished, clients⟩

/-- **A call goes one of these ways.** -/
theorem Main.goes_resume {m : Main} {op : MainOp} (hop : m.pc.op = some op) (ret : Ret) :
    m.Goes op ret (m.resume ret) := by
  obtain ⟨pc, clients⟩ := m
  unfold Main.resume
  cases pc with
  | whileActive =>
    obtain rfl := Option.some.inj hop
    dsimp only
    split
    · rename_i hactive
      exact Goes.active hactive
    · rename_i hcleared
      exact Goes.inactive (not_not.mp hcleared)
  | accept =>
    obtain rfl := Option.some.inj hop
    dsimp only
    split
    · rename_i hfail
      exact Goes.acceptFailed hfail
    · rename_i hval
      exact Goes.accepted hval
  | acceptFailed =>
    obtain rfl := Option.some.inj hop
    dsimp only
    split
    · rename_i hcleared
      exact Goes.stopped hcleared
    · rename_i hactive
      exact Goes.retried hactive
  | mallocRecord fd =>
    obtain rfl := Option.some.inj hop
    dsimp only
    split
    · rename_i hp
      exact Goes.mallocFailed hp
    · rename_i hp
      exact Goes.malloced hp
  | create fd record =>
    obtain rfl := Option.some.inj hop
    dsimp only
    split
    · rename_i hfails
      exact Goes.createFailed hfails
    · rename_i hval
      exact Goes.created (not_not.mp hval)
  | sweepTest record rest =>
    obtain rfl := Option.some.inj hop
    dsimp only
    split
    · rename_i hval
      exact Goes.complete hval
    · rename_i hval
      exact Goes.running hval
  | finished => cases hop
  -- the calls whose result does not matter
  | _ =>
    obtain rfl := Option.some.inj hop
    constructor

/-- What a call of `main` does to the mutexes. -/
def MainOp.action : MainOp → Action Mutex
  | lock m => .acquire m
  | unlock m => .release m
  | _ => .pass

/-- Whether `main` holds a mutex at a point. -/
def MainPc.holds : MainPc → Mutex → Bool
  | sweepTest _ _, m | sweepJoin _ _, m | sweepFree _ _, m | sweepUnlock, m => m = .list
  | cleanupJoin _, m | cleanupFree _, m | cleanupUnlock, m => m = .list
  | _, _ => false

/-- The records `main` has in hand at a point, besides its list. -/
def MainPc.inHand : MainPc → List ℕ
  | sweepTest record rest => record :: rest
  | sweepJoin record rest => record :: rest
  | sweepFree _ rest => rest
  | cleanupJoin record => [record]
  | _ => []

/-- The record whose thread `main` is about to join. -/
def MainPc.joining : MainPc → Option ℕ
  | sweepJoin record _ => some record
  | cleanupJoin record => some record
  | _ => none

theorem MainPc.holds_sweep (rest : List ℕ) :
    (MainPc.sweep rest).holds = fun m => decide (m = .list) := by
  cases rest <;> rfl

theorem MainPc.holds_cleanup (clients : List ℕ) :
    (MainPc.cleanup clients).holds = fun m => decide (m = .list) := by
  cases clients <;> rfl

theorem update_list_true :
    Function.update (fun _ : Mutex => false) .list true = fun m => decide (m = .list) := by
  funext m
  cases m <;> rfl

theorem update_list_false :
    Function.update (fun m : Mutex => decide (m = .list)) .list false = fun _ => false := by
  funext m
  cases m <;> rfl

/-- **Every call moves `main` as its action on the mutexes says.** -/
theorem Main.holds_resume {m : Main} {op : MainOp} (hop : m.pc.op = some op) (ret : Ret) :
    (m.resume ret).pc.holds = op.action.after m.pc.holds := by
  have hgoes := Main.goes_resume hop ret
  generalize m.resume ret = m' at hgoes ⊢
  cases hgoes with
  | sweepLocked => exact (MainPc.holds_sweep _).trans update_list_true.symm
  | running | sweepFreed => exact MainPc.holds_sweep _
  | cleanupLocked => exact (MainPc.holds_cleanup _).trans update_list_true.symm
  | cleanupFreed => exact MainPc.holds_cleanup _
  | sweepUnlocked | cleanupUnlocked => exact update_list_false.symm
  | _ => rfl

theorem MainPc.holds_of_release {pc : MainPc} {op : MainOp} (hop : pc.op = some op) {m : Mutex}
    (h : op.action = .release m) : pc.holds m = true := by
  cases pc with
  | sweepUnlock | cleanupUnlock =>
    obtain rfl := Option.some.inj hop
    obtain rfl := Action.release.inj h
    rfl
  | finished => cases hop
  | _ =>
    obtain rfl := Option.some.inj hop
    cases h

section Resume

variable {m : Main} {op : MainOp} {ret : Ret}

/-- A thread is created for the record just allocated. -/
theorem Main.create_of_resume (hop : m.pc.op = some op) {fd : ℤ} {record : ℕ}
    (h : (m.resume ret).pc = .create fd record) : op = .malloc ∧ ret.ptr = some record := by
  have hgoes := Main.goes_resume hop ret
  generalize m.resume ret = m' at h hgoes
  cases hgoes with
  | malloced hp =>
    obtain ⟨-, rfl⟩ := MainPc.create.inj h
    exact ⟨rfl, hp⟩
  | @sweepLocked rest | @running _ rest | @sweepFreed _ rest => cases rest <;> cases h
  | @cleanupLocked rest | @cleanupFreed rest => cases rest <;> cases h
  | _ => cases h

/-- The sweep joins the thread whose flag it has just read as set. -/
theorem Main.sweepJoin_of_resume (hop : m.pc.op = some op) {record : ℕ} {rest : List ℕ}
    (h : (m.resume ret).pc = .sweepJoin record rest) :
    op = .loadComplete record ∧ ret.val = 1 := by
  have hgoes := Main.goes_resume hop ret
  generalize m.resume ret = m' at h hgoes
  cases hgoes with
  | complete hval =>
    obtain ⟨rfl, -⟩ := MainPc.sweepJoin.inj h
    exact ⟨rfl, hval⟩
  | @sweepLocked rest | @running _ rest | @sweepFreed _ rest => cases rest <;> cases h
  | @cleanupLocked rest | @cleanupFreed rest => cases rest <;> cases h
  | _ => cases h

theorem MainPc.inHand_sweep (rest : List ℕ) : (MainPc.sweep rest).inHand = rest := by
  cases rest <;> rfl

/-- In the cleanup the record in hand is the head of the list. -/
theorem MainPc.mem_of_cleanup {clients : List ℕ} {i : ℕ}
    (h : i ∈ clients ++ (MainPc.cleanup clients).inHand) : i ∈ clients := by
  cases clients with
  | nil => exact absurd h List.not_mem_nil
  | cons c rest =>
    rcases List.mem_append.mp h with hm | hm
    · exact hm
    · rw [List.mem_singleton.mp hm]
      exact List.mem_cons_self

/-- `main` gets hold of a record only by creating its thread. -/
theorem Main.mem_of_resume (hop : m.pc.op = some op) {i : ℕ}
    (h : i ∈ (m.resume ret).clients ++ (m.resume ret).pc.inHand) :
    i ∈ m.clients ++ m.pc.inHand ∨ (op = .create i ∧ ret.val = 0) := by
  have hgoes := Main.goes_resume hop ret
  generalize m.resume ret = m' at h hgoes
  cases hgoes with
  | @created clients _ fd record hval =>
    rcases List.mem_cons.mp (List.append_nil (record :: clients) ▸ h) with rfl | hm
    · exact Or.inr ⟨rfl, hval⟩
    · exact Or.inl (List.mem_append_left _ hm)
  | @sweepLocked clients =>
    rw [MainPc.inHand_sweep] at h
    exact Or.inl (List.mem_append_left _ (by simpa using h))
  | @running clients rest =>
    rw [MainPc.inHand_sweep] at h
    rcases List.mem_append.mp h with hm | hm
    · exact Or.inl (List.mem_append_left _ hm)
    · exact Or.inl (List.mem_append_right _ (List.mem_cons_of_mem _ hm))
  | sweepJoined =>
    rcases List.mem_append.mp h with hm | hm
    · exact Or.inl (List.mem_append_left _ (List.mem_of_mem_erase hm))
    · exact Or.inl (List.mem_append_right _ (List.mem_cons_of_mem _ hm))
  | @sweepFreed clients rest =>
    rw [MainPc.inHand_sweep] at h
    exact Or.inl h
  | cleanupLocked | cleanupFreed => exact Or.inl (List.mem_append_left _ (MainPc.mem_of_cleanup h))
  | cleanupJoined =>
    rcases List.mem_append.mp h with hm | hm
    · exact Or.inl (List.mem_append_left _ (List.mem_of_mem_tail hm))
    · exact absurd hm List.not_mem_nil
  | _ => exact Or.inl h

end Resume

/-! ## 2. The process -/

/-- Who takes steps. -/
inductive Actor
  | main
  | client (i : ℕ)
  deriving DecidableEq

/-- The process.  `thread i` is where client thread `i` is, none before it is created; `fresh` is
the next record's number; `junk i` the value thread `i` finds in `bytes_received`. -/
structure Process where
  main : Main
  thread : ℕ → Option Pc
  complete : ℕ → Bool
  active : Bool
  holder : Mutex → Option Actor
  fresh : ℕ
  junk : ℕ → ℤ

/-- The events of a run: a call with its result, or a signal. -/
inductive Act
  | main (op : MainOp) (ret : Ret)
  | client (i : ℕ) (op : Op) (ret : Ret)
  | signal
  deriving DecidableEq

namespace Process

/-- What the system may answer to a call of `main`. -/
def Allows (p : Process) : MainOp → Ret → Prop
  | .loadActive, ret => ret.val ≠ 0 ↔ p.active = true
  | .malloc, ret => ret.ptr = none ∨ ret.ptr = some p.fresh
  | .loadComplete record, ret => ret.val = if p.complete record then 1 else 0
  | .join record, _ => p.thread record = some .exited
  | _, _ => True

/-- The process after a call of `main`.  A record's `thread_complete` is set to 0 before its
thread is created. -/
def mainCall (p : Process) (op : MainOp) (ret : Ret) (holder : Mutex → Option Actor) : Process :=
  let p := { p with main := p.main.resume ret, holder := holder }
  match op with
  | .malloc => { p with fresh := if ret.ptr.isSome then p.fresh + 1 else p.fresh }
  | .create record =>
    { p with
      complete := Function.update p.complete record false
      thread := if ret.val = 0 then
          Function.update p.thread record (some (.openFile (p.junk record)))
        else p.thread }
  | _ => p

/-- The process after a call of client `i` at `pc`. -/
def clientCall (p : Process) (i : ℕ) (pc : Pc) (op : Op) (ret : Ret)
    (holder : Mutex → Option Actor) : Process :=
  { p with
    thread := Function.update p.thread i (some (pc.resume ret))
    complete := if op = .setComplete then Function.update p.complete i true else p.complete
    holder := holder }

/-- One step: a call of `main`, a call of a client thread, or a signal that clears `active`. -/
inductive Step (p : Process) : Act → Process → Prop
  | main {op : MainOp} {ret : Ret} {holder : Mutex → Option Actor} : p.main.pc.op = some op →
      p.Allows op ret → Acts .main p.holder op.action holder →
      Step p (.main op ret) (p.mainCall op ret holder)
  | client {i : ℕ} {pc : Pc} {op : Op} {ret : Ret} {holder : Mutex → Option Actor} :
      p.thread i = some pc → pc.op = some op → op.Answers ret →
      (op = .loadActive → (ret.val ≠ 0 ↔ p.active = true)) →
      Acts (.client i) p.holder op.action holder →
      Step p (.client i op ret) (p.clientCall i pc op ret holder)
  | signal : Step p .signal { p with active := false }

/-- The process at the head of the accept loop. -/
def start (junk : ℕ → ℤ) : Process :=
  { main := ⟨.whileActive, []⟩, thread := fun _ => none, complete := fun _ => false, active := true
    holder := fun _ => none, fresh := 0, junk := junk }

/-! ## 3. Playing a run -/

instance decidableAllows (p : Process) : (op : MainOp) → (ret : Ret) → Decidable (p.Allows op ret)
  | .loadActive, ret => inferInstanceAs (Decidable (ret.val ≠ 0 ↔ p.active = true))
  | .malloc, ret => inferInstanceAs (Decidable (ret.ptr = none ∨ ret.ptr = some p.fresh))
  | .loadComplete record, ret =>
    inferInstanceAs (Decidable (ret.val = if p.complete record then 1 else 0))
  | .join record, _ => inferInstanceAs (Decidable (p.thread record = some .exited))
  | .accept, _ => isTrue trivial
  | .create _, _ => isTrue trivial
  | .lock _, _ => isTrue trivial
  | .unlock _, _ => isTrue trivial
  | .free _, _ => isTrue trivial
  | .close _, _ => isTrue trivial

/-- The step of an actor whose call returns the given result, if the system may give it; without
an actor, the signal. -/
def next (p : Process) : Option (Actor × Ret) → Option (Act × Process)
  | none => some (.signal, { p with active := false })
  | some (.main, ret) =>
    match p.main.pc.op with
    | none => none
    | some op =>
      match op.action.next .main p.holder with
      | none => none
      | some holder =>
        if p.Allows op ret then some (.main op ret, p.mainCall op ret holder) else none
  | some (.client i, ret) =>
    match p.thread i with
    | none => none
    | some pc =>
      match pc.op with
      | none => none
      | some op =>
        match op.action.next (Actor.client i) p.holder with
        | none => none
        | some holder =>
          if op.Answers ret ∧ (op = .loadActive → (ret.val ≠ 0 ↔ p.active = true)) then
            some (.client i op ret, p.clientCall i pc op ret holder)
          else none

theorem step_of_next (p : Process) (choice : Option (Actor × Ret)) (a : Act) (q : Process)
    (h : p.next choice = some (a, q)) : p.Step a q := by
  rcases choice with _ | ⟨_ | i, ret⟩
  · obtain ⟨rfl, rfl⟩ := Prod.mk.inj (Option.some.inj h)
    exact Step.signal
  · rw [next] at h
    split at h
    · cases h
    · rename_i op hop
      split at h
      · cases h
      · rename_i holder hlocks
        split at h
        · rename_i hallows
          obtain ⟨rfl, rfl⟩ := Prod.mk.inj (Option.some.inj h)
          exact Step.main hop hallows (Acts.of_next hlocks)
        · cases h
  · rw [next] at h
    split at h
    · cases h
    · rename_i pc hpc
      split at h
      · cases h
      · rename_i op hop
        split at h
        · cases h
        · rename_i holder hlocks
          split at h
          · rename_i hans
            obtain ⟨rfl, rfl⟩ := Prod.mk.inj (Option.some.inj h)
            exact Step.client hpc hop hans.1 hans.2 (Acts.of_next hlocks)
          · cases h

/-! ## 4. The invariant -/

/-- The mutexes an actor holds. -/
def holds (p : Process) : Actor → Mutex → Bool
  | .main, m => p.main.pc.holds m
  | .client i, m => (p.thread i).any fun pc => pc.holds m

theorem holds_main (p : Process) : p.holds .main = p.main.pc.holds := rfl

theorem holds_client (p : Process) (i : ℕ) (m : Mutex) :
    p.holds (.client i) m = (p.thread i).any fun pc => pc.holds m := rfl

theorem holds_of_thread {p : Process} {i : ℕ} {pc : Pc} (h : p.thread i = some pc) :
    p.holds (.client i) = pc.holds := by
  funext m
  rw [holds_client, h, Option.any_some]

/-- **The invariant of the process.** -/
structure Inv (p : Process) : Prop where
  /-- The table of holders says where everybody is. -/
  agree : Agree p.holder p.holds
  /-- A thread has set its flag when it has nothing left but to release the list mutex. -/
  complete : ∀ i pc, p.thread i = some pc → (p.complete i = true ↔ 2 ≤ pc.ending)
  /-- Records are numbered in the order of their `malloc`. -/
  fresh : ∀ i, p.fresh ≤ i → p.thread i = none
  /-- The record `main` is about to create a thread for has none. -/
  new : ∀ fd record, p.main.pc = .create fd record → record < p.fresh ∧ p.thread record = none
  /-- The records on the list and in the hands of `main` have threads. -/
  created : ∀ i ∈ p.main.clients ++ p.main.pc.inHand, p.thread i ≠ none
  /-- The sweep joins threads that have set their flags. -/
  swept : ∀ record rest, p.main.pc = .sweepJoin record rest → p.complete record = true

theorem inv_start (junk : ℕ → ℤ) : (start junk).Inv := by
  refine ⟨?_, ?_, fun _ _ => rfl, ?_, ?_, ?_⟩
  · refine Agree.init ?_
    intro a m
    cases a <;> rfl
  · intro i pc h
    cases h
  · intro fd record h
    cases h
  · intro i hi
    exact absurd hi List.not_mem_nil
  · intro record rest h
    cases h

theorem Inv.signal {p : Process} (h : p.Inv) : Inv { p with active := false } :=
  ⟨h.agree, h.complete, h.fresh, h.new, h.created, h.swept⟩

/-! ## 5. Calls of a client thread -/

section ClientCall

variable {p : Process} {i : ℕ} {pc : Pc} {op : Op} {ret : Ret} {holder : Mutex → Option Actor}

@[simp] theorem clientCall_thread_self :
    (p.clientCall i pc op ret holder).thread i = some (pc.resume ret) := by
  simp [clientCall]

theorem clientCall_thread_of_ne {j : ℕ} (hj : j ≠ i) :
    (p.clientCall i pc op ret holder).thread j = p.thread j := by
  simp [clientCall, hj]

theorem clientCall_complete_of_ne {j : ℕ} (hj : j ≠ i) :
    (p.clientCall i pc op ret holder).complete j = p.complete j := by
  unfold clientCall
  dsimp only
  split <;> simp [hj]

theorem clientCall_complete_self (h : op ≠ .setComplete) :
    (p.clientCall i pc op ret holder).complete = p.complete := by
  simp [clientCall, h]

theorem clientCall_setComplete :
    (p.clientCall i pc .setComplete ret holder).complete i = true := by
  simp [clientCall]

/-- A flag once set stays set through the calls of the clients. -/
theorem complete_clientCall {j : ℕ} (h : p.complete j = true) :
    (p.clientCall i pc op ret holder).complete j = true := by
  by_cases hset : op = .setComplete
  · by_cases hj : j = i
    · rw [hset, hj]
      exact clientCall_setComplete
    · rwa [clientCall_complete_of_ne hj]
  · rwa [clientCall_complete_self hset]

/-- A call of a client thread keeps the invariant. -/
theorem Inv.client (h : p.Inv) (hpc : p.thread i = some pc) (hop : pc.op = some op)
    (hlocks : Acts (.client i) p.holder op.action holder) :
    (p.clientCall i pc op ret holder).Inv := by
  have hnot : ∀ j, p.thread j = none → j ≠ i := by
    rintro j hj rfl
    rw [hpc] at hj
    cases hj
  constructor
  case agree =>
    refine h.agree.step hlocks ?_ ?_ ?_
    · rw [holds_of_thread hpc, holds_of_thread clientCall_thread_self]
      exact Pc.holds_resume hop ret
    · intro a ha
      cases a with
      | main => rfl
      | client j =>
        have hj : j ≠ i := fun hj => ha (by rw [hj])
        funext m
        rw [holds_client, holds_client, clientCall_thread_of_ne hj]
    · intro m hm
      rw [holds_of_thread hpc]
      exact Pc.holds_of_release hop hm
  case complete =>
    intro j pc' hj
    by_cases hij : j = i
    · subst hij
      obtain rfl := Option.some.inj (clientCall_thread_self.symm.trans hj)
      by_cases hset : op = .setComplete
      · subst hset
        rw [clientCall_setComplete, Pc.ending_resume hop]
        exact iff_of_true rfl (le_refl 2)
      · rw [clientCall_complete_self hset, h.complete j pc hpc]
        exact (Pc.flag_resume hop ret hset).symm
    · rw [clientCall_thread_of_ne hij] at hj
      rw [clientCall_complete_of_ne hij]
      exact h.complete j pc' hj
  case fresh =>
    intro j hj
    have hnone := h.fresh j hj
    rw [clientCall_thread_of_ne (hnot j hnone)]
    exact hnone
  case new =>
    intro fd record hcreate
    obtain ⟨hlt, hnone⟩ := h.new fd record hcreate
    refine ⟨hlt, ?_⟩
    rw [clientCall_thread_of_ne (hnot record hnone)]
    exact hnone
  case created =>
    intro j hj
    by_cases hij : j = i
    · rw [hij, clientCall_thread_self]
      exact Option.some_ne_none _
    · rw [clientCall_thread_of_ne hij]
      exact h.created j hj
  case swept =>
    intro record rest hjoin
    exact complete_clientCall (h.swept record rest hjoin)

end ClientCall

/-! ## 6. Calls of `main` -/

section MainCall

variable {p : Process} {op : MainOp} {ret : Ret} {holder : Mutex → Option Actor}

@[simp] theorem mainCall_main : (p.mainCall op ret holder).main = p.main.resume ret := by
  cases op <;> rfl

@[simp] theorem mainCall_holder : (p.mainCall op ret holder).holder = holder := by
  cases op <;> rfl

/-- Only a `pthread_create` touches a record, and only its own. -/
theorem mainCall_of_ne {i : ℕ} (hi : op ≠ .create i) :
    (p.mainCall op ret holder).thread i = p.thread i ∧
      (p.mainCall op ret holder).complete i = p.complete i := by
  cases op with
  | create record =>
    have hne : i ≠ record := fun h => hi (by rw [h])
    unfold mainCall
    dsimp only
    constructor
    · split <;> simp [hne]
    · simp [hne]
  | _ => exact ⟨rfl, rfl⟩

theorem mainCall_create_complete {record : ℕ} :
    (p.mainCall (.create record) ret holder).complete record = false := by
  simp [mainCall]

/-- A `pthread_create` that succeeds puts the thread at its start. -/
theorem mainCall_create_thread {record : ℕ} (h : ret.val = 0) :
    (p.mainCall (.create record) ret holder).thread record =
      some (.openFile (p.junk record)) := by
  simp [mainCall, h]

theorem mainCall_create_fails {record : ℕ} (h : ret.val ≠ 0) :
    (p.mainCall (.create record) ret holder).thread = p.thread := by
  simp [mainCall, h]

theorem fresh_le_mainCall : p.fresh ≤ (p.mainCall op ret holder).fresh := by
  cases op with
  | malloc =>
    unfold mainCall
    dsimp only
    split
    · exact Nat.le_succ _
    · exact le_refl _
  | _ => exact le_refl _

theorem mainCall_malloc_fresh {record : ℕ} (h : ret.ptr = some record) :
    (p.mainCall .malloc ret holder).fresh = p.fresh + 1 := by
  simp [mainCall, h]

/-- The record of a `pthread_create` has no thread yet. -/
theorem Inv.create (h : p.Inv) {record : ℕ} (hop : p.main.pc.op = some (.create record)) :
    record < p.fresh ∧ p.thread record = none := by
  generalize hm : p.main.pc = pc at hop
  cases pc with
  | create fd record' =>
    obtain rfl := MainOp.create.inj (Option.some.inj hop)
    exact h.new fd record' hm
  | _ => simp [MainPc.op] at hop

/-- A call of `main` moves no thread.  A thread that is just created holds nothing. -/
theorem Inv.holds_mainCall (h : p.Inv) (hop : p.main.pc.op = some op) (i : ℕ) :
    (p.mainCall op ret holder).holds (.client i) = p.holds (.client i) := by
  funext m
  rw [holds_client, holds_client]
  by_cases hi : op = .create i
  · subst hi
    rw [(h.create hop).2]
    by_cases hval : ret.val = 0
    · rw [mainCall_create_thread hval]
      rfl
    · rw [mainCall_create_fails hval, (h.create hop).2]
  · rw [(mainCall_of_ne hi).1]

/-- A call of `main` keeps the invariant. -/
theorem Inv.main (h : p.Inv) (hop : p.main.pc.op = some op) (hallows : p.Allows op ret)
    (hlocks : Acts .main p.holder op.action holder) : (p.mainCall op ret holder).Inv := by
  constructor
  case agree =>
    rw [mainCall_holder]
    refine h.agree.step hlocks ?_ ?_ fun m hm => MainPc.holds_of_release hop hm
    · rw [holds_main, holds_main, mainCall_main]
      exact Main.holds_resume hop ret
    · intro a ha
      cases a with
      | main => exact absurd rfl ha
      | client i => exact h.holds_mainCall hop i
  case complete =>
    intro i pc hi
    by_cases hc : op = .create i
    · subst hc
      rw [mainCall_create_complete]
      by_cases hval : ret.val = 0
      · rw [mainCall_create_thread hval] at hi
        obtain rfl := Option.some.inj hi
        exact iff_of_false Bool.false_ne_true (by simp [Pc.ending])
      · rw [mainCall_create_fails hval, (h.create hop).2] at hi
        cases hi
    · rw [(mainCall_of_ne hc).1] at hi
      rw [(mainCall_of_ne hc).2]
      exact h.complete i pc hi
  case fresh =>
    intro i hi
    have hle : p.fresh ≤ i := le_trans fresh_le_mainCall hi
    have hne : op ≠ .create i := by
      rintro rfl
      exact absurd (h.create hop).1 (Nat.not_lt.mpr hle)
    rw [(mainCall_of_ne hne).1]
    exact h.fresh i hle
  case new =>
    intro fd record hcreate
    rw [mainCall_main] at hcreate
    obtain ⟨rfl, hptr⟩ := Main.create_of_resume hop hcreate
    rcases hallows with hnone | hsome
    · rw [hptr] at hnone
      cases hnone
    · obtain rfl := Option.some.inj (hptr.symm.trans hsome)
      rw [mainCall_malloc_fresh hptr]
      exact ⟨Nat.lt_succ_self _, h.fresh _ (le_refl _)⟩
  case created =>
    intro i hi
    rw [mainCall_main] at hi
    rcases Main.mem_of_resume hop hi with hold | ⟨rfl, hval⟩
    · have hthread := h.created i hold
      have hne : op ≠ .create i := by
        rintro rfl
        exact hthread (h.create hop).2
      rwa [(mainCall_of_ne hne).1]
    · rw [mainCall_create_thread hval]
      exact Option.some_ne_none _
  case swept =>
    intro record rest hjoin
    rw [mainCall_main] at hjoin
    obtain ⟨rfl, hval⟩ := Main.sweepJoin_of_resume hop hjoin
    have hflag : ret.val = if p.complete record then 1 else 0 := hallows
    rw [(mainCall_of_ne (by simp)).2]
    by_contra hno
    rw [if_neg hno, hval] at hflag
    cases hflag

end MainCall

/-! ## 7. Runs -/

/-- **Every step keeps the invariant.** -/
theorem Inv.step {p q : Process} {a : Act} (h : p.Inv) (hs : p.Step a q) : q.Inv := by
  cases hs with
  | main hop hallows hlocks => exact h.main hop hallows hlocks
  | client hpc hop _ _ hlocks => exact h.client hpc hop hlocks
  | signal => exact h.signal

/-- Every process a run reaches satisfies the invariant. -/
theorem inv_run {junk : ℕ → ℤ} {h : List (Process × Act)} {p : Process}
    (hr : Transition.Run Step (start junk) h p) : p.Inv :=
  hr.invariant (inv_start junk) fun hi hs => hi.step hs

end Process

end Aesd.Server
