/-
# Threads that obtain a mutex

`examples/threading/threading.c`: `start_thread_obtaining_mutex` and `threadfunc`, with any number
of threads and mutexes, taking steps in any order.  The caller starts threads one after the other
and, as the header of the source asks, joins a thread to get its record back and frees it.

Two things in the source are undefined behaviour, and here a point of their own: the result of
`malloc` is used without a test, and a wait in milliseconds is multiplied by 1000 as an `int`.
-/
import Aesd.Lib.Locking
import Aesd.Lib.MachineInt
import Aesd.Lib.Transition

namespace Aesd.Threading

open MachineInt Locking

/-! ## 1. Records and points -/

/-- `struct thread_data`; a mutex is known by its address. -/
structure ThreadData (μ : Type) where
  mutex : μ
  waitToObtainMs : Int32
  waitToReleaseMs : Int32
  threadCompleteSuccess : Bool
  deriving DecidableEq

/-- `wait_ms*1000`, if it is an `int`. -/
def usec (ms : Int32) : Option ℕ :=
  if -2 ^ 31 ≤ ms.toInt * 1000 ∧ ms.toInt * 1000 < 2 ^ 31 then some (wrapU 32 (ms.toInt * 1000))
  else none

/-- What `threadfunc` does. -/
inductive ThreadOp (μ : Type)
  | usleep (usec : ℕ)
  | mutexLock (mutex : μ)
  | mutexUnlock (mutex : μ)
  /-- The record's flag is set. -/
  | complete (success : Bool)
  /-- A wait that is no `int`. -/
  | overflow

/-- How `threadfunc` ends. -/
inductive Ending
  | notLocked
  | notUnlocked
  | released
  deriving DecidableEq

def Ending.success : Ending → Bool
  | released => true
  | _ => false

/-- The points of `threadfunc`. -/
inductive ThreadPc
  | sleepToObtain
  | lock
  | sleepToRelease
  | unlock
  /-- The flag is about to be set. -/
  | complete (r : Ending)
  | returned (r : Ending)
  | undefined (locked : Bool)
  deriving DecidableEq

/-- What is done at a point, for a record `d`. -/
def ThreadPc.op {μ : Type} (d : ThreadData μ) : ThreadPc → Option (ThreadOp μ)
  | sleepToObtain =>
    match usec d.waitToObtainMs with
    | some n => some (.usleep n)
    | none => some .overflow
  | lock => some (.mutexLock d.mutex)
  | sleepToRelease =>
    match usec d.waitToReleaseMs with
    | some n => some (.usleep n)
    | none => some .overflow
  | unlock => some (.mutexUnlock d.mutex)
  | complete r => some (.complete r.success)
  | returned _ | undefined _ => none

/-- The point after what is done at a point has returned `rc`. -/
def ThreadPc.resume {μ : Type} (d : ThreadData μ) (rc : ℤ) : ThreadPc → ThreadPc
  | sleepToObtain => if (usec d.waitToObtainMs).isSome then lock else undefined false
  | lock => if rc ≠ 0 then complete .notLocked else sleepToRelease
  | sleepToRelease => if (usec d.waitToReleaseMs).isSome then unlock else undefined true
  | unlock => if rc ≠ 0 then complete .notUnlocked else complete .released
  | complete r => returned r
  | returned r => returned r
  | undefined locked => undefined locked

/-- Whether the mutex has been obtained. -/
def ThreadPc.locked : ThreadPc → Bool
  | sleepToRelease | unlock => true
  | complete r | returned r => decide (r ≠ .notLocked)
  | undefined locked => locked
  | _ => false

/-- Whether the mutex has been released. -/
def ThreadPc.unlocked : ThreadPc → Bool
  | complete r | returned r => r.success
  | _ => false

/-- Whether the flag has been set to true. -/
def ThreadPc.flag : ThreadPc → Bool
  | returned r => r.success
  | _ => false

/-- What is done to the mutexes. -/
def ThreadOp.action {μ : Type} : ThreadOp μ → ℤ → Action μ
  | mutexLock m, rc => if rc ≠ 0 then .pass else .acquire m
  | mutexUnlock m, rc => if rc ≠ 0 then .pass else .release m
  | _, _ => .pass

/-- The points of the caller. -/
inductive CallerPc (μ : Type)
  | idle
  /-- In `start_thread_obtaining_mutex`. -/
  | malloc (d : ThreadData μ)
  | create (id : ℕ)
  | freeUnused (id : ℕ)
  | ret (started : Bool)
  /-- With the record a joined thread returned. -/
  | joined (id : ℕ)
  | undefined
  deriving DecidableEq

inductive Event (μ : Type)
  | start (mutex : μ) (waitToObtainMs waitToReleaseMs : Int32)
  /-- The new record, or NULL. -/
  | malloc (id : Option ℕ)
  | create (id : ℕ) (rc : ℤ)
  | free (id : ℕ)
  | ret (started : Bool)
  | join (id : ℕ)
  | thread (id : ℕ) (op : ThreadOp μ) (rc : ℤ)

/-! ## 2. The system -/

/-- The caller, the records alive, the threads not joined yet, who holds the mutexes, and the name
of the next record.  A thread goes by the name of its record. -/
structure System (μ : Type) where
  caller : CallerPc μ
  memory : ℕ → Option (ThreadData μ)
  thread : ℕ → Option ThreadPc
  holder : μ → Option ℕ
  fresh : ℕ

/-- The record after `threadfunc` has done something. -/
def ThreadOp.store {μ : Type} (d : ThreadData μ) : ThreadOp μ → ThreadData μ
  | complete success => { d with threadCompleteSuccess := success }
  | _ => d

@[simp] theorem ThreadOp.store_mutex {μ : Type} (d : ThreadData μ) (op : ThreadOp μ) :
    (op.store d).mutex = d.mutex := by
  cases op <;> rfl

variable {μ : Type} [DecidableEq μ]

inductive System.Step : System μ → Event μ → System μ → Prop
  | start {x : System μ} {m : μ} {obtain' release : Int32} : x.caller = .idle →
      Step x (.start m obtain' release) { x with caller := .malloc ⟨m, obtain', release, false⟩ }
  | malloc {x : System μ} {d : ThreadData μ} : x.caller = .malloc d →
      Step x (.malloc (some x.fresh)) { x with
        caller := .create x.fresh
        memory := Function.update x.memory x.fresh (some d)
        fresh := x.fresh + 1 }
  | mallocNull {x : System μ} {d : ThreadData μ} : x.caller = .malloc d →
      Step x (.malloc none) { x with caller := .undefined }
  | created {x : System μ} {id : ℕ} : x.caller = .create id →
      Step x (.create id 0) { x with
        caller := .ret true
        thread := Function.update x.thread id (some .sleepToObtain) }
  | notCreated {x : System μ} {id : ℕ} {rc : ℤ} : x.caller = .create id → rc ≠ 0 →
      Step x (.create id rc) { x with caller := .freeUnused id }
  | freeUnused {x : System μ} {id : ℕ} : x.caller = .freeUnused id →
      Step x (.free id) { x with
        caller := .ret false
        memory := Function.update x.memory id none }
  | ret {x : System μ} {started : Bool} : x.caller = .ret started →
      Step x (.ret started) { x with caller := .idle }
  | join {x : System μ} {id : ℕ} {r : Ending} : x.caller = .idle →
      x.thread id = some (.returned r) →
      Step x (.join id) { x with
        caller := .joined id
        thread := Function.update x.thread id none }
  | freeJoined {x : System μ} {id : ℕ} : x.caller = .joined id →
      Step x (.free id) { x with
        caller := .idle
        memory := Function.update x.memory id none }
  | thread {x : System μ} {id : ℕ} {pc : ThreadPc} {d : ThreadData μ} {op : ThreadOp μ} {rc : ℤ}
      {holder : μ → Option ℕ} : x.thread id = some pc → x.memory id = some d → pc.op d = some op →
      Acts id x.holder (op.action rc) holder →
      Step x (.thread id op rc) { x with
        memory := Function.update x.memory id (some (op.store d))
        thread := Function.update x.thread id (some (pc.resume d rc))
        holder := holder }

/-- Nothing started yet. -/
def System.init : System μ := ⟨.idle, fun _ => none, fun _ => none, fun _ => none, 0⟩

/-- Who goes on: the caller or a thread, with what the library returns (0 from `malloc` for a
record). -/
inductive Choice (μ : Type)
  | start (mutex : μ) (waitToObtainMs waitToReleaseMs : Int32)
  | caller (rc : ℤ)
  | join (id : ℕ)
  | thread (id : ℕ) (rc : ℤ)

def System.next (x : System μ) : Choice μ → Option (Event μ × System μ)
  | .start m obtain' release =>
    match x.caller with
    | .idle => some (.start m obtain' release,
        { x with caller := .malloc ⟨m, obtain', release, false⟩ })
    | _ => none
  | .caller rc =>
    match x.caller with
    | .malloc d =>
      if rc ≠ 0 then some (.malloc none, { x with caller := .undefined })
      else some (.malloc (some x.fresh), { x with
        caller := .create x.fresh
        memory := Function.update x.memory x.fresh (some d)
        fresh := x.fresh + 1 })
    | .create id =>
      if rc ≠ 0 then some (.create id rc, { x with caller := .freeUnused id })
      else some (.create id 0, { x with
        caller := .ret true
        thread := Function.update x.thread id (some .sleepToObtain) })
    | .freeUnused id => some (.free id, { x with
        caller := .ret false
        memory := Function.update x.memory id none })
    | .ret started => some (.ret started, { x with caller := .idle })
    | .joined id => some (.free id, { x with
        caller := .idle
        memory := Function.update x.memory id none })
    | .idle | .undefined => none
  | .join id =>
    match x.caller, x.thread id with
    | .idle, some (.returned _) => some (.join id, { x with
        caller := .joined id
        thread := Function.update x.thread id none })
    | _, _ => none
  | .thread id rc =>
    match x.thread id, x.memory id with
    | some pc, some d =>
      match pc.op d with
      | none => none
      | some op => ((op.action rc).next id x.holder).map fun holder =>
          (.thread id op rc, { x with
            memory := Function.update x.memory id (some (op.store d))
            thread := Function.update x.thread id (some (pc.resume d rc))
            holder := holder })
    | _, _ => none

theorem System.step_of_next (x : System μ) (choice : Choice μ) (e : Event μ) (y : System μ)
    (h : x.next choice = some (e, y)) : x.Step e y := by
  cases choice with
  | start m obtain' release =>
    unfold next at h
    dsimp only at h
    split at h
    · rename_i hidle
      obtain ⟨rfl, rfl⟩ := Prod.mk.inj (Option.some.inj h)
      exact Step.start hidle
    · cases h
  | caller rc =>
    unfold next at h
    dsimp only at h
    split at h
    · rename_i d hmalloc
      split at h <;> obtain ⟨rfl, rfl⟩ := Prod.mk.inj (Option.some.inj h)
      · exact Step.mallocNull hmalloc
      · exact Step.malloc hmalloc
    · rename_i id hcreate
      split at h <;> obtain ⟨rfl, rfl⟩ := Prod.mk.inj (Option.some.inj h)
      · exact Step.notCreated hcreate ‹_›
      · exact Step.created hcreate
    · rename_i id hfree
      obtain ⟨rfl, rfl⟩ := Prod.mk.inj (Option.some.inj h)
      exact Step.freeUnused hfree
    · rename_i started hret
      obtain ⟨rfl, rfl⟩ := Prod.mk.inj (Option.some.inj h)
      exact Step.ret hret
    · rename_i id hfree
      obtain ⟨rfl, rfl⟩ := Prod.mk.inj (Option.some.inj h)
      exact Step.freeJoined hfree
    · cases h
    · cases h
  | join id =>
    unfold next at h
    dsimp only at h
    split at h
    · rename_i hidle ht
      obtain ⟨rfl, rfl⟩ := Prod.mk.inj (Option.some.inj h)
      exact Step.join hidle ht
    · cases h
  | thread id rc =>
    unfold next at h
    dsimp only at h
    split at h
    · rename_i pc d ht hm
      split at h
      · cases h
      · rename_i op hop
        obtain ⟨holder, hact, heq⟩ := Option.map_eq_some_iff.mp h
        obtain ⟨rfl, rfl⟩ := Prod.mk.inj heq
        exact Step.thread ht hm hop (Acts.of_next hact)
    · cases h

end Aesd.Threading
