/-
# The lock discipline of a client thread

Which mutexes a client thread holds is a function of its program point alone (`Pc.holds`), on
every path, failing ones included.  A thread acquires only what it does not hold and releases only
what it does (`Pc.held_of_lock`, `Pc.held_of_unlock`), never holds two mutexes at once, and
ends holding none.
-/
import Aesd.Lib.Locking
import Aesd.Server.Thread

namespace Aesd.Server

open Locking

/-! ## 1. Points and mutexes -/

/-- What a call does to the mutexes. -/
def Op.action : Op → Action Mutex
  | lock m => .acquire m
  | unlock m => .release m
  | _ => .pass

theorem Op.eq_lock_of_action {op : Op} {m : Mutex} (h : op.action = .acquire m) :
    op = .lock m := by
  cases op with
  | lock n => rw [Action.acquire.inj h]
  | _ => cases h

/-- The mutex a thread holds at a point. -/
def Pc.held : Pc → Option Mutex
  | seekIoctl _ _ | seekFailUnlock _ | seekUnlock _ => some .file
  | writeCall _ | writeFailUnlock _ | writeUnlock _ => some .file
  | readCall _ | sendCall _ _ _ | sendFailFree _ | sendFailUnlock | sendUnlock _ _ => some .file
  | setComplete | unlockList => some .list
  | _ => none

/-- Whether a thread holds a mutex at a point. -/
def Pc.holds (pc : Pc) (m : Mutex) : Bool := pc.held = some m

theorem Pc.holds_of_held {pc : Pc} {o : Option Mutex} (h : pc.held = o) :
    pc.holds = fun m => decide (o = some m) := by
  funext m
  rw [Pc.holds, h]

/-! ## 2. Where a call leads -/

/-- What a thread holds after a call. -/
def Op.heldAfter (held : Option Mutex) : Op → Option Mutex
  | .lock m => some m
  | .unlock _ => none
  | _ => held

/-- **Every call moves the thread as its action on the mutexes says.** -/
theorem Pc.held_resume {pc : Pc} {op : Op} (hop : pc.op = some op) (ret : Ret) :
    (pc.resume ret).held = op.heldAfter pc.held := by
  have hgoes := Pc.goes_resume hop ret
  generalize pc.resume ret = pc' at hgoes ⊢
  cases hgoes with
  -- out of the receive loop, or round it
  | inactive _ hf | ended _ hf | seekUnlocked hf | writeUnlocked hf => cases hf <;> rfl
  | received _ ht => cases ht <;> rfl
  -- in the write loop
  | writeLocked hw | wrote _ hw => cases hw <;> rfl
  | _ => rfl

/-- A mutex is acquired with none held. -/
theorem Pc.held_of_lock {pc : Pc} {m : Mutex} (hop : pc.op = some (.lock m)) : pc.held = none := by
  cases pc with
  | seekLock | writeLock | sendLock | lockList => rfl
  | _ => simp [Pc.op] at hop

/-- What is released is held. -/
theorem Pc.held_of_unlock {pc : Pc} {m : Mutex} (hop : pc.op = some (.unlock m)) :
    pc.held = some m := by
  cases pc with
  | seekFailUnlock | seekUnlock | writeFailUnlock | writeUnlock | sendFailUnlock | sendUnlock
  | unlockList =>
    obtain rfl := Op.unlock.inj (Option.some.inj hop)
    rfl
  | _ => simp [Pc.op] at hop

/-- **The step in terms of the mutexes held.** -/
theorem Pc.holds_resume {pc : Pc} {op : Op} (hop : pc.op = some op) (ret : Ret) :
    (pc.resume ret).holds = op.action.after pc.holds := by
  rw [Pc.holds_of_held (Pc.held_resume hop ret)]
  funext n
  cases op with
  | lock m =>
    have hnone := Pc.held_of_lock hop
    by_cases hn : n = m
    · subst hn
      simp [Op.heldAfter, Op.action, Action.after]
    · have hn' : m ≠ n := fun h => hn h.symm
      simp [Op.heldAfter, Op.action, Action.after, hn, hn', Pc.holds, hnone]
  | unlock m =>
    have hsome := Pc.held_of_unlock hop
    by_cases hn : n = m
    · subst hn
      simp [Op.heldAfter, Op.action, Action.after]
    · have hn' : m ≠ n := fun h => hn h.symm
      simp [Op.heldAfter, Op.action, Action.after, hn, hn', Pc.holds, hsome]
  | _ => rfl

/-- A write is made with the file mutex. -/
theorem Pc.holds_of_write {pc : Pc} {buf : ℕ} {data : List UInt8}
    (hop : pc.op = some (.write buf data)) : pc.holds .file = true := by
  cases pc with
  | writeCall => rfl
  | _ => simp [Pc.op] at hop

theorem Pc.holds_of_release {pc : Pc} {op : Op} (hop : pc.op = some op) {m : Mutex}
    (h : op.action = .release m) : pc.holds m = true := by
  cases op with
  | unlock n =>
    obtain rfl := Action.release.inj h
    rw [Pc.holds, Pc.held_of_unlock hop]
    exact decide_eq_true rfl
  | lock n => cases h
  | _ => cases h

/-! ## 3. The end of a thread -/

/-- How near its end a thread is: 0 until it has acquired the list mutex to set its flag, 1 until
it has set it, 2 until it has released the mutex, and 3 when it has ended. -/
def Pc.ending : Pc → ℕ
  | setComplete => 1
  | unlockList => 2
  | exited => 3
  | _ => 0

/-- Where a call leaves a thread that had not ended. -/
def Op.endingAfter : Op → ℕ
  | .lock .list => 1
  | .setComplete => 2
  | .unlock .list => 3
  | _ => 0

/-- **Every path of a thread ends by the list mutex and the flag.** -/
theorem Pc.ending_resume {pc : Pc} {op : Op} (hop : pc.op = some op) (ret : Ret) :
    (pc.resume ret).ending = op.endingAfter := by
  have hgoes := Pc.goes_resume hop ret
  generalize pc.resume ret = pc' at hgoes ⊢
  cases hgoes with
  | inactive _ hf | ended _ hf | seekUnlocked hf | writeUnlocked hf => cases hf <;> rfl
  | received _ ht => cases ht <;> rfl
  | writeLocked hw | wrote _ hw => cases hw <;> rfl
  | _ => rfl

/-- The calls that bring a thread nearer its end are made in their order. -/
theorem Pc.ending_of_op {pc : Pc} {op : Op} (hop : pc.op = some op) :
    pc.ending + 1 = op.endingAfter ∨ (op.endingAfter = 0 ∧ pc.ending = 0) := by
  cases pc with
  | lockList | setComplete | unlockList =>
    obtain rfl := Option.some.inj hop
    exact Or.inl rfl
  | exited => cases hop
  | _ =>
    obtain rfl := Option.some.inj hop
    exact Or.inr ⟨rfl, rfl⟩

/-- Only the flag's own call brings a thread past the flag. -/
theorem Pc.flag_resume {pc : Pc} {op : Op} (hop : pc.op = some op) (ret : Ret)
    (hne : op ≠ .setComplete) : 2 ≤ (pc.resume ret).ending ↔ 2 ≤ pc.ending := by
  rw [Pc.ending_resume hop]
  have hnot : op.endingAfter ≠ 2 := by
    cases op with
    | setComplete => exact absurd rfl hne
    | lock m => cases m <;> exact fun h => by cases h
    | unlock m => cases m <;> exact fun h => by cases h
    | _ => exact fun h => by cases h
  have hop' := Pc.ending_of_op hop
  omega

end Aesd.Server
