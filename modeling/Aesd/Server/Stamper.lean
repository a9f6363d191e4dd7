/-
# The stamper

`stamper_handler`, which the server has when `USE_AESD_CHAR_DEVICE` is not defined: a thread that
appends a line with the time to the output file every ten seconds.  Like a client thread it is a
machine: its points (`StampPc`), the call made at each (`StampPc.op`), and where a result leads
(`StampPc.resume`).

The text of a time stamp is made by `strftime` from a format that starts with `timestamp:` and ends
with a newline (`timestamp`).  The line is written by a single `write`.
-/
import Aesd.Server.Process

namespace Aesd.Server

open Aesd.Driver

/-! ## 1. Calls -/

/-- `"timestamp:"` -/
def stampPrefix : List UInt8 := [116, 105, 109, 101, 115, 116, 97, 109, 112, 58]

/-- `strftime` with the format of the source, where its conversions make `time`. -/
def timestamp (time : List UInt8) : List UInt8 := stampPrefix ++ time ++ [newline]

/-- What the conversions make: the line fits into `time_buffer`. -/
structure Time (time : List UInt8) : Prop where
  newline_notMem : newline ∉ time
  nul_notMem : 0 ∉ time
  fits : (timestamp time).length < 512

/-- The calls of the stamper. -/
inductive StampOp
  | loadActive
  /-- `time`, `localtime` and `strftime`: the result is what the conversions make. -/
  | strftime
  | open
  /-- On `file_mutex`. -/
  | lock
  | write (text : List UInt8)
  | close
  | unlock
  | sleep
  deriving DecidableEq

/-- What the system may answer. -/
def StampOp.Answers : StampOp → Ret → Prop
  | strftime, r => Time r.data
  | write text, r => r.val = -1 ∨ (0 ≤ r.val ∧ r.val ≤ text.length)
  | _, _ => True

instance decidableTime (time : List UInt8) : Decidable (Time time) :=
  decidable_of_iff (newline ∉ time ∧ 0 ∉ time ∧ (timestamp time).length < 512)
    ⟨fun h => ⟨h.1, h.2.1, h.2.2⟩, fun h => ⟨h.newline_notMem, h.nul_notMem, h.fits⟩⟩

instance StampOp.decidableAnswers : (op : StampOp) → (ret : Ret) → Decidable (op.Answers ret)
  | strftime, r => inferInstanceAs (Decidable (Time r.data))
  | write text, r => inferInstanceAs (Decidable (r.val = -1 ∨ (0 ≤ r.val ∧ r.val ≤ text.length)))
  | loadActive, _ => isTrue trivial
  | «open», _ => isTrue trivial
  | lock, _ => isTrue trivial
  | close, _ => isTrue trivial
  | unlock, _ => isTrue trivial
  | sleep, _ => isTrue trivial

/-- The bytes a call stores in the file. -/
def StampOp.written : StampOp → Ret → List UInt8
  | write text, r => text.take r.val.toNat
  | _, _ => []

/-! ## 2. Points -/

/-- The points at which the stamper makes a call, in the order of the source. -/
inductive StampPc
  | whileActive
  | strftime
  | openFile (timeBuffer : List UInt8)
  | lock (timeBuffer : List UInt8)
  | writeCall (timeBuffer : List UInt8)
  | failClose
  | failUnlock
  | close
  | unlock
  /-- The test of `active` in the loop that sleeps. -/
  | sleepActive (i : ℕ)
  | sleep (i : ℕ)
  | ended
  deriving DecidableEq

/-- The call made at a point. -/
def StampPc.op : StampPc → Option StampOp
  | whileActive => some .loadActive
  | strftime => some .strftime
  | openFile _ => some .open
  | lock _ => some .lock
  | writeCall timeBuffer => some (.write timeBuffer)
  | failClose => some .close
  | failUnlock => some .unlock
  | close => some .close
  | unlock => some .unlock
  | sleepActive _ => some .loadActive
  | sleep _ => some .sleep
  | ended => none

/-- The head of the loop that sleeps. -/
def StampPc.whileSleeping (i : ℕ) : StampPc := if i < 10 then sleepActive i else whileActive

/-- The point the stamper goes to when its call returns `ret`. -/
def StampPc.resume : StampPc → Ret → StampPc
  | whileActive, ret => if ret.val ≠ 0 then strftime else ended
  | strftime, ret => openFile (timestamp ret.data)
  | openFile timeBuffer, ret => if ret.val = -1 then ended else lock timeBuffer
  | lock timeBuffer, _ => writeCall timeBuffer
  | writeCall _, ret => if ret.val = -1 then failClose else close
  | failClose, _ => failUnlock
  | failUnlock, _ => ended
  | close, _ => unlock
  | unlock, _ => whileSleeping 0
  | sleepActive i, ret => if ret.val = 0 then whileActive else sleep i
  | sleep i, _ => whileSleeping (i + 1)
  | ended, _ => ended

/-- Whether the stamper has `file_mutex` at a point. -/
def StampPc.holds : StampPc → Bool
  | writeCall _ | failClose | failUnlock | close | unlock => true
  | _ => false

/-- Whether the stamper has the file open at a point. -/
def StampPc.fileOpen : StampPc → Bool
  | lock _ | writeCall _ | failClose | close => true
  | _ => false

/-- Whether the stamper has `file_mutex` after a call. -/
def StampOp.holdsAfter (held : Bool) : StampOp → Bool
  | lock => true
  | unlock => false
  | _ => held

theorem StampPc.holds_whileSleeping (i : ℕ) : (whileSleeping i).holds = false := by
  unfold whileSleeping
  split <;> rfl

/-- **Every call moves the stamper as it says.** -/
theorem StampPc.holds_resume {pc : StampPc} {op : StampOp} (hop : pc.op = some op) (ret : Ret) :
    (pc.resume ret).holds = op.holdsAfter pc.holds := by
  cases pc with
  | ended => cases hop
  | unlock =>
    obtain rfl := Option.some.inj hop
    exact holds_whileSleeping 0
  | sleep i =>
    obtain rfl := Option.some.inj hop
    exact holds_whileSleeping (i + 1)
  | _ =>
    obtain rfl := Option.some.inj hop
    rw [resume]
    first
    | rfl
    | split <;> rfl

/-- The stamper comes to its `write` from the lock. -/
theorem StampPc.writeCall_of_resume {pc : StampPc} {op : StampOp} {ret : Ret} {text : List UInt8}
    (hop : pc.op = some op) (h : pc.resume ret = .writeCall text) : op = .lock := by
  have hsleep : ∀ i, whileSleeping i ≠ .writeCall text := by
    intro i
    unfold whileSleeping
    split <;> simp
  cases pc with
  | lock timeBuffer => exact (Option.some.inj hop).symm
  | unlock => exact absurd h (hsleep 0)
  | sleep i => exact absurd h (hsleep (i + 1))
  | whileActive | openFile timeBuffer | writeCall timeBuffer | sleepActive i =>
    rw [resume] at h
    split at h <;> cases h
  | _ => cases h

/-! ## 3. The text that is carried along -/

/-- The text a point has in hand is a time stamp. -/
def StampPc.Carries : StampPc → Prop
  | openFile timeBuffer | lock timeBuffer | writeCall timeBuffer =>
    ∃ time, Time time ∧ timeBuffer = timestamp time
  | _ => True

theorem StampPc.Carries.step {pc : StampPc} {op : StampOp} {ret : Ret} (hc : pc.Carries)
    (hop : pc.op = some op) (hans : op.Answers ret) : (pc.resume ret).Carries := by
  have hsleep : ∀ i, (whileSleeping i).Carries := by
    intro i
    unfold whileSleeping
    split <;> trivial
  cases pc with
  | strftime =>
    obtain rfl := Option.some.inj hop
    exact ⟨ret.data, hans, rfl⟩
  | openFile timeBuffer =>
    rw [resume]
    split
    · trivial
    · exact hc
  | lock timeBuffer => exact hc
  | unlock => exact hsleep 0
  | sleep i => exact hsleep (i + 1)
  | ended => cases hop
  | _ =>
    rw [resume]
    first
    | trivial
    | split <;> trivial

end Aesd.Server
