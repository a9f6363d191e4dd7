/-
# What a client thread holds and gives back

A thread holds a mutex, a heap buffer, the client's descriptor and the device's.  What it holds is a
function of its program point, on every path (`Pc.holding`), and each of its calls is allowed with
what it holds there: a mutex is taken with none held and released only when held, a buffer is used,
reallocated and freed only while it is the one in hand, a descriptor is used and closed only while
it is open (`Holding.allows`).

So a thread keeps to the discipline whatever its calls answer, and since it holds nothing at its
end, everything it took was given back exactly once (`resources_balanced`).
-/
import Aesd.Lib.Discipline
import Aesd.Server.Locks
import Aesd.Server.Outcomes

namespace Aesd.Server

open Transition Discipline

/-! ## 1. The discipline -/

/-- What a thread holds.  `opening` says that `open` was not called yet, `complete` that
`thread_complete` was set. -/
structure Holding where
  mutex : Option Mutex
  buffer : Option ℕ
  client : Bool
  file : Bool
  opening : Bool
  complete : Bool
  deriving DecidableEq

namespace Holding

/-- Whether a call is allowed. -/
def allows (s : Holding) : Op → Bool
  | .open => s.opening && !s.file
  | .malloc _ => s.buffer = none
  | .loadActive => true
  | .recv buf _ _ => s.buffer = some buf && s.client
  | .realloc buf _ => s.buffer = some buf
  | .lock _ => s.mutex = none
  | .unlock m => s.mutex = some m
  | .ioctl _ => s.file
  | .write buf _ => s.buffer = some buf && s.file
  | .lseek => s.file
  | .read buf _ => s.buffer = some buf && s.file
  | .send buf _ => s.buffer = some buf && s.client
  | .free buf => s.buffer = some buf
  | .close .client => s.client
  | .close .file => s.file
  | .setComplete => !s.complete

/-- What is held after a call. -/
def after (s : Holding) (e : Event) : Holding :=
  match e.1 with
  | .open => { s with opening := false, file := e.2.val ≠ -1 }
  | .malloc _ => { s with buffer := e.2.ptr }
  | .realloc buf _ => { s with buffer := some (e.2.ptr.getD buf) }
  | .lock m => { s with mutex := some m }
  | .unlock _ => { s with mutex := none }
  | .free _ => { s with buffer := none }
  | .close .client => { s with client := false }
  | .close .file => { s with file := false }
  | .setComplete => { s with complete := true }
  | _ => s

/-- The discipline. -/
def act (s : Holding) (e : Event) : Option Holding :=
  if s.allows e.1 then some (s.after e) else none

theorem act_eq_some_iff {s t : Holding} {e : Event} :
    s.act e = some t ↔ s.allows e.1 = true ∧ s.after e = t := by
  unfold act
  split
  · rename_i h
    rw [Option.some_inj]
    exact ⟨fun heq => ⟨h, heq⟩, fun heq => heq.2⟩
  · rename_i h
    exact ⟨nofun, fun heq => absurd heq.1 h⟩

/-- At the start of a thread, and at its end. -/
def atStart : Holding := ⟨none, none, true, false, true, false⟩

def atEnd : Holding := ⟨none, none, false, false, false, true⟩

end Holding

/-! ## 2. What is held at a point -/

/-- The buffer in hand. -/
def Pc.buffer : Pc → Option ℕ
  | whileActive r | recvCall r | seekLock r _ | seekIoctl r _ | seekFailUnlock r | seekUnlock r
  | writeLock r | writeCall r | writeFailUnlock r | writeUnlock r | realloc r | lseek r =>
    some r.buf
  | recvFree buf _ | sendLock buf | readCall buf | sendCall buf _ _ | sendFailFree buf
  | sendUnlock buf _ | sendFree buf _ => some buf
  | _ => none

/-- Whether the file descriptor is open. -/
def Pc.fileOpen : Pc → Bool
  | openFile _ | closeClient | lockList | setComplete | unlockList | exited => false
  | _ => true

def Pc.holding : Pc → Holding
  | openFile _ => Holding.atStart
  | lockList => ⟨none, none, false, false, false, false⟩
  | setComplete => ⟨some .list, none, false, false, false, false⟩
  | unlockList => ⟨some .list, none, false, false, false, true⟩
  | exited => Holding.atEnd
  | pc => ⟨pc.held, pc.buffer, true, pc.fileOpen, false, false⟩

/-- **Every call of a thread is allowed.** -/
theorem Pc.allows {pc : Pc} {op : Op} (hop : pc.op = some op) : pc.holding.allows op = true := by
  cases pc with
  | exited => cases hop
  | _ =>
    obtain rfl := Option.some.inj hop
    simp [Pc.holding, Pc.held, Pc.buffer, Pc.fileOpen, Holding.allows, Holding.atStart]

namespace Receiving

variable {r : Receiving} {pc : Pc}

/-- In the loop of `receive_data`, outside its critical sections. -/
def idle (r : Receiving) : Holding := ⟨none, some r.buf, true, true, false, false⟩

theorem Finishes.holding (hf : r.Finishes pc) : pc.holding = r.idle := by
  cases hf with
  | broken | sought | rewinds => rfl

theorem Writes.holding (hw : r.Writes pc) : pc.holding = { r.idle with mutex := some .file } := by
  cases hw with
  | more | done => rfl

theorem Takes.holding {ret : Ret} (ht : r.Takes ret pc) : pc.holding = r.idle := by
  cases ht with
  | seek r' _ hbuf | packet r' _ hbuf | full r' hbuf | room r' hbuf =>
    unfold idle
    rw [← hbuf]
    rfl

end Receiving

/-- **What a call leaves held**, whatever it answers. -/
theorem Pc.holding_resume {pc : Pc} {op : Op} (hop : pc.op = some op) (ret : Ret) :
    pc.holding.after (op, ret) = (pc.resume ret).holding := by
  have hgoes := Pc.goes_resume hop ret
  generalize pc.resume ret = pc' at hgoes ⊢
  cases hgoes with
  | openFailed hval | opened hval =>
    simp [Holding.after, Pc.holding, Holding.atStart, hval, Pc.held, Pc.buffer, Pc.fileOpen]
  | recvMallocFailed hp | recvMalloced hp | reallocFailed hp | realloced hp | sendMallocFailed hp
  | sendMalloced hp =>
    simp [Holding.after, Pc.holding, hp, Pc.held, Pc.buffer, Pc.fileOpen]
  | inactive _ hf | ended _ hf | seekUnlocked hf | writeUnlocked hf =>
    rw [hf.holding]
    rfl
  | received _ ht =>
    rw [ht.holding]
    rfl
  | writeLocked hw | wrote _ hw =>
    rw [hw.holding]
    rfl
  | _ => rfl

/-- **The step lemma**: every call keeps to the discipline. -/
theorem Conn.Call.act {c c' : Conn} {e : Event} (hs : c.Call e c') :
    c.pc.holding.act e = some c'.pc.holding := by
  rw [Holding.act_eq_some_iff, hs.pc]
  exact ⟨Pc.allows hs.op, Pc.holding_resume hs.op e.2⟩

/-! ## 3. Counting -/

namespace Event

def locks (m : Mutex) (e : Event) : Bool := e.1 = .lock m

def unlocks (m : Mutex) (e : Event) : Bool := e.1 = .unlock m

/-- A `malloc` that succeeds. -/
def mallocs (e : Event) : Bool :=
  match e.1 with
  | .malloc _ => e.2.ptr.isSome
  | _ => false

def frees (e : Event) : Bool :=
  match e.1 with
  | .free _ => true
  | _ => false

def calls (op : Op) (e : Event) : Bool := e.1 = op

/-- An `open` that succeeds. -/
def opens (e : Event) : Bool := e.1 = .open && e.2.val ≠ -1

end Event

namespace Holding

variable {s t : Holding} {e : Event}

theorem act_mutex (m : Mutex) (h : s.act e = some t) :
    (decide (s.mutex = some m)).toNat + (e.locks m).toNat =
      (decide (t.mutex = some m)).toNat + (e.unlocks m).toNat := by
  obtain ⟨hallows, rfl⟩ := act_eq_some_iff.mp h
  obtain ⟨op, ret⟩ := e
  cases op with
  | lock m' =>
    have hfree : s.mutex = none := of_decide_eq_true hallows
    simp [after, Event.locks, Event.unlocks, hfree]
  | unlock m' =>
    have hheld : s.mutex = some m' := of_decide_eq_true hallows
    simp [after, Event.locks, Event.unlocks, hheld]
  | close fd => cases fd <;> rfl
  | _ => rfl

theorem act_buffer (h : s.act e = some t) :
    s.buffer.isSome.toNat + e.mallocs.toNat = t.buffer.isSome.toNat + e.frees.toNat := by
  obtain ⟨hallows, rfl⟩ := act_eq_some_iff.mp h
  obtain ⟨op, ret⟩ := e
  cases op with
  | malloc size =>
    have hnone : s.buffer = none := of_decide_eq_true hallows
    simp [after, Event.mallocs, Event.frees, hnone]
  | realloc buf size =>
    have hsome : s.buffer = some buf := of_decide_eq_true hallows
    simp [after, Event.mallocs, Event.frees, hsome]
  | free buf =>
    have hsome : s.buffer = some buf := of_decide_eq_true hallows
    simp [after, Event.mallocs, Event.frees, hsome]
  | close fd => cases fd <;> rfl
  | _ => rfl

theorem act_client (h : s.act e = some t) :
    s.client.toNat + 0 = t.client.toNat + (e.calls (.close .client)).toNat := by
  obtain ⟨hallows, rfl⟩ := act_eq_some_iff.mp h
  obtain ⟨op, ret⟩ := e
  cases op with
  | close fd =>
    cases fd with
    | client =>
      have hopen : s.client = true := hallows
      simp [after, Event.calls, hopen]
    | file => simp [after, Event.calls]
  | _ => simp [after, Event.calls]

theorem act_file (h : s.act e = some t) :
    s.file.toNat + e.opens.toNat = t.file.toNat + (e.calls (.close .file)).toNat := by
  obtain ⟨hallows, rfl⟩ := act_eq_some_iff.mp h
  obtain ⟨op, ret⟩ := e
  cases op with
  | «open» =>
    have hclosed : s.file = false := by simpa using (Bool.and_eq_true_iff.mp hallows).2
    simp [after, Event.calls, Event.opens, hclosed]
  | close fd =>
    cases fd with
    | client => simp [after, Event.calls, Event.opens]
    | file =>
      have hopen : s.file = true := hallows
      simp [after, Event.calls, Event.opens, hopen]
  | _ => simp [after, Event.calls, Event.opens]

theorem act_opening (h : s.act e = some t) :
    s.opening.toNat + 0 = t.opening.toNat + (e.calls .open).toNat := by
  obtain ⟨hallows, rfl⟩ := act_eq_some_iff.mp h
  obtain ⟨op, ret⟩ := e
  cases op with
  | «open» =>
    have hopening : s.opening = true := (Bool.and_eq_true_iff.mp hallows).1
    simp [after, Event.calls, hopening]
  | close fd => cases fd <;> simp [after, Event.calls]
  | _ => simp [after, Event.calls]

theorem act_complete (h : s.act e = some t) :
    s.complete.toNat + (e.calls .setComplete).toNat = t.complete.toNat + 0 := by
  obtain ⟨hallows, rfl⟩ := act_eq_some_iff.mp h
  obtain ⟨op, ret⟩ := e
  cases op with
  | setComplete =>
    have hnot : s.complete = false := by simpa [allows] using hallows
    simp [after, Event.calls, hnot]
  | close fd => cases fd <;> simp [after, Event.calls]
  | _ => simp [after, Event.calls]

end Holding

/-! ## 4. Balance -/

/-- The calls of a run with their answers. -/
def events (h : History) : List Event := h.map Prod.snd

/-- **Everything a thread took was given back.** -/
structure Balanced (h : History) : Prop where
  /-- Every call was allowed, and nothing is held. -/
  keeps : Keeps Holding.act Holding.atStart (events h) Holding.atEnd
  mutexes : ∀ m, (events h).countP (Event.locks m) = (events h).countP (Event.unlocks m)
  /-- As many buffers were freed as allocated. -/
  buffers : (events h).countP Event.mallocs = (events h).countP Event.frees
  client : (events h).countP (Event.calls (.close .client)) = 1
  opened : (events h).countP (Event.calls .open) = 1
  /-- The file was closed as often as it was opened. -/
  file : (events h).countP (Event.calls (.close .file)) = (events h).countP Event.opens
  complete : (events h).countP (Event.calls .setComplete) = 1

theorem Balanced.of_keeps {h : History}
    (hk : Keeps Holding.act Holding.atStart (events h) Holding.atEnd) : Balanced h := by
  refine ⟨hk, ?_, ?_, ?_, ?_, ?_, ?_⟩
  · intro m
    have hb := hk.balance (fun s => (decide (s.mutex = some m)).toNat) (Event.locks m)
      (Event.unlocks m) fun ha => Holding.act_mutex m ha
    simpa [Holding.atStart, Holding.atEnd] using hb
  · have hb := hk.balance (fun s => s.buffer.isSome.toNat) Event.mallocs Event.frees
      fun ha => Holding.act_buffer ha
    simpa [Holding.atStart, Holding.atEnd] using hb
  · have hb := hk.balance (fun s => s.client.toNat) (fun _ => false)
      (Event.calls (.close .client)) fun ha => Holding.act_client ha
    simpa [Holding.atStart, Holding.atEnd] using hb.symm
  · have hb := hk.balance (fun s => s.opening.toNat) (fun _ => false) (Event.calls .open)
      fun ha => Holding.act_opening ha
    simpa [Holding.atStart, Holding.atEnd] using hb.symm
  · have hb := hk.balance (fun s => s.file.toNat) Event.opens (Event.calls (.close .file))
      fun ha => Holding.act_file ha
    simpa [Holding.atStart, Holding.atEnd] using hb.symm
  · have hb := hk.balance (fun s => s.complete.toNat) (Event.calls .setComplete) (fun _ => false)
      fun ha => Holding.act_complete ha
    simpa [Holding.atStart, Holding.atEnd] using hb

/-- A thread as `main` starts it. -/
abbrev Conn.created (junk : ℤ) (stream : List UInt8) : Conn := ⟨.openFile junk, stream, []⟩

/-- **A client thread gives back what it takes.**  Whatever its calls answer, every call is allowed
with what is held at the time; and when the thread has ended, each mutex was released as often as
acquired, every buffer freed once, the client's descriptor closed once, the file closed once if
`open` succeeded and not at all otherwise, and `thread_complete` is set. -/
theorem resources_balanced {junk : ℤ} {stream : List UInt8} {h : History} {c : Conn}
    (hr : Run Conn.Call (Conn.created junk stream) h c) :
    Keeps Holding.act Holding.atStart (events h) c.pc.holding ∧ (c.pc = .exited → Balanced h) := by
  have hk : Keeps Holding.act Holding.atStart (events h) c.pc.holding :=
    keeps_run (fun c : Conn => c.pc.holding) (fun _ hs => hs.act) hr
  refine ⟨hk, fun hexited => Balanced.of_keeps ?_⟩
  rwa [hexited] at hk

/-- A thread whose `write` fails ends balanced. -/
theorem resources_balanced_broken : ∃ h c, Run Conn.Call (Conn.created 0 [97, 10]) h c ∧
    c.pc = .exited ∧ Balanced h := by
  have hr := Run.of_played Conn.call_of_answer (Conn.created 0 [97, 10])
    [{ val := 3 }, { ptr := some 0 }, { val := 1 }, { val := 2, data := [97, 10] }, {},
      { val := -1 }, {}, {}, {}, {}, {}, {}, {}] (by decide)
  exact ⟨_, _, hr, by decide, (resources_balanced hr).2 (by decide)⟩

end Aesd.Server
