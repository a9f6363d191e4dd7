/-
# The server on a regular file

The server as it is built when `USE_AESD_CHAR_DEVICE` is not defined: the output file is a regular
file, opened with `O_RDWR | O_CREAT | O_APPEND`, a stamper runs beside the clients, and `main` waits
for it behind the cleanup and removes the file.  A run begins at the head of the accept loop, with
the stamper created: the start of this build is left out, and with it the exits there behind a
failed `pthread_create` of the stamper and, while the stamper runs, behind a failed `listen`.

A step is a step of the process (`Process.Step`), a call of the stamper, or a call `main` makes at
the end.  The table of holders in `process` is that of `main` and the clients; whether the stamper
has `file_mutex` is a flag of its own.  What the file answers to a client is `Op.OnFile`, and what
becomes of the file `Op.fileAfter` and `Op.positionAfter`; any call may fail, except that an `ioctl`
always does.

Forgetting the stamper and the file leaves a run of the process (`FileServer.process_run`).
-/
import Aesd.Server.Bookkeeping
import Aesd.Server.Courses
import Aesd.Server.Stamper

namespace Aesd.Server

open Transition Locking

/-! ## 1. The file -/

namespace Op

/-- What a regular file may answer, with `content` in it and the descriptor at `position`.  It knows
no seek command; a `read` hands over what is there, and nothing only at the end. -/
def OnFile (content : List UInt8) (position : ℕ) : Op → Ret → Prop
  | ioctl _, r => r.val = -1
  | read _ _, r => r.val = -1 ∨ (r.data <+: content.drop position ∧
      (r.data = [] → content.drop position = []))
  | _, _ => True

/-- The file after a client's call.  `open` creates it; every `write` appends. -/
def fileAfter (file : Option (List UInt8)) : Op → Ret → Option (List UInt8)
  | «open», r => if r.val = -1 then file else some (file.getD [])
  | write buf data, r => file.map fun content => content ++ (write buf data).written r
  | _, _ => file

/-- The position of the descriptor after its client's call. -/
def positionAfter (content : List UInt8) (position : ℕ) : Op → Ret → ℕ
  | «open», _ => 0
  | write buf data, r =>
    if r.val = -1 then position else (content ++ (write buf data).written r).length
  | lseek, r => if r.val = -1 then position else 0
  | read _ _, r => position + r.data.length
  | _, _ => position

instance decidableOnFile (content : List UInt8) (position : ℕ) :
    (op : Op) → (ret : Ret) → Decidable (op.OnFile content position ret)
  | ioctl _, r => inferInstanceAs (Decidable (r.val = -1))
  | read _ _, r => inferInstanceAs (Decidable (r.val = -1 ∨ (r.data <+: content.drop position ∧
      (r.data = [] → content.drop position = []))))
  | «open», _ => isTrue trivial
  | malloc _, _ => isTrue trivial
  | loadActive, _ => isTrue trivial
  | recv _ _ _, _ => isTrue trivial
  | realloc _ _, _ => isTrue trivial
  | lock _, _ => isTrue trivial
  | unlock _, _ => isTrue trivial
  | write _ _, _ => isTrue trivial
  | lseek, _ => isTrue trivial
  | send _ _, _ => isTrue trivial
  | free _, _ => isTrue trivial
  | close _, _ => isTrue trivial
  | setComplete, _ => isTrue trivial

end Op

/-- The file after a call of the stamper. -/
def StampOp.fileAfter (file : Option (List UInt8)) : StampOp → Ret → Option (List UInt8)
  | «open», r => if r.val = -1 then file else some (file.getD [])
  | write text, r => file.map fun content => content ++ (write text).written r
  | _, _ => file

/-! ## 2. The system -/

/-- What `main` does behind the cleanup. -/
inductive EndOp
  /-- The `pthread_join` of the stamper. -/
  | join
  | destroy (m : Mutex)
  | closeServer
  | unlink
  deriving DecidableEq

inductive EndPc
  | joinStamper
  | destroyFile
  | destroyList
  | closeServer
  | unlink
  | exited
  deriving DecidableEq

def EndPc.op : EndPc → Option EndOp
  | joinStamper => some .join
  | destroyFile => some (.destroy .file)
  | destroyList => some (.destroy .list)
  | closeServer => some .closeServer
  | unlink => some .unlink
  | exited => none

def EndPc.resume : EndPc → EndPc
  | joinStamper => destroyFile
  | destroyFile => destroyList
  | destroyList => closeServer
  | closeServer => unlink
  | unlink => exited
  | exited => exited

/-- The file after a call of `main`. -/
def EndOp.fileAfter (file : Option (List UInt8)) : EndOp → Ret → Option (List UInt8)
  | unlink, r => if r.val = -1 then file else none
  | _, _ => file

/-- The whole server.  `stamping` says whether the stamper has `file_mutex`. -/
structure FileServer where
  process : Process
  stamper : StampPc
  stamping : Bool
  file : Option (List UInt8)
  position : ℕ → ℕ
  ending : EndPc

/-- The events of a run. -/
inductive FileAct
  | process (a : Act)
  | stamper (op : StampOp) (ret : Ret)
  | ending (op : EndOp) (ret : Ret)

namespace FileServer

/-- What is in the file. -/
def content (x : FileServer) : List UInt8 := x.file.getD []

/-- The server after a call of client `i`. -/
def clientCall (x : FileServer) (i : ℕ) (op : Op) (ret : Ret) (p : Process) : FileServer :=
  { x with
    process := p
    file := op.fileAfter x.file ret
    position := Function.update x.position i (op.positionAfter x.content (x.position i) ret) }

/-- The server after a call of the stamper. -/
def stamperCall (x : FileServer) (op : StampOp) (ret : Ret) : FileServer :=
  { x with
    stamper := x.stamper.resume ret
    stamping := op.holdsAfter x.stamping
    file := op.fileAfter x.file ret }

/-- One step.  A mutex is acquired only when neither table has a holder for it. -/
inductive Step (x : FileServer) : FileAct → FileServer → Prop
  | main {a : Act} {p : Process} : a.ofClient = false → x.process.Step a p →
      Step x (.process a) { x with process := p }
  | client {i : ℕ} {op : Op} {ret : Ret} {p : Process} : x.process.Step (.client i op ret) p →
      (op = .lock .file → x.stamping = false) →
      op.OnFile x.content (x.position i) ret →
      Step x (.process (.client i op ret)) (x.clientCall i op ret p)
  | stamper {op : StampOp} {ret : Ret} : x.stamper.op = some op → op.Answers ret →
      (op = .loadActive → (ret.val ≠ 0 ↔ x.process.active = true)) →
      (op = .lock → x.process.holder .file = none ∧ x.stamping = false) →
      Step x (.stamper op ret) (x.stamperCall op ret)
  | ending {op : EndOp} {ret : Ret} : x.process.main.pc = .finished → x.ending.op = some op →
      (op = .join → x.stamper = .ended) →
      Step x (.ending op ret) { x with
        ending := x.ending.resume
        file := op.fileAfter x.file ret }

/-- The server at the head of its accept loop, with the stamper just created.  The file may be
there from before. -/
def start (junk : ℕ → ℤ) (file : Option (List UInt8)) : FileServer :=
  { process := Process.start junk, stamper := .whileActive, stamping := false, file := file
    position := fun _ => 0, ending := .joinStamper }

/-! ## 3. Playing a run -/

/-- Who goes on, and what its call returns; without anybody, the signal. -/
inductive Choice
  | process (choice : Option (Actor × Ret))
  | stamper (ret : Ret)
  | ending (ret : Ret)

def next (x : FileServer) : Choice → Option (FileAct × FileServer)
  | .process choice =>
    match x.process.next choice with
    | none => none
    | some (.client i op ret, p) =>
      if (op = .lock .file → x.stamping = false) ∧ op.OnFile x.content (x.position i) ret then
        some (.process (.client i op ret), x.clientCall i op ret p)
      else none
    | some (a, p) => some (.process a, { x with process := p })
  | .stamper ret =>
    match x.stamper.op with
    | none => none
    | some op =>
      if op.Answers ret ∧ (op = .loadActive → (ret.val ≠ 0 ↔ x.process.active = true)) ∧
          (op = .lock → x.process.holder .file = none ∧ x.stamping = false) then
        some (.stamper op ret, x.stamperCall op ret)
      else none
  | .ending ret =>
    match x.ending.op with
    | none => none
    | some op =>
      if x.process.main.pc = .finished ∧ (op = .join → x.stamper = .ended) then
        some (.ending op ret, { x with
          ending := x.ending.resume
          file := op.fileAfter x.file ret })
      else none

theorem step_of_next (x : FileServer) (choice : Choice) (e : FileAct) (y : FileServer)
    (h : x.next choice = some (e, y)) : x.Step e y := by
  cases choice with
  | process choice =>
    unfold next at h
    dsimp only at h
    split at h
    · cases h
    · rename_i i op ret p hnext
      split at h
      · rename_i hcond
        obtain ⟨rfl, rfl⟩ := Prod.mk.inj (Option.some.inj h)
        exact Step.client (Process.step_of_next _ _ _ _ hnext) hcond.1 hcond.2
      · cases h
    · rename_i a p hnot hnext
      obtain ⟨rfl, rfl⟩ := Prod.mk.inj (Option.some.inj h)
      refine Step.main ?_ (Process.step_of_next _ _ _ _ hnext)
      cases a with
      | client i op ret => exact absurd rfl (hnot i op ret)
      | _ => rfl
  | stamper ret =>
    unfold next at h
    dsimp only at h
    split at h
    · cases h
    · rename_i op hop
      split at h
      · rename_i hcond
        obtain ⟨rfl, rfl⟩ := Prod.mk.inj (Option.some.inj h)
        exact Step.stamper hop hcond.1 hcond.2.1 hcond.2.2
      · cases h
  | ending ret =>
    unfold next at h
    dsimp only at h
    split at h
    · cases h
    · rename_i op hop
      split at h
      · rename_i hcond
        obtain ⟨rfl, rfl⟩ := Prod.mk.inj (Option.some.inj h)
        exact Step.ending hcond.1 hop hcond.2
      · cases h

/-! ## 4. The process in the server -/

/-- The act of the process, if an event is one. -/
def act? : FileAct → Option Act
  | .process a => some a
  | _ => none

variable {x y : FileServer} {e : FileAct} {h : List (FileServer × FileAct)} {junk : ℕ → ℤ}
  {file : Option (List UInt8)}

/-- A step of the server is a step of the process or leaves it alone. -/
theorem Step.process (hs : x.Step e y) :
    (∃ a, act? e = some a ∧ x.process.Step a y.process) ∨
      (act? e = none ∧ y.process = x.process) := by
  cases hs with
  | main _ hstep => exact Or.inl ⟨_, rfl, hstep⟩
  | client hstep => exact Or.inl ⟨_, rfl, hstep⟩
  | stamper => exact Or.inr ⟨rfl, rfl⟩
  | ending => exact Or.inr ⟨rfl, rfl⟩

/-- **Without the stamper and the file** a run is a run of the process. -/
theorem process_run (hr : Run Step (start junk file) h x) :
    Run Process.Step (Process.start junk)
      (h.filterMap fun se => (act? se.2).map fun a => (se.1.process, a)) x.process :=
  hr.project FileServer.process act? Step.process

/-- Every record of a client is kept as in the server on the device. -/
theorem books_run (hr : Run Step (start junk file) h x) : x.process.Books :=
  Process.books_run (process_run hr)

/-- The stamper has the mutex where its place says so. -/
theorem stamping_run (hr : Run Step (start junk file) h x) : x.stamping = x.stamper.holds := by
  refine hr.invariant (I := fun x : FileServer => x.stamping = x.stamper.holds) rfl
    fun {s e t} hi hs => ?_
  cases hs with
  | stamper hop =>
    show StampOp.holdsAfter s.stamping _ = (s.stamper.resume _).holds
    rw [StampPc.holds_resume hop, hi]
  | _ => exact hi

/-- `main` never locks `file_mutex`. -/
theorem mainOp_action {pc : MainPc} {op : MainOp} (hop : pc.op = some op) :
    op.action ≠ .acquire .file := by
  cases pc with
  | finished => cases hop
  | _ =>
    obtain rfl := Option.some.inj hop
    simp [MainOp.action]

/-- The stamper and a client do not have `file_mutex` together. -/
theorem exclusive_run (hr : Run Step (start junk file) h x) :
    x.stamping = true → x.process.holder .file = none := by
  refine hr.invariant (I := fun x : FileServer => x.stamping = true →
    x.process.holder .file = none) (fun h => by cases h) fun {s e t} hi hs hstamp => ?_
  cases hs with
  | main hnot hstep =>
    cases hstep with
    | main hop _ hlocks =>
      rw [Process.mainCall_holder]
      exact hlocks.free (hi hstamp) (mainOp_action hop)
    | client => cases hnot
    | signal => exact hi hstamp
  | @client i op ret p hstep hlock =>
    cases hstep with
    | client _ _ _ _ hlocks =>
      refine hlocks.free (hi hstamp) fun ha => ?_
      have hop : op = .lock .file := Op.eq_lock_of_action ha
      exact absurd (hlock hop) (by simp [show s.stamping = true from hstamp])
  | @stamper op ret hop _ _ hlock =>
    cases op with
    | lock => exact (hlock rfl).1
    | unlock => cases hstamp
    | _ => exact hi hstamp
  | ending => exact hi hstamp

end FileServer

end Aesd.Server
