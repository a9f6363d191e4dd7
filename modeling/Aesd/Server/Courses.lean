/-
# The course of every client thread

A client thread of the process makes its calls one after the other (`Act.callsOf`), whatever the
others do between them, and every call may fail.  So what `Course` says of a single thread holds of
each thread of a run (`Process.courses_run`): what it has written is what it has received up to the
first newline, or a part of that.
-/
import Aesd.Server.Process
import Aesd.Server.Outcomes

namespace Aesd.Server

open Aesd.Driver Transition

/-! ## 1. The calls of one thread -/

/-- The calls a thread has made, with their results. -/
abbrev Trace := List Event

namespace Trace

/-- The bytes received. -/
def got (evs : Trace) : List UInt8 := evs.flatMap fun e => e.1.received e.2

/-- The bytes written. -/
def wrote (evs : Trace) : List UInt8 := evs.flatMap fun e => e.1.written e.2

/-- The seeks tried. -/
def sought (evs : Trace) : List AesdSeekto := evs.flatMap fun e => e.1.seeks

/-- The bytes sent. -/
def sent (evs : Trace) : List UInt8 := evs.flatMap fun e => e.1.sent e.2

/-- A `write` failed. -/
def Broke (evs : Trace) : Prop := ∃ e ∈ evs, e.writeFails

/-- A thread at `pc` behind these calls is on its course. -/
def OnCourse (evs : Trace) (pc : Pc) : Prop := Course evs.got evs.wrote evs.sought evs.Broke pc

variable {evs : Trace} {pc : Pc} {op : Op} {ret : Ret}

@[simp] theorem got_concat (e : Event) : got (evs ++ [e]) = evs.got ++ e.1.received e.2 := by
  simp [got]

@[simp] theorem wrote_concat (e : Event) : wrote (evs ++ [e]) = evs.wrote ++ e.1.written e.2 := by
  simp [wrote]

@[simp] theorem sought_concat (e : Event) : sought (evs ++ [e]) = evs.sought ++ e.1.seeks := by
  simp [sought]

@[simp] theorem sent_concat (e : Event) : sent (evs ++ [e]) = evs.sent ++ e.1.sent e.2 := by
  simp [sent]

theorem broke_concat (e : Event) : Broke (evs ++ [e]) ↔ evs.Broke ∨ e.writeFails := by
  simp [Broke, or_and_right, exists_or]

theorem onCourse_start (junk : ℤ) : OnCourse [] (.openFile junk) := ⟨rfl, rfl, rfl⟩

end Trace

/-- A call of a thread, for the lemmas about a connection. -/
theorem Pc.call {pc : Pc} {op : Op} {ret : Ret} (hop : pc.op = some op) (hans : op.Answers ret) :
    Conn.Call ⟨pc, op.received ret, []⟩ (op, ret) ⟨pc.resume ret, [], op.sent ret⟩ := by
  refine ⟨hop, hans, (List.append_nil _).symm, ?_, rfl, rfl⟩
  rintro ⟨buf, offset, len, rfl⟩ hval
  show ret.data = []
  dsimp only at hval
  rcases hans with ⟨-, hnil⟩ | ⟨hlen, -⟩
  · exact hnil
  · exact List.length_eq_zero_iff.mp (by omega)

/-- **A call keeps the thread on its course.** -/
theorem Trace.OnCourse.step {evs : Trace} {pc : Pc} {op : Op} {ret : Ret} (h : evs.OnCourse pc)
    (hop : pc.op = some op) (hans : op.Answers ret) :
    Trace.OnCourse (evs ++ [(op, ret)]) (pc.resume ret) := by
  have hstep := Course.step (c := ⟨pc, op.received ret, []⟩) h (Pc.call hop hans)
  rw [Trace.OnCourse, Trace.got_concat, Trace.wrote_concat, Trace.sought_concat,
    propext (Trace.broke_concat _)]
  exact hstep

/-- A client comes to its `write` from the lock, or from the `write` before. -/
theorem Pc.writeCall_of_resume {pc : Pc} {op : Op} {ret : Ret} {r : Receiving}
    (hop : pc.op = some op) (h : pc.resume ret = .writeCall r) :
    (op = .lock .file ∧ ∃ r', pc = .writeLock r') ∨ ∃ r', pc = .writeCall r' := by
  have hgoes := Pc.goes_resume hop ret
  rw [h] at hgoes
  generalize hpc' : Pc.writeCall r = pc' at hgoes
  cases hgoes with
  | writeLocked => exact Or.inl ⟨rfl, _, rfl⟩
  | wrote => exact Or.inr ⟨_, rfl⟩
  | inactive _ hf | ended _ hf | seekUnlocked hf | writeUnlocked hf => cases hf <;> cases hpc'
  | received _ ht => cases ht <;> cases hpc'
  | _ => cases hpc'

/-! ## 2. The threads of the process -/

/-- What a step of the process does to thread `i`. -/
inductive Process.Moves (p : Process) (a : Act) (q : Process) (i : ℕ) : Prop
  | calls {op : Op} {ret : Ret} {pc : Pc} : a = .client i op ret → p.thread i = some pc →
      pc.op = some op → op.Answers ret → q.thread i = some (pc.resume ret) → Moves p a q i
  | created : (∀ op ret, a ≠ .client i op ret) → p.thread i = none →
      q.thread i = some (.openFile (p.junk i)) → Moves p a q i
  | stays : (∀ op ret, a ≠ .client i op ret) → q.thread i = p.thread i → Moves p a q i

theorem Process.Inv.moves {p q : Process} {a : Act} (h : p.Inv) (hs : p.Step a q) (i : ℕ) :
    p.Moves a q i := by
  cases hs with
  | @main op ret holder hop =>
    by_cases hi : op = .create i
    · subst hi
      by_cases hval : ret.val = 0
      · exact Moves.created (by simp) (h.create hop).2 (mainCall_create_thread hval)
      · exact Moves.stays (by simp) (by rw [mainCall_create_fails hval])
    · exact Moves.stays (by simp) (mainCall_of_ne hi).1
  | @client j pc op ret holder hpc hop hans =>
    by_cases hi : i = j
    · subst hi
      exact Moves.calls rfl hpc hop hans clientCall_thread_self
    · refine Moves.stays (fun op' ret' heq => hi (Act.client.inj heq).1.symm) ?_
      exact clientCall_thread_of_ne hi
  | signal => exact Moves.stays (by simp) rfl

/-! ## 3. What each client has done -/

namespace Act

/-- Whether an act is that of a client thread. -/
def ofClient : Act → Bool
  | client _ _ _ => true
  | _ => false

/-- What client `i` has called. -/
def event? (i : ℕ) : Act → Option Event
  | client j op ret => if j = i then some (op, ret) else none
  | _ => none

/-- The calls of client `i`. -/
def callsOf (i : ℕ) (es : List Act) : Trace := es.filterMap (event? i)

theorem callsOf_concat (i : ℕ) (es : List Act) (a : Act) :
    callsOf i (es ++ [a]) = callsOf i es ++ (a.event? i).toList := by
  rw [callsOf, List.filterMap_append]
  cases ha : a.event? i <;> simp [callsOf, ha]

theorem callsOf_concat_self (i : ℕ) (es : List Act) (op : Op) (ret : Ret) :
    callsOf i (es ++ [.client i op ret]) = callsOf i es ++ [(op, ret)] := by
  rw [callsOf_concat, event?, if_pos rfl]
  rfl

theorem event?_of_not_client {i : ℕ} {a : Act} (ha : ∀ op ret, a ≠ .client i op ret) :
    a.event? i = none := by
  cases a with
  | client j op ret => exact if_neg fun hj => ha op ret (by rw [hj])
  | _ => rfl

theorem callsOf_concat_other {i : ℕ} {a : Act} (es : List Act)
    (ha : ∀ op ret, a ≠ .client i op ret) : callsOf i (es ++ [a]) = callsOf i es := by
  rw [callsOf_concat, event?_of_not_client ha]
  exact List.append_nil _

end Act

namespace Process

variable {p q : Process} {a : Act} {es : List Act} {h : List (Process × Act)} {junk : ℕ → ℤ}

/-- Every client is on its course. -/
structure Courses (es : List Act) (p : Process) : Prop where
  thread : ∀ {i pc}, p.thread i = some pc → (Act.callsOf i es).OnCourse pc
  unborn : ∀ {i}, p.thread i = none → Act.callsOf i es = []

theorem Courses.step (hc : Courses es p) (hi : p.Inv) (hs : p.Step a q) :
    Courses (es ++ [a]) q := by
  constructor
  · intro i pc hpc
    cases hi.moves hs i with
    | calls heq hold hop hans hnew =>
      obtain rfl := heq
      obtain rfl := Option.some.inj (hnew.symm.trans hpc)
      rw [Act.callsOf_concat_self]
      exact (hc.thread hold).step hop hans
    | created hnot hold hnew =>
      obtain rfl := Option.some.inj (hnew.symm.trans hpc)
      rw [Act.callsOf_concat_other es hnot, hc.unborn hold]
      exact Trace.onCourse_start _
    | stays hnot hsame =>
      rw [Act.callsOf_concat_other es hnot]
      exact hc.thread (hsame.symm.trans hpc)
  · intro i hnone
    cases hi.moves hs i with
    | calls _ _ _ _ hnew => exact absurd (hnew.symm.trans hnone) (by simp)
    | created _ _ hnew => exact absurd (hnew.symm.trans hnone) (by simp)
    | stays hnot hsame =>
      rw [Act.callsOf_concat_other es hnot]
      exact hc.unborn (hsame.symm.trans hnone)

/-- **In every run of the process** every client is on its course. -/
theorem courses_run (hr : Run Step (start junk) h p) : Courses (h.map Prod.snd) p := by
  refine hr.rule (Q := fun h p => Courses (h.map Prod.snd) p)
    ⟨(fun h => by cases h), fun _ => rfl⟩ fun hr hc hs => ?_
  rw [List.map_append]
  exact hc.step (inv_run hr) hs

end Process

end Aesd.Server
