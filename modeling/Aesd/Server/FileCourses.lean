/-
# What the clients do on the file

Without the stamper and the file a run of the server is a run of the process, and each client thread
in it is on its course (`FileServer.courses_run`): what it has written is what it has received, up
to the first newline, or part of that.

Who appends to the file has it open, and the file is there as long as somebody has it open
(`FileServer.opened_run`): `main` removes it when all threads have ended (`FileServer.ended_run`).
-/
import Aesd.Server.Courses
import Aesd.Server.FileServer
import Aesd.Server.Program
import Aesd.Server.Resources

namespace Aesd.Server

open Aesd.Driver Transition

/-! ## 1. Who has the file open -/

/-- The file is open only behind an `open` that did not fail. -/
theorem Pc.fileOpen_resume {pc : Pc} {op : Op} (hop : pc.op = some op) {ret : Ret}
    (h : (pc.resume ret).fileOpen = true) :
    pc.fileOpen = true ∨ (op = .open ∧ ret.val ≠ -1) := by
  cases pc with
  | openFile junk =>
    obtain rfl := Option.some.inj hop
    rw [resume] at h
    split at h
    · cases h
    · rename_i hne
      exact Or.inr ⟨rfl, hne⟩
  | closeClient | lockList | setComplete | unlockList | exited => cases h
  | _ => exact Or.inl rfl

theorem StampPc.fileOpen_resume {pc : StampPc} {op : StampOp} (hop : pc.op = some op) {ret : Ret}
    (h : (pc.resume ret).fileOpen = true) :
    pc.fileOpen = true ∨ (op = .open ∧ ret.val ≠ -1) := by
  have hsleep : ∀ i, (whileSleeping i).fileOpen = false := by
    intro i
    unfold whileSleeping
    split <;> rfl
  cases pc with
  | openFile timeBuffer =>
    obtain rfl := Option.some.inj hop
    rw [resume] at h
    split at h
    · cases h
    · rename_i hne
      exact Or.inr ⟨rfl, hne⟩
  | whileActive | sleepActive i =>
    rw [resume] at h
    split at h <;> cases h
  | unlock => exact absurd ((hsleep 0).symm.trans h) Bool.false_ne_true
  | sleep i => exact absurd ((hsleep (i + 1)).symm.trans h) Bool.false_ne_true
  | strftime | failClose | failUnlock | ended => cases h
  | _ => exact Or.inl rfl

/-! ## 2. What each client has done -/

/-- What client `i` has called. -/
def FileAct.event? (i : ℕ) (e : FileAct) : Option Event := (FileServer.act? e).bind (Act.event? i)

/-- The calls of client `i`. -/
def FileAct.callsOf (i : ℕ) (es : List FileAct) : Trace :=
  Act.callsOf i (es.filterMap FileServer.act?)

theorem FileAct.callsOf_eq (i : ℕ) (es : List FileAct) :
    callsOf i es = es.filterMap (event? i) :=
  List.filterMap_filterMap

theorem FileAct.callsOf_concat (i : ℕ) (es : List FileAct) (e : FileAct) :
    callsOf i (es ++ [e]) = callsOf i es ++ (e.event? i).toList := by
  rw [callsOf_eq, callsOf_eq, List.filterMap_append]
  cases he : e.event? i <;> simp [he]

theorem FileAct.event?_client (i j : ℕ) (op : Op) (ret : Ret) :
    (FileAct.process (.client j op ret)).event? i = if j = i then some (op, ret) else none :=
  rfl

namespace FileServer

variable {x y : FileServer} {e : FileAct} {es : List FileAct} {h : List (FileServer × FileAct)}
  {junk : ℕ → ℤ} {file : Option (List UInt8)}

theorem event?_of_act {a : Act} (h : act? e = some a) : e = .process a := by
  cases e with
  | process b =>
    obtain rfl := Option.some.inj h
    rfl
  | stamper op ret => cases h
  | ending op ret => cases h

theorem event?_of_not_act {i : ℕ} (h : act? e = none) : e.event? i = none := by
  rw [FileAct.event?, h, Option.bind_none]

/-- The calls of a client are those it has made in the process. -/
theorem callsOf_process (i : ℕ) (h : List (FileServer × FileAct)) :
    FileAct.callsOf i (h.map Prod.snd) = Act.callsOf i
      ((h.filterMap fun se => (act? se.2).map fun a => (se.1.process, a)).map Prod.snd) := by
  rw [FileAct.callsOf, List.map_filterMap, List.filterMap_map]
  refine congrArg (Act.callsOf i) (List.filterMap_congr fun se _ => ?_)
  cases hact : act? se.2 <;> simp [hact]

/-- Every client is on its course. -/
structure Courses (es : List FileAct) (x : FileServer) : Prop where
  thread : ∀ {i pc}, x.process.thread i = some pc → (FileAct.callsOf i es).OnCourse pc
  unborn : ∀ {i}, x.process.thread i = none → FileAct.callsOf i es = []

/-- **Every client is on its course**, as in the process. -/
theorem courses_run (hr : Run Step (start junk file) h x) : Courses (h.map Prod.snd) x := by
  have hc := Process.courses_run (process_run hr)
  constructor
  · intro i pc hpc
    have hcourse := hc.thread hpc
    rw [← callsOf_process] at hcourse
    exact hcourse
  · intro i hnone
    rw [callsOf_process]
    exact hc.unborn hnone

/-! ## 3. The file -/

/-- `main` stays at its end. -/
theorem finished_step {p q : Process} {a : Act} (hs : p.Step a q) (hp : p.main.pc = .finished) :
    q.main.pc = .finished := by
  cases hs with
  | main hop =>
    rw [hp] at hop
    cases hop
  | client => exact hp
  | signal => exact hp

/-- Once `main` has joined the stamper, that has ended, and the accept loop and the cleanup are
over. -/
theorem ended_run (hr : Run Step (start junk file) h x) :
    x.ending ≠ .joinStamper → x.stamper = .ended ∧ x.process.main.pc = .finished := by
  refine hr.invariant (I := fun x : FileServer => x.ending ≠ .joinStamper →
    x.stamper = .ended ∧ x.process.main.pc = .finished) (fun h => absurd rfl h)
    fun {s e t} hi hs hend => ?_
  cases hs with
  | main _ hp =>
    obtain ⟨hstamp, hmain⟩ := hi hend
    exact ⟨hstamp, finished_step hp hmain⟩
  | client hp =>
    obtain ⟨hstamp, hmain⟩ := hi hend
    exact ⟨hstamp, finished_step hp hmain⟩
  | stamper hop =>
    rw [(hi hend).1] at hop
    cases hop
  | @ending op ret hmain hop hjoin =>
    refine ⟨?_, hmain⟩
    by_cases hfirst : s.ending = .joinStamper
    · rw [hfirst] at hop
      exact hjoin (Option.some.inj hop).symm
    · exact (hi hfirst).1

/-- Who is going to append has the file open. -/
def Opened (x : FileServer) : Prop :=
  (∀ i pc, x.process.thread i = some pc → pc.fileOpen = true → x.file.isSome = true) ∧
    (x.stamper.fileOpen = true → x.file.isSome = true)

theorem isSome_fileAfter {f : Option (List UInt8)} (op : Op) (ret : Ret) (hf : f.isSome = true) :
    (op.fileAfter f ret).isSome = true := by
  cases op with
  | «open» =>
    rw [Op.fileAfter]
    split
    · exact hf
    · rfl
  | write buf data =>
    rw [Op.fileAfter]
    simpa using hf
  | _ => exact hf

theorem isSome_stampAfter {f : Option (List UInt8)} (op : StampOp) (ret : Ret)
    (hf : f.isSome = true) : (op.fileAfter f ret).isSome = true := by
  cases op with
  | «open» =>
    rw [StampOp.fileAfter]
    split
    · exact hf
    · rfl
  | write text =>
    rw [StampOp.fileAfter]
    simpa using hf
  | _ => exact hf

/-- **Nobody has the file open when `main` removes it.** -/
theorem opened_run (hr : Run Step (start junk file) h x) : x.Opened := by
  refine hr.rule (Q := fun _ x => x.Opened) ⟨(fun _ _ h => by cases h), fun h => by cases h⟩
    fun {h s e t} hr ho hs => ?_
  cases hs with
  | main hnot hp =>
    refine ⟨fun i pc hpc hopen => ?_, ho.2⟩
    cases (books_run hr).inv.moves hp i with
    | calls heq => exact absurd (heq ▸ hnot) (by simp [Act.ofClient])
    | created _ _ hnew =>
      obtain rfl := Option.some.inj (hnew.symm.trans hpc)
      cases hopen
    | stays _ hsame => exact ho.1 i pc (hsame.symm.trans hpc) hopen
  | @client i op ret p hp =>
    refine ⟨fun j pc hpc hopen => ?_, fun hopen => isSome_fileAfter op ret (ho.2 hopen)⟩
    cases (books_run hr).inv.moves hp j with
    | calls heq hold hop _ hnew =>
      obtain ⟨rfl, rfl, rfl⟩ := Act.client.inj heq
      obtain rfl := Option.some.inj (hnew.symm.trans hpc)
      rcases Pc.fileOpen_resume hop hopen with hwas | ⟨rfl, hval⟩
      · exact isSome_fileAfter op ret (ho.1 i _ hold hwas)
      · show (Op.fileAfter s.file .open ret).isSome = true
        rw [Op.fileAfter, if_neg hval]
        rfl
    | created hnot hold hnew =>
      obtain rfl := Option.some.inj (hnew.symm.trans hpc)
      cases hopen
    | stays _ hsame => exact isSome_fileAfter op ret (ho.1 j pc (hsame.symm.trans hpc) hopen)
  | @stamper op ret hop hans =>
    refine ⟨fun i pc hpc hopen => isSome_stampAfter op ret (ho.1 i pc hpc hopen), fun hopen => ?_⟩
    rcases StampPc.fileOpen_resume hop hopen with hwas | ⟨rfl, hval⟩
    · exact isSome_stampAfter op ret (ho.2 hwas)
    · show (StampOp.fileAfter s.file .open ret).isSome = true
      rw [StampOp.fileAfter, if_neg hval]
      rfl
  | @ending op ret hmain hop hjoin =>
    have hidle := (books_run hr).idle hmain
    refine ⟨fun i pc hpc hopen => ?_, fun hopen => ?_⟩
    · obtain rfl := hidle.exited i pc hpc
      cases hopen
    · by_cases hfirst : s.ending = .joinStamper
      · rw [hfirst] at hop
        obtain rfl := Option.some.inj hop
        exact ho.2 hopen
      · rw [show s.stamper = .ended from (ended_run hr hfirst).1] at hopen
        cases hopen

/-! ## 4. The end -/

/-- Behind the join of the stamper nobody takes a step but `main`, and a signal may come. -/
theorem alone_step (hr : Run Step (start junk file) h x) (hs : x.Step e y)
    (hend : x.ending ≠ .joinStamper) :
    y.ending ≠ .joinStamper ∧ (e = .process .signal ∨ ∃ op ret, e = .ending op ret) := by
  obtain ⟨hstamp, hmain⟩ := ended_run hr hend
  have hidle := (books_run hr).idle hmain
  cases hs with
  | @main a p hnot hp =>
    cases hp with
    | main hop =>
      rw [hmain] at hop
      cases hop
    | client => cases hnot
    | signal => exact ⟨hend, Or.inl rfl⟩
  | client hp =>
    cases hp with
    | client hpc hop =>
      obtain rfl := hidle.exited _ _ hpc
      cases hop
  | stamper hop =>
    rw [hstamp] at hop
    cases hop
  | @ending op ret hfin hop =>
    refine ⟨?_, Or.inr ⟨op, ret, rfl⟩⟩
    show x.ending.resume ≠ .joinStamper
    cases x.ending <;> simp [EndPc.resume]

/-- From a state behind the join on, nobody takes a step but `main`. -/
theorem alone_run {h₁ : List (FileServer × FileAct)} (hr : Run Step (start junk file) h₁ x)
    (hend : x.ending ≠ .joinStamper) (hr' : Run Step x h y) :
    y.ending ≠ .joinStamper ∧
      ∀ se ∈ h, se.2 = .process .signal ∨ ∃ op ret, se.2 = .ending op ret := by
  refine hr'.rule (Q := fun h y => y.ending ≠ .joinStamper ∧
    ∀ se ∈ h, se.2 = .process .signal ∨ ∃ op ret, se.2 = .ending op ret)
    ⟨hend, fun se hse => absurd hse List.not_mem_nil⟩ fun {h s e t} hrun hq hs => ?_
  obtain ⟨hend', hall⟩ := hq
  obtain ⟨hnext, hwho⟩ := alone_step (hr.append hrun) hs hend'
  refine ⟨hnext, fun se hse => ?_⟩
  rcases List.mem_append.mp hse with hmem | hlast
  · exact hall se hmem
  · rw [List.mem_singleton.mp hlast]
    exact hwho

/-- **The end of the server on a regular file**, from the accept loop on.  When `main` destroys a
mutex, closes the socket or removes the file, the stamper and all client threads have ended and
nobody has a mutex, and from then on nobody takes a step but `main`; and when it is at its end, the
file is gone, unless `unlink` has failed. -/
theorem file_shutdown (hr : Run Step (start junk file) h x) :
    (∀ h₁ v op ret h₂, h = h₁ ++ (v, .ending op ret) :: h₂ → op ≠ .join →
      v.stamper = .ended ∧ (∀ i pc, v.process.thread i = some pc → pc = .exited) ∧
      (∀ m, v.process.holder m = none) ∧ v.stamping = false ∧
      ∀ se ∈ h₂, se.2 = .process .signal ∨ ∃ op ret, se.2 = .ending op ret) ∧
    (x.ending = .exited →
      x.file = none ∨ ∃ ret, ret.val = -1 ∧ .ending .unlink ret ∈ h.map Prod.snd) := by
  constructor
  · rintro h₁ v op ret h₂ rfl hne
    obtain ⟨w, hv, hs, -, hrest⟩ := hr.cut
    have hend : v.ending ≠ .joinStamper := by
      cases hs with
      | ending _ hop =>
        intro hfirst
        rw [hfirst] at hop
        exact hne (Option.some.inj hop).symm
    obtain ⟨hstamp, hmain⟩ := ended_run hv hend
    have hidle := (books_run hv).idle hmain
    refine ⟨hstamp, hidle.exited, hidle.holder (books_run hv), ?_, ?_⟩
    · rw [stamping_run hv, hstamp]
      rfl
    · exact (alone_run (hv.concat hs) (alone_step hv hs hend).1 hrest).2
  · refine hr.rule (Q := fun h x => x.ending = .exited →
      x.file = none ∨ ∃ ret, ret.val = -1 ∧ .ending .unlink ret ∈ h.map Prod.snd)
      (fun h => by cases h) fun {h s e t} hr hq hs hexit => ?_
    rw [List.map_append]
    have hold : s.ending = .exited → t.file = s.file → t.file = none ∨
        ∃ ret, ret.val = -1 ∧ .ending .unlink ret ∈ h.map Prod.snd ++ [(s, e)].map Prod.snd := by
      intro hs hfile
      rcases hq hs with hnone | ⟨ret, hfail, hmem⟩
      · exact Or.inl (hfile.trans hnone)
      · exact Or.inr ⟨ret, hfail, List.mem_append_left _ hmem⟩
    cases hs with
    | main => exact hold hexit rfl
    | client hp hlock hfile =>
      have hend : s.ending ≠ .joinStamper := fun h => by cases h.symm.trans hexit
      obtain ⟨-, hwho⟩ := alone_step hr (.client hp hlock hfile) hend
      simp at hwho
    | stamper hop =>
      rw [(ended_run hr fun h => by cases h.symm.trans hexit).1] at hop
      cases hop
    | @ending op ret hmain hop =>
      replace hexit : s.ending.resume = .exited := hexit
      show op.fileAfter s.file ret = none ∨ _
      generalize s.ending = pc at hop hexit
      cases pc with
      | unlink =>
        obtain rfl := Option.some.inj hop
        by_cases hfail : ret.val = -1
        · exact Or.inr ⟨ret, hfail, List.mem_append_right _ (List.mem_singleton_self _)⟩
        · exact Or.inl (if_neg hfail)
      | exited => cases hop
      | _ => cases hexit

/-- The server is stopped at once, with a file from before. -/
def stoppedChoices : List Choice :=
  [.process none, .process (some (.main, {})), .process (some (.main, {})),
    .process (some (.main, {})), .stamper {}, .ending {}, .ending {}, .ending {}, .ending {},
    .ending {}]

theorem file_shutdown_stopped : ∃ h x, Run Step (start (fun _ => 0) (some [10])) h x ∧
    x.ending = .exited ∧
      (x.file = none ∨ ∃ ret, ret.val = -1 ∧ .ending .unlink ret ∈ h.map Prod.snd) := by
  have hrun := Run.of_played step_of_next (start (fun _ => 0) (some [10])) stoppedChoices
    (by decide +kernel)
  have hend : (played next (start (fun _ => 0) (some [10])) stoppedChoices).2.ending = .exited := by
    decide +kernel
  exact ⟨_, _, hrun, hend, (file_shutdown hrun).2 hend⟩

end FileServer

end Aesd.Server
