/-
# Whole lines in the file

On a regular file a packet or a time stamp is appended in one critical section of `file_mutex`.  So
the file is what was in it at the start and then, one after the other, what was appended in the
critical sections: each a packet or a time stamp, or what a failing `write` left of it
(`FileServer.file_lines`).

That a thread appends only while it has the turn is the discipline of `Aesd.Lib.Turns`; a lock of
`file_mutex` takes the turn (`FileAct.move`).
-/
import Aesd.Lib.Turns
import Aesd.Server.FileCourses

namespace Aesd.Server

open CString Aesd.Driver Transition Locking Discipline

/-! ## 1. Moves -/

/-- Who appends to the file. -/
inductive Writer
  | client (i : ℕ)
  | stamper
  deriving DecidableEq

/-- A lock of `file_mutex` takes the turn, a `write` appends. -/
def FileAct.move : FileAct → Turns.Move Writer UInt8
  | .process (.client i (.lock .file) _) => .take (.client i)
  | .process (.client i (.write buf data) ret) =>
    .append (.client i) ((Op.write buf data).written ret)
  | .stamper .lock _ => .take .stamper
  | .stamper (.write text) ret => .append .stamper ((StampOp.write text).written ret)
  | _ => .pass

/-- A `write` does what it is asked for: it does not fail, and the stamper's takes all bytes. -/
def FileAct.Whole : FileAct → Prop
  | .process (.client _ (.write _ _) ret) => ret.val ≠ -1
  | .stamper (.write text) ret => ret.val = text.length
  | _ => True

instance decidableWhole : (e : FileAct) → Decidable e.Whole
  | .process (.client _ op ret) =>
    match op with
    | .write _ _ => inferInstanceAs (Decidable (ret.val ≠ -1))
    | .open | .malloc _ | .loadActive | .recv _ _ _ | .realloc _ _ | .lock _ | .unlock _ | .ioctl _
    | .lseek | .read _ _ | .send _ _ | .free _ | .close _ | .setComplete => isTrue trivial
  | .process (.main _ _) => isTrue trivial
  | .process .signal => isTrue trivial
  | .stamper (.write text) ret => inferInstanceAs (Decidable (ret.val = text.length))
  | .stamper .loadActive _ => isTrue trivial
  | .stamper .strftime _ => isTrue trivial
  | .stamper .open _ => isTrue trivial
  | .stamper .lock _ => isTrue trivial
  | .stamper .close _ => isTrue trivial
  | .stamper .unlock _ => isTrue trivial
  | .stamper .sleep _ => isTrue trivial
  | .ending _ _ => isTrue trivial

namespace FileServer

variable {x y : FileServer} {e : FileAct} {es : List FileAct} {h : List (FileServer × FileAct)}
  {junk : ℕ → ℤ} {file : Option (List UInt8)} {ts ts' : List (Writer × List UInt8)}

/-- The turns of a trace, the last turn first. -/
abbrev TurnsOf (es : List FileAct) (ts : List (Writer × List UInt8)) : Prop :=
  Keeps (fun ts e => Turns.act ts (FileAct.move e)) [] es ts

/-- Every move there is, with the state in which it is made: a turn is taken when nobody has the
mutex, and who appends is at its `write`. -/
inductive Moving (x : FileServer) (e : FileAct) : Turns.Move Writer UInt8 → Prop
  | clientTakes {i : ℕ} {ret : Ret} : e = .process (.client i (.lock .file) ret) →
      x.process.holder .file = none → x.stamping = false → Moving x e (.take (.client i))
  | stamperTakes {ret : Ret} : e = .stamper .lock ret → x.process.holder .file = none →
      Moving x e (.take .stamper)
  | clientAppends {i : ℕ} {r : Receiving} {buf : ℕ} {data : List UInt8} {ret : Ret} :
      e = .process (.client i (.write buf data) ret) →
      x.process.thread i = some (.writeCall r) →
      Moving x e (.append (.client i) ((Op.write buf data).written ret))
  | stamperAppends {text : List UInt8} {ret : Ret} : e = .stamper (.write text) ret →
      x.stamper = .writeCall text →
      Moving x e (.append .stamper ((StampOp.write text).written ret))
  | passes : e.move = .pass → Moving x e .pass

theorem Step.moving (hs : x.Step e y) : x.Moving e e.move := by
  cases hs with
  | @main a p hnot hp =>
    cases a with
    | client i op ret => cases hnot
    | _ => exact Moving.passes rfl
  | @client i op ret p hp hlock hanswer =>
    cases hp with
    | @client i pc op ret holder hpc hop hans hactive hlocks =>
      cases op with
      | lock m =>
        cases m with
        | file =>
          cases hlocks with
          | acquire _ hfree => exact Moving.clientTakes rfl hfree (hlock rfl)
        | list => exact Moving.passes rfl
      | write buf data =>
        cases pc with
        | writeCall r => exact Moving.clientAppends rfl hpc
        | _ => cases hop
      | _ => exact Moving.passes rfl
  | @stamper op ret hop hans hactive hlock =>
    cases op with
    | lock => exact Moving.stamperTakes rfl (hlock rfl).1
    | write text =>
      generalize hpc : x.stamper = pc at hop
      cases pc with
      | writeCall timeBuffer =>
        obtain rfl := StampOp.write.inj (Option.some.inj hop)
        exact Moving.stamperAppends rfl hpc
      | _ => cases hop
    | _ => exact Moving.passes rfl
  | ending => exact Moving.passes rfl

/-- The turn is taken when nobody has the mutex. -/
theorem Step.take_free (hs : x.Step e y) {w : Writer} (hw : e.move = .take w) :
    x.process.holder .file = none ∧ (x.stamping = true → w = .stamper) := by
  have hm := hw ▸ hs.moving
  cases hm with
  | clientTakes _ hfree hnot =>
    exact ⟨hfree, fun hstamp => absurd (hnot.symm.trans hstamp) (by simp)⟩
  | stamperTakes _ hfree => exact ⟨hfree, fun _ => rfl⟩

/-! ## 2. Who has the turn -/

/-- Who has `file_mutex` behind a step had it before, or has just locked it. -/
theorem Step.holder (hs : x.Step e y) {i : ℕ} (hi : y.process.holder .file = some (.client i)) :
    (x.process.holder .file = some (.client i)) ∨
      e.move = .take (.client i) := by
  rcases hs.process with ⟨a, ha, hp⟩ | ⟨-, hsame⟩
  · obtain rfl := event?_of_act ha
    generalize y.process = q at hi hp
    cases hp with
    | main hop _ hlocks =>
      rw [Process.mainCall_holder] at hi
      rcases hlocks.of_holder hi with hwas | ⟨heq, -⟩
      · exact Or.inl hwas
      · cases heq
    | @client j pc op ret holder _ _ _ _ hlocks =>
      rcases hlocks.of_holder hi with hwas | ⟨heq, hacq⟩
      · exact Or.inl hwas
      · obtain rfl := Actor.client.inj heq
        obtain rfl := Op.eq_lock_of_action hacq
        exact Or.inr rfl
    | signal => exact Or.inl hi
  · rw [hsame] at hi
    exact Or.inl hi

/-- Who has `file_mutex` has the turn. -/
structure Current (x : FileServer) (ts : List (Writer × List UInt8)) : Prop where
  client : ∀ {i}, x.process.holder .file = some (.client i) →
    Turns.current ts = some (.client i)
  stamper : x.stamping = true → Turns.current ts = some .stamper

/-- The stamper has the mutex behind a step if it had it before or has just locked it. -/
theorem Step.stamping (hs : x.Step e y) (hy : y.stamping = true) :
    x.stamping = true ∨ e.move = .take .stamper := by
  cases hs with
  | @stamper op ret =>
    cases op with
    | lock => exact Or.inr rfl
    | unlock => cases hy
    | _ => exact Or.inl hy
  | _ => exact Or.inl hy

/-- **A step is allowed to the turns**, and who has the mutex has the turn behind it. -/
theorem Current.step (hc : Current x ts) (hr : Run Step (start junk file) h x)
    (hs : x.Step e y) : ∃ ts', Turns.act ts e.move = some ts' ∧ Current y ts' := by
  have hagree := (books_run hr).inv.agree
  have hact : ∃ ts', Turns.act ts e.move = some ts' := by
    generalize hmove : e.move = m
    have hm := hmove ▸ hs.moving
    cases hm with
    | clientTakes | stamperTakes | passes => exact ⟨_, rfl⟩
    | @clientAppends i r buf data ret heq hpc =>
      have hhold : x.process.holder .file = some (.client i) := by
        refine (hagree .file (.client i)).mpr ?_
        rw [Process.holds_of_thread hpc]
        rfl
      obtain ⟨written, rest, rfl⟩ := Turns.exists_of_current (hc.client hhold)
      exact ⟨_, Turns.act_append⟩
    | @stamperAppends text ret heq hpc =>
      have hstamp : x.stamping = true := by
        rw [stamping_run hr, hpc]
        rfl
      obtain ⟨written, rest, rfl⟩ := Turns.exists_of_current (hc.stamper hstamp)
      exact ⟨_, Turns.act_append⟩
  obtain ⟨ts', hts⟩ := hact
  refine ⟨ts', hts, fun {i} hi => ?_, fun hy => ?_⟩
  · rcases hs.holder hi with hwas | htake
    · rcases Turns.current_act hts with hsame | ⟨w, hw, -⟩
      · exact hsame.trans (hc.client hwas)
      · exact absurd (hwas.symm.trans (hs.take_free hw).1) (by simp)
    · rw [htake] at hts
      obtain rfl := Option.some.inj hts
      rfl
  · rcases hs.stamping hy with hwas | htake
    · rcases Turns.current_act hts with hsame | ⟨w, hw, hcur⟩
      · exact hsame.trans (hc.stamper hwas)
      · rw [hcur, (hs.take_free hw).2 hwas]
    · rw [htake] at hts
      obtain rfl := Option.some.inj hts
      rfl

/-! ## 3. What is in the file -/

/-- A step appends to the file what is appended. -/
theorem Step.content (hr : Run Step (start junk file) h x) (hs : x.Step e y)
    (hend : y.ending ≠ .exited) : y.content = x.content ++ e.move.bytes := by
  have hopened := opened_run hr
  have happend : ∀ bytes : List UInt8, x.file.isSome = true →
      (x.file.map fun content => content ++ bytes).getD [] = x.file.getD [] ++ bytes := by
    intro bytes hsome
    obtain ⟨content, hcontent⟩ := Option.isSome_iff_exists.mp hsome
    rw [hcontent]
    rfl
  have hcreate : ∀ val : ℤ, (if val = -1 then x.file else some (x.file.getD [])).getD [] =
      x.file.getD [] := by
    intro val
    split <;> rfl
  have hkeep : ∀ {f : Option (List UInt8)} {m : Turns.Move Writer UInt8},
      f.getD [] = x.file.getD [] → m.bytes = [] → f.getD [] = x.file.getD [] ++ m.bytes := by
    intro f m hf hm
    rw [hf, hm, List.append_nil]
  cases hs with
  | @main a p hnot hp =>
    cases a with
    | client i op ret => cases hnot
    | _ => exact hkeep rfl rfl
  | @client i op ret p hp =>
    show (op.fileAfter x.file ret).getD [] = x.file.getD [] ++ _
    cases hp with
    | @client i pc op ret holder hpc hop =>
      cases op with
      | «open» => exact hkeep (hcreate ret.val) rfl
      | lock m => cases m <;> exact hkeep rfl rfl
      | write buf data =>
        cases pc with
        | writeCall r => exact happend _ (hopened.1 i _ hpc rfl)
        | _ => cases hop
      | _ => exact hkeep rfl rfl
  | @stamper op ret hop =>
    show (op.fileAfter x.file ret).getD [] = x.file.getD [] ++ _
    cases op with
    | «open» => exact hkeep (hcreate ret.val) rfl
    | write text =>
      generalize hpc : x.stamper = pc at hop
      cases pc with
      | writeCall timeBuffer => exact happend _ (hopened.2 (by rw [hpc]; rfl))
      | _ => cases hop
    | _ => exact hkeep rfl rfl
  | @ending op ret hmain hop hjoin =>
    show (op.fileAfter x.file ret).getD [] = x.file.getD [] ++ _
    cases op with
    | unlink =>
      generalize hpc : x.ending = pc at hop hend
      cases pc with
      | unlink => exact absurd rfl hend
      | _ => cases hop
    | _ => exact hkeep rfl rfl

/-- `main` does not come back from its end. -/
theorem Step.exited (hs : x.Step e y) (hx : x.ending = .exited) : y.ending = .exited := by
  cases hs with
  | ending _ hop =>
    rw [hx] at hop
    cases hop
  | _ => exact hx

/-- **The file of a run** that has not removed it. -/
theorem content_run (hr : Run Step (start junk file) h x) : x.ending ≠ .exited →
    x.content = file.getD [] ++ (h.map Prod.snd).flatMap fun e => e.move.bytes := by
  refine hr.rule (Q := fun h x => x.ending ≠ .exited →
    x.content = file.getD [] ++ (h.map Prod.snd).flatMap fun e => e.move.bytes)
    (fun _ => (List.append_nil _).symm) fun {h s e t} hr hq hs hend => ?_
  rw [hs.content hr hend, hq fun hx => hend (hs.exited hx), List.map_append, List.flatMap_append]
  simp

/-! ## 4. What the turns hold -/

/-- What a step writes for a client it appends for it. -/
theorem wrote_event? (i : ℕ) (e : FileAct) :
    Trace.wrote (e.event? i).toList = e.move.bytesOf (.client i) := by
  cases e with
  | process a =>
    cases a with
    | client j op ret =>
      rw [FileAct.event?_client]
      by_cases hj : j = i
      · obtain rfl := hj
        cases op with
        | lock m => cases m <;> simp [Trace.wrote, FileAct.move, Turns.Move.bytesOf, Op.written]
        | _ => simp [Trace.wrote, FileAct.move, Turns.Move.bytesOf, Op.written]
      · cases op with
        | lock m => cases m <;> simp [Trace.wrote, FileAct.move, Turns.Move.bytesOf, hj]
        | _ => simp [Trace.wrote, FileAct.move, Turns.Move.bytesOf, hj]
    | _ => rfl
  | stamper op ret =>
    cases op <;> simp [FileAct.event?, act?, Trace.wrote, FileAct.move, Turns.Move.bytesOf]
  | ending op ret => rfl

theorem wrote_concat (i : ℕ) (es : List FileAct) (e : FileAct) :
    (FileAct.callsOf i (es ++ [e])).wrote =
      (FileAct.callsOf i es).wrote ++ e.move.bytesOf (.client i) := by
  rw [FileAct.callsOf_concat, ← wrote_event?]
  exact List.flatMap_append

/-- What is written for a client is what it appends. -/
theorem wrote_eq (i : ℕ) (es : List FileAct) :
    (FileAct.callsOf i es).wrote = es.flatMap fun e => e.move.bytesOf (.client i) := by
  induction es using List.reverseRecOn with
  | nil => rfl
  | append_singleton es e ih =>
    rw [wrote_concat, ih, List.flatMap_append, List.flatMap_singleton]

/-- What a client has written is what its turns hold. -/
theorem TurnsOf.writtenBy (hts : TurnsOf es ts) (i : ℕ) :
    Turns.writtenBy (.client i) ts = (FileAct.callsOf i es).wrote := by
  rw [Turns.writtenBy_keeps hts, wrote_eq]
  rfl

/-- What the turns hold. -/
structure Filled (es : List FileAct) (x : FileServer) (ts : List (Writer × List UInt8)) :
    Prop where
  /-- A client that is writing has written in its last turn only. -/
  writing : ∀ {i r}, x.process.thread i = some (.writeCall r) →
    Turns.writtenBy (.client i) ts.tail = []
  client : ∀ {i}, ∀ turn ∈ ts, turn.1 = .client i →
    turn.2 = [] ∨ turn.2 = (FileAct.callsOf i es).wrote
  /-- The stamper is about to write in a turn of its own. -/
  stamping : ∀ {text}, x.stamper = .writeCall text → ∃ rest, ts = (.stamper, []) :: rest
  stamper : ∀ turn ∈ ts, turn.1 = .stamper → turn.2 = [] ∨ ∃ time, Time time ∧
    turn.2 <+: timestamp time ∧ ((∀ e ∈ es, e.Whole) → turn.2 = timestamp time)

/-- What the stamper has in hand is a time stamp. -/
theorem carries_run (hr : Run Step (start junk file) h x) : x.stamper.Carries := by
  refine hr.invariant (I := fun x : FileServer => x.stamper.Carries) (by trivial)
    fun {s e t} hi hs => ?_
  cases hs with
  | stamper hop hans => exact hi.step hop hans
  | _ => exact hi

/-- A client at its `write` has the mutex. -/
theorem holder_of_writing (hr : Run Step (start junk file) h x) {i : ℕ} {r : Receiving}
    (hpc : x.process.thread i = some (.writeCall r)) :
    x.process.holder .file = some (.client i) := by
  refine ((books_run hr).inv.agree .file (.client i)).mpr ?_
  rw [Process.holds_of_thread hpc]
  rfl

namespace Filled

variable (hf : Filled (h.map Prod.snd) x ts) (hr : Run Step (start junk file) h x)
  (hts : TurnsOf (h.map Prod.snd) ts) (hs : x.Step e y)
  (hact : Turns.act ts e.move = some ts')
include hf hr hts hs hact

theorem writing_step {i : ℕ} {r : Receiving} (hy : y.process.thread i = some (.writeCall r)) :
    Turns.writtenBy (.client i) ts'.tail = [] := by
  have hstays : ∀ {r}, x.process.thread i = some (.writeCall r) →
      Turns.writtenBy (.client i) ts'.tail = [] := by
    intro r hpc
    rcases Turns.tail_act hact with htail | ⟨w, hw⟩
    · rw [htail]
      exact hf.writing hpc
    · exact absurd ((holder_of_writing hr hpc).symm.trans (hs.take_free hw).1) (by simp)
  rcases hs.process with ⟨a, ha, hp⟩ | ⟨-, hsame⟩
  · obtain rfl := event?_of_act ha
    cases (books_run hr).inv.moves hp i with
    | @calls op ret pc heq hold hop hans hnew =>
      obtain rfl := heq
      rcases Pc.writeCall_of_resume hop (Option.some.inj (hnew.symm.trans hy)) with
        ⟨rfl, r', rfl⟩ | ⟨r', rfl⟩
      · obtain rfl := Option.some.inj hact
        show Turns.writtenBy (.client i) ts = []
        rw [hts.writtenBy i]
        exact ((courses_run hr).thread hold).2.2.2.1
      · exact hstays hold
    | created _ _ hnew => cases hnew.symm.trans hy
    | stays _ hsame => exact hstays (hsame.symm.trans hy)
  · rw [hsame] at hy
    exact hstays hy

omit hr in
theorem client_step {i : ℕ} (turn : Writer × List UInt8) (hturn : turn ∈ ts')
    (hi : turn.1 = .client i) :
    turn.2 = [] ∨ turn.2 = (FileAct.callsOf i (h.map Prod.snd ++ [e])).wrote := by
  rw [wrote_concat]
  have hold : turn ∈ ts → e.move.bytesOf (.client i) = [] →
      turn.2 = [] ∨ turn.2 =
        (FileAct.callsOf i (h.map Prod.snd)).wrote ++ e.move.bytesOf (.client i) := by
    intro hmem hno
    rw [hno, List.append_nil]
    exact hf.client turn hmem hi
  have hm := hs.moving
  generalize e.move = m at hm hact hold ⊢
  cases hm with
  | clientTakes | stamperTakes =>
    obtain rfl := Option.some.inj hact
    rcases List.mem_cons.mp hturn with rfl | hmem
    · exact Or.inl rfl
    · exact hold hmem rfl
  | @clientAppends j r buf data ret _ hpc =>
    obtain ⟨written, rest, rfl, rfl⟩ := Turns.exists_of_append hact
    have hrest : Turns.writtenBy (.client j) rest = [] := hf.writing hpc
    by_cases hij : i = j
    · subst hij
      rcases List.mem_cons.mp hturn with rfl | hmem
      · refine Or.inr ?_
        rw [← hts.writtenBy i, Turns.writtenBy_cons_self hrest, Turns.Move.bytesOf, if_pos rfl]
      · exact Or.inl (Turns.writtenBy_eq_nil_iff.mp hrest turn hmem hi)
    · have hne : Writer.client j ≠ .client i := fun heq => hij (Writer.client.inj heq).symm
      rcases List.mem_cons.mp hturn with rfl | hmem
      · exact absurd hi hne
      · exact hold (List.mem_cons_of_mem _ hmem) (if_neg hne)
  | stamperAppends =>
    obtain ⟨written, rest, rfl, rfl⟩ := Turns.exists_of_append hact
    rcases List.mem_cons.mp hturn with rfl | hmem
    · cases hi
    · exact hold (List.mem_cons_of_mem _ hmem) (by simp [Turns.Move.bytesOf])
  | passes =>
    obtain rfl := Option.some.inj hact
    exact hold hturn rfl

omit hts in
theorem stamping_step {text : List UInt8} (hy : y.stamper = .writeCall text) :
    ∃ rest, ts' = (.stamper, []) :: rest := by
  have hstays : (∀ op ret, e ≠ .stamper op ret) → x.stamper = .writeCall text →
      ∃ rest, ts' = (.stamper, []) :: rest := by
    intro hnot hpc
    have hstamp : x.stamping = true := by
      rw [stamping_run hr, hpc]
      rfl
    have hm := hs.moving
    generalize e.move = m at hm hact
    cases hm with
    | clientTakes _ _ hfalse => exact absurd (hfalse.symm.trans hstamp) (by simp)
    | stamperTakes heq => exact absurd heq (hnot _ _)
    | clientAppends _ hwriting =>
      exact absurd ((holder_of_writing hr hwriting).symm.trans (exclusive_run hr hstamp)) (by simp)
    | stamperAppends heq => exact absurd heq (hnot _ _)
    | passes =>
      obtain rfl := Option.some.inj hact
      exact hf.stamping hpc
  cases hs with
  | main => exact hstays (by simp) hy
  | client => exact hstays (by simp) hy
  | ending => exact hstays (by simp) hy
  | @stamper op ret hop =>
    obtain rfl := StampPc.writeCall_of_resume hop hy
    exact ⟨ts, (Option.some.inj hact).symm⟩

omit hts in
theorem stamper_step (turn : Writer × List UInt8) (hturn : turn ∈ ts')
    (hi : turn.1 = .stamper) : turn.2 = [] ∨ ∃ time, Time time ∧ turn.2 <+: timestamp time ∧
      ((∀ e' ∈ h.map Prod.snd ++ [e], e'.Whole) → turn.2 = timestamp time) := by
  have hold : turn ∈ ts → turn.2 = [] ∨ ∃ time, Time time ∧ turn.2 <+: timestamp time ∧
      ((∀ e' ∈ h.map Prod.snd ++ [e], e'.Whole) → turn.2 = timestamp time) := by
    intro hmem
    rcases hf.stamper turn hmem hi with hnil | ⟨time, htime, hpre, hwhole⟩
    · exact Or.inl hnil
    · exact Or.inr ⟨time, htime, hpre, fun hw =>
        hwhole fun e' he' => hw e' (List.mem_append_left _ he')⟩
  have hm := hs.moving
  generalize e.move = m at hm hact
  cases hm with
  | clientTakes | stamperTakes =>
    obtain rfl := Option.some.inj hact
    rcases List.mem_cons.mp hturn with rfl | hmem
    · exact Or.inl rfl
    · exact hold hmem
  | clientAppends =>
    obtain ⟨written, rest, rfl, rfl⟩ := Turns.exists_of_append hact
    rcases List.mem_cons.mp hturn with rfl | hmem
    · cases hi
    · exact hold (List.mem_cons_of_mem _ hmem)
  | @stamperAppends text ret heq hpc =>
    obtain ⟨rest, rfl⟩ := hf.stamping hpc
    obtain rfl := Option.some.inj (Turns.act_append.symm.trans hact)
    rcases List.mem_cons.mp hturn with rfl | hmem
    · have hcarries := carries_run hr
      rw [hpc] at hcarries
      obtain ⟨time, htime, rfl⟩ := hcarries
      refine Or.inr ⟨time, htime, List.take_prefix _ _, fun hw => ?_⟩
      have hall : ret.val = (timestamp time).length := by
        have hwhole := hw e (List.mem_append_right _ (List.mem_singleton_self e))
        rw [heq] at hwhole
        exact hwhole
      show (timestamp time).take ret.val.toNat = timestamp time
      rw [hall, Int.toNat_natCast, List.take_length]
    · exact hold (List.mem_cons_of_mem _ hmem)
  | passes =>
    obtain rfl := Option.some.inj hact
    exact hold hturn

end Filled

/-- **Every run has its turns.** -/
theorem turns_run (hr : Run Step (start junk file) h x) :
    ∃ ts, TurnsOf (h.map Prod.snd) ts ∧ Current x ts ∧ Filled (h.map Prod.snd) x ts := by
  refine hr.rule (Q := fun h x => ∃ ts, TurnsOf (h.map Prod.snd) ts ∧ Current x ts ∧
    Filled (h.map Prod.snd) x ts) ?_ fun {h s e t} hr hq hs => ?_
  · refine ⟨[], keeps_nil.mpr rfl, ⟨(fun h => by cases h), fun h => by cases h⟩, ?_⟩
    exact ⟨(fun h => by cases h), (fun turn h => absurd h List.not_mem_nil),
      (fun h => by cases h), fun turn h => absurd h List.not_mem_nil⟩
  · obtain ⟨ts, hts, hc, hf⟩ := hq
    obtain ⟨ts', hact, hc'⟩ := hc.step hr hs
    rw [List.map_append]
    exact ⟨ts', keeps_concat.mpr ⟨ts, hts, hact⟩, hc', hf.writing_step hr hts hs hact,
      hf.client_step hts hs hact, hf.stamping_step hr hs hact, hf.stamper_step hr hs hact⟩

/-! ## 5. Lines -/

end FileServer

/-- A line with its newline, or nothing. -/
def Line (bytes : List UInt8) : Prop :=
  bytes = [] ∨ ∃ body, newline ∉ body ∧ bytes = body ++ [newline]

theorem Time.line {time : List UInt8} (ht : Time time) : Line (timestamp time) := by
  refine Or.inr ⟨stampPrefix ++ time, fun hmem => ?_, rfl⟩
  rcases List.mem_append.mp hmem with hpre | htime
  · exact absurd hpre (by decide)
  · exact ht.newline_notMem htime

/-- What comes up to the first newline is a line. -/
theorem line_of_strchr {got : List UInt8} {pos : ℕ} (h : strchr got newline = some pos) :
    Line (got.take (pos + 1)) := by
  obtain ⟨pre, rest, rfl, rfl, hnot⟩ := exists_of_strchr h
  refine Or.inr ⟨pre, hnot, ?_⟩
  simp [List.take_append]

/-- What a client has written is the beginning of the first line received from it. -/
def Begins (got written : List UInt8) : Prop := ∃ line, Line line ∧ line <+: got ∧ written <+: line

theorem begins_nil (got : List UInt8) : Begins got [] :=
  ⟨[], Or.inl rfl, List.nil_prefix, List.nil_prefix⟩

theorem begins_take {got : List UInt8} {pos n : ℕ} (h : strchr got newline = some pos)
    (hn : n ≤ pos + 1) : Begins got (got.take n) :=
  ⟨got.take (pos + 1), line_of_strchr h, List.take_prefix _ _, by
    rw [← Nat.min_eq_left hn, ← List.take_take]
    exact List.take_prefix _ _⟩

theorem Outcome.begins {got written : List UInt8} {seeks : List AesdSeekto} {broke : Prop}
    (h : Outcome got written seeks broke) : Begins got written := by
  cases h with
  | nothing _ hw => exact hw ▸ begins_nil got
  | sought _ _ hw => exact hw ▸ begins_nil got
  | wrote pos hpos _ hw => exact hw ▸ begins_take hpos le_rfl
  | broken pos n hpos _ hn hw => exact hw ▸ begins_take hpos (by omega)

theorem Outcome.line {got written : List UInt8} {seeks : List AesdSeekto} {broke : Prop}
    (h : Outcome got written seeks broke) (hb : ¬ broke) : Line written := by
  cases h with
  | nothing _ hw => exact Or.inl hw
  | sought _ _ hw => exact Or.inl hw
  | wrote pos hpos _ hw => exact hw ▸ line_of_strchr hpos
  | broken pos n _ _ _ _ _ hbroke => exact absurd hbroke hb

theorem Trace.OnCourse.begins {evs : Trace} {pc : Pc} (h : evs.OnCourse pc) :
    Begins evs.got evs.wrote := by
  rw [Trace.OnCourse] at h
  generalize evs.got = got, evs.wrote = wrote at h ⊢
  cases pc with
  | openFile | recvMalloc | whileActive | recvCall | realloc =>
    obtain ⟨-, rfl, -⟩ := h
    exact begins_nil got
  | seekLock | seekIoctl =>
    obtain ⟨-, -, rfl, -⟩ := h
    exact begins_nil got
  | seekUnlock r =>
    obtain ⟨-, seekto, -, rfl, -⟩ := h
    exact begins_nil got
  | writeLock r =>
    obtain ⟨-, -, -, rfl, -⟩ := h
    exact begins_nil got
  | writeCall r =>
    obtain ⟨hfound, -, hlt, rfl, -⟩ := h
    obtain ⟨pos, hpos, hlen⟩ := hfound.length
    exact begins_take hpos (by omega)
  | writeUnlock r =>
    obtain ⟨hfound, -, rfl, -⟩ := h
    obtain ⟨pos, hpos, hlen⟩ := hfound.length
    exact begins_take hpos hlen.le
  | _ => exact Outcome.begins h

/-- Outside its critical section a client has written its whole line or nothing, if no `write`
failed. -/
theorem Trace.OnCourse.line_of_unlocked {evs : Trace} {pc : Pc} (h : evs.OnCourse pc)
    (hpc : pc.holds .file = false) (hb : ¬ evs.Broke) : Line evs.wrote := by
  rw [Trace.OnCourse] at h
  generalize evs.got = got, evs.wrote = wrote at h ⊢
  cases pc with
  | openFile | recvMalloc | whileActive | recvCall | realloc => exact Or.inl h.2.1
  | seekLock => exact Or.inl h.2.2.1
  | writeLock r => exact Or.inl h.2.2.2.1
  | seekIoctl | seekUnlock | writeCall | writeUnlock => cases hpc
  | _ => exact Outcome.line h hb

theorem not_broke {i : ℕ} {es : List FileAct} (h : ∀ e ∈ es, e.Whole) :
    ¬ (FileAct.callsOf i es).Broke := by
  rintro ⟨e, he, buf, data, hop, hval⟩
  rw [FileAct.callsOf_eq] at he
  obtain ⟨a, ha, hae⟩ := List.mem_filterMap.mp he
  have hwhole := h a ha
  cases a with
  | process b =>
    cases b with
    | client j op ret =>
      rw [FileAct.event?_client] at hae
      split at hae
      · obtain rfl := Option.some.inj hae
        dsimp only at hop hval
        rw [hop] at hwhole
        exact hwhole hval
      · cases hae
    | _ => cases hae
  | _ => cases hae

namespace FileServer

variable {x : FileServer} {h : List (FileServer × FileAct)} {junk : ℕ → ℤ}
  {file : Option (List UInt8)}

/-- A client has written the beginning of a line. -/
theorem begins_run (hr : Run Step (start junk file) h x) (i : ℕ) :
    Begins (FileAct.callsOf i (h.map Prod.snd)).got
      (FileAct.callsOf i (h.map Prod.snd)).wrote := by
  have hc := courses_run hr
  cases hpc : x.process.thread i with
  | some pc => exact (hc.thread hpc).begins
  | none =>
    rw [hc.unborn hpc]
    exact begins_nil _

/-- **The file is made of whole lines.**  In every run of the server on a regular file that has not
removed it, whatever the calls answer and whatever the order of the steps:

* a client or the stamper appends only in a turn it has taken by locking `file_mutex`, and the file
  is what was in it at the start and what was appended in the turns, one after the other;
* all that a client has written is in one turn, and it is the beginning of the first line received
  from it;
* the stamper's turns hold beginnings of time stamps;
* if every `write` has done what it was asked for and no client has the mutex, every turn holds a
  whole line or nothing. -/
theorem file_lines (hr : Run Step (start junk file) h x) (hend : x.ending ≠ .exited) :
    ∃ ts, TurnsOf (h.map Prod.snd) ts ∧ x.content = file.getD [] ++ Turns.content ts ∧
      (∀ i, Turns.writtenBy (.client i) ts = (FileAct.callsOf i (h.map Prod.snd)).wrote ∧
        (∀ turn ∈ ts, turn.1 = .client i →
          turn.2 = [] ∨ turn.2 = (FileAct.callsOf i (h.map Prod.snd)).wrote) ∧
        Begins (FileAct.callsOf i (h.map Prod.snd)).got
          (FileAct.callsOf i (h.map Prod.snd)).wrote) ∧
      (∀ turn ∈ ts, turn.1 = .stamper →
        turn.2 = [] ∨ ∃ time, Time time ∧ turn.2 <+: timestamp time) ∧
      ((∀ e ∈ h.map Prod.snd, e.Whole) → x.process.holder .file = none →
        ∀ turn ∈ ts, Line turn.2) := by
  obtain ⟨ts, hts, -, hf⟩ := turns_run hr
  refine ⟨ts, hts, ?_, fun i => ⟨hts.writtenBy i, hf.client, begins_run hr i⟩, ?_, ?_⟩
  · rw [content_run hr hend, Turns.content_keeps hts]
    rfl
  · intro turn hturn hi
    exact (hf.stamper turn hturn hi).imp_right fun ⟨time, ht, hpre, _⟩ => ⟨time, ht, hpre⟩
  · intro hwhole hfree turn hturn
    obtain ⟨w, written⟩ := turn
    cases w with
    | client i =>
      rcases hf.client _ hturn rfl with hnil | hall
      · exact Or.inl hnil
      · rw [hall]
        have hc := courses_run hr
        cases hpc : x.process.thread i with
        | some pc =>
          refine (hc.thread hpc).line_of_unlocked ?_ (not_broke hwhole)
          have hagree := (books_run hr).inv.agree.of_free hfree (.client i)
          rwa [Process.holds_of_thread hpc] at hagree
        | none =>
          rw [hc.unborn hpc]
          exact Or.inl rfl
    | stamper =>
      rcases hf.stamper _ hturn rfl with hnil | ⟨time, ht, -, hstamp⟩
      · exact Or.inl hnil
      · rw [hstamp hwhole]
        exact ht.line

/-- A client is created; the stamper writes a line while the client receives its own, which is
written behind it and sent back with it. -/
def stampedChoices : List Choice :=
  ([{ val := 1 }, { val := 4 }, { ptr := some 0 }, {}] : List Ret).map
      (fun ret => .process (some (.main, ret))) ++
    ([{ val := 1 }, { data := [49] }, { val := 5 }, {}] : List Ret).map .stamper ++
    ([{ val := 6 }, { ptr := some 0 }, { val := 1 }, { val := 3, data := [97, 10, 98] }] :
      List Ret).map (fun ret => .process (some (.client 0, ret))) ++
    ([{ val := 12 }, {}, {}] : List Ret).map .stamper ++
    ([{}, { val := 2 }, {}, {}, {}, { ptr := some 0 }, {},
      { val := 14, data := timestamp [49] ++ [97, 10] }, { val := 14 }, {}] : List Ret).map
      (fun ret => .process (some (.client 0, ret)))

def stamped : List (FileServer × FileAct) × FileServer :=
  played next (start (fun _ => 0) none)
    (stampedChoices ++ [.process (some (.client 0, {}))])

theorem file_lines_stamped : ∃ h x, Run Step (start (fun _ => 0) none) h x ∧
    x.content = timestamp [49] ++ [97, 10] ∧
    ∃ ts, TurnsOf (h.map Prod.snd) ts ∧ x.content = Turns.content ts ∧
      ∀ turn ∈ ts, Line turn.2 := by
  have hrun : Run Step (start (fun _ => 0) none) stamped.1 stamped.2 :=
    Run.of_played step_of_next _ _ (by decide +kernel)
  obtain ⟨ts, hts, hcontent, -, -, hlines⟩ := file_lines hrun (by decide +kernel)
  exact ⟨_, _, hrun, by decide +kernel, ts, hts, hcontent,
    hlines (by decide +kernel) (by decide +kernel)⟩

end FileServer

end Aesd.Server
