/-
# A thread whose calls may fail

The files before this one follow a thread whose calls do not fail.  Here every call may answer
whatever the system can answer (`Conn.Call`): `recv`, `malloc`, `realloc`, `ioctl`, `write` and
`lseek` may fail, `write` may take nothing, and `active` may be cleared at any time.

`Course` is the invariant of all these runs.  To the end of the receive loop it says what `Phase`
says and is kept for the same reasons, so the successful branches are those of
`Server/Receive.lean`.  What is new is how `receive_data` may end (`Outcome`): with nothing done
because no newline was found, or with the seek issued, or with the packet written, or with a part of
it written up to a `write` that failed.
-/
import Aesd.Server.Framing

namespace Aesd.Server

open MachineInt CString Aesd.Driver Transition

/-! ## 1. Calls that may fail -/

/-- One call and any answer to it.  A `recv` takes bytes from the inbox; it returns 0 only at the
end of the stream. -/
structure Conn.Call (c : Conn) (e : Event) (c' : Conn) : Prop where
  op : c.pc.op = some e.1
  answers : e.1.Answers e.2
  inbox : c.inbox = e.1.received e.2 ++ c'.inbox
  endOfStream : (∃ buf offset len, e.1 = .recv buf offset len) → e.2.val = 0 → c.inbox = []
  outbox : c'.outbox = c.outbox ++ e.1.sent e.2
  pc : c'.pc = c.pc.resume e.2

/-- A step is a call. -/
theorem Conn.Step.call {c c' : Conn} {e : Event} (h : c.Step e c') : c.Call e c' := by
  refine ⟨h.op, h.answers, h.inbox, ?_, h.outbox, h.pc⟩
  rintro ⟨buf, offset, len, heq⟩ hval
  refine h.endOfStream ⟨buf, offset, len, heq⟩ ?_
  have ha := h.answers
  rw [heq] at ha
  rcases ha with ⟨-, hnil⟩ | ⟨hlen, -⟩
  · exact hnil
  · exact List.length_eq_zero_iff.mp (by omega)

/-- A call goes one of the ways. -/
theorem Conn.Call.goes {c c' : Conn} {e : Event} (hs : c.Call e c') :
    c.pc.Goes e.1 e.2 c'.pc := by
  rw [hs.pc]
  exact Pc.goes_resume hs.op e.2

/-- **A run without failing calls** is one of the runs here. -/
theorem call_run {c₀ c : Conn} {h : History} (hr : Run Conn.Step c₀ h c) :
    Run Conn.Call c₀ h c := by
  induction hr with
  | nil => exact Run.nil
  | concat _ hs ih => exact ih.concat hs.call

/-- The call an answer leads to, if the system may give it. -/
def Conn.answer (c : Conn) (ret : Ret) : Option (Event × Conn) :=
  match c.pc.op with
  | none => none
  | some op =>
    if op.Answers ret ∧ op.received ret <+: c.inbox ∧
        (op.isRecv = true → ret.val = 0 → c.inbox = []) then
      some ((op, ret), ⟨c.pc.resume ret, c.inbox.drop (op.received ret).length,
        c.outbox ++ op.sent ret⟩)
    else none

theorem Conn.call_of_answer (c : Conn) (ret : Ret) (e : Event) (c' : Conn)
    (h : c.answer ret = some (e, c')) : c.Call e c' := by
  unfold Conn.answer at h
  split at h
  · exact absurd h (by simp)
  · rename_i op hop
    split at h
    · rename_i hcond
      obtain ⟨ha, hin, hend⟩ := hcond
      simp only [Option.some.injEq, Prod.mk.injEq] at h
      obtain ⟨rfl, rfl⟩ := h
      refine ⟨hop, ha, (List.prefix_iff_eq_append.mp hin).symm, ?_, rfl, rfl⟩
      rintro ⟨buf, offset, len, rfl⟩
      exact hend rfl
    · exact absurd h (by simp)

/-- A `write` that fails. -/
def Event.writeFails (e : Event) : Prop := ∃ buf data, e.1 = .write buf data ∧ e.2.val = -1

/-! ## 2. The invariant -/

/-- What `receive_data` leaves when it has received `got`; `broke` says that a `write` failed. -/
inductive Outcome (got written : List UInt8) (seeks : List AesdSeekto) (broke : Prop) : Prop
  | nothing : strchr got newline = none → written = [] → seeks = [] →
      Outcome got written seeks broke
  | sought (seekto : AesdSeekto) : seekCommand got = some seekto → written = [] →
      seeks = [seekto] → Outcome got written seeks broke
  | wrote (pos : ℕ) : strchr got newline = some pos → seekCommand got = none →
      written = got.take (pos + 1) → seeks = [] → Outcome got written seeks broke
  | broken (pos n : ℕ) : strchr got newline = some pos → seekCommand got = none → n ≤ pos →
      written = got.take n → seeks = [] → broke → Outcome got written seeks broke

/-- **The invariant of a client thread**, whatever its calls answer: `got` was received, `written`
was written to the device, the ioctl was called for `seeks`, and `broke` says that a `write`
failed. -/
def Course (got written : List UInt8) (seeks : List AesdSeekto) (broke : Prop) : Pc → Prop
  | .openFile _ => got = [] ∧ written = [] ∧ seeks = []
  | .recvMalloc _ => got = [] ∧ written = [] ∧ seeks = []
  | .whileActive r => (∃ k, Growing r got k) ∧ written = [] ∧ seeks = []
  | .recvCall r => (∃ k, Growing r got k) ∧ written = [] ∧ seeks = []
  | .realloc r => (∃ k, Doubling r got k) ∧ written = [] ∧ seeks = []
  | .seekLock r seekto =>
    Found r got ∧ seekCommand got = some seekto ∧ written = [] ∧ seeks = []
  | .seekIoctl r seekto =>
    Found r got ∧ seekCommand got = some seekto ∧ written = [] ∧ seeks = []
  | .seekUnlock r =>
    Found r got ∧ ∃ seekto, seekCommand got = some seekto ∧ written = [] ∧ seeks = [seekto]
  | .writeLock r =>
    Found r got ∧ seekCommand got = none ∧ r.bytesWritten = 0 ∧ written = [] ∧ seeks = []
  | .writeCall r =>
    Found r got ∧ seekCommand got = none ∧ r.bytesWritten < r.packetLength ∧
      written = got.take r.bytesWritten ∧ seeks = []
  | .writeUnlock r =>
    Found r got ∧ seekCommand got = none ∧ written = got.take r.packetLength ∧ seeks = []
  | _ => Outcome got written seeks broke

section Invariant

variable {got rest written : List UInt8} {seeks : List AesdSeekto} {broke broke' : Prop}

theorem Outcome.mono (h : Outcome got written seeks broke) (hb : broke → broke') :
    Outcome got written seeks broke' := by
  cases h with
  | nothing h1 h2 h3 => exact Outcome.nothing h1 h2 h3
  | sought seekto h1 h2 h3 => exact Outcome.sought seekto h1 h2 h3
  | wrote pos h1 h2 h3 h4 => exact Outcome.wrote pos h1 h2 h3 h4
  | broken pos n h1 h2 h3 h4 h5 h6 => exact Outcome.broken pos n h1 h2 h3 h4 h5 (hb h6)

theorem Handled.outcome (h : Handled got rest written seeks) (broke : Prop) :
    Outcome got written seeks broke := by
  cases h with
  | endOfStream _ h1 h2 h3 => exact Outcome.nothing h1 h2 h3
  | sought seekto _ _ h1 h2 h3 => exact Outcome.sought seekto h1 h2 h3
  | wrote pos h1 _ h2 h3 h4 => exact Outcome.wrote pos h1 h2 h3 h4

/-- What `Phase` says where nothing failed. -/
theorem Phase.course {pc : Pc} (h : Phase got rest written seeks pc) (broke : Prop) :
    Course got written seeks broke pc := by
  cases pc with
  | openFile | recvMalloc | whileActive | recvCall | realloc | seekLock | seekIoctl | seekUnlock
  | writeLock | writeCall | writeUnlock => exact h
  | lseek r => exact h.2.outcome broke
  | recvFree buf ret => exact h.2.outcome broke
  | sendUnlock buf bytesRead => exact h.2.outcome broke
  | seekFailUnlock | writeFailUnlock | sendFailFree | sendFailUnlock => exact h.elim
  | sendMalloc | sendLock | readCall | sendCall | sendFree | closeFile | closeClient | lockList
  | setComplete | unlockList | exited => exact Handled.outcome h broke

/-! ## 3. Every call -/

/-- The loop left without a newline: the flag was cleared, the stream ended or `recv` failed. -/
theorem Growing.leave {r : Receiving} {k : ℕ} (h : Growing r got k) (broke : Prop)
    {r' : Receiving} : Course got [] [] broke r'.finish := by
  have hout : Outcome got [] [] broke := Outcome.nothing h.noLine rfl rfl
  unfold Receiving.finish
  split
  · exact hout
  · split
    · exact hout
    · exact hout

/-- A failed `write` leaves a part of the packet written. -/
theorem Found.broken {r : Receiving} (h : Found r got) (hc : seekCommand got = none)
    (hlt : r.bytesWritten < r.packetLength) (hb : broke) :
    Outcome got (got.take r.bytesWritten) [] broke := by
  obtain ⟨pos, hpos, hlen⟩ := h.length
  exact Outcome.broken pos r.bytesWritten hpos hc (by omega) rfl rfl hb

/-- **The step lemma**: every call keeps the invariant. -/
theorem Course.step {c c' : Conn} {e : Event} (h : Course got written seeks broke c.pc)
    (hs : c.Call e c') :
    Course (got ++ e.1.received e.2) (written ++ e.1.written e.2) (seeks ++ e.1.seeks)
      (broke ∨ e.writeFails) c'.pc := by
  obtain ⟨op, ret⟩ := e
  obtain ⟨hop, hans, -, -, -, hpc⟩ := hs
  simp only at hop hans hpc ⊢
  rw [hpc]
  generalize c.pc = pc at hop h
  cases pc with
  | openFile junk =>
    obtain rfl := Option.some.inj hop
    obtain ⟨rfl, rfl, rfl⟩ := h
    rw [Pc.resume]
    split
    · exact Outcome.nothing rfl rfl rfl
    · exact ⟨rfl, rfl, rfl⟩
  | recvMalloc junk =>
    obtain rfl := Option.some.inj hop
    obtain ⟨rfl, rfl, rfl⟩ := h
    rw [Pc.resume]
    split
    · exact Outcome.nothing rfl rfl rfl
    · exact ⟨⟨0, growing_init junk _⟩, rfl, rfl⟩
  | whileActive r =>
    obtain rfl := Option.some.inj hop
    obtain ⟨⟨k, hg⟩, rfl, rfl⟩ := h
    simp only [Op.received, List.append_nil]
    rw [Pc.resume]
    split
    · exact ⟨⟨k, hg⟩, rfl, rfl⟩
    · exact hg.leave _
  | recvCall r =>
    obtain rfl := Option.some.inj hop
    obtain ⟨⟨k, hg⟩, rfl, rfl⟩ := h
    rw [Pc.resume]
    split
    · rename_i hpos
      exact (hg.received hans hpos []).course _
    · rename_i hneg
      have hdata : ret.data = [] := by
        rcases hans with ⟨-, hnil⟩ | ⟨hval, -⟩
        · exact hnil
        · exact List.length_eq_zero_iff.mp (by omega)
      simp only [Op.received, hdata, List.append_nil]
      exact hg.leave _
  | seekLock r seekto =>
    obtain rfl := Option.some.inj hop
    obtain ⟨hf, hc, rfl, rfl⟩ := h
    simp only [Op.received, List.append_nil]
    exact ⟨hf, hc, rfl, rfl⟩
  | seekIoctl r seekto =>
    obtain rfl := Option.some.inj hop
    obtain ⟨hf, hc, rfl, rfl⟩ := h
    simp only [Op.received, List.append_nil]
    rw [Pc.resume]
    split
    · exact Outcome.sought seekto hc rfl rfl
    · exact ⟨hf, seekto, hc, rfl, rfl⟩
  | seekUnlock r =>
    obtain rfl := Option.some.inj hop
    obtain ⟨hf, seekto, hc, rfl, rfl⟩ := h
    rw [hf.resume_seekUnlock]
    simp only [Op.received, List.append_nil]
    exact Outcome.sought seekto hc rfl rfl
  | writeLock r =>
    obtain rfl := Option.some.inj hop
    obtain ⟨hf, hc, hz, rfl, rfl⟩ := h
    have h1 := @Found.whileUnwritten r got [] hf hc (by rw [hz]; exact Nat.zero_le _)
    rw [hz, List.take_zero] at h1
    simp only [Op.received, List.append_nil]
    exact h1.course _
  | writeCall r =>
    obtain rfl := Option.some.inj hop
    obtain ⟨hf, hc, hlt, rfl, rfl⟩ := h
    simp only [Op.received, List.append_nil]
    by_cases hfail : ret.val = -1
    · have hnil : (Op.write r.buf ((r.content.drop r.bytesWritten).take
          (r.packetLength - r.bytesWritten))).written ret = [] := by
        rw [Op.written, hfail]
        exact List.take_zero
      rw [hnil, List.append_nil, Pc.resume, if_pos hfail]
      exact hf.broken hc hlt (Or.inr ⟨_, _, rfl, hfail⟩)
    · exact (@Found.writeCall r got [] hf hc ret _ rfl hans hfail hlt.le).course _
  | writeUnlock r =>
    obtain rfl := Option.some.inj hop
    obtain ⟨hf, hc, rfl, rfl⟩ := h
    obtain ⟨pos, hpos, hlen⟩ := hf.length
    rw [hf.resume_writeUnlock]
    simp only [Op.received, Op.written, List.append_nil]
    exact Outcome.wrote pos hpos hc (by rw [hlen]) rfl
  | realloc r =>
    obtain rfl := Option.some.inj hop
    obtain ⟨⟨k, hd⟩, rfl, rfl⟩ := h
    simp only [Op.received, List.append_nil]
    rw [Pc.resume]
    cases hp : ret.ptr with
    | none => exact Outcome.nothing hd.noLine rfl rfl
    | some temp => exact ⟨⟨k + 1, hd.growing hans hp⟩, rfl, rfl⟩
  | lseek | recvFree | sendMalloc | readCall =>
    have hout : Outcome got written seeks (broke ∨ Event.writeFails (op, ret)) :=
      Outcome.mono h Or.inl
    obtain rfl := Option.some.inj hop
    simp only [Op.received, Op.written, Op.seeks, List.append_nil]
    rw [Pc.resume]
    split
    · exact hout
    · exact hout
  | sendCall buf chunk totalSent =>
    have hout : Outcome got written seeks (broke ∨ Event.writeFails (op, ret)) :=
      Outcome.mono h Or.inl
    obtain rfl := Option.some.inj hop
    simp only [Op.received, Op.written, Op.seeks, List.append_nil]
    rw [Pc.resume]
    split
    · exact hout
    · split
      · exact hout
      · exact hout
  | seekFailUnlock | writeFailUnlock | sendLock | sendFailFree | sendFailUnlock | sendUnlock
  | sendFree | closeFile | closeClient | lockList | setComplete | unlockList =>
    obtain rfl := Option.some.inj hop
    simp only [Op.received, Op.written, Op.seeks, List.append_nil]
    exact Outcome.mono h Or.inl
  | exited => exact absurd hop (by simp [Pc.op])

/-- Behind `receive_data` there is an outcome. -/
theorem Course.outcome {pc : Pc} (h : Course got written seeks broke pc)
    (hpc : pc.receiving = false) : Outcome got written seeks broke := by
  cases pc with
  | sendMalloc | sendLock | readCall | sendCall | sendFailFree | sendFailUnlock | sendUnlock
  | sendFree | closeFile | closeClient | lockList | setComplete | unlockList | exited => exact h
  | _ => exact absurd hpc (by simp [Pc.receiving])

end Invariant

/-! ## 4. Runs -/

/-- A `write` of the run failed. -/
def Breaks (h : History) : Prop := ∃ ue ∈ h, ue.2.writeFails

theorem breaks_concat (h : History) (c : Conn) (e : Event) :
    Breaks (h ++ [(c, e)]) ↔ Breaks h ∨ e.writeFails := by
  simp [Breaks, or_and_right, exists_or]

/-- **The run lemma**, from the start of `receive_data`. -/
theorem course_run {junk : ℤ} {stream : List UInt8} {h : History} {c : Conn}
    (hr : Run Conn.Call (Conn.start junk stream) h c) :
    Course (received h) (written h) (seeks h) (Breaks h) c.pc ∧ stream = received h ++ c.inbox := by
  induction hr with
  | nil => exact ⟨⟨rfl, rfl, rfl⟩, rfl⟩
  | concat _ hs ih =>
    obtain ⟨hc, hst⟩ := ih
    rw [received_concat, written_concat, seeks_concat, propext (breaks_concat _ _ _)]
    exact ⟨hc.step hs, by rw [List.append_assoc, ← hs.inbox, ← hst]⟩

end Aesd.Server
