/-
# Transfers in parts

`receive_data` writes a packet to the device, and `send_data` sends every chunk it reads from there,
by calls that may take less than they are offered.  The first counts with one offset; the second has
a loop inside a loop and starts to count anew with each chunk.

Both are followed through whole runs of a client thread whose calls may answer anything.  The bytes
of a packet count as supplied when the lock for the loop is taken, those of a chunk when it is read.
`Pc.Uploading` and `Pc.Downloading` say at each program point how much was supplied and accepted;
every call keeps them and makes its request in its place.
-/
import Aesd.FinderApp.Writer
import Aesd.Lib.Transfer
import Aesd.Server.Resources

namespace Aesd.Server

open CString Aesd.Driver Transition Transfer

variable {h : History} {c₀ c c' : Conn} {e : Event} {sup acc : List UInt8} {r : Receiving}

/-! ## 1. The write loop of `receive_data` -/

def uploadOf : Conn × Event → Option (Transfer.Event UInt8)
  | (c, (.lock _, _)) =>
    match c.pc with
    | .writeLock r => some (.supply (r.content.take r.packetLength))
    | _ => none
  | (_, (.write _ data, ret)) => some (.request data (answer ret.val))
  | _ => none

/-- The transfer of the packet to the device. -/
def uploads (h : History) : List (Transfer.Event UInt8) := h.filterMap uploadOf

/-- **The invariant of the write loop.** -/
def Pc.Uploading : Pc → List UInt8 → List UInt8 → Prop
  | openFile _, sup, acc => sup = [] ∧ acc = []
  | recvMalloc _, sup, acc => sup = [] ∧ acc = []
  | whileActive _, sup, acc => sup = [] ∧ acc = []
  | recvCall _, sup, acc => sup = [] ∧ acc = []
  | realloc _, sup, acc => sup = [] ∧ acc = []
  | writeLock r, sup, acc =>
    (r.bytesWritten = 0 ∧ r.packetLength ≤ r.content.length) ∧ sup = [] ∧ acc = []
  | writeCall r, sup, acc =>
    r.bytesWritten < r.packetLength ∧ r.packetLength ≤ r.content.length ∧
      Partway [] (r.content.take r.packetLength) r.bytesWritten sup acc
  | writeUnlock r, sup, acc => sup = r.content.take r.packetLength ∧ acc = sup
  | _, _, _ => True

/-- The head of the write loop. -/
theorem Receiving.Writes.uploading {pc : Pc} (hw : r.Writes pc)
    (hle : r.packetLength ≤ r.content.length)
    (hp : Partway [] (r.content.take r.packetLength) r.bytesWritten sup acc) :
    pc.Uploading sup acc := by
  cases hw with
  | more hlt => exact ⟨hlt, hle, hp⟩
  | done hge =>
    refine ⟨hp.supplied, hp.all ?_⟩
    rw [List.length_take]
    omega

/-- **The step lemma** of the write loop. -/
theorem Pc.Uploading.step (hu : c.pc.Uploading sup acc) (hs : c.Call e c') :
    Tracked c'.pc.Uploading sup acc (uploadOf (c, e)) := by
  obtain ⟨pc, inbox, outbox⟩ := c
  obtain ⟨op, ret⟩ := e
  have hans : op.Answers ret := hs.answers
  have hgoes : pc.Goes op ret c'.pc := hs.goes
  generalize c'.pc = pc' at hgoes ⊢
  cases hgoes with
  | opened | recvMalloced | active | realloced => exact Tracked.silent hu
  | received _ ht =>
    refine Tracked.silent ?_
    cases ht with
    | packet r' pos _ hpos hlen hzero =>
      exact ⟨⟨hzero, hlen ▸ length_packet_le hpos⟩, hu⟩
    | seek => trivial
    | full | room => exact hu
  | inactive _ hf | ended _ hf | seekUnlocked hf | writeUnlocked hf =>
    refine Tracked.silent ?_
    cases hf <;> trivial
  | @writeLocked r _ _ hw =>
    obtain ⟨⟨hzero, hle⟩, rfl, rfl⟩ := hu
    refine Tracked.event rfl (hw.uploading hle ?_)
    rw [hzero]
    exact Partway.start rfl _
  | @writeFailed r _ hfail =>
    obtain ⟨hlt, hle, hp⟩ := hu
    rw [uploadOf, ← List.drop_take, hfail, answer_neg_one]
    refine Tracked.event (hp.request ?_ fun n hn => absurd hn (by simp)) trivial
    rw [List.length_take]
    omega
  | @wrote r _ _ hne hw =>
    obtain ⟨hlt, hle, hp⟩ := hu
    obtain ⟨h0, hcount⟩ := hans.resolve_left hne
    rw [List.length_take, List.length_drop] at hcount
    rw [uploadOf, ← List.drop_take, answer_of_ne hne]
    refine Tracked.event (hp.request ?_ ?_) (hw.uploading hle (hp.accept (some ret.val.toNat)))
    · rw [List.length_take]
      omega
    · intro n hn
      rw [← Option.some.inj hn, List.length_take]
      omega
  | _ => exact Tracked.silent trivial

/-! ## 2. The loops of `send_data` -/

def downloadOf : Conn × Event → Option (Transfer.Event UInt8)
  | (_, (.read _ _, ret)) => some (.supply ret.data)
  | (_, (.send _ data, ret)) => some (.request data (answer ret.val))
  | _ => none

/-- The transfer of what is read to the client. -/
def downloads (h : History) : List (Transfer.Event UInt8) := h.filterMap downloadOf

/-- **The invariant of the loops.**  Behind a `send` that failed nothing is claimed any more. -/
def Pc.Downloading : Pc → List UInt8 → List UInt8 → Prop
  | sendCall _ chunk totalSent, sup, acc =>
    totalSent < chunk.length ∧ chunk.length ≤ 1024 ∧
      ∃ before, Partway before chunk totalSent sup acc
  | sendFailFree _, _, _ => True
  | sendFailUnlock, _, _ => True
  | sendFree _ _, _, _ => True
  | closeFile, _, _ => True
  | closeClient, _, _ => True
  | lockList, _, _ => True
  | setComplete, _, _ => True
  | unlockList, _, _ => True
  | exited, _, _ => True
  | _, sup, acc => acc = sup

/-- **The step lemma** of the loops. -/
theorem Pc.Downloading.step (hd : c.pc.Downloading sup acc) (hs : c.Call e c') :
    Tracked c'.pc.Downloading sup acc (downloadOf (c, e)) := by
  obtain ⟨op, ret⟩ := e
  have hans : op.Answers ret := hs.answers
  have hgoes : c.pc.Goes op ret c'.pc := hs.goes
  generalize c.pc = pc at hd hgoes
  generalize c'.pc = pc' at hgoes ⊢
  cases hgoes with
  | readChunk hpos =>
    obtain ⟨hval, hle⟩ := hans.resolve_left fun hfail => by omega
    exact Tracked.event hd ⟨by omega, hle, sup, Partway.start hd _⟩
  | readEnded hend =>
    have hdata : ret.data = [] := by
      rcases hans with ⟨-, hnil⟩ | ⟨hval, -⟩
      · exact hnil
      · exact List.length_eq_zero_iff.mp (by omega)
    refine Tracked.event hd ?_
    rw [Transfer.Event.supplied, Transfer.Event.accepted, hdata, List.append_nil,
      List.append_nil]
    exact hd
  | sendFailed hfail =>
    obtain ⟨hlt, hle, before, hp⟩ := hd
    rw [downloadOf, hfail, answer_neg_one]
    exact Tracked.event (hp.request hlt fun n hn => absurd hn (by simp)) trivial
  | @sentPart buf chunk totalSent _ hne hmore =>
    obtain ⟨hlt, hle, before, hp⟩ := hd
    rw [downloadOf, answer_of_ne hne]
    refine Tracked.event (hp.request hlt ?_)
      ⟨hmore, hle, before, hp.accept (some ret.val.toNat)⟩
    intro n hn
    rw [← Option.some.inj hn]
    omega
  | @sentChunk buf chunk totalSent _ hne hall =>
    obtain ⟨hlt, hle, before, hp⟩ := hd
    obtain ⟨h0, hcount⟩ := hans.resolve_left hne
    rw [List.length_drop] at hcount
    rw [downloadOf, answer_of_ne hne]
    refine Tracked.event (hp.request hlt ?_) ((hp.accept (some ret.val.toNat)).all hall)
    intro n hn
    rw [← Option.some.inj hn]
    omega
  | received _ ht =>
    refine Tracked.silent ?_
    cases ht <;> exact hd
  | inactive _ hf | ended _ hf | seekUnlocked hf | writeUnlocked hf =>
    refine Tracked.silent ?_
    cases hf <;> exact hd
  | writeLocked hw | wrote _ hw =>
    refine Tracked.silent ?_
    cases hw <;> exact hd
  -- behind the loops nothing is claimed, and before them everything is accepted
  | openFailed | recvMallocFailed | recvFreedFailed | sendMallocFailed | sendFailFreed
  | sendFailUnlocked | sendUnlocked | sendFreed | fileClosed | clientClosed | listLocked
  | completed | listUnlocked => exact Tracked.silent trivial
  | _ => exact Tracked.silent hd

/-! ## 3. How the loops are left -/

/-- Where a loop was left by the call `e` made at `p`: what that call was and what it returned. -/
def Pc.LeftBy : Pc → Pc → Event → Prop
  | writeFailUnlock r, p, e =>
    p = .writeCall r ∧ (∃ data, e.1 = .write r.buf data) ∧ e.2.val = -1
  | sendFailFree buf, p, e =>
    (∃ chunk totalSent, p = .sendCall buf chunk totalSent) ∧ (∃ data, e.1 = .send buf data) ∧
      e.2.val = -1
  | sendUnlock buf bytesRead, p, e =>
    p = .readCall buf ∧ e.1 = .read buf 1024 ∧ e.2.val = bytesRead ∧
      (bytesRead = 0 ∨ bytesRead = -1)
  | _, _, _ => True

/-- **A loop is left** by the end of its data or by a call that returned -1. -/
theorem Conn.Call.leftBy (hs : c.Call e c') : c'.pc.LeftBy c.pc e := by
  obtain ⟨op, ret⟩ := e
  have hans : op.Answers ret := hs.answers
  have hgoes : c.pc.Goes op ret c'.pc := hs.goes
  generalize c.pc = pc at hgoes ⊢
  generalize c'.pc = pc' at hgoes ⊢
  cases hgoes with
  | writeFailed hfail => exact ⟨rfl, ⟨_, rfl⟩, hfail⟩
  | sendFailed hfail => exact ⟨⟨_, _, rfl⟩, ⟨_, rfl⟩, hfail⟩
  | readEnded hend =>
    refine ⟨rfl, rfl, rfl, ?_⟩
    rcases hans with ⟨hfail, -⟩ | ⟨hval, -⟩
    · exact Or.inr hfail
    · exact Or.inl (by omega)
  | inactive _ hf | ended _ hf | seekUnlocked hf | writeUnlocked hf => cases hf <;> trivial
  | received _ ht => cases ht <;> trivial
  | writeLocked hw | wrote _ hw => cases hw <;> trivial
  | _ => trivial

/-! ## 4. The loops as a whole -/

/-- The bytes handed to the client in a run. -/
def sent (h : History) : List UInt8 := h.flatMap fun ue => ue.2.1.sent ue.2.2

theorem outbox_eq_sent (hr : Run Conn.Call c₀ h c) : c.outbox = c₀.outbox ++ sent h := by
  induction hr with
  | nil => exact (List.append_nil _).symm
  | concat hr hs ih =>
    rw [hs.outbox, ih, sent, sent, List.flatMap_append, List.flatMap_singleton,
      List.append_assoc]

theorem accepted_uploads (h : History) : accepted (uploads h) = written h := by
  refine accepted_filterMap ?_ h
  rintro ⟨⟨pc, inbox, outbox⟩, op, ret⟩
  cases op with
  | write buf data =>
    show data.take ((answer ret.val).getD 0) = data.take ret.val.toNat
    rw [getD_answer]
  | lock m =>
    cases pc with
    | writeLock r => rfl
    | _ => rfl
  | _ => rfl

theorem accepted_downloads (h : History) : accepted (downloads h) = sent h := by
  refine accepted_filterMap ?_ h
  rintro ⟨c, op, ret⟩
  cases op with
  | send buf data =>
    show data.take ((answer ret.val).getD 0) = data.take ret.val.toNat
    rw [getD_answer]
  | _ => rfl

/-- **The write loop of `receive_data`**, after a history that has led to `c`. -/
structure Uploads (h : History) (c : Conn) : Prop where
  /-- Every request is for bytes that come next, and for at least one. -/
  faithful : Faithful (uploads h)
  acceptedPrefix : accepted (uploads h) <+: supplied (uploads h)
  /-- What was accepted is what is on the device. -/
  device : accepted (uploads h) = written h
  /-- What a `write` is about to ask for is the rest of the packet. -/
  inside : ∀ r, c.pc = .writeCall r → r.bytesWritten < r.packetLength ∧
    r.packetLength ≤ r.content.length ∧ supplied (uploads h) = r.content.take r.packetLength ∧
    accepted (uploads h) = r.content.take r.bytesWritten
  /-- The loop ends normally with the whole packet accepted. -/
  ended : ∀ r, c.pc = .writeUnlock r → supplied (uploads h) = r.content.take r.packetLength ∧
    accepted (uploads h) = r.content.take r.packetLength
  /-- It is left with an error by a `write` that returned -1. -/
  failed : ∀ r, c.pc = .writeFailUnlock r → ∃ h' c' data ret,
    h = h' ++ [(c', (.write r.buf data, ret))] ∧ c'.pc = .writeCall r ∧ ret.val = -1

/-- **The loops of `send_data`**, after a history that has led to `c`. -/
structure Downloads (h : History) (c : Conn) : Prop where
  /-- Every request is for bytes that come next, and for at least one; the file is read on when
  every byte of the last chunk is accepted. -/
  faithful : Faithful (downloads h)
  acceptedPrefix : accepted (downloads h) <+: supplied (downloads h)
  /-- What was accepted is what was handed to the client. -/
  client : accepted (downloads h) = c.outbox
  /-- What a `send` is about to ask for is the rest of the chunk, which is the rest of all that was
  read. -/
  inside : ∀ buf chunk totalSent, c.pc = .sendCall buf chunk totalSent →
    totalSent < chunk.length ∧ chunk.length ≤ 1024 ∧
      supplied (downloads h) = accepted (downloads h) ++ chunk.drop totalSent
  /-- The loops end normally, at the end of the file, with everything that was read accepted; the
  other way out to the same point is a `read` that returned -1. -/
  ended : ∀ buf bytesRead, c.pc = .sendUnlock buf bytesRead →
    accepted (downloads h) = supplied (downloads h) ∧ (bytesRead = 0 ∨ bytesRead = -1) ∧
      ∃ h' c' ret, h = h' ++ [(c', (.read buf 1024, ret))] ∧ ret.val = bytesRead
  /-- They are left with an error in between by a `send` that returned -1. -/
  failed : ∀ buf, c.pc = .sendFailFree buf → ∃ h' c' data ret,
    h = h' ++ [(c', (.send buf data, ret))] ∧
      (∃ chunk totalSent, c'.pc = .sendCall buf chunk totalSent) ∧ ret.val = -1

/-- The last call of a run that has just left a loop. -/
theorem exists_leftBy (hr : Run Conn.Call c₀ h c) (hne : c.pc ≠ c₀.pc) :
    ∃ h' c' e, h = h' ++ [(c', e)] ∧ c.pc.LeftBy c'.pc e := by
  obtain ⟨h', c', e, hh, -, hs⟩ := hr.exists_last fun heq => hne (by rw [heq])
  exact ⟨h', c', e, hh, hs.leftBy⟩

/-- **The run lemma** of the write loop, from the start of the thread or of the loop. -/
theorem uploads_run (h0 : c₀.pc.Uploading [] []) (hfail : ∀ r, c₀.pc ≠ .writeFailUnlock r)
    (hr : Run Conn.Call c₀ h c) : Uploads h c := by
  obtain ⟨hfaithful, hu⟩ := tracked_run uploadOf (fun c : Conn => c.pc.Uploading) h0
    Pc.Uploading.step hr
  refine ⟨hfaithful, hfaithful.accepted_prefix, accepted_uploads h, ?_, ?_, ?_⟩
  · intro r hpc
    rw [hpc] at hu
    obtain ⟨hlt, hle, hp⟩ := hu
    refine ⟨hlt, hle, hp.supplied, ?_⟩
    have hacc := hp.accepted
    rwa [List.nil_append, List.take_take, Nat.min_eq_left hlt.le] at hacc
  · intro r hpc
    rw [hpc] at hu
    obtain ⟨hsup, hacc⟩ := hu
    exact ⟨hsup, hacc.trans hsup⟩
  · intro r hpc
    obtain ⟨h', c', ⟨op, ret⟩, hh, hleft⟩ := exists_leftBy hr (hpc ▸ (hfail r).symm)
    rw [hpc] at hleft
    obtain ⟨hc', ⟨data, rfl⟩, hval⟩ := hleft
    exact ⟨h', c', data, ret, hh, hc', hval⟩

/-- **The run lemma** of the loops of `send_data`. -/
theorem downloads_run {junk : ℤ} {stream : List UInt8}
    (hr : Run Conn.Call (Conn.created junk stream) h c) : Downloads h c := by
  have h0 : (Pc.openFile junk).Downloading [] [] := rfl
  obtain ⟨hfaithful, hd⟩ := tracked_run downloadOf (fun c : Conn => c.pc.Downloading) h0
    Pc.Downloading.step hr
  refine ⟨hfaithful, hfaithful.accepted_prefix, ?_, ?_, ?_, ?_⟩
  · rw [accepted_downloads, outbox_eq_sent hr, List.nil_append]
  · intro buf chunk totalSent hpc
    rw [hpc] at hd
    obtain ⟨hlt, hle, before, hp⟩ := hd
    refine ⟨hlt, hle, ?_⟩
    rw [downloads, hp.supplied, hp.accepted, List.append_assoc, List.take_append_drop]
  · intro buf bytesRead hpc
    rw [hpc] at hd
    obtain ⟨h', c', ⟨op, ret⟩, hh, hleft⟩ := exists_leftBy hr (by rw [hpc]; intro heq; cases heq)
    rw [hpc] at hleft
    obtain ⟨-, rfl, hval, hend⟩ := hleft
    exact ⟨hd, hend, h', c', ret, hh, hval⟩
  · intro buf hpc
    obtain ⟨h', c', ⟨op, ret⟩, hh, hleft⟩ := exists_leftBy hr (by rw [hpc]; intro heq; cases heq)
    rw [hpc] at hleft
    obtain ⟨hc', ⟨data, rfl⟩, hval⟩ := hleft
    exact ⟨h', c', data, ret, hh, hc', hval⟩

/-- **Partial transfers lose and repeat nothing.**  Whatever the calls answer, the three loops make
every request for bytes that come next, have a prefix of their data accepted at any time and all of
it where they end normally, and are left with an error only by a call that returned -1: the loops of
a client thread in every run, the write loop also on any buffer it may be entered with, and the loop
of `writer.c`, where an EINTR leads to the same request again. -/
theorem partial_transfers :
    (∀ junk stream h c, Run Conn.Call (Conn.created junk stream) h c →
      Uploads h c ∧ Downloads h c) ∧
    (∀ (r : Receiving) inbox outbox h c, r.bytesWritten = 0 →
      r.packetLength ≤ r.content.length → Run Conn.Call ⟨.writeLock r, inbox, outbox⟩ h c →
        Uploads h c) ∧
    ∀ argv h p, Run FinderApp.Pc.Step (.openlog argv) h p → FinderApp.Writes argv h p := by
  refine ⟨?_, ?_, ?_⟩
  · intro junk stream h c hr
    have h0 : (Pc.openFile junk).Uploading [] [] := ⟨rfl, rfl⟩
    exact ⟨uploads_run h0 (fun r heq => by cases heq) hr, downloads_run hr⟩
  · intro r inbox outbox h c hzero hle hr
    have h0 : (Pc.writeLock r).Uploading [] [] := ⟨⟨hzero, hle⟩, rfl, rfl⟩
    exact uploads_run h0 (fun r heq => by cases heq) hr
  · intro argv h p hr
    exact FinderApp.writes_run hr

/-- Every loop in two steps, that of `writer.c` interrupted in between. -/
theorem partial_transfers_halves :
    (∃ h c, Run Conn.Call (Conn.created 0 [97, 98, 10]) h c ∧ c.pc = .sendUnlock 1 0 ∧
      (Uploads h c ∧ Downloads h c) ∧ written h = [97, 98, 10] ∧ c.outbox = [97, 98, 10]) ∧
    (∃ r h c, Run Conn.Call ⟨.writeLock r, [], []⟩ h c ∧ c.pc = .writeFailUnlock r ∧
      Uploads h c) ∧
    ∃ argv h p, Run FinderApp.Pc.Step (.openlog argv) h p ∧ p = .exited 0 ∧
      FinderApp.Writes argv h p := by
  have hthread := Run.of_played Conn.call_of_answer (Conn.created 0 [97, 98, 10])
    [{ val := 3 }, { ptr := some 0 }, { val := 1 }, { val := 3, data := [97, 98, 10] }, {},
      { val := 1 }, { val := 2 }, {}, {}, {}, { ptr := some 1 }, {},
      { val := 3, data := [97, 98, 10] }, { val := 2 }, { val := 1 }, {}] (by decide +kernel)
  have hloop := Run.of_played Conn.call_of_answer
    ⟨.writeLock ⟨1024, 1, 1, false, 1, 0, 0, [10]⟩, [], []⟩ [{}, { val := -1 }] (by decide)
  have hwriter := Run.of_played FinderApp.Pc.step_of_next
    (.openlog [⟨⟨[119], by decide⟩, by decide⟩, ⟨⟨[102], by decide⟩, by decide⟩,
      ⟨⟨[97, 98, 99], by decide⟩, by decide⟩])
    [{}, { val := 3 }, { val := 1 }, { val := -1, errno := 4 }, {}, { val := 2 }, {}, {}, {}]
    (by decide)
  exact ⟨⟨_, _, hthread, by decide +kernel, partial_transfers.1 _ _ _ _ hthread,
      by decide +kernel, by decide +kernel⟩,
    ⟨_, _, _, hloop, by decide, partial_transfers.2.1 _ _ _ _ _ rfl (by decide) hloop⟩,
    ⟨_, _, _, hwriter, by decide, partial_transfers.2.2 _ _ _ hwriter⟩⟩

end Aesd.Server
