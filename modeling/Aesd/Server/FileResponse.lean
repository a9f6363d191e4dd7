/-
# Responses from the file

On a regular file a seek command fails, so a response is read from the start of the file.  A
client reads with `file_mutex` held: nothing is appended meanwhile, and when it comes to the end it
has sent what was in the file at that time, the line it wrote included
(`FileServer.file_responses`).

`Pc.Fetched` says at each point what was read of the file, `Pc.Served` what was written to it.  What
was sent of what was read is `Pc.Downloading`.
-/
import Aesd.Server.FileLines
import Aesd.Server.Transfers

namespace Aesd.Server

open CString Aesd.Driver Transition Transfer

/-! ## 1. Reading and sending -/

/-- The bytes a call takes from the file. -/
def Op.fetched : Op → Ret → List UInt8
  | read _ _, r => r.data
  | _, _ => []

/-- The bytes taken from the file. -/
def Trace.fetched (evs : Trace) : List UInt8 := evs.flatMap fun e => e.1.fetched e.2

@[simp] theorem Trace.fetched_concat {evs : Trace} (e : Event) :
    Trace.fetched (evs ++ [e]) = evs.fetched ++ e.1.fetched e.2 := by
  simp [Trace.fetched]

/-- What is sent is what was read, as far as it got. -/
theorem Pc.Downloading.call {pc : Pc} {sup acc : List UInt8} {op : Op} {ret : Ret}
    (hd : pc.Downloading sup acc) (hpre : acc <+: sup) (hop : pc.op = some op)
    (hans : op.Answers ret) :
    (pc.resume ret).Downloading (sup ++ op.fetched ret) (acc ++ op.sent ret) ∧
      acc ++ op.sent ret <+: sup ++ op.fetched ret := by
  have ht := Pc.Downloading.step (c := ⟨pc, op.received ret, []⟩) hd (Pc.call hop hans)
  cases op with
  | read buf count =>
    cases ht with
    | event hsupply hd' =>
      have hall : acc = sup := hsupply
      refine ⟨hd', ?_⟩
      rw [hall]
      exact (List.append_nil sup).symm ▸ List.prefix_append sup ret.data
  | send buf data =>
    cases ht with
    | event hrequest hd' =>
      obtain ⟨-, hnext, -⟩ := hrequest
      have hsent : (Transfer.Event.request data (answer ret.val)).accepted =
          (Op.send buf data).sent ret := by
        show data.take ((answer ret.val).getD 0) = data.take ret.val.toNat
        rw [getD_answer]
      rw [hsent] at hd'
      refine ⟨hd', ?_⟩
      show acc ++ data.take ret.val.toNat <+: sup ++ []
      rw [List.append_nil]
      exact ((List.prefix_append_right_inj acc).mpr (List.take_prefix _ _)).trans hnext
  | _ =>
    cases ht with
    | silent hd' =>
      show (pc.resume ret).Downloading (sup ++ []) (acc ++ []) ∧ acc ++ [] <+: sup ++ []
      rw [List.append_nil, List.append_nil]
      exact ⟨hd', hpre⟩

/-! ## 2. The points -/

/-- What client `i` has read, at a point of its thread. -/
def Pc.Fetched (content : List UInt8) (position : ℕ) (read : List UInt8) : Pc → Prop
  | seekUnlock _ => False
  | recvFree _ ret => read = [] ∧ (ret ≠ -1 → position = 0)
  | sendMalloc | sendLock _ => read = [] ∧ position = 0
  | readCall _ | sendCall _ _ _ => read = content.take position
  | sendUnlock _ bytesRead => read <+: content ∧ (bytesRead = 0 → read = content)
  | sendFailFree _ | sendFailUnlock | sendFree _ _ | closeFile | closeClient | lockList
  | setComplete | unlockList | exited => read <+: content
  | _ => read = []

/-- The first line `strchr` finds in what was received, if it finds one: none behind a NUL. -/
def FirstLine (got written : List UInt8) : Prop :=
  (strchr got newline = none ∧ written = []) ∨
    ∃ pos, strchr got newline = some pos ∧ written = got.take (pos + 1)

/-- What a client that gets a response has written. -/
def Pc.Served (got written : List UInt8) : Pc → Prop
  | recvFree _ ret => ret ≠ -1 → FirstLine got written
  | lseek _ | sendMalloc | sendLock _ | readCall _ | sendCall _ _ _ | sendUnlock _ _ =>
    FirstLine got written
  | _ => True

section Call

variable {content got wrote read : List UInt8} {position : ℕ} {seeks : List AesdSeekto}
  {broke : Prop} {pc : Pc} {op : Op} {ret : Ret}

/-- The loop of `receive_data` is left with nothing read. -/
theorem Receiving.Finishes.fetched {r : Receiving} (hfin : r.Finishes pc)
    (hflag : r.ioctlSeektoReceived = false) (hread : read = []) :
    pc.Fetched content position read := by
  cases hfin with
  | broken => exact ⟨hread, fun hne => absurd rfl hne⟩
  | sought htrue => exact absurd (hflag.symm.trans htrue) Bool.false_ne_true
  | rewinds => exact hread

theorem Pc.Fetched.call (hf : pc.Fetched content position read)
    (hc : Course got wrote seeks broke pc) (hop : pc.op = some op) (hans : op.Answers ret)
    (hfile : op.OnFile content position ret) :
    (pc.resume ret).Fetched (content ++ op.written ret) (op.positionAfter content position ret)
      (read ++ op.fetched ret) := by
  have hgoes := Pc.goes_resume hop ret
  generalize pc.resume ret = pc' at hgoes ⊢
  cases hgoes with
  | inactive _ hfin | ended _ hfin =>
    obtain ⟨⟨k, hk⟩, -⟩ := hc
    exact hfin.fetched hk.seekto ((List.append_nil read).trans hf)
  | writeUnlocked hfin => exact hfin.fetched hc.1.seekto ((List.append_nil read).trans hf)
  | seekUnlocked => exact hf.elim
  | sought hval =>
    have hfail : ret.val = -1 := hfile
    omega
  | received _ ht => cases ht <;> exact (List.append_nil read).trans hf
  | writeLocked hw | wrote _ hw => cases hw <;> exact (List.append_nil read).trans hf
  | openFailed | recvMallocFailed =>
    show read ++ [] <+: content ++ []
    rw [show read = [] from hf]
    exact List.nil_prefix
  | recvFreedFailed | sendMallocFailed =>
    show read ++ [] <+: content ++ []
    rw [hf.1]
    exact List.nil_prefix
  | opened | recvMalloced | active | seekLocked | realloced | seekFailed | writeFailed =>
    exact (List.append_nil read).trans hf
  | seekFailUnlocked | writeFailUnlocked | reallocFailed | lseekFailed =>
    exact ⟨(List.append_nil read).trans hf, fun hne => absurd rfl hne⟩
  | rewound hne => exact ⟨(List.append_nil read).trans hf, fun _ => if_neg hne⟩
  | recvFreed hval => exact ⟨(List.append_nil read).trans hf.1, hf.2 hval⟩
  | sendMalloced => exact ⟨(List.append_nil read).trans hf.1, hf.2⟩
  | sendLocked =>
    show read ++ [] = (content ++ []).take position
    rw [hf.1, hf.2]
    rfl
  | readChunk hpos =>
    show read ++ ret.data = (content ++ []).take (position + ret.data.length)
    rcases hfile with hfail | ⟨hpre, -⟩
    · omega
    · rw [List.append_nil, List.take_add, show read = content.take position from hf]
      exact congrArg (content.take position ++ ·) (List.prefix_iff_eq_take.mp hpre)
  | readEnded hend =>
    have hdata : ret.data = [] := by
      rcases hans with ⟨-, hnil⟩ | ⟨hlen, -⟩
      · exact hnil
      · exact List.length_eq_zero_iff.mp (by omega)
    show read ++ ret.data <+: content ++ [] ∧ (ret.val = 0 → read ++ ret.data = content ++ [])
    rw [hdata, List.append_nil, List.append_nil, show read = content.take position from hf]
    refine ⟨List.take_prefix _ _, fun hzero => ?_⟩
    obtain ⟨-, hatEnd⟩ := hfile.resolve_left fun hfail => by omega
    rw [← List.append_nil (content.take position), ← hatEnd hdata, List.take_append_drop]
  | sendFailed =>
    show read ++ [] <+: content ++ []
    rw [List.append_nil, List.append_nil, show read = content.take position from hf]
    exact List.take_prefix _ _
  | sentPart | sentChunk =>
    show read ++ [] = (content ++ []).take position
    rw [List.append_nil, List.append_nil]
    exact hf
  | sendUnlocked =>
    show read ++ [] <+: content ++ []
    rw [List.append_nil, List.append_nil]
    exact hf.1
  | _ =>
    show read ++ [] <+: content ++ []
    rw [List.append_nil, List.append_nil]
    exact hf

/-- The loop of `receive_data` is left without a line, or with the line written. -/
theorem Receiving.Finishes.served {r : Receiving} (hfin : r.Finishes pc)
    (hflag : r.ioctlSeektoReceived = false) (hline : FirstLine got wrote) :
    pc.Served got wrote := by
  cases hfin with
  | broken => exact fun hne => absurd rfl hne
  | sought htrue => exact absurd (hflag.symm.trans htrue) Bool.false_ne_true
  | rewinds => exact hline

theorem Pc.Served.call (hv : pc.Served got wrote) (hc : Course got wrote seeks broke pc)
    (hf : pc.Fetched content position read) (hop : pc.op = some op) (hans : op.Answers ret) :
    (pc.resume ret).Served (got ++ op.received ret) (wrote ++ op.written ret) := by
  have hgoes := Pc.goes_resume hop ret
  generalize pc.resume ret = pc' at hgoes ⊢
  have hsame : ∀ {pc' : Pc}, pc'.Served got wrote → pc'.Served (got ++ []) (wrote ++ []) := by
    intro pc' h
    rwa [List.append_nil, List.append_nil]
  cases hgoes with
  | inactive _ hfin =>
    obtain ⟨⟨k, hk⟩, hwrote, -⟩ := hc
    exact hsame (hfin.served hk.seekto (Or.inl ⟨hk.noLine, hwrote⟩))
  | @ended r ret _ hval hfin =>
    obtain ⟨⟨k, hk⟩, hwrote, -⟩ := hc
    have hdata : ret.data = [] := by
      rcases hans with ⟨-, hnil⟩ | ⟨hlen, -⟩
      · exact hnil
      · exact List.length_eq_zero_iff.mp (by omega)
    show Pc.Served (got ++ ret.data) (wrote ++ []) _
    rw [hdata]
    exact hsame (hfin.served hk.seekto (Or.inl ⟨hk.noLine, hwrote⟩))
  | writeUnlocked hfin =>
    obtain ⟨hfound, -, hwrote, -⟩ := hc
    obtain ⟨pos, hpos, hlen⟩ := hfound.length
    exact hsame (hfin.served hfound.seekto (Or.inr ⟨pos, hpos, hlen ▸ hwrote⟩))
  | seekUnlocked => exact hf.elim
  | received _ ht => cases ht <;> trivial
  | writeLocked hw | wrote _ hw => cases hw <;> trivial
  | recvFreed hval => exact hsame (hv hval)
  | rewound => exact hsame fun _ => hv
  | seekFailUnlocked | writeFailUnlocked | reallocFailed | lseekFailed =>
    exact hsame fun hne => absurd rfl hne
  | sendMalloced | sendLocked | readChunk | readEnded | sentPart | sentChunk => exact hsame hv
  | _ => trivial

end Call

/-! ## 3. Whole runs -/

namespace FileServer

variable {x y : FileServer} {e : FileAct} {es : List FileAct} {h : List (FileServer × FileAct)}
  {junk : ℕ → ℤ} {file : Option (List UInt8)} {i : ℕ}

/-- How far client `i` has got with its response. -/
structure Responding (i : ℕ) (es : List FileAct) (x : FileServer) (pc : Pc) : Prop where
  downloading : pc.Downloading (FileAct.callsOf i es).fetched (FileAct.callsOf i es).sent
  sent : (FileAct.callsOf i es).sent <+: (FileAct.callsOf i es).fetched
  fetched : pc.Fetched x.content (x.position i) (FileAct.callsOf i es).fetched
  served : pc.Served (FileAct.callsOf i es).got (FileAct.callsOf i es).wrote

/-- While a client has `file_mutex` nobody else appends. -/
theorem Step.quiet (hr : Run Step (start junk file) h x) (hs : x.Step e y)
    (hi : x.process.holder .file = some (.client i)) (he : e.event? i = none) :
    e.move.bytes = [] := by
  have hm := hs.moving
  generalize hmove : e.move = m at hm ⊢
  cases hm with
  | @clientAppends j r buf data ret heq hpc =>
    have hj := (holder_of_writing hr hpc).symm.trans hi
    obtain rfl := Actor.client.inj (Option.some.inj hj)
    rw [heq, FileAct.event?_client, if_pos rfl] at he
    cases he
  | stamperAppends heq hpc =>
    have hstamp : x.stamping = true := by
      rw [stamping_run hr, hpc]
      rfl
    exact absurd (hi.symm.trans (exclusive_run hr hstamp)) (by simp)
  | _ => rfl

/-- The descriptor of a client is moved by its own calls only. -/
theorem Step.position (hs : x.Step e y) (he : e.event? i = none) : y.position i = x.position i := by
  cases hs with
  | @client j op ret p =>
    refine Function.update_of_ne (fun hij => ?_) _ _
    rw [FileAct.event?_client, if_pos hij.symm] at he
    cases he
  | _ => rfl

/-- A response to one client is not touched by what others do. -/
theorem Responding.other {pc : Pc} (h : Responding i es x pc) (he : e.event? i = none)
    (hpos : y.position i = x.position i) {bytes : List UInt8}
    (hcontent : y.content = x.content ++ bytes) (hheld : pc.holds .file = true → bytes = []) :
    Responding i (es ++ [e]) y pc := by
  obtain ⟨hd, hsent, hf, hv⟩ := h
  have hevents : FileAct.callsOf i (es ++ [e]) = FileAct.callsOf i es := by
    rw [FileAct.callsOf_concat, he]
    exact List.append_nil _
  refine ⟨?_, ?_, ?_, ?_⟩
  · rwa [hevents]
  · rwa [hevents]
  · rw [hevents, hpos, hcontent]
    cases pc with
    | readCall | sendCall | sendUnlock =>
      rw [hheld rfl, List.append_nil]
      exact hf
    | sendFailFree | sendFailUnlock | sendFree | closeFile | closeClient | lockList | setComplete
    | unlockList | exited => exact List.IsPrefix.trans hf (List.prefix_append _ _)
    | _ => exact hf
  · rwa [hevents]

theorem bytes_client {op : Op} {ret : Ret} :
    (FileAct.process (.client i op ret)).move.bytes = op.written ret := by
  cases op with
  | lock m => cases m <;> rfl
  | _ => rfl

/-- What the file answers to a client, and where that leaves its descriptor. -/
theorem Step.own {op : Op} {ret : Ret} (hs : x.Step (.process (.client i op ret)) y) :
    op.OnFile x.content (x.position i) ret ∧
      y.position i = op.positionAfter x.content (x.position i) ret := by
  cases hs with
  | main hnot => cases hnot
  | client _ _ hfile => exact ⟨hfile, Function.update_self _ _ _⟩

/-- **A client's own call** takes its response further. -/
theorem Responding.step {pc : Pc} {op : Op} {ret : Ret} (h : Responding i es x pc)
    (hc : (FileAct.callsOf i es).OnCourse pc) (hop : pc.op = some op) (hans : op.Answers ret)
    (hs : x.Step (.process (.client i op ret)) y)
    (hcontent : y.content = x.content ++ op.written ret) :
    Responding i (es ++ [.process (.client i op ret)]) y (pc.resume ret) := by
  obtain ⟨hd, hsent, hf, hv⟩ := h
  obtain ⟨hfile, hpos⟩ := hs.own
  have hevents : FileAct.callsOf i (es ++ [.process (.client i op ret)]) =
      FileAct.callsOf i es ++ [(op, ret)] := by
    rw [FileAct.callsOf_concat, FileAct.event?_client, if_pos rfl]
    rfl
  obtain ⟨hd', hsent'⟩ := hd.call hsent hop hans
  refine ⟨?_, ?_, ?_, ?_⟩
  · rwa [hevents, Trace.fetched_concat, Trace.sent_concat]
  · rwa [hevents, Trace.fetched_concat, Trace.sent_concat]
  · rw [hevents, Trace.fetched_concat, hpos, hcontent]
    exact hf.call hc hop hans hfile
  · rw [hevents, Trace.got_concat, Trace.wrote_concat]
    exact hv.call hc hf hop hans

/-- **Every client is on its way to a response.** -/
theorem responding_run (hr : Run Step (start junk file) h x) : x.ending ≠ .exited →
    ∀ i pc, x.process.thread i = some pc → Responding i (h.map Prod.snd) x pc := by
  refine hr.rule (Q := fun h x => x.ending ≠ .exited → ∀ i pc, x.process.thread i = some pc →
    Responding i (h.map Prod.snd) x pc) (fun _ i pc h => by cases h)
    fun {h s e t} hr hq hs hend i pc hpc => ?_
  have hbefore := hq fun hx => hend (hs.exited hx)
  have hcontent := hs.content hr hend
  have hother : s.process.thread i = some pc → e.event? i = none →
      Responding i (h.map Prod.snd ++ [e]) t pc := by
    intro hold he
    refine (hbefore i pc hold).other he (hs.position he) hcontent fun hheld => ?_
    refine hs.quiet hr (((books_run hr).inv.agree .file (.client i)).mpr ?_) he
    rwa [Process.holds_of_thread hold]
  rw [List.map_append, List.map_singleton]
  rcases hs.process with ⟨a, ha, hp⟩ | ⟨hno, hsame⟩
  · obtain rfl := event?_of_act ha
    cases (books_run hr).inv.moves hp i with
    | calls heq hold hop hans hnew =>
      obtain rfl := heq
      obtain rfl := Option.some.inj (hnew.symm.trans hpc)
      rw [bytes_client] at hcontent
      exact (hbefore i _ hold).step ((courses_run hr).thread hold) hop hans hs hcontent
    | created hnot hold hnew =>
      obtain rfl := Option.some.inj (hnew.symm.trans hpc)
      have hnone : FileAct.callsOf i (h.map Prod.snd ++ [.process a]) = [] := by
        rw [FileAct.callsOf_concat, (courses_run hr).unborn hold]
        exact congrArg Option.toList (Act.event?_of_not_client hnot)
      refine ⟨?_, ?_, ?_, trivial⟩
      · rw [hnone]
        rfl
      · rw [hnone]
        exact List.prefix_rfl
      · rw [hnone]
        rfl
    | stays hnot hsame => exact hother (hsame.symm.trans hpc) (Act.event?_of_not_client hnot)
  · rw [hsame] at hpc
    exact hother hpc (event?_of_not_act hno)

/-- What was read is the beginning of the file. -/
theorem fetched_prefix {content read : List UInt8} {position : ℕ} {pc : Pc}
    (h : pc.Fetched content position read) : read <+: content := by
  cases pc with
  | seekUnlock => exact h.elim
  | recvFree | sendMalloc | sendLock =>
    rw [h.1]
    exact List.nil_prefix
  | readCall | sendCall =>
    rw [show read = content.take position from h]
    exact List.take_prefix _ _
  | sendUnlock => exact h.1
  | sendFailFree | sendFailUnlock | sendFree | closeFile | closeClient | lockList | setComplete
  | unlockList | exited => exact h
  | _ =>
    rw [show read = [] from h]
    exact List.nil_prefix

/-- Who has written has written in a turn of its own. -/
theorem Filled.mem_turns {ts : List (Writer × List UInt8)} (hf : Filled es x ts)
    (hts : TurnsOf es ts) (hne : (FileAct.callsOf i es).wrote ≠ []) :
    (.client i, (FileAct.callsOf i es).wrote) ∈ ts := by
  by_contra hnot
  refine hne ?_
  rw [← hts.writtenBy i, Turns.writtenBy_eq_nil_iff]
  rintro ⟨w, written⟩ hturn rfl
  refine (hf.client _ hturn rfl).resolve_right fun hall => hnot ?_
  rwa [← show written = (FileAct.callsOf i es).wrote from hall]

/-- **Responses are the file.**  In every run of the server on a regular file that has not removed
it, whatever the calls answer and whatever the order of the steps, for every client:

* what was sent to it is the beginning of what was read for it, and that of the file;
* where its reading has come to the end, it has `file_mutex`, what was sent to it is the file, what
  was in it at the start and one turn after the other, and the first line `strchr` finds in what was
  received from it, if it finds one, is one of the turns. -/
theorem file_responses (hr : Run Step (start junk file) h x) (hend : x.ending ≠ .exited)
    {i : ℕ} {pc : Pc} (hpc : x.process.thread i = some pc) :
    (FileAct.callsOf i (h.map Prod.snd)).sent <+: (FileAct.callsOf i (h.map Prod.snd)).fetched ∧
      (FileAct.callsOf i (h.map Prod.snd)).fetched <+: x.content ∧
      ∀ buf, pc = .sendUnlock buf 0 →
        x.process.holder .file = some (.client i) ∧
        (FileAct.callsOf i (h.map Prod.snd)).sent = x.content ∧
        ∃ ts, TurnsOf (h.map Prod.snd) ts ∧ x.content = file.getD [] ++ Turns.content ts ∧
          ∀ pos, strchr (FileAct.callsOf i (h.map Prod.snd)).got newline = some pos →
            (.client i, (FileAct.callsOf i (h.map Prod.snd)).got.take (pos + 1)) ∈ ts := by
  obtain ⟨hd, hsent, hf, hv⟩ := responding_run hr hend i pc hpc
  refine ⟨hsent, fetched_prefix hf, ?_⟩
  rintro buf rfl
  have hread : (FileAct.callsOf i (h.map Prod.snd)).fetched = x.content := hf.2 rfl
  have hall : (FileAct.callsOf i (h.map Prod.snd)).sent =
      (FileAct.callsOf i (h.map Prod.snd)).fetched := hd
  obtain ⟨ts, hts, -, hfilled⟩ := turns_run hr
  refine ⟨?_, hall.trans hread, ts, hts, ?_, fun pos hpos => ?_⟩
  · refine ((books_run hr).inv.agree .file (.client i)).mpr ?_
    rw [Process.holds_of_thread hpc]
    rfl
  · rw [content_run hr hend, Turns.content_keeps hts]
    rfl
  · rcases hv with ⟨hnone, -⟩ | ⟨pos', hpos', hwrote⟩
    · cases hnone.symm.trans hpos
    · obtain rfl := Option.some.inj (hpos'.symm.trans hpos)
      rw [← hwrote]
      refine hfilled.mem_turns hts fun hnil => ?_
      obtain ⟨pre, rest, hgot, rfl, -⟩ := exists_of_strchr hpos'
      rw [hwrote, hgot] at hnil
      simp [List.take_append] at hnil

theorem file_responses_stamped : ∃ h x, Run Step (start (fun _ => 0) none) h x ∧
    x.process.thread 0 = some (.sendUnlock 0 0) ∧
    (FileAct.callsOf 0 (h.map Prod.snd)).sent = timestamp [49] ++ [97, 10] := by
  have hrun := Run.of_played step_of_next (start (fun _ => 0) none) stampedChoices
    (by decide +kernel)
  have hpc : (played next (start (fun _ => 0) none) stampedChoices).2.process.thread 0 =
      some (.sendUnlock 0 0) := by decide +kernel
  obtain ⟨-, -, hall⟩ := file_responses hrun (by decide +kernel) hpc
  obtain ⟨-, hsent, -⟩ := hall 0 rfl
  exact ⟨_, _, hrun, hpc, hsent.trans (by decide +kernel)⟩

end FileServer

end Aesd.Server
