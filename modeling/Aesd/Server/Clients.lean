/-
# Clients of one packet each

The clients here send one packet and nothing else, or a seek command with anything behind it
(`Sends`).  What such a client has done is settled by its program point: how far it is
(`Pc.stage`), whether it has a mutex (`agree_run`), and what it wrote (`written_run`).

The device's own lock is dropped between two calls, so that a packet goes in whole rests on the
server: the driver takes a write whole or not at all, so one write is the whole packet
(`System.Step.write`), and the ring after any part of a run is what it was with the packets
written since (`stored_run`).
-/
import Aesd.Server.Framing
import Aesd.Server.System

namespace Aesd.Server

open Aesd.Driver Transition Locking

/-! ## 1. What the clients send -/

/-- What a client of the system sends: one packet that is not a seek command and nothing behind
it, or a seek command with anything behind it. -/
inductive Sends (stream : List UInt8) : Option AesdSeekto → Prop
  | packet : Packet stream → seekCommand stream = none → Sends stream none
  | seek {packet rest : List UInt8} {seekto : AesdSeekto} : Packet packet →
      seekCommand packet = some seekto → stream = packet ++ rest → Sends stream (some seekto)

namespace Sends

variable {got rest : List UInt8} {x : Option AesdSeekto}

/-- A packet that is a seek command by itself is one whatever follows. -/
theorem seekCommand_append {packet : List UInt8} {seekto : AesdSeekto} (hp : Packet packet)
    (hc : seekCommand packet = some seekto) (t : List UInt8) :
    seekCommand (packet ++ t) = some seekto := by
  cases hd : dangling packet with
  | none => rw [hp.seekCommand_eq_of_decided hd, hc]
  | some n =>
    cases hp.reading with
    | numbers _ heq =>
      have h := heq []
      rw [List.append_nil, hc, seekArgs_of_short (by decide)] at h
      cases h
    | offset v _ heq =>
      have h := heq []
      rw [List.append_nil, hc] at h
      cases h
    | decided hn => exact absurd (hd.symm.trans hn) (by simp)

/-- **Once the newline is there the client's kind shows**: the scan finds its seek command, and
of a packet everything has come in. -/
theorem found (h : Sends (got ++ rest) x) {pos : ℕ} (hpos : CString.strchr got newline = some pos) :
    seekCommand got = x ∧ (x = none → rest = [] ∧ pos + 1 = got.length) := by
  cases h with
  | packet hp hc =>
    obtain ⟨body, hbody, hb⟩ := hp.line
    have hg : got <+: body ++ newline :: [] := ⟨rest, hbody⟩
    rw [strchr_line hb hg] at hpos
    split at hpos
    · rename_i hm
      obtain ⟨t, rfl⟩ := (newline_mem_iff hb hg).mp hm.2
      rw [List.append_assoc, List.append_right_inj, List.cons_append] at hbody
      obtain ⟨rfl, rfl⟩ := List.append_eq_nil_iff.mp (List.cons_eq_cons.mp hbody).2
      obtain rfl := Option.some.inj hpos
      rw [List.append_nil] at hc
      exact ⟨hc, fun _ => ⟨rfl, by rw [List.length_append]; rfl⟩⟩
    · cases hpos
  | @seek packet more seekto hp hc hst =>
    obtain ⟨body, rfl, hb⟩ := hp.line
    have hg : got <+: body ++ newline :: more := ⟨rest, by rw [hst, List.append_assoc]; rfl⟩
    rw [strchr_line hb hg] at hpos
    split at hpos
    · rename_i hm
      obtain ⟨t, rfl⟩ := (newline_mem_iff hb hg).mp hm.2
      rw [List.append_cons]
      exact ⟨seekCommand_append hp hc t, fun h => by cases h⟩
    · cases hpos

/-- The newline comes before the stream ends. -/
theorem strchr_ne_none (h : Sends got x) : CString.strchr got newline ≠ none := by
  have key : ∀ packet more : List UInt8, Packet packet →
      CString.strchr (packet ++ more) newline ≠ none := by
    intro packet more hp
    obtain ⟨body, rfl, hb⟩ := hp.line
    have h0 : 0 ∉ body := fun hm => hp.zero (List.mem_append_left _ hm)
    rw [List.append_assoc, List.singleton_append,
      strchr_line hb (List.prefix_refl (body ++ newline :: more)), if_pos ⟨h0, by simp⟩]
    exact Option.some_ne_none _
  cases h with
  | packet hp =>
    have h1 := key got [] hp
    rwa [List.append_nil] at h1
  | seek hp _ hst =>
    rw [hst]
    exact key _ _ hp

/-- **What `receive_data` leaves**: a packet is written whole, a seek command performed. -/
theorem handled {written : List UInt8} {seeks : List AesdSeekto} (h : Sends (got ++ rest) x)
    (hh : Handled got rest written seeks) :
    (x = none ∧ written = got ++ rest ∧ seeks = []) ∨
      ∃ seekto, x = some seekto ∧ written = [] ∧ seeks = [seekto] := by
  cases hh with
  | endOfStream hnil hnone =>
    rw [hnil, List.append_nil] at h
    exact absurd hnone h.strchr_ne_none
  | sought seekto hpos _ hc hw hs =>
    obtain ⟨pos, hpos⟩ := hpos
    exact Or.inr ⟨seekto, by rw [← (h.found hpos).1, hc], hw, hs⟩
  | wrote pos hpos _ hc hw hs =>
    obtain ⟨hx, hall⟩ := h.found hpos
    obtain rfl : x = none := by rw [← hx, hc]
    obtain ⟨rfl, hlen⟩ := hall rfl
    exact Or.inl ⟨rfl, by rw [hw, hlen, List.take_length, List.append_nil], hs⟩

theorem newline_mem (h : Sends got x) : newline ∈ got := by
  by_contra hm
  exact h.strchr_ne_none (CString.strchr_of_not_mem hm)

end Sends

/-! ## 2. How far a client is -/

/-- How far a thread is: 0 up to its operation on the device, 1 before it is known where its file
is, 2 from there to its read section, 3 from the first read on. -/
def Pc.stage : Pc → ℕ
  | seekUnlock _ | lseek _ => 1
  | recvFree _ _ | sendMalloc | sendLock _ => 2
  | readCall _ | sendCall _ _ _ | sendFailFree _ | sendFailUnlock | sendUnlock _ _
  | sendFree _ _ | closeFile | closeClient | lockList | setComplete | unlockList | exited => 3
  | _ => 0

section Stages

variable {c c' : Conn} {e : Event} {got written : List UInt8} {seeks : List AesdSeekto}

theorem stage_whileUnwritten (r : Receiving) : r.whileUnwritten.stage = 0 := by
  unfold Receiving.whileUnwritten
  split <;> rfl

theorem stage_received (r : Receiving) (ret : Ret) : (r.received ret).stage = 0 := by
  unfold Receiving.received
  dsimp only
  split
  · split <;> rfl
  · split <;> rfl

/-- **A thread goes through the stages one by one.** -/
theorem Phase.stage_step (hp : Phase got c.inbox written seeks c.pc) (hs : c.Step e c') :
    c'.pc.stage = c.pc.stage ∨ c'.pc.stage = c.pc.stage + 1 := by
  obtain ⟨op, ret⟩ := e
  obtain ⟨hop, -, hsucc, -, -, -, hpc⟩ := hs
  obtain ⟨pc, inbox, outbox⟩ := c
  simp only at hop hsucc hp hpc ⊢
  rw [hpc]
  cases pc with
  | openFile junk =>
    obtain rfl := Option.some.inj hop
    rw [Pc.resume, if_neg hsucc]
    exact Or.inl rfl
  | recvMalloc junk =>
    obtain rfl := Option.some.inj hop
    obtain ⟨buf, hbuf⟩ := Option.isSome_iff_exists.mp hsucc
    rw [Pc.resume, hbuf]
    exact Or.inl rfl
  | whileActive r =>
    obtain rfl := Option.some.inj hop
    have hactive : ret.val ≠ 0 := hsucc
    rw [Pc.resume, if_pos hactive]
    exact Or.inl rfl
  | recvCall r =>
    obtain rfl := Option.some.inj hop
    obtain ⟨⟨k, hg⟩, -, -⟩ := hp
    rw [Pc.resume]
    split
    · exact Or.inl (stage_received r ret)
    · have hval : ret.val ≠ -1 := hsucc
      have hflag : ¬ r.ioctlSeektoReceived = true := by
        rw [hg.seekto]
        exact Bool.false_ne_true
      exact Or.inr (by rw [Receiving.finish, if_neg hval, if_neg hflag]; rfl)
  | seekLock r seekto => exact Or.inl rfl
  | seekIoctl r seekto =>
    obtain rfl := Option.some.inj hop
    rw [Pc.resume, if_neg (Int.not_lt.mpr hsucc)]
    exact Or.inr rfl
  | seekUnlock r =>
    rw [hp.1.resume_seekUnlock]
    exact Or.inr rfl
  | writeLock r => exact Or.inl (stage_whileUnwritten r)
  | writeCall r =>
    obtain rfl := Option.some.inj hop
    have hpos : 0 < ret.val := hsucc
    rw [Pc.resume, if_neg (by omega)]
    exact Or.inl (stage_whileUnwritten _)
  | writeUnlock r =>
    rw [hp.1.resume_writeUnlock]
    exact Or.inr rfl
  | realloc r =>
    obtain rfl := Option.some.inj hop
    obtain ⟨temp, htemp⟩ := Option.isSome_iff_exists.mp hsucc
    rw [Pc.resume, htemp]
    exact Or.inl rfl
  | lseek r =>
    obtain rfl := Option.some.inj hop
    rw [Pc.resume, if_neg hsucc]
    exact Or.inr rfl
  | recvFree buf r =>
    obtain ⟨rfl, -⟩ := hp
    exact Or.inl rfl
  | sendMalloc =>
    obtain rfl := Option.some.inj hop
    obtain ⟨buf, hbuf⟩ := Option.isSome_iff_exists.mp hsucc
    rw [Pc.resume, hbuf]
    exact Or.inl rfl
  | sendLock buf => exact Or.inr rfl
  | readCall buf =>
    rw [Pc.resume]
    split <;> exact Or.inl rfl
  | sendCall buf chunk totalSent =>
    rw [Pc.resume]
    split
    · exact Or.inl rfl
    · split <;> exact Or.inl rfl
  | seekFailUnlock | writeFailUnlock => exact hp.elim
  | exited => cases hop
  | _ => exact Or.inl rfl

/-- Between its operation on the device and its read section a thread only rewinds its file. -/
theorem Pc.off_of_stage {pc : Pc} {op : Op} (hop : pc.op = some op)
    (hstage : pc.stage = 1 ∨ pc.stage = 2) : op.onDevice = false ∨ ∃ r, pc = .lseek r := by
  cases pc with
  | seekUnlock | recvFree | sendMalloc | sendLock =>
    obtain rfl := Option.some.inj hop
    exact Or.inl rfl
  | lseek r => exact Or.inr ⟨r, rfl⟩
  | _ => exact absurd hstage (by simp [Pc.stage])

/-- The read section is entered at the lock. -/
theorem Phase.sendLock_of_stage (hp : Phase got c.inbox written seeks c.pc) (hs : c.Step e c')
    (h2 : c.pc.stage ≠ 3) (h3 : c'.pc.stage = 3) :
    ∃ buf, c.pc = .sendLock buf ∧ c'.pc = .readCall buf := by
  have h := hp.stage_step hs
  have h2' : c.pc.stage = 2 := by omega
  obtain ⟨op, ret⟩ := e
  obtain ⟨hop, -, hsucc, -, -, -, hpc⟩ := hs
  obtain ⟨pc, inbox, outbox⟩ := c
  simp only at hop hsucc hp hpc h2' ⊢
  rw [hpc] at h3 ⊢
  cases pc with
  | recvFree buf r =>
    obtain ⟨rfl, -⟩ := hp
    exact absurd h3 (by simp [Pc.resume, Pc.stage])
  | sendMalloc =>
    obtain rfl := Option.some.inj hop
    obtain ⟨buf, hbuf⟩ := Option.isSome_iff_exists.mp hsucc
    rw [Pc.resume, hbuf] at h3
    exact absurd h3 (by simp [Pc.stage])
  | sendLock buf => exact ⟨buf, rfl, rfl⟩
  | _ => exact absurd h2' (by simp [Pc.stage])

end Stages

/-! ## 3. Runs -/

section Runs

variable {s₀ : DriverState} {junk : ℕ → ℤ} {stream : ℕ → List UInt8}
  {kind : ℕ → Option AesdSeekto} {h h' : Log} {u v : System}

theorem reachable_run (h0 : Reachable s₀) (hr : Run System.Step (System.start s₀ junk stream) h u) :
    Reachable u.driver :=
  hr.invariant (I := fun u => Reachable u.driver) h0 fun hi hs => hs.device.reachable hi

/-- **Each client runs by itself** in a run of the system. -/
theorem conn_run (i : ℕ) (hr : Run System.Step (System.start s₀ junk stream) h u) :
    Run Conn.Step ⟨.openFile (junk i), stream i, []⟩ (h.of i) (u.conns i) := by
  refine hr.project (fun u => u.conns i) (fun e => if e.1 = i then some e.2 else none) ?_
  intro s e t hs
  by_cases he : e.1 = i
  · subst he
    exact Or.inl ⟨e.2, if_pos rfl, hs.conn⟩
  · exact Or.inr ⟨if_neg he, hs.others i (Ne.symm he)⟩

/-- The invariant of each thread. -/
theorem phase_at (i : ℕ) (hr : Run System.Step (System.start s₀ junk stream) h u) :
    Phase (received (h.of i)) (u.conns i).inbox (written (h.of i)) (seeks (h.of i)) (u.conns i).pc ∧
      stream i = received (h.of i) ++ (u.conns i).inbox := by
  have h0 : Phase [] (stream i) [] [] (.openFile (junk i)) := ⟨rfl, rfl, rfl⟩
  exact Phase.run h0 (conn_run i hr)

/-- **The table of holders is right**: it names the thread whose point is in the critical
section. -/
theorem agree_run (hr : Run System.Step (System.start s₀ junk stream) h u) :
    Agree u.holder fun i => (u.conns i).pc.holds := by
  refine hr.invariant (I := fun u => Agree u.holder fun i => (u.conns i).pc.holds)
    (Agree.init fun _ _ => rfl) ?_
  intro s e t hi hs
  have hop := hs.conn.op
  refine hi.step hs.locks ?_ ?_ fun m hm => Pc.holds_of_release hop hm
  · rw [hs.conn.pc]
    exact Pc.holds_resume hop e.2.2
  · intro j hj
    rw [hs.others j hj]

theorem Log.of_concat (h : Log) (u : System) (i j : ℕ) (e : Event) :
    Log.of (h ++ [(u, (j, e))]) i = h.of i ++ if j = i then [(u.conns i, e)] else [] := by
  rw [Log.of, Log.of, List.filterMap_append]
  by_cases hj : j = i <;> simp [hj]

theorem writers_concat (h : Log) (u : System) (i : ℕ) (op : Op) (ret : Ret) :
    writers (h ++ [(u, (i, (op, ret)))]) =
      writers h ++ match op with
        | .write _ _ => [i]
        | _ => [] := by
  rw [writers, writers, List.filterMap_append]
  cases op <;> rfl

theorem commands_concat (h : Log) (u : System) (i : ℕ) (op : Op) (ret : Ret) :
    commands (h ++ [(u, (i, (op, ret)))]) =
      commands h ++ match op with
        | .write _ data => [u.driver.pending ++ data]
        | _ => [] := by
  rw [commands, commands, List.filterMap_append]
  cases op <;> rfl

/-- What a client is about to write is its whole packet, if it wrote nothing or everything. -/
theorem Phase.whole {got rest written : List UInt8} {seeks : List AesdSeekto} {r : Receiving}
    {x : Option AesdSeekto} (hp : Phase got rest written seeks (.writeCall r))
    (hst : Sends (got ++ rest) x) (hw : written = [] ∨ written = got ++ rest) :
    (r.content.drop r.bytesWritten).take (r.packetLength - r.bytesWritten) = got ++ rest ∧
      written = [] ∧ x = none := by
  obtain ⟨hf, hc, hlt, hwr, -⟩ := hp
  obtain ⟨pos, hpos, hlen⟩ := hf.length
  obtain ⟨hx, hall⟩ := hst.found hpos
  obtain rfl : x = none := by rw [← hx, hc]
  obtain ⟨rfl, hgot⟩ := hall rfl
  rw [List.append_nil] at hw ⊢
  have hzero : r.bytesWritten = 0 := by
    have hl := congrArg List.length hwr
    rw [List.length_take] at hl
    rcases hw with rfl | rfl
    · rw [List.length_nil] at hl
      omega
    · omega
  rw [hzero, List.take_zero] at hwr
  refine ⟨?_, hwr, rfl⟩
  rw [hf.content, hzero, List.drop_zero, Nat.sub_zero, hlen, hgot, List.take_length]

variable (h0 : Reachable s₀) (hst : ∀ i, Sends (stream i) (kind i))
include h0 hst

/-- **A write to the device is of a whole packet**, if so far each client wrote nothing or its
whole packet. -/
theorem System.Step.write_of {i buf : ℕ} {data : List UInt8} {ret : Ret}
    (hr : Run System.Step (System.start s₀ junk stream) h u)
    (hs : u.Step (i, (.write buf data, ret)) v)
    (hw : written (h.of i) = [] ∨ written (h.of i) = stream i) :
    data = stream i ∧ kind i = none ∧ written (h.of i) = [] ∧ ret.val = data.length := by
  obtain ⟨leaked, hi⟩ := (reachable_run h0 hr).inv
  obtain ⟨hphase, hstream⟩ := phase_at i hr
  have hop := hs.conn.op
  have hsends := hst i
  rw [hstream] at hsends hw ⊢
  generalize (u.conns i).pc = pc at hop hphase
  cases pc with
  | writeCall r =>
    obtain ⟨-, rfl⟩ := Op.write.inj (Option.some.inj hop)
    obtain ⟨hdata, hwr, hkind⟩ := hphase.whole hsends hw
    exact ⟨hdata, hkind, hwr, (hs.device.write hi).2.2⟩
  | _ => simp [Pc.op] at hop

/-- **Each client writes once or never**, and what it wrote is its packet. -/
theorem written_run (hr : Run System.Step (System.start s₀ junk stream) h u) (i : ℕ) :
    ((writers h).count i = 0 ∧ written (h.of i) = []) ∨
      ((writers h).count i = 1 ∧ written (h.of i) = stream i) := by
  induction hr with
  | nil => exact Or.inl ⟨rfl, rfl⟩
  | @concat h s t e hr hs ih =>
    obtain ⟨j, op, ret⟩ := e
    rw [Log.of_concat, writers_concat, List.count_append]
    by_cases hj : j = i
    · subst hj
      rw [if_pos rfl, written_concat]
      cases op with
      | write buf data =>
        obtain ⟨hdata, -, hwr, hval⟩ := hs.write_of h0 hst hr (ih.imp And.right And.right)
        rcases ih with ⟨hcount, -⟩ | ⟨-, hst'⟩
        · refine Or.inr ⟨by simp [hcount], ?_⟩
          rw [hwr, Op.written, hval, Int.toNat_natCast, List.take_length, hdata]
          rfl
        · have hm := (hst j).newline_mem
          rw [← hst', hwr] at hm
          exact absurd hm List.not_mem_nil
      | _ => simpa [Op.written] using ih
    · rw [if_neg hj, List.append_nil]
      cases op with
      | write buf data => simpa [hj] using ih
      | _ => simpa using ih

/-- **A write to the device is of a whole packet.** -/
theorem System.Step.write {i buf : ℕ} {data : List UInt8} {ret : Ret}
    (hr : Run System.Step (System.start s₀ junk stream) h u)
    (hs : u.Step (i, (.write buf data, ret)) v) :
    data = stream i ∧ kind i = none ∧ newline ∈ u.driver.pending ++ data := by
  obtain ⟨hdata, hkind, -⟩ :=
    hs.write_of h0 hst hr ((written_run h0 hst hr i).imp And.right And.right)
  refine ⟨hdata, hkind, List.mem_append_right _ ?_⟩
  rw [hdata]
  exact (hst i).newline_mem

/-- **What the ring holds** after more of a run: the last ten of what it held and the commands
written since. -/
theorem stored_run (hr : Run System.Step (System.start s₀ junk stream) h u)
    (hr' : Run System.Step u h' v) :
    v.driver.stored = (u.driver.stored ++ commands h').rtake maxWriteOperationsSupported := by
  induction hr' with
  | nil =>
    have hlen : u.driver.stored.length ≤ maxWriteOperationsSupported := by
      rw [DriverState.stored, List.length_map, AesdCircularBuffer.length_entries]
      exact u.driver.dev.buffer.count_le
    rw [commands, List.filterMap_nil, List.append_nil, Segment.rtake_of_length_le hlen]
  | @concat h' s t e hr' hs ih =>
    obtain ⟨i, op, ret⟩ := e
    obtain ⟨leaked, hi⟩ := (reachable_run h0 (hr.append hr')).inv
    rw [commands_concat]
    cases op with
    | write buf data =>
      obtain ⟨-, -, hn⟩ := hs.write h0 hst (hr.append hr')
      rw [(hs.device.write hi).1, if_pos hn, ih, ← List.append_assoc]
      exact Segment.rtake_concat _ _ _
    | _ =>
      rw [List.append_nil, ← ih]
      exact (hs.device.of_not_write hi fun _ _ h => by cases h).1

/-- **The working entry stays empty**: a packet goes to the device in one write, which stores
it. -/
theorem pending_run (hp : s₀.pending = [])
    (hr : Run System.Step (System.start s₀ junk stream) h u) :
    u.driver.pending = [] ∧ commands h = (writers h).map stream := by
  induction hr with
  | nil => exact ⟨hp, rfl⟩
  | @concat h s t e hr hs ih =>
    obtain ⟨i, op, ret⟩ := e
    obtain ⟨leaked, hi⟩ := (reachable_run h0 hr).inv
    obtain ⟨hpend, hcmd⟩ := ih
    rw [commands_concat, writers_concat, List.map_append, hcmd]
    cases op with
    | write buf data =>
      obtain ⟨hdata, -, hn⟩ := hs.write h0 hst hr
      refine ⟨by rw [(hs.device.write hi).2.1, if_pos hn], ?_⟩
      rw [hpend, hdata]
      rfl
    | _ => exact ⟨by rw [(hs.device.of_not_write hi fun _ _ h => by cases h).2, hpend], rfl⟩

end Runs

end Aesd.Server
