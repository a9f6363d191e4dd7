/-
# Packets go in whole, responses come out whole

The server's guarantee for clients that send one packet each, whatever the interleaving and
whatever seek clients do beside them (`serial`): the ring is as if the packets had been stored one
after the other, in the order in which their writers held `file_mutex`, and each response is the
whole ring at one moment after the client's own packet went in.

The moment is the one at which the client locks the mutex to read (`exists_sendLock`,
`response_run`).
-/
import Aesd.Server.Response

namespace Aesd.Server

open Aesd.Driver Transition Locking

variable {s₀ : DriverState} {junk : ℕ → ℤ} {stream : ℕ → List UInt8}
  {kind : ℕ → Option AesdSeekto} {h : Log} {u : System} {i : ℕ}

/-! ## 1. Writers -/

/-- A client that wrote did so by a call in the history. -/
theorem exists_write (hi : i ∈ writers h) :
    ∃ h₁ v buf data ret h₂, h = h₁ ++ (v, (i, (.write buf data, ret))) :: h₂ := by
  obtain ⟨⟨v, j, op, ret⟩, hmem, heq⟩ := List.mem_filterMap.mp hi
  obtain ⟨h₁, h₂, rfl⟩ := List.append_of_mem hmem
  cases op with
  | write buf data =>
    obtain rfl := Option.some.inj heq
    exact ⟨h₁, v, buf, data, ret, h₂, rfl⟩
  | _ => cases heq

/-- A write is made with the mutex. -/
theorem holder_of_write {v : System} {buf : ℕ} {data : List UInt8} {ret : Ret}
    (hr : Run System.Step (System.start s₀ junk stream) h u)
    (hmem : (v, (i, (.write buf data, ret))) ∈ h) : v.holder .file = some i := by
  obtain ⟨h₁, h₂, rfl⟩ := List.append_of_mem hmem
  obtain ⟨t, hv, hs, -, -⟩ := hr.cut
  exact (agree_run hv .file i).mpr (Pc.holds_of_write hs.conn.op)

section

variable (hst : ∀ i, Sends (stream i) (kind i))
include hst

/-- Past its write a client has written its packet. -/
theorem written_of_stage (hr : Run System.Step (System.start s₀ junk stream) h u)
    (hk : kind i = none) (hstage : 1 ≤ (u.conns i).pc.stage) : written (h.of i) = stream i := by
  obtain ⟨hphase, hstream⟩ := phase_at i hr
  have hsends := hst i
  rw [hstream, hk] at hsends
  have hh : Handled (received (h.of i)) (u.conns i).inbox (written (h.of i)) (seeks (h.of i)) := by
    generalize (u.conns i).pc = pc at hphase hstage
    cases pc with
    | lseek => exact hphase.2
    | recvFree => exact hphase.2
    | seekUnlock r =>
      obtain ⟨hf, seekto, hc, -⟩ := hphase
      obtain ⟨pos, hpos, -⟩ := hf.length
      exact absurd ((hsends.found hpos).1.symm.trans hc) (by simp)
    | openFile | recvMalloc | whileActive | recvCall | seekLock | seekIoctl | seekFailUnlock
    | writeLock | writeCall | writeFailUnlock | writeUnlock | realloc =>
      exact absurd hstage (Nat.not_succ_le_zero 0)
    | _ => exact hphase.handled rfl
  rcases hsends.handled hh with ⟨-, hw, -⟩ | ⟨seekto, hx, -⟩
  · rw [hw, ← hstream]
  · cases hx

variable (h0 : Reachable s₀)
include h0

/-- **Past its write a client has written once.** -/
theorem count_writers (hr : Run System.Step (System.start s₀ junk stream) h u)
    (hk : kind i = none) (hstage : 1 ≤ (u.conns i).pc.stage) : (writers h).count i = 1 := by
  rcases written_run h0 hst hr i with ⟨-, hnil⟩ | ⟨hone, -⟩
  · have hm := (hst i).newline_mem
    rw [← written_of_stage hst hr hk hstage, hnil] at hm
    exact absurd hm List.not_mem_nil
  · exact hone

/-- Only packets are written. -/
theorem kind_of_writer (hr : Run System.Step (System.start s₀ junk stream) h u)
    (hi : i ∈ writers h) : kind i = none := by
  obtain ⟨h₁, v, buf, data, ret, h₂, rfl⟩ := exists_write hi
  obtain ⟨t, hv, hs, -, -⟩ := hr.cut
  exact (hs.write h0 hst hv).2.1

end

/-! ## 2. The moment of a response -/

/-- A client with a complete response has locked the mutex to read. -/
theorem exists_sendLock (hr : Run System.Step (System.start s₀ junk stream) h u)
    (hu : (u.conns i).pc.answered = true) :
    ∃ h₁ v e h₂ buf, h = h₁ ++ (v, (i, e)) :: h₂ ∧
      Run System.Step (System.start s₀ junk stream) h₁ v ∧ (v.conns i).pc = .sendLock buf := by
  have h3 : (u.conns i).pc.stage = 3 := by
    generalize (u.conns i).pc = pc at hu
    cases pc with
    | sendUnlock | sendFree | closeFile | closeClient | lockList | setComplete | unlockList
    | exited => rfl
    | _ => cases hu
  obtain ⟨h₁, v, e, h₂, t, rfl, hv, hs, hin, hnot, -⟩ :=
    hr.exists_entry (A := fun u => (u.conns i).pc.stage = 3) (by simp [System.start, Pc.stage]) h3
  obtain ⟨j, e⟩ := e
  rcases stage_step hv hs i with hsame | ⟨rfl, -⟩
  · exact absurd (hsame.symm.trans hin) hnot
  · obtain ⟨buf, hpc, -⟩ := (phase_at j hv).1.sendLock_of_stage hs.conn hnot hin
    exact ⟨h₁, v, e, h₂, buf, rfl, hv, hpc⟩

/-- **Packets and responses are atomic.**  From any reachable state of the driver with nothing
pending, with any number of clients that each send one packet and any number that seek, in every
state a run without failing calls reaches:

* the ring holds the last ten of what it held at the start and the packets written, in the order
  of their writes;
* each write is made with `file_mutex` held by its client; each client writes at most once, only
  clients of packets do, and each that is past its critical section has;
* while `file_mutex` is free nothing is pending (in fact never);
* each complete response to a packet is the whole ring as it stood at one moment after the
  client's own packet was written. -/
theorem serial (h0 : Reachable s₀) (hp : s₀.pending = []) (hst : ∀ i, Sends (stream i) (kind i))
    (hr : Run System.Step (System.start s₀ junk stream) h u) :
    u.driver.stored =
        (s₀.stored ++ (writers h).map stream).rtake maxWriteOperationsSupported ∧
      ((∀ v i buf data ret, (v, (i, (.write buf data, ret))) ∈ h → v.holder .file = some i) ∧
        (writers h).Nodup ∧ (∀ i ∈ writers h, kind i = none) ∧
        ∀ i, kind i = none → 1 ≤ (u.conns i).pc.stage → i ∈ writers h) ∧
      (u.holder .file = none → u.driver.pending = []) ∧
      ∀ i, kind i = none → (u.conns i).pc.answered = true →
        ∃ h₁ v e h₂, h = h₁ ++ (v, e) :: h₂ ∧ i ∈ writers h₁ ∧
          (u.conns i).outbox = v.driver.content := by
  obtain ⟨hpend, hcmd⟩ := pending_run h0 hst hp hr
  refine ⟨?_, ⟨fun v i buf data ret => holder_of_write hr, ?_,
    fun i => kind_of_writer hst h0 hr, ?_⟩, fun _ => hpend, ?_⟩
  · have hring := stored_run h0 hst Run.nil hr
    rw [hcmd] at hring
    exact hring
  · rw [List.nodup_iff_count_le_one]
    intro i
    rcases written_run h0 hst hr i with ⟨hzero, -⟩ | ⟨hone, -⟩
    · omega
    · exact hone.le
  · intro i hk hstage
    exact List.count_pos_iff.mp (by rw [count_writers hst h0 hr hk hstage]; exact one_pos)
  · intro i hk hu
    obtain ⟨h₁, v, e, h₂, buf, rfl, hv, hpc⟩ := exists_sendLock hr hu
    have h2 : (v.conns i).pc.stage = 2 := by rw [hpc]; rfl
    have hzero := rewound_run hst h0 hv hk h2
    have hout := response_run h0 hr hzero.ge hpc hu
    rw [hzero] at hout
    refine ⟨h₁, v, (i, e), h₂, rfl, ?_, hout⟩
    exact List.count_pos_iff.mp (by rw [count_writers hst h0 hv hk (by omega)]; exact one_pos)

/-- The first `n` digits, a command each: a digit and a newline. -/
def digits (n : ℕ) : DriverState :=
  aesdInitModule.run <| (List.range n).map fun d =>
    .write 0 ⟨[UInt8.ofNat (48 + d), 10], Nat.lt_of_succ_lt (by decide : 3 < 2 ^ 63)⟩ {}

/-- `AESDCHAR_IOCSEEKTO:d,0` and a newline from client 0, `ab` and a newline from client 1, `c` and
a newline from the others. -/
def seekOrPacket (d : Fin 10) (i : ℕ) : List UInt8 :=
  if i = 0 then seekPrefix ++ [UInt8.ofNat (48 + d), 44, 48, 10]
  else if i = 1 then [97, 98, 10]
  else [99, 10]

theorem sends_seekOrPacket (d : Fin 10) (i : ℕ) :
    Sends (seekOrPacket d i) (if i = 0 then some ⟨UInt32.ofNat d, 0⟩ else none) := by
  unfold seekOrPacket
  by_cases hi : i = 0
  · rw [if_pos hi, if_pos hi]
    have hc : seekCommand (seekPrefix ++ [UInt8.ofNat (48 + d), 44, 48, 10]) =
        some ⟨UInt32.ofNat d, 0⟩ := by
      revert d
      decide
    have hp : Packet (seekPrefix ++ [UInt8.ofNat (48 + d), 44, 48, 10]) :=
      ⟨by clear hc; revert d; decide, seekPrefix ++ [UInt8.ofNat (48 + d), 44, 48],
        List.append_assoc _ _ _, by clear hc; revert d; decide⟩
    exact Sends.seek hp hc (List.append_nil _).symm
  · rw [if_neg hi, if_neg hi]
    split
    · exact Sends.packet ⟨by decide, [97, 98], rfl, by decide⟩ (by decide)
    · exact Sends.packet ⟨by decide, [99], rfl, by decide⟩ (by decide)

/-- Three clients on a full ring: 1 and 2 write, 0 seeks the last command, then 1 and 0 read. -/
def turnsChoices : List (ℕ × Ret) :=
  ([(1, { val := 4 }), (0, { val := 3 }), (2, { val := 5 }), (1, { ptr := some 1 }),
      (0, { ptr := some 0 }), (2, { ptr := some 2 }), (1, { val := 1 }), (2, { val := 1 }),
      (0, { val := 1 }), (2, { val := 2, data := [99, 10] }),
      (1, { val := 3, data := [97, 98, 10] }),
      (0, { val := 23, data := seekPrefix ++ [57, 44, 48, 10] })] : List (ℕ × Ret)) ++
    -- the critical sections of the two writes and of the seek
    ([1, 1, 1, 2, 1, 2, 2, 0, 2, 0, 0, 0, 1].map fun i => ((i, {}) : ℕ × Ret)) ++
    ([(1, { ptr := some 1 }), (0, { ptr := some 0 }), (1, {})] : List (ℕ × Ret)) ++
    -- the read sections
    (List.replicate 8 ([(1, {}), (1, { val := 2 })] : List (ℕ × Ret))).flatten ++
    ([(1, {}), (1, { val := 3 }), (1, {}), (1, { val := 2 }), (1, {}), (1, {}), (0, {}), (0, {}),
      (0, { val := 2 }), (0, {})] : List (ℕ × Ret))

theorem serial_interleaved : ∃ h u,
    Run System.Step (System.start (digits 10) (fun _ => 0) (seekOrPacket 9)) h u ∧
    writers h = [1, 2] ∧
    u.driver.stored = (digits 10).stored.drop 2 ++ [[97, 98, 10], [99, 10]] ∧
    (u.conns 0).outbox = [99, 10] ∧
    ∃ h₁ v e h₂, h = h₁ ++ (v, e) :: h₂ ∧ 1 ∈ writers h₁ ∧
      (u.conns 1).outbox = v.driver.content := by
  have hr := Run.of_played System.step_of_next
    (System.start (digits 10) (fun _ => 0) (seekOrPacket 9)) turnsChoices (by decide +kernel)
  have hwriters : writers (played System.next
      (System.start (digits 10) (fun _ => 0) (seekOrPacket 9)) turnsChoices).1 = [1, 2] := by
    decide +kernel
  obtain ⟨hring, -, -, hresp⟩ := serial ⟨_, rfl⟩ (by decide +kernel) (sends_seekOrPacket 9) hr
  rw [hwriters] at hring
  exact ⟨_, _, hr, hwriters, hring.trans (by decide +kernel), by decide +kernel,
    hresp 1 rfl (by decide +kernel)⟩

end Aesd.Server
