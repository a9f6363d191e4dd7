/-
# The size of the receive buffer

`buf_size`, `packet_size` and `bytes_received` are `int`s.  As long as `buf_size` does not overflow
they are what they should be: every `recv` is given at least one byte of room and leaves one for the
NUL, inside the memory that was allocated (`InBounds`).

The buffer is doubled when it is full but for the NUL, so it is doubled from `2 ^ 30` when
`2 ^ 30 - 1` bytes without a newline have come, and `2 ^ 31` is no `int`.  Nothing in the loop stops
a client from sending that many, and a shorter stream never gets there: `bounds_iff`.
-/
import Aesd.Server.Boundary
import Aesd.Server.Outcomes

namespace Aesd.Server

open MachineInt CString Aesd.Driver Transition

/-! ## 1. The allocated buffer -/

/-- The size of the buffer in hand after a call, if it was `n` before. -/
def Event.allocates (e : Event) (n : ℕ) : ℕ :=
  match e.1, e.2.ptr with
  | .malloc size, some _ => wrapU 64 size
  | .realloc _ size, some _ => wrapU 64 size
  | _, _ => n

/-- The size of the buffer in hand. -/
def allocated (h : History) : ℕ := h.foldl (fun n ue => ue.2.allocates n) 0

theorem allocated_concat (h : History) (c : Conn) (e : Event) :
    allocated (h ++ [(c, e)]) = e.allocates (allocated h) := by
  rw [allocated, List.foldl_append]
  rfl

/-- In the receive loop the buffer has the size `buf_size` says. -/
def Sized (n : ℕ) : Pc → Prop
  | .whileActive r => n = wrapU 64 r.bufSize
  | .recvCall r => n = wrapU 64 r.bufSize
  | _ => True

theorem Sized.step {c c' : Conn} {e : Event} {n : ℕ} (h : Sized n c.pc) (hs : c.Call e c') :
    Sized (e.allocates n) c'.pc := by
  obtain ⟨op, ret⟩ := e
  have hgoes : c.pc.Goes op ret c'.pc := hs.goes
  generalize c.pc = pc at h hgoes
  generalize c'.pc = pc' at hgoes ⊢
  cases hgoes with
  | recvMalloced hp | realloced hp =>
    simp only [Event.allocates, hp]
    rfl
  | active => exact h
  | received _ ht =>
    cases ht with
    | room r' _ hsize =>
      show n = wrapU 64 r'.bufSize
      rw [hsize]
      exact h
    | seek | packet | full => trivial
  | inactive _ hf | ended _ hf | seekUnlocked hf | writeUnlocked hf => cases hf <;> trivial
  | writeLocked hw | wrote _ hw => cases hw <;> trivial
  | _ => trivial

theorem sized_run {junk : ℤ} {stream : List UInt8} {h : History} {c : Conn}
    (hr : Run Conn.Call (Conn.start junk stream) h c) : Sized (allocated h) c.pc := by
  induction hr with
  | nil => trivial
  | concat _ hs ih =>
    rw [allocated_concat]
    exact ih.step hs

/-! ## 2. One turn of the loop -/

/-- What should hold at a `recv` with the locals `r` that answers `ret`. -/
structure InBounds (h : History) (r : Receiving) (ret : Ret) : Prop where
  packetSize : 0 ≤ r.packetSize ∧ r.packetSize ≤ r.bufSize - 1
  /-- It is given at least one byte of room. -/
  len : 1 ≤ r.bufSize - r.packetSize - 1
  /-- What is there, what may come and the NUL fit the buffer. -/
  fits : r.packetSize + (r.bufSize - r.packetSize - 1) + 1 ≤ allocated h
  /-- `packet_size += bytes_received` -/
  add : 0 < ret.val → r.packetSize + ret.val < 2 ^ 31
  /-- `buf_size *= 2`, if the turn comes to it. -/
  double : (∃ r', (Pc.recvCall r).resume ret = .realloc r') → r.bufSize * 2 < 2 ^ 31

/-- In every run the client's stream is received within bounds. -/
def BoundsHold (step : Conn → Event → Conn → Prop) (junk : ℤ) (stream : List UInt8) : Prop :=
  ∀ h c, Run step (Conn.start junk stream) h c → ∀ h₁ u e h₂ r, h = h₁ ++ (u, e) :: h₂ →
    u.pc = .recvCall r → InBounds h₁ r e.2

/-- The buffer is doubled only when it is full. -/
theorem full_of_realloc {r r' : Receiving} {ret : Ret}
    (h : (Pc.recvCall r).resume ret = .realloc r') :
    0 < ret.val ∧ r.bufSize - 1 ≤ wrapS 32 (r.packetSize + ret.val) := by
  have hgoes := @Pc.goes_resume (.recvCall r) _ rfl ret
  rw [h] at hgoes
  cases hgoes with
  | received hpos ht =>
    cases ht with
    | full _ _ hfull => exact ⟨hpos, hfull⟩
  | ended _ hf => cases hf

/-- **A stream that is too short to fill the largest buffer** is received within bounds, whatever
the calls answer. -/
theorem boundsHold_of_length {junk : ℤ} {stream : List UInt8} (hlen : stream.length < 2 ^ 30 - 1) :
    BoundsHold Conn.Call junk stream := by
  rintro h c hr h₁ u e h₂ r rfl hpc
  obtain ⟨hu, v, hs, -⟩ := hr.split
  obtain ⟨hcourse, hst⟩ := course_run hu
  have hsized := sized_run hu
  rw [hpc] at hcourse hsized
  obtain ⟨⟨k, hg⟩, -, -⟩ := hcourse
  have hop := hs.op
  rw [hpc] at hop
  have hans := hs.answers
  have hin := hs.inbox
  rw [← Option.some.inj hop] at hans hin
  -- all that has come with this `recv` is a part of the stream
  have hgot : (received h₁ ++ e.2.data).length ≤ stream.length := by
    rw [hst, hin]
    simp only [Op.received, List.length_append]
    omega
  have hroom := hg.room
  have hsize := hg.bufSize
  have hpacket := hg.packetSize
  have hpow : (2 : ℕ) ^ k ≤ 2 ^ 20 := Nat.pow_le_pow_right (by decide) hg.le
  have hcast : ((1024 * 2 ^ k : ℕ) : ℤ) = 1024 * 2 ^ k := by push_cast; rfl
  have halloc : allocated h₁ = 1024 * 2 ^ k := by
    rw [show allocated h₁ = wrapU 64 r.bufSize from hsized, hsize, ← hcast]
    exact wrapU_natCast (by omega)
  have hadd : 0 < e.2.val → r.packetSize + e.2.val = (received h₁ ++ e.2.data).length :=
    fun hpos => hg.packetSize_add hans (by omega)
  refine ⟨by omega, by omega, by omega, ?_, ?_⟩
  · intro hpos
    rw [hadd hpos]
    omega
  · rintro ⟨r', hr'⟩
    obtain ⟨hpos, hfull⟩ := full_of_realloc hr'
    rw [hadd hpos, wrapS_natCast (w := 31) (by omega)] at hfull
    omega

/-! ## 3. Too many bytes -/

/-- **`2 ^ 30 - 1` bytes without a newline overflow `buf_size`.** -/
theorem exists_overflow (junk : ℤ) {stream : List UInt8} (hn : newline ∉ stream)
    (hlen : 2 ^ 30 - 1 ≤ stream.length) :
    ∃ h u e v r r', Run Conn.Step (Conn.start junk stream) h u ∧ u.Step e v ∧ u.pc = .recvCall r ∧
      (Pc.recvCall r).resume e.2 = .realloc r' ∧ r.bufSize * 2 = 2 ^ 31 := by
  -- all but the last of them come one at a time
  have hgotlen : (stream.take (2 ^ 30 - 2)).length = 2 ^ 30 - 2 := by
    rw [List.length_take]
    omega
  obtain ⟨x, rest, hrest⟩ : ∃ x rest, stream.drop (2 ^ 30 - 2) = x :: rest := by
    refine List.exists_cons_of_length_pos ?_
    rw [List.length_drop]
    omega
  have hsplit : stream = stream.take (2 ^ 30 - 2) ++ x :: rest := by
    rw [← hrest, List.take_append_drop]
  generalize stream.take (2 ^ 30 - 2) = got at hgotlen hsplit
  subst hsplit
  have hn' : newline ∉ got := fun hm => hn (List.mem_append_left _ hm)
  have hnx : newline ∉ got ++ [x] := fun hm => hn (by
    rw [List.append_cons]
    exact List.mem_append_left _ hm)
  obtain ⟨h, r, hr, hgot⟩ := exists_growing junk got (x :: rest) hn' (by omega)
  obtain ⟨hphase, -⟩ := phase_run hr
  rw [hgot] at hphase
  obtain ⟨⟨k, hg⟩, -, -⟩ := hphase
  have hroom := hg.room
  have hk : k = 20 := by
    by_contra hne
    have hle := hg.le
    have hpow : (2 : ℕ) ^ k ≤ 2 ^ 19 := Nat.pow_le_pow_right (by decide) (by omega)
    omega
  -- the last one
  have hs := @Conn.recv_step r [x] rest [] (List.cons_ne_nil x []) (hg.answers_byte x)
  have hnone : strchr (r.content.take r.packetSize.toNat ++ [x]) newline = none := by
    rw [hg.content, hg.packetSize, Int.toNat_natCast, List.take_length]
    exact strchr_of_not_mem hnx
  rcases received_shape r { val := [x].length, data := [x] } hnone with ⟨r', hpc⟩ | ⟨r', hpc⟩
  · refine ⟨h, _, _, _, r, r', hr, hs, rfl, hs.pc.symm.trans hpc, ?_⟩
    rw [hg.bufSize, hk]
    decide
  · -- there is no room for another byte
    obtain ⟨hphase', -⟩ := phase_run (hr.concat hs)
    rw [hpc] at hphase'
    obtain ⟨⟨k', hg'⟩, -, -⟩ := hphase'
    have hroom' := hg'.room
    have hpow : (2 : ℕ) ^ k' ≤ 2 ^ 20 := Nat.pow_le_pow_right (by decide) hg'.le
    rw [received_concat, hgot, List.length_append, hgotlen] at hroom'
    simp only [Op.received, List.length_singleton] at hroom'
    omega

theorem not_boundsHold_of_length (junk : ℤ) {stream : List UInt8} (hn : newline ∉ stream)
    (hlen : 2 ^ 30 - 1 ≤ stream.length) : ¬ BoundsHold Conn.Step junk stream := by
  intro hall
  obtain ⟨h, u, e, v, r, r', hr, hs, hpc, hres, hsize⟩ := exists_overflow junk hn hlen
  have hin := hall _ v (hr.concat hs) h u e [] r rfl hpc
  have hlt := hin.double ⟨r', hres⟩
  omega

theorem BoundsHold.of_call {junk : ℤ} {stream : List UInt8} (h : BoundsHold Conn.Call junk stream) :
    BoundsHold Conn.Step junk stream :=
  fun h' c hr => h h' c (call_run hr)

/-- **When the arithmetic of the receive loop is right.**  For a stream without a newline: in every
run, however the stream is cut and whether or not calls may fail, every turn of the loop is within
bounds, if and only if the stream has fewer than `2 ^ 30 - 1` bytes. -/
theorem bounds_iff (junk : ℤ) {stream : List UInt8} (hn : newline ∉ stream) :
    (BoundsHold Conn.Call junk stream ↔ stream.length < 2 ^ 30 - 1) ∧
      (BoundsHold Conn.Step junk stream ↔ stream.length < 2 ^ 30 - 1) := by
  have hlong : BoundsHold Conn.Step junk stream → stream.length < 2 ^ 30 - 1 := by
    intro hall
    by_contra hge
    exact not_boundsHold_of_length junk hn (Nat.le_of_not_lt hge) hall
  exact ⟨⟨fun h => hlong h.of_call, boundsHold_of_length⟩,
    ⟨hlong, fun hlen => (boundsHold_of_length hlen).of_call⟩⟩

/-- A stream that fills the first buffer, so that it is doubled, is received within bounds. -/
theorem bounds_iff_doubled : BoundsHold Conn.Call 0 (List.replicate 1023 97) ∧
    ∃ h c, Run Conn.Call (Conn.start 0 (List.replicate 1023 97)) h c ∧
      c.pc.op = some (.realloc 0 2048) := by
  have hn : newline ∉ List.replicate 1023 (97 : UInt8) := by
    intro hm
    exact absurd (List.eq_of_mem_replicate hm) (by decide)
  refine ⟨(bounds_iff 0 hn).1.mpr (by rw [List.length_replicate]; decide), _, _,
    Run.of_played Conn.call_of_answer (Conn.start 0 (List.replicate 1023 97))
      [{ ptr := some 0 }, { val := 1 }, { val := 1023, data := List.replicate 1023 97 }]
      (by decide +kernel), by decide +kernel⟩

/-- **A client that sends `2 ^ 30 - 1` times the same letter** makes `buf_size` overflow, although
no call fails. -/
theorem letters_overflow :
    ¬ ∀ junk stream, newline ∉ stream → BoundsHold Conn.Step junk stream := by
  intro hall
  have hn : newline ∉ List.replicate (2 ^ 30 - 1) (97 : UInt8) := by
    intro hm
    exact absurd (List.eq_of_mem_replicate hm) (by decide)
  exact not_boundsHold_of_length 0 hn (List.length_replicate).ge (hall 0 _ hn)

end Aesd.Server
