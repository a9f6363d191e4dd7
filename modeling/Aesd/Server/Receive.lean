/-
# What `receive_data` has received, written and sought

One invariant (`Phase`) of a client thread whose calls do not fail: at each program point, how
the locals stand to the bytes received so far, the bytes written to the device so far and the
seeks performed so far.  `Phase.step` says every call keeps it, for any results the system may
give; the later files cite it and never look at the machine again.

The receive buffer grows by doubling exactly when it is full but for the terminating NUL, so its
size is determined by the number of bytes received: it is the least `1024 * 2 ^ k` with room for
one more byte (`Growing`).  At the `recv` that completes the packet this bounds how much behind
the packet can arrive with it (`Arrives`).
-/
import Aesd.Server.Thread

namespace Aesd.Server

open MachineInt CString Aesd.Driver

/-! ## 1. The buffer while it grows -/

/-- The locals of `receive_data` when the bytes `got` are in a buffer of `1024 * 2 ^ k`, no
newline found yet and room for more. -/
structure Growing (r : Receiving) (got : List UInt8) (k : ℕ) : Prop where
  content : r.content = got
  packetSize : r.packetSize = got.length
  bufSize : r.bufSize = 1024 * 2 ^ k
  le : k ≤ 20
  room : got.length + 1 < 1024 * 2 ^ k
  least : k = 0 ∨ 1024 * 2 ^ (k - 1) ≤ got.length + 1
  seekto : r.ioctlSeektoReceived = false
  noLine : strchr got newline = none

/-- The same between the doubling of `buf_size` and the `realloc`: the old size is just used up. -/
structure Doubling (r : Receiving) (got : List UInt8) (k : ℕ) : Prop where
  content : r.content = got
  packetSize : r.packetSize = got.length
  bufSize : r.bufSize = wrapS 32 (1024 * 2 ^ k * 2)
  le : k ≤ 20
  full : got.length + 1 = 1024 * 2 ^ k
  seekto : r.ioctlSeektoReceived = false
  noLine : strchr got newline = none

/-- The bytes `got` came in by `recv` calls the last of which brought the newline: before it they
filled the buffer of that size, and with it they still fit. -/
def Arrives (got : List UInt8) : Prop :=
  ∃ before k, before <+: got ∧ strchr before newline = none ∧ k ≤ 20 ∧
    got.length < 1024 * 2 ^ k ∧ (k = 0 ∨ 1024 * 2 ^ (k - 1) ≤ before.length + 1)

/-- The locals of `receive_data` once the newline is found. -/
structure Found (r : Receiving) (got : List UInt8) : Prop where
  content : r.content = got
  length : ∃ pos, strchr got newline = some pos ∧ r.packetLength = pos + 1
  arrives : Arrives got
  seekto : r.ioctlSeektoReceived = false
  received : r.bytesReceived ≠ -1

/-- What `receive_data` leaves: nothing done at the end of a stream without a packet, or the
packet written, or the seek performed. -/
inductive Handled (got rest written : List UInt8) (seeks : List AesdSeekto) : Prop
  | endOfStream : rest = [] → strchr got newline = none → written = [] → seeks = [] →
      Handled got rest written seeks
  | sought (seekto : AesdSeekto) : (∃ pos, strchr got newline = some pos) → Arrives got →
      seekCommand got = some seekto → written = [] → seeks = [seekto] →
      Handled got rest written seeks
  | wrote (pos : ℕ) : strchr got newline = some pos → Arrives got → seekCommand got = none →
      written = got.take (pos + 1) → seeks = [] → Handled got rest written seeks

/-! ## 2. The invariant -/

/-- **The invariant of a client thread**: `got` was received, `rest` is still to come, `written`
was written to the device and `seeks` were performed. -/
def Phase (got rest written : List UInt8) (seeks : List AesdSeekto) : Pc → Prop
  | .openFile _ => got = [] ∧ written = [] ∧ seeks = []
  | .recvMalloc _ => got = [] ∧ written = [] ∧ seeks = []
  | .whileActive r => (∃ k, Growing r got k) ∧ written = [] ∧ seeks = []
  | .recvCall r => (∃ k, Growing r got k) ∧ written = [] ∧ seeks = []
  | .realloc r => (∃ k, Doubling r got k) ∧ written = [] ∧ seeks = []
  | .seekLock r seekto =>
    Found r got ∧ seekCommand got = some seekto ∧ written = [] ∧ seeks = []
  | .seekIoctl r seekto =>
    Found r got ∧ seekCommand got = some seekto ∧ written = [] ∧ seeks = []
  | .seekUnlock r =>
    Found r got ∧ ∃ seekto, seekCommand got = some seekto ∧ written = [] ∧ seeks = [seekto]
  | .writeLock r =>
    Found r got ∧ seekCommand got = none ∧ r.bytesWritten = 0 ∧ written = [] ∧ seeks = []
  | .writeCall r =>
    Found r got ∧ seekCommand got = none ∧ r.bytesWritten < r.packetLength ∧
      written = got.take r.bytesWritten ∧ seeks = []
  | .writeUnlock r =>
    Found r got ∧ seekCommand got = none ∧ written = got.take r.packetLength ∧ seeks = []
  | .lseek _ => seeks = [] ∧ Handled got rest written seeks
  | .recvFree _ ret => ret = 0 ∧ Handled got rest written seeks
  | .sendUnlock _ bytesRead => bytesRead ≠ -1 ∧ Handled got rest written seeks
  | .seekFailUnlock _ => False
  | .writeFailUnlock _ => False
  | .sendFailFree _ => False
  | .sendFailUnlock => False
  | _ => Handled got rest written seeks

/-! ## 3. The steps of `receive_data` -/

theorem length_packet_le {got : List UInt8} {pos : ℕ} (h : strchr got newline = some pos) :
    pos + 1 ≤ got.length := by
  unfold strchr at h
  obtain ⟨hlt, -⟩ := List.findIdx?_eq_some_iff_findIdx_eq.mp h
  have hle : (cstr got).length ≤ got.length := (List.takeWhile_prefix _).length_le
  omega

/-- The buffer of a fresh `malloc`. -/
theorem growing_init (junk : ℤ) (buf : ℕ) :
    Growing { bufSize := 1024, packetSize := 0, bytesReceived := junk
              ioctlSeektoReceived := false, packetLength := 0, bytesWritten := 0, buf := buf
              content := [] } [] 0 :=
  ⟨rfl, rfl, rfl, by decide, by decide, Or.inl rfl, rfl, rfl⟩

/-- A `recv` asks for the room that is left but for the NUL. -/
theorem Growing.request {r : Receiving} {got : List UInt8} {k : ℕ} (h : Growing r got k) :
    wrapU 64 (r.bufSize - r.packetSize - 1) = 1024 * 2 ^ k - got.length - 1 := by
  have hroom := h.room
  have hpow : (2 : ℕ) ^ k ≤ 2 ^ 20 := Nat.pow_le_pow_right (by decide) h.le
  have hcast : ((1024 * 2 ^ k : ℕ) : ℤ) = 1024 * 2 ^ k := by push_cast; rfl
  have hlen : r.bufSize - r.packetSize - 1 = ((1024 * 2 ^ k - got.length - 1 : ℕ) : ℤ) := by
    rw [h.bufSize, h.packetSize]
    omega
  rw [hlen]
  exact wrapU_natCast (by omega)

/-- There is room for a byte. -/
theorem Growing.answers_byte {r : Receiving} {got : List UInt8} {k : ℕ} (h : Growing r got k)
    (x : UInt8) : (Op.recv r.buf r.packetSize (r.bufSize - r.packetSize - 1)).Answers
      { val := [x].length, data := [x] } := by
  have hroom := h.room
  refine Or.inr ⟨rfl, ?_⟩
  rw [h.request, List.length_singleton]
  omega

/-- Below its limit the doubled size is asked for as it is. -/
theorem Doubling.request_lt {r : Receiving} {got : List UInt8} {k : ℕ} (h : Doubling r got k)
    (hk : 1024 * 2 ^ k * 2 < 2 ^ 31) : wrapU 64 r.bufSize = 1024 * 2 ^ k * 2 := by
  have hcast : (1024 * 2 ^ k * 2 : ℤ) = ((1024 * 2 ^ k * 2 : ℕ) : ℤ) := by push_cast; rfl
  rw [h.bufSize, hcast, wrapS_natCast (w := 31) hk]
  exact wrapU_natCast (by omega)

/-- The size after doubling is the next power, or a request nothing grants. -/
theorem Doubling.growing {r : Receiving} {got : List UInt8} {k : ℕ} (h : Doubling r got k)
    {ret : Ret} (ha : (Op.realloc r.buf r.bufSize).Answers ret) {temp : ℕ}
    (hp : ret.ptr = some temp) :
    Growing { r with buf := temp } got (k + 1) := by
  rcases Nat.lt_or_ge k 20 with hk | hk
  · have hpow : (2 : ℕ) ^ (k + 1) ≤ 2 ^ 20 := Nat.pow_le_pow_right (by decide) hk
    have hsucc : (2 : ℕ) ^ (k + 1) = 2 ^ k * 2 := pow_succ 2 k
    have hsize : r.bufSize = 1024 * 2 ^ (k + 1) := by
      have hcast : (1024 * 2 ^ k * 2 : ℤ) = ((1024 * 2 ^ (k + 1) : ℕ) : ℤ) := by
        push_cast
        rw [pow_succ, mul_assoc]
      rw [h.bufSize, hcast, wrapS_natCast (w := 31) (by omega)]
      push_cast
      rfl
    have hfull := h.full
    refine ⟨h.content, h.packetSize, hsize, hk, by omega, Or.inr ?_, h.seekto, h.noLine⟩
    rw [Nat.add_sub_cancel]
    exact hfull.ge
  · obtain rfl : k = 20 := Nat.le_antisymm h.le hk
    have hsize := h.bufSize
    rw [show wrapS 32 (1024 * 2 ^ 20 * 2) = -2147483648 by decide] at hsize
    have hnone : ret.ptr = none := ha (by rw [hsize]; decide)
    exact absurd (hp.symm.trans hnone) (by simp)

/-- What a `recv` brings fits behind what is there, with the NUL. -/
theorem Growing.fits {r : Receiving} {got : List UInt8} {k : ℕ} (h : Growing r got k) {ret : Ret}
    (ha : (Op.recv r.buf r.packetSize (r.bufSize - r.packetSize - 1)).Answers ret)
    (hval : ret.val ≠ -1) :
    ret.val = ret.data.length ∧ (got ++ ret.data).length + 1 ≤ 1024 * 2 ^ k := by
  have hroom := h.room
  rcases ha with ⟨hfail, -⟩ | ⟨hv, hd⟩
  · exact absurd hfail hval
  · rw [h.request] at hd
    rw [List.length_append]
    exact ⟨hv, by omega⟩

/-- The new `packet_size`. -/
theorem Growing.packetSize_add {r : Receiving} {got : List UInt8} {k : ℕ} (h : Growing r got k)
    {ret : Ret} (ha : (Op.recv r.buf r.packetSize (r.bufSize - r.packetSize - 1)).Answers ret)
    (hval : ret.val ≠ -1) : r.packetSize + ret.val = (got ++ ret.data).length := by
  rw [h.packetSize, (h.fits ha hval).1, List.length_append, Nat.cast_add]

/-- **A `recv` that brings bytes** leads to the next step: the newline is found, the buffer is
full, or there is room for more. -/
theorem Growing.received {r : Receiving} {got : List UInt8} {k : ℕ} (h : Growing r got k)
    {ret : Ret} (ha : (Op.recv r.buf r.packetSize (r.bufSize - r.packetSize - 1)).Answers ret)
    (hpos : 0 < ret.val) (rest : List UInt8) :
    Phase (got ++ ret.data) rest [] [] (r.received ret) := by
  have hle := h.le
  have hpow : (2 : ℕ) ^ k ≤ 2 ^ 20 := Nat.pow_le_pow_right (by decide) h.le
  obtain ⟨-, hfit⟩ := h.fits ha (by omega)
  have hsize : wrapS 32 (r.packetSize + ret.val) = (got ++ ret.data).length := by
    rw [h.packetSize_add ha (by omega), wrapS_natCast (w := 31) (by omega)]
  have hcontent : r.content.take r.packetSize.toNat ++ ret.data = got ++ ret.data := by
    rw [h.content, h.packetSize, Int.toNat_natCast, List.take_length]
  have harr : Arrives (got ++ ret.data) :=
    ⟨got, k, List.prefix_append _ _, h.noLine, h.le, by omega, h.least⟩
  unfold Receiving.received
  simp only [hsize, hcontent]
  cases hs : strchr (got ++ ret.data) newline with
  | some pos =>
    have hval' : ret.val ≠ -1 := by omega
    cases hc : seekCommand (got ++ ret.data) with
    | some seekto => exact ⟨⟨rfl, ⟨pos, hs, rfl⟩, harr, h.seekto, hval'⟩, hc, rfl, rfl⟩
    | none => exact ⟨⟨rfl, ⟨pos, hs, rfl⟩, harr, h.seekto, hval'⟩, hc, rfl, rfl, rfl⟩
  | none =>
    have hcast : ((1024 * 2 ^ k : ℕ) : ℤ) = 1024 * 2 ^ k := by push_cast; rfl
    simp only
    split
    · rename_i hge
      rw [h.bufSize] at hge
      exact ⟨⟨k, rfl, rfl, by rw [h.bufSize], h.le, by omega, h.seekto, hs⟩, rfl, rfl⟩
    · rename_i hlt
      rw [h.bufSize] at hlt
      refine ⟨⟨k, rfl, rfl, h.bufSize, h.le, by omega, ?_, h.seekto, hs⟩, rfl, rfl⟩
      rcases h.least with h0 | hge
      · exact Or.inl h0
      · rw [List.length_append]
        exact Or.inr (by omega)

/-- The end of the stream. -/
theorem Growing.finish {r : Receiving} {got : List UInt8} {k : ℕ} (h : Growing r got k) {val : ℤ}
    (hval : val ≠ -1) :
    Phase got [] [] [] (Receiving.finish { r with bytesReceived := val }) := by
  rw [Receiving.finish, if_neg hval, if_neg (by rw [h.seekto]; exact Bool.false_ne_true)]
  exact ⟨rfl, Handled.endOfStream rfl h.noLine rfl rfl⟩

/-- The head of the write loop. -/
theorem Found.whileUnwritten {r : Receiving} {got rest : List UInt8} (h : Found r got)
    (hc : seekCommand got = none) (hle : r.bytesWritten ≤ r.packetLength) :
    Phase got rest (got.take r.bytesWritten) [] r.whileUnwritten := by
  unfold Receiving.whileUnwritten
  split
  · rename_i hlt
    exact ⟨h, hc, hlt, rfl, rfl⟩
  · rename_i hge
    rw [Nat.le_antisymm hle (Nat.le_of_not_lt hge)]
    exact ⟨h, hc, rfl, rfl⟩

/-- What a handled packet leaves. -/
theorem Found.handled {r : Receiving} {got rest written : List UInt8} {seeks : List AesdSeekto}
    (h : Found r got)
    (hc : (seekCommand got = none ∧ written = got.take r.packetLength ∧ seeks = []) ∨
      ∃ seekto, seekCommand got = some seekto ∧ written = [] ∧ seeks = [seekto]) :
    Handled got rest written seeks := by
  obtain ⟨pos, hp, hlen⟩ := h.length
  rcases hc with ⟨hc, hw, hs⟩ | ⟨seekto, hc, hw, hs⟩
  · exact Handled.wrote pos hp h.arrives hc (by rw [hw, hlen]) hs
  · exact Handled.sought seekto ⟨pos, hp⟩ h.arrives hc hw hs

/-- What the `recv` call does.  A `recv` that brings nothing has come to the end of the stream. -/
theorem Growing.recvCall {r : Receiving} {got rest : List UInt8} {k : ℕ} (h : Growing r got k)
    {ret : Ret} (ha : (Op.recv r.buf r.packetSize (r.bufSize - r.packetSize - 1)).Answers ret)
    (hs : ret.val ≠ -1) (hend : ret.data = [] → rest = []) :
    Phase (got ++ ret.data) rest [] [] ((Pc.recvCall r).resume ret) := by
  rw [Pc.resume]
  split
  · rename_i hpos
    exact h.received ha hpos rest
  · rename_i hneg
    have hdata : ret.data = [] := by
      rcases ha with ⟨hfail, -⟩ | ⟨hval, -⟩
      · exact absurd hfail hs
      · exact List.length_eq_zero_iff.mp (by omega)
    rw [hend hdata, hdata, List.append_nil]
    exact h.finish hs

/-- What a `write` call does: the bytes accepted follow those accepted before. -/
theorem Found.writeCall {r : Receiving} {got rest : List UInt8} (h : Found r got)
    (hc : seekCommand got = none) {ret : Ret} {data : List UInt8}
    (hdata : data = (r.content.drop r.bytesWritten).take (r.packetLength - r.bytesWritten))
    (ha : (Op.write r.buf data).Answers ret) (hs : ret.val ≠ -1)
    (hle : r.bytesWritten ≤ r.packetLength) :
    Phase got rest (got.take r.bytesWritten ++ (Op.write r.buf data).written ret) []
      ((Pc.writeCall r).resume ret) := by
  subst hdata
  have hval : ret.val.toNat ≤ r.packetLength - r.bytesWritten := by
    rcases ha with hfail | ⟨-, hle⟩
    · exact absurd hfail hs
    · rw [List.length_take] at hle
      omega
  have hle : r.bytesWritten + ret.val.toNat ≤ r.packetLength := by omega
  have hacc : got.take r.bytesWritten ++ (Op.write r.buf
      ((r.content.drop r.bytesWritten).take (r.packetLength - r.bytesWritten))).written ret =
        got.take (r.bytesWritten + ret.val.toNat) := by
    rw [Op.written, h.content, List.take_take, Nat.min_eq_left hval, ← List.take_add]
  have h' : Found { r with bytesWritten := r.bytesWritten + ret.val.toNat } got :=
    ⟨h.content, h.length, h.arrives, h.seekto, h.received⟩
  rw [hacc, Pc.resume, if_neg hs]
  exact h'.whileUnwritten hc hle

/-- Behind a seek `receive_data` returns at once. -/
theorem Found.resume_seekUnlock {r : Receiving} {got : List UInt8} (h : Found r got) (ret : Ret) :
    (Pc.seekUnlock r).resume ret = .recvFree r.buf 0 := by
  rw [Pc.resume, Receiving.finish]
  exact (if_neg h.received).trans (if_pos rfl)

/-- Behind a written packet it rewinds. -/
theorem Found.resume_writeUnlock {r : Receiving} {got : List UInt8} (h : Found r got) (ret : Ret) :
    (Pc.writeUnlock r).resume ret = .lseek r.reset := by
  have hno : ¬ r.reset.ioctlSeektoReceived = true := by
    rw [Receiving.reset, h.seekto]
    exact Bool.false_ne_true
  rw [Pc.resume, Receiving.finish]
  exact (if_neg h.received).trans (if_neg hno)

/-! ## 4. Every step -/

/-- **The step lemma**: a call that does not fail keeps the invariant. -/
theorem Phase.step {c c' : Conn} {e : Event} {got written : List UInt8} {seeks : List AesdSeekto}
    (h : Phase got c.inbox written seeks c.pc) (hs : c.Step e c') :
    Phase (got ++ e.1.received e.2) c'.inbox (written ++ e.1.written e.2) (seeks ++ e.1.seeks)
      c'.pc := by
  obtain ⟨op, ret⟩ := e
  obtain ⟨hop, hans, hsucc, hinbox, hend, -, hpc⟩ := hs
  obtain ⟨pc, inbox, outbox⟩ := c
  simp only at hop hans hsucc hinbox hend hpc h ⊢
  rw [hpc]
  cases pc with
  | openFile junk =>
    obtain rfl := Option.some.inj hop
    obtain ⟨rfl, rfl, rfl⟩ := h
    rw [Pc.resume, if_neg hsucc]
    exact ⟨rfl, rfl, rfl⟩
  | recvMalloc junk =>
    obtain rfl := Option.some.inj hop
    obtain ⟨rfl, rfl, rfl⟩ := h
    obtain ⟨buf, hbuf⟩ := Option.isSome_iff_exists.mp hsucc
    rw [Pc.resume, hbuf]
    exact ⟨⟨0, growing_init junk buf⟩, rfl, rfl⟩
  | whileActive r =>
    obtain rfl := Option.some.inj hop
    obtain ⟨hg, rfl, rfl⟩ := h
    have hactive : ret.val ≠ 0 := hsucc
    rw [Pc.resume, if_pos hactive]
    simp only [Op.received, List.append_nil]
    exact ⟨hg, rfl, rfl⟩
  | recvCall r =>
    obtain rfl := Option.some.inj hop
    obtain ⟨⟨k, hg⟩, rfl, rfl⟩ := h
    refine hg.recvCall hans hsucc ?_
    intro hdata
    have hnil := hend ⟨_, _, _, rfl⟩ hdata
    rw [hnil, eq_comm, List.append_eq_nil_iff] at hinbox
    exact hinbox.2
  | seekLock r seekto =>
    obtain rfl := Option.some.inj hop
    obtain ⟨hf, hc, rfl, rfl⟩ := h
    simp only [Op.received, List.append_nil]
    exact ⟨hf, hc, rfl, rfl⟩
  | seekIoctl r seekto =>
    obtain rfl := Option.some.inj hop
    obtain ⟨hf, hc, rfl, rfl⟩ := h
    rw [Pc.resume, if_neg (Int.not_lt.mpr hsucc)]
    simp only [Op.received, List.append_nil]
    exact ⟨hf, seekto, hc, rfl, rfl⟩
  | seekUnlock r =>
    obtain rfl := Option.some.inj hop
    obtain ⟨hf, seekto, hc, rfl, rfl⟩ := h
    rw [hf.resume_seekUnlock]
    simp only [Op.received, List.append_nil]
    exact ⟨rfl, hf.handled (Or.inr ⟨seekto, hc, rfl, rfl⟩)⟩
  | writeLock r =>
    obtain rfl := Option.some.inj hop
    obtain ⟨hf, hc, hz, rfl, rfl⟩ := h
    have h1 := @Found.whileUnwritten r got c'.inbox hf hc (by rw [hz]; exact Nat.zero_le _)
    rw [hz, List.take_zero] at h1
    simp only [Op.received, List.append_nil]
    exact h1
  | writeCall r =>
    obtain rfl := Option.some.inj hop
    obtain ⟨hf, hc, hlt, rfl, rfl⟩ := h
    have hpos : 0 < ret.val := hsucc
    simp only [Op.received, List.append_nil]
    exact hf.writeCall hc rfl hans (by omega) hlt.le
  | writeUnlock r =>
    obtain rfl := Option.some.inj hop
    obtain ⟨hf, hc, rfl, rfl⟩ := h
    rw [hf.resume_writeUnlock]
    simp only [Op.received, Op.written, List.append_nil]
    exact ⟨rfl, hf.handled (Or.inl ⟨hc, rfl, rfl⟩)⟩
  | realloc r =>
    obtain rfl := Option.some.inj hop
    obtain ⟨⟨k, hd⟩, rfl, rfl⟩ := h
    obtain ⟨temp, htemp⟩ := Option.isSome_iff_exists.mp hsucc
    rw [Pc.resume, htemp]
    simp only [Op.received, List.append_nil]
    exact ⟨⟨k + 1, hd.growing hans htemp⟩, rfl, rfl⟩
  | lseek r =>
    obtain rfl := Option.some.inj hop
    obtain rfl : inbox = c'.inbox := hinbox
    rw [Pc.resume, if_neg hsucc]
    simp only [Op.received, Op.written, Op.seeks, List.append_nil]
    exact ⟨rfl, h.2⟩
  | recvFree buf r =>
    obtain rfl := Option.some.inj hop
    obtain rfl : inbox = c'.inbox := hinbox
    obtain ⟨rfl, h⟩ := h
    rw [Pc.resume, if_neg (by decide)]
    simp only [Op.received, Op.written, Op.seeks, List.append_nil]
    exact h
  | sendMalloc =>
    obtain rfl := Option.some.inj hop
    obtain rfl : inbox = c'.inbox := hinbox
    obtain ⟨buf, hbuf⟩ := Option.isSome_iff_exists.mp hsucc
    rw [Pc.resume, hbuf]
    simp only [Op.received, Op.written, Op.seeks, List.append_nil]
    exact h
  | readCall buf =>
    obtain rfl := Option.some.inj hop
    obtain rfl : inbox = c'.inbox := hinbox
    rw [Pc.resume]
    simp only [Op.received, Op.written, Op.seeks, List.append_nil]
    split
    · exact h
    · exact ⟨hsucc, h⟩
  | sendCall buf chunk totalSent =>
    obtain rfl := Option.some.inj hop
    obtain rfl : inbox = c'.inbox := hinbox
    have hpos : 0 < ret.val := hsucc
    rw [Pc.resume, if_neg (by omega)]
    simp only [Op.received, Op.written, Op.seeks, List.append_nil]
    split
    · exact h
    · exact h
  | sendUnlock buf bytesRead =>
    obtain rfl := Option.some.inj hop
    obtain rfl : inbox = c'.inbox := hinbox
    simp only [Op.received, Op.written, Op.seeks, List.append_nil]
    exact h.2
  | sendLock | sendFree | closeFile | closeClient | lockList | setComplete | unlockList =>
    obtain rfl := Option.some.inj hop
    obtain rfl : inbox = c'.inbox := hinbox
    simp only [Op.received, Op.written, Op.seeks, List.append_nil]
    exact h
  | seekFailUnlock | writeFailUnlock | sendFailFree | sendFailUnlock => exact h.elim
  | exited => exact absurd hop (by simp [Pc.op])

/-! ## 5. Runs -/

/-- The history of a thread with its client. -/
abbrev History := List (Conn × Event)

/-- The bytes received in a run. -/
def received (h : History) : List UInt8 := h.flatMap fun ue => ue.2.1.received ue.2.2

/-- The bytes written to the device in a run. -/
def written (h : History) : List UInt8 := h.flatMap fun ue => ue.2.1.written ue.2.2

/-- The seeks performed in a run. -/
def seeks (h : History) : List AesdSeekto := h.flatMap fun ue => ue.2.1.seeks

theorem received_concat (h : History) (c : Conn) (e : Event) :
    received (h ++ [(c, e)]) = received h ++ e.1.received e.2 := by simp [received]

theorem written_concat (h : History) (c : Conn) (e : Event) :
    written (h ++ [(c, e)]) = written h ++ e.1.written e.2 := by simp [written]

theorem seeks_concat (h : History) (c : Conn) (e : Event) :
    seeks (h ++ [(c, e)]) = seeks h ++ e.1.seeks := by simp [seeks]

/-- A thread about to enter `receive_data`, its client having sent `stream`. -/
abbrev Conn.start (junk : ℤ) (stream : List UInt8) : Conn := ⟨.recvMalloc junk, stream, []⟩

/-- **The run lemma**: a run without failing calls keeps the invariant, and what was received and
what is left make up what the client sent. -/
theorem Phase.run {c₀ c : Conn} {h : History} (h0 : Phase [] c₀.inbox [] [] c₀.pc)
    (hr : Transition.Run Conn.Step c₀ h c) :
    Phase (received h) c.inbox (written h) (seeks h) c.pc ∧ c₀.inbox = received h ++ c.inbox := by
  induction hr with
  | nil => exact ⟨h0, rfl⟩
  | concat _ hs ih =>
    obtain ⟨hp, hst⟩ := ih
    rw [received_concat, written_concat, seeks_concat]
    exact ⟨hp.step hs, by rw [List.append_assoc, ← hs.inbox, ← hst]⟩

theorem phase_run {junk : ℤ} {stream : List UInt8} {h : History} {c : Conn}
    (hr : Transition.Run Conn.Step (Conn.start junk stream) h c) :
    Phase (received h) c.inbox (written h) (seeks h) c.pc ∧ stream = received h ++ c.inbox := by
  have h0 : Phase [] stream [] [] (.recvMalloc junk) := ⟨rfl, rfl, rfl⟩
  exact Phase.run h0 hr

/-- Whether a point is in `receive_data` or before it. -/
def Pc.receiving : Pc → Bool
  | openFile _ | recvMalloc _ | whileActive _ | recvCall _ | seekLock _ _ | seekIoctl _ _
  | seekFailUnlock _ | seekUnlock _ | writeLock _ | writeCall _ | writeFailUnlock _
  | writeUnlock _ | realloc _ | lseek _ | recvFree _ _ => true
  | _ => false

/-- Behind `receive_data` the stream is handled. -/
theorem Phase.handled {got rest written : List UInt8} {seeks : List AesdSeekto} {pc : Pc}
    (h : Phase got rest written seeks pc) (hpc : pc.receiving = false) :
    Handled got rest written seeks := by
  cases pc with
  | sendUnlock buf bytesRead => exact h.2
  | sendFailFree | sendFailUnlock => exact h.elim
  | sendMalloc | sendLock | readCall | sendCall | sendFree | closeFile | closeClient | lockList
  | setComplete | unlockList | exited => exact h
  | _ => exact absurd hpc (by simp [Pc.receiving])

end Aesd.Server
