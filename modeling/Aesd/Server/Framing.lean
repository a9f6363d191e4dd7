/-
# Where `receive_data` cuts the packet

A client sends a stream whose first line is `body` and a newline.  What the server should do with
it is `Framed`: stop receiving at the `recv` that brings that newline, take the line for the
packet, and write exactly the line unless it is a seek command.

`receive_data` looks for the newline with `strchr` in a buffer it fills by length, and it looks
for a seek command with `sscanf` in everything received.  So it does what it should exactly when
the line has no NUL and the bytes that came in with the newline do not complete a seek command
that the line alone is not (`framed_iff`).  With a NUL in the line no received bytes ever show
their newline (`strchr_line`), and the thread goes on receiving.

That a run gets there is the rest: until it has, the thread is never stuck (`exists_step`) and a
measure drops with every call (`work_step`).
-/
import Aesd.Server.Receive

namespace Aesd.Server

open MachineInt CString Aesd.Driver Transition

/-! ## 1. What the server should do -/

/-- The packet at the points where `receive_data` has computed its length. -/
def Pc.packet? : Pc → Option (List UInt8)
  | seekLock r _ => some (r.content.take r.packetLength)
  | seekIoctl r _ => some (r.content.take r.packetLength)
  | seekUnlock r => some (r.content.take r.packetLength)
  | writeLock r => some (r.content.take r.packetLength)
  | writeCall r => some (r.content.take r.packetLength)
  | writeUnlock r => some (r.content.take r.packetLength)
  | _ => none

/-- **The framing law** for a run and the packet it should cut. -/
structure Framed (line : List UInt8) (h : History) (c : Conn) : Prop where
  /-- `receive_data` has returned. -/
  returned : c.pc.receiving = false
  /-- It never asked for more once it had the newline. -/
  stopped : ∀ h₁ u e h₂, h = h₁ ++ (u, e) :: h₂ → (∃ r, u.pc = .recvCall r) →
    newline ∉ received h₁
  /-- The packet it computed is the one it should. -/
  computed : (∃ u e, (u, e) ∈ h ∧ u.pc.packet? = some line) ∧
    ∀ u e p, (u, e) ∈ h → u.pc.packet? = some p → p = line
  /-- Exactly that was written, unless it is a seek command. -/
  wrote : seekCommand line = none → written h = line

/-- A run that has the newline and has either returned or asks for more. -/
def Settled (h : History) (c : Conn) : Prop :=
  c.pc.receiving = false ∨ ((∃ r, c.pc = .recvCall r) ∧ newline ∈ received h)

/-- What was received when the newline came: the pieces up to the first one that brings it. -/
def arrived (acc : List UInt8) : List (List UInt8) → List UInt8
  | [] => acc
  | piece :: pieces => if newline ∈ acc then acc else arrived (acc ++ piece) pieces

/-- The pieces in which the bytes of a run came in. -/
def pieces (h : History) : List (List UInt8) := h.map fun ue => ue.2.1.received ue.2.2

theorem flatten_pieces (h : History) : (pieces h).flatten = received h := by
  rw [pieces, received, List.flatMap_def]

/-! ## 2. The newline in what was received -/

variable {body rest got : List UInt8}

/-- What was received has the newline exactly when it has the whole line. -/
theorem newline_mem_iff (hb : newline ∉ body) (hg : got <+: body ++ newline :: rest) :
    newline ∈ got ↔ ∃ t, got = body ++ newline :: t := by
  constructor
  · intro hm
    rcases List.prefix_or_prefix_of_prefix hg (List.prefix_append body (newline :: rest)) with h | h
    · exact absurd (h.mem hm) hb
    · obtain ⟨t, rfl⟩ := h
      rw [List.prefix_append_right_inj] at hg
      cases t with
      | nil => exact absurd (by simpa using hm) hb
      | cons x t =>
        obtain ⟨rfl, -⟩ := List.cons_prefix_cons.mp hg
        exact ⟨t, rfl⟩
  · rintro ⟨t, rfl⟩
    exact List.mem_append_right _ List.mem_cons_self

/-- **`strchr` on what was received**: it finds the newline if it is there and no NUL is in the
line, and nothing otherwise. -/
theorem strchr_line (hb : newline ∉ body) (hg : got <+: body ++ newline :: rest) :
    strchr got newline = if 0 ∉ body ∧ newline ∈ got then some body.length else none := by
  split
  · rename_i h
    obtain ⟨t, rfl⟩ := (newline_mem_iff hb hg).mp h.2
    exact strchr_append t h.1 hb (by decide)
  · rename_i h
    by_cases hm : newline ∈ got
    · obtain ⟨t, rfl⟩ := (newline_mem_iff hb hg).mp hm
      have h0 : 0 ∈ body := by
        by_contra h0
        exact h ⟨h0, hm⟩
      exact strchr_of_zero _ h0 hb
    · exact strchr_of_not_mem hm

/-- The line at the front of what was received. -/
theorem take_line (t : List UInt8) :
    (body ++ newline :: t).take (body.length + 1) = body ++ [newline] := by
  rw [List.take_append, List.take_of_length_le (Nat.le_succ _), Nat.add_sub_cancel_left]
  rfl

/-- The pieces up to the newline are all of them if each was asked for without it. -/
theorem arrived_eq : ∀ {ps : List (List UInt8)} {acc : List UInt8},
    (∀ pre p post, ps = pre ++ p :: post → p ≠ [] → newline ∉ acc ++ pre.flatten) →
      arrived acc ps = acc ++ ps.flatten
  | [], acc, _ => by simp [arrived]
  | p :: ps, acc, h => by
    have ih := @arrived_eq ps (acc ++ p) fun pre q post heq hq => by
      have h1 := h (p :: pre) q post (by rw [heq]; rfl) hq
      rwa [List.flatten_cons, ← List.append_assoc] at h1
    unfold arrived
    split
    · rename_i hm
      -- nothing more came in: every further piece is empty
      have hnil : (p :: ps).flatten = [] := by
        rw [List.flatten_eq_nil_iff]
        intro q hq
        by_contra hne
        obtain ⟨pre, post, heq⟩ := List.append_of_mem hq
        exact h pre q post heq hne (List.mem_append_left _ hm)
      rw [hnil, List.append_nil]
    · rw [ih, List.flatten_cons, List.append_assoc]

/-! ## 3. The locals at the points that have a packet -/

/-- Where there is a packet the newline was found. -/
theorem Phase.found {rest written : List UInt8} {seeks : List AesdSeekto} {pc : Pc}
    (h : Phase got rest written seeks pc) {p : List UInt8} (hp : pc.packet? = some p) :
    ∃ pos, strchr got newline = some pos ∧ p = got.take (pos + 1) := by
  have key : ∀ r : Receiving, Found r got → some (r.content.take r.packetLength) = some p →
      ∃ pos, strchr got newline = some pos ∧ p = got.take (pos + 1) := by
    intro r hf heq
    obtain ⟨pos, hpos, hlen⟩ := hf.length
    exact ⟨pos, hpos, by rw [← Option.some.inj heq, hf.content, hlen]⟩
  cases pc with
  | seekLock r seekto => exact key r h.1 hp
  | seekIoctl r seekto => exact key r h.1 hp
  | seekUnlock r => exact key r h.1 hp
  | writeLock r => exact key r h.1 hp
  | writeCall r => exact key r h.1 hp
  | writeUnlock r => exact key r h.1 hp
  | _ => exact absurd hp (by simp [Pc.packet?])

/-- A call that writes or seeks is made at a point that has a packet. -/
theorem Conn.Step.packet {c c' : Conn} {e : Event} (hs : c.Step e c')
    (h : e.1.written e.2 ≠ [] ∨ e.1.seeks ≠ []) : ∃ p, c.pc.packet? = some p := by
  have hop := hs.op
  obtain ⟨op, ret⟩ := e
  cases hpc : c.pc with
  | seekIoctl r seekto => exact ⟨_, rfl⟩
  | writeCall r => exact ⟨_, rfl⟩
  | seekLock r seekto => exact ⟨_, rfl⟩
  | seekUnlock r => exact ⟨_, rfl⟩
  | writeLock r => exact ⟨_, rfl⟩
  | writeUnlock r => exact ⟨_, rfl⟩
  | exited => exact absurd hop (by simp [hpc, Pc.op])
  | _ =>
    rw [hpc, Pc.op, Option.some.injEq] at hop
    subst hop
    simp [Op.written, Op.seeks] at h

/-! ## 4. Runs over one stream -/

section Runs

variable {junk : ℤ} {h : History} {c : Conn}

/-- What a run over a stream with a first line has received, and what `strchr` sees of it. -/
theorem strchr_received (hb : newline ∉ body)
    (hr : Run Conn.Step (Conn.start junk (body ++ newline :: rest)) h c) :
    strchr (received h) newline =
      if 0 ∉ body ∧ newline ∈ received h then some body.length else none :=
  strchr_line hb ⟨c.inbox, (phase_run hr).2.symm⟩

/-- Every packet a run computes is the line, and then the line has no NUL. -/
theorem packet_eq_line (hb : newline ∉ body)
    (hr : Run Conn.Step (Conn.start junk (body ++ newline :: rest)) h c) {p : List UInt8}
    (hp : c.pc.packet? = some p) : 0 ∉ body ∧ newline ∈ received h ∧ p = body ++ [newline] := by
  obtain ⟨hphase, hst⟩ := phase_run hr
  obtain ⟨pos, hpos, rfl⟩ := hphase.found hp
  rw [strchr_received hb hr] at hpos
  split at hpos
  · rename_i hcond
    obtain rfl := Option.some.inj hpos
    obtain ⟨t, ht⟩ := (newline_mem_iff hb ⟨c.inbox, hst.symm⟩).mp hcond.2
    exact ⟨hcond.1, hcond.2, by rw [ht, take_line]⟩
  · exact absurd hpos (by simp)

/-- Without a NUL in the line, no `recv` is made once the newline is there. -/
theorem newline_not_mem_of_recv (hb : newline ∉ body) (h0 : 0 ∉ body)
    (hr : Run Conn.Step (Conn.start junk (body ++ newline :: rest)) h c) {r : Receiving}
    (hpc : c.pc = .recvCall r) : newline ∉ received h := by
  intro hm
  obtain ⟨hphase, -⟩ := phase_run hr
  rw [hpc] at hphase
  obtain ⟨⟨k, hg⟩, -, -⟩ := hphase
  have hs := strchr_received hb hr
  rw [if_pos ⟨h0, hm⟩, hg.noLine] at hs
  exact absurd hs (by simp)

/-- Only a `recv` brings bytes. -/
theorem Conn.Step.recv_of_received {c' : Conn} {e : Event} (hs : c.Step e c')
    (hne : e.1.received e.2 ≠ []) : ∃ r, c.pc = .recvCall r := by
  have hop := hs.op
  obtain ⟨op, ret⟩ := e
  cases hpc : c.pc with
  | recvCall r => exact ⟨r, rfl⟩
  | exited => exact absurd hop (by simp [hpc, Pc.op])
  | _ =>
    rw [hpc, Pc.op, Option.some.injEq] at hop
    subst hop
    exact absurd rfl hne

/-- If no `recv` is made once the newline is there, all that was received came with it. -/
theorem arrived_run (hr : Run Conn.Step (Conn.start junk (body ++ newline :: rest)) h c)
    (hstop : ∀ h₁ u e h₂, h = h₁ ++ (u, e) :: h₂ → (∃ r, u.pc = .recvCall r) →
      newline ∉ received h₁) : arrived [] (pieces h) = received h := by
  rw [arrived_eq, flatten_pieces, List.nil_append]
  intro pre p post heq hp
  rw [List.nil_append]
  obtain ⟨h₁, h₂, rfl, hpre, hpost⟩ := List.map_eq_append_iff.mp heq
  obtain ⟨⟨u, e⟩, h₃, rfl, hpe, -⟩ := List.map_eq_cons_iff.mp hpost
  obtain ⟨-, v, hv, -⟩ := hr.split
  have hrecv := hv.recv_of_received (by rw [hpe]; exact hp)
  have hno := hstop h₁ u e h₃ rfl hrecv
  rwa [← flatten_pieces, pieces, hpre] at hno

/-- Written bytes or seeks come from a point that has a packet. -/
theorem exists_packet (hr : Run Conn.Step (Conn.start junk (body ++ newline :: rest)) h c)
    (hne : written h ≠ [] ∨ seeks h ≠ []) : ∃ u e p, (u, e) ∈ h ∧ u.pc.packet? = some p := by
  obtain ⟨u, e, hm, hue⟩ : ∃ u e, (u, e) ∈ h ∧ (e.1.written e.2 ≠ [] ∨ e.1.seeks ≠ []) := by
    by_contra hno
    have hw : ∀ ue ∈ h, ue.2.1.written ue.2.2 = [] ∧ ue.2.1.seeks = [] := by
      rintro ⟨u, e⟩ hm
      by_contra hne'
      refine hno ⟨u, e, hm, ?_⟩
      by_cases h1 : e.1.written e.2 = []
      · exact Or.inr fun h2 => hne' ⟨h1, h2⟩
      · exact Or.inl h1
    rcases hne with hne | hne
    · exact hne (List.flatMap_eq_nil_iff.mpr fun ue hm => (hw ue hm).1)
    · exact hne (List.flatMap_eq_nil_iff.mpr fun ue hm => (hw ue hm).2)
  obtain ⟨h₁, h₂, rfl⟩ := List.append_of_mem hm
  obtain ⟨-, v, hv, -⟩ := hr.split
  obtain ⟨p, hp⟩ := hv.packet hue
  exact ⟨u, e, p, hm, hp⟩

/-- **Exactly when a settled run frames its packet.** -/
theorem framed_iff (hb : newline ∉ body)
    (hr : Run Conn.Step (Conn.start junk (body ++ newline :: rest)) h c) (hset : Settled h c) :
    Framed (body ++ [newline]) h c ↔
      0 ∉ body ∧ (seekCommand (arrived [] (pieces h)) = none ∨
        (seekCommand (body ++ [newline])).isSome) := by
  obtain ⟨hphase, hst⟩ := phase_run hr
  have hstrchr := strchr_received hb hr
  constructor
  · intro hf
    obtain ⟨⟨u, e, hm, hp⟩, -⟩ := hf.computed
    obtain ⟨h₁, h₂, rfl⟩ := List.append_of_mem hm
    obtain ⟨h0, -, -⟩ := packet_eq_line hb hr.split.1 hp
    refine ⟨h0, ?_⟩
    rw [arrived_run hr hf.stopped]
    cases hself : seekCommand (body ++ [newline]) with
    | some seekto => exact Or.inr rfl
    | none =>
      -- the line was written, so no seek was found
      have hw := hf.wrote hself
      have hhandled := hphase.handled hf.returned
      cases hhandled with
      | endOfStream _ _ hnil => exact absurd (hw.symm.trans hnil) (by simp)
      | sought seekto _ _ _ hnil => exact absurd (hw.symm.trans hnil) (by simp)
      | wrote pos _ _ hc => exact Or.inl hc
  · rintro ⟨h0, hcond⟩
    have hstop : ∀ h₁ u e h₂, h = h₁ ++ (u, e) :: h₂ → (∃ r, u.pc = .recvCall r) →
        newline ∉ received h₁ := by
      rintro h₁ u e h₂ rfl ⟨r, hpc⟩
      exact newline_not_mem_of_recv hb h0 hr.split.1 hpc
    rw [arrived_run hr hstop] at hcond
    have hret : c.pc.receiving = false := by
      rcases hset with hret | ⟨⟨r, hpc⟩, hm⟩
      · exact hret
      · exact absurd hm (newline_not_mem_of_recv hb h0 hr hpc)
    have hall : ∀ u e p, (u, e) ∈ h → u.pc.packet? = some p → p = body ++ [newline] := by
      intro u e p hm hp
      obtain ⟨h₁, h₂, rfl⟩ := List.append_of_mem hm
      exact (packet_eq_line hb hr.split.1 hp).2.2
    have hsome : ∀ u e p, (u, e) ∈ h → u.pc.packet? = some p →
        ∃ u e, (u, e) ∈ h ∧ u.pc.packet? = some (body ++ [newline]) :=
      fun u e p hm hp => ⟨u, e, hm, by rw [hp, hall u e p hm hp]⟩
    cases hphase.handled hret with
    | endOfStream hnil hnone =>
      -- the whole stream was received, so the newline is there to be found
      rw [hnil, List.append_nil] at hst
      rw [if_pos ⟨h0, by rw [← hst]; simp⟩, hnone] at hstrchr
      exact absurd hstrchr (by simp)
    | sought seekto _ _ hc hw hs =>
      obtain ⟨u, e, p, hm, hp⟩ := exists_packet hr (Or.inr (by rw [hs]; simp))
      refine ⟨hret, hstop, ⟨hsome u e p hm hp, hall⟩, ?_⟩
      intro hself
      rw [hc, hself] at hcond
      simp at hcond
    | wrote pos hpos _ hc hw hs =>
      rw [hpos] at hstrchr
      split at hstrchr
      · rename_i hm
        obtain rfl := Option.some.inj hstrchr
        obtain ⟨t, ht⟩ := (newline_mem_iff hb ⟨c.inbox, hst.symm⟩).mp hm.2
        have hwl : written h = body ++ [newline] := by rw [hw, ht, take_line]
        obtain ⟨u, e, p, hm', hp⟩ := exists_packet hr (Or.inl (by rw [hwl]; simp))
        exact ⟨hret, hstop, ⟨hsome u e p hm' hp, hall⟩, fun _ => hwl⟩
      · exact absurd hstrchr (by simp)

/-! ## 5. Every run settles -/

/-- How many calls a thread makes at most before it leaves `receive_data`, if at most `n` bytes
are received and none are left to receive. -/
def Pc.work (n : ℕ) : Pc → ℕ
  | openFile _ => n + 13
  | recvMalloc _ => n + 12
  | realloc _ => n + 12
  | whileActive _ => n + 11
  | recvCall _ => n + 10
  | writeLock _ => n + 9
  | writeCall r => r.packetLength - r.bytesWritten + 5
  | writeUnlock _ => 5
  | seekLock _ _ => 8
  | seekIoctl _ _ => 7
  | seekUnlock _ => 6
  | seekFailUnlock _ => 4
  | writeFailUnlock _ => 4
  | lseek _ => 3
  | recvFree _ _ => 2
  | _ => 0

theorem work_whileUnwritten (n : ℕ) (r : Receiving) :
    r.whileUnwritten.work n ≤ r.packetLength - r.bytesWritten + 5 := by
  unfold Receiving.whileUnwritten
  split
  · exact le_refl _
  · exact Nat.le_add_left 5 _

theorem work_received (n : ℕ) (r : Receiving) (ret : Ret) : (r.received ret).work n ≤ n + 12 := by
  unfold Receiving.received
  simp only
  split
  · split
    · exact (show 8 ≤ 12 by decide).trans (Nat.le_add_left 12 n)
    · exact Nat.add_le_add_left (by decide) n
  · split
    · exact le_refl _
    · exact Nat.add_le_add_left (by decide) n

/-- **Every call lowers the measure** as long as the run is not settled. -/
theorem work_step (hr : Run Conn.Step (Conn.start junk (body ++ newline :: rest)) h c)
    (hset : ¬ Settled h c) {e : Event} {c' : Conn} (hs : c.Step e c') :
    4 * c'.inbox.length + c'.pc.work (body ++ newline :: rest).length <
      4 * c.inbox.length + c.pc.work (body ++ newline :: rest).length := by
  obtain ⟨hphase, hst⟩ := phase_run hr
  obtain ⟨op, ret⟩ := e
  obtain ⟨hop, hans, hsucc, hinbox, hend, -, hpc⟩ := hs
  have hle : c'.inbox.length ≤ c.inbox.length := by
    rw [hinbox, List.length_append]
    exact Nat.le_add_left _ _
  have hgot : (received h).length ≤ (body ++ newline :: rest).length := by
    rw [hst, List.length_append]
    exact Nat.le_add_right _ _
  rw [hpc]
  clear hpc
  generalize (body ++ newline :: rest).length = n at hgot ⊢
  obtain ⟨pc, inbox, outbox⟩ := c
  simp only at hop hans hsucc hinbox hend hphase hst hle ⊢
  cases pc with
  | openFile junk =>
    obtain rfl := Option.some.inj hop
    rw [Pc.resume, if_neg hsucc]
    simp only [Pc.work]
    omega
  | recvMalloc junk =>
    obtain rfl := Option.some.inj hop
    obtain ⟨buf, hbuf⟩ := Option.isSome_iff_exists.mp hsucc
    rw [Pc.resume, hbuf]
    simp only [Pc.work]
    omega
  | whileActive r =>
    obtain rfl := Option.some.inj hop
    have hactive : ret.val ≠ 0 := hsucc
    rw [Pc.resume, if_pos hactive]
    simp only [Pc.work]
    omega
  | recvCall r =>
    obtain rfl := Option.some.inj hop
    have hno : newline ∉ received h := fun hm => hset (Or.inr ⟨⟨r, rfl⟩, hm⟩)
    -- something is left to receive, so something came
    have hne : inbox ≠ [] := by
      rintro rfl
      rw [List.append_nil] at hst
      exact hno (by rw [← hst]; simp)
    have hdata : 0 < ret.data.length :=
      List.length_pos_iff.mpr fun hnil => hne (hend ⟨_, _, _, rfl⟩ hnil)
    have hlen := congrArg List.length hinbox
    rw [Op.received, List.length_append] at hlen
    have hpos : 0 < ret.val := by
      rcases hans with ⟨hfail, -⟩ | ⟨hval, -⟩
      · exact absurd hfail hsucc
      · omega
    rw [Pc.resume, if_pos hpos]
    have hwork := work_received n r ret
    have hpc : (Pc.recvCall r).work n = n + 10 := rfl
    omega
  | seekLock r seekto =>
    simp only [Pc.resume, Pc.work]
    omega
  | seekIoctl r seekto =>
    obtain rfl := Option.some.inj hop
    rw [Pc.resume, if_neg (Int.not_lt.mpr hsucc)]
    simp only [Pc.work]
    omega
  | seekFailUnlock r => exact hphase.elim
  | seekUnlock r =>
    rw [hphase.1.resume_seekUnlock]
    simp only [Pc.work]
    omega
  | writeLock r =>
    obtain ⟨hf, -, hz, -, -⟩ := hphase
    obtain ⟨pos, hpos, hlen⟩ := hf.length
    have hpl := length_packet_le hpos
    have hwork := work_whileUnwritten n r
    have hpc : (Pc.writeLock r).work n = n + 9 := rfl
    rw [Pc.resume]
    omega
  | writeCall r =>
    obtain rfl := Option.some.inj hop
    obtain ⟨-, -, hlt, -, -⟩ := hphase
    have hpos : 0 < ret.val := hsucc
    have hwork := work_whileUnwritten n { r with bytesWritten := r.bytesWritten + ret.val.toNat }
    have hpc : (Pc.writeCall r).work n = r.packetLength - r.bytesWritten + 5 := rfl
    rw [Pc.resume, if_neg (by omega)]
    simp only at hwork
    omega
  | writeFailUnlock r => exact hphase.elim
  | writeUnlock r =>
    rw [hphase.1.resume_writeUnlock]
    simp only [Pc.work]
    omega
  | realloc r =>
    obtain rfl := Option.some.inj hop
    obtain ⟨temp, htemp⟩ := Option.isSome_iff_exists.mp hsucc
    rw [Pc.resume, htemp]
    simp only [Pc.work]
    omega
  | lseek r =>
    obtain rfl := Option.some.inj hop
    rw [Pc.resume, if_neg hsucc]
    simp only [Pc.work]
    omega
  | recvFree buf r =>
    obtain ⟨rfl, -⟩ := hphase
    rw [Pc.resume, if_neg (by decide)]
    simp only [Pc.work]
    omega
  | _ => exact absurd (Or.inl rfl) hset

/-- **The thread is never stuck** before it has settled, if the line has no NUL and the stream is
shorter than `2 ^ 30`. -/
theorem exists_step (hb : newline ∉ body) (h0 : 0 ∉ body)
    (hlen : (body ++ newline :: rest).length < 2 ^ 30)
    (hr : Run Conn.Step (Conn.start junk (body ++ newline :: rest)) h c) (hset : ¬ Settled h c) :
    ∃ e c', c.Step e c' := by
  obtain ⟨hphase, hst⟩ := phase_run hr
  obtain ⟨pc, inbox, outbox⟩ := c
  simp only at hphase hst
  have plain : ∀ op ret, pc.op = some op → op.Answers ret → op.Succeeds ret → op.isRecv = false →
      ∃ e c', Conn.Step ⟨pc, inbox, outbox⟩ e c' :=
    fun op ret hop ha hs hnr => ⟨_, _, Conn.plain_step hop ha hs hnr⟩
  cases pc with
  | openFile junk => exact plain _ { val := 3 } rfl trivial (by decide) rfl
  | recvMalloc junk => exact plain _ { ptr := some 0 } rfl trivial rfl rfl
  | whileActive r => exact plain _ { val := 1 } rfl trivial (by decide) rfl
  | recvCall r =>
    obtain ⟨⟨k, hg⟩, -, -⟩ := hphase
    have hno : newline ∉ received h := fun hm => hset (Or.inr ⟨⟨r, rfl⟩, hm⟩)
    cases inbox with
    | nil =>
      rw [List.append_nil] at hst
      exact absurd (show newline ∈ received h by rw [← hst]; simp) hno
    | cons x inbox =>
      exact ⟨_, _, Conn.recv_step (List.cons_ne_nil x []) (hg.answers_byte x)⟩
  | seekLock r seekto => exact plain _ {} rfl trivial trivial rfl
  | seekIoctl r seekto => exact plain _ {} rfl trivial (le_refl _) rfl
  | seekFailUnlock r => exact hphase.elim
  | seekUnlock r => exact plain _ {} rfl trivial trivial rfl
  | writeLock r => exact plain _ {} rfl trivial trivial rfl
  | writeCall r =>
    obtain ⟨hf, -, hlt, -, -⟩ := hphase
    obtain ⟨pos, hpos, hpl⟩ := hf.length
    have hle := length_packet_le hpos
    refine plain _ { val := 1 } rfl (Or.inr ⟨Int.one_nonneg, ?_⟩) Int.one_pos rfl
    simp only
    rw [hf.content, List.length_take, List.length_drop]
    omega
  | writeFailUnlock r => exact hphase.elim
  | writeUnlock r => exact plain _ {} rfl trivial trivial rfl
  | realloc r =>
    obtain ⟨⟨k, hd⟩, -, -⟩ := hphase
    -- the newline is still to come, so the buffer is far from its limit
    have hno : newline ∉ received h := by
      intro hm
      have hs := strchr_received hb hr
      rw [if_pos ⟨h0, hm⟩, hd.noLine] at hs
      exact absurd hs (by simp)
    have hne : 0 < inbox.length := by
      refine List.length_pos_iff.mpr ?_
      intro hnil
      rw [hnil, List.append_nil] at hst
      exact hno (by rw [← hst]; simp)
    have hsum := congrArg List.length hst
    rw [@List.length_append _ (received h)] at hsum
    have hfull := hd.full
    refine plain _ { ptr := some 0 } rfl (fun hbig => ?_) rfl rfl
    rw [hd.request_lt (by omega)] at hbig
    omega
  | lseek r => exact plain _ {} rfl trivial (by decide) rfl
  | recvFree buf r => exact plain _ {} rfl trivial trivial rfl
  | _ => exact absurd (Or.inl rfl) hset

end Runs

/-! ## 6. The packet of a stream -/

/-- **What `receive_data` makes of a stream.**  Let a stream shorter than `2 ^ 30` bytes have the
first line `body` and a newline, and let no call fail.

* A run that has the newline and returned or asks for more has framed the line, that is, stopped
  at the `recv` that brought the newline, computed the line as the packet and, unless it is a seek
  command, written exactly the line, if and only if the line has no NUL and either the bytes that
  came up to that `recv` are no seek command or the line itself is one.
* Every run gets to such a point within five calls a byte and twelve more.
* Until then it is never stuck, if the line has no NUL. -/
theorem framing (junk : ℤ) {body rest : List UInt8} (hb : newline ∉ body)
    (hlen : (body ++ newline :: rest).length < 2 ^ 30) :
    (∀ h c, Run Conn.Step (Conn.start junk (body ++ newline :: rest)) h c → Settled h c →
      (Framed (body ++ [newline]) h c ↔
        0 ∉ body ∧ (seekCommand (arrived [] (pieces h)) = none ∨
          (seekCommand (body ++ [newline])).isSome))) ∧
    (∀ h c, Run Conn.Step (Conn.start junk (body ++ newline :: rest)) h c →
      5 * (body ++ newline :: rest).length + 12 < h.length →
        ∃ h₁ u e h₂, h = h₁ ++ (u, e) :: h₂ ∧ Settled h₁ u) ∧
    (0 ∉ body → ∀ h c, Run Conn.Step (Conn.start junk (body ++ newline :: rest)) h c →
      ¬ Settled h c → ∃ e c', c.Step e c') := by
  refine ⟨?_, ?_, ?_⟩
  · intro h c hr hset
    exact framed_iff hb hr hset
  · intro h c hr hlong
    rcases hr.measure Settled
        (fun _ c => 4 * c.inbox.length + c.pc.work (body ++ newline :: rest).length)
        (fun hr hset hs => work_step hr hset hs) with hfound | hle
    · exact hfound
    · have hwork : (Conn.start junk (body ++ newline :: rest)).pc.work
          (body ++ newline :: rest).length = (body ++ newline :: rest).length + 12 := rfl
      simp only [hwork] at hle
      omega
  · intro h0 h c hr hset
    exact exists_step hb h0 hlen hr hset

/-- The line `a` in one piece: it is framed. -/
theorem framing_line : ∃ h c, Run Conn.Step (Conn.start 0 [97, 10]) h c ∧ Framed [97, 10] h c := by
  have hr := Run.of_played Conn.step_of_next (Conn.start 0 [97, 10])
    [{ ptr := some 0 }, { val := 1 }, { val := 2, data := [97, 10] }, {}, { val := 2 }, {}, {}, {}]
    (by decide)
  exact ⟨_, _, hr,
    (((@framing 0 [97] [] (by decide) (by decide)).1 _ _ hr) (Or.inl (by decide))).mpr
      ⟨by decide, Or.inl (by decide)⟩⟩

/-- **A NUL before the newline hides it**: the three bytes `a`, NUL, newline have all come and
`receive_data` asks for more. -/
theorem framing_nul : ¬ ∀ h c, Run Conn.Step (Conn.start 0 [97, 0, 10]) h c → Settled h c →
    Framed [97, 0, 10] h c := by
  intro hall
  have hr := Run.of_played Conn.step_of_next (Conn.start 0 [97, 0, 10])
    [{ ptr := some 0 }, { val := 1 }, { val := 3, data := [97, 0, 10] }, { val := 1 }] (by decide)
  have hf := hall _ _ hr (Or.inr ⟨⟨_, rfl⟩, by decide⟩)
  exact absurd hf.returned (by decide)

end Aesd.Server
