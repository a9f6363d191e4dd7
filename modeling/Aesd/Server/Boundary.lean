/-
# Whether bytes behind the packet decide what is done with it

Two clients send the same packet and then different things.  The server should do the same for
both: the seek the packet asks for, or a write of the packet.  It scans everything it received,
so what it does is decided by the packet and the bytes that came in with its last byte.

Those bytes matter only for a dangling packet (`Server/Command.lean`), and then only if enough
of them fit in the receive buffer behind it.  The buffer that holds the packet is the least
`1024 * 2 ^ k` with a byte to spare, so this too is a condition on the packet alone (`Crossing`).
`determined_iff` says it is the exact one: without it every run does what the packet says, and
with it there are two runs, one for nothing behind the packet and one for a completion of it,
that differ.
-/
import Aesd.Server.Framing

namespace Aesd.Server

open MachineInt CString Aesd.Driver Transition

/-! ## 1. What a packet asks for -/

/-- The device operations of a run: the seeks performed and the bytes written. -/
def deviceOps (h : History) : List AesdSeekto × List UInt8 := (seeks h, written h)

/-- What a packet asks for: the seek it is, or to be written. -/
def action (packet : List UInt8) : List AesdSeekto × List UInt8 :=
  match seekCommand packet with
  | some seekto => ([seekto], [])
  | none => ([], packet)

/-- A packet the bytes behind it can make a seek command: it dangles for `n` bytes, and the
buffer that holds it, of `1024 * 2 ^ k`, has room for them and the terminating NUL. -/
def Crossing (packet : List UInt8) : Prop :=
  ∃ n k, dangling packet = some n ∧ k ≤ 20 ∧ packet.length + n < 1024 * 2 ^ k ∧
    (k = 0 ∨ 1024 * 2 ^ (k - 1) ≤ packet.length)

variable {junk : ℤ} {packet rest : List UInt8} {h : History} {c : Conn}

/-! ## 2. One run -/

/-- **A run that has returned** handled the packet together with bytes that came in with it and
fit the buffer. -/
theorem handled_packet (hp : Packet packet)
    (hr : Run Conn.Step (Conn.start junk (packet ++ rest)) h c) (hret : c.pc.receiving = false) :
    ∃ t k, received h = packet ++ t ∧ k ≤ 20 ∧ packet.length + t.length < 1024 * 2 ^ k ∧
      (k = 0 ∨ 1024 * 2 ^ (k - 1) ≤ packet.length) ∧
      deviceOps h = match seekCommand (packet ++ t) with
        | some seekto => ([seekto], [])
        | none => ([], packet) := by
  obtain ⟨body, rfl, hb⟩ := hp.line
  have h0 : 0 ∉ body := fun hm => hp.zero (List.mem_append_left _ hm)
  rw [List.append_assoc, List.singleton_append] at hr
  obtain ⟨hphase, hst⟩ := phase_run hr
  have hstr := strchr_received hb hr
  have hpre : received h <+: body ++ newline :: rest := ⟨c.inbox, hst.symm⟩
  -- the size of the buffer at the last `recv`, in terms of the packet
  have fits : Arrives (received h) → (∃ t, received h = body ++ newline :: t) →
      ∃ t k, received h = body ++ [newline] ++ t ∧ k ≤ 20 ∧
        (body ++ [newline]).length + t.length < 1024 * 2 ^ k ∧
        (k = 0 ∨ 1024 * 2 ^ (k - 1) ≤ (body ++ [newline]).length) := by
    rintro ⟨before, k, hbefore, hnone, hk, hlt, hleast⟩ ⟨t, ht⟩
    have heq : received h = body ++ [newline] ++ t := by
      rw [ht, List.append_assoc, List.singleton_append]
    have hshort : before.length + 1 ≤ (body ++ [newline]).length := by
      have hno : newline ∉ before := by
        intro hm
        have hs := strchr_line hb (hbefore.trans hpre)
        rw [if_pos ⟨h0, hm⟩, hnone] at hs
        exact absurd hs (by simp)
      by_contra hge
      have hline : body ++ [newline] <+: before :=
        List.prefix_of_prefix_length_le ⟨t, heq.symm⟩ hbefore (by omega)
      exact hno (hline.mem (List.mem_append_right _ List.mem_cons_self))
    refine ⟨t, k, heq, hk, ?_, hleast.imp_right fun hle => hle.trans hshort⟩
    rw [← List.length_append, ← heq]
    exact hlt
  have found : ∀ {pos}, strchr (received h) newline = some pos →
      pos = body.length ∧ ∃ t, received h = body ++ newline :: t := by
    intro pos hpos
    rw [hpos] at hstr
    split at hstr
    · rename_i hm
      exact ⟨Option.some.inj hstr, (newline_mem_iff hb hpre).mp hm.2⟩
    · exact absurd hstr (by simp)
  cases hphase.handled hret with
  | endOfStream hnil hnone =>
    rw [hnil, List.append_nil] at hst
    rw [if_pos ⟨h0, by rw [← hst]; simp⟩, hnone] at hstr
    exact absurd hstr (by simp)
  | sought seekto hpos harr hc hw hs =>
    obtain ⟨pos, hpos⟩ := hpos
    obtain ⟨t, k, heq, hk, hlt, hleast⟩ := fits harr (found hpos).2
    refine ⟨t, k, heq, hk, hlt, hleast, ?_⟩
    rw [← heq, hc, deviceOps, hs, hw]
  | wrote pos hpos harr hc hw hs =>
    obtain ⟨rfl, t', ht'⟩ := found hpos
    obtain ⟨t, k, heq, hk, hlt, hleast⟩ := fits harr ⟨t', ht'⟩
    refine ⟨t, k, heq, hk, hlt, hleast, ?_⟩
    rw [← heq, hc, deviceOps, hs, hw, ht', take_line]

/-- **Without crossing, a run does what the packet asks for.** -/
theorem deviceOps_eq_action (hp : Packet packet) (hx : ¬ Crossing packet)
    (hr : Run Conn.Step (Conn.start junk (packet ++ rest)) h c) (hret : c.pc.receiving = false) :
    deviceOps h = action packet := by
  obtain ⟨t, k, -, hk, hlt, hleast, hops⟩ := handled_packet hp hr hret
  rw [hops, action]
  cases hd : dangling packet with
  | none => rw [hp.seekCommand_eq_of_decided hd]
  | some n =>
    have hshort : t.length < n := by
      by_contra hge
      exact hx ⟨n, k, hd, hk, by omega, hleast⟩
    have hself := hp.seekCommand_of_short hd (t := []) (by rw [List.length_nil]; omega)
    rw [List.append_nil] at hself
    rw [hp.seekCommand_of_short hd hshort, hself]

/-! ## 3. Runs that exist -/

/-- Going on after a `recv` that did not bring the newline. -/
theorem received_shape (r : Receiving) (ret : Ret)
    (hn : strchr (r.content.take r.packetSize.toNat ++ ret.data) newline = none) :
    (∃ r', r.received ret = .realloc r') ∨ ∃ r', r.received ret = .whileActive r' := by
  unfold Receiving.received
  simp only [hn]
  split
  · exact Or.inl ⟨_, rfl⟩
  · exact Or.inr ⟨_, rfl⟩

/-- From the head of the receive loop to its next `recv`. -/
theorem run_to_recv {s : Conn} {r : Receiving} {inbox outbox : List UInt8}
    (hr : Run Conn.Step s h ⟨.whileActive r, inbox, outbox⟩) :
    ∃ h', Run Conn.Step s h' ⟨.recvCall r, inbox, outbox⟩ ∧ received h' = received h := by
  have hstep : Conn.Step ⟨.whileActive r, inbox, outbox⟩ (.loadActive, { val := 1 })
      ⟨.recvCall r, inbox, outbox ++ []⟩ :=
    Conn.plain_step rfl trivial (by decide : (1 : ℤ) ≠ 0) rfl
  rw [List.append_nil] at hstep
  refine ⟨_, hr.concat hstep, ?_⟩
  rw [received_concat]
  exact List.append_nil _

/-- From a full buffer to the next `recv`. -/
theorem run_from_realloc {s : Conn} {r : Receiving} {inbox outbox : List UInt8}
    (hr : Run Conn.Step s h ⟨.realloc r, inbox, outbox⟩)
    (hgrant : (Op.realloc r.buf r.bufSize).Answers { ptr := some 0 }) :
    ∃ h' r', Run Conn.Step s h' ⟨.recvCall r', inbox, outbox⟩ ∧ received h' = received h := by
  have hstep : Conn.Step ⟨.realloc r, inbox, outbox⟩ (.realloc r.buf r.bufSize, { ptr := some 0 })
      ⟨.whileActive { r with buf := 0 }, inbox, outbox ++ []⟩ :=
    Conn.plain_step rfl hgrant rfl rfl
  rw [List.append_nil] at hstep
  obtain ⟨h', hrun, hrec⟩ := run_to_recv (hr.concat hstep)
  refine ⟨h', _, hrun, ?_⟩
  rw [hrec, received_concat]
  exact List.append_nil _

/-- **A client can send any bytes without a newline one at a time**, up to the size the buffer
can grow to. -/
theorem exists_growing (junk : ℤ) : ∀ (got rest : List UInt8), newline ∉ got →
    got.length + 1 < 2 ^ 30 →
      ∃ h r, Run Conn.Step (Conn.start junk (got ++ rest)) h ⟨.recvCall r, rest, []⟩ ∧
        received h = got := by
  intro got
  induction got using List.reverseRecOn with
  | nil =>
    intro rest _ _
    exact ⟨_, _, Run.of_played Conn.step_of_next (Conn.start junk rest)
      [{ ptr := some 0 }, { val := 1 }] rfl, rfl⟩
  | append_singleton got x ih =>
    intro rest hn hlen
    rw [List.length_append, List.length_singleton] at hlen
    have hn' : newline ∉ got := fun hm => hn (List.mem_append_left _ hm)
    obtain ⟨h, r, hr, hgot⟩ := ih (x :: rest) hn' (by omega)
    obtain ⟨hphase, -⟩ := phase_run hr
    rw [hgot] at hphase
    obtain ⟨⟨k, hg⟩, -, -⟩ := hphase
    rw [List.append_cons] at hr
    -- the next byte
    have hans : (Op.recv r.buf r.packetSize (r.bufSize - r.packetSize - 1)).Answers
        { val := [x].length, data := [x] } := by
      refine Or.inr ⟨rfl, ?_⟩
      rw [hg.request, List.length_singleton]
      have hroom := hg.room
      omega
    have hr' := hr.concat (Conn.recv_step (List.cons_ne_nil x []) hans)
    obtain ⟨hphase', -⟩ := phase_run hr'
    generalize hh : h ++ [_] = h' at hr' hphase'
    have hrec : received h' = got ++ [x] := by
      rw [← hh, received_concat, hgot]
      rfl
    have hnone : strchr (r.content.take r.packetSize.toNat ++ [x]) newline = none := by
      rw [hg.content, hg.packetSize, Int.toNat_natCast, List.take_length]
      exact strchr_of_not_mem hn
    rw [← hrec]
    rcases received_shape r { val := [x].length, data := [x] } hnone with ⟨r', hpc⟩ | ⟨r', hpc⟩
    · -- the buffer is full: it is doubled
      rw [hpc] at hr' hphase'
      obtain ⟨⟨k', hd⟩, -, -⟩ := hphase'
      have hfull := hd.full
      rw [hrec, List.length_append, List.length_singleton] at hfull
      have hgrant : (Op.realloc r'.buf r'.bufSize).Answers { ptr := some 0 } := by
        intro hbig
        rw [hd.request_lt (by omega)] at hbig
        omega
      obtain ⟨h'', r'', hrun, hrec'⟩ := run_from_realloc hr' hgrant
      exact ⟨h'', r'', by rw [hrec]; exact hrun, hrec'⟩
    · rw [hpc] at hr'
      obtain ⟨h'', hrun, hrec'⟩ := run_to_recv hr'
      exact ⟨h'', r', by rw [hrec]; exact hrun, hrec'⟩

/-- **Every run over a packet can be taken to its return.** -/
theorem exists_returned (hp : Packet packet) (hlen : (packet ++ rest).length < 2 ^ 30)
    (hr : Run Conn.Step (Conn.start junk (packet ++ rest)) h c) :
    ∃ h' c', Run Conn.Step (Conn.start junk (packet ++ rest)) (h ++ h') c' ∧
      c'.pc.receiving = false := by
  obtain ⟨body, rfl, hb⟩ := hp.line
  have h0 : 0 ∉ body := fun hm => hp.zero (List.mem_append_left _ hm)
  rw [List.append_assoc, List.singleton_append] at hr hlen ⊢
  obtain ⟨h', c', hr', hstop⟩ := Run.exists_stop Settled
    (fun _ c => 4 * c.inbox.length + c.pc.work (body ++ newline :: rest).length)
    (fun hr hset hs => work_step hr hset hs) (fun hr hset => exists_step hb h0 hlen hr hset) hr
  refine ⟨h', c', hr', ?_⟩
  rcases hstop with hret | ⟨⟨r, hpc⟩, hm⟩
  · exact hret
  · exact absurd hm (newline_not_mem_of_recv hb h0 hr' hpc)

/-- **Bytes that fit behind the packet can come in with it.** -/
theorem exists_run_with (hp : Packet packet) {t : List UInt8} {k : ℕ} (hk : k ≤ 20)
    (hlt : packet.length + t.length < 1024 * 2 ^ k)
    (hleast : k = 0 ∨ 1024 * 2 ^ (k - 1) ≤ packet.length) :
    ∃ h c, Run Conn.Step (Conn.start 0 (packet ++ t)) h c ∧ c.pc.receiving = false ∧
      received h = packet ++ t := by
  have hpow : (2 : ℕ) ^ k ≤ 2 ^ 20 := Nat.pow_le_pow_right (by decide) hk
  have hp' := hp
  obtain ⟨body, rfl, hb⟩ := hp.line
  rw [List.length_append, List.length_singleton] at hlt hleast
  -- all but the newline comes in byte by byte, and the rest at once
  obtain ⟨h, r, hr, hgot⟩ := exists_growing 0 body (newline :: t) hb (by omega)
  obtain ⟨hphase, -⟩ := phase_run hr
  rw [hgot] at hphase
  obtain ⟨⟨k', hg⟩, -, -⟩ := hphase
  have hcap : 1024 * 2 ^ k ≤ 1024 * 2 ^ k' := by
    rcases Nat.lt_or_ge k' k with hkk | hkk
    · have hroom := hg.room
      have hmono : (2 : ℕ) ^ k' ≤ 2 ^ (k - 1) := Nat.pow_le_pow_right (by decide) (by omega)
      rcases hleast with rfl | hle
      · exact absurd hkk (Nat.not_lt_zero _)
      · omega
    · exact Nat.mul_le_mul_left _ (Nat.pow_le_pow_right (by decide) hkk)
  have hans : (Op.recv r.buf r.packetSize (r.bufSize - r.packetSize - 1)).Answers
      { val := (newline :: t).length, data := newline :: t } := by
    refine Or.inr ⟨rfl, ?_⟩
    rw [hg.request, List.length_cons]
    omega
  rw [← List.append_nil (newline :: t)] at hr
  have hr' := hr.concat (Conn.recv_step (List.cons_ne_nil newline t) hans)
  rw [List.append_nil] at hr'
  generalize hh : h ++ [_] = h' at hr'
  have hrec : received h' = body ++ [newline] ++ t := by
    rw [← hh, received_concat, hgot, List.append_assoc]
    rfl
  rw [List.append_cons] at hr'
  obtain ⟨h'', c', hr'', hret⟩ := exists_returned hp' (by
    rw [List.length_append, List.length_append, List.length_singleton]
    omega) hr'
  refine ⟨_, c', hr'', hret, ?_⟩
  -- the whole stream was received already
  obtain ⟨-, hst⟩ := phase_run hr''
  have happ : received (h' ++ h'') = received h' ++ received h'' := List.flatMap_append
  rw [happ, hrec] at hst ⊢
  have hlen := congrArg List.length hst
  simp only [List.length_append] at hlen
  rw [List.length_eq_zero_iff.mp (show (received h'').length = 0 by omega), List.append_nil]

/-! ## 4. Two runs -/

/-- **Exactly when the packet alone decides what is done with it.**  For a packet without a NUL:
any two runs that return, whatever the two clients sent behind the packet and however it was
cut, perform the same device operations, if and only if the packet is not crossing.  If it is
not, these operations are the seek the packet is, or a write of the packet. -/
theorem determined_iff (hp : Packet packet) :
    ((∀ junk₁ junk₂ rest₁ rest₂ h₁ c₁ h₂ c₂,
        Run Conn.Step (Conn.start junk₁ (packet ++ rest₁)) h₁ c₁ → c₁.pc.receiving = false →
        Run Conn.Step (Conn.start junk₂ (packet ++ rest₂)) h₂ c₂ → c₂.pc.receiving = false →
          deviceOps h₁ = deviceOps h₂) ↔ ¬ Crossing packet) ∧
    (¬ Crossing packet → ∀ junk rest h c,
      Run Conn.Step (Conn.start junk (packet ++ rest)) h c → c.pc.receiving = false →
        deviceOps h = action packet) := by
  refine ⟨⟨?_, ?_⟩, ?_⟩
  · rintro hall ⟨n, k, hd, hk, hlt, hleast⟩
    obtain ⟨t, htn, hseek⟩ := hp.exists_completion hd
    obtain ⟨seekto, hseek⟩ := Option.isSome_iff_exists.mp hseek
    -- one client sends nothing behind the packet, the other a completion of it
    obtain ⟨h₁, c₁, hr₁, hret₁, hrec₁⟩ := exists_run_with hp (t := []) hk
      (by rw [List.length_nil]; omega) hleast
    obtain ⟨h₂, c₂, hr₂, hret₂, hrec₂⟩ := exists_run_with hp (t := t) hk (by omega) hleast
    obtain ⟨t₁, -, heq₁, -, -, -, hops₁⟩ := handled_packet hp hr₁ hret₁
    obtain ⟨t₂, -, heq₂, -, -, -, hops₂⟩ := handled_packet hp hr₂ hret₂
    obtain rfl : t₁ = [] := List.append_cancel_left (heq₁.symm.trans hrec₁)
    obtain rfl : t₂ = t := List.append_cancel_left (heq₂.symm.trans hrec₂)
    have hpos : 0 < n := by
      rcases Nat.eq_zero_or_pos n with rfl | hpos
      · obtain rfl := List.length_eq_zero_iff.mp htn
        cases hp.reading with
        | numbers h3 => exact absurd (hd.symm.trans h3) (by simp)
        | offset x h1 => exact absurd (hd.symm.trans h1) (by simp)
        | decided hn => exact absurd (hd.symm.trans hn) (by simp)
      · exact hpos
    have hself := hp.seekCommand_of_short hd (t := []) (by rw [List.length_nil]; exact hpos)
    have hsame := hall 0 0 [] t₂ h₁ c₁ h₂ c₂ hr₁ hret₁ hr₂ hret₂
    rw [hops₁, hops₂, hself, hseek] at hsame
    exact absurd hsame (by simp)
  · intro hx junk₁ junk₂ rest₁ rest₂ h₁ c₁ h₂ c₂ hr₁ hret₁ hr₂ hret₂
    rw [deviceOps_eq_action hp hx hr₁ hret₁, deviceOps_eq_action hp hx hr₂ hret₂]
  · intro hx junk rest h c hr hret
    exact deviceOps_eq_action hp hx hr hret

/-- The packet `a`: it is written. -/
theorem determined_iff_line : ∃ h c, Run Conn.Step (Conn.start 0 [97, 10]) h c ∧
    c.pc.receiving = false ∧ deviceOps h = ([], [97, 10]) := by
  have hr := Run.of_played Conn.step_of_next (Conn.start 0 ([97, 10] ++ []))
    [{ ptr := some 0 }, { val := 1 }, { val := 2, data := [97, 10] }, {}, { val := 2 }, {}, {}, {}]
    (by decide)
  have hx : ¬ Crossing [97, 10] := by
    rintro ⟨n, k, hd, -⟩
    exact absurd ((show dangling [97, 10] = none by decide).symm.trans hd) (by simp)
  have h := (@determined_iff [97, 10] ⟨by decide, [97], rfl, by decide⟩).2 hx 0 [] _ _ hr
    (by decide)
  exact ⟨_, _, hr, by decide, h.trans (by decide)⟩

/-- `AESDCHAR_IOCSEEKTO:1,` and a newline. -/
def openCommand : List UInt8 := seekPrefix ++ [49, 44, 10]

/-- **A digit behind the newline makes it a seek.**  With nothing behind it the packet is written;
with `5` behind it, received together, the server seeks to command 1, offset 5. -/
theorem open_command_undetermined : ¬ ∀ junk₁ junk₂ rest₁ rest₂ h₁ c₁ h₂ c₂,
    Run Conn.Step (Conn.start junk₁ (openCommand ++ rest₁)) h₁ c₁ → c₁.pc.receiving = false →
    Run Conn.Step (Conn.start junk₂ (openCommand ++ rest₂)) h₂ c₂ → c₂.pc.receiving = false →
      deviceOps h₁ = deviceOps h₂ := by
  intro hall
  have hr₁ := Run.of_played Conn.step_of_next (Conn.start 0 (openCommand ++ []))
    [{ ptr := some 0 }, { val := 1 }, { val := 22, data := openCommand }, {}, { val := 22 }, {}, {},
      {}]
    (by decide)
  have hr₂ := Run.of_played Conn.step_of_next (Conn.start 0 (openCommand ++ [53]))
    [{ ptr := some 0 }, { val := 1 }, { val := 23, data := openCommand ++ [53] }, {}, {}, {}, {}]
    (by decide)
  have hsame := hall 0 0 [] [53] _ _ _ _ hr₁ (by decide) hr₂ (by decide)
  exact absurd hsame (by decide)

end Aesd.Server
