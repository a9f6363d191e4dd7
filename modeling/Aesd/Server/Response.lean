/-
# The read section of a client

`send_data` holds `file_mutex` from its first read to its last, so no packet is stored while a
response is read: what the client gets is the ring as it stood when it locked the mutex, from the
position its file had (`response_run`).

That position is 0 for a client that sent a packet (`rewound_run`), and for a seek client the one
its ioctl computed, from a ring that may have moved on since (`sought_run`).
-/
import Aesd.Server.Clients

namespace Aesd.Server

open Aesd.Driver Transition Locking

variable {s₀ : DriverState} {junk : ℕ → ℤ} {stream : ℕ → List UInt8}
  {kind : ℕ → Option AesdSeekto} {h : Log} {u v w : System} {i : ℕ}

/-! ## 1. Where the file is -/

/-- Whether a thread has sent everything it read to the end. -/
def Pc.answered : Pc → Bool
  | sendUnlock _ _ | sendFree _ _ | closeFile | closeClient | lockList | setComplete | unlockList
  | exited => true
  | _ => false

section Position

/-- A step moves no client back, and none by more than one stage; the client that gets on is the
one that takes the step. -/
theorem stage_step {e : ℕ × Event} (hr : Run System.Step (System.start s₀ junk stream) h u)
    (hs : u.Step e v) (i : ℕ) :
    (v.conns i).pc.stage = (u.conns i).pc.stage ∨
      (e.1 = i ∧ (v.conns i).pc.stage = (u.conns i).pc.stage + 1) := by
  by_cases he : e.1 = i
  · subst he
    exact ((phase_at e.1 hr).1.stage_step hs.conn).imp_right fun h => ⟨rfl, h⟩
  · exact Or.inl (by rw [hs.others i (Ne.symm he)])

/-- **Up to its read section a client's file stays where it is**, unless it is about to rewind. -/
theorem fPos_of_stage (h0 : Reachable s₀) {e : ℕ × Event}
    (hr : Run System.Step (System.start s₀ junk stream) h u) (hs : u.Step e v)
    (hstage : (u.conns i).pc.stage = 1 ∨ (u.conns i).pc.stage = 2)
    (hno : ∀ r, (u.conns i).pc ≠ .lseek r) : v.driver.fPos i = u.driver.fPos i := by
  obtain ⟨leaked, hi⟩ := (reachable_run h0 hr).inv
  by_cases he : e.1 = i
  · subst he
    obtain ⟨j, op, ret⟩ := e
    rcases Pc.off_of_stage hs.conn.op hstage with hoff | ⟨r, hpc⟩
    · rw [hs.device.eq_of_off hoff]
    · exact absurd hpc (hno r)
  · exact hs.device.fPos_of_ne hi (Ne.symm he)

variable (hst : ∀ i, Sends (stream i) (kind i))
include hst

/-- A client that rewinds sent a packet, one that leaves the ioctl a seek command. -/
theorem kind_of_stage (hr : Run System.Step (System.start s₀ junk stream) h u)
    (hstage : (u.conns i).pc.stage = 1) :
    ((∃ r, (u.conns i).pc = .lseek r) ∧ kind i = none) ∨
      ((∃ r, (u.conns i).pc = .seekUnlock r) ∧ kind i ≠ none) := by
  obtain ⟨hphase, hstream⟩ := phase_at i hr
  have hsends := hst i
  rw [hstream] at hsends
  generalize (u.conns i).pc = pc at hphase hstage
  cases pc with
  | lseek r =>
    refine Or.inl ⟨⟨r, rfl⟩, ?_⟩
    obtain ⟨hnil, hh⟩ := hphase
    rcases hsends.handled hh with ⟨hx, -⟩ | ⟨seekto, -, -, hone⟩
    · exact hx
    · rw [hnil] at hone
      cases hone
  | seekUnlock r =>
    refine Or.inr ⟨⟨r, rfl⟩, ?_⟩
    obtain ⟨hf, seekto, hc, -⟩ := hphase
    obtain ⟨pos, hpos, -⟩ := hf.length
    rw [← (hsends.found hpos).1, hc]
    exact Option.some_ne_none seekto
  | _ => cases hstage

variable (h0 : Reachable s₀)
include h0

/-- **A client that sent a packet reads from the start.** -/
theorem rewound_run (hr : Run System.Step (System.start s₀ junk stream) h u) (hk : kind i = none)
    (hstage : (u.conns i).pc.stage = 2) : u.driver.fPos i = 0 := by
  induction hr with
  | nil => cases hstage
  | @concat h s t e hr hs ih =>
    rcases stage_step hr hs i with hsame | ⟨rfl, hnext⟩
    · have h2 : (s.conns i).pc.stage = 2 := by omega
      rw [fPos_of_stage h0 hr hs (Or.inr h2) fun r hpc => by rw [hpc] at h2; cases h2]
      exact ih h2
    · have h1 : (s.conns e.1).pc.stage = 1 := by omega
      rcases kind_of_stage hst hr h1 with ⟨⟨r, hpc⟩, -⟩ | ⟨-, hne⟩
      · obtain ⟨j, op, ret⟩ := e
        have hop := hs.conn.op
        rw [hpc] at hop
        obtain rfl : Op.lseek = op := Option.some.inj hop
        exact hs.device.lseek
      · exact absurd hk hne

/-- The ioctl of a seek client: it asks for what the scan found, and leaves the file there. -/
theorem ioctl_step {seekto : AesdSeekto} {ret : Ret}
    (hr : Run System.Step (System.start s₀ junk stream) h u)
    (hs : u.Step (i, (.ioctl seekto, ret)) v) :
    kind i = some seekto ∧ Names u.driver seekto ∧ v.driver.fPos i = (u.driver.target seekto : ℤ) ∧
      (v.conns i).pc.stage = 1 := by
  obtain ⟨leaked, hi⟩ := (reachable_run h0 hr).inv
  obtain ⟨hnames, htarget⟩ := hs.device.ioctl hi
  obtain ⟨hphase, hstream⟩ := phase_at i hr
  have hsends := hst i
  rw [hstream] at hsends
  have hop := hs.conn.op
  have hpc := hs.conn.pc
  have hsucc : 0 ≤ ret.val := hs.conn.succeeds
  simp only at hop hpc
  rw [hpc]
  generalize (u.conns i).pc = pc at hop hphase
  cases pc with
  | seekIoctl r seekto' =>
    obtain rfl := Op.ioctl.inj (Option.some.inj hop)
    obtain ⟨hf, hc, -⟩ := hphase
    obtain ⟨pos, hpos, -⟩ := hf.length
    refine ⟨by rw [← (hsends.found hpos).1, hc], hnames, htarget, ?_⟩
    rw [Pc.resume, if_neg (Int.not_lt.mpr hsucc)]
    rfl
  | _ => simp [Pc.op] at hop

/-- **A seek client reads from where its ioctl put it**, computed from the ring as it was then. -/
theorem sought_run {h₁ h₂ : Log} {seekto : AesdSeekto} {ret : Ret}
    (hr : Run System.Step (System.start s₀ junk stream)
      (h₁ ++ (u, (i, (.ioctl seekto, ret))) :: h₂) v)
    (hstage : (v.conns i).pc.stage ≤ 2) : v.driver.fPos i = (u.driver.target seekto : ℤ) := by
  obtain ⟨t, hu, hs, -, -⟩ := hr.cut
  obtain ⟨hkind, -⟩ := ioctl_step hst h0 hu hs
  have key : 1 ≤ (v.conns i).pc.stage ∧
      ((v.conns i).pc.stage ≤ 2 → v.driver.fPos i = (u.driver.target seekto : ℤ)) := by
    refine hr.since (P := fun v => 1 ≤ (v.conns i).pc.stage ∧
      ((v.conns i).pc.stage ≤ 2 → v.driver.fPos i = (u.driver.target seekto : ℤ))) ?_ ?_
    · intro t _ hs
      obtain ⟨-, -, htarget, h1⟩ := ioctl_step hst h0 hu hs
      exact ⟨h1.ge, fun _ => htarget⟩
    · rintro h s e t hr ⟨hge, hpos⟩ hs
      have hmono := stage_step hr hs i
      refine ⟨by omega, ?_⟩
      intro hle
      rw [fPos_of_stage h0 hr hs (by omega)]
      · exact hpos (by omega)
      · -- a seek client does not rewind
        intro r hpc
        have hone : (s.conns i).pc.stage = 1 := by rw [hpc]; rfl
        rcases kind_of_stage hst hr hone with ⟨-, hnone⟩ | ⟨⟨r', hpc'⟩, -⟩
        · rw [hkind] at hnone
          cases hnone
        · rw [hpc] at hpc'
          cases hpc'
  exact key.2 hstage

end Position

/-! ## 2. While the mutex is held -/

/-- How far a client is with its response, at each point of the read section and behind it: `all`
is to come out, from a ring that stays as it is. -/
def Pc.Sending (all : List UInt8) (ring : List (List UInt8)) (s : DriverState) (i : ℕ)
    (outbox : List UInt8) : Pc → Prop
  | readCall _ => s.stored = ring ∧ 0 ≤ s.fPos i ∧
      outbox ++ s.content.drop (s.fPos i).toNat = all
  | sendCall _ chunk totalSent => s.stored = ring ∧ 0 ≤ s.fPos i ∧
      outbox ++ (chunk.drop totalSent ++ s.content.drop (s.fPos i).toNat) = all
  | pc => pc.answered = true ∧ outbox = all

/-- Before its read section a client was sent nothing. -/
theorem outbox_run (hr : Run System.Step (System.start s₀ junk stream) h u)
    (hstage : (u.conns i).pc.stage ≤ 2) : (u.conns i).outbox = [] := by
  induction hr with
  | nil => rfl
  | @concat h s t e hr hs ih =>
    have hmono := stage_step hr hs i
    have hnil := ih (by omega)
    by_cases he : e.1 = i
    · subst he
      obtain ⟨j, op, ret⟩ := e
      rw [hs.conn.outbox, hnil]
      have hop := hs.conn.op
      cases op with
      | send buf data =>
        have hle : (s.conns j).pc.stage ≤ 2 := by simp only at hmono hstage; omega
        generalize (s.conns j).pc = pc at hop hle
        cases pc with
        | sendCall => exact absurd hle (by decide : ¬ 3 ≤ 2)
        | _ => simp [Pc.op] at hop
      | _ => rfl
    · rw [hs.others i (Ne.symm he)]
      exact hnil

section

variable (h0 : Reachable s₀)
include h0

/-- While a client is in its read section, others store nothing. -/
theorem stored_of_reading {e : ℕ × Event}
    (hr : Run System.Step (System.start s₀ junk stream) h u) (hs : u.Step e v) (he : e.1 ≠ i)
    (hheld : (u.conns i).pc.holds .file = true) : v.driver.stored = u.driver.stored := by
  obtain ⟨leaked, hi⟩ := (reachable_run h0 hr).inv
  obtain ⟨j, op, ret⟩ := e
  refine (hs.device.of_not_write hi ?_).1
  rintro buf data rfl
  have hj : (u.conns j).pc.holds .file = true := Pc.holds_of_write hs.conn.op
  exact he ((agree_run hr).unique hj hheld)

/-- **The step lemma of the read section**: a read takes from what is left, a send from what was
read, and others change nothing. -/
theorem Pc.Sending.step {all : List UInt8} {ring : List (List UInt8)} {e : ℕ × Event}
    (hr : Run System.Step (System.start s₀ junk stream) h u) (hs : u.Step e v)
    (hsend : (u.conns i).pc.Sending all ring u.driver i (u.conns i).outbox) :
    (v.conns i).pc.Sending all ring v.driver i (v.conns i).outbox := by
  obtain ⟨leaked, hi⟩ := (reachable_run h0 hr).inv
  obtain ⟨j, op, ret⟩ := e
  by_cases hj : j = i
  · subst hj
    obtain ⟨hop, -, hsucc, -, -, hout, hpc⟩ := hs.conn
    have hdev : Device j u.driver (op, ret) v.driver := hs.device
    simp only at hop hsucc hout hpc
    rw [hpc, hout]
    generalize (u.conns j).pc = pc at hop hsend
    generalize (u.conns j).outbox = outbox at hsend
    cases pc with
    | readCall buf =>
      obtain rfl := Option.some.inj hop
      obtain ⟨hring, hge, hall⟩ := hsend
      obtain ⟨hval, hmove, hdata, hend⟩ := hdev.read hi hge (by decide)
      have hst := (hdev.of_not_write hi fun _ _ h => by cases h).1
      have hcontent : v.driver.content = u.driver.content := congrArg List.flatten hst
      simp only [Op.sent, List.append_nil]
      rw [Pc.resume]
      split
      · refine ⟨hst.trans hring, by omega, ?_⟩
        rw [hcontent, List.drop_zero, hdata]
        exact hall
      · have hnil : ret.data = [] := List.length_eq_zero_iff.mp (by omega)
        rw [hend hnil, List.append_nil] at hall
        exact ⟨rfl, hall⟩
    | sendCall buf chunk totalSent =>
      obtain rfl := Option.some.inj hop
      obtain ⟨hring, hge, hall⟩ := hsend
      have hpos : 0 < ret.val := hsucc
      rw [hdev.eq_of_off rfl, Op.sent, Pc.resume, if_neg (by omega)]
      -- what was sent comes off the front of the chunk
      have hcut : outbox ++ (chunk.drop totalSent).take ret.val.toNat ++
          (chunk.drop (totalSent + ret.val.toNat) ++
            u.driver.content.drop (u.driver.fPos j).toNat) = all := by
        rw [← hall, ← List.drop_drop, List.append_assoc, ← List.append_assoc (List.take _ _),
          List.take_append_drop]
      split
      · exact ⟨hring, hge, hcut⟩
      · rename_i hdone
        rw [List.drop_of_length_le (Nat.le_of_not_lt hdone), List.nil_append] at hcut
        exact ⟨hring, hge, hcut⟩
    | sendUnlock | sendFree | closeFile | closeClient | lockList | setComplete | unlockList =>
      obtain rfl := Option.some.inj hop
      simp only [Op.sent, List.append_nil]
      exact ⟨rfl, hsend.2⟩
    | exited => cases hop
    | _ => exact absurd hsend.1 (by simp [Pc.answered])
  · have hpos := hs.device.fPos_of_ne hi (Ne.symm hj)
    have hst := stored_of_reading h0 hr hs hj
    rw [hs.others i (Ne.symm hj)]
    generalize (u.conns i).pc = pc at hsend hst
    cases pc with
    | readCall | sendCall =>
      have hst' := hst rfl
      have hcontent : v.driver.content = u.driver.content := congrArg List.flatten hst'
      simp only [Pc.Sending] at hsend ⊢
      rw [hst', hcontent, hpos]
      exact hsend
    | _ => exact hsend

/-- **The run lemma of the read section**: what a client gets is the ring as it stood when the
client locked the mutex, from the position its file had. -/
theorem response_run {h₁ h₂ : Log} {e : Event} {buf : ℕ}
    (hr : Run System.Step (System.start s₀ junk stream) (h₁ ++ (v, (i, e)) :: h₂) w)
    (hpos : 0 ≤ v.driver.fPos i) (hpc : (v.conns i).pc = .sendLock buf)
    (hw : (w.conns i).pc.answered = true) :
    (w.conns i).outbox = v.driver.content.drop (v.driver.fPos i).toNat := by
  have hsend : (w.conns i).pc.Sending (v.driver.content.drop (v.driver.fPos i).toNat)
      v.driver.stored w.driver i (w.conns i).outbox := by
    refine hr.since (P := fun w => (w.conns i).pc.Sending
      (v.driver.content.drop (v.driver.fPos i).toNat) v.driver.stored w.driver i (w.conns i).outbox)
      ?_ fun hr hsend hs => hsend.step h0 hr hs
    intro t hv hs
    have hnil := outbox_run hv (show (v.conns i).pc.stage ≤ 2 by rw [hpc]; exact le_refl 2)
    obtain ⟨op, ret⟩ := e
    obtain ⟨hop, -, -, -, -, hout, hpc'⟩ := hs.conn
    simp only [hpc, hnil] at hop hout hpc'
    obtain rfl : Op.lock .file = op := Option.some.inj hop
    have hdev : t.driver = v.driver := hs.device.eq_of_off rfl
    rw [hpc', hout, hdev]
    exact ⟨rfl, hpos, rfl⟩
  generalize (w.conns i).pc = pc at hsend hw
  cases pc with
  | sendUnlock | sendFree | closeFile | closeClient | lockList | setComplete | unlockList
  | exited => exact hsend.2
  | _ => cases hw

end

end Aesd.Server
