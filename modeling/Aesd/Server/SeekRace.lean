/-
# A seek and its response are two critical sections

A seek client's ioctl computes a position in the ring as it is, and lets go of `file_mutex`; its
response is read later from that position (`sought_run`, `response_run`).  If packets stored in
between push entries out of the ring, the position counts from another first entry, and the
response starts at another byte than the one the client named, in a later command or nowhere.

`seek_honoured_iff` says when the client gets what it asked for: exactly when nothing was pushed
out, or when its command was and the ring now ends before the position, so that the client gets
an empty response.
-/
import Aesd.Server.Serial

namespace Aesd.Server

open Aesd.Driver Transition Locking Segment

variable {s₀ : DriverState} {junk : ℕ → ℤ} {stream : ℕ → List UInt8}
  {kind : ℕ → Option AesdSeekto} {h between : Log} {u v w : System} {i : ℕ} {seekto : AesdSeekto}

/-! ## 1. What the client asked for -/

/-- The two critical sections of a seek client in a history: its ioctl in state `u`, the lock of
its read section in state `v`, and what happened in between. -/
def Sections (h : Log) (i : ℕ) (seekto : AesdSeekto) (u v : System) (between : Log) : Prop :=
  ∃ h₁ h₃ ret ret' buf, (v.conns i).pc = .sendLock buf ∧
    h = h₁ ++ (u, (i, (.ioctl seekto, ret))) :: (between ++ (v, (i, (.lock .file, ret'))) :: h₃)

/-- **The response to a seek**, `log` being the commands stored when the ioctl ran and those
stored since: the named command from the named byte on and then all that follow it.  If the ring
has dropped the command, an empty response says so. -/
def Honoured (log : List (List UInt8)) (seekto : AesdSeekto) (response : List UInt8) : Prop :=
  (∃ c, log[seekto.writeCmd.toNat]? = some c ∧
      response = c.drop seekto.writeCmdOffset.toNat ++
        (log.drop (seekto.writeCmd.toNat + 1)).flatten) ∨
    (seekto.writeCmd.toNat < log.length - maxWriteOperationsSupported ∧ response = [])

/-- The ring dropped nothing, or it dropped the named command and what is left ends before the
position of the named byte. -/
def Undisturbed (log : List (List UInt8)) (seekto : AesdSeekto) : Prop :=
  log.length ≤ maxWriteOperationsSupported ∨
    (seekto.writeCmd.toNat < log.length - maxWriteOperationsSupported ∧
      (log.rtake maxWriteOperationsSupported).flatten.length ≤
        position (sizes log) seekto.writeCmd.toNat seekto.writeCmdOffset.toNat)

/-! ## 2. What the client gets -/

/-- **A position kept while the ring moves on** gives the asked-for response exactly when the
ring has not moved, or has left it behind. -/
theorem honoured_iff {log : List (List UInt8)} (hne : ∀ c ∈ log.head?, c ≠ []) {c : List UInt8}
    (hc : log[seekto.writeCmd.toNat]? = some c) (ho : seekto.writeCmdOffset.toNat < c.length) :
    Honoured log seekto ((log.rtake maxWriteOperationsSupported).flatten.drop
      (position (sizes log) seekto.writeCmd.toNat seekto.writeCmdOffset.toNat)) ↔
      Undisturbed log seekto := by
  have hpos := position_lt_sum (sizes_getElem? hc) ho
  rw [sum_sizes] at hpos
  have hwant := drop_position_flatten hc ho.le
  have hlost : log.length - maxWriteOperationsSupported = 0 ∨
      (log.take (log.length - maxWriteOperationsSupported)).flatten ≠ [] := by
    rcases Nat.eq_zero_or_pos (log.length - maxWriteOperationsSupported) with hz | hz
    · exact Or.inl hz
    · refine Or.inr ?_
      intro hnil
      cases log with
      | nil => cases hc
      | cons d rest =>
        obtain ⟨n, hn⟩ := Nat.exists_eq_succ_of_ne_zero hz.ne'
        rw [hn, List.take_succ_cons, List.flatten_cons, List.append_eq_nil_iff] at hnil
        exact hne d rfl hnil.1
  have hiff := drop_flatten_drop_eq_iff hpos hlost
  rw [Honoured, Undisturbed, List.rtake]
  refine or_congr ?_ ?_
  · rw [← Nat.sub_eq_zero_iff_le, ← hiff, hwant]
    constructor
    · rintro ⟨c', hc', hresp⟩
      obtain rfl := Option.some.inj (hc.symm.trans hc')
      exact hresp
    · intro hresp
      exact ⟨c, hc, hresp⟩
  · rw [List.drop_eq_nil_iff]

section

variable (hst : ∀ i, Sends (stream i) (kind i))
include hst

/-- A seek client with a complete response has been through its two sections. -/
theorem exists_sections (hr : Run System.Step (System.start s₀ junk stream) h w)
    (hk : kind i = some seekto) (hw : (w.conns i).pc.answered = true) :
    ∃ u v between, Sections h i seekto u v between := by
  obtain ⟨h₁, v, ⟨op, ret'⟩, h₃, buf, rfl, hv, hpc⟩ := exists_sendLock hr hw
  obtain ⟨t, -, hs, -, -⟩ := hr.cut
  obtain rfl : op = .lock .file := by
    have hop := hs.conn.op
    rw [hpc] at hop
    exact (Option.some.inj hop).symm
  -- `receive_data` has returned, so the seek is in the history
  obtain ⟨hphase, hstream⟩ := phase_at i hv
  have hsends := hst i
  rw [hstream, hk] at hsends
  rw [hpc] at hphase
  rcases hsends.handled (hphase.handled rfl) with ⟨hx, -⟩ | ⟨seekto', hx, -, hseeks⟩
  · cases hx
  · obtain rfl := Option.some.inj hx
    have hmem : seekto ∈ seeks (Log.of h₁ i) := by rw [hseeks]; exact List.mem_singleton_self _
    obtain ⟨⟨c, op, ret⟩, hce, hin⟩ := List.mem_flatMap.mp hmem
    obtain ⟨⟨u, j, e⟩, hue, heq⟩ := List.mem_filterMap.mp hce
    by_cases hj : j = i
    · subst hj
      rw [if_pos rfl, Option.map_some] at heq
      obtain ⟨rfl, rfl⟩ := Prod.mk.inj (Option.some.inj heq)
      cases op with
      | ioctl seekto' =>
        obtain rfl := List.mem_singleton.mp hin
        obtain ⟨h₁, between, rfl⟩ := List.append_of_mem hue
        exact ⟨u, v, between, h₁, h₃, ret, ret', buf, hpc, by simp⟩
      | _ => exact absurd hin List.not_mem_nil
    · rw [if_neg hj] at heq
      cases heq

variable (h0 : Reachable s₀)
include h0

/-- **What a seek client gets**: the ring of its read section, from the position its ioctl
computed in the ring of that time. -/
theorem Sections.response (hr : Run System.Step (System.start s₀ junk stream) h w)
    (hw : (w.conns i).pc.answered = true) (hsec : Sections h i seekto u v between) :
    Names u.driver seekto ∧
      v.driver.stored =
        (u.driver.stored ++ commands between).rtake maxWriteOperationsSupported ∧
      (w.conns i).outbox = v.driver.content.drop (u.driver.target seekto) := by
  obtain ⟨h₁, h₃, ret, ret', buf, hpc, rfl⟩ := hsec
  obtain ⟨t, hu, hs, ht, hrest⟩ := hr.cut
  obtain ⟨hv, -⟩ := hrest.split
  obtain ⟨-, hnames, -⟩ := ioctl_step hst h0 hu hs
  have hring := stored_run h0 hst hu ((Run.nil.concat hs).append hv)
  rw [← List.cons_append, ← List.append_assoc] at hr
  have hpre : Run System.Step (System.start s₀ junk stream)
      (h₁ ++ (u, (i, (.ioctl seekto, ret))) :: between) v := hr.split.1
  have hpos := sought_run hst h0 hpre (by rw [hpc]; exact le_refl 2)
  have hout := response_run h0 hr (by rw [hpos]; exact Int.natCast_nonneg _) hpc hw
  refine ⟨hnames, hring, ?_⟩
  rw [hout, hpos, Int.toNat_natCast]

end

/-- **When a seek client gets what it asked for.**  From any reachable state of the driver, with
any number of clients that send packets or seek, in every run without failing calls and for every
seek client whose response is complete: it has been through an ioctl and a read section, the ring
it read is what the ring was at its ioctl with the commands stored in between, and the response
is the asked-for one if and only if the ring dropped nothing in between, or dropped the named
command and now ends before its position. -/
theorem seek_honoured_iff (h0 : Reachable s₀) (hst : ∀ i, Sends (stream i) (kind i))
    (hr : Run System.Step (System.start s₀ junk stream) h w) (hk : kind i = some seekto)
    (hw : (w.conns i).pc.answered = true) :
    (∃ u v between, Sections h i seekto u v between) ∧
      ∀ u v between, Sections h i seekto u v between →
        let log := u.driver.stored ++ commands between
        v.driver.stored = log.rtake maxWriteOperationsSupported ∧
          (Honoured log seekto (w.conns i).outbox ↔ Undisturbed log seekto) := by
  refine ⟨exists_sections hst hr hk hw, ?_⟩
  intro u v between hsec log
  obtain ⟨⟨c, hc, ho⟩, hring, hout⟩ := hsec.response hst h0 hr hw
  have hlt := (List.getElem?_eq_some_iff.mp hc).1
  have hc' : log[seekto.writeCmd.toNat]? = some c := by rw [List.getElem?_append_left hlt, hc]
  -- the position is the same in the longer list
  have hpos : u.driver.target seekto =
      position (sizes log) seekto.writeCmd.toNat seekto.writeCmdOffset.toNat := by
    rw [DriverState.target, position, position, take_sum_sizes, take_sum_sizes,
      List.take_append_of_le_length hlt.le]
  have hne : ∀ d ∈ log.head?, d ≠ [] := by
    obtain ⟨h₁, h₃, ret, ret', buf, -, rfl⟩ := hsec
    obtain ⟨leaked, hi⟩ := (reachable_run h0 hr.split.1).inv
    rintro d hd rfl
    have hmem : [] ∈ u.driver.stored := by
      rw [List.head?_append_of_ne_nil _ (List.ne_nil_of_length_pos (Nat.zero_lt_of_lt hlt))] at hd
      exact List.mem_of_mem_head? hd
    exact absurd (hi.stored_ne_nil hmem) List.not_mem_nil
  refine ⟨hring, ?_⟩
  rw [hout, DriverState.content, hring, hpos]
  exact honoured_iff hne hc' ho

/-! ## 3. A seek overtaken by a packet -/

/-- Client 0, which seeks command `d`, up to its ioctl. -/
def seekChoices (d : Fin 10) : List (ℕ × Ret) :=
  [(0, { val := 3 }), (0, { ptr := some 0 }), (0, { val := 1 }),
    (0, { val := 23, data := seekOrPacket d 0 }), (0, {})]

/-- Client 0 from its ioctl to its read section. -/
def returnChoices : List (ℕ × Ret) := [(0, {}), (0, {}), (0, {}), (0, { ptr := some 0 })]

/-- Client 1 up to the release of the mutex. -/
def packetChoices : List (ℕ × Ret) :=
  [(1, { val := 4 }), (1, { ptr := some 1 }), (1, { val := 1 }),
    (1, { val := 3, data := [97, 98, 10] }), (1, {}), (1, {}), (1, {})]

/-- The sections of a run by the places of their calls in its history. -/
theorem exists_sections_at {m n : ℕ} {ret ret' : Ret} {buf : ℕ}
    (hm : h[m]?.map Prod.snd = some (i, (.ioctl seekto, ret)))
    (hn : h[m + 1 + n]?.map Prod.snd = some (i, (.lock .file, ret')))
    (hpc : h[m + 1 + n]?.map (fun se => (se.1.conns i).pc) = some (.sendLock buf)) :
    ∃ u v, h[m]?.map Prod.fst = some u ∧ Sections h i seekto u v ((h.drop (m + 1)).take n) := by
  obtain ⟨⟨u, e⟩, hu, rfl⟩ := Option.map_eq_some_iff.mp hm
  obtain ⟨⟨v, e⟩, hv, rfl⟩ := Option.map_eq_some_iff.mp hn
  rw [hv] at hpc
  refine ⟨u, v, by rw [hu]; rfl, h.take m, h.drop (m + 1 + n + 1), ret, ret', buf,
    Option.some.inj hpc, ?_⟩
  obtain ⟨hlm, hm'⟩ := List.getElem?_eq_some_iff.mp hu
  obtain ⟨hln, hn'⟩ := List.getElem?_eq_some_iff.mp hv
  have hsplit : (h.drop (m + 1)).drop n =
      (v, (i, (.lock .file, ret'))) :: h.drop (m + 1 + n + 1) := by
    rw [List.drop_drop, List.drop_eq_getElem_cons hln, hn']
  rw [← hsplit, List.take_append_drop, ← hm', ← List.drop_eq_getElem_cons hlm,
    List.take_append_drop]

/-- Client 0 reading and sending commands of the lengths `ns`. -/
def readChoices : List ℤ → List (ℕ × Ret)
  | [] => [(0, {})]
  | n :: ns => (0, {}) :: (0, { val := n }) :: readChoices ns

/-- The choices of a run in which client 1 stores its packet between the two sections of client
0. -/
def raceChoices (d : Fin 10) (ns : List ℤ) : List (ℕ × Ret) :=
  seekChoices d ++ returnChoices ++ packetChoices ++ ([(0, {})] : List (ℕ × Ret)) ++ readChoices ns

/-- That run, with the digits up to `d` in the ring. -/
def race (d : Fin 10) (ns : List ℤ) : Log × System :=
  played System.next (System.start (digits (d + 1)) (fun _ => 0) (seekOrPacket d))
    (raceChoices d ns)

theorem race_run {d : Fin 10} {ns : List ℤ}
    (hp : (play System.next (System.start (digits (d + 1)) (fun _ => 0) (seekOrPacket d))
      (raceChoices d ns)).isSome = true) :
    Run System.Step (System.start (digits (d + 1)) (fun _ => 0) (seekOrPacket d)) (race d ns).1
      (race d ns).2 :=
  Run.of_played System.step_of_next _ _ hp

/-- The sections of client 0 in it, and the commands in the ring at its ioctl with those stored up
to its read section. -/
theorem race_sections (d : Fin 10) (ns : List ℤ) (log : List (List UInt8))
    (hm : (race d ns).1[5]?.map Prod.snd = some (0, (.ioctl ⟨UInt32.ofNat d, 0⟩, { val := 0 })))
    (hn : (race d ns).1[16]?.map Prod.snd = some (0, (.lock .file, ({} : Ret))))
    (hpc : (race d ns).1[16]?.map (fun se => (se.1.conns 0).pc) = some (.sendLock 0))
    (hlog : ((race d ns).1[5]?.map Prod.fst).map (fun u =>
      u.driver.stored ++ commands (((race d ns).1.drop 6).take 10)) = some log) :
    ∃ u v between, Sections (race d ns).1 0 ⟨UInt32.ofNat d, 0⟩ u v between ∧
      u.driver.stored ++ commands between = log := by
  obtain ⟨u, v, hu, hsec⟩ := @exists_sections_at (race d ns).1 0 _ 5 10 _ _ 0 hm hn hpc
  rw [hu] at hlog
  exact ⟨u, v, _, hsec, Option.some.inj hlog⟩

/-- A packet is stored in between and there is room for it: the client gets its command and what
follows, the packet too. -/
theorem seek_honoured_stored :
    Honoured ((digits 9).stored ++ [[97, 98, 10]]) ⟨8, 0⟩ ((race 8 [2, 3]).2.conns 0).outbox := by
  obtain ⟨u, v, between, hsec, hlog⟩ := race_sections 8 [2, 3]
    ((digits 9).stored ++ [[97, 98, 10]]) (by decide +kernel) (by decide +kernel)
    (by decide +kernel) (by decide +kernel)
  have h := (@seek_honoured_iff (digits 9) _ _ _ _ _ 0 ⟨8, 0⟩ ⟨_, rfl⟩ (sends_seekOrPacket 8)
    (race_run (by decide +kernel)) rfl (by decide +kernel)).2 u v between hsec
  simp only [hlog] at h
  exact h.2.mpr (Or.inl (by decide +kernel))

/-- **The response starts inside another command.**  Client 0 asks for the last of ten commands,
`9`; client 1 stores `ab`, which pushes `0` out of the ring; client 0 gets `ab`. -/
theorem seek_overtaken : ¬ ∀ (s₀ : DriverState) (junk : ℕ → ℤ) (stream : ℕ → List UInt8)
    (kind : ℕ → Option AesdSeekto) (h between : Log) (u v w : System) (i : ℕ) (seekto : AesdSeekto),
    Reachable s₀ → (∀ i, Sends (stream i) (kind i)) →
    Run System.Step (System.start s₀ junk stream) h w → kind i = some seekto →
    (w.conns i).pc.answered = true → Sections h i seekto u v between →
      Honoured (u.driver.stored ++ commands between) seekto (w.conns i).outbox := by
  intro hall
  obtain ⟨u, v, between, hsec, hlog⟩ := race_sections 9 [3]
    ((digits 10).stored ++ [[97, 98, 10]]) (by decide +kernel) (by decide +kernel)
    (by decide +kernel) (by decide +kernel)
  have hout : ((race 9 [3]).2.conns 0).outbox = [97, 98, 10] := by decide +kernel
  have h := hall (digits 10) _ _ _ _ between u v (race 9 [3]).2 0 ⟨9, 0⟩ ⟨_, rfl⟩
    (sends_seekOrPacket 9) (race_run (by decide +kernel)) rfl (by decide +kernel) hsec
  rw [hlog, hout] at h
  rcases h with ⟨c, hc, hresp⟩ | ⟨hlt, -⟩
  · obtain rfl : [57, 10] = c := Option.some.inj (hc.symm.trans (by decide +kernel)).symm
    exact absurd hresp (by decide +kernel)
  · exact absurd hlt (by decide +kernel)

end Aesd.Server
