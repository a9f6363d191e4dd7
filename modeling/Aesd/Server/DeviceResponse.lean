/-
# Responses from the device, with calls that fail

What is sent to a client is the beginning of the ring as it stood at one moment, from one position,
and all of it if the reading came to the end.  The moment is the one at which the client locked
`file_mutex` to read.  The position is 0, and then the first line `strchr` finds in what was
received from the client, if it finds one, is stored by then; or it is the one an `ioctl` of the
client named at an earlier moment (`DeviceServer.device_responses`).  In a line with a NUL `strchr`
finds no end: a client that has sent only that gets its response with nothing stored.

`Pc.Placed` says at each point before the response where it is going to begin, `Pc.Serving` at each
point of the response and behind it what has been sent.
-/
import Aesd.Server.DeviceLines

namespace Aesd.Server

open CString Aesd.Driver Transition Locking

/-! ## 1. Where a response begins -/

/-- The `read` of a response came to the end. -/
def Trace.Ended (evs : Trace) : Prop :=
  ∃ e ∈ evs, (∃ buf count, e.1 = .read buf count) ∧ e.2.val = 0

theorem Trace.ended_concat {evs : Trace} (e : Event) : Trace.Ended (evs ++ [e]) ↔
    evs.Ended ∨ ((∃ buf count, e.1 = .read buf count) ∧ e.2.val = 0) := by
  simp [Trace.Ended, or_and_right, exists_or]

/-- The first line `strchr` finds in what was received from client `i`, if it finds one, is
stored. -/
def Delivered (i : ℕ) (es : List Act) : Prop :=
  ∀ pos, strchr (Act.callsOf i es).got newline = some pos →
    (i, (Act.callsOf i es).got.take (pos + 1)) ∈ packets es

/-- The file of client `i` is where an `ioctl` of its own has put it, for the command received from
it. -/
def Sought (i : ℕ) (h : List (DeviceServer × Act)) (s : DriverState) : Prop :=
  ∃ h₁ v seekto ret h₂, h = h₁ ++ (v, .client i (.ioctl seekto) ret) :: h₂ ∧
    seekCommand (Act.callsOf i (h.map Prod.snd)).got = some seekto ∧ Names v.driver seekto ∧
      s.fPos i = (v.driver.target seekto : ℤ)

/-- Where the response to client `i` is going to begin. -/
def Located (i : ℕ) (h : List (DeviceServer × Act)) (s : DriverState) : Prop :=
  (s.fPos i = 0 ∧ Delivered i (h.map Prod.snd)) ∨ Sought i h s

/-- What there is of it at each point. -/
def Pc.Placed (i : ℕ) (h : List (DeviceServer × Act)) (s : DriverState) : Pc → Prop
  | lseek _ => Delivered i (h.map Prod.snd)
  | seekUnlock _ => Sought i h s
  | recvFree _ ret => ret ≠ -1 → Located i h s
  | sendMalloc | sendLock _ => Located i h s
  | _ => True

section Grows

variable {i : ℕ} {h : List (DeviceServer × Act)} {s t : DriverState} {x : DeviceServer} {a : Act}

/-- Nothing is taken away from what is delivered. -/
theorem Delivered.concat {es : List Act} (hd : Delivered i es)
    (hgot : (Act.callsOf i (es ++ [a])).got = (Act.callsOf i es).got) :
    Delivered i (es ++ [a]) := by
  intro pos hpos
  rw [hgot] at hpos ⊢
  rw [packets_concat]
  exact List.mem_append_left _ (hd pos hpos)

theorem Sought.concat (hs : Sought i h s)
    (hgot : (Act.callsOf i (h.map Prod.snd ++ [a])).got = (Act.callsOf i (h.map Prod.snd)).got)
    (hpos : t.fPos i = s.fPos i) : Sought i (h ++ [(x, a)]) t := by
  obtain ⟨h₁, v, seekto, ret, h₂, rfl, hcmd, hnames, htarget⟩ := hs
  refine ⟨h₁, v, seekto, ret, h₂ ++ [(x, a)], by simp, ?_, hnames, hpos.trans htarget⟩
  rw [List.map_append, List.map_singleton, hgot]
  exact hcmd

theorem Located.concat (hl : Located i h s)
    (hgot : (Act.callsOf i (h.map Prod.snd ++ [a])).got = (Act.callsOf i (h.map Prod.snd)).got)
    (hpos : t.fPos i = s.fPos i) : Located i (h ++ [(x, a)]) t := by
  rcases hl with ⟨hzero, hd⟩ | hs
  · refine Or.inl ⟨hpos.trans hzero, ?_⟩
    rw [List.map_append]
    exact hd.concat hgot
  · exact Or.inr (hs.concat hgot hpos)

theorem Pc.Placed.concat {pc : Pc} (hp : pc.Placed i h s)
    (hgot : (Act.callsOf i (h.map Prod.snd ++ [a])).got = (Act.callsOf i (h.map Prod.snd)).got)
    (hpos : t.fPos i = s.fPos i) : pc.Placed i (h ++ [(x, a)]) t := by
  cases pc with
  | lseek r =>
    show Delivered i ((h ++ [(x, a)]).map Prod.snd)
    rw [List.map_append]
    exact Delivered.concat hp hgot
  | seekUnlock r => exact Sought.concat hp hgot hpos
  | recvFree buf ret => exact fun hne => Located.concat (hp hne) hgot hpos
  | sendMalloc | sendLock => exact Located.concat hp hgot hpos
  | _ => trivial

end Grows

namespace DeviceServer

variable {x y : DeviceServer} {a : Act} {h : List (DeviceServer × Act)} {junk : ℕ → ℤ}
  {s₀ : DriverState} {i : ℕ}

section Placed

variable {leaked : List (ℕ × ℕ)} (hk : Packed s₀ (h.map Prod.snd) x)
  (hc : x.process.Courses (h.map Prod.snd)) (hi : Inv x.driver leaked)

/-- A client's own call, in the driver. -/
theorem Step.replies {op : Op} {ret : Ret} (hs : x.Step (.client i op ret) y) :
    Replies i x.driver (op, ret) y.driver := by
  cases hs with
  | main hnot => cases hnot
  | client _ hrep => exact hrep

include hk hc hi in
/-- **A client's own call** brings it closer to its response. -/
theorem placed_own {pc : Pc} {op : Op} {ret : Ret} (hs : x.Step (.client i op ret) y)
    (hpc : x.process.thread i = some pc) (hop : pc.op = some op) (hans : op.Answers ret)
    (hp : pc.Placed i h x.driver) :
    (pc.resume ret).Placed i (h ++ [(x, .client i op ret)]) y.driver := by
  have hcourse := hc.thread hpc
  have hrep := hs.replies
  have hgot : op.received ret = [] → (Act.callsOf i (h.map Prod.snd ++
      [.client i op ret])).got = (Act.callsOf i (h.map Prod.snd)).got := by
    intro hnil
    rw [Act.callsOf_concat_self, Trace.got_concat]
    exact (congrArg (_ ++ ·) hnil).trans (List.append_nil _)
  have hoff : op.onDevice = false → y.driver.fPos i = x.driver.fPos i := fun hno => by
    rw [hrep.eq_of_off hno]
  have hgoes := Pc.goes_resume hop ret
  generalize pc.resume ret = pc' at hgoes ⊢
  -- what has come up to the end of the loop is no line, or it is stored
  have hleave : ∀ {r : Receiving}, r.Finishes pc' → r.ioctlSeektoReceived = false →
      op.received ret = [] → Delivered i (h.map Prod.snd) →
        pc'.Placed i (h ++ [(x, .client i op ret)]) y.driver := by
    intro r hfin hflag hnil hd
    cases hfin with
    | broken => exact fun hne => absurd rfl hne
    | sought htrue => exact absurd (hflag.symm.trans htrue) Bool.false_ne_true
    | rewinds =>
      show Delivered i ((h ++ [(x, _)]).map Prod.snd)
      rw [List.map_append]
      exact hd.concat (hgot hnil)
  cases hgoes with
  | @inactive r _ _ _ hfin =>
    obtain ⟨⟨k, hgrow⟩, -⟩ := hcourse
    exact hleave hfin hgrow.seekto rfl fun pos hpos => by cases hgrow.noLine.symm.trans hpos
  | @ended r _ _ hval hfin =>
    obtain ⟨⟨k, hgrow⟩, -⟩ := hcourse
    have hdata : ret.data = [] := by
      rcases hans with ⟨-, hnil⟩ | ⟨hlen, -⟩
      · exact hnil
      · exact List.length_eq_zero_iff.mp (by omega)
    exact hleave hfin hgrow.seekto hdata fun pos hpos => by cases hgrow.noLine.symm.trans hpos
  | @writeUnlocked r _ _ hfin =>
    obtain ⟨hfound, -, hwrote, -⟩ := hcourse
    obtain ⟨pos, hpos, hlen⟩ := hfound.length
    refine hleave hfin hfound.seekto rfl fun pos' hpos' => ?_
    obtain rfl := Option.some.inj (hpos.symm.trans hpos')
    rw [← hlen, ← hwrote]
    refine hk.packet (List.ne_nil_of_mem (a := newline) ?_)
    rw [hwrote, hlen]
    exact newline_mem_take hpos
  | @sought r seekto ret hval =>
    obtain ⟨-, hcmd, -⟩ := hcourse
    obtain ⟨hnames, htarget⟩ := (hrep.device (by omega)).ioctl hi
    refine ⟨h, x, seekto, ret, [], rfl, ?_, hnames, htarget⟩
    rw [List.map_append, List.map_singleton, hgot rfl]
    exact hcmd
  | seekUnlocked hfin =>
    have hsought : Sought i h x.driver := hp
    cases hfin with
    | broken => exact fun hne => absurd rfl hne
    | sought => exact fun _ => Or.inr (hsought.concat (hgot rfl) (hoff rfl))
    | rewinds hfalse => cases hfalse
  | rewound hne =>
    refine fun _ => Or.inl ⟨(hrep.device hne).lseek, ?_⟩
    rw [List.map_append]
    exact Delivered.concat hp (hgot rfl)
  | seekFailUnlocked | writeFailUnlocked | reallocFailed | lseekFailed =>
    exact fun hne => absurd rfl hne
  | recvFreed hval => exact Located.concat (hp hval) (hgot rfl) (hoff rfl)
  | sendMalloced => exact Located.concat hp (hgot rfl) (hoff rfl)
  | received _ ht => cases ht <;> trivial
  | writeLocked hw | wrote _ hw => cases hw <;> trivial
  | _ => trivial

end Placed

/-- **In every run** it is said where each response is going to begin. -/
theorem placed_run (h0 : Reachable s₀) (hp : s₀.pending = [])
    (hr : Run Step (start junk s₀) h x) :
    ∀ i pc, x.process.thread i = some pc → pc.Placed i h x.driver := by
  refine hr.rule (Q := fun h x => ∀ i pc, x.process.thread i = some pc → pc.Placed i h x.driver)
    (fun i pc h => by cases h) fun {h s e t} hr hq hs i pc hpc => ?_
  obtain ⟨leaked, hi⟩ := (reachable_run h0 hr).inv
  cases (inv_run hr).moves hs.process i with
  | calls heq hold hop hans hnew =>
    obtain rfl := heq
    obtain rfl := Option.some.inj (hnew.symm.trans hpc)
    exact placed_own (packed_run h0 hp hr) (courses_run hr) hi hs hold hop hans (hq i _ hold)
  | created hnot hold hnew =>
    obtain rfl := Option.some.inj (hnew.symm.trans hpc)
    trivial
  | stays hnot hsame =>
    refine (hq i pc (hsame.symm.trans hpc)).concat ?_ (hs.fPos_of_ne hi hnot)
    rw [Act.callsOf_concat_other _ hnot]

end DeviceServer

/-! ## 2. The response -/

/-- How far a client is with its response, at each point of it and behind it: `all` is to be sent,
from a ring that stays as it is. -/
def Pc.Serving (all : List UInt8) (ring : List (List UInt8)) (s : DriverState) (i : ℕ)
    (evs : Trace) : Pc → Prop
  | readCall _ => s.stored = ring ∧ 0 ≤ s.fPos i ∧ ¬ evs.Ended ∧
      evs.sent ++ s.content.drop (s.fPos i).toNat = all
  | sendCall _ chunk totalSent => s.stored = ring ∧ 0 ≤ s.fPos i ∧ ¬ evs.Ended ∧
      evs.sent ++ (chunk.drop totalSent ++ s.content.drop (s.fPos i).toNat) = all
  | sendFailFree _ | sendFailUnlock | sendUnlock _ _ | sendFree _ _ | closeFile | closeClient
  | lockList | setComplete | unlockList | exited =>
      evs.sent <+: all ∧ (evs.Ended → evs.sent = all)
  | _ => False

/-- Whether a thread is in the loop of `send_data`. -/
def Pc.reading : Pc → Bool
  | readCall _ | sendCall _ _ _ => true
  | _ => false

namespace DeviceServer

variable {x y v : DeviceServer} {a : Act} {h h₁ : List (DeviceServer × Act)} {junk : ℕ → ℤ}
  {s₀ : DriverState} {i : ℕ} {leaked : List (ℕ × ℕ)}

/-- Client `i` locks `file_mutex` to read, in the state `v` behind `h₁`. -/
def Reads (i : ℕ) (h h₁ : List (DeviceServer × Act)) (v : DeviceServer) : Prop :=
  (∃ ret h₂, h = h₁ ++ (v, .client i (.lock .file) ret) :: h₂) ∧
    ∃ buf, v.process.thread i = some (.sendLock buf)

/-- What there is of the response to client `i`: nothing, or it has begun at a moment of the run. -/
def Answering (i : ℕ) (h : List (DeviceServer × Act)) (s : DriverState) (pc : Pc) : Prop :=
  (pc.reading = false ∧ (Act.callsOf i (h.map Prod.snd)).sent = [] ∧
      ¬ (Act.callsOf i (h.map Prod.snd)).Ended) ∨
    ∃ h₁ v, Reads i h h₁ v ∧ Located i h₁ v.driver ∧
      pc.Serving (v.driver.content.drop (v.driver.fPos i).toNat) v.driver.stored s i
        (Act.callsOf i (h.map Prod.snd))

theorem Reads.concat (hr : Reads i h h₁ v) : Reads i (h ++ [(x, a)]) h₁ v := by
  obtain ⟨⟨ret, h₂, rfl⟩, hpc⟩ := hr
  exact ⟨⟨ret, h₂ ++ [(x, a)], by simp⟩, hpc⟩

/-- Where the response begins is a position. -/
theorem fPos_nonneg_of_located {s : DriverState} (hl : Located i h s) : 0 ≤ s.fPos i := by
  rcases hl with ⟨hzero, -⟩ | ⟨h₁, v, seekto, ret, h₂, -, -, -, htarget⟩
  · exact hzero.ge
  · rw [htarget]
    exact Int.natCast_nonneg _

/-- Only a `read` ends, and only a `send` sends. -/
theorem quiet_of_not_reading {pc : Pc} {op : Op} (hop : pc.op = some op)
    (hno : pc.reading = false) (ret : Ret) :
    op.sent ret = [] ∧ ¬ ∃ buf count, op = .read buf count := by
  cases pc with
  | readCall | sendCall => cases hno
  | exited => cases hop
  | _ =>
    obtain rfl := Option.some.inj hop
    exact ⟨rfl, fun ⟨_, _, heq⟩ => by cases heq⟩

/-- Into the loop of `send_data` a thread comes by the lock. -/
theorem reading_of_resume {pc : Pc} {op : Op} {ret : Ret} (hop : pc.op = some op)
    (hno : pc.reading = false) (hr : (pc.resume ret).reading = true) :
    ∃ buf, pc = .sendLock buf := by
  have hgoes := Pc.goes_resume hop ret
  generalize pc.resume ret = pc' at hgoes hr
  cases hgoes with
  | sendLocked => exact ⟨_, rfl⟩
  | readChunk | readEnded | sendFailed | sentPart | sentChunk => cases hno
  | inactive _ hf | ended _ hf | seekUnlocked hf | writeUnlocked hf => cases hf <;> cases hr
  | received _ ht => cases ht <;> cases hr
  | writeLocked hw | wrote _ hw => cases hw <;> cases hr
  | _ => cases hr

end DeviceServer

section Serving

variable {all : List UInt8} {ring : List (List UInt8)} {s t : DriverState} {i : ℕ} {evs : Trace}
  {leaked : List (ℕ × ℕ)}

/-- What a `send` takes comes off the front of the chunk. -/
theorem send_cut {sent chunk rest : List UInt8} {totalSent : ℕ} (n : ℕ)
    (h : sent ++ (chunk.drop totalSent ++ rest) = all) :
    sent ++ (chunk.drop totalSent).take n ++ (chunk.drop (totalSent + n) ++ rest) = all := by
  rw [← h, ← List.drop_drop, List.append_assoc, ← List.append_assoc (List.take _ _),
    List.take_append_drop]

/-- **A client's own call** takes its response further. -/
theorem Pc.Serving.own {pc : Pc} {op : Op} {ret : Ret} (hv : pc.Serving all ring s i evs)
    (hi : Inv s leaked) (hrep : Replies i s (op, ret) t) (hop : pc.op = some op) :
    (pc.resume ret).Serving all ring t i (evs ++ [(op, ret)]) := by
  have hgoes := Pc.goes_resume hop ret
  generalize pc.resume ret = pc' at hgoes ⊢
  have hsent : Trace.sent (evs ++ [(op, ret)]) = evs.sent ++ op.sent ret := Trace.sent_concat _
  have hended : Trace.Ended (evs ++ [(op, ret)]) →
      evs.Ended ∨ ((∃ buf count, op = .read buf count) ∧ ret.val = 0) := (Trace.ended_concat _).mp
  generalize evs ++ [(op, ret)] = evs' at hsent hended ⊢
  have hnoRead : (∀ buf count, op ≠ .read buf count) → evs'.Ended → evs.Ended := by
    intro hop hend
    exact (hended hend).resolve_right fun hlast => by
      obtain ⟨⟨buf, count, heq⟩, -⟩ := hlast
      exact hop buf count heq
  cases hgoes with
  | readChunk hpos =>
    obtain ⟨hring, hge, hnot, hall⟩ := hv
    obtain ⟨-, hmove, hdata, -⟩ := (hrep.device (by omega)).read hi hge (by decide)
    have hst := (hrep.of_not_write hi fun _ _ heq => by cases heq).1
    have hcontent : t.content = s.content := congrArg List.flatten hst
    refine ⟨hst.trans hring, by omega, ?_, ?_⟩
    · intro hend
      rcases hended hend with hwas | ⟨-, hzero⟩
      · exact hnot hwas
      · exact absurd hzero hpos.ne'
    · rw [hsent, hcontent, List.drop_zero, hdata]
      exact (congrArg (· ++ _) (List.append_nil _)).trans hall
  | readEnded hle =>
    obtain ⟨hring, hge, hnot, hall⟩ := hv
    replace hsent : evs'.sent = evs.sent := hsent.trans (List.append_nil _)
    refine ⟨hsent ▸ ⟨_, hall⟩, fun hend => ?_⟩
    obtain ⟨-, hzero⟩ := (hended hend).resolve_left hnot
    obtain ⟨hval, -, -, hatEnd⟩ := (hrep.device (by omega)).read hi hge (by decide)
    have hnil : ret.data = [] := List.length_eq_zero_iff.mp (by omega)
    rw [hsent, ← hall, hatEnd hnil, List.append_nil]
  | @sendFailed buf chunk totalSent _ hval =>
    obtain ⟨hring, hge, hnot, hall⟩ := hv
    replace hsent : evs'.sent = evs.sent := by
      rw [hsent, Op.sent, hval]
      exact List.append_nil _
    exact ⟨hsent ▸ ⟨_, hall⟩, fun hend =>
      absurd (hnoRead (fun _ _ heq => by cases heq) hend) hnot⟩
  | @sentPart buf chunk totalSent _ hne hlt =>
    obtain ⟨hring, hge, hnot, hall⟩ := hv
    rw [hrep.eq_of_off rfl]
    refine ⟨hring, hge, fun hend => hnot (hnoRead (fun _ _ heq => by cases heq) hend), ?_⟩
    rw [hsent]
    exact send_cut _ hall
  | @sentChunk buf chunk totalSent _ hne hdone =>
    obtain ⟨hring, hge, hnot, hall⟩ := hv
    rw [hrep.eq_of_off rfl]
    refine ⟨hring, hge, fun hend => hnot (hnoRead (fun _ _ heq => by cases heq) hend), ?_⟩
    have hcut := send_cut ret.val.toNat hall
    rw [List.drop_of_length_le hdone, List.nil_append] at hcut
    rw [hsent]
    exact hcut
  | sendFailFreed | sendFailUnlocked | sendUnlocked | sendFreed | fileClosed | clientClosed
  | listLocked | completed | listUnlocked =>
    obtain ⟨hpre, hall⟩ := hv
    replace hsent : evs'.sent = evs.sent := hsent.trans (List.append_nil _)
    exact ⟨hsent ▸ hpre, fun hend =>
      hsent.trans (hall (hnoRead (fun _ _ heq => by cases heq) hend))⟩
  | _ => exact hv.elim

/-- What has been sent is the beginning of the response. -/
theorem Pc.Serving.sent {pc : Pc} (hv : pc.Serving all ring s i evs) :
    evs.sent <+: all ∧ (evs.Ended → evs.sent = all) := by
  cases pc with
  | readCall | sendCall =>
    obtain ⟨-, -, hnot, hall⟩ := hv
    exact ⟨⟨_, hall⟩, fun hend => absurd hend hnot⟩
  | sendFailFree | sendFailUnlock | sendUnlock | sendFree | closeFile | closeClient | lockList
  | setComplete | unlockList | exited => exact hv
  | _ => exact hv.elim

/-- While a client reads with the mutex, what others do does not touch its response. -/
theorem Pc.Serving.other {pc : Pc} (hv : pc.Serving all ring s i evs)
    (hpos : t.fPos i = s.fPos i) (hst : pc.reading = true → t.stored = s.stored) :
    pc.Serving all ring t i evs := by
  cases pc with
  | readCall buf =>
    obtain ⟨hring, hge, hnot, hall⟩ := hv
    have hcontent : t.content = s.content := congrArg List.flatten (hst rfl)
    exact ⟨(hst rfl).trans hring, hpos ▸ hge, hnot, by rw [hcontent, hpos, hall]⟩
  | sendCall buf chunk totalSent =>
    obtain ⟨hring, hge, hnot, hall⟩ := hv
    have hcontent : t.content = s.content := congrArg List.flatten (hst rfl)
    exact ⟨(hst rfl).trans hring, hpos ▸ hge, hnot, by rw [hcontent, hpos, hall]⟩
  | _ => exact hv

end Serving

namespace DeviceServer

variable {x y v : DeviceServer} {a : Act} {h h₁ : List (DeviceServer × Act)} {junk : ℕ → ℤ}
  {s₀ : DriverState} {i : ℕ} {leaked : List (ℕ × ℕ)} {pc : Pc}

/-- While a client reads, others store nothing. -/
theorem stored_of_reading (hp : x.process.Inv) (hi : Inv x.driver leaked) (hs : x.Step a y)
    (hnot : ∀ op ret, a ≠ .client i op ret) (hpc : x.process.thread i = some pc)
    (hreading : pc.reading = true) : y.driver.stored = x.driver.stored := by
  have hheld : x.process.holds (.client i) .file = true := by
    rw [Process.holds_of_thread hpc]
    cases pc with
    | readCall | sendCall => rfl
    | _ => cases hreading
  cases hs with
  | main => rfl
  | @client j op ret p s hstep hrep =>
    refine (hrep.of_not_write hi ?_).1
    rintro buf data rfl
    obtain ⟨r, hwriting, -⟩ := (Step.client hstep hrep).exists_writeCall
    have hj : x.process.holds (.client j) .file = true := by
      rw [Process.holds_of_thread hwriting]
      rfl
    obtain rfl := Actor.client.inj (hp.agree.unique hj hheld)
    exact hnot _ _ rfl

/-- **In every run** the response to each client is the ring at one moment, as far as it has got. -/
theorem answering_run (h0 : Reachable s₀) (hp : s₀.pending = [])
    (hr : Run Step (start junk s₀) h x) :
    ∀ i pc, x.process.thread i = some pc → Answering i h x.driver pc := by
  refine hr.rule (Q := fun h x => ∀ i pc, x.process.thread i = some pc →
    Answering i h x.driver pc) (fun i pc h => by cases h) fun {h s e t} hr hq hs i pc hpc => ?_
  obtain ⟨leaked, hi⟩ := (reachable_run h0 hr).inv
  have hinv := inv_run hr
  rw [Answering, List.map_append]
  cases hinv.moves hs.process i with
  | @calls op ret pc' heq hold hop hans hnew =>
    obtain rfl := heq
    obtain rfl := Option.some.inj (hnew.symm.trans hpc)
    rw [List.map_singleton, Act.callsOf_concat_self]
    rcases hq i pc' hold with ⟨hno, hnil, hnot⟩ | ⟨h₁, v, hreads, hl, hv⟩
    · obtain ⟨hsent, hread⟩ := quiet_of_not_reading hop hno ret
      have hsent' : Trace.sent (Act.callsOf i (h.map Prod.snd) ++ [(op, ret)]) = [] := by
        rw [Trace.sent_concat, hnil]
        exact hsent
      have hnot' : ¬ Trace.Ended (Act.callsOf i (h.map Prod.snd) ++ [(op, ret)]) := by
        rw [Trace.ended_concat]
        rintro (hend | ⟨hlast, -⟩)
        · exact hnot hend
        · exact hread hlast
      cases hreading : (pc'.resume ret).reading with
      | false => exact Or.inl ⟨rfl, hsent', hnot'⟩
      | true =>
        obtain ⟨buf, rfl⟩ := reading_of_resume hop hno hreading
        obtain rfl := Option.some.inj hop
        have hl := placed_run h0 hp hr i _ hold
        refine Or.inr ⟨h, s, ⟨⟨ret, [], rfl⟩, buf, hold⟩, hl, ?_⟩
        rw [hs.replies.eq_of_off rfl]
        refine ⟨rfl, fPos_nonneg_of_located hl, hnot', ?_⟩
        rw [hsent']
        exact List.nil_append _
    · exact Or.inr ⟨h₁, v, hreads.concat, hl, hv.own hi hs.replies hop⟩
  | created hnot hold hnew =>
    obtain rfl := Option.some.inj (hnew.symm.trans hpc)
    refine Or.inl ⟨rfl, ?_⟩
    rw [List.map_singleton, Act.callsOf_concat_other _ hnot, (courses_run hr).unborn hold]
    exact ⟨rfl, fun ⟨e, hmem, _⟩ => absurd hmem List.not_mem_nil⟩
  | stays hnot hsame =>
    have hold := hsame.symm.trans hpc
    rw [List.map_singleton, Act.callsOf_concat_other _ hnot]
    rcases hq i pc hold with hleft | ⟨h₁, v, hreads, hl, hv⟩
    · exact Or.inl hleft
    · exact Or.inr ⟨h₁, v, hreads.concat, hl, hv.other (hs.fPos_of_ne hi hnot) fun hreading =>
        stored_of_reading hinv hi hs hnot hold hreading⟩

/-! ## 3. The theorem -/

/-- **Responses are the ring at one moment.**  In every run of the server on the device, whatever
the calls answer and whatever the order of the steps, from any state of the driver with nothing
pending, if anything was sent to a client, or the reading for it came to the end, then:

* the client has locked `file_mutex` to read at a moment of the run, with its file at the start and
  the first line `strchr` finds in what was received from it, if it finds one, stored, or with its
  file where an `ioctl` of its own, for the command received from it, had put it;
* what was sent to it is the beginning of the ring as it stood at that moment, from that position
  on, and all of it if the reading came to the end. -/
theorem device_responses (h0 : Reachable s₀) (hp : s₀.pending = [])
    (hr : Run Step (start junk s₀) h x) {i : ℕ}
    (hsome : (Act.callsOf i (h.map Prod.snd)).sent ≠ [] ∨
      (Act.callsOf i (h.map Prod.snd)).Ended) :
    ∃ h₁ v, Reads i h h₁ v ∧ Located i h₁ v.driver ∧
      (Act.callsOf i (h.map Prod.snd)).sent <+:
        v.driver.content.drop (v.driver.fPos i).toNat ∧
      ((Act.callsOf i (h.map Prod.snd)).Ended → (Act.callsOf i (h.map Prod.snd)).sent =
        v.driver.content.drop (v.driver.fPos i).toNat) := by
  cases hpc : x.process.thread i with
  | none =>
    rw [(courses_run hr).unborn hpc] at hsome
    rcases hsome with hne | ⟨e, hmem, -⟩
    · exact absurd rfl hne
    · exact absurd hmem List.not_mem_nil
  | some pc =>
    rcases answering_run h0 hp hr i pc hpc with ⟨-, hnil, hnot⟩ | ⟨h₁, v, hreads, hl, hv⟩
    · rcases hsome with hne | hend
      · exact absurd hnil hne
      · exact absurd hend hnot
    · obtain ⟨hpre, hall⟩ := hv.sent
      exact ⟨h₁, v, hreads, hl, hpre, hall⟩

theorem device_responses_two : ∃ h x, Run Step (start (fun _ => 0) aesdInitModule) h x ∧
    (Act.callsOf 1 (h.map Prod.snd)).sent = [98, 10] ∧
    ∃ h₁ v, Reads 1 h h₁ v ∧ (Act.callsOf 1 (h.map Prod.snd)).sent <+:
      v.driver.content.drop (v.driver.fPos 1).toNat := by
  have hrun := Run.of_played step_of_next (start (fun _ => 0) aesdInitModule)
    (twoChoices ++ ([{}, {}, { ptr := some 1 }, {}, {}, { val := 2 }, {}] : List Ret).map
      (fun ret => some (.client 1, ret))) (by decide +kernel)
  have hsent : (Act.callsOf 1 ((played next (start (fun _ => 0) aesdInitModule) (twoChoices ++
      ([{}, {}, { ptr := some 1 }, {}, {}, { val := 2 }, {}] : List Ret).map
        (fun ret => some (.client 1, ret)))).1.map Prod.snd)).sent = [98, 10] := by decide +kernel
  obtain ⟨h₁, v, hreads, -, hpre, -⟩ := device_responses ⟨[], rfl⟩ (by decide) hrun
    (Or.inl (by rw [hsent]; simp))
  exact ⟨_, _, hrun, hsent, h₁, v, hreads, hpre⟩

end DeviceServer

end Aesd.Server
