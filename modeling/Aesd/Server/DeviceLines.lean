/-
# Packets are stored whole or not at all

Whatever calls fail, and whatever the order of the steps: the ring is the last ten of what was in it
at the start and the packets whose `write` succeeded, in the order of the writes; each is all that
its client has written, and the first line received from it (`DeviceServer.device_lines`).

The driver takes all bytes of a `write` or fails, so the write loop of `receive_data` makes one call
(`Packed.whole`), with the whole line; and a `write` that fails with nothing pending has not
happened.
-/
import Aesd.Server.DeviceServer

namespace Aesd.Server

open CString Aesd.Driver Transition Locking

/-! ## 1. The packets -/

/-- What an act stores, with its client. -/
def Act.stores : Act → Option (ℕ × List UInt8)
  | .client i (.write _ data) ret => if ret.val = -1 then none else some (i, data)
  | _ => none

/-- The packets stored, with their clients, in the order of their writes. -/
def packets (es : List Act) : List (ℕ × List UInt8) := es.filterMap Act.stores

theorem packets_concat (es : List Act) (a : Act) :
    packets (es ++ [a]) = packets es ++ a.stores.toList := by
  rw [packets, List.filterMap_append]
  cases ha : a.stores <;> simp [packets, ha]

theorem Act.stores_of_not_write {i : ℕ} {op : Op} {ret : Ret}
    (hop : ∀ buf data, op ≠ .write buf data) : (Act.client i op ret).stores = none := by
  cases op with
  | write buf data => exact absurd rfl (hop buf data)
  | _ => rfl

theorem Op.written_of_not_write {op : Op} {ret : Ret} (hop : ∀ buf data, op ≠ .write buf data) :
    op.written ret = [] := by
  cases op with
  | write buf data => exact absurd rfl (hop buf data)
  | _ => rfl

theorem Act.exists_of_stores {a : Act} {i : ℕ} {data : List UInt8}
    (h : a.stores = some (i, data)) :
    ∃ buf ret, a = .client i (.write buf data) ret ∧ ret.val ≠ -1 := by
  cases a with
  | client j op ret =>
    cases op with
    | write buf data' =>
      rw [Act.stores] at h
      split at h
      · cases h
      · rename_i hval
        obtain ⟨rfl, rfl⟩ := Prod.mk.inj (Option.some.inj h)
        exact ⟨buf, ret, rfl, hval⟩
    | _ => cases h
  | _ => cases h

namespace Trace.OnCourse

variable {evs : Trace} {pc : Pc} {op : Op} {r : Receiving}

/-- A thread that has written nothing yet is about to write the first line received. -/
theorem line (h : evs.OnCourse (.writeCall r)) (h0 : r.bytesWritten = 0) :
    evs.wrote = [] ∧ ∃ pos, strchr evs.got newline = some pos ∧
      (r.content.drop r.bytesWritten).take (r.packetLength - r.bytesWritten) =
        evs.got.take (pos + 1) ∧ (evs.got.take (pos + 1)).length = r.packetLength := by
  obtain ⟨hfound, -, -, hwrote, -⟩ := h
  obtain ⟨pos, hpos, hlen⟩ := hfound.length
  refine ⟨hwrote.trans (by rw [h0, List.take_zero]), pos, hpos, ?_, ?_⟩
  · rw [h0, hfound.content, hlen]
    rfl
  · rw [List.length_take, hlen]
    have hle := length_packet_le hpos
    omega

/-- A thread that has written does not receive or write any more. -/
theorem idle (h : evs.OnCourse pc) (hop : pc.op = some op) (hne : evs.wrote ≠ [])
    (h0 : ∀ r, pc = .writeCall r → r.bytesWritten = 0) (ret : Ret) :
    op.received ret = [] ∧ ∀ buf data, op ≠ .write buf data := by
  cases pc with
  | recvCall r => exact absurd h.2.1 hne
  | writeCall r => exact absurd (h.line (h0 r rfl)).1 hne
  | exited => cases hop
  | _ =>
    obtain rfl := Option.some.inj hop
    exact ⟨rfl, fun _ _ heq => by cases heq⟩

end Trace.OnCourse

/-- The first line ends with a newline. -/
theorem newline_mem_take {got : List UInt8} {pos : ℕ} (h : strchr got newline = some pos) :
    newline ∈ got.take (pos + 1) := by
  obtain ⟨pre, rest, rfl, rfl, -⟩ := exists_of_strchr h
  simp [List.take_append]

namespace DeviceServer

variable {x y : DeviceServer} {a : Act} {es : List Act} {h : List (DeviceServer × Act)}
  {junk : ℕ → ℤ} {s₀ : DriverState} {i : ℕ}

/-! ## 2. The invariant -/

/-- What is in the ring, and who has put it there. -/
structure Packed (s₀ : DriverState) (es : List Act) (x : DeviceServer) : Prop where
  stored : x.driver.stored =
    (s₀.stored ++ (packets es).map Prod.snd).rtake maxWriteOperationsSupported
  pending : x.driver.pending = []
  /-- The write loop has only one turn. -/
  whole : ∀ {i r}, x.process.thread i = some (.writeCall r) → r.bytesWritten = 0
  line : ∀ {i data}, (i, data) ∈ packets es → (Act.callsOf i es).wrote = data ∧
    ∃ pos, strchr (Act.callsOf i es).got newline = some pos ∧
      data = (Act.callsOf i es).got.take (pos + 1)
  packet : ∀ {i}, (Act.callsOf i es).wrote ≠ [] → (i, (Act.callsOf i es).wrote) ∈ packets es
  nodup : ((packets es).map Prod.fst).Nodup

theorem packed_start (hp : s₀.pending = []) : Packed s₀ [] (start junk s₀) := by
  refine ⟨?_, hp, (fun h => by cases h), (fun h => absurd h List.not_mem_nil),
    (fun h => absurd rfl h), List.nodup_nil⟩
  have hlen : s₀.stored.length ≤ maxWriteOperationsSupported := by
    rw [DriverState.stored, List.length_map, AesdCircularBuffer.length_entries]
    exact s₀.dev.buffer.count_le
  show s₀.stored = (s₀.stored ++ []).rtake _
  rw [List.append_nil, Segment.rtake_of_length_le hlen]

/-- A client that has a packet stored has written it. -/
theorem Packed.wrote_ne_nil (hk : Packed s₀ es x) {data : List UInt8}
    (hmem : (i, data) ∈ packets es) : (Act.callsOf i es).wrote ≠ [] := by
  obtain ⟨hwrote, pos, hpos, hdata⟩ := hk.line hmem
  rw [hwrote, hdata]
  exact List.ne_nil_of_mem (newline_mem_take hpos)

/-- Who writes is at its `write`. -/
theorem Step.exists_writeCall {buf : ℕ} {data : List UInt8} {ret : Ret}
    (hs : x.Step (.client i (.write buf data) ret) y) :
    ∃ r, x.process.thread i = some (.writeCall r) ∧
      data = (r.content.drop r.bytesWritten).take (r.packetLength - r.bytesWritten) := by
  have hp := hs.process
  generalize y.process = q at hp
  cases hp with
  | @client i pc _ _ _ hpc hop =>
    cases pc with
    | writeCall r =>
      obtain ⟨rfl, rfl⟩ := Op.write.inj (Option.some.inj hop)
      exact ⟨r, hpc, rfl⟩
    | _ => cases hop

/-- The driver takes all of the line, or fails: the write loop has only one turn. -/
theorem Packed.once (hk : Packed s₀ es x) (hc : x.process.Courses es) {leaked : List (ℕ × ℕ)}
    (hi : Inv x.driver leaked) {r r' : Receiving} {op : Op} {ret : Ret} {s : DriverState}
    (hpc : x.process.thread i = some (.writeCall r)) (hop : (Pc.writeCall r).op = some op)
    (hrep : Replies i x.driver (op, ret) s) : (Pc.writeCall r).resume ret ≠ .writeCall r' := by
  have hzero := hk.whole hpc
  obtain ⟨-, pos, -, hdata, hlen⟩ := (hc.thread hpc).line hzero
  obtain rfl := Option.some.inj hop
  rw [hdata] at hrep
  rw [Pc.resume]
  rcases hrep.write hi hk.pending with ⟨hval, -⟩ | ⟨hval, -⟩
  · rw [if_neg (by omega), hval, hlen, hzero, Int.toNat_natCast, Nat.zero_add,
      Receiving.whileUnwritten, if_neg (lt_irrefl _)]
    simp
  · rw [if_pos hval]
    simp

section Step

variable (hk : Packed s₀ es x) (hc : x.process.Courses es) (hp : x.process.Inv)
  {leaked : List (ℕ × ℕ)} (hi : Inv x.driver leaked) (hs : x.Step a y)
include hk hc hs

/-- Who writes has not written before, and writes the first line received. -/
theorem Packed.write {buf : ℕ} {data : List UInt8} {ret : Ret}
    (ha : a = .client i (.write buf data) ret) :
    (Act.callsOf i es).wrote = [] ∧ ∃ pos, strchr (Act.callsOf i es).got newline = some pos ∧
      data = (Act.callsOf i es).got.take (pos + 1) := by
  subst ha
  obtain ⟨r, hpc, hdata⟩ := hs.exists_writeCall
  obtain ⟨hnil, pos, hpos, heq, -⟩ := (hc.thread hpc).line (hk.whole hpc)
  exact ⟨hnil, pos, hpos, hdata.trans heq⟩

include hi in
theorem Packed.contents_step :
    y.driver.stored = (s₀.stored ++ (packets (es ++ [a])).map Prod.snd).rtake
        maxWriteOperationsSupported ∧ y.driver.pending = [] := by
  have hsame : a.stores = none → y.driver.stored = x.driver.stored →
      y.driver.stored = (s₀.stored ++ (packets (es ++ [a])).map Prod.snd).rtake
        maxWriteOperationsSupported := by
    intro hnone hstored
    rw [packets_concat, hnone, Option.toList_none, List.append_nil, hstored]
    exact hk.stored
  cases hs with
  | @main a p hnot hstep =>
    refine ⟨hsame ?_ rfl, hk.pending⟩
    cases a with
    | client i op ret => cases hnot
    | _ => rfl
  | @client i op ret p s hstep hrep =>
    by_cases hw : ∃ buf data, op = .write buf data
    · obtain ⟨buf, data, rfl⟩ := hw
      obtain ⟨-, pos, hpos, hdata⟩ := hk.write hc (.client hstep hrep) rfl
      have hmem : newline ∈ data := hdata ▸ newline_mem_take hpos
      rcases hrep.write hi hk.pending with ⟨hval, hstored, hpending⟩ | ⟨hval, hstored, hpending⟩
      · rw [if_pos hmem] at hstored hpending
        refine ⟨?_, hpending⟩
        have hsome : (Act.client i (.write buf data) ret).stores = some (i, data) :=
          if_neg (by omega)
        rw [packets_concat, hsome, Option.toList_some, List.map_append, ← List.append_assoc]
        show s.stored = (_ ++ [data]).rtake _
        rw [hstored, hk.stored, Segment.rtake_concat]
      · exact ⟨hsame (if_pos hval) hstored, hpending⟩
    · have hno : ∀ buf data, op ≠ .write buf data := fun buf data heq => hw ⟨buf, data, heq⟩
      obtain ⟨hstored, hpending⟩ := hrep.of_not_write hi hno
      exact ⟨hsame (Act.stores_of_not_write hno) hstored, hpending.trans hk.pending⟩

include hp hi in
theorem Packed.whole_step {r : Receiving} (hy : y.process.thread i = some (.writeCall r)) :
    r.bytesWritten = 0 := by
  cases hp.moves hs.process i with
  | @calls op ret pc heq hold hop hans hnew =>
    have hresume := Option.some.inj (hnew.symm.trans hy)
    rcases Pc.writeCall_of_resume hop hresume with ⟨rfl, r', rfl⟩ | ⟨r', rfl⟩
    · -- the lock is behind it
      have hzero : r'.bytesWritten = 0 := (hc.thread hold).2.2.1
      have hwrites := r'.writes
      rw [show r'.whileUnwritten = .writeCall r from hresume] at hwrites
      cases hwrites with
      | more => exact hzero
    · subst heq
      cases hs with
      | main hnot => cases hnot
      | client hstep hrep => exact absurd hresume (hk.once hc hi hold hop hrep)
  | created _ _ hnew => cases hnew.symm.trans hy
  | stays _ hsame => exact hk.whole (hsame.symm.trans hy)

include hi in
/-- A `write` either stores what its client has then written, or has not happened. -/
theorem Packed.write_step {buf : ℕ} {data : List UInt8} {ret : Ret}
    (ha : a = .client i (.write buf data) ret) :
    (a.stores = some (i, data) ∧ (Act.callsOf i (es ++ [a])).wrote = data) ∨
      (a.stores = none ∧ (Act.callsOf i (es ++ [a])).wrote = []) := by
  obtain ⟨hnil, pos, hpos, hdata⟩ := hk.write hc hs ha
  subst ha
  rw [Act.callsOf_concat_self, Trace.wrote_concat, hnil, List.nil_append]
  cases hs with
  | main hnot => cases hnot
  | client hstep hrep =>
    rcases hrep.write hi hk.pending with ⟨hval, -⟩ | ⟨hval, -⟩
    · refine Or.inl ⟨if_neg (by omega), ?_⟩
      show data.take ret.val.toNat = data
      rw [hval, Int.toNat_natCast, List.take_length]
    · refine Or.inr ⟨if_pos hval, ?_⟩
      show data.take ret.val.toNat = []
      rw [hval]
      exact List.take_zero

include hp hi in
theorem Packed.line_step {data : List UInt8} (hmem : (i, data) ∈ packets (es ++ [a])) :
    (Act.callsOf i (es ++ [a])).wrote = data ∧
      ∃ pos, strchr (Act.callsOf i (es ++ [a])).got newline = some pos ∧
        data = (Act.callsOf i (es ++ [a])).got.take (pos + 1) := by
  rw [packets_concat, List.mem_append] at hmem
  have hother : (∀ op ret, a ≠ .client i op ret) → (i, data) ∈ packets es := by
    intro hnot
    refine hmem.resolve_right fun hlast => ?_
    obtain ⟨buf, ret, heq, -⟩ := Act.exists_of_stores (Option.mem_toList.mp hlast)
    exact hnot _ _ heq
  cases hp.moves hs.process i with
  | @calls op ret pc heq hold hop hans hnew =>
    by_cases hw : ∃ buf data, op = .write buf data
    · obtain ⟨buf, data', rfl⟩ := hw
      obtain ⟨hnil, pos, hpos, hdata⟩ := hk.write hc hs heq
      have hnew : (i, data) ∈ a.stores.toList :=
        hmem.resolve_left fun hin => hk.wrote_ne_nil hin hnil
      rcases hk.write_step hc hi hs heq with ⟨hstores, hwrote⟩ | ⟨hstores, -⟩
      · rw [hstores, Option.toList_some, List.mem_singleton] at hnew
        obtain rfl := (Prod.mk.inj hnew).2
        have hgot : (Act.callsOf i (es ++ [a])).got = (Act.callsOf i es).got := by
          rw [heq, Act.callsOf_concat_self, Trace.got_concat]
          exact List.append_nil _
        rw [hgot]
        exact ⟨hwrote, pos, hpos, hdata⟩
      · rw [hstores] at hnew
        exact absurd hnew List.not_mem_nil
    · have hno : ∀ buf data, op ≠ .write buf data := fun buf data heq => hw ⟨buf, data, heq⟩
      have hin : (i, data) ∈ packets es := by
        refine hmem.resolve_right fun hlast => ?_
        rw [heq, Act.stores_of_not_write hno] at hlast
        exact absurd hlast List.not_mem_nil
      obtain ⟨hrecv, -⟩ := (hc.thread hold).idle hop (hk.wrote_ne_nil hin)
        (fun r hr => hk.whole (hr ▸ hold)) ret
      rw [heq, Act.callsOf_concat_self, Trace.wrote_concat, Trace.got_concat, hrecv,
        Op.written_of_not_write hno, List.append_nil, List.append_nil]
      exact hk.line hin
  | created hnot =>
    rw [Act.callsOf_concat_other es hnot]
    exact hk.line (hother hnot)
  | stays hnot =>
    rw [Act.callsOf_concat_other es hnot]
    exact hk.line (hother hnot)

include hp hi in
theorem Packed.packet_step (hne : (Act.callsOf i (es ++ [a])).wrote ≠ []) :
    (i, (Act.callsOf i (es ++ [a])).wrote) ∈ packets (es ++ [a]) := by
  rw [packets_concat, List.mem_append]
  cases hp.moves hs.process i with
  | @calls op ret pc heq hold hop hans hnew =>
    by_cases hw : ∃ buf data, op = .write buf data
    · obtain ⟨buf, data, rfl⟩ := hw
      rcases hk.write_step hc hi hs heq with ⟨hstores, hwrote⟩ | ⟨-, hwrote⟩
      · rw [hstores, hwrote]
        exact Or.inr (List.mem_singleton_self _)
      · exact absurd hwrote hne
    · have hno : ∀ buf data, op ≠ .write buf data := fun buf data heq => hw ⟨buf, data, heq⟩
      rw [heq, Act.callsOf_concat_self, Trace.wrote_concat, Op.written_of_not_write hno,
        List.append_nil] at hne ⊢
      exact Or.inl (hk.packet hne)
  | created hnot | stays hnot =>
    rw [Act.callsOf_concat_other es hnot] at hne ⊢
    exact Or.inl (hk.packet hne)

theorem Packed.nodup_step : ((packets (es ++ [a])).map Prod.fst).Nodup := by
  rw [packets_concat, List.map_append]
  cases hstores : a.stores with
  | none =>
    rw [Option.toList_none, List.map_nil, List.append_nil]
    exact hk.nodup
  | some packet =>
    obtain ⟨i, data⟩ := packet
    obtain ⟨buf, ret, heq, -⟩ := Act.exists_of_stores hstores
    obtain ⟨hnil, -⟩ := hk.write hc hs heq
    refine List.nodup_append.mpr ⟨hk.nodup, List.nodup_singleton _, ?_⟩
    intro j hj k hlast
    obtain rfl : k = i := List.mem_singleton.mp hlast
    rintro rfl
    obtain ⟨⟨j, data'⟩, hmem, rfl⟩ := List.mem_map.mp hj
    exact hk.wrote_ne_nil hmem hnil

end Step

/-- **In every run** the ring is made of packets. -/
theorem packed_run (h0 : Reachable s₀) (hp : s₀.pending = [])
    (hr : Run Step (start junk s₀) h x) : Packed s₀ (h.map Prod.snd) x := by
  refine hr.rule (Q := fun h x => Packed s₀ (h.map Prod.snd) x) (packed_start hp)
    fun {h s e t} hr hk hs => ?_
  obtain ⟨leaked, hi⟩ := (reachable_run h0 hr).inv
  have hc := courses_run hr
  have hinv := inv_run hr
  obtain ⟨hstored, hpending⟩ := hk.contents_step hc hi hs
  rw [List.map_append]
  exact ⟨hstored, hpending, hk.whole_step hc hinv hi hs, hk.line_step hc hinv hi hs,
    hk.packet_step hc hinv hi hs, hk.nodup_step hc hs⟩

/-! ## 3. The ring -/

/-- **Packets are stored whole or not at all.**  In every run of the server on the device, whatever
the calls answer and whatever the order of the steps, from any state of the driver with nothing
pending:

* nothing is pending, and the ring holds the last ten of what it held at the start and the packets
  whose `write` did not fail, in the order of these;
* a `write` is made with `file_mutex`;
* no client has two packets stored, and what is stored for a client is all that it has written;
* a stored packet is all that was received from its client up to the first newline. -/
theorem device_lines (h0 : Reachable s₀) (hp : s₀.pending = [])
    (hr : Run Step (start junk s₀) h x) :
    (x.driver.pending = [] ∧ x.driver.stored =
        (s₀.stored ++ (packets (h.map Prod.snd)).map Prod.snd).rtake
          maxWriteOperationsSupported) ∧
      (∀ v i buf data ret, (v, .client i (.write buf data) ret) ∈ h →
        v.process.holder .file = some (.client i)) ∧
      (((packets (h.map Prod.snd)).map Prod.fst).Nodup ∧
        ∀ i data, (i, data) ∈ packets (h.map Prod.snd) ↔
          data ≠ [] ∧ (Act.callsOf i (h.map Prod.snd)).wrote = data) ∧
      ∀ i data, (i, data) ∈ packets (h.map Prod.snd) →
        ∃ pos, strchr (Act.callsOf i (h.map Prod.snd)).got newline = some pos ∧
          data = (Act.callsOf i (h.map Prod.snd)).got.take (pos + 1) := by
  have hk := packed_run h0 hp hr
  refine ⟨⟨hk.pending, hk.stored⟩, ?_, ⟨hk.nodup, fun i data => ⟨fun hmem => ?_, ?_⟩⟩,
    fun i data hmem => (hk.line hmem).2⟩
  · intro v i buf data ret hmem
    obtain ⟨h₁, h₂, rfl⟩ := List.append_of_mem hmem
    obtain ⟨w, hv, hs, -, -⟩ := hr.cut
    obtain ⟨r, hpc, -⟩ := hs.exists_writeCall
    refine ((inv_run hv).agree .file (.client i)).mpr ?_
    rw [Process.holds_of_thread hpc]
    rfl
  · have hwrote := (hk.line hmem).1
    exact ⟨hwrote ▸ hk.wrote_ne_nil hmem, hwrote⟩
  · rintro ⟨hne, rfl⟩
    exact hk.packet hne

/-- Two clients are created.  The `write` of the first fails, that of the second does not. -/
def twoChoices : List (Option (Actor × Ret)) :=
  ([{ val := 1 }, { val := 4 }, { ptr := some 0 }, {}, {}, {}, {}, { val := 1 }, { val := 5 },
      { ptr := some 1 }, {}] : List Ret).map (fun ret => some (.main, ret)) ++
    ([{ val := 6 }, { ptr := some 0 }, { val := 1 }, { val := 2, data := [97, 10] }, {},
      { val := -1 }, {}] : List Ret).map (fun ret => some (.client 0, ret)) ++
    ([{ val := 7 }, { ptr := some 1 }, { val := 1 }, { val := 3, data := [98, 10, 99] }, {},
      {}, {}] : List Ret).map (fun ret => some (.client 1, ret))

theorem device_lines_two : ∃ h x, Run Step (start (fun _ => 0) aesdInitModule) h x ∧
    packets (h.map Prod.snd) = [(1, [98, 10])] ∧ x.driver.stored = [[98, 10]] := by
  have hrun := Run.of_played step_of_next (start (fun _ => 0) aesdInitModule) twoChoices
    (by decide +kernel)
  have hpackets : packets ((played next (start (fun _ => 0) aesdInitModule) twoChoices).1.map
      Prod.snd) = [(1, [98, 10])] := by decide +kernel
  obtain ⟨⟨-, hstored⟩, -⟩ := device_lines ⟨[], rfl⟩ (by decide) hrun
  rw [hpackets] at hstored
  exact ⟨_, _, hrun, hpackets, hstored.trans (by decide)⟩

end DeviceServer

end Aesd.Server
