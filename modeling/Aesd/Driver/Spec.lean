/-
# What each call of the driver does

One invariant (`Inv`) and one specification per file operation, proved once; everything later
about runs of the driver cites these and never opens an operation again.

The invariant carries the blocks the driver has lost track of as a parameter: the live blocks
are those the device refers to and those `leaked`.  Only storing an entry in a full buffer adds
to them, because the slot that is overwritten still owns its block (`Inv.commit`).
-/
import Aesd.Driver.Ledger

namespace Aesd.Driver

open MachineInt RingWindow

/-! ## 1. The invariant -/

/-- **The driver's invariant**, between calls. -/
structure Inv (s : DriverState) (leaked : List (ℕ × ℕ)) : Prop where
  /-- The mutex is free. -/
  unlocked : s.dev.mutex = false
  /-- The buffer is a ring. -/
  ring : s.dev.buffer.Wf
  /-- A stored entry records its size and holds a newline. -/
  stored : ∀ e ∈ s.dev.buffer.entries, e.Sized ∧ newline ∈ e.bytes
  /-- The working entry records its size. -/
  sized : s.dev.entry.Sized
  /-- The working entry holds no newline. -/
  noNewline : newline ∉ s.dev.entry.bytes
  /-- The allocator's invariant. -/
  heap : s.heap.Wf
  /-- Every live block is referred to by the device or leaked. -/
  owned : s.heap.live.Perm (s.dev.owned ++ leaked)
  /-- A position is a `loff_t`. -/
  positions : ∀ f, -2 ^ 63 ≤ s.fPos f ∧ s.fPos f < 2 ^ 63

theorem inv_init : Inv aesdInitModule [] :=
  ⟨rfl, AesdCircularBuffer.wf_init, by simp [aesdInitModule], AesdBufferEntry.sized_zero,
    by simp [aesdInitModule], Heap.wf_init, by decide, fun _ => by simp [aesdInitModule]⟩

/-- The stored commands, oldest first. -/
def DriverState.stored (s : DriverState) : List (List UInt8) :=
  s.dev.buffer.entries.map AesdBufferEntry.bytes

/-- The bytes of the working entry. -/
def DriverState.pending (s : DriverState) : List UInt8 := s.dev.entry.bytes

@[simp] theorem DriverState.setPos_fPos_self (s : DriverState) (f : ℕ) (pos : ℤ) :
    (s.setPos f pos).fPos f = pos := by simp [DriverState.setPos]

theorem DriverState.setPos_fPos_of_ne (s : DriverState) {f filp : ℕ} (h : f ≠ filp) (pos : ℤ) :
    (s.setPos filp pos).fPos f = s.fPos f := by
  simp [DriverState.setPos, h]

/-! ## 2. Sizes -/

/-- A slot holds a stored entry or nothing. -/
theorem AesdCircularBuffer.Wf.slot_cases {b : AesdCircularBuffer} (h : b.Wf)
    (i : Fin maxWriteOperationsSupported) : b.entry i ∈ b.entries ∨ b.entry i = .zero := by
  cases hf : b.full with
  | true =>
    obtain ⟨j, hj, hij⟩ := exists_slotAt b.outOffs i
    refine Or.inl (mem_window.mpr ⟨j, ?_, by rw [hij]⟩)
    simpa [AesdCircularBuffer.count, hf] using hj
  | false =>
    rcases Nat.lt_or_ge i.val b.inOffs.val with hlt | hge
    · refine Or.inl (mem_window.mpr ⟨i.val, by simpa [AesdCircularBuffer.count, hf] using hlt, ?_⟩)
      rw [h.outOffs_of_not_full hf]
      congr 1
      apply Fin.ext
      simp [slotAt, Fin.ofNat, Nat.mod_eq_of_lt i.isLt]
    · exact Or.inr (h.unused hf i hge)

/-- The blocks of the ring are as large as its slots. -/
theorem AesdCircularBuffer.sum_owned {b : AesdCircularBuffer} (h : ∀ i, (b.entry i).Sized) :
    (b.owned.map Prod.snd).sum =
      ((List.finRange maxWriteOperationsSupported).map fun i => (b.entry i).size).sum := by
  rw [AesdCircularBuffer.owned, List.map_flatMap, List.flatMap_def, List.sum_flatten, List.map_map]
  congr 1
  apply List.map_congr_left
  intro i _
  exact (h i).sum_owned

namespace Inv

variable {s : DriverState} {leaked : List (ℕ × ℕ)}

/-- Every slot is sized, used or not. -/
theorem slot_sized (hi : Inv s leaked) (i : Fin maxWriteOperationsSupported) :
    (s.dev.buffer.entry i).Sized := by
  rcases hi.ring.slot_cases i with hm | hz
  · exact (hi.stored _ hm).1
  · rw [hz]
    exact AesdBufferEntry.sized_zero

/-- **The bytes the driver holds stay below `2 ^ 63`**, because they are in live blocks. -/
theorem total_lt (hi : Inv s leaked) : s.dev.buffer.totalSize + s.dev.entry.size < 2 ^ 63 := by
  have hle : s.dev.buffer.totalSize ≤
      ((List.finRange maxWriteOperationsSupported).map fun i =>
        (s.dev.buffer.entry i).size).sum := by
    rw [AesdCircularBuffer.totalSize, AesdCircularBuffer.sizes, AesdCircularBuffer.entries,
      map_window]
    exact sum_window_le _ _ s.dev.buffer.count_le
  have hlive : s.heap.liveSize = (s.dev.buffer.owned.map Prod.snd).sum +
      (s.dev.entry.owned.map Prod.snd).sum + (leaked.map Prod.snd).sum := by
    rw [Heap.liveSize, (hi.owned.map Prod.snd).sum_eq, AesdDev.owned]
    simp only [List.map_append, List.sum_append]
  rw [AesdCircularBuffer.sum_owned hi.slot_sized, hi.sized.sum_owned] at hlive
  have := hi.heap.small
  omega

/-- The stored commands have the recorded sizes. -/
theorem sizes_stored (hi : Inv s leaked) : Segment.sizes s.stored = s.dev.buffer.sizes := by
  rw [Segment.sizes, DriverState.stored, List.map_map, AesdCircularBuffer.sizes]
  apply List.map_congr_left
  intro e he
  exact (hi.stored e he).1.length_bytes

theorem totalSize_eq (hi : Inv s leaked) : s.dev.buffer.totalSize = s.stored.flatten.length := by
  rw [AesdCircularBuffer.totalSize, ← hi.sizes_stored, Segment.sum_sizes]

/-- A stored command is not empty: it holds a newline. -/
theorem stored_ne_nil (hi : Inv s leaked) {c : List UInt8} (hc : c ∈ s.stored) : newline ∈ c := by
  obtain ⟨e, he, rfl⟩ := List.mem_map.mp hc
  exact (hi.stored e he).2

end Inv

/-! ## 3. `aesd_write` -/

/-- Releasing and taking the mutex again changes nothing. -/
theorem DriverState.unlock_lock {s : DriverState} (h : s.dev.mutex = false) :
    s.lock.unlock = s := by
  obtain ⟨⟨b, e, m⟩, hp, f⟩ := s
  simp only at h
  subst h
  rfl

/-- The working entry after a `krealloc` that returned `tmp` and a copy of `buf`. -/
def AesdBufferEntry.extended (e : AesdBufferEntry) (tmp : Ptr) (buf : List UInt8) :
    AesdBufferEntry :=
  ⟨tmp.store e.size buf, e.size + buf.length⟩

/-- **The extended entry holds the old bytes and then the new ones.** -/
theorem AesdBufferEntry.extended_spec {e : AesdBufferEntry} (hs : e.Sized) {h h' : Heap} {tmp : Ptr}
    {buf : List UInt8} {o : KreallocOutcome}
    (hk : h.krealloc e.buffptr (e.size + buf.length) o = some (tmp, h')) :
    (e.extended tmp buf).Sized ∧ (e.extended tmp buf).bytes = e.bytes ++ buf ∧
      (e.extended tmp buf).owned = (AesdBufferEntry.mk tmp (e.size + buf.length)).owned := by
  have hs' : e.size = e.buffptr.bytes.length := hs
  have hsized : (e.extended tmp buf).Sized ∧
      (e.extended tmp buf).buffptr.bytes = e.buffptr.bytes ++ buf ∧
      (e.extended tmp buf).owned = (AesdBufferEntry.mk tmp (e.size + buf.length)).owned := by
    rcases Heap.krealloc_ptr hk with ⟨h0, rfl⟩ | ⟨hpos, id, rfl⟩
    · have hbuf : buf = [] := List.length_eq_zero_iff.mp (by omega)
      have hold : e.buffptr.bytes = [] := List.length_eq_zero_iff.mp (by omega)
      subst hbuf
      refine ⟨?_, ?_, rfl⟩
      · simpa [AesdBufferEntry.Sized, AesdBufferEntry.extended, Ptr.store] using by omega
      · simp [AesdBufferEntry.extended, Ptr.store, hold]
    · have htake : ((e.buffptr.bytes.take (e.size + buf.length)).take e.size) =
          e.buffptr.bytes := by
        rw [List.take_take, List.take_of_length_le (by omega)]
      refine ⟨?_, ?_, rfl⟩
      · simp [AesdBufferEntry.Sized, AesdBufferEntry.extended, Ptr.store, hs', List.take_take]
      · simp only [AesdBufferEntry.extended, Ptr.store, Ptr.bytes_block, htake]
  exact ⟨hsized.1, by rw [hsized.1.bytes_eq, hsized.2.1, hs.bytes_eq], hsized.2.2⟩

/-- What a write does with its extended working entry: store it if it holds a newline, keep it
as the working entry otherwise. -/
def DriverState.commit (s : DriverState) (e : AesdBufferEntry) : DriverState :=
  if newline ∈ e.bytes then
    (s.setBuffer (aesdCircularBufferAddEntry s.dev.buffer e)).setEntry .zero
  else s.setEntry e

@[simp] theorem DriverState.commit_fPos (s : DriverState) (e : AesdBufferEntry) :
    (s.commit e).fPos = s.fPos := by
  unfold DriverState.commit
  split <;> rfl

/-- The four ways `aesd_write` can end. -/
inductive WriteEnd (s : DriverState) (filp : ℕ) (buf : UserBuf) (k : Kernel) :
    DriverState × Reply → Prop
  | interrupted : k.interrupted = true → WriteEnd s filp buf k (s, ⟨erestartsys, []⟩)
  | noMemory : k.interrupted = false →
      s.heap.krealloc s.dev.entry.buffptr (s.dev.entry.size + buf.bytes.length) k.krealloc = none →
      WriteEnd s filp buf k (s, ⟨enomem, []⟩)
  | fault {tmp : Ptr} {heap : Heap} : k.interrupted = false → k.faults = true →
      s.heap.krealloc s.dev.entry.buffptr (s.dev.entry.size + buf.bytes.length) k.krealloc =
        some (tmp, heap) →
      WriteEnd s filp buf k ((s.setHeap (heap.kfree tmp)).setEntry .zero, ⟨efault, []⟩)
  | accepted {tmp : Ptr} {heap : Heap} : k.interrupted = false → k.faults = false →
      s.heap.krealloc s.dev.entry.buffptr (s.dev.entry.size + buf.bytes.length) k.krealloc =
        some (tmp, heap) →
      WriteEnd s filp buf k
        ((((s.setHeap heap).commit (s.dev.entry.extended tmp buf.bytes)).setPos filp
            (wrapS 64 (s.fPos filp + buf.bytes.length))),
          ⟨buf.bytes.length, []⟩)

variable {s : DriverState} {leaked : List (ℕ × ℕ)}

/-- **`aesd_write` ends in one of those ways.** -/
theorem aesdWrite_end (hi : Inv s leaked) (filp : ℕ) (buf : UserBuf) (k : Kernel) :
    WriteEnd s filp buf k (aesdWrite s filp buf k) := by
  have hlt := hi.total_lt
  have hbuf := buf.small
  have hw : wrapU 64 ((s.dev.entry.size : ℤ) + buf.bytes.length) =
      s.dev.entry.size + buf.bytes.length := by
    rw [← Nat.cast_add]
    exact wrapU_natCast (by omega)
  obtain ⟨⟨b, e, m⟩, heap, fp⟩ := s
  obtain rfl : m = false := hi.unlocked
  unfold aesdWrite
  cases hint : k.interrupted with
  | true => exact WriteEnd.interrupted hint
  | false =>
    simp only [DriverState.lock, hw, Bool.false_eq_true, if_false]
    cases hk : heap.krealloc e.buffptr (e.size + buf.bytes.length) k.krealloc with
    | none => exact WriteEnd.noMemory hint hk
    | some th =>
      obtain ⟨tmp, heap'⟩ := th
      cases hf : k.faults with
      | true => exact WriteEnd.fault hint hf hk
      | false =>
        have h := @WriteEnd.accepted ⟨⟨b, e, false⟩, heap, fp⟩ filp buf k tmp heap' hint hf hk
        simp only [Bool.false_eq_true, if_false]
        split
        · rename_i hn
          have hn' : newline ∈ (e.extended tmp buf.bytes).bytes := hn
          rw [DriverState.commit, if_pos hn'] at h
          exact h
        · rename_i hn
          have hn' : newline ∉ (e.extended tmp buf.bytes).bytes := hn
          rw [DriverState.commit, if_neg hn'] at h
          exact h

/-- The slot a store in the ring overwrites. -/
def DriverState.overwritten (s : DriverState) : List (ℕ × ℕ) :=
  (s.dev.buffer.entry s.dev.buffer.inOffs).owned

/-- Below ten entries no block is overwritten. -/
theorem Inv.overwritten_of_not_full (hi : Inv s leaked) (hf : s.dev.buffer.full = false) :
    s.overwritten = [] := by
  rw [DriverState.overwritten, hi.ring.unused hf _ (le_refl _), AesdBufferEntry.owned_zero]

/-- A full buffer overwrites a live block. -/
theorem Inv.overwritten_of_full (hi : Inv s leaked) (hf : s.dev.buffer.full = true) :
    ∃ b, s.overwritten = [b] := by
  have hmem : s.dev.buffer.entry s.dev.buffer.inOffs ∈ s.dev.buffer.entries := by
    refine mem_window.mpr ⟨0, by simp [AesdCircularBuffer.count, hf], ?_⟩
    rw [slotAt_zero, hi.ring.inOffs_of_full hf]
  obtain ⟨hs, hn⟩ := hi.stored _ hmem
  rw [hs.bytes_eq] at hn
  rw [DriverState.overwritten, AesdBufferEntry.owned]
  cases hp : (s.dev.buffer.entry s.dev.buffer.inOffs).buffptr with
  | null => rw [hp] at hn; exact absurd hn (by simp)
  | zeroSize => rw [hp] at hn; exact absurd hn (by simp)
  | block id bytes => exact ⟨_, rfl⟩

/-- The live blocks, those of the working entry first. -/
theorem Inv.live_perm (hi : Inv s leaked) :
    s.heap.live.Perm (s.dev.entry.owned ++ (s.dev.buffer.owned ++ leaked)) := by
  refine hi.owned.trans ?_
  rw [AesdDev.owned, List.append_assoc]
  exact List.perm_append_comm_assoc _ _ _

/-- **Storing the extended entry** moves its block to the ring; the block of the slot it
overwrites is no longer referred to. -/
theorem Inv.commit (hi : Inv s leaked) {tmp : Ptr} {heap : Heap} {buf : List UInt8}
    {o : KreallocOutcome}
    (hk : s.heap.krealloc s.dev.entry.buffptr (s.dev.entry.size + buf.length) o =
      some (tmp, heap)) :
    Inv ((s.setHeap heap).commit (s.dev.entry.extended tmp buf))
      (if newline ∈ s.pending ++ buf then s.overwritten ++ leaked else leaked) := by
  obtain ⟨hsized, hbytes, hown⟩ := AesdBufferEntry.extended_spec hi.sized hk
  obtain ⟨hw, hlive⟩ := hi.heap.krealloc hi.live_perm hk
  rw [← hown] at hlive
  have hbytes' : (s.dev.entry.extended tmp buf).bytes = s.pending ++ buf := hbytes
  rw [DriverState.commit, hbytes']
  split
  · rename_i hn
    refine ⟨hi.unlocked, hi.ring.add _, ?_, AesdBufferEntry.sized_zero,
      List.not_mem_nil, hw, ?_, hi.positions⟩
    · intro e he
      have he' : e ∈ (aesdCircularBufferAddEntry s.dev.buffer
          (s.dev.entry.extended tmp buf)).entries := he
      rw [AesdCircularBuffer.entries_add hi.ring] at he'
      rcases List.mem_append.mp (List.mem_of_mem_drop he') with hm | hm
      · exact hi.stored e hm
      · rw [List.mem_singleton.mp hm]
        exact ⟨hsized, by rw [hbytes']; exact hn⟩
    · have hup := owned_update s.dev.buffer.entry s.dev.buffer.inOffs
        (s.dev.entry.extended tmp buf)
      refine hlive.trans ?_
      rw [List.perm_iff_count] at hup ⊢
      intro b
      have hb := hup b
      simp only [List.count_append, DriverState.setBuffer, DriverState.setEntry,
        DriverState.setHeap, DriverState.overwritten, AesdDev.owned, AesdCircularBuffer.owned,
        AesdCircularBuffer.entry_add, AesdBufferEntry.owned_zero, List.count_nil] at hb ⊢
      omega
  · rename_i hn
    refine ⟨hi.unlocked, hi.ring, hi.stored, hsized, by rw [← hbytes'] at hn; exact hn, hw, ?_,
      hi.positions⟩
    refine hlive.trans ?_
    rw [AesdDev.owned, List.append_assoc]
    exact List.perm_append_comm_assoc _ _ _

/-- A copy fault releases the working entry's block and nothing else. -/
theorem Inv.drop (hi : Inv s leaked) {tmp : Ptr} {heap : Heap} {n : ℕ} {o : KreallocOutcome}
    (hk : s.heap.krealloc s.dev.entry.buffptr n o = some (tmp, heap)) :
    Inv ((s.setHeap (heap.kfree tmp)).setEntry .zero) leaked := by
  obtain ⟨hw, hlive⟩ := hi.heap.krealloc hi.live_perm hk
  obtain ⟨hw', hlive', -⟩ := hw.kfree hlive
  refine ⟨hi.unlocked, hi.ring, hi.stored, AesdBufferEntry.sized_zero, List.not_mem_nil, hw', ?_,
    hi.positions⟩
  simpa [AesdDev.owned, DriverState.setEntry, DriverState.setHeap] using hlive'

/-- **What storing the extended entry does to the contents**: it closes the group of writes if
there is a newline in it, and leaves it open otherwise. -/
theorem Inv.commit_contents (hi : Inv s leaked) {tmp : Ptr} {heap : Heap} {buf : List UInt8}
    {o : KreallocOutcome}
    (hk : s.heap.krealloc s.dev.entry.buffptr (s.dev.entry.size + buf.length) o =
      some (tmp, heap)) :
    ((s.setHeap heap).commit (s.dev.entry.extended tmp buf)).stored =
        (if newline ∈ s.pending ++ buf then
          (s.stored ++ [s.pending ++ buf]).rtake maxWriteOperationsSupported
        else s.stored) ∧
      ((s.setHeap heap).commit (s.dev.entry.extended tmp buf)).pending =
        (if newline ∈ s.pending ++ buf then [] else s.pending ++ buf) := by
  obtain ⟨-, hbytes, -⟩ := AesdBufferEntry.extended_spec hi.sized hk
  have hbytes' : (s.dev.entry.extended tmp buf).bytes = s.pending ++ buf := hbytes
  rw [DriverState.commit, hbytes']
  split
  · refine ⟨?_, rfl⟩
    show ((aesdCircularBufferAddEntry s.dev.buffer (s.dev.entry.extended tmp buf)).entries.map
      AesdBufferEntry.bytes) = _
    rw [AesdCircularBuffer.entries_add hi.ring, List.rtake, List.map_drop, List.map_append,
      List.map_singleton, hbytes', List.rtake]
    simp [DriverState.stored]
  · exact ⟨rfl, hbytes⟩

/-! ## 4. `aesd_read` -/

/-- The position a file has as the `size_t` the lookup gets. -/
def DriverState.charOffset (s : DriverState) (filp : ℕ) : ℕ := wrapU 64 (s.fPos filp)

theorem DriverState.charOffset_of_nonneg {filp : ℕ} (h0 : 0 ≤ s.fPos filp)
    (h : s.fPos filp < 2 ^ 63) : s.charOffset filp = (s.fPos filp).toNat :=
  wrapU_of_lt h0 (by omega)

/-- The four ways `aesd_read` can end. -/
inductive ReadEnd (s : DriverState) (filp count : ℕ) (k : Kernel) : DriverState × Reply → Prop
  | interrupted : k.interrupted = true → ReadEnd s filp count k (s, ⟨erestartsys, []⟩)
  | atEnd : k.interrupted = false → s.stored.flatten.length ≤ s.charOffset filp →
      ReadEnd s filp count k (s, ⟨0, []⟩)
  | fault : k.interrupted = false → k.faults = true →
      s.charOffset filp < s.stored.flatten.length → ReadEnd s filp count k (s, ⟨efault, []⟩)
  | copied {n : ℕ} : k.interrupted = false → k.faults = false →
      s.charOffset filp + n ≤ s.stored.flatten.length → n ≤ count → (0 < count → 0 < n) →
      s.charOffset filp < s.stored.flatten.length →
      ReadEnd s filp count k
        (s.setPos filp (wrapS 64 (s.fPos filp + n)),
          ⟨n, (s.stored.flatten.drop (s.charOffset filp)).take n⟩)

/-- **`aesd_read` ends in one of those ways**: it hands out bytes of the concatenation of the
stored commands, from the file's position on. -/
theorem aesdRead_end (hi : Inv s leaked) (filp count : ℕ) (k : Kernel) :
    ReadEnd s filp count k (aesdRead s filp count k) := by
  have hfind := s.dev.buffer.find_eq_locate (wrapU_lt 64 (s.fPos filp))
  have htot := hi.totalSize_eq
  have hlt := hi.total_lt
  obtain ⟨⟨b, e, m⟩, heap, fp⟩ := s
  obtain rfl : m = false := hi.unlocked
  unfold aesdRead
  cases hint : k.interrupted with
  | true => exact ReadEnd.interrupted hint
  | false =>
    simp only [DriverState.lock, Bool.false_eq_true, if_false]
    cases hl : Segment.locate b.sizes (wrapU 64 (fp filp)) with
    | none =>
      rw [hl, Option.map_none] at hfind
      simp only at hfind
      rw [hfind]
      refine ReadEnd.atEnd hint ?_
      rw [← htot]
      exact Segment.locate_eq_none_iff.mp hl
    | some ko =>
      obtain ⟨j, o⟩ := ko
      rw [hl, Option.map_some] at hfind
      simp only at hfind
      rw [hfind]
      simp only
      rw [← hi.sizes_stored] at hl
      obtain ⟨c, hc, ho, hdrop⟩ := Segment.drop_flatten_of_locate hl
      -- the slot the lookup names holds the located command
      have hj : j < b.count := by
        have := (List.getElem?_eq_some_iff.mp hc).1
        simpa [DriverState.stored] using this
      have hentry : b.entries[j]? = some (b.entry (slotAt b.outOffs j)) := getElem?_window _ _ hj
      have hmem : b.entry (slotAt b.outOffs j) ∈ b.entries := List.mem_of_getElem? hentry
      obtain ⟨hsz, -⟩ := hi.stored _ hmem
      have hcb : c = (b.entry (slotAt b.outOffs j)).buffptr.bytes := by
        rw [← hsz.bytes_eq]
        have hmap : (b.entries.map AesdBufferEntry.bytes)[j]? = some c := hc
        rw [List.getElem?_map, hentry] at hmap
        simpa [eq_comm] using hmap
      have hcl : c.length = (b.entry (slotAt b.outOffs j)).size := by rw [hcb]; exact hsz.symm
      have hpos : wrapU 64 (fp filp) + (c.length - o) ≤
          (DriverState.stored ⟨⟨b, e, false⟩, heap, fp⟩).flatten.length := by
        have := congrArg List.length hdrop
        rw [List.length_drop, List.length_append, List.length_drop] at this
        omega
      have hw : wrapU 64 (((b.entry (slotAt b.outOffs j)).size : ℤ) - o) = c.length - o := by
        rw [← hcl, ← Nat.cast_sub (le_of_lt ho)]
        exact wrapU_natCast (by omega)
      simp only [hw, ← hcb]
      have hlt' : wrapU 64 (fp filp) <
          (DriverState.stored ⟨⟨b, e, false⟩, heap, fp⟩).flatten.length := by omega
      cases hf : k.faults with
      | true => exact ReadEnd.fault hint hf hlt'
      | false =>
        simp only [Bool.false_eq_true, if_false]
        -- the bytes copied: the rest of the located command, cut at `count`
        have key : ∀ n, n ≤ c.length - o → n ≤ count → (0 < count → 0 < n) →
            ReadEnd ⟨⟨b, e, false⟩, heap, fp⟩ filp count k
              (DriverState.setPos ⟨⟨b, e, false⟩, heap, fp⟩ filp (wrapS 64 (fp filp + n)),
                ⟨n, (c.drop o).take n⟩) := by
          intro n hn hcount hzero
          have h := @ReadEnd.copied ⟨⟨b, e, false⟩, heap, fp⟩ filp count k n hint hf
            (by show wrapU 64 (fp filp) + n ≤ _; omega) hcount hzero hlt'
          have hdrop' : (DriverState.stored ⟨⟨b, e, false⟩, heap, fp⟩).flatten.drop
              (DriverState.charOffset ⟨⟨b, e, false⟩, heap, fp⟩ filp) =
                c.drop o ++ ((DriverState.stored ⟨⟨b, e, false⟩, heap, fp⟩).drop (j + 1)).flatten :=
            hdrop
          rwa [hdrop', List.take_append_of_le_length (by rw [List.length_drop]; omega)] at h
        split
        · rename_i hle
          exact key count hle (le_refl _) id
        · rename_i hgt
          exact key (c.length - o) (le_refl _) (by omega) (fun _ => by omega)

/-! ## 5. `aesd_ioctl` -/

/-- The loop of `aesd_adjust_file_offset` adds the sizes of the older commands. -/
theorem cmdOffsetFrom_eq (b : AesdCircularBuffer) : ∀ (left i n : ℕ),
    n + (b.sizesFrom i left).sum < 2 ^ 63 →
      cmdOffsetFrom b i left n = (n + (b.sizesFrom i left).sum : ℕ)
  | 0, i, n, _ => by simp [cmdOffsetFrom, AesdCircularBuffer.sizesFrom]
  | left + 1, i, n, h => by
    rw [AesdCircularBuffer.sizesFrom_succ, List.sum_cons] at h ⊢
    have hw : wrapS 64 ((n : ℤ) + (b.entry (slotAt b.outOffs i)).size) =
        ((n + (b.entry (slotAt b.outOffs i)).size : ℕ) : ℤ) := by
      rw [← Nat.cast_add]
      exact wrapS_natCast (by omega)
    rw [cmdOffsetFrom, hw, cmdOffsetFrom_eq b left (i + 1) _ (by omega), Nat.add_assoc]

/-- The five ways `aesd_ioctl` can end. -/
inductive IoctlEnd (s : DriverState) (filp : ℕ) (cmd : UInt32) (arg : AesdSeekto) (k : Kernel) :
    DriverState × Reply → Prop
  | unknown : cmd ≠ aesdcharIocseekto → IoctlEnd s filp cmd arg k (s, ⟨enotty, []⟩)
  | fault : cmd = aesdcharIocseekto → k.faults = true →
      IoctlEnd s filp cmd arg k (s, ⟨efault, []⟩)
  | interrupted : cmd = aesdcharIocseekto → k.faults = false → k.interrupted = true →
      IoctlEnd s filp cmd arg k (s, ⟨erestartsys, []⟩)
  | refused : cmd = aesdcharIocseekto → k.faults = false → k.interrupted = false →
      (¬ ∃ c, s.stored[arg.writeCmd.toNat]? = some c ∧ arg.writeCmdOffset.toNat < c.length) →
      IoctlEnd s filp cmd arg k (s, ⟨einval, []⟩)
  | moved {c : List UInt8} : cmd = aesdcharIocseekto → k.faults = false → k.interrupted = false →
      s.stored[arg.writeCmd.toNat]? = some c → arg.writeCmdOffset.toNat < c.length →
      IoctlEnd s filp cmd arg k
        (s.setPos filp (Segment.position (Segment.sizes s.stored) arg.writeCmd.toNat
          arg.writeCmdOffset.toNat : ℕ), ⟨0, []⟩)

/-- **`aesd_ioctl` ends in one of those ways**: a seek is accepted exactly when it names a byte
of a stored command, and moves the file to that byte's position. -/
theorem aesdIoctl_end (hi : Inv s leaked) (filp : ℕ) (cmd : UInt32) (arg : AesdSeekto)
    (k : Kernel) : IoctlEnd s filp cmd arg k (aesdIoctl s filp cmd arg k) := by
  have hsz := hi.sizes_stored
  have htot := hi.total_lt
  obtain ⟨⟨b, e, m⟩, heap, fp⟩ := s
  obtain rfl : m = false := hi.unlocked
  unfold aesdIoctl
  split
  · rename_i hcmd
    cases hf : k.faults with
    | true => exact IoctlEnd.fault hcmd hf
    | false =>
      rw [if_neg Bool.false_ne_true]
      unfold aesdAdjustFileOffset
      cases hint : k.interrupted with
      | true => exact IoctlEnd.interrupted hcmd hf hint
      | false =>
        rw [if_neg Bool.false_ne_true]
        dsimp only [DriverState.lock]
        -- what `c`-th oldest and its size are, by the invariant
        have hget : ∀ c, (DriverState.stored ⟨⟨b, e, false⟩, heap, fp⟩)[arg.writeCmd.toNat]? =
            some c → arg.writeCmd.toNat < b.count ∧
              c.length = (b.entry (slotAt b.outOffs arg.writeCmd.toNat)).size := by
          intro c hc
          have hlt : arg.writeCmd.toNat < b.count := by
            have := (List.getElem?_eq_some_iff.mp hc).1
            simpa [DriverState.stored] using this
          have h1 := Segment.sizes_getElem? hc
          rw [hsz] at h1
          have h2 : b.sizes[arg.writeCmd.toNat]? =
              some (b.entry (slotAt b.outOffs arg.writeCmd.toNat)).size := by
            rw [AesdCircularBuffer.sizes, AesdCircularBuffer.entries, map_window]
            exact getElem?_window _ _ hlt
          rw [h2] at h1
          exact ⟨hlt, by simpa [eq_comm] using h1⟩
        split
        · rename_i hge
          refine IoctlEnd.refused hcmd hf hint ?_
          rintro ⟨c, hc, -⟩
          have := (hget c hc).1
          omega
        · rename_i hge
          obtain ⟨c, hc⟩ : ∃ c,
              (DriverState.stored ⟨⟨b, e, false⟩, heap, fp⟩)[arg.writeCmd.toNat]? = some c := by
            refine ⟨_, List.getElem?_eq_getElem ?_⟩
            simpa [DriverState.stored] using Nat.lt_of_not_le hge
          have hcl := (hget c hc).2
          split
          · rename_i hoff
            refine IoctlEnd.refused hcmd hf hint ?_
            rintro ⟨c', hc', ho⟩
            have := (hget c' hc').2
            omega
          · rename_i hoff
            have hoff' : arg.writeCmdOffset.toNat < c.length := by omega
            have htake : (b.sizesFrom 0 arg.writeCmd.toNat).sum =
                (b.sizes.take arg.writeCmd.toNat).sum := by
              rw [AesdCircularBuffer.sizes_eq_sizesFrom, AesdCircularBuffer.sizesFrom,
                AesdCircularBuffer.sizesFrom, take_window _ _ (by omega)]
            have hpos : Segment.position b.sizes arg.writeCmd.toNat arg.writeCmdOffset.toNat <
                b.totalSize := by
              have h1 := Segment.sizes_getElem? hc
              rw [hsz] at h1
              exact Segment.position_lt_sum h1 hoff'
            rw [Segment.position] at hpos
            have htot' : b.totalSize + e.size < 2 ^ 63 := htot
            have hco : cmdOffsetFrom b 0 arg.writeCmd.toNat 0 =
                ((b.sizes.take arg.writeCmd.toNat).sum : ℕ) := by
              have := cmdOffsetFrom_eq b arg.writeCmd.toNat 0 0 (by omega)
              simpa [htake] using this
            have hw : wrapS 64 (cmdOffsetFrom b 0 arg.writeCmd.toNat 0 +
                arg.writeCmdOffset.toNat) =
                (Segment.position b.sizes arg.writeCmd.toNat arg.writeCmdOffset.toNat : ℕ) := by
              rw [hco, ← Nat.cast_add, Segment.position]
              exact wrapS_natCast (by omega)
            have h := @IoctlEnd.moved ⟨⟨b, e, false⟩, heap, fp⟩ filp cmd arg k c hcmd hf hint hc
              hoff'
            rw [hsz] at h
            rw [hw]
            exact h
  · rename_i hcmd
    exact IoctlEnd.unknown hcmd

/-! ## 6. `aesd_seek` -/

/-- What an offset is counted from: the start, the file's position, or the end of the ring. -/
def DriverState.seekBase (s : DriverState) (filp : ℕ) (whence : Int32) : Option ℤ :=
  if whence = 0 then some 0
  else if whence = 1 then some (s.fPos filp)
  else if whence = 2 then some s.stored.flatten.length
  else none

/-- The three ways `aesd_seek` can end. -/
inductive SeekEnd (s : DriverState) (filp : ℕ) (off : Int64) (whence : Int32) (k : Kernel) :
    DriverState × Reply → Prop
  | interrupted : k.interrupted = true → SeekEnd s filp off whence k (s, ⟨erestartsys, []⟩)
  | refused : k.interrupted = false →
      (∀ base, s.seekBase filp whence = some base → wrapS 64 (base + off.toInt) < 0) →
      SeekEnd s filp off whence k (s, ⟨einval, []⟩)
  | moved {base : ℤ} : k.interrupted = false → s.seekBase filp whence = some base →
      0 ≤ wrapS 64 (base + off.toInt) →
      SeekEnd s filp off whence k
        (s.setPos filp (wrapS 64 (base + off.toInt)), ⟨wrapS 64 (base + off.toInt), []⟩)

/-- **`aesd_seek` ends in one of those ways.** -/
theorem aesdSeek_end (hi : Inv s leaked) (filp : ℕ) (off : Int64) (whence : Int32) (k : Kernel) :
    SeekEnd s filp off whence k (aesdSeek s filp off whence k) := by
  have htot := hi.total_lt
  have hsize : aesdCircularBufferCalculateSize s.dev.buffer = s.stored.flatten.length := by
    rw [AesdCircularBuffer.calculateSize_eq (by omega), hi.totalSize_eq]
  have hul := DriverState.unlock_lock hi.unlocked
  have hset : ∀ pos, ((s.lock).setPos filp pos).unlock = s.setPos filp pos := by
    intro pos
    rw [← hul]
    rfl
  have hoff : wrapS 64 (0 + off.toInt) = off.toInt := by
    rw [zero_add]
    exact wrapS_of_mem off.le_toInt off.toInt_lt
  -- the position the source computes is the base and the offset, in 64 bits
  have hnew : (if whence = 0 then some off.toInt
      else if whence = 1 then some (wrapS 64 (s.fPos filp + off.toInt))
      else if whence = 2 then
        some (wrapS 64 (aesdCircularBufferCalculateSize s.dev.buffer + off.toInt))
      else none) = (s.seekBase filp whence).map fun base => wrapS 64 (base + off.toInt) := by
    unfold DriverState.seekBase
    split
    · rw [Option.map_some, hoff]
    · split
      · rfl
      · split
        · rw [Option.map_some, hsize]
        · rfl
  unfold aesdSeek
  cases hint : k.interrupted with
  | true => exact SeekEnd.interrupted hint
  | false =>
    rw [if_neg Bool.false_ne_true]
    have hlock : (s.lock).fPos = s.fPos ∧ (s.lock).dev.buffer = s.dev.buffer := ⟨rfl, rfl⟩
    dsimp only
    rw [hlock.1, hlock.2, hnew]
    cases hbase : s.seekBase filp whence with
    | none =>
      rw [Option.map_none]
      dsimp only
      rw [hul]
      exact SeekEnd.refused hint fun base hb => absurd (hbase.symm.trans hb) (by simp)
    | some base =>
      rw [Option.map_some]
      dsimp only
      split
      · rename_i hneg
        rw [hul]
        refine SeekEnd.refused hint ?_
        intro base' hb
        obtain rfl := Option.some.inj (hbase.symm.trans hb)
        exact hneg
      · rename_i hge
        rw [hset]
        exact SeekEnd.moved hint hbase (Int.not_lt.mp hge)

/-! ## 7. Runs -/

namespace Call

/-- The open file a call is made on. -/
def filp : Call → ℕ
  | .open f => f
  | .read f _ _ => f
  | .write f _ _ => f
  | .seek f _ _ _ => f
  | .ioctl f _ _ _ => f

/-- The bytes a call in state `s` adds to the device: those of a write the kernel lets through. -/
def accepts (s : DriverState) : Call → Option (List UInt8)
  | .write _ buf k =>
    if k.interrupted || k.faults ||
        (s.heap.krealloc s.dev.entry.buffptr (s.dev.entry.size + buf.bytes.length)
          k.krealloc).isNone then none
    else some buf.bytes
  | _ => none

/-- Whether a call is a write whose copy from user space faults. -/
def copyFaults : Call → Bool
  | .write _ _ k => k.faults
  | _ => false

/-- Whether a call in state `s` stores an entry in the ring: it adds bytes and the accumulated
bytes hold a newline. -/
def commits (s : DriverState) (c : Call) : Bool :=
  match c.accepts s with
  | some bytes => decide (newline ∈ s.pending ++ bytes)
  | none => false

/-- Whether a call in state `s` makes the ring overwrite its oldest entry. -/
def evicts (s : DriverState) (c : Call) : Bool := s.dev.buffer.full && c.commits s

end Call

/-- **A call other than a write moves at most the position of its own file.** -/
theorem exec_of_not_write (hi : Inv s leaked) (c : Call) (hc : ∀ f buf k, c ≠ .write f buf k) :
    ∃ pos, (s.exec c).1 = s.setPos c.filp pos ∧ -2 ^ 63 ≤ pos ∧ pos < 2 ^ 63 := by
  have hsame : ∀ f, s = s.setPos f (s.fPos f) := fun f => by
    simp [DriverState.setPos]
  cases c with
  | «open» f => exact ⟨0, rfl, by decide⟩
  | write f buf k => exact absurd rfl (hc f buf k)
  | read f count k =>
    have h := aesdRead_end hi f count k
    rw [DriverState.exec_read]
    generalize aesdRead s f count k = r at h ⊢
    cases h with
    | interrupted => exact ⟨_, hsame f, hi.positions f⟩
    | atEnd => exact ⟨_, hsame f, hi.positions f⟩
    | fault => exact ⟨_, hsame f, hi.positions f⟩
    | copied => exact ⟨_, rfl, wrapS_mem 63 _⟩
  | seek f off whence k =>
    have h := aesdSeek_end hi f off whence k
    rw [DriverState.exec_seek]
    generalize aesdSeek s f off whence k = r at h ⊢
    cases h with
    | interrupted => exact ⟨_, hsame f, hi.positions f⟩
    | refused => exact ⟨_, hsame f, hi.positions f⟩
    | moved => exact ⟨_, rfl, wrapS_mem 63 _⟩
  | ioctl f cmd arg k =>
    have h := aesdIoctl_end hi f cmd arg k
    rw [DriverState.exec_ioctl]
    generalize aesdIoctl s f cmd arg k = r at h ⊢
    cases h with
    | unknown => exact ⟨_, hsame f, hi.positions f⟩
    | fault => exact ⟨_, hsame f, hi.positions f⟩
    | interrupted => exact ⟨_, hsame f, hi.positions f⟩
    | refused => exact ⟨_, hsame f, hi.positions f⟩
    | moved hcmd hf hint hc ho =>
      have hlt := Segment.position_lt_sum (Segment.sizes_getElem? hc) ho
      rw [Segment.sum_sizes, ← hi.totalSize_eq] at hlt
      have htot := hi.total_lt
      exact ⟨_, rfl, by omega, by omega⟩

/-- A call that is not a write adds no bytes. -/
theorem accepts_of_not_write {c : Call} (hc : ∀ f buf k, c ≠ .write f buf k) (s : DriverState) :
    c.accepts s = none := by
  cases c with
  | write f buf k => exact absurd rfl (hc f buf k)
  | «open» => rfl
  | read => rfl
  | seek => rfl
  | ioctl => rfl

/-- A call is a write or it is not. -/
theorem Call.write_cases (c : Call) :
    (∃ f buf k, c = .write f buf k) ∨ ∀ f buf k, c ≠ .write f buf k := by
  cases c with
  | write f buf k => exact Or.inl ⟨f, buf, k, rfl⟩
  | «open» => exact Or.inr fun _ _ _ h => by cases h
  | read => exact Or.inr fun _ _ _ h => by cases h
  | seek => exact Or.inr fun _ _ _ h => by cases h
  | ioctl => exact Or.inr fun _ _ _ h => by cases h

/-- Moving a file leaves everything else alone. -/
theorem Inv.setPos (hi : Inv s leaked) (filp : ℕ) {pos : ℤ} (hp : -2 ^ 63 ≤ pos ∧ pos < 2 ^ 63) :
    Inv (s.setPos filp pos) leaked := by
  refine ⟨hi.unlocked, hi.ring, hi.stored, hi.sized, hi.noNewline, hi.heap, hi.owned, ?_⟩
  intro f
  by_cases hf : f = filp
  · subst hf
    rwa [DriverState.setPos_fPos_self]
  · rw [DriverState.setPos_fPos_of_ne s hf]
    exact hi.positions f

/-- **One call keeps the invariant**; the blocks lost track of grow exactly when the call makes
the ring overwrite an entry. -/
theorem Inv.exec (hi : Inv s leaked) (c : Call) :
    Inv (s.exec c).1 (if c.evicts s then s.overwritten ++ leaked else leaked) := by
  rcases c.write_cases with ⟨f, buf, k, rfl⟩ | hc
  · have h := aesdWrite_end hi f buf k
    rw [DriverState.exec_write]
    generalize aesdWrite s f buf k = r at h ⊢
    cases h with
    | interrupted h1 => simpa [Call.evicts, Call.commits, Call.accepts, h1] using hi
    | noMemory h1 h2 => simpa [Call.evicts, Call.commits, Call.accepts, h1, h2] using hi
    | fault h1 h2 h3 => simpa [Call.evicts, Call.commits, Call.accepts, h2] using hi.drop h3
    | accepted h1 h2 h3 =>
      have hcommit := (hi.commit h3).setPos f (wrapS_mem 63 (s.fPos f + buf.bytes.length))
      have hev : (Call.write f buf k).evicts s =
          (s.dev.buffer.full && decide (newline ∈ s.pending ++ buf.bytes)) := by
        simp [Call.evicts, Call.commits, Call.accepts, h1, h2, h3]
      rw [hev]
      cases hf : s.dev.buffer.full with
      | true => simpa using hcommit
      | false => simpa [hi.overwritten_of_not_full hf] using hcommit
  · obtain ⟨pos, hpos, hrange⟩ := exec_of_not_write hi c hc
    rw [hpos, Call.evicts, Call.commits, accepts_of_not_write hc]
    simpa using hi.setPos c.filp hrange

/-- **A call that adds bytes** adds them to the open group, closes the group if there is now a
newline in it, and returns their number. -/
theorem exec_of_accepts (hi : Inv s leaked) {c : Call} {bytes : List UInt8}
    (hc : c.accepts s = some bytes) :
    (s.exec c).1.stored =
        (if newline ∈ s.pending ++ bytes then
          (s.stored ++ [s.pending ++ bytes]).rtake maxWriteOperationsSupported
        else s.stored) ∧
      (s.exec c).1.pending = (if newline ∈ s.pending ++ bytes then [] else s.pending ++ bytes) ∧
      (s.exec c).2.ret = bytes.length := by
  rcases c.write_cases with ⟨f, buf, k, rfl⟩ | hnw
  · have h := aesdWrite_end hi f buf k
    rw [DriverState.exec_write]
    generalize aesdWrite s f buf k = r at h ⊢
    cases h with
    | interrupted h1 => simp [Call.accepts, h1] at hc
    | noMemory h1 h2 => simp [Call.accepts, h2] at hc
    | fault h1 h2 h3 => simp [Call.accepts, h2] at hc
    | accepted h1 h2 h3 =>
      obtain rfl : buf.bytes = bytes := by simpa [Call.accepts, h1, h2, h3] using hc
      obtain ⟨hs, hp⟩ := hi.commit_contents h3
      exact ⟨hs, hp, rfl⟩
  · rw [accepts_of_not_write hnw] at hc
    exact absurd hc (by simp)

/-- A write that returns no error adds its bytes. -/
theorem accepts_of_ret (hi : Inv s leaked) {f : ℕ} {buf : UserBuf} {k : Kernel}
    (h0 : 0 ≤ (s.exec (.write f buf k)).2.ret) :
    (Call.write f buf k).accepts s = some buf.bytes := by
  have h := aesdWrite_end hi f buf k
  rw [DriverState.exec_write] at h0
  generalize aesdWrite s f buf k = r at h h0
  cases h with
  | interrupted h1 => exact absurd h0 (by decide : ¬ 0 ≤ erestartsys)
  | noMemory h1 h2 => exact absurd h0 (by decide : ¬ 0 ≤ enomem)
  | fault h1 h2 h3 => exact absurd h0 (by decide : ¬ 0 ≤ efault)
  | accepted h1 h2 h3 => simp [Call.accepts, h1, h2, h3]

/-- **A call that adds no bytes** leaves the ring alone, and the working entry too unless it is
a write whose copy faults. -/
theorem exec_of_not_accepts (hi : Inv s leaked) {c : Call} (hc : c.accepts s = none) :
    (s.exec c).1.dev.buffer = s.dev.buffer ∧
      (c.copyFaults = false → (s.exec c).1.dev = s.dev ∧ (s.exec c).1.heap = s.heap) := by
  rcases c.write_cases with ⟨f, buf, k, rfl⟩ | hnw
  · have h := aesdWrite_end hi f buf k
    rw [DriverState.exec_write]
    generalize aesdWrite s f buf k = r at h ⊢
    cases h with
    | interrupted h1 => exact ⟨rfl, fun _ => ⟨rfl, rfl⟩⟩
    | noMemory h1 h2 => exact ⟨rfl, fun _ => ⟨rfl, rfl⟩⟩
    | fault h1 h2 h3 => exact ⟨rfl, fun hf => by simp [Call.copyFaults, h2] at hf⟩
    | accepted h1 h2 h3 => simp [Call.accepts, h1, h2, h3] at hc
  · obtain ⟨pos, hpos, -⟩ := exec_of_not_write hi c hnw
    rw [hpos]
    exact ⟨rfl, fun _ => ⟨rfl, rfl⟩⟩

theorem stored_of_not_accepts (hi : Inv s leaked) {c : Call} (hc : c.accepts s = none) :
    (s.exec c).1.stored = s.stored := by
  rw [DriverState.stored, DriverState.stored, (exec_of_not_accepts hi hc).1]

/-- A call moves no file but its own. -/
theorem exec_fPos_of_ne (hi : Inv s leaked) {c : Call} {f : ℕ} (hf : f ≠ c.filp) :
    (s.exec c).1.fPos f = s.fPos f := by
  rcases c.write_cases with ⟨g, buf, k, rfl⟩ | hnw
  · have h := aesdWrite_end hi g buf k
    have hg : f ≠ g := hf
    rw [DriverState.exec_write]
    generalize aesdWrite s g buf k = r at h ⊢
    cases h with
    | interrupted h1 => rfl
    | noMemory h1 h2 => rfl
    | fault h1 h2 h3 => rfl
    | accepted h1 h2 h3 =>
      exact (DriverState.setPos_fPos_of_ne _ hg _).trans (by rw [DriverState.commit_fPos]; rfl)
  · obtain ⟨pos, hpos, -⟩ := exec_of_not_write hi c hnw
    rw [hpos]
    exact DriverState.setPos_fPos_of_ne s hf pos

theorem run_concat (s : DriverState) (calls : List Call) (c : Call) :
    s.run (calls ++ [c]) = ((s.run calls).exec c).1 := by
  simp [DriverState.run, List.foldl_append]

/-- A run keeps the invariant. -/
theorem Inv.run (hi : Inv s leaked) (calls : List Call) : ∃ leaked', Inv (s.run calls) leaked' := by
  induction calls using List.reverseRecOn with
  | nil => exact ⟨leaked, hi⟩
  | append_singleton cs c ih =>
    obtain ⟨leaked', hi'⟩ := ih
    rw [run_concat]
    exact ⟨_, hi'.exec c⟩

/-- **Every reachable state satisfies the invariant.** -/
theorem inv_run (calls : List Call) : ∃ leaked, Inv (aesdInitModule.run calls) leaked :=
  inv_init.run calls

theorem Reachable.inv (h : Reachable s) : ∃ leaked, Inv s leaked := by
  obtain ⟨calls, rfl⟩ := h
  exact inv_run calls

/-- A reachable state stays reachable. -/
theorem Reachable.run (h : Reachable s) (calls : List Call) : Reachable (s.run calls) := by
  obtain ⟨before, rfl⟩ := h
  exact ⟨before ++ calls, by rw [DriverState.run, DriverState.run, DriverState.run,
    List.foldl_append]⟩

theorem Reachable.exec (h : Reachable s) (c : Call) : Reachable (s.exec c).1 := h.run [c]

end Aesd.Driver
