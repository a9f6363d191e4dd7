/-
# The circular buffer as a component

What the buffer promises to whoever includes its header, for any entries added to it since
`aesd_circular_buffer_init`: it holds the last ten of them, in the order of addition.  The lookup
finds the entry a position falls in by the prefix sums of their sizes and stores the offset in it,
or returns NULL and stores nothing; and the total is the sum of their sizes (`ring_contract`).

The lookup of `Aesd.Driver.Buffer` returns the offset.  Here it is also with the variable of the
caller it is stored in (`findFromStoring`), so that what a lookup leaves untouched can be said.
-/
import Aesd.Driver.Buffer

namespace Aesd.Driver

open MachineInt RingWindow Segment

/-! ## 1. Additions -/

/-- The buffer after a sequence of additions. -/
def addEntries (added : List AesdBufferEntry) : AesdCircularBuffer :=
  added.foldl aesdCircularBufferAddEntry aesdCircularBufferInit

theorem addEntries_concat (added : List AesdBufferEntry) (e : AesdBufferEntry) :
    addEntries (added ++ [e]) = aesdCircularBufferAddEntry (addEntries added) e := by
  simp [addEntries, List.foldl_append]

/-- **The buffer holds the last ten entries added.** -/
theorem entries_addEntries (added : List AesdBufferEntry) :
    (addEntries added).Wf ∧
      (addEntries added).entries = added.rtake maxWriteOperationsSupported := by
  induction added using List.reverseRecOn with
  | nil => exact ⟨AesdCircularBuffer.wf_init, rfl⟩
  | append_singleton added e ih =>
    obtain ⟨hwf, hent⟩ := ih
    rw [addEntries_concat]
    refine ⟨hwf.add e, ?_⟩
    rw [AesdCircularBuffer.entries_add hwf, hent, rtake_concat]

/-! ## 2. The lookup and its variables -/

/-- The loop of the lookup with the caller's variable: the slot whose address is returned, and the
value at `entry_offset_byte_rtn`. -/
def findFromStoring (buffer : AesdCircularBuffer) (i : ℕ) :
    ℕ → ℕ → ℕ → Option (Fin maxWriteOperationsSupported) × ℕ
  | 0, _, rtn => (none, rtn)
  | left + 1, remaining, rtn =>
    let entryPos := slotAt buffer.outOffs i
    if remaining < (buffer.entry entryPos).size then
      (some entryPos, remaining)
    else
      findFromStoring buffer (i + 1) left
        (wrapU 64 ((remaining : ℤ) - (buffer.entry entryPos).size)) rtn

/-- `aesd_circular_buffer_find_entry_offset_for_fpos` with the caller's variable. -/
def findStoring (buffer : AesdCircularBuffer) (charOffset rtn : ℕ) :
    Option (Fin maxWriteOperationsSupported) × ℕ :=
  findFromStoring buffer 0 buffer.count charOffset rtn

/-- The exact differences the loop of the lookup stores in `remaining`. -/
def differences (buffer : AesdCircularBuffer) (i : ℕ) : ℕ → ℕ → List ℤ
  | 0, _ => []
  | left + 1, remaining =>
    let entryPos := slotAt buffer.outOffs i
    if remaining < (buffer.entry entryPos).size then []
    else
      ((remaining : ℤ) - (buffer.entry entryPos).size) ::
        differences buffer (i + 1) left (wrapU 64 ((remaining : ℤ) - (buffer.entry entryPos).size))

theorem findFromStoring_eq (buffer : AesdCircularBuffer) (rtn : ℕ) : ∀ left i remaining,
    findFromStoring buffer i left remaining rtn =
      match findFrom buffer i left remaining with
      | none => (none, rtn)
      | some (slot, offset) => (some slot, offset) := by
  intro left
  induction left with
  | zero =>
    intro i remaining
    rfl
  | succ left ih =>
    intro i remaining
    rw [findFromStoring, findFrom]
    split
    · rfl
    · exact ih _ _

/-- **The running subtraction never wraps below zero.** -/
theorem differences_nonneg (buffer : AesdCircularBuffer) : ∀ left i remaining,
    ∀ d ∈ differences buffer i left remaining, 0 ≤ d := by
  intro left
  induction left with
  | zero =>
    intro i remaining d hd
    exact absurd hd List.not_mem_nil
  | succ left ih =>
    intro i remaining d hd
    rw [differences] at hd
    split at hd
    · exact absurd hd List.not_mem_nil
    · rename_i hge
      rcases List.mem_cons.mp hd with rfl | hd
      · omega
      · exact ih _ _ d hd

/-! ## 3. The contract -/

/-- **The contract of the circular buffer.** -/
theorem ring_contract (added : List AesdBufferEntry) (charOffset : UInt64) (rtn : ℕ)
    (hsmall : ((added.rtake maxWriteOperationsSupported).map AesdBufferEntry.size).sum < 2 ^ 63) :
    let buffer := addEntries added
    let L := added.rtake maxWriteOperationsSupported
    let prefixSum := fun k => ((L.map AesdBufferEntry.size).take k).sum
    let found := findStoring buffer charOffset.toNat rtn
    buffer.entries = L ∧
      (found = (none, rtn) ↔ (L.map AesdBufferEntry.size).sum ≤ charOffset.toNat) ∧
      (charOffset.toNat < (L.map AesdBufferEntry.size).sum →
        ∃ k e slot, L[k]? = some e ∧ buffer.entry slot = e ∧
          prefixSum k ≤ charOffset.toNat ∧ charOffset.toNat < prefixSum (k + 1) ∧
          (∀ k', prefixSum k' ≤ charOffset.toNat → charOffset.toNat < prefixSum (k' + 1) → k' = k) ∧
          found = (some slot, charOffset.toNat - prefixSum k)) ∧
      (∀ d ∈ differences buffer 0 buffer.count charOffset.toNat, 0 ≤ d) ∧
      aesdCircularBufferCalculateSize buffer = (L.map AesdBufferEntry.size).sum := by
  intro buffer L prefixSum found
  obtain ⟨-, hent⟩ := entries_addEntries added
  have hsizes : buffer.sizes = L.map AesdBufferEntry.size := by rw [AesdCircularBuffer.sizes, hent]
  have hfound : found = match aesdCircularBufferFindEntryOffsetForFpos buffer charOffset.toNat with
      | none => (none, rtn)
      | some (slot, offset) => (some slot, offset) := findFromStoring_eq buffer rtn _ _ _
  rw [AesdCircularBuffer.find_eq_locate buffer charOffset.toNat_lt, hsizes] at hfound
  refine ⟨hent, ?_, ?_, differences_nonneg buffer _ _ _, ?_⟩
  · rw [← locate_eq_none_iff, hfound]
    cases locate (L.map AesdBufferEntry.size) charOffset.toNat with
    | none => exact iff_of_true rfl rfl
    | some ko => exact iff_of_false (by simp) (by simp)
  · intro hlt
    obtain ⟨k, o, hl⟩ := exists_locate hlt
    obtain ⟨hle, hlt', ho⟩ := locate_eq_some_iff_prefix.mp hl
    obtain ⟨n, hn, -, -⟩ := locate_eq_some_iff.mp hl
    rw [List.getElem?_map, Option.map_eq_some_iff] at hn
    obtain ⟨e, he, -⟩ := hn
    have hk : k < buffer.count := by
      have hlen := (List.getElem?_eq_some_iff.mp he).1
      rwa [← AesdCircularBuffer.length_entries, hent]
    have hslot : buffer.entry (slotAt buffer.outOffs k) = e := by
      have hk' := getElem?_window buffer.entry buffer.outOffs hk
      have he' : buffer.entries[k]? = some e := by rw [hent]; exact he
      exact Option.some.inj (hk'.symm.trans he')
    refine ⟨k, e, slotAt buffer.outOffs k, he, hslot, hle, hlt', ?_, ?_⟩
    · intro k' hle' hltk'
      have hl' := locate_eq_some_iff_prefix.mpr ⟨hle', hltk', rfl⟩
      exact (Prod.mk.inj (Option.some.inj (hl'.symm.trans hl))).1
    · rw [hfound, hl, ho]
      rfl
  · have hsmall' : buffer.totalSize < 2 ^ 63 := by
      rw [AesdCircularBuffer.totalSize, hsizes]
      exact hsmall
    rw [AesdCircularBuffer.calculateSize_eq hsmall', AesdCircularBuffer.totalSize, hsizes]

/-- Eleven entries: the first is gone, the third is empty, and position 1 is the first byte of the
fourth. -/
theorem ring_contract_eleven :
    ∃ slot, findStoring (addEntries ((List.range 11).map fun n =>
        ⟨.block n [], if n = 2 then 0 else 1⟩)) 1 7 = (some slot, 0) ∧
      (addEntries ((List.range 11).map fun n =>
        ⟨.block n [], if n = 2 then 0 else 1⟩)).entry slot = ⟨.block 3 [], 1⟩ := by
  obtain ⟨-, -, h, -⟩ := ring_contract
    ((List.range 11).map fun n => ⟨.block n [], if n = 2 then 0 else 1⟩) 1 7 (by decide)
  obtain ⟨k, e, slot, hk, hslot, -, -, huniq, hfound⟩ := h (by decide)
  obtain rfl : 2 = k := huniq 2 (by decide) (by decide)
  exact ⟨slot, hfound, hslot.trans (Option.some.inj (hk.symm.trans (by decide)))⟩

end Aesd.Driver
