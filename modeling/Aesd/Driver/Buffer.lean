/-
# The circular buffer of the driver

`aesd-circular-buffer.h` and `aesd-circular-buffer.c`, function by function, and what they
compute on the WINDOW of the buffer: the stored entries read from `out_offs`, oldest first.

* `aesd_circular_buffer_add_entry` keeps the last ten entries added (`entries_add`).
* `aesd_circular_buffer_find_entry_offset_for_fpos` is the lookup of `Segment.locate` in the
  sizes of the window (`find_eq_locate`).
* `aesd_circular_buffer_calculate_size` is their sum (`calculateSize_eq`).

The array is indexed by `Fin 10`, so that `in_offs` and `out_offs` cannot leave it: each is only
ever assigned 0 or a value reduced modulo 10.
-/
import Aesd.Lib.MachineInt
import Aesd.Lib.RingWindow
import Aesd.Lib.Segment

namespace Aesd.Driver

open MachineInt RingWindow

/-! ## 1. The data of the buffer -/

/-- A kernel pointer as the driver holds one: `NULL`, the allocator's `ZERO_SIZE_PTR`, or a
block, with the name of the allocation it belongs to and the bytes stored in it. -/
inductive Ptr
  | null
  | zeroSize
  | block (id : ℕ) (bytes : List UInt8)
  deriving DecidableEq

namespace Ptr

/-- The bytes a pointer leads to. -/
def bytes : Ptr → List UInt8
  | block _ bs => bs
  | _ => []

/-- The allocation a pointer refers to, if any. -/
def id? : Ptr → Option ℕ
  | block id _ => some id
  | _ => none

@[simp] theorem bytes_null : null.bytes = [] := rfl
@[simp] theorem bytes_zeroSize : zeroSize.bytes = [] := rfl
@[simp] theorem bytes_block (id : ℕ) (bs : List UInt8) : (block id bs).bytes = bs := rfl
@[simp] theorem id?_null : null.id? = none := rfl
@[simp] theorem id?_zeroSize : zeroSize.id? = none := rfl
@[simp] theorem id?_block (id : ℕ) (bs : List UInt8) : (block id bs).id? = some id := rfl

end Ptr

/-- `struct aesd_buffer_entry`. -/
structure AesdBufferEntry where
  buffptr : Ptr
  size : ℕ
  deriving DecidableEq

namespace AesdBufferEntry

/-- The entry `memset` leaves: `buffptr` NULL and `size` 0. -/
def zero : AesdBufferEntry := ⟨.null, 0⟩

/-- The `size` bytes at `buffptr`. -/
def bytes (e : AesdBufferEntry) : List UInt8 := e.buffptr.bytes.take e.size

@[simp] theorem bytes_zero : zero.bytes = [] := rfl

end AesdBufferEntry

/-- `AESDCHAR_MAX_WRITE_OPERATIONS_SUPPORTED`. -/
abbrev maxWriteOperationsSupported : ℕ := 10

instance : NeZero maxWriteOperationsSupported := ⟨by decide⟩

/-- `struct aesd_circular_buffer`. -/
structure AesdCircularBuffer where
  entry : Fin maxWriteOperationsSupported → AesdBufferEntry
  inOffs : Fin maxWriteOperationsSupported
  outOffs : Fin maxWriteOperationsSupported
  full : Bool

/-! ## 2. The functions of the source -/

/-- `buffer->full ? AESDCHAR_MAX_WRITE_OPERATIONS_SUPPORTED : buffer->in_offs`. -/
def AesdCircularBuffer.count (buffer : AesdCircularBuffer) : ℕ :=
  if buffer.full then maxWriteOperationsSupported else buffer.inOffs

/-- The loop of `aesd_circular_buffer_calculate_size`, `left` iterations before its end. -/
def calculateSizeFrom (buffer : AesdCircularBuffer) (i : ℕ) : ℕ → ℕ → ℕ
  | 0, totalSize => totalSize
  | left + 1, totalSize =>
    let entryPos := slotAt buffer.outOffs i
    calculateSizeFrom buffer (i + 1) left (wrapU 64 (totalSize + (buffer.entry entryPos).size))

/-- `aesd_circular_buffer_calculate_size`: a `size_t` total, returned as a `loff_t`. -/
def aesdCircularBufferCalculateSize (buffer : AesdCircularBuffer) : ℤ :=
  wrapS 64 (calculateSizeFrom buffer 0 buffer.count 0)

/-- The loop of `aesd_circular_buffer_find_entry_offset_for_fpos`, `left` iterations before its
end. -/
def findFrom (buffer : AesdCircularBuffer) (i : ℕ) :
    ℕ → ℕ → Option (Fin maxWriteOperationsSupported × ℕ)
  | 0, _ => none
  | left + 1, remaining =>
    let entryPos := slotAt buffer.outOffs i
    if remaining < (buffer.entry entryPos).size then
      some (entryPos, remaining)
    else
      findFrom buffer (i + 1) left (wrapU 64 ((remaining : ℤ) - (buffer.entry entryPos).size))

/-- `aesd_circular_buffer_find_entry_offset_for_fpos`: the slot of the entry and the value
stored through `entry_offset_byte_rtn`, or `none` for the NULL return, which stores nothing. -/
def aesdCircularBufferFindEntryOffsetForFpos (buffer : AesdCircularBuffer) (charOffset : ℕ) :
    Option (Fin maxWriteOperationsSupported × ℕ) :=
  findFrom buffer 0 buffer.count charOffset

/-- `aesd_circular_buffer_add_entry`. -/
def aesdCircularBufferAddEntry (buffer : AesdCircularBuffer) (addEntry : AesdBufferEntry) :
    AesdCircularBuffer :=
  let index := buffer.inOffs
  let buffer := if buffer.full then { buffer with outOffs := slotAt index 1 } else buffer
  let buffer := { buffer with entry := Function.update buffer.entry index addEntry }
  let buffer := { buffer with inOffs := slotAt index 1 }
  if !buffer.full && buffer.inOffs == buffer.outOffs then { buffer with full := true } else buffer

/-- `aesd_circular_buffer_init`. -/
def aesdCircularBufferInit : AesdCircularBuffer :=
  { entry := fun _ => .zero, inOffs := 0, outOffs := 0, full := false }

/-! ## 3. The invariant and the window -/

namespace AesdCircularBuffer

/-- The entries read from `out_offs`, oldest first. -/
def entries (buffer : AesdCircularBuffer) : List AesdBufferEntry :=
  window buffer.entry buffer.outOffs buffer.count

/-- **The ring invariant.**  `out_offs` stays 0 until the buffer is full and every slot not yet
written is zero; once full, `in_offs` points at the oldest entry. -/
structure Wf (buffer : AesdCircularBuffer) : Prop where
  outOffs_of_not_full : buffer.full = false → buffer.outOffs = 0
  inOffs_of_full : buffer.full = true → buffer.inOffs = buffer.outOffs
  unused : buffer.full = false → ∀ i, buffer.inOffs ≤ i → buffer.entry i = .zero

variable {buffer : AesdCircularBuffer}

@[simp] theorem length_entries (buffer : AesdCircularBuffer) :
    buffer.entries.length = buffer.count := length_window _ _ _

theorem count_le (buffer : AesdCircularBuffer) : buffer.count ≤ maxWriteOperationsSupported := by
  unfold count
  split
  · exact le_refl _
  · exact le_of_lt buffer.inOffs.isLt

theorem wf_init : aesdCircularBufferInit.Wf :=
  ⟨fun _ => rfl, fun h => by simp [aesdCircularBufferInit] at h, fun _ _ _ => rfl⟩

@[simp] theorem entries_init : aesdCircularBufferInit.entries = [] := rfl

/-- The slot the next entry goes to is the one just past the window. -/
theorem Wf.inOffs_eq (h : buffer.Wf) : buffer.inOffs = slotAt buffer.outOffs buffer.count := by
  cases hf : buffer.full with
  | true =>
    rw [h.inOffs_of_full hf, count, hf]
    exact (slotAt_self _).symm
  | false =>
    rw [h.outOffs_of_not_full hf, count, hf]
    apply Fin.ext
    simp [slotAt, Fin.ofNat, Nat.mod_eq_of_lt buffer.inOffs.isLt]

/-! ## 4. `aesd_circular_buffer_add_entry` -/

/-- Adding to a buffer that is already full. -/
theorem add_of_full (hf : buffer.full = true) (e : AesdBufferEntry) :
    aesdCircularBufferAddEntry buffer e =
      { entry := Function.update buffer.entry buffer.inOffs e
        inOffs := slotAt buffer.inOffs 1, outOffs := slotAt buffer.inOffs 1, full := true } := by
  simp [aesdCircularBufferAddEntry, hf]

/-- Adding to a buffer with a free slot; the last free slot makes it full. -/
theorem add_of_not_full (h : buffer.Wf) (hf : buffer.full = false) (e : AesdBufferEntry) :
    aesdCircularBufferAddEntry buffer e =
      { entry := Function.update buffer.entry buffer.inOffs e
        inOffs := slotAt buffer.inOffs 1, outOffs := 0
        full := decide (slotAt buffer.inOffs 1 = 0) } := by
  have ho := h.outOffs_of_not_full hf
  by_cases hw : slotAt buffer.inOffs 1 = 0
  · simp [aesdCircularBufferAddEntry, hf, ho, hw]
  · simp [aesdCircularBufferAddEntry, hf, ho, hw]

/-- Exactly one slot of the array changes. -/
theorem entry_add (buffer : AesdCircularBuffer) (e : AesdBufferEntry) :
    (aesdCircularBufferAddEntry buffer e).entry = Function.update buffer.entry buffer.inOffs e := by
  unfold aesdCircularBufferAddEntry
  cases buffer.full
  · simp only [Bool.false_eq_true, if_false]
    split <;> rfl
  · rfl

/-- The slot after the last one is slot 0, and no other slot is followed by slot 0. -/
theorem slotAt_one_eq_zero_iff (i : Fin maxWriteOperationsSupported) :
    slotAt i 1 = 0 ↔ i.val + 1 = maxWriteOperationsSupported := by
  revert i
  decide

theorem val_slotAt_one {i : Fin maxWriteOperationsSupported} (h : slotAt i 1 ≠ 0) :
    (slotAt i 1).val = i.val + 1 := by
  revert i
  decide

/-- **The ring invariant is kept.** -/
theorem Wf.add (h : buffer.Wf) (e : AesdBufferEntry) :
    (aesdCircularBufferAddEntry buffer e).Wf := by
  cases hf : buffer.full with
  | true =>
    rw [add_of_full hf]
    exact ⟨fun hc => by simp at hc, fun _ => rfl, fun hc => by simp at hc⟩
  | false =>
    rw [add_of_not_full h hf]
    refine ⟨fun _ => rfl, fun hd => by simpa using hd, ?_⟩
    intro hd i hi
    have hw : slotAt buffer.inOffs 1 ≠ 0 := by simpa using hd
    have hval := val_slotAt_one hw
    have hlt : buffer.inOffs.val < i.val := by
      have : (slotAt buffer.inOffs 1).val ≤ i.val := hi
      omega
    have hne : i ≠ buffer.inOffs := fun heq => by simp [heq] at hlt
    simp only [Function.update_of_ne hne]
    exact h.unused hf i (le_of_lt hlt)

/-- Only a full buffer loses an entry: below ten entries the window just grows. -/
theorem entries_add_of_not_full (h : buffer.Wf) (hf : buffer.full = false) (e : AesdBufferEntry) :
    (aesdCircularBufferAddEntry buffer e).entries = buffer.entries ++ [e] := by
  have hin := h.inOffs_eq
  have ho := h.outOffs_of_not_full hf
  have hc : buffer.count = buffer.inOffs.val := by simp [count, hf]
  have hcount : (aesdCircularBufferAddEntry buffer e).count = buffer.count + 1 := by
    rw [add_of_not_full h hf, hc]
    by_cases hw : slotAt buffer.inOffs 1 = 0
    · simp [count, hw, (slotAt_one_eq_zero_iff _).mp hw]
    · simp [count, hw, val_slotAt_one hw]
  rw [entries, hcount, add_of_not_full h hf]
  simp only [entries]
  rw [hin, ho]
  exact window_store_next buffer.entry 0 (by rw [hc]; exact buffer.inOffs.isLt) e

/-- A full buffer drops its oldest entry. -/
theorem entries_add_of_full (h : buffer.Wf) (hf : buffer.full = true) (e : AesdBufferEntry) :
    (aesdCircularBufferAddEntry buffer e).entries = buffer.entries.tail ++ [e] := by
  have hin := h.inOffs_of_full hf
  have hc : buffer.count = maxWriteOperationsSupported := by simp [count, hf]
  rw [entries, entries, hc, add_of_full hf]
  simp only [count, if_true, hin]
  exact window_store_oldest buffer.entry buffer.outOffs e

/-- **The window keeps the last ten entries added.** -/
theorem entries_add (h : buffer.Wf) (e : AesdBufferEntry) :
    (aesdCircularBufferAddEntry buffer e).entries =
      (buffer.entries ++ [e]).rtake maxWriteOperationsSupported := by
  cases hf : buffer.full with
  | true =>
    rw [entries_add_of_full h hf, Segment.rtake_concat_of_length_eq (by decide)]
    simp [count, hf]
  | false =>
    have hlen : (buffer.entries ++ [e]).length = buffer.inOffs.val + 1 := by simp [count, hf]
    have hlt := buffer.inOffs.isLt
    rw [entries_add_of_not_full h hf, Segment.rtake_of_length_le (by omega)]

/-! ## 5. The two traversals -/

/-- The sizes of the stored entries, oldest first. -/
def sizes (buffer : AesdCircularBuffer) : List ℕ := buffer.entries.map AesdBufferEntry.size

/-- The sum of the sizes of the stored entries. -/
def totalSize (buffer : AesdCircularBuffer) : ℕ := buffer.sizes.sum

/-- The sizes of the `left` entries from place `i` on. -/
def sizesFrom (buffer : AesdCircularBuffer) (i left : ℕ) : List ℕ :=
  window (fun j => (buffer.entry j).size) (slotAt buffer.outOffs i) left

theorem sizesFrom_succ (buffer : AesdCircularBuffer) (i left : ℕ) :
    buffer.sizesFrom i (left + 1) =
      (buffer.entry (slotAt buffer.outOffs i)).size :: buffer.sizesFrom (i + 1) left := by
  rw [sizesFrom, window_eq_cons, slotAt_slotAt]
  rfl

theorem sizes_eq_sizesFrom (buffer : AesdCircularBuffer) :
    buffer.sizes = buffer.sizesFrom 0 buffer.count := by
  rw [sizes, entries, map_window, sizesFrom, slotAt_zero]

/-- The loop of `calculate_size` adds the sizes that are left, as long as no sum wraps. -/
theorem calculateSizeFrom_eq (buffer : AesdCircularBuffer) : ∀ (left i total : ℕ),
    total + (buffer.sizesFrom i left).sum < 2 ^ 64 →
      calculateSizeFrom buffer i left total = total + (buffer.sizesFrom i left).sum
  | 0, i, total, _ => by simp [calculateSizeFrom, sizesFrom]
  | left + 1, i, total, h => by
    rw [sizesFrom_succ, List.sum_cons] at h ⊢
    have hw : wrapU 64 ((total : ℤ) + (buffer.entry (slotAt buffer.outOffs i)).size) =
        total + (buffer.entry (slotAt buffer.outOffs i)).size := by
      rw [← Nat.cast_add]
      exact wrapU_natCast (by omega)
    rw [calculateSizeFrom, hw, calculateSizeFrom_eq buffer left (i + 1) _ (by omega)]
    omega

/-- **`aesd_circular_buffer_calculate_size` is the sum of the stored sizes.** -/
theorem calculateSize_eq (h : buffer.totalSize < 2 ^ 63) :
    aesdCircularBufferCalculateSize buffer = buffer.totalSize := by
  have hs : buffer.totalSize = (buffer.sizesFrom 0 buffer.count).sum := by
    rw [totalSize, sizes_eq_sizesFrom]
  rw [aesdCircularBufferCalculateSize, calculateSizeFrom_eq buffer _ _ _ (by omega),
    Nat.zero_add, ← hs]
  exact wrapS_natCast h

/-- The loop of the lookup is the lookup in the sizes that are left; the remainder it carries
never wraps, because a size is subtracted only when it fits. -/
theorem findFrom_eq (buffer : AesdCircularBuffer) : ∀ (left i remaining : ℕ),
    remaining < 2 ^ 64 →
      findFrom buffer i left remaining =
        (Segment.locate (buffer.sizesFrom i left) remaining).map
          fun ko => (slotAt buffer.outOffs (i + ko.1), ko.2)
  | 0, i, remaining, _ => by simp [findFrom, sizesFrom, Segment.locate]
  | left + 1, i, remaining, h => by
    rw [sizesFrom_succ, findFrom, Segment.locate]
    split
    · simp
    · rename_i hge
      have hw : wrapU 64 ((remaining : ℤ) - (buffer.entry (slotAt buffer.outOffs i)).size) =
          remaining - (buffer.entry (slotAt buffer.outOffs i)).size := by
        rw [← Nat.cast_sub (by omega)]
        exact wrapU_natCast (by omega)
      rw [hw, findFrom_eq buffer left (i + 1) _ (by omega), Option.map_map]
      congr 1
      funext ko
      simp only [Function.comp_apply]
      congr 2
      omega

/-- **The lookup of the source is `Segment.locate` on the stored sizes.** -/
theorem find_eq_locate (buffer : AesdCircularBuffer) {charOffset : ℕ} (h : charOffset < 2 ^ 64) :
    aesdCircularBufferFindEntryOffsetForFpos buffer charOffset =
      (Segment.locate buffer.sizes charOffset).map
        fun ko => (slotAt buffer.outOffs ko.1, ko.2) := by
  rw [aesdCircularBufferFindEntryOffsetForFpos, findFrom_eq buffer _ _ _ h, sizes_eq_sizesFrom]
  simp

end AesdCircularBuffer

end Aesd.Driver
