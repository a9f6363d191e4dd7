/-
# The ledger of the driver's blocks

Which blocks are alive is the allocator's side of the ledger (`Heap`); which blocks the ten ring
slots and the working entry refer to is the driver's side (`AesdBufferEntry.owned`).  This file
says what `kfree` and `krealloc` do to both sides at once, with the live blocks written as a
permutation of the blocks one entry owns and a rest:

* `kfree` of an entry's pointer leaves the rest (`Heap.Wf.kfree`);
* `krealloc` of an entry's pointer leaves the rest and the block of the new pointer
  (`Heap.Wf.krealloc`);
* storing an entry in a slot exchanges what the slot owned for what the entry owns
  (`owned_update`).
-/
import Aesd.Driver.Main
import Mathlib.Algebra.BigOperators.Group.Finset.Basic
import Mathlib.Algebra.Order.BigOperators.Group.Finset
import Mathlib.Data.Fintype.BigOperators

namespace Aesd.Driver

open RingWindow

/-! ## 1. The allocator's side -/

namespace Heap

/-- **The allocator's invariant.**  Live blocks have distinct names, all handed out before, and
are not empty; a name handed out and not alive was released exactly once; and the live blocks
fit the address space. -/
structure Wf (h : Heap) : Prop where
  nodup : (h.live.map Prod.fst).Nodup
  lt_fresh : ∀ b ∈ h.live, b.1 < h.fresh
  pos : ∀ b ∈ h.live, 0 < b.2
  releasedOnce : ∀ id, id < h.fresh → id ∉ h.live.map Prod.fst → h.released.count id = 1
  unreleased : ∀ id, id ∈ h.live.map Prod.fst ∨ h.fresh ≤ id → h.released.count id = 0
  small : h.liveSize < 2 ^ 63

theorem wf_init : Heap.init.Wf :=
  ⟨by simp [init], by simp [init], by simp [init], by simp [init], by simp [init],
    by simp [init, liveSize]⟩

variable {h : Heap}

/-- Taking one block out of a ledger with distinct names. -/
theorem filter_perm {live rest : List (ℕ × ℕ)} {id n : ℕ} (hnd : (live.map Prod.fst).Nodup)
    (hp : live.Perm ((id, n) :: rest)) : (live.filter fun b => b.1 ≠ id).Perm rest := by
  have hnd' := (hp.map Prod.fst).nodup_iff.mp hnd
  rw [List.map_cons, List.nodup_cons] at hnd'
  have h1 := hp.filter (fun b => decide (b.1 ≠ id))
  have h2 : (rest.filter fun b => b.1 ≠ id) = rest := by
    rw [List.filter_eq_self]
    intro b hb
    have hne : b.1 ≠ id := fun heq => hnd'.1 (heq ▸ List.mem_map.mpr ⟨b, hb, rfl⟩)
    simpa using hne
  rw [List.filter_cons_of_neg (by simp), h2] at h1
  exact h1

/-- Removing a block makes the ledger smaller. -/
theorem liveSize_of_perm {live rest : List (ℕ × ℕ)} {id n : ℕ} (hp : live.Perm ((id, n) :: rest)) :
    (live.map Prod.snd).sum = n + (rest.map Prod.snd).sum := by
  rw [(hp.map Prod.snd).sum_eq]
  simp

/-- Releasing a live block. -/
theorem Wf.release (hw : h.Wf) {id n : ℕ} {bytes : List UInt8} {rest : List (ℕ × ℕ)}
    (hp : h.live.Perm ((id, n) :: rest)) :
    (h.kfree (.block id bytes)).Wf ∧ (h.kfree (.block id bytes)).live.Perm rest ∧
      (h.kfree (.block id bytes)).fresh = h.fresh := by
  have hrest : (h.kfree (.block id bytes)).live.Perm rest := filter_perm hw.nodup hp
  have hnd := (hp.map Prod.fst).nodup_iff.mp hw.nodup
  rw [List.map_cons, List.nodup_cons] at hnd
  have hmem : ∀ b ∈ (h.kfree (.block id bytes)).live, b ∈ h.live := fun b hb =>
    List.mem_of_mem_filter hb
  have hid : id < h.fresh := hw.lt_fresh (id, n) (hp.mem_iff.mpr List.mem_cons_self)
  have hold : ∀ j, j ∈ h.live.map Prod.fst ↔ j = id ∨ j ∈ rest.map Prod.fst := fun j => by
    rw [(hp.map Prod.fst).mem_iff, List.map_cons, List.mem_cons]
  have hnew : ∀ j, j ∈ (h.kfree (.block id bytes)).live.map Prod.fst ↔ j ∈ rest.map Prod.fst :=
    fun j => (hrest.map Prod.fst).mem_iff
  refine ⟨⟨?_, ?_, ?_, ?_, ?_, ?_⟩, hrest, rfl⟩
  · exact (hrest.map Prod.fst).nodup_iff.mpr hnd.2
  · exact fun b hb => hw.lt_fresh b (hmem b hb)
  · exact fun b hb => hw.pos b (hmem b hb)
  · intro j hj hjn
    rw [hnew] at hjn
    show (id :: h.released).count j = 1
    by_cases hjid : j = id
    · subst hjid
      rw [List.count_cons_self, hw.unreleased j (Or.inl ((hold j).mpr (Or.inl rfl)))]
    · rw [List.count_cons_of_ne (Ne.symm hjid)]
      exact hw.releasedOnce j hj (fun hm => ((hold j).mp hm).elim hjid hjn)
  · intro j hj
    rw [hnew] at hj
    have hjid : j ≠ id := by
      rintro rfl
      rcases hj with hj | hj
      · exact hnd.1 hj
      · exact absurd hid (Nat.not_lt.mpr hj)
    show (id :: h.released).count j = 0
    rw [List.count_cons_of_ne (Ne.symm hjid)]
    exact hw.unreleased j (hj.imp (fun hm => (hold j).mpr (Or.inr hm)) (fun hle => hle))
  · have := hw.small
    rw [liveSize, liveSize_of_perm hp] at this
    rw [liveSize, (hrest.map Prod.snd).sum_eq]
    omega

/-- Handing out a fresh block. -/
theorem Wf.alloc (hw : h.Wf) {size : ℕ} (bytes : List UInt8) (hpos : 0 < size)
    (hsmall : h.liveSize + size < 2 ^ 63) : (h.alloc size bytes).2.Wf := by
  have hfresh : h.fresh ∉ h.live.map Prod.fst := by
    intro hm
    obtain ⟨b, hb, heq⟩ := List.mem_map.mp hm
    have := hw.lt_fresh b hb
    omega
  refine ⟨?_, ?_, ?_, ?_, ?_, ?_⟩
  · exact List.nodup_cons.mpr ⟨hfresh, hw.nodup⟩
  · intro b hb
    rcases List.mem_cons.mp hb with rfl | hb
    · exact Nat.lt_succ_self _
    · exact Nat.lt_succ_of_lt (hw.lt_fresh b hb)
  · intro b hb
    rcases List.mem_cons.mp hb with rfl | hb
    · exact hpos
    · exact hw.pos b hb
  · intro j hj hjn
    have hne : j ≠ h.fresh := fun heq => hjn (heq ▸ List.mem_cons_self)
    have hlt : j < h.fresh := lt_of_le_of_ne (Nat.le_of_lt_succ hj) hne
    exact hw.releasedOnce j hlt (fun hm => hjn (List.mem_cons_of_mem _ hm))
  · intro j hj
    refine hw.unreleased j ?_
    rcases hj with hj | hj
    · rcases List.mem_cons.mp hj with rfl | hj
      · exact Or.inr (le_refl _)
      · exact Or.inl hj
    · exact Or.inr (Nat.le_of_succ_le hj)
  · have hsum : (h.alloc size bytes).2.liveSize = size + h.liveSize := by
      simp [liveSize, Heap.alloc]
    omega

/-- Resizing a live block where it is. -/
theorem Wf.resize (hw : h.Wf) {id n size : ℕ} {rest : List (ℕ × ℕ)}
    (hp : h.live.Perm ((id, n) :: rest)) (hpos : 0 < size)
    (hsmall : (rest.map Prod.snd).sum + size < 2 ^ 63) :
    ({ h with live := (id, size) :: h.live.filter (fun b => b.1 ≠ id) } : Heap).Wf := by
  have hrest := filter_perm hw.nodup hp
  have hnames : (((id, size) :: h.live.filter (fun b => b.1 ≠ id)).map Prod.fst).Perm
      (h.live.map Prod.fst) :=
    ((hrest.cons (id, size)).map Prod.fst).trans (hp.map Prod.fst).symm
  refine ⟨hnames.nodup_iff.mpr hw.nodup, ?_, ?_, ?_, ?_, ?_⟩
  · intro b hb
    rcases List.mem_cons.mp hb with rfl | hb
    · exact hw.lt_fresh (id, n) (hp.mem_iff.mpr List.mem_cons_self)
    · exact hw.lt_fresh b (List.mem_of_mem_filter hb)
  · intro b hb
    rcases List.mem_cons.mp hb with rfl | hb
    · exact hpos
    · exact hw.pos b (List.mem_of_mem_filter hb)
  · exact fun j hj hjn => hw.releasedOnce j hj (fun hm => hjn (hnames.mem_iff.mpr hm))
  · exact fun j hj => hw.unreleased j (hj.imp (fun hm => hnames.mem_iff.mp hm) (fun hle => hle))
  · simp only [liveSize, List.map_cons, List.sum_cons, (hrest.map Prod.snd).sum_eq]
    omega

/-- **What a successful `krealloc` returns**: `ZERO_SIZE_PTR` for size 0, and otherwise a block
that starts with the old bytes. -/
theorem krealloc_ptr {p p' : Ptr} {size : ℕ} {o : KreallocOutcome} {h' : Heap}
    (hk : h.krealloc p size o = some (p', h')) :
    (size = 0 ∧ p' = .zeroSize) ∨ (0 < size ∧ ∃ id, p' = .block id (p.bytes.take size)) := by
  unfold krealloc at hk
  split at hk
  · exact absurd hk (by simp)
  · split at hk
    · rename_i h0
      simp only [Option.some.injEq, Prod.mk.injEq] at hk
      exact Or.inl ⟨h0, hk.1.symm⟩
    · rename_i h0
      split at hk
      · exact absurd hk (by simp)
      · refine Or.inr ⟨Nat.pos_of_ne_zero h0, ?_⟩
        split at hk
        · simp only [Option.some.injEq, Prod.mk.injEq] at hk
          exact ⟨_, hk.1.symm⟩
        · simp only [alloc, Option.some.injEq, Prod.mk.injEq] at hk
          exact ⟨_, hk.1.symm⟩

end Heap

/-! ## 2. The driver's side -/

/-- The block an entry refers to, with the size the entry records for it. -/
def AesdBufferEntry.owned (e : AesdBufferEntry) : List (ℕ × ℕ) :=
  match e.buffptr with
  | .block id _ => [(id, e.size)]
  | _ => []

/-- The blocks the ten slots refer to. -/
def AesdCircularBuffer.owned (b : AesdCircularBuffer) : List (ℕ × ℕ) :=
  (List.finRange maxWriteOperationsSupported).flatMap fun i => (b.entry i).owned

/-- All blocks the device refers to. -/
def AesdDev.owned (d : AesdDev) : List (ℕ × ℕ) := d.buffer.owned ++ d.entry.owned

@[simp] theorem AesdBufferEntry.owned_zero : AesdBufferEntry.zero.owned = [] := rfl

/-- An entry whose `size` is the number of bytes behind its pointer. -/
def AesdBufferEntry.Sized (e : AesdBufferEntry) : Prop := e.size = e.buffptr.bytes.length

theorem AesdBufferEntry.Sized.bytes_eq {e : AesdBufferEntry} (h : e.Sized) :
    e.bytes = e.buffptr.bytes := by
  rw [AesdBufferEntry.bytes, h, List.take_length]

theorem AesdBufferEntry.Sized.length_bytes {e : AesdBufferEntry} (h : e.Sized) :
    e.bytes.length = e.size := by
  rw [h.bytes_eq, h]

theorem AesdBufferEntry.sized_zero : AesdBufferEntry.zero.Sized := rfl

/-- What a sized entry owns is as large as the entry. -/
theorem AesdBufferEntry.Sized.sum_owned {e : AesdBufferEntry} (h : e.Sized) :
    (e.owned.map Prod.snd).sum = e.size := by
  obtain ⟨p, n⟩ := e
  cases p with
  | null => simpa [AesdBufferEntry.owned, AesdBufferEntry.Sized, eq_comm] using h
  | zeroSize => simpa [AesdBufferEntry.owned, AesdBufferEntry.Sized, eq_comm] using h
  | block id bs => simp [AesdBufferEntry.owned]

/-- **Storing an entry in a slot** exchanges the slot's block for the entry's. -/
theorem owned_update (slots : Fin maxWriteOperationsSupported → AesdBufferEntry)
    (j : Fin maxWriteOperationsSupported) (e : AesdBufferEntry) :
    ((List.finRange maxWriteOperationsSupported).flatMap
        (fun i => (Function.update slots j e i).owned) ++ (slots j).owned).Perm
      ((List.finRange maxWriteOperationsSupported).flatMap (fun i => (slots i).owned) ++
        e.owned) := by
  have hnd := List.nodup_finRange maxWriteOperationsSupported
  have hj := List.perm_cons_erase (List.mem_finRange j)
  have hrest : ((List.finRange maxWriteOperationsSupported).erase j).flatMap
        (fun i => (Function.update slots j e i).owned) =
      ((List.finRange maxWriteOperationsSupported).erase j).flatMap
        (fun i => (slots i).owned) := by
    apply List.flatMap_congr
    intro i hi
    have hne : i ≠ j := fun heq => hnd.not_mem_erase (heq ▸ hi)
    simp [Function.update_of_ne hne]
  have h1 := hj.flatMap_right (fun i => (Function.update slots j e i).owned)
  have h2 := hj.flatMap_right (fun i => (slots i).owned)
  rw [List.flatMap_cons, hrest, Function.update_self] at h1
  rw [List.flatMap_cons] at h2
  refine (h1.append_right _).trans (List.Perm.trans ?_ (h2.append_right _).symm)
  rw [List.perm_iff_count]
  intro b
  simp only [List.count_append]
  omega

/-! ## 3. Both sides of `kfree` and `krealloc` -/

variable {h : Heap} {e : AesdBufferEntry} {rest : List (ℕ × ℕ)}

/-- **`kfree` of an entry's pointer** takes exactly that entry's block off the ledger. -/
theorem Heap.Wf.kfree (hw : h.Wf) (hp : h.live.Perm (e.owned ++ rest)) :
    (h.kfree e.buffptr).Wf ∧ (h.kfree e.buffptr).live.Perm rest ∧
      (h.kfree e.buffptr).fresh = h.fresh := by
  obtain ⟨p, n⟩ := e
  cases p with
  | null => exact ⟨hw, hp, rfl⟩
  | zeroSize => exact ⟨hw, hp, rfl⟩
  | block id bytes => exact hw.release hp

/-- **`krealloc` of an entry's pointer** exchanges that entry's block for the new one. -/
theorem Heap.Wf.krealloc (hw : h.Wf) (hp : h.live.Perm (e.owned ++ rest)) {p' : Ptr} {size : ℕ}
    {o : KreallocOutcome} {h' : Heap} (hk : h.krealloc e.buffptr size o = some (p', h')) :
    h'.Wf ∧ h'.live.Perm ((AesdBufferEntry.mk p' size).owned ++ rest) := by
  obtain ⟨hfw, hfp, -⟩ := hw.kfree hp
  have hsum : (h.kfree e.buffptr).liveSize = (rest.map Prod.snd).sum :=
    (hfp.map Prod.snd).sum_eq
  unfold Heap.krealloc at hk
  split at hk
  · exact absurd hk (by simp)
  · split at hk
    · simp only [Option.some.injEq, Prod.mk.injEq] at hk
      obtain ⟨rfl, rfl⟩ := hk
      exact ⟨hfw, hfp⟩
    · rename_i h0
      split at hk
      · exact absurd hk (by simp)
      · rename_i hlt
        have hpos : 0 < size := Nat.pos_of_ne_zero h0
        split at hk
        · -- the block is resized where it is
          rename_i id bytes heq _
          simp only [Option.some.injEq, Prod.mk.injEq] at hk
          obtain ⟨rfl, rfl⟩ := hk
          have hown : e.owned = [(id, e.size)] := by simp [AesdBufferEntry.owned, heq]
          have hp' : h.live.Perm ((id, e.size) :: rest) := by rwa [hown] at hp
          exact ⟨hw.resize hp' hpos (by omega), (Heap.filter_perm hw.nodup hp').cons (id, size)⟩
        · -- a fresh block; the old one, if any, is released
          simp only [Option.some.injEq] at hk
          have h1 := hfw.alloc (e.buffptr.bytes.take size) hpos (by omega)
          rw [hk] at h1
          refine ⟨h1, ?_⟩
          simp only [Heap.alloc, Prod.mk.injEq] at hk
          obtain ⟨rfl, rfl⟩ := hk
          exact hfp.cons _

end Aesd.Driver
