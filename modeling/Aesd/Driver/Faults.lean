/-
# What a failed call leaves behind

About ten exits of the driver return a negative error.  All but one leave the ring, the working
entry and the file's position as they were.  The one is the copy fault of `aesd_write`: it
releases the working entry with everything in it, the bytes of earlier writes included, although
those writes returned their full count.

So a call fails cleanly unless it is such a write and the working entry is not empty
(`failsCleanly_iff`), and in a run without such calls every accepted byte is stored or pending
(`Spared.refines`).
-/
import Aesd.Driver.Refine

namespace Aesd.Driver

open Segment

variable {s : DriverState} {leaked : List (ℕ × ℕ)} {g : Groups UInt8}

/-! ## 1. Failing cleanly -/

/-- The ring, the contents of the working entry and the positions are as before. -/
structure Kept (s s' : DriverState) : Prop where
  ring : s'.dev.buffer = s.dev.buffer
  bytes : s'.dev.entry.bytes = s.dev.entry.bytes
  size : s'.dev.entry.size = s.dev.entry.size
  fPos : s'.fPos = s.fPos

theorem Kept.refl (s : DriverState) : Kept s s := ⟨rfl, rfl, rfl, rfl⟩

/-- A call that returns an error changes nothing, and no call leaves the mutex locked. -/
structure FailsCleanly (s : DriverState) (c : Call) : Prop where
  kept : (s.exec c).2.ret < 0 → Kept s (s.exec c).1
  released : (s.exec c).1.dev.mutex = false

/-- A write that gets the mutex and the memory, and whose copy faults while bytes of earlier writes
are in the working entry. -/
def Call.drops (s : DriverState) : Call → Bool
  | .write _ buf k =>
    !k.interrupted && k.faults && 0 < s.dev.entry.size &&
      (s.heap.krealloc s.dev.entry.buffptr (s.dev.entry.size + buf.bytes.length) k.krealloc).isSome
  | _ => false

/-- A call other than a write that returns an error changes nothing. -/
theorem exec_of_failed (hi : Inv s leaked) {c : Call} (hc : ∀ f buf k, c ≠ .write f buf k)
    (hret : (s.exec c).2.ret < 0) : (s.exec c).1 = s := by
  cases c with
  | «open» f => exact absurd hret (lt_irrefl 0)
  | write f buf k => exact absurd rfl (hc f buf k)
  | read f count k =>
    have h := aesdRead_end hi f count k
    rw [DriverState.exec_read] at hret ⊢
    generalize aesdRead s f count k = r at h hret ⊢
    cases h with
    | interrupted => rfl
    | atEnd => rfl
    | fault => rfl
    | copied => exact absurd hret (Int.not_lt.mpr (Int.natCast_nonneg _))
  | seek f off whence k =>
    have h := aesdSeek_end hi f off whence k
    rw [DriverState.exec_seek] at hret ⊢
    generalize aesdSeek s f off whence k = r at h hret ⊢
    cases h with
    | interrupted => rfl
    | refused => rfl
    | moved _ _ h0 => exact absurd hret (Int.not_lt.mpr h0)
  | ioctl f cmd arg k =>
    have h := aesdIoctl_end hi f cmd arg k
    rw [DriverState.exec_ioctl] at hret ⊢
    generalize aesdIoctl s f cmd arg k = r at h hret ⊢
    cases h with
    | unknown => rfl
    | fault => rfl
    | interrupted => rfl
    | refused => rfl
    | moved => exact absurd hret (lt_irrefl 0)

/-- What a copy fault leaves is what there was, if nothing was pending. -/
theorem kept_drop_iff (s : DriverState) (heap : Heap) :
    Kept s ((s.setHeap heap).setEntry .zero) ↔ s.dev.entry.size = 0 := by
  constructor
  · intro h
    exact h.size.symm
  · intro h0
    have hbytes : s.dev.entry.bytes = [] := by
      rw [AesdBufferEntry.bytes, h0, List.take_zero]
    exact ⟨rfl, hbytes.symm, h0.symm, rfl⟩

/-- **A call fails cleanly** unless it drops bytes accepted before. -/
theorem failsCleanly_iff (hi : Inv s leaked) (c : Call) :
    FailsCleanly s c ↔ c.drops s = false := by
  obtain ⟨leaked', hi'⟩ : ∃ leaked', Inv (s.exec c).1 leaked' := ⟨_, hi.exec c⟩
  have hfree := hi'.unlocked
  rcases c.write_cases with ⟨f, buf, k, rfl⟩ | hnw
  · have h := aesdWrite_end hi f buf k
    rw [DriverState.exec_write] at hfree
    constructor
    · rintro ⟨hkept, -⟩
      rw [DriverState.exec_write] at hkept
      generalize aesdWrite s f buf k = r at h hkept
      cases h with
      | interrupted h1 => simp [Call.drops, h1]
      | noMemory h1 h2 => simp [Call.drops, h2]
      | fault h1 h2 h3 =>
        have h0 := (kept_drop_iff s _).mp (hkept (by decide : efault < 0))
        simp [Call.drops, h0]
      | accepted h1 h2 h3 => simp [Call.drops, h2]
    · intro hd
      refine ⟨?_, hfree⟩
      intro hret
      rw [DriverState.exec_write] at hret ⊢
      generalize aesdWrite s f buf k = r at h hret ⊢
      cases h with
      | interrupted => exact Kept.refl s
      | noMemory => exact Kept.refl s
      | fault h1 h2 h3 =>
        refine (kept_drop_iff s _).mpr ?_
        simpa [Call.drops, h1, h2, h3] using hd
      | accepted => exact absurd hret (Int.not_lt.mpr (Int.natCast_nonneg _))
  · have hd : c.drops s = false := by
      cases c with
      | write f buf k => exact absurd rfl (hnw f buf k)
      | _ => rfl
    refine iff_of_true ⟨fun hret => ?_, hfree⟩ hd
    rw [exec_of_failed hi hnw hret]
    exact Kept.refl s

/-! ## 2. Runs -/

/-- A run in which no call drops bytes. -/
def Spared (s : DriverState) : List Call → Prop
  | [] => True
  | c :: cs => c.drops s = false ∧ Spared (s.exec c).1 cs

/-- A call that adds no bytes and drops none leaves the contents alone. -/
theorem Refines.not_drops (hr : Refines s g) (hi : Inv s leaked) {c : Call}
    (hc : c.accepts s = none) (hd : c.drops s = false) : Refines (s.exec c).1 g := by
  cases hf : c.copyFaults with
  | false => exact hr.not_accepts hi hc hf
  | true =>
    cases c with
    | write f buf k =>
      have h := aesdWrite_end hi f buf k
      rw [DriverState.exec_write]
      generalize aesdWrite s f buf k = r at h ⊢
      cases h with
      | interrupted => exact hr
      | noMemory => exact hr
      | fault h1 h2 h3 =>
        have h0 : s.dev.entry.size = 0 := by simpa [Call.drops, h1, h2, h3] using hd
        exact ⟨hr.stored, ((kept_drop_iff s s.heap).mpr h0).bytes.trans hr.pending⟩
      | accepted h1 h2 => exact absurd (h2.symm.trans hf) Bool.false_ne_true
    | _ => cases hf

/-- **Where no call drops bytes, every accepted byte is stored or pending.** -/
theorem Spared.refines : ∀ {calls : List Call} {s : DriverState} {leaked : List (ℕ × ℕ)}
    {writes : List (List UInt8)}, Inv s leaked → Refines s (groups writes) → Spared s calls →
      Refines (s.run calls) (groups (writes ++ s.successes calls))
  | [], s, _, writes, _, hr, _ => by
    rw [DriverState.successes, List.append_nil]
    exact hr
  | c :: cs, s, leaked, writes, hi, hr, h => by
    obtain ⟨hd, hcs⟩ := h
    have hstep : Refines (s.exec c).1 (groups (writes ++ c.success (s.exec c).2)) := by
      rw [success_eq hi]
      cases hc : c.accepts s with
      | none =>
        rw [Option.toList_none, List.append_nil]
        exact hr.not_drops hi hc hd
      | some bytes =>
        have hadd := hr.accepts hi hc
        rw [groups, ← Groups.of_concat] at hadd
        exact hadd
    have ih := Spared.refines (hi.exec c) hstep hcs
    rw [List.append_assoc] at ih
    exact ih

/-- **Which calls fail cleanly.**  After any run a call leaves everything as it was when it returns
an error, and the mutex free in any case, exactly if it does not drop bytes.  In a run without calls
that do, the ring and the working entry hold what all the successful writes together gave them. -/
theorem error_atomic_iff (calls : List Call) :
    (∀ c, FailsCleanly (aesdInitModule.run calls) c ↔
        c.drops (aesdInitModule.run calls) = false) ∧
      (Spared aesdInitModule calls →
        Refines (aesdInitModule.run calls) (groups (aesdInitModule.successes calls))) := by
  obtain ⟨leaked, hi⟩ := inv_run calls
  refine ⟨fun c => failsCleanly_iff hi c, ?_⟩
  intro h
  have hr := h.refines inv_init refines_init
  rwa [List.nil_append] at hr

/-- A fault with nothing pending leaves the stored command, and the pending byte of the next write
survives a `krealloc` that fails. -/
theorem error_atomic_iff_spared :
    Refines (aesdInitModule.run [.write 0 ⟨[97, 10], by decide⟩ {},
        .write 1 ⟨[98], by decide⟩ { faults := true }, .write 0 ⟨[99], by decide⟩ {},
        .write 1 ⟨[10], by decide⟩ { krealloc := .fails }])
      (groups [[97, 10], [99]]) :=
  (error_atomic_iff _).2 ⟨by decide, by decide, by decide, by decide, trivial⟩

/-- **A copy fault loses a byte that an earlier write reported as accepted.** -/
theorem fault_drops : ¬ ∀ (calls : List Call) (c : Call),
    FailsCleanly (aesdInitModule.run calls) c := by
  intro h
  have hkept := (h [.write 0 ⟨[97], by decide⟩ {}]
    (.write 1 ⟨[98], by decide⟩ { faults := true })).kept (by decide)
  exact absurd hkept.bytes (by decide)

end Aesd.Driver
