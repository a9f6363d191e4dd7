/-
# File positions

`f_pos` is a signed 64-bit number, added to by reads and writes, set by `aesd_seek` and by the
ioctl, and turned into a `size_t` by the lookup.  The driver's one check is the sign of the new
position in `aesd_seek`.  It is enough: a base that is not negative and an offset add up to a
negative 64-bit number exactly when the sum is out of bounds (`wrapS_add_nonneg_iff`).

Reads and writes do not check anything; that their position does not overflow is the VFS's doing,
which turns away a call whose position and count exceed `2 ^ 63 - 1` (`Admitted`).
-/
import Aesd.Driver.Reading

namespace Aesd.Driver

open MachineInt

variable {s : DriverState} {leaked : List (ℕ × ℕ)}

/-! ## 1. What the VFS lets through -/

/-- A read or write whose position and count stay below `2 ^ 63`, or another call. -/
def Call.Admissible (s : DriverState) : Call → Prop
  | .read f count _ => s.fPos f + count < 2 ^ 63
  | .write f buf _ => s.fPos f + buf.bytes.length < 2 ^ 63
  | _ => True

/-- A run of calls the VFS lets through. -/
def Admitted (s : DriverState) : List Call → Prop
  | [] => True
  | c :: cs => c.Admissible s ∧ Admitted (s.exec c).1 cs

/-! ## 2. Positions are not negative -/

/-- **The step lemma**: none of the five operations makes a position negative. -/
theorem Inv.fPos_nonneg (hi : Inv s leaked) (h0 : ∀ f, 0 ≤ s.fPos f) {c : Call}
    (hc : c.Admissible s) (f : ℕ) : 0 ≤ (s.exec c).1.fPos f := by
  by_cases hf : f = c.filp
  swap
  · rw [exec_fPos_of_ne hi hf]
    exact h0 f
  subst hf
  cases c with
  | «open» f => exact (DriverState.setPos_fPos_self s f 0).ge
  | read f count k =>
    have h := aesdRead_end hi f count k
    have hpos := h0 f
    have hadm : s.fPos f + count < 2 ^ 63 := hc
    rw [DriverState.exec_read, Call.filp]
    generalize aesdRead s f count k = r at h ⊢
    cases h with
    | interrupted => exact hpos
    | atEnd => exact hpos
    | fault => exact hpos
    | @copied n _ _ _ hn =>
      rw [DriverState.setPos_fPos_self, wrapS_of_mem (by omega) (by omega)]
      omega
  | write f buf k =>
    have h := aesdWrite_end hi f buf k
    have hpos := h0 f
    have hadm : s.fPos f + buf.bytes.length < 2 ^ 63 := hc
    rw [DriverState.exec_write, Call.filp]
    generalize aesdWrite s f buf k = r at h ⊢
    cases h with
    | interrupted => exact hpos
    | noMemory => exact hpos
    | fault => exact hpos
    | accepted =>
      rw [DriverState.setPos_fPos_self, wrapS_of_mem (by omega) (by omega)]
      omega
  | seek f off whence k =>
    have h := aesdSeek_end hi f off whence k
    rw [DriverState.exec_seek, Call.filp]
    generalize aesdSeek s f off whence k = r at h ⊢
    cases h with
    | interrupted => exact h0 f
    | refused => exact h0 f
    | moved _ _ hge => exact hge.trans (DriverState.setPos_fPos_self s f _).ge
  | ioctl f cmd arg k =>
    have h := aesdIoctl_end hi f cmd arg k
    rw [DriverState.exec_ioctl, Call.filp]
    generalize aesdIoctl s f cmd arg k = r at h ⊢
    cases h with
    | unknown => exact h0 f
    | fault => exact h0 f
    | interrupted => exact h0 f
    | refused => exact h0 f
    | moved => exact (Int.natCast_nonneg _).trans (DriverState.setPos_fPos_self s f _).ge

/-- **The run lemma.** -/
theorem Admitted.fPos_nonneg : ∀ {calls : List Call} {s : DriverState} {leaked : List (ℕ × ℕ)},
    Inv s leaked → (∀ f, 0 ≤ s.fPos f) → Admitted s calls → ∀ f, 0 ≤ (s.run calls).fPos f
  | [], _, _, _, h0, _ => h0
  | c :: cs, s, _, hi, h0, h =>
    @Admitted.fPos_nonneg cs (s.exec c).1 _ (hi.exec c) (fun f => hi.fPos_nonneg h0 h.1 f) h.2

/-! ## 3. Seeking -/

/-- What an offset is counted from is not negative. -/
theorem Inv.seekBase_mem (hi : Inv s leaked) (h0 : ∀ f, 0 ≤ s.fPos f) {f : ℕ} {whence : Int32}
    {base : ℤ} (hb : s.seekBase f whence = some base) : 0 ≤ base ∧ base < 2 ^ 63 := by
  have htot := hi.total_lt
  have hsize := hi.totalSize_eq
  have hpos := h0 f
  have hlt := (hi.positions f).2
  unfold DriverState.seekBase at hb
  split at hb
  · obtain rfl := Option.some.inj hb
    decide
  · split at hb
    · obtain rfl := Option.some.inj hb
      exact ⟨hpos, hlt⟩
    · split at hb
      · obtain rfl := Option.some.inj hb
        omega
      · cases hb

/-- A sequence of reads of a file from position 0 one of which returns 0. -/
structure ReadsToEnd (f : ℕ) (s : DriverState) (calls : List Call) : Prop where
  start : s.fPos f = 0
  reads : ∀ c ∈ calls, ∃ count k, c = .read f count k ∧ 0 < count ∧ k.faults = false
  zero : ∃ pre count k post, calls = pre ++ .read f count k :: post ∧ k.interrupted = false ∧
    ((s.run pre).exec (.read f count k)).2.ret = 0

/-- Reads alone are quiet. -/
theorem reads_of_forall {f : ℕ} : ∀ {calls : List Call} {s : DriverState},
    (∀ c ∈ calls, ∃ count k, c = .read f count k ∧ 0 < count ∧ k.faults = false) → Reads f s calls
  | [], _, _ => trivial
  | _ :: _, _, h =>
    ⟨Or.inl (h _ List.mem_cons_self), reads_of_forall fun c hc => h c (List.mem_cons_of_mem _ hc)⟩

/-- **Reading from 0 to the end of data returns all of the ring.** -/
theorem ReadsToEnd.handed_eq (hi : Inv s leaked) {f : ℕ} {calls : List Call}
    (h : ReadsToEnd f s calls) : s.handed f calls = s.content := by
  obtain ⟨hstart, hreads, pre, count, k, post, rfl, hint, hzero⟩ := h
  rw [Reads.to_end_of_zero hi hstart.ge (reads_of_forall hreads) ?_ hint hzero, hstart]
  · rfl
  · intro pre' c post' heq
    obtain ⟨count', k', rfl, -⟩ := hreads c (by rw [heq]; simp)
    rfl

/-- **Positions are exact.**  In every state a run of admitted calls reaches, every position is at
least 0, and the lookup gets it as it is.  A seek that gets the mutex moves to the exact sum of its
base and offset and returns it if the sum is in `[0, 2 ^ 63)`, and otherwise returns `-EINVAL` and
moves nothing.  The base is 0, the position, or the number of bytes a reader gets from 0 to the end
of data. -/
theorem positions_exact (calls : List Call) (h : Admitted aesdInitModule calls) :
    let s := aesdInitModule.run calls
    (∀ f, 0 ≤ s.fPos f ∧ s.fPos f < 2 ^ 63 ∧ (s.charOffset f : ℤ) = s.fPos f) ∧
      (∀ f off whence k base, s.seekBase f whence = some base →
        s.exec (.seek f off whence k) =
          if k.interrupted then (s, ⟨erestartsys, []⟩)
          else if 0 ≤ base + off.toInt ∧ base + off.toInt < 2 ^ 63 then
            (s.setPos f (base + off.toInt), ⟨base + off.toInt, []⟩)
          else (s, ⟨einval, []⟩)) ∧
      (∀ f, s.seekBase f 0 = some 0 ∧ s.seekBase f 1 = some (s.fPos f)) ∧
      ∀ f g reads, ReadsToEnd g s reads → s.seekBase f 2 = some (s.handed g reads).length := by
  intro s
  obtain ⟨leaked, hi⟩ := inv_run calls
  have h0 : ∀ f, 0 ≤ s.fPos f := h.fPos_nonneg inv_init fun _ => le_refl _
  refine ⟨fun f => ⟨h0 f, (hi.positions f).2, ?_⟩, ?_, fun f => ⟨rfl, rfl⟩, ?_⟩
  · rw [DriverState.charOffset_of_nonneg (h0 f) (hi.positions f).2, Int.toNat_of_nonneg (h0 f)]
  · intro f off whence k base hbase
    obtain ⟨hb, hb'⟩ := hi.seekBase_mem h0 hbase
    have hiff := wrapS_add_nonneg_iff hb hb' off.le_toInt off.toInt_lt
    have hend := aesdSeek_end hi f off whence k
    rw [DriverState.exec_seek]
    generalize aesdSeek s f off whence k = r at hend ⊢
    cases hend with
    | interrupted h1 => rw [if_pos h1]
    | refused h1 hneg =>
      rw [if_neg (by rw [h1]; exact Bool.false_ne_true), if_neg]
      intro hin
      exact absurd (hiff.mpr hin) (Int.not_le.mpr (hneg base hbase))
    | moved h1 hbase' hge =>
      obtain rfl := Option.some.inj (hbase.symm.trans hbase')
      have hin := hiff.mp hge
      rw [if_neg (by rw [h1]; exact Bool.false_ne_true), if_pos hin,
        wrapS_of_mem (by omega) hin.2]
  · intro f g reads hreads
    rw [hreads.handed_eq hi]
    rfl

/-- Seeking past the largest position is refused. -/
theorem positions_exact_max :
    let s := aesdInitModule.run [.write 0 ⟨[97, 10], by decide⟩ {}]
    s.exec (.seek 0 (Int64.ofInt (2 ^ 63 - 1)) 1 {}) = (s, ⟨einval, []⟩) := by
  intro s
  have hadm : (Call.write 0 ⟨[97, 10], by decide⟩ {}).Admissible aesdInitModule := by
    show aesdInitModule.fPos 0 + 2 < 2 ^ 63
    decide
  have h := positions_exact [.write 0 ⟨[97, 10], by decide⟩ {}] ⟨hadm, trivial⟩
  exact (h.2.1 0 (Int64.ofInt (2 ^ 63 - 1)) 1 {} 2 (by decide)).trans
    ((if_neg Bool.false_ne_true).trans (if_neg (by decide)))

end Aesd.Driver
