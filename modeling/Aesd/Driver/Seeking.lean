/-
# Commands, offsets and positions

Three functions of the driver walk the ring from its oldest entry: `aesd_adjust_file_offset`
turns a command number and an offset into a position, the lookup in `aesd_read` turns a position
back into a slot and an offset, and `aesd_circular_buffer_calculate_size` says where positions
end.  `seekto_positions` says they agree: the ioctl is a bijection between the bytes of the
stored commands it can name and the positions of those bytes.

All three are instances of one list of sizes (`Segment.position` and `Segment.locate` over
`Segment.sizes`), so the correspondence is the library's, and the driver's part is that the
ioctl accepts exactly the names of stored bytes.
-/
import Aesd.Driver.Spec

namespace Aesd.Driver

open MachineInt RingWindow Segment

variable {s : DriverState} {leaked : List (ℕ × ℕ)}

/-! ## 1. Names of stored bytes -/

/-- A pair that names a byte of a stored command. -/
def Names (s : DriverState) (arg : AesdSeekto) : Prop :=
  ∃ c, s.stored[arg.writeCmd.toNat]? = some c ∧ arg.writeCmdOffset.toNat < c.length

/-- The position of the byte a pair names. -/
def DriverState.target (s : DriverState) (arg : AesdSeekto) : ℕ :=
  position (sizes s.stored) arg.writeCmd.toNat arg.writeCmdOffset.toNat

/-- A stored command is an entry of the ring, with its size. -/
theorem Inv.names_iff (hi : Inv s leaked) (arg : AesdSeekto) :
    Names s arg ↔ ∃ e, s.dev.buffer.entries[arg.writeCmd.toNat]? = some e ∧
      arg.writeCmdOffset.toNat < e.size := by
  have hlen : ∀ e, s.dev.buffer.entries[arg.writeCmd.toNat]? = some e → e.bytes.length = e.size :=
    fun e he => (hi.stored e (List.mem_of_getElem? he)).1.length_bytes
  constructor
  · rintro ⟨c, hc, ho⟩
    rw [DriverState.stored, List.getElem?_map, Option.map_eq_some_iff] at hc
    obtain ⟨e, he, rfl⟩ := hc
    exact ⟨e, he, by rwa [hlen e he] at ho⟩
  · rintro ⟨e, he, ho⟩
    refine ⟨e.bytes, ?_, by rwa [hlen e he]⟩
    rw [DriverState.stored, List.getElem?_map, he]
    rfl

/-- The position is the sizes of the older entries and the offset. -/
theorem Inv.target_eq (hi : Inv s leaked) (arg : AesdSeekto) :
    s.target arg = ((s.dev.buffer.entries.take arg.writeCmd.toNat).map AesdBufferEntry.size).sum +
      arg.writeCmdOffset.toNat := by
  rw [DriverState.target, hi.sizes_stored, position, AesdCircularBuffer.sizes, List.map_take]

/-- A named byte is below the end of the ring, and the end is far below `2 ^ 63`. -/
theorem Inv.target_lt (hi : Inv s leaked) {arg : AesdSeekto} (h : Names s arg) :
    s.target arg < s.dev.buffer.totalSize ∧ s.dev.buffer.totalSize < 2 ^ 63 := by
  obtain ⟨c, hc, ho⟩ := h
  have hlt := position_lt_sum (sizes_getElem? hc) ho
  rw [hi.sizes_stored] at hlt
  have htot := hi.total_lt
  refine ⟨?_, by omega⟩
  rw [DriverState.target, hi.sizes_stored]
  exact hlt

/-- **The lookup at a named position finds the name.** -/
theorem Inv.find_target (hi : Inv s leaked) {arg : AesdSeekto} (h : Names s arg) :
    aesdCircularBufferFindEntryOffsetForFpos s.dev.buffer (s.target arg) =
      some (slotAt s.dev.buffer.outOffs arg.writeCmd.toNat, arg.writeCmdOffset.toNat) := by
  obtain ⟨hlt, htot⟩ := hi.target_lt h
  obtain ⟨c, hc, ho⟩ := h
  rw [AesdCircularBuffer.find_eq_locate _ (by omega), ← hi.sizes_stored, DriverState.target,
    locate_position (sizes_getElem? hc) ho]
  rfl

/-- Two names of one position are the same. -/
theorem target_inj {arg arg' : AesdSeekto} (h : Names s arg) (h' : Names s arg')
    (heq : s.target arg = s.target arg') : arg = arg' := by
  obtain ⟨c, hc, ho⟩ := h
  obtain ⟨c', hc', ho'⟩ := h'
  obtain ⟨hk, hoff⟩ := position_inj (sizes_getElem? hc) ho (sizes_getElem? hc') ho' heq
  obtain ⟨k, o⟩ := arg
  obtain ⟨k', o'⟩ := arg'
  exact congrArg₂ AesdSeekto.mk (UInt32.toNat_inj.mp hk) (UInt32.toNat_inj.mp hoff)

/-- **Every position in the ring has a name**, if its offset fits the 32 bits of one. -/
theorem Inv.exists_names (hi : Inv s leaked) {p : ℕ} (hp : p < s.dev.buffer.totalSize)
    (hsmall : ∀ slot o, aesdCircularBufferFindEntryOffsetForFpos s.dev.buffer p = some (slot, o) →
      o < 2 ^ 32) : ∃ arg, Names s arg ∧ s.target arg = p := by
  have htot := hi.total_lt
  obtain ⟨k, o, hl⟩ :=
    exists_locate (show p < (sizes s.stored).sum by rw [hi.sizes_stored]; exact hp)
  have hfind := @AesdCircularBuffer.find_eq_locate s.dev.buffer p (by omega)
  rw [← hi.sizes_stored, hl] at hfind
  have ho32 : o < 2 ^ 32 := hsmall _ o hfind
  obtain ⟨c, hc, ho, -⟩ := drop_flatten_of_locate hl
  have hk : k < maxWriteOperationsSupported := by
    have h1 := (List.getElem?_eq_some_iff.mp hc).1
    rw [DriverState.stored, List.length_map, AesdCircularBuffer.length_entries] at h1
    exact h1.trans_le s.dev.buffer.count_le
  have hk32 : (UInt32.ofNat k).toNat = k :=
    UInt32.toNat_ofNat_of_lt' (hk.trans (by decide : maxWriteOperationsSupported < 2 ^ 32))
  have ho32' : (UInt32.ofNat o).toNat = o := UInt32.toNat_ofNat_of_lt' ho32
  refine ⟨⟨UInt32.ofNat k, UInt32.ofNat o⟩,
    ⟨c, by rw [hk32]; exact hc, by rw [ho32']; exact ho⟩, ?_⟩
  rw [DriverState.target, hk32, ho32']
  obtain ⟨n, -, -, h⟩ := locate_eq_some_iff.mp hl
  exact h

/-! ## 2. The ioctl -/

/-- **The ioctl with the mutex and without a fault**: it moves the file to the named byte, or
fails and changes nothing. -/
theorem ioctl_seekto (hi : Inv s leaked) (f : ℕ) (arg : AesdSeekto) {k : Kernel}
    (hf : k.faults = false) (hint : k.interrupted = false) :
    (Names s arg ∧
        s.exec (.ioctl f aesdcharIocseekto arg k) = (s.setPos f (s.target arg), ⟨0, []⟩)) ∨
      (¬ Names s arg ∧ s.exec (.ioctl f aesdcharIocseekto arg k) = (s, ⟨einval, []⟩)) := by
  have h := aesdIoctl_end hi f aesdcharIocseekto arg k
  have hexec : s.exec (.ioctl f aesdcharIocseekto arg k) = aesdIoctl s f aesdcharIocseekto arg k :=
    rfl
  generalize aesdIoctl s f aesdcharIocseekto arg k = r at h hexec
  cases h with
  | unknown hcmd => exact absurd rfl hcmd
  | fault _ hf' => exact absurd (hf.symm.trans hf') (by simp)
  | interrupted _ _ hint' => exact absurd (hint.symm.trans hint') (by simp)
  | refused _ _ _ hn => exact Or.inr ⟨hn, hexec⟩
  | moved _ _ _ hc ho => exact Or.inl ⟨⟨_, hc, ho⟩, hexec⟩

/-- An ioctl that does not return 0 changes nothing, whatever the kernel did. -/
theorem ioctl_failed (hi : Inv s leaked) (f : ℕ) (cmd : UInt32) (arg : AesdSeekto) (k : Kernel)
    (h : (s.exec (.ioctl f cmd arg k)).2.ret ≠ 0) : (s.exec (.ioctl f cmd arg k)).1 = s := by
  have hend := aesdIoctl_end hi f cmd arg k
  have hexec : s.exec (.ioctl f cmd arg k) = aesdIoctl s f cmd arg k := rfl
  rw [hexec] at h ⊢
  generalize aesdIoctl s f cmd arg k = r at hend h ⊢
  cases hend with
  | unknown => rfl
  | fault => rfl
  | interrupted => rfl
  | refused => rfl
  | moved => exact absurd rfl h

/-- **The read after an accepted seek starts at the named byte.** -/
theorem read_of_target (hi : Inv s leaked) {arg : AesdSeekto} {c : List UInt8}
    (hc : s.stored[arg.writeCmd.toNat]? = some c) (ho : arg.writeCmdOffset.toNat < c.length)
    (f count : ℕ) (hcount : 0 < count) {k : Kernel} (hf : k.faults = false)
    (hint : k.interrupted = false) :
    ((s.setPos f (s.target arg)).exec (.read f count k)).2.data ≠ [] ∧
      ((s.setPos f (s.target arg)).exec (.read f count k)).2.data <+:
        c.drop arg.writeCmdOffset.toNat ++ (s.stored.drop (arg.writeCmd.toNat + 1)).flatten := by
  obtain ⟨hlt, htot⟩ := hi.target_lt ⟨c, hc, ho⟩
  have hi' := hi.setPos f (show -2 ^ 63 ≤ (s.target arg : ℤ) ∧ (s.target arg : ℤ) < 2 ^ 63 by omega)
  have hoff : (s.setPos f (s.target arg)).charOffset f = s.target arg := by
    rw [DriverState.charOffset, DriverState.setPos_fPos_self]
    exact wrapU_natCast (by omega)
  have hend := aesdRead_end hi' f count k
  have hexec : (s.setPos f (s.target arg)).exec (.read f count k) =
      aesdRead (s.setPos f (s.target arg)) f count k := rfl
  have hdrop := drop_position_flatten hc ho.le
  rw [hexec]
  generalize aesdRead (s.setPos f (s.target arg)) f count k = r at hend ⊢
  cases hend with
  | interrupted h => exact absurd (hint.symm.trans h) (by simp)
  | fault _ h => exact absurd (hf.symm.trans h) (by simp)
  | atEnd _ hge =>
    rw [hoff] at hge
    have hsz : s.stored.flatten.length ≤ s.target arg := hge
    rw [← hi.totalSize_eq] at hsz
    omega
  | @copied n _ _ hle _ hpos _ =>
    rw [hoff] at hle ⊢
    have hn := hpos hcount
    have hle' : s.target arg + n ≤ s.stored.flatten.length := hle
    refine ⟨?_, ?_⟩
    · intro hnil
      have hlen := congrArg List.length hnil
      rw [List.length_take, List.length_drop, List.length_nil] at hlen
      have : (s.setPos f (s.target arg)).stored.flatten.length = s.stored.flatten.length := rfl
      omega
    · rw [← hdrop]
      exact List.take_prefix _ _

/-- **The ioctl is a bijection between the bytes it can name and their positions.**  In any
reachable state, for `AESDCHAR_IOCSEEKTO` that gets its argument and the mutex:

* it succeeds exactly when the number is below the number of stored commands and the offset
  below the size of that command;
* on success `f_pos` is the sum of the sizes of the older commands plus the offset, the lookup
  there finds that command's slot and that offset, and a read starts at that byte;
* different accepted pairs give different positions;
* every position below `aesd_circular_buffer_calculate_size` whose offset fits 32 bits is given
  by exactly one accepted pair;

and an ioctl that fails, for whatever reason, leaves `f_pos` alone. -/
theorem seekto_positions (hr : Reachable s) (f : ℕ) {k : Kernel} (hf : k.faults = false)
    (hint : k.interrupted = false) :
    let seekto := fun arg => s.exec (.ioctl f aesdcharIocseekto arg k)
    (∀ arg, (seekto arg).2.ret = 0 ↔
      ∃ e, s.dev.buffer.entries[arg.writeCmd.toNat]? = some e ∧
        arg.writeCmdOffset.toNat < e.size) ∧
    (∀ arg, (seekto arg).2.ret = 0 →
      (seekto arg).1.fPos f =
          ((s.dev.buffer.entries.take arg.writeCmd.toNat).map AesdBufferEntry.size).sum +
            arg.writeCmdOffset.toNat ∧
        aesdCircularBufferFindEntryOffsetForFpos (seekto arg).1.dev.buffer
            (wrapU 64 ((seekto arg).1.fPos f)) =
          some (slotAt s.dev.buffer.outOffs arg.writeCmd.toNat, arg.writeCmdOffset.toNat) ∧
        ∀ count k', 0 < count → k'.faults = false → k'.interrupted = false →
          ∃ c, s.stored[arg.writeCmd.toNat]? = some c ∧
            ((seekto arg).1.exec (.read f count k')).2.data ≠ [] ∧
            ((seekto arg).1.exec (.read f count k')).2.data <+:
              c.drop arg.writeCmdOffset.toNat ++
                (s.stored.drop (arg.writeCmd.toNat + 1)).flatten) ∧
    (∀ arg arg', (seekto arg).2.ret = 0 → (seekto arg').2.ret = 0 →
      (seekto arg).1.fPos f = (seekto arg').1.fPos f → arg = arg') ∧
    (∀ p : ℕ, p < aesdCircularBufferCalculateSize s.dev.buffer →
      (∀ slot o, aesdCircularBufferFindEntryOffsetForFpos s.dev.buffer p = some (slot, o) →
        o < 2 ^ 32) →
      ∃! arg, (seekto arg).2.ret = 0 ∧ (seekto arg).1.fPos f = p) ∧
    (∀ arg k', (s.exec (.ioctl f aesdcharIocseekto arg k')).2.ret ≠ 0 →
      (s.exec (.ioctl f aesdcharIocseekto arg k')).1.fPos f = s.fPos f) := by
  obtain ⟨leaked, hi⟩ := hr.inv
  intro seekto
  have hiff : ∀ arg, (seekto arg).2.ret = 0 ↔ Names s arg := by
    intro arg
    rcases ioctl_seekto hi f arg hf hint with ⟨hn, he⟩ | ⟨hn, he⟩
    · exact iff_of_true (congrArg (fun r => r.2.ret) he) hn
    · refine iff_of_false (fun h => ?_) hn
      have hret : einval = 0 := (congrArg (fun r => r.2.ret) he).symm.trans h
      exact absurd hret (by decide)
  have hok : ∀ arg, (seekto arg).2.ret = 0 → (seekto arg).1 = s.setPos f (s.target arg) := by
    intro arg h0
    rcases ioctl_seekto hi f arg hf hint with ⟨-, he⟩ | ⟨hn, -⟩
    · exact congrArg Prod.fst he
    · exact absurd ((hiff arg).mp h0) hn
  have hpos : ∀ arg, (seekto arg).2.ret = 0 → (seekto arg).1.fPos f = s.target arg := by
    intro arg h0
    rw [hok arg h0, DriverState.setPos_fPos_self]
  refine ⟨?_, ?_, ?_, ?_, ?_⟩
  · intro arg
    rw [hiff, hi.names_iff]
  · intro arg h0
    have hn := (hiff arg).mp h0
    obtain ⟨hlt, htot⟩ := hi.target_lt hn
    refine ⟨?_, ?_, ?_⟩
    · rw [hpos arg h0, hi.target_eq]
      push_cast
      rfl
    · rw [hpos arg h0, wrapU_natCast (by omega), hok arg h0]
      exact hi.find_target hn
    · intro count k' hcount hf' hint'
      obtain ⟨c, hc, ho⟩ := hn
      obtain ⟨h1, h2⟩ := read_of_target hi hc ho f count hcount hf' hint'
      rw [hok arg h0]
      exact ⟨c, hc, h1, h2⟩
  · intro arg arg' h0 h0' heq
    rw [hpos arg h0, hpos arg' h0'] at heq
    exact target_inj ((hiff arg).mp h0) ((hiff arg').mp h0') (by exact_mod_cast heq)
  · intro p hp hsmall
    have htot := hi.total_lt
    rw [s.dev.buffer.calculateSize_eq (by omega)] at hp
    obtain ⟨arg, hn, ht⟩ := hi.exists_names (by exact_mod_cast hp) hsmall
    refine ⟨arg, ⟨(hiff arg).mpr hn, ?_⟩, ?_⟩
    · rw [hpos arg ((hiff arg).mpr hn), ht]
    · rintro arg' ⟨h0', hp'⟩
      rw [hpos arg' h0'] at hp'
      exact target_inj ((hiff arg').mp h0') hn (by rw [ht]; exact_mod_cast hp')
  · intro arg k' hne
    rw [ioctl_failed hi f _ arg k' hne]

/-- Two stored commands, and a seek into the second. -/
theorem seekto_positions_two :
    let s := aesdInitModule.run [.write 0 ⟨[97, 98, 10], by decide⟩ {},
      .write 0 ⟨[99, 10], by decide⟩ {}]
    (s.exec (.ioctl 1 aesdcharIocseekto ⟨1, 1⟩ {})).1.fPos 1 = 4 := by
  have h := @seekto_positions (aesdInitModule.run [.write 0 ⟨[97, 98, 10], by decide⟩ {},
    .write 0 ⟨[99, 10], by decide⟩ {}]) ⟨_, rfl⟩ 1 {} rfl rfl
  exact (h.2.1 ⟨1, 1⟩ (by decide)).1.trans (by decide)

end Aesd.Driver
