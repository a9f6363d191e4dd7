/-
# Reading a file to its end

`aesd_read` hands out at most one command's bytes and finds its place again from `f_pos` at each
call.  Here is what a reader sees over a whole sequence of reads: one contiguous segment of the
concatenation of the stored commands, whatever the counts, and whatever other files do in
between as long as the ring drops nothing.

The carrier is that such calls only append to the stored commands (`stored_isPrefix`), so what a
read took from the concatenation at its own time is what the final concatenation has there.
-/
import Aesd.Driver.Spec

namespace Aesd.Driver

open MachineInt

/-! ## 1. Sequences of reads -/

/-- The bytes of the ring, oldest command first. -/
def DriverState.content (s : DriverState) : List UInt8 := s.stored.flatten

/-- A call a reader of `f` lives with: its own reads, of a positive count and without a copy
fault, and calls on other files that make the ring drop nothing. -/
def Call.Quiet (f : ℕ) (s : DriverState) (c : Call) : Prop :=
  (∃ count k, c = .read f count k ∧ 0 < count ∧ k.faults = false) ∨
    (c.filp ≠ f ∧ c.evicts s = false)

/-- A sequence of such calls, each in the state it finds. -/
def Reads (f : ℕ) (s : DriverState) : List Call → Prop
  | [] => True
  | c :: cs => c.Quiet f s ∧ Reads f (s.exec c).1 cs

/-- What a call hands to the reader of `f`. -/
def Call.handed (f : ℕ) (s : DriverState) (c : Call) : List UInt8 :=
  if c.filp = f then (s.exec c).2.data else []

@[simp] theorem Call.handed_read (f count : ℕ) (k : Kernel) (s : DriverState) :
    (Call.read f count k).handed f s = (s.exec (.read f count k)).2.data := if_pos rfl

theorem Call.handed_of_ne {f : ℕ} {c : Call} (h : c.filp ≠ f) (s : DriverState) :
    c.handed f s = [] := if_neg h

/-- Everything a sequence of calls hands to the reader of `f`. -/
def DriverState.handed (f : ℕ) (s : DriverState) : List Call → List UInt8
  | [] => []
  | c :: cs => c.handed f s ++ (s.exec c).1.handed f cs

/-- Whether a call is a read of `f` that got the mutex. -/
def Call.isRead (f : ℕ) : Call → Bool
  | .read g _ k => g = f && !k.interrupted
  | _ => false

theorem Call.filp_of_isRead {f : ℕ} {c : Call} (h : c.isRead f = true) : c.filp = f := by
  cases c with
  | read g count k =>
    rw [Call.isRead, Bool.and_eq_true, decide_eq_true_eq] at h
    exact h.1
  | «open» => cases h
  | write => cases h
  | seek => cases h
  | ioctl => cases h

/-! ## 2. One call -/

variable {s : DriverState} {leaked : List (ℕ × ℕ)} {f : ℕ}

/-- **One read.**  A read that gets the mutex returns between 1 and `count` bytes if there are
any at its position and 0 otherwise; an interrupted one returns `-ERESTARTSYS`.  The position
advances by what was handed over, the bytes are those at the position, and nothing else moves. -/
structure OneRead (f count : ℕ) (k : Kernel) (s : DriverState) : Prop where
  ret : (s.exec (.read f count k)).2.ret =
    if k.interrupted then erestartsys else ((s.exec (.read f count k)).2.data.length : ℤ)
  le_count : (s.exec (.read f count k)).2.data.length ≤ count
  pos : k.interrupted = false → s.fPos f < s.content.length →
    0 < (s.exec (.read f count k)).2.data.length
  atEnd : s.content.length ≤ s.fPos f → (s.exec (.read f count k)).2.data = []
  advance : (s.exec (.read f count k)).1.fPos f =
    s.fPos f + (s.exec (.read f count k)).2.data.length
  data : (s.exec (.read f count k)).2.data =
    (s.content.drop (s.fPos f).toNat).take (s.exec (.read f count k)).2.data.length
  inside : s.fPos f < s.content.length →
    s.fPos f + (s.exec (.read f count k)).2.data.length ≤ s.content.length
  stored : (s.exec (.read f count k)).1.stored = s.stored

theorem oneRead (hi : Inv s leaked) (h0 : 0 ≤ s.fPos f) {count : ℕ} (hcount : 0 < count)
    {k : Kernel} (hk : k.faults = false) : OneRead f count k s := by
  have hoff := DriverState.charOffset_of_nonneg h0 (hi.positions f).2
  have hlt : s.content.length < 2 ^ 63 := by
    have h1 := hi.total_lt
    have h2 : s.dev.buffer.totalSize = s.content.length := hi.totalSize_eq
    omega
  have h := aesdRead_end hi f count k
  have hexec : s.exec (.read f count k) = aesdRead s f count k := rfl
  generalize aesdRead s f count k = r at h hexec
  cases h with
  | interrupted hint =>
    refine ⟨by rw [hexec, if_pos hint], ?_, ?_, ?_, ?_, ?_, ?_, ?_⟩
    · rw [hexec]
      exact Nat.zero_le _
    · intro h
      exact absurd (hint.symm.trans h) (by simp)
    · rw [hexec]
      exact fun _ => rfl
    · rw [hexec]
      exact (add_zero _).symm
    · rw [hexec]
      simp
    · intro h
      rw [hexec]
      exact (add_zero (s.fPos f)).trans_le h.le
    · rw [hexec]
  | atEnd hint hend =>
    rw [hoff] at hend
    have hend' : s.content.length ≤ (s.fPos f).toNat := hend
    refine ⟨by rw [hexec, hint]; rfl, ?_, ?_, ?_, ?_, ?_, ?_, ?_⟩
    · rw [hexec]
      exact Nat.zero_le _
    · intro _ h
      omega
    · rw [hexec]
      exact fun _ => rfl
    · rw [hexec]
      exact (add_zero _).symm
    · rw [hexec]
      simp
    · intro h
      omega
    · rw [hexec]
  | fault hint hf => exact absurd (hk.symm.trans hf) (by simp)
  | @copied n hint hf hle hn hpos hin =>
    rw [hoff] at hle hin hexec
    have hlen : ((s.content.drop (s.fPos f).toNat).take n).length = n := by
      rw [List.length_take, List.length_drop, Nat.min_eq_left]
      exact Nat.le_sub_of_add_le (by rw [Nat.add_comm]; exact hle)
    have hin' : (s.fPos f).toNat < s.content.length := hin
    have hle' : (s.fPos f).toNat + n ≤ s.content.length := hle
    have hdata : (s.exec (.read f count k)).2.data = (s.content.drop (s.fPos f).toNat).take n := by
      rw [hexec]
      rfl
    have hdl : (s.exec (.read f count k)).2.data.length = n := by rw [hdata, hlen]
    refine ⟨?_, ?_, ?_, ?_, ?_, ?_, ?_, ?_⟩
    · rw [hdl, hexec, hint]
      rfl
    · rw [hdl]
      exact hn
    · intro _ _
      rw [hdl]
      exact hpos hcount
    · intro hend
      omega
    · rw [hdl, hexec, DriverState.setPos_fPos_self]
      exact wrapS_of_mem (w := 63) (by omega) (by omega)
    · rw [hdl, hdata]
    · intro _
      rw [hdl]
      omega
    · rw [hexec]
      rfl

/-- **A call that makes the ring drop nothing only appends** to the stored commands. -/
theorem stored_isPrefix (hi : Inv s leaked) {c : Call} (hc : c.evicts s = false) :
    s.stored <+: (s.exec c).1.stored := by
  cases ha : c.accepts s with
  | none => rw [stored_of_not_accepts hi ha]
  | some bytes =>
    rw [(exec_of_accepts hi ha).1]
    split
    · rename_i hn
      -- the call commits, so the ring is not full
      have hnf : s.dev.buffer.full = false := by
        simpa [Call.evicts, Call.commits, ha, hn] using hc
      have hlen : s.stored.length < maxWriteOperationsSupported := by
        rw [DriverState.stored, List.length_map, AesdCircularBuffer.length_entries,
          AesdCircularBuffer.count, hnf]
        exact s.dev.buffer.inOffs.isLt
      rw [Segment.rtake_of_length_le (by rw [List.length_append, List.length_singleton]; omega)]
      exact List.prefix_append _ _
    · exact List.prefix_refl _

/-- A call that stores nothing leaves the stored commands alone. -/
theorem stored_of_not_commits (hi : Inv s leaked) {c : Call} (hc : c.commits s = false) :
    (s.exec c).1.stored = s.stored := by
  cases ha : c.accepts s with
  | none => exact stored_of_not_accepts hi ha
  | some bytes =>
    have hn : newline ∉ s.pending ++ bytes := by simpa [Call.commits, ha] using hc
    rw [(exec_of_accepts hi ha).1, if_neg hn]

/-- A longer list of commands has the same bytes at the front. -/
theorem content_isPrefix {s t : DriverState} (h : s.stored <+: t.stored) :
    s.content <+: t.content := by
  obtain ⟨new, hnew⟩ := h
  exact ⟨new.flatten, by rw [DriverState.content, DriverState.content, ← hnew, List.flatten_append]⟩

/-- **The step lemma**: one quiet call hands over the bytes at the reader's position and moves
it past them. -/
theorem Call.Quiet.step (hi : Inv s leaked) (h0 : 0 ≤ s.fPos f) {c : Call} (hc : c.Quiet f s) :
    c.handed f s = (s.content.drop (s.fPos f).toNat).take (c.handed f s).length ∧
      (s.exec c).1.fPos f = s.fPos f + (c.handed f s).length ∧
      s.stored <+: (s.exec c).1.stored := by
  rcases hc with ⟨count, k, rfl, hcount, hk⟩ | ⟨hne, hev⟩
  · have h := oneRead hi h0 hcount hk
    rw [Call.handed_read]
    exact ⟨h.data, h.advance, by rw [h.stored]⟩
  · rw [Call.handed_of_ne hne]
    refine ⟨by simp, ?_, stored_isPrefix hi hev⟩
    rw [exec_fPos_of_ne hi (Ne.symm hne)]
    simp

/-! ## 3. Runs -/

/-- Taking a prefix's bytes from a longer list. -/
theorem take_drop_of_isPrefix {α : Type*} {l m : List α} (h : l <+: m) {p n : ℕ}
    (hn : ((l.drop p).take n).length = n) : (l.drop p).take n = (m.drop p).take n := by
  obtain ⟨r, rfl⟩ := h
  rcases Nat.eq_zero_or_pos n with rfl | hpos
  · simp
  · rw [List.length_take, List.length_drop] at hn
    rw [List.drop_append_of_le_length (by omega),
      List.take_append_of_le_length (by rw [List.length_drop]; omega)]

/-- **The run lemma**: a sequence of quiet calls hands over one contiguous segment of what the
ring holds in the end. -/
theorem Reads.segment : ∀ {calls : List Call} {s : DriverState} {leaked : List (ℕ × ℕ)},
    Inv s leaked → 0 ≤ s.fPos f → Reads f s calls →
      s.handed f calls =
          ((s.run calls).content.drop (s.fPos f).toNat).take (s.handed f calls).length ∧
        (s.run calls).fPos f = s.fPos f + (s.handed f calls).length ∧
        s.stored <+: (s.run calls).stored
  | [], s, _, _, _, _ => by
    refine ⟨by simp [DriverState.handed], by simp [DriverState.handed, DriverState.run], ?_⟩
    exact List.prefix_refl _
  | c :: cs, s, leaked, hi, h0, h => by
    obtain ⟨hc, hcs⟩ := h
    obtain ⟨hdata, hpos, hpre⟩ := hc.step hi h0
    obtain ⟨hdata', hpos', hpre'⟩ := Reads.segment (hi.exec c) (by omega) hcs
    have hrun : s.run (c :: cs) = (s.exec c).1.run cs := rfl
    have hhand : s.handed f (c :: cs) = c.handed f s ++ (s.exec c).1.handed f cs := rfl
    rw [hrun, hhand]
    refine ⟨?_, ?_, hpre.trans hpre'⟩
    · have hshift : ((s.exec c).1.fPos f).toNat = (s.fPos f).toNat + (c.handed f s).length := by
        omega
      have hfirst : c.handed f s =
          (((s.exec c).1.run cs).content.drop (s.fPos f).toNat).take (c.handed f s).length :=
        hdata.trans (take_drop_of_isPrefix (content_isPrefix (hpre.trans hpre')) (by rw [← hdata]))
      rw [List.length_append, List.take_add, List.drop_drop, ← hshift, ← hfirst, ← hdata']
    · rw [hpos', hpos, List.length_append]
      push_cast
      rw [add_assoc]

/-- A run of quiet calls can be cut anywhere. -/
theorem Reads.append : ∀ {pre post : List Call} {s : DriverState},
    Reads f s (pre ++ post) ↔ Reads f s pre ∧ Reads f (s.run pre) post
  | [], post, s => by simp [Reads, DriverState.run]
  | c :: pre, post, s => by
    rw [List.cons_append, Reads, Reads.append, Reads, and_assoc]
    rfl

/-- Without commits the stored commands stay as they are. -/
theorem Reads.stored_eq : ∀ {calls : List Call} {s : DriverState} {leaked : List (ℕ × ℕ)},
    Inv s leaked → (∀ pre c post, calls = pre ++ c :: post → c.commits (s.run pre) = false) →
      (s.run calls).stored = s.stored
  | [], _, _, _, _ => rfl
  | c :: cs, s, leaked, hi, h => by
    have hc := stored_of_not_commits hi (h [] c cs rfl)
    have ih := @Reads.stored_eq cs _ _ (hi.exec c) fun pre d post heq =>
      h (c :: pre) d post (by rw [heq, List.cons_append])
    exact ih.trans hc

/-- Each read that gets the mutex and does not return 0 hands over a byte. -/
theorem Reads.length_handed : ∀ {calls : List Call} {s : DriverState} {leaked : List (ℕ × ℕ)},
    Inv s leaked → 0 ≤ s.fPos f → Reads f s calls →
      (∀ pre c post, calls = pre ++ c :: post → c.isRead f → ((s.run pre).exec c).2.ret ≠ 0) →
      calls.countP (Call.isRead f) ≤ (s.handed f calls).length
  | [], _, _, _, _, _, _ => by simp
  | c :: cs, s, leaked, hi, h0, h, hne => by
    obtain ⟨hc, hcs⟩ := h
    obtain ⟨-, hpos, -⟩ := hc.step hi h0
    have ih := Reads.length_handed (hi.exec c) (by omega) hcs fun pre d post heq =>
      hne (c :: pre) d post (by rw [heq, List.cons_append])
    rw [List.countP_cons, DriverState.handed, List.length_append]
    split
    · rename_i hr
      have hret := hne [] c cs rfl hr
      rcases hc with ⟨count, k, rfl, hcount, hk⟩ | ⟨hother, -⟩
      · have h1 := oneRead hi h0 hcount hk
        have hint : k.interrupted = false := by simpa [Call.isRead] using hr
        have hlen : (s.exec (.read f count k)).2.data.length ≠ 0 := fun hz => hret <| by
          show (s.exec (.read f count k)).2.ret = 0
          rw [h1.ret, hint, hz]
          rfl
        rw [Call.handed_read]
        omega
      · exact absurd (Call.filp_of_isRead hr) hother
    · omega

theorem handed_append : ∀ (pre post : List Call) (s : DriverState),
    s.handed f (pre ++ post) = s.handed f pre ++ (s.run pre).handed f post
  | [], _, _ => rfl
  | c :: pre, post, s => by
    rw [List.cons_append, DriverState.handed, handed_append pre post, DriverState.handed,
      List.append_assoc]
    rfl

/-- A reader that has found the end has read everything. -/
theorem Reads.to_end (hi : Inv s leaked) (h0 : 0 ≤ s.fPos f) {pre post : List Call}
    (h : Reads f s (pre ++ post)) (hst : (s.run (pre ++ post)).stored = s.stored)
    (hend : s.content.length ≤ (s.run pre).fPos f) :
    s.handed f (pre ++ post) = s.content.drop (s.fPos f).toNat := by
  obtain ⟨hseg, -, -⟩ := Reads.segment hi h0 h
  obtain ⟨-, hpos, -⟩ := Reads.segment hi h0 (Reads.append.mp h).1
  have hcontent : (s.run (pre ++ post)).content = s.content := congrArg List.flatten hst
  rw [hseg, hcontent, List.take_of_length_le]
  rw [handed_append, List.length_append, List.length_drop]
  omega

/-- **A read that returns 0 ends the data**: with no commits meanwhile the reader has everything
from its position on. -/
theorem Reads.to_end_of_zero (hi : Inv s leaked) (h0 : 0 ≤ s.fPos f) {pre post : List Call}
    {count : ℕ} {k : Kernel} (h : Reads f s (pre ++ .read f count k :: post))
    (hnc : ∀ pre' c post', pre ++ .read f count k :: post = pre' ++ c :: post' →
      c.commits (s.run pre') = false)
    (hint : k.interrupted = false) (hzero : ((s.run pre).exec (.read f count k)).2.ret = 0) :
    s.handed f (pre ++ .read f count k :: post) = s.content.drop (s.fPos f).toNat := by
  obtain ⟨hpre, hq, -⟩ := Reads.append.mp h
  obtain ⟨leaked', hi'⟩ := hi.run pre
  obtain ⟨-, hpos, -⟩ := Reads.segment hi h0 hpre
  have hst : (s.run pre).stored = s.stored :=
    Reads.stored_eq hi fun pre' c post' heq => hnc pre' c (post' ++ .read f count k :: post)
      (by rw [heq, List.append_assoc, List.cons_append])
  have hcontent : (s.run pre).content = s.content := congrArg List.flatten hst
  refine Reads.to_end hi h0 h (Reads.stored_eq hi hnc) ?_
  rcases hq with ⟨count', k', heq, hcount, hk⟩ | ⟨hne, -⟩
  · obtain ⟨-, rfl, rfl⟩ := Call.read.inj heq
    have hnn : 0 ≤ (s.run pre).fPos f := by omega
    have h1 : OneRead _ count k (s.run pre) := oneRead hi' hnn hcount hk
    by_contra hlt
    have hret := h1.ret
    rw [if_neg (by rw [hint]; exact Bool.false_ne_true), hzero] at hret
    have := h1.pos hint (by rw [hcontent]; omega)
    omega
  · exact absurd rfl hne

/-- **Reading a file.**  From any reachable state and position `p ≥ 0`, over any sequence of
reads of the file and calls on other files that make the ring drop nothing:

* a read that gets the mutex returns between 1 and `count` bytes if its position is below the
  size of the ring at the time and 0 otherwise, and advances the position by what it returned;
* all the bytes returned, one after the other, are the segment from `p` on of what the ring
  holds in the end;
* if nothing is committed meanwhile, more reads than there are bytes left include one that
  returns 0, and once a read returned 0 the bytes returned are everything from `p` on. -/
theorem reads_segment (hr : Reachable s) (h0 : 0 ≤ s.fPos f) {calls : List Call}
    (h : Reads f s calls) :
    (∀ pre count k post, calls = pre ++ .read f count k :: post →
      let t := s.run pre
      let r := t.exec (.read f count k)
      (k.interrupted = true → r = (t, ⟨erestartsys, []⟩)) ∧
      (k.interrupted = false →
        (t.fPos f < t.content.length → 1 ≤ r.2.ret ∧ r.2.ret ≤ count) ∧
        (t.content.length ≤ t.fPos f → r.2.ret = 0) ∧
        r.2.ret = r.2.data.length ∧ r.1.fPos f = t.fPos f + r.2.ret)) ∧
    (s.handed f calls =
        ((s.run calls).content.drop (s.fPos f).toNat).take (s.handed f calls).length ∧
      (s.run calls).fPos f = s.fPos f + (s.handed f calls).length) ∧
    ((∀ pre c post, calls = pre ++ c :: post → c.commits (s.run pre) = false) →
      (∀ pre count k post, calls = pre ++ .read f count k :: post → k.interrupted = false →
        ((s.run pre).exec (.read f count k)).2.ret = 0 →
          s.handed f calls = s.content.drop (s.fPos f).toNat) ∧
      (s.content.length - (s.fPos f).toNat < calls.countP (Call.isRead f) →
        ∃ pre c post, calls = pre ++ c :: post ∧ c.isRead f = true ∧
          ((s.run pre).exec c).2.ret = 0)) := by
  obtain ⟨leaked, hi⟩ := hr.inv
  -- at each read of the run: the invariant, the position and the read's own conditions
  have hat : ∀ pre count k post, calls = pre ++ .read f count k :: post →
      OneRead f count k (s.run pre) ∧ Reads f s pre := by
    rintro pre count k post rfl
    obtain ⟨hpre, hq, -⟩ := Reads.append.mp h
    obtain ⟨leaked', hi'⟩ := (hr.run pre).inv
    obtain ⟨-, hpos, -⟩ := Reads.segment hi h0 hpre
    rcases hq with ⟨count', k', heq, hcount, hk⟩ | ⟨hne, -⟩
    · obtain ⟨-, rfl, rfl⟩ := Call.read.inj heq
      exact ⟨oneRead hi' (by omega) hcount hk, hpre⟩
    · exact absurd rfl hne
  refine ⟨?_, ?_, ?_⟩
  · intro pre count k post heq t r
    obtain ⟨h1, -⟩ := hat pre count k post heq
    constructor
    · intro hint
      exact if_pos hint
    · intro hint
      have hret : r.2.ret = (r.2.data.length : ℤ) := by
        have := h1.ret
        rwa [if_neg (by rw [hint]; exact Bool.false_ne_true)] at this
      have hle : r.2.data.length ≤ count := h1.le_count
      refine ⟨?_, ?_, hret, ?_⟩
      · intro hlt
        have hpos : 0 < r.2.data.length := h1.pos hint hlt
        rw [hret]
        omega
      · intro hend
        have hnil : r.2.data = [] := h1.atEnd hend
        rw [hret, hnil]
        rfl
      · rw [hret]
        exact h1.advance
  · obtain ⟨h1, h2, -⟩ := Reads.segment hi h0 h
    exact ⟨h1, h2⟩
  · intro hnc
    have hst := Reads.stored_eq hi hnc
    constructor
    · rintro pre count k post rfl hint hzero
      exact Reads.to_end_of_zero hi h0 h hnc hint hzero
    · intro hlt
      by_contra hno
      have hge := Reads.length_handed hi h0 h fun pre c post heq hc hz =>
        hno ⟨pre, c, post, heq, hc, hz⟩
      obtain ⟨hseg, -, -⟩ := Reads.segment hi h0 h
      have hlen := congrArg List.length hseg
      have hcontent : (s.run calls).content = s.content := congrArg List.flatten hst
      rw [hcontent, List.length_take, List.length_drop] at hlen
      omega

/-- Two reads of a file, a commit by another file between them. -/
theorem reads_segment_two :
    (aesdInitModule.run [.write 0 ⟨[97, 98, 10], by decide⟩ {}]).handed 1
      [.read 1 2 {}, .write 0 ⟨[99, 10], by decide⟩ {}, .read 1 4 {}, .read 1 4 {}] =
        [97, 98, 10, 99, 10] := by
  have h := @reads_segment (aesdInitModule.run [.write 0 ⟨[97, 98, 10], by decide⟩ {}]) 1
    ⟨_, rfl⟩ (by decide)
    [.read 1 2 {}, .write 0 ⟨[99, 10], by decide⟩ {}, .read 1 4 {}, .read 1 4 {}]
    ⟨Or.inl ⟨2, {}, rfl, by decide, rfl⟩, Or.inr ⟨by decide, by decide⟩,
      Or.inl ⟨4, {}, rfl, by decide, rfl⟩, Or.inl ⟨4, {}, rfl, by decide, rfl⟩, trivial⟩
  exact h.2.1.1.trans (by decide)

end Aesd.Driver
