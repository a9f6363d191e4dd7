/-
# Reading a file while the ring moves on

A command that is stored in a full ring pushes the oldest one out, and `f_pos` of the open files
is not told.  So a reader's position, which counts from the oldest stored byte, counts from
another byte afterwards.

Everything ever stored is one stream; the ring holds its end.  Then each read hands over a piece
of the stream, the pieces come in order and no byte comes twice, and between two reads exactly as
many bytes are left out as the ring pushed out meanwhile (`reads_skip`).  They need not be the
bytes that were pushed out: a reader that has read all there is misses the beginning of what is
stored next (`caught_up_misses`).
-/
import Aesd.Driver.Reading

namespace Aesd.Driver

open MachineInt

/-! ## 1. What is stored and what is pushed out -/

/-- What a call stores in the ring. -/
def Call.closed (s : DriverState) (c : Call) : List UInt8 :=
  if c.commits s then s.pending ++ (c.accepts s).getD [] else []

/-- What a call pushes out of the ring. -/
def Call.dropped (s : DriverState) (c : Call) : List UInt8 :=
  if c.evicts s then s.stored.headD [] else []

/-- What a sequence of calls stores in the ring. -/
def DriverState.closed (s : DriverState) : List Call → List UInt8
  | [] => []
  | c :: cs => c.closed s ++ (s.exec c).1.closed cs

/-- What a sequence of calls pushes out of the ring. -/
def DriverState.dropped (s : DriverState) : List Call → List UInt8
  | [] => []
  | c :: cs => c.dropped s ++ (s.exec c).1.dropped cs

/-- A call that keeps the place of a reader of `f`: a read of `f`, or a call on another file. -/
def Call.Follows (f : ℕ) (c : Call) : Prop := (∃ count k, c = .read f count k) ∨ c.filp ≠ f

variable {s : DriverState} {leaked : List (ℕ × ℕ)} {f : ℕ}

/-- **One call**: the ring gains at its end what is stored and loses at its front what is pushed
out. -/
theorem content_exec (hi : Inv s leaked) (c : Call) :
    s.content ++ c.closed s = c.dropped s ++ (s.exec c).1.content := by
  cases hcommit : c.commits s with
  | false =>
    rw [Call.closed, Call.dropped, Call.evicts, hcommit, DriverState.content, DriverState.content,
      stored_of_not_commits hi hcommit]
    simp
  | true =>
    cases ha : c.accepts s with
    | none => exact absurd hcommit (by simp [Call.commits, ha])
    | some bytes =>
      have hn : newline ∈ s.pending ++ bytes := by simpa [Call.commits, ha] using hcommit
      have hstored := (exec_of_accepts hi ha).1
      rw [if_pos hn] at hstored
      have hclosed : c.closed s = s.pending ++ bytes := by
        rw [Call.closed, hcommit, ha]
        rfl
      have hlen : s.stored.length = s.dev.buffer.count := by
        rw [DriverState.stored, List.length_map, AesdCircularBuffer.length_entries]
      rw [hclosed, DriverState.content, DriverState.content, hstored]
      cases hfull : s.dev.buffer.full with
      | false =>
        have hlt : s.stored.length < maxWriteOperationsSupported := by
          rw [hlen, AesdCircularBuffer.count, hfull]
          exact s.dev.buffer.inOffs.isLt
        rw [Segment.rtake_of_length_le (by rw [List.length_append, List.length_singleton]; omega)]
        simp [Call.dropped, Call.evicts, hfull]
      | true =>
        have hten : s.stored.length = maxWriteOperationsSupported := by
          rw [hlen, AesdCircularBuffer.count, hfull]
          rfl
        rw [Segment.rtake_concat_of_length_eq (by decide) hten]
        have hdropped : c.dropped s = s.stored.headD [] := by
          rw [Call.dropped, Call.evicts, hfull, hcommit]
          rfl
        rw [hdropped]
        cases hst : s.stored with
        | nil => exact absurd (hst ▸ hten) (by decide)
        | cons oldest rest => simp

/-- **A run**: the ring's content and all that is stored are what is pushed out and the content
in the end. -/
theorem content_run : ∀ (calls : List Call) {s : DriverState} {leaked : List (ℕ × ℕ)},
    Inv s leaked → s.content ++ s.closed calls = s.dropped calls ++ (s.run calls).content
  | [], s, _, _ => by simp [DriverState.closed, DriverState.dropped, DriverState.run]
  | c :: cs, s, leaked, hi => by
    have hfirst := content_exec hi c
    have hrest := content_run cs (hi.exec c)
    have hrun : s.run (c :: cs) = (s.exec c).1.run cs := rfl
    rw [DriverState.closed, DriverState.dropped, hrun, ← List.append_assoc, hfirst,
      List.append_assoc, hrest, List.append_assoc]

theorem closed_append : ∀ (pre post : List Call) (s : DriverState),
    s.closed (pre ++ post) = s.closed pre ++ (s.run pre).closed post
  | [], _, _ => rfl
  | c :: pre, post, s => by
    rw [List.cons_append, DriverState.closed, closed_append pre post, DriverState.closed,
      List.append_assoc]
    rfl

theorem dropped_append : ∀ (pre post : List Call) (s : DriverState),
    s.dropped (pre ++ post) = s.dropped pre ++ (s.run pre).dropped post
  | [], _, _ => rfl
  | c :: pre, post, s => by
    rw [List.cons_append, DriverState.dropped, dropped_append pre post, DriverState.dropped,
      List.append_assoc]
    rfl

/-! ## 2. One call of a reader -/

/-- **The step lemma**: a read hands over what is at the reader's position, a call on another
file nothing, and the position moves past what is handed over. -/
theorem Call.Follows.step (hi : Inv s leaked) (h0 : 0 ≤ s.fPos f) {c : Call} (hc : c.Follows f) :
    c.handed f s = (s.content.drop (s.fPos f).toNat).take (c.handed f s).length ∧
      (s.exec c).1.fPos f = s.fPos f + (c.handed f s).length := by
  rcases hc with ⟨count, k, rfl⟩ | hne
  · have hoff := DriverState.charOffset_of_nonneg h0 (hi.positions f).2
    have hlt : s.content.length < 2 ^ 63 := by
      have h1 := hi.total_lt
      have h2 : s.dev.buffer.totalSize = s.content.length := hi.totalSize_eq
      omega
    have h := aesdRead_end hi f count k
    rw [Call.handed_read, DriverState.exec_read]
    generalize aesdRead s f count k = r at h ⊢
    cases h with
    | interrupted => simp
    | atEnd => simp
    | fault => simp
    | @copied n _ _ hle _ _ _ =>
      rw [hoff] at hle ⊢
      have hle' : (s.fPos f).toNat + n ≤ s.content.length := hle
      have hlen : ((s.content.drop (s.fPos f).toNat).take n).length = n := by
        rw [List.length_take, List.length_drop, Nat.min_eq_left]
        exact Nat.le_sub_of_add_le (by rw [Nat.add_comm]; exact hle')
      have hdata : (s.stored.flatten.drop (s.fPos f).toNat).take n =
          (s.content.drop (s.fPos f).toNat).take n := rfl
      dsimp only
      rw [hdata, hlen, DriverState.setPos_fPos_self]
      exact ⟨rfl, wrapS_of_mem (w := 63) (by omega) (by omega)⟩
  · rw [Call.handed_of_ne hne, exec_fPos_of_ne hi (Ne.symm hne)]
    simp

/-- The reader's position after a sequence of calls. -/
theorem follows_fPos : ∀ {calls : List Call} {s : DriverState} {leaked : List (ℕ × ℕ)},
    Inv s leaked → 0 ≤ s.fPos f → (∀ c ∈ calls, c.Follows f) →
      (s.run calls).fPos f = s.fPos f + (s.handed f calls).length
  | [], s, _, _, _, _ => by simp [DriverState.handed, DriverState.run]
  | c :: cs, s, leaked, hi, h0, h => by
    obtain ⟨-, hpos⟩ := (h c List.mem_cons_self).step hi h0
    have hrest := follows_fPos (hi.exec c) (by omega) fun d hd => h d (List.mem_cons_of_mem c hd)
    have hrun : s.run (c :: cs) = (s.exec c).1.run cs := rfl
    have hhand : s.handed f (c :: cs) = c.handed f s ++ (s.exec c).1.handed f cs := rfl
    rw [hrun, hhand, hrest, hpos, List.length_append]
    push_cast
    rw [add_assoc]

/-! ## 3. Runs -/

/-- All that the ring holds or is given in a sequence of calls, in order. -/
def DriverState.stream (s : DriverState) (calls : List Call) : List UInt8 :=
  s.content ++ s.closed calls

/-- At any time of a run the ring holds the end of the stream so far. -/
theorem content_eq_drop (hi : Inv s leaked) (calls : List Call) :
    (s.run calls).content = (s.stream calls).drop (s.dropped calls).length := by
  rw [DriverState.stream, content_run calls hi, List.drop_left]

theorem stream_isPrefix (s : DriverState) (pre post : List Call) :
    s.stream pre <+: s.stream (pre ++ post) := by
  refine ⟨(s.run pre).closed post, ?_⟩
  rw [DriverState.stream, DriverState.stream, closed_append, List.append_assoc]

/-- **What one read hands over**, as a piece of the stream: it starts where the reader was at
first, moved on by what was read and by what was pushed out since. -/
theorem handed_eq_piece (hi : Inv s leaked) (h0 : 0 ≤ s.fPos f) {pre post : List Call} {c : Call}
    (h : ∀ d ∈ pre ++ c :: post, d.Follows f) :
    c.handed f (s.run pre) = ((s.stream (pre ++ c :: post)).drop ((s.fPos f).toNat +
      (s.handed f pre).length + (s.dropped pre).length)).take (c.handed f (s.run pre)).length := by
  obtain ⟨leaked', hi'⟩ := hi.run pre
  have hpos := follows_fPos hi h0 fun d hd => h d (List.mem_append_left _ hd)
  obtain ⟨hdata, -⟩ := (h c (by simp)).step (s := s.run pre) hi' (by omega)
  have hshift : ((s.run pre).fPos f).toNat = (s.fPos f).toNat + (s.handed f pre).length := by omega
  have hplace : ((s.run pre).content.drop ((s.run pre).fPos f).toNat) = (s.stream pre).drop
      ((s.fPos f).toNat + (s.handed f pre).length + (s.dropped pre).length) := by
    rw [content_eq_drop hi, List.drop_drop, hshift, Nat.add_comm]
  rw [hplace] at hdata
  have hlen := congrArg List.length hdata.symm
  exact hdata.trans (take_drop_of_isPrefix (stream_isPrefix s pre (c :: post)) hlen)

/-- **No byte comes twice or out of order**: what a reader gets is the stream from its position on
with bytes left out, and it gets no farther than what it read and what was pushed out allow. -/
theorem handed_sublist (hi : Inv s leaked) (h0 : 0 ≤ s.fPos f) {calls : List Call}
    (h : ∀ c ∈ calls, c.Follows f) :
    (s.handed f calls).Sublist (((s.stream calls).drop (s.fPos f).toNat).take
      ((s.handed f calls).length + (s.dropped calls).length)) := by
  induction calls using List.reverseRecOn with
  | nil => exact List.nil_sublist _
  | append_singleton pre c ih =>
    have hpre := ih fun d hd => h d (List.mem_append_left _ hd)
    have hpiece : c.handed f (s.run pre) = _ := handed_eq_piece hi h0 h
    have hgrow : (s.stream pre).drop (s.fPos f).toNat <+:
        (s.stream (pre ++ [c])).drop (s.fPos f).toNat :=
      (stream_isPrefix s pre [c]).drop _
    have hall : s.handed f (pre ++ [c]) = s.handed f pre ++ c.handed f (s.run pre) := by
      rw [handed_append]
      simp [DriverState.handed]
    have hlost : (s.dropped pre).length ≤ (s.dropped (pre ++ [c])).length := by
      rw [dropped_append, List.length_append]
      exact Nat.le_add_right _ _
    set n := (s.handed f pre).length + (s.dropped pre).length with hn
    have hsplit : (((s.stream (pre ++ [c])).drop (s.fPos f).toNat).take
        (n + (c.handed f (s.run pre)).length)) =
          ((s.stream (pre ++ [c])).drop (s.fPos f).toNat).take n ++ c.handed f (s.run pre) := by
      rw [List.take_add, List.drop_drop, ← Nat.add_assoc, ← hpiece]
    have hboth : (s.handed f pre ++ c.handed f (s.run pre)).Sublist
        (((s.stream (pre ++ [c])).drop (s.fPos f).toNat).take
          (n + (c.handed f (s.run pre)).length)) := by
      rw [hsplit]
      exact (hpre.trans (hgrow.take n).sublist).append (List.Sublist.refl _)
    rw [hall]
    refine hboth.trans (List.take_sublist_take_left ?_)
    rw [List.length_append]
    omega

/-- **A reader that has read all there is** goes on, after a call that pushes bytes out, as many
bytes into what the call stored. -/
theorem caught_up_misses (hi : Inv s leaked) {c : Call} (hc : c.filp ≠ f)
    (hend : s.fPos f = s.content.length) :
    (s.exec c).1.content.drop ((s.exec c).1.fPos f).toNat =
      (c.closed s).drop (c.dropped s).length := by
  have hcontent : (s.exec c).1.content = (s.content ++ c.closed s).drop (c.dropped s).length := by
    rw [content_exec hi c, List.drop_left]
  rw [exec_fPos_of_ne hi (Ne.symm hc), hend, hcontent, List.drop_drop, Int.toNat_natCast,
    Nat.add_comm, List.drop_append, List.drop_of_length_le (Nat.le_add_right _ _),
    Nat.add_sub_cancel_left, List.nil_append]

/-- **Reading while the ring moves on.**  From any reachable state and position `p ≥ 0`, over any
sequence of reads of the file and any calls on other files:

* the ring holds the end of the stream, all but what was pushed out, and the position has moved by
  what was read;
* each read hands over the piece of the stream that starts at `p`, moved on by what was read and by
  what was pushed out before it;
* so all that is read is the stream from `p` on with bytes left out, and it ends at most as far
  after `p` as there were bytes read and pushed out;
* a reader at the end of the ring then misses the beginning of what the next call stores, as many
  bytes as that call pushes out. -/
theorem reads_skip (hr : Reachable s) (h0 : 0 ≤ s.fPos f) {calls : List Call}
    (h : ∀ c ∈ calls, c.Follows f) :
    ((s.run calls).content = (s.stream calls).drop (s.dropped calls).length ∧
      (s.run calls).fPos f = s.fPos f + (s.handed f calls).length) ∧
    (∀ pre c post, calls = pre ++ c :: post →
      c.handed f (s.run pre) = ((s.stream calls).drop ((s.fPos f).toNat + (s.handed f pre).length +
        (s.dropped pre).length)).take (c.handed f (s.run pre)).length) ∧
    (s.handed f calls).Sublist (((s.stream calls).drop (s.fPos f).toNat).take
      ((s.handed f calls).length + (s.dropped calls).length)) ∧
    ∀ c : Call, c.filp ≠ f → (s.run calls).fPos f = (s.run calls).content.length →
      (s.run (calls ++ [c])).content.drop ((s.run (calls ++ [c])).fPos f).toNat =
        (c.closed (s.run calls)).drop (c.dropped (s.run calls)).length := by
  obtain ⟨leaked, hi⟩ := hr.inv
  refine ⟨⟨content_eq_drop hi calls, follows_fPos hi h0 h⟩, ?_, handed_sublist hi h0 h, ?_⟩
  · rintro pre c post rfl
    exact handed_eq_piece hi h0 h
  · intro c hc hend
    obtain ⟨leaked', hi'⟩ := hi.run calls
    rw [run_concat]
    exact caught_up_misses hi' hc hend

/-- A full ring of ten commands of two bytes. -/
def tenStored : DriverState :=
  aesdInitModule.run (List.replicate 10 (.write 0 ⟨[97, newline], by decide⟩ {}))

/-- A reader takes the first command, an eleventh is stored, and the reader goes on. -/
def readsAcross : List Call :=
  [.read 1 2 {}, .write 0 ⟨[98, newline], by decide⟩ {}, .read 1 2 {}]

theorem reads_skip_across :
    ((tenStored.run readsAcross).content =
        (tenStored.stream readsAcross).drop (tenStored.dropped readsAcross).length ∧
      (tenStored.run readsAcross).fPos 1 =
        tenStored.fPos 1 + (tenStored.handed 1 readsAcross).length) ∧
    (∀ pre c post, readsAcross = pre ++ c :: post →
      c.handed 1 (tenStored.run pre) = ((tenStored.stream readsAcross).drop
        ((tenStored.fPos 1).toNat + (tenStored.handed 1 pre).length +
          (tenStored.dropped pre).length)).take (c.handed 1 (tenStored.run pre)).length) ∧
    (tenStored.handed 1 readsAcross).Sublist (((tenStored.stream readsAcross).drop
      (tenStored.fPos 1).toNat).take
        ((tenStored.handed 1 readsAcross).length + (tenStored.dropped readsAcross).length)) ∧
    ∀ c : Call, c.filp ≠ 1 →
      (tenStored.run readsAcross).fPos 1 = (tenStored.run readsAcross).content.length →
        (tenStored.run (readsAcross ++ [c])).content.drop
            ((tenStored.run (readsAcross ++ [c])).fPos 1).toNat =
          (c.closed (tenStored.run readsAcross)).drop
            (c.dropped (tenStored.run readsAcross)).length :=
  reads_skip ⟨_, rfl⟩ (by decide) (by simp [readsAcross, Call.Follows, Call.filp])

end Aesd.Driver
