/-
# The device refines a list of grouped writes

What the device is for, without rings, pointers or sizes: the successful writes are grouped in
call order, a group is closed by the first write after which its bytes hold a newline, the last
ten closed groups are the stored commands and the open group is what is pending
(`Segment.Groups`).  `driver_refines_groups` says every run of the driver is exactly that.

The grouping depends on where the stream was cut into writes.  `a` newline `b` is one command
when it is one write, and a command and a pending byte when it is two.  What does not depend on
the cutting is stated in `chunking_of_closings`: moving, adding and removing cuts is invisible
as long as groups close at the same places, which is always so when a newline is the last byte
of the write that carries it.
-/
import Aesd.Driver.Spec

namespace Aesd.Driver

open Segment

/-! ## 1. The reference -/

/-- The bytes of a write call. -/
def Call.written : Call → List UInt8
  | .write _ buf _ => buf.bytes
  | _ => []

/-- The bytes a call adds, judged by what it returned: those of a write that did not return a
negative error. -/
def Call.success : Call → Reply → List (List UInt8)
  | .write _ buf _, reply => if 0 ≤ reply.ret then [buf.bytes] else []
  | _, _ => []

/-- The bytes of the successful writes of a run, in call order. -/
def DriverState.successes (s : DriverState) : List Call → List (List UInt8)
  | [] => []
  | c :: cs => c.success (s.exec c).2 ++ (s.exec c).1.successes cs

/-- A group of writes closes when its bytes hold a newline. -/
def closes (bytes : List UInt8) : Bool := decide (newline ∈ bytes)

/-- The reference state after some writes. -/
abbrev groups (writes : List (List UInt8)) : Groups UInt8 := Groups.of closes writes

theorem successes_concat (c : Call) : ∀ (cs : List Call) (s : DriverState),
    s.successes (cs ++ [c]) = s.successes cs ++ c.success ((s.run cs).exec c).2
  | [], s => by simp [DriverState.successes, DriverState.run]
  | d :: cs, s => by
    have ih := successes_concat c cs (s.exec d).1
    simp only [List.cons_append, DriverState.successes, ih, List.append_assoc]
    rfl

/-! ## 2. The refinement -/

/-- The device holds what the reference holds. -/
structure Refines (s : DriverState) (g : Groups UInt8) : Prop where
  stored : s.stored = g.contents.rtake maxWriteOperationsSupported
  pending : s.pending = g.pending

theorem refines_init : Refines aesdInitModule (groups []) := ⟨rfl, rfl⟩

variable {s : DriverState} {leaked : List (ℕ × ℕ)} {g : Groups UInt8}

/-- A call that adds bytes is a step of the reference. -/
theorem Refines.accepts (hr : Refines s g) (hi : Inv s leaked) {c : Call} {bytes : List UInt8}
    (hc : c.accepts s = some bytes) : Refines (s.exec c).1 (g.add closes bytes) := by
  obtain ⟨hs, hp, -⟩ := exec_of_accepts hi hc
  obtain ⟨hgc, hgp⟩ := g.add_contents closes bytes
  rw [hr.pending] at hs hp
  by_cases hn : newline ∈ g.pending ++ bytes
  · have hcl : closes (g.pending ++ bytes) = true := decide_eq_true hn
    rw [if_pos hcl] at hgc hgp
    rw [if_pos hn] at hs hp
    exact ⟨by rw [hs, hgc, hr.stored, rtake_concat], by rw [hp, hgp]⟩
  · have hcl : ¬ closes (g.pending ++ bytes) = true := by simpa [closes] using hn
    rw [if_neg hcl] at hgc hgp
    rw [if_neg hn] at hs hp
    exact ⟨by rw [hs, hgc, hr.stored], by rw [hp, hgp]⟩

/-- A call that adds no bytes, and is not a faulting write, leaves the contents alone. -/
theorem Refines.not_accepts (hr : Refines s g) (hi : Inv s leaked) {c : Call}
    (hc : c.accepts s = none) (hf : c.copyFaults = false) : Refines (s.exec c).1 g := by
  obtain ⟨hdev, -⟩ := (exec_of_not_accepts hi hc).2 hf
  exact ⟨by rw [DriverState.stored, hdev]; exact hr.stored,
    by rw [DriverState.pending, hdev]; exact hr.pending⟩

/-- A write succeeds, judged by its return value, exactly when the kernel lets it through. -/
theorem success_eq (hi : Inv s leaked) (c : Call) :
    c.success (s.exec c).2 = (c.accepts s).toList := by
  rcases c.write_cases with ⟨f, buf, k, rfl⟩ | hnw
  · have h := aesdWrite_end hi f buf k
    rw [DriverState.exec_write]
    generalize aesdWrite s f buf k = r at h ⊢
    cases h with
    | interrupted h1 => simp [Call.success, Call.accepts, h1, erestartsys]
    | noMemory h1 h2 => simp [Call.success, Call.accepts, h2, enomem]
    | fault h1 h2 h3 => simp [Call.success, Call.accepts, h2, efault]
    | accepted h1 h2 h3 => simp [Call.success, Call.accepts, h1, h2, h3]
  · rw [accepts_of_not_write hnw]
    cases c with
    | write f buf k => exact absurd rfl (hnw f buf k)
    | «open» => rfl
    | read => rfl
    | seek => rfl
    | ioctl => rfl

/-- **The run lemma.**  A run without copy faults keeps the device in step with the reference
over its successful writes. -/
theorem refines_run (calls : List Call) (hf : ∀ c ∈ calls, c.copyFaults = false) :
    Refines (aesdInitModule.run calls) (groups (aesdInitModule.successes calls)) := by
  induction calls using List.reverseRecOn with
  | nil => exact refines_init
  | append_singleton cs c ih =>
    have hr := ih fun d hd => hf d (List.mem_append_left _ hd)
    have hfc := hf c (List.mem_append_right _ List.mem_cons_self)
    obtain ⟨leaked, hi⟩ := inv_run cs
    rw [run_concat, successes_concat, success_eq hi]
    cases hc : c.accepts (aesdInitModule.run cs) with
    | none => simpa using hr.not_accepts hi hc hfc
    | some bytes =>
      have hadd := hr.accepts hi hc
      rw [groups, ← Groups.of_concat] at hadd
      exact hadd

/-- **The device is the list of grouped writes.**  After any run from `aesd_init_module` without
copy faults: the entries read from `out_offs` are the last ten closed groups of successful
writes, each with its size; `dev->entry` is the open group with its size; and the next write
either returns its full count or, when its `krealloc` fails, returns `-ENOMEM` and changes
nothing. -/
theorem driver_refines_groups (calls : List Call) (hf : ∀ c ∈ calls, c.copyFaults = false) :
    let s := aesdInitModule.run calls
    let g := groups (aesdInitModule.successes calls)
    s.dev.buffer.entries.map (fun e => (e.buffptr.bytes, e.size)) =
        (g.contents.rtake maxWriteOperationsSupported).map (fun c => (c, c.length)) ∧
      (s.dev.entry.buffptr.bytes, s.dev.entry.size) = (g.pending, g.pending.length) ∧
      ∀ filp buf k, k.interrupted = false → k.faults = false →
        (s.heap.krealloc s.dev.entry.buffptr (s.dev.entry.size + buf.bytes.length) k.krealloc =
            none → s.exec (.write filp buf k) = (s, ⟨enomem, []⟩)) ∧
        (s.heap.krealloc s.dev.entry.buffptr (s.dev.entry.size + buf.bytes.length) k.krealloc ≠
            none → (s.exec (.write filp buf k)).2.ret = buf.bytes.length) := by
  intro s g
  obtain ⟨leaked, hi⟩ := inv_run calls
  have hr := refines_run calls hf
  refine ⟨?_, ?_, ?_⟩
  · have hst : s.dev.buffer.entries.map AesdBufferEntry.bytes = g.contents.rtake _ := hr.stored
    rw [← hst, List.map_map]
    apply List.map_congr_left
    intro e he
    obtain ⟨hsz, -⟩ := hi.stored e he
    rw [Function.comp_apply, hsz.length_bytes, hsz.bytes_eq]
  · have hp : s.dev.entry.bytes = g.pending := hr.pending
    have hsz : s.dev.entry.Sized := hi.sized
    rw [← hp, hsz.length_bytes, hsz.bytes_eq]
  · intro filp buf k hint hfault
    have h := aesdWrite_end hi filp buf k
    rw [DriverState.exec_write]
    generalize aesdWrite s filp buf k = r at h ⊢
    cases h with
    | interrupted h1 => exact absurd (hint.symm.trans h1) (by simp)
    | noMemory h1 h2 => exact ⟨fun _ => rfl, fun hne => absurd h2 hne⟩
    | fault h1 h2 h3 => exact absurd (hfault.symm.trans h2) (by simp)
    | accepted h1 h2 h3 => exact ⟨fun hnone => absurd (h3.symm.trans hnone) (by simp), fun _ => rfl⟩

/-- Two writes make one command, a third stays pending, and a write that gets no memory changes
nothing. -/
theorem driver_refines_groups_three :
    let s := aesdInitModule.run [.write 0 ⟨[97], by decide⟩ {}, .write 1 ⟨[98, 10], by decide⟩ {},
      .write 0 ⟨[99], by decide⟩ {}]
    s.dev.buffer.entries.map (fun e => (e.buffptr.bytes, e.size)) = [([97, 98, 10], 3)] ∧
      (s.dev.entry.buffptr.bytes, s.dev.entry.size) = ([99], 1) ∧
      s.exec (.write 2 ⟨[10], by decide⟩ { krealloc := .fails }) = (s, ⟨enomem, []⟩) ∧
      (s.exec (.write 2 ⟨[10], by decide⟩ {})).2.ret = 1 := by
  have h := driver_refines_groups [.write 0 ⟨[97], by decide⟩ {},
    .write 1 ⟨[98, 10], by decide⟩ {}, .write 0 ⟨[99], by decide⟩ {}] (by simp [Call.copyFaults])
  refine ⟨h.1.trans (by decide), h.2.1.trans (by decide), ?_, ?_⟩
  · exact (h.2.2 2 ⟨[10], by decide⟩ { krealloc := .fails } rfl rfl).1 rfl
  · exact (h.2.2 2 ⟨[10], by decide⟩ {} rfl rfl).2 (by decide)

/-! ## 3. Cutting one stream in different ways -/

/-- Every call is a write and returns its full count, one after the other from `s`. -/
def AllSucceed (s : DriverState) : List Call → Prop
  | [] => True
  | c :: cs => (∃ f buf k, c = .write f buf k ∧ (s.exec c).2.ret = buf.bytes.length) ∧
      AllSucceed (s.exec c).1 cs

/-- `calls` cuts `stream` into successive successful writes from the initial device state. -/
structure Cuts (calls : List Call) (stream : List UInt8) : Prop where
  succeed : AllSucceed aesdInitModule calls
  eq : (calls.map Call.written).flatten = stream

/-- The lengths of the groups of a cutting, and so the places of the stream where they close. -/
def closings (calls : List Call) : List ℕ := sizes (groups (calls.map Call.written)).contents

/-- No write carries a byte after a newline. -/
def NewlineLast (calls : List Call) : Prop := ∀ c ∈ calls, newline ∉ c.written.dropLast

/-- The successful writes of a cutting are its pieces. -/
theorem AllSucceed.successes_eq : ∀ {calls : List Call} {s : DriverState} {leaked : List (ℕ × ℕ)},
    Inv s leaked → AllSucceed s calls →
      s.successes calls = calls.map Call.written ∧ ∀ c ∈ calls, c.copyFaults = false
  | [], _, _, _, _ => ⟨rfl, by simp⟩
  | c :: cs, s, leaked, hi, h => by
    obtain ⟨⟨f, buf, k, rfl, hret⟩, hcs⟩ := h
    obtain ⟨ih1, ih2⟩ := AllSucceed.successes_eq (hi.exec _) hcs
    have hsucc : (Call.write f buf k).success (s.exec (.write f buf k)).2 = [buf.bytes] := by
      rw [Call.success, hret, if_pos (Int.natCast_nonneg _)]
    have hacc : (Call.write f buf k).accepts s = some buf.bytes := by
      have h1 := success_eq hi (.write f buf k)
      rw [hsucc] at h1
      cases ha : (Call.write f buf k).accepts s with
      | none => rw [ha] at h1; cases h1
      | some b => rw [ha] at h1; simpa [eq_comm] using h1
    refine ⟨by rw [DriverState.successes, hsucc, ih1]; rfl, ?_⟩
    intro d hd
    rcases List.mem_cons.mp hd with rfl | hd
    · show k.faults = false
      cases hk : k.faults with
      | false => rfl
      | true => simp [Call.accepts, hk] at hacc
    · exact ih2 d hd

/-- The device after a cutting is the reference over its pieces. -/
theorem Cuts.refines {calls : List Call} {stream : List UInt8} (h : Cuts calls stream) :
    Refines (aesdInitModule.run calls) (groups (calls.map Call.written)) := by
  obtain ⟨hs, hf⟩ := h.succeed.successes_eq inv_init
  rw [← hs]
  exact refines_run calls hf

/-- **Where every newline ends its write, the groups are the lines of the stream.** -/
theorem Cuts.lines {calls : List Call} {stream : List UInt8} (h : Cuts calls stream)
    (hn : NewlineLast calls) :
    Lines newline stream (groups (calls.map Call.written)).contents
      (groups (calls.map Call.written)).pending := by
  obtain ⟨hclosed, hopen⟩ := Groups.of_maximal closes (calls.map Call.written)
  refine ⟨(Groups.contents_append_pending closes _).trans h.eq, ?_, ?_⟩
  · intro l hl
    obtain ⟨ws, hws, rfl⟩ := List.mem_map.mp hl
    obtain ⟨hcl, hprefix⟩ := hclosed ws hws
    have hne : ws ≠ [] := by
      rintro rfl
      simp [closes] at hcl
    obtain ⟨ws', w, rfl⟩ : ∃ ws' w, ws = ws' ++ [w] :=
      ⟨ws.dropLast, ws.getLast hne, (List.dropLast_append_getLast hne).symm⟩
    -- the writes before the last one hold no newline
    have hbefore : newline ∉ ws'.flatten := by
      by_cases h0 : ws' = []
      · simp [h0]
      · have := hprefix ws'.length (List.length_pos_iff.mpr h0) (by simp)
        rw [List.take_left] at this
        simpa [closes] using this
    have hw : newline ∈ w := by
      have : newline ∈ (ws' ++ [w]).flatten := by simpa [closes] using hcl
      rw [List.flatten_append, List.flatten_singleton, List.mem_append] at this
      exact this.resolve_left hbefore
    -- and the last one holds it at its end
    have hmem : w ∈ calls.map Call.written := by
      rw [← Groups.flatten_of closes (calls.map Call.written)]
      exact List.mem_append_left _ (List.mem_flatten.mpr ⟨_, hws, by simp⟩)
    obtain ⟨c, hc, rfl⟩ := List.mem_map.mp hmem
    have hcn := hn c hc
    have hwne : c.written ≠ [] := List.ne_nil_of_mem hw
    have hsplit := List.dropLast_append_getLast hwne
    have hlast : c.written.getLast hwne = newline := by
      rw [← hsplit, List.mem_append, List.mem_singleton] at hw
      exact (hw.resolve_left hcn).symm
    refine ⟨ws'.flatten ++ c.written.dropLast, ?_, ?_⟩
    · rw [List.flatten_append, List.flatten_singleton, List.append_assoc, ← hlast, hsplit]
    · rw [List.mem_append]
      exact fun hm => hm.elim hbefore hcn
  · rcases Nat.eq_zero_or_pos (groups (calls.map Call.written)).opened.length with h0 | hpos
    · rw [Groups.pending, List.length_eq_zero_iff.mp h0]
      simp
    · have := hopen _ hpos (le_refl _)
      rw [List.take_length] at this
      exact of_decide_eq_false this

/-- **Cutting one stream into one write or two can store different commands.** -/
theorem chunking_matters : ¬ ∀ (calls calls' : List Call) (stream : List UInt8),
    Cuts calls stream → Cuts calls' stream →
      (aesdInitModule.run calls).stored = (aesdInitModule.run calls').stored ∧
        (aesdInitModule.run calls).pending = (aesdInitModule.run calls').pending := by
  intro h
  have h1 := h [.write 0 ⟨[97, 10, 98], by decide⟩ {}]
    [.write 0 ⟨[97, 10], by decide⟩ {}, .write 0 ⟨[98], by decide⟩ {}] [97, 10, 98]
    ⟨⟨⟨_, _, _, rfl, by decide⟩, trivial⟩, rfl⟩
    ⟨⟨⟨_, _, _, rfl, by decide⟩, ⟨_, _, _, rfl, by decide⟩, trivial⟩, rfl⟩
  exact absurd h1.1 (by decide)

/-- **What does not depend on the cutting.**  Two ways of cutting one stream into successful
writes store the same commands and leave the same bytes pending whenever their groups close at
the same places of the stream.  That is so whenever no write carries a byte after a newline, and
then every stored command is one newline-terminated line. -/
theorem chunking_of_closings {calls calls' : List Call} {stream : List UInt8}
    (h : Cuts calls stream) (h' : Cuts calls' stream) :
    (closings calls = closings calls' →
      (aesdInitModule.run calls).stored = (aesdInitModule.run calls').stored ∧
        (aesdInitModule.run calls).pending = (aesdInitModule.run calls').pending) ∧
    (NewlineLast calls → NewlineLast calls' → closings calls = closings calls') ∧
    (NewlineLast calls → ∀ c ∈ (aesdInitModule.run calls).stored,
      ∃ body, c = body ++ [newline] ∧ newline ∉ body) := by
  have hr := h.refines
  have hr' := h'.refines
  refine ⟨?_, ?_, ?_⟩
  · intro hcl
    have heq : (groups (calls.map Call.written)).contents.flatten ++
          (groups (calls.map Call.written)).pending =
        (groups (calls'.map Call.written)).contents.flatten ++
          (groups (calls'.map Call.written)).pending := by
      rw [Groups.contents_append_pending, Groups.contents_append_pending, h.eq, h'.eq]
    obtain ⟨hc, hp⟩ := flatten_append_inj hcl heq
    exact ⟨by rw [hr.stored, hr'.stored, hc], by rw [hr.pending, hr'.pending, hp]⟩
  · intro hn hn'
    rw [closings, closings, ((h.lines hn).unique (h'.lines hn')).1]
  · intro hn c hc
    rw [hr.stored] at hc
    exact (h.lines hn).line c (List.mem_of_mem_drop hc)

/-- The line `ab`, whole and in two writes. -/
theorem chunking_of_closings_line :
    (aesdInitModule.run [.write 0 ⟨[97, 98, 10], by decide⟩ {}]).stored =
      (aesdInitModule.run [.write 0 ⟨[97], by decide⟩ {},
        .write 1 ⟨[98, 10], by decide⟩ {}]).stored := by
  have h := @chunking_of_closings [.write 0 ⟨[97, 98, 10], by decide⟩ {}]
    [.write 0 ⟨[97], by decide⟩ {}, .write 1 ⟨[98, 10], by decide⟩ {}] [97, 98, 10]
    ⟨⟨⟨_, _, _, rfl, by decide⟩, trivial⟩, rfl⟩
    ⟨⟨⟨_, _, _, rfl, by decide⟩, ⟨_, _, _, rfl, by decide⟩, trivial⟩, rfl⟩
  exact (h.1 (h.2.1 (by simp [NewlineLast, Call.written, newline])
    (by simp [NewlineLast, Call.written, newline]))).1

end Aesd.Driver
