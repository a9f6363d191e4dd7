/-
# What `receive_data` reports

`receive_data` should return -1 exactly if a call it made reported a failure, and 0 exactly if its
loop ended as it should and, without a seek, the file was rewound (`Reports`).

Behind the loop it looks at `bytes_received` whichever way the loop ended.  If `active` is cleared
before the first test, no `recv` was made and the variable was never assigned: its value decides
whether the thread rewinds or gives up, and if it happens to be -1 it reports a failure that did
not happen.  This is the only way to get there unassigned, so `receive_data` reports what it should
exactly if the first test of `active` is passed or not made (`reports_iff`).
-/
import Aesd.Server.Outcomes

namespace Aesd.Server

open MachineInt CString Aesd.Driver Transition

/-! ## 1. Failures, ends and results -/

/-- The call reports a failure. -/
def Event.failed (e : Event) : Bool :=
  match e.1 with
  | .malloc _ | .realloc _ _ => e.2.ptr.isNone
  | .open | .recv _ _ _ | .write _ _ | .lseek | .read _ _ | .send _ _ => e.2.val = -1
  | .ioctl _ => e.2.val < 0
  | _ => false

/-- The loop ends by the flag, by the end of the stream, or by a handled packet. -/
def endsLoop (ue : Conn × Event) : Bool :=
  match ue.1.pc with
  | .whileActive _ | .recvCall _ => ue.2.2.val = 0
  | .seekUnlock _ | .writeUnlock _ => true
  | _ => false

/-- A seek was handled. -/
def handlesSeek (ue : Conn × Event) : Bool :=
  match ue.1.pc with
  | .seekUnlock _ => true
  | _ => false

/-- The file was rewound. -/
def rewinds (ue : Conn × Event) : Bool :=
  match ue.1.pc with
  | .lseek _ => ue.2.2.val ≠ -1
  | _ => false

/-- A call of the run reported a failure. -/
def Failed (h : History) : Prop := h.any (fun ue => ue.2.failed) = true

/-- The loop ended as it should and, without a seek, the file was rewound. -/
def Completed (h : History) : Prop :=
  h.any endsLoop = true ∧ (h.any handlesSeek = true ∨ h.any rewinds = true)

/-- The run is one of `receive_data`, which has just returned `ret` to `client_handler`. -/
structure Returns (h : History) (c : Conn) (ret : ℤ) : Prop where
  inside : ∀ ue ∈ h, ue.1.pc.receiving = true
  result : (c.pc = .closeFile ∧ ret = -1) ∨ (c.pc = .sendMalloc ∧ ret = 0)

/-- **What a result should say.** -/
structure Reports (stream : List UInt8) (h : History) (ret : ℤ) : Prop where
  failed : ret = -1 ↔ Failed h
  completed : ret = 0 ↔ Completed h
  /-- It does not depend on the value of `bytes_received` before that is assigned. -/
  assigned : ∀ junk', ∃ h' c', Run Conn.Call (Conn.start junk' stream) h' c' ∧
    h'.map Prod.snd = h.map Prod.snd ∧ Returns h' c' ret

/-- `active` was set when it was tested first, if it was. -/
def FirstTest (h : History) : Prop := ∀ ue, h[1]? = some ue → ue.2.2.val ≠ 0

theorem FirstTest.of_concat {h : History} {ue : Conn × Event} (hf : FirstTest (h ++ [ue])) :
    FirstTest h := by
  intro ue' heq
  refine hf ue' ?_
  rw [List.getElem?_append_left (List.getElem?_eq_some_iff.mp heq).1, heq]

theorem FirstTest.last {h : History} {ue : Conn × Event} (hf : FirstTest (h ++ [ue]))
    (hlen : h.length = 1) : ue.2.2.val ≠ 0 := by
  refine hf ue ?_
  rw [← hlen, List.getElem?_concat_length]

/-! ## 2. The invariant -/

/-- Nothing failed, and nothing ended the loop. -/
structure Clean (h : History) : Prop where
  failed : ¬ Failed h
  ended : h.any endsLoop = false
  sought : h.any handlesSeek = false
  rewound : h.any rewinds = false

/-- **The invariant of `receive_data`** for its result. -/
def Report (h : History) : Pc → Prop
  | .openFile _ => False
  | .recvMalloc _ => h = []
  | .whileActive r => Clean h ∧ (h.length = 1 ∨ 0 < r.bytesReceived)
  | .recvCall _ => Clean h
  | .seekLock r _ | .seekIoctl r _ | .seekUnlock r | .writeLock r | .writeCall r | .writeUnlock r
  | .realloc r => Clean h ∧ 0 < r.bytesReceived
  | .seekFailUnlock _ | .writeFailUnlock _ => Failed h ∧ ¬ Completed h
  | .lseek _ => ¬ Failed h ∧ h.any endsLoop = true ∧ h.any handlesSeek = false ∧
    h.any rewinds = false
  | .recvFree _ ret => (ret = -1 ∧ Failed h ∧ ¬ Completed h) ∨ (ret = 0 ∧ ¬ Failed h ∧ Completed h)
  | .closeFile => Failed h ∧ ¬ Completed h
  | .sendMalloc => ¬ Failed h ∧ Completed h
  | _ => True

section Step

variable {h : History} {ue : Conn × Event}

theorem failed_concat : Failed (h ++ [ue]) ↔ Failed h ∨ ue.2.failed = true := by
  simp [Failed]

theorem any_concat {f : Conn × Event → Bool} :
    (h ++ [ue]).any f = (h.any f || f ue) := by
  simp

theorem not_failed_concat (hf : ¬ Failed h) (h1 : ue.2.failed = false) : ¬ Failed (h ++ [ue]) := by
  rw [failed_concat, h1]
  exact fun hor => hor.elim hf Bool.false_ne_true

theorem any_concat_false {f : Conn × Event → Bool} (hh : h.any f = false) (hue : f ue = false) :
    (h ++ [ue]).any f = false := by
  rw [any_concat, hh, hue]
  rfl

/-- A call that neither fails nor ends the loop. -/
theorem Clean.concat (hc : Clean h) (h1 : ue.2.failed = false) (h2 : endsLoop ue = false)
    (h3 : handlesSeek ue = false) (h4 : rewinds ue = false) : Clean (h ++ [ue]) where
  failed := not_failed_concat hc.failed h1
  ended := any_concat_false hc.ended h2
  sought := any_concat_false hc.sought h3
  rewound := any_concat_false hc.rewound h4

/-- A call that fails. -/
theorem Clean.fail (hc : Clean h) (h1 : ue.2.failed = true) (h3 : handlesSeek ue = false)
    (h4 : rewinds ue = false) : Failed (h ++ [ue]) ∧ ¬ Completed (h ++ [ue]) := by
  refine ⟨failed_concat.mpr (Or.inr h1), ?_⟩
  rintro ⟨-, hs | hs⟩
  · exact Bool.false_ne_true ((any_concat_false hc.sought h3).symm.trans hs)
  · exact Bool.false_ne_true ((any_concat_false hc.rewound h4).symm.trans hs)

/-- A call that is none of these changes nothing. -/
theorem failed_completed_concat (h1 : ue.2.failed = false) (h2 : endsLoop ue = false)
    (h3 : handlesSeek ue = false) (h4 : rewinds ue = false) :
    (Failed (h ++ [ue]) ↔ Failed h) ∧ (Completed (h ++ [ue]) ↔ Completed h) := by
  simp [Failed, Completed, h1, h2, h3, h4]

/-- What has failed has failed. -/
theorem failure_concat (hfailure : Failed h ∧ ¬ Completed h) (h1 : ue.2.failed = false)
    (h2 : endsLoop ue = false) (h3 : handlesSeek ue = false) (h4 : rewinds ue = false) :
    Failed (h ++ [ue]) ∧ ¬ Completed (h ++ [ue]) := by
  obtain ⟨hf, hc⟩ := failed_completed_concat h1 h2 h3 h4
  exact ⟨hf.mpr hfailure.1, fun hcompleted => hfailure.2 (hc.mp hcompleted)⟩

/-- The loop ends and the file is still to be rewound. -/
theorem Clean.report_lseek (hc : Clean h) {r : Receiving} (h1 : ue.2.failed = false)
    (h2 : endsLoop ue = true) (h3 : handlesSeek ue = false) (h4 : rewinds ue = false) :
    Report (h ++ [ue]) (.lseek r) := by
  refine ⟨not_failed_concat hc.failed h1, ?_, any_concat_false hc.sought h3,
    any_concat_false hc.rewound h4⟩
  rw [any_concat, h2, Bool.or_true]

/-- Behind the loop, without a seek. -/
theorem Receiving.finish_eq {r : Receiving} (hs : r.ioctlSeektoReceived = false) :
    r.finish = if r.bytesReceived = -1 then .recvFree r.buf (-1) else .lseek r := by
  rw [Receiving.finish, if_neg (show ¬ r.ioctlSeektoReceived = true by rw [hs]; decide)]

theorem report_received {r : Receiving} {ret : Ret} (hc : Clean h) (hpos : 0 < ret.val) :
    Report h (r.received ret) := by
  unfold Receiving.received
  dsimp only
  split
  · split
    · exact ⟨hc, hpos⟩
    · exact ⟨hc, hpos⟩
  · split
    · exact ⟨hc, hpos⟩
    · exact ⟨hc, Or.inr hpos⟩

theorem report_whileUnwritten {r : Receiving} (hc : Clean h) (hpos : 0 < r.bytesReceived) :
    Report h r.whileUnwritten := by
  unfold Receiving.whileUnwritten
  split
  · exact ⟨hc, hpos⟩
  · exact ⟨hc, hpos⟩

/-- **The step lemma**, if `active` is set at the first test. -/
theorem Report.step {c c' : Conn} {e : Event} {got written : List UInt8} {seeks : List AesdSeekto}
    {broke : Prop} (hrep : Report h c.pc) (hcourse : Course got written seeks broke c.pc)
    (hs : c.Call e c') (hin : c.pc.receiving = true) (hfirst : h.length = 1 → e.2.val ≠ 0) :
    Report (h ++ [(c, e)]) c'.pc := by
  obtain ⟨op, ret⟩ := e
  obtain ⟨hop, hans, -, -, -, hpc⟩ := hs
  obtain ⟨pc, inbox, outbox⟩ := c
  simp only at hop hans hpc hfirst hrep hcourse hin ⊢
  rw [hpc]
  cases pc with
  | openFile junk => exact hrep.elim
  | recvMalloc junk =>
    obtain rfl := Option.some.inj hop
    obtain rfl := hrep
    have hnil : Clean [] := ⟨Bool.false_ne_true, rfl, rfl, rfl⟩
    rw [Pc.resume]
    cases hp : ret.ptr with
    | none => exact hnil.fail (by simp [Event.failed, hp]) rfl rfl
    | some buf => exact ⟨hnil.concat (by simp [Event.failed, hp]) rfl rfl rfl, Or.inl rfl⟩
  | whileActive r =>
    obtain rfl := Option.some.inj hop
    obtain ⟨hc, hassigned⟩ := hrep
    obtain ⟨⟨k, hg⟩, -, -⟩ := hcourse
    rw [Pc.resume]
    split
    · rename_i hactive
      exact hc.concat rfl (decide_eq_false hactive) rfl rfl
    · rename_i hcleared
      rw [not_not] at hcleared
      have hpos : 0 < r.bytesReceived := by
        rcases hassigned with hlen | hpos
        · exact absurd hcleared (hfirst hlen)
        · exact hpos
      rw [Receiving.finish_eq hg.seekto, if_neg (by omega)]
      exact hc.report_lseek rfl (decide_eq_true hcleared) rfl rfl
  | recvCall r =>
    obtain rfl := Option.some.inj hop
    obtain ⟨⟨k, hg⟩, -, -⟩ := hcourse
    rw [Pc.resume]
    split
    · rename_i hpos
      have hne : ¬ ret.val = -1 := by omega
      have hne0 : ¬ ret.val = 0 := by omega
      exact report_received
        (Clean.concat hrep (decide_eq_false hne) (decide_eq_false hne0) rfl rfl) hpos
    · rename_i hneg
      rw [Receiving.finish_eq (r := { r with bytesReceived := ret.val }) hg.seekto]
      split
      · rename_i hfail
        exact Or.inl ⟨rfl, Clean.fail hrep (decide_eq_true hfail) rfl rfl⟩
      · rename_i hne
        have hzero : ret.val = 0 := by
          rcases hans with ⟨hfail, -⟩ | ⟨hval, -⟩
          · exact absurd hfail hne
          · omega
        exact Clean.report_lseek hrep (decide_eq_false hne) (decide_eq_true hzero) rfl rfl
  | seekLock r seekto =>
    obtain rfl := Option.some.inj hop
    exact ⟨hrep.1.concat rfl rfl rfl rfl, hrep.2⟩
  | seekIoctl r seekto =>
    obtain rfl := Option.some.inj hop
    rw [Pc.resume]
    split
    · rename_i hneg
      exact hrep.1.fail (decide_eq_true hneg) rfl rfl
    · rename_i hge
      exact ⟨hrep.1.concat (decide_eq_false hge) rfl rfl rfl, hrep.2⟩
  | seekUnlock r =>
    obtain rfl := Option.some.inj hop
    obtain ⟨hf, -⟩ := hcourse
    rw [hf.resume_seekUnlock]
    refine Or.inr ⟨rfl, not_failed_concat hrep.1.failed rfl, ?_, Or.inl ?_⟩
    · exact any_concat.trans (Bool.or_true _)
    · exact any_concat.trans (Bool.or_true _)
  | writeLock r =>
    obtain rfl := Option.some.inj hop
    exact report_whileUnwritten (hrep.1.concat rfl rfl rfl rfl) hrep.2
  | writeCall r =>
    obtain rfl := Option.some.inj hop
    rw [Pc.resume]
    split
    · rename_i hfail
      exact hrep.1.fail (decide_eq_true hfail) rfl rfl
    · rename_i hne
      exact report_whileUnwritten (hrep.1.concat (decide_eq_false hne) rfl rfl rfl) hrep.2
  | writeUnlock r =>
    obtain rfl := Option.some.inj hop
    obtain ⟨hf, -⟩ := hcourse
    rw [hf.resume_writeUnlock]
    exact hrep.1.report_lseek rfl rfl rfl rfl
  | realloc r =>
    obtain rfl := Option.some.inj hop
    rw [Pc.resume]
    cases hp : ret.ptr with
    | none => exact Or.inl ⟨rfl, hrep.1.fail (by simp [Event.failed, hp]) rfl rfl⟩
    | some temp =>
      exact ⟨hrep.1.concat (by simp [Event.failed, hp]) rfl rfl rfl, Or.inr hrep.2⟩
  | seekFailUnlock r | writeFailUnlock r =>
    obtain rfl := Option.some.inj hop
    exact Or.inl ⟨rfl, failure_concat hrep rfl rfl rfl rfl⟩
  | lseek r =>
    obtain rfl := Option.some.inj hop
    obtain ⟨hnf, hended, hns, hnr⟩ := hrep
    rw [Pc.resume]
    split
    · rename_i hfail
      refine Or.inl ⟨rfl, failed_concat.mpr (Or.inr (decide_eq_true hfail)), ?_⟩
      rintro ⟨-, hsought | hrewound⟩
      · exact Bool.false_ne_true ((any_concat_false hns rfl).symm.trans hsought)
      · rw [any_concat, hnr] at hrewound
        exact absurd hfail (of_decide_eq_true hrewound)
    · rename_i hne
      refine Or.inr ⟨rfl, not_failed_concat hnf (decide_eq_false hne), ?_, Or.inr ?_⟩
      · rw [any_concat, hended]
        rfl
      · rw [any_concat, hnr]
        exact decide_eq_true hne
  | recvFree buf r =>
    obtain rfl := Option.some.inj hop
    rcases hrep with ⟨rfl, hfailure⟩ | ⟨rfl, hnf, hcompleted⟩
    · exact failure_concat hfailure rfl rfl rfl rfl
    · refine ⟨not_failed_concat hnf rfl, ?_⟩
      exact (failed_completed_concat rfl rfl rfl rfl).2.mpr hcompleted
  | _ => exact absurd hin (by simp [Pc.receiving])

end Step

variable {junk : ℤ} {stream : List UInt8} {h : History} {c : Conn} {ret : ℤ}

/-- **The run lemma**, if `active` is set at the first test. -/
theorem report_run (hr : Run Conn.Call (Conn.start junk stream) h c)
    (hin : ∀ ue ∈ h, ue.1.pc.receiving = true) (hfirst : FirstTest h) : Report h c.pc := by
  induction hr with
  | nil => rfl
  | concat hr hs ih =>
    have hrep := ih (fun ue hm => hin ue (List.mem_append_left _ hm)) hfirst.of_concat
    exact hrep.step (course_run hr).1 hs (hin _ (List.mem_append_right _ List.mem_cons_self))
      hfirst.last

/-! ## 3. Runs that differ in the unassigned variable -/

/-- Two points of runs of length `n` that made the same calls, with different values in
`bytes_received` until that is assigned. -/
inductive Twin : ℕ → Pc → Pc → Prop
  | malloc (junk junk' : ℤ) : Twin 0 (.recvMalloc junk) (.recvMalloc junk')
  | test (r : Receiving) (junk' : ℤ) :
      Twin 1 (.whileActive r) (.whileActive { r with bytesReceived := junk' })
  | recv (r : Receiving) (junk' : ℤ) :
      Twin 2 (.recvCall r) (.recvCall { r with bytesReceived := junk' })
  | same (n : ℕ) (pc : Pc) : Twin n pc pc

namespace Twin

variable {n : ℕ} {pc pc' : Pc}

theorem op_eq (h : Twin n pc pc') : pc'.op = pc.op := by
  cases h with
  | malloc | test | recv | same => rfl

theorem receiving_eq (h : Twin n pc pc') : pc'.receiving = pc.receiving := by
  cases h with
  | malloc | test | recv | same => rfl

/-- **The same answer leads to twins**, unless the flag is found cleared at the first test. -/
theorem resume (h : Twin n pc pc') {ret : Ret} (hfirst : n = 1 → ret.val ≠ 0) :
    Twin (n + 1) (pc.resume ret) (pc'.resume ret) := by
  cases h with
  | malloc junk junk' =>
    rw [Pc.resume, Pc.resume]
    cases ret.ptr with
    | none => exact same 1 _
    | some buf => exact test _ junk'
  | test r junk' =>
    rw [Pc.resume, Pc.resume, if_pos (hfirst rfl), if_pos (hfirst rfl)]
    exact recv r junk'
  | recv r junk' => exact same 3 _
  | same => exact same _ _

end Twin

/-- **A run for every value of the unassigned variable.** -/
theorem exists_twin (hr : Run Conn.Call (Conn.start junk stream) h c) (hfirst : FirstTest h)
    (junk' : ℤ) :
    ∃ h' c', Run Conn.Call (Conn.start junk' stream) h' c' ∧ h'.map Prod.snd = h.map Prod.snd ∧
      (h'.map fun ue => ue.1.pc.receiving) = h.map (fun ue => ue.1.pc.receiving) ∧
      Twin h.length c.pc c'.pc ∧ c'.inbox = c.inbox ∧ c'.outbox = c.outbox := by
  induction hr with
  | nil => exact ⟨[], _, Run.nil, rfl, rfl, Twin.malloc junk junk', rfl, rfl⟩
  | @concat h s t e hr hs ih =>
    obtain ⟨h', s', hr', hev, hrec, htwin, hin, hout⟩ := ih hfirst.of_concat
    have hs' : s'.Call e ⟨s'.pc.resume e.2, t.inbox, t.outbox⟩ := by
      refine ⟨htwin.op_eq.trans hs.op, hs.answers, hin.trans hs.inbox, ?_, ?_, rfl⟩
      · exact fun hop hval => hin.trans (hs.endOfStream hop hval)
      · rw [hout]
        exact hs.outbox
    refine ⟨h' ++ [(s', e)], _, hr'.concat hs', ?_, ?_, ?_, rfl, rfl⟩
    · rw [List.map_append, List.map_append, hev]
      rfl
    · rw [List.map_append, List.map_append, hrec]
      exact congrArg (List.map _ h ++ [·]) htwin.receiving_eq
    · rw [List.length_append, List.length_singleton, hs.pc]
      exact htwin.resume hfirst.last

/-- Twins return the same. -/
theorem Returns.twin (hret : Returns h c ret) {h' : History} {c' : Conn} {n : ℕ}
    (hrec : (h'.map fun ue => ue.1.pc.receiving) = h.map (fun ue => ue.1.pc.receiving))
    (htwin : Twin n c.pc c'.pc) : Returns h' c' ret := by
  constructor
  · intro ue hm
    have hmem : ue.1.pc.receiving ∈ h'.map fun ue => ue.1.pc.receiving := List.mem_map_of_mem hm
    rw [hrec] at hmem
    obtain ⟨ue', hm', heq⟩ := List.mem_map.mp hmem
    rw [← heq]
    exact hret.inside ue' hm'
  · rcases hret.result with ⟨hpc, rfl⟩ | ⟨hpc, rfl⟩
    · rw [hpc] at htwin
      generalize c'.pc = pc' at htwin ⊢
      cases htwin with
      | same => exact Or.inl ⟨rfl, rfl⟩
    · rw [hpc] at htwin
      generalize c'.pc = pc' at htwin ⊢
      cases htwin with
      | same => exact Or.inr ⟨rfl, rfl⟩

/-! ## 4. The flag cleared at the first test -/

/-- **The unassigned variable reports a failure**: with -1 in it, a `receive_data` that finds the
flag cleared at once returns -1 although nothing failed. -/
theorem failure_of_cleared (hr : Run Conn.Call (Conn.start (-1) stream) h c)
    (hret : Returns h c ret) (hfirst : ¬ FirstTest h) : ret = -1 ∧ ¬ Failed h := by
  obtain ⟨ue, hue, hzero⟩ : ∃ ue, h[1]? = some ue ∧ ue.2.2.val = 0 := by
    by_contra hno
    exact hfirst fun ue hue hzero => hno ⟨ue, hue, hzero⟩
  rcases h with _ | ⟨⟨u₀, e₀⟩, _ | ⟨⟨u₁, e₁⟩, h⟩⟩
  · cases hue
  · cases hue
  obtain rfl := Option.some.inj hue
  obtain ⟨rfl, v, hs₀, hr⟩ := hr.uncons
  obtain ⟨rfl, w, hs₁, hr⟩ := hr.uncons
  have hinside := hret.inside
  have hin₁ := hinside (u₁, e₁) (by simp)
  have hpc₁ := hs₀.pc
  have hop₀ := hs₀.op
  rw [Pc.resume] at hpc₁
  cases hp : e₀.2.ptr with
  | none =>
    -- `malloc` failed, and nothing is tested
    simp only [hp] at hpc₁
    rw [hpc₁] at hin₁
    cases hin₁
  | some buf =>
    simp only [hp] at hpc₁
    have hop₁ := hs₁.op
    have hpc₂ := hs₁.pc
    rw [hpc₁] at hop₁ hpc₂
    rw [Pc.resume, if_neg (not_not.mpr hzero), Receiving.finish, if_pos rfl] at hpc₂
    rcases h with _ | ⟨⟨u₂, e₂⟩, h⟩
    · obtain rfl := hr.eq_of_nil
      rcases hret.result with ⟨hpc, -⟩ | ⟨hpc, -⟩
      · cases hpc₂.symm.trans hpc
      · cases hpc₂.symm.trans hpc
    obtain ⟨rfl, x, hs₂, hr⟩ := hr.uncons
    have hop₂ := hs₂.op
    have hpc₃ := hs₂.pc
    rw [hpc₂] at hop₂ hpc₃
    rcases h with _ | ⟨⟨u₃, e₃⟩, h⟩
    · obtain rfl := hr.eq_of_nil
      refine ⟨?_, ?_⟩
      · rcases hret.result with ⟨-, hret⟩ | ⟨hpc, -⟩
        · exact hret
        · cases hpc₃.symm.trans hpc
      · simp [Failed, Event.failed, ← Option.some.inj hop₀, ← Option.some.inj hop₁,
          ← Option.some.inj hop₂, hp]
    · obtain ⟨rfl, -⟩ := hr.uncons
      have hin₃ := hinside (u₃, e₃) (by simp)
      rw [hpc₃] at hin₃
      cases hin₃

theorem failed_congr {h' : History} (heq : h'.map Prod.snd = h.map Prod.snd) :
    Failed h' ↔ Failed h := by
  have hany : ∀ h : History, h.any (fun ue => ue.2.failed) = (h.map Prod.snd).any Event.failed :=
    fun h => by rw [List.any_map]; rfl
  rw [Failed, Failed, hany, hany, heq]

theorem firstTest_congr {h' : History} (heq : h'.map Prod.snd = h.map Prod.snd) :
    FirstTest h' ↔ FirstTest h := by
  have hget : ∀ h : History, FirstTest h ↔ ∀ e, (h.map Prod.snd)[1]? = some e → e.2.val ≠ 0 := by
    intro h
    rw [List.getElem?_map]
    constructor
    · intro hf e he
      obtain ⟨ue, hue, rfl⟩ := Option.map_eq_some_iff.mp he
      exact hf ue hue
    · intro hf ue hue
      exact hf ue.2 (by rw [hue]; rfl)
  rw [hget, hget, heq]

/-- **When `receive_data` reports what it should.**  For every run of `receive_data`, whatever its
calls answered, whenever `active` was cleared and whatever `bytes_received` held at first: the
result is -1 exactly if a call reported a failure, it is 0 exactly if the loop ended as it should
and the file was rewound or a seek handled, and it is the same for every value of the unassigned
variable, if and only if `active` was not found cleared by its first test. -/
theorem reports_iff (hr : Run Conn.Call (Conn.start junk stream) h c) (hret : Returns h c ret) :
    Reports stream h ret ↔ FirstTest h := by
  constructor
  · intro hrep
    by_contra hfirst
    obtain ⟨h', c', hr', hev, hret'⟩ := hrep.assigned (-1)
    have hfirst' : ¬ FirstTest h' := fun hf => hfirst ((firstTest_congr hev).mp hf)
    obtain ⟨hminus, hnf⟩ := failure_of_cleared hr' hret' hfirst'
    exact hnf ((failed_congr hev).mpr (hrep.failed.mp hminus))
  · intro hfirst
    have hrep := report_run hr hret.inside hfirst
    have htwins : ∀ junk', ∃ h' c', Run Conn.Call (Conn.start junk' stream) h' c' ∧
        h'.map Prod.snd = h.map Prod.snd ∧ Returns h' c' ret := by
      intro junk'
      obtain ⟨h', c', hr', hev, hrec, htwin, -, -⟩ := exists_twin hr hfirst junk'
      exact ⟨h', c', hr', hev, hret.twin hrec htwin⟩
    rcases hret.result with ⟨hpc, rfl⟩ | ⟨hpc, rfl⟩
    · rw [hpc] at hrep
      exact ⟨iff_of_true rfl hrep.1, iff_of_false (by decide) hrep.2, htwins⟩
    · rw [hpc] at hrep
      exact ⟨iff_of_false (by decide) hrep.1, iff_of_true rfl hrep.2, htwins⟩

/-- A line is received and its `write` fails. -/
def brokenChoices : List Ret :=
  [{ ptr := some 0 }, { val := 1 }, { val := 2, data := [97, 10] }, {}, { val := -1 }, {}, {}]

/-- -1 is returned, and rightly. -/
theorem reports_iff_broken : ∃ h c, Run Conn.Call (Conn.start 0 [97, 10]) h c ∧
    received h = [97, 10] ∧ Returns h c (-1) ∧ Reports [97, 10] h (-1) := by
  have hr := Run.of_played Conn.call_of_answer (Conn.start 0 [97, 10]) brokenChoices (by decide)
  have hret : Returns (played Conn.answer (Conn.start 0 [97, 10]) brokenChoices).1
      (played Conn.answer (Conn.start 0 [97, 10]) brokenChoices).2 (-1) :=
    ⟨by decide, Or.inl ⟨by decide, rfl⟩⟩
  refine ⟨_, _, hr, by decide, hret, (reports_iff hr hret).mpr fun ue hue => ?_⟩
  obtain rfl := Option.some.inj hue
  decide

/-- **The flag cleared before the first test, and -1 in the variable**: -1 is returned although no
call failed. -/
theorem cleared_at_once : ¬ ∀ junk stream h c ret, Run Conn.Call (Conn.start junk stream) h c →
    Returns h c ret → Reports stream h ret := by
  intro hall
  have hr := Run.of_played Conn.call_of_answer (Conn.start (-1) [])
    [{ ptr := some 0 }, {}, {}] (by decide)
  have hrep := hall (-1) [] _ _ (-1) hr ⟨by decide, Or.inl ⟨by decide, rfl⟩⟩
  exact absurd (hrep.failed.mp rfl) (by rw [Failed]; decide)

end Aesd.Server
