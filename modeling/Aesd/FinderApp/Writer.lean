/-
# Writing a string to a file

`finder-app/writer.c`: its `main` as a machine, a program point with the locals that are alive there
(`Pc`), the call made at it (`Pc.op`), and the point each result of that call leads to
(`Pc.resume`).

The loop moves a pointer forward and shortens a length by what each `write` took.  The pointer is
kept as its offset in the string; the length is a `size_t` and would wrap.  That it never does, and
that pointer and length always mark the rest of the string, is `Writing.Within`, the invariant all
the results here are read off.
-/
import Aesd.Lib.MachineInt
import Aesd.Lib.Transfer
import Aesd.Systemcalls.Exec

namespace Aesd.FinderApp

open MachineInt Transition Transfer
open Systemcalls (CStr)

/-! ## 1. Calls and results -/

/-- A string in memory: its length is a `size_t`. -/
structure Text extends CStr where
  length_lt : bytes.length < 2 ^ 64
  deriving DecidableEq

def Text.strlen (s : Text) : ℕ := s.bytes.length

inductive Priority
  | err
  | warning
  | debug
  deriving DecidableEq

/-- What a `%s` of a message stands for. -/
inductive Arg
  | str (s : Text)
  | strerror (err : ℤ)
  deriving DecidableEq

inductive OpenFlag
  | wronly
  | creat
  | trunc
  deriving DecidableEq

inductive ModeBit
  | irusr
  | iwusr
  deriving DecidableEq

inductive Op
  /-- `openlog(NULL, 0, LOG_USER)` -/
  | openlog
  | syslog (priority : Priority) (format : String) (args : List Arg)
  | closelog
  | «open» (path : Text) (flags : List OpenFlag) (mode : List ModeBit)
  /-- A `write` of `len` bytes from `buf` on; `buf` is an offset in `str`. -/
  | write (fd : ℤ) (str : Text) (buf : ℤ) (len : ℕ)
  | close (fd : ℤ)
  deriving DecidableEq

/-- What a call returns, and `errno` after it. -/
structure Ret where
  val : ℤ := 0
  errno : ℤ := 0
  deriving DecidableEq

/-- A call and its result. -/
abbrev Event := Op × Ret

def eintr : ℤ := 4

/-- What the system may answer. -/
def Op.Answers : Op → Ret → Prop
  | write _ _ _ len, r => r.val = -1 ∨ (0 ≤ r.val ∧ r.val ≤ len)
  | «open» _ _ _, r => r.val = -1 ∨ 0 ≤ r.val
  | _, _ => True

instance Op.decidableAnswers : (op : Op) → (r : Ret) → Decidable (op.Answers r)
  | write _ _ _ len, r => inferInstanceAs (Decidable (r.val = -1 ∨ (0 ≤ r.val ∧ r.val ≤ len)))
  | «open» _ _ _, r => inferInstanceAs (Decidable (r.val = -1 ∨ 0 ≤ r.val))
  | openlog, _ => isTrue trivial
  | syslog _ _ _, _ => isTrue trivial
  | closelog, _ => isTrue trivial
  | close _, _ => isTrue trivial

/-! ## 2. The program -/

/-- The locals of `main` once the file is open. -/
structure Writing where
  writefile : Text
  writestr : Text
  fd : ℤ
  buf : ℤ
  len : ℕ
  deriving DecidableEq

/-- The points at which `main` makes a call, in the order of the source. -/
inductive Pc
  | openlog (argv : List Text)
  | missingLog
  | openFile (writefile writestr : Text)
  | openFailLog (err : ℤ)
  | writeCall (w : Writing)
  | interruptedLog (w : Writing)
  | writeFailLog (w : Writing) (err : ℤ)
  | failClose (w : Writing)
  | writtenLog (w : Writing)
  | closeFile (w : Writing)
  /-- The `closelog` before `main` returns `status`. -/
  | closelog (status : ℤ)
  | exited (status : ℤ)
  deriving DecidableEq

/-- The call made at a point; none once `main` has returned. -/
def Pc.op : Pc → Option Op
  | openlog _ => some .openlog
  | missingLog => some (.syslog .err "One of the arguments was not specified" [])
  | openFile writefile _ => some (.open writefile [.wronly, .creat, .trunc] [.irusr, .iwusr])
  | openFailLog err => some (.syslog .err "Open function failed: %s\n" [.strerror err])
  | writeCall w => some (.write w.fd w.writestr w.buf w.len)
  | interruptedLog _ =>
    some (.syslog .warning "Write function call interrupted, will try again" [])
  | writeFailLog _ err => some (.syslog .err "Write function failed: %s" [.strerror err])
  | failClose w => some (.close w.fd)
  | writtenLog w => some (.syslog .debug "Writing %s to %s" [.str w.writestr, .str w.writefile])
  | closeFile w => some (.close w.fd)
  | closelog _ => some .closelog
  | exited _ => none

/-- The head of the loop. -/
def Writing.whileLen (w : Writing) : Pc := if 0 < w.len then .writeCall w else .writtenLog w

/-- `len -= (size_t)ret; buf += ret;` -/
def Writing.advance (w : Writing) (ret : ℤ) : Writing :=
  { w with len := wrapU 64 (w.len - wrapU 64 ret), buf := w.buf + ret }

/-- The point `main` goes to when its call returns `ret`. -/
def Pc.resume : Pc → Ret → Pc
  | openlog argv, _ =>
    match argv with
    | _ :: writefile :: writestr :: _ => openFile writefile writestr
    | _ => missingLog
  | missingLog, _ => closelog 1
  | openFile writefile writestr, ret =>
    if ret.val = -1 then openFailLog ret.errno
    else
      Writing.whileLen
        { writefile := writefile, writestr := writestr, fd := ret.val, buf := 0
          len := writestr.strlen }
  | openFailLog _, _ => closelog 1
  | writeCall w, ret =>
    if ret.val = -1 then
      if ret.errno = eintr then interruptedLog w else writeFailLog w ret.errno
    else (w.advance ret.val).whileLen
  | interruptedLog w, _ => w.whileLen
  | writeFailLog w _, _ => failClose w
  | failClose _, _ => closelog 1
  | writtenLog w, _ => closeFile w
  | closeFile _, _ => closelog 0
  | closelog status, _ => exited status
  | exited status, _ => exited status

/-- One call and any answer to it. -/
structure Pc.Step (p : Pc) (e : Event) (p' : Pc) : Prop where
  op : p.op = some e.1
  answers : e.1.Answers e.2
  resume : p' = p.resume e.2

/-- The step a result leads to, if the system may give it. -/
def Pc.next (p : Pc) (ret : Ret) : Option (Event × Pc) :=
  match p.op with
  | none => none
  | some op => if op.Answers ret then some ((op, ret), p.resume ret) else none

theorem Pc.step_of_next (p : Pc) (ret : Ret) (e : Event) (p' : Pc)
    (h : p.next ret = some (e, p')) : p.Step e p' := by
  unfold Pc.next at h
  split at h
  · exact absurd h (by simp)
  · rename_i op hop
    split at h
    · rename_i ha
      simp only [Option.some.injEq, Prod.mk.injEq] at h
      obtain ⟨rfl, rfl⟩ := h
      exact ⟨hop, ha, rfl⟩
    · exact absurd h (by simp)

/-! ## 3. What is written -/

/-- A run of `main`, step by step. -/
abbrev History := List (Pc × Event)

/-- The string is supplied when the file is opened; each `write` offers the bytes it points to. -/
def transferOf : Pc × Event → Option (Transfer.Event UInt8)
  | (.openFile _ writestr, (.open _ _ _, _)) => some (.supply writestr.bytes)
  | (_, (.write _ str buf len, ret)) =>
    some (.request ((str.bytes.drop buf.toNat).take len) (answer ret.val))
  | _ => none

def transfer (h : History) : List (Transfer.Event UInt8) := h.filterMap transferOf

variable {argv : List Text} {sup acc : List UInt8}

/-- Pointer and length mark the rest of the string, and what is before it was accepted. -/
structure Writing.Within (w : Writing) (argv : List Text) (sup acc : List UInt8) : Prop where
  writestr : argv[2]? = some w.writestr
  buf_nonneg : 0 ≤ w.buf
  rest : w.buf + w.len = w.writestr.bytes.length
  partway : Partway [] w.writestr.bytes w.buf.toNat sup acc

/-- All of the third argument was accepted. -/
def Written (argv : List Text) (sup acc : List UInt8) : Prop :=
  ∃ writestr, argv[2]? = some writestr ∧ sup = writestr.bytes ∧ acc = sup

/-- **The invariant of `main`.** -/
def Pc.Progress (argv : List Text) : Pc → List UInt8 → List UInt8 → Prop
  | openlog argv', sup, acc => argv' = argv ∧ sup = [] ∧ acc = []
  | openFile _ writestr, sup, acc => argv[2]? = some writestr ∧ sup = [] ∧ acc = []
  | writeCall w, sup, acc => w.Within argv sup acc ∧ 0 < w.len
  | interruptedLog w, sup, acc => w.Within argv sup acc ∧ 0 < w.len
  | writtenLog w, sup, acc => w.Within argv sup acc ∧ w.len = 0
  | closeFile w, sup, acc => w.Within argv sup acc ∧ w.len = 0
  | closelog status, sup, acc => status = 0 → Written argv sup acc
  | exited status, sup, acc => status = 0 → Written argv sup acc
  | _, _, _ => True

namespace Writing.Within

variable {w : Writing}

/-- The bytes offered are all that is left. -/
theorem offered (h : w.Within argv sup acc) :
    (w.writestr.bytes.drop w.buf.toNat).take w.len = w.writestr.bytes.drop w.buf.toNat := by
  have h1 := h.buf_nonneg
  have h2 := h.rest
  exact List.take_of_length_le (by rw [List.length_drop]; omega)

theorem whileLen (h : w.Within argv sup acc) : w.whileLen.Progress argv sup acc := by
  unfold Writing.whileLen
  split
  · rename_i hpos
    exact ⟨h, hpos⟩
  · rename_i hzero
    exact ⟨h, Nat.eq_zero_of_not_pos hzero⟩

/-- Neither the length nor the cast of a count wraps. -/
theorem len_advance (h : w.Within argv sup acc) {ret : ℤ} (h0 : 0 ≤ ret) (hle : ret ≤ w.len) :
    ((w.advance ret).len : ℤ) = w.len - ret := by
  have hlt := w.writestr.length_lt
  have h1 := h.buf_nonneg
  have h2 := h.rest
  have hcast : wrapU 64 ret = ret.toNat := wrapU_of_lt h0 (by omega)
  unfold advance
  simp only
  rw [hcast, wrapU_of_lt (by omega) (by omega)]
  omega

/-- A `write` that took `ret` bytes: pointer and length mark the rest again. -/
theorem advance (h : w.Within argv sup acc) {ret : ℤ} (h0 : 0 ≤ ret) (hle : ret ≤ w.len) :
    (w.advance ret).Within argv (sup ++ [])
      (acc ++ (Transfer.Event.request (w.writestr.bytes.drop w.buf.toNat)
        (some ret.toNat)).accepted) := by
  have h1 := h.buf_nonneg
  refine ⟨h.writestr, ?_, ?_, ?_⟩
  · exact Int.add_nonneg h1 h0
  · rw [h.len_advance h0 hle]
    show w.buf + ret + (w.len - ret) = w.writestr.bytes.length
    rw [← h.rest]
    omega
  · show Partway [] w.writestr.bytes (w.buf + ret).toNat _ _
    rw [Int.toNat_add h1 h0]
    exact h.partway.accept (some ret.toNat)

/-- With nothing left the string is written. -/
theorem written (h : w.Within argv sup acc) (hlen : w.len = 0) : Written argv sup acc := by
  have h1 := h.buf_nonneg
  have h2 := h.rest
  exact ⟨w.writestr, h.writestr, h.partway.supplied, h.partway.all (by omega)⟩

end Writing.Within

/-- **The step lemma**: every call keeps the invariant, and what it offers is in its place. -/
theorem Pc.Progress.step {p p' : Pc} {e : Event} (h : p.Progress argv sup acc)
    (hs : p.Step e p') : Tracked (p'.Progress argv) sup acc (transferOf (p, e)) := by
  obtain ⟨op, ret⟩ := e
  obtain ⟨hop, hans, hres⟩ := hs
  simp only at hop hans hres
  rw [hres]
  cases p with
  | openlog argv' =>
    obtain rfl := Option.some.inj hop
    obtain ⟨rfl, rfl, rfl⟩ := h
    refine Tracked.silent ?_
    unfold Pc.resume
    dsimp only
    split
    · exact ⟨rfl, rfl, rfl⟩
    · trivial
  | openFile writefile writestr =>
    obtain rfl := Option.some.inj hop
    obtain ⟨hstr, rfl, rfl⟩ := h
    refine Tracked.event rfl ?_
    rw [Pc.resume]
    split
    · trivial
    · refine Writing.Within.whileLen ⟨hstr, le_rfl, ?_, ?_⟩
      · exact Int.zero_add _
      · exact Partway.start rfl _
  | writeCall w =>
    obtain rfl := Option.some.inj hop
    obtain ⟨hw, hlen⟩ := h
    have h1 := hw.buf_nonneg
    have h2 := hw.rest
    rw [transferOf, hw.offered]
    have hk : w.buf.toNat < w.writestr.bytes.length := by omega
    rw [Pc.resume]
    by_cases hfail : ret.val = -1
    · rw [if_pos hfail, hfail, answer_neg_one]
      refine Tracked.event (hw.partway.request hk fun n hn => absurd hn (by simp)) ?_
      rw [Transfer.Event.supplied, Transfer.Event.accepted, List.append_nil]
      split
      · exact ⟨by simpa using hw, hlen⟩
      · trivial
    · obtain ⟨h0, hle⟩ := hans.resolve_left hfail
      rw [if_neg hfail, answer_of_ne hfail]
      refine Tracked.event (hw.partway.request hk ?_) (hw.advance h0 hle).whileLen
      intro n hn
      rw [← Option.some.inj hn]
      omega
  | interruptedLog w =>
    obtain rfl := Option.some.inj hop
    obtain ⟨hw, -⟩ := h
    exact Tracked.silent hw.whileLen
  | writtenLog w =>
    obtain rfl := Option.some.inj hop
    exact Tracked.silent h
  | closeFile w =>
    obtain rfl := Option.some.inj hop
    obtain ⟨hw, hlen⟩ := h
    exact Tracked.silent fun _ => hw.written hlen
  | closelog status =>
    obtain rfl := Option.some.inj hop
    exact Tracked.silent h
  | missingLog | openFailLog | failClose =>
    obtain rfl := Option.some.inj hop
    exact Tracked.silent fun hzero => absurd hzero (by decide)
  | writeFailLog w err =>
    obtain rfl := Option.some.inj hop
    exact Tracked.silent trivial
  | exited status => exact absurd hop (by simp [Pc.op])

/-- **The run lemma.** -/
theorem progress_run {h : History} {p : Pc} (hr : Run Pc.Step (.openlog argv) h p) :
    Faithful (transfer h) ∧ p.Progress argv (supplied (transfer h)) (accepted (transfer h)) := by
  have h0 : (Pc.openlog argv).Progress argv [] [] := ⟨rfl, rfl, rfl⟩
  exact tracked_run transferOf (Pc.Progress argv) h0 Pc.Progress.step hr

/-! ## 4. How the loop is left -/

/-- Where the loop was interrupted or left by the call `e` made at `p`: what that call was and what
it returned. -/
def Pc.LeftBy : Pc → Pc → Event → Prop
  | interruptedLog w, p, e =>
    p = .writeCall w ∧ e = (.write w.fd w.writestr w.buf w.len, ⟨-1, eintr⟩)
  | writeFailLog w err, p, e =>
    p = .writeCall w ∧ e = (.write w.fd w.writestr w.buf w.len, ⟨-1, err⟩) ∧ err ≠ eintr
  | _, _, _ => True

theorem Writing.whileLen_leftBy (w : Writing) (p : Pc) (e : Event) : w.whileLen.LeftBy p e := by
  unfold Writing.whileLen
  split
  · trivial
  · trivial

/-- **The loop is interrupted or left with an error only by a `write` that returned -1**, and
`errno` decides which. -/
theorem Pc.Step.leftBy {p p' : Pc} {e : Event} (hs : p.Step e p') : p'.LeftBy p e := by
  obtain ⟨op, val, errno⟩ := e
  obtain ⟨hop, -, hres⟩ := hs
  simp only at hop hres
  rw [hres]
  cases p with
  | writeCall w =>
    obtain rfl := Option.some.inj hop
    rw [Pc.resume]
    by_cases hfail : val = -1
    · subst hfail
      rw [if_pos rfl]
      by_cases hint : errno = eintr
      · subst hint
        rw [if_pos rfl]
        exact ⟨rfl, rfl⟩
      · rw [if_neg hint]
        exact ⟨rfl, rfl, hint⟩
    · rw [if_neg hfail]
      exact Writing.whileLen_leftBy _ _ _
  | openlog argv =>
    unfold Pc.resume
    dsimp only
    split
    · trivial
    · trivial
  | openFile writefile writestr =>
    rw [Pc.resume]
    split
    · trivial
    · exact Writing.whileLen_leftBy _ _ _
  | interruptedLog w => exact w.whileLen_leftBy _ _
  | missingLog | openFailLog | writeFailLog | failClose | writtenLog | closeFile | closelog
  | exited => trivial

/-! ## 5. The loop as a whole -/

/-- **The write loop of `writer.c`**, after a history that has led to `p`. -/
structure Writes (argv : List Text) (h : History) (p : Pc) : Prop where
  /-- Every request is for bytes that come next, and for at least one. -/
  faithful : Faithful (transfer h)
  acceptedPrefix : accepted (transfer h) <+: supplied (transfer h)
  /-- What a `write` is about to ask for is the rest of the string. -/
  inside : ∀ w, p = .writeCall w → argv[2]? = some w.writestr ∧ 0 < w.len ∧ 0 ≤ w.buf ∧
    w.buf + w.len = w.writestr.bytes.length ∧ supplied (transfer h) = w.writestr.bytes ∧
    accepted (transfer h) = w.writestr.bytes.take w.buf.toNat
  /-- The loop ends normally, and `main` returns 0, with the whole string accepted. -/
  ended : ∀ w, p = .writtenLog w → argv[2]? = some w.writestr ∧
    supplied (transfer h) = w.writestr.bytes ∧ accepted (transfer h) = w.writestr.bytes
  exited : p = .exited 0 → Written argv (supplied (transfer h)) (accepted (transfer h))
  /-- It is left with an error by a `write` that returned -1 for another reason than EINTR. -/
  failed : ∀ w err, p = .writeFailLog w err → err ≠ eintr ∧
    ∃ h', h = h' ++ [(.writeCall w, (.write w.fd w.writestr w.buf w.len, ⟨-1, err⟩))]
  /-- An interrupted `write` is made once more as it was. -/
  retried : ∀ w, p = .interruptedLog w →
    (∃ h', h = h' ++ [(.writeCall w, (.write w.fd w.writestr w.buf w.len, ⟨-1, eintr⟩))]) ∧
      ∀ ret, p.resume ret = .writeCall w

theorem writes_run {h : History} {p : Pc} (hr : Run Pc.Step (.openlog argv) h p) :
    Writes argv h p := by
  obtain ⟨hfaithful, hprogress⟩ := progress_run hr
  have hlast : p ≠ .openlog argv → ∃ h' p' e, h = h' ++ [(p', e)] ∧ p.LeftBy p' e := by
    intro hne
    obtain ⟨h', p', e, hh, -, hs⟩ := hr.exists_last hne
    exact ⟨h', p', e, hh, hs.leftBy⟩
  refine ⟨hfaithful, hfaithful.accepted_prefix, ?_, ?_, ?_, ?_, ?_⟩
  · rintro w rfl
    obtain ⟨hw, hlen⟩ := hprogress
    exact ⟨hw.writestr, hlen, hw.buf_nonneg, hw.rest, hw.partway.supplied, hw.partway.accepted⟩
  · rintro w rfl
    obtain ⟨hw, hlen⟩ := hprogress
    obtain ⟨writestr, hstr, hsup, hacc⟩ := hw.written hlen
    obtain rfl := Option.some.inj (hw.writestr.symm.trans hstr)
    exact ⟨hstr, hsup, hacc.trans hsup⟩
  · rintro rfl
    exact hprogress rfl
  · rintro w err rfl
    obtain ⟨h', p', e, hh, rfl, rfl, herr⟩ := hlast (by simp)
    exact ⟨herr, h', hh⟩
  · rintro w rfl
    obtain ⟨-, hlen⟩ := hprogress
    obtain ⟨h', p', e, hh, rfl, rfl⟩ := hlast (by simp)
    exact ⟨⟨h', hh⟩, fun _ => if_pos hlen⟩

end Aesd.FinderApp
