/-
# The seek command in the receive buffer

`receive_data` scans the buffer with `"%21[^:]:%u,%u"` and takes it for a seek when all three
conversions are made and the first is the command's name.  Here is the scan (`sscanfSeekto`,
`seekCommand`) and what it makes of a framed packet with other bytes behind it.

The scan runs over the whole string in the buffer, and `%u` skips white space, newlines
included.  So a packet can be a seek command broken off at a place where the scan is skipping
white space: after the colon (three more bytes are needed: a digit, the comma, a digit) or after
the comma (one more).  These packets are `dangling`, and they are the only ones whose reading
depends on what follows (`seekCommand_append`, `seekCommand_of_short`, `exists_completion`).
-/
import Aesd.Lib.CString
import Aesd.Driver.Main

namespace Aesd.Server

open CString Aesd.Driver

/-! ## 1. The scan -/

/-- `"AESDCHAR_IOCSEEKTO"`. -/
def seekName : List UInt8 :=
  [65, 69, 83, 68, 67, 72, 65, 82, 95, 73, 79, 67, 83, 69, 69, 75, 84, 79]

/-- `sscanf(buf, "%21[^:]:%u,%u", command, &seekto.write_cmd, &seekto.write_cmd_offset)`: the
number of conversions made, and the variables, which were set to zero before. -/
def sscanfSeekto (s : List UInt8) : ℕ × List UInt8 × AesdSeekto :=
  match scanSet 21 (· ≠ 58) s with
  | none => (0, [], ⟨0, 0⟩)
  | some (command, s) =>
    match (scanLiteral 58 s).bind scanUnsigned with
    | none => (1, command, ⟨0, 0⟩)
    | some (writeCmd, s) =>
      match (scanLiteral 44 s).bind scanUnsigned with
      | none => (2, command, ⟨writeCmd, 0⟩)
      | some (writeCmdOffset, _) => (3, command, ⟨writeCmd, writeCmdOffset⟩)

/-- The test of `receive_data` for a seek command in its buffer, with the arguments it found. -/
def seekCommand (buf : List UInt8) : Option AesdSeekto :=
  let scanned := sscanfSeekto (cstr buf)
  if scanned.1 = 3 ∧ scanned.2.1 = seekName then some scanned.2.2 else none

/-! ## 2. Name and arguments -/

/-- The command up to its colon. -/
def seekPrefix : List UInt8 := seekName ++ [58]

/-- The scan behind the colon. -/
def seekArgs (s : List UInt8) : Option AesdSeekto :=
  match scanUnsigned s with
  | none => none
  | some (writeCmd, s) =>
    match (scanLiteral 44 s).bind scanUnsigned with
    | none => none
    | some (writeCmdOffset, _) => some ⟨writeCmd, writeCmdOffset⟩

/-- Three conversions: the input is the command, a colon, and what the two numbers are read
from. -/
theorem sscanfSeekto_three {s : List UInt8} (h : (sscanfSeekto s).1 = 3) :
    ∃ r, s = (sscanfSeekto s).2.1 ++ 58 :: r := by
  rw [sscanfSeekto] at h ⊢
  cases hset : scanSet 21 (· ≠ 58) s with
  | none =>
    rw [hset] at h
    cases h
  | some cs =>
    obtain ⟨command, s'⟩ := cs
    rw [hset] at h
    simp only at h ⊢
    cases hx : (scanLiteral 58 s').bind scanUnsigned with
    | none =>
      rw [hx] at h
      cases h
    | some xs =>
      obtain ⟨x, t⟩ := xs
      rw [hx] at h
      simp only at h ⊢
      cases hy : (scanLiteral 44 t).bind scanUnsigned with
      | none =>
        rw [hy] at h
        cases h
      | some ys =>
        obtain ⟨r, hr, -⟩ := Option.bind_eq_some_iff.mp hx
        exact ⟨r, by rw [← scanLiteral_eq_some_iff.mp hr]; exact scanSet_append hset⟩

/-- **A seek command is its name, a colon, and arguments.** -/
theorem seekCommand_eq (buf : List UInt8) :
    seekCommand buf =
      if seekPrefix <+: cstr buf then seekArgs ((cstr buf).drop seekPrefix.length) else none := by
  unfold seekCommand
  generalize cstr buf = s
  by_cases h : seekPrefix <+: s
  · rw [if_pos h]
    obtain ⟨r, rfl⟩ := h
    have hset : scanSet 21 (· ≠ 58) (seekPrefix ++ r) = some (seekName, 58 :: r) := by
      simp [scanSet, seekPrefix, seekName]
    have hlit : scanLiteral 58 (58 :: r) = some r := scanLiteral_eq_some_iff.mpr rfl
    rw [List.drop_left, sscanfSeekto, hset]
    simp only [hlit, Option.bind_some]
    unfold seekArgs
    cases scanUnsigned r with
    | none => rfl
    | some xs =>
      obtain ⟨x, s⟩ := xs
      simp only
      cases (scanLiteral 44 s).bind scanUnsigned with
      | none => rfl
      | some ys => simp
  · rw [if_neg h]
    refine if_neg ?_
    rintro ⟨h3, hname⟩
    obtain ⟨r, hr⟩ := sscanfSeekto_three h3
    rw [hname] at hr
    exact h ⟨r, by rw [hr, seekPrefix, List.append_assoc]; rfl⟩

/-! ## 3. Packets with bytes behind them -/

/-- The number of further bytes that at least complete a packet which is a seek command broken
off where the scan skips white space. -/
def dangling (packet : List UInt8) : Option ℕ :=
  if seekPrefix <+: packet then
    if (packet.drop seekPrefix.length).all isspace then some 3
    else
      match (scanUnsigned (packet.drop seekPrefix.length)).bind fun xs => scanLiteral 44 xs.2 with
      | none => none
      | some s => if s.all isspace then some 1 else none
  else none

/-- A framed packet: no NUL, and its first newline is its last byte. -/
structure Packet (packet : List UInt8) : Prop where
  zero : 0 ∉ packet
  line : ∃ body, packet = body ++ [newline] ∧ newline ∉ body

namespace Packet

variable {packet : List UInt8}

/-- The name of a framed seek command is all in the packet. -/
theorem seekPrefix_iff (h : Packet packet) (t : List UInt8) :
    seekPrefix <+: packet ++ t ↔ seekPrefix <+: packet := by
  constructor
  · intro hp
    rcases List.prefix_or_prefix_of_prefix hp (List.prefix_append packet t) with h1 | h1
    · exact h1
    · obtain ⟨body, rfl, -⟩ := h.line
      have hm : newline ∈ seekPrefix := h1.mem (List.mem_append_right _ List.mem_cons_self)
      exact absurd hm (by decide)
  · exact fun hp => hp.trans (List.prefix_append _ _)

/-- What is behind the colon of a framed seek command ends with the newline. -/
theorem drop_seekPrefix (h : Packet packet) (hp : seekPrefix <+: packet) :
    ∃ b, packet.drop seekPrefix.length = b ++ [newline] := by
  obtain ⟨r, rfl⟩ := hp
  obtain ⟨body, heq, -⟩ := h.line
  rw [List.drop_left]
  rcases List.eq_nil_or_concat r with rfl | ⟨b, x, rfl⟩
  · rw [List.append_nil] at heq
    exact absurd (congrArg List.getLast? heq) (by simp [seekPrefix, newline])
  · rw [List.concat_eq_append] at heq ⊢
    rw [← List.append_assoc] at heq
    obtain ⟨-, hx⟩ := List.append_inj' heq rfl
    exact ⟨b, by rw [hx]⟩

/-- The scan of a framed packet with bytes behind it. -/
theorem seekCommand_append (h : Packet packet) (t : List UInt8) :
    seekCommand (packet ++ t) =
      if seekPrefix <+: packet then seekArgs (packet.drop seekPrefix.length ++ cstr t)
      else none := by
  rw [seekCommand_eq, cstr_append h.zero]
  by_cases hp : seekPrefix <+: packet
  · rw [if_pos ((h.seekPrefix_iff _).mpr hp), if_pos hp, List.drop_append_of_le_length hp.length_le]
  · rw [if_neg (fun hc => hp ((h.seekPrefix_iff _).mp hc)), if_neg hp]

theorem seekCommand_self (h : Packet packet) :
    seekCommand packet =
      if seekPrefix <+: packet then seekArgs (packet.drop seekPrefix.length) else none := by
  have h1 := h.seekCommand_append []
  rwa [List.append_nil, show cstr [] = [] from rfl, List.append_nil] at h1

end Packet

/-- What the scan makes of a framed packet with bytes behind it. -/
inductive Reading (packet : List UInt8) : Prop
  /-- The packet ends where the first number is expected. -/
  | numbers : dangling packet = some 3 →
      (∀ t, seekCommand (packet ++ t) = seekArgs (cstr t)) → Reading packet
  /-- The packet ends where the second number is expected. -/
  | offset (writeCmd : UInt32) : dangling packet = some 1 →
      (∀ t, seekCommand (packet ++ t) =
        (scanUnsigned (cstr t)).map fun y => ⟨writeCmd, y.1⟩) → Reading packet
  /-- The scan is decided inside the packet. -/
  | decided : dangling packet = none →
      (∀ t, seekCommand (packet ++ t) = seekCommand packet) → Reading packet

theorem exists_not_space {s : List UInt8} (h : ¬ s.all isspace = true) :
    ∃ x ∈ s, isspace x = false := by
  by_contra hno
  refine h (List.all_eq_true.mpr ?_)
  intro x hx
  cases hs : isspace x with
  | true => rfl
  | false => exact absurd ⟨x, hx, hs⟩ hno

/-- `%u` on a line that is not all white space. -/
theorem scanUnsigned_line {b : List UInt8} (h : ¬ (b ++ [newline]).all isspace = true)
    (t : List UInt8) :
    (scanUnsigned (b ++ [newline]) = none ∧ scanUnsigned (b ++ [newline] ++ t) = none) ∨
      ∃ v s, scanUnsigned (b ++ [newline]) = some (v, s ++ [newline]) ∧
        scanUnsigned (b ++ [newline] ++ t) = some (v, s ++ [newline] ++ t) :=
  scanUnsigned_append (by decide) (by decide) (by decide) (exists_not_space h) t

/-- **Every framed packet has one of the three readings.** -/
theorem Packet.reading {packet : List UInt8} (h : Packet packet) : Reading packet := by
  by_cases hp : seekPrefix <+: packet
  · obtain ⟨b, hb⟩ := h.drop_seekPrefix hp
    have happ : ∀ t, seekCommand (packet ++ t) = seekArgs (b ++ [newline] ++ cstr t) := fun t => by
      rw [h.seekCommand_append, if_pos hp, hb]
    have hself : seekCommand packet = seekArgs (b ++ [newline]) := by
      rw [h.seekCommand_self, if_pos hp, hb]
    have hdang : dangling packet =
        if (b ++ [newline]).all isspace then some 3
        else
          match (scanUnsigned (b ++ [newline])).bind fun xs => scanLiteral 44 xs.2 with
          | none => none
          | some s => if s.all isspace then some 1 else none := by
      rw [dangling, if_pos hp, hb]
    by_cases hall : (b ++ [newline]).all isspace = true
    · refine Reading.numbers (by rw [hdang, if_pos hall]) ?_
      intro t
      rw [happ, seekArgs, scanUnsigned_space_append (List.all_eq_true.mp hall), seekArgs]
    · rw [if_neg hall] at hdang
      rcases scanUnsigned_line hall [] with ⟨hn, -⟩ | ⟨v, s, hv, -⟩
      · -- no first number
        refine Reading.decided (by rw [hdang, hn]; rfl) ?_
        intro t
        rcases scanUnsigned_line hall (cstr t) with ⟨-, hn'⟩ | ⟨v, s, hv, -⟩
        · rw [happ, hself, seekArgs, seekArgs, hn, hn']
        · exact absurd (hn.symm.trans hv) (by simp)
      · have hv' : ∀ t, scanUnsigned (b ++ [newline] ++ t) = some (v, s ++ [newline] ++ t) := by
          intro t
          rcases scanUnsigned_line hall t with ⟨hn, -⟩ | ⟨v', s', h1, h2⟩
          · exact absurd (hv.symm.trans hn) (by simp)
          · rw [hv, Option.some.injEq, Prod.mk.injEq] at h1
            rw [h2, h1.1, h1.2]
        cases hl : scanLiteral 44 (s ++ [newline]) with
        | none =>
          -- no comma behind it
          have hl' : ∀ t, scanLiteral 44 (s ++ [newline] ++ t) = none := fun t => by
            rw [scanLiteral_append (by simp), hl]
            rfl
          refine Reading.decided (by rw [hdang, hv, Option.bind_some, hl]) ?_
          intro t
          rw [happ, hself, seekArgs, seekArgs, hv, hv']
          simp only [hl, hl', Option.bind_none]
        | some r =>
          have hl' : ∀ t, scanLiteral 44 (s ++ [newline] ++ t) = some (r ++ t) := fun t => by
            rw [scanLiteral_append (by simp), hl]
            rfl
          rw [hv, Option.bind_some, hl] at hdang
          simp only at hdang
          -- the second number is read from what is left of the line
          obtain ⟨b', rfl⟩ : ∃ b', r = b' ++ [newline] := by
            have hr := scanLiteral_eq_some_iff.mp hl
            cases s with
            | nil => exact absurd hr (by simp [newline])
            | cons x s =>
              rw [List.cons_append] at hr
              exact ⟨s, (List.cons_eq_cons.mp hr).2.symm⟩
          by_cases hall' : (b' ++ [newline]).all isspace = true
          · refine Reading.offset v (by rw [hdang, if_pos hall']) ?_
            intro t
            rw [happ, seekArgs, hv']
            simp only [hl', Option.bind_some]
            rw [scanUnsigned_space_append (List.all_eq_true.mp hall')]
            cases scanUnsigned (cstr t) with
            | none => rfl
            | some y => rfl
          · refine Reading.decided (by rw [hdang, if_neg hall']) ?_
            intro t
            rw [happ, hself, seekArgs, seekArgs, hv, hv']
            simp only [hl, hl', Option.bind_some]
            rcases scanUnsigned_line hall' (cstr t) with ⟨hn, hn'⟩ | ⟨y, s', hy, hy'⟩
            · rw [hn, hn']
            · rw [hy, hy']
  · refine Reading.decided (by rw [dangling, if_neg hp]) ?_
    intro t
    rw [h.seekCommand_append, h.seekCommand_self, if_neg hp, if_neg hp]

/-- The arguments take at least a digit, the comma and a digit. -/
theorem seekArgs_of_short {s : List UInt8} (h : s.length < 3) : seekArgs s = none := by
  unfold seekArgs
  cases hx : scanUnsigned s with
  | none => rfl
  | some xs =>
    obtain ⟨x, r⟩ := xs
    have h1 := length_scanUnsigned hx
    simp only
    cases hy : (scanLiteral 44 r).bind scanUnsigned with
    | none => rfl
    | some ys =>
      obtain ⟨r', hr', hu⟩ := Option.bind_eq_some_iff.mp hy
      have h2 := congrArg List.length (scanLiteral_eq_some_iff.mp hr')
      have h3 := length_scanUnsigned hu
      rw [List.length_cons] at h2
      omega

/-- A string is no longer than its buffer. -/
theorem length_cstr_le (mem : List UInt8) : (cstr mem).length ≤ mem.length :=
  (List.takeWhile_prefix _).length_le

/-- **A packet that is not dangling is read the same whatever follows.** -/
theorem Packet.seekCommand_eq_of_decided {packet : List UInt8} (h : Packet packet)
    (hd : dangling packet = none) (t : List UInt8) :
    seekCommand (packet ++ t) = seekCommand packet := by
  cases h.reading with
  | numbers h3 => exact absurd (hd.symm.trans h3) (by simp)
  | offset x h1 => exact absurd (hd.symm.trans h1) (by simp)
  | decided _ heq => exact heq t

/-- **A dangling packet with too little behind it is no seek command.** -/
theorem Packet.seekCommand_of_short {packet : List UInt8} (h : Packet packet) {n : ℕ}
    (hd : dangling packet = some n) {t : List UInt8} (ht : t.length < n) :
    seekCommand (packet ++ t) = none := by
  have hc := length_cstr_le t
  cases h.reading with
  | numbers h3 heq =>
    obtain rfl : 3 = n := Option.some.inj (h3.symm.trans hd)
    rw [heq, seekArgs_of_short (by omega)]
  | offset x h1 heq =>
    obtain rfl : 1 = n := Option.some.inj (h1.symm.trans hd)
    obtain rfl : t = [] := List.length_eq_zero_iff.mp (by omega)
    rw [heq]
    rfl
  | decided hn => exact absurd (hd.symm.trans hn) (by simp)

/-- **A dangling packet with enough behind it can be one.** -/
theorem Packet.exists_completion {packet : List UInt8} (h : Packet packet) {n : ℕ}
    (hd : dangling packet = some n) :
    ∃ t, t.length = n ∧ (seekCommand (packet ++ t)).isSome := by
  cases h.reading with
  | numbers h3 heq =>
    obtain rfl : 3 = n := Option.some.inj (h3.symm.trans hd)
    exact ⟨[48, 44, 48], rfl, by rw [heq]; decide⟩
  | offset x h1 heq =>
    obtain rfl : 1 = n := Option.some.inj (h1.symm.trans hd)
    exact ⟨[48], rfl, by rw [heq]; rfl⟩
  | decided hn => exact absurd (hd.symm.trans hn) (by simp)

end Aesd.Server
