/-
# The seek commands `receive_data` accepts

A packet that comes in alone is a seek command exactly if it is the name, a colon, a number, a comma
and a number (`Asks`).  A number is what `%u` reads: white space, a sign and digits, with the value
`strtoul` gives them cut to 32 bits; and nothing is asked of what stands behind the second number
but that it does not go on with a digit.  So more packets are seek commands than those of two plain
numbers below `2 ^ 32` (`Plain`), for which the arguments are exactly these numbers.

What is done follows from `Server/Outcomes.lean` for every run, also one whose ioctl fails: the one
ioctl that is asked for and no `write`, or no ioctl and the packet.
-/
import Aesd.Server.Outcomes

namespace Aesd.Server

open CString Aesd.Driver Transition

variable {packet rest : List UInt8} {seekto : AesdSeekto}

/-! ## 1. The grammar -/

/-- The arguments of a seek command, up to the first byte that is not looked at. -/
def ArgsText (s : List UInt8) (seekto : AesdSeekto) : Prop :=
  ∃ (x y : Numeral) (tail : List UInt8), s = x.text ++ 44 :: (y.text ++ tail) ∧ DigitsEnd tail ∧
    seekto = ⟨x.value, y.value⟩

/-- **The packet is a seek command** for these arguments. -/
def Asks (packet : List UInt8) (seekto : AesdSeekto) : Prop :=
  ∃ s, packet = seekPrefix ++ s ∧ ArgsText s seekto

/-- The text of a seek command. -/
def seekText (x y : List UInt8) : List UInt8 := seekPrefix ++ (x ++ 44 :: (y ++ [newline]))

/-- A number below `2 ^ 32` in digits alone. -/
structure PlainNumber (digits : List UInt8) : Prop where
  isdigit : ∀ x ∈ digits, isdigit x = true
  ne_nil : digits ≠ []
  lt : decimal digits < 2 ^ 32

/-- Two plain numbers and nothing else. -/
def Plain (packet : List UInt8) : Prop :=
  ∃ x y, PlainNumber x ∧ PlainNumber y ∧ packet = seekText x y

/-! ## 2. The scan decides it -/

theorem seekArgs_eq_some_iff {s : List UInt8} : seekArgs s = some seekto ↔ ArgsText s seekto := by
  constructor
  · intro h
    unfold seekArgs at h
    cases hx : scanUnsigned s with
    | none =>
      rw [hx] at h
      cases h
    | some vs =>
      obtain ⟨v, s'⟩ := vs
      rw [hx] at h
      simp only at h
      cases hy : (scanLiteral 44 s').bind scanUnsigned with
      | none =>
        rw [hy] at h
        cases h
      | some ws =>
        obtain ⟨w, tail⟩ := ws
        rw [hy] at h
        obtain ⟨s'', hlit, hw⟩ := Option.bind_eq_some_iff.mp hy
        obtain ⟨x, rfl, rfl, -⟩ := scanUnsigned_eq_some_iff.mp hx
        obtain rfl := scanLiteral_eq_some_iff.mp hlit
        obtain ⟨y, rfl, rfl, htail⟩ := scanUnsigned_eq_some_iff.mp hw
        exact ⟨x, y, tail, rfl, htail, (Option.some.inj h).symm⟩
  · rintro ⟨x, y, tail, rfl, htail, rfl⟩
    have hcomma : DigitsEnd (44 :: (y.text ++ tail)) := by
      intro c hc
      rw [← Option.some.inj hc]
      decide
    have hx := scanUnsigned_eq_some_iff.mpr ⟨x, rfl, rfl, hcomma⟩
    have hy : scanUnsigned (y.text ++ tail) = some (y.value, tail) :=
      scanUnsigned_eq_some_iff.mpr ⟨y, rfl, rfl, htail⟩
    have hlit : scanLiteral 44 (44 :: (y.text ++ tail)) = some (y.text ++ tail) :=
      scanLiteral_eq_some_iff.mpr rfl
    rw [seekArgs, hx]
    simp only [hlit, Option.bind_some, hy]

/-- **A framed packet is taken for a seek exactly if it is a seek command.** -/
theorem Packet.seekCommand_eq_some_iff (hp : Packet packet) :
    seekCommand packet = some seekto ↔ Asks packet seekto := by
  rw [hp.seekCommand_self]
  constructor
  · intro h
    split at h
    · rename_i hpre
      exact ⟨_, (List.prefix_iff_eq_append.mp hpre).symm, seekArgs_eq_some_iff.mp h⟩
    · cases h
  · rintro ⟨s, rfl, hs⟩
    rw [if_pos (List.prefix_append _ _), List.drop_left]
    exact seekArgs_eq_some_iff.mpr hs

theorem Packet.seekCommand_eq_none_iff (hp : Packet packet) :
    seekCommand packet = none ↔ ¬ ∃ seekto, Asks packet seekto := by
  simp only [← hp.seekCommand_eq_some_iff, ← Option.isSome_iff_exists,
    Option.not_isSome_iff_eq_none]

/-- Two plain numbers ask for themselves. -/
theorem PlainNumber.asks {x y : List UInt8} (hx : PlainNumber x) (hy : PlainNumber y) :
    ∃ seekto, Asks (seekText x y) seekto ∧ seekto.writeCmd.toNat = decimal x ∧
      seekto.writeCmdOffset.toNat = decimal y := by
  have hend : DigitsEnd [newline] := by
    intro c hc
    rw [← Option.some.inj hc]
    decide
  refine ⟨⟨(Numeral.ofDigits x hx.isdigit hx.ne_nil).value,
    (Numeral.ofDigits y hy.isdigit hy.ne_nil).value⟩,
    ⟨_, rfl, _, _, [newline], rfl, hend, rfl⟩, ?_, ?_⟩
  · exact Numeral.toNat_value_ofDigits hx.lt
  · exact Numeral.toNat_value_ofDigits hy.lt

theorem plainNumber_formatUnsigned (v : UInt32) : PlainNumber (formatUnsigned v.toNat) :=
  ⟨isdigit_formatUnsigned _, formatUnsigned_ne_nil _, by
    rw [decimal_formatUnsigned]
    exact v.toNat_lt⟩

/-- **Two formatted values ask for themselves.** -/
theorem asks_formatUnsigned (x y : UInt32) :
    Asks (seekText (formatUnsigned x.toNat) (formatUnsigned y.toNat)) ⟨x, y⟩ := by
  obtain ⟨⟨v, w⟩, hasks, hv, hw⟩ :=
    (plainNumber_formatUnsigned x).asks (plainNumber_formatUnsigned y)
  rw [decimal_formatUnsigned] at hv hw
  obtain rfl := UInt32.toNat_inj.mp hv
  obtain rfl := UInt32.toNat_inj.mp hw
  exact hasks

/-! ## 3. What is done with the packet -/

/-- The newline of a framed packet is found at its end. -/
theorem Packet.strchr_eq (hp : Packet packet) :
    ∃ pos, strchr packet newline = some pos ∧ pos + 1 = packet.length := by
  obtain ⟨body, rfl, hb⟩ := hp.line
  have h0 : 0 ∉ body := fun hm => hp.zero (List.mem_append_left _ hm)
  exact ⟨body.length, strchr_append [] h0 hb (by decide), by simp⟩

/-- **What is done with a packet that came in alone.** -/
theorem Outcome.of_packet {written : List UInt8} {seeks : List AesdSeekto} {broke : Prop}
    (h : Outcome packet written seeks broke) (hp : Packet packet) :
    (∃ seekto, Asks packet seekto ∧ seeks = [seekto] ∧ written = []) ∨
      ((¬ ∃ seekto, Asks packet seekto) ∧ seeks = [] ∧
        (written = packet ∨ broke ∧ written <+: packet)) := by
  obtain ⟨pos, hpos, hlen⟩ := hp.strchr_eq
  cases h with
  | nothing hnone => exact absurd (hpos.symm.trans hnone) (by simp)
  | sought seekto hc hw hs => exact Or.inl ⟨seekto, hp.seekCommand_eq_some_iff.mp hc, hs, hw⟩
  | wrote pos' hpos' hc hw hs =>
    obtain rfl := Option.some.inj (hpos.symm.trans hpos')
    refine Or.inr ⟨hp.seekCommand_eq_none_iff.mp hc, hs, Or.inl ?_⟩
    rw [hw, hlen, List.take_length]
  | broken pos' n hpos' hc hn hw hs hb =>
    refine Or.inr ⟨hp.seekCommand_eq_none_iff.mp hc, hs, Or.inr ⟨hb, ?_⟩⟩
    rw [hw]
    exact List.take_prefix n packet

/-- **The seek commands.**  Let `receive_data` have returned when it had received just one packet,
whatever its calls answered.  It called the ioctl, once and with these arguments, and wrote nothing,
exactly if the packet is a seek command for them.  Any other packet it wrote, up to a `write` that
failed if one did, and it called no ioctl.  Two plain numbers are a seek command for themselves, and
so are any two formatted values. -/
theorem seek_grammar (hp : Packet packet) :
    (∀ junk rest h c, Run Conn.Call (Conn.start junk (packet ++ rest)) h c → received h = packet →
      c.pc.receiving = false →
        (∀ seekto, (seeks h = [seekto] ∧ written h = []) ↔ Asks packet seekto) ∧
          ((¬ ∃ seekto, Asks packet seekto) →
            seeks h = [] ∧ (written h = packet ∨ Breaks h ∧ written h <+: packet))) ∧
      (∀ x y, PlainNumber x → PlainNumber y → packet = seekText x y →
        ∃ seekto, Asks packet seekto ∧ seekto.writeCmd.toNat = decimal x ∧
          seekto.writeCmdOffset.toNat = decimal y) ∧
      ∀ x y : UInt32, packet = seekText (formatUnsigned x.toNat) (formatUnsigned y.toNat) →
        Asks packet ⟨x, y⟩ := by
  refine ⟨?_, ?_, ?_⟩
  · intro junk rest h c hr hrec hret
    have hout := (course_run hr).1.outcome hret
    rw [hrec] at hout
    rcases hout.of_packet hp with ⟨seekto, hasks, hs, hw⟩ | ⟨hno, hs, hw⟩
    · refine ⟨fun seekto' => ⟨?_, fun hasks' => ⟨?_, hw⟩⟩, fun hno => absurd ⟨seekto, hasks⟩ hno⟩
      · rintro ⟨hs', -⟩
        obtain rfl := List.singleton_inj.mp (hs.symm.trans hs')
        exact hasks
      · rw [← hp.seekCommand_eq_some_iff] at hasks hasks'
        rw [hs, Option.some.inj (hasks.symm.trans hasks')]
    · refine ⟨fun seekto => ⟨?_, fun hasks => absurd ⟨seekto, hasks⟩ hno⟩, fun _ => ⟨hs, hw⟩⟩
      rintro ⟨hs', -⟩
      exact absurd (hs.symm.trans hs') (by simp)
  · rintro x y hx hy rfl
    exact hx.asks hy
  · rintro x y rfl
    exact asks_formatUnsigned x y

/-- `AESDCHAR_IOCSEEKTO: 1,2` and a newline. -/
def blankCommand : List UInt8 := seekPrefix ++ [32, 49, 44, 50, 10]

theorem packet_blankCommand : Packet blankCommand :=
  ⟨by decide, seekPrefix ++ [32, 49, 44, 50], by decide, by decide⟩

/-- The run over the packet alone. -/
theorem run_blankCommand : ∃ h c, Run Conn.Call (Conn.start 0 (blankCommand ++ [])) h c ∧
    received h = blankCommand ∧ c.pc.receiving = false ∧ seeks h = [⟨1, 2⟩] ∧ written h = [] :=
  ⟨_, _, Run.of_played Conn.call_of_answer (Conn.start 0 (blankCommand ++ []))
    [{ ptr := some 0 }, { val := 1 }, { val := 24, data := blankCommand }, {}, {}, {}, {}]
    (by decide), by decide, by decide, by decide, by decide⟩

/-- The packet with a blank is a seek command, and the run over it sought. -/
theorem seek_grammar_blank : Asks blankCommand ⟨1, 2⟩ := by
  obtain ⟨h, c, hr, hrec, hret, hs, hw⟩ := run_blankCommand
  exact (((seek_grammar packet_blankCommand).1 0 [] h c hr hrec hret).1 ⟨1, 2⟩).mp ⟨hs, hw⟩

/-- **A blank behind the colon does not stop a packet from being taken for a seek.** -/
theorem blank_accepted : ¬ ∀ packet, Packet packet → ∀ junk rest h c,
    Run Conn.Call (Conn.start junk (packet ++ rest)) h c → received h = packet →
      c.pc.receiving = false →
        ((∃ seekto, seeks h = [seekto] ∧ written h = []) ↔ Plain packet) := by
  intro hall
  obtain ⟨h, c, hr, hrec, hret, hs, hw⟩ := run_blankCommand
  obtain ⟨x, y, hx, -, heq⟩ :=
    (hall blankCommand packet_blankCommand 0 [] h c hr hrec hret).mp ⟨⟨1, 2⟩, hs, hw⟩
  obtain ⟨d, ds, rfl⟩ := List.exists_cons_of_ne_nil hx.ne_nil
  have hd : d = 32 := (List.cons_eq_cons.mp (List.append_cancel_left heq)).1.symm
  rw [hd] at hx
  exact absurd (hx.isdigit 32 List.mem_cons_self) (by decide)

end Aesd.Server
