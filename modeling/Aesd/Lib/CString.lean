/-
# C strings and the directives of `sscanf`

A C string is the bytes of a buffer up to the first NUL (`cstr`), whatever stands behind it, and
`strchr` sees nothing else.  The directives of a scanning format are functions on the rest of
the input: white space, a literal byte, a scanset of limited width, and `%u`, which skips white
space, takes a sign, and converts as `strtoul` does before the value is cut to 32 bits.

The facts for later are about locality: a directive that stops before the end of its input does
the same on any longer input (`scanLiteral_append`, `scanUnsigned_append`), so the only input
whose reading depends on what follows is the one `%u` skips to the end.  What `%u` accepts is
`scanUnsigned_eq_some_iff`, and that a number written in decimal is read back is
`decimal_formatUnsigned`.
-/
import Mathlib.Algebra.Group.Nat.Defs
import Mathlib.Data.List.Basic
import Mathlib.Data.List.TakeDrop
import Mathlib.Data.List.TakeWhile

namespace CString

/-! ## 1. Strings and `strchr` -/

/-- The string in a buffer: its bytes before the first NUL. -/
def cstr (mem : List UInt8) : List UInt8 := mem.takeWhile (· ≠ 0)

/-- `strchr` for a byte that is not NUL: the index of its first occurrence in the string. -/
def strchr (mem : List UInt8) (c : UInt8) : Option ℕ := (cstr mem).findIdx? (· = c)

/-- Bytes without a NUL begin the string of any buffer they begin. -/
theorem cstr_append {pre : List UInt8} (h : 0 ∉ pre) (rest : List UInt8) :
    cstr (pre ++ rest) = pre ++ cstr rest := by
  rw [cstr, List.takeWhile_append_of_pos]
  · rfl
  · intro x hx
    simpa using ne_of_mem_of_not_mem hx h

/-- Nothing behind a NUL is seen. -/
theorem cstr_append_zero {pre : List UInt8} (rest : List UInt8) (h : 0 ∈ pre) :
    cstr (pre ++ rest) = cstr pre := by
  induction pre with
  | nil => exact absurd h (List.not_mem_nil)
  | cons x pre ih =>
    rw [List.cons_append, cstr, cstr, List.takeWhile_cons, List.takeWhile_cons]
    by_cases hx : x = 0
    · simp [hx]
    · have ih' := ih ((List.mem_cons.mp h).resolve_left (Ne.symm hx))
      rw [cstr, cstr] at ih'
      rw [ih']

theorem strchr_eq_none_iff {mem : List UInt8} {c : UInt8} : strchr mem c = none ↔ c ∉ cstr mem := by
  rw [strchr, List.findIdx?_eq_none_iff]
  constructor
  · intro h hc
    simpa using h c hc
  · intro h x hx
    simpa using ne_of_mem_of_not_mem hx h

/-- **`strchr` finds the first occurrence of a byte** if no NUL comes before it. -/
theorem strchr_append {pre : List UInt8} {c : UInt8} (rest : List UInt8) (h0 : 0 ∉ pre)
    (hc : c ∉ pre) (hne : c ≠ 0) : strchr (pre ++ c :: rest) c = some pre.length := by
  have hstr : cstr (pre ++ c :: rest) = pre ++ c :: cstr rest := by
    rw [cstr_append h0, cstr, List.takeWhile_cons_of_pos (by simpa using hne)]
    rfl
  rw [strchr, hstr, List.findIdx?_append, List.findIdx?_eq_none_iff.mpr]
  · simp [List.findIdx?_cons]
  · intro x hx
    simpa using ne_of_mem_of_not_mem hx hc

/-- A NUL before the byte hides it. -/
theorem strchr_of_zero {pre : List UInt8} {c : UInt8} (rest : List UInt8) (h0 : 0 ∈ pre)
    (hc : c ∉ pre) : strchr (pre ++ rest) c = none := by
  rw [strchr_eq_none_iff, cstr_append_zero rest h0]
  exact fun hm => hc ((List.takeWhile_prefix _).mem hm)

/-- A byte that does not occur is not found. -/
theorem strchr_of_not_mem {mem : List UInt8} {c : UInt8} (h : c ∉ mem) : strchr mem c = none :=
  strchr_eq_none_iff.mpr fun hm => h ((List.takeWhile_prefix _).mem hm)

/-- What is found is the first byte of its kind. -/
theorem exists_of_strchr {mem : List UInt8} {c : UInt8} {pos : ℕ} (h : strchr mem c = some pos) :
    ∃ pre rest, mem = pre ++ c :: rest ∧ pre.length = pos ∧ c ∉ pre := by
  rw [strchr, List.findIdx?_eq_some_iff_getElem] at h
  obtain ⟨hlt, hfound, hbefore⟩ := h
  obtain ⟨rest, hrest⟩ : cstr mem <+: mem := List.takeWhile_prefix _
  refine ⟨(cstr mem).take pos, (cstr mem).drop (pos + 1) ++ rest, ?_, ?_, ?_⟩
  · have hc : (cstr mem)[pos] = c := by simpa using hfound
    rw [← List.cons_append, ← List.append_assoc]
    rw [← hc, ← List.drop_eq_getElem_cons hlt, List.take_append_drop, hrest]
  · rw [List.length_take]
    omega
  · intro hmem
    obtain ⟨j, hj, heq⟩ := List.mem_take_iff_getElem.mp hmem
    have hno := hbefore j (by omega)
    simp [heq] at hno

/-! ## 2. Scanning directives -/

/-- `isspace` in the C locale. -/
def isspace (c : UInt8) : Bool := c = 32 || (9 ≤ c && c ≤ 13)

/-- `isdigit`. -/
def isdigit (c : UInt8) : Bool := 48 ≤ c && c ≤ 57

/-- A literal byte of the format. -/
def scanLiteral (c : UInt8) : List UInt8 → Option (List UInt8)
  | x :: s => if x = c then some s else none
  | [] => none

/-- `%n[..]`: the longest run of at most `width` bytes of the set; it must not be empty. -/
def scanSet (width : ℕ) (p : UInt8 → Bool) (s : List UInt8) : Option (List UInt8 × List UInt8) :=
  let run := (s.take width).takeWhile p
  if run = [] then none else some (run, s.drop run.length)

/-- An optional sign, and whether it is a minus. -/
def scanSign : List UInt8 → Bool × List UInt8
  | x :: s => if x = 45 then (true, s) else if x = 43 then (false, s) else (false, x :: s)
  | [] => (false, [])

/-- The number a string of decimal digits denotes. -/
def decimal (digits : List UInt8) : ℕ := digits.foldl (fun n d => 10 * n + (d.toNat - 48)) 0

/-- The value of `strtoul`: `ULONG_MAX` when the digits do not fit, and the negation modulo
`2 ^ 64` after a minus sign. -/
def strtoul (negative : Bool) (digits : List UInt8) : ℕ :=
  let n := decimal digits
  if 2 ^ 64 ≤ n then 2 ^ 64 - 1 else if negative then (2 ^ 64 - n) % 2 ^ 64 else n

/-- `%u`: white space, an optional sign and at least one digit; the value is cut to 32 bits. -/
def scanUnsigned (s : List UInt8) : Option (UInt32 × List UInt8) :=
  let (negative, s) := scanSign (s.dropWhile isspace)
  let digits := s.takeWhile isdigit
  if digits = [] then none
  else some (UInt32.ofNat (strtoul negative digits), s.dropWhile isdigit)

/-! ## 3. What a directive accepts -/

theorem scanLiteral_eq_some_iff {c : UInt8} {s r : List UInt8} :
    scanLiteral c s = some r ↔ s = c :: r := by
  cases s with
  | nil => simp [scanLiteral]
  | cons x s =>
    rw [scanLiteral]
    constructor
    · intro h
      split at h
      · rename_i hx
        rw [hx, Option.some.inj h]
      · exact absurd h (by simp)
    · intro h
      obtain ⟨rfl, rfl⟩ := List.cons_eq_cons.mp h
      exact if_pos rfl

/-- A scanset splits the input. -/
theorem scanSet_append {width : ℕ} {p : UInt8 → Bool} {s run rest : List UInt8}
    (h : scanSet width p s = some (run, rest)) : s = run ++ rest := by
  rw [scanSet] at h
  split at h
  · exact absurd h (by simp)
  · simp only [Option.some.injEq, Prod.mk.injEq] at h
    obtain ⟨rfl, rfl⟩ := h
    have hpre : (s.take width).takeWhile p <+: s :=
      (List.takeWhile_prefix _).trans (List.take_prefix _ _)
    exact (List.prefix_iff_eq_append.mp hpre).symm

/-! ## 4. Locality -/

/-- A literal looks at one byte. -/
theorem scanLiteral_append {c : UInt8} {s : List UInt8} (hs : s ≠ []) (t : List UInt8) :
    scanLiteral c (s ++ t) = (scanLiteral c s).map (· ++ t) := by
  cases s with
  | nil => exact absurd rfl hs
  | cons x s =>
    rw [List.cons_append, scanLiteral, scanLiteral]
    split
    · rfl
    · rfl

theorem scanSign_append {s : List UInt8} (hs : s ≠ []) (t : List UInt8) :
    scanSign (s ++ t) = ((scanSign s).1, (scanSign s).2 ++ t) := by
  cases s with
  | nil => exact absurd rfl hs
  | cons x s =>
    rw [List.cons_append, scanSign, scanSign]
    split
    · rfl
    · split
      · rfl
      · rfl

/-- What a sign leaves ends as the input does. -/
theorem scanSign_concat {s : List UInt8} {c : UInt8} (h45 : c ≠ 45) (h43 : c ≠ 43) :
    ∃ s', (scanSign (s ++ [c])).2 = s' ++ [c] := by
  cases s with
  | nil => exact ⟨[], by simp [scanSign, h45, h43]⟩
  | cons x s =>
    rw [List.cons_append, scanSign]
    split
    · exact ⟨s, rfl⟩
    · split
      · exact ⟨s, rfl⟩
      · exact ⟨x :: s, rfl⟩

/-- Dropping bytes of a set stops at the latest at the last byte outside it. -/
theorem dropWhile_concat {p : UInt8 → Bool} {s : List UInt8} {c : UInt8}
    (h : ∃ x ∈ s ++ [c], p x = false) :
    ∃ s', (s ++ [c]).dropWhile p = s' ++ [c] ∧
      ∀ t, (s ++ [c] ++ t).dropWhile p = s' ++ [c] ++ t := by
  induction s with
  | nil =>
    obtain ⟨x, hx, hpx⟩ := h
    obtain rfl : x = c := by simpa using hx
    exact ⟨[], by simp [hpx], fun t => by simp [hpx]⟩
  | cons y s ih =>
    cases hy : p y with
    | false => exact ⟨y :: s, by simp [hy], fun t => by simp [hy]⟩
    | true =>
      have h' : ∃ x ∈ s ++ [c], p x = false := by
        obtain ⟨x, hx, hpx⟩ := h
        rcases List.mem_cons.mp hx with rfl | hx
        · exact absurd (hy.symm.trans hpx) (by simp)
        · exact ⟨x, hx, hpx⟩
      obtain ⟨s', h1, h2⟩ := ih h'
      refine ⟨s', ?_, ?_⟩
      · rw [List.cons_append, List.dropWhile_cons_of_pos hy, h1]
      · intro t
        rw [List.cons_append, List.cons_append, List.dropWhile_cons_of_pos hy, h2]

/-- A run of a set ends before a byte outside it, whatever follows. -/
theorem takeWhile_concat {p : UInt8 → Bool} {s : List UInt8} {c : UInt8} (hc : p c = false)
    (t : List UInt8) : (s ++ [c] ++ t).takeWhile p = (s ++ [c]).takeWhile p := by
  induction s with
  | nil => simp [hc]
  | cons y s ih =>
    cases hy : p y with
    | false => simp [hy]
    | true =>
      rw [List.cons_append, List.cons_append, List.takeWhile_cons_of_pos hy, ih,
        List.takeWhile_cons_of_pos hy]

/-- **`%u` on an input that is not all white space** and ends in a byte that is neither a digit
nor a sign: what follows the input is left alone, and some of the input is too. -/
theorem scanUnsigned_append {s : List UInt8} {c : UInt8} (hd : isdigit c = false) (h45 : c ≠ 45)
    (h43 : c ≠ 43) (hs : ∃ x ∈ s ++ [c], isspace x = false) (t : List UInt8) :
    (scanUnsigned (s ++ [c]) = none ∧ scanUnsigned (s ++ [c] ++ t) = none) ∨
      ∃ v s', scanUnsigned (s ++ [c]) = some (v, s' ++ [c]) ∧
        scanUnsigned (s ++ [c] ++ t) = some (v, s' ++ [c] ++ t) := by
  obtain ⟨s₁, h1, h1t⟩ := dropWhile_concat hs
  obtain ⟨s₂, h2⟩ := scanSign_concat (s := s₁) h45 h43
  have h2t : scanSign (s₁ ++ [c] ++ t) = ((scanSign (s₁ ++ [c])).1, s₂ ++ [c] ++ t) := by
    rw [scanSign_append (by simp), h2]
  obtain ⟨s₃, h3, h3t⟩ := dropWhile_concat (p := isdigit) (s := s₂) (c := c)
    ⟨c, List.mem_append_right _ List.mem_cons_self, hd⟩
  rw [scanUnsigned, scanUnsigned, h1, h1t, h2t]
  simp only [h2, takeWhile_concat hd]
  by_cases hdig : (s₂ ++ [c]).takeWhile isdigit = []
  · exact Or.inl ⟨if_pos hdig, if_pos hdig⟩
  · rw [if_neg hdig, if_neg hdig, h3, h3t]
    exact Or.inr ⟨_, s₃, rfl, rfl⟩

/-- `%u` skips white space. -/
theorem scanUnsigned_space_append {s : List UInt8} (h : ∀ x ∈ s, isspace x = true)
    (t : List UInt8) : scanUnsigned (s ++ t) = scanUnsigned t := by
  rw [scanUnsigned, scanUnsigned, List.dropWhile_append_of_pos h]

theorem length_scanSign_le (s : List UInt8) : (scanSign s).2.length ≤ s.length := by
  cases s with
  | nil => exact le_refl _
  | cons x s =>
    rw [scanSign, List.length_cons]
    split
    · exact Nat.le_succ _
    · split
      · exact Nat.le_succ _
      · exact le_refl _

/-- `%u` takes at least one digit. -/
theorem length_scanUnsigned {s r : List UInt8} {v : UInt32} (h : scanUnsigned s = some (v, r)) :
    r.length < s.length := by
  unfold scanUnsigned at h
  have h1 := length_scanSign_le (s.dropWhile isspace)
  have h2 := (List.dropWhile_sublist (l := s) isspace).length_le
  generalize scanSign (s.dropWhile isspace) = ns at h h1
  obtain ⟨negative, s'⟩ := ns
  simp only at h h1
  split at h
  · exact absurd h (by simp)
  · rename_i hdig
    simp only [Option.some.injEq, Prod.mk.injEq] at h
    have h3 := congrArg List.length (List.takeWhile_append_dropWhile (p := isdigit) (l := s'))
    have h4 := List.length_pos_iff.mpr hdig
    rw [List.length_append, h.2] at h3
    omega

/-! ## 5. What `%u` accepts -/

/-- The text of an optional sign; `true` is the minus. -/
def signText : Option Bool → List UInt8
  | none => []
  | some true => [45]
  | some false => [43]

/-- A number as `%u` reads it. -/
structure Numeral where
  space : List UInt8
  sign : Option Bool
  digits : List UInt8
  isspace : ∀ x ∈ space, isspace x = true
  isdigit : ∀ x ∈ digits, isdigit x = true
  ne_nil : digits ≠ []

namespace Numeral

def text (n : Numeral) : List UInt8 := n.space ++ (signText n.sign ++ n.digits)

def value (n : Numeral) : UInt32 := UInt32.ofNat (strtoul (n.sign = some true) n.digits)

end Numeral

/-- The next byte, if there is one, is no digit. -/
def DigitsEnd (s : List UInt8) : Prop := ∀ x ∈ s.head?, isdigit x = false

/-- A sign is split off. -/
theorem exists_sign (s : List UInt8) :
    ∃ sign : Option Bool, s = signText sign ++ (scanSign s).2 ∧
      (scanSign s).1 = decide (sign = some true) := by
  cases s with
  | nil => exact ⟨none, rfl, rfl⟩
  | cons x s =>
    rw [scanSign]
    split
    · rename_i hx
      exact ⟨some true, by rw [hx]; rfl, rfl⟩
    · split
      · rename_i hx
        exact ⟨some false, by rw [hx]; rfl, rfl⟩
      · exact ⟨none, rfl, rfl⟩

/-- A sign in front of a digit is scanned. -/
theorem scanSign_signText (sign : Option Bool) {d : UInt8} (hd : isdigit d = true)
    (s : List UInt8) :
    scanSign (signText sign ++ d :: s) = (decide (sign = some true), d :: s) := by
  rcases sign with _ | _ | _
  · have h45 : d ≠ 45 := by
      rintro rfl
      exact absurd hd (by decide)
    have h43 : d ≠ 43 := by
      rintro rfl
      exact absurd hd (by decide)
    rw [signText, List.nil_append, scanSign, if_neg h45, if_neg h43]
    rfl
  · rfl
  · rfl

theorem isspace_of_isdigit {d : UInt8} (hd : isdigit d = true) : isspace d = false := by
  rw [isdigit, Bool.and_eq_true, decide_eq_true_eq, decide_eq_true_eq, UInt8.le_iff_toNat_le,
    UInt8.le_iff_toNat_le] at hd
  have h48 : (48 : UInt8).toNat = 48 := rfl
  have h13 : (13 : UInt8).toNat = 13 := rfl
  have h32 : (32 : UInt8).toNat = 32 := rfl
  have hne : d ≠ 32 := by
    rintro rfl
    omega
  have hgt : ¬ d ≤ 13 := by
    rw [UInt8.le_iff_toNat_le]
    omega
  simp [isspace, hne, hgt]

/-- White space ends where a signed digit begins. -/
theorem dropWhile_isspace_signText (sign : Option Bool) {d : UInt8} (hd : isdigit d = true)
    (s : List UInt8) :
    (signText sign ++ d :: s).dropWhile isspace = signText sign ++ d :: s := by
  rcases sign with _ | _ | _
  · exact List.dropWhile_cons_of_neg (by rw [isspace_of_isdigit hd]; exact Bool.false_ne_true)
  · rfl
  · rfl

theorem takeWhile_eq_nil_of_digitsEnd {s : List UInt8} (h : DigitsEnd s) :
    s.takeWhile isdigit = [] := by
  cases s with
  | nil => rfl
  | cons x s =>
    have hx : isdigit x = false := h x rfl
    exact List.takeWhile_cons_of_neg (by rw [hx]; exact Bool.false_ne_true)

theorem dropWhile_eq_self_of_digitsEnd {s : List UInt8} (h : DigitsEnd s) :
    s.dropWhile isdigit = s := by
  have happ := List.takeWhile_append_dropWhile (p := isdigit) (l := s)
  rwa [takeWhile_eq_nil_of_digitsEnd h] at happ

theorem digitsEnd_dropWhile (s : List UInt8) : DigitsEnd (s.dropWhile isdigit) := by
  induction s with
  | nil => exact fun x hx => absurd hx (by simp)
  | cons y s ih =>
    cases hy : isdigit y with
    | true => rwa [List.dropWhile_cons_of_pos hy]
    | false =>
      rw [List.dropWhile_cons_of_neg (by rw [hy]; exact Bool.false_ne_true)]
      intro x hx
      rw [← Option.some.inj hx]
      exact hy

/-- **What `%u` accepts**: a number, with no further digit behind it. -/
theorem scanUnsigned_eq_some_iff {s r : List UInt8} {v : UInt32} :
    scanUnsigned s = some (v, r) ↔ ∃ n : Numeral, s = n.text ++ r ∧ v = n.value ∧ DigitsEnd r := by
  constructor
  · intro h
    obtain ⟨sign, hsign, hneg⟩ := exists_sign (s.dropWhile isspace)
    have hspace := List.takeWhile_append_dropWhile (p := isspace) (l := s)
    unfold scanUnsigned at h
    generalize scanSign (s.dropWhile isspace) = ns at h hsign hneg
    obtain ⟨negative, s'⟩ := ns
    simp only at h hsign hneg
    split at h
    · cases h
    · rename_i hdig
      simp only [Option.some.injEq, Prod.mk.injEq] at h
      obtain ⟨rfl, rfl⟩ := h
      refine ⟨⟨s.takeWhile isspace, sign, s'.takeWhile isdigit, ?_, ?_, hdig⟩, ?_, ?_,
        digitsEnd_dropWhile s'⟩
      · exact fun x hx => List.mem_takeWhile_imp hx
      · exact fun x hx => List.mem_takeWhile_imp hx
      · rw [Numeral.text, List.append_assoc, List.append_assoc, List.takeWhile_append_dropWhile,
          ← hsign, hspace]
      · rw [Numeral.value, hneg]
  · rintro ⟨n, rfl, rfl, hend⟩
    obtain ⟨d, ds, hds⟩ := List.exists_cons_of_ne_nil n.ne_nil
    have hd : isdigit d = true := n.isdigit d (by rw [hds]; exact List.mem_cons_self)
    have htext : n.text ++ r = n.space ++ (signText n.sign ++ d :: (ds ++ r)) := by
      rw [Numeral.text, hds, List.append_assoc, List.append_assoc, List.cons_append]
    have hcons : d :: (ds ++ r) = n.digits ++ r := by rw [hds, List.cons_append]
    rw [htext, scanUnsigned, List.dropWhile_append_of_pos n.isspace,
      dropWhile_isspace_signText n.sign hd, scanSign_signText n.sign hd, hcons]
    simp only
    rw [List.takeWhile_append_of_pos n.isdigit, takeWhile_eq_nil_of_digitsEnd hend,
      List.append_nil, if_neg n.ne_nil, List.dropWhile_append_of_pos n.isdigit,
      dropWhile_eq_self_of_digitsEnd hend]
    rfl

/-! ## 6. Numbers written in decimal -/

/-- Digits alone. -/
def Numeral.ofDigits (digits : List UInt8) (h : ∀ x ∈ digits, CString.isdigit x = true)
    (hne : digits ≠ []) : Numeral :=
  ⟨[], none, digits, fun _ hx => absurd hx List.not_mem_nil, h, hne⟩

/-- Digits alone have the number they denote as their value, if it fits. -/
theorem Numeral.toNat_value_ofDigits {digits : List UInt8}
    {h : ∀ x ∈ digits, CString.isdigit x = true} {hne : digits ≠ []}
    (hlt : decimal digits < 2 ^ 32) :
    (Numeral.ofDigits digits h hne).value.toNat = decimal digits := by
  have hul : strtoul false digits = decimal digits := by
    rw [strtoul, if_neg (by omega), if_neg Bool.false_ne_true]
  show (UInt32.ofNat (strtoul false digits)).toNat = decimal digits
  rw [hul]
  exact UInt32.toNat_ofNat_of_lt' hlt

/-- `%u` in the other direction: the digits of a number. -/
def formatUnsigned (n : ℕ) : List UInt8 :=
  if n < 10 then [UInt8.ofNat (48 + n)]
  else formatUnsigned (n / 10) ++ [UInt8.ofNat (48 + n % 10)]

theorem isdigit_ofNat {n : ℕ} (h : n < 10) : isdigit (UInt8.ofNat (48 + n)) = true := by
  revert n
  decide

theorem toNat_digit {n : ℕ} (h : n < 10) : (UInt8.ofNat (48 + n)).toNat - 48 = n := by
  revert n
  decide

theorem decimal_concat (digits : List UInt8) (d : UInt8) :
    decimal (digits ++ [d]) = 10 * decimal digits + (d.toNat - 48) := by
  rw [decimal, List.foldl_append]
  rfl

/-- **A number is read back from its digits.** -/
theorem decimal_formatUnsigned (n : ℕ) : decimal (formatUnsigned n) = n := by
  induction n using formatUnsigned.induct with
  | case1 n h =>
    rw [formatUnsigned, if_pos h]
    exact (decimal_concat [] _).trans (by rw [toNat_digit h]; exact Nat.zero_add n)
  | case2 n h ih =>
    rw [formatUnsigned, if_neg h, decimal_concat, ih, toNat_digit (Nat.mod_lt _ (by decide))]
    omega

theorem isdigit_formatUnsigned (n : ℕ) : ∀ x ∈ formatUnsigned n, isdigit x = true := by
  induction n using formatUnsigned.induct with
  | case1 n h =>
    rw [formatUnsigned, if_pos h]
    intro x hx
    rw [List.mem_singleton.mp hx]
    exact isdigit_ofNat h
  | case2 n h ih =>
    rw [formatUnsigned, if_neg h]
    intro x hx
    rcases List.mem_append.mp hx with hx | hx
    · exact ih x hx
    · rw [List.mem_singleton.mp hx]
      exact isdigit_ofNat (Nat.mod_lt _ (by decide))

theorem formatUnsigned_ne_nil (n : ℕ) : formatUnsigned n ≠ [] := by
  unfold formatUnsigned
  split
  · exact List.cons_ne_nil _ _
  · exact List.concat_ne_nil _ _

end CString
