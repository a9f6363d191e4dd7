/-
# Positions in a concatenation of segments

A store that keeps a list of segments and addresses them by one absolute position, the
position in their concatenation, needs three facts.

* **Lookup.**  Walking the segments and subtracting their sizes finds the segment a position
  falls in, and fails exactly at the end of the concatenation (`locate_eq_some_iff`,
  `locate_eq_none_iff`).
* **Bijection.**  A pair (segment, offset inside it) and an absolute position determine each
  other (`locate_position`, `position_inj`).
* **Contents.**  What follows a position in the concatenation is the rest of the located
  segment and then the later segments (`drop_flatten_of_locate`).

The last section is the fold that cuts a stream of pieces into groups, each closed by the
first piece that makes the accumulated group satisfy a predicate.
-/
import Mathlib.Data.List.Basic
import Mathlib.Data.List.DropRight
import Mathlib.Algebra.BigOperators.Group.List.Basic
import Mathlib.Algebra.GroupWithZero.Nat

namespace Segment

variable {α : Type*}

/-! ## 1. Locating a position -/

/-- The segment position `p` falls in, and the offset inside it. -/
def locate : List ℕ → ℕ → Option (ℕ × ℕ)
  | [], _ => none
  | n :: ns, p =>
    if p < n then some (0, p) else (locate ns (p - n)).map fun ko => (ko.1 + 1, ko.2)

/-- The absolute position of offset `o` in segment `k`. -/
def position (ns : List ℕ) (k o : ℕ) : ℕ := (ns.take k).sum + o

/-- **Lookup fails exactly past the end.** -/
theorem locate_eq_none_iff : ∀ {ns : List ℕ} {p : ℕ}, locate ns p = none ↔ ns.sum ≤ p
  | [], p => by simp [locate]
  | n :: ns, p => by
    have ih := @locate_eq_none_iff ns (p - n)
    simp only [locate, List.sum_cons]
    split
    · simp only [reduceCtorEq, false_iff]
      omega
    · rw [Option.map_eq_none_iff, ih]
      omega

/-- **Lookup finds the one segment the position falls in.** -/
theorem locate_eq_some_iff : ∀ {ns : List ℕ} {p k o : ℕ},
    locate ns p = some (k, o) ↔ ∃ n, ns[k]? = some n ∧ o < n ∧ position ns k o = p
  | [], p, k, o => by simp [locate]
  | n :: ns, p, k, o => by
    simp only [locate]
    split
    · rename_i hp
      constructor
      · intro h
        obtain ⟨rfl, rfl⟩ : 0 = k ∧ p = o := by simpa using h
        exact ⟨n, by simp, hp, by simp [position]⟩
      · rintro ⟨m, hm, hom, hpos⟩
        cases k with
        | zero => simp_all [position]
        | succ k =>
          simp only [position, List.take_succ_cons, List.sum_cons] at hpos
          omega
    · rename_i hp
      cases k with
      | zero =>
        constructor
        · intro h
          cases hl : locate ns (p - n) with
          | none => simp [hl] at h
          | some ko => simp [hl] at h
        · rintro ⟨m, hm, hom, hpos⟩
          simp only [List.length_cons, Nat.zero_lt_succ, List.getElem?_eq_getElem,
            List.getElem_cons_zero, Option.some.injEq] at hm
          simp only [position, List.take_zero, List.sum_nil, Nat.zero_add] at hpos
          omega
      | succ k =>
        have ih := @locate_eq_some_iff ns (p - n) k o
        have hmap : (locate ns (p - n)).map (fun ko => (ko.1 + 1, ko.2)) = some (k + 1, o) ↔
            locate ns (p - n) = some (k, o) := by
          cases locate ns (p - n) with
          | none => simp
          | some ko => simp [Prod.ext_iff]
        rw [hmap, ih]
        simp only [position, List.getElem?_cons_succ, List.take_succ_cons, List.sum_cons]
        constructor
        · rintro ⟨m, hm, hom, hpos⟩
          exact ⟨m, hm, hom, by omega⟩
        · rintro ⟨m, hm, hom, hpos⟩
          exact ⟨m, hm, hom, by omega⟩

/-- Looking an addressed position up gives the address back. -/
theorem locate_position {ns : List ℕ} {k o n : ℕ} (hk : ns[k]? = some n) (ho : o < n) :
    locate ns (position ns k o) = some (k, o) :=
  locate_eq_some_iff.mpr ⟨n, hk, ho, rfl⟩

/-- Lookup by prefix sums: a position is in the segment whose prefix sums it is between. -/
theorem locate_eq_some_iff_prefix {ns : List ℕ} {p k o : ℕ} :
    locate ns p = some (k, o) ↔
      (ns.take k).sum ≤ p ∧ p < (ns.take (k + 1)).sum ∧ o = p - (ns.take k).sum := by
  have hsum : (ns.take (k + 1)).sum = (ns.take k).sum + ns[k]?.toList.sum := by
    rw [List.take_add_one, List.sum_append]
  rw [locate_eq_some_iff, hsum]
  constructor
  · rintro ⟨n, hn, ho, hp⟩
    have hn' : ns[k]?.toList.sum = n := by simp [hn]
    unfold position at hp
    omega
  · rintro ⟨hle, hlt, ho⟩
    cases hn : ns[k]? with
    | none =>
      rw [hn] at hlt
      exact absurd hlt (Nat.not_lt.mpr hle)
    | some n =>
      have hn' : ns[k]?.toList.sum = n := by simp [hn]
      refine ⟨n, rfl, by omega, ?_⟩
      unfold position
      omega

/-- **Distinct addresses have distinct positions.** -/
theorem position_inj {ns : List ℕ} {k o n k' o' n' : ℕ} (hk : ns[k]? = some n) (ho : o < n)
    (hk' : ns[k']? = some n') (ho' : o' < n') (h : position ns k o = position ns k' o') :
    k = k' ∧ o = o' := by
  have h1 := locate_position hk ho
  rw [h, locate_position hk' ho'] at h1
  simpa [eq_comm] using h1

/-- Every position below the total is addressed. -/
theorem exists_locate {ns : List ℕ} {p : ℕ} (h : p < ns.sum) :
    ∃ k o, locate ns p = some (k, o) := by
  cases hl : locate ns p with
  | none =>
    have := locate_eq_none_iff.mp hl
    omega
  | some ko => exact ⟨ko.1, ko.2, rfl⟩

/-- An addressed position is below the total. -/
theorem position_lt_sum {ns : List ℕ} {k o n : ℕ} (hk : ns[k]? = some n) (ho : o < n) :
    position ns k o < ns.sum := by
  by_contra hge
  have hn := locate_eq_none_iff.mpr (Nat.le_of_not_lt hge)
  rw [locate_position hk ho] at hn
  exact absurd hn (by simp)

/-! ## 2. What follows a position -/

/-- The sizes of the segments. -/
def sizes (L : List (List α)) : List ℕ := L.map List.length

theorem sum_sizes (L : List (List α)) : (sizes L).sum = L.flatten.length := by
  simp [sizes, List.length_flatten]

theorem sizes_getElem? {L : List (List α)} {k : ℕ} {s : List α} (h : L[k]? = some s) :
    (sizes L)[k]? = some s.length := by
  simp [sizes, h]

theorem take_sum_sizes (L : List (List α)) (k : ℕ) :
    ((sizes L).take k).sum = (L.take k).flatten.length := by
  simp [sizes, List.length_flatten, List.map_take]

/-- **The concatenation from an addressed position on**: the rest of the segment, then every
later segment. -/
theorem drop_position_flatten {L : List (List α)} {k o : ℕ} {s : List α} (hk : L[k]? = some s)
    (ho : o ≤ s.length) :
    L.flatten.drop (position (sizes L) k o) = s.drop o ++ (L.drop (k + 1)).flatten := by
  obtain ⟨hlt, rfl⟩ := List.getElem?_eq_some_iff.mp hk
  have hsplit : L = L.take k ++ L[k] :: L.drop (k + 1) := by
    rw [← List.drop_eq_getElem_cons hlt, List.take_append_drop]
  have hfl : L.flatten = (L.take k).flatten ++ (L[k] ++ (L.drop (k + 1)).flatten) := by
    conv_lhs => rw [hsplit]
    rw [List.flatten_append, List.flatten_cons]
  rw [position, take_sum_sizes, hfl, List.drop_append, List.drop_of_length_le (by omega),
    List.nil_append, Nat.add_sub_cancel_left, List.drop_append_of_le_length ho]

/-- The same fact in the form a lookup delivers it. -/
theorem drop_flatten_of_locate {L : List (List α)} {p k o : ℕ}
    (h : locate (sizes L) p = some (k, o)) :
    ∃ s, L[k]? = some s ∧ o < s.length ∧
      L.flatten.drop p = s.drop o ++ (L.drop (k + 1)).flatten := by
  obtain ⟨n, hn, ho, hp⟩ := locate_eq_some_iff.mp h
  obtain ⟨s, hs, rfl⟩ : ∃ s, L[k]? = some s ∧ s.length = n := by
    simpa [sizes] using hn
  exact ⟨s, hs, ho, by rw [← hp, drop_position_flatten hs (le_of_lt ho)]⟩

/-- **A position read from a list that lost its first segments** gives what it gave before only
if nothing was lost. -/
theorem drop_flatten_drop_eq_iff {L : List (List α)} {n p : ℕ} (hp : p < L.flatten.length)
    (hn : n = 0 ∨ (L.take n).flatten ≠ []) :
    (L.drop n).flatten.drop p = L.flatten.drop p ↔ n = 0 := by
  constructor
  · intro h
    by_contra hne
    have hlost : 0 < (L.take n).flatten.length :=
      List.length_pos_iff.mpr (hn.resolve_left hne)
    have hsplit : L.flatten.length = (L.take n).flatten.length + (L.drop n).flatten.length := by
      rw [← List.length_append, ← List.flatten_append, List.take_append_drop]
    have hlen := congrArg List.length h
    rw [List.length_drop, List.length_drop] at hlen
    omega
  · rintro rfl
    rfl

/-! ## 3. Keeping the last few segments -/

/-- Adding one element to the last `n` of a list. -/
theorem rtake_concat (n : ℕ) (l : List α) (x : α) :
    (l.rtake n ++ [x]).rtake n = (l ++ [x]).rtake n := by
  cases n with
  | zero => simp
  | succ n =>
    rw [List.rtake_concat_succ, List.rtake_concat_succ]
    congr 1
    simp only [List.rtake, List.length_drop, List.drop_drop]
    congr 1
    omega

theorem rtake_of_length_le {n : ℕ} {l : List α} (h : l.length ≤ n) : l.rtake n = l := by
  rw [List.rtake, Nat.sub_eq_zero_of_le h, List.drop_zero]

/-- A full window loses its head when an element is added. -/
theorem rtake_concat_of_length_eq {n : ℕ} (hn : 0 < n) {l : List α} (h : l.length = n) (x : α) :
    (l ++ [x]).rtake n = l.tail ++ [x] := by
  have h1 : (l ++ [x]).length - n = 1 := by simp [h]
  have h2 : l ≠ [] := by
    rintro rfl
    simp at h
    omega
  rw [List.rtake, h1]
  cases l with
  | nil => exact absurd rfl h2
  | cons y t => simp

/-! ## 4. Groups closed by a predicate -/

section Groups

variable (closes : List α → Bool)

/-- The groups closed so far and the group still open, each a list of the pieces it holds. -/
structure Groups (α : Type*) where
  closed : List (List (List α))
  opened : List (List α)

namespace Groups

/-- The bytes of the closed groups. -/
def contents (g : Groups α) : List (List α) := g.closed.map List.flatten

/-- The bytes of the open group. -/
def pending (g : Groups α) : List α := g.opened.flatten

/-- Add one piece: the open group takes it, and closes if it now satisfies the predicate. -/
def add (g : Groups α) (piece : List α) : Groups α :=
  let acc := g.opened ++ [piece]
  if closes acc.flatten then ⟨g.closed ++ [acc], []⟩ else ⟨g.closed, acc⟩

/-- Group a whole sequence of pieces. -/
def of (pieces : List (List α)) : Groups α := pieces.foldl (add closes) ⟨[], []⟩

theorem of_concat (pieces : List (List α)) (piece : List α) :
    of closes (pieces ++ [piece]) = (of closes pieces).add closes piece := by
  simp [of, List.foldl_append]

/-- **Grouping neither loses, repeats nor reorders a piece.** -/
theorem flatten_of (pieces : List (List α)) :
    (of closes pieces).closed.flatten ++ (of closes pieces).opened = pieces := by
  induction pieces using List.reverseRecOn with
  | nil => rfl
  | append_singleton ps p ih =>
    rw [of_concat, add]
    split
    · simp only [List.flatten_append, List.flatten_cons, List.flatten_nil, List.append_nil]
      rw [← List.append_assoc, ih]
    · rw [← List.append_assoc, ih]

/-- **The groups are the maximal ones**: a closed group satisfies the predicate and no shorter
nonempty run of its pieces does; no run of the open group's pieces does. -/
theorem of_maximal (pieces : List (List α)) :
    (∀ g ∈ (of closes pieces).closed, closes g.flatten = true ∧
      ∀ k, 0 < k → k < g.length → closes (g.take k).flatten = false) ∧
    ∀ k, 0 < k → k ≤ (of closes pieces).opened.length →
      closes ((of closes pieces).opened.take k).flatten = false := by
  induction pieces using List.reverseRecOn with
  | nil =>
    refine ⟨by simp [of], ?_⟩
    intro k hk hle
    simp only [of, List.foldl_nil, List.length_nil] at hle
    omega
  | append_singleton ps p ih =>
    obtain ⟨ihc, iho⟩ := ih
    rw [of_concat, add]
    have htake : ∀ k, k ≤ (of closes ps).opened.length →
        ((of closes ps).opened ++ [p]).take k = (of closes ps).opened.take k := fun k hk =>
      List.take_append_of_le_length hk
    split
    · rename_i hcl
      refine ⟨?_, fun k hk hle => by simp at hle; omega⟩
      intro g hg
      rcases List.mem_append.mp hg with hg | hg
      · exact ihc g hg
      · rw [List.mem_singleton.mp hg]
        refine ⟨hcl, ?_⟩
        intro k hk hlt
        rw [List.length_append, List.length_singleton] at hlt
        rw [htake k (by omega)]
        exact iho k hk (by omega)
    · rename_i hcl
      refine ⟨ihc, ?_⟩
      intro k hk hle
      rw [List.length_append, List.length_singleton] at hle
      rcases Nat.lt_or_ge (of closes ps).opened.length k with hlt | hge
      · rw [List.take_of_length_le (by simp; omega)]
        simpa using hcl
      · rw [htake k hge]
        exact iho k hk hge

/-- What adding a piece does to the bytes held. -/
theorem add_contents (g : Groups α) (piece : List α) :
    (g.add closes piece).contents =
        (if closes (g.pending ++ piece) then g.contents ++ [g.pending ++ piece] else g.contents) ∧
      (g.add closes piece).pending =
        (if closes (g.pending ++ piece) then [] else g.pending ++ piece) := by
  have hfl : (g.opened ++ [piece]).flatten = g.pending ++ piece := by simp [pending]
  rw [add, hfl]
  split
  · simp [contents, pending]
  · simp [contents, pending]

/-- **The stream survives grouping**: closed contents, then pending bytes. -/
theorem contents_append_pending (pieces : List (List α)) :
    (of closes pieces).contents.flatten ++ (of closes pieces).pending = pieces.flatten := by
  conv_rhs => rw [← flatten_of closes pieces]
  rw [contents, pending, List.flatten_append, List.flatten_flatten]

end Groups

end Groups

/-! ## 5. A stream as terminated lines and a tail -/

/-- `stream` is `lines`, each ended by its only `t`, and then a `tail` without `t`. -/
structure Lines (t : α) (stream : List α) (lines : List (List α)) (tail : List α) : Prop where
  eq : lines.flatten ++ tail = stream
  line : ∀ l ∈ lines, ∃ body, l = body ++ [t] ∧ t ∉ body
  tail : t ∉ tail

/-- A first line and its terminator can be read off a stream in one way only. -/
theorem line_unique {t : α} : ∀ {b b' r r' : List α}, t ∉ b → t ∉ b' →
    b ++ t :: r = b' ++ t :: r' → b = b' ∧ r = r'
  | [], [], _, _, _, _, h => ⟨rfl, by simpa using h⟩
  | [], y :: b', _, _, _, hb', h => by
    simp only [List.nil_append, List.cons_append, List.cons.injEq] at h
    exact absurd (List.mem_cons.mpr (Or.inl h.1)) hb'
  | x :: b, [], _, _, hb, _, h => by
    simp only [List.nil_append, List.cons_append, List.cons.injEq] at h
    exact absurd (List.mem_cons.mpr (Or.inl h.1.symm)) hb
  | x :: b, y :: b', r, r', hb, hb', h => by
    simp only [List.cons_append, List.cons.injEq] at h
    obtain ⟨h1, h2⟩ := line_unique (fun hm => hb (List.mem_cons_of_mem _ hm))
      (fun hm => hb' (List.mem_cons_of_mem _ hm)) h.2
    exact ⟨by rw [h.1, h1], h2⟩

/-- **A stream has one decomposition into lines and a tail.** -/
theorem Lines.unique {t : α} : ∀ {L L' : List (List α)} {p p' : List α}
    {stream : List α}, Lines t stream L p → Lines t stream L' p' → L = L' ∧ p = p'
  | [], [], p, p', _, h, h' => ⟨rfl, by simpa using h.eq.trans h'.eq.symm⟩
  | [], l :: L', p, p', _, h, h' => by
    obtain ⟨body, rfl, -⟩ := h'.line l List.mem_cons_self
    have heq : p = body ++ t :: (L'.flatten ++ p') := by simpa using h.eq.trans h'.eq.symm
    exact absurd (heq ▸ List.mem_append_right _ List.mem_cons_self) h.tail
  | l :: L, [], p, p', _, h, h' => by
    obtain ⟨body, rfl, -⟩ := h.line l List.mem_cons_self
    have heq : p' = body ++ t :: (L.flatten ++ p) := by simpa using h'.eq.trans h.eq.symm
    exact absurd (heq ▸ List.mem_append_right _ List.mem_cons_self) h'.tail
  | l :: L, l' :: L', p, p', _, h, h' => by
    obtain ⟨body, rfl, hb⟩ := h.line l List.mem_cons_self
    obtain ⟨body', rfl, hb'⟩ := h'.line l' List.mem_cons_self
    have heq : body ++ t :: (L.flatten ++ p) = body' ++ t :: (L'.flatten ++ p') := by
      simpa using h.eq.trans h'.eq.symm
    obtain ⟨rfl, hrest⟩ := line_unique hb hb' heq
    obtain ⟨rfl, rfl⟩ := Lines.unique
      ⟨rfl, fun l hl => h.line l (List.mem_cons_of_mem _ hl), h.tail⟩
      (⟨hrest.symm, fun l hl => h'.line l (List.mem_cons_of_mem _ hl), h'.tail⟩ :
        Lines t (L.flatten ++ p) L' p')
    exact ⟨rfl, rfl⟩

/-- Segments of the same lengths cut a stream in the same places. -/
theorem flatten_append_inj : ∀ {L L' : List (List α)} {p p' : List α},
    sizes L = sizes L' → L.flatten ++ p = L'.flatten ++ p' → L = L' ∧ p = p'
  | [], [], _, _, _, h => ⟨rfl, by simpa using h⟩
  | [], _ :: _, _, _, hs, _ => by simp [sizes] at hs
  | _ :: _, [], _, _, hs, _ => by simp [sizes] at hs
  | l :: L, l' :: L', p, p', hs, h => by
    simp only [sizes, List.map_cons, List.cons.injEq] at hs
    simp only [List.flatten_cons, List.append_assoc] at h
    obtain ⟨rfl, hrest⟩ := List.append_inj h hs.1
    obtain ⟨rfl, rfl⟩ := flatten_append_inj hs.2 hrest
    exact ⟨rfl, rfl⟩

end Segment
