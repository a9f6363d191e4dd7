/-
# Singly linked lists in memory

The list macros of `queue.h`, over elements of any type.  Memory is the link of every element that
is allocated (`Links.next`), and an operation that follows `NULL` or touches an element that is not
allocated has no result.

`Chain next p xs` says that the links from `p` on go through `xs` and end in `NULL`.  The elements
of a chain are distinct (`Chain.nodup`), as the links from an element decide what follows it
(`Chain.unique`).  On a chain the operations are those on lists: `insertHead_chain`,
`removeHead_chain` and `remove_chain` also say which links they leave alone, and that is what a
loop needs that removes elements while it follows the list.
-/
import Mathlib.Data.List.Basic
import Mathlib.Data.List.Nodup
import Mathlib.Logic.Function.Basic

namespace SList

variable {α : Type*}

/-! ## 1. The macros -/

/-- A list in memory: `slh_first` of its head, and `sle_next` of every element that is allocated,
none for what is not. -/
structure Links (α : Type*) where
  first : Option α
  next : α → Option (Option α)

namespace Links

variable [DecidableEq α]

/-- An element is allocated; its link is whatever was there. -/
def alloc (l : Links α) (x : α) (junk : Option α) : Links α :=
  { l with next := Function.update l.next x (some junk) }

/-- An element is released. -/
def free (l : Links α) (x : α) : Links α := { l with next := Function.update l.next x none }

/-- An assignment to the link of an element. -/
def setNext (l : Links α) (x : α) (p : Option α) : Option (Links α) :=
  if (l.next x).isSome then some { l with next := Function.update l.next x (some p) } else none

/-- `SLIST_INSERT_HEAD`. -/
def insertHead (l : Links α) (x : α) : Option (Links α) :=
  (l.setNext x l.first).map fun l => { l with first := some x }

omit [DecidableEq α] in
/-- `SLIST_REMOVE_HEAD`. -/
def removeHead (l : Links α) : Option (Links α) :=
  l.first.bind fun x => (l.next x).map fun p => { l with first := p }

/-- `SLIST_REMOVE_AFTER`. -/
def removeAfter (l : Links α) (x : α) : Option (Links α) :=
  (l.next x).bind fun p => p.bind fun y => (l.next y).bind fun q => l.setNext x q

/-- The loop of `SLIST_REMOVE`: the element whose link is `x`, looked for from `curelm` on.  It
gives up when it has followed `fuel` links. -/
def before (l : Links α) (x : α) : ℕ → α → Option α
  | 0, _ => none
  | fuel + 1, curelm =>
    match l.next curelm with
    | none => none
    | some p =>
      if p = some x then some curelm
      else
        match p with
        | none => none
        | some y => before l x fuel y

/-- `SLIST_REMOVE`. -/
def remove (l : Links α) (x : α) (fuel : ℕ) : Option (Links α) :=
  if l.first = some x then l.removeHead
  else l.first.bind fun curelm => (l.before x fuel curelm).bind l.removeAfter

omit [DecidableEq α] in
/-- The head of `SLIST_FOREACH_SAFE` with this `var`: the loop ends, or its body runs with `var`
and `tvar`. -/
def foreachSafe (l : Links α) : Option α → Option (Option (α × Option α))
  | none => some none
  | some var => (l.next var).map fun tvar => some (var, tvar)

end Links

/-! ## 2. Chains -/

/-- The links from a pointer on go through these elements and end in `NULL`. -/
inductive Chain (next : α → Option (Option α)) : Option α → List α → Prop
  | nil : Chain next none []
  | cons {x : α} {q : Option α} {xs : List α} :
      next x = some q → Chain next q xs → Chain next (some x) (x :: xs)

section Chain

variable {next next' : α → Option (Option α)} {p q : Option α} {x y : α} {xs ys pre post : List α}

/-- The elements of a chain are allocated. -/
theorem Chain.alive (h : Chain next p xs) (hx : x ∈ xs) : ∃ q, next x = some q := by
  induction h with
  | nil => exact absurd hx List.not_mem_nil
  | cons hq _ ih =>
    rcases List.mem_cons.mp hx with rfl | hmem
    · exact ⟨_, hq⟩
    · exact ih hmem

/-- **The links decide the chain.** -/
theorem Chain.unique (h : Chain next p xs) (h' : Chain next p ys) : xs = ys := by
  induction h generalizing ys with
  | nil =>
    cases h' with
    | nil => rfl
  | cons hq _ ih =>
    cases h' with
    | cons hq' hrest =>
      obtain rfl := Option.some.inj (hq.symm.trans hq')
      rw [ih hrest]

/-- The chain from one of its elements on. -/
theorem Chain.suffix (h : Chain next p (pre ++ x :: post)) :
    Chain next (some x) (x :: post) := by
  induction pre generalizing p with
  | nil =>
    cases h with
    | cons hq hrest => exact Chain.cons hq hrest
  | cons y pre ih =>
    cases h with
    | cons hq hrest => exact ih hrest

/-- Behind an element comes what its link points to. -/
theorem Chain.after (h : Chain next p (pre ++ x :: post)) :
    ∃ q, next x = some q ∧ Chain next q post := by
  cases h.suffix with
  | cons hq hrest => exact ⟨_, hq, hrest⟩

/-- **No element is met twice**: the links from there would go round forever. -/
theorem Chain.nodup (h : Chain next p xs) : xs.Nodup := by
  induction h with
  | nil => exact List.nodup_nil
  | @cons x q xs hq hrest ih =>
    refine List.nodup_cons.mpr ⟨?_, ih⟩
    intro hmem
    obtain ⟨pre, post, rfl⟩ := List.append_of_mem hmem
    have heq := (Chain.cons hq hrest).unique hrest.suffix
    have hlen := congrArg List.length heq
    simp only [List.length_cons, List.length_append] at hlen
    omega

/-- A chain depends on the links of its elements only. -/
theorem Chain.congr (h : Chain next p xs) (heq : ∀ x ∈ xs, next' x = next x) :
    Chain next' p xs := by
  induction h with
  | nil => exact Chain.nil
  | @cons x q xs hq _ ih =>
    have hx : next' x = some q := (heq x List.mem_cons_self).trans hq
    exact Chain.cons hx (ih fun y hy => heq y (List.mem_cons_of_mem x hy))

/-- A chain starts at its first element. -/
theorem Chain.head (h : Chain next p (x :: xs)) :
    p = some x ∧ ∃ q, next x = some q ∧ Chain next q xs := by
  cases h with
  | cons hq hrest => exact ⟨rfl, _, hq, hrest⟩

/-- A chain does not start at a later element. -/
theorem Chain.head_ne (h : Chain next p (pre ++ y :: x :: post)) : p ≠ some x := by
  have hnd := h.nodup
  cases pre with
  | nil =>
    rw [h.head.1]
    rintro heq
    obtain rfl := Option.some.inj heq
    exact (List.nodup_cons.mp hnd).1 List.mem_cons_self
  | cons z pre =>
    rw [h.head.1]
    rintro heq
    obtain rfl := Option.some.inj heq
    exact (List.nodup_cons.mp hnd).1
      (List.mem_append_right pre (List.mem_cons_of_mem y List.mem_cons_self))

variable [DecidableEq α]

theorem Chain.update (h : Chain next p xs) (hx : x ∉ xs) (v : Option (Option α)) :
    Chain (Function.update next x v) p xs := by
  refine h.congr fun y hy => Function.update_of_ne ?_ _ _
  rintro rfl
  exact hx hy

/-- **Relinking**: another chain is hung behind an element. -/
theorem Chain.relink (h : Chain next p (pre ++ y :: xs)) (hq : Chain next q post)
    (hpost : y ∉ post) :
    Chain (Function.update next y (some q)) p (pre ++ y :: post) := by
  have hnd := h.nodup
  induction pre generalizing p with
  | nil =>
    rw [h.head.1]
    exact Chain.cons (Function.update_self _ _ _) (hq.update hpost _)
  | cons z pre ih =>
    obtain ⟨rfl, r, hr, hrest⟩ := h.head
    have hne : z ≠ y := by
      rintro rfl
      exact (List.nodup_cons.mp hnd).1 (List.mem_append_right _ List.mem_cons_self)
    refine Chain.cons ?_ (ih hrest (List.nodup_cons.mp hnd).2)
    rw [Function.update_of_ne hne]
    exact hr

end Chain

/-! ## 3. The operations on chains -/

namespace Links

variable {l : Links α} {x y : α} {xs pre post : List α}

/-- At an element of a chain the body of the loop runs with what its link points to. -/
theorem foreachSafe_cons {q : Option α} (hq : l.next x = some q) :
    l.foreachSafe (some x) = some (some (x, q)) := by
  rw [foreachSafe, hq, Option.map_some]

/-- The first element is taken off. -/
theorem removeHead_chain (h : Chain l.next l.first (x :: xs)) :
    ∃ l', l.removeHead = some l' ∧ Chain l'.next l'.first xs ∧ l'.next = l.next := by
  obtain ⟨hfirst, q, hq, hrest⟩ := h.head
  refine ⟨{ l with first := q }, ?_, hrest, rfl⟩
  rw [removeHead, hfirst, Option.bind_some, hq, Option.map_some]

variable [DecidableEq α]

theorem setNext_eq {q : Option α} (hq : l.next x = some q) (p : Option α) :
    l.setNext x p = some { l with next := Function.update l.next x (some p) } := by
  rw [setNext, hq]
  exact if_pos rfl

/-- An allocated element is put in front. -/
theorem insertHead_chain {q : Option α} (h : Chain l.next l.first xs) (hq : l.next x = some q)
    (hx : x ∉ xs) :
    ∃ l', l.insertHead x = some l' ∧ Chain l'.next l'.first (x :: xs) ∧
      ∀ y, y ≠ x → l'.next y = l.next y := by
  refine ⟨⟨some x, Function.update l.next x (some l.first)⟩, ?_, ?_, ?_⟩
  · rw [insertHead, setNext_eq hq, Option.map_some]
  · exact Chain.cons (Function.update_self _ _ _) (h.update hx _)
  · intro y hy
    exact Function.update_of_ne hy _ _

/-- The loop of `SLIST_REMOVE` finds the element before `x`. -/
theorem before_chain {p : α} (h : Chain l.next (some p) (pre ++ y :: x :: post)) {fuel : ℕ}
    (hfuel : pre.length < fuel) : l.before x fuel p = some y := by
  induction pre generalizing p fuel with
  | nil =>
    obtain ⟨hp, q, hq, hrest⟩ := h.head
    obtain rfl := Option.some.inj hp
    obtain ⟨n, rfl⟩ := Nat.exists_eq_succ_of_ne_zero (Nat.ne_of_gt hfuel)
    rw [before, hq]
    exact if_pos hrest.head.1
  | cons z pre ih =>
    obtain ⟨hp, q, hq, hrest⟩ := h.head
    obtain rfl := Option.some.inj hp
    obtain ⟨n, rfl⟩ := Nat.exists_eq_succ_of_ne_zero (Nat.ne_of_gt (Nat.zero_lt_of_lt hfuel))
    have hlt : pre.length < n := Nat.lt_of_succ_lt_succ hfuel
    have hne := hrest.head_ne
    cases q with
    | none =>
      -- the links do not end before the element that is looked for
      cases pre with
      | nil => cases hrest
      | cons => cases hrest
    | some w =>
      rw [before, hq]
      dsimp only
      rw [if_neg hne]
      exact ih hrest hlt

/-- **`SLIST_REMOVE` takes out its element**, and touches no link but that of the element before
it. -/
theorem remove_chain (h : Chain l.next l.first (pre ++ x :: post)) {fuel : ℕ}
    (hfuel : pre.length ≤ fuel) :
    ∃ l', l.remove x fuel = some l' ∧ Chain l'.next l'.first (pre ++ post) ∧
      ∀ y, y ∉ pre → l'.next y = l.next y := by
  rcases List.eq_nil_or_concat pre with rfl | ⟨pre, y, rfl⟩
  · obtain ⟨l', hl', hchain, hnext⟩ := removeHead_chain h
    refine ⟨l', ?_, hchain, fun y _ => congrFun hnext y⟩
    have hfirst : l.first = some x := h.head.1
    rw [remove, if_pos hfirst]
    exact hl'
  · rw [List.concat_eq_append] at h hfuel ⊢
    obtain ⟨q, hq, hpost⟩ := h.after
    rw [List.append_assoc, List.singleton_append] at h ⊢
    obtain ⟨q', hq', hxpost⟩ := h.after
    obtain rfl : q' = some x := hxpost.head.1
    have hypost : y ∉ post := by
      intro hmem
      have hnd := (List.nodup_append.mp h.nodup).2.1
      exact (List.nodup_cons.mp hnd).1 (List.mem_cons_of_mem x hmem)
    have hlen : pre.length < fuel := by
      rw [List.length_append, List.length_singleton] at hfuel
      omega
    refine ⟨{ l with next := Function.update l.next y (some q) }, ?_, h.relink hpost hypost, ?_⟩
    · have hne := h.head_ne
      cases hp : l.first with
      | none =>
        rw [hp] at h
        cases pre <;> cases h
      | some p =>
        rw [hp] at h hne
        rw [remove, hp, if_neg hne, Option.bind_some, before_chain h hlen, Option.bind_some,
          removeAfter, hq', Option.bind_some, Option.bind_some, hq, Option.bind_some,
          setNext_eq hq', hp]
    · intro z hz
      refine Function.update_of_ne ?_ _ _
      rintro rfl
      exact hz (List.mem_append_right _ List.mem_cons_self)

/-- What is allocated is the same. -/
def SameMemory (l l' : Links α) : Prop := ∀ x, (l'.next x).isSome = (l.next x).isSome

theorem update_isSome (next : α → Option (Option α)) (x y : α) (v : Option (Option α)) :
    (Function.update next x v y).isSome = if x = y then v.isSome else (next y).isSome := by
  split
  · rename_i hxy
    rw [hxy, Function.update_self]
  · rename_i hxy
    rw [Function.update_of_ne (Ne.symm hxy)]

theorem alloc_isSome (l : Links α) (x y : α) (junk : Option α) :
    ((l.alloc x junk).next y).isSome = if x = y then true else (l.next y).isSome :=
  update_isSome l.next x y (some junk)

theorem free_isSome (l : Links α) (x y : α) :
    ((l.free x).next y).isSome = if x = y then false else (l.next y).isSome :=
  update_isSome l.next x y none

theorem sameMemory_setNext {l l' : Links α} {p : Option α} (h : l.setNext x p = some l') :
    SameMemory l l' := by
  unfold setNext at h
  split at h
  · rename_i halloc
    obtain rfl := Option.some.inj h
    intro y
    refine (update_isSome l.next x y (some p)).trans ?_
    split
    · rename_i hxy
      rw [← hxy, halloc]
      rfl
    · rfl
  · cases h

theorem sameMemory_insertHead {l l' : Links α} (h : l.insertHead x = some l') :
    SameMemory l l' := by
  obtain ⟨l'', hset, rfl⟩ := Option.map_eq_some_iff.mp h
  have hsame : SameMemory l l'' := sameMemory_setNext hset
  exact hsame

omit [DecidableEq α] in
theorem sameMemory_removeHead {l l' : Links α} (h : l.removeHead = some l') : SameMemory l l' := by
  obtain ⟨y, -, h⟩ := Option.bind_eq_some_iff.mp h
  obtain ⟨p, -, rfl⟩ := Option.map_eq_some_iff.mp h
  exact fun _ => rfl

theorem sameMemory_removeAfter {l l' : Links α} (h : l.removeAfter x = some l') :
    SameMemory l l' := by
  obtain ⟨p, -, h⟩ := Option.bind_eq_some_iff.mp h
  obtain ⟨y, -, h⟩ := Option.bind_eq_some_iff.mp h
  obtain ⟨q, -, h⟩ := Option.bind_eq_some_iff.mp h
  exact sameMemory_setNext h

/-- Taking an element out releases nothing. -/
theorem sameMemory_remove {l l' : Links α} {fuel : ℕ} (h : l.remove x fuel = some l') :
    SameMemory l l' := by
  unfold remove at h
  split at h
  · exact sameMemory_removeHead h
  · obtain ⟨p, -, h⟩ := Option.bind_eq_some_iff.mp h
    obtain ⟨y, -, h⟩ := Option.bind_eq_some_iff.mp h
    exact sameMemory_removeAfter h

end Links

end SList
