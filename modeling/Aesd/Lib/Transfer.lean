/-
# Transfers in parts

A program hands data over by requests.  A request offers some of the data, and the other side takes
a part of it from the front, or refuses.  The data may itself come in chunks, one supplied when the
one before it has been handed over.

A transfer is faithful (`Faithful`) if each request offers what comes next after everything accepted
so far, and each chunk is supplied when everything before it is accepted.  What is accepted is then
a prefix of what is supplied (`Faithful.accepted_prefix`), whatever the answers are.

A system transfers faithfully if its states keep track of the two sequences (`tracked_run`).  The
usual way is an offset into the current chunk (`Partway`).
-/
import Aesd.Lib.Transition
import Mathlib.Data.Int.Basic

namespace Transfer

open Transition

variable {α σ ε : Type*}

/-! ## 1. Faithful transfers -/

/-- What a transfer consists of.  `answer` is how many of the elements offered were accepted; there
is none if the request was refused. -/
inductive Event (α : Type*)
  | supply (chunk : List α)
  | request (data : List α) (answer : Option ℕ)
  deriving DecidableEq

namespace Event

def supplied : Event α → List α
  | supply chunk => chunk
  | request _ _ => []

def accepted : Event α → List α
  | supply _ => []
  | request data answer => data.take (answer.getD 0)

/-- Whether an event is in its place where `sup` was supplied and `acc` accepted before it. -/
def Allowed (sup acc : List α) : Event α → Prop
  | supply _ => acc = sup
  | request data answer => data ≠ [] ∧ acc ++ data <+: sup ∧ ∀ n ∈ answer, n ≤ data.length

end Event

def supplied (es : List (Event α)) : List α := es.flatMap Event.supplied

def accepted (es : List (Event α)) : List α := es.flatMap Event.accepted

@[simp] theorem supplied_concat (es : List (Event α)) (e : Event α) :
    supplied (es ++ [e]) = supplied es ++ e.supplied := by
  rw [supplied, List.flatMap_append, List.flatMap_singleton]
  rfl

@[simp] theorem accepted_concat (es : List (Event α)) (e : Event α) :
    accepted (es ++ [e]) = accepted es ++ e.accepted := by
  rw [accepted, List.flatMap_append, List.flatMap_singleton]
  rfl

/-- Every event is in its place. -/
def Faithful (es : List (Event α)) : Prop :=
  ∀ es₁ e es₂, es = es₁ ++ e :: es₂ → e.Allowed (supplied es₁) (accepted es₁)

theorem faithful_nil : Faithful ([] : List (Event α)) := by
  intro es₁ e es₂ h
  exact absurd h (by simp)

theorem faithful_concat {es : List (Event α)} {e : Event α} :
    Faithful (es ++ [e]) ↔ Faithful es ∧ e.Allowed (supplied es) (accepted es) := by
  constructor
  · intro h
    constructor
    · intro es₁ e' es₂ heq
      exact h es₁ e' (es₂ ++ [e]) (by rw [heq, List.append_assoc, List.cons_append])
    · exact h es e [] rfl
  · rintro ⟨h, he⟩ es₁ e' es₂ heq
    rcases List.eq_nil_or_concat es₂ with rfl | ⟨es₃, e₃, rfl⟩
    · obtain ⟨rfl, hlast⟩ := List.append_inj' heq rfl
      rw [← List.singleton_inj.mp hlast]
      exact he
    · rw [List.concat_eq_append, ← List.cons_append, ← List.append_assoc] at heq
      obtain ⟨heq, -⟩ := List.append_inj' heq rfl
      exact h es₁ e' es₃ heq

/-- **What is accepted is a prefix of what is supplied.** -/
theorem Faithful.accepted_prefix {es : List (Event α)} (h : Faithful es) :
    accepted es <+: supplied es := by
  induction es using List.reverseRecOn with
  | nil => exact List.prefix_rfl
  | append_singleton es e ih =>
    obtain ⟨h, he⟩ := faithful_concat.mp h
    rw [accepted_concat, supplied_concat]
    cases e with
    | supply chunk =>
      have hall : accepted es = supplied es := he
      rw [hall, Event.accepted, List.append_nil]
      exact List.prefix_append _ _
    | request data answer =>
      obtain ⟨-, hnext, -⟩ := he
      rw [Event.supplied, List.append_nil]
      exact ((List.prefix_append_right_inj _).mpr (List.take_prefix _ _)).trans hnext

/-! ## 2. Systems that transfer -/

/-- What a step does to a transfer that `I` keeps track of: nothing, or an event in its place. -/
inductive Tracked (I : List α → List α → Prop) (sup acc : List α) : Option (Event α) → Prop
  | silent : I sup acc → Tracked I sup acc none
  | event {e : Event α} : e.Allowed sup acc → I (sup ++ e.supplied) (acc ++ e.accepted) →
      Tracked I sup acc (some e)

/-- **A run transfers faithfully** if its states keep track of what was supplied and accepted. -/
theorem tracked_run {step : σ → ε → σ → Prop} {s₀ t : σ} {h : List (σ × ε)}
    (trace : σ × ε → Option (Event α)) (I : σ → List α → List α → Prop) (h0 : I s₀ [] [])
    (hstep : ∀ {s e t sup acc}, I s sup acc → step s e t →
      Tracked (I t) sup acc (trace (s, e)))
    (hr : Run step s₀ h t) :
    Faithful (h.filterMap trace) ∧
      I t (supplied (h.filterMap trace)) (accepted (h.filterMap trace)) := by
  induction hr with
  | nil => exact ⟨faithful_nil, h0⟩
  | @concat h s t e hr hs ih =>
    obtain ⟨hf, hi⟩ := ih
    have hlast := hstep hi hs
    rw [List.filterMap_append, List.filterMap_cons, List.filterMap_nil]
    generalize trace (s, e) = o at hlast ⊢
    cases hlast with
    | silent hi =>
      rw [List.append_nil]
      exact ⟨hf, hi⟩
    | event he hi =>
      rw [supplied_concat, accepted_concat]
      exact ⟨faithful_concat.mpr ⟨hf, he⟩, hi⟩

/-- What is accepted, counted step by step. -/
theorem accepted_filterMap {β : Type*} {trace : β → Option (Event α)} {take : β → List α}
    (h : ∀ x, (trace x).elim [] Event.accepted = take x) (xs : List β) :
    accepted (xs.filterMap trace) = xs.flatMap take := by
  induction xs with
  | nil => rfl
  | cons x xs ih =>
    have hx := h x
    rw [List.filterMap_cons, List.flatMap_cons, ← ih, ← hx]
    cases trace x with
    | none => rfl
    | some e => rfl

/-! ## 3. An offset into a chunk -/

/-- The elements of `data` below the offset `k` were accepted, after everything before. -/
structure Partway (before data : List α) (k : ℕ) (sup acc : List α) : Prop where
  supplied : sup = before ++ data
  accepted : acc = before ++ data.take k

namespace Partway

variable {before data sup acc : List α} {k : ℕ}

/-- Nothing of a new chunk is accepted. -/
theorem start (h : acc = sup) (data : List α) : Partway sup data 0 (sup ++ data) (acc ++ []) :=
  ⟨rfl, by rw [h, List.take_zero]⟩

/-- The request for the rest of the chunk is in its place. -/
theorem request (h : Partway before data k sup acc) (hk : k < data.length) {answer : Option ℕ}
    (ha : ∀ n ∈ answer, k + n ≤ data.length) :
    (Event.request (data.drop k) answer).Allowed sup acc := by
  refine ⟨?_, ?_, ?_⟩
  · exact List.ne_nil_of_length_pos (by rw [List.length_drop]; omega)
  · have hrest : acc ++ data.drop k = sup := by
      rw [h.accepted, h.supplied, List.append_assoc, List.take_append_drop]
    exact hrest ▸ List.prefix_rfl
  · intro n hn
    have hle := ha n hn
    rw [List.length_drop]
    omega

/-- What is accepted of it moves the offset. -/
theorem accept (h : Partway before data k sup acc) (answer : Option ℕ) :
    Partway before data (k + answer.getD 0) (sup ++ [])
      (acc ++ (Event.request (data.drop k) answer).accepted) := by
  constructor
  · rw [List.append_nil]
    exact h.supplied
  · rw [h.accepted, Event.accepted, List.append_assoc, ← List.take_add]

/-- At the end of the chunk everything is accepted. -/
theorem all (h : Partway before data k sup acc) (hk : data.length ≤ k) : acc = sup := by
  rw [h.accepted, h.supplied, List.take_of_length_le hk]

end Partway

/-! ## 4. Counts -/

/-- The answer that the result of a call stands for: -1 refuses, anything else is a count. -/
def answer (val : ℤ) : Option ℕ := if val = -1 then none else some val.toNat

theorem answer_of_ne {val : ℤ} (h : val ≠ -1) : answer val = some val.toNat := if_neg h

theorem answer_neg_one : answer (-1) = none := rfl

/-- A refusal counts for nothing. -/
theorem getD_answer (val : ℤ) : (answer val).getD 0 = val.toNat := by
  unfold answer
  split
  · rename_i h
    rw [h]
    rfl
  · rfl

end Transfer
