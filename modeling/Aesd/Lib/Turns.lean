/-
# A record written in turns

Several writers append to one record.  A writer takes a turn and appends in it what it likes, in as
many pieces as it likes; the turn lasts until the next one is taken.  That only who has the turn
appends is a discipline (`act`) on what the writers do (`Move`).

Where it is kept the record is what was appended in the turns, one turn after the other
(`content_act`), and what one writer appended is what its turns hold (`writtenBy_act`): nothing of
one turn is in the middle of another.
-/
import Aesd.Lib.Discipline

namespace Turns

open Discipline

variable {τ α ε : Type*} [DecidableEq τ]

/-- What a writer does. -/
inductive Move (τ α : Type*)
  | take (t : τ)
  | append (t : τ) (bytes : List α)
  | pass

/-- What is appended to the record. -/
def Move.bytes : Move τ α → List α
  | append _ bytes => bytes
  | _ => []

/-- What the writer `t` appends to the record. -/
def Move.bytesOf (t : τ) : Move τ α → List α
  | append u bytes => if u = t then bytes else []
  | _ => []

/-- The turns after a move, the last turn first: only who has the turn appends. -/
def act (ts : List (τ × List α)) : Move τ α → Option (List (τ × List α))
  | .take t => some ((t, []) :: ts)
  | .append t bytes =>
    match ts with
    | [] => none
    | (u, written) :: rest => if u = t then some ((u, written ++ bytes) :: rest) else none
  | .pass => some ts

/-- The record. -/
def content : List (τ × List α) → List α
  | [] => []
  | (_, written) :: rest => content rest ++ written

/-- What the writer `t` has appended. -/
def writtenBy (t : τ) : List (τ × List α) → List α
  | [] => []
  | (u, written) :: rest => writtenBy t rest ++ if u = t then written else []

/-- Who has the turn. -/
def current : List (τ × List α) → Option τ
  | [] => none
  | (u, _) :: _ => some u

variable {ts ts' rest : List (τ × List α)} {m : Move τ α} {t : τ} {bytes written : List α}

omit [DecidableEq τ] in
/-- Who has the turn has it in a turn of its own. -/
theorem exists_of_current (h : current ts = some t) :
    ∃ written rest, ts = (t, written) :: rest := by
  cases ts with
  | nil => cases h
  | cons turn rest =>
    obtain ⟨u, written⟩ := turn
    obtain rfl := Option.some.inj h
    exact ⟨written, rest, rfl⟩

/-- Who appends has the turn. -/
theorem exists_of_append (h : act ts (.append t bytes) = some ts') :
    ∃ written rest, ts = (t, written) :: rest ∧ ts' = (t, written ++ bytes) :: rest := by
  cases ts with
  | nil => cases h
  | cons turn rest =>
    obtain ⟨u, written⟩ := turn
    rw [act] at h
    split at h
    · rename_i hu
      obtain rfl := hu
      exact ⟨written, rest, rfl, (Option.some.inj h).symm⟩
    · cases h

theorem act_append : act ((t, written) :: rest) (.append t bytes) =
    some ((t, written ++ bytes) :: rest) :=
  if_pos rfl

/-- Appending leaves the turn to who has it. -/
theorem current_act (h : act ts m = some ts') :
    current ts' = current ts ∨ ∃ t, m = .take t ∧ current ts' = some t := by
  cases m with
  | take t =>
    obtain rfl := Option.some.inj h
    exact Or.inr ⟨t, rfl, rfl⟩
  | append t bytes =>
    obtain ⟨written, rest, rfl, rfl⟩ := exists_of_append h
    exact Or.inl rfl
  | pass =>
    obtain rfl := Option.some.inj h
    exact Or.inl rfl

/-- Only a turn that is taken comes behind the others. -/
theorem tail_act (h : act ts m = some ts') : ts'.tail = ts.tail ∨ ∃ t, m = .take t := by
  cases m with
  | take t => exact Or.inr ⟨t, rfl⟩
  | append t bytes =>
    obtain ⟨written, rest, rfl, rfl⟩ := exists_of_append h
    exact Or.inl rfl
  | pass =>
    obtain rfl := Option.some.inj h
    exact Or.inl rfl

/-- **A move extends the record** by what is appended. -/
theorem content_act (h : act ts m = some ts') : content ts' = content ts ++ m.bytes := by
  cases m with
  | take t =>
    obtain rfl := Option.some.inj h
    rfl
  | append t bytes =>
    obtain ⟨written, rest, rfl, rfl⟩ := exists_of_append h
    exact (List.append_assoc _ _ _).symm
  | pass =>
    obtain rfl := Option.some.inj h
    exact (List.append_nil _).symm

/-- **A move extends what its writer has appended.** -/
theorem writtenBy_act (h : act ts m = some ts') (t : τ) :
    writtenBy t ts' = writtenBy t ts ++ m.bytesOf t := by
  cases m with
  | take u =>
    obtain rfl := Option.some.inj h
    simp [writtenBy, Move.bytesOf]
  | append u bytes =>
    obtain ⟨written, rest, rfl, rfl⟩ := exists_of_append h
    by_cases hu : u = t
    · simp [writtenBy, Move.bytesOf, hu]
    · simp [writtenBy, Move.bytesOf, hu]
  | pass =>
    obtain rfl := Option.some.inj h
    exact (List.append_nil _).symm

/-- Who has appended nothing has only empty turns. -/
theorem writtenBy_eq_nil_iff : writtenBy t ts = [] ↔ ∀ turn ∈ ts, turn.1 = t → turn.2 = [] := by
  induction ts with
  | nil => simp [writtenBy]
  | cons turn rest ih =>
    obtain ⟨u, written⟩ := turn
    rw [writtenBy, List.append_eq_nil_iff, ih, List.forall_mem_cons, and_comm]
    by_cases hu : u = t
    · simp [hu]
    · simp [hu]

/-- Who has appended in the last turn only has appended what that holds. -/
theorem writtenBy_cons_self (h : writtenBy t rest = []) :
    writtenBy t ((t, written) :: rest) = written := by
  rw [writtenBy, h, if_pos rfl, List.nil_append]

/-- **The record of a trace** that keeps to the discipline. -/
theorem content_keeps {move : ε → Move τ α} {es : List ε}
    (h : Keeps (fun ts e => act ts (move e)) ts es ts') :
    content ts' = content ts ++ es.flatMap fun e => (move e).bytes := by
  induction es generalizing ts with
  | nil =>
    rw [keeps_nil.mp h]
    simp
  | cons e es ih =>
    obtain ⟨us, hus, h⟩ := keeps_cons.mp h
    rw [ih h, content_act hus, List.append_assoc, List.flatMap_cons]

/-- **What one writer has appended** in a trace that keeps to the discipline. -/
theorem writtenBy_keeps {move : ε → Move τ α} {es : List ε}
    (h : Keeps (fun ts e => act ts (move e)) ts es ts') (t : τ) :
    writtenBy t ts' = writtenBy t ts ++ es.flatMap fun e => (move e).bytesOf t := by
  induction es generalizing ts with
  | nil =>
    rw [keeps_nil.mp h]
    simp
  | cons e es ih =>
    obtain ⟨us, hus, h⟩ := keeps_cons.mp h
    rw [ih h, writtenBy_act hus, List.append_assoc, List.flatMap_cons]

end Turns
