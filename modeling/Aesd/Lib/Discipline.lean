/-
# Disciplines on the use of resources

A discipline follows the events of a trace and keeps track of what is held: `act s e` is what is
held after the event `e`, or nothing if the discipline forbids the event.  A trace that keeps to it
(`Keeps`) has every event allowed at its place.

A system keeps to a discipline if what it holds can be read off its states and every step is allowed
there (`keeps_run`).  Counting follows: where each event moves a level up or down, the events that
raise it and those that lower it differ by what is left (`Keeps.balance`).
-/
import Aesd.Lib.Transition

namespace Discipline

open Transition

variable {μ ε σ : Type*} {act : μ → ε → Option μ} {s t u : μ} {e : ε} {es es' : List ε}

/-- The trace keeps to the discipline and leads from `s` to `t`. -/
def Keeps (act : μ → ε → Option μ) (s : μ) (es : List ε) (t : μ) : Prop :=
  es.foldlM act s = some t

theorem keeps_nil : Keeps act s [] t ↔ s = t := by
  rw [Keeps, List.foldlM_nil]
  exact Option.some_inj

theorem keeps_append :
    Keeps act s (es ++ es') u ↔ ∃ t, Keeps act s es t ∧ Keeps act t es' u := by
  rw [Keeps, List.foldlM_append]
  exact Option.bind_eq_some_iff

theorem keeps_cons : Keeps act s (e :: es) u ↔ ∃ t, act s e = some t ∧ Keeps act t es u := by
  rw [Keeps, List.foldlM_cons]
  exact Option.bind_eq_some_iff

theorem keeps_concat : Keeps act s (es ++ [e]) u ↔ ∃ t, Keeps act s es t ∧ act t e = some u := by
  rw [keeps_append]
  refine exists_congr fun t => and_congr_right ?_
  intro _
  rw [keeps_cons]
  constructor
  · rintro ⟨v, hv, hu⟩
    rw [hv, keeps_nil.mp hu]
  · exact fun h => ⟨u, h, keeps_nil.mpr rfl⟩

/-- **A run keeps to a discipline** if what is held can be read off the states. -/
theorem keeps_run {step : σ → ε → σ → Prop} {s₀ t : σ} (held : σ → μ)
    (hstep : ∀ {h s e t}, Run step s₀ h s → step s e t → act (held s) e = some (held t))
    {h : List (σ × ε)} (hr : Run step s₀ h t) :
    Keeps act (held s₀) (h.map Prod.snd) (held t) := by
  induction hr with
  | nil => exact keeps_nil.mpr rfl
  | concat hr hs ih =>
    rw [List.map_append]
    exact keeps_concat.mpr ⟨_, ih, hstep hr hs⟩

/-- **What is allowed from then on**: where the discipline stays within `P`, and allows only events
in `Q` there. -/
theorem Keeps.forall {P : μ → Prop} {Q : ε → Prop}
    (hact : ∀ {s e t}, P s → act s e = some t → Q e ∧ P t) (h : Keeps act s es t) (hs : P s) :
    ∀ e ∈ es, Q e := by
  induction es generalizing s with
  | nil =>
    intro e he
    cases he
  | cons e es ih =>
    obtain ⟨u, hu, h⟩ := keeps_cons.mp h
    obtain ⟨hQ, hP⟩ := hact hs hu
    intro e' he'
    rcases List.mem_cons.mp he' with rfl | hmem
    · exact hQ
    · exact ih h hP e' hmem

/-- **Counting**: if every event that raises a level and every event that lowers it does so by one,
their numbers differ by the levels at the ends. -/
theorem Keeps.balance (level : μ → ℕ) (raises lowers : ε → Bool)
    (hact : ∀ {s e t}, act s e = some t →
      level s + (raises e).toNat = level t + (lowers e).toNat) (h : Keeps act s es t) :
    level s + es.countP raises = level t + es.countP lowers := by
  induction es generalizing s with
  | nil =>
    rw [keeps_nil.mp h]
    rfl
  | cons e es ih =>
    obtain ⟨u, hu, h⟩ := keeps_cons.mp h
    have h1 := hact hu
    have h2 := ih h
    rw [List.countP_cons, List.countP_cons]
    have hr : (if raises e = true then 1 else 0) = (raises e).toNat := by cases raises e <;> rfl
    have hl : (if lowers e = true then 1 else 0) = (lowers e).toNat := by cases lowers e <;> rfl
    rw [hr, hl]
    omega

end Discipline
