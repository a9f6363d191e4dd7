/-
# Runs of a labelled transition system

A run carries its history: the states it went through, each with the event that left it.  What
holds over whole runs is proved by one rule (`Run.rule`): a property of histories and states that
holds at the start and is kept by each step.  A property that speaks of states alone is the
special case `Run.invariant`.

A run can be cut at any state of its history (`Run.split`), and two runs can be put one after the
other (`Run.append`).  A measure that every step lowers bounds a run (`Run.measure`), and one that
no step raises the number of steps that lower it (`Run.count_le`).  What a step establishes and
later steps keep is `Run.since`; a component of a system is a projection of its runs
(`Run.project`).
-/
import Mathlib.Data.List.Basic
import Mathlib.Data.List.Induction
import Mathlib.Logic.Relation
import Mathlib.Order.Basic

namespace Transition

variable {σ ε : Type*} {step : σ → ε → σ → Prop} {s₀ : σ}

/-! ## 1. Runs -/

/-- A run from `s₀`: its history and the state it reaches. -/
inductive Run (step : σ → ε → σ → Prop) (s₀ : σ) : List (σ × ε) → σ → Prop
  | nil : Run step s₀ [] s₀
  | concat {h : List (σ × ε)} {s t : σ} {e : ε} :
      Run step s₀ h s → step s e t → Run step s₀ (h ++ [(s, e)]) t

/-- **The rule for runs.** -/
theorem Run.rule {Q : List (σ × ε) → σ → Prop} (h0 : Q [] s₀)
    (hstep : ∀ {h s e t}, Run step s₀ h s → Q h s → step s e t → Q (h ++ [(s, e)]) t)
    {h : List (σ × ε)} {t : σ} (hr : Run step s₀ h t) : Q h t := by
  induction hr with
  | nil => exact h0
  | concat hr hs ih => exact hstep hr ih hs

/-- **An invariant** of the steps holds in every state a run reaches. -/
theorem Run.invariant {I : σ → Prop} (h0 : I s₀) (hstep : ∀ {s e t}, I s → step s e t → I t)
    {h : List (σ × ε)} {t : σ} (hr : Run step s₀ h t) : I t :=
  hr.rule (Q := fun _ s => I s) h0 fun _ hi hs => hstep hi hs

/-- Two runs one after the other. -/
theorem Run.append {h h' : List (σ × ε)} {s t : σ} (hr : Run step s₀ h s) (hr' : Run step s h' t) :
    Run step s₀ (h ++ h') t := by
  induction hr' with
  | nil => rwa [List.append_nil]
  | concat _ hs ih =>
    rw [← List.append_assoc]
    exact ih.concat hs

/-- A run goes through every state of its history. -/
theorem Run.split : ∀ {h₂ h₁ : List (σ × ε)} {u t : σ} {e : ε},
    Run step s₀ (h₁ ++ (u, e) :: h₂) t →
      Run step s₀ h₁ u ∧ ∃ v, step u e v ∧ Run step v h₂ t := by
  intro h₂
  induction h₂ using List.reverseRecOn with
  | nil =>
    intro h₁ u t e hr
    generalize hh : h₁ ++ [(u, e)] = h at hr
    cases hr with
    | nil => exact absurd hh (by simp)
    | concat hr hs =>
      obtain ⟨rfl, hue⟩ := List.append_inj' hh rfl
      obtain ⟨rfl, rfl⟩ := Prod.mk.inj (List.singleton_inj.mp hue)
      exact ⟨hr, t, hs, Run.nil⟩
  | append_singleton h₂ ue ih =>
    intro h₁ u t e hr
    generalize hh : h₁ ++ (u, e) :: (h₂ ++ [ue]) = h at hr
    cases hr with
    | nil => exact absurd hh (by simp)
    | @concat h' s _ e' hr hs =>
      rw [← List.cons_append, ← List.append_assoc] at hh
      obtain ⟨rfl, hue⟩ := List.append_inj' hh rfl
      obtain rfl := List.singleton_inj.mp hue
      obtain ⟨h1, v, hv, h2⟩ := ih hr
      exact ⟨h1, v, hv, h2.concat hs⟩

/-- A run without a history stays where it is. -/
theorem Run.eq_of_nil {t : σ} (hr : Run step s₀ [] t) : t = s₀ := by
  generalize hnil : ([] : List (σ × ε)) = h at hr
  cases hr with
  | nil => rfl
  | concat => exact absurd hnil (by simp)

/-- A run that has left its start has a last step. -/
theorem Run.exists_last {h : List (σ × ε)} {t : σ} (hr : Run step s₀ h t) (hne : t ≠ s₀) :
    ∃ h' s e, h = h' ++ [(s, e)] ∧ Run step s₀ h' s ∧ step s e t := by
  cases hr with
  | nil => exact absurd rfl hne
  | concat hr hs => exact ⟨_, _, _, rfl, hr, hs⟩

/-- The first step of a run. -/
theorem Run.uncons {u t : σ} {e : ε} {h : List (σ × ε)} (hr : Run step s₀ ((u, e) :: h) t) :
    u = s₀ ∧ ∃ v, step s₀ e v ∧ Run step v h t := by
  have hsplit : Run step s₀ ([] ++ (u, e) :: h) t := hr
  obtain ⟨hu, v, hs, hv⟩ := hsplit.split
  obtain rfl := hu.eq_of_nil
  exact ⟨rfl, v, hs, hv⟩

/-- A state that an event of a run left is a state the run goes through. -/
theorem Run.cut {h₁ h₂ : List (σ × ε)} {u t : σ} {e : ε}
    (hr : Run step s₀ (h₁ ++ (u, e) :: h₂) t) :
    ∃ v, Run step s₀ h₁ u ∧ step u e v ∧ Run step s₀ (h₁ ++ [(u, e)]) v ∧ Run step v h₂ t := by
  obtain ⟨hu, v, hs, hv⟩ := hr.split
  exact ⟨v, hu, hs, hu.concat hs, hv⟩

/-- **What holds since a step**: a property that the step establishes and every later step of the
run keeps. -/
theorem Run.since {P : σ → Prop} {h₁ h₂ : List (σ × ε)} {u t : σ} {e : ε}
    (hr : Run step s₀ (h₁ ++ (u, e) :: h₂) t)
    (h0 : ∀ {v}, Run step s₀ h₁ u → step u e v → P v)
    (hstep : ∀ {h s e' t}, Run step s₀ h s → P s → step s e' t → P t) : P t := by
  obtain ⟨v, hu, hs, hv, hrest⟩ := hr.cut
  clear hr
  induction hrest with
  | nil => exact h0 hu hs
  | concat hr' hs' ih => exact hstep (hv.append hr') ih hs'

/-- **A run that gets into a set of states enters it by some step** for the first time. -/
theorem Run.exists_entry {A : σ → Prop} {h : List (σ × ε)} {t : σ} (hr : Run step s₀ h t)
    (h0 : ¬ A s₀) (ht : A t) :
    ∃ h₁ u e h₂ v, h = h₁ ++ (u, e) :: h₂ ∧ Run step s₀ h₁ u ∧ step u e v ∧ A v ∧
      ¬ A u ∧ ∀ x ∈ h₁, ¬ A x.1 := by
  have hfirst : (¬ A t ∧ ∀ x ∈ h, ¬ A x.1) ∨ ∃ h₁ u e h₂ v, h = h₁ ++ (u, e) :: h₂ ∧
      Run step s₀ h₁ u ∧ step u e v ∧ A v ∧ ¬ A u ∧ ∀ x ∈ h₁, ¬ A x.1 := by
    clear ht
    induction hr with
    | nil => exact Or.inl ⟨h0, fun x hx => absurd hx List.not_mem_nil⟩
    | @concat h s t e hr hs ih =>
      rcases ih with ⟨hns, hall⟩ | ⟨h₁, u, e', h₂, v, rfl, hfound⟩
      · by_cases hA : A t
        · exact Or.inr ⟨h, s, e, [], t, rfl, hr, hs, hA, hns, hall⟩
        · refine Or.inl ⟨hA, fun x hx => ?_⟩
          rcases List.mem_append.mp hx with hmem | hlast
          · exact hall x hmem
          · rw [List.mem_singleton.mp hlast]
            exact hns
      · exact Or.inr ⟨h₁, u, e', h₂ ++ [(s, e)], v, by simp, hfound⟩
  exact hfirst.resolve_left fun hnot => hnot.1 ht

/-- **A run seen through a projection** of its states and events that forgets some of the steps
is a run of the system they are steps of. -/
theorem Run.project {σ' ε' : Type*} {step' : σ' → ε' → σ' → Prop} (f : σ → σ')
    (g : ε → Option ε')
    (hstep : ∀ {s e t}, step s e t →
      (∃ e', g e = some e' ∧ step' (f s) e' (f t)) ∨ (g e = none ∧ f t = f s))
    {h : List (σ × ε)} {t : σ} (hr : Run step s₀ h t) :
    Run step' (f s₀) (h.filterMap fun se => (g se.2).map fun e' => (f se.1, e')) (f t) := by
  induction hr with
  | nil => exact Run.nil
  | @concat h s t e hr hs ih =>
    rw [List.filterMap_append]
    rcases hstep hs with ⟨e', hg, hs'⟩ | ⟨hg, ht⟩
    · have hlast : ([(s, e)].filterMap fun se => (g se.2).map fun e' => (f se.1, e')) =
          [(f s, e')] := by simp [hg]
      rw [hlast]
      exact ih.concat hs'
    · have hlast : ([(s, e)].filterMap fun se => (g se.2).map fun e' => (f se.1, e')) = [] := by
        simp [hg]
      rw [hlast, List.append_nil, ht]
      exact ih

/-- **A simulation carries runs over**: if every step of a system can be followed by another system
with the same event, its runs can. -/
theorem Run.simulate {σ' : Type*} {step' : σ' → ε → σ' → Prop} {s₀' : σ'} {R : σ → σ' → Prop}
    (h0 : R s₀ s₀')
    (hstep : ∀ {h h' s s' e t}, Run step s₀ h s → Run step' s₀' h' s' → R s s' → step s e t →
      ∃ t', step' s' e t' ∧ R t t')
    {h : List (σ × ε)} {t : σ} (hr : Run step s₀ h t) :
    ∃ h' t', Run step' s₀' h' t' ∧ h'.map Prod.snd = h.map Prod.snd ∧ R t t' := by
  induction hr with
  | nil => exact ⟨[], s₀', Run.nil, rfl, h0⟩
  | @concat h s t e hr hs ih =>
    obtain ⟨h', s', hr', hevents, hrel⟩ := ih
    obtain ⟨t', hs', hrel'⟩ := hstep hr hr' hrel hs
    refine ⟨h' ++ [(s', e)], t', hr'.concat hs', ?_, hrel'⟩
    rw [List.map_append, List.map_append, hevents]
    rfl

/-- **A simulation that may take its time**: if every step of a system can be followed by a run of
another system that shows the same to the outside, its runs can. -/
theorem Run.refine {σ' ε' ο : Type*} {step' : σ' → ε' → σ' → Prop} {s₀' : σ'} {R : σ → σ' → Prop}
    (see : ε → Option ο) (see' : ε' → Option ο) (h0 : R s₀ s₀')
    (hstep : ∀ {h s s' e t}, Run step s₀ h s → R s s' → step s e t →
      ∃ h' t', Run step' s' h' t' ∧ h'.filterMap (fun se => see' se.2) = (see e).toList ∧ R t t')
    {h : List (σ × ε)} {t : σ} (hr : Run step s₀ h t) :
    ∃ h' t', Run step' s₀' h' t' ∧
      h'.filterMap (fun se => see' se.2) = h.filterMap (fun se => see se.2) ∧ R t t' := by
  induction hr with
  | nil => exact ⟨[], s₀', Run.nil, rfl, h0⟩
  | @concat h s t e hr hs ih =>
    obtain ⟨h', s', hr', hsee, hrel⟩ := ih
    obtain ⟨h'', t', hs', hlast, hrel'⟩ := hstep hr hrel hs
    refine ⟨h' ++ h'', t', hr'.append hs', ?_, hrel'⟩
    rw [List.filterMap_append, List.filterMap_append, hsee, hlast]
    cases hse : see e with
    | none => simp [hse]
    | some o => simp [hse]

/-! ## 2. Bounded runs -/

/-- **A measure that every step lowers bounds the run**, up to the first state where it need not
be lowered any more. -/
theorem Run.measure (Stop : List (σ × ε) → σ → Prop) (m : List (σ × ε) → σ → ℕ)
    (hstep : ∀ {h s e t}, Run step s₀ h s → ¬ Stop h s → step s e t →
      m (h ++ [(s, e)]) t < m h s)
    {h : List (σ × ε)} {t : σ} (hr : Run step s₀ h t) :
    (∃ h₁ u e h₂, h = h₁ ++ (u, e) :: h₂ ∧ Stop h₁ u) ∨ h.length + m h t ≤ m [] s₀ := by
  induction hr with
  | nil => exact Or.inr (by simp)
  | @concat h s t e hr hs ih =>
    rcases ih with ⟨h₁, u, e', h₂, rfl, hstop⟩ | hle
    · exact Or.inl ⟨h₁, u, e', h₂ ++ [(s, e)], by simp, hstop⟩
    · by_cases hstop : Stop h s
      · exact Or.inl ⟨h, s, e, [], rfl, hstop⟩
      · have hlt := hstep hr hstop hs
        rw [List.length_append, List.length_singleton]
        exact Or.inr (by omega)

/-- **A measure that no step raises bounds the steps that lower it.** -/
theorem Run.count_le (P : ε → Bool) (m : List (σ × ε) → σ → ℕ)
    (hstep : ∀ {h s e t}, Run step s₀ h s → step s e t →
      m (h ++ [(s, e)]) t + (P e).toNat ≤ m h s)
    {h : List (σ × ε)} {t : σ} (hr : Run step s₀ h t) :
    (h.countP fun se => P se.2) + m h t ≤ m [] s₀ := by
  induction hr with
  | nil => simp
  | @concat h s t e hr hs ih =>
    have hle := hstep hr hs
    rw [List.countP_append, List.countP_singleton]
    cases hP : P e with
    | true =>
      rw [hP, Bool.toNat_true] at hle
      rw [if_pos rfl]
      omega
    | false =>
      rw [hP, Bool.toNat_false] at hle
      rw [if_neg Bool.false_ne_true]
      omega

/-- **A run that can always be brought nearer its end** reaches a state where it may stop. -/
theorem Run.exists_stop_of_lower (Stop : List (σ × ε) → σ → Prop) (m : List (σ × ε) → σ → ℕ)
    (hlower : ∀ {h s}, Run step s₀ h s → ¬ Stop h s →
      ∃ e t, step s e t ∧ m (h ++ [(s, e)]) t < m h s)
    {h : List (σ × ε)} {s : σ} (hr : Run step s₀ h s) :
    ∃ h' t, Run step s₀ (h ++ h') t ∧ Stop (h ++ h') t := by
  induction hn : m h s using Nat.strongRecOn generalizing h s with
  | ind n ih =>
    by_cases hstop : Stop h s
    · exact ⟨[], s, by simpa using hr, by simpa using hstop⟩
    · obtain ⟨e, t, hs, hlt⟩ := hlower hr hstop
      obtain ⟨h', u, hu, hustop⟩ := ih _ (hn ▸ hlt) (hr.concat hs) rfl
      rw [List.append_assoc] at hu hustop
      exact ⟨_, u, hu, hustop⟩

/-- **A run that is never stuck reaches a state where it may stop.** -/
theorem Run.exists_stop (Stop : List (σ × ε) → σ → Prop) (m : List (σ × ε) → σ → ℕ)
    (hstep : ∀ {h s e t}, Run step s₀ h s → ¬ Stop h s → step s e t →
      m (h ++ [(s, e)]) t < m h s)
    (hlive : ∀ {h s}, Run step s₀ h s → ¬ Stop h s → ∃ e t, step s e t)
    {h : List (σ × ε)} {s : σ} (hr : Run step s₀ h s) :
    ∃ h' t, Run step s₀ (h ++ h') t ∧ Stop (h ++ h') t := by
  refine hr.exists_stop_of_lower Stop m fun {h s} hr hstop => ?_
  obtain ⟨e, t, hs⟩ := hlive hr hstop
  exact ⟨e, t, hs, hstep hr hstop hs⟩

/-! ## 3. Runs that are computed -/

/-- Play a list of choices with a function that says what each leads to. -/
def play {α : Type*} (next : σ → α → Option (ε × σ)) (s : σ) :
    List α → Option (List (σ × ε) × σ)
  | [] => some ([], s)
  | a :: choices =>
    match next s a with
    | none => none
    | some (e, t) => (play next t choices).map fun r => ((s, e) :: r.1, r.2)

/-- **What is played is a run** if every choice leads to a step. -/
theorem Run.of_play {α : Type*} {next : σ → α → Option (ε × σ)}
    (hnext : ∀ s a e t, next s a = some (e, t) → step s e t) :
    ∀ {choices : List α} {s t : σ} {h : List (σ × ε)},
      play next s choices = some (h, t) → Run step s h t
  | [], s, t, h, hp => by
    simp only [play, Option.some.injEq, Prod.mk.injEq] at hp
    obtain ⟨rfl, rfl⟩ := hp
    exact Run.nil
  | a :: choices, s, t, h, hp => by
    unfold play at hp
    split at hp
    · exact absurd hp (by simp)
    · rename_i e u hu
      obtain ⟨⟨h', t'⟩, hp', heq⟩ := Option.map_eq_some_iff.mp hp
      simp only [Prod.mk.injEq] at heq
      obtain ⟨rfl, rfl⟩ := heq
      exact (Run.nil.concat (hnext _ _ _ _ hu)).append (Run.of_play hnext hp')

/-- The history and the end of what is played, if every choice leads somewhere. -/
def played {α : Type*} (next : σ → α → Option (ε × σ)) (s : σ) (choices : List α) :
    List (σ × ε) × σ :=
  (play next s choices).getD ([], s)

theorem Run.of_played {α : Type*} {next : σ → α → Option (ε × σ)}
    (hnext : ∀ s a e t, next s a = some (e, t) → step s e t) (s : σ) (choices : List α)
    (hp : (play next s choices).isSome) :
    Run step s (played next s choices).1 (played next s choices).2 := by
  obtain ⟨r, hr⟩ := Option.isSome_iff_exists.mp hp
  rw [played, hr]
  exact Run.of_play hnext hr

end Transition
