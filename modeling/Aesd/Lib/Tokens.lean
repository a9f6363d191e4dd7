/-
# Tokens with one owner each

A table says which tokens are out; a system says what each owner holds.  The two agree (`Owned`)
if what is out is what somebody holds, and nobody holds what somebody else does.  The agreement is
kept when a token that is in is given to an owner with empty hands (`Owned.grant`), when an owner
hands its token in (`Owned.drop`), and when it passes it on (`Owned.pass`).
-/
import Mathlib.Logic.Function.Basic

namespace Tokens

variable {τ ω : Type*} {out : τ → Bool} {held held' : ω → Option τ} {d : τ} {o o' : ω}

/-- The tokens that are out have one owner each. -/
structure Owned (out : τ → Bool) (held : ω → Option τ) : Prop where
  out_iff : ∀ d, out d = true ↔ ∃ o, held o = some d
  unique : ∀ {o o' d}, held o = some d → held o' = some d → o = o'

/-- What somebody holds is out. -/
theorem Owned.out_of_held (h : Owned out held) (hd : held o = some d) : out d = true :=
  (h.out_iff d).mpr ⟨o, hd⟩

/-- What is in is held by nobody. -/
theorem Owned.ne_of_in (h : Owned out held) (hd : out d = false) (o : ω) : held o ≠ some d := by
  intro ho
  rw [h.out_of_held ho] at hd
  cases hd

variable [DecidableEq ω]

theorem update_eq_some {v : Option τ} :
    Function.update held o v o' = some d ↔ (o' = o ∧ v = some d) ∨ (o' ≠ o ∧ held o' = some d) := by
  by_cases ho : o' = o
  · subst ho
    rw [Function.update_self]
    simp
  · rw [Function.update_of_ne ho]
    simp [ho]

variable [DecidableEq τ]

/-- **A token that is in** is given to an owner with empty hands. -/
theorem Owned.grant (h : Owned out held) (hd : out d = false) (ho : held o = none) :
    Owned (Function.update out d true) (Function.update held o (some d)) := by
  have hne := h.ne_of_in hd
  constructor
  · intro d'
    by_cases hdd : d' = d
    · subst hdd
      rw [Function.update_self]
      exact iff_of_true rfl ⟨o, Function.update_self _ _ _⟩
    · rw [Function.update_of_ne hdd, h.out_iff d']
      refine exists_congr fun o' => ?_
      rw [update_eq_some]
      constructor
      · intro ho'
        refine Or.inr ⟨?_, ho'⟩
        rintro rfl
        rw [ho] at ho'
        cases ho'
      · rintro (⟨-, heq⟩ | ⟨-, ho'⟩)
        · exact absurd (Option.some.inj heq).symm hdd
        · exact ho'
  · intro o₁ o₂ d' h₁ h₂
    rw [update_eq_some] at h₁ h₂
    rcases h₁ with ⟨rfl, heq⟩ | ⟨-, h₁⟩
    · obtain rfl := Option.some.inj heq
      rcases h₂ with ⟨rfl, -⟩ | ⟨-, h₂⟩
      · rfl
      · exact absurd h₂ (hne o₂)
    · rcases h₂ with ⟨rfl, heq⟩ | ⟨-, h₂⟩
      · obtain rfl := Option.some.inj heq
        exact absurd h₁ (hne o₁)
      · exact h.unique h₁ h₂

/-- **An owner hands its token in.** -/
theorem Owned.drop (h : Owned out held) (ho : held o = some d) :
    Owned (Function.update out d false) (Function.update held o none) := by
  constructor
  · intro d'
    by_cases hdd : d' = d
    · subst hdd
      rw [Function.update_self]
      refine iff_of_false Bool.false_ne_true ?_
      rintro ⟨o', ho'⟩
      rw [update_eq_some] at ho'
      rcases ho' with ⟨-, heq⟩ | ⟨hne, ho'⟩
      · cases heq
      · exact hne (h.unique ho' ho)
    · rw [Function.update_of_ne hdd, h.out_iff d']
      refine exists_congr fun o' => ?_
      rw [update_eq_some]
      constructor
      · intro ho'
        refine Or.inr ⟨?_, ho'⟩
        rintro rfl
        exact hdd (Option.some.inj (ho'.symm.trans ho))
      · rintro (⟨-, heq⟩ | ⟨-, ho'⟩)
        · cases heq
        · exact ho'
  · intro o₁ o₂ d' h₁ h₂
    rw [update_eq_some] at h₁ h₂
    rcases h₁ with ⟨-, heq⟩ | ⟨-, h₁⟩
    · cases heq
    · rcases h₂ with ⟨-, heq⟩ | ⟨-, h₂⟩
      · cases heq
      · exact h.unique h₁ h₂

omit [DecidableEq τ] in
/-- **An owner passes its token on** to one with empty hands. -/
theorem Owned.pass (h : Owned out held) (ho : held o = some d) (ho' : held o' = none) :
    Owned out (Function.update (Function.update held o none) o' (some d)) := by
  have hne : o' ≠ o := by
    rintro rfl
    rw [ho'] at ho
    cases ho
  -- whoever holds a token afterwards held it before, but for the two
  have hback : ∀ {o₁ d'}, Function.update (Function.update held o none) o' (some d) o₁ = some d' →
      (o₁ = o' ∧ d' = d) ∨ (o₁ ≠ o' ∧ o₁ ≠ o ∧ held o₁ = some d') := by
    intro o₁ d' h₁
    rw [update_eq_some, update_eq_some] at h₁
    rcases h₁ with ⟨rfl, heq⟩ | ⟨hne₁, ⟨-, heq⟩ | ⟨hne₂, h₁⟩⟩
    · exact Or.inl ⟨rfl, (Option.some.inj heq).symm⟩
    · cases heq
    · exact Or.inr ⟨hne₁, hne₂, h₁⟩
  constructor
  · intro d'
    rw [h.out_iff d']
    constructor
    · rintro ⟨o₁, h₁⟩
      by_cases hoo : o₁ = o
      · subst hoo
        obtain rfl := Option.some.inj (ho.symm.trans h₁)
        exact ⟨o', Function.update_self _ _ _⟩
      · have hne₁ : o₁ ≠ o' := by
          rintro rfl
          rw [ho'] at h₁
          cases h₁
        refine ⟨o₁, ?_⟩
        rw [Function.update_of_ne hne₁, Function.update_of_ne hoo]
        exact h₁
    · rintro ⟨o₁, h₁⟩
      rcases hback h₁ with ⟨-, rfl⟩ | ⟨-, -, h₁⟩
      · exact ⟨o, ho⟩
      · exact ⟨o₁, h₁⟩
  · intro o₁ o₂ d' h₁ h₂
    rcases hback h₁ with ⟨rfl, rfl⟩ | ⟨-, hne₁, hheld₁⟩
    · rcases hback h₂ with ⟨rfl, -⟩ | ⟨-, hne₂, hheld₂⟩
      · rfl
      · exact absurd (h.unique hheld₂ ho) hne₂
    · rcases hback h₂ with ⟨rfl, rfl⟩ | ⟨-, -, hheld₂⟩
      · exact absurd (h.unique hheld₁ ho) hne₁
      · exact h.unique hheld₁ hheld₂

end Tokens
