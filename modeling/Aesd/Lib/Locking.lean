/-
# Mutexes held by threads

A table says who holds each mutex (`μ → Option τ`), and each thread's place in its program says
which mutexes it holds (`τ → μ → Bool`).  The two agree (`Agree`) as long as a thread acquires
only what is free, releases only what it holds, and moves in its program as its actions say.
From the agreement mutual exclusion is immediate (`Agree.unique`).

Who waits for whom, for a mutex or for an end, is a graph on the threads (`Waits`).  It has no
cycle if nobody waits with something in hand (`Waits.acyclic`).
-/
import Mathlib.Logic.Function.Basic
import Mathlib.Logic.Relation

namespace Locking

variable {τ μ : Type*}

/-! ## 1. Agreement -/

/-- The table names the thread that holds a mutex. -/
def Agree (holder : μ → Option τ) (held : τ → μ → Bool) : Prop :=
  ∀ m t, holder m = some t ↔ held t m = true

/-- At the start all mutexes are free. -/
theorem Agree.init {held : τ → μ → Bool} (h : ∀ t m, held t m = false) :
    Agree (fun _ => none) held := by
  intro m t
  rw [h t m]
  simp

/-- **Mutual exclusion.** -/
theorem Agree.unique {holder : μ → Option τ} {held : τ → μ → Bool} (h : Agree holder held) {m : μ}
    {t t' : τ} (ht : held t m = true) (ht' : held t' m = true) : t = t' :=
  Option.some.inj (((h m t).mpr ht).symm.trans ((h m t').mpr ht'))

/-- A free mutex is held by nobody. -/
theorem Agree.of_free {holder : μ → Option τ} {held : τ → μ → Bool} (h : Agree holder held) {m : μ}
    (hm : holder m = none) (t : τ) : held t m = false := by
  cases ht : held t m with
  | false => rfl
  | true => exact absurd (hm.symm.trans ((h m t).mpr ht)) (by simp)

/-! ## 2. Actions -/

/-- What a step of a thread does to the mutexes. -/
inductive Action (μ : Type*)
  | acquire (m : μ)
  | release (m : μ)
  | pass

variable [DecidableEq μ]

/-- The mutexes a thread holds after an action. -/
def Action.after (held : μ → Bool) : Action μ → μ → Bool
  | acquire m => Function.update held m true
  | release m => Function.update held m false
  | pass => held

/-- An action of thread `t` on the table of holders: a mutex is acquired when it is free. -/
inductive Acts (t : τ) (holder : μ → Option τ) : Action μ → (μ → Option τ) → Prop
  | acquire (m : μ) : holder m = none →
      Acts t holder (.acquire m) (Function.update holder m (some t))
  | release (m : μ) : Acts t holder (.release m) (Function.update holder m none)
  | pass : Acts t holder .pass holder

/-- The table an action leads to, if it is possible. -/
def Action.next (t : τ) (holder : μ → Option τ) : Action μ → Option (μ → Option τ)
  | acquire m =>
    if (holder m).isNone then some (Function.update holder m (some t)) else none
  | release m => some (Function.update holder m none)
  | pass => some holder

theorem Acts.of_next {t : τ} {holder holder' : μ → Option τ} {a : Action μ}
    (h : a.next t holder = some holder') : Acts t holder a holder' := by
  cases a with
  | acquire m =>
    rw [Action.next] at h
    split at h
    · rename_i hfree
      obtain rfl := Option.some.inj h
      exact Acts.acquire m (Option.isNone_iff_eq_none.mp hfree)
    · exact absurd h (by simp)
  | release m =>
    obtain rfl := Option.some.inj h
    exact Acts.release m
  | pass =>
    obtain rfl := Option.some.inj h
    exact Acts.pass

/-- An action is possible unless it acquires what is not free. -/
theorem Acts.exists (t : τ) (holder : μ → Option τ) {a : Action μ}
    (h : ∀ m, a = .acquire m → holder m = none) : ∃ holder', Acts t holder a holder' := by
  cases a with
  | acquire m => exact ⟨_, Acts.acquire m (h m rfl)⟩
  | release m => exact ⟨_, Acts.release m⟩
  | pass => exact ⟨_, Acts.pass⟩

/-- A free mutex stays free unless it is acquired. -/
theorem Acts.free {t : τ} {holder holder' : μ → Option τ} {a : Action μ}
    (h : Acts t holder a holder') {m : μ} (hm : holder m = none) (ha : a ≠ .acquire m) :
    holder' m = none := by
  cases h with
  | acquire n =>
    rwa [Function.update_of_ne fun heq => ha (by rw [heq])]
  | release n =>
    rw [Function.update_apply]
    split
    · rfl
    · exact hm
  | pass => exact hm

/-- Who has a mutex had it before or has just acquired it. -/
theorem Acts.of_holder {t u : τ} {holder holder' : μ → Option τ} {a : Action μ}
    (h : Acts t holder a holder') {m : μ} (hm : holder' m = some u) :
    holder m = some u ∨ (u = t ∧ a = .acquire m) := by
  cases h with
  | acquire n =>
    rw [Function.update_apply] at hm
    split at hm
    · rename_i heq
      exact Or.inr ⟨(Option.some.inj hm).symm, by rw [heq]⟩
    · exact Or.inl hm
  | release n =>
    rw [Function.update_apply] at hm
    split at hm
    · cases hm
    · exact Or.inl hm
  | pass => exact Or.inl hm

/-- What an action of thread `t` makes of the holder of `m`: only who has a mutex may release it. -/
def Action.owner [DecidableEq τ] (t : τ) (m : μ) (s : Option τ) : Action μ → Option (Option τ)
  | acquire n => if n = m then (if s = none then some (some t) else none) else some s
  | release n => if n = m then (if s = some t then some none else none) else some s
  | pass => some s

/-- **Every action is allowed to every mutex** where a thread releases only what it has. -/
theorem Acts.owner [DecidableEq τ] {t : τ} {holder holder' : μ → Option τ} {a : Action μ}
    (h : Acts t holder a holder') (hrel : ∀ m, a = .release m → holder m = some t) (m : μ) :
    a.owner t m (holder m) = some (holder' m) := by
  cases h with
  | acquire n hfree =>
    by_cases hn : n = m
    · subst hn
      simp [Action.owner, hfree]
    · simp [Action.owner, hn, Function.update_of_ne (Ne.symm hn)]
  | release n =>
    by_cases hn : n = m
    · subst hn
      simp [Action.owner, hrel n rfl]
    · simp [Action.owner, hn, Function.update_of_ne (Ne.symm hn)]
  | pass => rfl

/-- Nobody takes a mutex from another thread. -/
theorem Action.owner_other [DecidableEq τ] {t u : τ} {m : μ} {s : Option τ} {a : Action μ}
    (hu : u ≠ t) (h : a.owner t m (some u) = some s) : s = some u := by
  cases a with
  | acquire n =>
    rw [Action.owner] at h
    split at h
    · simp at h
    · exact (Option.some.inj h).symm
  | release n =>
    rw [Action.owner] at h
    split at h
    · simp [hu] at h
    · exact (Option.some.inj h).symm
  | pass => exact (Option.some.inj h).symm

omit [DecidableEq μ] in
/-- A mutex that no thread acquires or releases. -/
theorem Agree.untouched {holder holder' : μ → Option τ} {held held' : τ → μ → Bool} {t : τ}
    (h : Agree holder held) (hothers : ∀ u, u ≠ t → held' u = held u) {m : μ}
    (hholder : holder' m = holder m) (hmine : held' t m = held t m) (u : τ) :
    holder' m = some u ↔ held' u m = true := by
  rw [hholder]
  by_cases hu : u = t
  · rw [hu, hmine]
    exact h m t
  · rw [hothers u hu]
    exact h m u

/-- **A step keeps the agreement** if the thread moves as its action says, releases only what it
holds, and the others stay where they are. -/
theorem Agree.step {holder holder' : μ → Option τ} {held held' : τ → μ → Bool} {t : τ}
    {a : Action μ} (h : Agree holder held) (ha : Acts t holder a holder')
    (hmine : held' t = a.after (held t)) (hothers : ∀ u, u ≠ t → held' u = held u)
    (hrel : ∀ m, a = .release m → held t m = true) : Agree holder' held' := by
  intro m u
  cases ha with
  | pass => exact h.untouched hothers rfl (by rw [hmine]; rfl) u
  | acquire n hfree =>
    have hno : ∀ v, held v n = false := h.of_free hfree
    by_cases hm : m = n
    · subst hm
      rw [Function.update_self]
      by_cases hu : u = t
      · subst hu
        rw [hmine, Action.after, Function.update_self]
        simp
      · rw [hothers u hu, hno u]
        simpa [eq_comm] using hu
    · refine h.untouched hothers (Function.update_of_ne hm _ _) ?_ u
      rw [hmine, Action.after, Function.update_of_ne hm]
  | release n =>
    have hown : held t n = true := hrel n rfl
    by_cases hm : m = n
    · subst hm
      rw [Function.update_self]
      by_cases hu : u = t
      · subst hu
        rw [hmine, Action.after, Function.update_self]
        simp
      · rw [hothers u hu]
        refine iff_of_false (by simp) fun hheld => hu (h.unique hheld hown)
    · refine h.untouched hothers (Function.update_of_ne hm _ _) ?_ u
      rw [hmine, Action.after, Function.update_of_ne hm]

/-! ## 3. Waiting -/

/-- Thread `a` waits for thread `b`: it wants a mutex that `b` holds, or `b` to end. -/
inductive Waits (holder : μ → Option τ) (wants : τ → Option μ) (awaits : τ → τ → Prop) (a b : τ) :
    Prop
  | mutex (m : μ) : wants a = some m → holder m = some b → Waits holder wants awaits a b
  | finish : awaits a b → Waits holder wants awaits a b

omit [DecidableEq μ] in
/-- **No cycle of waits** if whoever waits holds nothing and whoever is to end is not waiting:
then no two waits follow each other. -/
theorem Waits.acyclic {holder : μ → Option τ} {held : τ → μ → Bool} {wants : τ → Option μ}
    {awaits : τ → τ → Prop} (h : Agree holder held)
    (hwants : ∀ a m, wants a = some m → ∀ n, held a n = false)
    (hholds : ∀ a b, awaits a b → ∀ n, held a n = false)
    (hawaits : ∀ a b, awaits a b → ∀ c, ¬ Waits holder wants awaits b c) (a : τ) :
    ¬ Relation.TransGen (Waits holder wants awaits) a a := by
  have hno : ∀ {a b c}, Waits holder wants awaits a b → ¬ Waits holder wants awaits b c := by
    intro a b c hab hbc
    cases hab with
    | mutex m _ hm =>
      have hheld := (h m b).mp hm
      cases hbc with
      | mutex n hn _ => exact absurd (hheld.symm.trans (hwants b n hn m)) (by simp)
      | finish hend => exact absurd (hheld.symm.trans (hholds b c hend m)) (by simp)
    | finish hend => exact hawaits a b hend c hbc
  intro hcycle
  -- the first wait of the cycle is followed by another, or by itself
  obtain ⟨b, hab, hba⟩ := Relation.TransGen.head'_iff.mp hcycle
  rcases Relation.ReflTransGen.cases_head hba with rfl | ⟨c, hbc, -⟩
  · exact hno hab hab
  · exact hno hab hbc

end Locking
