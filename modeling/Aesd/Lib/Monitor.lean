/-
# Calls under one mutex are atomic

Threads call the operations of an object.  A call goes through three phases: before it holds the
object's mutex, inside, and after it has given the mutex back; it may also leave without ever
taking it.  Inside, the call works on the shared state step by step, and the other threads step in
between.  Besides the shared state each call has a cell of its own (the one under its `key`) that
no other call uses meanwhile.

`Finish` is what a call comes to when nobody else steps.  If that is what a specification says
(`Meets`), then every run of any number of threads looks from the outside like a run of the
specification itself, in which a call takes effect at one moment between its start and its end
(`Monitor.refines`): the moment is when the mutex is taken, or when the call gives up taking it.
-/
import Aesd.Lib.Transition
import Aesd.Lib.Locking
import Mathlib.Data.Fintype.Basic

open Transition Locking

/-! ## 1. The atomic object -/

namespace Atomic

/-- Where a thread stands: in no call, in one without effect yet, or in one that will return `r`. -/
inductive Status (C R : Type*)
  | idle
  | called (c : C)
  | done (r : R)

/-- The object's state, and where each thread stands. -/
structure Object (τ α C R : Type*) where
  state : α
  status : τ → Status C R

/-- What a step of the atomic object does. -/
inductive Move (τ C R : Type*)
  | call (t : τ) (c : C)
  | commit (t : τ) (c : C) (r : R)
  | ret (t : τ) (r : R)

/-- What the threads see of calls: where they start and where they return. -/
inductive Event (τ C R : Type*)
  | call (t : τ) (c : C)
  | ret (t : τ) (r : R)
  deriving DecidableEq

variable {τ α C R : Type*}

/-- A commit is not seen from the outside. -/
def Move.event? : Move τ C R → Option (Event τ C R)
  | .call t c => some (.call t c)
  | .commit _ _ _ => none
  | .ret t r => some (.ret t r)

/-- The call that takes effect in a step. -/
def Move.effect? : Move τ C R → Option C
  | .commit _ c _ => some c
  | _ => none

/-- No thread is in a call. -/
def start (a : α) : Object τ α C R := ⟨a, fun _ => .idle⟩

variable [DecidableEq τ]

/-- The steps of an object whose calls take effect in one step each. -/
inductive Step (spec : α → C → α × R) : Object τ α C R → Move τ C R → Object τ α C R → Prop
  | call {o : Object τ α C R} {t : τ} {c : C} : o.status t = .idle →
      Step spec o (.call t c) ⟨o.state, Function.update o.status t (.called c)⟩
  | commit {o : Object τ α C R} {t : τ} {c : C} : o.status t = .called c →
      Step spec o (.commit t c (spec o.state c).2)
        ⟨(spec o.state c).1, Function.update o.status t (.done (spec o.state c).2)⟩
  | ret {o : Object τ α C R} {t : τ} {r : R} : o.status t = .done r →
      Step spec o (.ret t r) ⟨o.state, Function.update o.status t .idle⟩

variable {spec : α → C → α × R}

/-- A run's steps as they are seen from the outside. -/
def seen (h : List (Object τ α C R × Move τ C R)) : List (Event τ C R) :=
  h.filterMap fun x => x.2.event?

/-- The calls that took effect, in order. -/
def effects (h : List (Object τ α C R × Move τ C R)) : List C := h.filterMap fun x => x.2.effect?

/-- **The object's state** is what the calls that took effect make of the first one, in order. -/
theorem Run.state {a : α} {h : List (Object τ α C R × Move τ C R)} {o : Object τ α C R}
    (hr : Run (Step spec) (start a) h o) :
    o.state = (effects h).foldl (fun a c => (spec a c).1) a := by
  induction hr with
  | nil => rfl
  | @concat h s t e hr hs ih =>
    rw [effects, List.filterMap_append, List.foldl_append, ← effects, ← ih]
    cases hs <;> rfl

end Atomic

/-! ## 2. Code around a mutex -/

variable {τ κ α σ π C R B I A : Type*}

/-- Where a call that does not hold the mutex goes: on, into the mutex, or past it. -/
inductive Outer (B I A : Type*)
  | stay (b : B)
  | lock (i : I)
  | leave (a : A)

/-- A place in the code of a call: before it takes the mutex, inside, or after it. -/
inductive Point (B I A : Type*)
  | before (b : B)
  | inside (i : I)
  | after (a : A)

/-- The code holds the mutex. -/
def Point.holds : Point B I A → Bool
  | .inside _ => true
  | _ => false

/-- The code of the calls.  Before and after the mutex a call sees its own cell only, and before
the mutex it does not change it. -/
structure Monitor (C κ σ π R B I A : Type*) where
  key : C → κ
  enter : C → B
  before : B → π → Outer B I A
  inside : I → σ → π → (I ⊕ A) × σ × π
  after : A → π → (A ⊕ R) × π

namespace Monitor

variable (M : Monitor C κ σ π R B I A)

/-- One step of a call that is let to make it: the place it comes to or what it returns, the
shared state and its cell. -/
def advance : Point B I A → σ → π → (Point B I A ⊕ R) × σ × π
  | .before b, s, p =>
    match M.before b p with
    | .stay b => (.inl (.before b), s, p)
    | .lock i => (.inl (.inside i), s, p)
    | .leave a => (.inl (.after a), s, p)
  | .inside i, s, p =>
    match M.inside i s p with
    | (.inl i, s, p) => (.inl (.inside i), s, p)
    | (.inr a, s, p) => (.inl (.after a), s, p)
  | .after a, s, p =>
    match M.after a p with
    | (.inl a, p) => (.inl (.after a), s, p)
    | (.inr r, p) => (.inr r, s, p)

/-- What a call comes to from a place of its code when nobody else steps. -/
inductive Finish : Point B I A → σ → π → σ → π → R → Prop
  | step {pt pt' : Point B I A} {s s₁ s' : σ} {p p₁ p' : π} {r : R} :
      M.advance pt s p = (.inl pt', s₁, p₁) → Finish pt' s₁ p₁ s' p' r → Finish pt s p s' p' r
  | ret {pt : Point B I A} {s s' : σ} {p p' : π} {r : R} :
      M.advance pt s p = (.inr r, s', p') → Finish pt s p s' p' r

variable {M}

/-- A code that returns does not hold the mutex. -/
theorem advance_ret {pt : Point B I A} {s s' : σ} {p p' : π} {r : R}
    (h : M.advance pt s p = (.inr r, s', p')) : pt.holds = false ∧ s' = s := by
  unfold advance at h
  split at h
  · split at h <;> exact absurd h (by simp)
  · split at h <;> exact absurd h (by simp)
  · split at h
    · exact absurd h (by simp)
    · obtain ⟨-, rfl, -⟩ := h
      exact ⟨rfl, rfl⟩

/-- Only a code that holds the mutex changes the shared state. -/
theorem advance_shared {pt pt' : Point B I A} {s s' : σ} {p p' : π}
    (h : M.advance pt s p = (.inl pt', s', p')) (hpt : pt.holds = false) : s' = s := by
  unfold advance at h
  split at h
  · split at h
    all_goals
      obtain ⟨-, rfl, -⟩ := h
      rfl
  · exact absurd hpt (by simp [Point.holds])
  · split at h
    · obtain ⟨-, rfl, -⟩ := h
      rfl
    · exact absurd h (by simp)

theorem Finish.of_step {pt pt' : Point B I A} {s s₁ s' : σ} {p p₁ p' : π} {r : R}
    (h : M.Finish pt s p s' p' r) (ha : M.advance pt s p = (.inl pt', s₁, p₁)) :
    M.Finish pt' s₁ p₁ s' p' r := by
  cases h with
  | step ha' hf =>
    rw [ha] at ha'
    obtain ⟨hpt, rfl, rfl⟩ := ha'
    exact hf
  | ret ha' =>
    rw [ha] at ha'
    exact absurd ha' (by simp)

theorem Finish.of_ret {pt : Point B I A} {s s₁ s' : σ} {p p₁ p' : π} {r r₁ : R}
    (h : M.Finish pt s p s' p' r) (ha : M.advance pt s p = (.inr r₁, s₁, p₁)) :
    s' = s₁ ∧ p' = p₁ ∧ r = r₁ := by
  cases h with
  | step ha' _ =>
    rw [ha] at ha'
    exact absurd ha' (by simp)
  | ret ha' =>
    rw [ha] at ha'
    obtain ⟨rfl, rfl, rfl⟩ := ha'
    exact ⟨rfl, rfl, rfl⟩

section Finish

variable {a a' : A} {b b' : B} {i i' : I} {s s₁ s' : σ} {p p₁ p' : π} {r : R}

theorem Finish.stay (h : M.before b p = .stay b') (hf : M.Finish (.before b') s p s' p' r) :
    M.Finish (.before b) s p s' p' r :=
  .step (by unfold advance; dsimp only; rw [h]) hf

theorem Finish.lock (h : M.before b p = .lock i) (hf : M.Finish (.inside i) s p s' p' r) :
    M.Finish (.before b) s p s' p' r :=
  .step (by unfold advance; dsimp only; rw [h]) hf

theorem Finish.leave (h : M.before b p = .leave a) (hf : M.Finish (.after a) s p s' p' r) :
    M.Finish (.before b) s p s' p' r :=
  .step (by unfold advance; dsimp only; rw [h]) hf

theorem Finish.inside (h : M.inside i s p = (.inl i', s₁, p₁))
    (hf : M.Finish (.inside i') s₁ p₁ s' p' r) : M.Finish (.inside i) s p s' p' r :=
  .step (by unfold advance; dsimp only; rw [h]) hf

theorem Finish.unlock (h : M.inside i s p = (.inr a, s₁, p₁))
    (hf : M.Finish (.after a) s₁ p₁ s' p' r) : M.Finish (.inside i) s p s' p' r :=
  .step (by unfold advance; dsimp only; rw [h]) hf

theorem Finish.on (h : M.after a p = (.inl a', p₁)) (hf : M.Finish (.after a') s p₁ s' p' r) :
    M.Finish (.after a) s p s' p' r :=
  .step (by unfold advance; dsimp only; rw [h]) hf

theorem Finish.done (h : M.after a p = (.inr r, p')) : M.Finish (.after a) s p s p' r :=
  .ret (by unfold advance; dsimp only; rw [h])

end Finish

/-- After the mutex the shared state is neither changed nor read. -/
theorem Finish.after {a : A} {s s' : σ} {p p' : π} {r : R}
    (h : M.Finish (.after a) s p s' p' r) : s' = s ∧ ∀ s₁, M.Finish (.after a) s₁ p s₁ p' r := by
  generalize hpt : (Point.after a : Point B I A) = pt at h
  induction h generalizing a with
  | @step pt pt' s s₁ s' p p₁ p' r ha hf ih =>
    subst hpt
    unfold advance at ha
    dsimp only at ha
    split at ha
    · rename_i a' q hq
      obtain ⟨hpt, rfl, rfl⟩ := ha
      obtain ⟨hs, hall⟩ := ih rfl
      exact ⟨hs, fun s₁ => Finish.on hq (hall s₁)⟩
    · exact absurd ha (by simp)
  | @ret pt s s' p p' r ha =>
    subst hpt
    unfold advance at ha
    dsimp only at ha
    split at ha
    · exact absurd ha (by simp)
    · rename_i r' q hq
      obtain ⟨rfl, rfl, rfl⟩ := ha
      exact ⟨rfl, fun _ => Finish.done hq⟩

end Monitor

/-! ## 3. Threads -/

/-- The threads at work: who holds the mutex, the shared state, everybody's cells, and the call
each thread is in. -/
structure Sys (τ C κ σ π B I A : Type*) where
  holder : Unit → Option τ
  shared : σ
  cells : κ → π
  call : τ → Option (C × Point B I A)

/-- What a step of the threads does. -/
inductive Label (τ C R : Type*)
  | call (t : τ) (c : C)
  | work (t : τ)
  | ret (t : τ) (r : R)

/-- The work on a call is not seen from the outside. -/
def Label.event? {τ C R : Type*} : Label τ C R → Option (Atomic.Event τ C R)
  | .call t c => some (.call t c)
  | .work _ => none
  | .ret t r => some (.ret t r)

/-- What a step of the code does to the mutex. -/
def lockAction : Bool → Bool → Action Unit
  | false, true => .acquire ()
  | true, false => .release ()
  | _, _ => .pass

theorem lockAction_after (held : Unit → Bool) (b b' : Bool) (hb : held () = b) :
    (lockAction b b').after held () = b' := by
  cases b <;> cases b' <;> simp [lockAction, Action.after, hb]

namespace Sys

/-- No thread is in a call. -/
def start (s : σ) (f : κ → π) : Sys τ C κ σ π B I A := ⟨fun _ => none, s, f, fun _ => none⟩

variable (x : Sys τ C κ σ π B I A)

/-- Whether a thread's code holds the mutex. -/
def held (t : τ) (_ : Unit) : Bool := (x.call t).any fun c => c.2.holds

/-- No call in progress has a key. -/
def Unused (M : Monitor C κ σ π R B I A) (k : κ) : Prop :=
  ∀ t c pt, x.call t = some (c, pt) → M.key c ≠ k

end Sys

namespace Monitor

variable {M : Monitor C κ σ π R B I A}

/-- What holds of the threads at any time: the table of the mutex agrees with their code, and no
two are in calls with one key. -/
structure Fit (M : Monitor C κ σ π R B I A) (x : Sys τ C κ σ π B I A) : Prop where
  agree : Agree x.holder x.held
  apart : ∀ {t u c d pt pt'}, x.call t = some (c, pt) → x.call u = some (d, pt') →
    M.key c = M.key d → t = u

theorem Fit.start (s : σ) (f : κ → π) : Fit M (Sys.start s f : Sys τ C κ σ π B I A) where
  agree := Agree.init fun _ _ => rfl
  apart h := absurd h (by simp [Sys.start])

variable [DecidableEq τ] [DecidableEq κ]

variable (M)

/-- The steps of the threads: a thread starts a call whose key no other call in progress has, goes
one step on in its call, or returns. -/
inductive Step : Sys τ C κ σ π B I A → Label τ C R → Sys τ C κ σ π B I A → Prop
  | call {x : Sys τ C κ σ π B I A} {t : τ} {c : C} : x.call t = none → x.Unused M (M.key c) →
      Step x (.call t c)
        { x with call := Function.update x.call t (some (c, .before (M.enter c))) }
  | work {x : Sys τ C κ σ π B I A} {t : τ} {c : C} {pt pt' : Point B I A} {s : σ} {p : π}
      {holder : Unit → Option τ} : x.call t = some (c, pt) →
      M.advance pt x.shared (x.cells (M.key c)) = (.inl pt', s, p) →
      Acts t x.holder (lockAction pt.holds pt'.holds) holder →
      Step x (.work t) ⟨holder, s, Function.update x.cells (M.key c) p,
        Function.update x.call t (some (c, pt'))⟩
  | ret {x : Sys τ C κ σ π B I A} {t : τ} {c : C} {pt : Point B I A} {s : σ} {p : π} {r : R} :
      x.call t = some (c, pt) → M.advance pt x.shared (x.cells (M.key c)) = (.inr r, s, p) →
      Step x (.ret t r) ⟨x.holder, s, Function.update x.cells (M.key c) p,
        Function.update x.call t none⟩

/-- A run's steps as they are seen from the outside. -/
def seen (h : List (Sys τ C κ σ π B I A × Label τ C R)) : List (Atomic.Event τ C R) :=
  h.filterMap fun x => x.2.event?

variable {M}

omit [DecidableEq κ] in
/-- The calls stay apart if one thread comes to a call whose key the others do not use. -/
theorem Fit.apart_update {x : Sys τ C κ σ π B I A} (hx : Fit M x) {t : τ}
    {v : Option (C × Point B I A)} (hv : ∀ c pt, v = some (c, pt) → ∀ u d pt', u ≠ t →
      x.call u = some (d, pt') → M.key d ≠ M.key c) {a b : τ} {c d : C} {pt pt' : Point B I A}
    (ha : Function.update x.call t v a = some (c, pt))
    (hb : Function.update x.call t v b = some (d, pt')) (hkey : M.key c = M.key d) : a = b := by
  rw [Function.update_apply] at ha hb
  split at ha <;> split at hb
  · rename_i h₁ h₂
    rw [h₁, h₂]
  · rename_i h₁ h₂
    exact absurd hkey.symm (hv _ _ ha _ _ _ h₂ hb)
  · rename_i h₁ h₂
    exact absurd hkey (hv _ _ hb _ _ _ h₁ ha)
  · exact hx.apart ha hb hkey

/-- **Every step keeps what holds of the threads.** -/
theorem Fit.step {x y : Sys τ C κ σ π B I A} {l : Label τ C R} (hx : Fit M x) (h : M.Step x l y) :
    Fit M y := by
  cases h with
  | @call t c ht hc =>
    refine ⟨hx.agree.step Acts.pass (t := t) ?_ ?_ fun m hm => absurd hm (by simp), ?_⟩
    · funext m
      simp [Sys.held, Action.after, ht, Point.holds]
    · intro u hu
      funext m
      simp [Sys.held, hu]
    · intro a b c₁ d₁ pt pt' ha hb hkey
      refine hx.apart_update (fun c' pt' hv u d pt'' _ hu => ?_) ha hb hkey
      obtain ⟨rfl, rfl⟩ := hv
      exact hc u d pt'' hu
  | @work t c pt pt' s p holder ht ha hact =>
    refine ⟨hx.agree.step hact ?_ ?_ ?_, ?_⟩
    · funext m
      rw [lockAction_after _ _ _ (by simp [Sys.held, ht])]
      simp [Sys.held]
    · intro u hu
      funext m
      simp [Sys.held, hu]
    · intro m hm
      cases hpt : pt.holds with
      | false => cases hpt' : pt'.holds <;> exact absurd hm (by simp [lockAction, hpt, hpt'])
      | true => simp [Sys.held, ht, hpt]
    · intro a b c₁ d₁ pt₁ pt₂ ha hb hkey
      refine hx.apart_update (fun c' pt' hv u d pt'' hne hu hkey' => ?_) ha hb hkey
      obtain ⟨rfl, rfl⟩ := hv
      exact hne (hx.apart hu ht hkey')
  | @ret t c pt s p r ht ha =>
    refine ⟨hx.agree.step Acts.pass (t := t) ?_ ?_ fun m hm => absurd hm (by simp), ?_⟩
    · funext m
      simp [Sys.held, Action.after, ht, (advance_ret ha).1]
    · intro u hu
      funext m
      simp [Sys.held, hu]
    · intro a b c₁ d₁ pt₁ pt₂ ha hb hkey
      exact hx.apart_update (fun _ _ hv => absurd hv (by simp)) ha hb hkey

/-- **Mutual exclusion** holds in every run, and no two calls in progress have one key. -/
theorem fit_of_run {s₀ : σ} {f₀ : κ → π} {h : List (Sys τ C κ σ π B I A × Label τ C R)}
    {x : Sys τ C κ σ π B I A} (hr : Run M.Step (Sys.start s₀ f₀) h x) : Fit M x :=
  hr.invariant (I := Fit M) (Fit.start s₀ f₀) fun hx hs => hx.step hs

/-! ## 4. The threads refine the atomic object -/

/-- What the code makes of a call when nobody else steps is what the specification says of it. -/
def Meets (M : Monitor C κ σ π R B I A) (spec : α → C → α × R) (abs : σ → (κ → π) → α) : Prop :=
  ∀ c s f, ∃ s' p' r, M.Finish (.before (M.enter c)) s (f (M.key c)) s' p' r ∧
    spec (abs s f) c = (abs s' (Function.update f (M.key c) p'), r)

/-- How a place in the code of call `c` stands to the atomic object: the shared state and the cell
are `s₀` and `p`, those of the atomic object `s` and `q`.  The object is ahead of a call from the
moment the call gets the mutex. -/
inductive Stands (M : Monitor C κ σ π R B I A) (s₀ : σ) (p : π) (s : σ) (c : C) :
    π → Point B I A → Atomic.Status C R → Prop
  | before {b : B} : (∀ s₁ s' p' r, M.Finish (.before (M.enter c)) s₁ p s' p' r →
      M.Finish (.before b) s₁ p s' p' r) → Stands M s₀ p s c p (.before b) (.called c)
  | inside {i : I} {q : π} {r : R} : M.Finish (.inside i) s₀ p s q r →
      Stands M s₀ p s c q (.inside i) (.done r)
  | after {a : A} {q : π} {r : R} : (∀ s₁, M.Finish (.after a) s₁ p s₁ q r) →
      Stands M s₀ p s c q (.after a) (.done r)

omit [DecidableEq τ] [DecidableEq κ] in
/-- A thread that does not hold the mutex stands the same whatever happens to the shared state. -/
theorem Stands.frame {s₀ s : σ} {p q : π} {c : C} {pt : Point B I A} {st : Atomic.Status C R}
    (h : Stands M s₀ p s c q pt st) (hpt : pt.holds = false) (s₁ s' : σ) :
    Stands M s₁ p s' c q pt st := by
  cases h with
  | before hf => exact .before hf
  | inside hf => exact absurd hpt (by simp [Point.holds])
  | after hf => exact .after hf

/-- The atomic object is where the threads are, or ahead of the one that holds the mutex. -/
structure Sim (M : Monitor C κ σ π R B I A) (abs : σ → (κ → π) → α) (x : Sys τ C κ σ π B I A)
    (o : Atomic.Object τ α C R) (s : σ) (f : κ → π) : Prop where
  state : o.state = abs s f
  free : x.holder () = none → s = x.shared
  unused : ∀ {k}, x.Unused M k → f k = x.cells k
  idle : ∀ {t}, x.call t = none → o.status t = .idle
  stands : ∀ {t c pt}, x.call t = some (c, pt) →
    Stands M x.shared (x.cells (M.key c)) s c (f (M.key c)) pt (o.status t)

variable {spec : α → C → α × R} {abs : σ → (κ → π) → α}

/-- **A step of a call keeps the simulation** if the thread that made it stands well afterwards, and
the shared state changed only while the thread held the mutex before or after. -/
theorem Sim.work {x : Sys τ C κ σ π B I A} {o : Atomic.Object τ α C R} {s s₁ s' : σ} {f : κ → π}
    {t : τ} {c : C} {pt pt' : Point B I A} {p₁ q' : π} {holder : Unit → Option τ}
    {st : Atomic.Status C R} (hsim : Sim M abs x o s f) (hx : Fit M x)
    (hy : Fit M ⟨holder, s₁, Function.update x.cells (M.key c) p₁,
      Function.update x.call t (some (c, pt'))⟩)
    (ht : x.call t = some (c, pt)) (hstands : Stands M s₁ p₁ s' c q' pt' st)
    (hsame : pt.holds = false → pt'.holds = false → s₁ = x.shared ∧ s' = s)
    (hfree : holder () = none → s' = s₁) :
    Sim M abs ⟨holder, s₁, Function.update x.cells (M.key c) p₁,
        Function.update x.call t (some (c, pt'))⟩
      ⟨abs s' (Function.update f (M.key c) q'), Function.update o.status t st⟩ s'
      (Function.update f (M.key c) q') where
  state := rfl
  free := hfree
  unused {k} hk := by
    have hne : k ≠ M.key c := fun heq => hk t c pt' (by simp) heq.symm
    rw [Function.update_of_ne hne]
    dsimp only
    rw [Function.update_of_ne hne]
    refine hsim.unused fun u d pt'' hu heq => ?_
    by_cases hut : u = t
    · subst hut
      obtain ⟨rfl, rfl⟩ := hu.symm.trans ht
      exact hne heq.symm
    · exact hk u d pt'' (by simp [hut, hu]) heq
  idle {u} hu := by
    have hne : u ≠ t := fun heq => absurd hu (by simp [heq])
    dsimp only at hu
    rw [Function.update_of_ne hne] at hu
    dsimp only
    rw [Function.update_of_ne hne, hsim.idle hu]
  stands {u d pt''} hu := by
    dsimp only at hu ⊢
    by_cases hut : u = t
    · subst hut
      simp only [Function.update_self, Option.some.injEq, Prod.mk.injEq] at hu
      obtain ⟨rfl, rfl⟩ := hu
      simpa only [Function.update_self] using hstands
    · have hold : x.call u = some (d, pt'') := by rwa [Function.update_of_ne hut] at hu
      have hkey : M.key d ≠ M.key c := fun heq => hut (hx.apart hold ht heq)
      rw [Function.update_of_ne hut, Function.update_of_ne hkey, Function.update_of_ne hkey]
      have hwas := hsim.stands hold
      cases hin : pt''.holds with
      | false => exact hwas.frame hin _ _
      | true =>
        -- the other thread holds the mutex, so this one did not before and does not now
        have hpt : pt.holds = false := by
          refine Bool.eq_false_iff.mpr fun hpt => hut ?_
          exact hx.agree.unique (m := ()) (by simp [Sys.held, hold, hin])
            (by simp [Sys.held, ht, hpt])
        have hpt' : pt'.holds = false := by
          refine Bool.eq_false_iff.mpr fun hpt' => hut ?_
          exact hy.agree.unique (m := ()) (by simp [Sys.held, hut, hold, hin])
            (by simp [Sys.held, hpt'])
        obtain ⟨rfl, rfl⟩ := hsame hpt hpt'
        exact hwas

/-- A step after which the atomic object can stay as it is. -/
theorem Sim.quiet {x : Sys τ C κ σ π B I A} {o : Atomic.Object τ α C R} {s s₁ : σ} {f : κ → π}
    {t : τ} {c : C} {pt pt' : Point B I A} {p₁ : π} {holder : Unit → Option τ}
    (hsim : Sim M abs x o s f) (hx : Fit M x)
    (hy : Fit M ⟨holder, s₁, Function.update x.cells (M.key c) p₁,
      Function.update x.call t (some (c, pt'))⟩)
    (ht : x.call t = some (c, pt)) (hstands : Stands M s₁ p₁ s c (f (M.key c)) pt' (o.status t))
    (hsame : pt.holds = false → pt'.holds = false → s₁ = x.shared)
    (hfree : holder () = none → s = s₁) :
    Sim M abs ⟨holder, s₁, Function.update x.cells (M.key c) p₁,
      Function.update x.call t (some (c, pt'))⟩ o s f := by
  have hwork := hsim.work hx hy ht hstands (fun h h' => ⟨hsame h h', rfl⟩) hfree
  rwa [Function.update_eq_self, Function.update_eq_self, ← hsim.state] at hwork

/-- A call takes effect in the atomic object. -/
theorem commit_run {o : Atomic.Object τ α C R} {t : τ} {c : C} {a a' : α} {r : R}
    (hst : o.status t = .called c) (ha : o.state = a) (hspec : spec a c = (a', r)) :
    Run (Atomic.Step spec) o [(o, .commit t c r)] ⟨a', Function.update o.status t (.done r)⟩ := by
  have hs : Atomic.Step spec o _ _ := Atomic.Step.commit hst
  rw [ha, hspec] at hs
  exact Run.nil.concat hs

/-- **Every step of the threads is followed by the atomic object**: a call takes effect when it
gets the mutex, or when it leaves without. -/
theorem Sim.step {x y : Sys τ C κ σ π B I A} {l : Label τ C R} {o : Atomic.Object τ α C R} {s : σ}
    {f : κ → π} (hM : Meets M spec abs) (hx : Fit M x) (hs : M.Step x l y)
    (hsim : Sim M abs x o s f) :
    ∃ h' o', Run (Atomic.Step spec) o h' o' ∧
      h'.filterMap (fun z => z.2.event?) = l.event?.toList ∧ ∃ s' f', Sim M abs y o' s' f' := by
  have hy := hx.step hs
  cases hs with
  | @call t c ht hc =>
    refine ⟨_, _, Run.nil.concat (Atomic.Step.call (hsim.idle ht)), rfl, s, f, ?_⟩
    refine ⟨hsim.state, hsim.free, fun {k} hk => hsim.unused fun u d pt hu => ?_, ?_, ?_⟩
    · have hut : u ≠ t := fun heq => absurd (heq ▸ hu) (by simp [ht])
      exact hk u d pt (by simp [hut, hu])
    · intro u hu
      dsimp only at hu ⊢
      have hut : u ≠ t := fun heq => absurd hu (by simp [heq])
      rw [Function.update_of_ne hut] at hu ⊢
      exact hsim.idle hu
    · intro u d pt hu
      dsimp only at hu ⊢
      by_cases hut : u = t
      · subst hut
        simp only [Function.update_self, Option.some.injEq, Prod.mk.injEq] at hu
        obtain ⟨rfl, rfl⟩ := hu
        rw [Function.update_self, hsim.unused hc]
        exact .before fun _ _ _ _ h => h
      · rw [Function.update_of_ne hut] at hu ⊢
        exact hsim.stands hu
  | @work t c pt pt' s₁ p₁ holder ht ha hact =>
    have hwas := hsim.stands ht
    generalize hst : o.status t = st at hwas
    generalize hq : f (M.key c) = q at hwas
    cases hwas with
    | @before b hfin =>
      obtain ⟨s', p', r, hmeets, hspec⟩ := hM c s f
      have hrest := hfin _ _ _ _ (hq ▸ hmeets)
      unfold advance at ha
      dsimp only at ha
      split at ha
      · -- on towards the mutex
        rename_i b' hb
        obtain ⟨rfl, rfl, rfl⟩ := ha
        cases hact
        refine ⟨[], o, Run.nil, rfl, s, f, hsim.quiet hx hy ht ?_ (fun _ _ => rfl) hsim.free⟩
        rw [hst, hq]
        refine .before fun s₂ s₃ p₃ r₃ h => ?_
        exact (hfin _ _ _ _ h).of_step (by unfold advance; dsimp only; rw [hb])
      · -- the mutex is taken
        rename_i i hi
        obtain ⟨rfl, rfl, rfl⟩ := ha
        cases hact with
        | acquire _ hnone =>
          obtain rfl := hsim.free hnone
          have hin : M.Finish (.inside i) x.shared (x.cells (M.key c)) s' p' r :=
            hrest.of_step (by unfold advance; dsimp only; rw [hi])
          refine ⟨_, _, commit_run hst hsim.state hspec, rfl, s',
            Function.update f (M.key c) p', ?_⟩
          refine hsim.work hx hy ht (.inside hin) (fun _ h => absurd h (by simp [Point.holds])) ?_
          exact fun h => absurd h (by simp)
      · -- the call leaves without it
        rename_i a hleave
        obtain ⟨rfl, rfl, rfl⟩ := ha
        cases hact
        have hafter : M.Finish (.after a) s (x.cells (M.key c)) s' p' r :=
          hrest.of_step (by unfold advance; dsimp only; rw [hleave])
        obtain ⟨rfl, hall⟩ := hafter.after
        refine ⟨_, _, commit_run hst hsim.state hspec, rfl, s',
          Function.update f (M.key c) p', ?_⟩
        exact hsim.work hx hy ht (.after hall) (fun _ _ => ⟨rfl, rfl⟩) hsim.free
    | @inside i q r hfin =>
      have hrest := hfin.of_step ha
      have hmine : x.holder () = some t := (hx.agree () t).mpr (by simp [Sys.held, ht, Point.holds])
      cases pt' with
      | before b =>
        unfold advance at ha
        dsimp only at ha
        split at ha <;> exact absurd ha (by simp)
      | inside i' =>
        cases hact
        refine ⟨[], o, Run.nil, rfl, s, f, hsim.quiet hx hy ht ?_ ?_ ?_⟩
        · rw [hst, hq]
          exact .inside hrest
        · exact fun h => absurd h (by simp [Point.holds])
        · exact fun h => absurd (hmine.symm.trans h) (by simp)
      | after a =>
        obtain ⟨rfl, hall⟩ := hrest.after
        refine ⟨[], o, Run.nil, rfl, s, f, hsim.quiet hx hy ht ?_ ?_ fun _ => rfl⟩
        · rw [hst, hq]
          exact .after hall
        · exact fun h => absurd h (by simp [Point.holds])
    | @after a q r hfin =>
      have hrest := (hfin x.shared).of_step ha
      obtain rfl := advance_shared ha rfl
      cases pt' with
      | before b =>
        unfold advance at ha
        dsimp only at ha
        split at ha <;> exact absurd ha (by simp)
      | inside i =>
        unfold advance at ha
        dsimp only at ha
        split at ha <;> exact absurd ha (by simp)
      | after a' =>
        cases hact
        refine ⟨[], o, Run.nil, rfl, s, f, hsim.quiet hx hy ht ?_ (fun _ _ => rfl) hsim.free⟩
        rw [hst, hq]
        exact .after hrest.after.2
  | @ret t c pt s₁ p₁ r ht ha =>
    obtain ⟨hpt, rfl⟩ := advance_ret ha
    have hwas := hsim.stands ht
    generalize hst : o.status t = st at hwas
    generalize hq : f (M.key c) = q at hwas
    cases hwas with
    | before hfin =>
      unfold advance at ha
      dsimp only at ha
      split at ha <;> exact absurd ha (by simp)
    | inside hfin => exact absurd hpt (by simp [Point.holds])
    | @after a q r' hfin =>
      obtain ⟨-, rfl, rfl⟩ := (hfin x.shared).of_ret ha
      refine ⟨_, _, Run.nil.concat (Atomic.Step.ret hst), rfl, s, f, hsim.state, hsim.free,
        ?_, ?_, ?_⟩
      · intro k hk
        dsimp only
        rw [Function.update_apply]
        split
        · rename_i hkey
          rw [hkey, hq]
        · rename_i hkey
          refine hsim.unused fun u d pt' hu heq => ?_
          by_cases hut : u = t
          · subst hut
            obtain ⟨rfl, rfl⟩ := hu.symm.trans ht
            exact hkey heq.symm
          · exact hk u d pt' (by simp [hut, hu]) heq
      · intro u hu
        dsimp only at hu ⊢
        rw [Function.update_apply] at hu ⊢
        split at hu
        · rename_i hut
          rw [if_pos hut]
        · rename_i hut
          rw [if_neg hut]
          exact hsim.idle hu
      · intro u d pt' hu
        dsimp only at hu ⊢
        have hut : u ≠ t := fun heq => absurd hu (by simp [heq])
        rw [Function.update_of_ne hut] at hu ⊢
        rw [Function.update_of_ne fun heq => hut (hx.apart hu ht heq)]
        exact hsim.stands hu

/-- **The threads refine the atomic object.**  Whatever the order of their steps, what is seen of
the calls is what is seen in a run of the atomic object; and when no call is in progress the two
are in the same state. -/
theorem refines (hM : Meets M spec abs) {s₀ : σ} {f₀ : κ → π}
    {h : List (Sys τ C κ σ π B I A × Label τ C R)} {x : Sys τ C κ σ π B I A}
    (hr : Run M.Step (Sys.start s₀ f₀) h x) :
    ∃ h' o, Run (Atomic.Step spec) (Atomic.start (abs s₀ f₀)) h' o ∧
      Atomic.seen h' = seen h ∧ ∃ s f, Sim M abs x o s f := by
  refine hr.refine (R := fun x o => ∃ s f, Sim M abs x o s f) Label.event? Atomic.Move.event? ?_ ?_
  · exact ⟨s₀, f₀, rfl, fun _ => rfl, fun _ => rfl, fun _ => rfl,
      fun h => absurd h (by simp [Sys.start])⟩
  · intro h x o l y hr hsim hs
    obtain ⟨s, f, hsim⟩ := hsim
    exact hsim.step hM (fit_of_run hr) hs

/-! ## 5. Calls return -/

omit [DecidableEq τ] in
/-- Whatever place of its code a call is at, alone it comes to an end. -/
theorem Sim.exists_finish {x : Sys τ C κ σ π B I A} {o : Atomic.Object τ α C R} {s : σ} {f : κ → π}
    (hsim : Sim M abs x o s f) (hM : Meets M spec abs) {t : τ} {c : C} {pt : Point B I A}
    (ht : x.call t = some (c, pt)) :
    ∃ s' p' r, M.Finish pt x.shared (x.cells (M.key c)) s' p' r := by
  have hwas := hsim.stands ht
  generalize o.status t = st at hwas
  generalize f (M.key c) = q at hwas
  cases hwas with
  | before hfin =>
    obtain ⟨s', p', r, hmeets, -⟩ := hM c x.shared x.cells
    exact ⟨s', p', r, hfin _ _ _ _ hmeets⟩
  | inside hfin => exact ⟨_, _, _, hfin⟩
  | after hfin => exact ⟨_, _, _, hfin _⟩

/-- The steps of a history start no call. -/
def NoCall (h : List (Sys τ C κ σ π B I A × Label τ C R)) : Prop := ∀ z ∈ h, ∀ t c, z.2 ≠ .call t c

/-- **A call that has the mutex, or finds it free, can run to its end alone**, and then the mutex
is free. -/
theorem Finish.run {pt : Point B I A} {s s' : σ} {p p' : π} {r : R}
    (h : M.Finish pt s p s' p' r) : ∀ {x : Sys τ C κ σ π B I A} {t : τ} {c : C}, Fit M x →
      x.call t = some (c, pt) → x.shared = s → x.cells (M.key c) = p →
      (pt.holds = false → x.holder () = none) →
      ∃ h' y, Run M.Step x h' y ∧ NoCall h' ∧ y.call t = none ∧ y.holder () = none ∧
        ∀ u, u ≠ t → y.call u = x.call u := by
  induction h with
  | @step pt pt' s s₁ s' p p₁ p' r ha hf ih =>
    intro x t c hx ht hs hp hfree
    subst hs hp
    have hact : ∃ holder, Acts t x.holder (lockAction pt.holds pt'.holds) holder ∧
        (pt'.holds = false → holder () = none) := by
      cases hpt : pt.holds with
      | false =>
        cases hpt' : pt'.holds with
        | false => exact ⟨_, Acts.pass, fun _ => hfree hpt⟩
        | true => exact ⟨_, Acts.acquire () (hfree hpt), fun h => absurd h (by simp)⟩
      | true =>
        cases hpt' : pt'.holds with
        | false => exact ⟨_, Acts.release (), fun _ => Function.update_self ..⟩
        | true => exact ⟨_, Acts.pass, fun h => absurd h (by simp)⟩
    obtain ⟨holder, hact, hfree'⟩ := hact
    have hs := Step.work ht ha hact
    obtain ⟨h', y, hr, hno, hy⟩ := ih (t := t) (c := c) (hx.step hs) (by simp) rfl (by simp) hfree'
    refine ⟨_, y, (Run.nil.concat hs).append hr, ?_, hy.1, hy.2.1, fun u hu => ?_⟩
    · intro z hz
      rcases List.mem_append.mp hz with hz | hz
      · rw [List.mem_singleton.mp hz]
        exact fun _ _ => by simp
      · exact hno z hz
    · rw [hy.2.2 u hu]
      exact Function.update_of_ne hu _ _
  | @ret pt s s' p p' r ha =>
    intro x t c hx ht hs hp hfree
    subst hs hp
    refine ⟨_, _, Run.nil.concat (Step.ret ht ha), ?_, Function.update_self .., ?_, fun u hu => ?_⟩
    · intro z hz
      rw [List.mem_singleton.mp hz]
      exact fun _ _ => by simp
    · exact hfree (advance_ret ha).1
    · exact Function.update_of_ne hu _ _

/-- **No call is stuck**: from wherever a run comes to, the threads can go on so that a call in
progress returns, without another call being started. -/
theorem completes (hM : Meets M spec abs) {s₀ : σ} {f₀ : κ → π}
    {h : List (Sys τ C κ σ π B I A × Label τ C R)} {x : Sys τ C κ σ π B I A}
    (hr : Run M.Step (Sys.start s₀ f₀) h x) (t : τ) :
    ∃ h' y, Run M.Step x h' y ∧ NoCall h' ∧ y.call t = none := by
  -- alone to the end, with the mutex free
  have hsolo : ∀ {h x}, Run M.Step (Sys.start s₀ f₀) h x → x.holder () = none →
      ∃ h' y, Run M.Step x h' y ∧ NoCall h' ∧ y.call t = none := by
    intro h x hr hfree
    cases ht : x.call t with
    | none => exact ⟨[], x, Run.nil, fun z hz => absurd hz List.not_mem_nil, ht⟩
    | some cpt =>
      obtain ⟨h', o, -, -, s, f, hsim⟩ := refines hM hr
      obtain ⟨s', p', r, hfin⟩ := hsim.exists_finish hM ht
      obtain ⟨h'', y, hrun, hno, hidle, -⟩ :=
        hfin.run (fit_of_run hr) ht rfl rfl fun _ => hfree
      exact ⟨h'', y, hrun, hno, hidle⟩
  cases hhold : x.holder () with
  | none => exact hsolo hr hhold
  | some u =>
    have hheld := ((fit_of_run hr).agree () u).mp hhold
    cases hu : x.call u with
    | none => exact absurd hheld (by simp [Sys.held, hu])
    | some cpt =>
      obtain ⟨c, pt⟩ := cpt
      have hpt : pt.holds = true := by simpa [Sys.held, hu] using hheld
      obtain ⟨h', o, -, -, s, f, hsim⟩ := refines hM hr
      obtain ⟨s', p', r, hfin⟩ := hsim.exists_finish hM hu
      obtain ⟨h₁, y, hrun, hno, -, hfree, -⟩ :=
        hfin.run (fit_of_run hr) hu rfl rfl fun h => absurd (hpt.symm.trans h) (by simp)
      obtain ⟨h₂, z, hrun', hno', hidle⟩ := hsolo (hr.append hrun) hfree
      refine ⟨h₁ ++ h₂, z, hrun.append hrun', fun w hw => ?_, hidle⟩
      exact (List.mem_append.mp hw).elim (hno w) (hno' w)

/-! ## 6. Runs that are computed -/

variable [Fintype τ] (M)

/-- What a choice leads to: a thread starts a call, or goes one step on in its call. -/
def next (x : Sys τ C κ σ π B I A) (choice : τ × Option C) :
    Option (Label τ C R × Sys τ C κ σ π B I A) :=
  let t := choice.1
  match choice.2, x.call t with
  | some c, none =>
    if ∀ u, (x.call u).all fun d => M.key d.1 ≠ M.key c then
      some (.call t c, { x with call := Function.update x.call t (some (c, .before (M.enter c))) })
    else none
  | none, some (c, pt) =>
    match M.advance pt x.shared (x.cells (M.key c)) with
    | (.inl pt', s, p) =>
      ((lockAction pt.holds pt'.holds).next t x.holder).map fun holder =>
        (.work t, ⟨holder, s, Function.update x.cells (M.key c) p,
          Function.update x.call t (some (c, pt'))⟩)
    | (.inr r, s, p) =>
      some (.ret t r, ⟨x.holder, s, Function.update x.cells (M.key c) p,
        Function.update x.call t none⟩)
  | _, _ => none

/-- **What a choice leads to is a step.** -/
theorem step_of_next (x : Sys τ C κ σ π B I A) (choice : τ × Option C) (l : Label τ C R)
    (y : Sys τ C κ σ π B I A) (h : M.next x choice = some (l, y)) : M.Step x l y := by
  unfold next at h
  dsimp only at h
  split at h
  · rename_i c _ ht
    split at h
    · rename_i hkeys
      obtain ⟨rfl, rfl⟩ := Prod.mk.inj (Option.some.inj h)
      refine Step.call ht fun u d pt hu => ?_
      have hkey := hkeys u
      rw [hu] at hkey
      simpa using hkey
    · exact absurd h (by simp)
  · rename_i c pt _ ht
    split at h
    · rename_i pt' s p ha
      obtain ⟨holder, hnext, heq⟩ := Option.map_eq_some_iff.mp h
      obtain ⟨rfl, rfl⟩ := Prod.mk.inj heq
      exact Step.work ht ha (Acts.of_next hnext)
    · rename_i r s p ha
      obtain ⟨rfl, rfl⟩ := Prod.mk.inj (Option.some.inj h)
      exact Step.ret ht ha
  · exact absurd h (by simp)

end Monitor
