/-
# Obtaining and releasing the mutex

What a thread has done can be read off its place in `threadfunc` (`Course`), and who has a mutex is
told by the places of the threads and by those that ended with it (`Holds`).  So over whole runs a
mutex goes from thread to thread, and the flag of a record that came back tells the truth
(`threads_obtaining_mutex`).
-/
import Aesd.Lib.Discipline
import Aesd.Threading.Records
import Mathlib.Data.List.Count

namespace Aesd.Threading

open Transition Locking Discipline

variable {μ : Type} [DecidableEq μ] {x y : System μ} {e : Event μ}

/-! ## 1. What a thread has done -/

/-- The thread `id` obtains the mutex. -/
def Event.locks (id : ℕ) (m : μ) : Event μ → Bool
  | .thread i (.mutexLock n) rc => decide (i = id ∧ n = m ∧ rc = 0)
  | _ => false

/-- The thread `id` releases the mutex. -/
def Event.unlocks (id : ℕ) (m : μ) : Event μ → Bool
  | .thread i (.mutexUnlock n) rc => decide (i = id ∧ n = m ∧ rc = 0)
  | _ => false

/-- What the thread `id`, which is at `pc` with the record `d`, has done: obtained and released its
record's mutex and no other, as its place says. -/
structure Course (es : List (Event μ)) (id : ℕ) (d : ThreadData μ) (pc : ThreadPc) : Prop where
  locks : ∀ m, es.countP (Event.locks id m) = if m = d.mutex ∧ pc.locked = true then 1 else 0
  unlocks : ∀ m, es.countP (Event.unlocks id m) = if m = d.mutex ∧ pc.unlocked = true then 1 else 0
  flag : d.threadCompleteSuccess = pc.flag
  undefined : ∀ {locked}, pc = .undefined locked →
    usec d.waitToObtainMs = none ∨ usec d.waitToReleaseMs = none

variable {es : List (Event μ)} {id : ℕ} {d d' : ThreadData μ} {pc pc' : ThreadPc} {op : ThreadOp μ}
  {rc : ℤ}

/-- Nothing was obtained or released. -/
theorem Course.quiet (hc : Course es id d pc) (hl : ∀ m, e.locks id m = false)
    (hu : ∀ m, e.unlocks id m = false) (hm : d'.mutex = d.mutex) (hlocked : pc'.locked = pc.locked)
    (hunlocked : pc'.unlocked = pc.unlocked) (hflag : d'.threadCompleteSuccess = pc'.flag)
    (hundef : ∀ {locked}, pc' = .undefined locked →
      usec d'.waitToObtainMs = none ∨ usec d'.waitToReleaseMs = none) :
    Course (es ++ [e]) id d' pc' where
  locks m := by
    rw [List.countP_append, hc.locks m, hm, hlocked]
    simp [hl m]
  unlocks m := by
    rw [List.countP_append, hc.unlocks m, hm, hunlocked]
    simp [hu m]
  flag := hflag
  undefined := hundef

theorem Event.locks_other (he : ∀ op rc, e ≠ .thread id op rc) (m : μ) : e.locks id m = false := by
  unfold Event.locks
  split
  · rename_i i n rc
    exact decide_eq_false fun hl => he (.mutexLock n) rc (by rw [hl.1])
  · rfl

theorem Event.unlocks_other (he : ∀ op rc, e ≠ .thread id op rc) (m : μ) :
    e.unlocks id m = false := by
  unfold Event.unlocks
  split
  · rename_i i n rc
    exact decide_eq_false fun hl => he (.mutexUnlock n) rc (by rw [hl.1])
  · rfl

/-- Others do not matter. -/
theorem Course.other (hc : Course es id d pc) (he : ∀ op rc, e ≠ .thread id op rc) :
    Course (es ++ [e]) id d pc :=
  hc.quiet (Event.locks_other he) (Event.unlocks_other he) rfl rfl rfl hc.flag hc.undefined

/-- **What `threadfunc` does next** goes on from what it has done. -/
theorem Course.step (hc : Course es id d pc) (hop : pc.op d = some op) (rc : ℤ) :
    Course (es ++ [.thread id op rc]) id (op.store d) (pc.resume d rc) := by
  have hflag := hc.flag
  cases pc with
  | sleepToObtain =>
    cases hn : usec d.waitToObtainMs with
    | none =>
      obtain rfl : ThreadOp.overflow = op := by simpa [ThreadPc.op, hn] using hop
      rw [ThreadPc.resume, hn]
      exact hc.quiet (fun _ => rfl) (fun _ => rfl) rfl rfl rfl hflag fun _ => Or.inl hn
    | some n =>
      obtain rfl : ThreadOp.usleep n = op := by simpa [ThreadPc.op, hn] using hop
      rw [ThreadPc.resume, hn]
      exact hc.quiet (fun _ => rfl) (fun _ => rfl) rfl rfl rfl hflag (by intro _ h; cases h)
  | lock =>
    obtain rfl : ThreadOp.mutexLock d.mutex = op := Option.some.inj hop
    by_cases hrc : rc = 0
    · subst hrc
      refine ⟨fun m => ?_, fun m => ?_, hflag, by intro _ h; cases h⟩
      · rw [List.countP_append, hc.locks m]
        simp [ThreadPc.resume, ThreadPc.locked, Event.locks, eq_comm]
      · rw [List.countP_append, hc.unlocks m]
        simp [ThreadPc.resume, ThreadPc.unlocked, Event.unlocks]
    · rw [ThreadPc.resume, if_pos hrc]
      exact hc.quiet (fun m => by simp [Event.locks, hrc]) (fun _ => rfl) rfl rfl rfl hflag
        (by intro _ h; cases h)
  | sleepToRelease =>
    cases hn : usec d.waitToReleaseMs with
    | none =>
      obtain rfl : ThreadOp.overflow = op := by simpa [ThreadPc.op, hn] using hop
      rw [ThreadPc.resume, hn]
      exact hc.quiet (fun _ => rfl) (fun _ => rfl) rfl rfl rfl hflag fun _ => Or.inr hn
    | some n =>
      obtain rfl : ThreadOp.usleep n = op := by simpa [ThreadPc.op, hn] using hop
      rw [ThreadPc.resume, hn]
      exact hc.quiet (fun _ => rfl) (fun _ => rfl) rfl rfl rfl hflag (by intro _ h; cases h)
  | unlock =>
    obtain rfl : ThreadOp.mutexUnlock d.mutex = op := Option.some.inj hop
    by_cases hrc : rc = 0
    · subst hrc
      refine ⟨fun m => ?_, fun m => ?_, hflag, by intro _ h; cases h⟩
      · rw [List.countP_append, hc.locks m]
        simp [ThreadPc.resume, ThreadPc.locked, Event.locks]
      · rw [List.countP_append, hc.unlocks m]
        simp [ThreadPc.resume, ThreadPc.unlocked, Ending.success, Event.unlocks, eq_comm]
    · rw [ThreadPc.resume, if_pos hrc]
      exact hc.quiet (fun _ => rfl) (fun m => by simp [Event.unlocks, hrc]) rfl rfl rfl hflag
        (by intro _ h; cases h)
  | complete r =>
    obtain rfl : ThreadOp.complete r.success = op := Option.some.inj hop
    exact hc.quiet (fun _ => rfl) (fun _ => rfl) rfl rfl rfl rfl (by intro _ h; cases h)
  | returned r => cases hop
  | undefined locked => cases hop

/-! ## 2. What holds in every state -/

/-- Where a thread is in `threadfunc` while its record is somewhere in its life. -/
def Life.course : Life → ThreadPc → Prop
  | joined, pc => ∃ r, pc = .returned r
  | _, pc => pc = .sleepToObtain

/-- What holds in every state of a run: the books are kept, every record in use belongs to a thread
that has done what its place says, and a mutex obtained and not released is its thread's. -/
structure Holds (es : List (Event μ)) (x : System μ) : Prop where
  books : Books x
  made : ∀ {d}, x.caller = .malloc d → d.threadCompleteSuccess = false
  fresh : ∀ id, x.fresh ≤ id → ∀ m,
    es.countP (Event.locks id m) = 0 ∧ es.countP (Event.unlocks id m) = 0
  running : ∀ {id pc}, x.thread id = some pc → ∃ d, x.memory id = some d ∧ Course es id d pc
  caller : ∀ {id s}, x.caller.record = some (id, s) →
    ∃ d pc, x.memory id = some d ∧ Course es id d pc ∧ s.course pc
  owner : ∀ {id pc d}, x.thread id = some pc → x.memory id = some d →
    pc.locked = true → pc.unlocked = false → x.holder d.mutex = some id

theorem holds_init : Holds ([] : List (Event μ)) System.init where
  books := books_init
  made h := absurd h (by simp [System.init])
  fresh _ _ _ := ⟨rfl, rfl⟩
  running h := absurd h (by simp [System.init])
  caller h := absurd h (by simp [System.init, CallerPc.record])
  owner h := absurd h (by simp [System.init])

/-- A step of the caller: threads go on as they were or are new. -/
theorem Holds.callerStep (hh : Holds es x) (hs : x.Step e y) (he : ∀ i op rc, e ≠ .thread i op rc)
    (hmade : ∀ {d}, y.caller = .malloc d → d.threadCompleteSuccess = false)
    (hfresh : x.fresh ≤ y.fresh) (hholder : y.holder = x.holder)
    (hthread : ∀ {i pc}, y.thread i = some pc → x.thread i = some pc ∧ y.memory i = x.memory i ∨
      pc = .sleepToObtain ∧ ∃ d, y.memory i = some d ∧ Course es i d pc)
    (hcaller : ∀ {i s}, y.caller.record = some (i, s) →
      ∃ d pc, y.memory i = some d ∧ Course es i d pc ∧ s.course pc) :
    Holds (es ++ [e]) y where
  books := hh.books.step hs
  made := hmade
  fresh i hi m := by
    obtain ⟨hl, hu⟩ := hh.fresh i (le_trans hfresh hi) m
    rw [List.countP_append, List.countP_append, hl, hu]
    simp [Event.locks_other (he i), Event.unlocks_other (he i)]
  running {i pc} ht := by
    rcases hthread ht with ⟨hx, hm⟩ | ⟨-, d, hd, hc⟩
    · obtain ⟨d, hd, hc⟩ := hh.running hx
      exact ⟨d, hm.trans hd, hc.other (he i)⟩
    · exact ⟨d, hd, hc.other (he i)⟩
  caller hc := by
    obtain ⟨d, pc, hd, hcourse, hplace⟩ := hcaller hc
    exact ⟨d, pc, hd, hcourse.other (he _), hplace⟩
  owner {i pc d} ht hd hlocked hunlocked := by
    rcases hthread ht with ⟨hx, hm⟩ | ⟨rfl, -⟩
    · rw [hholder]
      exact hh.owner hx (hm.symm.trans hd) hlocked hunlocked
    · cases hlocked

/-- A thread releases only what it has. -/
theorem Holds.release (hh : Holds es x) (ht : x.thread id = some pc) (hm : x.memory id = some d)
    (hop : pc.op d = some op) {m : μ} (hrel : op.action rc = .release m) :
    x.holder m = some id := by
  cases pc with
  | unlock =>
    obtain rfl : ThreadOp.mutexUnlock d.mutex = op := Option.some.inj hop
    rw [ThreadOp.action] at hrel
    split at hrel
    · cases hrel
    · obtain rfl := Action.release.inj hrel
      exact hh.owner ht hm rfl rfl
  | lock =>
    obtain rfl : ThreadOp.mutexLock d.mutex = op := Option.some.inj hop
    rw [ThreadOp.action] at hrel
    split at hrel <;> cases hrel
  | sleepToObtain =>
    rw [ThreadPc.op] at hop
    split at hop <;> (obtain rfl := Option.some.inj hop; cases hrel)
  | sleepToRelease =>
    rw [ThreadPc.op] at hop
    split at hop <;> (obtain rfl := Option.some.inj hop; cases hrel)
  | complete r =>
    obtain rfl : ThreadOp.complete r.success = op := Option.some.inj hop
    cases hrel
  | returned r => cases hop
  | undefined locked => cases hop

/-- A thread that goes on with its mutex has it. -/
theorem Holds.obtain (hh : Holds es x) (ht : x.thread id = some pc) (hm : x.memory id = some d)
    (hop : pc.op d = some op) {holder : μ → Option ℕ}
    (hact : Acts id x.holder (op.action rc) holder)
    (hlocked : (pc.resume d rc).locked = true) (hunlocked : (pc.resume d rc).unlocked = false) :
    holder d.mutex = some id := by
  have hpass : op.action rc = .pass → pc.locked = true → pc.unlocked = false →
      holder d.mutex = some id := by
    intro ha hl hu
    rw [ha] at hact
    cases hact
    exact hh.owner ht hm hl hu
  cases pc with
  | sleepToObtain =>
    rw [ThreadPc.resume] at hlocked
    split at hlocked <;> cases hlocked
  | lock =>
    obtain rfl : ThreadOp.mutexLock d.mutex = op := Option.some.inj hop
    by_cases hrc : rc = 0
    · rw [ThreadOp.action, if_neg (not_not.mpr hrc)] at hact
      cases hact
      exact Function.update_self _ _ _
    · rw [ThreadPc.resume, if_pos hrc] at hlocked
      cases hlocked
  | sleepToRelease =>
    rw [ThreadPc.op] at hop
    split at hop <;> (obtain rfl := Option.some.inj hop; exact hpass rfl rfl rfl)
  | unlock =>
    obtain rfl : ThreadOp.mutexUnlock d.mutex = op := Option.some.inj hop
    by_cases hrc : rc = 0
    · rw [ThreadPc.resume, if_neg (not_not.mpr hrc)] at hunlocked
      cases hunlocked
    · exact hpass (by rw [ThreadOp.action, if_pos hrc]) rfl rfl
  | complete r =>
    obtain rfl : ThreadOp.complete r.success = op := Option.some.inj hop
    exact hpass rfl hlocked hunlocked
  | returned r => cases hop
  | undefined locked => cases hop

/-- **Every step keeps what holds.** -/
theorem Holds.step (hh : Holds es x) (hs : x.Step e y) : Holds (es ++ [e]) y := by
  cases hs with
  | start hidle =>
    refine hh.callerStep (.start hidle) (by simp) ?_ le_rfl rfl (fun h => Or.inl ⟨h, rfl⟩)
      (fun h => by cases h)
    intro d hd
    obtain rfl := CallerPc.malloc.inj hd
    rfl
  | ret hret =>
    exact hh.callerStep (.ret hret) (by simp) (by simp) le_rfl rfl (fun h => Or.inl ⟨h, rfl⟩)
      (fun h => by cases h)
  | mallocNull hmalloc =>
    exact hh.callerStep (.mallocNull hmalloc) (by simp) (by simp) le_rfl rfl
      (fun h => Or.inl ⟨h, rfl⟩) (fun h => by cases h)
  | @malloc d hmalloc =>
    refine hh.callerStep (.malloc hmalloc) (by simp) (by simp) (Nat.le_succ _) rfl
      (fun {i pc} h => Or.inl ⟨h, ?_⟩) (fun {i s} h => ?_)
    · exact Function.update_of_ne (Nat.ne_of_lt (hh.books.thread h).1) _ _
    · obtain ⟨rfl, rfl⟩ := Prod.mk.inj (Option.some.inj h)
      refine ⟨d, .sleepToObtain, Function.update_self _ _ _, ?_, rfl⟩
      have hnone := hh.fresh x.fresh le_rfl
      exact ⟨fun m => by simp [(hnone m).1, ThreadPc.locked],
        fun m => by simp [(hnone m).2, ThreadPc.unlocked], hh.made hmalloc, by simp⟩
  | @created id hcreate =>
    obtain ⟨d, pc, hd, hc, rfl⟩ := hh.caller (by rw [hcreate]; rfl)
    refine hh.callerStep (.created hcreate) (by simp) (by simp) le_rfl rfl (fun {i pc} h => ?_)
      (fun h => by cases h)
    dsimp only at h
    by_cases hi : i = id
    · rw [hi, Function.update_self] at h
      obtain rfl := Option.some.inj h
      exact Or.inr ⟨rfl, d, hi ▸ hd, hi ▸ hc⟩
    · rw [Function.update_of_ne hi] at h
      exact Or.inl ⟨h, rfl⟩
  | @notCreated id rc hcreate hrc =>
    have hmine := hh.caller (s := .made) (by rw [hcreate]; rfl)
    refine hh.callerStep (.notCreated hcreate hrc) (by simp) (by simp) le_rfl rfl
      (fun h => Or.inl ⟨h, rfl⟩) (fun {i s} h => ?_)
    obtain ⟨rfl, rfl⟩ := Prod.mk.inj (Option.some.inj h)
    exact hmine
  | @freeUnused id hfree =>
    obtain ⟨-, -, hnot⟩ := hh.books.caller (s := .unused) (by rw [hfree]; rfl)
    refine hh.callerStep (.freeUnused hfree) (by simp) (by simp) le_rfl rfl
      (fun {i pc} h => Or.inl ⟨h, ?_⟩) (fun h => by cases h)
    exact Function.update_of_ne (fun hi => absurd (hi ▸ h) (by simp [hnot])) _ _
  | @freeJoined id hfree =>
    obtain ⟨-, -, hnot⟩ := hh.books.caller (s := .joined) (by rw [hfree]; rfl)
    refine hh.callerStep (.freeJoined hfree) (by simp) (by simp) le_rfl rfl
      (fun {i pc} h => Or.inl ⟨h, ?_⟩) (fun h => by cases h)
    exact Function.update_of_ne (fun hi => absurd (hi ▸ h) (by simp [hnot])) _ _
  | @join id r hidle ht =>
    obtain ⟨d, hd, hc⟩ := hh.running ht
    refine hh.callerStep (.join hidle ht) (by simp) (by simp) le_rfl rfl (fun {i pc} h => ?_)
      (fun {i s} h => ?_)
    · dsimp only at h
      rw [Function.update_apply] at h
      split at h
      · cases h
      · exact Or.inl ⟨h, rfl⟩
    · obtain ⟨rfl, rfl⟩ := Prod.mk.inj (Option.some.inj h)
      exact ⟨d, .returned r, hd, hc, r, rfl⟩
  | @thread id pc d op rc holder ht hm hop hact =>
    have hothers : ∀ {i}, i ≠ id → ∀ op' rc', Event.thread id op rc ≠ .thread i op' rc' :=
      fun hi op' rc' h => hi (Event.thread.inj h).1.symm
    refine ⟨hh.books.step (.thread ht hm hop hact), hh.made, fun i hi m => ?_, fun {i pc'} hi => ?_,
      fun {i s} hi => ?_, fun {i pc' d'} hi hd hlocked hunlocked => ?_⟩
    · have hne : i ≠ id := fun heq => not_lt_of_ge hi (heq ▸ (hh.books.thread ht).1)
      obtain ⟨hl, hu⟩ := hh.fresh i hi m
      rw [List.countP_append, List.countP_append, hl, hu]
      simp [Event.locks_other (hothers hne), Event.unlocks_other (hothers hne)]
    · dsimp only at hi ⊢
      by_cases hne : i = id
      · obtain rfl := hne
        obtain ⟨d', hd', hc⟩ := hh.running ht
        obtain rfl := Option.some.inj (hm.symm.trans hd')
        rw [Function.update_self] at hi
        obtain rfl := Option.some.inj hi
        exact ⟨_, Function.update_self _ _ _, hc.step hop rc⟩
      · rw [Function.update_of_ne hne] at hi ⊢
        obtain ⟨d', hd', hc⟩ := hh.running hi
        exact ⟨d', hd', hc.other (hothers hne)⟩
    · obtain ⟨d', pc', hd', hc, hplace⟩ := hh.caller hi
      have hne : i ≠ id := fun heq => absurd (heq ▸ (hh.books.caller hi).2.2) (by simp [ht])
      exact ⟨d', pc', (Function.update_of_ne hne _ _).trans hd', hc.other (hothers hne), hplace⟩
    · dsimp only at hi hd ⊢
      by_cases hne : i = id
      · obtain rfl := hne
        rw [Function.update_self] at hi hd
        obtain rfl := Option.some.inj hi
        obtain rfl := Option.some.inj hd
        rw [ThreadOp.store_mutex]
        exact hh.obtain ht hm hop hact hlocked hunlocked
      · rw [Function.update_of_ne hne] at hi hd
        have howner := hact.owner (fun m => hh.release ht hm hop) d'.mutex
        rw [hh.owner hi hd hlocked hunlocked] at howner
        exact Action.owner_other hne howner

/-! ## 3. Whole runs -/

/-- What an event makes of the thread that has the mutex `m`. -/
def Event.owner (m : μ) (s : Option ℕ) : Event μ → Option (Option ℕ)
  | .thread id op rc => (op.action rc).owner id m s
  | _ => some s

/-- **Every step is allowed to every mutex.** -/
theorem Holds.act (hh : Holds es x) (hs : x.Step e y) (m : μ) :
    e.owner m (x.holder m) = some (y.holder m) := by
  cases hs with
  | thread ht hm hop hact => exact hact.owner (fun _ => hh.release ht hm hop) m
  | _ => rfl

/-- What a thread obtains and what it releases differ by what it has. -/
theorem Event.balance {m : μ} {s t : Option ℕ} (h : e.owner m s = some t) :
    (decide (s = some id)).toNat + (e.locks id m).toNat =
      (decide (t = some id)).toNat + (e.unlocks id m).toNat := by
  have hsame : some s = some t → e.locks id m = false → e.unlocks id m = false →
      (decide (s = some id)).toNat + (e.locks id m).toNat =
        (decide (t = some id)).toNat + (e.unlocks id m).toNat := by
    intro hst hl hu
    rw [Option.some.inj hst, hl, hu]
  cases e with
  | thread i op rc =>
    cases op with
    | mutexLock n =>
      by_cases hn : rc = 0 ∧ n = m
      · obtain ⟨rfl, rfl⟩ := hn
        rw [Event.owner, ThreadOp.action, if_neg (by simp), Action.owner, if_pos rfl] at h
        split at h
        · rename_i hfree
          obtain rfl := Option.some.inj h
          simp [hfree, Event.locks, Event.unlocks]
        · cases h
      · refine hsame ?_ (decide_eq_false fun hl => hn ⟨hl.2.2, hl.2.1⟩) rfl
        rw [← h, Event.owner, ThreadOp.action]
        split
        · rfl
        · rename_i hrc
          rw [Action.owner, if_neg fun hnm => hn ⟨not_not.mp hrc, hnm⟩]
    | mutexUnlock n =>
      by_cases hn : rc = 0 ∧ n = m
      · obtain ⟨rfl, rfl⟩ := hn
        rw [Event.owner, ThreadOp.action, if_neg (by simp), Action.owner, if_pos rfl] at h
        split at h
        · rename_i hmine
          obtain rfl := Option.some.inj h
          simp [hmine, Event.locks, Event.unlocks]
        · cases h
      · refine hsame ?_ rfl (decide_eq_false fun hl => hn ⟨hl.2.2, hl.2.1⟩)
        rw [← h, Event.owner, ThreadOp.action]
        split
        · rfl
        · rename_i hrc
          rw [Action.owner, if_neg fun hnm => hn ⟨not_not.mp hrc, hnm⟩]
    | usleep n => exact hsame h rfl rfl
    | complete success => exact hsame h rfl rfl
    | overflow => exact hsame h rfl rfl
  | _ => exact hsame h rfl rfl

/-- Something a thread did is in the trace once it is counted. -/
theorem Event.locks_pos {m : μ} : 0 < es.countP (Event.locks id m) ↔
    .thread id (.mutexLock m) 0 ∈ es := by
  rw [List.countP_pos_iff]
  constructor
  · rintro ⟨e, he, hl⟩
    unfold Event.locks at hl
    split at hl
    · obtain ⟨rfl, rfl, rfl⟩ := of_decide_eq_true hl
      exact he
    · cases hl
  · exact fun he => ⟨_, he, by simp [Event.locks]⟩

theorem Event.unlocks_pos {m : μ} : 0 < es.countP (Event.unlocks id m) ↔
    .thread id (.mutexUnlock m) 0 ∈ es := by
  rw [List.countP_pos_iff]
  constructor
  · rintro ⟨e, he, hu⟩
    unfold Event.unlocks at hu
    split at hu
    · obtain ⟨rfl, rfl, rfl⟩ := of_decide_eq_true hu
      exact he
    · cases hu
  · exact fun he => ⟨_, he, by simp [Event.unlocks]⟩

variable {h : List (System μ × Event μ)}

theorem holds_run (hr : Run System.Step System.init h x) : Holds (h.map Prod.snd) x := by
  refine hr.rule (Q := fun h x => Holds (h.map Prod.snd) x) holds_init fun _ hh hs => ?_
  rw [List.map_append]
  exact hh.step hs

/-- **Threads that obtain a mutex**, however many there are and in whatever order they take steps:

* a mutex is obtained when it is free, and released by the thread that has it;
* a record is allocated once, used only by its own thread while that runs, and freed once;
* the record of a joined thread says success if and only if the thread has obtained its mutex and
  released it, and then the thread has no mutex any more;
* only a wait that is no `int` and a `malloc` without memory are undefined. -/
theorem threads_obtaining_mutex (hr : Run System.Step System.init h x) :
    (∀ m : μ, Keeps (Event.owner m) none (h.map Prod.snd) (x.holder m)) ∧
    (∀ id, Keeps (Life.act id) .unborn (h.map Prod.snd) (x.life id)) ∧
    (∀ id, x.caller = .joined id → ∃ d, x.memory id = some d ∧
      (d.threadCompleteSuccess = true ↔
        .thread id (.mutexLock d.mutex) 0 ∈ h.map Prod.snd ∧
        .thread id (.mutexUnlock d.mutex) 0 ∈ h.map Prod.snd) ∧
      (d.threadCompleteSuccess = true → ∀ m, x.holder m ≠ some id)) ∧
    (∀ id locked, x.thread id = some (.undefined locked) → ∃ d, x.memory id = some d ∧
      (usec d.waitToObtainMs = none ∨ usec d.waitToReleaseMs = none)) ∧
    (x.caller = .undefined → .malloc none ∈ h.map Prod.snd) := by
  have hkeeps : ∀ m : μ, Keeps (Event.owner m) none (h.map Prod.snd) (x.holder m) := fun m =>
    keeps_run (fun x : System μ => x.holder m) (fun hr hs => (holds_run hr).act hs m) hr
  have hh := holds_run hr
  refine ⟨hkeeps, fun id => ?_, fun id hjoined => ?_, fun id locked ht => ?_, ?_⟩
  · have hlife : (System.init : System μ).life id = .unborn := rfl
    rw [← hlife]
    exact keeps_run (fun x : System μ => x.life id) (fun hr hs => (holds_run hr).books.act hs id) hr
  · obtain ⟨d, pc, hd, hc, r, rfl⟩ := hh.caller (s := .joined) (by rw [hjoined]; rfl)
    have hflag : d.threadCompleteSuccess = r.success := hc.flag
    refine ⟨d, hd, ?_, fun hsuccess m hm => ?_⟩
    · rw [← Event.locks_pos, ← Event.unlocks_pos, hc.locks, hc.unlocks, hflag]
      cases r <;> simp [ThreadPc.locked, ThreadPc.unlocked, Ending.success]
    · have hbalance := (hkeeps m).balance (fun s => (decide (s = some id)).toNat)
        (Event.locks id m) (Event.unlocks id m) Event.balance
      have hsame : ThreadPc.locked (.returned r) = ThreadPc.unlocked (.returned r) := by
        rw [hflag] at hsuccess
        cases r with
        | released => rfl
        | notLocked => cases hsuccess
        | notUnlocked => cases hsuccess
      rw [hc.locks, hc.unlocks, hsame, hm] at hbalance
      simp at hbalance
  · obtain ⟨d, hd, hc⟩ := hh.running ht
    exact ⟨d, hd, hc.undefined rfl⟩
  · refine hr.rule (Q := fun h x => x.caller = .undefined → .malloc none ∈ h.map Prod.snd)
      (fun h => by cases h) fun {h x e y} _ hi hs hy => ?_
    rw [List.map_append]
    cases hs with
    | mallocNull _ => exact List.mem_append_right _ (List.mem_singleton_self _)
    | thread ht hm hop hact => exact List.mem_append_left _ (hi hy)
    | _ => cases hy

/-- Two threads for one mutex.  The first is sent to sleep with it; the second obtains it after the
first has let go, and both are joined. -/
def twoThreads : List (Choice ℕ) :=
  [.start 0 0 5, .caller 0, .caller 0, .caller 0, .start 0 0 0, .caller 0, .caller 0, .caller 0,
    .thread 0 0, .thread 1 0, .thread 0 0, .thread 0 0, .thread 0 0, .thread 1 0, .thread 0 0,
    .thread 1 0, .thread 1 0, .thread 1 0, .join 0, .caller 0, .join 1]

theorem threads_obtaining_mutex_two : ∃ (h : List (System ℕ × Event ℕ)) (x : System ℕ),
    Run System.Step System.init h x ∧ x.caller = .joined 1 ∧
      .thread 1 (.mutexUnlock 0) 0 ∈ h.map Prod.snd ∧ ∀ m, x.holder m ≠ some 1 := by
  have hrun := Run.of_played System.step_of_next System.init twoThreads (by decide)
  have hend : (played System.next System.init twoThreads).2.caller = .joined 1 := by decide
  have hmemory : (played System.next System.init twoThreads).2.memory 1 =
      some ⟨0, 0, 0, true⟩ := by decide
  obtain ⟨-, -, hjoined, -, -⟩ := threads_obtaining_mutex hrun
  obtain ⟨d, hd, hflag, hfree⟩ := hjoined 1 hend
  obtain rfl := Option.some.inj (hmemory.symm.trans hd)
  exact ⟨_, _, hrun, hend, (hflag.mp rfl).2, hfree rfl⟩

end Aesd.Threading
