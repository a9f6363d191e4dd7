/-
# The records of the threads

A `struct thread_data` is allocated by `start_thread_obtaining_mutex`, given to the thread it is
for, given back by it, and freed by who joined the thread; where no thread was made it is freed at
once.  This is a discipline on what happens to it, and every step keeps to it (`Books.act`), since
the records in use are those of the threads and the one the caller has in hand.
-/
import Aesd.Threading.Threads

namespace Aesd.Threading

variable {μ : Type} [DecidableEq μ]

/-! ## 1. Lives -/

/-- The record an event is about. -/
def Event.record : Event μ → Option ℕ
  | .malloc id => id
  | .create id _ | .free id | .join id | .thread id _ _ => some id
  | .start _ _ _ | .ret _ => none

/-- The life of a record: not allocated yet, the caller's, of no use because there is no thread for
it, its thread's, the joiner's, freed. -/
inductive Life
  | unborn
  | made
  | unused
  | running
  | joined
  | freed
  deriving DecidableEq

namespace Life

/-- What a record's life goes on to when something happens to it. -/
def next : Life → Event μ → Option Life
  | unborn, .malloc _ => some made
  | made, .create _ rc => some (if rc = 0 then running else unused)
  | unused, .free _ => some freed
  | running, .thread _ _ _ => some running
  | running, .join _ => some joined
  | joined, .free _ => some freed
  | _, _ => none

/-- What may happen to the record `id`. -/
def act (id : ℕ) (s : Life) (e : Event μ) : Option Life :=
  if e.record = some id then s.next e else some s

end Life

/-- The record the caller has in hand. -/
def CallerPc.record : CallerPc μ → Option (ℕ × Life)
  | create id => some (id, .made)
  | freeUnused id => some (id, .unused)
  | joined id => some (id, .joined)
  | _ => none

/-- Where a record is in its life. -/
def System.life (x : System μ) (id : ℕ) : Life :=
  if (x.thread id).isSome then .running
  else
    match x.caller.record with
    | some (i, s) => if i = id then s else if id < x.fresh then .freed else .unborn
    | none => if id < x.fresh then .freed else .unborn

/-! ## 2. The books -/

/-- The bookkeeping of records: those of threads and the caller's are alive and apart, no other is,
and the next name is free. -/
structure Books (x : System μ) : Prop where
  thread : ∀ {id pc}, x.thread id = some pc → id < x.fresh ∧ (x.memory id).isSome
  caller : ∀ {id s}, x.caller.record = some (id, s) →
    id < x.fresh ∧ (x.memory id).isSome ∧ x.thread id = none
  memory : ∀ {id}, (x.memory id).isSome → (x.thread id).isSome ∨ ∃ s, x.caller.record = some (id, s)

omit [DecidableEq μ] in
theorem books_init : Books (System.init : System μ) where
  thread h := absurd h (by simp [System.init])
  caller h := absurd h (by simp [System.init, CallerPc.record])
  memory h := absurd h (by simp [System.init])

variable {x y : System μ} {e : Event μ}

omit [DecidableEq μ] in
/-- A step of the caller that touches no record and has none in hand, before or after. -/
theorem Books.idle (hb : Books x) {c : CallerPc μ} (hx : x.caller.record = none)
    (hc : c.record = none) : Books { x with caller := c } where
  thread := hb.thread
  caller h := absurd h (by simp [hc])
  memory h := (hb.memory h).imp_right fun ⟨s, hs⟩ => absurd hs (by simp [hx])

omit [DecidableEq μ] in
/-- The caller frees the record it has in hand. -/
theorem Books.free (hb : Books x) {id : ℕ} {s : Life} (hmine : x.caller.record = some (id, s))
    {c : CallerPc μ} (hc : c.record = none) :
    Books { x with caller := c, memory := Function.update x.memory id none } := by
  obtain ⟨-, -, hnot⟩ := hb.caller hmine
  refine ⟨fun {i pc} ht => ?_, fun h => absurd h (by simp [hc]), fun {i} hm => ?_⟩
  · have hi : i ≠ id := fun heq => absurd (heq ▸ ht) (by simp [hnot])
    dsimp only
    rw [Function.update_of_ne hi]
    exact hb.thread ht
  · dsimp only at hm
    by_cases hi : i = id
    · rw [hi, Function.update_self] at hm
      cases hm
    · rw [Function.update_of_ne hi] at hm
      refine (hb.memory hm).imp_right fun ⟨s', hs'⟩ => ?_
      exact absurd (Prod.mk.inj (Option.some.inj (hs'.symm.trans hmine))).1 hi

/-- **Every step keeps the books.** -/
theorem Books.step (hb : Books x) (hs : x.Step e y) : Books y := by
  cases hs with
  | start hidle => exact hb.idle (by rw [hidle]; rfl) rfl
  | ret hret => exact hb.idle (by rw [hret]; rfl) rfl
  | mallocNull hmalloc => exact hb.idle (by rw [hmalloc]; rfl) rfl
  | @malloc d hmalloc =>
    have hnone : x.caller.record = none := by rw [hmalloc]; rfl
    have hfresh : x.thread x.fresh = none := by
      cases ht : x.thread x.fresh with
      | none => rfl
      | some pc => exact absurd (hb.thread ht).1 (lt_irrefl _)
    refine ⟨fun {id pc} ht => ?_, fun {id s} hc => ?_, fun {id} hm => ?_⟩
    · obtain ⟨hlt, hsome⟩ := hb.thread ht
      refine ⟨Nat.lt_succ_of_lt hlt, ?_⟩
      dsimp only
      rwa [Function.update_of_ne (Nat.ne_of_lt hlt)]
    · obtain ⟨rfl, -⟩ := Prod.mk.inj (Option.some.inj hc)
      exact ⟨Nat.lt_succ_self _, by simp, hfresh⟩
    · dsimp only at hm
      by_cases hid : id = x.fresh
      · exact Or.inr ⟨.made, by rw [hid]; rfl⟩
      · rw [Function.update_of_ne hid] at hm
        exact (hb.memory hm).imp_right fun ⟨s, hs⟩ => absurd hs (by simp [hnone])
  | @created id hcreate =>
    have hmine : x.caller.record = some (id, .made) := by rw [hcreate]; rfl
    obtain ⟨hlt, hsome, hnot⟩ := hb.caller hmine
    refine ⟨fun {i pc} ht => ?_, fun h => absurd h (by simp [CallerPc.record]), fun {i} hm => ?_⟩
    · dsimp only at ht
      rw [Function.update_apply] at ht
      split at ht
      · rename_i hi
        rw [hi]
        exact ⟨hlt, hsome⟩
      · exact hb.thread ht
    · dsimp only
      by_cases hi : i = id
      · exact Or.inl (by simp [hi])
      · rw [Function.update_of_ne hi]
        refine (hb.memory hm).imp_right fun ⟨s, hs⟩ => ?_
        exact absurd (Prod.mk.inj (Option.some.inj (hs.symm.trans hmine))).1 hi
  | @notCreated id rc hcreate =>
    have hmine : x.caller.record = some (id, .made) := by rw [hcreate]; rfl
    refine ⟨hb.thread, fun {i s} hc => ?_, fun {i} hm => (hb.memory hm).imp_right fun ⟨s, hs⟩ => ?_⟩
    · obtain ⟨rfl, -⟩ := Prod.mk.inj (Option.some.inj hc)
      exact hb.caller hmine
    · obtain ⟨rfl, -⟩ := Prod.mk.inj (Option.some.inj (hs.symm.trans hmine))
      exact ⟨.unused, rfl⟩
  | @freeUnused id hfree =>
    have hmine : x.caller.record = some (id, .unused) := by rw [hfree]; rfl
    exact hb.free hmine rfl
  | @freeJoined id hfree =>
    have hmine : x.caller.record = some (id, .joined) := by rw [hfree]; rfl
    exact hb.free hmine rfl
  | @join id r hidle ht =>
    have hnone : x.caller.record = none := by rw [hidle]; rfl
    obtain ⟨hlt, hsome⟩ := hb.thread ht
    refine ⟨fun {i pc} hi => ?_, fun {i s} hc => ?_, fun {i} hm => ?_⟩
    · dsimp only at hi
      rw [Function.update_apply] at hi
      split at hi
      · cases hi
      · exact hb.thread hi
    · obtain ⟨rfl, -⟩ := Prod.mk.inj (Option.some.inj hc)
      exact ⟨hlt, hsome, by simp⟩
    · dsimp only
      by_cases hi : i = id
      · exact Or.inr ⟨.joined, by rw [hi]; rfl⟩
      · rw [Function.update_of_ne hi]
        exact (hb.memory hm).imp_right fun ⟨s, hs⟩ => absurd hs (by simp [hnone])
  | @thread id pc d op rc holder ht hm hop hact =>
    refine ⟨fun {i pc'} hi => ?_, fun {i s} hc => ?_, fun {i} hi => ?_⟩
    · dsimp only at hi ⊢
      by_cases hid : i = id
      · rw [hid]
        exact ⟨(hb.thread ht).1, by simp⟩
      · rw [Function.update_of_ne hid] at hi ⊢
        exact hb.thread hi
    · obtain ⟨hlt, hsome, hnot⟩ := hb.caller hc
      have hid : i ≠ id := fun heq => absurd (heq ▸ hnot) (by simp [ht])
      dsimp only
      rw [Function.update_of_ne hid, Function.update_of_ne hid]
      exact ⟨hlt, hsome, hnot⟩
    · dsimp only at hi ⊢
      by_cases hid : i = id
      · exact Or.inl (by simp [hid])
      · rw [Function.update_of_ne hid] at hi ⊢
        exact hb.memory hi

/-! ## 3. Every step in every life -/

omit [DecidableEq μ] in
theorem System.life_of_thread {id : ℕ} {pc : ThreadPc} (h : x.thread id = some pc) :
    x.life id = .running := by
  simp [System.life, h]

omit [DecidableEq μ] in
theorem System.life_of_caller {id : ℕ} {s : Life} (ht : x.thread id = none)
    (h : x.caller.record = some (id, s)) : x.life id = s := by
  simp [System.life, ht, h]

omit [DecidableEq μ] in
/-- A record that neither a thread nor the caller has is freed, or not allocated yet. -/
theorem System.life_of_none {id : ℕ} (ht : x.thread id = none)
    (h : ∀ s, x.caller.record ≠ some (id, s)) :
    x.life id = if id < x.fresh then .freed else .unborn := by
  unfold System.life
  rw [if_neg (by simp [ht])]
  split
  · rename_i i s hrec
    rw [if_neg fun heq => h s (by rw [hrec, heq])]
  · rfl

omit [DecidableEq μ] in
/-- A record nothing happens to. -/
theorem System.life_other {id : ℕ} (ht : y.thread id = x.thread id)
    (hx : ∀ s, x.caller.record ≠ some (id, s)) (hy : ∀ s, y.caller.record ≠ some (id, s))
    (hfresh : id < y.fresh ↔ id < x.fresh) : y.life id = x.life id := by
  cases hthread : x.thread id with
  | none =>
    rw [life_of_none (ht.trans hthread) hy, life_of_none hthread hx, if_congr hfresh rfl rfl]
  | some pc => rw [life_of_thread hthread, life_of_thread (ht.trans hthread)]

omit [DecidableEq μ] in
theorem System.life_same {id : ℕ} (ht : y.thread id = x.thread id) (hc : y.caller = x.caller)
    (hfresh : y.fresh = x.fresh) : y.life id = x.life id := by
  unfold System.life
  rw [ht, hc, hfresh]

/-- **Every step is allowed in the life of every record.** -/
theorem Books.act (hb : Books x) (hs : x.Step e y) (id : ℕ) :
    Life.act id (x.life id) e = some (y.life id) := by
  have hother : e.record ≠ some id → y.life id = x.life id →
      Life.act id (x.life id) e = some (y.life id) := by
    intro hrec hsame
    rw [Life.act, if_neg hrec, hsame]
  have hmine : ∀ {s t}, e.record = some id → x.life id = s → y.life id = t → s.next e = some t →
      Life.act id (x.life id) e = some (y.life id) := by
    intro s t hrec hx hy hnext
    rw [Life.act, if_pos hrec, hx, hy, hnext]
  cases hs with
  | start hidle =>
    refine hother (by simp [Event.record]) (System.life_other rfl ?_ ?_ Iff.rfl)
    · simp [hidle, CallerPc.record]
    · simp [CallerPc.record]
  | ret hret =>
    refine hother (by simp [Event.record]) (System.life_other rfl ?_ ?_ Iff.rfl)
    · simp [hret, CallerPc.record]
    · simp [CallerPc.record]
  | mallocNull hmalloc =>
    refine hother (by simp [Event.record]) (System.life_other rfl ?_ ?_ Iff.rfl)
    · simp [hmalloc, CallerPc.record]
    · simp [CallerPc.record]
  | @malloc d hmalloc =>
    have hnone : ∀ i s, x.caller.record ≠ some (i, s) := by simp [hmalloc, CallerPc.record]
    by_cases hid : x.fresh = id
    · subst hid
      have hfresh : x.thread x.fresh = none := by
        cases ht : x.thread x.fresh with
        | none => rfl
        | some pc => exact absurd (hb.thread ht).1 (lt_irrefl _)
      have hwas := System.life_of_none hfresh (hnone x.fresh)
      rw [if_neg (lt_irrefl _)] at hwas
      exact hmine rfl hwas (System.life_of_caller hfresh rfl) rfl
    · refine hother (by simp [Event.record, hid]) (System.life_other rfl (hnone id) ?_ ?_)
      · simp [CallerPc.record, hid]
      · dsimp only
        omega
  | @created i hcreate =>
    have hrec : x.caller.record = some (i, .made) := by rw [hcreate]; rfl
    obtain ⟨-, -, hnot⟩ := hb.caller hrec
    by_cases hid : i = id
    · subst hid
      exact hmine rfl (System.life_of_caller hnot hrec)
        (System.life_of_thread (Function.update_self _ _ _)) rfl
    · refine hother (by simp [Event.record, hid]) (System.life_other ?_ ?_ ?_ Iff.rfl)
      · exact Function.update_of_ne (Ne.symm hid) _ _
      · simp [hrec, hid]
      · simp [CallerPc.record]
  | @notCreated i rc hcreate hrc =>
    have hrec : x.caller.record = some (i, .made) := by rw [hcreate]; rfl
    obtain ⟨-, -, hnot⟩ := hb.caller hrec
    by_cases hid : i = id
    · subst hid
      refine hmine rfl (System.life_of_caller hnot hrec) (System.life_of_caller hnot rfl) ?_
      rw [Life.next, if_neg hrc]
    · refine hother (by simp [Event.record, hid]) (System.life_other rfl ?_ ?_ Iff.rfl)
      · simp [hrec, hid]
      · simp [CallerPc.record, hid]
  | @freeUnused i hfree =>
    have hrec : x.caller.record = some (i, .unused) := by rw [hfree]; rfl
    obtain ⟨hlt, -, hnot⟩ := hb.caller hrec
    by_cases hid : i = id
    · subst hid
      refine hmine rfl (System.life_of_caller hnot hrec) ?_ rfl
      exact (System.life_of_none (by exact hnot) (by intro s h; cases h)).trans (if_pos hlt)
    · refine hother (by simp [Event.record, hid]) (System.life_other rfl ?_ ?_ Iff.rfl)
      · simp [hrec, hid]
      · simp [CallerPc.record]
  | @freeJoined i hfree =>
    have hrec : x.caller.record = some (i, .joined) := by rw [hfree]; rfl
    obtain ⟨hlt, -, hnot⟩ := hb.caller hrec
    by_cases hid : i = id
    · subst hid
      refine hmine rfl (System.life_of_caller hnot hrec) ?_ rfl
      exact (System.life_of_none (by exact hnot) (by intro s h; cases h)).trans (if_pos hlt)
    · refine hother (by simp [Event.record, hid]) (System.life_other rfl ?_ ?_ Iff.rfl)
      · simp [hrec, hid]
      · simp [CallerPc.record]
  | @join i r hidle ht =>
    by_cases hid : i = id
    · subst hid
      exact hmine rfl (System.life_of_thread ht)
        (System.life_of_caller (Function.update_self _ _ _) rfl) rfl
    · refine hother (by simp [Event.record, hid]) (System.life_other ?_ ?_ ?_ Iff.rfl)
      · exact Function.update_of_ne (Ne.symm hid) _ _
      · simp [hidle, CallerPc.record]
      · simp [CallerPc.record, hid]
  | @thread i pc d op rc holder ht hm hop hact =>
    by_cases hid : i = id
    · subst hid
      exact hmine rfl (System.life_of_thread ht)
        (System.life_of_thread (Function.update_self _ _ _)) rfl
    · refine hother (by simp [Event.record, hid]) ?_
      exact System.life_same (Function.update_of_ne (Ne.symm hid) _ _) rfl rfl

end Aesd.Threading
