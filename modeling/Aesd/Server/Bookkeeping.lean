/-
# The books of `main`

Each record of a client goes one way (`Life.next`): it is allocated; its thread is created, or it is
freed at once; it is on the list until its thread is joined, and then it is freed.  Where a record
is can be read off every state a run reaches (`Process.life`): from the list, from what `main` has
in hand (`Main.known`), and from the thread.

A thread is joined after its last call, whether it ended before `main` put its record on the list,
while the record was on it, or in the sweep.  So no call of a thread and no call of `main` is for a
record that was freed (`thread_bookkeeping`).
-/
import Aesd.Lib.Discipline
import Aesd.Server.Deadlock
import Aesd.Server.KnownRecords

namespace Aesd.Server

open Transition Discipline

/-! ## 1. The life of a record -/

/-- Where a record is.  A record is discarded if its thread was not created. -/
inductive Life
  | unborn
  | allocated
  | running
  | joined
  | freed
  | discarded
  deriving DecidableEq

namespace Life

/-- What may be done with a record. -/
def next : Life → Use → Option Life
  | unborn, .allocate => some allocated
  | allocated, .start => some running
  | allocated, .fail => some allocated
  | allocated, .free => some discarded
  | running, .access => some running
  | running, .join => some joined
  | joined, .free => some freed
  | _, _ => none

/-- The discipline on the uses of record `i`. -/
def act (i : ℕ) (s : Life) (a : Act) : Option Life :=
  match a.use i with
  | none => some s
  | some u => s.next u

theorem act_of_none {i : ℕ} {a : Act} (h : a.use i = none) (s : Life) : act i s a = some s := by
  rw [act, h]

theorem act_of_some {i : ℕ} {a : Act} {u : Use} (h : a.use i = some u) (s : Life) :
    act i s a = s.next u := by
  rw [act, h]

/-- How often a record was allocated, started, joined and freed. -/
def done : Life → Use → ℕ
  | unborn, _ => 0
  | _, .allocate => 1
  | running, .start | joined, .start | freed, .start => 1
  | joined, .join | freed, .join => 1
  | freed, .free | discarded, .free => 1
  | _, _ => 0

theorem done_next {s t : Life} {u v : Use} (h : s.next v = some t) (hu : u.once = true) :
    s.done u + (decide (v = u)).toNat = t.done u := by
  cases u with
  | fail | access => cases hu
  | _ => cases s <;> cases v <;> cases h <;> rfl

theorem next_free {s t : Life} (h : s.next .free = some t) :
    s.done .allocate = 1 ∧ s.done .join = s.done .start ∧ s.done .free = 0 ∧
      (t = .freed ∨ t = .discarded) := by
  cases s with
  | allocated => exact ⟨rfl, rfl, rfl, Or.inr (Option.some.inj h).symm⟩
  | joined => exact ⟨rfl, rfl, rfl, Or.inl (Option.some.inj h).symm⟩
  | _ => cases h

theorem done_le (s : Life) : s.done .join ≤ s.done .start ∧ s.done .start ≤ s.done .allocate ∧
    s.done .allocate ≤ 1 := by
  cases s <;> decide

theorem running_iff (s : Life) : s = .running ↔ s.done .start = 1 ∧ s.done .join = 0 := by
  cases s <;> decide

/-- Nothing is done with a record that was freed. -/
theorem next_over {s : Life} (hs : s = .freed ∨ s = .discarded) (u : Use) : s.next u = none := by
  rcases hs with rfl | rfl <;> rfl

end Life

/-- The uses of a kind of record `i`. -/
def uses (h : List (Process × Act)) (i : ℕ) (u : Use) : ℕ :=
  (h.map Prod.snd).countP fun a => a.use i = some u

section Lives

variable {i : ℕ} {s t : Life} {h h₁ h₂ : List (Process × Act)}

/-- **The uses of a record are counted by where it is.** -/
theorem uses_eq (hk : Keeps (Life.act i) .unborn (h.map Prod.snd) t) {u : Use}
    (hu : u.once = true) : uses h i u = t.done u := by
  have hb := hk.balance (fun s => s.done u) (fun a => decide (a.use i = some u)) (fun _ => false)
    fun {s a t} ha => by
      cases hv : a.use i with
      | none =>
        rw [Life.act_of_none hv] at ha
        obtain rfl := Option.some.inj ha
        rfl
      | some v =>
        rw [Life.act_of_some hv] at ha
        simpa only [Option.some_inj, Bool.toNat_false, add_zero] using Life.done_next ha hu
  simpa [uses, Life.done] using hb

/-- **Around the free of a record**: it was allocated, and its thread joined if it was created;
it was not freed before, and nothing is done with it any more. -/
theorem uses_free {p : Process} {a : Act}
    (hk : Keeps (Life.act i) .unborn ((h₁ ++ (p, a) :: h₂).map Prod.snd) t)
    (ha : a.use i = some .free) :
    uses h₁ i .allocate = 1 ∧ uses h₁ i .join = uses h₁ i .start ∧ uses h₁ i .free = 0 ∧
      ∀ e ∈ h₂, e.2.use i = none := by
  rw [List.map_append, List.map_cons] at hk
  obtain ⟨s, hbefore, hk⟩ := keeps_append.mp hk
  obtain ⟨s', hs, hafter⟩ := keeps_cons.mp hk
  rw [Life.act_of_some ha] at hs
  obtain ⟨hallocate, hjoin, hfree, hover⟩ := Life.next_free hs
  refine ⟨(uses_eq hbefore rfl).trans hallocate, ?_, (uses_eq hbefore rfl).trans hfree, ?_⟩
  · rw [uses_eq hbefore rfl, uses_eq hbefore rfl, hjoin]
  · intro e he
    refine hafter.forall (P := fun s => s = .freed ∨ s = .discarded)
      (Q := fun a => a.use i = none) ?_ hover e.2 (List.mem_map_of_mem he)
    intro s a t hs hact
    cases hv : a.use i with
    | none =>
      rw [Life.act_of_none hv] at hact
      obtain rfl := Option.some.inj hact
      exact ⟨rfl, hs⟩
    | some v =>
      rw [Life.act_of_some hv, Life.next_over hs v] at hact
      cases hact

end Lives

/-! ## 2. The invariant -/

/-- What the records `main` knows have to do with the threads. -/
structure KnownRecords.Ok (d : KnownRecords) (thread : ℕ → Option Pc) (fresh : ℕ) : Prop where
  /-- Each record is on the list once. -/
  nodup : d.clients.Nodup
  /-- A thread that is not on the list any more has ended. -/
  ended : ∀ i pc, thread i = some pc → i ∈ d.clients ∨ pc = .exited
  new : ∀ record, d.new = some record → record < fresh ∧ thread record = none
  freeing : ∀ record, d.freeing = some record → record ∉ d.clients ∧ thread record ≠ none

/-- Where nothing is known but the list. -/
theorem KnownRecords.Ok.of_list {clients : List ℕ} {thread : ℕ → Option Pc} {fresh : ℕ}
    (hnodup : clients.Nodup) (hended : ∀ i pc, thread i = some pc → i ∈ clients ∨ pc = .exited) :
    KnownRecords.Ok ⟨none, clients, none⟩ thread fresh := by
  refine ⟨hnodup, hended, ?_, ?_⟩
  · intro record hnew
    cases hnew
  · intro record hfreeing
    cases hfreeing

namespace Process

/-- **The books of `main`**, on top of the invariant of the process. -/
structure Books (p : Process) : Prop where
  inv : p.Inv
  hand : p.main.Hand
  known : p.main.known.Ok p.thread p.fresh

theorem books_start (junk : ℕ → ℤ) : (start junk).Books := by
  refine ⟨inv_start junk, trivial, KnownRecords.Ok.of_list List.nodup_nil ?_⟩
  intro i pc h
  cases h

theorem Books.signal {p : Process} (h : p.Books) : Books { p with active := false } :=
  ⟨h.inv.signal, h.hand, h.known⟩

/-- A record with a thread has a number. -/
theorem Books.lt_fresh {p : Process} (h : p.Books) {i : ℕ} (hi : p.thread i ≠ none) :
    i < p.fresh :=
  Nat.lt_of_not_le fun hle => hi (h.inv.fresh i hle)

/-- The records on the list have threads. -/
theorem Books.listed {p : Process} (h : p.Books) :
    ∀ i ∈ p.main.known.clients, p.thread i ≠ none :=
  fun i hi => h.inv.created i (List.mem_append_left _ hi)

section ClientCall

variable {p : Process} {i : ℕ} {pc : Pc} {op : Op} {ret : Ret} {holder : Mutex → Option Actor}

/-- A thread that makes a call is on the list. -/
theorem Books.mem_of_call (h : p.Books) (hpc : p.thread i = some pc) (hop : pc.op = some op) :
    i ∈ p.main.known.clients := by
  refine (h.known.ended i pc hpc).resolve_right ?_
  rintro rfl
  cases hop

/-- A call of a client thread keeps the books. -/
theorem Books.client (h : p.Books) (hpc : p.thread i = some pc) (hop : pc.op = some op)
    (hlocks : Locking.Acts (.client i) p.holder op.action holder) :
    (p.clientCall i pc op ret holder).Books := by
  have hmem := h.mem_of_call hpc hop
  refine ⟨h.inv.client hpc hop hlocks, h.hand, h.known.nodup, ?_, ?_, ?_⟩
  · intro j pc' hj
    by_cases hij : j = i
    · exact Or.inl (hij ▸ hmem)
    · rw [clientCall_thread_of_ne hij] at hj
      exact h.known.ended j pc' hj
  · intro record hnew
    obtain ⟨hlt, hnone⟩ := h.known.new record hnew
    have hne : record ≠ i := by
      rintro rfl
      rw [hpc] at hnone
      cases hnone
    refine ⟨hlt, ?_⟩
    rw [clientCall_thread_of_ne hne]
    exact hnone
  · intro record hfreeing
    obtain ⟨hnot, hthread⟩ := h.known.freeing record hfreeing
    have hne : record ≠ i := by
      rintro rfl
      exact hnot hmem
    refine ⟨hnot, ?_⟩
    rw [clientCall_thread_of_ne hne]
    exact hthread

end ClientCall

section MainCall

variable {p : Process} {op : MainOp} {ret : Ret} {holder : Mutex → Option Actor}

/-- A call of `main` leaves a thread alone that it does not start. -/
theorem mainCall_thread {i : ℕ} (h : (Act.main op ret).use i ≠ some .start) :
    (p.mainCall op ret holder).thread i = p.thread i := by
  by_cases hop : op = .create i
  · subst hop
    rw [mainCall_create_fails fun hval => h (by simp [Act.use, hval])]
  · exact (mainCall_of_ne hop).1

/-- A call of `main` that does nothing with any record leaves the numbers alone. -/
theorem mainCall_fresh (h : ∀ i, (Act.main op ret).use i = none) :
    (p.mainCall op ret holder).fresh = p.fresh := by
  cases op with
  | malloc =>
    cases hptr : ret.ptr with
    | none => simp [mainCall, hptr]
    | some record =>
      have huse := h record
      simp [Act.use, hptr] at huse
  | _ => rfl

/-- A `malloc` answers with the next number. -/
theorem fresh_of_allows (hallows : p.Allows .malloc ret) {record : ℕ}
    (hptr : ret.ptr = some record) : record = p.fresh := by
  rcases hallows with hnone | hsome
  · rw [hptr] at hnone
    cases hnone
  · exact Option.some.inj (hptr.symm.trans hsome)

theorem Books.move (h : p.Books) (hop : p.main.pc.op = some op) :
    p.main.known.Move op ret (p.mainCall op ret holder).main.known := by
  rw [mainCall_main]
  exact Main.move h.hand hop ret

/-- A call of `main` keeps the books. -/
theorem Books.main (h : p.Books) (hop : p.main.pc.op = some op) (hallows : p.Allows op ret)
    (hlocks : Locking.Acts .main p.holder op.action holder) :
    (p.mainCall op ret holder).Books := by
  have hhand : (p.mainCall op ret holder).main.Hand := by
    rw [mainCall_main]
    exact h.hand.resume hop ret
  refine ⟨h.inv.main hop hallows hlocks, hhand, ?_⟩
  have hmove : p.main.known.Move op ret (p.mainCall op ret holder).main.known := h.move hop
  have hok := h.known
  have hlisted := h.listed
  generalize p.main.known = d at hmove hok hlisted
  generalize (p.mainCall op ret holder).main.known = d' at hmove
  cases hmove with
  | @allocate clients _ record hptr =>
    obtain rfl := fresh_of_allows hallows hptr
    refine ⟨hok.nodup, hok.ended, ?_, ?_⟩
    · intro record hnew
      obtain rfl := Option.some.inj hnew
      rw [mainCall_malloc_fresh hptr]
      exact ⟨Nat.lt_succ_self _, h.inv.fresh _ (le_refl _)⟩
    · intro record hfreeing
      cases hfreeing
  | @start clients _ record hval =>
    have hnone := (hok.new record rfl).2
    refine KnownRecords.Ok.of_list ?_ ?_
    · exact List.nodup_cons.mpr ⟨fun hmem => hlisted record hmem hnone, hok.nodup⟩
    intro i pc hi
    by_cases hir : i = record
    · exact Or.inl (hir ▸ List.mem_cons_self)
    · rw [(mainCall_of_ne fun hc => hir (MainOp.create.inj hc).symm).1] at hi
      exact (hok.ended i pc hi).imp_left (List.mem_cons_of_mem _)
  | @join clients _ record hmem =>
    have hexited : p.thread record = some .exited := hallows
    refine ⟨hok.nodup.erase record, ?_, ?_, ?_⟩
    · intro i pc hi
      by_cases hir : i = record
      · rw [mainCall_thread (by simp [Act.use]), hir, hexited] at hi
        exact Or.inr (Option.some.inj hi).symm
      · exact (hok.ended i pc hi).imp_left (List.mem_erase_of_ne hir).mpr
    · intro r hnew
      cases hnew
    · intro r hfreeing
      obtain rfl := Option.some.inj hfreeing
      exact ⟨hok.nodup.not_mem_erase, hlisted record hmem⟩
  | discard | free => exact KnownRecords.Ok.of_list hok.nodup hok.ended
  | fail hfails =>
    rw [mainCall_create_fails hfails]
    exact hok
  | look => exact hok
  | other huse =>
    have hthread : (p.mainCall op ret holder).thread = p.thread :=
      funext fun i => mainCall_thread (by rw [huse i]; exact (Option.some_ne_none _).symm)
    rw [hthread, mainCall_fresh huse]
    exact hok

end MainCall

/-- **Every step keeps the books.** -/
theorem Books.step {p q : Process} {a : Act} (h : p.Books) (hs : p.Step a q) : q.Books := by
  cases hs with
  | main hop hallows hlocks => exact h.main hop hallows hlocks
  | client hpc hop _ _ hlocks => exact h.client hpc hop hlocks
  | signal => exact h.signal

theorem books_run {junk : ℕ → ℤ} {h : List (Process × Act)} {p : Process}
    (hr : Run Step (start junk) h p) : p.Books :=
  hr.invariant (books_start junk) fun hi hs => hi.step hs

/-! ## 3. Where a record is -/

end Process

/-- Where record `i` is, from what `main` knows of it. -/
def KnownRecords.life (d : KnownRecords) (thread : ℕ → Option Pc) (fresh i : ℕ) : Life :=
  if fresh ≤ i then .unborn
  else if d.new = some i then .allocated
  else if i ∈ d.clients then .running
  else if d.freeing = some i then .joined
  else if thread i = none then .discarded
  else .freed

namespace Process

def life (p : Process) (i : ℕ) : Life := p.main.known.life p.thread p.fresh i

section Life

variable {p q : Process} {i : ℕ}

theorem life_unborn (h : p.fresh ≤ i) : p.life i = .unborn := if_pos h

theorem Books.allocated (h : p.Books) (hi : p.main.known.new = some i) : p.life i = .allocated := by
  simp [life, KnownRecords.life, (h.known.new i hi).1, hi]

/-- The records on the list are those whose threads were not joined. -/
theorem Books.running (h : p.Books) (hi : i ∈ p.main.known.clients) : p.life i = .running := by
  have hthread := h.listed i hi
  have hnew : p.main.known.new ≠ some i := fun hnew => hthread (h.known.new i hnew).2
  simp [life, KnownRecords.life, h.lt_fresh hthread, hnew, hi]

section Gone

variable {clients : List ℕ} (hd : p.main.known = ⟨none, clients, none⟩) (hlt : i < p.fresh)
  (hi : i ∉ clients)

include hd hlt hi

theorem life_discarded (hthread : p.thread i = none) : p.life i = .discarded := by
  simp [life, KnownRecords.life, hd, hlt, hi, hthread]

theorem life_freed (hthread : p.thread i ≠ none) : p.life i = .freed := by
  simp [life, KnownRecords.life, hd, hlt, hi, hthread]

end Gone

theorem Books.joined (h : p.Books) (hnew : p.main.known.new = none)
    (hi : p.main.known.freeing = some i) : p.life i = .joined := by
  obtain ⟨hnot, hthread⟩ := h.known.freeing i hi
  simp [life, KnownRecords.life, h.lt_fresh hthread, hnew, hnot, hi]

theorem mem_of_running (h : p.life i = .running) : i ∈ p.main.known.clients := by
  by_contra hi
  unfold life KnownRecords.life at h
  rw [if_neg hi] at h
  repeat' split at h
  all_goals cases h

/-- With no record known to `main`, every thread that was created was joined, and every record
freed. -/
theorem done_of_empty (hd : p.main.known = ⟨none, [], none⟩) (i : ℕ) :
    (p.life i).done .join = (p.life i).done .start ∧
      (p.life i).done .free = (p.life i).done .allocate := by
  by_cases hlt : i < p.fresh
  · by_cases hthread : p.thread i = none
    · rw [life_discarded hd hlt List.not_mem_nil hthread]
      exact ⟨rfl, rfl⟩
    · rw [life_freed hd hlt List.not_mem_nil hthread]
      exact ⟨rfl, rfl⟩
  · rw [life_unborn (Nat.not_lt.mp hlt)]
    exact ⟨rfl, rfl⟩

/-- A record is where it was if nothing about it has changed. -/
theorem life_congr (hfresh : q.fresh ≤ i ↔ p.fresh ≤ i)
    (hnew : q.main.known.new = some i ↔ p.main.known.new = some i)
    (hclients : i ∈ q.main.known.clients ↔ i ∈ p.main.known.clients)
    (hfreeing : q.main.known.freeing = some i ↔ p.main.known.freeing = some i)
    (hthread : q.thread i = none ↔ p.thread i = none) : p.life i = q.life i := by
  simp only [life, KnownRecords.life, hfresh, hnew, hclients, hfreeing, hthread]

end Life

section Step

variable {p : Process} {i : ℕ}

/-- What a call of a client thread does with a record. -/
theorem Books.act_client {j : ℕ} {pc : Pc} {op : Op} {ret : Ret} {holder : Mutex → Option Actor}
    (h : p.Books) (hpc : p.thread j = some pc) (hop : pc.op = some op)
    (hlocks : Locking.Acts (.client j) p.holder op.action holder) :
    Life.act i (p.life i) (.client j op ret) =
      some ((p.clientCall j pc op ret holder).life i) := by
  by_cases hji : j = i
  · subst hji
    have hmem := h.mem_of_call hpc hop
    have huse : (Act.client j op ret).use j = some .access := if_pos rfl
    rw [Life.act_of_some huse, h.running hmem, (h.client hpc hop hlocks).running hmem]
    rfl
  · have huse : (Act.client j op ret).use i = none := if_neg hji
    rw [Life.act_of_none huse]
    refine congrArg some (life_congr Iff.rfl Iff.rfl Iff.rfl Iff.rfl ?_)
    rw [clientCall_thread_of_ne (Ne.symm hji)]

/-- A call of `main` leaves a record alone that it does nothing with. -/
theorem life_mainCall {op : MainOp} {ret : Ret} {holder : Mutex → Option Actor}
    (hallows : p.Allows op ret)
    (hmove : p.main.known.Move op ret (p.mainCall op ret holder).main.known)
    (huse : (Act.main op ret).use i = none) :
    p.life i = (p.mainCall op ret holder).life i := by
  obtain ⟨hnew, hclients, hfreeing⟩ := hmove.untouched huse
  have hthread : (p.mainCall op ret holder).thread i = p.thread i :=
    mainCall_thread (by rw [huse]; exact (Option.some_ne_none _).symm)
  refine life_congr ?_ hnew hclients hfreeing (by rw [hthread])
  cases op with
  | malloc =>
    cases hptr : ret.ptr with
    | none => simp [mainCall, hptr]
    | some record =>
      obtain rfl := fresh_of_allows hallows hptr
      have hne : p.fresh ≠ i := by
        rintro rfl
        simp [Act.use, hptr] at huse
      rw [mainCall_malloc_fresh hptr]
      omega
  | _ => exact Iff.rfl

/-- What a call of `main` does with a record. -/
theorem Books.act_main {op : MainOp} {ret : Ret} {holder : Mutex → Option Actor} (h : p.Books)
    (hop : p.main.pc.op = some op) (hallows : p.Allows op ret)
    (hlocks : Locking.Acts .main p.holder op.action holder) :
    Life.act i (p.life i) (.main op ret) = some ((p.mainCall op ret holder).life i) := by
  have hq : (p.mainCall op ret holder).Books := h.main hop hallows hlocks
  have hmove : p.main.known.Move op ret (p.mainCall op ret holder).main.known := h.move hop
  cases huse : (Act.main op ret).use i with
  | none =>
    rw [Life.act_of_none huse]
    exact congrArg some (life_mainCall hallows hmove huse)
  | some u =>
    rw [Life.act_of_some huse]
    generalize hd : p.main.known = d at hmove
    generalize hd' : (p.mainCall op ret holder).main.known = d' at hmove
    cases hmove with
    | @allocate clients _ record hptr =>
      obtain rfl := fresh_of_allows hallows hptr
      simp only [Act.use, hptr, Option.some_inj, Option.ite_none_right_eq_some] at huse
      obtain ⟨rfl, rfl⟩ := huse
      rw [life_unborn (le_refl _), hq.allocated (by rw [hd'])]
      rfl
    | @start clients _ record hval =>
      simp only [Act.use, hval, Option.some_inj, Option.ite_none_right_eq_some, if_true] at huse
      obtain ⟨rfl, rfl⟩ := huse
      rw [h.allocated (by rw [hd]), hq.running (by rw [hd']; exact List.mem_cons_self)]
      rfl
    | @fail clients _ record hfails =>
      simp only [Act.use, hfails, Option.some_inj, Option.ite_none_right_eq_some, if_false] at huse
      obtain ⟨rfl, rfl⟩ := huse
      rw [h.allocated (by rw [hd]), hq.allocated (by rw [hd'])]
      rfl
    | @look clients _ record hmem =>
      simp only [Act.use, Option.some_inj, Option.ite_none_right_eq_some] at huse
      obtain ⟨rfl, rfl⟩ := huse
      rw [h.running (by rw [hd]; exact hmem), hq.running (by rw [hd']; exact hmem)]
      rfl
    | @join clients _ record hmem =>
      simp only [Act.use, Option.some_inj, Option.ite_none_right_eq_some] at huse
      obtain ⟨rfl, rfl⟩ := huse
      rw [h.running (by rw [hd]; exact hmem), hq.joined (by rw [hd']) (by rw [hd'])]
      rfl
    | @discard clients _ record =>
      simp only [Act.use, Option.some_inj, Option.ite_none_right_eq_some] at huse
      obtain ⟨rfl, rfl⟩ := huse
      obtain ⟨hlt, hnone⟩ := h.known.new record (by rw [hd])
      have hnot : record ∉ clients := fun hmem => h.listed record (by rw [hd]; exact hmem) hnone
      rw [h.allocated (by rw [hd]), life_discarded hd' hlt hnot hnone]
      rfl
    | @free clients _ record =>
      simp only [Act.use, Option.some_inj, Option.ite_none_right_eq_some] at huse
      obtain ⟨rfl, rfl⟩ := huse
      obtain ⟨hnot, hthread⟩ := h.known.freeing record (by rw [hd])
      rw [hd] at hnot
      rw [h.joined (by rw [hd]) (by rw [hd]),
        life_freed hd' (h.lt_fresh hthread) hnot hthread]
      rfl
    | other hnone =>
      rw [hnone i] at huse
      cases huse

/-- **Every step does with a record what may be done with it.** -/
theorem Books.act {q : Process} {a : Act} (h : p.Books) (hs : p.Step a q) :
    Life.act i (p.life i) a = some (q.life i) := by
  cases hs with
  | main hop hallows hlocks => exact h.act_main hop hallows hlocks
  | client hpc hop _ _ hlocks => exact h.act_client hpc hop hlocks
  | signal => rfl

end Step

/-- **Every record goes its way.** -/
theorem keeps_life {junk : ℕ → ℤ} {h : List (Process × Act)} {p : Process}
    (hr : Run Step (start junk) h p) (i : ℕ) :
    Keeps (Life.act i) .unborn (h.map Prod.snd) (p.life i) :=
  keeps_run (fun p : Process => p.life i) (fun hr hs => (books_run hr).act hs) hr

end Process

/-! ## 4. The books over whole runs -/

namespace Process

theorem Step.accepted {p q : Process} {a : Act} (hs : p.Step a q) :
    Accepted.act p.main.pc.accepted a = some q.main.pc.accepted := by
  cases hs with
  | @main op ret holder hop =>
    rw [mainCall_main]
    exact Main.accepted_resume hop ret
  | client => rfl
  | signal => rfl

/-- **An accepted descriptor is handed to a thread or closed** before `main` has its hand free. -/
theorem accept_settled {junk : ℕ → ℤ} {h₁ h₂ : List (Process × Act)} {p q : Process} {ret : Ret}
    (hr : Run Step (start junk) (h₁ ++ (q, .main .accept ret) :: h₂) p) (hret : ret.val ≠ -1)
    (hp : p.main.pc.accepted = none) :
    ∃ h₃ r a h₄, h₂ = h₃ ++ (r, a) :: h₄ ∧ a.Settles ret.val ∧ r.main.pc.accepted = some ret.val ∧
      ∀ e ∈ h₃, e.1.main.pc.accepted = some ret.val := by
  obtain ⟨v, -, hs, -, hrest⟩ := hr.cut
  have haccept := hs.accepted
  rw [Accepted.act, if_neg hret, Option.ite_none_right_eq_some] at haccept
  have hin : v.main.pc.accepted = some ret.val := (Option.some.inj haccept.2).symm
  have hend : p.main.pc.accepted ≠ some ret.val := by
    rw [hp]
    exact (Option.some_ne_none _).symm
  obtain ⟨h₃, r, a, h₄, w, rfl, -, hs', hout, hr', hbefore⟩ := hrest.exists_entry
    (A := fun u => u.main.pc.accepted ≠ some ret.val) (not_not.mpr hin) hend
  have hact := hs'.accepted
  rw [not_not.mp hr'] at hact
  exact ⟨h₃, r, a, h₄, rfl, Accepted.settles hact hout, not_not.mp hr',
    fun e he => not_not.mp (hbefore e he)⟩

/-- **What the books come to** after a run with this history. -/
structure Kept (h : List (Process × Act)) (p : Process) : Prop where
  /-- At the head of the accept loop the list holds the records of the threads that were created
  and not joined, each once. -/
  listed : p.main.pc = .whileActive → p.main.clients.Nodup ∧
    ∀ i, i ∈ p.main.clients ↔ uses h i .start = 1 ∧ uses h i .join = 0
  /-- A thread is created at most once for a record, and joined at most as often. -/
  joined : ∀ i, uses h i .join ≤ uses h i .start ∧ uses h i .start ≤ uses h i .allocate ∧
    uses h i .allocate ≤ 1
  /-- A record is freed once, after the join of its thread if that was created, and nothing is
  done with it afterwards. -/
  freed : ∀ i h₁ q a h₂, h = h₁ ++ (q, a) :: h₂ → a.use i = some .free →
    uses h₁ i .allocate = 1 ∧ uses h₁ i .join = uses h₁ i .start ∧ uses h₁ i .free = 0 ∧
      ∀ e ∈ h₂, e.2.use i = none
  /-- Accepted descriptors are taken in hand one at a time, and handed to a thread or closed. -/
  accepted : Keeps Accepted.act none (h.map Prod.snd) p.main.pc.accepted
  /-- Before `main` has its hand free again, it has handed over or closed the descriptor. -/
  settled : p.main.pc.accepted = none → ∀ h₁ q ret h₂, h = h₁ ++ (q, .main .accept ret) :: h₂ →
    ret.val ≠ -1 → ∃ h₃ r a h₄, h₂ = h₃ ++ (r, a) :: h₄ ∧ a.Settles ret.val ∧
      r.main.pc.accepted = some ret.val ∧ ∀ e ∈ h₃, e.1.main.pc.accepted = some ret.val
  /-- Behind the cleanup every thread was joined and every record freed. -/
  ended : p.main.pc = .cleanupUnlock ∨ p.main.pc = .finished →
    ∀ i, uses h i .join = uses h i .start ∧ uses h i .free = uses h i .allocate

/-- **`main` keeps its books**, whatever `accept`, `malloc` and `pthread_create` answer, and however
the client threads take their steps between those of `main` and of each other. -/
theorem thread_bookkeeping {junk : ℕ → ℤ} {h : List (Process × Act)} {p : Process}
    (hr : Run Step (start junk) h p) : Kept h p := by
  have hbooks := books_run hr
  have hdone : ∀ i u, u.once = true → uses h i u = (p.life i).done u :=
    fun i u hu => uses_eq (keeps_life hr i) hu
  refine ⟨?_, ?_, ?_, ?_, ?_, ?_⟩
  · intro hpc
    refine ⟨hbooks.known.nodup, ?_⟩
    intro i
    rw [hdone i .start rfl, hdone i .join rfl, ← Life.running_iff]
    exact ⟨hbooks.running, mem_of_running⟩
  · intro i
    rw [hdone i .join rfl, hdone i .start rfl, hdone i .allocate rfl]
    exact Life.done_le (p.life i)
  · rintro i h₁ q a h₂ rfl ha
    exact uses_free (keeps_life hr i) ha
  · exact keeps_run (fun p : Process => p.main.pc.accepted) (fun _ hs => hs.accepted) hr
  · rintro hp h₁ q ret h₂ rfl hret
    exact accept_settled hr hret hp
  · intro hpc i
    rw [hdone i .join rfl, hdone i .start rfl, hdone i .free rfl, hdone i .allocate rfl]
    exact done_of_empty (hbooks.hand.known_of_ended hpc) i

/-- A client for which `malloc` fails, and one for which `pthread_create` fails. -/
def refusedChoices : List (Option (Actor × Ret)) :=
  [some (.main, { val := 1 }), some (.main, { val := 4 }), some (.main, {}), some (.main, {}),
    some (.main, { val := 1 }), some (.main, { val := 5 }), some (.main, { ptr := some 1 }),
    some (.main, { val := 11 }), some (.main, {}), some (.main, {})]

/-- `main` joins the thread on its list, frees its record, and leaves the cleanup. -/
def joinChoices : List (Option (Actor × Ret)) :=
  [some (.main, {}), some (.main, {}), some (.main, {})]

/-- A run with these clients to the end of `main`. -/
theorem thread_bookkeeping_shutdown : ∃ h p, Run Step (start fun _ => 0) h p ∧
    p.main.pc = .finished ∧ Kept h p := by
  have hr := Run.of_played step_of_next (start fun _ => 0)
    (acceptChoices ++ refusedChoices ++ inFlightChoices ++ endChoices ++ cleanupChoices ++
      joinChoices) (by decide +kernel)
  exact ⟨_, _, hr, by decide +kernel, thread_bookkeeping hr⟩

end Process

end Aesd.Server
