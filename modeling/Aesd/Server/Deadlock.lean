/-
# Whether the server can deadlock

A client thread needs `list_mutex` to set its flag, on every path.  The sweep of the accept loop
joins under `list_mutex` only threads whose flag is set, and such a thread has nothing left to
acquire.  The cleanup at shutdown joins under `list_mutex` whatever is on the list: a thread that
has not set its flag by then waits for `main`, and `main` for it.

So a run is free of deadlock as long as `main` enters the cleanup with every flag on the list set
(`Orderly`), and the first entry without that leads to a deadlock (`deadlockFree_run`).
-/
import Aesd.Server.Process

namespace Aesd.Server

open Transition Locking

/-! ## 1. Who waits for whom -/

/-- The mutex a call acquires. -/
def Op.wanted : Op → Option Mutex
  | lock m => some m
  | _ => none

/-- The mutex a call of `main` acquires. -/
def MainOp.wanted : MainOp → Option Mutex
  | lock m => some m
  | _ => none

/-- A thread at this point cannot end without acquiring the mutex. -/
def Pc.HasToLock (pc : Pc) (m : Mutex) : Prop :=
  ∀ pc', Relation.ReflTransGen (fun a b : Pc => a.op ≠ some (.lock m) ∧ ∃ ret, b = a.resume ret)
    pc pc' → pc' ≠ .exited

namespace Process

/-- The mutex an actor is about to acquire. -/
def wants (p : Process) : Actor → Option Mutex
  | .main => p.main.pc.op.bind MainOp.wanted
  | .client i => (p.thread i).bind fun pc => pc.op.bind Op.wanted

/-- `main` is about to join a thread that has not ended. -/
def Awaits (p : Process) (a b : Actor) : Prop :=
  ∃ i, a = .main ∧ b = .client i ∧ p.main.pc.joining = some i ∧ p.thread i ≠ some .exited

/-- **No deadlock**: `main` does not join a thread that has to acquire a mutex `main` holds, and
the actors do not wait for each other in a circle. -/
structure DeadlockFree (p : Process) : Prop where
  join : ∀ i pc m, p.main.pc.joining = some i → p.thread i = some pc → p.holder m = some .main →
    ¬ pc.HasToLock m
  acyclic : ∀ a, ¬ Relation.TransGen (Waits p.holder p.wants p.Awaits) a a

/-- Every thread on the list has set its flag. -/
def Reaped (p : Process) : Prop := ∀ i ∈ p.main.clients, p.complete i = true

end Process

/-- A run in which `main` enters the cleanup only when every thread on the list has set its
flag. -/
def Orderly (h : List (Process × Act)) : Prop :=
  ∀ p op ret, (p, .main op ret) ∈ h → p.main.pc = .cleanupLock → p.Reaped

/-! ## 2. Threads near their end -/

/-- **Until it has the list mutex a thread has to acquire it.** -/
theorem Pc.hasToLock_of_ending {pc : Pc} (h : pc.ending = 0) : pc.HasToLock .list := by
  intro pc' hpath
  have hzero : pc'.ending = 0 := by
    induction hpath with
    | refl => exact h
    | @tail a b _ hstep ih =>
      obtain ⟨hno, ret, rfl⟩ := hstep
      cases hop : a.op with
      | none =>
        cases a with
        | exited => cases ih
        | _ => simp [Pc.op] at hop
      | some op =>
        rw [Pc.ending_resume hop]
        rcases Pc.ending_of_op hop with hone | ⟨hafter, -⟩
        · rw [ih] at hone
          -- the only call that starts the end is the one that is excluded
          cases op with
          | lock m =>
            cases m with
            | list => exact absurd hop hno
            | file => cases hone
          | unlock m => cases m <;> cases hone
          | _ => cases hone
        · exact hafter
  rintro rfl
  cases hzero

theorem Pc.not_hasToLock_exited (m : Mutex) : ¬ Pc.exited.HasToLock m :=
  fun h => h .exited Relation.ReflTransGen.refl rfl

/-- While `main` has the list mutex, a thread has set its flag only if it has ended, and has to
acquire the mutex otherwise. -/
theorem Process.Inv.ended_iff {p : Process} (h : p.Inv) (hmain : p.main.pc.holds .list = true)
    {i : ℕ} {pc : Pc} (hi : p.thread i = some pc) :
    (p.complete i = true → pc = .exited) ∧ (p.complete i = false → pc.ending = 0) := by
  have hno : pc.holds .list = false := by
    cases hpc : pc.holds .list with
    | false => rfl
    | true =>
      have hclient : p.holds (.client i) .list = true := by
        rw [Process.holds_of_thread hi]
        exact hpc
      have hboth : p.holds .main .list = true := hmain
      cases h.agree.unique hboth hclient
  have hflag := h.complete i pc hi
  constructor
  · intro hset
    have hge := hflag.mp hset
    cases pc with
    | exited => rfl
    | unlockList => cases hno
    | setComplete => exact absurd hge (by decide)
    | _ => exact absurd hge (Nat.not_succ_le_zero _)
  · intro hset
    have hlt : ¬ 2 ≤ pc.ending := fun hge => by
      rw [hflag.mpr hge] at hset
      cases hset
    cases pc with
    | exited => exact absurd (by decide) hlt
    | unlockList => exact absurd (by decide) hlt
    | setComplete => cases hno
    | _ => rfl

/-! ## 3. Orderly runs -/

/-- Whether `main` is in the cleanup, with the list mutex. -/
def MainPc.cleaning : MainPc → Bool
  | cleanupJoin _ | cleanupFree _ | cleanupUnlock => true
  | _ => false

/-- The cleanup is entered at its lock. -/
theorem Main.cleaning_of_resume {m : Main} {op : MainOp} {ret : Ret} (hop : m.pc.op = some op)
    (h : (m.resume ret).pc.cleaning = true) : m.pc = .cleanupLock ∨ m.pc.cleaning = true := by
  have hgoes := Main.goes_resume hop ret
  generalize m.resume ret = m' at h hgoes
  cases hgoes with
  | cleanupLocked => exact Or.inl rfl
  | cleanupJoined | cleanupFreed => exact Or.inr rfl
  | @sweepLocked rest | @running _ rest | @sweepFreed _ rest => cases rest <;> cases h
  | _ => cases h

namespace Process

/-- In the cleanup every thread left has set its flag. -/
def Tidy (p : Process) : Prop :=
  p.main.pc.cleaning = true → ∀ i ∈ p.main.clients ++ p.main.pc.inHand, p.complete i = true

/-- A step that is not a disorderly entry keeps the cleanup tidy. -/
theorem Tidy.step {p q : Process} {a : Act} (ht : p.Tidy) (hs : p.Step a q)
    (ho : ∀ op ret, a = .main op ret → p.main.pc = .cleanupLock → p.Reaped) : q.Tidy := by
  intro hclean i hi
  cases hs with
  | @main op ret holder hop =>
    rw [mainCall_main] at hclean hi
    have hentry := Main.cleaning_of_resume hop hclean
    have hne : op ≠ .create i := by
      rintro rfl
      generalize p.main.pc = pc at hop hentry
      cases pc with
      | create => rcases hentry with h | h <;> cases h
      | _ => simp [MainPc.op] at hop
    rw [(mainCall_of_ne hne).2]
    rcases Main.mem_of_resume hop hi with hold | ⟨hcreate, -⟩
    · rcases hentry with hlock | hin
      · rw [hlock, MainPc.inHand, List.append_nil] at hold
        · exact ho op ret rfl hlock i hold
        all_goals simp
      · exact ht hin i hold
    · exact absurd hcreate hne
  | client => exact complete_clientCall (ht hclean i hi)
  | signal => exact ht hclean i hi

/-- **Orderly runs keep the cleanup tidy.** -/
theorem tidy_run {junk : ℕ → ℤ} {h : List (Process × Act)} {p : Process}
    (hr : Run Step (start junk) h p) (ho : Orderly h) : p.Tidy := by
  induction hr with
  | nil =>
    intro hclean
    cases hclean
  | @concat h s t a hr hs ih =>
    refine (ih fun p op ret hm => ho p op ret (List.mem_append_left _ hm)).step hs ?_
    rintro op ret rfl
    exact ho s op ret (List.mem_append_right _ (List.mem_singleton_self _))

/-- The thread `main` is about to join has ended. -/
theorem Inv.joined {p : Process} (h : p.Inv) (ht : p.Tidy) {i : ℕ}
    (hj : p.main.pc.joining = some i) : p.thread i = some .exited := by
  have hcase : p.main.pc.holds .list = true ∧ i ∈ p.main.clients ++ p.main.pc.inHand ∧
      p.complete i = true := by
    have hswept := h.swept
    have htidy := ht
    unfold Tidy at htidy
    generalize p.main.pc = pc at hj hswept htidy ⊢
    cases pc with
    | sweepJoin record rest =>
      obtain rfl := Option.some.inj hj
      exact ⟨rfl, List.mem_append_right _ List.mem_cons_self, hswept _ rest rfl⟩
    | cleanupJoin record =>
      obtain rfl := Option.some.inj hj
      have hmem : record ∈ p.main.clients ++ (MainPc.cleanupJoin record).inHand :=
        List.mem_append_right _ List.mem_cons_self
      exact ⟨rfl, hmem, htidy rfl record hmem⟩
    | _ => cases hj
  obtain ⟨hmain, hmem, hset⟩ := hcase
  obtain ⟨pc, hpc⟩ := Option.ne_none_iff_exists'.mp (h.created i hmem)
  rw [hpc, (h.ended_iff hmain hpc).1 hset]

/-- **A tidy process is free of deadlock.** -/
theorem Inv.deadlockFree {p : Process} (h : p.Inv) (ht : p.Tidy) : p.DeadlockFree := by
  have hawaits : ∀ a b, ¬ p.Awaits a b := by
    rintro a b ⟨i, -, -, hj, hne⟩
    exact hne (h.joined ht hj)
  refine ⟨?_, ?_⟩
  · intro i pc m hj hpc _
    obtain rfl := Option.some.inj ((h.joined ht hj).symm.trans hpc)
    exact Pc.not_hasToLock_exited m
  · refine Waits.acyclic h.agree ?_ (fun a b hab => absurd hab (hawaits a b))
      fun a b hab => absurd hab (hawaits a b)
    intro a m hw n
    cases a with
    | main =>
      show p.main.pc.holds n = false
      have hw' : p.main.pc.op.bind MainOp.wanted = some m := hw
      generalize p.main.pc = pc at hw'
      cases pc with
      | sweepLock => rfl
      | cleanupLock => rfl
      | _ => cases hw'
    | client i =>
      show (p.thread i).any _ = false
      have hw' : ((p.thread i).bind fun pc => pc.op.bind Op.wanted) = some m := hw
      obtain ⟨pc, hpc, hop⟩ := Option.bind_eq_some_iff.mp hw'
      obtain ⟨op, hop, hop'⟩ := Option.bind_eq_some_iff.mp hop
      cases op with
      | lock m' =>
        rw [hpc]
        show pc.holds n = false
        rw [Pc.holds, Pc.held_of_lock hop]
        rfl
      | _ => cases hop'

/-! ## 4. Disorderly runs -/

/-- **A cleanup with a thread left that has not set its flag comes to a deadlock.** -/
theorem Inv.cleanup_deadlock : ∀ {l : List ℕ} {p : Process}, p.Inv → p.main.clients = l →
    p.main.pc = .cleanup l → (∃ i ∈ l, p.complete i = false) →
      ∃ h q, Run Step p h q ∧ ¬ q.DeadlockFree := by
  intro l
  induction l with
  | nil =>
    rintro p - - - ⟨i, hi, -⟩
    exact absurd hi List.not_mem_nil
  | cons record l ih =>
    intro p h hclients hpc hex
    have hpc' : p.main.pc = .cleanupJoin record := hpc
    have hmain : p.main.pc.holds .list = true := by rw [hpc']; rfl
    have hmem : record ∈ p.main.clients := by rw [hclients]; exact List.mem_cons_self
    obtain ⟨pc, hthread⟩ :=
      Option.ne_none_iff_exists'.mp (h.created record (List.mem_append_left _ hmem))
    obtain ⟨hended, hnot⟩ := h.ended_iff hmain hthread
    cases hflag : p.complete record with
    | false =>
      -- the join of this thread blocks
      refine ⟨[], p, Run.nil, ?_⟩
      intro hfree
      exact hfree.join record pc .list (by rw [hpc']; rfl) hthread
        ((h.agree .list .main).mpr hmain) (Pc.hasToLock_of_ending (hnot hflag))
    | true =>
      -- this thread is joined and freed, and the next one is at the head
      have hjoin : p.Step (.main (.join record) {}) (p.mainCall (.join record) {} p.holder) :=
        Step.main (by rw [hpc']; rfl) (by show p.thread record = _; rw [hthread, hended hflag])
          Acts.pass
      have hmain₁ : (p.mainCall (.join record) {} p.holder).main = ⟨.cleanupFree record, l⟩ := by
        rw [mainCall_main, Main.resume, hpc']
        show Main.mk _ p.main.clients.tail = _
        rw [hclients]
        rfl
      have hfree : (p.mainCall (.join record) {} p.holder).Step (.main (.free record) {})
          ((p.mainCall (.join record) {} p.holder).mainCall (.free record) {} p.holder) :=
        Step.main (by rw [hmain₁]; rfl) trivial Acts.pass
      obtain ⟨h', q, hr, hq⟩ := ih ((h.step hjoin).step hfree)
        (by rw [mainCall_main, Main.resume, hmain₁])
        (by rw [mainCall_main, Main.resume, hmain₁]) (by
          obtain ⟨i, hi, hset⟩ := hex
          refine ⟨i, (List.mem_cons.mp hi).resolve_left ?_, hset⟩
          rintro rfl
          rw [hflag] at hset
          cases hset)
      exact ⟨_, q, ((Run.nil.concat hjoin).concat hfree).append hr, hq⟩

/-- **When the server is free of deadlock.**  In every run in which `main` enters the cleanup
only with all flags on the list set, every process reached is free of deadlock.  And from every
process in which `main` can enter the cleanup with a flag on the list not set, a deadlock can be
reached. -/
theorem deadlockFree_run {junk : ℕ → ℤ} {h : List (Process × Act)} {p : Process}
    (hr : Run Step (start junk) h p) :
    (Orderly h → p.DeadlockFree) ∧
      (p.main.pc = .cleanupLock → p.holder .list = none → ¬ p.Reaped →
        ∃ h' q, Run Step (start junk) (h ++ h') q ∧ ¬ q.DeadlockFree) := by
  have hi := inv_run hr
  refine ⟨fun ho => hi.deadlockFree (tidy_run hr ho), ?_⟩
  intro hpc hfree hno
  have hlock : p.Step (.main (.lock .list) {})
      (p.mainCall (.lock .list) {} (Function.update p.holder Mutex.list (some Actor.main))) :=
    Step.main (by rw [hpc]; rfl) trivial (Acts.acquire Mutex.list hfree)
  obtain ⟨h', q, hr', hq⟩ := (hi.step hlock).cleanup_deadlock
    (l := p.main.clients) (by rw [mainCall_main, Main.resume, hpc])
    (by rw [mainCall_main, Main.resume, hpc]) (by
      by_contra hall
      refine hno ?_
      intro i hmem
      cases hset : p.complete i with
      | true => rfl
      | false => exact absurd ⟨i, hmem, hset⟩ hall)
  exact ⟨_, q, hr.append ((Run.nil.concat hlock).append hr'), hq⟩

/-! ## 5. A client in flight at shutdown -/

instance (p : Process) : Decidable p.Reaped :=
  inferInstanceAs (Decidable (∀ i ∈ p.main.clients, p.complete i = true))

/-- `main` creates client thread 0, and sweeps. -/
def acceptChoices : List (Option (Actor × Ret)) :=
  [some (.main, { val := 1 }), some (.main, { val := 3 }), some (.main, { ptr := some 0 }),
    some (.main, {}), some (.main, {}), some (.main, {}), some (.main, {})]

/-- The client waits in `recv` when the signal comes; its `recv` fails, and it closes its
descriptors. -/
def inFlightChoices : List (Option (Actor × Ret)) :=
  [some (.client 0, { val := 4 }), some (.client 0, { ptr := some 0 }),
    some (.client 0, { val := 1 }), none, some (.client 0, { val := -1 }), some (.client 0, {}),
    some (.client 0, {}), some (.client 0, {})]

/-- The thread sets its flag, and ends. -/
def endChoices : List (Option (Actor × Ret)) :=
  [some (.client 0, {}), some (.client 0, {}), some (.client 0, {})]

/-- `main` sees the signal, and enters the cleanup. -/
def cleanupChoices : List (Option (Actor × Ret)) :=
  [some (.main, {}), some (.main, {})]

/-- The run with these choices. -/
def shutdown (choices : List (Option (Actor × Ret))) : List (Process × Act) × Process :=
  played next (start fun _ => 0) choices

/-- The client sets its flag before the cleanup. -/
theorem deadlockFree_shutdown :
    (shutdown
      (acceptChoices ++ inFlightChoices ++ endChoices ++ cleanupChoices)).2.DeadlockFree := by
  have hrun := Run.of_played step_of_next (start fun _ => 0)
    (acceptChoices ++ inFlightChoices ++ endChoices ++ cleanupChoices) (by decide +kernel)
  refine (deadlockFree_run hrun).1 ?_
  have hall : ∀ e ∈ (shutdown (acceptChoices ++ inFlightChoices ++ endChoices ++
      cleanupChoices)).1, e.1.main.pc = .cleanupLock → e.1.Reaped := by
    decide +kernel
  intro p op ret hm
  exact hall _ hm

/-- **The server can deadlock at shutdown.**  `main` joins client 0 while the client waits for the
list mutex, which `main` holds. -/
theorem shutdown_deadlock : ¬ ∀ (junk : ℕ → ℤ) (h : List (Process × Act)) (p : Process),
    Run Step (start junk) h p → p.DeadlockFree := by
  intro hall
  have hrun := Run.of_played step_of_next (start fun _ => 0)
    (acceptChoices ++ inFlightChoices ++ cleanupChoices) (by decide +kernel)
  generalize hq : (played next (start fun _ => 0)
    (acceptChoices ++ inFlightChoices ++ cleanupChoices)).2 = q at hrun
  have hjoin : Waits q.holder q.wants q.Awaits .main (.client 0) := by
    subst hq
    exact Waits.finish ⟨0, rfl, rfl, by decide +kernel, by decide +kernel⟩
  have hlock : Waits q.holder q.wants q.Awaits (.client 0) .main := by
    subst hq
    exact Waits.mutex Mutex.list (by decide +kernel) (by decide +kernel)
  exact (hall _ _ _ hrun).acyclic .main ((Relation.TransGen.single hjoin).tail hlock)

end Process

end Aesd.Server
