/-
# What `main` does with records and descriptors

At each point `main` has some records to see to (`Main.known`): one that was allocated and has no
thread yet, those on its list, one that was joined and is to be freed.  `KnownRecords.Move` says
what a call does with them, once for all points (`Main.move`).  Besides, it has at most one accepted
descriptor in hand, until a thread is created for it or it is closed (`Main.accepted_resume`).
-/
import Aesd.Server.Process

namespace Aesd.Server

/-! ## 1. The uses of a record -/

/-- What a call does with a record. -/
inductive Use
  | allocate
  /-- A `pthread_create` that succeeds. -/
  | start
  /-- A `pthread_create` that fails. -/
  | fail
  /-- A call of its thread, or a read of `thread_complete`. -/
  | access
  | join
  | free
  deriving DecidableEq

/-- What is done with a record at most once. -/
def Use.once : Use → Bool
  | fail | access => false
  | _ => true

/-- What an event does with record `i`. -/
def Act.use (i : ℕ) : Act → Option Use
  | main .malloc ret => if ret.ptr = some i then some .allocate else none
  | main (.create record) ret =>
    if record = i then some (if ret.val = 0 then .start else .fail) else none
  | main (.loadComplete record) _ => if record = i then some .access else none
  | main (.join record) _ => if record = i then some .join else none
  | main (.free record) _ => if record = i then some .free else none
  | client j _ _ => if j = i then some .access else none
  | _ => none

/-! ## 2. The records `main` knows -/

/-- The record that was allocated and has no thread yet. -/
def MainPc.newRecord : MainPc → Option ℕ
  | create _ record | createFailedClose _ record | createFailedFree record => some record
  | _ => none

/-- The record whose thread was joined and that is to be freed. -/
def MainPc.freeing : MainPc → Option ℕ
  | sweepFree record _ | cleanupFree record => some record
  | _ => none

/-- The records that `main` knows. -/
structure KnownRecords where
  new : Option ℕ
  clients : List ℕ
  freeing : Option ℕ

def Main.known (m : Main) : KnownRecords := ⟨m.pc.newRecord, m.clients, m.pc.freeing⟩

/-- What a call of `main` does with the records it knows. -/
inductive KnownRecords.Move : KnownRecords → MainOp → Ret → KnownRecords → Prop
  | allocate {clients : List ℕ} {ret : Ret} {record : ℕ} : ret.ptr = some record →
      Move ⟨none, clients, none⟩ .malloc ret ⟨some record, clients, none⟩
  | start {clients : List ℕ} {ret : Ret} {record : ℕ} : ret.val = 0 →
      Move ⟨some record, clients, none⟩ (.create record) ret ⟨none, record :: clients, none⟩
  | fail {clients : List ℕ} {ret : Ret} {record : ℕ} : ret.val ≠ 0 →
      Move ⟨some record, clients, none⟩ (.create record) ret ⟨some record, clients, none⟩
  | look {clients : List ℕ} {ret : Ret} {record : ℕ} : record ∈ clients →
      Move ⟨none, clients, none⟩ (.loadComplete record) ret ⟨none, clients, none⟩
  | join {clients : List ℕ} {ret : Ret} {record : ℕ} : record ∈ clients →
      Move ⟨none, clients, none⟩ (.join record) ret ⟨none, clients.erase record, some record⟩
  | discard {clients : List ℕ} {ret : Ret} {record : ℕ} :
      Move ⟨some record, clients, none⟩ (.free record) ret ⟨none, clients, none⟩
  | free {clients : List ℕ} {ret : Ret} {record : ℕ} :
      Move ⟨none, clients, some record⟩ (.free record) ret ⟨none, clients, none⟩
  | other {d : KnownRecords} {op : MainOp} {ret : Ret} : (∀ i, (Act.main op ret).use i = none) →
      Move d op ret d

/-- What the sweep has not come to yet is on the list; the cleanup joins the head of the list. -/
def Main.Hand (m : Main) : Prop :=
  match m.pc with
  | .sweepTest record rest | .sweepJoin record rest => (record :: rest).Sublist m.clients
  | .sweepFree _ rest => rest.Sublist m.clients
  | .cleanupJoin record => m.clients.head? = some record
  | .cleanupUnlock | .finished => m.clients = []
  | _ => True

theorem Main.hand_sweep {rest clients : List ℕ} (h : rest.Sublist clients) :
    Main.Hand ⟨.sweep rest, clients⟩ := by
  cases rest with
  | nil => exact trivial
  | cons record rest => exact h

theorem Main.hand_cleanup (clients : List ℕ) : Main.Hand ⟨.cleanup clients, clients⟩ := by
  cases clients <;> rfl

theorem Main.known_sweep (rest clients : List ℕ) :
    Main.known ⟨.sweep rest, clients⟩ = ⟨none, clients, none⟩ := by
  cases rest <;> rfl

theorem Main.known_cleanup (clients : List ℕ) :
    Main.known ⟨.cleanup clients, clients⟩ = ⟨none, clients, none⟩ := by
  cases clients <;> rfl

/-- Behind the cleanup `main` knows no records. -/
theorem Main.Hand.known_of_ended {m : Main} (h : m.Hand)
    (hpc : m.pc = .cleanupUnlock ∨ m.pc = .finished) : m.known = ⟨none, [], none⟩ := by
  obtain ⟨pc, clients⟩ := m
  rcases hpc with rfl | rfl
  · obtain rfl : clients = [] := h
    rfl
  · obtain rfl : clients = [] := h
    rfl

/-- Every call keeps what `main` has in hand on its list. -/
theorem Main.Hand.resume {m : Main} {op : MainOp} (h : m.Hand) (hop : m.pc.op = some op)
    (ret : Ret) : (m.resume ret).Hand := by
  have hgoes := Main.goes_resume hop ret
  generalize m.resume ret = m' at hgoes ⊢
  cases hgoes with
  | @sweepLocked clients => exact Main.hand_sweep (List.Sublist.refl clients)
  | complete => exact h
  | @running clients rest _ record =>
    have hsub : (record :: rest).Sublist clients := h
    exact Main.hand_sweep ((List.sublist_cons_self record rest).trans hsub)
  | @sweepJoined clients rest _ record =>
    have hsub : (record :: rest).Sublist clients := h
    have herase := hsub.erase record
    rwa [List.erase_cons_head] at herase
  | sweepFreed => exact Main.hand_sweep h
  | cleanupLocked | cleanupFreed => exact Main.hand_cleanup _
  | cleanupUnlocked => exact h
  | _ => exact trivial

/-- **Every call of `main` is a move.** -/
theorem Main.move {m : Main} {op : MainOp} (h : m.Hand) (hop : m.pc.op = some op) (ret : Ret) :
    m.known.Move op ret (m.resume ret).known := by
  have hgoes := Main.goes_resume hop ret
  generalize m.resume ret = m' at hgoes ⊢
  cases hgoes with
  | mallocFailed hp => exact KnownRecords.Move.other fun i => by simp [Act.use, hp]
  | malloced hp => exact KnownRecords.Move.allocate hp
  | createFailed hfails => exact KnownRecords.Move.fail hfails
  | created hval => exact KnownRecords.Move.start hval
  | createFailedFreed => exact KnownRecords.Move.discard
  | sweepLocked =>
    rw [Main.known_sweep]
    exact KnownRecords.Move.other fun _ => rfl
  | @complete clients rest _ record =>
    have hsub : (record :: rest).Sublist clients := h
    exact KnownRecords.Move.look (hsub.subset List.mem_cons_self)
  | @running clients rest _ record =>
    have hsub : (record :: rest).Sublist clients := h
    rw [Main.known_sweep]
    exact KnownRecords.Move.look (hsub.subset List.mem_cons_self)
  | @sweepJoined clients rest _ record =>
    have hsub : (record :: rest).Sublist clients := h
    exact KnownRecords.Move.join (hsub.subset List.mem_cons_self)
  | sweepFreed =>
    rw [Main.known_sweep]
    exact KnownRecords.Move.free
  | cleanupLocked =>
    rw [Main.known_cleanup]
    exact KnownRecords.Move.other fun _ => rfl
  | @cleanupJoined clients _ record =>
    have hhead : clients.head? = some record := h
    obtain ⟨rest, rfl⟩ := List.head?_eq_some_iff.mp hhead
    have hjoin : KnownRecords.Move ⟨none, record :: rest, none⟩ (.join record) ret
        ⟨none, (record :: rest).erase record, some record⟩ :=
      KnownRecords.Move.join List.mem_cons_self
    rwa [List.erase_cons_head] at hjoin
  | cleanupFreed =>
    rw [Main.known_cleanup]
    exact KnownRecords.Move.free
  | _ => exact KnownRecords.Move.other fun _ => rfl

/-- A move leaves alone what it does nothing with. -/
theorem KnownRecords.Move.untouched {d d' : KnownRecords} {op : MainOp} {ret : Ret} {i : ℕ}
    (h : d.Move op ret d') (huse : (Act.main op ret).use i = none) :
    (d'.new = some i ↔ d.new = some i) ∧ (i ∈ d'.clients ↔ i ∈ d.clients) ∧
      (d'.freeing = some i ↔ d.freeing = some i) := by
  cases h with
  | @allocate clients _ record hptr =>
    have hne : record ≠ i := by
      rintro rfl
      simp [Act.use, hptr] at huse
    simp [hne]
  | @start clients _ record =>
    have hne : record ≠ i := by
      rintro rfl
      simp [Act.use] at huse
    simp [hne, Ne.symm hne]
  | @join clients _ record =>
    have hne : record ≠ i := by
      rintro rfl
      simp [Act.use] at huse
    simp [hne, List.mem_erase_of_ne (Ne.symm hne)]
  | @discard clients _ record | @free clients _ record =>
    have hne : record ≠ i := by
      rintro rfl
      simp [Act.use] at huse
    simp [hne]
  | _ => exact ⟨Iff.rfl, Iff.rfl, Iff.rfl⟩

/-! ## 3. Accepted descriptors -/

/-- The accepted descriptor `main` has in hand. -/
abbrev Accepted := Option ℤ

/-- A descriptor is in hand until a thread is created for it or it is closed. -/
def Accepted.act (s : Accepted) : Act → Option Accepted
  | .main .accept ret =>
    if s = none then some (if ret.val = -1 then none else some ret.val) else none
  | .main (.create _) ret => if s = none then none else some (if ret.val = 0 then none else s)
  | .main (.close fd) _ => if s = some fd then some none else none
  | _ => some s

def MainPc.accepted : MainPc → Accepted
  | mallocRecord fd | mallocFailedClose fd | create fd _ | createFailedClose fd _ => some fd
  | _ => none

theorem MainPc.accepted_sweep (rest : List ℕ) : (MainPc.sweep rest).accepted = none := by
  cases rest <;> rfl

theorem MainPc.accepted_cleanup (clients : List ℕ) : (MainPc.cleanup clients).accepted = none := by
  cases clients <;> rfl

/-- Every call of `main` is allowed with the descriptor it has in hand. -/
theorem Main.accepted_resume {m : Main} {op : MainOp} (hop : m.pc.op = some op) (ret : Ret) :
    Accepted.act m.pc.accepted (.main op ret) = some (m.resume ret).pc.accepted := by
  have hgoes := Main.goes_resume hop ret
  generalize m.resume ret = m' at hgoes ⊢
  cases hgoes with
  | acceptFailed hval | accepted hval | createFailed hval | created hval =>
    simp [Accepted.act, MainPc.accepted, hval]
  | mallocFailedClosed | createFailedClosed => exact if_pos rfl
  | sweepLocked | running | sweepFreed => exact congrArg some (MainPc.accepted_sweep _).symm
  | cleanupLocked | cleanupFreed => exact congrArg some (MainPc.accepted_cleanup _).symm
  | _ => rfl

/-- `main` is done with a descriptor. -/
def Act.Settles (fd : ℤ) : Act → Prop
  | main (.create _) ret => ret.val = 0
  | main (.close fd') _ => fd' = fd
  | _ => False

theorem Accepted.settles {fd : ℤ} {a : Act} {t : Accepted} (h : Accepted.act (some fd) a = some t)
    (ht : t ≠ some fd) : a.Settles fd := by
  cases a with
  | main op ret =>
    cases op with
    | accept => simp [Accepted.act] at h
    | create record =>
      by_contra hval
      have hne : ret.val ≠ 0 := hval
      have hkept : Accepted.act (some fd) (.main (.create record) ret) = some (some fd) := by
        simp [Accepted.act, hne]
      exact ht (Option.some.inj (h.symm.trans hkept))
    | close fd' =>
      simp only [Accepted.act, Option.some_inj, Option.ite_none_right_eq_some] at h
      exact h.1.symm
    | _ => exact absurd (Option.some.inj h).symm ht
  | _ => exact absurd (Option.some.inj h).symm ht

end Aesd.Server
