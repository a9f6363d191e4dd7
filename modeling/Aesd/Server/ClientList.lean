/-
# The list of clients in memory

`main` keeps its clients in a linked list of `queue.h`, and its loops hold pointers into it:
`SLIST_FOREACH_SAFE` fetches the next element before its body removes and frees the current one.
Here is `main` with that list as it lies in memory (`LinkedMain`).  A call after which `main`
would follow `NULL` or touch a record that is not allocated leads nowhere.

The process with this `main` and the process with a list in place of the links do the same
(`linked_list`): they have the same runs, call by call.  What was proved of the second therefore
holds of the first; and no call of `main` or of a client thread touches a freed record.
-/
import Aesd.Lib.SList
import Aesd.Server.Bookkeeping

namespace Aesd.Server

open Transition SList

/-! ## 1. `main` with its list in memory -/

/-- The points of `main`, with the pointers of its loops. -/
inductive LinkedPc
  | whileActive
  | accept
  | acceptFailed
  | mallocRecord (fd : ℤ)
  | mallocFailedClose (fd : ℤ)
  | create (fd : ℤ) (newClient : ℕ)
  | createFailedClose (fd : ℤ) (newClient : ℕ)
  | createFailedFree (newClient : ℕ)
  | sweepLock
  | sweepTest (currentClient : ℕ) (tempClient : Option ℕ)
  | sweepJoin (currentClient : ℕ) (tempClient : Option ℕ)
  | sweepFree (currentClient : ℕ) (tempClient : Option ℕ)
  | sweepUnlock
  | cleanupLock
  | cleanupJoin (tempThread : ℕ)
  | cleanupFree (tempThread : ℕ)
  | cleanupUnlock
  | finished
  deriving DecidableEq

/-- The call made at a point. -/
def LinkedPc.op : LinkedPc → Option MainOp
  | whileActive => some .loadActive
  | accept => some .accept
  | acceptFailed => some .loadActive
  | mallocRecord _ => some .malloc
  | mallocFailedClose fd => some (.close fd)
  | create _ newClient => some (.create newClient)
  | createFailedClose fd _ => some (.close fd)
  | createFailedFree newClient => some (.free newClient)
  | sweepLock => some (.lock .list)
  | sweepTest currentClient _ => some (.loadComplete currentClient)
  | sweepJoin currentClient _ => some (.join currentClient)
  | sweepFree currentClient _ => some (.free currentClient)
  | sweepUnlock => some (.unlock .list)
  | cleanupLock => some (.lock .list)
  | cleanupJoin tempThread => some (.join tempThread)
  | cleanupFree tempThread => some (.free tempThread)
  | cleanupUnlock => some (.unlock .list)
  | finished => none

/-- `main` with `head` and the links of the records. -/
structure LinkedMain where
  pc : LinkedPc
  list : Links ℕ

namespace LinkedMain

/-- A field of a record is read or written, or the record is freed: it must be allocated. -/
def access (m : LinkedMain) (record : ℕ) (k : Option LinkedMain) : Option LinkedMain :=
  if (m.list.next record).isSome then k else none

/-- The head of `SLIST_FOREACH_SAFE`. -/
def foreach (m : LinkedMain) (var : Option ℕ) : Option LinkedMain :=
  (m.list.foreachSafe var).map fun
    | none => { m with pc := .sweepUnlock }
    | some (currentClient, tempClient) => { m with pc := .sweepTest currentClient tempClient }

/-- The head of the loop of the cleanup. -/
def whileNonempty (m : LinkedMain) : LinkedMain :=
  match m.list.first with
  | none => { m with pc := .cleanupUnlock }
  | some tempThread => { m with pc := .cleanupJoin tempThread }

/-- The point `main` goes to when its call returns `ret`, and its list there.  `junk` is what a new
record has in its link; `SLIST_REMOVE` gives up after `fuel` links. -/
def resume (m : LinkedMain) (fuel : ℕ) (junk : ℕ → Option ℕ) (ret : Ret) : Option LinkedMain :=
  match m.pc with
  | .whileActive => some { m with pc := if ret.val ≠ 0 then .accept else .cleanupLock }
  | .accept =>
    some { m with pc := if ret.val = -1 then .acceptFailed else .mallocRecord ret.val }
  | .acceptFailed => some { m with pc := if ret.val = 0 then .cleanupLock else .whileActive }
  | .mallocRecord fd =>
    match ret.ptr with
    | none => some { m with pc := .mallocFailedClose fd }
    | some newClient => some ⟨.create fd newClient, m.list.alloc newClient (junk newClient)⟩
  | .mallocFailedClose _ => some { m with pc := .whileActive }
  | .create fd newClient =>
    m.access newClient <|
      if ret.val ≠ 0 then some { m with pc := .createFailedClose fd newClient }
      else (m.list.insertHead newClient).map fun list => ⟨.sweepLock, list⟩
  | .createFailedClose _ newClient => some { m with pc := .createFailedFree newClient }
  | .createFailedFree newClient =>
    m.access newClient (some ⟨.whileActive, m.list.free newClient⟩)
  | .sweepLock => m.foreach m.list.first
  | .sweepTest currentClient tempClient =>
    m.access currentClient <|
      if ret.val = 1 then some { m with pc := .sweepJoin currentClient tempClient }
      else m.foreach tempClient
  | .sweepJoin currentClient tempClient =>
    m.access currentClient <|
      (m.list.remove currentClient fuel).map fun list => ⟨.sweepFree currentClient tempClient, list⟩
  | .sweepFree currentClient tempClient =>
    m.access currentClient <| foreach { m with list := m.list.free currentClient } tempClient
  | .sweepUnlock => some { m with pc := .whileActive }
  | .cleanupLock => some m.whileNonempty
  | .cleanupJoin tempThread =>
    m.access tempThread <| m.list.removeHead.map fun list => ⟨.cleanupFree tempThread, list⟩
  | .cleanupFree tempThread =>
    m.access tempThread <| some (whileNonempty { m with list := m.list.free tempThread })
  | .cleanupUnlock => some { m with pc := .finished }
  | .finished => some m

end LinkedMain

/-! ## 2. The process -/

/-- The process with the list of clients in memory; `junkLink i` is what record `i` has in its link
when it is allocated. -/
structure LinkedProcess where
  main : LinkedMain
  thread : ℕ → Option Pc
  complete : ℕ → Bool
  active : Bool
  holder : Mutex → Option Actor
  fresh : ℕ
  junk : ℕ → ℤ
  junkLink : ℕ → Option ℕ

namespace LinkedProcess

/-- The process with another `main` in its place. -/
def view (q : LinkedProcess) (m : Main) : Process :=
  ⟨m, q.thread, q.complete, q.active, q.holder, q.fresh, q.junk⟩

/-- The process after a call: `main`, and the rest from `p`. -/
def after (q : LinkedProcess) (main : LinkedMain) (p : Process) : LinkedProcess :=
  ⟨main, p.thread, p.complete, p.active, p.holder, p.fresh, p.junk, q.junkLink⟩

/-- One step.  But for `main` itself, a call does here what it does in a `Process`, whatever `m`
stands there in place of `main`. -/
inductive Step (q : LinkedProcess) : Act → LinkedProcess → Prop
  | main {op : MainOp} {ret : Ret} {holder : Mutex → Option Actor} {main : LinkedMain} (m : Main) :
      q.main.pc.op = some op → (q.view m).Allows op ret →
      Locking.Acts .main q.holder op.action holder →
      q.main.resume q.fresh q.junkLink ret = some main →
      Step q (.main op ret) (q.after main ((q.view m).mainCall op ret holder))
  | client {i : ℕ} {pc : Pc} {op : Op} {ret : Ret} {holder : Mutex → Option Actor} (m : Main) :
      q.thread i = some pc → pc.op = some op → op.Answers ret →
      (op = .loadActive → (ret.val ≠ 0 ↔ q.active = true)) →
      Locking.Acts (.client i) q.holder op.action holder →
      Step q (.client i op ret) (q.after q.main ((q.view m).clientCall i pc op ret holder))
  | signal : Step q .signal { q with active := false }

/-- The process at the head of the accept loop: `SLIST_INIT` was done, and no record is
allocated. -/
def start (junk : ℕ → ℤ) (junkLink : ℕ → Option ℕ) : LinkedProcess :=
  { main := ⟨.whileActive, ⟨none, fun _ => none⟩⟩, thread := fun _ => none
    complete := fun _ => false, active := true, holder := fun _ => none, fresh := 0, junk := junk
    junkLink := junkLink }

end LinkedProcess

/-! ## 3. The links and the list -/

/-- Where `main` is in memory, and where it is with a list: what a loop has still to come to are
the records its pointer leads to. -/
inductive LinkedPc.Refines (next : ℕ → Option (Option ℕ)) (clients : List ℕ) :
    LinkedPc → MainPc → Prop
  | whileActive : Refines next clients .whileActive .whileActive
  | accept : Refines next clients .accept .accept
  | acceptFailed : Refines next clients .acceptFailed .acceptFailed
  | mallocRecord {fd : ℤ} : Refines next clients (.mallocRecord fd) (.mallocRecord fd)
  | mallocFailedClose {fd : ℤ} :
      Refines next clients (.mallocFailedClose fd) (.mallocFailedClose fd)
  | create {fd : ℤ} {record : ℕ} {q : Option ℕ} : next record = some q →
      Refines next clients (.create fd record) (.create fd record)
  | createFailedClose {fd : ℤ} {record : ℕ} {q : Option ℕ} : next record = some q →
      Refines next clients (.createFailedClose fd record) (.createFailedClose fd record)
  | createFailedFree {record : ℕ} {q : Option ℕ} : next record = some q →
      Refines next clients (.createFailedFree record) (.createFailedFree record)
  | sweepLock : Refines next clients .sweepLock .sweepLock
  | sweepTest {record : ℕ} {temp : Option ℕ} {rest : List ℕ} : (record :: rest) <:+ clients →
      Chain next temp rest → Refines next clients (.sweepTest record temp) (.sweepTest record rest)
  | sweepJoin {record : ℕ} {temp : Option ℕ} {rest : List ℕ} : (record :: rest) <:+ clients →
      Chain next temp rest → Refines next clients (.sweepJoin record temp) (.sweepJoin record rest)
  | sweepFree {record : ℕ} {temp q : Option ℕ} {rest : List ℕ} : rest <:+ clients →
      Chain next temp rest → next record = some q →
      Refines next clients (.sweepFree record temp) (.sweepFree record rest)
  | sweepUnlock : Refines next clients .sweepUnlock .sweepUnlock
  | cleanupLock : Refines next clients .cleanupLock .cleanupLock
  | cleanupJoin {record : ℕ} {rest : List ℕ} : clients = record :: rest →
      Refines next clients (.cleanupJoin record) (.cleanupJoin record)
  | cleanupFree {record : ℕ} {q : Option ℕ} : next record = some q →
      Refines next clients (.cleanupFree record) (.cleanupFree record)
  | cleanupUnlock : Refines next clients .cleanupUnlock .cleanupUnlock
  | finished : Refines next clients .finished .finished

/-- The links from `head` on are the list. -/
structure LinkedMain.Refines (l : LinkedMain) (m : Main) : Prop where
  list : Chain l.list.next l.list.first m.clients
  pc : LinkedPc.Refines l.list.next m.clients l.pc m.pc

namespace LinkedMain

variable {l : LinkedMain} {m : Main} {ret : Ret}

/-- Both are about to make the same call. -/
theorem Refines.op (h : l.Refines m) : l.pc.op = m.pc.op := by
  obtain ⟨pc, list⟩ := l
  obtain ⟨mpc, clients⟩ := m
  have hpc := h.pc
  dsimp only at hpc
  cases hpc <;> rfl

theorem access_eq {record : ℕ} {q : Option ℕ} (hq : l.list.next record = some q)
    (k : Option LinkedMain) : l.access record k = k := by
  rw [access, hq]
  exact if_pos rfl

/-- The sweep comes to the next record, or to its end. -/
theorem foreach_refines {var : Option ℕ} {clients rest : List ℕ}
    (hlist : Chain l.list.next l.list.first clients) (hvar : Chain l.list.next var rest)
    (hrest : rest <:+ clients) :
    ∃ l', l.foreach var = some l' ∧ l'.Refines ⟨.sweep rest, clients⟩ := by
  cases hvar with
  | nil => exact ⟨{ l with pc := .sweepUnlock }, rfl, hlist, LinkedPc.Refines.sweepUnlock⟩
  | @cons record q rest hq hnext =>
    refine ⟨{ l with pc := .sweepTest record q }, ?_, hlist,
      LinkedPc.Refines.sweepTest hrest hnext⟩
    rw [foreach, Links.foreachSafe_cons hq, Option.map_some]

/-- The cleanup comes to the head of the list, or to its end. -/
theorem whileNonempty_refines {clients : List ℕ}
    (hlist : Chain l.list.next l.list.first clients) :
    l.whileNonempty.Refines ⟨.cleanup clients, clients⟩ := by
  unfold whileNonempty
  cases clients with
  | nil =>
    have hfirst : l.list.first = none := by
      cases hp : l.list.first with
      | none => rfl
      | some p =>
        rw [hp] at hlist
        cases hlist
    rw [hfirst]
    exact ⟨hlist, LinkedPc.Refines.cleanupUnlock⟩
  | cons record rest =>
    rw [hlist.head.1]
    exact ⟨hlist, LinkedPc.Refines.cleanupJoin rfl⟩

end LinkedMain

namespace Process

variable {p : Process}

/-- The list has no more records than were allocated. -/
theorem Books.length_le (h : p.Books) : p.main.clients.length ≤ p.fresh := by
  have hsub : p.main.clients ⊆ List.range p.fresh :=
    fun i hi => List.mem_range.mpr (h.lt_fresh (h.listed i hi))
  have hle := (List.subperm_of_subset h.known.nodup hsub).length_le
  rwa [List.length_range] at hle

/-- The next record to be allocated is not on the list. -/
theorem Books.fresh_notMem (h : p.Books) : p.fresh ∉ p.main.clients :=
  fun hmem => absurd (h.lt_fresh (h.listed _ hmem)) (lt_irrefl _)

/-- A record without a thread is not on the list. -/
theorem Books.new_notMem (h : p.Books) {record : ℕ} (hnew : p.main.pc.newRecord = some record) :
    record ∉ p.main.clients :=
  fun hmem => h.listed record hmem (h.known.new record hnew).2

/-- A record that was joined is not on the list. -/
theorem Books.freeing_notMem (h : p.Books) {record : ℕ}
    (hfreeing : p.main.pc.freeing = some record) : record ∉ p.main.clients :=
  (h.known.freeing record hfreeing).1

end Process

/-- **Every call of `main` finds what it touches allocated**, and does to the links what it does to
the list. -/
theorem LinkedMain.Refines.resume {p : Process} {l : LinkedMain} {op : MainOp} {ret : Ret}
    (h : l.Refines p.main) (hb : p.Books) (hop : p.main.pc.op = some op) (hallows : p.Allows op ret)
    (junk : ℕ → Option ℕ) :
    ∃ l', l.resume p.fresh junk ret = some l' ∧ l'.Refines (p.main.resume ret) := by
  have hlen := hb.length_le
  have hfresh := hb.fresh_notMem
  have hnew : ∀ record, p.main.pc.newRecord = some record → record ∉ p.main.clients :=
    fun _ => hb.new_notMem
  have hfreeing : ∀ record, p.main.pc.freeing = some record → record ∉ p.main.clients :=
    fun _ => hb.freeing_notMem
  obtain ⟨hlist, hpc⟩ := h
  generalize p.main = m at hlist hpc hop hlen hfresh hnew hfreeing
  obtain ⟨mpc, clients⟩ := m
  obtain ⟨pc, list⟩ := l
  dsimp only at hlist hpc hlen hfresh hnew hfreeing
  unfold LinkedMain.resume Main.resume
  cases hpc with
  | whileActive =>
    refine ⟨_, rfl, hlist, ?_⟩
    dsimp only
    split
    · exact LinkedPc.Refines.accept
    · exact LinkedPc.Refines.cleanupLock
  | accept =>
    refine ⟨_, rfl, hlist, ?_⟩
    dsimp only
    split
    · exact LinkedPc.Refines.acceptFailed
    · exact LinkedPc.Refines.mallocRecord
  | acceptFailed =>
    refine ⟨_, rfl, hlist, ?_⟩
    dsimp only
    split
    · exact LinkedPc.Refines.cleanupLock
    · exact LinkedPc.Refines.whileActive
  | mallocRecord =>
    dsimp only
    cases hp : ret.ptr with
    | none => exact ⟨_, rfl, hlist, LinkedPc.Refines.mallocFailedClose⟩
    | some record =>
      obtain rfl := Option.some.inj hop
      obtain rfl := Process.fresh_of_allows hallows hp
      exact ⟨_, rfl, hlist.update hfresh _,
        LinkedPc.Refines.create (Function.update_self _ _ _)⟩
  | mallocFailedClose => exact ⟨_, rfl, hlist, LinkedPc.Refines.whileActive⟩
  | @create fd record q hq =>
    dsimp only
    rw [LinkedMain.access_eq hq]
    by_cases hval : ret.val ≠ 0
    · rw [if_pos hval, if_pos hval]
      exact ⟨_, rfl, hlist, LinkedPc.Refines.createFailedClose hq⟩
    · rw [if_neg hval, if_neg hval]
      obtain ⟨list', hinsert, hlist', -⟩ := Links.insertHead_chain hlist hq (hnew record rfl)
      rw [hinsert, Option.map_some]
      exact ⟨_, rfl, hlist', LinkedPc.Refines.sweepLock⟩
  | createFailedClose hq => exact ⟨_, rfl, hlist, LinkedPc.Refines.createFailedFree hq⟩
  | @createFailedFree record q hq =>
    dsimp only
    rw [LinkedMain.access_eq hq]
    exact ⟨_, rfl, hlist.update (hnew record rfl) _, LinkedPc.Refines.whileActive⟩
  | sweepLock => exact LinkedMain.foreach_refines hlist hlist (List.suffix_refl clients)
  | @sweepTest record temp rest hsuffix hnext =>
    obtain ⟨q, hq⟩ := hlist.alive (hsuffix.subset List.mem_cons_self)
    dsimp only
    rw [LinkedMain.access_eq hq]
    by_cases hval : ret.val = 1
    · rw [if_pos hval, if_pos hval]
      exact ⟨_, rfl, hlist, LinkedPc.Refines.sweepJoin hsuffix hnext⟩
    · rw [if_neg hval, if_neg hval]
      exact LinkedMain.foreach_refines hlist hnext ((List.suffix_cons record rest).trans hsuffix)
  | @sweepJoin record temp rest hsuffix hnext =>
    obtain ⟨q, hq⟩ := hlist.alive (hsuffix.subset List.mem_cons_self)
    dsimp only
    rw [LinkedMain.access_eq hq]
    obtain ⟨pre, rfl⟩ := hsuffix
    have hnd := hlist.nodup
    have hpre : pre.length ≤ p.fresh := by
      rw [List.length_append] at hlen
      omega
    obtain ⟨list', hremove, hlist', hframe⟩ := Links.remove_chain hlist hpre
    rw [hremove, Option.map_some]
    -- the elements behind the one removed, and itself, keep their links
    have hdisjoint : ∀ i ∈ record :: rest, i ∉ pre :=
      fun i hi hpre => (List.nodup_append.mp hnd).2.2 i hpre i hi rfl
    have herase : (pre ++ record :: rest).erase record = pre ++ rest := by
      rw [List.erase_append_right _ (hdisjoint record List.mem_cons_self), List.erase_cons_head]
    refine ⟨_, rfl, ?_, ?_⟩
    · rw [herase]
      exact hlist'
    · rw [herase]
      refine LinkedPc.Refines.sweepFree (q := q) (List.suffix_append pre rest) ?_ ?_
      · exact hnext.congr fun i hi => hframe i (hdisjoint i (List.mem_cons_of_mem record hi))
      · rw [← hq]
        exact hframe record (hdisjoint record List.mem_cons_self)
  | @sweepFree record temp q rest hsuffix hnext hq =>
    dsimp only
    rw [LinkedMain.access_eq hq]
    have hnot := hfreeing record rfl
    exact LinkedMain.foreach_refines (l := ⟨_, list.free record⟩) (hlist.update hnot _)
      (hnext.update (fun hmem => hnot (hsuffix.subset hmem)) _) hsuffix
  | sweepUnlock => exact ⟨_, rfl, hlist, LinkedPc.Refines.whileActive⟩
  | cleanupLock => exact ⟨_, rfl, LinkedMain.whileNonempty_refines hlist⟩
  | @cleanupJoin record rest heq =>
    subst heq
    obtain ⟨q, hq⟩ := hlist.alive List.mem_cons_self
    dsimp only
    rw [LinkedMain.access_eq hq]
    obtain ⟨list', hremove, hlist', hframe⟩ := Links.removeHead_chain hlist
    rw [hremove, Option.map_some]
    refine ⟨_, rfl, hlist', LinkedPc.Refines.cleanupFree (q := q) ?_⟩
    rw [hframe]
    exact hq
  | @cleanupFree record q hq =>
    dsimp only
    rw [LinkedMain.access_eq hq]
    exact ⟨_, rfl, LinkedMain.whileNonempty_refines (l := ⟨_, list.free record⟩)
      (hlist.update (hfreeing record rfl) _)⟩
  | cleanupUnlock => exact ⟨_, rfl, hlist, LinkedPc.Refines.finished⟩
  | finished => cases hop

/-! ## 4. What is allocated -/

/-- Whether a record is allocated. -/
def Life.inMemory : Life → Bool
  | allocated | running | joined => true
  | unborn | freed | discarded => false

/-- Whether a record is allocated after it was put to a use. -/
def Use.inMemory (before : Bool) : Option Use → Bool
  | some .allocate => true
  | some .free => false
  | _ => before

theorem Life.inMemory_act {i : ℕ} {s t : Life} {a : Act} (h : Life.act i s a = some t) :
    t.inMemory = Use.inMemory s.inMemory (a.use i) := by
  cases hu : a.use i with
  | none =>
    rw [Life.act_of_none hu] at h
    obtain rfl := Option.some.inj h
    rfl
  | some u =>
    rw [Life.act_of_some hu] at h
    cases s <;> cases u <;> cases h <;> rfl

namespace LinkedMain

variable {l l' : LinkedMain}

theorem of_access {record : ℕ} {k : Option LinkedMain} (h : l.access record k = some l') :
    k = some l' := by
  unfold access at h
  split at h
  · exact h
  · cases h

theorem foreach_list {var : Option ℕ} (h : l.foreach var = some l') : l'.list = l.list := by
  obtain ⟨r, -, h⟩ := Option.map_eq_some_iff.mp h
  rcases r with _ | ⟨record, temp⟩
  · obtain rfl := h
    rfl
  · obtain rfl := h
    rfl

theorem whileNonempty_list : l.whileNonempty.list = l.list := by
  unfold whileNonempty
  split <;> rfl

/-- A call of `main` allocates and releases what it says. -/
theorem resume_inMemory {op : MainOp} {ret : Ret} {fuel : ℕ} {junk : ℕ → Option ℕ}
    (hop : l.pc.op = some op) (h : l.resume fuel junk ret = some l') (i : ℕ) :
    (l'.list.next i).isSome =
      Use.inMemory (l.list.next i).isSome ((Act.main op ret).use i) := by
  obtain ⟨pc, list⟩ := l
  unfold resume at h
  cases pc with
  | mallocRecord fd =>
    obtain rfl := Option.some.inj hop
    dsimp only at h
    cases hp : ret.ptr with
    | none =>
      rw [hp] at h
      obtain rfl := Option.some.inj h
      simp [Act.use, hp, Use.inMemory]
    | some record =>
      rw [hp] at h
      obtain rfl := Option.some.inj h
      rw [Links.alloc_isSome, Act.use, hp]
      by_cases hi : record = i <;> simp [hi, Use.inMemory]
  | create fd record =>
    obtain rfl := Option.some.inj hop
    have h := of_access h
    have huse : Use.inMemory (list.next i).isSome ((Act.main (.create record) ret).use i) =
        (list.next i).isSome := by
      unfold Act.use
      dsimp only
      split_ifs <;> rfl
    rw [huse]
    split_ifs at h
    · obtain rfl := Option.some.inj h
      rfl
    · obtain ⟨list', hinsert, rfl⟩ := Option.map_eq_some_iff.mp h
      exact Links.sameMemory_insertHead hinsert i
  | createFailedFree record =>
    obtain rfl := Option.some.inj hop
    obtain rfl := Option.some.inj (of_access h)
    rw [Links.free_isSome, Act.use]
    by_cases hi : record = i <;> simp [hi, Use.inMemory]
  | sweepLock =>
    obtain rfl := Option.some.inj hop
    rw [foreach_list h]
    rfl
  | sweepTest record temp =>
    obtain rfl := Option.some.inj hop
    have h := of_access h
    have hlist : l'.list = list := by
      split_ifs at h
      · obtain rfl := Option.some.inj h
        rfl
      · exact foreach_list h
    rw [hlist, Act.use]
    split_ifs <;> rfl
  | sweepJoin record temp =>
    obtain rfl := Option.some.inj hop
    obtain ⟨list', hremove, rfl⟩ := Option.map_eq_some_iff.mp (of_access h)
    rw [Act.use, Links.sameMemory_remove hremove i]
    split_ifs <;> rfl
  | sweepFree record temp =>
    obtain rfl := Option.some.inj hop
    rw [foreach_list (of_access h), Links.free_isSome, Act.use]
    by_cases hi : record = i <;> simp [hi, Use.inMemory]
  | cleanupLock =>
    obtain rfl := Option.some.inj hop
    obtain rfl := Option.some.inj h
    rw [whileNonempty_list]
    rfl
  | cleanupJoin record =>
    obtain rfl := Option.some.inj hop
    obtain ⟨list', hremove, rfl⟩ := Option.map_eq_some_iff.mp (of_access h)
    rw [Act.use, Links.sameMemory_removeHead hremove i]
    split_ifs <;> rfl
  | cleanupFree record =>
    obtain rfl := Option.some.inj hop
    obtain rfl := Option.some.inj (of_access h)
    rw [whileNonempty_list, Links.free_isSome, Act.use]
    by_cases hi : record = i <;> simp [hi, Use.inMemory]
  | finished => cases hop
  | _ =>
    obtain rfl := Option.some.inj hop
    obtain rfl := Option.some.inj h
    rfl

end LinkedMain

/-! ## 5. The two processes -/

namespace LinkedProcess

/-- The process in memory, and the process with a list. -/
structure Refines (q : LinkedProcess) (p : Process) : Prop where
  main : q.main.Refines p.main
  /-- But for `main` they are the same. -/
  view : q.view p.main = p
  /-- The records allocated are those that were not freed. -/
  memory : ∀ i, (q.main.list.next i).isSome = (p.life i).inMemory

theorem refines_start (junk : ℕ → ℤ) (junkLink : ℕ → Option ℕ) :
    (start junk junkLink).Refines (Process.start junk) := by
  refine ⟨⟨Chain.nil, LinkedPc.Refines.whileActive⟩, rfl, ?_⟩
  intro i
  have hunborn : (Process.start junk).life i = .unborn := Process.life_unborn (Nat.zero_le i)
  rw [hunborn]
  rfl

section Step

variable {q q' : LinkedProcess} {p p' : Process} {a : Act} {op : MainOp} {ret : Ret}
  {holder : Mutex → Option Actor}

theorem allows_view (m m' : Main) : (q.view m).Allows op ret ↔ (q.view m').Allows op ret := by
  cases op <;> exact Iff.rfl

theorem after_mainCall (main : LinkedMain) (m m' : Main) :
    (q.after main ((q.view m).mainCall op ret holder)).view (m'.resume ret) =
      (q.view m').mainCall op ret holder := by
  cases op <;> rfl

/-- The same call of `main` in both. -/
theorem Refines.mainCall (h : q.Refines p) (hb : p.Books) (hop : p.main.pc.op = some op)
    (hallows : p.Allows op ret) (hlocks : Locking.Acts .main p.holder op.action holder)
    {main : LinkedMain} (hresume : q.main.resume q.fresh q.junkLink ret = some main) (m : Main) :
    (q.after main ((q.view m).mainCall op ret holder)).Refines (p.mainCall op ret holder) := by
  have hact := fun i => hb.act_main (i := i) hop hallows hlocks
  have hmemory := LinkedMain.resume_inMemory (h.main.op.trans hop) hresume
  obtain ⟨main', hresume', hrefines⟩ := h.main.resume hb hop hallows q.junkLink
  have hfresh : p.fresh = q.fresh := by rw [← h.view]; rfl
  rw [hfresh, hresume] at hresume'
  obtain rfl := Option.some.inj hresume'
  refine ⟨?_, ?_, ?_⟩
  · rw [Process.mainCall_main]
    exact hrefines
  · rw [Process.mainCall_main]
    have hafter : (q.after main ((q.view m).mainCall op ret holder)).view (p.main.resume ret) =
        (q.view p.main).mainCall op ret holder := after_mainCall main m p.main
    rwa [h.view] at hafter
  · intro i
    rw [Life.inMemory_act (hact i), ← h.memory i]
    exact hmemory i

/-- The same call of a client thread in both. -/
theorem Refines.clientCall (h : q.Refines p) (hb : p.Books) {i : ℕ} {pc : Pc} {op : Op}
    (hpc : p.thread i = some pc) (hop : pc.op = some op)
    (hlocks : Locking.Acts (.client i) p.holder op.action holder) (m : Main) :
    (q.after q.main ((q.view m).clientCall i pc op ret holder)).Refines
      (p.clientCall i pc op ret holder) := by
  refine ⟨h.main, ?_, ?_⟩
  · rw [← h.view]
    rfl
  · intro j
    have hact : Life.act j (p.life j) (.client i op ret) =
        some ((p.clientCall i pc op ret holder).life j) := hb.act_client hpc hop hlocks
    have huse : Use.inMemory (p.life j).inMemory ((Act.client i op ret).use j) =
        (p.life j).inMemory := by
      unfold Act.use
      dsimp only
      split_ifs <;> rfl
    rw [Life.inMemory_act hact, huse]
    exact h.memory j

/-- The process with a list follows every step of the process in memory. -/
theorem Refines.step (h : q.Refines p) (hb : p.Books) (hs : q.Step a q') :
    ∃ p', p.Step a p' ∧ q'.Refines p' := by
  have hview := h.view
  cases hs with
  | @main op ret holder main m hop hallows hlocks hresume =>
    have hallows' : p.Allows op ret := by
      rw [← hview]
      exact (allows_view m p.main).mp hallows
    have hlocks' : Locking.Acts .main p.holder op.action holder := by
      rw [← hview]
      exact hlocks
    have hop' := h.main.op.symm.trans hop
    exact ⟨_, Process.Step.main hop' hallows' hlocks',
      h.mainCall hb hop' hallows' hlocks' hresume m⟩
  | @client i pc op ret holder m hpc hop hans hactive hlocks =>
    have hpc' : p.thread i = some pc := by
      rw [← hview]
      exact hpc
    have hactive' : op = .loadActive → (ret.val ≠ 0 ↔ p.active = true) := by
      rw [← hview]
      exact hactive
    have hlocks' : Locking.Acts (.client i) p.holder op.action holder := by
      rw [← hview]
      exact hlocks
    exact ⟨_, Process.Step.client hpc' hop hans hactive' hlocks',
      h.clientCall hb hpc' hop hlocks' m⟩
  | signal =>
    refine ⟨_, Process.Step.signal, h.main, ?_, h.memory⟩
    rw [← hview]
    rfl

/-- The process in memory follows every step of the process with a list: `main` never stops at a
pointer. -/
theorem Refines.step_back (h : q.Refines p) (hb : p.Books) (hs : p.Step a p') :
    ∃ q', q.Step a q' ∧ q'.Refines p' := by
  have hview := h.view
  cases hs with
  | @main op ret holder hop hallows hlocks =>
    obtain ⟨main, hresume, -⟩ := h.main.resume hb hop hallows q.junkLink
    have hfresh : p.fresh = q.fresh := by rw [← hview]; rfl
    rw [hfresh] at hresume
    have hallows' : (q.view p.main).Allows op ret := by rwa [hview]
    have hlocks' : Locking.Acts .main q.holder op.action holder := by
      rw [← hview] at hlocks
      exact hlocks
    exact ⟨_, Step.main p.main (h.main.op.trans hop) hallows' hlocks' hresume,
      h.mainCall hb hop hallows hlocks hresume p.main⟩
  | @client i pc op ret holder hpc hop hans hactive hlocks =>
    have hpc' : q.thread i = some pc := by
      rw [← hview] at hpc
      exact hpc
    have hactive' : op = .loadActive → (ret.val ≠ 0 ↔ q.active = true) := by
      rw [← hview] at hactive
      exact hactive
    have hlocks' : Locking.Acts (.client i) q.holder op.action holder := by
      rw [← hview] at hlocks
      exact hlocks
    exact ⟨_, Step.client p.main hpc' hop hans hactive' hlocks',
      h.clientCall hb hpc hop hlocks p.main⟩
  | signal =>
    refine ⟨_, Step.signal, h.main, ?_, h.memory⟩
    rw [← hview]
    rfl

end Step

/-! ## 6. Whole runs -/

/-- **What `main` and the client threads touch is allocated**, and in the end nothing is. -/
structure Safe (q : LinkedProcess) : Prop where
  /-- Whatever the system answers to the next call of `main`, `main` follows no pointer to what is
  not allocated. -/
  main : ∀ m op ret, q.main.pc.op = some op → (q.view m).Allows op ret →
    ∃ main, q.main.resume q.fresh q.junkLink ret = some main
  /-- The record of a thread that has not ended is allocated. -/
  client : ∀ i pc, q.thread i = some pc → pc ≠ .exited → ∃ link, q.main.list.next i = some link
  ended : q.main.pc = .finished → ∀ i, q.main.list.next i = none

theorem Refines.safe {q : LinkedProcess} {p : Process} (h : q.Refines p) (hb : p.Books) :
    q.Safe := by
  have hview := h.view
  refine ⟨?_, ?_, ?_⟩
  · intro m op ret hop hallows
    have hallows' : p.Allows op ret := by
      rw [← hview]
      exact (allows_view m p.main).mp hallows
    obtain ⟨main, hresume, -⟩ :=
      h.main.resume hb (h.main.op.symm.trans hop) hallows' q.junkLink
    have hfresh : p.fresh = q.fresh := by rw [← hview]; rfl
    rw [hfresh] at hresume
    exact ⟨main, hresume⟩
  · intro i pc hpc hrunning
    have hpc' : p.thread i = some pc := by
      rw [← hview]
      exact hpc
    have hmem := (hb.known.ended i pc hpc').resolve_right hrunning
    have halloc := h.memory i
    rw [hb.running hmem] at halloc
    exact Option.isSome_iff_exists.mp halloc
  · intro hpc i
    have hfinished : p.main.pc = .finished := by
      have hrefines := h.main.pc
      rw [hpc] at hrefines
      generalize p.main.pc = mpc at hrefines
      cases hrefines with
      | finished => rfl
    have hdone := (Process.done_of_empty (hb.hand.known_of_ended (Or.inr hfinished)) i).2
    have halloc := h.memory i
    have hnot : (p.life i).inMemory = false := by
      generalize p.life i = s at hdone
      cases s with
      | allocated | running | joined => cases hdone
      | unborn | freed | discarded => rfl
    rw [hnot] at halloc
    exact Option.not_isSome_iff_eq_none.mp (by rw [halloc]; exact Bool.false_ne_true)

/-- **The list in memory is the list.**  Whatever the calls answer and however the steps of `main`
and of the client threads are interleaved, `main` follows no `NULL` and no pointer to a freed
record, a running thread has its record, and at the end every record is freed; and the process has
the same runs, call by call, as the one whose `main` has a list in place of the links. -/
theorem linked_list {junk : ℕ → ℤ} {junkLink : ℕ → Option ℕ} :
    (∀ {h : List (LinkedProcess × Act)} {q : LinkedProcess}, Run Step (start junk junkLink) h q →
      q.Safe ∧ ∃ h' p, Run Process.Step (Process.start junk) h' p ∧
        h'.map Prod.snd = h.map Prod.snd ∧ q.Refines p) ∧
    ∀ {h' : List (Process × Act)} {p : Process}, Run Process.Step (Process.start junk) h' p →
      ∃ h q, Run Step (start junk junkLink) h q ∧
        h.map Prod.snd = h'.map Prod.snd ∧ q.Refines p := by
  constructor
  · intro h q hr
    obtain ⟨h', p, hr', hevents, hrefines⟩ := hr.simulate (R := Refines)
      (refines_start junk junkLink)
      fun _ hr' hrefines hs => hrefines.step (Process.books_run hr') hs
    exact ⟨hrefines.safe (Process.books_run hr'), h', p, hr', hevents, hrefines⟩
  · intro h' p hr'
    exact hr'.simulate (R := fun p q => Refines q p) (refines_start junk junkLink)
      fun hr' _ hrefines hs => hrefines.step_back (Process.books_run hr') hs

/-- A run to the end of `main` in which records are freed in the loop and in the cleanup. -/
theorem linked_list_shutdown : ∃ h q, Run Step (start (fun _ => 0) fun _ => none) h q ∧
    q.main.pc = .finished ∧ q.fresh = 2 ∧ ∀ i, q.main.list.next i = none := by
  have hr := Run.of_played Process.step_of_next (Process.start fun _ => 0)
    (Process.acceptChoices ++ Process.refusedChoices ++ Process.inFlightChoices ++
      Process.endChoices ++ Process.cleanupChoices ++ Process.joinChoices) (by decide +kernel)
  obtain ⟨h, q, hrun, -, hrefines⟩ :=
    (@linked_list (fun _ => 0) fun _ => none).2 hr
  have hpc : q.main.pc = .finished := by
    have hrefines' := hrefines.main.pc
    generalize hmain : (played Process.next _ _).2.main = m at hrefines'
    have hfinished : m.pc = .finished := by
      rw [← hmain]
      decide +kernel
    rw [hfinished] at hrefines'
    generalize q.main.pc = pc at hrefines' ⊢
    cases hrefines' with
    | finished => rfl
  have hfresh : q.fresh = 2 := by
    have hview := congrArg Process.fresh hrefines.view
    exact hview.trans (by decide +kernel)
  exact ⟨h, q, hrun, hpc, hfresh, (linked_list.1 hrun).1.ended hpc⟩

end LinkedProcess

end Aesd.Server
