/-
# How the shutdown ends

Once `active` is cleared no thread starts another `recv`, and `main` accepts at most one more
client.  What is left to do is bounded (`DeviceServer.budget`): the calls of `main`, the calls of
each thread, and for each response a `read` and some `send`s for what is in the ring, which grows by
at most what the threads have still to write.  A `send` that takes nothing does not count.

So the shutdown comes to rest, in one of two ways: everything has ended, or `main` joins under
`list_mutex` a thread that waits for `list_mutex`.  Which of the two is settled when `main` enters
the cleanup (`DeviceServer.shutdown_ends`).
-/
import Aesd.Server.Bookkeeping
import Aesd.Server.DeviceResponse
import Mathlib.Algebra.Order.BigOperators.Group.Finset
import Mathlib.Data.List.Flatten

namespace Aesd.Server

open Aesd.Driver Transition Locking MachineInt

/-! ## 1. What is left of a thread -/

/-- The bytes a thread may still add to the ring. -/
def Pc.owed : Pc → ℕ
  | recvCall r => r.content.length + 2 ^ 64
  | writeLock r => r.packetLength
  | writeCall r => r.packetLength - r.bytesWritten
  | _ => 0

/-- The calls left to a thread, `send`s that take nothing aside, if the ring has at most `stock`
bytes and there are `unread` from the position of its file on. -/
def Pc.left (stock unread : ℕ) : Pc → ℕ
  | recvCall _ => 4 * stock + 16
  | openFile _ | seekLock _ _ | writeLock _ => 4 * stock + 15
  | recvMalloc _ | seekIoctl _ _ | writeCall _ | realloc _ => 4 * stock + 14
  | whileActive _ | seekUnlock _ | writeUnlock _ => 4 * stock + 13
  | seekFailUnlock _ | writeFailUnlock _ | lseek _ => 4 * stock + 12
  | recvFree _ _ => 4 * stock + 11
  | sendMalloc => 4 * stock + 10
  | sendLock _ => 4 * stock + 9
  | readCall _ => 4 * unread + 8
  | sendCall _ chunk totalSent => 4 * unread + 2 * (chunk.length - totalSent) + 9
  | sendUnlock _ _ | sendFailFree _ => 7
  | sendFree _ _ | sendFailUnlock => 6
  | closeFile => 5
  | closeClient => 4
  | lockList => 3
  | setComplete => 2
  | unlockList => 1
  | exited => 0

theorem Pc.left_mono {pc : Pc} {stock stock' unread unread' : ℕ} (hstock : stock' ≤ stock)
    (hunread : pc.reading = true → unread' ≤ unread) :
    pc.left stock' unread' ≤ pc.left stock unread := by
  cases pc with
  | readCall | sendCall =>
    have hle := hunread rfl
    simp only [Pc.left]
    omega
  | _ =>
    simp only [Pc.left]
    omega

/-- A call that brings the shutdown nearer its end. -/
def Act.busy : Act → Bool
  | .client _ (.send _ _) ret => ret.val ≠ 0
  | .signal => false
  | _ => true

/-- A packet is no longer than what was received. -/
theorem Receiving.packetLength_le {r r' : Receiving} {ret : Ret}
    (h : r.received ret = .writeLock r') :
    r'.packetLength ≤ r.content.length + ret.data.length := by
  unfold Receiving.received at h
  dsimp only at h
  split at h
  · rename_i pos hpos
    split at h
    · cases h
    · obtain rfl := Pc.writeLock.inj h
      have hle := length_packet_le hpos
      rw [List.length_append, List.length_take] at hle
      show pos + 1 ≤ _
      omega
  · split at h <;> cases h

namespace DeviceServer

/-- The bytes from the position of client `i`'s file on. -/
def unread (s : DriverState) (i : ℕ) : ℕ := s.content.length - (s.fPos i).toNat

end DeviceServer

/-- A `write` adds at most its bytes. -/
theorem content_length_le {s t : DriverState} {data : List UInt8}
    (h : t.stored = if newline ∈ data then
      (s.stored ++ [data]).rtake maxWriteOperationsSupported else s.stored) :
    t.content.length ≤ s.content.length + data.length := by
  split at h
  · have hsub : t.content.length ≤ (s.stored ++ [data]).flatten.length := by
      rw [DriverState.content, h]
      exact (List.drop_sublist _ _).flatten.length_le
    rwa [List.flatten_append, List.length_append, List.flatten_singleton] at hsub
  · rw [DriverState.content, h]
    exact Nat.le_add_right _ _

section OwnCall

variable {s t : DriverState} {i : ℕ} {pc : Pc} {op : Op} {ret : Ret} {leaked : List (ℕ × ℕ)}
  (hi : Inv s leaked) (hp : s.pending = []) (hrep : Replies i s (op, ret) t)
  (hop : pc.op = some op) (hans : op.Answers ret) (hoff : op = .loadActive → ret.val = 0)
include hi hp hrep hop hans hoff

/-- A call adds to the ring no more than its thread still owes it. -/
theorem Pc.owed_resume :
    t.content.length + (pc.resume ret).owed ≤ s.content.length + pc.owed := by
  have hkeep : (∀ buf data, op ≠ .write buf data) → t.content = s.content := fun hno =>
    congrArg List.flatten (hrep.of_not_write hi hno).1
  have hgoes := Pc.goes_resume hop ret
  generalize hpc' : pc.resume ret = pc' at hgoes ⊢
  cases hgoes with
  | active hne => exact absurd (hoff rfl) hne
  | inactive _ hf | ended _ hf | seekUnlocked hf | writeUnlocked hf =>
    rw [hkeep fun _ _ heq => by cases heq]
    cases hf <;> exact Nat.add_le_add_left (Nat.zero_le _) _
  | @received r _ _ hpos ht =>
    rw [hkeep fun _ _ heq => by cases heq]
    cases ht with
    | packet r' pos =>
      rw [Pc.resume, if_pos hpos] at hpc'
      have hle := r.packetLength_le hpc'
      have hlen : ret.data.length ≤ 2 ^ 64 := by
        rcases hans with ⟨-, hnil⟩ | ⟨-, hlen⟩
        · rw [hnil]
          exact Nat.zero_le _
        · exact le_trans hlen (wrapU_lt 64 _).le
      simp only [Pc.owed]
      omega
    | _ => exact Nat.add_le_add_left (Nat.zero_le _) _
  | writeLocked hw =>
    rw [hkeep fun _ _ heq => by cases heq]
    cases hw with
    | more => exact Nat.add_le_add_left (Nat.sub_le _ _) _
    | done => exact Nat.add_le_add_left (Nat.zero_le _) _
  | @writeFailed r _ hval =>
    rcases hrep.write hi hp with ⟨hlen, -⟩ | ⟨-, hstored, -⟩
    · omega
    · have hcontent : t.content = s.content := congrArg List.flatten hstored
      rw [hcontent]
      exact Nat.add_le_add_left (Nat.zero_le _) _
  | @wrote r _ _ hne hw =>
    rcases hrep.write hi hp with ⟨hval, hstored, -⟩ | ⟨hval, -⟩
    · have hle := content_length_le hstored
      have hlen := List.length_take_le (r.packetLength - r.bytesWritten)
        (r.content.drop r.bytesWritten)
      cases hw with
      | more hlt =>
        simp only [Pc.owed] at hlt ⊢
        omega
      | done hdone =>
        simp only [Pc.owed]
        omega
    · exact absurd hval hne
  | _ =>
    rw [hkeep fun _ _ heq => by cases heq]
    exact Nat.add_le_add_left (Nat.zero_le _) _

omit hp in
/-- **A call brings its thread nearer its end.** -/
theorem Pc.left_resume {stock : ℕ} (hstock : s.content.length ≤ stock)
    (hpos : pc.reading = true → 0 ≤ s.fPos i)
    (honce : ∀ r r', pc = .writeCall r → pc.resume ret ≠ .writeCall r') :
    (pc.resume ret).left stock (DeviceServer.unread t i) + (Act.client i op ret).busy.toNat ≤
      pc.left stock (DeviceServer.unread s i) := by
  have hbusy : (Act.client i op ret).busy.toNat ≤ 1 := Bool.toNat_le _
  have hgoes := Pc.goes_resume hop ret
  generalize pc.resume ret = pc' at hgoes honce ⊢
  cases hgoes with
  | active hne => exact absurd (hoff rfl) hne
  | inactive _ hf | ended _ hf | seekUnlocked hf | writeUnlocked hf =>
    cases hf <;> simp only [Pc.left] <;> omega
  | received _ ht =>
    cases ht <;> simp only [Pc.left] <;> omega
  | writeLocked hw =>
    cases hw <;> simp only [Pc.left] <;> omega
  | @wrote r _ _ hne hw =>
    cases hw with
    | more => exact absurd rfl (honce r _ rfl)
    | done =>
      simp only [Pc.left]
      omega
  | sendLocked =>
    have hle : DeviceServer.unread t i ≤ stock := by
      rw [hrep.eq_of_off rfl]
      exact le_trans (Nat.sub_le _ _) hstock
    simp only [Pc.left]
    omega
  | readChunk hval =>
    obtain ⟨hlen, -, hdata, -⟩ := (hrep.device (by omega)).read hi (hpos rfl) (by decide)
    have hcontent : t.content = s.content :=
      congrArg List.flatten (hrep.of_not_write hi fun _ _ heq => by cases heq).1
    -- what was read is unread no more
    have hunread : ret.data.length + DeviceServer.unread t i = DeviceServer.unread s i := by
      rw [DeviceServer.unread, DeviceServer.unread, hcontent, ← List.length_drop,
        ← List.length_drop, ← List.length_append, hdata]
    simp only [Pc.left]
    omega
  | @sentPart buf chunk totalSent _ hne hlt =>
    have hge : 0 ≤ ret.val := (hans.resolve_left hne).1
    rw [hrep.eq_of_off rfl]
    by_cases hzero : ret.val = 0
    · have hidle : (Act.client i (.send buf (chunk.drop totalSent)) ret).busy = false :=
        decide_eq_false (not_not.mpr hzero)
      rw [hidle, hzero]
      exact le_refl _
    · simp only [Pc.left]
      omega
  | sentChunk hne hdone =>
    rw [hrep.eq_of_off rfl]
    simp only [Pc.left]
    omega
  | _ =>
    simp only [Pc.left]
    omega

end OwnCall

/-! ## 2. What is left of `main` -/

/-- The calls left to `main`, and to the thread it may still create. -/
def Main.left (stock : ℕ) (m : Main) : ℕ :=
  match m.pc with
  | .accept => 5 * m.clients.length + 4 * stock + 28
  | .mallocRecord _ => 5 * m.clients.length + 4 * stock + 27
  | .create _ _ => 5 * m.clients.length + 4 * stock + 26
  | .sweepLock => 5 * m.clients.length + 5
  | .sweepTest _ rest => 3 * rest.length + 2 * m.clients.length + 7
  | .sweepJoin _ rest => 3 * rest.length + 2 * m.clients.length + 6
  | .sweepFree _ rest => 3 * rest.length + 2 * m.clients.length + 5
  | .createFailedClose _ _ => 2 * m.clients.length + 5
  | .createFailedFree _ | .mallocFailedClose _ | .sweepUnlock => 2 * m.clients.length + 4
  | .whileActive | .acceptFailed => 2 * m.clients.length + 3
  | .cleanupLock | .cleanupFree _ => 2 * m.clients.length + 2
  | .cleanupJoin _ => 2 * (m.clients.length - 1) + 3
  | .cleanupUnlock => 1
  | .finished => 0

theorem Main.left_mono {m : Main} {stock stock' : ℕ} (h : stock' ≤ stock) :
    m.left stock' ≤ m.left stock := by
  obtain ⟨pc, clients⟩ := m
  cases pc <;> simp only [Main.left] <;> omega

theorem Main.left_sweep (stock : ℕ) (rest clients : List ℕ) :
    Main.left stock ⟨.sweep rest, clients⟩ ≤ 3 * rest.length + 2 * clients.length + 4 := by
  cases rest with
  | nil =>
    simp only [MainPc.sweep, Main.left, List.length_nil]
    omega
  | cons record rest =>
    simp only [MainPc.sweep, Main.left, List.length_cons]
    omega

theorem Main.left_cleanup (stock : ℕ) (clients : List ℕ) :
    Main.left stock ⟨.cleanup clients, clients⟩ ≤ 2 * clients.length + 1 := by
  cases clients with
  | nil =>
    simp only [MainPc.cleanup, Main.left]
    omega
  | cons record clients =>
    simp only [MainPc.cleanup, Main.left, List.length_cons]
    omega

/-- The call creates a thread. -/
def MainOp.creates (ret : Ret) : MainOp → Bool
  | create _ => ret.val = 0
  | _ => false

/-- **A call brings `main` nearer its end**, and a thread it creates is paid for. -/
theorem Main.left_resume {m : Main} {op : MainOp} {ret : Ret} (hop : m.pc.op = some op)
    (hoff : op = .loadActive → ret.val = 0) (stock : ℕ) :
    (m.resume ret).left stock + (if op.creates ret then 4 * stock + 15 else 0) + 1 ≤
      m.left stock := by
  have hgoes := Main.goes_resume hop ret
  generalize m.resume ret = m' at hgoes ⊢
  cases hgoes with
  | active hne | retried hne => exact absurd (hoff rfl) hne
  | createFailed hne =>
    rw [if_neg (by simpa [MainOp.creates] using hne)]
    simp only [Main.left]
    omega
  | created hval =>
    rw [if_pos (by simpa [MainOp.creates] using hval)]
    simp only [Main.left, List.length_cons]
    omega
  | @sweepLocked clients =>
    have hle := Main.left_sweep stock clients clients
    simp only [MainOp.creates, Bool.false_eq_true, if_false, Main.left] at hle ⊢
    omega
  | @running clients rest | @sweepFreed clients rest =>
    have hle := Main.left_sweep stock rest clients
    simp only [MainOp.creates, Bool.false_eq_true, if_false, Main.left] at hle ⊢
    omega
  | @cleanupLocked clients | @cleanupFreed clients =>
    have hle := Main.left_cleanup stock clients
    simp only [MainOp.creates, Bool.false_eq_true, if_false, Main.left] at hle ⊢
    omega
  | @sweepJoined clients rest _ record =>
    have hle := (List.erase_sublist (a := record) (l := clients)).length_le
    simp only [MainOp.creates, Bool.false_eq_true, if_false, Main.left]
    omega
  | @cleanupJoined clients =>
    simp only [MainOp.creates, Bool.false_eq_true, if_false, Main.left, List.length_tail]
    omega
  | _ =>
    simp only [MainOp.creates, Bool.false_eq_true, if_false, Main.left]
    omega

/-! ## 3. What is left of all threads -/

namespace Process

variable {p : Process} {f g : ℕ → Pc → ℕ}

/-- The sum of what the threads come to. -/
def total (p : Process) (f : ℕ → Pc → ℕ) : ℕ :=
  ∑ i ∈ Finset.range p.fresh, (p.thread i).elim 0 (f i)

theorem total_mono (h : ∀ i pc, p.thread i = some pc → g i pc ≤ f i pc) :
    p.total g ≤ p.total f := by
  refine Finset.sum_le_sum fun i _ => ?_
  cases hi : p.thread i with
  | none => exact le_refl _
  | some pc => exact h i pc hi

/-- The sum but for one thread. -/
def others (p : Process) (f : ℕ → Pc → ℕ) (i : ℕ) : ℕ :=
  ∑ j ∈ (Finset.range p.fresh).erase i, (p.thread j).elim 0 (f j)

theorem total_eq {i : ℕ} (hi : i < p.fresh) :
    p.total f = (p.thread i).elim 0 (f i) + p.others f i :=
  (Finset.add_sum_erase _ (fun j => (p.thread j).elim 0 (f j)) (Finset.mem_range.mpr hi)).symm

theorem others_le {q : Process} {i : ℕ} (hfresh : q.fresh = p.fresh)
    (hthread : ∀ j, j ≠ i → q.thread j = p.thread j)
    (hle : ∀ j pc, j ≠ i → p.thread j = some pc → g j pc ≤ f j pc) :
    q.others g i ≤ p.others f i := by
  rw [others, hfresh]
  refine Finset.sum_le_sum fun j hj => ?_
  have hne := Finset.ne_of_mem_erase hj
  rw [hthread j hne]
  cases hj' : p.thread j with
  | none => exact le_refl _
  | some pc => exact hle j pc hne hj'

/-- A call of a client changes its own part of the sum. -/
theorem Inv.total_client (h : p.Inv) {i : ℕ} {pc : Pc} (hpc : p.thread i = some pc) (op : Op)
    (ret : Ret) (holder : Mutex → Option Actor)
    (hle : ∀ j pc, j ≠ i → p.thread j = some pc → g j pc ≤ f j pc) :
    (p.clientCall i pc op ret holder).total g + f i pc ≤ p.total f + g i (pc.resume ret) := by
  have hlt : i < p.fresh := by
    refine Nat.lt_of_not_le fun hge => ?_
    rw [h.fresh i hge] at hpc
    cases hpc
  have hothers : (p.clientCall i pc op ret holder).others g i ≤ p.others f i :=
    others_le rfl (fun j => clientCall_thread_of_ne) hle
  rw [total_eq (p := p.clientCall i pc op ret holder) hlt, total_eq hlt, clientCall_thread_self,
    hpc, Option.elim_some, Option.elim_some]
  omega

/-- A call of `main` adds at most a thread at its start. -/
theorem Inv.total_main (h : p.Inv) {op : MainOp} (hop : p.main.pc.op = some op) (ret : Ret)
    (holder : Mutex → Option Actor) {n : ℕ} (hn : ∀ i junk, f i (.openFile junk) ≤ n) :
    (p.mainCall op ret holder).total f ≤ p.total f + if op.creates ret then n else 0 := by
  cases op with
  | malloc =>
    refine le_trans (le_of_eq ?_) (Nat.le_add_right _ _)
    show (∑ i ∈ Finset.range (if ret.ptr.isSome then p.fresh + 1 else p.fresh),
      (p.thread i).elim 0 (f i)) = p.total f
    split
    · rw [Finset.sum_range_succ, h.fresh p.fresh (le_refl _)]
      rfl
    · rfl
  | create record =>
    by_cases hval : ret.val = 0
    · obtain ⟨hlt, hnone⟩ := h.create hop
      have hothers : (p.mainCall (.create record) ret holder).others f record ≤
          p.others f record := by
        refine others_le rfl (fun j hj => ?_) fun _ _ _ _ => le_refl _
        exact (mainCall_of_ne fun heq => hj (MainOp.create.inj heq).symm).1
      have hle := hn record (p.junk record)
      have hcreates : MainOp.creates ret (.create record) = true := decide_eq_true hval
      rw [if_pos hcreates, total_eq (p := p.mainCall (.create record) ret holder) hlt,
        total_eq hlt, mainCall_create_thread hval, hnone, Option.elim_some, Option.elim_none]
      omega
    · refine le_trans (le_of_eq ?_) (Nat.le_add_right _ _)
      show (∑ j ∈ Finset.range p.fresh, _) = ∑ j ∈ Finset.range p.fresh, _
      rw [mainCall_create_fails hval]
  | _ => exact Nat.le_add_right _ _

/-- The calls left to a process, if the ring has at most `stock` bytes and `unread i` of them are
from the position of client `i`'s file on. -/
def left (p : Process) (stock : ℕ) (unread : ℕ → ℕ) : ℕ :=
  p.main.left stock + p.total fun i pc => pc.left stock (unread i)

variable {stock stock' : ℕ} {unread unread' : ℕ → ℕ}

theorem left_mono (h : stock' ≤ stock) : p.left stock' unread ≤ p.left stock unread :=
  Nat.add_le_add (Main.left_mono h) (total_mono fun _ _ _ => Pc.left_mono h fun _ => le_refl _)

/-- A call of `main` brings the process nearer its end. -/
theorem Inv.left_main (h : p.Inv) {op : MainOp} {ret : Ret} {holder : Mutex → Option Actor}
    (hop : p.main.pc.op = some op) (hoff : op = .loadActive → ret.val = 0) :
    (p.mainCall op ret holder).left stock unread + 1 ≤ p.left stock unread := by
  have hmain := Main.left_resume hop hoff stock
  have htotal := h.total_main (f := fun i pc => pc.left stock (unread i)) hop ret holder
    (n := 4 * stock + 15) fun _ _ => le_refl _
  rw [left, left, mainCall_main]
  omega

/-- A call of a client changes what is left to it. -/
theorem Inv.left_client (h : p.Inv) {i : ℕ} {pc : Pc} (hpc : p.thread i = some pc) (op : Op)
    (ret : Ret) (holder : Mutex → Option Actor) (hstock : stock' ≤ stock)
    (hunread : ∀ j pc, j ≠ i → p.thread j = some pc → pc.reading = true →
      unread' j ≤ unread j) :
    (p.clientCall i pc op ret holder).left stock' unread' + pc.left stock (unread i) ≤
      p.left stock unread + (pc.resume ret).left stock' (unread' i) := by
  have htotal := h.total_client (f := fun j pc => pc.left stock (unread j))
    (g := fun j pc => pc.left stock' (unread' j)) hpc op ret holder
    fun j pc' hj hpc' => Pc.left_mono hstock (hunread j pc' hj hpc')
  have hmain : (p.clientCall i pc op ret holder).main.left stock' ≤ p.main.left stock :=
    Main.left_mono hstock
  rw [left, left]
  omega

end Process

/-! ## 4. What is left of the server -/

namespace DeviceServer

variable {x y : DeviceServer} {a : Act} {h : List (DeviceServer × Act)} {junk : ℕ → ℤ}
  {s₀ : DriverState}

/-- The most bytes the ring may come to hold. -/
def stock (x : DeviceServer) : ℕ := x.driver.content.length + x.process.total fun _ pc => pc.owed

/-- The calls left to the server. -/
def budget (x : DeviceServer) : ℕ := x.process.left x.stock (unread x.driver)

/-- `active` is never set again. -/
theorem Step.off (hs : x.Step a y) (hoff : x.process.active = false) :
    y.process.active = false := by
  have hp := hs.process
  generalize y.process = q at hp ⊢
  cases hp with
  | @main op ret holder => cases op <;> exact hoff
  | client => exact hoff
  | signal => rfl

/-- Whoever reads `active` reads that it is cleared. -/
theorem val_eq_zero_of_off (hoff : x.process.active = false) {ret : Ret}
    (h : ret.val ≠ 0 ↔ x.process.active = true) : ret.val = 0 := by
  by_contra hne
  cases (h.mp hne).symm.trans hoff

/-- While a client reads, its file is at a position. -/
theorem fPos_nonneg_of_reading (h0 : Reachable s₀) (hp : s₀.pending = [])
    (hr : Run Step (start junk s₀) h x) {i : ℕ} {pc : Pc} (hpc : x.process.thread i = some pc)
    (hreading : pc.reading = true) : 0 ≤ x.driver.fPos i := by
  rcases answering_run h0 hp hr i pc hpc with ⟨hno, -⟩ | ⟨h₁, v, -, -, hv⟩
  · exact absurd (hreading.symm.trans hno) (by simp)
  · cases pc with
    | readCall | sendCall => exact hv.2.1
    | _ => cases hreading

/-- **A busy step lowers what is left**, and no step raises it. -/
theorem budget_step (h0 : Reachable s₀) (hp : s₀.pending = [])
    (hr : Run Step (start junk s₀) h x) (hoff : x.process.active = false) (hs : x.Step a y) :
    y.budget + a.busy.toNat ≤ x.budget := by
  obtain ⟨leaked, hi⟩ := (reachable_run h0 hr).inv
  have hinv := inv_run hr
  have hk := packed_run h0 hp hr
  have hs' := hs
  cases hs with
  | @main a p hnot hstep =>
    cases hstep with
    | @main op ret holder hop hallows hlocks =>
      have hzero : op = .loadActive → ret.val = 0 := by
        rintro rfl
        exact val_eq_zero_of_off hoff hallows
      have howed := hinv.total_main (f := fun _ pc => pc.owed) hop ret holder (n := 0)
        fun _ _ => le_refl _
      rw [ite_self] at howed
      exact le_trans (Nat.add_le_add_right (Process.left_mono (Nat.add_le_add_left howed _)) 1)
        (hinv.left_main hop hzero)
    | client => cases hnot
    | signal => exact le_refl _
  | @client i op ret p s hstep hrep =>
    cases hstep with
    | @client _ pc _ _ holder hpc hop hans hactive hlocks =>
      have hzero : op = .loadActive → ret.val = 0 := fun hload =>
        val_eq_zero_of_off hoff (hactive hload)
      have howed := hinv.total_client (f := fun _ pc => pc.owed) (g := fun _ pc => pc.owed)
        hpc op ret holder fun _ _ _ _ => le_refl _
      have hring := Pc.owed_resume hi hk.pending hrep hop hans hzero
      have hstock : stock ⟨x.process.clientCall i pc op ret holder, s⟩ ≤ x.stock := by
        rw [stock, stock]
        dsimp only
        omega
      have hown := Pc.left_resume hi hrep hop hans hzero
        (Nat.le_add_right _ (x.process.total fun _ pc => pc.owed))
        (fPos_nonneg_of_reading h0 hp hr hpc) fun r r' hwrite => by
          subst hwrite
          exact hk.once (courses_run hr) hi hpc hop hrep
      have hunread : ∀ j pc', j ≠ i → x.process.thread j = some pc' → pc'.reading = true →
          unread s j ≤ unread x.driver j := by
        intro j pc' hj hpc' hreading
        have hnot : ∀ op' ret', Act.client i op ret ≠ .client j op' ret' := fun _ _ heq =>
          hj (Act.client.inj heq).1.symm
        have hcontent : s.content = x.driver.content :=
          congrArg List.flatten (stored_of_reading hinv hi hs' hnot hpc' hreading)
        rw [unread, unread, hcontent, hrep.fPos_of_ne hi hj]
      have hleft := hinv.left_client hpc op ret holder hstock hunread
      have hnew : (pc.resume ret).left _ (unread s i) ≤ _ :=
        Pc.left_mono hstock fun _ => le_refl _
      replace hown : (pc.resume ret).left x.stock (unread s i) + _ ≤
        pc.left x.stock (unread x.driver i) := hown
      rw [budget, budget]
      dsimp only
      omega

end DeviceServer

/-! ## 5. At rest -/

namespace Process

/-- Everything has ended. -/
structure Ended (p : Process) : Prop where
  main : p.main.pc = .finished
  threads : ∀ i pc, p.thread i = some pc → pc = .exited

/-- `main` joins under `list_mutex` a thread that waits for `list_mutex`, and so do all others that
have not ended. -/
structure Deadlocked (p : Process) : Prop where
  joins : ∃ record, p.main.pc = .cleanupJoin record ∧ p.thread record = some .lockList
  held : p.holder .list = some .main
  threads : ∀ i pc, p.thread i = some pc → pc = .exited ∨ pc = .lockList

end Process

theorem Pc.eq_exited_of_op {pc : Pc} (h : pc.op = none) : pc = .exited := by
  cases pc with
  | exited => rfl
  | _ => cases h

theorem Pc.eq_lockList_of_op {pc : Pc} (h : pc.op = some (.lock .list)) : pc = .lockList := by
  cases pc with
  | lockList => rfl
  | _ => simp [Pc.op] at h

theorem MainPc.eq_finished_of_op {pc : MainPc} (h : pc.op = none) : pc = .finished := by
  cases pc with
  | finished => rfl
  | _ => cases h

theorem MainOp.eq_lock_of_action {op : MainOp} {m : Mutex} (h : op.action = .acquire m) :
    op = .lock m := by
  cases op with
  | lock n => rw [Action.acquire.inj h]
  | _ => cases h

/-- `main` has no mutex but `list_mutex`. -/
theorem MainPc.list_of_holds {pc : MainPc} {m : Mutex} (h : pc.holds m = true) : m = .list := by
  cases m with
  | list => rfl
  | file => cases pc <;> cases h

/-- `main` acquires a mutex with none held. -/
theorem MainPc.holds_of_lock {pc : MainPc} {m n : Mutex} (h : pc.op = some (.lock m)) :
    pc.holds n = false := by
  cases pc with
  | sweepLock | cleanupLock => rfl
  | _ => simp [MainPc.op] at h

/-- What `main` joins has a thread, and `main` has the list mutex. -/
theorem Process.Inv.of_join {p : Process} (h : p.Inv) {record : ℕ}
    (hop : p.main.pc.op = some (.join record)) :
    p.main.pc.holds .list = true ∧ p.thread record ≠ none := by
  have hcreated := h.created record
  generalize p.main.pc = pc at hop hcreated ⊢
  cases pc with
  | sweepJoin | cleanupJoin =>
    obtain rfl := MainOp.join.inj (Option.some.inj hop)
    exact ⟨rfl, hcreated (List.mem_append_right _ List.mem_cons_self)⟩
  | _ => simp [MainPc.op] at hop

/-- A result any call may get once `active` is cleared. -/
def Op.refused : Op → Ret
  | loadActive => {}
  | _ => { val := -1 }

theorem Op.answers_refused (op : Op) : op.Answers op.refused := by
  cases op with
  | realloc => exact fun _ => rfl
  | recv | read => exact Or.inl ⟨rfl, rfl⟩
  | write | send => exact Or.inl rfl
  | _ => trivial

theorem Op.busy_refused (i : ℕ) (op : Op) : (Act.client i op op.refused).busy = true := by
  cases op <;> rfl

namespace DeviceServer

variable {x y : DeviceServer} {a : Act} {h : List (DeviceServer × Act)} {junk : ℕ → ℤ}
  {s₀ : DriverState}

/-- Nothing happens any more but signals. -/
def Still (x : DeviceServer) : Prop := ∀ a y, x.Step a y → a = .signal

/-- A client that does not wait for a mutex can make its call. -/
theorem exists_step_client (hoff : x.process.active = false) {i : ℕ} {pc : Pc} {op : Op}
    (hpc : x.process.thread i = some pc) (hop : pc.op = some op)
    (hfree : ∀ m, op = .lock m → x.process.holder m = none) :
    ∃ a y, x.Step a y ∧ a.busy = true := by
  obtain ⟨holder, hlocks⟩ := Acts.exists (Actor.client i) x.process.holder
    fun m hm => hfree m (Op.eq_lock_of_action hm)
  have hload : op = .loadActive → (op.refused.val ≠ 0 ↔ x.process.active = true) := by
    rintro rfl
    rw [hoff]
    simp [Op.refused]
  have hstep := Process.Step.client hpc hop op.answers_refused hload hlocks
  have hrep : ∃ s, Replies i x.driver (op, op.refused) s := by
    cases hon : op.onDevice with
    | true =>
      refine ⟨_, Replies.refused hon ?_⟩
      cases op with
      | loadActive => cases hon
      | _ => rfl
    | false => exact ⟨_, Replies.succeeds (Device.elsewhere hon)⟩
  obtain ⟨s, hrep⟩ := hrep
  exact ⟨_, _, Step.client hstep hrep, op.busy_refused i⟩

/-- `main` can make its call unless it waits for a mutex or for a thread. -/
theorem exists_step_main (hoff : x.process.active = false) {op : MainOp}
    (hop : x.process.main.pc.op = some op)
    (hfree : ∀ m, op = .lock m → x.process.holder m = none)
    (hjoin : ∀ record, op = .join record → x.process.thread record = some .exited) :
    ∃ a y, x.Step a y ∧ a.busy = true := by
  obtain ⟨holder, hlocks⟩ := Acts.exists Actor.main x.process.holder
    fun m hm => hfree m (MainOp.eq_lock_of_action hm)
  have hallows : ∃ ret, x.process.Allows op ret := by
    cases op with
    | loadActive => exact ⟨{}, by simp [Process.Allows, hoff]⟩
    | malloc => exact ⟨{}, Or.inl rfl⟩
    | loadComplete record => exact ⟨{ val := if x.process.complete record then 1 else 0 }, rfl⟩
    | join record => exact ⟨{}, hjoin record rfl⟩
    | _ => exact ⟨{}, trivial⟩
  obtain ⟨ret, hallows⟩ := hallows
  exact ⟨_, _, Step.main rfl (Process.Step.main hop hallows hlocks), rfl⟩

/-- Where no busy step can be taken everything has ended, or the server is deadlocked. -/
theorem ended_or_deadlocked (hp : x.process.Inv) (hoff : x.process.active = false)
    (hno : ∀ a y, x.Step a y → a.busy = false) : x.process.Ended ∨ x.process.Deadlocked := by
  have hblocked : ∀ {i pc op}, x.process.thread i = some pc → pc.op = some op →
      ∃ m, op = .lock m ∧ x.process.holder m ≠ none := by
    intro i pc op hpc hop
    by_contra hall
    obtain ⟨a, y, hs, hbusy⟩ := exists_step_client hoff hpc hop fun m hm =>
      not_not.mp fun hne => hall ⟨m, hm, hne⟩
    exact absurd (hbusy.symm.trans (hno a y hs)) (by simp)
  -- a client that has a mutex can go on, so only `main` has one
  have hmain : ∀ {m a}, x.process.holder m = some a → m = .list ∧ a = .main := by
    intro m a hm
    have hheld := (hp.agree m a).mp hm
    cases a with
    | main => exact ⟨MainPc.list_of_holds hheld, rfl⟩
    | client i =>
      cases hpc : x.process.thread i with
      | none =>
        rw [Process.holds_client, hpc] at hheld
        cases hheld
      | some pc =>
        rw [Process.holds_of_thread hpc] at hheld
        cases hop : pc.op with
        | none =>
          rw [Pc.eq_exited_of_op hop] at hheld
          cases hheld
        | some op =>
          obtain ⟨n, rfl, -⟩ := hblocked hpc hop
          rw [Pc.holds, Pc.held_of_lock hop] at hheld
          cases hheld
  have hclients : ∀ {i pc}, x.process.thread i = some pc →
      pc = .exited ∨ (pc = .lockList ∧ x.process.holder .list = some .main) := by
    intro i pc hpc
    cases hop : pc.op with
    | none => exact Or.inl (Pc.eq_exited_of_op hop)
    | some op =>
      obtain ⟨m, rfl, hne⟩ := hblocked hpc hop
      obtain ⟨a, ha⟩ := Option.ne_none_iff_exists'.mp hne
      obtain ⟨rfl, rfl⟩ := hmain ha
      exact Or.inr ⟨Pc.eq_lockList_of_op hop, ha⟩
  cases hop : x.process.main.pc.op with
  | none =>
    have hpc := MainPc.eq_finished_of_op hop
    refine Or.inl ⟨hpc, fun i pc hi => (hclients hi).resolve_right fun hlock => ?_⟩
    have hheld : x.process.main.pc.holds .list = true := (hp.agree .list .main).mp hlock.2
    rw [hpc] at hheld
    cases hheld
  | some op =>
    have hjoin : ∃ record, op = .join record ∧ x.process.thread record ≠ some .exited := by
      by_contra hall
      obtain ⟨a, y, hs, hbusy⟩ := exists_step_main hoff hop (fun m hm => not_not.mp fun hne => by
          obtain ⟨a, ha⟩ := Option.ne_none_iff_exists'.mp hne
          obtain ⟨rfl, rfl⟩ := hmain ha
          have hheld : x.process.main.pc.holds .list = true := (hp.agree .list .main).mp ha
          rw [MainPc.holds_of_lock (hm ▸ hop)] at hheld
          cases hheld)
        fun record hrecord => not_not.mp fun hne => hall ⟨record, hrecord, hne⟩
      exact absurd (hbusy.symm.trans (hno a y hs)) (by simp)
    obtain ⟨record, rfl, hne⟩ := hjoin
    obtain ⟨hheld, hcreated⟩ := hp.of_join hop
    obtain ⟨pc, hpc⟩ := Option.ne_none_iff_exists'.mp hcreated
    have hlock : pc = .lockList := by
      rcases hclients hpc with rfl | ⟨rfl, -⟩
      · exact absurd hpc hne
      · rfl
    subst hlock
    refine Or.inr ⟨⟨record, ?_, hpc⟩, (hp.agree .list .main).mpr hheld, fun i pc hi =>
      (hclients hi).imp_right And.left⟩
    -- the sweep joins only threads that have set their flags
    generalize hm : x.process.main.pc = mpc at hop
    cases mpc with
    | cleanupJoin record' =>
      obtain rfl := MainOp.join.inj (Option.some.inj hop)
      rfl
    | sweepJoin record' rest =>
      obtain rfl := MainOp.join.inj (Option.some.inj hop)
      cases (hp.ended_iff hheld hpc).1 (hp.swept _ _ hm)
    | _ => simp [MainPc.op] at hop

end DeviceServer

/-! ## 6. Which of the two -/

namespace Process

variable {p q : Process} {a : Act}

theorem Ended.step (h : p.Ended) (hs : p.Step a q) : a = .signal := by
  cases hs with
  | main hop =>
    rw [h.main] at hop
    cases hop
  | client hpc hop =>
    rw [h.threads _ _ hpc] at hop
    cases hop
  | signal => rfl

theorem Deadlocked.step (h : p.Deadlocked) (hs : p.Step a q) : a = .signal := by
  cases hs with
  | main hop hallows =>
    obtain ⟨record, hpc, hthread⟩ := h.joins
    rw [hpc] at hop
    obtain rfl := Option.some.inj hop
    cases hthread.symm.trans hallows
  | client hpc hop _ _ hlocks =>
    rcases h.threads _ _ hpc with rfl | rfl
    · cases hop
    · obtain rfl := Option.some.inj hop
      cases hlocks with
      | acquire _ hfree => cases h.held.symm.trans hfree
  | signal => rfl

/-- `main` is in the cleanup, and a thread on the list has not set its flag. -/
structure Untidy (p : Process) : Prop where
  cleaning : p.main.pc.cleaning = true
  unset : ∃ i ∈ p.main.clients, p.complete i = false

/-- `main` comes into the cleanup with a flag not set. -/
theorem Untidy.enter {op : MainOp} {ret : Ret} (hpc : p.main.pc = .cleanupLock)
    (hno : ¬ p.Reaped) (hs : p.Step (.main op ret) q) : q.Untidy := by
  have hex : ∃ i ∈ p.main.clients, p.complete i = false := by
    by_contra hall
    refine hno fun i hi => ?_
    cases hset : p.complete i with
    | true => rfl
    | false => exact absurd ⟨i, hi, hset⟩ hall
  cases hs with
  | main hop =>
    rw [hpc] at hop
    obtain rfl := Option.some.inj hop
    have hmain : p.main.resume ret = ⟨.cleanup p.main.clients, p.main.clients⟩ := by
      rw [Main.resume, hpc]
    obtain ⟨i, hi, hset⟩ := hex
    refine ⟨?_, i, ?_, (mainCall_of_ne (by simp)).2.trans hset⟩
    · rw [mainCall_main, hmain]
      cases p.main.clients <;> rfl
    · rw [mainCall_main, hmain]
      exact hi

/-- A cleanup stays untidy: the thread needs the list mutex, and is not joined before. -/
theorem Untidy.step (h : p.Untidy) (hb : p.Books) (hs : p.Step a q) : q.Untidy := by
  obtain ⟨hclean, i, hi, hset⟩ := h
  cases hs with
  | @main op ret holder hop hallows hlocks =>
    have hne : op ≠ .create i := by
      rintro rfl
      generalize p.main.pc = pc at hop hclean
      cases pc with
      | create => cases hclean
      | _ => simp [MainPc.op] at hop
    have hjoined : op ≠ .join i := by
      rintro rfl
      have hended : p.thread i = some .exited := hallows
      cases hset.symm.trans ((hb.inv.complete i _ hended).mpr (by decide))
    have hnext : (p.main.resume ret).pc.cleaning = true ∧ i ∈ (p.main.resume ret).clients := by
      have hgoes := Main.goes_resume hop ret
      have hhand := hb.hand
      generalize p.main.resume ret = m' at hgoes ⊢
      generalize p.main = m at hgoes hhand hclean hi
      cases hgoes with
      | @cleanupJoined clients _ record =>
        have hhead : clients.head? = some record := hhand
        obtain ⟨rest, rfl⟩ := List.head?_eq_some_iff.mp hhead
        exact ⟨rfl, (List.mem_cons.mp hi).resolve_left fun heq => hjoined (by rw [heq])⟩
      | @cleanupFreed clients =>
        refine ⟨?_, hi⟩
        cases clients <;> rfl
      | @cleanupUnlocked clients =>
        obtain rfl : clients = [] := hhand
        exact absurd hi List.not_mem_nil
      | _ => cases hclean
    refine ⟨?_, i, ?_, (mainCall_of_ne hne).2.trans hset⟩
    · rw [mainCall_main]
      exact hnext.1
    · rw [mainCall_main]
      exact hnext.2
  | @client j pc op ret holder hpc hop hans hactive hlocks =>
    refine ⟨hclean, i, hi, ?_⟩
    by_cases hop' : op = .setComplete
    · subst hop'
      -- the flag is set with the list mutex, which `main` has
      have hpc' : pc.holds .list = true := by
        cases pc with
        | setComplete => rfl
        | _ => simp [Pc.op] at hop
      have hmine : p.holds (.client j) .list = true := by
        rw [holds_of_thread hpc]
        exact hpc'
      have hmain : p.holds .main .list = true := by
        rw [holds_main]
        generalize p.main.pc = mpc at hclean
        cases mpc with
        | cleanupJoin | cleanupFree | cleanupUnlock => rfl
        | _ => cases hclean
      cases hb.inv.agree.unique hmine hmain
    · rw [clientCall_complete_self hop']
      exact hset
  | signal => exact ⟨hclean, i, hi, hset⟩

end Process

namespace DeviceServer

variable {x y : DeviceServer} {a : Act} {h : List (DeviceServer × Act)} {junk : ℕ → ℤ}
  {s₀ : DriverState}

/-- The process of a run goes through a run of its own. -/
theorem process_hist (hr : Run Step (start junk s₀) h x) :
    Run Process.Step (Process.start junk) (h.map fun e => (e.1.process, e.2)) x.process := by
  refine hr.rule (Q := fun h (x : DeviceServer) => Run Process.Step (Process.start junk)
    (h.map fun e => (e.1.process, e.2)) x.process) Run.nil fun {h s e t} _ hq hs => ?_
  rw [List.map_append]
  exact hq.concat hs.process

/-- **At rest** everything has ended, or the server is deadlocked. -/
theorem still_iff (hp : x.process.Inv) (hoff : x.process.active = false) :
    x.Still ↔ x.process.Ended ∨ x.process.Deadlocked := by
  constructor
  · intro hstill
    refine ended_or_deadlocked hp hoff fun a y hs => ?_
    rw [hstill a y hs]
    rfl
  · rintro (hend | hdead) a y hs
    · exact hend.step hs.process
    · exact hdead.step hs.process

/-- Where not everything is at rest a busy step can be taken. -/
theorem exists_busy (hp : x.process.Inv) (hoff : x.process.active = false) (hnot : ¬ x.Still) :
    ∃ a y, x.Step a y ∧ a.busy = true := by
  by_contra hall
  refine hnot ((still_iff hp hoff).mpr (ended_or_deadlocked hp hoff fun a y hs => ?_))
  exact Bool.eq_false_iff.mpr fun hbusy => hall ⟨a, y, hs, hbusy⟩

/-- `active` stays cleared. -/
theorem off_run (hoff : x.process.active = false) {h' : List (DeviceServer × Act)}
    (hr : Run Step x h' y) : y.process.active = false :=
  hr.invariant (I := fun y : DeviceServer => y.process.active = false) hoff
    fun hi hs => hs.off hi

/-- **How the shutdown ends.**  In every run of the server on the device, whatever the calls answer
and whatever the order of the steps, once `active` is cleared:

* the calls made from then on, `send`s that take nothing aside, are bounded;
* the run can be continued until nothing happens any more but signals;
* then everything has ended, or `main` joins under `list_mutex` a thread that waits for
  `list_mutex`, and all others have ended or wait for it too;
* everything has ended if and only if `main` entered the cleanup with the flags of all clients on
  its list set. -/
theorem shutdown_ends (h0 : Reachable s₀) (hp : s₀.pending = [])
    (hr : Run Step (start junk s₀) h x) (hoff : x.process.active = false) :
    ∃ n, ∀ h' y, Run Step x h' y →
      (h'.countP fun e => e.2.busy) ≤ n ∧
      (∃ h'' z, Run Step y h'' z ∧ z.Still) ∧
      (y.Still ↔ y.process.Ended ∨ y.process.Deadlocked) ∧
      (y.Still → (y.process.Ended ↔
        Orderly ((h ++ h').map fun e => (e.1.process, e.2)))) := by
  refine ⟨x.budget, fun h' y hr' => ⟨?_, ?_, ?_, fun hstill => ⟨?_, ?_⟩⟩⟩
  · have hle := hr'.count_le Act.busy (fun _ z => z.budget) fun {h₁ s e t} hr₁ hs =>
      budget_step h0 hp (hr.append hr₁) (off_run hoff hr₁) hs
    exact le_trans (Nat.le_add_right _ _) hle
  · have hoff' := off_run hoff hr'
    have hnil : Run Step y [] y := Run.nil
    obtain ⟨h'', z, hz, hstill⟩ := hnil.exists_stop_of_lower (fun _ z => Still z)
      (fun _ z => budget z) (fun {h₁ s} hr₁ hnot => by
        have hrun := (hr.append hr').append hr₁
        have hoff₁ := off_run hoff' hr₁
        obtain ⟨a, t, hs, hbusy⟩ := exists_busy (inv_run hrun) hoff₁ hnot
        have hle := budget_step h0 hp hrun hoff₁ hs
        rw [hbusy, Bool.toNat_true] at hle
        exact ⟨a, t, hs, hle⟩)
    exact ⟨_, z, hz, hstill⟩
  · exact still_iff (inv_run (hr.append hr')) (off_run hoff hr')
  · intro hend p op ret hmem hpc
    by_contra hno
    obtain ⟨h₁, h₂, heq⟩ := List.append_of_mem hmem
    have hrun := process_hist (hr.append hr')
    rw [heq] at hrun
    have huntidy := hrun.since (fun _ hs => Process.Untidy.enter hpc hno hs)
      fun hrun' hu hs => hu.step (Process.books_run hrun') hs
    have hclean := huntidy.cleaning
    rw [hend.main] at hclean
    cases hclean
  · intro ho
    have hinv := inv_run (hr.append hr')
    refine ((still_iff hinv (off_run hoff hr')).mp hstill).resolve_right fun hdead => ?_
    obtain ⟨record, hpc, hthread⟩ := hdead.joins
    have hended := hinv.joined (Process.tidy_run (process_hist (hr.append hr')) ho) (i := record)
      (by rw [hpc]; rfl)
    cases hthread.symm.trans hended

/-- A client is accepted, its `recv` fails after the signal, and `main` enters the cleanup before
the client has set its flag. -/
def inFlight : List (Option (Actor × Ret)) :=
  Process.acceptChoices ++ Process.inFlightChoices ++ Process.cleanupChoices

theorem shutdown_ends_deadlocked : ∃ h x, Run Step (start (fun _ => 0) aesdInitModule) h x ∧
    ∃ h' z, Run Step x h' z ∧ z.Still ∧ z.process.Deadlocked ∧ ¬ z.process.Ended := by
  have hrun := Run.of_played step_of_next (start (fun _ => 0) aesdInitModule) inFlight
    (by decide +kernel)
  have hentry : ∃ e ∈ (played next (start (fun _ => 0) aesdInitModule) inFlight).1,
      e.2 = .main (.lock .list) {} ∧ e.1.process.main.pc = .cleanupLock ∧
        ¬ e.1.process.Reaped := by
    decide +kernel
  obtain ⟨n, hall⟩ := shutdown_ends ⟨[], rfl⟩ (by decide) hrun (by decide +kernel)
  obtain ⟨-, ⟨h', z, hz, hstill⟩, -⟩ := hall _ _ Run.nil
  obtain ⟨-, -, hiff, hwhich⟩ := hall _ _ hz
  have hnot : ¬ z.process.Ended := by
    intro hend
    obtain ⟨⟨v, act⟩, hmem, hact, hpc, hno⟩ := hentry
    have horderly := (hwhich hstill).mp hend v.process (.lock .list) {}
    refine hno (horderly (List.mem_map.mpr ⟨(v, act), List.mem_append_left _ hmem, ?_⟩) hpc)
    exact Prod.ext rfl hact
  exact ⟨_, _, hrun, h', z, hz, hstill, (hiff.mp hstill).resolve_left hnot, hnot⟩

end DeviceServer

end Aesd.Server
