/-
# The server on the device, with calls that fail

The process with the driver behind it.  `Aesd.Server.System` has the clients on the device as long
as nothing fails; here `main` creates them and joins them, a signal may stop the server, and any
call may fail.  A call on the device fails where the kernel does not bring it to the driver, or
where the driver returns an error (`Replies`): it is interrupted at its mutex, has no memory, or its
copy faults.

A `write` that fails leaves the ring and the working entry as they were, if nothing was pending
(`Replies.write`).  A call that is interrupted changes nothing either, so one that the kernel makes
again stands here as one call.
-/
import Aesd.Driver.Faults
import Aesd.Server.Courses
import Aesd.Server.System

namespace Aesd.Server

open Aesd.Driver Transition Locking

/-! ## 1. What the device replies -/

/-- What a call of client `i` does to the driver. -/
inductive Replies (i : ℕ) (s : DriverState) : Event → DriverState → Prop
  | succeeds {e : Event} {t : DriverState} : Device i s e t → Replies i s e t
  /-- The driver returns an error, and the call -1. -/
  | fails {op : Op} {ret : Ret} {c : Call} : op.Reaches i c → (s.exec c).2.ret < 0 →
      ret.val = -1 → Replies i s (op, ret) (s.exec c).1
  /-- The call does not come to the driver. -/
  | refused {op : Op} {ret : Ret} : op.onDevice = true → ret.val = -1 → Replies i s (op, ret) s

namespace Replies

variable {s t : DriverState} {leaked : List (ℕ × ℕ)} {i : ℕ} {op : Op} {ret : Ret}

theorem reachable {e : Event} (h : Replies i s e t) (hr : Reachable s) : Reachable t := by
  cases h with
  | succeeds hd => exact hd.reachable hr
  | fails => exact hr.exec _
  | refused => exact hr

/-- A call that does not return -1 succeeds. -/
theorem device (h : Replies i s (op, ret) t) (hval : ret.val ≠ -1) : Device i s (op, ret) t := by
  cases h with
  | succeeds hd => exact hd
  | fails _ _ hfail => exact absurd hfail hval
  | refused _ hfail => exact absurd hfail hval

/-- A call moves no file but the client's own. -/
theorem fPos_of_ne {e : Event} (h : Replies i s e t) (hi : Inv s leaked) {j : ℕ} (hj : j ≠ i) :
    t.fPos j = s.fPos j := by
  cases h with
  | succeeds hd => exact hd.fPos_of_ne hi hj
  | fails hc => cases hc <;> exact exec_fPos_of_ne hi hj
  | refused => rfl

/-- Off the device nothing happens to the driver. -/
theorem eq_of_off (h : Replies i s (op, ret) t) (hop : op.onDevice = false) : t = s := by
  cases h with
  | succeeds hd => exact hd.eq_of_off hop
  | fails hc => cases hc <;> cases hop
  | refused hon => exact absurd (hon.symm.trans hop) (by simp)

/-- Any call but a `write` leaves what is stored and what is pending alone. -/
theorem of_not_write (h : Replies i s (op, ret) t) (hi : Inv s leaked)
    (hop : ∀ buf data, op ≠ .write buf data) : t.stored = s.stored ∧ t.pending = s.pending := by
  cases h with
  | succeeds hd => exact hd.of_not_write hi hop
  | fails hc hneg =>
    rw [exec_of_failed hi ?_ hneg]
    · exact ⟨rfl, rfl⟩
    · rintro f buf k rfl
      cases hc
      exact hop _ _ rfl
  | refused => exact ⟨rfl, rfl⟩

/-- A driver call that returns an error leaves everything as it was, if nothing was pending. -/
theorem kept_of_failed {c : Call} (hi : Inv s leaked) (hp : s.pending = [])
    (hneg : (s.exec c).2.ret < 0) : Kept s (s.exec c).1 := by
  refine ((failsCleanly_iff hi c).mpr ?_).kept hneg
  have h0 : s.dev.entry.size = 0 := by
    rw [← hi.sized.length_bytes]
    exact List.length_eq_zero_iff.mpr hp
  cases c with
  | write f buf k => simp [Call.drops, h0]
  | _ => rfl

/-- **A `write`** stores all its bytes, or it fails and nothing has happened. -/
theorem write {buf : ℕ} {data : List UInt8} (h : Replies i s (.write buf data, ret) t)
    (hi : Inv s leaked) (hp : s.pending = []) :
    (ret.val = data.length ∧
        t.stored = (if newline ∈ data then
          (s.stored ++ [data]).rtake maxWriteOperationsSupported else s.stored) ∧
        t.pending = if newline ∈ data then [] else data) ∨
      (ret.val = -1 ∧ t.stored = s.stored ∧ t.pending = []) := by
  cases h with
  | succeeds hd =>
    obtain ⟨hstored, hpending, hval⟩ := hd.write hi
    rw [hp, List.nil_append] at hstored hpending
    exact Or.inl ⟨hval, hstored, hpending⟩
  | fails hc hneg hval =>
    have hkept := kept_of_failed hi hp hneg
    refine Or.inr ⟨hval, ?_, hkept.bytes.trans hp⟩
    rw [DriverState.stored, DriverState.stored, hkept.ring]
  | refused _ hval => exact Or.inr ⟨hval, rfl, hp⟩

end Replies

/-! ## 2. The system -/

/-- The process, and the driver its clients have open. -/
structure DeviceServer where
  process : Process
  driver : DriverState

namespace DeviceServer

/-- One step. -/
inductive Step (x : DeviceServer) : Act → DeviceServer → Prop
  | main {a : Act} {p : Process} : a.ofClient = false → x.process.Step a p →
      Step x a { x with process := p }
  | client {i : ℕ} {op : Op} {ret : Ret} {p : Process} {s : DriverState} :
      x.process.Step (.client i op ret) p → Replies i x.driver (op, ret) s →
      Step x (.client i op ret) ⟨p, s⟩

/-- The server at the head of its accept loop. -/
def start (junk : ℕ → ℤ) (s₀ : DriverState) : DeviceServer := ⟨Process.start junk, s₀⟩

/-! ## 3. Playing a run -/

/-- What the device replies.  A result of -1 chosen for a call keeps it from the driver; any other
is replaced by that of the driver. -/
def reply (i : ℕ) (s : DriverState) (op : Op) (ret : Ret) : Option (Ret × DriverState) :=
  match op.call? i with
  | some c =>
    if ret.val = -1 then some (ret, s)
    else if 0 ≤ (s.exec c).2.ret then
      some ({ val := (s.exec c).2.ret, data := (s.exec c).2.data }, (s.exec c).1)
    else some ({ val := -1 }, (s.exec c).1)
  | none =>
    if op = .open then some (ret, (s.exec (.open i)).1)
    else if op.onDevice then none
    else some (ret, s)

theorem replies_of_reply {i : ℕ} {s t : DriverState} {op : Op} {given ret : Ret}
    (h : reply i s op given = some (ret, t)) : Replies i s (op, ret) t := by
  unfold reply at h
  split at h
  · rename_i c hc
    have hreach := Op.Reaches.of_call? hc
    split at h
    · rename_i hval
      obtain ⟨rfl, rfl⟩ := Prod.mk.inj (Option.some.inj h)
      refine Replies.refused ?_ hval
      cases hreach <;> rfl
    · split at h
      · rename_i hret
        obtain ⟨rfl, rfl⟩ := Prod.mk.inj (Option.some.inj h)
        exact Replies.succeeds (Device.called hreach hret rfl rfl)
      · rename_i hret
        obtain ⟨rfl, rfl⟩ := Prod.mk.inj (Option.some.inj h)
        exact Replies.fails hreach (Int.not_le.mp hret) rfl
  · split at h
    · rename_i hopen
      subst hopen
      obtain ⟨rfl, rfl⟩ := Prod.mk.inj (Option.some.inj h)
      exact Replies.succeeds (Device.opened _)
    · split at h
      · cases h
      · rename_i hoff
        obtain ⟨rfl, rfl⟩ := Prod.mk.inj (Option.some.inj h)
        exact Replies.succeeds (Device.elsewhere (Bool.eq_false_iff.mpr hoff))

/-- The step of `main`, or the signal. -/
def nextMain (x : DeviceServer) (choice : Option (Actor × Ret)) : Option (Act × DeviceServer) :=
  match x.process.next choice with
  | some (a, p) => if a.ofClient then none else some (a, { x with process := p })
  | none => none

theorem step_of_nextMain {x y : DeviceServer} {choice : Option (Actor × Ret)} {a : Act}
    (h : x.nextMain choice = some (a, y)) : x.Step a y := by
  unfold nextMain at h
  split at h
  · rename_i b p hnext
    split at h
    · cases h
    · rename_i hnot
      obtain ⟨rfl, rfl⟩ := Prod.mk.inj (Option.some.inj h)
      exact Step.main (Bool.eq_false_iff.mpr hnot) (Process.step_of_next _ _ _ _ hnext)
  · cases h

/-- The step of an actor; what a call on the device returns is the device's to say. -/
def next (x : DeviceServer) : Option (Actor × Ret) → Option (Act × DeviceServer)
  | some (.client i, given) =>
    match (x.process.thread i).bind Pc.op with
    | none => none
    | some op =>
      match reply i x.driver op given with
      | none => none
      | some (ret, s) =>
        match x.process.next (some (.client i, ret)) with
        | some (.client j op' ret', p) =>
          if j = i ∧ op' = op ∧ ret' = ret then some (.client i op ret, ⟨p, s⟩) else none
        | _ => none
  | choice => x.nextMain choice

theorem step_of_next (x : DeviceServer) (choice : Option (Actor × Ret)) (a : Act)
    (y : DeviceServer) (h : x.next choice = some (a, y)) : x.Step a y := by
  rcases choice with _ | ⟨_ | i, given⟩
  · have hmain : x.nextMain none = some (a, y) := h
    exact step_of_nextMain hmain
  · have hmain : x.nextMain (some (.main, given)) = some (a, y) := h
    exact step_of_nextMain hmain
  · unfold next at h
    dsimp only at h
    split at h
    · cases h
    · rename_i op hop
      split at h
      · cases h
      · rename_i ret s hreply
        split at h
        · rename_i j op' ret' p hnext
          split at h
          · rename_i heq
            obtain ⟨rfl, rfl, rfl⟩ := heq
            obtain ⟨rfl, rfl⟩ := Prod.mk.inj (Option.some.inj h)
            exact Step.client (Process.step_of_next _ _ _ _ hnext) (replies_of_reply hreply)
          · cases h
        · cases h

/-! ## 4. The process and the driver in a run -/

variable {x y : DeviceServer} {a : Act} {h : List (DeviceServer × Act)} {junk : ℕ → ℤ}
  {s₀ : DriverState}

/-- A step of the server is a step of the process. -/
theorem Step.process (hs : x.Step a y) : x.process.Step a y.process := by
  cases hs with
  | main _ hp => exact hp
  | client hp => exact hp

/-- Without the driver a run is a run of the process, with the same acts. -/
theorem process_run (hr : Run Step (start junk s₀) h x) :
    ∃ h', Run Process.Step (Process.start junk) h' x.process ∧
      h'.map Prod.snd = h.map Prod.snd := by
  refine hr.rule (Q := fun h (x : DeviceServer) => ∃ h',
    Run Process.Step (Process.start junk) h' x.process ∧ h'.map Prod.snd = h.map Prod.snd)
    ⟨[], Run.nil, rfl⟩ fun {h s e t} hr hq hs => ?_
  obtain ⟨h', hr', hacts⟩ := hq
  refine ⟨h' ++ [(s.process, e)], hr'.concat hs.process, ?_⟩
  rw [List.map_append, List.map_append, hacts]
  rfl

theorem inv_run (hr : Run Step (start junk s₀) h x) : x.process.Inv := by
  obtain ⟨h', hr', -⟩ := process_run hr
  exact Process.inv_run hr'

/-- Every client is on its course. -/
theorem courses_run (hr : Run Step (start junk s₀) h x) :
    x.process.Courses (h.map Prod.snd) := by
  obtain ⟨h', hr', hacts⟩ := process_run hr
  rw [← hacts]
  exact Process.courses_run hr'

/-- The driver of a run is reachable. -/
theorem reachable_run (h0 : Reachable s₀) (hr : Run Step (start junk s₀) h x) :
    Reachable x.driver := by
  refine hr.invariant (I := fun x : DeviceServer => Reachable x.driver) h0 fun {s e t} hi hs => ?_
  cases hs with
  | main => exact hi
  | client _ hrep => exact hrep.reachable hi

/-- Who does not take the step does nothing to the driver's file of a client. -/
theorem Step.fPos_of_ne {leaked : List (ℕ × ℕ)} (hs : x.Step a y) (hi : Inv x.driver leaked) {i : ℕ}
    (ha : ∀ op ret, a ≠ .client i op ret) : y.driver.fPos i = x.driver.fPos i := by
  cases hs with
  | main => rfl
  | client _ hrep => exact hrep.fPos_of_ne hi fun hij => ha _ _ (by rw [hij])

end DeviceServer

end Aesd.Server
