/-
# Clients on one device

Any number of client threads, the driver they all have open, and the two mutexes, taking steps in
any order.  A step is one call of one thread (`Conn.Step`); a call on the device is a call of the
driver on that client's open file, and what it returns is what the driver returns (`Device`).
No call fails and `active` stays 1, so a thread that would get an error takes no step.

Runs can be played (`System.next`): calls on the device answer themselves.  What each call does to
the driver is said once (`Device.write` and the lemmas beside it), and later files cite that.
-/
import Aesd.Driver.Reading
import Aesd.Driver.Seeking
import Aesd.Server.Locks
import Aesd.Server.Receive

namespace Aesd.Server

open MachineInt Aesd.Driver Transition Locking

/-! ## 1. The system -/

/-- The clients' threads, the device, and who holds the mutexes.  Client `i` has open file `i`. -/
structure System where
  conns : ℕ → Conn
  driver : DriverState
  holder : Mutex → Option ℕ

/-- The driver call behind a system call of client `i` on its file. -/
inductive Op.Reaches (i : ℕ) : Op → Call → Prop
  | ioctl (seekto : AesdSeekto) (k : Kernel) :
      Reaches i (.ioctl seekto) (.ioctl i aesdcharIocseekto seekto k)
  | write (buf : ℕ) (data : UserBuf) (k : Kernel) :
      Reaches i (.write buf data.bytes) (.write i data k)
  | lseek (k : Kernel) : Reaches i .lseek (.seek i 0 0 k)
  | read (buf count : ℕ) (k : Kernel) : Reaches i (.read buf count) (.read i count k)

/-- Whether a call is on the device. -/
def Op.onDevice : Op → Bool
  | «open» | ioctl _ | write _ _ | lseek | read _ _ => true
  | _ => false

/-- What a call of client `i` that succeeds does to the driver. -/
inductive Device (i : ℕ) (s : DriverState) : Event → DriverState → Prop
  /-- `open` returns a descriptor of its own choice. -/
  | opened (ret : Ret) : Device i s (.open, ret) (s.exec (.open i)).1
  | called {op : Op} {ret : Ret} {c : Call} : op.Reaches i c → 0 ≤ (s.exec c).2.ret →
      ret.val = (s.exec c).2.ret → ret.data = (s.exec c).2.data → Device i s (op, ret) (s.exec c).1
  | elsewhere {op : Op} {ret : Ret} : op.onDevice = false → Device i s (op, ret) s

/-- One call of one client. -/
structure System.Step (u : System) (e : ℕ × Event) (v : System) : Prop where
  conn : (u.conns e.1).Step e.2 (v.conns e.1)
  others : ∀ j, j ≠ e.1 → v.conns j = u.conns j
  device : Device e.1 u.driver e.2 v.driver
  locks : Acts e.1 u.holder e.2.1.action v.holder

/-- The history of a run of the system. -/
abbrev Log := List (System × (ℕ × Event))

/-- Nothing done yet: client `i` is going to send `stream i`. -/
def System.start (s : DriverState) (junk : ℕ → ℤ) (stream : ℕ → List UInt8) : System :=
  { conns := fun i => ⟨.openFile (junk i), stream i, []⟩, driver := s, holder := fun _ => none }

/-- The history of one client in a run of the system. -/
def Log.of (h : Log) (i : ℕ) : History :=
  h.filterMap fun se => (if se.2.1 = i then some se.2.2 else none).map fun e => (se.1.conns i, e)

/-- The clients in the order in which they wrote to the device. -/
def writers (h : Log) : List ℕ :=
  h.filterMap fun se =>
    match se.2.2.1 with
    | .write _ _ => some se.2.1
    | _ => none

/-- The commands the writes of a run made of the bytes pending and the bytes written. -/
def commands (h : Log) : List (List UInt8) :=
  h.filterMap fun se =>
    match se.2.2.1 with
    | .write _ data => some (se.1.driver.pending ++ data)
    | _ => none

/-! ## 2. Playing a run -/

/-- The driver call behind a system call that the kernel lets through. -/
def Op.call? (i : ℕ) : Op → Option Call
  | ioctl seekto => some (.ioctl i aesdcharIocseekto seekto {})
  | write _ data => if h : data.length < 2 ^ 63 then some (.write i ⟨data, h⟩ {}) else none
  | lseek => some (.seek i 0 0 {})
  | read _ count => some (.read i count {})
  | _ => none

theorem Op.Reaches.of_call? {i : ℕ} {op : Op} {c : Call} (h : op.call? i = some c) :
    op.Reaches i c := by
  cases op with
  | ioctl seekto =>
    obtain rfl := Option.some.inj h
    exact Reaches.ioctl seekto {}
  | write buf data =>
    rw [Op.call?] at h
    split at h
    · rename_i hd
      obtain rfl := Option.some.inj h
      exact Reaches.write buf ⟨data, hd⟩ {}
    · cases h
  | lseek =>
    obtain rfl := Option.some.inj h
    exact Reaches.lseek {}
  | read buf count =>
    obtain rfl := Option.some.inj h
    exact Reaches.read buf count {}
  | _ => cases h

/-- The step of client `i`, if the system may give it.  A call on the device gets the driver's
result, any other call the result chosen. -/
def System.next (u : System) (choice : ℕ × Ret) : Option ((ℕ × Event) × System) :=
  match (u.conns choice.1).pc.op with
  | none => none
  | some op =>
    let answer : Option (Ret × DriverState) :=
      match op.call? choice.1 with
      | some c =>
        if 0 ≤ (u.driver.exec c).2.ret then
          some ({ val := (u.driver.exec c).2.ret, data := (u.driver.exec c).2.data },
            (u.driver.exec c).1)
        else none
      | none =>
        if op = .open then some (choice.2, (u.driver.exec (.open choice.1)).1)
        else if op.onDevice then none
        else some (choice.2, u.driver)
    match answer with
    | none => none
    | some (ret, driver) =>
      match (u.conns choice.1).next ret, op.action.next choice.1 u.holder with
      | some (e, c), some holder =>
        some ((choice.1, e), ⟨Function.update u.conns choice.1 c, driver, holder⟩)
      | _, _ => none

theorem Conn.next_event {c c' : Conn} {ret : Ret} {e : Event} {op : Op} (hop : c.pc.op = some op)
    (h : c.next ret = some (e, c')) : e = (op, ret) := by
  rw [Conn.next, hop] at h
  simp only at h
  split at h
  · exact (Prod.mk.inj (Option.some.inj h)).1.symm
  · cases h

theorem System.step_of_next (u : System) (choice : ℕ × Ret) (e : ℕ × Event) (v : System)
    (h : u.next choice = some (e, v)) : u.Step e v := by
  obtain ⟨i, given⟩ := choice
  unfold System.next at h
  split at h
  · cases h
  · rename_i op hop
    simp only at h hop
    split at h
    · cases h
    · rename_i ret driver hanswer
      split at h
      · rename_i e' c holder hconn hlocks
        obtain ⟨rfl, rfl⟩ := Prod.mk.inj (Option.some.inj h)
        obtain rfl := Conn.next_event hop hconn
        refine ⟨?_, ?_, ?_, Acts.of_next hlocks⟩
        · simpa using Conn.step_of_next _ _ _ _ hconn
        · intro j hj
          exact Function.update_of_ne hj _ _
        · show Device i u.driver (op, ret) driver
          split at hanswer
          · rename_i c' hc'
            split at hanswer
            · rename_i hret
              obtain ⟨rfl, rfl⟩ := Prod.mk.inj (Option.some.inj hanswer)
              exact Device.called (Op.Reaches.of_call? hc') hret rfl rfl
            · cases hanswer
          · split at hanswer
            · rename_i hopen
              subst hopen
              obtain ⟨rfl, rfl⟩ := Prod.mk.inj (Option.some.inj hanswer)
              exact Device.opened _
            · split at hanswer
              · cases hanswer
              · rename_i hoff
                obtain ⟨rfl, rfl⟩ := Prod.mk.inj (Option.some.inj hanswer)
                exact Device.elsewhere (Bool.eq_false_iff.mpr hoff)
      · cases h

/-! ## 3. What a call does to the driver -/

variable {s t : DriverState} {leaked : List (ℕ × ℕ)} {i : ℕ} {ret : Ret}

namespace Device

theorem reachable {e : Event} (h : Device i s e t) (hr : Reachable s) : Reachable t := by
  cases h with
  | opened => exact hr.exec _
  | called => exact hr.exec _
  | elsewhere => exact hr

/-- A call moves no file but the client's own. -/
theorem fPos_of_ne {e : Event} (h : Device i s e t) (hi : Inv s leaked) {j : ℕ} (hj : j ≠ i) :
    t.fPos j = s.fPos j := by
  cases h with
  | opened => exact exec_fPos_of_ne hi hj
  | called hc => cases hc <;> exact exec_fPos_of_ne hi hj
  | elsewhere => rfl

/-- Off the device nothing happens to the driver. -/
theorem eq_of_off {op : Op} (h : Device i s (op, ret) t) (hop : op.onDevice = false) : t = s := by
  cases h with
  | opened => cases hop
  | called hc => cases hc <;> cases hop
  | elsewhere => rfl

/-- **A write** adds its bytes, all of them. -/
theorem write {buf : ℕ} {data : List UInt8} (h : Device i s (.write buf data, ret) t)
    (hi : Inv s leaked) :
    t.stored = (if newline ∈ s.pending ++ data then
        (s.stored ++ [s.pending ++ data]).rtake maxWriteOperationsSupported else s.stored) ∧
      t.pending = (if newline ∈ s.pending ++ data then [] else s.pending ++ data) ∧
      ret.val = data.length := by
  cases h with
  | called hc h0 hval hdata =>
    cases hc with
    | write buf data k =>
      obtain ⟨h1, h2, h3⟩ := exec_of_accepts hi (accepts_of_ret hi h0)
      exact ⟨h1, h2, hval.trans h3⟩
  | elsewhere hoff => cases hoff

/-- Any other call leaves what is stored and what is pending alone. -/
theorem of_not_write {op : Op} (h : Device i s (op, ret) t) (hi : Inv s leaked)
    (hop : ∀ buf data, op ≠ .write buf data) : t.stored = s.stored ∧ t.pending = s.pending := by
  have key : ∀ c : Call, (∀ f buf k, c ≠ .write f buf k) →
      (s.exec c).1.stored = s.stored ∧ (s.exec c).1.pending = s.pending := by
    intro c hc
    obtain ⟨pos, hpos, -⟩ := exec_of_not_write hi c hc
    rw [hpos]
    exact ⟨rfl, rfl⟩
  cases h with
  | opened => exact key _ fun _ _ _ h => by cases h
  | called hc =>
    cases hc with
    | write buf data k => exact absurd rfl (hop buf data.bytes)
    | ioctl => exact key _ fun _ _ _ h => by cases h
    | lseek => exact key _ fun _ _ _ h => by cases h
    | read => exact key _ fun _ _ _ h => by cases h
  | elsewhere => exact ⟨rfl, rfl⟩

/-- **An ioctl** moves the file to the byte it names. -/
theorem ioctl {seekto : AesdSeekto} (h : Device i s (.ioctl seekto, ret) t) (hi : Inv s leaked) :
    Names s seekto ∧ t.fPos i = s.target seekto := by
  cases h with
  | called hc h0 =>
    cases hc with
    | ioctl seekto k =>
      have hend := aesdIoctl_end hi i aesdcharIocseekto seekto k
      have hexec : s.exec (.ioctl i aesdcharIocseekto seekto k) =
          aesdIoctl s i aesdcharIocseekto seekto k := rfl
      rw [hexec] at h0 ⊢
      generalize aesdIoctl s i aesdcharIocseekto seekto k = r at hend h0 ⊢
      cases hend with
      | unknown hcmd => exact absurd rfl hcmd
      | fault => exact absurd h0 (by decide : ¬ 0 ≤ efault)
      | interrupted => exact absurd h0 (by decide : ¬ 0 ≤ erestartsys)
      | refused => exact absurd h0 (by decide : ¬ 0 ≤ einval)
      | moved _ _ _ hc ho => exact ⟨⟨_, hc, ho⟩, DriverState.setPos_fPos_self _ _ _⟩
  | elsewhere hoff => cases hoff

/-- **An `lseek`** moves the file to its start. -/
theorem lseek (h : Device i s (.lseek, ret) t) : t.fPos i = 0 := by
  cases h with
  | called hc h0 =>
    cases hc with
    | lseek k =>
      have hexec : s.exec (.seek i 0 0 k) = aesdSeek s i 0 0 k := rfl
      rw [hexec] at h0 ⊢
      unfold aesdSeek at h0 ⊢
      split at h0
      · exact absurd h0 (by decide : ¬ 0 ≤ erestartsys)
      · rename_i hint
        rw [if_neg hint]
        exact DriverState.setPos_fPos_self _ _ _
  | elsewhere hoff => cases hoff

/-- **A read** hands over the bytes at the file's position and moves it past them; it hands over
none only at the end. -/
theorem read {buf count : ℕ} (h : Device i s (.read buf count, ret) t) (hi : Inv s leaked)
    (hpos : 0 ≤ s.fPos i) (hcount : 0 < count) :
    ret.val = ret.data.length ∧ t.fPos i = s.fPos i + ret.data.length ∧
      ret.data ++ s.content.drop (t.fPos i).toNat = s.content.drop (s.fPos i).toNat ∧
      (ret.data = [] → s.content.drop (s.fPos i).toNat = []) := by
  cases h with
  | called hc h0 hval hdata =>
    cases hc with
    | read buf count k =>
      have hend := aesdRead_end hi i count k
      have hexec : s.exec (.read i count k) = aesdRead s i count k := rfl
      have hoff := DriverState.charOffset_of_nonneg hpos (hi.positions i).2
      have htot : s.content.length < 2 ^ 63 := by
        have h1 := hi.total_lt
        have h2 : s.dev.buffer.totalSize = s.content.length := hi.totalSize_eq
        omega
      rw [hexec] at h0 hval hdata ⊢
      rw [hval, hdata]
      generalize aesdRead s i count k = r at hend h0 ⊢
      cases hend with
      | interrupted => exact absurd h0 (by decide : ¬ 0 ≤ erestartsys)
      | fault => exact absurd h0 (by decide : ¬ 0 ≤ efault)
      | atEnd _ hge =>
        rw [hoff] at hge
        exact ⟨rfl, (add_zero _).symm, rfl, fun _ => List.drop_of_length_le hge⟩
      | @copied n _ _ hle _ hn hlt =>
        rw [hoff] at hle hlt ⊢
        have hle' : (s.fPos i).toNat + n ≤ s.content.length := hle
        have hlen : ((s.content.drop (s.fPos i).toNat).take n).length = n := by
          rw [List.length_take, List.length_drop]
          omega
        have hmove : (s.setPos i (wrapS 64 (s.fPos i + n))).fPos i = s.fPos i + n := by
          rw [DriverState.setPos_fPos_self]
          exact wrapS_of_mem (w := 63) (by omega) (by omega)
        refine ⟨(congrArg Nat.cast hlen).symm, ?_, ?_, ?_⟩
        · rw [hmove]
          exact congrArg (fun m : ℕ => s.fPos i + m) hlen.symm
        · have hnat : (s.fPos i + n).toNat = (s.fPos i).toNat + n := by omega
          rw [hmove, hnat, ← List.drop_drop]
          exact List.take_append_drop n _
        · intro hnil
          have hz : n = 0 := by rw [← hlen]; exact congrArg List.length hnil
          exact absurd (hn hcount) (by omega)
  | elsewhere hoff => cases hoff

end Device

end Aesd.Server
