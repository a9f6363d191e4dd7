/-
# A client thread of the server

`client_handler` with `receive_data` and `send_data` inlined, as a machine: a program point with
the locals that are alive there (`Pc`), the call the thread makes at it (`Pc.op`), and the point
it goes to for each result of that call (`Pc.resume`).  Between two calls the thread only
computes, so a run of the machine is the sequence of its calls and their results.

A call here is anything outside the thread's own memory: a system call, `malloc`, `realloc` and
`free`, a mutex, the flag `active`, and `data->thread_complete`.  What the system may answer is
`Op.Answers`; that a call does not fail, `Op.Succeeds`.

A buffer is known by its pointer; the bytes stored at its start are kept with the locals.

`Pc.Goes` lists every way from one point to the next, with the condition under which it is taken.
What the later files say of every call is a case analysis on that list and not on `Pc.resume`.
-/
import Aesd.Lib.MachineInt
import Aesd.Lib.Transition
import Aesd.Server.Command

namespace Aesd.Server

open MachineInt CString Aesd.Driver

/-! ## 1. Calls and results -/

/-- `file_mutex` and `list_mutex`. -/
inductive Mutex
  | file
  | list
  deriving DecidableEq

/-- `client_fd` and `file_fd`. -/
inductive Fd
  | client
  | file
  deriving DecidableEq

/-- The calls of a client thread. -/
inductive Op
  | open
  | malloc (size : ℤ)
  /-- A read of the flag `active`. -/
  | loadActive
  | recv (buf : ℕ) (offset len : ℤ)
  | realloc (buf : ℕ) (size : ℤ)
  | lock (m : Mutex)
  | unlock (m : Mutex)
  | ioctl (seekto : AesdSeekto)
  /-- A `write` to the device; `data` are the bytes it points to, `len` of them. -/
  | write (buf : ℕ) (data : List UInt8)
  /-- `lseek` to offset 0 from the start. -/
  | lseek
  | read (buf count : ℕ)
  | send (buf : ℕ) (data : List UInt8)
  | free (buf : ℕ)
  | close (fd : Fd)
  /-- `data->thread_complete = 1`. -/
  | setComplete
  deriving DecidableEq

/-- A result: the value returned, the bytes put into the buffer, and the pointer returned. -/
structure Ret where
  val : ℤ := 0
  data : List UInt8 := []
  ptr : Option ℕ := none
  deriving DecidableEq

namespace Op

/-- What the system may answer.  A count is no larger than what was asked for, and no request of
`2 ^ 63` bytes or more is ever granted. -/
def Answers : Op → Ret → Prop
  | recv _ _ len, r =>
    (r.val = -1 ∧ r.data = []) ∨ (r.val = r.data.length ∧ r.data.length ≤ wrapU 64 len)
  | realloc _ size, r => 2 ^ 63 ≤ wrapU 64 size → r.ptr = none
  | write _ data, r => r.val = -1 ∨ (0 ≤ r.val ∧ r.val ≤ data.length)
  | read _ count, r => (r.val = -1 ∧ r.data = []) ∨ (r.val = r.data.length ∧ r.data.length ≤ count)
  | send _ data, r => r.val = -1 ∨ (0 ≤ r.val ∧ r.val ≤ data.length)
  | _, _ => True

/-- The call does not fail, and `active` is 1. -/
def Succeeds : Op → Ret → Prop
  | «open», r => r.val ≠ -1
  | malloc _, r => r.ptr.isSome
  | loadActive, r => r.val ≠ 0
  | recv _ _ _, r => r.val ≠ -1
  | realloc _ _, r => r.ptr.isSome
  | ioctl _, r => 0 ≤ r.val
  | write _ _, r => 0 < r.val
  | lseek, r => r.val ≠ -1
  | read _ _, r => r.val ≠ -1
  | send _ _, r => 0 < r.val
  | _, _ => True

/-- The bytes a call takes from the client. -/
def received : Op → Ret → List UInt8
  | recv _ _ _, r => r.data
  | _, _ => []

/-- The bytes a call hands to the client. -/
def sent : Op → Ret → List UInt8
  | send _ data, r => data.take r.val.toNat
  | _, _ => []

/-- The bytes a call stores on the device. -/
def written : Op → Ret → List UInt8
  | write _ data, r => data.take r.val.toNat
  | _, _ => []

/-- The seek a call performs. -/
def seeks : Op → List AesdSeekto
  | ioctl seekto => [seekto]
  | _ => []

instance decidableAnswers : (op : Op) → (r : Ret) → Decidable (op.Answers r)
  | recv _ _ len, r => inferInstanceAs (Decidable
      ((r.val = -1 ∧ r.data = []) ∨ (r.val = r.data.length ∧ r.data.length ≤ wrapU 64 len)))
  | realloc _ size, r => inferInstanceAs (Decidable (2 ^ 63 ≤ wrapU 64 size → r.ptr = none))
  | write _ data, r => inferInstanceAs (Decidable
      (r.val = -1 ∨ (0 ≤ r.val ∧ r.val ≤ data.length)))
  | read _ count, r => inferInstanceAs (Decidable
      ((r.val = -1 ∧ r.data = []) ∨ (r.val = r.data.length ∧ r.data.length ≤ count)))
  | send _ data, r => inferInstanceAs (Decidable
      (r.val = -1 ∨ (0 ≤ r.val ∧ r.val ≤ data.length)))
  | «open», _ => isTrue trivial
  | malloc _, _ => isTrue trivial
  | loadActive, _ => isTrue trivial
  | lock _, _ => isTrue trivial
  | unlock _, _ => isTrue trivial
  | ioctl _, _ => isTrue trivial
  | lseek, _ => isTrue trivial
  | free _, _ => isTrue trivial
  | close _, _ => isTrue trivial
  | setComplete, _ => isTrue trivial

instance decidableSucceeds : (op : Op) → (r : Ret) → Decidable (op.Succeeds r)
  | «open», r => inferInstanceAs (Decidable (r.val ≠ -1))
  | malloc _, r => inferInstanceAs (Decidable (r.ptr.isSome = true))
  | loadActive, r => inferInstanceAs (Decidable (r.val ≠ 0))
  | recv _ _ _, r => inferInstanceAs (Decidable (r.val ≠ -1))
  | realloc _ _, r => inferInstanceAs (Decidable (r.ptr.isSome = true))
  | ioctl _, r => inferInstanceAs (Decidable (0 ≤ r.val))
  | write _ _, r => inferInstanceAs (Decidable (0 < r.val))
  | lseek, r => inferInstanceAs (Decidable (r.val ≠ -1))
  | read _ _, r => inferInstanceAs (Decidable (r.val ≠ -1))
  | send _ _, r => inferInstanceAs (Decidable (0 < r.val))
  | lock _, _ => isTrue trivial
  | unlock _, _ => isTrue trivial
  | free _, _ => isTrue trivial
  | close _, _ => isTrue trivial
  | setComplete, _ => isTrue trivial

end Op

/-! ## 2. Program points -/

/-- The locals of `receive_data`; `content` are the bytes at `buf`, before the terminating NUL. -/
structure Receiving where
  bufSize : ℤ
  packetSize : ℤ
  bytesReceived : ℤ
  ioctlSeektoReceived : Bool
  packetLength : ℕ
  bytesWritten : ℕ
  buf : ℕ
  content : List UInt8
  deriving DecidableEq

/-- The points at which a client thread makes a call, in the order of the source. -/
inductive Pc
  /-- `open`; from here on `junk` is the value of the unassigned `bytes_received`. -/
  | openFile (junk : ℤ)
  | recvMalloc (junk : ℤ)
  | whileActive (r : Receiving)
  | recvCall (r : Receiving)
  | seekLock (r : Receiving) (seekto : AesdSeekto)
  | seekIoctl (r : Receiving) (seekto : AesdSeekto)
  | seekFailUnlock (r : Receiving)
  | seekUnlock (r : Receiving)
  | writeLock (r : Receiving)
  | writeCall (r : Receiving)
  | writeFailUnlock (r : Receiving)
  | writeUnlock (r : Receiving)
  | realloc (r : Receiving)
  | lseek (r : Receiving)
  /-- The `free` before `receive_data` returns `ret`. -/
  | recvFree (buf : ℕ) (ret : ℤ)
  | sendMalloc
  | sendLock (buf : ℕ)
  | readCall (buf : ℕ)
  | sendCall (buf : ℕ) (chunk : List UInt8) (totalSent : ℕ)
  | sendFailFree (buf : ℕ)
  | sendFailUnlock
  | sendUnlock (buf : ℕ) (bytesRead : ℤ)
  /-- The `free` before `send_data` returns `ret`. -/
  | sendFree (buf : ℕ) (ret : ℤ)
  | closeFile
  | closeClient
  | lockList
  | setComplete
  | unlockList
  | exited
  deriving DecidableEq

/-- The call made at a point; none once the thread has ended. -/
def Pc.op : Pc → Option Op
  | openFile _ => some .open
  | recvMalloc _ => some (.malloc 1024)
  | whileActive _ => some .loadActive
  | recvCall r => some (.recv r.buf r.packetSize (r.bufSize - r.packetSize - 1))
  | seekLock _ _ => some (.lock .file)
  | seekIoctl _ seekto => some (.ioctl seekto)
  | seekFailUnlock _ => some (.unlock .file)
  | seekUnlock _ => some (.unlock .file)
  | writeLock _ => some (.lock .file)
  | writeCall r =>
    some (.write r.buf ((r.content.drop r.bytesWritten).take (r.packetLength - r.bytesWritten)))
  | writeFailUnlock _ => some (.unlock .file)
  | writeUnlock _ => some (.unlock .file)
  | realloc r => some (.realloc r.buf r.bufSize)
  | lseek _ => some .lseek
  | recvFree buf _ => some (.free buf)
  | sendMalloc => some (.malloc 1024)
  | sendLock _ => some (.lock .file)
  | readCall buf => some (.read buf 1024)
  | sendCall buf chunk totalSent => some (.send buf (chunk.drop totalSent))
  | sendFailFree buf => some (.free buf)
  | sendFailUnlock => some (.unlock .file)
  | sendUnlock _ _ => some (.unlock .file)
  | sendFree buf _ => some (.free buf)
  | closeFile => some (.close .file)
  | closeClient => some (.close .client)
  | lockList => some (.lock .list)
  | setComplete => some .setComplete
  | unlockList => some (.unlock .list)
  | exited => none

/-! ## 3. Where a result leads -/

/-- Behind the loop of `receive_data`. -/
def Receiving.finish (r : Receiving) : Pc :=
  if r.bytesReceived = -1 then .recvFree r.buf (-1)
  else if r.ioctlSeektoReceived then .recvFree r.buf 0
  else .lseek r

/-- The loop body after a `recv` that returned `ret`, up to the next call. -/
def Receiving.received (r : Receiving) (ret : Ret) : Pc :=
  let r := { r with
    bytesReceived := ret.val
    packetSize := wrapS 32 (r.packetSize + ret.val)
    content := r.content.take r.packetSize.toNat ++ ret.data }
  match strchr r.content newline with
  | some newlinePos =>
    let r := { r with packetLength := newlinePos + 1, bytesWritten := 0 }
    match seekCommand r.content with
    | some seekto => .seekLock r seekto
    | none => .writeLock r
  | none =>
    if r.bufSize - 1 ≤ r.packetSize then .realloc { r with bufSize := wrapS 32 (r.bufSize * 2) }
    else .whileActive r

/-- The head of the write loop. -/
def Receiving.whileUnwritten (r : Receiving) : Pc :=
  if r.bytesWritten < r.packetLength then .writeCall r else .writeUnlock r

/-- The locals after a handled packet: `packet_size` and the buffer are reset. -/
def Receiving.reset (r : Receiving) : Receiving := { r with packetSize := 0, content := [] }

/-- The point a thread goes to when its call returns `ret`. -/
def Pc.resume : Pc → Ret → Pc
  | openFile junk, ret => if ret.val = -1 then closeClient else recvMalloc junk
  | recvMalloc junk, ret =>
    match ret.ptr with
    | none => closeFile
    | some buf =>
      whileActive
        { bufSize := 1024, packetSize := 0, bytesReceived := junk, ioctlSeektoReceived := false
          packetLength := 0, bytesWritten := 0, buf := buf, content := [] }
  | whileActive r, ret => if ret.val ≠ 0 then recvCall r else r.finish
  | recvCall r, ret =>
    if 0 < ret.val then r.received ret else Receiving.finish { r with bytesReceived := ret.val }
  | seekLock r seekto, _ => seekIoctl r seekto
  | seekIoctl r _, ret => if ret.val < 0 then seekFailUnlock r else seekUnlock r
  | seekFailUnlock r, _ => recvFree r.buf (-1)
  | seekUnlock r, _ => Receiving.finish { r.reset with ioctlSeektoReceived := true }
  | writeLock r, _ => r.whileUnwritten
  | writeCall r, ret =>
    if ret.val = -1 then writeFailUnlock r
    else Receiving.whileUnwritten { r with bytesWritten := r.bytesWritten + ret.val.toNat }
  | writeFailUnlock r, _ => recvFree r.buf (-1)
  | writeUnlock r, _ => r.reset.finish
  | realloc r, ret =>
    match ret.ptr with
    | none => recvFree r.buf (-1)
    | some temp => whileActive { r with buf := temp }
  | lseek r, ret => if ret.val = -1 then recvFree r.buf (-1) else recvFree r.buf 0
  | recvFree _ ret, _ => if ret = -1 then closeFile else sendMalloc
  | sendMalloc, ret =>
    match ret.ptr with
    | none => closeFile
    | some buf => sendLock buf
  | sendLock buf, _ => readCall buf
  | readCall buf, ret => if 0 < ret.val then sendCall buf ret.data 0 else sendUnlock buf ret.val
  | sendCall buf chunk totalSent, ret =>
    if ret.val = -1 then sendFailFree buf
    else if totalSent + ret.val.toNat < chunk.length then
      sendCall buf chunk (totalSent + ret.val.toNat)
    else readCall buf
  | sendFailFree _, _ => sendFailUnlock
  | sendFailUnlock, _ => closeFile
  | sendUnlock buf bytesRead, _ => sendFree buf (if bytesRead = -1 then -1 else 0)
  | sendFree _ _, _ => closeFile
  | closeFile, _ => closeClient
  | closeClient, _ => lockList
  | lockList, _ => setComplete
  | setComplete, _ => unlockList
  | unlockList, _ => exited
  | exited, _ => exited

/-! ## 4. The ways a thread goes on -/

/-- Behind the loop of `receive_data`. -/
inductive Receiving.Finishes (r : Receiving) : Pc → Prop
  | broken : r.bytesReceived = -1 → r.Finishes (.recvFree r.buf (-1))
  | sought : r.ioctlSeektoReceived = true → r.Finishes (.recvFree r.buf 0)
  | rewinds : r.ioctlSeektoReceived = false → r.Finishes (.lseek r)

/-- At the head of the write loop. -/
inductive Receiving.Writes (r : Receiving) : Pc → Prop
  | more : r.bytesWritten < r.packetLength → r.Writes (.writeCall r)
  | done : r.packetLength ≤ r.bytesWritten → r.Writes (.writeUnlock r)

/-- Behind a `recv` that brought bytes. -/
inductive Receiving.Takes (r : Receiving) (ret : Ret) : Pc → Prop
  | seek (r' : Receiving) (seekto : AesdSeekto) : r'.buf = r.buf →
      r.Takes ret (.seekLock r' seekto)
  | packet (r' : Receiving) (pos : ℕ) : r'.buf = r.buf → strchr r'.content newline = some pos →
      r'.packetLength = pos + 1 → r'.bytesWritten = 0 → r.Takes ret (.writeLock r')
  | full (r' : Receiving) : r'.buf = r.buf → r.bufSize - 1 ≤ wrapS 32 (r.packetSize + ret.val) →
      r.Takes ret (.realloc r')
  | room (r' : Receiving) : r'.buf = r.buf → r'.bufSize = r.bufSize →
      r.Takes ret (.whileActive r')

theorem Receiving.finishes (r : Receiving) : r.Finishes r.finish := by
  unfold Receiving.finish
  split
  · rename_i hfail
    exact Finishes.broken hfail
  · split
    · rename_i hseek
      exact Finishes.sought hseek
    · rename_i hseek
      exact Finishes.rewinds (Bool.eq_false_iff.mpr hseek)

theorem Receiving.writes (r : Receiving) : r.Writes r.whileUnwritten := by
  unfold Receiving.whileUnwritten
  split
  · rename_i hlt
    exact Writes.more hlt
  · rename_i hge
    exact Writes.done (Nat.le_of_not_lt hge)

theorem Receiving.takes (r : Receiving) (ret : Ret) : r.Takes ret (r.received ret) := by
  unfold Receiving.received
  dsimp only
  split
  · rename_i pos hpos
    split
    · exact Takes.seek _ _ rfl
    · exact Takes.packet _ pos rfl hpos rfl rfl
  · split
    · rename_i hfull
      exact Takes.full _ rfl hfull
    · exact Takes.room _ rfl rfl

/-- **Every way from a point by a call and its result to the next point.** -/
inductive Pc.Goes : Pc → Op → Ret → Pc → Prop
  | openFailed {junk : ℤ} {ret : Ret} : ret.val = -1 → Goes (openFile junk) .open ret closeClient
  | opened {junk : ℤ} {ret : Ret} : ret.val ≠ -1 →
      Goes (openFile junk) .open ret (recvMalloc junk)
  | recvMallocFailed {junk : ℤ} {ret : Ret} : ret.ptr = none →
      Goes (recvMalloc junk) (.malloc 1024) ret closeFile
  | recvMalloced {junk : ℤ} {ret : Ret} {buf : ℕ} : ret.ptr = some buf →
      Goes (recvMalloc junk) (.malloc 1024) ret (whileActive
        { bufSize := 1024, packetSize := 0, bytesReceived := junk, ioctlSeektoReceived := false
          packetLength := 0, bytesWritten := 0, buf := buf, content := [] })
  | active {r : Receiving} {ret : Ret} : ret.val ≠ 0 →
      Goes (whileActive r) .loadActive ret (recvCall r)
  | inactive {r : Receiving} {ret : Ret} {pc : Pc} : ret.val = 0 → r.Finishes pc →
      Goes (whileActive r) .loadActive ret pc
  | received {r : Receiving} {ret : Ret} {pc : Pc} : 0 < ret.val → r.Takes ret pc →
      Goes (recvCall r) (.recv r.buf r.packetSize (r.bufSize - r.packetSize - 1)) ret pc
  | ended {r : Receiving} {ret : Ret} {pc : Pc} : ret.val ≤ 0 →
      Receiving.Finishes { r with bytesReceived := ret.val } pc →
      Goes (recvCall r) (.recv r.buf r.packetSize (r.bufSize - r.packetSize - 1)) ret pc
  | seekLocked {r : Receiving} {seekto : AesdSeekto} {ret : Ret} :
      Goes (seekLock r seekto) (.lock .file) ret (seekIoctl r seekto)
  | seekFailed {r : Receiving} {seekto : AesdSeekto} {ret : Ret} : ret.val < 0 →
      Goes (seekIoctl r seekto) (.ioctl seekto) ret (seekFailUnlock r)
  | sought {r : Receiving} {seekto : AesdSeekto} {ret : Ret} : 0 ≤ ret.val →
      Goes (seekIoctl r seekto) (.ioctl seekto) ret (seekUnlock r)
  | seekFailUnlocked {r : Receiving} {ret : Ret} :
      Goes (seekFailUnlock r) (.unlock .file) ret (recvFree r.buf (-1))
  | seekUnlocked {r : Receiving} {ret : Ret} {pc : Pc} :
      Receiving.Finishes { r.reset with ioctlSeektoReceived := true } pc →
      Goes (seekUnlock r) (.unlock .file) ret pc
  | writeLocked {r : Receiving} {ret : Ret} {pc : Pc} : r.Writes pc →
      Goes (writeLock r) (.lock .file) ret pc
  | writeFailed {r : Receiving} {ret : Ret} : ret.val = -1 →
      Goes (writeCall r)
        (.write r.buf ((r.content.drop r.bytesWritten).take (r.packetLength - r.bytesWritten)))
        ret (writeFailUnlock r)
  | wrote {r : Receiving} {ret : Ret} {pc : Pc} : ret.val ≠ -1 →
      Receiving.Writes { r with bytesWritten := r.bytesWritten + ret.val.toNat } pc →
      Goes (writeCall r)
        (.write r.buf ((r.content.drop r.bytesWritten).take (r.packetLength - r.bytesWritten)))
        ret pc
  | writeFailUnlocked {r : Receiving} {ret : Ret} :
      Goes (writeFailUnlock r) (.unlock .file) ret (recvFree r.buf (-1))
  | writeUnlocked {r : Receiving} {ret : Ret} {pc : Pc} : r.reset.Finishes pc →
      Goes (writeUnlock r) (.unlock .file) ret pc
  | reallocFailed {r : Receiving} {ret : Ret} : ret.ptr = none →
      Goes (realloc r) (.realloc r.buf r.bufSize) ret (recvFree r.buf (-1))
  | realloced {r : Receiving} {ret : Ret} {temp : ℕ} : ret.ptr = some temp →
      Goes (realloc r) (.realloc r.buf r.bufSize) ret (whileActive { r with buf := temp })
  | lseekFailed {r : Receiving} {ret : Ret} : ret.val = -1 →
      Goes (lseek r) .lseek ret (recvFree r.buf (-1))
  | rewound {r : Receiving} {ret : Ret} : ret.val ≠ -1 →
      Goes (lseek r) .lseek ret (recvFree r.buf 0)
  | recvFreedFailed {buf : ℕ} {ret : Ret} :
      Goes (recvFree buf (-1)) (.free buf) ret closeFile
  | recvFreed {buf : ℕ} {val : ℤ} {ret : Ret} : val ≠ -1 →
      Goes (recvFree buf val) (.free buf) ret sendMalloc
  | sendMallocFailed {ret : Ret} : ret.ptr = none →
      Goes sendMalloc (.malloc 1024) ret closeFile
  | sendMalloced {ret : Ret} {buf : ℕ} : ret.ptr = some buf →
      Goes sendMalloc (.malloc 1024) ret (sendLock buf)
  | sendLocked {buf : ℕ} {ret : Ret} : Goes (sendLock buf) (.lock .file) ret (readCall buf)
  | readChunk {buf : ℕ} {ret : Ret} : 0 < ret.val →
      Goes (readCall buf) (.read buf 1024) ret (sendCall buf ret.data 0)
  | readEnded {buf : ℕ} {ret : Ret} : ret.val ≤ 0 →
      Goes (readCall buf) (.read buf 1024) ret (sendUnlock buf ret.val)
  | sendFailed {buf : ℕ} {chunk : List UInt8} {totalSent : ℕ} {ret : Ret} : ret.val = -1 →
      Goes (sendCall buf chunk totalSent) (.send buf (chunk.drop totalSent)) ret
        (sendFailFree buf)
  | sentPart {buf : ℕ} {chunk : List UInt8} {totalSent : ℕ} {ret : Ret} : ret.val ≠ -1 →
      totalSent + ret.val.toNat < chunk.length →
      Goes (sendCall buf chunk totalSent) (.send buf (chunk.drop totalSent)) ret
        (sendCall buf chunk (totalSent + ret.val.toNat))
  | sentChunk {buf : ℕ} {chunk : List UInt8} {totalSent : ℕ} {ret : Ret} : ret.val ≠ -1 →
      chunk.length ≤ totalSent + ret.val.toNat →
      Goes (sendCall buf chunk totalSent) (.send buf (chunk.drop totalSent)) ret (readCall buf)
  | sendFailFreed {buf : ℕ} {ret : Ret} :
      Goes (sendFailFree buf) (.free buf) ret sendFailUnlock
  | sendFailUnlocked {ret : Ret} : Goes sendFailUnlock (.unlock .file) ret closeFile
  | sendUnlocked {buf : ℕ} {bytesRead : ℤ} {ret : Ret} :
      Goes (sendUnlock buf bytesRead) (.unlock .file) ret
        (sendFree buf (if bytesRead = -1 then -1 else 0))
  | sendFreed {buf : ℕ} {val : ℤ} {ret : Ret} : Goes (sendFree buf val) (.free buf) ret closeFile
  | fileClosed {ret : Ret} : Goes closeFile (.close .file) ret closeClient
  | clientClosed {ret : Ret} : Goes closeClient (.close .client) ret lockList
  | listLocked {ret : Ret} : Goes lockList (.lock .list) ret setComplete
  | completed {ret : Ret} : Goes setComplete .setComplete ret unlockList
  | listUnlocked {ret : Ret} : Goes unlockList (.unlock .list) ret exited

/-- **A call goes one of these ways.** -/
theorem Pc.goes_resume {pc : Pc} {op : Op} (hop : pc.op = some op) (ret : Ret) :
    pc.Goes op ret (pc.resume ret) := by
  cases pc with
  | openFile junk =>
    obtain rfl := Option.some.inj hop
    rw [Pc.resume]
    split
    · rename_i hfail
      exact Goes.openFailed hfail
    · rename_i hopen
      exact Goes.opened hopen
  | recvMalloc junk =>
    obtain rfl := Option.some.inj hop
    rw [Pc.resume]
    cases hp : ret.ptr with
    | none => exact Goes.recvMallocFailed hp
    | some buf => exact Goes.recvMalloced hp
  | whileActive r =>
    obtain rfl := Option.some.inj hop
    rw [Pc.resume]
    split
    · rename_i hactive
      exact Goes.active hactive
    · rename_i hcleared
      exact Goes.inactive (not_not.mp hcleared) r.finishes
  | recvCall r =>
    obtain rfl := Option.some.inj hop
    rw [Pc.resume]
    split
    · rename_i hpos
      exact Goes.received hpos (r.takes ret)
    · rename_i hneg
      exact Goes.ended (Int.not_lt.mp hneg) (Receiving.finishes _)
  | seekIoctl r seekto =>
    obtain rfl := Option.some.inj hop
    rw [Pc.resume]
    split
    · rename_i hneg
      exact Goes.seekFailed hneg
    · rename_i hge
      exact Goes.sought (Int.not_lt.mp hge)
  | seekUnlock r =>
    obtain rfl := Option.some.inj hop
    exact Goes.seekUnlocked (Receiving.finishes _)
  | writeLock r =>
    obtain rfl := Option.some.inj hop
    exact Goes.writeLocked r.writes
  | writeCall r =>
    obtain rfl := Option.some.inj hop
    rw [Pc.resume]
    split
    · rename_i hfail
      exact Goes.writeFailed hfail
    · rename_i hne
      exact Goes.wrote hne (Receiving.writes _)
  | writeUnlock r =>
    obtain rfl := Option.some.inj hop
    exact Goes.writeUnlocked (Receiving.finishes _)
  | realloc r =>
    obtain rfl := Option.some.inj hop
    rw [Pc.resume]
    cases hp : ret.ptr with
    | none => exact Goes.reallocFailed hp
    | some temp => exact Goes.realloced hp
  | lseek r =>
    obtain rfl := Option.some.inj hop
    rw [Pc.resume]
    split
    · rename_i hfail
      exact Goes.lseekFailed hfail
    · rename_i hne
      exact Goes.rewound hne
  | recvFree buf val =>
    obtain rfl := Option.some.inj hop
    rw [Pc.resume]
    split
    · rename_i hfail
      rw [hfail]
      exact Goes.recvFreedFailed
    · rename_i hne
      exact Goes.recvFreed hne
  | sendMalloc =>
    obtain rfl := Option.some.inj hop
    rw [Pc.resume]
    cases hp : ret.ptr with
    | none => exact Goes.sendMallocFailed hp
    | some buf => exact Goes.sendMalloced hp
  | readCall buf =>
    obtain rfl := Option.some.inj hop
    rw [Pc.resume]
    split
    · rename_i hpos
      exact Goes.readChunk hpos
    · rename_i hneg
      exact Goes.readEnded (Int.not_lt.mp hneg)
  | sendCall buf chunk totalSent =>
    obtain rfl := Option.some.inj hop
    rw [Pc.resume]
    split
    · rename_i hfail
      exact Goes.sendFailed hfail
    · rename_i hne
      split
      · rename_i hmore
        exact Goes.sentPart hne hmore
      · rename_i hall
        exact Goes.sentChunk hne (Nat.le_of_not_lt hall)
  | exited => cases hop
  -- the calls whose result does not matter
  | _ =>
    obtain rfl := Option.some.inj hop
    constructor

/-! ## 5. A thread and its client -/

/-- A call and its result. -/
abbrev Event := Op × Ret

/-- A thread with its connection: the bytes the client sent that were not received yet, and the
bytes handed to the client. -/
structure Conn where
  pc : Pc
  inbox : List UInt8
  outbox : List UInt8

/-- One call that does not fail, with `active` 1.  A `recv` takes bytes from the inbox; it takes
none only at the end of the stream. -/
structure Conn.Step (c : Conn) (e : Event) (c' : Conn) : Prop where
  op : c.pc.op = some e.1
  answers : e.1.Answers e.2
  succeeds : e.1.Succeeds e.2
  inbox : c.inbox = e.1.received e.2 ++ c'.inbox
  endOfStream : (∃ buf offset len, e.1 = .recv buf offset len) → e.2.data = [] → c.inbox = []
  outbox : c'.outbox = c.outbox ++ e.1.sent e.2
  pc : c'.pc = c.pc.resume e.2

/-- Whether a call is a `recv`. -/
def Op.isRecv : Op → Bool
  | recv _ _ _ => true
  | _ => false

/-- A step that takes nothing from the client. -/
theorem Conn.plain_step {c : Conn} {op : Op} {ret : Ret} (hop : c.pc.op = some op)
    (ha : op.Answers ret) (hs : op.Succeeds ret) (hr : op.isRecv = false) :
    c.Step (op, ret) ⟨c.pc.resume ret, c.inbox, c.outbox ++ op.sent ret⟩ := by
  refine ⟨hop, ha, hs, ?_, ?_, rfl, rfl⟩
  · cases op with
    | recv => exact absurd hr (by simp [Op.isRecv])
    | _ => rfl
  · rintro ⟨buf, offset, len, rfl⟩
    exact absurd hr (by simp [Op.isRecv])

/-- A `recv` that brings bytes. -/
theorem Conn.recv_step {r : Receiving} {data rest outbox : List UInt8} (hd : data ≠ [])
    (ha : (Op.recv r.buf r.packetSize (r.bufSize - r.packetSize - 1)).Answers
      { val := data.length, data := data }) :
    Conn.Step ⟨.recvCall r, data ++ rest, outbox⟩
      (.recv r.buf r.packetSize (r.bufSize - r.packetSize - 1),
        { val := data.length, data := data })
      ⟨r.received { val := data.length, data := data }, rest, outbox⟩ := by
  have hpos : (0 : ℤ) < data.length := Int.natCast_pos.mpr (List.length_pos_iff.mpr hd)
  refine ⟨rfl, ha, ?_, rfl, fun _ hnil => absurd hnil hd, (List.append_nil _).symm, ?_⟩
  · simp only [Op.Succeeds]
    omega
  · rw [Pc.resume, if_pos hpos]

/-- The step a result leads to, if the system may give it. -/
def Conn.next (c : Conn) (ret : Ret) : Option (Event × Conn) :=
  match c.pc.op with
  | none => none
  | some op =>
    if op.Answers ret ∧ op.Succeeds ret ∧ op.received ret <+: c.inbox ∧
        (op.isRecv = true → ret.data = [] → c.inbox = []) then
      some ((op, ret), ⟨c.pc.resume ret, c.inbox.drop (op.received ret).length,
        c.outbox ++ op.sent ret⟩)
    else none

theorem Conn.step_of_next (c : Conn) (ret : Ret) (e : Event) (c' : Conn)
    (h : c.next ret = some (e, c')) : c.Step e c' := by
  unfold Conn.next at h
  split at h
  · exact absurd h (by simp)
  · rename_i op hop
    split at h
    · rename_i hcond
      obtain ⟨ha, hs, hin, hend⟩ := hcond
      simp only [Option.some.injEq, Prod.mk.injEq] at h
      obtain ⟨rfl, rfl⟩ := h
      refine ⟨hop, ha, hs, (List.prefix_iff_eq_append.mp hin).symm, ?_, rfl, rfl⟩
      rintro ⟨buf, offset, len, rfl⟩
      exact hend rfl
    · exact absurd h (by simp)

end Aesd.Server
