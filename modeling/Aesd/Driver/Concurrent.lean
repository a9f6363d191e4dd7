/-
# The file operations at work side by side

`Main.lean` runs a file operation as one function of the driver's state.  Here the same code goes
statement by statement, loops included, with threads in the middle of their calls: a call waits at
`mutex_lock_interruptible`, works on the shared state between there and `mutex_unlock`, and the
other threads step in between.

Two parts of a call are not under the mutex, and in them the driver relies on its callers.

* `read` and `write` get the address of a copy of `f_pos`: the VFS takes it before the call and
  stores it back after a call that did not fail.
* `aesd_ioctl` copies its argument before it takes the mutex.

Nothing keeps two calls on one open file from losing a position that way, so here no two calls in
progress are on one open file, as in a program where each thread opens the device for itself.

`concurrent_atomic` says that then the calls are atomic: from the outside, any run of any number
of threads is a run in which each call of `Main.lean` is made in one step, some time between its
start and its end.
-/
import Aesd.Driver.Spec
import Aesd.Lib.Monitor

namespace Aesd.Driver

open MachineInt RingWindow Transition

/-! ## 1. The places in the code -/

/-- What the mutex guards. -/
structure Shared where
  buffer : AesdCircularBuffer
  entry : AesdBufferEntry
  heap : Heap

namespace Concurrent

/-- A call that does not have the mutex yet. -/
inductive Before
  | enter (call : Call)
  | readLock (count : ℕ) (k : Kernel) (pos : ℤ)
  | writeLock (buf : UserBuf) (k : Kernel) (pos : ℤ)
  | seekLock (off : Int64) (whence : Int32) (k : Kernel)
  | ioctlCopy (arg : AesdSeekto) (k : Kernel)
  | adjustLock (writeCmd writeCmdOffset : UInt32) (k : Kernel)

/-- A call that is done with the mutex: it returns, after the VFS has stored its copy of the
position, or the new file's. -/
inductive After
  | newFile
  | store (pos : ℤ) (reply : Reply)
  | ret (reply : Reply)

/-- A call that has the mutex. -/
inductive Inside
  | readCount (count : ℕ) (k : Kernel) (pos : ℤ)
  | readFind (count : ℕ) (k : Kernel) (pos : ℤ) (i left remaining : ℕ)
  | readSize (count : ℕ) (k : Kernel) (pos : ℤ) (entry : Fin maxWriteOperationsSupported)
      (entryOffset : ℕ)
  | readCopy (k : Kernel) (pos : ℤ) (entry : Fin maxWriteOperationsSupported)
      (entryOffset bytesToRead : ℕ)
  | writeSize (buf : UserBuf) (k : Kernel) (pos : ℤ)
  | writeKrealloc (buf : UserBuf) (k : Kernel) (pos : ℤ) (currentSize newSize : ℕ)
  | writeBuffptr (buf : UserBuf) (k : Kernel) (pos : ℤ) (currentSize newSize : ℕ) (tmp : Ptr)
  | writeCopy (buf : UserBuf) (k : Kernel) (pos : ℤ) (currentSize newSize : ℕ)
  | writeFree (pos : ℤ)
  | writeFreed (pos : ℤ)
  | writeDropped (pos : ℤ)
  | writeNewSize (buf : UserBuf) (pos : ℤ) (newSize : ℕ)
  | writeScan (buf : UserBuf) (pos : ℤ) (newSize : ℕ)
  | addOut (buf : UserBuf) (pos : ℤ)
  | addEntry (buf : UserBuf) (pos : ℤ) (index : Fin maxWriteOperationsSupported)
  | addIn (buf : UserBuf) (pos : ℤ) (index : Fin maxWriteOperationsSupported)
  | addFull (buf : UserBuf) (pos : ℤ)
  | writeMoved (buf : UserBuf) (pos : ℤ)
  | writeEmptied (buf : UserBuf) (pos : ℤ)
  | writePos (buf : UserBuf) (pos : ℤ)
  | seekSwitch (off : Int64) (whence : Int32)
  | seekSum (off : Int64) (i left totalSize : ℕ)
  | seekCheck (newpos : ℤ)
  | seekSet (newpos : ℤ)
  | adjustCount (writeCmd writeCmdOffset : UInt32)
  | adjustFind (writeCmd writeCmdOffset : UInt32)
  | adjustSum (writeCmdOffset : UInt32) (index left : ℕ) (cmdOffset : ℤ)
  | adjustSet (writeCmdOffset : UInt32) (cmdOffset : ℤ)
  | unlock (a : After)

/-! ## 2. The code -/

/-- Up to `mutex_lock_interruptible`; `fPos` is `filp->f_pos`. -/
def before : Before → ℤ → Outer Before Inside After
  | .enter (.open _), _ => .leave .newFile
  | .enter (.read _ count k), fPos => .stay (.readLock count k fPos)
  | .enter (.write _ buf k), fPos => .stay (.writeLock buf k fPos)
  | .enter (.seek _ off whence k), _ => .stay (.seekLock off whence k)
  | .enter (.ioctl _ cmd arg k), _ =>
    if cmd = aesdcharIocseekto then .stay (.ioctlCopy arg k) else .leave (.ret ⟨enotty, []⟩)
  | .readLock count k pos, _ =>
    if k.interrupted then .leave (.store pos ⟨erestartsys, []⟩) else .lock (.readCount count k pos)
  | .writeLock buf k pos, _ =>
    if k.interrupted then .leave (.store pos ⟨erestartsys, []⟩) else .lock (.writeSize buf k pos)
  | .seekLock off whence k, _ =>
    if k.interrupted then .leave (.ret ⟨erestartsys, []⟩) else .lock (.seekSwitch off whence)
  | .ioctlCopy arg k, _ =>
    if k.faults then .leave (.ret ⟨efault, []⟩)
    else .stay (.adjustLock arg.writeCmd arg.writeCmdOffset k)
  | .adjustLock writeCmd writeCmdOffset k, _ =>
    if k.interrupted then .leave (.ret ⟨erestartsys, []⟩)
    else .lock (.adjustCount writeCmd writeCmdOffset)

/-- From `mutex_lock_interruptible` to `mutex_unlock`; `fPos` is `filp->f_pos`. -/
def inside : Inside → Shared → ℤ → (Inside ⊕ After) × Shared × ℤ
  -- aesd_read
  | .readCount count k pos, s, fPos =>
    (.inl (.readFind count k pos 0 s.buffer.count (wrapU 64 pos)), s, fPos)
  | .readFind _ _ pos _ 0 _, s, fPos => (.inl (.unlock (.store pos ⟨0, []⟩)), s, fPos)
  | .readFind count k pos i (left + 1) remaining, s, fPos =>
    let entryPos := slotAt s.buffer.outOffs i
    if remaining < (s.buffer.entry entryPos).size then
      (.inl (.readSize count k pos entryPos remaining), s, fPos)
    else
      (.inl (.readFind count k pos (i + 1) left
        (wrapU 64 ((remaining : ℤ) - (s.buffer.entry entryPos).size))), s, fPos)
  | .readSize count k pos entry entryOffset, s, fPos =>
    let entryRemainingBytes := wrapU 64 (((s.buffer.entry entry).size : ℤ) - entryOffset)
    let bytesToRead := if count ≤ entryRemainingBytes then count else entryRemainingBytes
    (.inl (.readCopy k pos entry entryOffset bytesToRead), s, fPos)
  | .readCopy k pos entry entryOffset bytesToRead, s, fPos =>
    if k.faults then (.inl (.unlock (.store pos ⟨efault, []⟩)), s, fPos)
    else
      (.inl (.unlock (.store (wrapS 64 (pos + bytesToRead)) ⟨bytesToRead,
        ((s.buffer.entry entry).buffptr.bytes.drop entryOffset).take bytesToRead⟩)), s, fPos)
  -- aesd_write
  | .writeSize buf k pos, s, fPos =>
    (.inl (.writeKrealloc buf k pos s.entry.size
      (wrapU 64 ((s.entry.size : ℤ) + buf.bytes.length))), s, fPos)
  | .writeKrealloc buf k pos currentSize newSize, s, fPos =>
    match s.heap.krealloc s.entry.buffptr newSize k.krealloc with
    | none => (.inl (.unlock (.store pos ⟨enomem, []⟩)), s, fPos)
    | some (tmp, heap) =>
      (.inl (.writeBuffptr buf k pos currentSize newSize tmp), { s with heap }, fPos)
  | .writeBuffptr buf k pos currentSize newSize tmp, s, fPos =>
    (.inl (.writeCopy buf k pos currentSize newSize),
      { s with entry := { s.entry with buffptr := tmp } }, fPos)
  | .writeCopy buf k pos currentSize newSize, s, fPos =>
    if k.faults then (.inl (.writeFree pos), s, fPos)
    else
      (.inl (.writeNewSize buf pos newSize),
        { s with entry :=
          { s.entry with buffptr := s.entry.buffptr.store currentSize buf.bytes } }, fPos)
  | .writeFree pos, s, fPos =>
    (.inl (.writeFreed pos), { s with heap := s.heap.kfree s.entry.buffptr }, fPos)
  | .writeFreed pos, s, fPos =>
    (.inl (.writeDropped pos), { s with entry := { s.entry with buffptr := .null } }, fPos)
  | .writeDropped pos, s, fPos =>
    (.inl (.unlock (.store pos ⟨efault, []⟩)), { s with entry := { s.entry with size := 0 } }, fPos)
  | .writeNewSize buf pos newSize, s, fPos =>
    (.inl (.writeScan buf pos newSize), { s with entry := { s.entry with size := newSize } }, fPos)
  | .writeScan buf pos newSize, s, fPos =>
    if newline ∈ s.entry.buffptr.bytes.take newSize then (.inl (.addOut buf pos), s, fPos)
    else (.inl (.writePos buf pos), s, fPos)
  -- aesd_circular_buffer_add_entry
  | .addOut buf pos, s, fPos =>
    let index := s.buffer.inOffs
    let buffer := if s.buffer.full then { s.buffer with outOffs := slotAt index 1 } else s.buffer
    (.inl (.addEntry buf pos index), { s with buffer }, fPos)
  | .addEntry buf pos index, s, fPos =>
    let buffer := { s.buffer with entry := Function.update s.buffer.entry index s.entry }
    (.inl (.addIn buf pos index), { s with buffer }, fPos)
  | .addIn buf pos index, s, fPos =>
    (.inl (.addFull buf pos), { s with buffer := { s.buffer with inOffs := slotAt index 1 } }, fPos)
  | .addFull buf pos, s, fPos =>
    let buffer := if !s.buffer.full && s.buffer.inOffs == s.buffer.outOffs then
      { s.buffer with full := true } else s.buffer
    (.inl (.writeMoved buf pos), { s with buffer }, fPos)
  -- aesd_write again
  | .writeMoved buf pos, s, fPos =>
    (.inl (.writeEmptied buf pos), { s with entry := { s.entry with buffptr := .null } }, fPos)
  | .writeEmptied buf pos, s, fPos =>
    (.inl (.writePos buf pos), { s with entry := { s.entry with size := 0 } }, fPos)
  | .writePos buf pos, s, fPos =>
    (.inl (.unlock (.store (wrapS 64 (pos + buf.bytes.length)) ⟨buf.bytes.length, []⟩)), s, fPos)
  -- aesd_seek
  | .seekSwitch off whence, s, fPos =>
    if whence = 0 then (.inl (.seekCheck off.toInt), s, fPos)
    else if whence = 1 then (.inl (.seekCheck (wrapS 64 (fPos + off.toInt))), s, fPos)
    else if whence = 2 then (.inl (.seekSum off 0 s.buffer.count 0), s, fPos)
    else (.inl (.unlock (.ret ⟨einval, []⟩)), s, fPos)
  | .seekSum off _ 0 totalSize, s, fPos =>
    (.inl (.seekCheck (wrapS 64 (wrapS 64 totalSize + off.toInt))), s, fPos)
  | .seekSum off i (left + 1) totalSize, s, fPos =>
    let entryPos := slotAt s.buffer.outOffs i
    (.inl (.seekSum off (i + 1) left (wrapU 64 (totalSize + (s.buffer.entry entryPos).size))),
      s, fPos)
  | .seekCheck newpos, s, fPos =>
    if newpos < 0 then (.inl (.unlock (.ret ⟨einval, []⟩)), s, fPos)
    else (.inl (.seekSet newpos), s, fPos)
  | .seekSet newpos, s, _ => (.inl (.unlock (.ret ⟨newpos, []⟩)), s, newpos)
  -- aesd_adjust_file_offset
  | .adjustCount writeCmd writeCmdOffset, s, fPos =>
    if s.buffer.count ≤ writeCmd.toNat then (.inl (.unlock (.ret ⟨einval, []⟩)), s, fPos)
    else (.inl (.adjustFind writeCmd writeCmdOffset), s, fPos)
  | .adjustFind writeCmd writeCmdOffset, s, fPos =>
    let entryPosOff := slotAt s.buffer.outOffs writeCmd.toNat
    if (s.buffer.entry entryPosOff).size ≤ writeCmdOffset.toNat then
      (.inl (.unlock (.ret ⟨einval, []⟩)), s, fPos)
    else (.inl (.adjustSum writeCmdOffset 0 writeCmd.toNat 0), s, fPos)
  | .adjustSum writeCmdOffset _ 0 cmdOffset, s, fPos =>
    (.inl (.adjustSet writeCmdOffset cmdOffset), s, fPos)
  | .adjustSum writeCmdOffset index (left + 1) cmdOffset, s, fPos =>
    let cmdIndex := slotAt s.buffer.outOffs index
    (.inl (.adjustSum writeCmdOffset (index + 1) left
      (wrapS 64 (cmdOffset + (s.buffer.entry cmdIndex).size))), s, fPos)
  | .adjustSet writeCmdOffset cmdOffset, s, _ =>
    (.inl (.unlock (.ret ⟨0, []⟩)), s, wrapS 64 (cmdOffset + writeCmdOffset.toNat))
  | .unlock a, s, fPos => (.inr a, s, fPos)

/-- After `mutex_unlock`; `fPos` is `filp->f_pos`. -/
def after : After → ℤ → (After ⊕ Reply) × ℤ
  | .newFile, _ => (.inl (.ret ⟨0, []⟩), 0)
  | .store pos reply, fPos => (.inl (.ret reply), if 0 ≤ reply.ret then pos else fPos)
  | .ret reply, fPos => (.inr reply, fPos)

/-- The code of the file operations around the mutex of the device. -/
def driver : Monitor Call ℕ Shared ℤ Reply Before Inside After where
  key := Call.filp
  enter := .enter
  before := before
  inside := inside
  after := after

/-- The driver's state with the mutex free. -/
def state (s : Shared) (fPos : ℕ → ℤ) : DriverState :=
  ⟨⟨s.buffer, s.entry, false⟩, s.heap, fPos⟩

/-! ## 3. What a call comes to alone -/

open Monitor

/-- What a function of `Main.lean` does to a state is what the code of call `c` comes to. -/
def Computes (c : Call) (s : Shared) (f : ℕ → ℤ) (result : DriverState × Reply) : Prop :=
  ∃ s' p' r, driver.Finish (.before (.enter c)) s (f c.filp) s' p' r ∧
    result = (state s' (Function.update f c.filp p'), r)

section Ends

variable {s : Shared} {p : ℤ}

/-- The end of a call that returns without the VFS. -/
theorem finish_ret (reply : Reply) : driver.Finish (.after (.ret reply)) s p s p reply :=
  .done rfl

/-- The end of a call whose position the VFS stores. -/
theorem finish_store (pos : ℤ) (reply : Reply) :
    driver.Finish (.after (.store pos reply)) s p s (if 0 ≤ reply.ret then pos else p) reply :=
  .on rfl (finish_ret reply)

/-- The end of a call that did not fail. -/
theorem finish_stored (pos : ℤ) {reply : Reply} (h : 0 ≤ reply.ret) :
    driver.Finish (.inside (.unlock (.store pos reply))) s p s pos reply := by
  have hs : driver.Finish (.after (.store pos reply)) s p s (if 0 ≤ reply.ret then pos else p)
    reply := finish_store pos reply
  rw [if_pos h] at hs
  exact .unlock rfl hs

/-- The end of a call that failed. -/
theorem finish_failed (pos : ℤ) {reply : Reply} (h : reply.ret < 0) :
    driver.Finish (.inside (.unlock (.store pos reply))) s p s p reply := by
  have hs : driver.Finish (.after (.store pos reply)) s p s (if 0 ≤ reply.ret then pos else p)
    reply := finish_store pos reply
  rw [if_neg (by omega)] at hs
  exact .unlock rfl hs

theorem finish_unlock (reply : Reply) :
    driver.Finish (.inside (.unlock (.ret reply))) s p s p reply :=
  .unlock rfl (finish_ret reply)

end Ends

section Loops

variable {s s' : Shared} {p p' : ℤ} {r : Reply}

/-- **The loop of `find_entry`.** -/
theorem finish_readFind {count : ℕ} {k : Kernel} {pos : ℤ} {left : ℕ} : ∀ {i remaining : ℕ},
    (match findFrom s.buffer i left remaining with
      | none => driver.Finish (.inside (.unlock (.store pos ⟨0, []⟩))) s p s' p' r
      | some (entry, off) =>
        driver.Finish (.inside (.readSize count k pos entry off)) s p s' p' r) →
    driver.Finish (.inside (.readFind count k pos i left remaining)) s p s' p' r := by
  induction left with
  | zero => exact fun h => .inside rfl h
  | succ left ih =>
    intro i remaining h
    unfold findFrom at h
    dsimp only at h
    by_cases hlt : remaining < (s.buffer.entry (slotAt s.buffer.outOffs i)).size
    · rw [if_pos hlt] at h
      exact .inside (if_pos hlt) h
    · rw [if_neg hlt] at h
      exact .inside (if_neg hlt) (ih h)

/-- **The loop of `calculate_size`.** -/
theorem finish_seekSum {off : Int64} {left : ℕ} : ∀ {i totalSize : ℕ},
    driver.Finish (.inside (.seekCheck (wrapS 64
      (wrapS 64 (calculateSizeFrom s.buffer i left totalSize) + off.toInt)))) s p s' p' r →
    driver.Finish (.inside (.seekSum off i left totalSize)) s p s' p' r := by
  induction left with
  | zero => exact fun h => .inside rfl h
  | succ left ih => exact fun h => .inside rfl (ih h)

/-- **The loop of `aesd_adjust_file_offset`.** -/
theorem finish_adjustSum {writeCmdOffset : UInt32} {left : ℕ} : ∀ {index : ℕ} {cmdOffset : ℤ},
    driver.Finish (.inside (.adjustSet writeCmdOffset
      (cmdOffsetFrom s.buffer index left cmdOffset))) s p s' p' r →
    driver.Finish (.inside (.adjustSum writeCmdOffset index left cmdOffset)) s p s' p' r := by
  induction left with
  | zero => exact fun h => .inside rfl h
  | succ left ih => exact fun h => .inside rfl (ih h)

/-- `aesd_circular_buffer_add_entry` and what `aesd_write` does after it. -/
theorem finish_add {buf : UserBuf} {pos : ℤ} (h : driver.Finish (.inside (.writePos buf pos))
      ⟨aesdCircularBufferAddEntry s.buffer s.entry, .zero, s.heap⟩ p s' p' r) :
    driver.Finish (.inside (.addOut buf pos)) s p s' p' r :=
  .inside rfl (.inside rfl (.inside rfl (.inside rfl (.inside rfl (.inside rfl h)))))

/-- `krealloc` that returns NULL. -/
theorem finish_krealloc_none {buf : UserBuf} {k : Kernel} {pos : ℤ} {currentSize newSize : ℕ}
    (hk : s.heap.krealloc s.entry.buffptr newSize k.krealloc = none)
    (h : driver.Finish (.inside (.unlock (.store pos ⟨enomem, []⟩))) s p s' p' r) :
    driver.Finish (.inside (.writeKrealloc buf k pos currentSize newSize)) s p s' p' r := by
  refine .inside ?_ h
  simp only [driver, inside, hk]

/-- `krealloc` that returns a block. -/
theorem finish_krealloc_some {buf : UserBuf} {k : Kernel} {pos : ℤ} {currentSize newSize : ℕ}
    {tmp : Ptr} {heap : Heap}
    (hk : s.heap.krealloc s.entry.buffptr newSize k.krealloc = some (tmp, heap))
    (h : driver.Finish (.inside (.writeBuffptr buf k pos currentSize newSize tmp))
      { s with heap } p s' p' r) :
    driver.Finish (.inside (.writeKrealloc buf k pos currentSize newSize)) s p s' p' r := by
  refine .inside ?_ h
  simp only [driver, inside, hk]

end Loops

section Functions

variable {s : Shared} {f : ℕ → ℤ} {c : Call} {r : Reply}

/-- A call that leaves `f_pos` alone. -/
theorem Computes.stays (s' : Shared)
    (h : driver.Finish (.before (.enter c)) s (f c.filp) s' (f c.filp) r) :
    Computes c s f (state s' f, r) :=
  ⟨s', f c.filp, r, h, by rw [Function.update_eq_self]⟩

/-- A call that moves `f_pos`. -/
theorem Computes.moves (s' : Shared) {p' : ℤ}
    (h : driver.Finish (.before (.enter c)) s (f c.filp) s' p' r) :
    Computes c s f ((state s' f).setPos c.filp p', r) :=
  ⟨s', p', r, h, rfl⟩

variable (s f) (filp : ℕ) (k : Kernel)

theorem computes_read (count : ℕ) :
    Computes (.read filp count k) s f (aesdRead (state s f) filp count k) := by
  unfold aesdRead
  split
  · rename_i hint
    exact .stays s (.stay rfl (.leave (if_pos hint) (.on rfl (finish_ret _))))
  · rename_i hint
    have hstart : ∀ {s' p' r}, driver.Finish (.inside (.readFind count k (f filp) 0 s.buffer.count
        (wrapU 64 (f filp)))) s (f filp) s' p' r →
        driver.Finish (.before (.enter (.read filp count k))) s (f filp) s' p' r :=
      fun h => .stay rfl (.lock (if_neg hint) (.inside rfl h))
    have hfind : ∀ {s' p' r}, _ := fun {s' p' r} => @finish_readFind s s' (f filp) p' r count k
      (f filp) s.buffer.count 0 (wrapU 64 (f filp))
    dsimp only
    split
    · rename_i hnone
      refine .stays s (hstart (hfind ?_))
      rw [show findFrom s.buffer 0 s.buffer.count (wrapU 64 (f filp)) = none from hnone]
      exact finish_stored _ le_rfl
    · rename_i entry off hsome
      have hsome' : findFrom s.buffer 0 s.buffer.count (wrapU 64 (f filp)) = some (entry, off) :=
        hsome
      split
      · rename_i hfault
        refine .stays s (hstart (hfind ?_))
        rw [hsome']
        refine .inside rfl (.inside (if_pos hfault) (finish_failed _ (by decide)))
      · rename_i hfault
        refine .moves s (hstart (hfind ?_))
        rw [hsome']
        exact .inside rfl (.inside (if_neg hfault) (finish_stored _ (Int.natCast_nonneg _)))

theorem computes_write (buf : UserBuf) :
    Computes (.write filp buf k) s f (aesdWrite (state s f) filp buf k) := by
  unfold aesdWrite
  split
  · rename_i hint
    exact .stays s (.stay rfl (.leave (if_pos hint) (.on rfl (finish_ret _))))
  · rename_i hint
    have hstart : ∀ {s' p' r}, driver.Finish (.inside (.writeKrealloc buf k (f filp) s.entry.size
        (wrapU 64 ((s.entry.size : ℤ) + buf.bytes.length)))) s (f filp) s' p' r →
        driver.Finish (.before (.enter (.write filp buf k))) s (f filp) s' p' r :=
      fun h => .stay rfl (.lock (if_neg hint) (.inside rfl h))
    dsimp only
    split
    · rename_i hnone
      exact .stays s (hstart (finish_krealloc_none hnone (finish_failed _ (by decide))))
    · rename_i tmp heap hsome
      split
      · rename_i hfault
        refine .stays (⟨s.buffer, .zero, heap.kfree tmp⟩)
          (hstart (finish_krealloc_some hsome (.inside rfl ?_)))
        exact .inside (if_pos hfault) (.inside rfl (.inside rfl (.inside rfl
          (finish_failed _ (by decide)))))
      · rename_i hfault
        split
        · rename_i hnl
          refine .moves (⟨aesdCircularBufferAddEntry s.buffer
              ⟨tmp.store s.entry.size buf.bytes, wrapU 64 ((s.entry.size : ℤ) + buf.bytes.length)⟩,
            .zero, heap⟩) (hstart (finish_krealloc_some hsome (.inside rfl ?_)))
          exact .inside (if_neg hfault) (.inside rfl (.inside (if_pos hnl)
            (finish_add (.inside rfl (finish_stored _ (Int.natCast_nonneg _))))))
        · rename_i hnl
          refine .moves (⟨s.buffer, ⟨tmp.store s.entry.size buf.bytes,
              wrapU 64 ((s.entry.size : ℤ) + buf.bytes.length)⟩, heap⟩)
            (hstart (finish_krealloc_some hsome (.inside rfl ?_)))
          exact .inside (if_neg hfault) (.inside rfl (.inside (if_neg hnl)
            (.inside rfl (finish_stored _ (Int.natCast_nonneg _)))))

theorem computes_seek (off : Int64) (whence : Int32) :
    Computes (.seek filp off whence k) s f (aesdSeek (state s f) filp off whence k) := by
  unfold aesdSeek
  split
  · rename_i hint
    exact .stays s (.stay rfl (.leave (if_pos hint) (finish_ret _)))
  · rename_i hint
    have hcheck : ∀ newpos, (∀ {s' p' r},
        driver.Finish (.inside (.seekCheck newpos)) s (f filp) s' p' r →
        driver.Finish (.before (.enter (.seek filp off whence k))) s (f filp) s' p' r) →
        Computes (.seek filp off whence k) s f (if newpos < 0 then (state s f, ⟨einval, []⟩)
          else ((state s f).setPos filp newpos, ⟨newpos, []⟩)) := by
      intro newpos hstart
      split
      · rename_i hneg
        exact .stays s (hstart (.inside (if_pos hneg) (finish_unlock _)))
      · rename_i hneg
        exact .moves s (hstart (.inside (if_neg hneg) (.inside rfl (finish_unlock _))))
    have hstart : ∀ {s' p' r}, driver.Finish (.inside (.seekSwitch off whence)) s (f filp) s' p' r →
        driver.Finish (.before (.enter (.seek filp off whence k))) s (f filp) s' p' r :=
      fun h => .stay rfl (.lock (if_neg hint) h)
    by_cases hset : whence = 0
    · simp only [if_pos hset]
      exact hcheck _ fun h => hstart (.inside (if_pos hset) h)
    · simp only [if_neg hset]
      by_cases hcur : whence = 1
      · simp only [if_pos hcur]
        exact hcheck _ fun h => hstart (.inside ((if_neg hset).trans (if_pos hcur)) h)
      · simp only [if_neg hcur]
        by_cases hend : whence = 2
        · simp only [if_pos hend]
          exact hcheck _ fun h => hstart (.inside ((if_neg hset).trans ((if_neg hcur).trans
            (if_pos hend))) (finish_seekSum h))
        · simp only [if_neg hend]
          exact .stays s (hstart (.inside ((if_neg hset).trans ((if_neg hcur).trans (if_neg hend)))
            (finish_unlock _)))

theorem computes_ioctl (cmd : UInt32) (arg : AesdSeekto) :
    Computes (.ioctl filp cmd arg k) s f (aesdIoctl (state s f) filp cmd arg k) := by
  unfold aesdIoctl aesdAdjustFileOffset
  split
  · rename_i hcmd
    split
    · rename_i hfault
      exact .stays s (.stay (if_pos hcmd) (.leave (if_pos hfault) (finish_ret _)))
    · rename_i hfault
      split
      · rename_i hint
        exact .stays s (.stay (if_pos hcmd) (.stay (if_neg hfault) (.leave (if_pos hint)
          (finish_ret _))))
      · rename_i hint
        have hstart : ∀ {s' p' r}, driver.Finish (.inside (.adjustCount arg.writeCmd
            arg.writeCmdOffset)) s (f filp) s' p' r →
            driver.Finish (.before (.enter (.ioctl filp cmd arg k))) s (f filp) s' p' r :=
          fun h => .stay (if_pos hcmd) (.stay (if_neg hfault) (.lock (if_neg hint) h))
        dsimp only
        split
        · rename_i hcount
          exact .stays s (hstart (.inside (if_pos hcount) (finish_unlock _)))
        · rename_i hcount
          split
          · rename_i hsize
            exact .stays s (hstart (.inside (if_neg hcount) (.inside (if_pos hsize)
              (finish_unlock _))))
          · rename_i hsize
            exact .moves s (hstart (.inside (if_neg hcount) (.inside (if_neg hsize)
              (finish_adjustSum (.inside rfl (finish_unlock _))))))
  · rename_i hcmd
    exact .stays s (.leave (if_neg hcmd) (finish_ret _))

end Functions

/-! ## 4. The calls are atomic -/

/-- **Alone, every call does what `Main.lean` says.** -/
theorem meets : driver.Meets DriverState.exec state := by
  intro c s f
  cases c with
  | «open» filp => exact ⟨s, 0, _, .leave rfl (.on rfl (finish_ret _)), rfl⟩
  | read filp count k => exact computes_read s f filp k count
  | write filp buf k => exact computes_write s f filp k buf
  | seek filp off whence k => exact computes_seek s f filp k off whence
  | ioctl filp cmd arg k => exact computes_ioctl s f filp k cmd arg

/-- The driver with threads in its file operations. -/
abbrev Threads (τ : Type) := Sys τ Call ℕ Shared ℤ Before Inside After

/-- The driver after `aesd_init_module`, with no thread in it. -/
def launch {τ : Type} : Threads τ :=
  .start ⟨aesdCircularBufferInit, .zero, Heap.init⟩ fun _ => 0

variable {τ : Type} [DecidableEq τ] {h : List (Threads τ × Label τ Call Reply)} {x : Threads τ}

/-- **The driver's calls are atomic.**  Whatever the threads do in whatever order, the calls and
returns are those of a run in which each call is made in one step between its start and its end;
whenever the mutex is free the device and the heap are as those steps left them, and so is the
position of every open file that no call is on. -/
theorem concurrent_atomic (hr : Run driver.Step launch h x) :
    ∃ h' o, Run (Atomic.Step DriverState.exec) (Atomic.start aesdInitModule) h' o ∧
      Atomic.seen h' = seen h ∧ o.state = aesdInitModule.run (Atomic.effects h') ∧
      (x.holder () = none →
        o.state.dev = ⟨x.shared.buffer, x.shared.entry, false⟩ ∧ o.state.heap = x.shared.heap) ∧
      ∀ filp, x.Unused driver filp → o.state.fPos filp = x.cells filp := by
  obtain ⟨h', o, hrun, hseen, s, f, hsim⟩ := refines meets hr
  refine ⟨h', o, hrun, hseen, Atomic.Run.state hrun, fun hfree => ?_, fun filp hfilp => ?_⟩
  · obtain rfl := hsim.free hfree
    rw [hsim.state]
    exact ⟨rfl, rfl⟩
  · rw [hsim.state]
    exact hsim.unused hfilp

/-- Two threads: while one is in the middle of writing a line through open file 0, the other starts
to read through open file 1 and waits for the mutex; it reads what was written. -/
def overlapping : List (Bool × Option Call) :=
  [(false, some (.write 0 ⟨[104, 105, newline], by decide⟩ {}))] ++
    List.replicate 5 (false, none) ++ [(true, some (.read 1 100 {})), (true, none)] ++
    List.replicate 13 (false, none) ++ List.replicate 8 (true, none)

theorem concurrent_atomic_overlapping :
    ∃ h' o, Run (Atomic.Step DriverState.exec) (Atomic.start aesdInitModule) h' o ∧
      Atomic.seen h' = seen (played driver.next launch overlapping).1 ∧
      o.state = aesdInitModule.run (Atomic.effects h') ∧
      ((played driver.next launch overlapping).2.holder () = none →
        o.state.dev = ⟨(played driver.next launch overlapping).2.shared.buffer,
            (played driver.next launch overlapping).2.shared.entry, false⟩ ∧
          o.state.heap = (played driver.next launch overlapping).2.shared.heap) ∧
      ∀ filp, (played driver.next launch overlapping).2.Unused driver filp →
        o.state.fPos filp = (played driver.next launch overlapping).2.cells filp :=
  concurrent_atomic (Run.of_played driver.step_of_next launch overlapping (by decide +kernel))

/-- **No call of the driver is stuck**: on every path the mutex is given back, so whatever the
threads have come to, they can go on until a given call returns. -/
theorem concurrent_completes (hr : Run driver.Step launch h x) (t : τ) :
    ∃ h' y, Run driver.Step x h' y ∧ NoCall h' ∧ y.call t = none :=
  completes meets hr t

theorem concurrent_completes_overlapping :
    ∃ h' y, Run driver.Step (played driver.next launch (overlapping.take 9)).2 h' y ∧
      NoCall h' ∧ y.call true = none :=
  concurrent_completes (Run.of_played driver.step_of_next launch (overlapping.take 9)
    (by decide +kernel)) true

end Concurrent

end Aesd.Driver
