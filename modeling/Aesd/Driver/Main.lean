/-
# The character driver

`main.c` of the driver, function by function: the five file operations, module initialisation
and module cleanup, over the state they share.

Outside `main.c` and so an input of the model is what the kernel decides: whether
`mutex_lock_interruptible` is interrupted, what `krealloc` does, and whether a copy to or from
user space faults.  Two limits of the kernel are part of the model and not of its inputs.

* A user buffer is shorter than `2 ^ 63` bytes: the VFS turns away a count that is negative as
  a `ssize_t` (`UserBuf`).
* The blocks alive at one time are distinct parts of one address space, so their sizes add up
  to less than `2 ^ 63`; `krealloc` returns NULL for a request that would exceed it.

The content of a block is kept with the pointer to it (`Ptr.block`), and which blocks are alive
and which were released is kept in a ledger (`Heap`), so that a leak, a double release and a
pointer to a released block are all visible.
-/
import Aesd.Driver.Buffer

namespace Aesd.Driver

open MachineInt RingWindow

/-! ## 1. The kernel allocator -/

/-- The allocator's ledger: the blocks alive with their sizes, the releases made, and the name
the next block gets. -/
structure Heap where
  live : List (ℕ × ℕ)
  released : List ℕ
  fresh : ℕ
  deriving DecidableEq

/-- What the allocator decides about one `krealloc`: NULL with the old block kept, the same
block, or another block with the old one released. -/
inductive KreallocOutcome
  | fails
  | inPlace
  | moves
  deriving DecidableEq

namespace Heap

/-- The heap before the module allocates anything. -/
def init : Heap := ⟨[], [], 0⟩

/-- `kfree`: nothing for `NULL` and `ZERO_SIZE_PTR`. -/
def kfree (h : Heap) (p : Ptr) : Heap :=
  match p.id? with
  | none => h
  | some id => { h with live := h.live.filter (fun b => b.1 ≠ id), released := id :: h.released }

/-- The sizes of all blocks alive. -/
def liveSize (h : Heap) : ℕ := (h.live.map Prod.snd).sum

/-- A fresh block of `size` bytes that starts with `bytes`. -/
def alloc (h : Heap) (size : ℕ) (bytes : List UInt8) : Ptr × Heap :=
  (.block h.fresh bytes, { h with live := (h.fresh, size) :: h.live, fresh := h.fresh + 1 })

/-- `krealloc`.  The bytes past the old content are undefined until they are written, so a
block's content here ends where it was last written. -/
def krealloc (h : Heap) (p : Ptr) (newSize : ℕ) (o : KreallocOutcome) : Option (Ptr × Heap) :=
  if o = .fails then none
  else if newSize = 0 then some (.zeroSize, h.kfree p)
  else if 2 ^ 63 ≤ (h.kfree p).liveSize + newSize then none
  else
    match p, o with
    | .block id bytes, .inPlace =>
      some (.block id (bytes.take newSize),
        { h with live := (id, newSize) :: h.live.filter (fun b => b.1 ≠ id) })
    | _, _ => some ((h.kfree p).alloc newSize (p.bytes.take newSize))

end Heap

/-- `copy_from_user` into a block, `offset` bytes from its start. -/
def Ptr.store (p : Ptr) (offset : ℕ) (buf : List UInt8) : Ptr :=
  match p with
  | .block id bytes => .block id (bytes.take offset ++ buf)
  | p => p

/-! ## 2. The state and the inputs -/

/-- `struct aesd_dev`, without its `cdev`; `mutex` says whether the mutex is held. -/
structure AesdDev where
  buffer : AesdCircularBuffer
  entry : AesdBufferEntry
  mutex : Bool

/-- The driver at run time: the device, the kernel heap, and `f_pos` of every open file.  All
open files share the one device. -/
structure DriverState where
  dev : AesdDev
  heap : Heap
  fPos : ℕ → ℤ

/-- A user buffer of `count` bytes. -/
structure UserBuf where
  bytes : List UInt8
  small : bytes.length < 2 ^ 63

/-- What the kernel decides during one call. -/
structure Kernel where
  /-- `mutex_lock_interruptible` returned nonzero. -/
  interrupted : Bool := false
  /-- `copy_to_user` or `copy_from_user` returned nonzero. -/
  faults : Bool := false
  krealloc : KreallocOutcome := .moves
  deriving DecidableEq

/-- What a call hands back: its return value and the bytes copied to user space. -/
structure Reply where
  ret : ℤ
  data : List UInt8 := []
  deriving DecidableEq

/-- `struct aesd_seekto`. -/
structure AesdSeekto where
  writeCmd : UInt32
  writeCmdOffset : UInt32
  deriving DecidableEq

/-- `-ENOMEM`, `-EFAULT`, `-EINVAL`, `-ENOTTY` and `-ERESTARTSYS`. -/
def enomem : ℤ := -12
def efault : ℤ := -14
def einval : ℤ := -22
def enotty : ℤ := -25
def erestartsys : ℤ := -512

/-- The byte `'\n'`. -/
def newline : UInt8 := 10

/-- `AESDCHAR_IOCSEEKTO`, that is `_IOWR(0x16, 1, struct aesd_seekto)`. -/
def aesdcharIocseekto : UInt32 := 0xC0081601

namespace DriverState

/-- `mutex_lock_interruptible` that was not interrupted. -/
def lock (s : DriverState) : DriverState := { s with dev := { s.dev with mutex := true } }

/-- `mutex_unlock`. -/
def unlock (s : DriverState) : DriverState := { s with dev := { s.dev with mutex := false } }

/-- The state with another `f_pos` for one file. -/
def setPos (s : DriverState) (filp : ℕ) (pos : ℤ) : DriverState :=
  { s with fPos := Function.update s.fPos filp pos }

/-- The state with another working entry. -/
def setEntry (s : DriverState) (e : AesdBufferEntry) : DriverState :=
  { s with dev := { s.dev with entry := e } }

/-- The state with another circular buffer. -/
def setBuffer (s : DriverState) (b : AesdCircularBuffer) : DriverState :=
  { s with dev := { s.dev with buffer := b } }

/-- The state with another heap. -/
def setHeap (s : DriverState) (h : Heap) : DriverState := { s with heap := h }

end DriverState

/-! ## 3. The file operations -/

/-- `aesd_open` on a new `struct file`, whose `f_pos` is 0. -/
def aesdOpen (s : DriverState) (filp : ℕ) : DriverState × Reply := (s.setPos filp 0, ⟨0, []⟩)

/-- `aesd_read`. -/
def aesdRead (s : DriverState) (filp count : ℕ) (k : Kernel) : DriverState × Reply :=
  if k.interrupted then (s, ⟨erestartsys, []⟩)
  else
    let s := s.lock
    match aesdCircularBufferFindEntryOffsetForFpos s.dev.buffer (wrapU 64 (s.fPos filp)) with
    | none => (s.unlock, ⟨0, []⟩)
    | some (pos, entryOffset) =>
      let entry := s.dev.buffer.entry pos
      let entryRemainingBytes := wrapU 64 ((entry.size : ℤ) - entryOffset)
      let bytesToRead := if count ≤ entryRemainingBytes then count else entryRemainingBytes
      if k.faults then (s.unlock, ⟨efault, []⟩)
      else
        let s := s.setPos filp (wrapS 64 (s.fPos filp + bytesToRead))
        (s.unlock, ⟨bytesToRead, (entry.buffptr.bytes.drop entryOffset).take bytesToRead⟩)

/-- `aesd_write`. -/
def aesdWrite (s : DriverState) (filp : ℕ) (buf : UserBuf) (k : Kernel) : DriverState × Reply :=
  if k.interrupted then (s, ⟨erestartsys, []⟩)
  else
    let s := s.lock
    let count := buf.bytes.length
    let currentSize := s.dev.entry.size
    let newSize := wrapU 64 ((currentSize : ℤ) + count)
    match s.heap.krealloc s.dev.entry.buffptr newSize k.krealloc with
    | none => (s.unlock, ⟨enomem, []⟩)
    | some (tmp, heap) =>
      let s := (s.setHeap heap).setEntry { s.dev.entry with buffptr := tmp }
      if k.faults then
        -- the copy faults: the working entry is dropped with everything it held
        let s := (s.setHeap (s.heap.kfree s.dev.entry.buffptr)).setEntry .zero
        (s.unlock, ⟨efault, []⟩)
      else
        let s := s.setEntry ⟨s.dev.entry.buffptr.store currentSize buf.bytes, newSize⟩
        let s :=
          if newline ∈ s.dev.entry.buffptr.bytes.take newSize then
            -- the entry moves to the ring; what the ring overwrites is not released
            (s.setBuffer (aesdCircularBufferAddEntry s.dev.buffer s.dev.entry)).setEntry .zero
          else s
        let s := s.setPos filp (wrapS 64 (s.fPos filp + count))
        (s.unlock, ⟨count, []⟩)

/-- `aesd_seek`. -/
def aesdSeek (s : DriverState) (filp : ℕ) (off : Int64) (whence : Int32) (k : Kernel) :
    DriverState × Reply :=
  if k.interrupted then (s, ⟨erestartsys, []⟩)
  else
    let s := s.lock
    let newpos : Option ℤ :=
      if whence = 0 then some off.toInt
      else if whence = 1 then some (wrapS 64 (s.fPos filp + off.toInt))
      else if whence = 2 then
        some (wrapS 64 (aesdCircularBufferCalculateSize s.dev.buffer + off.toInt))
      else none
    match newpos with
    | none => (s.unlock, ⟨einval, []⟩)
    | some newpos =>
      if newpos < 0 then (s.unlock, ⟨einval, []⟩)
      else ((s.setPos filp newpos).unlock, ⟨newpos, []⟩)

/-- The loop of `aesd_adjust_file_offset`: the sizes of the commands before `write_cmd`, `left`
of them still to add. -/
def cmdOffsetFrom (buffer : AesdCircularBuffer) (index : ℕ) : ℕ → ℤ → ℤ
  | 0, cmdOffset => cmdOffset
  | left + 1, cmdOffset =>
    let cmdIndex := slotAt buffer.outOffs index
    cmdOffsetFrom buffer (index + 1) left (wrapS 64 (cmdOffset + (buffer.entry cmdIndex).size))

/-- `aesd_adjust_file_offset`. -/
def aesdAdjustFileOffset (s : DriverState) (filp : ℕ) (writeCmd writeCmdOffset : UInt32)
    (k : Kernel) : DriverState × Reply :=
  if k.interrupted then (s, ⟨erestartsys, []⟩)
  else
    let s := s.lock
    if s.dev.buffer.count ≤ writeCmd.toNat then (s.unlock, ⟨einval, []⟩)
    else
      let entryPosOff := slotAt s.dev.buffer.outOffs writeCmd.toNat
      if (s.dev.buffer.entry entryPosOff).size ≤ writeCmdOffset.toNat then
        (s.unlock, ⟨einval, []⟩)
      else
        let cmdOffset := cmdOffsetFrom s.dev.buffer 0 writeCmd.toNat 0
        ((s.setPos filp (wrapS 64 (cmdOffset + writeCmdOffset.toNat))).unlock, ⟨0, []⟩)

/-- `aesd_ioctl`; `arg` is the structure its argument points to. -/
def aesdIoctl (s : DriverState) (filp : ℕ) (cmd : UInt32) (arg : AesdSeekto) (k : Kernel) :
    DriverState × Reply :=
  if cmd = aesdcharIocseekto then
    if k.faults then (s, ⟨efault, []⟩)
    else aesdAdjustFileOffset s filp arg.writeCmd arg.writeCmdOffset k
  else (s, ⟨enotty, []⟩)

/-! ## 4. Initialisation, cleanup and runs -/

/-- The state `aesd_init_module` leaves when it succeeds. -/
def aesdInitModule : DriverState :=
  { dev := { buffer := aesdCircularBufferInit, entry := .zero, mutex := false }
    heap := Heap.init
    fPos := fun _ => 0 }

/-- `AESD_CIRCULAR_BUFFER_FOREACH` with a `kfree` of each slot. -/
def kfreeSlots (buffer : AesdCircularBuffer) (h : Heap) : Heap :=
  (List.finRange maxWriteOperationsSupported).foldl (fun h i => h.kfree (buffer.entry i).buffptr) h

/-- The heap `aesd_cleanup_module` leaves. -/
def aesdCleanupModule (s : DriverState) : Heap :=
  kfreeSlots s.dev.buffer (s.heap.kfree s.dev.entry.buffptr)

/-- One call of the driver on an open file. -/
inductive Call
  | open (filp : ℕ)
  | read (filp count : ℕ) (k : Kernel)
  | write (filp : ℕ) (buf : UserBuf) (k : Kernel)
  | seek (filp : ℕ) (off : Int64) (whence : Int32) (k : Kernel)
  | ioctl (filp : ℕ) (cmd : UInt32) (arg : AesdSeekto) (k : Kernel)

/-- Perform one call. -/
def DriverState.exec (s : DriverState) : Call → DriverState × Reply
  | .open filp => aesdOpen s filp
  | .read filp count k => aesdRead s filp count k
  | .write filp buf k => aesdWrite s filp buf k
  | .seek filp off whence k => aesdSeek s filp off whence k
  | .ioctl filp cmd arg k => aesdIoctl s filp cmd arg k

section Exec

variable (s : DriverState) (filp : ℕ) (k : Kernel)

theorem DriverState.exec_read (count : ℕ) :
    s.exec (.read filp count k) = aesdRead s filp count k := rfl

theorem DriverState.exec_write (buf : UserBuf) :
    s.exec (.write filp buf k) = aesdWrite s filp buf k := rfl

theorem DriverState.exec_seek (off : Int64) (whence : Int32) :
    s.exec (.seek filp off whence k) = aesdSeek s filp off whence k := rfl

theorem DriverState.exec_ioctl (cmd : UInt32) (arg : AesdSeekto) :
    s.exec (.ioctl filp cmd arg k) = aesdIoctl s filp cmd arg k := rfl

end Exec

/-- Perform a sequence of calls. -/
def DriverState.run (s : DriverState) (calls : List Call) : DriverState :=
  calls.foldl (fun s c => (s.exec c).1) s

/-- The states a run from `aesd_init_module` can reach. -/
def Reachable (s : DriverState) : Prop := ∃ calls, s = aesdInitModule.run calls

end Aesd.Driver
