import Aesd.Driver.DriverRuns

/-! `aesd_write` and `aesd_read` called by any number of threads at once, one call of the kernel or
one group of assignments at a time. Only `buffer_lock` orders the threads. An access outside a live
block has no result. -/
namespace Aesd.Driver
open Blocks

variable {w : ℕ} {ι : Type} [DecidableEq ι]

/-- A call from user space: the bytes to write, or the position to read from and the buffer to
fill, which is as long as the count. -/
inductive Request where
  | write (buf : List Byte)
  | read (fPos : BitVec 64) (buf : List Byte)
  deriving DecidableEq

/-- The value returned, and after a read `*f_pos` and the user's buffer. -/
inductive Response where
  | write (returned : ℤ)
  | read (returned : ℤ) (fPos : BitVec 64) (buf : List Byte)
  deriving DecidableEq

/-- Where `aesd_write` is: what it does next. At the end of a failed copy it releases the lock
before it frees the new buffer. -/
inductive WritePc where
  | lock
  | alloc
  | copyOld (newBuffer : ℕ)
  | copyUser (newBuffer : ℕ)
  | freeOld (newBuffer : ℕ)
  | setEntry (newBuffer : ℕ)
  | endTest
  | addEntry
  | resetEntry (overwrittenEntry : Ptr)
  | freeOverwritten (overwrittenEntry : Ptr)
  | unlock (returned : ℤ)
  | unlockFault (newBuffer : ℕ)
  | freeNew (newBuffer : ℕ)

/-- Where `aesd_read` is: what it does next. -/
inductive ReadPc (w : ℕ) where
  | lock
  | search (bytesRead charReturned : BitVec w)
  | copyUser (index : ℕ) (bytesRead charReturned bytesToCopy : BitVec w)
  | unlock (returned : ℤ) (fPos : BitVec 64)

/-- Where a thread is; a read carries its count and the user's buffer as it is by now. -/
inductive CallPc (w : ℕ) where
  | idle
  | write (buf : List Byte) (pc : WritePc)
  | read (fPos : BitVec 64) (count : BitVec w) (buf : List Byte) (pc : ReadPc w)
  | returns (response : Response)

/-- A step of a thread, with what the kernel answers. `compute` is a step without an answer. -/
inductive CallEvent where
  | invoke (request : Request)
  | mutexLockInterruptible (rc : ℤ)
  | kmalloc (got : Option (ℕ × List Byte))
  | copyFromUser (bytesNotCopied : ℕ)
  | copyToUser (bytesNotCopied : ℕ)
  | mutexUnlock
  | compute
  | respond (response : Response)

namespace DriverState

def withHeap (s : DriverState w) (heap : Heap Byte) : DriverState w := { s with heap := heap }

def withEntryTemp (s : DriverState w) (e : AesdBufferEntry w) : DriverState w :=
  { s with device := { s.device with entryTemp := e } }

def withBuffer (s : DriverState w) (buffer : AesdCircularBuffer w) : DriverState w :=
  { s with device := { s.device with buffer := buffer } }

end DriverState

/-- `aesd_write`, one step. -/
def writeStep (s : DriverState w) (buf : List Byte) :
    WritePc → CallEvent → Option (DriverState w × CallPc w)
  | .lock, .mutexLockInterruptible rc =>
    if getLock rc ≠ 0 then some (s, .returns (.write (-eRestartSys)))
    else if s.device.bufferLock then none
    else some (s.lock, .write buf .alloc)
  | .alloc, .kmalloc got =>
    match got with
    | none => some (s, .write buf (.unlock (-eNoMem)))
    | some (a, block) => some (s.withHeap (s.heap.alloc a block), .write buf (.copyOld a))
  | .copyOld a, .compute => (copyOldBuffer s.heap s.device.entryTemp a).map fun heap =>
    (s.withHeap heap, .write buf (.copyUser a))
  | .copyUser a, .copyFromUser bytesNotCopied =>
    (s.heap.store a s.device.entryTemp.size.toNat
      (buf.take ((BitVec.ofNat w buf.length).toNat - bytesNotCopied))).map fun heap =>
        (s.withHeap heap, .write buf (if 0 < bytesNotCopied then .unlockFault a else .freeOld a))
  | .freeOld a, .compute => (freeUnlessNull s.heap s.device.entryTemp.buffptr).map fun r =>
    (s.withHeap r.1, .write buf (.setEntry a))
  | .setEntry a, .compute =>
    some (s.withEntryTemp ⟨some a, s.device.entryTemp.size + BitVec.ofNat w buf.length⟩,
      .write buf .endTest)
  | .endTest, .compute =>
    let entryTemp := s.device.entryTemp
    (entryTemp.buffptr.bind fun a => s.heap.load a (entryTemp.size - 1).toNat 1).map fun last =>
      (s, .write buf (if last = [endWriteChar] then .addEntry
        else .unlock (BitVec.ofNat w buf.length).toInt))
  | .addEntry, .compute =>
    let added := aesdCircularBufferAddEntry s.device.buffer s.device.entryTemp
    some (s.withBuffer added.2, .write buf (.resetEntry added.1))
  | .resetEntry overwritten, .compute =>
    some (s.withEntryTemp (.zero w), .write buf (.freeOverwritten overwritten))
  | .freeOverwritten overwritten, .compute => (freeUnlessNull s.heap overwritten).map fun r =>
    (s.withHeap r.1, .write buf (.unlock (BitVec.ofNat w buf.length).toInt))
  | .unlock returned, .mutexUnlock => some (s.releaseLock, .returns (.write returned))
  | .unlockFault a, .mutexUnlock => some (s.releaseLock, .write buf (.freeNew a))
  | .freeNew a, .compute => (s.heap.free a).map fun heap =>
    (s.withHeap heap, .returns (.write (-eFault)))
  | _, _ => none

/-- The test of the loop of `aesd_read` and the search of its next round. -/
def readRound (device : AesdDev w) (fPos : BitVec 64) (count bytesRead charReturned : BitVec w) :
    ReadPc w :=
  if bytesRead < count then
    match aesdCircularBufferFindEntryOffsetForFpos device.buffer
        (searchOffset fPos bytesRead) charReturned with
    | (none, _) => .unlock bytesRead.toInt (fPos + bytesRead.setWidth 64)
    | (some index, charReturned) =>
      let entryBytes := (device.buffer.slot index).size - charReturned
      let bytesToCopy := if count - bytesRead ≤ entryBytes then count - bytesRead else entryBytes
      .copyUser index bytesRead charReturned bytesToCopy
  else .unlock bytesRead.toInt (fPos + bytesRead.setWidth 64)

/-- `aesd_read`, one step. -/
def readStep (s : DriverState w) (fPos : BitVec 64) (count : BitVec w) (buf : List Byte) :
    ReadPc w → CallEvent → Option (DriverState w × CallPc w)
  | .lock, .mutexLockInterruptible rc =>
    if getLock rc ≠ 0 then some (s, .returns (.read (-eRestartSys) fPos buf))
    else if s.device.bufferLock then none
    else some (s.lock, .read fPos count buf (.search 0 0))
  | .search bytesRead charReturned, .compute =>
    some (s, .read fPos count buf (readRound s.device fPos count bytesRead charReturned))
  | .copyUser index bytesRead charReturned bytesToCopy, .copyToUser bytesNotCopied =>
    ((s.device.buffer.slot index).buffptr.bind fun a =>
      s.heap.load a charReturned.toNat bytesToCopy.toNat).map fun bytes =>
        let buf := splice buf bytesRead.toNat (bytes.take (bytesToCopy.toNat - bytesNotCopied))
        (s, .read fPos count buf (if 0 < bytesNotCopied then .unlock (-eFault) fPos
          else .search (bytesRead + bytesToCopy) charReturned))
  | .unlock returned fPos, .mutexUnlock =>
    some (s.releaseLock, .returns (.read returned fPos buf))
  | _, _ => none

def callStep (s : DriverState w) : CallPc w → CallEvent → Option (DriverState w × CallPc w)
  | .idle, .invoke (.write buf) => some (s, .write buf .lock)
  | .idle, .invoke (.read fPos buf) =>
    some (s, .read fPos (BitVec.ofNat w buf.length) buf .lock)
  | .write buf pc, e => writeStep s buf pc e
  | .read fPos count buf pc, e => readStep s fPos count buf pc e
  | .returns response, .respond response' =>
    if response' = response then some (s, .idle) else none
  | _, _ => none

/-- The calls considered. No caller passes more than `MAX_RW_COUNT` bytes; that a write has a byte
and that a position fits a `size_t` are assumptions, which the VFS does not check. -/
def Request.Passed (w : ℕ) : Request → Prop
  | .write buf => 0 < buf.length ∧ buf.length ≤ maxRwCount
  | .read fPos buf => fPos.toNat < 2 ^ w ∧ buf.length ≤ maxRwCount

def CallPc.Allowed (limit : ℕ) (s : DriverState w) : CallPc w → CallEvent → Prop
  | _, .invoke request => request.Passed w
  | .write buf _, .kmalloc (some (a, block)) => s.heap a = none ∧
    block.length = (allocSize s.device.entryTemp (BitVec.ofNat w buf.length)).toNat ∧
      block.length ≤ limit
  | .write buf _, .copyFromUser bytesNotCopied => bytesNotCopied ≤ buf.length
  | _, _ => True

structure Callers (ι : Type) (w : ℕ) where
  driver : DriverState w
  pc : ι → CallPc w

def Callers.start (ι : Type) (w : ℕ) : Callers ι w := ⟨loaded w, fun _ => .idle⟩

def Callers.Step (limit : ℕ) (c : Callers ι w) (l : ι × CallEvent) (c' : Callers ι w) : Prop :=
  (c.pc l.1).Allowed limit c.driver l.2 ∧ ∃ s pc, callStep c.driver (c.pc l.1) l.2 = some (s, pc) ∧
    c' = ⟨s, Function.update c.pc l.1 pc⟩

instance (request : Request) : Decidable (request.Passed w) :=
  match request with
  | .write buf => inferInstanceAs (Decidable (0 < buf.length ∧ buf.length ≤ maxRwCount))
  | .read fPos buf => inferInstanceAs (Decidable (fPos.toNat < 2 ^ w ∧ buf.length ≤ maxRwCount))

instance (limit : ℕ) (s : DriverState w) (pc : CallPc w) (e : CallEvent) :
    Decidable (pc.Allowed limit s e) :=
  match pc, e with
  | _, .invoke request => inferInstanceAs (Decidable (request.Passed w))
  | .write buf _, .kmalloc (some (a, block)) => inferInstanceAs (Decidable (s.heap a = none ∧
      block.length = (allocSize s.device.entryTemp (BitVec.ofNat w buf.length)).toNat ∧
        block.length ≤ limit))
  | .write buf _, .copyFromUser bytesNotCopied =>
    inferInstanceAs (Decidable (bytesNotCopied ≤ buf.length))
  | _, .kmalloc none | .idle, .kmalloc (some _) | .read _ _ _ _, .kmalloc (some _)
  | .returns _, .kmalloc (some _) | .idle, .copyFromUser _ | .read _ _ _ _, .copyFromUser _
  | .returns _, .copyFromUser _ | _, .mutexLockInterruptible _ | _, .copyToUser _
  | _, .mutexUnlock | _, .compute | _, .respond _ => .isTrue trivial

def Callers.checkedStep (limit : ℕ) (c : Callers ι w) (l : ι × CallEvent) : Option (Callers ι w) :=
  if (c.pc l.1).Allowed limit c.driver l.2 then
    (callStep c.driver (c.pc l.1) l.2).map fun r => ⟨r.1, Function.update c.pc l.1 r.2⟩
  else none

theorem checkedStep_step {limit : ℕ} {c c' : Callers ι w} {l : ι × CallEvent}
    (h : c.checkedStep limit l = some c') : c.Step limit l c' := by
  unfold Callers.checkedStep at h
  split at h
  next hallowed =>
    obtain ⟨⟨s, pc⟩, hs, rfl⟩ := Option.map_eq_some_iff.mp h
    exact ⟨hallowed, s, pc, hs, rfl⟩
  next => cases h

end Aesd.Driver
