import Aesd.Driver.CircularBuffer
import Aesd.Lib.Blocks

/-! The character device: `aesdchar.h` and `main.c`. What the kernel decides (whether a lock is
interrupted, what `kmalloc` returns, where a user copy stops) is an argument of each call. A
call has no result when it touches memory outside a live block or frees one that is not live. -/
namespace Aesd.Driver
open Blocks

variable {w : ℕ}

/-- `END_WRITE_CHAR`. -/
def endWriteChar : Byte := 10

/-- `MAX_RW_COUNT`, the most that the VFS passes to a read or write. -/
def maxRwCount : ℕ := 0x7ffff000

def eRestartSys : ℤ := 512
def eNoMem : ℤ := 12
def eFault : ℤ := 14

/-- `struct aesd_dev`, with `buffer_lock` as whether it is held. -/
structure AesdDev (w : ℕ) where
  buffer : AesdCircularBuffer w
  entryTemp : AesdBufferEntry w
  bufferLock : Bool
  deriving DecidableEq

/-- The global `aesd_device`, the blocks its driver has allocated, and what module init has
registered: the device number region and the `cdev`. -/
structure DriverState (w : ℕ) where
  device : AesdDev w
  heap : Heap Byte
  region : Bool
  cdev : Bool

/-- `get_lock`, given what `mutex_lock_interruptible` returns. -/
def getLock (mutexLockInterruptible : ℤ) : ℤ :=
  if mutexLockInterruptible ≠ 0 then -eRestartSys else 0

def DriverState.lock (s : DriverState w) : DriverState w :=
  { s with device := { s.device with bufferLock := true } }

/-- `release_lock`. -/
def DriverState.releaseLock (s : DriverState w) : DriverState w :=
  { s with device := { s.device with bufferLock := false } }

/-- `if (p != NULL) FREE(p)`: the heap left and the addresses freed. -/
def freeUnlessNull (heap : Heap Byte) : Ptr → Option (Heap Byte × List ℕ)
  | none => some (heap, [])
  | some a => (heap.free a).map fun heap => (heap, [a])

/-- The kernel's part in one `aesd_write`: the block `kmalloc` returns, with the bytes it
happens to hold, and how much `copy_from_user` leaves uncopied. -/
structure WriteEnv where
  mutexLockInterruptible : ℤ
  kmalloc : Option (ℕ × List Byte)
  bytesNotCopied : ℕ

structure WriteResult (w : ℕ) where
  returned : ℤ
  state : DriverState w
  freed : List ℕ

def allocSize (entryTemp : AesdBufferEntry w) (count : BitVec w) : BitVec w :=
  if entryTemp.buffptr = none then count else entryTemp.size + count

/-- The `memcpy` of the bytes already in `entry_temp`. -/
def copyOldBuffer (heap : Heap Byte) (entryTemp : AesdBufferEntry w) (newBuffer : ℕ) :
    Option (Heap Byte) :=
  match entryTemp.buffptr with
  | none => some heap
  | some old => do
    let bytes ← heap.load old 0 entryTemp.size.toNat
    heap.store newBuffer 0 bytes

/-- The part of `aesd_write` after `entry_temp` took over the new buffer: a complete entry
goes into the ring, and the one it overwrites is freed. -/
def commitEntry (s : DriverState w) (freed : List ℕ) : Option (DriverState w × List ℕ) := do
  let entryTemp := s.device.entryTemp
  let last ← entryTemp.buffptr.bind fun a => s.heap.load a (entryTemp.size - 1).toNat 1
  if last = [endWriteChar] then
    let added := aesdCircularBufferAddEntry s.device.buffer entryTemp
    let (heap, freedEntry) ← freeUnlessNull s.heap added.1
    some ({ s with
      device := { s.device with buffer := added.2, entryTemp := .zero w }
      heap := heap }, freed ++ freedEntry)
  else some (s, freed)

/-- `aesd_write`. -/
def aesdWrite (s : DriverState w) (env : WriteEnv) (buf : List Byte) (count : BitVec w) :
    Option (WriteResult w) :=
  if getLock env.mutexLockInterruptible ≠ 0 then some ⟨-eRestartSys, s, []⟩
  else
    let s := s.lock
    let entryTemp := s.device.entryTemp
    match env.kmalloc with
    | none => some ⟨-eNoMem, s.releaseLock, []⟩
    | some (newBuffer, block) => do
      let heap ← copyOldBuffer (s.heap.alloc newBuffer block) entryTemp newBuffer
      let heap ← heap.store newBuffer entryTemp.size.toNat
        (buf.take (count.toNat - env.bytesNotCopied))
      if 0 < env.bytesNotCopied then
        let heap ← heap.free newBuffer
        some ⟨-eFault, { s.releaseLock with heap := heap }, [newBuffer]⟩
      else
        let (heap, freed) ← freeUnlessNull heap entryTemp.buffptr
        let entryTemp := ⟨some newBuffer, entryTemp.size + count⟩
        let (s, freed) ← commitEntry
          { s with device := { s.device with entryTemp := entryTemp }, heap := heap } freed
        some ⟨count.toInt, s.releaseLock, freed⟩

/-- What the kernel promises of one `aesd_write`: `kmalloc` returns `NULL` or a fresh block of
the size asked for, which is at most `limit`. -/
structure WriteEnv.Allowed (limit : ℕ) (s : DriverState w) (count : BitVec w)
    (env : WriteEnv) : Prop where
  kmalloc : ∀ a block, env.kmalloc = some (a, block) → s.heap a = none ∧
    block.length = (allocSize s.device.entryTemp count).toNat ∧ block.length ≤ limit
  copied : env.bytesNotCopied ≤ count.toNat

instance (limit : ℕ) (s : DriverState w) (count : BitVec w) (env : WriteEnv) :
    Decidable (env.Allowed limit s count) :=
  decidable_of_iff
    ((∀ p ∈ env.kmalloc, s.heap p.1 = none ∧
      p.2.length = (allocSize s.device.entryTemp count).toNat ∧ p.2.length ≤ limit) ∧
      env.bytesNotCopied ≤ count.toNat)
    ⟨fun h => ⟨fun a block hk => h.1 (a, block) hk, h.2⟩,
      fun h => ⟨fun p hp => h.kmalloc p.1 p.2 hp, h.copied⟩⟩

def WriteEnv.succeeds (env : WriteEnv) : Bool :=
  env.mutexLockInterruptible = 0 && env.kmalloc.isSome && env.bytesNotCopied = 0

/-- The kernel's part in one `aesd_read`: how much the `copy_to_user` of the round that starts
at a given number of bytes read leaves uncopied. -/
structure ReadEnv where
  mutexLockInterruptible : ℤ
  bytesNotCopied : ℕ → ℕ

/-- What one `aesd_read` returns and leaves: `*f_pos` and the user's buffer. -/
structure ReadResult (w : ℕ) where
  returned : ℤ
  state : DriverState w
  fPos : BitVec 64
  buf : List Byte

/-- `(size_t)(*f_pos + bytes_read)`, the `loff_t` having 64 bits. -/
def searchOffset (fPos : BitVec 64) (bytesRead : BitVec w) : BitVec w :=
  (fPos + bytesRead.setWidth 64).setWidth w

/-- The loop of `aesd_read`, at most `fuel` rounds of it: `bytes_read` at its end (`none` at the
fault exit) and the user's buffer. -/
def aesdReadLoop (s : DriverState w) (env : ReadEnv) (count : BitVec w) (fPos : BitVec 64) :
    (fuel : ℕ) → (bytesRead charReturned : BitVec w) → (buf : List Byte) →
    Option (Option (BitVec w) × List Byte)
  | 0, _, _, _ => none
  | fuel + 1, bytesRead, charReturned, buf =>
    if bytesRead < count then
      match aesdCircularBufferFindEntryOffsetForFpos s.device.buffer
          (searchOffset fPos bytesRead) charReturned with
      | (none, _) => some (some bytesRead, buf)
      | (some index, charReturned) => do
        let readPointer := s.device.buffer.slot index
        let entryBytes := readPointer.size - charReturned
        let bytesToCopy := if count - bytesRead ≤ entryBytes then count - bytesRead else entryBytes
        let bytes ← readPointer.buffptr.bind fun a =>
          s.heap.load a charReturned.toNat bytesToCopy.toNat
        let bytesNotCopied := env.bytesNotCopied bytesRead.toNat
        let buf := splice buf bytesRead.toNat (bytes.take (bytesToCopy.toNat - bytesNotCopied))
        if 0 < bytesNotCopied then some (none, buf)
        else aesdReadLoop s env count fPos fuel (bytesRead + bytesToCopy) charReturned buf
    else some (some bytesRead, buf)

/-- `aesd_read`; each round reads at least one byte, so `count` rounds and the last test are
enough. -/
def aesdRead (s : DriverState w) (env : ReadEnv) (buf : List Byte) (count : BitVec w)
    (fPos : BitVec 64) : Option (ReadResult w) :=
  if getLock env.mutexLockInterruptible ≠ 0 then some ⟨-eRestartSys, s, fPos, buf⟩
  else do
    let s := s.lock
    let (bytesRead, buf) ← aesdReadLoop s env count fPos (count.toNat + 1) 0 0 buf
    match bytesRead with
    | none => some ⟨-eFault, s.releaseLock, fPos, buf⟩
    | some bytesRead =>
      some ⟨bytesRead.toInt, s.releaseLock, fPos + bytesRead.setWidth 64, buf⟩

/-- `aesd_init_module`, given what `alloc_chrdev_region` and `cdev_add` return. The global
device is cleared by `memset`, then `aesd_circular_buffer_init` and `mutex_init`. -/
def aesdInitModule (s : DriverState w) (allocChrdevRegion cdevAdd : ℤ) : ℤ × DriverState w :=
  if allocChrdevRegion < 0 then (allocChrdevRegion, s)
  else
    let device : AesdDev w := ⟨aesdCircularBufferInit w, .zero w, false⟩
    if cdevAdd ≠ 0 then (cdevAdd, { s with device := device, region := false, cdev := false })
    else (cdevAdd, { s with device := device, region := true, cdev := true })

/-- The state before the module is loaded, whatever the memory of the global device holds. -/
def unloaded (device : AesdDev w) : DriverState w := ⟨device, fun _ => none, false, false⟩

/-- The state a successful `aesd_init_module` leaves. -/
def loaded (w : ℕ) : DriverState w :=
  ⟨⟨aesdCircularBufferInit w, .zero w, false⟩, fun _ => none, true, true⟩

theorem aesdInitModule_ok (device : AesdDev w) {region : ℤ} (h : 0 ≤ region) :
    aesdInitModule (unloaded device) region 0 = (0, loaded w) := by
  simp [aesdInitModule, unloaded, loaded, not_lt.mpr h]

/-- The loop of `aesd_cleanup_module`, at most `fuel` rounds of it. -/
def cleanupLoop : (fuel : ℕ) → AesdCircularBuffer w → Heap Byte → List ℕ →
    Option (AesdCircularBuffer w × Heap Byte × List ℕ)
  | 0, _, _, _ => none
  | fuel + 1, buffer, heap, freed =>
    if buffer.empty then some (buffer, heap, freed)
    else
      match aesdCircularBufferRemoveEntry buffer with
      | (none, buffer) => some (buffer, heap, freed)
      | (some index, buffer) => do
        let (heap, freedEntry) ← freeUnlessNull heap (buffer.slot index).buffptr
        cleanupLoop fuel buffer heap (freed ++ freedEntry)

/-- What `aesd_cleanup_module` leaves, with the addresses it freed, in order. -/
structure CleanupResult (w : ℕ) where
  state : DriverState w
  freed : List ℕ

/-- `aesd_cleanup_module`. -/
def aesdCleanupModule (s : DriverState w) : Option (CleanupResult w) := do
  let (_, heap, freed) ←
    cleanupLoop (maxWriteOperationsSupported + 1) s.device.buffer s.heap []
  let (heap, freedTemp) ← freeUnlessNull heap s.device.entryTemp.buffptr
  some ⟨{ device := { s.device with buffer := aesdCircularBufferInit w, entryTemp := .zero w }
          heap := heap, region := false, cdev := false }, freed ++ freedTemp⟩

end Aesd.Driver
