import Aesd.Driver.CircularBuffer

/-! The calls that the threads of the server make, each with its result: `aesdsocket.h` and what
it uses of POSIX. -/
namespace Aesd.Server
open Driver (Byte)

/-- A descriptor number. -/
abbrev Fd := ℕ

/-- `PACKET_ENDING`. -/
def packetEnding : Byte := 10

def recvBufferGrowSize : ℕ := 1024
def recvBufferTempSize : ℕ := 1024
def sendBufferSize : ℕ := 1024

/-- What the build defines. -/
structure Build where
  disableLocking : Bool
  disableTimestamp : Bool

/-- `USE_AESD_CHAR_DEVICE` undefined. -/
def fileBuild : Build := ⟨false, false⟩

/-- `USE_AESD_CHAR_DEVICE` defined, which defines both others. -/
def deviceBuild : Build := ⟨true, true⟩

/-- An `int` that holds `n`. -/
def cInt (n : ℕ) : ℤ := (BitVec.ofNat 32 n).toInt

/-- `struct tm`, as far as `TIME_FORMAT` prints it. -/
structure Tm where
  year : ℕ
  month : ℕ
  day : ℕ
  hour : ℕ
  minute : ℕ
  second : ℕ
  deriving DecidableEq

/-- One call of a thread with its arguments and result; a result `none` is `-1` or `NULL`.
`recv` and `send` name the connection behind the descriptor. `compute` is a step that makes no
call and `returns` the return of `sending_data` or `write_time_stamp`. -/
inductive Event where
  | mutexLock (ok : Bool)
  | mutexUnlock (ok : Bool)
  | openFile (fd : Option Fd)
  | write (fd : Fd) (data : List Byte) (written : Option ℕ)
  | lseek (fd : Fd)
  | read (fd : Fd) (count : ℕ) (got : Option (List Byte))
  | close (fd : Fd) (ok : Bool)
  | recv (fd : Fd) (conn : ℕ) (count : ℕ) (got : Option (List Byte))
  | send (fd : Fd) (conn : ℕ) (data : List Byte) (flags : ℕ) (sent : Option ℕ)
  | mallocBuffers (block : List Byte)
  | realloc (size : ℕ) (block : Option (List Byte))
  | loadSignal (caught : Bool)
  | compute
  | returns (r : ℤ)
  | exitThread
  | clockGettime (sec : ℕ)
  | localtime (tm : Tm)
  | tryJoin (thread : ℕ) (joined : Option (ℕ × Fd))
  | accept (got : Option (Fd × ℕ))
  | malloc (addr : Option ℕ)
  | free (addr : ℕ)
  | pthreadCreate (thread : Option ℕ)
  deriving DecidableEq

/-- What POSIX promises of every result: no more bytes than asked for, and at least one taken by
a `send` that does not fail. -/
def Event.Posix : Event → Prop
  | .write _ data (some n) => n ≤ data.length
  | .read _ count (some got) => got.length ≤ count
  | .recv _ _ count (some got) => got.length ≤ count
  | .send _ _ data _ (some n) => 0 < n ∧ n ≤ data.length
  | _ => True

instance (e : Event) : Decidable e.Posix := by
  unfold Event.Posix
  split <;> infer_instance

/-- `write_to_file`, given what `write` returns. -/
def writeToFile (dataLength : ℕ) (written : Option ℕ) : ℤ :=
  match written with
  | none => -1
  | some n => if n ≠ dataLength then -1 else cInt n

/-- The count that `read_from_file` asks for. -/
def readFromFileCount (bufferSize : ℕ) : ℕ := bufferSize - 1

theorem writeToFile_eq {n : ℕ} {written : Option ℕ} (h : writeToFile n written ≠ -1) :
    written = some n := by
  unfold writeToFile at h
  cases written with
  | none => exact absurd rfl h
  | some k =>
    by_cases hk : k = n
    · rw [hk]
    · exact absurd (if_pos hk) h

end Aesd.Server
