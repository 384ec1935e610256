import Aesd.Lib.Blocks
import Aesd.Server.Calls

/-! One worker thread: `main_loop_thread` with `waiting_for_data`, `process_received_data` and
`sending_data`, one call at a time. A step that would access memory outside a block has no
result. -/
namespace Aesd.Server
open Driver (Byte)
open Blocks

inductive ThreadState where
  | sendingData
  | waitingForData
  | processingData
  | closedConnection
  deriving DecidableEq

/-- `struct ThreadData` and its address. -/
structure ThreadData where
  addr : ℕ
  clientFd : Fd
  threadState : ThreadState
  deriving DecidableEq

/-- `struct BufferData`; `buffer` is the whole block, empty for `NULL`. -/
structure BufferData where
  buffer : List Byte
  size : ℕ
  allocated : ℕ
  deriving DecidableEq

/-- The bytes in use. -/
def BufferData.content (b : BufferData) : List Byte := b.buffer.take b.size

/-- The `memcpy` to `buffer + size`, then `size += n`. -/
def BufferData.append (b : BufferData) (xs : List Byte) : Option BufferData :=
  (writeBlock b.buffer b.size xs).map fun buffer => ⟨buffer, b.size + xs.length, b.allocated⟩

/-- `process_received_data`: the next state and both buffers. -/
def processReceivedData (rb rbNew : BufferData) :
    Option (ThreadState × BufferData × BufferData) :=
  match rbNew.content.findIdx? (· = packetEnding) with
  | some index => do
      let packet ← readBlock rbNew.buffer 0 (index + 1)
      let rb ← rb.append packet
      let rest ← readBlock rbNew.buffer (index + 1) (rbNew.size - (index + 1))
      let buffer ← writeBlock rbNew.buffer 0 rest
      some (.sendingData, rb, ⟨buffer, rbNew.size - (index + 1), rbNew.allocated⟩)
  | none => do
      let data ← readBlock rbNew.buffer 0 rbNew.size
      let rb ← rb.append data
      some (.waitingForData, rb, { rbNew with size := 0 })

/-- Where `sending_data` is: the call it makes next, with the file's descriptor and the part of
`send_buffer` that is not sent yet. After `closeFail` and `unlockFail` it returns `-1`. -/
inductive SendPc where
  | lock
  | openFile
  | write (fd : Fd)
  | lseek (fd : Fd)
  | read (fd : Fd)
  | send (fd : Fd) (rest : List Byte)
  | closeOk (fd : Fd)
  | unlockOk
  | closeFail (fd : Fd)
  | unlockFail
  | ret (r : ℤ)
  deriving DecidableEq

/-- Where `main_loop_thread` is: `growing` is the loop in `waiting_for_data`. -/
inductive WorkerPc where
  | start
  | loop
  | dispatch
  | growing
  | sending (pc : SendPc)
  | exited
  deriving DecidableEq

structure Worker where
  data : ThreadData
  keepLoopingThread : Bool
  rb : BufferData
  rbNew : BufferData
  pc : WorkerPc
  deriving DecidableEq

/-- A thread that `pthread_create` has just started. -/
def Worker.create (addr : ℕ) (clientFd : Fd) : Worker where
  data := ⟨addr, clientFd, .waitingForData⟩
  keepLoopingThread := true
  rb := ⟨[], 0, 0⟩
  rbNew := ⟨[], 0, 0⟩
  pc := .start

/-- `get_file_mutex`: what it returns when the thread's next call is `e`. -/
def getFileMutex (b : Build) : Event → Option ℤ
  | .mutexLock ok => if b.disableLocking then none else some (if ok then 0 else -1)
  | .compute => if b.disableLocking then some 0 else none
  | _ => none

/-- `release_file_mutex`: what it returns when the thread's next call is `e`. -/
def releaseFileMutex (b : Build) : Event → Option ℤ
  | .mutexUnlock ok => if b.disableLocking then none else some (if ok then 0 else -1)
  | .compute => if b.disableLocking then some 0 else none
  | _ => none

namespace Worker

def setState (w : Worker) (t : ThreadState) : Worker :=
  { w with data := { w.data with threadState := t } }

def goto (w : Worker) (pc : WorkerPc) : Worker := { w with pc := pc }

/-- `waiting_for_data` up to the growth loop. -/
def waitingForData (w : Worker) : Event → Option Worker
  | .recv fd _ count got =>
    if fd = w.data.clientFd ∧ count = w.rbNew.allocated then
      match got with
      | none => some ((w.setState .closedConnection).goto .loop)
      | some [] => some ((w.setState .closedConnection).goto .loop)
      | some bytes => do
        let buffer ← writeBlock w.rbNew.buffer 0 bytes
        some ({ w with rbNew := { w.rbNew with buffer := buffer, size := bytes.length } }.goto
          .growing)
    else none
  | _ => none

/-- The growth loop of `waiting_for_data`. A `realloc` that succeeds keeps the old block's bytes
and appends whatever the added memory holds. -/
def growBuffer (w : Worker) (e : Event) : Option Worker :=
  if w.rb.allocated < w.rb.size + w.rbNew.size then
    match e with
    | .realloc size block =>
      let w := { w with rb := { w.rb with allocated := w.rb.allocated + recvBufferGrowSize } }
      if size = w.rb.allocated then
        match block with
        | none => some ((w.setState .closedConnection).goto .loop)
        | some added =>
          if w.rb.buffer.length + added.length = size then
            some { w with rb := { w.rb with buffer := w.rb.buffer ++ added } }
          else none
      else none
    | _ => none
  else if e = .compute then some ((w.setState .processingData).goto .loop)
  else none

/-- `sending_data`, at the call it makes next. -/
def sendingData (b : Build) (w : Worker) : SendPc → Event → Option Worker
  | .lock, e => (getFileMutex b e).map fun rc =>
    w.goto (.sending (if rc = -1 then .ret (-1) else .openFile))
  | .openFile, .openFile fd =>
    match fd with
    | none => some (w.goto (.sending .unlockFail))
    | some fd => some (w.goto (.sending (.write fd)))
  | .write fd, .write fd' data written =>
    if fd' = fd ∧ data = w.rb.content then
      if writeToFile w.rb.size written = -1 then some (w.goto (.sending (.closeFail fd)))
      else some ({ w with rb := { w.rb with size := 0 } }.goto (.sending (.lseek fd)))
    else none
  | .lseek fd, .lseek fd' => if fd' = fd then some (w.goto (.sending (.read fd))) else none
  | .read fd, .read fd' count got =>
    if fd' = fd ∧ count = readFromFileCount sendBufferSize then
      match got with
      | none => some (w.goto (.sending (.closeFail fd)))
      | some [] => some (w.goto (.sending (.closeOk fd)))
      | some bytes => some (w.goto (.sending (.send fd bytes)))
    else none
  | .send fd rest, .send fd' _ data flags sent =>
    if fd' = w.data.clientFd ∧ data = rest ∧ flags = 0 then
      match sent with
      | none => some (w.goto (.sending (.closeFail fd)))
      | some n =>
        if rest.drop n = [] then some (w.goto (.sending (.read fd)))
        else some (w.goto (.sending (.send fd (rest.drop n))))
    else none
  | .closeOk fd, .close fd' ok =>
    if fd' = fd then some (w.goto (.sending (if ok then .unlockOk else .unlockFail))) else none
  | .unlockOk, e => (releaseFileMutex b e).map fun rc =>
    if rc = -1 then w.goto (.sending (.ret (-1)))
    else (w.setState (if 0 < w.rbNew.size then .processingData else .waitingForData)).goto
      (.sending (.ret 0))
  | .closeFail fd, .close fd' _ =>
    if fd' = fd then some (w.goto (.sending .unlockFail)) else none
  | .unlockFail, e => (releaseFileMutex b e).map fun _ => w.goto (.sending (.ret (-1)))
  | .ret r, .returns r' =>
    if r' = r then some ((if r = -1 then w.setState .closedConnection else w).goto .loop) else none
  | _, _ => none

/-- `main_loop_thread`: one call or one local step of the thread. -/
def step (b : Build) (w : Worker) (e : Event) : Option Worker :=
  match w.pc with
  | .start =>
    match e with
    | .mallocBuffers block =>
      if block.length = recvBufferTempSize then
        some { w with rb := ⟨[], 0, 0⟩, rbNew := ⟨block, 0, recvBufferTempSize⟩, pc := .loop }
      else none
    | _ => none
  | .loop =>
    match e with
    | .loadSignal caught =>
      if w.keepLoopingThread then
        some { w with keepLoopingThread := !caught, pc := .dispatch }
      else none
    | .exitThread => if w.keepLoopingThread then none else some (w.goto .exited)
    | _ => none
  | .dispatch =>
    match w.data.threadState with
    | .waitingForData => w.waitingForData e
    | .processingData =>
      if e = .compute then do
        let (state, rb, rbNew) ← processReceivedData w.rb w.rbNew
        some (({ w with rb := rb, rbNew := rbNew }.setState state).goto .loop)
      else none
    | .sendingData => if e = .compute then some (w.goto (.sending .lock)) else none
    | .closedConnection =>
      if e = .compute then some ({ w with keepLoopingThread := false }.goto .loop) else none
  | .growing => w.growBuffer e
  | .sending pc => w.sendingData b pc e
  | .exited => none

/-- A step of the thread on a result that POSIX allows. -/
def Step (b : Build) (w : Worker) (e : Event) (w' : Worker) : Prop :=
  e.Posix ∧ w.step b e = some w'

end Worker

end Aesd.Server
