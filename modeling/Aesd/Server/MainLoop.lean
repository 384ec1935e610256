import Aesd.Server.Worker

/-! The main thread: `main_loop` with `write_time_stamp`, `create_thread`, `join_threads` and
`check_for_client_connection`, one call at a time. -/
namespace Aesd.Server
open Driver (Byte)

/-- A number as `%Y` prints it. -/
def decimal (n : ℕ) : List Char := Nat.toDigits 10 n

/-- A number as `%m`, `%d` and the fields of `%T` print it. -/
def twoDigits (n : ℕ) : List Char := if n < 10 then ['0'] ++ decimal n else decimal n

/-- `TIME_FORMAT` without the final newline. -/
def timeText (tm : Tm) : List Char :=
  "timestamp:".toList ++ decimal tm.year ++ ['-'] ++ twoDigits tm.month ++ ['-'] ++
    twoDigits tm.day ++ ['T'] ++ twoDigits tm.hour ++ [':'] ++ twoDigits tm.minute ++ [':'] ++
    twoDigits tm.second

/-- What `strftime` writes. -/
def timeStamp (tm : Tm) : List Byte := (timeText tm).map (fun c => c.toNat.toUInt8) ++ [10]

def timeBufferSize : ℕ := 256

/-- `strftime`: the text and its `NUL` have to fit. -/
def strftime (tm : Tm) : Option (List Byte) :=
  if (timeStamp tm).length < timeBufferSize then some (timeStamp tm) else none

/-- Where `write_time_stamp` is: the call it makes next. -/
inductive StampPc where
  | localtime
  | lock (text : List Byte)
  | openFile (text : List Byte)
  | write (fd : Fd) (text : List Byte)
  | closeOk (fd : Fd)
  | unlockOk
  | closeFail (fd : Fd)
  | unlockFail
  | ret (r : ℤ)
  deriving DecidableEq

/-- `write_time_stamp`, at the call it makes next; `none` inside is its return. -/
def writeTimeStamp (b : Build) : StampPc → Event → Option (Option StampPc)
  | .localtime, .localtime tm =>
    match strftime tm with
    | none => some (some (.ret (-1)))
    | some text => some (some (.lock text))
  | .lock text, e => (getFileMutex b e).map fun rc =>
    some (if rc = -1 then .ret (-1) else .openFile text)
  | .openFile text, .openFile fd =>
    match fd with
    | none => some (some .unlockFail)
    | some fd => some (some (.write fd text))
  | .write fd text, .write fd' data written =>
    if fd' = fd ∧ data = text then
      some (some (if writeToFile text.length written = -1 then .closeFail fd else .closeOk fd))
    else none
  | .closeOk fd, .close fd' ok =>
    if fd' = fd then some (some (if ok then .unlockOk else .unlockFail)) else none
  | .unlockOk, e => (releaseFileMutex b e).map fun rc => some (.ret (if rc = -1 then -1 else 0))
  | .closeFail fd, .close fd' _ => if fd' = fd then some (some .unlockFail) else none
  | .unlockFail, e => (releaseFileMutex b e).map fun _ => some (.ret (-1))
  | .ret r, .returns r' => if r' = r then some none else none
  | _, _ => none

/-- `enum State`. -/
inductive State where
  | none
  | startup
  | creatingThread
  | shuttingDown
  | waiting
  | writingTimeStamp
  deriving DecidableEq

/-- `struct LinkedListItem` at its address. -/
structure Item where
  addr : ℕ
  threadId : ℕ
  deriving DecidableEq

/-- Where `main_loop` is. `joining` holds the items `join_threads` has still to visit,
`joinClose` and what follows the item just joined, with its thread's data. -/
inductive MainPc where
  | start
  | loop
  | stamp (pc : StampPc)
  | branch
  | joining (rest : List Item)
  | joinClose (item : Item) (data : ℕ) (fd : Fd) (rest : List Item)
  | joinFreeItem (item : Item) (data : ℕ) (rest : List Item)
  | joinFreeData (data : ℕ) (rest : List Item)
  | closedTest
  | acceptTest
  | accept
  | mallocItem
  | mallocData (item : ℕ)
  | pthreadCreate (item data : ℕ)
  | returned
  deriving DecidableEq

structure Main where
  currentState : State
  keepLooping : Bool
  clientFd : Option Fd
  nextTimestamp : ℕ
  linkedList : List Item
  pc : MainPc
  deriving DecidableEq

def Main.init : Main := ⟨.waiting, true, none, 0, [], .start⟩

namespace Main

def goto (m : Main) (pc : MainPc) : Main := { m with pc := pc }

section
variable (m : Main) (pc : MainPc)

@[simp] theorem goto_pc : (m.goto pc).pc = pc := rfl
@[simp] theorem goto_currentState : (m.goto pc).currentState = m.currentState := rfl
@[simp] theorem goto_keepLooping : (m.goto pc).keepLooping = m.keepLooping := rfl
@[simp] theorem goto_clientFd : (m.goto pc).clientFd = m.clientFd := rfl
@[simp] theorem goto_linkedList : (m.goto pc).linkedList = m.linkedList := rfl

end

/-- `join_threads`. -/
def joinThreads (m : Main) : Event → Option Main
  | .compute =>
    match m.pc with
    | .joining [] => some (m.goto .closedTest)
    | _ => none
  | .tryJoin thread joined =>
    match m.pc with
    | .joining (item :: rest) =>
      if thread = item.threadId then
        match joined with
        | none => some (m.goto (.joining rest))
        | some (data, fd) => some (m.goto (.joinClose item data fd rest))
      else none
    | _ => none
  | .close fd' _ =>
    match m.pc with
    | .joinClose item data fd rest =>
      if fd' = fd then
        some ({ m with linkedList := m.linkedList.erase item }.goto (.joinFreeItem item data rest))
      else none
    | _ => none
  | .free addr =>
    match m.pc with
    | .joinFreeItem item data rest =>
      if addr = item.addr then some (m.goto (.joinFreeData data rest)) else none
    | .joinFreeData data rest => if addr = data then some (m.goto (.joining rest)) else none
    | _ => none
  | _ => none

/-- `create_thread`, whose result `main_loop` does not look at. -/
def createThread (m : Main) : Event → Option Main
  | .malloc addr =>
    match m.pc with
    | .mallocItem =>
      match addr with
      | none => some ({ m with currentState := .waiting }.goto .loop)
      | some item => some (m.goto (.mallocData item))
    | .mallocData item =>
      match addr with
      | none => some ({ m with currentState := .waiting }.goto .loop)
      | some data => some (m.goto (.pthreadCreate item data))
    | _ => none
  | .pthreadCreate thread =>
    match m.pc with
    | .pthreadCreate item _ =>
      match thread with
      | none => some ({ m with currentState := .waiting }.goto .loop)
      | some i => some ({ m with
          linkedList := ⟨item, i⟩ :: m.linkedList, currentState := .waiting }.goto .loop)
    | _ => none
  | _ => none

/-- `check_for_client_connection`. -/
def checkForClientConnection (m : Main) : Event → Option Main
  | .accept none => some ({ m with clientFd := none }.goto .loop)
  | .accept (some (fd, _)) =>
    some ({ m with clientFd := some fd, currentState := .creatingThread }.goto .loop)
  | _ => none

/-- `main_loop`: one call or one local step of the main thread. -/
def step (b : Build) (m : Main) (e : Event) : Option Main :=
  match m.pc with
  | .start =>
    match e with
    | .clockGettime sec => some ({ m with nextTimestamp := sec + 10 }.goto .loop)
    | _ => none
  | .loop =>
    if m.keepLooping then
      match e with
      | .clockGettime sec =>
        if m.nextTimestamp ≤ sec then
          some ({ m with nextTimestamp := sec + 10 }.goto
            (if b.disableTimestamp then .branch else .stamp .localtime))
        else some (m.goto .branch)
      | _ => none
    else if e = .compute then some (m.goto .returned)
    else none
  | .stamp pc => (writeTimeStamp b pc e).map fun next =>
    match next with
    | some pc => m.goto (.stamp pc)
    | none => m.goto .branch
  | .branch =>
    if e = .compute then
      match m.currentState with
      | .waiting => some (m.goto (.joining m.linkedList))
      | .creatingThread => some (m.goto .mallocItem)
      | _ => some (m.goto .loop)
    else none
  | .closedTest =>
    -- all_threads_closed() && caught_signal: the flag is read only when the list is empty
    if m.linkedList = [] then
      match e with
      | .loadSignal caught =>
        some ({ m with keepLooping := m.keepLooping && !caught }.goto .acceptTest)
      | _ => none
    else if e = .compute then some (m.goto .acceptTest)
    else none
  | .acceptTest =>
    match e with
    | .loadSignal caught => some (m.goto (if caught then .loop else .accept))
    | _ => none
  | .accept => m.checkForClientConnection e
  | .mallocItem => m.createThread e
  | .mallocData _ => m.createThread e
  | .pthreadCreate _ _ => m.createThread e
  | .returned => none
  | _ => m.joinThreads e

/-- The thread that a step starts: its id, and its data at the address allocated. -/
def created (m : Main) (e : Event) : Option (ℕ × ℕ × Fd) :=
  match m.pc, e with
  | .pthreadCreate _ data, .pthreadCreate (some i) => m.clientFd.map fun fd => (i, data, fd)
  | _, _ => none

end Main

end Aesd.Server
