import Aesd.Lib.Runs
import Aesd.Server.MainLoop

/-! The server process and the kernel it runs on. A label says which thread makes its next call
and with which result; the kernel allows the results that POSIX allows. -/
namespace Aesd.Server
open Driver (Byte)

/-- A thread of the process. -/
inductive Tid where
  | main
  | worker (i : ℕ)
  deriving DecidableEq

/-- What a descriptor refers to: an accepted connection, an open `FILE_PATH` with the thread that
opened it and its position, or what was open before `main_loop`. -/
inductive Desc where
  | conn (c : ℕ)
  | file (opener : Tid) (pos : ℕ)
  | other
  deriving DecidableEq

/-- What `FILE_PATH` names: whether `write` and `read` at a position may have a result, and the
node and position they leave. `σ` is the state of the node, `χ` what the kernel decides in a call
besides its result. -/
structure FileOps (σ χ : Type) where
  Allowed : σ → χ → List Byte → Prop
  write : σ → χ → (pos : ℕ) → (data : List Byte) → (written : Option ℕ) → Option (σ × ℕ)
  read : σ → χ → (pos count : ℕ) → (got : Option (List Byte)) → Option (σ × ℕ)
  seekSet : ℕ → ℕ

inductive Signal where
  | sigint
  | sigterm
  | sigpipe
  deriving DecidableEq

inductive Disposition where
  | default
  | ignore
  | handler
  deriving DecidableEq

/-- The `sigaction` calls of `startup`, all with `signal_handler`. -/
def startupSignals (disposition : Signal → Disposition) : Signal → Disposition :=
  Function.update (Function.update disposition .sigterm .handler) .sigint .handler

/-- `signal_handler`: the new value of `caught_signal`. -/
def signalHandler (caughtSignal : Bool) (signalNumber : Signal) : Bool :=
  if signalNumber = .sigint ∨ signalNumber = .sigterm then true else caughtSignal

/-- `MSG_NOSIGNAL`. -/
def msgNoSignal : ℕ := 0x4000

/-- `peerGone c` is the state of connection `c` in which `send` gives `EPIPE`. After a reset that no
call has reported yet `send` gives `ECONNRESET`, without a signal, and `peerGone c` is false. -/
structure Kernel (σ : Type) where
  node : σ
  fds : Fd → Option Desc
  mutex : Option Tid
  accepted : ℕ
  closes : ℕ → ℕ
  peerGone : ℕ → Bool
  disposition : Signal → Disposition
  caughtSignal : Bool
  alive : Bool
  blocks : ℕ → Bool

namespace Kernel

variable {σ χ : Type}

def setFd (k : Kernel σ) (fd : Fd) (desc : Option Desc) : Kernel σ :=
  { k with fds := Function.update k.fds fd desc }

/-- Deliver a signal to the process. -/
def deliver (k : Kernel σ) (sig : Signal) : Kernel σ :=
  match k.disposition sig with
  | .default => { k with alive := false }
  | .ignore => k
  | .handler => { k with caughtSignal := signalHandler k.caughtSignal sig }

/-- `close` of a descriptor; closing a number that is not open fails. -/
def close (k : Kernel σ) (fd : Fd) (ok : Bool) : Option (Kernel σ) :=
  match k.fds fd with
  | none => if ok then none else some k
  | some (.conn c) =>
    some ({ k with closes := Function.update k.closes c (k.closes c + 1) }.setFd fd none)
  | some _ => some (k.setFd fd none)

/-- `send` on a connection. Where it gives `EPIPE` it raises `SIGPIPE`, unless the flags say not
to; any other error is a result `none` alone. -/
def send (k : Kernel σ) (c : ℕ) (flags : ℕ) (sent : Option ℕ) : Option (Kernel σ) :=
  if k.peerGone c then
    if sent = none then some (if flags &&& msgNoSignal = 0 then k.deliver .sigpipe else k)
    else none
  else some k

/-- What a call of thread `t` does to the kernel, when it may have that result. -/
def call (ops : FileOps σ χ) (k : Kernel σ) (t : Tid) (e : Event) (choice : χ) :
    Option (Kernel σ) :=
  match e with
  | .mutexLock ok =>
    if ok then if k.mutex = none then some { k with mutex := some t } else none
    else some k
  | .mutexUnlock ok =>
    if ok = true ∧ k.mutex = some t then some { k with mutex := none } else none
  | .openFile none => some k
  | .openFile (some fd) =>
    if k.fds fd = none then some (k.setFd fd (some (.file t 0))) else none
  | .write fd data written =>
    match k.fds fd with
    | some (.file opener pos) => (ops.write k.node choice pos data written).map fun r =>
      { k with node := r.1 }.setFd fd (some (.file opener r.2))
    | _ => if written = none then some k else none
  | .lseek fd =>
    match k.fds fd with
    | some (.file opener pos) => some (k.setFd fd (some (.file opener (ops.seekSet pos))))
    | _ => some k
  | .read fd count got =>
    match k.fds fd with
    | some (.file opener pos) => (ops.read k.node choice pos count got).map fun r =>
      { k with node := r.1 }.setFd fd (some (.file opener r.2))
    | _ => if got = none then some k else none
  | .close fd ok => k.close fd ok
  | .recv fd conn _ got =>
    match k.fds fd with
    | some (.conn c) => if conn = c then some k else none
    | _ => if got = none then some k else none
  | .send fd conn _ flags sent =>
    match k.fds fd with
    | some (.conn c) => if conn = c then k.send c flags sent else none
    | _ => if sent = none then some k else none
  | .loadSignal caught => if caught = k.caughtSignal then some k else none
  | .accept none => some k
  | .accept (some (fd, c)) =>
    if k.fds fd = none ∧ c = k.accepted then
      some ({ k with accepted := k.accepted + 1 }.setFd fd (some (.conn c)))
    else none
  | .malloc none => some k
  | .malloc (some a) =>
    if k.blocks a then none else some { k with blocks := Function.update k.blocks a true }
  | .free a =>
    if k.blocks a then some { k with blocks := Function.update k.blocks a false } else none
  | _ => some k

end Kernel

/-- The process with its kernel; joined threads are gone from `workers`. -/
structure System (σ : Type) where
  kernel : Kernel σ
  main : Main
  workers : ℕ → Option Worker

/-- One step: a call or local step of a thread, a signal from outside, or `disconnect`, by which a
connection comes into the state in which `send` gives `EPIPE`: a peer that had shut down its side
resets it, or its reset has been reported to an earlier call. -/
inductive Label (χ : Type) where
  | thread (t : Tid) (e : Event) (choice : χ)
  | signal (sig : Signal)
  | disconnect (c : ℕ)

namespace System

variable {σ χ : Type}

/-- `pthread_create` and `pthread_tryjoin_np`: the threads after a call of the main thread. -/
def threadCall (s : System σ) (e : Event) : Option (ℕ → Option Worker) :=
  match e with
  | .pthreadCreate (some _) => do
    let (i, data, fd) ← s.main.created e
    if s.workers i = none then
      some (Function.update s.workers i (some (Worker.create data fd)))
    else none
  | .tryJoin i joined =>
    match s.workers i with
    | none => none
    | some w =>
      if w.pc = .exited then
        if joined = some (w.data.addr, w.data.clientFd) then
          some (Function.update s.workers i none)
        else none
      else if joined = none then some s.workers else none
  | _ => some s.workers

def step (ops : FileOps σ χ) (b : Build) (s : System σ) : Label χ → Option (System σ)
  | .thread .main e choice =>
    if s.kernel.alive then do
      let main ← s.main.step b e
      let kernel ← s.kernel.call ops .main e choice
      let workers ← s.threadCall e
      some ⟨kernel, main, workers⟩
    else none
  | .thread (.worker i) e choice =>
    if s.kernel.alive then do
      let w ← s.workers i
      let w' ← w.step b e
      let kernel ← s.kernel.call ops (.worker i) e choice
      some { s with kernel := kernel, workers := Function.update s.workers i (some w') }
    else none
  | .signal sig =>
    if s.kernel.alive = true ∧ sig ≠ .sigpipe then some { s with kernel := s.kernel.deliver sig }
    else none
  | .disconnect c =>
    if s.kernel.alive = true ∧ c < s.kernel.accepted then
      some { s with kernel := { s.kernel with
        peerGone := Function.update s.kernel.peerGone c true } }
    else none

/-- The results that POSIX and the node promise of a call. -/
def Allowed (ops : FileOps σ χ) (s : System σ) : Label χ → Prop
  | .thread _ e choice => e.Posix ∧
    match e with
    | .write _ data _ => ops.Allowed s.kernel.node choice data
    | _ => True
  | _ => True

def Step (ops : FileOps σ χ) (b : Build) (s : System σ) (l : Label χ) (s' : System σ) : Prop :=
  s.Allowed ops l ∧ s.step ops b l = some s'

/-- The process after a successful `startup`, at the call of `main_loop`. The descriptors open
then are `reserved`, and `SIGPIPE` has its default disposition. -/
def start (node : σ) (reserved : Fd → Bool) : System σ where
  kernel :=
    { node := node
      fds := fun fd => if reserved fd then some .other else none
      mutex := none
      accepted := 0
      closes := fun _ => 0
      peerGone := fun _ => false
      disposition := startupSignals fun _ => .default
      caughtSignal := false
      alive := true
      blocks := fun _ => false }
  main := .init
  workers := fun _ => none

end System

end Aesd.Server
