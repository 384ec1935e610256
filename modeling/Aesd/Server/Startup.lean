import Aesd.Server.RegularFile
import Aesd.Server.Descriptors

/-! A server in its main loop and other processes of the same program whose `startup` may fail:
they share the name `FILE_PATH`. File build. -/
namespace Aesd.Server
open Driver (Byte)
open Runs

/-- One call of `startup` or `shutting_down`, with its result. -/
inductive SetupCall where
  | sigaction (sig : Signal) (ok : Bool)
  | getaddrinfo (ok : Bool)
  | socket (fd : Option Fd)
  | bind (ok : Bool)
  | listen (ok : Bool)
  | getFlags (ok : Bool)
  | setFlags (ok : Bool)
  | freeaddrinfo
  | close (fd : Fd) (ok : Bool)
  | unlink (ok : Bool)
  deriving DecidableEq

/-- The call that the process makes next. -/
inductive SetupPc where
  | sigterm
  | sigint
  | getaddrinfo
  | socket
  | bind
  | listen
  | getFlags
  | setFlags
  | mainLoop
  | freeaddrinfo
  | closeSocket
  | unlinkFile
  | exited
  deriving DecidableEq

/-- `res` is whether the pointer is set; `socketFd` is `none` for `-1`. -/
structure Process where
  pc : SetupPc
  res : Bool
  socketFd : Option Fd
  deriving DecidableEq

namespace Process

/-- The globals as the program starts: `socket_fd` is 0. -/
def init : Process := ⟨.sigterm, false, some 0⟩

/-- `shutting_down` after `res`. -/
def closing (p : Process) : Process :=
  { p with pc := if p.socketFd = none then .unlinkFile else .closeSocket }

def shuttingDown (p : Process) : Process :=
  if p.res then { p with pc := .freeaddrinfo } else p.closing

/-- `startup` goes on, or returns `-1` and `main` calls `shutting_down`. -/
def check (p : Process) (ok : Bool) (next : SetupPc) : Process :=
  if ok then { p with pc := next } else p.shuttingDown

def step (p : Process) : SetupCall → Option Process
  | .sigaction .sigterm ok => if p.pc = .sigterm then some (p.check ok .sigint) else none
  | .sigaction .sigint ok => if p.pc = .sigint then some (p.check ok .getaddrinfo) else none
  | .sigaction .sigpipe _ => none
  | .getaddrinfo ok =>
    if p.pc = .getaddrinfo then some ({ p with res := ok }.check ok .socket) else none
  | .socket fd =>
    if p.pc = .socket then some ({ p with socketFd := fd }.check fd.isSome .bind) else none
  | .bind ok => if p.pc = .bind then some (p.check ok .listen) else none
  | .listen ok => if p.pc = .listen then some (p.check ok .getFlags) else none
  | .getFlags ok => if p.pc = .getFlags then some (p.check ok .setFlags) else none
  | .setFlags ok => if p.pc = .setFlags then some (p.check ok .mainLoop) else none
  | .freeaddrinfo => if p.pc = .freeaddrinfo then some { p with res := false }.closing else none
  | .close fd _ =>
    if p.pc = .closeSocket ∧ p.socketFd = some fd then some ⟨.unlinkFile, p.res, none⟩ else none
  | .unlink _ => if p.pc = .unlinkFile then some { p with pc := .exited } else none

end Process

/-- Files by inode; the choice of a call is the inode behind its descriptor. -/
def inodeFiles : FileOps (ℕ → List Byte) ℕ where
  Allowed := fun _ _ _ => True
  write := fun inodes i pos data written =>
    (regularFile.write (inodes i) () pos data written).map fun r =>
      (Function.update inodes i r.1, r.2)
  read := fun inodes i pos count got =>
    (regularFile.read (inodes i) () pos count got).map fun r =>
      (Function.update inodes i r.1, r.2)
  seekSet := regularFile.seekSet

/-- The server in its main loop and the other processes. `name` is the inode that `FILE_PATH`
names and `inodeOf` the one behind each descriptor of the server. -/
structure Host where
  server : System (ℕ → List Byte)
  name : Option ℕ
  inodeOf : Fd → ℕ
  nextInode : ℕ
  others : ℕ → Process

inductive HostLabel where
  | server (l : Label Unit)
  | other (p : ℕ) (call : SetupCall)

/-- The call with the inode behind its descriptor. -/
def Label.on (l : Label Unit) (inodeOf : Fd → ℕ) : Label ℕ :=
  match l with
  | .thread t e _ => .thread t e ((e.fileFd.map inodeOf).getD 0)
  | .signal sig => .signal sig
  | .disconnect c => .disconnect c

namespace Host

def file (h : Host) : List Byte := h.name.elim [] h.server.kernel.node

/-- `open` of `FILE_PATH` with `O_CREAT` has returned `fd`. -/
def opens (h : Host) (fd : Fd) : Host :=
  match h.name with
  | some i => { h with inodeOf := Function.update h.inodeOf fd i }
  | none =>
    { h with
      server := { h.server with kernel := { h.server.kernel with
        node := Function.update h.server.kernel.node h.nextInode [] } }
      name := some h.nextInode
      inodeOf := Function.update h.inodeOf fd h.nextInode
      nextInode := h.nextInode + 1 }

def step (h : Host) : HostLabel → Option Host
  | .server l => do
    let server ← h.server.step inodeFiles fileBuild (l.on h.inodeOf)
    match l with
    | .thread _ (.openFile (some fd)) _ => some ({ h with server := server }.opens fd)
    | _ => some { h with server := server }
  | .other p call => do
    let process ← (h.others p).step call
    let h := { h with others := Function.update h.others p process }
    match call with
    | .unlink true => if h.name = none then none else some { h with name := none }
    | _ => some h

def start (file : Option (List Byte)) (reserved : Fd → Bool) : Host where
  server := .start (fun _ => file.getD []) reserved
  name := file.map fun _ => 0
  inodeOf := fun _ => 0
  nextInode := 1
  others := fun _ => .init

end Host

def HostLabel.Posix : HostLabel → Prop
  | .server l => l.Posix
  | .other _ _ => True

instance (l : HostLabel) : Decidable l.Posix := by
  unfold HostLabel.Posix
  split <;> infer_instance

def Host.Step (h : Host) (l : HostLabel) (h' : Host) : Prop := l.Posix ∧ h.step l = some h'

/-- What the server does in a run of the host. -/
def serverLabels (tr : List HostLabel) : List (Label Unit) :=
  tr.filterMap fun l =>
    match l with
    | .server l => some l
    | .other _ _ => none

/-- What a process has got when it comes to its next call. -/
structure Process.Acquired (p : Process) (tr : List SetupCall) : Prop where
  res : p.res = true → .getaddrinfo true ∈ tr
  freeing : p.pc = .freeaddrinfo → p.res = true
  socket : ∀ fd, p.socketFd = some fd → .socket (some fd) ∈ tr ∨ fd = 0 ∧ ∀ got, .socket got ∉ tr

namespace Process

variable {p p' : Process} {tr : List SetupCall} {call : SetupCall}

theorem acquired_closing (hres : p.res = true → .getaddrinfo true ∈ tr)
    (hsocket : ∀ fd, p.socketFd = some fd →
      .socket (some fd) ∈ tr ∨ fd = 0 ∧ ∀ got, .socket got ∉ tr) : p.closing.Acquired tr := by
  refine ⟨hres, fun hpc => ?_, hsocket⟩
  simp only [Process.closing] at hpc
  split at hpc <;> cases hpc

theorem Acquired.check {next : SetupPc} (h : p.Acquired tr) (ok : Bool)
    (hnext : next ≠ .freeaddrinfo) : (p.check ok next).Acquired tr := by
  unfold Process.check shuttingDown
  split
  · exact ⟨h.res, fun hpc => absurd hpc hnext, h.socket⟩
  · split
    next hres => exact ⟨h.res, fun _ => hres, h.socket⟩
    next => exact acquired_closing h.res h.socket

theorem Acquired.later (h : p.Acquired tr) (hsocket : ∀ got, call ≠ .socket got) :
    p.Acquired (tr ++ [call]) := by
  refine ⟨fun hres => List.mem_append_left _ (h.res hres), h.freeing, fun fd hfd => ?_⟩
  rcases h.socket fd hfd with hmem | ⟨hzero, hnone⟩
  · exact .inl (List.mem_append_left _ hmem)
  · refine .inr ⟨hzero, fun got hmem => ?_⟩
    rcases List.mem_append.mp hmem with hmem | hmem
    · exact hnone got hmem
    · exact hsocket got (List.mem_singleton.mp hmem).symm

theorem Acquired.step (h : p.Acquired tr) (hs : p.step call = some p') :
    p'.Acquired (tr ++ [call]) := by
  unfold Process.step at hs
  split at hs
  case h_3 => cases hs
  all_goals
    split at hs <;> cases hs
  case h_4 ok hpc =>
    have hold : p.Acquired (tr ++ [.getaddrinfo ok]) := h.later (by simp)
    apply Acquired.check _ ok (by simp)
    refine ⟨fun hres => ?_, fun hfree => ?_, hold.socket⟩
    · obtain rfl : ok = true := hres
      simp
    · cases hpc.symm.trans hfree
  case h_5 fd hpc =>
    apply Acquired.check _ fd.isSome (by simp)
    refine ⟨fun hres => List.mem_append_left _ (h.res hres), h.freeing, fun fd' hfd => .inl ?_⟩
    obtain rfl : fd = some fd' := hfd
    simp
  case h_10 =>
    have hold : p.Acquired (tr ++ [.freeaddrinfo]) := h.later (by simp)
    exact acquired_closing (fun hres => (by cases hres)) hold.socket
  case h_11 fd ok hpc =>
    exact ⟨(h.later (by simp)).res, fun hfree => (by cases hfree), fun fd' hfd => (by cases hfd)⟩
  case h_12 ok hpc =>
    have hold : p.Acquired (tr ++ [.unlink ok]) := h.later (by simp)
    exact ⟨hold.res, fun hfree => (by cases hfree), hold.socket⟩
  all_goals exact (h.later (by simp)).check _ (by simp)

theorem acquired_init : init.Acquired [] := by
  refine ⟨by simp [init], by simp [init], fun fd hfd => .inr ⟨?_, by simp⟩⟩
  exact (Option.some.inj hfd).symm

/-- `shutting_down` frees only an address list that was got, and closes the socket that was got, or
descriptor 0 when `startup` came to no `socket`. -/
theorem shutting_down_acquired (hrun : Run (fun p call p' => step p call = some p') init tr p) :
    (p.step .freeaddrinfo ≠ none → .getaddrinfo true ∈ tr) ∧
      ∀ fd ok, p.step (.close fd ok) ≠ none →
        .socket (some fd) ∈ tr ∨ fd = 0 ∧ ∀ got, .socket got ∉ tr := by
  have hacquired := hrun.invariant (P := fun tr p => p.Acquired tr) acquired_init
    fun _ _ _ _ _ h hs => h.step hs
  constructor
  · intro hstep
    have hpc : p.pc = .freeaddrinfo := by
      by_contra hne
      exact hstep (if_neg hne)
    exact hacquired.res (hacquired.freeing hpc)
  · intro fd ok hstep
    have hfd : p.pc = .closeSocket ∧ p.socketFd = some fd := by
      by_contra hne
      exact hstep (if_neg hne)
    exact hacquired.socket fd hfd.2

end Process

end Aesd.Server
