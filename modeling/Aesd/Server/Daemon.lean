import Aesd.Lib.DescriptorTables
import Aesd.Server.Startup

/-! `main` with its descriptors: `startup`, the fork and the redirections of `main_loop_fork`,
`main_loop` and `shutting_down`, for the process that was started and its child. File build. -/
namespace Aesd.Server
open DescriptorTables Runs

/-- What a descriptor of the program refers to: what it inherited at a number, something the C
library opened (as `syslog` does), the listening socket or `/dev/null`. -/
inductive Opened where
  | inherited (fd : ℕ)
  | library
  | listening
  | devNull
  deriving DecidableEq

inductive ForkResult where
  | failed
  | child
  | parent
  deriving DecidableEq

inductive ProgramCall where
  | setup (call : SetupCall)
  | libraryOpens
  | libraryCloses (fd : ℕ)
  | fork (result : ForkResult)
  | setsid (ok : Bool)
  | chdir (ok : Bool)
  | openNull (fd : Option ℕ)
  | dup2 (old new : ℕ) (ok : Bool)
  | closeNull (fd : ℕ) (ok : Bool)
  | mainLoopReturns
  | sigpipe
  | exit
  deriving DecidableEq

/-- Where `main` is: in `startup` or `shutting_down`, at a call of `main_loop_fork`, or in
`main_loop`. `dup2` holds the descriptor of `/dev/null` and the target. A process that `SIGPIPE` has
ended in `main_loop` is `killed`. -/
inductive ProgramPc where
  | setup
  | fork
  | exit
  | setsid
  | chdir
  | openNull
  | dup2 (fd target : ℕ)
  | closeNull (fd : ℕ)
  | mainLoop
  | exited
  | killed
  deriving DecidableEq

structure Program where
  pc : ProgramPc
  daemonEnabled : Bool
  process : Process
  fds : Table Opened

/-- `argc >= 2 && strcmp(argv[1], "-d") == 0`. -/
def daemonEnabled (argv : List String) : Bool := argv[1]? = some "-d"

namespace Program

def start (argv : List String) (fds : Table Opened) : Program :=
  ⟨.setup, Server.daemonEnabled argv, .init, fds⟩

def goto (p : Program) (pc : ProgramPc) : Program := { p with pc := pc }

/-- `main_loop` or `main_loop_fork` has returned, and `main` calls `shutting_down`. -/
def returns (p : Program) : Program := { p with pc := .setup, process := p.process.shuttingDown }

/-- Where `main` goes on after a call of `startup` or `shutting_down`. -/
def afterSetup (daemonEnabled : Bool) : SetupPc → ProgramPc
  | .mainLoop => if daemonEnabled then .fork else .mainLoop
  | .exited => .exited
  | _ => .setup

/-- What a call of `startup` or `shutting_down` does to the descriptors; a `close` that fails has
closed its descriptor all the same. -/
def setupFds (fds : Table Opened) : SetupCall → Option (Table Opened)
  | .socket (some fd) => if fd = fds.lowest then some (fds.openLowest .listening) else none
  | .close fd _ => some ((fds.close fd).getD fds)
  | _ => some fds

def step (p : Program) : ProgramCall → Option Program
  | .setup call =>
    if p.pc = .setup then do
      let process ← p.process.step call
      let fds ← setupFds p.fds call
      some ⟨afterSetup p.daemonEnabled process.pc, p.daemonEnabled, process, fds⟩
    else none
  | .libraryOpens =>
    if p.pc = .setup then some { p with fds := p.fds.openLowest .library } else none
  | .libraryCloses fd =>
    if p.pc = .setup ∧ p.fds.get fd = some .library then some { p with fds := p.fds.set fd none }
    else none
  | .fork result =>
    if p.pc = .fork then
      match result with
      | .failed => some p.returns
      | .child => some (p.goto .setsid)
      | .parent => some (p.goto .exit)
    else none
  | .setsid ok =>
    if p.pc = .setsid then some (if ok then p.goto .chdir else p.returns) else none
  | .chdir ok =>
    if p.pc = .chdir then some (if ok then p.goto .openNull else p.returns) else none
  | .openNull fd =>
    if p.pc = .openNull then
      match fd with
      | none => some p.returns
      | some fd =>
        if fd = p.fds.lowest then
          some ({ p with fds := p.fds.openLowest .devNull }.goto (.dup2 fd 0))
        else none
    else none
  | .dup2 old new ok =>
    if p.pc = .dup2 old new then
      if ok then do
        let fds ← p.fds.dup2 old new
        some ({ p with fds := fds }.goto (if new < 2 then .dup2 old (new + 1) else .closeNull old))
      else some p.returns
    else none
  | .closeNull fd _ =>
    if p.pc = .closeNull fd then
      some ({ p with fds := (p.fds.close fd).getD p.fds }.goto .mainLoop)
    else none
  | .mainLoopReturns => if p.pc = .mainLoop then some p.returns else none
  | .sigpipe => if p.pc = .mainLoop then some (p.goto .killed) else none
  | .exit => if p.pc = .exit then some (p.goto .exited) else none

end Program

/-- The process that was started and, once it has forked, its child, which starts from a copy. -/
structure Family where
  parent : Program
  child : Option Program

inductive FamilyLabel where
  | parent (call : ProgramCall)
  | child (call : ProgramCall)
  deriving DecidableEq

namespace Family

def start (argv : List String) (fds : Table Opened) : Family := ⟨.start argv fds, none⟩

def step (f : Family) : FamilyLabel → Option Family
  | .parent (.fork .child) => none
  | .parent (.fork .parent) => do
    let parent ← f.parent.step (.fork .parent)
    let child ← f.parent.step (.fork .child)
    some ⟨parent, some child⟩
  | .parent call => (f.parent.step call).map fun parent => { f with parent := parent }
  | .child call => do
    let child ← f.child
    let child ← child.step call
    some { f with child := some child }

def Step (f : Family) (l : FamilyLabel) (f' : Family) : Prop := f.step l = some f'

end Family

def SetupPc.closing : SetupPc → Bool
  | .freeaddrinfo => true
  | .closeSocket => true
  | .unlinkFile => true
  | .exited => true
  | _ => false

def SetupPc.listens : SetupPc → Bool
  | .bind => true
  | .listen => true
  | .getFlags => true
  | .setFlags => true
  | .mainLoop => true
  | _ => false

namespace Process

variable {p p' : Process} {call : SetupCall}

theorem closing_pc (p : Process) : p.closing.pc.closing = true := by
  unfold Process.closing
  dsimp only
  split <;> rfl

theorem shuttingDown_pc (p : Process) : p.shuttingDown.pc.closing = true := by
  unfold shuttingDown
  split
  · rfl
  · exact p.closing_pc

theorem closing_ne_exited (p : Process) : p.closing.pc ≠ .exited := by
  unfold Process.closing
  dsimp only
  split <;> simp

theorem shuttingDown_ne_exited (p : Process) : p.shuttingDown.pc ≠ .exited := by
  unfold shuttingDown
  split
  · simp
  · exact p.closing_ne_exited

/-- What a call of `startup` or `shutting_down` can do: `startup` goes on, with a new socket or with
the one it had; it fails, and `shutting_down` begins; or `shutting_down` goes on, up to the exit. -/
inductive Goes (p : Process) : SetupCall → Process → Prop where
  | socket {fd : Fd} {p' : Process} (hpc : p.pc = .socket) (hpc' : p'.pc = .bind)
      (hfd : p'.socketFd = some fd) : p.Goes (.socket (some fd)) p'
  | starts {call : SetupCall} {p' : Process} (hcall : ∀ fds, Program.setupFds fds call = some fds)
      (hunlink : ∀ ok, call ≠ .unlink ok) (hpc : p.pc.closing = false)
      (hpc' : p'.pc.closing = false) (hlistens : p'.pc.listens = p.pc.listens)
      (hfd : p'.socketFd = p.socketFd) : p.Goes call p'
  | fails {call : SetupCall} {p' : Process} (hcall : ∀ fds, Program.setupFds fds call = some fds)
      (hunlink : ∀ ok, call ≠ .unlink ok) (hpc : p.pc.closing = false)
      (hpc' : p'.pc.closing = true) (hne : p'.pc ≠ .exited) : p.Goes call p'
  | closes {call : SetupCall} {p' : Process} (hcall : ∀ ok, call ≠ .unlink ok)
      (hpc : p.pc.closing = true) (hpc' : p'.pc.closing = true) (hne : p'.pc ≠ .exited) :
      p.Goes call p'
  | unlinks (ok : Bool) {p' : Process} (hpc : p.pc.closing = true) (hpc' : p'.pc = .exited) :
      p.Goes (.unlink ok) p'

theorem check_goes {p₀ : Process} {ok : Bool} {next : SetupPc}
    (hcall : ∀ fds, Program.setupFds fds call = some fds) (hunlink : ∀ ok, call ≠ .unlink ok)
    (hpc : p₀.pc.closing = false) (hfd : p.socketFd = p₀.socketFd) (hnext : next.closing = false)
    (hlistens : next.listens = p₀.pc.listens) : p₀.Goes call (p.check ok next) := by
  unfold Process.check
  cases ok with
  | true => exact .starts hcall hunlink hpc hnext hlistens hfd
  | false => exact .fails hcall hunlink hpc p.shuttingDown_pc p.shuttingDown_ne_exited

theorem step_goes (h : p.step call = some p') : p.Goes call p' := by
  unfold Process.step at h
  split at h
  case h_3 => cases h
  all_goals
    split at h <;> cases h
  case h_1 hpc | h_2 hpc | h_6 hpc | h_7 hpc | h_8 hpc | h_9 hpc =>
    exact check_goes (fun _ => rfl) (by simp) (by simp [hpc, SetupPc.closing]) rfl rfl
      (by simp [hpc, SetupPc.listens])
  case h_4 ok hpc =>
    exact check_goes (fun _ => rfl) (by simp) (by simp [hpc, SetupPc.closing]) rfl rfl
      (by simp [hpc, SetupPc.listens])
  case h_5 fd hpc =>
    cases fd with
    | none =>
      exact .fails (fun _ => rfl) (by simp) (by simp [hpc, SetupPc.closing]) (shuttingDown_pc _)
        (shuttingDown_ne_exited _)
    | some fd => exact .socket hpc rfl rfl
  case h_10 hpc =>
    exact .closes (by simp) (by simp [hpc, SetupPc.closing]) (closing_pc _) (closing_ne_exited _)
  case h_11 hpc => exact .closes (by simp) (by simp [hpc.1, SetupPc.closing]) rfl (by simp)
  case h_12 ok hpc => exact .unlinks ok (by simp [hpc, SetupPc.closing]) rfl

end Process

namespace Program

variable {p p' : Program} {call : ProgramCall} {fds₀ fds : Table Opened}

inductive Moves (p : Program) : ProgramCall → Program → Prop where
  | setup {call : SetupCall} {process : Process} {fds : Table Opened} (hpc : p.pc = .setup)
      (hgoes : p.process.Goes call process) (hfds : setupFds p.fds call = some fds) :
      p.Moves (.setup call)
        ⟨afterSetup p.daemonEnabled process.pc, p.daemonEnabled, process, fds⟩
  | libraryOpens (hpc : p.pc = .setup) :
      p.Moves .libraryOpens { p with fds := p.fds.openLowest .library }
  | libraryCloses {fd : ℕ} (hpc : p.pc = .setup) (hfd : p.fds.get fd = some .library) :
      p.Moves (.libraryCloses fd) { p with fds := p.fds.set fd none }
  | returns {call : ProgramCall} (hcall : ∀ call', call ≠ .setup call')
      (hparent : call ≠ .fork .parent) (hpc : p.pc ≠ .setup) (hexit : p.pc ≠ .exit)
      (hexited : p.pc ≠ .exited) (hkilled : p.pc ≠ .killed) : p.Moves call p.returns
  | sigpipe (hpc : p.pc = .mainLoop) : p.Moves .sigpipe (p.goto .killed)
  | forkChild (hpc : p.pc = .fork) : p.Moves (.fork .child) (p.goto .setsid)
  | forkParent (hpc : p.pc = .fork) : p.Moves (.fork .parent) (p.goto .exit)
  | exit (hpc : p.pc = .exit) : p.Moves .exit (p.goto .exited)
  | setsid (hpc : p.pc = .setsid) : p.Moves (.setsid true) (p.goto .chdir)
  | chdir (hpc : p.pc = .chdir) : p.Moves (.chdir true) (p.goto .openNull)
  | openNull (hpc : p.pc = .openNull) : p.Moves (.openNull (some p.fds.lowest))
      ({ p with fds := p.fds.openLowest .devNull }.goto (.dup2 p.fds.lowest 0))
  | dup2 {old new : ℕ} {fds : Table Opened} (hpc : p.pc = .dup2 old new)
      (hfds : p.fds.dup2 old new = some fds) : p.Moves (.dup2 old new true)
        ({ p with fds := fds }.goto (if new < 2 then .dup2 old (new + 1) else .closeNull old))
  | closeNull {fd : ℕ} {ok : Bool} (hpc : p.pc = .closeNull fd) : p.Moves (.closeNull fd ok)
      ({ p with fds := (p.fds.close fd).getD p.fds }.goto .mainLoop)

theorem step_moves (h : p.step call = some p') : p.Moves call p' := by
  have hreturns {call : ProgramCall} {pc : ProgramPc} (hpc : p.pc = pc) (hsetup : pc ≠ .setup)
      (hexit : pc ≠ .exit) (hexited : pc ≠ .exited) (hkilled : pc ≠ .killed)
      (hcall : ∀ call', call ≠ .setup call') (hparent : call ≠ .fork .parent) :
      p.Moves call p.returns := by
    subst hpc
    exact .returns hcall hparent hsetup hexit hexited hkilled
  cases call with
  | setup call =>
    simp only [Program.step] at h
    split at h
    next hpc =>
      obtain ⟨process, hprocess, h⟩ := Option.bind_eq_some_iff.mp h
      obtain ⟨fds, hfds, h⟩ := Option.bind_eq_some_iff.mp h
      cases h
      exact .setup hpc (Process.step_goes hprocess) hfds
    next => cases h
  | libraryOpens =>
    simp only [Program.step] at h
    split at h <;> cases h
    exact .libraryOpens ‹_›
  | libraryCloses fd =>
    simp only [Program.step] at h
    split at h <;> cases h
    next hpc => exact .libraryCloses hpc.1 hpc.2
  | fork result =>
    simp only [Program.step] at h
    split at h
    next hpc =>
      split at h <;> cases h
      · exact hreturns hpc (by simp) (by simp) (by simp) (by simp) (by simp) (by simp)
      · exact .forkChild hpc
      · exact .forkParent hpc
    next => cases h
  | setsid ok =>
    simp only [Program.step] at h
    split at h <;> cases h
    next hpc =>
      cases ok with
      | true => exact .setsid hpc
      | false => exact hreturns hpc (by simp) (by simp) (by simp) (by simp) (by simp) (by simp)
  | chdir ok =>
    simp only [Program.step] at h
    split at h <;> cases h
    next hpc =>
      cases ok with
      | true => exact .chdir hpc
      | false => exact hreturns hpc (by simp) (by simp) (by simp) (by simp) (by simp) (by simp)
  | openNull fd =>
    simp only [Program.step] at h
    split at h
    next hpc =>
      split at h
      · cases h
        exact hreturns hpc (by simp) (by simp) (by simp) (by simp) (by simp) (by simp)
      · split at h <;> cases h
        next hfd =>
          subst hfd
          exact .openNull hpc
    next => cases h
  | dup2 old new ok =>
    simp only [Program.step] at h
    split at h
    next hpc =>
      split at h
      next hok =>
        obtain ⟨fds, hfds, h⟩ := Option.bind_eq_some_iff.mp h
        cases h
        subst hok
        exact .dup2 hpc hfds
      next =>
        cases h
        exact hreturns hpc (by simp) (by simp) (by simp) (by simp) (by simp) (by simp)
    next => cases h
  | closeNull fd ok =>
    simp only [Program.step] at h
    split at h <;> cases h
    exact .closeNull ‹_›
  | mainLoopReturns =>
    simp only [Program.step] at h
    split at h <;> cases h
    next hpc => exact hreturns hpc (by simp) (by simp) (by simp) (by simp) (by simp) (by simp)
  | sigpipe =>
    simp only [Program.step] at h
    split at h <;> cases h
    exact .sigpipe ‹_›
  | exit =>
    simp only [Program.step] at h
    split at h <;> cases h
    exact .exit ‹_›

theorem Moves.daemonEnabled_eq (h : p.Moves call p') : p'.daemonEnabled = p.daemonEnabled := by
  cases h <;> rfl

def Leaving (p : Program) : Prop :=
  p.pc = .setup ∧ p.process.pc.closing = true ∨ p.pc = .exited

theorem returns_leaving (p : Program) : p.returns.Leaving := .inl ⟨rfl, p.process.shuttingDown_pc⟩

theorem afterSetup_closing {pc : SetupPc} (daemon : Bool) (h : pc.closing = true) :
    afterSetup daemon pc = if pc = .exited then .exited else .setup := by
  cases pc <;> first | rfl | cases h

theorem afterSetup_leaving {process : Process} (daemon : Bool)
    (h : process.pc.closing = true) (fds : Table Opened) :
    Leaving ⟨afterSetup daemon process.pc, daemon, process, fds⟩ := by
  rw [afterSetup_closing daemon h]
  split
  · exact .inr rfl
  · exact .inl ⟨rfl, h⟩

theorem Leaving.moves (h : p.Leaving) (hm : p.Moves call p') : p'.Leaving := by
  rcases h with ⟨hpc, hclosing⟩ | hpc
  · cases hm with
    | setup _ hgoes hfds =>
      cases hgoes with
      | socket hsocket => simp [hsocket, SetupPc.closing] at hclosing
      | starts _ _ hopen => simp [hopen] at hclosing
      | fails _ _ hopen => simp [hopen] at hclosing
      | closes _ _ hclosing' => exact afterSetup_leaving _ hclosing' _
      | unlinks ok _ hexited => exact .inr (by rw [hexited]; rfl)
    | libraryOpens => exact .inl ⟨hpc, hclosing⟩
    | libraryCloses => exact .inl ⟨hpc, hclosing⟩
    | returns _ _ hsetup => exact absurd hpc hsetup
    | _ hpc' => cases hpc.symm.trans hpc'
  · cases hm with
    | returns _ _ _ _ hexited => exact absurd hpc hexited
    | _ hpc' => cases hpc.symm.trans hpc'

/-- What `startup` leaves of the descriptors `fds₀` it began with, and its socket once it has it.
The socket is none of them, except where the C library closed its own. -/
structure Started (fds₀ : Table Opened) (p : Program) : Prop where
  kept : ∀ fd d, fds₀.get fd = some d → d ≠ .library → p.fds.get fd = some d
  listening : p.process.pc.listens = true → ∃ fd, p.process.socketFd = some fd ∧
    p.fds.get fd = some .listening ∧ ∀ d, fds₀.get fd = some d → d = .library

/-- Where the process that was started can be before it forks. -/
inductive Phase (fds₀ : Table Opened) (p : Program) : Prop where
  | starting (hpc : p.pc = .setup) (hopen : p.process.pc.closing = false)
      (h : p.Started fds₀)
  | started (hpc : p.pc = if p.daemonEnabled then .fork else .mainLoop)
      (hprocess : p.process.pc = .mainLoop) (h : p.Started fds₀)
  | leaving (h : p.Leaving)
  | killed (hpc : p.pc = .killed) (hdaemon : p.daemonEnabled = false)

theorem started_start (argv : List String) (fds₀ : Table Opened) :
    (start argv fds₀).Started fds₀ :=
  ⟨fun _ _ h _ => h, fun h => by cases h⟩

theorem Started.libraryOpens (h : p.Started fds₀) :
    Started fds₀ { p with fds := p.fds.openLowest .library } := by
  refine ⟨fun fd d hd hne => Table.openLowest_get (h.kept fd d hd hne), fun hl => ?_⟩
  obtain ⟨fd, hfd, hlistening, hnew⟩ := h.listening hl
  exact ⟨fd, hfd, Table.openLowest_get hlistening, hnew⟩

theorem Started.libraryCloses (h : p.Started fds₀) {fd : ℕ} (hfd : p.fds.get fd = some .library) :
    Started fds₀ { p with fds := p.fds.set fd none } := by
  have hkeep {fd' : ℕ} {d : Opened} (hd : p.fds.get fd' = some d) (hne : d ≠ .library) :
      (p.fds.set fd none).get fd' = some d := by
    have hother : fd' ≠ fd := by
      rintro rfl
      exact hne (Option.some.inj (hd.symm.trans hfd))
    simp [hother, hd]
  refine ⟨fun fd' d hd hne => hkeep (h.kept fd' d hd hne) hne, fun hl => ?_⟩
  obtain ⟨fd', hfd', hlistening, hnew⟩ := h.listening hl
  exact ⟨fd', hfd', hkeep hlistening (by simp), hnew⟩

/-- `socket` takes the lowest number: nothing that `fds₀` had and the process still has. -/
theorem Started.socket (h : p.Started fds₀) {process : Process} {pc : ProgramPc}
    (hfd : process.socketFd = some p.fds.lowest) :
    Started fds₀ ⟨pc, p.daemonEnabled, process, p.fds.openLowest .listening⟩ := by
  refine ⟨fun fd d hd hne => Table.openLowest_get (h.kept fd d hd hne), fun _ => ?_⟩
  refine ⟨p.fds.lowest, hfd, by simp [Table.openLowest], fun d hd => ?_⟩
  by_contra hne
  have hopen := h.kept _ d hd hne
  simp at hopen

theorem Started.goes_on (h : p.Started fds₀) {process : Process} {pc : ProgramPc}
    (hlistens : process.pc.listens = p.process.pc.listens)
    (hfd : process.socketFd = p.process.socketFd) :
    Started fds₀ ⟨pc, p.daemonEnabled, process, p.fds⟩ :=
  ⟨h.kept, fun hl => hfd ▸ h.listening (hlistens ▸ hl)⟩

theorem phase_afterSetup {process : Process} {daemon : Bool}
    (hopen : process.pc.closing = false)
    (h : Started fds₀ ⟨afterSetup daemon process.pc, daemon, process, fds⟩) :
    Phase fds₀ ⟨afterSetup daemon process.pc, daemon, process, fds⟩ := by
  by_cases hmain : process.pc = .mainLoop
  · refine .started ?_ hmain h
    simp [hmain, afterSetup]
  · refine .starting ?_ hopen h
    revert hmain hopen
    cases process.pc <;> simp [afterSetup, SetupPc.closing]

theorem Phase.serving (h : p.Phase fds₀) (hloop : p.pc = .mainLoop) :
    p.daemonEnabled = false ∧ p.process.pc = .mainLoop ∧ p.Started fds₀ := by
  cases h with
  | starting hpc => cases hloop.symm.trans hpc
  | started hpc hprocess h =>
    refine ⟨?_, hprocess, h⟩
    by_contra hdaemon
    rw [if_pos (Bool.eq_true_of_not_eq_false hdaemon)] at hpc
    cases hloop.symm.trans hpc
  | leaving h => rcases h with ⟨hpc, -⟩ | hpc <;> cases hloop.symm.trans hpc
  | killed hpc => cases hloop.symm.trans hpc

theorem Phase.not_daemon (h : p.Phase fds₀) (hpc : p.pc = .mainLoop ∨ p.pc = .killed) :
    p.daemonEnabled = false := by
  rcases hpc with hloop | hkilled
  · exact (h.serving hloop).1
  · cases h with
    | killed _ hdaemon => exact hdaemon
    | starting hpc => cases hkilled.symm.trans hpc
    | started hpc =>
      rw [hkilled] at hpc
      split at hpc <;> cases hpc
    | leaving h => rcases h with ⟨hpc, -⟩ | hpc <;> cases hkilled.symm.trans hpc

theorem Phase.moves (h : p.Phase fds₀) (hm : p.Moves call p') (hchild : call ≠ .fork .child)
    (hparent : call ≠ .fork .parent) : p'.Phase fds₀ := by
  cases h with
  | starting hpc hopen h =>
    cases hm with
    | setup _ hgoes hfds =>
      cases hgoes with
      | socket _ hbind hfd =>
        simp only [setupFds] at hfds
        split at hfds <;> cases hfds
        next hlow =>
          subst hlow
          exact phase_afterSetup (by simp [hbind, SetupPc.closing]) (h.socket hfd)
      | starts hcall _ _ hopen' hlistens hfd =>
        cases (hcall _).symm.trans hfds
        exact phase_afterSetup hopen' (h.goes_on hlistens hfd)
      | fails _ _ _ hclosing => exact .leaving (afterSetup_leaving _ hclosing _)
      | closes _ hclosing => simp [hopen] at hclosing
      | unlinks _ hclosing => simp [hopen] at hclosing
    | libraryOpens => exact .starting hpc hopen h.libraryOpens
    | libraryCloses _ hfd => exact .starting hpc hopen (h.libraryCloses hfd)
    | returns _ _ hsetup => exact absurd hpc hsetup
    | _ hpc' => cases hpc.symm.trans hpc'
  | started hpc hprocess h =>
    have hforkOrLoop : p.pc = .fork ∨ p.pc = .mainLoop := by
      split at hpc
      · exact .inl hpc
      · exact .inr hpc
    cases hm with
    | returns => exact .leaving p.returns_leaving
    | sigpipe hpc' =>
      exact .killed rfl ((Phase.started hpc hprocess h).not_daemon (.inl hpc'))
    | forkChild => exact absurd rfl hchild
    | forkParent => exact absurd rfl hparent
    | _ hpc' => simp [hpc'] at hforkOrLoop
  | leaving h => exact .leaving (h.moves hm)
  | killed hpc hdaemon =>
    cases hm with
    | returns _ _ _ _ _ hkilled => exact absurd hpc hkilled
    | _ hpc' => cases hpc.symm.trans hpc'

/-- What the child makes of the descriptors `fds` it was forked with. -/
def Redirects (fds fds' : Table Opened) : Prop :=
  ∀ fd, fds'.get fd =
    if fd = fds.lowest then none else if fd < 3 then some .devNull else fds.get fd

theorem Redirects.get_of_le {fds' : Table Opened} (h : Redirects fds fds') {fd : ℕ}
    (hfd : 3 ≤ fd) : fds'.get fd = fds.get fd := by
  have hnot : ¬ fd < 3 := by omega
  rw [h, if_neg hnot]
  split
  next hlow => rw [hlow, Table.get_lowest]
  next => rfl

theorem Redirects.devNull_iff {fds' : Table Opened} (h : Redirects fds fds') :
    (∀ fd < 3, fds'.get fd = some .devNull) ↔ ∀ fd < 3, fds.get fd ≠ none := by
  rw [← Table.le_lowest_iff]
  constructor
  · intro hnull
    by_contra hlow
    have hopen := hnull _ (Nat.lt_of_not_le hlow)
    rw [h, if_pos rfl] at hopen
    cases hopen
  · intro hlow fd hfd
    have hne : fd ≠ fds.lowest := by omega
    rw [h, if_neg hne, if_pos hfd]

theorem Redirects.listening_iff {fds' : Table Opened} (h : Redirects fds fds') {fd : ℕ}
    (hfd : fds.get fd = some .listening) : fds'.get fd = some .listening ↔ 3 ≤ fd := by
  constructor
  · intro hlistening
    by_contra hlow
    rw [h] at hlistening
    split at hlistening
    · cases hlistening
    · rw [if_pos (by omega)] at hlistening
      cases hlistening
  · intro hle
    rw [h.get_of_le hle, hfd]

/-- What holds of a child that was forked with `process` and `fds` at each of its calls. -/
def Redirecting (process : Process) (fds : Table Opened) (p : Program) : Prop :=
  match p.pc with
  | .setsid | .chdir | .openNull => p.process = process ∧ p.fds = fds
  | .dup2 fd n => fd = fds.lowest ∧ n < 3 ∧ p.process = process ∧
    fds.Redirected .devNull (List.range n).reverse p.fds
  | .closeNull fd => fd = fds.lowest ∧ p.process = process ∧
    fds.Redirected .devNull (List.range 3).reverse p.fds
  | .mainLoop => p.process = process ∧ Redirects fds p.fds
  | .setup => p.process.pc.closing = true
  | .exited | .killed => True
  | .fork | .exit => False

variable {process : Process}

theorem Leaving.redirecting (h : p.Leaving) : p.Redirecting process fds := by
  rcases h with ⟨hpc, hclosing⟩ | hpc
  · simpa only [Redirecting, hpc] using hclosing
  · simp only [Redirecting, hpc]

theorem redirecting_dup2 {old n : ℕ} {t : Table Opened} (hold : old = fds.lowest) (hn : n < 3)
    (hfds : fds.Redirected .devNull (List.range n).reverse t)
    (hdup : t.dup2 old n = some fds₀) : Redirecting process fds
      ⟨if n < 2 then .dup2 old (n + 1) else .closeNull old, p.daemonEnabled, process, fds₀⟩ := by
  subst hold
  obtain ⟨fds', hdup', hfds'⟩ := hfds.dup2 n
  cases hdup'.symm.trans hdup
  have hrange : n :: (List.range n).reverse = (List.range (n + 1)).reverse := by
    simp [List.range_succ]
  rw [hrange] at hfds'
  by_cases hlast : n < 2
  · rw [if_pos hlast]
    exact ⟨rfl, by omega, rfl, hfds'⟩
  · obtain rfl : n = 2 := by omega
    exact ⟨rfl, rfl, hfds'⟩

theorem Redirecting.moves (h : p.Redirecting process fds) (hm : p.Moves call p') :
    p'.Redirecting process fds := by
  unfold Redirecting at h
  cases hm with
  | setup hpc hgoes hfds =>
    simp only [hpc] at h
    exact (Leaving.moves (.inl ⟨hpc, h⟩) (.setup hpc hgoes hfds)).redirecting
  | libraryOpens hpc | libraryCloses hpc _ =>
    simp only [hpc] at h
    simpa only [Redirecting, hpc] using h
  | returns => exact p.process.shuttingDown_pc
  | sigpipe => trivial
  | forkChild hpc | forkParent hpc | exit hpc =>
    simp only [hpc] at h
  | setsid hpc | chdir hpc =>
    simp only [hpc] at h
    exact h
  | openNull hpc =>
    simp only [hpc] at h
    obtain ⟨hprocess, rfl⟩ := h
    exact ⟨rfl, by omega, hprocess, p.fds.redirected_open .devNull⟩
  | dup2 hpc hdup =>
    simp only [hpc] at h
    obtain ⟨hold, hn, rfl, hfds⟩ := h
    exact redirecting_dup2 hold hn hfds hdup
  | closeNull hpc =>
    simp only [hpc] at h
    obtain ⟨rfl, hprocess, hfds⟩ := h
    obtain ⟨fds', hclose, hget⟩ := hfds.close
    refine ⟨hprocess, fun fd => ?_⟩
    simpa [goto, hclose] using hget fd

theorem Redirecting.redirects (h : p.Redirecting process fds) (hloop : p.pc = .mainLoop) :
    p.process = process ∧ Redirects fds p.fds := by
  simpa only [Redirecting, hloop] using h

theorem Redirecting.pc_ne (h : p.Redirecting process fds) : p.pc ≠ .fork ∧ p.pc ≠ .exit := by
  constructor <;>
  · intro hpc
    simp only [Redirecting, hpc] at h

end Program

namespace Family

variable {f f' : Family} {l : FamilyLabel} {argv : List String} {fds₀ : Table Opened}
  {tr : List FamilyLabel}

inductive Moves (f : Family) : FamilyLabel → Family → Prop where
  | forks (hpc : f.parent.pc = .fork) : f.Moves (.parent (.fork .parent))
      ⟨f.parent.goto .exit, some (f.parent.goto .setsid)⟩
  | parent {call : ProgramCall} {p : Program} (hm : f.parent.Moves call p)
      (hchild : call ≠ .fork .child) (hparent : call ≠ .fork .parent) :
      f.Moves (.parent call) { f with parent := p }
  | child {call : ProgramCall} {c c' : Program} (hc : f.child = some c) (hm : c.Moves call c') :
      f.Moves (.child call) { f with child := some c' }

theorem step_moves (h : f.Step l f') : f.Moves l f' := by
  unfold Step Family.step at h
  split at h
  · cases h
  · obtain ⟨p, hp, h⟩ := Option.bind_eq_some_iff.mp h
    obtain ⟨c, hc, h⟩ := Option.bind_eq_some_iff.mp h
    cases h
    have hpc : f.parent.pc = .fork := by
      by_contra hne
      simp [Program.step, hne] at hp
    simp only [Program.step, if_pos hpc, Option.some.injEq] at hp hc
    subst hp hc
    exact .forks hpc
  · obtain ⟨p, hp, h⟩ := Option.map_eq_some_iff.mp h
    subst h
    exact .parent (Program.step_moves hp) ‹_› ‹_›
  · obtain ⟨c, hc, h⟩ := Option.bind_eq_some_iff.mp h
    obtain ⟨c', hc', h⟩ := Option.bind_eq_some_iff.mp h
    cases h
    exact .child hc (Program.step_moves hc')

/-- Where the two processes can be. The parent of a child only exits, so its descriptors are those
of the fork. -/
inductive Phase (fds₀ : Table Opened) (f : Family) : Prop where
  | alone (hchild : f.child = none) (h : f.parent.Phase fds₀)
  | forked {c : Program} (hchild : f.child = some c) (hdaemon : f.parent.daemonEnabled = true)
      (hpc : f.parent.pc = .exit ∨ f.parent.pc = .exited)
      (hprocess : f.parent.process.pc = .mainLoop) (h : f.parent.Started fds₀)
      (hc : c.Redirecting f.parent.process f.parent.fds)

theorem Phase.moves (h : f.Phase fds₀) (hm : f.Moves l f') : f'.Phase fds₀ := by
  cases hm with
  | forks hpc =>
    cases h with
    | alone _ hparent =>
      cases hparent with
      | starting hpc' => cases hpc.symm.trans hpc'
      | started hpc' hprocess hstarted =>
        have hdaemon : f.parent.daemonEnabled = true := by
          by_contra hnot
          rw [if_neg hnot] at hpc'
          cases hpc.symm.trans hpc'
        exact .forked rfl hdaemon (.inl rfl) hprocess ⟨hstarted.kept, hstarted.listening⟩ ⟨rfl, rfl⟩
      | leaving hleaving =>
        rcases hleaving with ⟨hpc', -⟩ | hpc' <;> cases hpc.symm.trans hpc'
      | killed hpc' => cases hpc.symm.trans hpc'
    | forked _ _ hpc' => simp [hpc] at hpc'
  | parent hm hchild hparent =>
    cases h with
    | alone hnone h => exact .alone hnone (h.moves hm hchild hparent)
    | forked hsome hdaemon hpc hprocess hstarted hc =>
      cases hm with
      | exit =>
        exact .forked hsome hdaemon (.inr rfl) hprocess ⟨hstarted.kept, hstarted.listening⟩ hc
      | returns _ _ _ hexit hexited => exact absurd hpc (not_or.mpr ⟨hexit, hexited⟩)
      | _ hpc' => simp [hpc'] at hpc
  | child hc hm =>
    cases h with
    | alone hnone => cases hnone.symm.trans hc
    | forked hsome hdaemon hpc hprocess hstarted hredirecting =>
      cases hsome.symm.trans hc
      exact .forked rfl hdaemon hpc hprocess hstarted (hredirecting.moves hm)

theorem run_phase (hrun : Run Family.Step (.start argv fds₀) tr f) :
    f.Phase fds₀ ∧ f.parent.daemonEnabled = daemonEnabled argv := by
  refine hrun.invariant (P := fun _ f => f.Phase fds₀ ∧ f.parent.daemonEnabled = _) ?_ ?_
  · exact ⟨.alone rfl (.starting rfl rfl (Program.started_start argv fds₀)), rfl⟩
  · rintro _ f _ f' - ⟨hphase, hdaemon⟩ hs
    have hm := step_moves hs
    refine ⟨hphase.moves hm, ?_⟩
    cases hm with
    | forks => exact hdaemon
    | parent hm => exact hm.daemonEnabled_eq.trans hdaemon
    | child => exact hdaemon

end Family

/-- The calls of `unlink`, whether they succeed or not. -/
def SetupCall.unlinks : SetupCall → ℕ
  | .unlink _ => 1
  | _ => 0

def ProgramCall.unlinks : ProgramCall → ℕ
  | .setup call => call.unlinks
  | _ => 0

def FamilyLabel.unlinks : FamilyLabel → ℕ
  | .parent call => call.unlinks
  | .child call => call.unlinks

/-- Whether the process has still to call `unlink`; one that `SIGPIPE` has ended never will. -/
def ProgramPc.owes : ProgramPc → ℕ
  | .exit => 0
  | .exited => 0
  | _ => 1

def Family.owes (f : Family) : ℕ := f.parent.pc.owes + f.child.elim 0 fun c => c.pc.owes

theorem ProgramPc.owes_eq_one {pc : ProgramPc} (hexit : pc ≠ .exit) (hexited : pc ≠ .exited) :
    pc.owes = 1 := by
  cases pc with
  | exit => exact absurd rfl hexit
  | exited => exact absurd rfl hexited
  | _ => rfl

theorem Process.Goes.unlinks_add_owes {p p' : Process} {call : SetupCall} (h : p.Goes call p')
    (daemon : Bool) :
    call.unlinks + (Program.afterSetup daemon p'.pc).owes = 1 := by
  have hnone (hunlink : ∀ ok, call ≠ .unlink ok) : call.unlinks = 0 := by
    cases call with
    | unlink ok => exact absurd rfl (hunlink ok)
    | _ => rfl
  have hafter {pc : SetupPc} (hne : pc ≠ .exited) : (Program.afterSetup daemon pc).owes = 1 := by
    cases pc <;> cases daemon <;> first | rfl | exact absurd rfl hne
  cases h with
  | socket _ hbind => rw [hnone (by simp), hafter (by simp [hbind])]
  | starts _ hunlink _ hopen =>
    have hne : p'.pc ≠ .exited := by
      intro hexited
      simp [hexited, SetupPc.closing] at hopen
    rw [hnone hunlink, hafter hne]
  | fails _ hunlink _ _ hne => rw [hnone hunlink, hafter hne]
  | closes hunlink _ _ hne => rw [hnone hunlink, hafter hne]
  | unlinks ok _ hexited =>
    rw [hexited]
    rfl

theorem Program.Moves.unlinks_add_owes {p p' : Program} {call : ProgramCall} (h : p.Moves call p')
    (hparent : call ≠ .fork .parent) : call.unlinks + p'.pc.owes = p.pc.owes := by
  cases h with
  | setup hpc hgoes =>
    rw [hpc]
    exact hgoes.unlinks_add_owes p.daemonEnabled
  | forkParent => exact absurd rfl hparent
  | returns hcall _ _ hexit hexited =>
    have hnone : call.unlinks = 0 := by
      cases call with
      | setup call => exact absurd rfl (hcall call)
      | _ => rfl
    rw [hnone, ProgramPc.owes_eq_one hexit hexited]
    rfl
  | dup2 hpc =>
    rw [hpc]
    simp only [goto]
    split <;> rfl
  | _ hpc =>
    simp only [hpc]
    rfl

theorem Family.Moves.unlinks_add_owes {f f' : Family} {l : FamilyLabel} {fds₀ : Table Opened}
    (hphase : f.Phase fds₀) (h : f.Moves l f') : l.unlinks + f'.owes = f.owes := by
  cases h with
  | forks hpc =>
    have hnone : f.child = none := by
      cases hphase with
      | alone hnone => exact hnone
      | forked _ _ hpc' => simp [hpc] at hpc'
    simp only [Family.owes, hnone, hpc]
    rfl
  | parent hm _ hparent =>
    have hstep := hm.unlinks_add_owes hparent
    simp only [Family.owes, FamilyLabel.unlinks]
    omega
  | @child call c c' hc hm =>
    have hfork : call ≠ .fork .parent := by
      rintro rfl
      cases hm with
      | forkParent hpc =>
        cases hphase with
        | alone hnone => cases hnone.symm.trans hc
        | forked hsome _ _ _ _ hredirecting =>
          cases hsome.symm.trans hc
          exact hredirecting.pc_ne.1 hpc
      | returns _ hparent => exact hparent rfl
    have hstep := hm.unlinks_add_owes hfork
    simp only [Family.owes, FamilyLabel.unlinks, hc, Option.elim_some]
    omega

/-- No process of the program has exited before it called `unlink`, but the parent of a child. -/
theorem Family.unlinks_run {f : Family} {argv : List String} {fds₀ : Table Opened}
    {tr : List FamilyLabel} (hrun : Run Family.Step (.start argv fds₀) tr f) :
    (tr.map FamilyLabel.unlinks).sum + f.owes = 1 := by
  refine (hrun.invariant (P := fun tr f => f.Phase fds₀ ∧
    (tr.map FamilyLabel.unlinks).sum + f.owes = 1) ?_ ?_).2
  · exact ⟨.alone rfl (.starting rfl rfl (Program.started_start argv fds₀)), rfl⟩
  · rintro tr f l f' - ⟨hphase, hsum⟩ hs
    have hm := Family.step_moves hs
    have howes := hm.unlinks_add_owes hphase
    refine ⟨hphase.moves hm, ?_⟩
    rw [List.map_append, List.sum_append, List.map_singleton, List.sum_singleton]
    omega

/-- The program with its child calls `unlink` at most once, and not before the process that serves
is done: without "-d" that is the process itself, with "-d" the child, and the parent then exits
without a clean-up. When all have exited it has been called once, and never when `SIGPIPE` has ended
the process that serves. -/
theorem family_cleans_up_once {f : Family} (argv : List String) (fds₀ : Table Opened)
    {tr : List FamilyLabel} (hrun : Run Family.Step (.start argv fds₀) tr f) :
    (tr.map FamilyLabel.unlinks).sum ≤ 1 ∧
    (f.parent.pc = .mainLoop ∨ f.parent.pc = .killed → daemonEnabled argv = false ∧
      f.child = none ∧ (tr.map FamilyLabel.unlinks).sum = 0) ∧
    (∀ c, f.child = some c → daemonEnabled argv = true ∧
      (f.parent.pc = .exit ∨ f.parent.pc = .exited) ∧
      (c.pc ≠ .exited → (tr.map FamilyLabel.unlinks).sum = 0)) ∧
    (f.parent.pc = .exited → (∀ c, f.child = some c → c.pc = .exited) →
      (tr.map FamilyLabel.unlinks).sum = 1) := by
  obtain ⟨hphase, hdaemon⟩ := Family.run_phase hrun
  have hsum := Family.unlinks_run hrun
  refine ⟨by omega, ?_⟩
  unfold Family.owes at hsum
  cases hphase with
  | alone hnone h =>
    rw [hnone, Option.elim_none] at hsum
    refine ⟨fun hpc => ⟨?_, hnone, ?_⟩, fun c hc => (by cases hnone.symm.trans hc),
      fun hpc _ => ?_⟩
    · exact hdaemon.symm.trans (h.not_daemon hpc)
    · rcases hpc with hpc | hpc <;>
      · rw [hpc] at hsum
        simpa [ProgramPc.owes] using hsum
    · rw [hpc] at hsum
      simpa [ProgramPc.owes] using hsum
  | @forked c hsome hchild hpc _ _ hc =>
    have hparent : f.parent.pc.owes = 0 := by rcases hpc with hpc | hpc <;> rw [hpc] <;> rfl
    rw [hsome, Option.elim_some, hparent] at hsum
    refine ⟨fun hpc' => ?_, fun c' hc' => ?_, fun _ hexited => ?_⟩
    · rcases hpc with hpc | hpc <;> simp [hpc] at hpc'
    · cases hsome.symm.trans hc'
      refine ⟨hdaemon.symm.trans hchild, hpc, fun hne => ?_⟩
      have howes : c.pc.owes = 1 := ProgramPc.owes_eq_one hc.pc_ne.2 hne
      omega
    · rw [hexited c hsome] at hsum
      simpa [ProgramPc.owes] using hsum

theorem Family.run_of_foldlM {f₀ f : Family} {tr : List FamilyLabel}
    (h : tr.foldlM Family.step f₀ = some f) : Run Family.Step f₀ tr f :=
  Run.of_foldlM_step (fun _ _ _ _ hs => hs) h

def streams (fds : List ℕ) : Table Opened := .ofList fds .inherited

def startupCalls (fd : ℕ) : List FamilyLabel :=
  [.setup (.sigaction .sigterm true), .setup (.sigaction .sigint true), .setup (.getaddrinfo true),
    .setup (.socket (some fd)), .setup (.bind true), .setup (.listen true),
    .setup (.getFlags true), .setup (.setFlags true)].map .parent

def forkCalls (fd : ℕ) : List FamilyLabel :=
  [.parent (.fork .parent), .child (.setsid true), .child (.chdir true),
    .child (.openNull (some fd)), .child (.dup2 fd 0 true), .child (.dup2 fd 1 true),
    .child (.dup2 fd 2 true), .child (.closeNull fd true)]

/-- A daemon from its start to the end of both processes. -/
def daemonRun : List FamilyLabel :=
  startupCalls 3 ++ forkCalls 4 ++ [.child .mainLoopReturns, .child (.setup .freeaddrinfo),
    .parent .exit, .child (.setup (.close 3 true)), .child (.setup (.unlink true))]

theorem daemonRun_cleans_up_once : ∃ f, Run Family.Step (.start ["aesdsocket", "-d"]
    (streams [0, 1, 2])) daemonRun f ∧ (daemonRun.map FamilyLabel.unlinks).sum = 1 := by
  have hstate : (daemonRun.foldlM Family.step (.start ["aesdsocket", "-d"]
      (streams [0, 1, 2]))).map (fun f => (f.parent.pc, f.child.map Program.pc)) =
      some (.exited, some .exited) := by decide +kernel
  obtain ⟨f, hf, hstate⟩ := Option.map_eq_some_iff.mp hstate
  obtain ⟨hparent, hchild⟩ := Prod.mk.inj hstate
  have hrun := Family.run_of_foldlM hf
  refine ⟨f, hrun, (family_cleans_up_once _ _ hrun).2.2.2 hparent fun c hc => ?_⟩
  rw [hc] at hchild
  exact Option.some.inj hchild

end Aesd.Server
