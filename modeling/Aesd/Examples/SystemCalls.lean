import Aesd.Lib.DescriptorTables
import Aesd.Lib.Runs

/-! `do_system`, `do_exec` and `do_exec_redirect`: the caller, the child it forks and the command
that the child becomes. Arguments that are not there and a null pointer read have no result. -/
namespace Aesd.SystemCalls
open DescriptorTables Runs

/-- How a process ends: with the eight low bits of an exit code, or by a signal, counted from 1. -/
inductive End where
  | exits (code : ℤ)
  | killed (sig : Fin 126) (core : Bool)
  deriving DecidableEq

/-- The status that `waitpid` and `system` report. -/
def End.status : End → ℤ
  | .exits code => code % 256 * 256
  | .killed sig core => sig + 1 + if core then 128 else 0

/-- `WIFEXITED`. -/
def wIfExited (status : ℤ) : Bool := status % 128 = 0

/-- `WEXITSTATUS`. -/
def wExitStatus (status : ℤ) : ℤ := status / 256 % 256

/-- The tests that `do_exec` and `do_exec_redirect` make of the status. -/
def statusOk (wstatus : ℤ) : Bool :=
  if !wIfExited wstatus then false else if wExitStatus wstatus ≠ 0 then false else true

/-- The command has exited with the code 0, as far as a parent can see. -/
def End.succeeded : End → Bool
  | .exits code => code % 256 = 0
  | .killed _ _ => false

theorem End.statusOk_status (e : End) : statusOk e.status = e.succeeded := by
  cases e with
  | exits code =>
    have hexited : code % 256 * 256 % 128 = 0 := by omega
    simp [statusOk, wIfExited, wExitStatus, End.status, End.succeeded, hexited]
  | killed sig core =>
    have hsig := sig.isLt
    have hnot : ¬ ((sig : ℤ) + 1 + if core then 128 else 0) % 128 = 0 := by
      cases core <;> simp <;> omega
    simp [statusOk, wIfExited, End.status, End.succeeded, hnot]

/-- `do_system`, where `system` returns `returnNum`. -/
def doSystem (cmd : Option String) (returnNum : ℤ) : Bool :=
  match cmd with
  | none => if returnNum = 0 then false else true
  | some _ =>
    if returnNum = -1 then false
    else if !wIfExited returnNum then false
    else if wExitStatus returnNum = 127 then false
    else if wExitStatus returnNum ≠ 0 then false
    else true

/-- The tests for -1 and 127 change nothing: the others fail there too. -/
theorem doSystem_some (cmd : String) (returnNum : ℤ) :
    doSystem (some cmd) returnNum = statusOk returnNum := by
  unfold doSystem statusOk
  by_cases hfailed : returnNum = -1
  · simp [hfailed, wIfExited]
  · by_cases hshell : wExitStatus returnNum = 127
    · simp [hfailed, hshell]
    · simp [hfailed, hshell]

inductive Collected where
  | returnsFalse
  | command (argv : List (Option String))
  deriving DecidableEq

/-- The loop from argument `i` on, with `count` arguments to come; only `do_exec_redirect` checks
for `NULL`. -/
def collect (checksNull : Bool) : (count i : ℕ) → List (Option String) → Option Collected
  | 0, _, _ => some (.command [])
  | _ + 1, _, [] => none
  | count + 1, i, argument :: args =>
    if checksNull = true ∧ argument = none then some .returnsFalse
    else if i = 0 ∧ argument = none then none
    else if i = 0 ∧ (argument.getD "").toList.head? ≠ some '/' then some .returnsFalse
    else (collect checksNull count (i + 1) args).map fun
      | .returnsFalse => .returnsFalse
      | .command argv => .command (argument :: argv)

/-- What `execv` makes of a command: its arguments up to the first `NULL`. -/
def execArgs (argv : List (Option String)) : List String :=
  (argv.takeWhile Option.isSome).filterMap id

/-- What a descriptor refers to: what the caller has at a number, where it may have the flag
`FD_CLOEXEC`, or `outputfile`, which is opened without it. -/
inductive Opened where
  | inherited (fd : ℕ) (closeOnExec : Bool)
  | outputFile
  deriving DecidableEq

/-- `execv` leaves the descriptor open. -/
def Opened.staysOpen : Opened → Bool
  | .inherited _ closeOnExec => !closeOnExec
  | .outputFile => true

inductive CallerPc where
  | fork
  | waitpid
  | returned (result : Bool)
  deriving DecidableEq

/-- The call that the child makes next, or the command, or its end. -/
inductive ChildPc where
  | openOutput
  | dup2 (fd : ℕ)
  | closeUndup (fd : ℕ)
  | close (fd : ℕ)
  | execv
  | runs
  | ended (e : End)
  deriving DecidableEq

/-- `image` is the arguments that the command was run with, once it was. -/
structure Child where
  pc : ChildPc
  fds : Table Opened
  image : Option (List String)

/-- A call of `do_exec`, or of `do_exec_redirect`, which redirects. -/
structure Exec where
  redirects : Bool
  argv : List (Option String)
  fds : Table Opened
  caller : CallerPc
  child : Option Child

/-- A step of the caller or the child. A signal may end the child before its command. -/
inductive ExecCall where
  | fork (ok : Bool)
  | waitpid (got : Option End)
  | openOutput (fd : Option ℕ)
  | dup2 (ok : Bool)
  | close (ok : Bool)
  | execv (ok : Bool)
  | ends (e : End)
  deriving DecidableEq

namespace Child

def goto (c : Child) (pc : ChildPc) : Child := { c with pc := pc }

def exit127 (c : Child) : Child := c.goto (.ended (.exits 127))

/-- A step of the child; a `close` that fails has closed its descriptor all the same. -/
def step (argv : List (Option String)) (c : Child) : ExecCall → Option Child
  | .openOutput fd =>
    if c.pc = .openOutput then
      match fd with
      | none => some c.exit127
      | some fd =>
        if fd = c.fds.lowest then
          some ({ c with fds := c.fds.openLowest .outputFile }.goto (.dup2 fd))
        else none
    else none
  | .dup2 ok =>
    match c.pc with
    | .dup2 fd =>
      if ok then (c.fds.dup2 fd 1).map fun fds => { c with fds := fds }.goto (.close fd)
      else some (c.goto (.closeUndup fd))
    | _ => none
  | .close ok =>
    match c.pc with
    | .close fd =>
      let closed := { c with fds := (c.fds.close fd).getD c.fds }
      some (if ok then closed.goto .execv else closed.exit127)
    | .closeUndup fd => some { c with fds := (c.fds.close fd).getD c.fds }.exit127
    | _ => none
  | .execv ok =>
    if c.pc = .execv then
      some (if ok then ⟨.runs, c.fds.filter Opened.staysOpen, some (execArgs argv)⟩
        else c.exit127)
    else none
  | .ends e =>
    match c.pc, e with
    | .ended _, _ => none
    | .runs, e => some (c.goto (.ended e))
    | _, .killed sig core => some (c.goto (.ended (.killed sig core)))
    | _, .exits _ => none
  | _ => none

end Child

namespace Exec

/-- `do_exec` or `do_exec_redirect` up to the fork. -/
def start (redirects : Bool) (count : ℤ) (args : List (Option String)) (fds : Table Opened) :
    Option Exec :=
  if count < 1 then some ⟨redirects, [], fds, .returned false, none⟩
  else (collect redirects count.toNat 0 args).map fun
    | .returnsFalse => ⟨redirects, [], fds, .returned false, none⟩
    | .command argv => ⟨redirects, argv, fds, .fork, none⟩

def doExec := start false

def doExecRedirect := start true

def forked (x : Exec) : Child := ⟨if x.redirects then .openOutput else .execv, x.fds, none⟩

def step (x : Exec) : ExecCall → Option Exec
  | .fork ok =>
    if x.caller = .fork then
      some (if ok then { x with caller := .waitpid, child := some x.forked }
        else { x with caller := .returned false })
    else none
  | .waitpid got =>
    if x.caller = .waitpid then
      match got with
      | none => some { x with caller := .returned false }
      | some e =>
        if x.child.map Child.pc = some (.ended e) then
          some { x with caller := .returned (statusOk e.status) }
        else none
    else none
  | call => do
    let child ← x.child
    let child ← child.step x.argv call
    some { x with child := some child }

def Step (x : Exec) (call : ExecCall) (x' : Exec) : Prop := x.step call = some x'

end Exec

/-- The arguments that the loop accepts are those that were passed, the first an absolute path. -/
theorem collect_command {checksNull : Bool} {count i : ℕ} {args argv : List (Option String)}
    (h : collect checksNull count i args = some (.command argv)) :
    argv = args.take count ∧ (checksNull = true → ∀ argument ∈ argv, argument ≠ none) ∧
      (i = 0 → 0 < count → ∃ path rest, argv = some path :: rest ∧
        path.toList.head? = some '/') := by
  induction count generalizing i args argv with
  | zero =>
    cases h
    simp
  | succ count ih =>
    cases args with
    | nil => cases h
    | cons argument args =>
      simp only [collect] at h
      split at h
      next => cases h
      next hchecked =>
        split at h
        next => cases h
        next hnull =>
          split at h
          next => cases h
          next hpath =>
            obtain ⟨rest, hrest, h⟩ := Option.map_eq_some_iff.mp h
            cases rest with
            | returnsFalse => cases h
            | command argv' =>
              cases h
              obtain ⟨rfl, hsome, -⟩ := ih hrest
              refine ⟨rfl, fun hchecks a ha => ?_, fun hi _ => ?_⟩
              · rcases List.mem_cons.mp ha with rfl | ha
                · exact fun hnone => hchecked ⟨hchecks, hnone⟩
                · exact hsome hchecks a ha
              · cases argument with
                | none => exact absurd ⟨hi, rfl⟩ hnull
                | some path =>
                  exact ⟨path, _, rfl, not_not.mp fun hne => hpath ⟨hi, hne⟩⟩

theorem execArgs_map_some (args : List String) : execArgs (args.map some) = args := by
  induction args with
  | nil => rfl
  | cons arg args ih => simpa [execArgs] using ih

theorem map_some_execArgs {argv : List (Option String)} (h : ∀ argument ∈ argv, argument ≠ none) :
    argv = (execArgs argv).map some := by
  obtain ⟨args, rfl⟩ : ∃ args : List String, argv = args.map some := by
    induction argv with
    | nil => exact ⟨[], rfl⟩
    | cons argument argv ih =>
      obtain ⟨arg, rfl⟩ := Option.ne_none_iff_exists'.mp (h argument (by simp))
      obtain ⟨args, rfl⟩ := ih fun a ha => h a (by simp [ha])
      exact ⟨arg :: args, rfl⟩
  rw [execArgs_map_some]

/-- The descriptors of the child when it calls `execv`. -/
def Redirects (redirects : Bool) (fds₀ fds : Table Opened) : Prop :=
  if redirects then ∀ fd, fds.get fd =
    if fd = fds₀.lowest then none else if fd ∈ [1] then some .outputFile else fds₀.get fd
  else fds = fds₀

namespace Child

variable {redirects : Bool} {fds₀ : Table Opened} {argv : List (Option String)} {c c' : Child}
  {call : ExecCall}

def HasRun (redirects : Bool) (fds₀ : Table Opened) (argv : List (Option String)) (c : Child) :
    Prop :=
  c.image = some (execArgs argv) ∧
    ∃ fds, Redirects redirects fds₀ fds ∧ c.fds = fds.filter Opened.staysOpen

/-- What holds of the child at each of its calls. Without its command it does not exit with the
code 0. -/
def Phase (redirects : Bool) (fds₀ : Table Opened) (argv : List (Option String)) (c : Child) :
    Prop :=
  match c.pc with
  | .openOutput => c.image = none ∧ redirects = true ∧ c.fds = fds₀
  | .dup2 fd => fd = fds₀.lowest ∧ c.image = none ∧ redirects = true ∧
    fds₀.Redirected .outputFile [] c.fds
  | .close fd => fd = fds₀.lowest ∧ c.image = none ∧ redirects = true ∧
    fds₀.Redirected .outputFile [1] c.fds
  | .closeUndup _ => c.image = none
  | .execv => c.image = none ∧ Redirects redirects fds₀ c.fds
  | .runs => c.HasRun redirects fds₀ argv
  | .ended e => c.image = none ∧ e.succeeded = false ∨ c.HasRun redirects fds₀ argv

inductive Moves (argv : List (Option String)) (c : Child) : ExecCall → Child → Prop where
  | fails {call : ExecCall} (fds : Table Opened) (hruns : c.pc ≠ .runs)
      (hended : ∀ e, c.pc ≠ .ended e) : c.Moves argv call { c with fds := fds }.exit127
  | opens (hpc : c.pc = .openOutput) : c.Moves argv (.openOutput (some c.fds.lowest))
      ({ c with fds := c.fds.openLowest .outputFile }.goto (.dup2 c.fds.lowest))
  | dups {fd : ℕ} {fds : Table Opened} (hpc : c.pc = .dup2 fd) (hfds : c.fds.dup2 fd 1 = some fds) :
      c.Moves argv (.dup2 true) ({ c with fds := fds }.goto (.close fd))
  | dupFails {fd : ℕ} (hpc : c.pc = .dup2 fd) :
      c.Moves argv (.dup2 false) (c.goto (.closeUndup fd))
  | closes {fd : ℕ} (hpc : c.pc = .close fd) : c.Moves argv (.close true)
      ({ c with fds := (c.fds.close fd).getD c.fds }.goto .execv)
  | runs (hpc : c.pc = .execv) :
      c.Moves argv (.execv true) ⟨.runs, c.fds.filter Opened.staysOpen, some (execArgs argv)⟩
  | ends (e : End) (hpc : c.pc = .runs) : c.Moves argv (.ends e) (c.goto (.ended e))
  | killed (sig : Fin 126) (core : Bool) (hruns : c.pc ≠ .runs) (hended : ∀ e, c.pc ≠ .ended e) :
      c.Moves argv (.ends (.killed sig core)) (c.goto (.ended (.killed sig core)))

theorem step_moves (h : c.step argv call = some c') : c.Moves argv call c' := by
  have hfails {call : ExecCall} {pc : ChildPc} (fds : Table Opened) (hpc : c.pc = pc)
      (hruns : pc ≠ .runs) (hended : ∀ e, pc ≠ .ended e) :
      c.Moves argv call { c with fds := fds }.exit127 := by
    subst hpc
    exact .fails fds hruns hended
  unfold Child.step at h
  split at h
  next fd =>
    obtain ⟨hpc, h⟩ := Option.ite_none_right_eq_some.mp h
    cases fd with
    | none =>
      cases h
      exact hfails c.fds hpc (by simp) (by simp)
    | some fd =>
      obtain ⟨hfd, h⟩ := Option.ite_none_right_eq_some.mp h
      cases h
      subst hfd
      exact .opens hpc
  next ok =>
    split at h
    next fd hpc =>
      cases ok with
      | true =>
        obtain ⟨fds, hfds, h⟩ := Option.map_eq_some_iff.mp h
        cases h
        exact .dups hpc hfds
      | false =>
        cases h
        exact .dupFails hpc
    next => cases h
  next ok =>
    split at h
    next fd hpc =>
      cases ok with
      | true =>
        cases h
        exact .closes hpc
      | false =>
        cases h
        exact hfails _ hpc (by simp) (by simp)
    next fd hpc =>
      cases h
      exact hfails _ hpc (by simp) (by simp)
    next => cases h
  next ok =>
    obtain ⟨hpc, h⟩ := Option.ite_none_right_eq_some.mp h
    cases ok with
    | true =>
      cases h
      exact .runs hpc
    | false =>
      cases h
      exact hfails c.fds hpc (by simp) (by simp)
  next e =>
    split at h
    next => cases h
    next hpc =>
      cases h
      exact .ends _ hpc
    next sig core hended hruns =>
      cases h
      exact .killed sig core hruns hended
    next => cases h
  next => cases h

theorem Phase.image_eq (h : c.Phase redirects fds₀ argv) (hruns : c.pc ≠ .runs)
    (hended : ∀ e, c.pc ≠ .ended e) : c.image = none := by
  unfold Phase at h
  split at h
  next => exact h.1
  next => exact h.2.1
  next => exact h.2.1
  next => exact h
  next => exact h.1
  next hpc => exact absurd hpc hruns
  next e hpc => exact absurd hpc (hended e)

theorem Phase.moves (h : c.Phase redirects fds₀ argv) (hm : c.Moves argv call c') :
    c'.Phase redirects fds₀ argv := by
  cases hm with
  | fails fds hruns hended => exact .inl ⟨h.image_eq hruns hended, rfl⟩
  | killed sig core hruns hended => exact .inl ⟨h.image_eq hruns hended, rfl⟩
  | dupFails hpc => exact h.image_eq (by simp [hpc]) (by simp [hpc])
  | opens hpc =>
    simp only [Phase, hpc] at h
    obtain ⟨himage, hr, rfl⟩ := h
    exact ⟨rfl, himage, hr, c.fds.redirected_open .outputFile⟩
  | dups hpc hdup =>
    simp only [Phase, hpc] at h
    obtain ⟨rfl, himage, hr, hfds⟩ := h
    obtain ⟨fds, hdup', hredirected⟩ := hfds.dup2 1
    cases hdup'.symm.trans hdup
    exact ⟨rfl, himage, hr, hredirected⟩
  | closes hpc =>
    simp only [Phase, hpc] at h
    obtain ⟨rfl, himage, hr, hfds⟩ := h
    obtain ⟨fds, hclose, hget⟩ := hfds.close
    refine ⟨himage, ?_⟩
    simpa [Redirects, hr, goto, hclose] using hget
  | runs hpc =>
    simp only [Phase, hpc] at h
    exact ⟨rfl, c.fds, h.2, rfl⟩
  | ends e hpc =>
    simp only [Phase, hpc] at h
    exact .inr h

theorem Phase.hasRun (h : c.Phase redirects fds₀ argv) {image : List String}
    (himage : c.image = some image) : c.HasRun redirects fds₀ argv := by
  have hsome : c.image ≠ none := by simp [himage]
  unfold Phase at h
  split at h
  next => exact absurd h.1 hsome
  next => exact absurd h.2.1 hsome
  next => exact absurd h.2.1 hsome
  next => exact absurd h hsome
  next => exact absurd h.1 hsome
  next => exact h
  next => exact h.resolve_left fun hnone => hsome hnone.1

theorem Moves.not_ended (hm : c.Moves argv call c') (e : End) : c.pc ≠ .ended e := by
  cases hm with
  | fails fds _ hended => exact hended e
  | killed sig core _ hended => exact hended e
  | _ => simp_all

end Child

namespace Exec

variable {redirects : Bool} {fds₀ : Table Opened} {argv : List (Option String)} {x x₀ x' : Exec}
  {call : ExecCall} {tr : List ExecCall}

/-- What holds of the caller and its child at each call of the caller. -/
def Phase (tr : List ExecCall) (x : Exec) : Prop :=
  match x.caller with
  | .fork => x.child = none
  | .waitpid => ∃ c, x.child = some c ∧ c.Phase x.redirects x.fds x.argv
  | .returned result => x.child = none ∧ result = false ∨
    ∃ c, x.child = some c ∧ c.Phase x.redirects x.fds x.argv ∧
      (result = false ∧ .waitpid none ∈ tr ∨ ∃ e, c.pc = .ended e ∧ result = statusOk e.status)

inductive Moves (x : Exec) : ExecCall → Exec → Prop where
  | forks (hcaller : x.caller = .fork) :
      x.Moves (.fork true) { x with caller := .waitpid, child := some x.forked }
  | forkFails (hcaller : x.caller = .fork) :
      x.Moves (.fork false) { x with caller := .returned false }
  | loses (hcaller : x.caller = .waitpid) :
      x.Moves (.waitpid none) { x with caller := .returned false }
  | reaps {c : Child} {e : End} (hcaller : x.caller = .waitpid) (hchild : x.child = some c)
      (hpc : c.pc = .ended e) :
      x.Moves (.waitpid (some e)) { x with caller := .returned (statusOk e.status) }
  | child {call : ExecCall} {c c' : Child} (hchild : x.child = some c)
      (hm : c.Moves x.argv call c') : x.Moves call { x with child := some c' }

theorem step_moves (h : x.Step call x') : x.Moves call x' := by
  unfold Step Exec.step at h
  split at h
  next ok =>
    obtain ⟨hcaller, h⟩ := Option.ite_none_right_eq_some.mp h
    cases ok <;> cases h
    · exact .forkFails hcaller
    · exact .forks hcaller
  next got =>
    obtain ⟨hcaller, h⟩ := Option.ite_none_right_eq_some.mp h
    cases got with
    | none =>
      cases h
      exact .loses hcaller
    | some e =>
      obtain ⟨hended, h⟩ := Option.ite_none_right_eq_some.mp h
      cases h
      obtain ⟨c, hchild, hpc⟩ := Option.map_eq_some_iff.mp hended
      exact .reaps hcaller hchild hpc
  next =>
    obtain ⟨c, hchild, h⟩ := Option.bind_eq_some_iff.mp h
    obtain ⟨c', hs, h⟩ := Option.bind_eq_some_iff.mp h
    cases h
    exact .child hchild (Child.step_moves hs)

theorem Moves.same (hm : x.Moves call x') :
    x'.redirects = x.redirects ∧ x'.fds = x.fds ∧ x'.argv = x.argv := by
  cases hm <;> exact ⟨rfl, rfl, rfl⟩

theorem forked_phase (x : Exec) : x.forked.Phase x.redirects x.fds x.argv := by
  unfold forked
  cases hr : x.redirects with
  | true => exact ⟨rfl, rfl, rfl⟩
  | false => exact ⟨rfl, rfl⟩

theorem Phase.moves (h : x.Phase tr) (hm : x.Moves call x') : x'.Phase (tr ++ [call]) := by
  cases hm with
  | forks => exact ⟨_, rfl, x.forked_phase⟩
  | forkFails hcaller =>
    simp only [Phase, hcaller] at h
    exact .inl ⟨h, rfl⟩
  | loses hcaller =>
    simp only [Phase, hcaller] at h
    obtain ⟨c, hchild, hc⟩ := h
    exact .inr ⟨c, hchild, hc, .inl ⟨rfl, by simp⟩⟩
  | reaps hcaller hchild hpc =>
    simp only [Phase, hcaller] at h
    obtain ⟨c, hchild', hc⟩ := h
    cases hchild.symm.trans hchild'
    exact .inr ⟨_, hchild, hc, .inr ⟨_, hpc, rfl⟩⟩
  | child hchild hm =>
    cases hcaller : x.caller with
    | fork =>
      simp only [Phase, hcaller] at h
      cases h.symm.trans hchild
    | waitpid =>
      simp only [Phase, hcaller] at h ⊢
      obtain ⟨c, hchild', hc⟩ := h
      cases hchild.symm.trans hchild'
      exact ⟨_, rfl, hc.moves hm⟩
    | returned result =>
      simp only [Phase, hcaller] at h ⊢
      obtain ⟨hnone, -⟩ | ⟨c, hchild', hc, hend⟩ := h
      · cases hnone.symm.trans hchild
      · cases hchild.symm.trans hchild'
        refine .inr ⟨_, rfl, hc.moves hm, ?_⟩
        rcases hend with ⟨hfalse, hlost⟩ | ⟨e, hpc, -⟩
        · exact .inl ⟨hfalse, List.mem_append_left _ hlost⟩
        · exact absurd hpc (hm.not_ended e)

theorem Phase.child (h : x.Phase tr) {c : Child} (hc : x.child = some c) :
    c.Phase x.redirects x.fds x.argv := by
  unfold Phase at h
  split at h
  next => cases h.symm.trans hc
  next =>
    obtain ⟨c', hc', hphase⟩ := h
    exact Option.some.inj (hc'.symm.trans hc) ▸ hphase
  next =>
    obtain ⟨hnone, -⟩ | ⟨c', hc', hphase, -⟩ := h
    · cases hnone.symm.trans hc
    · exact Option.some.inj (hc'.symm.trans hc) ▸ hphase

theorem start_eq_some {count : ℤ} {args : List (Option String)}
    (h : start redirects count args fds₀ = some x₀) : x₀.redirects = redirects ∧ x₀.fds = fds₀ ∧
      x₀.child = none ∧ (x₀.caller = .returned false ∨ x₀.caller = .fork ∧ 1 ≤ count ∧
        collect redirects count.toNat 0 args = some (.command x₀.argv)) := by
  unfold start at h
  split at h
  next =>
    cases h
    exact ⟨rfl, rfl, rfl, .inl rfl⟩
  next hcount =>
    obtain ⟨collected, hcollect, h⟩ := Option.map_eq_some_iff.mp h
    cases collected with
    | returnsFalse =>
      cases h
      exact ⟨rfl, rfl, rfl, .inl rfl⟩
    | command argv =>
      cases h
      exact ⟨rfl, rfl, rfl, .inr ⟨rfl, by omega, hcollect⟩⟩

/-- A run of a call of `do_exec` or `do_exec_redirect`: what stays, and where the two are. -/
theorem run_phase (hcaller : x₀.caller = .fork ∨ x₀.caller = .returned false)
    (hchild : x₀.child = none) (hrun : Run Exec.Step x₀ tr x) :
    x.Phase tr ∧ x.redirects = x₀.redirects ∧ x.fds = x₀.fds ∧ x.argv = x₀.argv := by
  have hstart : x₀.Phase [] := by
    rcases hcaller with hcaller | hcaller
    · simpa only [Phase, hcaller] using hchild
    · simp only [Phase, hcaller]
      exact .inl ⟨hchild, trivial⟩
  refine hrun.invariant (P := fun tr x => x.Phase tr ∧ x.redirects = x₀.redirects ∧
    x.fds = x₀.fds ∧ x.argv = x₀.argv) ⟨hstart, rfl, rfl, rfl⟩ ?_
  rintro tr x call x' - ⟨hphase, hredirects, hfds, hargv⟩ hs
  have hm := step_moves hs
  obtain ⟨hredirects', hfds', hargv'⟩ := hm.same
  exact ⟨hphase.moves hm, hredirects'.trans hredirects, hfds'.trans hfds, hargv'.trans hargv⟩

theorem run_refused (hcaller : x₀.caller = .returned false) (hchild : x₀.child = none)
    (hrun : Run Exec.Step x₀ tr x) : x.caller = .returned false ∧ x.child = none := by
  refine hrun.invariant (P := fun _ x => x.caller = .returned false ∧ x.child = none)
    ⟨hcaller, hchild⟩ ?_
  rintro _ x call x' - ⟨hcaller, hchild⟩ hs
  cases step_moves hs with
  | child hsome => cases hchild.symm.trans hsome
  | forks hcaller' => cases hcaller.symm.trans hcaller'
  | forkFails hcaller' => cases hcaller.symm.trans hcaller'
  | loses hcaller' => cases hcaller.symm.trans hcaller'
  | reaps hcaller' => cases hcaller.symm.trans hcaller'

theorem run_forked {count : ℤ} {args : List (Option String)} {c : Child}
    (hstart : start redirects count args fds₀ = some x₀) (hrun : Run Exec.Step x₀ tr x)
    (hc : x.child = some c) : c.Phase redirects fds₀ (args.take count.toNat) ∧ 1 ≤ count ∧
      (redirects = true → ∀ argument ∈ args.take count.toNat, argument ≠ none) ∧
      ∃ path rest, args.take count.toNat = some path :: rest ∧ path.toList.head? = some '/' := by
  obtain ⟨rfl, rfl, hnone, hcaller⟩ := start_eq_some hstart
  rcases hcaller with hcaller | ⟨hcaller, hcount, hcollect⟩
  · cases hc.symm.trans (run_refused hcaller hnone hrun).2
  · obtain ⟨hargv, hchecked, hpath⟩ := collect_command hcollect
    obtain ⟨hphase, hredirects, hfds, hargv'⟩ := run_phase (.inl hcaller) hnone hrun
    rw [← hargv]
    refine ⟨?_, hcount, hchecked, hpath rfl (by omega)⟩
    rw [← hredirects, ← hfds, ← hargv']
    exact hphase.child hc

/-- The caller gets true only when the command was run, with the arguments that were passed up to
the first `NULL` and an absolute path first, and has exited with the code 0; and when it has, the
caller gets true, unless its `waitpid` failed. -/
theorem exec_returns_true {count : ℤ} {args : List (Option String)} {result : Bool}
    (hstart : start redirects count args fds₀ = some x₀) (hrun : Run Exec.Step x₀ tr x)
    (hreturned : x.caller = .returned result) :
    (result = true → ∃ c code, x.child = some c ∧ c.pc = .ended (.exits code) ∧ code % 256 = 0 ∧
      c.image = some (execArgs (args.take count.toNat)) ∧ 1 ≤ count ∧
      ∃ path rest, args.take count.toNat = some path :: rest ∧ path.toList.head? = some '/') ∧
    (∀ c code, x.child = some c → c.pc = .ended (.exits code) → code % 256 = 0 →
      .waitpid none ∉ tr → result = true) := by
  obtain ⟨-, -, hnone, hcaller⟩ := start_eq_some hstart
  obtain ⟨hphase, -⟩ := run_phase (hcaller.symm.imp_left And.left) hnone hrun
  simp only [Phase, hreturned] at hphase
  obtain ⟨hnone', rfl⟩ | ⟨c, hc, -, ⟨rfl, hlost⟩ | ⟨e, hpc, rfl⟩⟩ := hphase
  · exact ⟨fun h => (by cases h), fun c code hc => (by cases hnone'.symm.trans hc)⟩
  · exact ⟨fun h => (by cases h), fun _ _ _ _ _ hnot => absurd hlost hnot⟩
  · rw [e.statusOk_status]
    constructor
    · intro hsucceeded
      obtain ⟨hchild, hcount, -, hpath⟩ := run_forked hstart hrun hc
      simp only [Child.Phase, hpc, hsucceeded, Bool.true_eq_false, and_false, false_or] at hchild
      cases e with
      | killed sig core => cases hsucceeded
      | exits code =>
        exact ⟨c, code, hc, hpc, of_decide_eq_true hsucceeded, hchild.1, hcount, hpath⟩
    · intro c' code hc' hpc' hcode _
      cases hc.symm.trans hc'
      cases hpc.symm.trans hpc'
      simpa [End.succeeded] using hcode

/-- The command of `do_exec_redirect` gets all its arguments, and every descriptor of the caller but
its standard output, unless it has the flag `FD_CLOEXEC`; its standard output is `outputfile`,
unless the caller has it closed and its standard input open, when `open` itself returns 1 and the
command has none. -/
theorem redirect_reaches_command {count : ℤ} {args : List (Option String)} {c : Child}
    {argv : List String} (hstart : doExecRedirect count args fds₀ = some x₀)
    (hrun : Run Exec.Step x₀ tr x) (hc : x.child = some c) (himage : c.image = some argv) :
    args.take count.toNat = argv.map some ∧
    (c.fds.get 1 = some .outputFile ↔ fds₀.get 1 ≠ none ∨ fds₀.get 0 = none) ∧
    ∀ fd, fd ≠ 1 → c.fds.get fd = (fds₀.get fd).filter Opened.staysOpen := by
  obtain ⟨hchild, -, hchecked, -⟩ := run_forked hstart hrun hc
  obtain ⟨himage', fds, hfds, hopen⟩ := hchild.hasRun himage
  obtain rfl := Option.some.inj (himage.symm.trans himage')
  simp only [Redirects, if_true, List.mem_singleton] at hfds
  have hget (fd : ℕ) : c.fds.get fd = (fds.get fd).filter Opened.staysOpen := by
    rw [hopen]
    rfl
  refine ⟨map_some_execArgs (hchecked rfl), ?_, fun fd hfd => ?_⟩
  · have hlow : fds₀.lowest = 1 ↔ fds₀.get 1 = none ∧ fds₀.get 0 ≠ none := by
      simp [Table.lowest_eq_iff]
    rw [hget, hfds]
    by_cases h : fds₀.lowest = 1
    · simp [h, hlow.mp h]
    · rw [if_neg (Ne.symm h), if_pos rfl]
      refine iff_of_true rfl ?_
      by_contra hnot
      rw [not_or, not_not] at hnot
      exact h (hlow.mpr hnot)
  · rw [hget, hfds, if_neg hfd]
    split
    next hlow => rw [hlow, Table.get_lowest, Option.filter_none]
    next => rfl

theorem run_of_foldlM (h : tr.foldlM Exec.step x₀ = some x) : Run Exec.Step x₀ tr x :=
  Run.of_foldlM_step (fun _ _ _ _ hs => hs) h

/-- A caller with the descriptors in `fds`; those from 3 on are closed on `execv`. -/
def callerFds (fds : List ℕ) : Table Opened := .ofList fds fun fd => .inherited fd (3 ≤ fd)

def echoArgs : List (Option String) := [some "/bin/echo", some "home", some "is", none]

def echoes : List ExecCall :=
  [.fork true, .execv true, .ends (.exits 0), .waitpid (some (.exits 0))]

theorem echoes_returns_true : ∃ x₀ x c, doExec 3 echoArgs (callerFds [0, 1, 2]) = some x₀ ∧
    Run Exec.Step x₀ echoes x ∧ x.caller = .returned true ∧ x.child = some c ∧
    c.image = some ["/bin/echo", "home", "is"] := by
  have hstate : (doExec 3 echoArgs (callerFds [0, 1, 2])).bind (fun x₀ =>
      (echoes.foldlM Exec.step x₀).map Exec.caller) = some (.returned true) := by decide +kernel
  obtain ⟨x₀, hx₀, hstate⟩ := Option.bind_eq_some_iff.mp hstate
  obtain ⟨x, hx, hreturned⟩ := Option.map_eq_some_iff.mp hstate
  have hrun := run_of_foldlM hx
  obtain ⟨c, code, hc, -, -, himage, -⟩ := (exec_returns_true hx₀ hrun hreturned).1 rfl
  exact ⟨x₀, x, c, hx₀, hrun, hreturned, hc, himage⟩

/-- The child of `do_exec_redirect`, with `outputfile` at `fd`. -/
def redirectCalls (fd : ℕ) : List ExecCall :=
  [.fork true, .openOutput (some fd), .dup2 true, .close true, .execv true]

/-- A caller without standard output and with a descriptor 5 that is closed on `execv`: the command
has neither. -/
theorem noOutput_reaches_command : ∃ x₀ x c,
    doExecRedirect 3 echoArgs (callerFds [0, 2, 5]) = some x₀ ∧
    Run Exec.Step x₀ (redirectCalls 1) x ∧ x.child = some c ∧
    c.image = some ["/bin/echo", "home", "is"] ∧ c.fds.get 1 ≠ some .outputFile ∧
    c.fds.get 5 = none := by
  have hstate : (doExecRedirect 3 echoArgs (callerFds [0, 2, 5])).bind (fun x₀ =>
      ((redirectCalls 1).foldlM Exec.step x₀).bind fun x => x.child.map Child.image) =
      some (some ["/bin/echo", "home", "is"]) := by decide +kernel
  obtain ⟨x₀, hx₀, hstate⟩ := Option.bind_eq_some_iff.mp hstate
  obtain ⟨x, hx, hstate⟩ := Option.bind_eq_some_iff.mp hstate
  obtain ⟨c, hc, himage⟩ := Option.map_eq_some_iff.mp hstate
  have hrun := run_of_foldlM hx
  obtain ⟨-, hreaches, hothers⟩ := redirect_reaches_command hx₀ hrun hc himage
  refine ⟨x₀, x, c, hx₀, hrun, hc, himage, ?_, ?_⟩
  · exact fun h => absurd (hreaches.mp h) (by decide +kernel)
  · rw [hothers 5 (by decide)]
    decide +kernel

end Exec

end Aesd.SystemCalls
