import Aesd.Server.Kernel
import Aesd.Server.MainStep
import Aesd.Server.WorkerStep

/-! Descriptors: a thread works on the files it opened and on its own connection, whatever the
others do and however the kernel reuses numbers. -/
namespace Aesd.Server
open Driver (Byte)

def Event.fileFd : Event → Option Fd
  | .write fd _ _ => some fd
  | .lseek fd => some fd
  | .read fd _ _ => some fd
  | .close fd _ => some fd
  | _ => none

def Event.accepts : Event → Bool
  | .accept (some _) => true
  | _ => false

/-- A step of thread `t` that leaves all connections and the files of the others as they are. -/
structure FileFrame {σ : Type} (t : Tid) (k k' : Kernel σ) : Prop where
  conns : ∀ f c, k'.fds f = some (.conn c) ↔ k.fds f = some (.conn c)
  files : ∀ f t' pos, t' ≠ t → k.fds f = some (.file t' pos) → k'.fds f = some (.file t' pos)
  accepted : k'.accepted = k.accepted
  closes : k'.closes = k.closes

section
variable {σ χ : Type} {ops : FileOps σ χ} {k k' : Kernel σ} {t : Tid} {e : Event} {choice : χ}

theorem FileFrame.refl (k : Kernel σ) : FileFrame t k k :=
  ⟨fun _ _ => Iff.rfl, fun _ _ _ _ h => h, rfl, rfl⟩

theorem FileFrame.of_fds (hfds : k'.fds = k.fds) (hacc : k'.accepted = k.accepted)
    (hcloses : k'.closes = k.closes) : FileFrame t k k' :=
  ⟨fun f c => by rw [hfds], fun f t' pos _ h => by rw [hfds, h], hacc, hcloses⟩

theorem FileFrame.of_update {fd : Fd} {d : Option Desc}
    (hold : k.fds fd = none ∨ ∃ pos, k.fds fd = some (.file t pos))
    (hnew : d = none ∨ ∃ pos, d = some (.file t pos)) (hfds : k'.fds = Function.update k.fds fd d)
    (hacc : k'.accepted = k.accepted) (hcloses : k'.closes = k.closes) : FileFrame t k k' := by
  refine ⟨fun f c => ?_, fun f t' pos ht h => ?_, hacc, hcloses⟩
  · rw [hfds]
    by_cases hf : f = fd
    · subst hf
      rw [Function.update_self]
      rcases hold with hold | ⟨_, hold⟩ <;> rcases hnew with rfl | ⟨_, rfl⟩ <;> simp [hold]
    · rw [Function.update_of_ne hf]
  · rw [hfds]
    by_cases hf : f = fd
    · subst hf
      rcases hold with hold | ⟨_, hold⟩
      · simp [hold] at h
      · simp only [hold, Option.some.injEq, Desc.file.injEq] at h
        exact absurd h.1.symm ht
    · rw [Function.update_of_ne hf, h]

theorem deliver_fds (k : Kernel σ) (sig : Signal) : (k.deliver sig).fds = k.fds ∧
    (k.deliver sig).accepted = k.accepted ∧ (k.deliver sig).closes = k.closes ∧
    (k.deliver sig).mutex = k.mutex ∧ (k.deliver sig).node = k.node := by
  unfold Kernel.deliver
  split <;> exact ⟨rfl, rfl, rfl, rfl, rfl⟩

theorem send_fds {c flags : ℕ} {sent : Option ℕ} (h : k.send c flags sent = some k') :
    k'.fds = k.fds ∧ k'.accepted = k.accepted ∧ k'.closes = k.closes ∧ k'.mutex = k.mutex ∧
      k'.node = k.node := by
  unfold Kernel.send at h
  split at h
  · split at h
    · obtain rfl := Option.some.inj h
      split
      · exact deliver_fds k _
      · exact ⟨rfl, rfl, rfl, rfl, rfl⟩
    · cases h
  · obtain rfl := Option.some.inj h
    exact ⟨rfl, rfl, rfl, rfl, rfl⟩

theorem accepts_eq_true (h : e.accepts = true) : ∃ fd c, e = .accept (some (fd, c)) := by
  unfold Event.accepts at h
  split at h
  next got => exact ⟨got.1, got.2, rfl⟩
  next => cases h

/-- What a call can do to the descriptors and connections. -/
inductive FdEffect (k : Kernel σ) (t : Tid) : Event → Kernel σ → Prop where
  | quiet {e : Event} {k' : Kernel σ} (hacc : e.accepts = false) (hfds : k'.fds = k.fds)
      (haccepted : k'.accepted = k.accepted) (hcloses : k'.closes = k.closes)
      (hclose : ∀ fd ok, e = .close fd ok → k.fds fd = none)
      (hopen : ∀ fd, e ≠ .openFile (some fd)) : FdEffect k t e k'
  | opens {k' : Kernel σ} (fd : Fd) (hfree : k.fds fd = none)
      (h : k' = k.setFd fd (some (.file t 0))) : FdEffect k t (.openFile (some fd)) k'
  | moves {e : Event} {k' : Kernel σ} {fd : Fd} {opener : Tid} {pos pos' : ℕ}
      (hfd : e.fileFd = some fd) (hne : ∀ ok, e ≠ .close fd ok)
      (hold : k.fds fd = some (.file opener pos))
      (hfds : k'.fds = Function.update k.fds fd (some (.file opener pos')))
      (haccepted : k'.accepted = k.accepted) (hcloses : k'.closes = k.closes) : FdEffect k t e k'
  | closesFile {fd : Fd} {d : Desc} (ok : Bool) (hold : k.fds fd = some d)
      (hconn : ∀ c, d ≠ .conn c) : FdEffect k t (.close fd ok) (k.setFd fd none)
  | closesConn {fd : Fd} {c : ℕ} (ok : Bool) (hold : k.fds fd = some (.conn c)) :
      FdEffect k t (.close fd ok)
        ({ k with closes := Function.update k.closes c (k.closes c + 1) }.setFd fd none)
  | accepts (fd : Fd) (hfree : k.fds fd = none) : FdEffect k t (.accept (some (fd, k.accepted)))
      ({ k with accepted := k.accepted + 1 }.setFd fd (some (.conn k.accepted)))

theorem call_fdEffect (h : k.call ops t e choice = some k') : FdEffect k t e k' := by
  have hquiet (hacc : e.accepts = false) (hclose : ∀ fd ok, e ≠ .close fd ok)
      (hopen : ∀ fd, e ≠ .openFile (some fd)) (hk : k'.fds = k.fds ∧
        k'.accepted = k.accepted ∧ k'.closes = k.closes) : FdEffect k t e k' :=
    .quiet hacc hk.1 hk.2.1 hk.2.2 (fun fd ok he => absurd he (hclose fd ok)) hopen
  unfold Kernel.call at h
  split at h
  next =>
    refine hquiet rfl (by simp) (by simp) ?_
    split at h
    · split at h <;> cases h
      exact ⟨rfl, rfl, rfl⟩
    · cases h
      exact ⟨rfl, rfl, rfl⟩
  next =>
    refine hquiet rfl (by simp) (by simp) ?_
    split at h <;> cases h
    exact ⟨rfl, rfl, rfl⟩
  next =>
    cases h
    exact hquiet rfl (by simp) (by simp) ⟨rfl, rfl, rfl⟩
  next fd =>
    split at h <;> cases h
    next hfree => exact .opens fd hfree rfl
  next fd data written =>
    split at h
    next opener pos hold =>
      obtain ⟨r, -, rfl⟩ := Option.map_eq_some_iff.mp h
      exact .moves rfl (by simp) hold rfl rfl rfl
    next =>
      split at h <;> cases h
      exact hquiet rfl (by simp) (by simp) ⟨rfl, rfl, rfl⟩
  next fd =>
    split at h <;> cases h
    next opener pos hold => exact .moves rfl (by simp) hold rfl rfl rfl
    next => exact hquiet rfl (by simp) (by simp) ⟨rfl, rfl, rfl⟩
  next fd count got =>
    split at h
    next opener pos hold =>
      obtain ⟨r, -, rfl⟩ := Option.map_eq_some_iff.mp h
      exact .moves rfl (by simp) hold rfl rfl rfl
    next =>
      split at h <;> cases h
      exact hquiet rfl (by simp) (by simp) ⟨rfl, rfl, rfl⟩
  next fd ok =>
    unfold Kernel.close at h
    split at h
    next hnone =>
      split at h <;> cases h
      exact .quiet rfl rfl rfl rfl (fun fd' ok' he => by cases he; exact hnone) (by simp)
    next c hold =>
      cases h
      exact .closesConn ok hold
    next d hne hold =>
      cases h
      exact .closesFile ok hold hne
  next fd conn count got =>
    refine hquiet rfl (by simp) (by simp) ?_
    split at h <;> split at h <;> cases h <;> exact ⟨rfl, rfl, rfl⟩
  next fd conn data flags sent =>
    refine hquiet rfl (by simp) (by simp) ?_
    split at h <;> split at h
    · have hk := send_fds h
      exact ⟨hk.1, hk.2.1, hk.2.2.1⟩
    · cases h
    · cases h
      exact ⟨rfl, rfl, rfl⟩
    · cases h
  next =>
    refine hquiet rfl (by simp) (by simp) ?_
    split at h <;> cases h
    exact ⟨rfl, rfl, rfl⟩
  next =>
    cases h
    exact hquiet rfl (by simp) (by simp) ⟨rfl, rfl, rfl⟩
  next fd c =>
    split at h
    next hfree =>
      obtain ⟨hfree, rfl⟩ := hfree
      cases h
      exact .accepts fd hfree
    next => cases h
  next =>
    cases h
    exact hquiet rfl (by simp) (by simp) ⟨rfl, rfl, rfl⟩
  next a =>
    refine hquiet rfl (by simp) (by simp) ?_
    split at h <;> cases h
    exact ⟨rfl, rfl, rfl⟩
  next a =>
    refine hquiet rfl (by simp) (by simp) ?_
    split at h <;> cases h
    exact ⟨rfl, rfl, rfl⟩
  next _ _ _ hopen _ _ _ hclose _ _ _ _ haccept _ _ _ =>
    cases h
    refine hquiet ?_ (fun fd ok he => hclose fd ok he) (fun fd he => hopen fd he) ⟨rfl, rfl, rfl⟩
    by_contra hacc
    obtain ⟨fd, c, he⟩ := accepts_eq_true (Bool.eq_true_of_not_eq_false hacc)
    exact haccept fd c he

theorem deliver_stable (k : Kernel σ) :
    (k.deliver .sigpipe).caughtSignal = k.caughtSignal ∧
      (k.deliver .sigpipe).disposition = k.disposition ∧
      (k.deliver .sigpipe).peerGone = k.peerGone := by
  unfold Kernel.deliver
  split <;> exact ⟨rfl, rfl, rfl⟩

theorem call_stable (h : k.call ops t e choice = some k') :
    k'.caughtSignal = k.caughtSignal ∧ k'.disposition = k.disposition ∧
      k'.peerGone = k.peerGone := by
  unfold Kernel.call Kernel.close Kernel.send at h
  split at h
  all_goals repeat' split at h
  all_goals first
    | cases h <;> exact ⟨rfl, rfl, rfl⟩
    | cases h <;> exact deliver_stable k
    | obtain ⟨r, -, rfl⟩ := Option.map_eq_some_iff.mp h; exact ⟨rfl, rfl, rfl⟩

/-- A thread whose file calls name its own file disturbs nobody else's descriptors. -/
theorem call_fileFrame (h : k.call ops t e choice = some k') (hacc : e.accepts = false)
    (hown : ∀ fd, e.fileFd = some fd → ∃ pos, k.fds fd = some (.file t pos)) :
    FileFrame t k k' := by
  cases call_fdEffect h with
  | quiet _ hfds haccepted hcloses => exact .of_fds hfds haccepted hcloses
  | opens fd hfree hk =>
    subst hk
    exact .of_update (.inl hfree) (.inr ⟨0, rfl⟩) rfl rfl rfl
  | moves hfd hne hold hfds haccepted hcloses =>
    obtain ⟨pos, hpos⟩ := hown _ hfd
    cases hold.symm.trans hpos
    exact .of_update (.inr ⟨_, hold⟩) (.inr ⟨_, rfl⟩) hfds haccepted hcloses
  | closesFile ok hold hconn => exact .of_update (.inr (hown _ rfl)) (.inl rfl) rfl rfl rfl
  | closesConn ok hold =>
    obtain ⟨pos, hpos⟩ := hown _ rfl
    cases hold.symm.trans hpos
  | accepts fd hfree => cases hacc

theorem call_keeps_file (h : k.call ops t e choice = some k') {fd : Fd} {pos : ℕ}
    (hfd : k.fds fd = some (.file t pos)) (hne : ∀ ok, e ≠ .close fd ok) :
    ∃ pos', k'.fds fd = some (.file t pos') := by
  have hupdate {fd' : Fd} {d : Option Desc} (hne : fd' ≠ fd)
      (hfds : k'.fds = Function.update k.fds fd' d) : ∃ pos', k'.fds fd = some (.file t pos') :=
    ⟨pos, by rw [hfds, Function.update_of_ne hne.symm, hfd]⟩
  cases call_fdEffect h with
  | quiet _ hfds => exact ⟨pos, by rw [hfds, hfd]⟩
  | opens fd' hfree hk =>
    refine hupdate ?_ (congrArg Kernel.fds hk)
    rintro rfl
    simp [hfree] at hfd
  | @moves _ _ fd' opener pos₁ pos' hfd' hne' hold hfds =>
    by_cases hsame : fd' = fd
    · subst hsame
      cases hold.symm.trans hfd
      exact ⟨pos', by rw [hfds, Function.update_self]⟩
    · exact hupdate hsame hfds
  | @closesFile fd' d ok hold hconn =>
    refine hupdate ?_ rfl
    rintro rfl
    exact hne ok rfl
  | @closesConn fd' c ok hold =>
    refine hupdate ?_ rfl
    rintro rfl
    exact hne ok rfl
  | accepts fd' hfree =>
    refine hupdate ?_ rfl
    rintro rfl
    simp [hfree] at hfd

theorem call_lseek {fd : Fd} {opener : Tid} {pos : ℕ} (hfd : k.fds fd = some (.file opener pos))
    (h : k.call ops t (.lseek fd) choice = some k') :
    k'.node = k.node ∧ k'.fds fd = some (.file opener (ops.seekSet pos)) := by
  simp only [Kernel.call, hfd] at h
  cases h
  exact ⟨rfl, Function.update_self ..⟩

theorem call_send {fd : Fd} {conn flags : ℕ} {data : List Byte} {sent : Option ℕ}
    (h : k.call ops t (.send fd conn data flags sent) choice = some k') :
    k'.node = k.node ∧ k'.fds = k.fds := by
  simp only [Kernel.call] at h
  split at h
  · split at h
    · have hk := send_fds h
      exact ⟨hk.2.2.2.2, hk.1⟩
    · cases h
  · split at h <;> cases h
    exact ⟨rfl, rfl⟩

theorem call_opens {fd : Fd} (h : k.call ops t (.openFile (some fd)) choice = some k') :
    k.fds fd = none ∧ k'.fds fd = some (.file t 0) := by
  simp only [Kernel.call] at h
  split at h
  next hfd =>
    obtain rfl := Option.some.inj h
    exact ⟨hfd, Function.update_self ..⟩
  next => cases h

end

def SendPc.fileFd : SendPc → Option Fd
  | .write fd => some fd
  | .lseek fd => some fd
  | .read fd => some fd
  | .send fd _ => some fd
  | .closeOk fd => some fd
  | .closeFail fd => some fd
  | _ => none

def StampPc.fileFd : StampPc → Option Fd
  | .write fd _ => some fd
  | .closeOk fd => some fd
  | .closeFail fd => some fd
  | _ => none

def Worker.fileFd (w : Worker) : Option Fd :=
  match w.pc with
  | .sending pc => pc.fileFd
  | _ => none

def Main.fileFd (m : Main) : Option Fd :=
  match m.pc with
  | .stamp pc => pc.fileFd
  | _ => none

/-- A thread that holds `held` makes call `e` and then holds `held'`: it names only what it
holds, and gets a file only from `open`. -/
structure FileStep (held : Option Fd) (e : Event) (held' : Option Fd) : Prop where
  names : ∀ fd, e.fileFd = some fd → held = some fd
  accepts : e.accepts = false
  next : ∀ fd, held' = some fd → e = .openFile (some fd) ∨
    held = some fd ∧ ∀ ok, e ≠ .close fd ok

theorem FileStep.silent {held : Option Fd} {e : Event} (hfd : e.fileFd = none)
    (hacc : e.accepts = false) : FileStep held e none :=
  ⟨by simp [hfd], hacc, by simp⟩

theorem getFileMutex_fileFd {b : Build} {e : Event} {rc : ℤ} (h : getFileMutex b e = some rc) :
    e.fileFd = none ∧ e.accepts = false := by
  unfold getFileMutex at h
  split at h <;> first | cases h | exact ⟨rfl, rfl⟩

theorem releaseFileMutex_fileFd {b : Build} {e : Event} {rc : ℤ}
    (h : releaseFileMutex b e = some rc) : e.fileFd = none ∧ e.accepts = false := by
  unfold releaseFileMutex at h
  split at h <;> first | cases h | exact ⟨rfl, rfl⟩

theorem Worker.Sends.fileStep {b : Build} {w w' : Worker} {pc : SendPc} {e : Event}
    (h : w.Sends b pc e w') : FileStep pc.fileFd e w'.fileFd := by
  cases h with
  | lock hm =>
    have he := getFileMutex_fileFd hm
    unfold Worker.fileFd
    simp only [Worker.goto]
    split <;> exact .silent he.1 he.2
  | unlockFails hm => exact .silent (releaseFileMutex_fileFd hm).1 (releaseFileMutex_fileFd hm).2
  | unlocks hm hrc =>
    exact .silent (releaseFileMutex_fileFd hm).1 (releaseFileMutex_fileFd hm).2
  | unlocksFailed hm =>
    exact .silent (releaseFileMutex_fileFd hm).1 (releaseFileMutex_fileFd hm).2
  | opens fd => exact ⟨by simp [Event.fileFd], rfl, fun fd' hfd => .inl (by cases hfd; rfl)⟩
  | closes fd ok =>
    refine ⟨fun fd' hfd => hfd, rfl, fun fd' hfd => ?_⟩
    unfold Worker.fileFd at hfd
    cases ok <;> cases hfd
  | returns r =>
    refine ⟨by simp [Event.fileFd], rfl, fun fd' hfd => ?_⟩
    unfold Worker.fileFd at hfd
    cases hfd
  | openFails => exact .silent rfl rfl
  | closesFailed fd ok => exact ⟨fun fd' hfd => hfd, rfl, fun fd' hfd => by cases hfd⟩
  | sendFails fd rest conn =>
    exact ⟨by simp [Event.fileFd], rfl, fun fd' hfd => .inr ⟨hfd, by simp⟩⟩
  | sendsAll fd rest conn hall =>
    exact ⟨by simp [Event.fileFd], rfl, fun fd' hfd => .inr ⟨hfd, by simp⟩⟩
  | sendsPart fd rest conn hpart =>
    exact ⟨by simp [Event.fileFd], rfl, fun fd' hfd => .inr ⟨hfd, by simp⟩⟩
  | _ => exact ⟨fun fd' hfd => hfd, rfl, fun fd' hfd => .inr ⟨hfd, by simp⟩⟩

theorem Worker.Next.fileStep {b : Build} {w w' : Worker} {e : Event} (h : w.Next b e w') :
    FileStep w.fileFd e w'.fileFd := by
  cases h with
  | sends hpc hsend =>
    have hstep := hsend.fileStep
    simp only [Worker.fileFd, hpc]
    exact hstep
  | callsSending hpc hs => exact ⟨by simp [Event.fileFd], rfl, fun fd hfd => by cases hfd⟩
  | reallocs hpc hlt hlen =>
    refine ⟨by simp [Event.fileFd], rfl, fun fd hfd => ?_⟩
    simp only [Worker.fileFd, hpc] at hfd
    cases hfd
  | _ => exact ⟨by simp [Event.fileFd], rfl, fun fd hfd => by cases hfd⟩

theorem Worker.Next.clientFd_eq {b : Build} {w w' : Worker} {e : Event} (h : w.Next b e w') :
    w'.data.clientFd = w.data.clientFd := by
  cases h with
  | sends hpc hsend =>
    cases hsend with
    | returns r => split <;> rfl
    | _ => rfl
  | _ => rfl

theorem Stamps.fileStep {b : Build} {pc : StampPc} {e : Event} {next : Option StampPc}
    (h : Stamps b pc e next) : FileStep pc.fileFd e (next.bind StampPc.fileFd) := by
  cases h with
  | lock hm =>
    have he := getFileMutex_fileFd hm
    simp only [Option.bind_some]
    split <;> exact .silent he.1 he.2
  | unlocks hm => exact .silent (releaseFileMutex_fileFd hm).1 (releaseFileMutex_fileFd hm).2
  | unlocksFailed hm =>
    exact .silent (releaseFileMutex_fileFd hm).1 (releaseFileMutex_fileFd hm).2
  | opens text fd => exact ⟨by simp [Event.fileFd], rfl, fun fd' hfd => .inl (by cases hfd; rfl)⟩
  | writes fd text written =>
    refine ⟨fun fd' hfd => hfd, rfl, fun fd' hfd => .inr ⟨?_, by simp⟩⟩
    simp only [Option.bind_some] at hfd
    split at hfd <;> exact hfd
  | closes fd ok =>
    refine ⟨fun fd' hfd => hfd, rfl, fun fd' hfd => ?_⟩
    cases ok <;> cases hfd
  | closesFailed fd ok => exact ⟨fun fd' hfd => hfd, rfl, fun fd' hfd => by cases hfd⟩
  | _ => exact .silent rfl rfl

/-- Holding only files it opened itself, a thread leaves the others' alone and goes on so. -/
theorem FileStep.frame {σ χ : Type} {ops : FileOps σ χ} {k k' : Kernel σ} {t : Tid} {e : Event}
    {choice : χ} {held held' : Option Fd} (h : FileStep held e held')
    (hcall : k.call ops t e choice = some k')
    (hown : ∀ fd, held = some fd → ∃ pos, k.fds fd = some (.file t pos)) :
    FileFrame t k k' ∧ ∀ fd, held' = some fd → ∃ pos, k'.fds fd = some (.file t pos) := by
  refine ⟨call_fileFrame hcall h.accepts fun fd hfd => hown fd (h.names fd hfd), fun fd hfd => ?_⟩
  rcases h.next fd hfd with rfl | ⟨hheld, hne⟩
  · exact ⟨0, (call_opens hcall).2⟩
  · obtain ⟨pos, hpos⟩ := hown fd hheld
    exact call_keeps_file hcall hpos hne

def Event.movesThread : Event → Bool
  | .pthreadCreate (some _) => true
  | .tryJoin _ (some _) => true
  | _ => false

theorem getFileMutex_movesThread {b : Build} {e : Event} {rc : ℤ}
    (h : getFileMutex b e = some rc) : e.movesThread = false := by
  unfold getFileMutex at h
  split at h <;> first | cases h | rfl

theorem releaseFileMutex_movesThread {b : Build} {e : Event} {rc : ℤ}
    (h : releaseFileMutex b e = some rc) : e.movesThread = false := by
  unfold releaseFileMutex at h
  split at h <;> first | cases h | rfl

theorem Stamps.movesThread {b : Build} {pc : StampPc} {e : Event} {next : Option StampPc}
    (h : Stamps b pc e next) : e.movesThread = false := by
  cases h with
  | lock hm => exact getFileMutex_movesThread hm
  | unlocks hm => exact releaseFileMutex_movesThread hm
  | unlocksFailed hm => exact releaseFileMutex_movesThread hm
  | _ => rfl

/-- What a call of the main thread does to the threads. -/
inductive ThreadEffect {σ : Type} (s : System σ) : Event → (ℕ → Option Worker) → Prop where
  | starts {i item data : ℕ} {fd : Fd} (hpc : s.main.pc = .pthreadCreate item data)
      (hfd : s.main.clientFd = some fd) (hfree : s.workers i = none) :
      ThreadEffect s (.pthreadCreate (some i))
        (Function.update s.workers i (some (Worker.create data fd)))
  | joins {i : ℕ} {w : Worker} (hw : s.workers i = some w) (hpc : w.pc = .exited) :
      ThreadEffect s (.tryJoin i (some (w.data.addr, w.data.clientFd)))
        (Function.update s.workers i none)
  | quiet {e : Event} (h : e.movesThread = false) : ThreadEffect s e s.workers

section
variable {σ χ : Type} {ops : FileOps σ χ} {b : Build} {s s' : System σ} {e : Event} {choice : χ}

theorem created_eq_some {m : Main} {i j data : ℕ} {fd : Fd}
    (h : m.created (.pthreadCreate (some i)) = some (j, data, fd)) :
    j = i ∧ m.clientFd = some fd ∧ ∃ item, m.pc = .pthreadCreate item data := by
  unfold Main.created at h
  split at h
  next hpc he =>
    cases he
    obtain ⟨fd', hfd, heq⟩ := Option.map_eq_some_iff.mp h
    cases heq
    exact ⟨rfl, hfd, _, hpc⟩
  next => cases h

theorem threadCall_effect {workers : ℕ → Option Worker} (h : s.threadCall e = some workers) :
    ThreadEffect s e workers := by
  unfold System.threadCall at h
  split at h
  next i =>
    obtain ⟨⟨j, data, fd⟩, hc, hstart⟩ := Option.bind_eq_some_iff.mp h
    obtain ⟨rfl, hfd, item, hpc⟩ := created_eq_some hc
    dsimp only at hstart
    split at hstart
    next hfree =>
      cases hstart
      exact .starts hpc hfd hfree
    next => cases hstart
  next i joined =>
    split at h
    next => cases h
    next w hw =>
      split at h
      next hpc =>
        split at h
        next hj =>
          cases h
          subst hj
          exact .joins hw hpc
        next => cases h
      next =>
        split at h
        next hj =>
          cases h
          subst hj
          exact .quiet rfl
        next => cases h
  next hstart hjoin =>
    cases h
    refine .quiet (Bool.eq_false_of_not_eq_true fun hmoves => ?_)
    unfold Event.movesThread at hmoves
    split at hmoves
    · exact hstart _ rfl
    · exact hjoin _ _ rfl
    · cases hmoves

theorem System.threadCall_quiet (hmoves : e.movesThread = false)
    (hjoin : ∀ i, e ≠ .tryJoin i none) :
    s.threadCall e = some s.workers := by
  unfold System.threadCall
  split
  next => cases hmoves
  next i joined =>
    cases joined with
    | none => exact absurd rfl (hjoin i)
    | some => cases hmoves
  next => rfl

theorem System.step_main (h : s.step ops b (.thread .main e choice) = some s') :
    s.kernel.alive = true ∧ ∃ main kernel workers, s.main.Next b e main ∧
      s.kernel.call ops .main e choice = some kernel ∧ ThreadEffect s e workers ∧
      s' = ⟨kernel, main, workers⟩ := by
  simp only [System.step] at h
  split at h
  next halive =>
    obtain ⟨main, hmain, h⟩ := Option.bind_eq_some_iff.mp h
    obtain ⟨kernel, hkernel, h⟩ := Option.bind_eq_some_iff.mp h
    obtain ⟨workers, hworkers, h⟩ := Option.bind_eq_some_iff.mp h
    exact ⟨halive, main, kernel, workers, Main.step_next hmain, hkernel,
      threadCall_effect hworkers, (Option.some.inj h).symm⟩
  next => cases h

theorem System.step_signal {sig : Signal} (h : s.step ops b (.signal sig) = some s') :
    s.kernel.alive = true ∧ sig ≠ .sigpipe ∧ s' = { s with kernel := s.kernel.deliver sig } := by
  simp only [System.step] at h
  split at h
  next hguard => exact ⟨hguard.1, hguard.2, (Option.some.inj h).symm⟩
  next => cases h

theorem System.step_disconnect {c : ℕ} (h : s.step ops b (.disconnect c) = some s') :
    s.kernel.alive = true ∧ c < s.kernel.accepted ∧ s' = { s with kernel := { s.kernel with
      peerGone := Function.update s.kernel.peerGone c true } } := by
  simp only [System.step] at h
  split at h
  next hguard => exact ⟨hguard.1, hguard.2, (Option.some.inj h).symm⟩
  next => cases h

theorem System.step_worker {i : ℕ}
    (h : s.step ops b (.thread (.worker i) e choice) = some s') :
    s.kernel.alive = true ∧ ∃ w w' kernel, s.workers i = some w ∧ w.step b e = some w' ∧
      s.kernel.call ops (.worker i) e choice = some kernel ∧
      s' = ⟨kernel, s.main, Function.update s.workers i (some w')⟩ := by
  simp only [System.step] at h
  split at h
  next halive =>
    obtain ⟨w, hw, h⟩ := Option.bind_eq_some_iff.mp h
    obtain ⟨w', hw', h⟩ := Option.bind_eq_some_iff.mp h
    obtain ⟨kernel, hkernel, h⟩ := Option.bind_eq_some_iff.mp h
    exact ⟨halive, w, w', kernel, hw, hw', hkernel, (Option.some.inj h).symm⟩
  next => cases h

theorem call_loadSignal {k k' : Kernel σ} {t : Tid} {v : Bool}
    (h : k.call ops t (.loadSignal v) choice = some k') : v = k.caughtSignal := by
  simp only [Kernel.call] at h
  split at h
  next hv => exact hv
  next => cases h

theorem call_accept {k k' : Kernel σ} {t : Tid} {fd : Fd} {c : ℕ}
    (h : k.call ops t (.accept (some (fd, c))) choice = some k') :
    k.fds fd = none ∧ c = k.accepted ∧
      k' = { k with accepted := k.accepted + 1 }.setFd fd (some (.conn c)) := by
  simp only [Kernel.call] at h
  split at h
  next hfree => exact ⟨hfree.1, hfree.2, (Option.some.inj h).symm⟩
  next => cases h

theorem call_close_conn {k k' : Kernel σ} {t : Tid} {fd : Fd} {ok : Bool} {c : ℕ}
    (hfd : k.fds fd = some (.conn c)) (h : k.call ops t (.close fd ok) choice = some k') :
    k' = { k with closes := Function.update k.closes c (k.closes c + 1) }.setFd fd none := by
  simp only [Kernel.call, Kernel.close, hfd] at h
  exact (Option.some.inj h).symm

end

end Aesd.Server
