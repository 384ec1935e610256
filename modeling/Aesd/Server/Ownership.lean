import Aesd.Server.Descriptors

/-! Who owns which connection: the pending `client_fd`, a worker, or `join_threads` about to close
it. The numbers of closed descriptors may come back at any time. -/
namespace Aesd.Server
open Driver (Byte)

/-- The `current_state` in which `main_loop` gets to a place. -/
def MainPc.state : MainPc → Option State
  | .joining _ => some .waiting
  | .joinClose _ _ _ _ => some .waiting
  | .joinFreeItem _ _ _ => some .waiting
  | .joinFreeData _ _ => some .waiting
  | .closedTest => some .waiting
  | .acceptTest => some .waiting
  | .accept => some .waiting
  | .mallocItem => some .creatingThread
  | .mallocData _ => some .creatingThread
  | .pthreadCreate _ _ => some .creatingThread
  | _ => none

/-- Once `keep_looping` is false the list is empty and the signal has been caught, so nothing is
accepted any more. -/
structure Main.Control (m : Main) (caughtSignal : Bool) : Prop where
  state : ∀ st, m.pc.state = some st → m.currentState = st
  states : m.currentState = .waiting ∨ m.currentState = .creatingThread
  clientFd : m.currentState = .creatingThread → m.clientFd ≠ none
  stop : m.keepLooping = false → m.linkedList = [] ∧ m.currentState = .waiting ∧
    caughtSignal = true ∧ (m.pc = .acceptTest ∨ m.pc = .loop ∨ m.pc = .returned)
  returned : m.pc = .returned → m.keepLooping = false

theorem control_init (caughtSignal : Bool) : Main.init.Control caughtSignal := by
  constructor <;> simp [Main.init, MainPc.state]

namespace Main.Control

variable {b : Build} {m m' : Main} {e : Event} {caught caught' : Bool}

theorem mono (h : m.Control caught) (hc : caught = true → caught' = true) :
    m.Control caught' := by
  refine ⟨h.state, h.states, h.clientFd, fun hk => ?_, h.returned⟩
  obtain ⟨hl, hs, hcaught, hpc⟩ := h.stop hk
  exact ⟨hl, hs, hc hcaught, hpc⟩

theorem of_looping (hk : m.keepLooping = true)
    (hstate : ∀ st, m.pc.state = some st → m.currentState = st)
    (hstates : m.currentState = .waiting ∨ m.currentState = .creatingThread)
    (hfd : m.currentState = .creatingThread → m.clientFd ≠ none) (hpc : m.pc ≠ .returned) :
    m.Control caught :=
  ⟨hstate, hstates, hfd, fun hf => absurd hk (by simp [hf]), fun hr => absurd hr hpc⟩

/-- Once the loop is to end, the thread only finishes its round and returns. -/
theorem next_of_stop (h : m.Control caught) (hk : m.keepLooping = false) (hn : m.Next b e m')
    (hload : ∀ v, e = .loadSignal v → v = caught) : m'.Control caught := by
  obtain ⟨hl, hs, hc, hstop⟩ := h.stop hk
  cases hn with
  | finishes hpc _ =>
    exact ⟨by simp [MainPc.state], h.states, h.clientFd,
      fun _ => ⟨hl, hs, hc, .inr (.inr rfl)⟩, fun _ => hk⟩
  | caught hpc =>
    exact ⟨by simp [MainPc.state], h.states, h.clientFd,
      fun _ => ⟨hl, hs, hc, .inr (.inl rfl)⟩, fun _ => hk⟩
  | notCaught hpc => exact absurd (hload false rfl) (by simp [hc])
  | ticks _ hk' => cases hk.symm.trans hk'
  | stampDue _ hk' => cases hk.symm.trans hk'
  | mallocFails hpc => rcases hpc with hpc | ⟨item, hpc⟩ <;> simp [hpc] at hstop
  | starts hpc | stamps hpc | stamped hpc | toJoin hpc | toCreate hpc | skips hpc | joinsDone hpc
  | joinsNot hpc | joins hpc | joinCloses hpc | freesItem hpc | freesData hpc | listEmpty hpc
  | listNotEmpty hpc | acceptFails hpc | accepts hpc | mallocsItem hpc | mallocsData hpc
  | createFails hpc | creates hpc => simp [hpc] at hstop

theorem next (h : m.Control caught) (hn : m.Next b e m')
    (hload : ∀ v, e = .loadSignal v → v = caught) : m'.Control caught := by
  cases hk : m.keepLooping with
  | false => exact h.next_of_stop hk hn hload
  | true =>
    have hstate := h.state
    cases hn with
    | finishes hpc hk' => cases hk.symm.trans hk'
    | listEmpty hpc hl v =>
      have hs := hstate .waiting (by simp [hpc, MainPc.state])
      obtain rfl := hload v rfl
      refine ⟨by simpa [MainPc.state] using hs, h.states, h.clientFd, fun hf => ?_,
        by simp⟩
      simp only [Main.goto_keepLooping, hk, Bool.true_and, Bool.not_eq_false'] at hf
      exact ⟨hl, hs, hf, .inl rfl⟩
    | toJoin hpc hs | toCreate hpc hs =>
      exact of_looping hk (by simpa [MainPc.state] using hs) h.states h.clientFd (by simp)
    | acceptFails hpc =>
      have hs := hstate .waiting (by simp [hpc, MainPc.state])
      exact of_looping hk (by simp [MainPc.state]) h.states (by simp [hs]) (by simp)
    | accepts hpc fd c =>
      exact of_looping hk (by simp [MainPc.state]) (.inr rfl) (by simp) (by simp)
    | mallocFails hpc | createFails hpc | creates hpc =>
      exact of_looping hk (by simp [MainPc.state]) (.inl rfl) (by simp) (by simp)
    | starts hpc | ticks hpc | stampDue hpc | stamps hpc | stamped hpc | skips hpc | caught hpc =>
      exact of_looping hk (by simp [MainPc.state]) h.states h.clientFd (by simp)
    | joinsDone hpc | joinsNot hpc | joins hpc | joinCloses hpc | freesItem hpc | freesData hpc
    | listNotEmpty hpc | notCaught hpc | mallocsItem hpc | mallocsData hpc =>
      exact of_looping hk (by simpa [hpc, MainPc.state] using hstate) h.states h.clientFd (by simp)

end Main.Control

/-- The connection accepted last, and the one each thread was started for. -/
structure Clients where
  pending : Option ℕ
  client : ℕ → Option ℕ

def Clients.call (h : Clients) : Tid → Event → Clients
  | .main, .accept (some (_, c)) => { h with pending := some c }
  | .main, .pthreadCreate (some i) => { h with client := Function.update h.client i h.pending }
  | _, _ => h

def Clients.next {χ : Type} (h : Clients) : Label χ → Clients
  | .thread t e _ => h.call t e
  | _ => h

def clientsAfter {χ : Type} (tr : List (Label χ)) : Clients :=
  tr.foldl Clients.next ⟨none, fun _ => none⟩

/-- `client_fd`, while a connection waits for its thread. -/
def Main.pendingFd (m : Main) : Option Fd :=
  if m.currentState = .creatingThread then m.clientFd else none

/-- The thread that `join_threads` has just joined and whose descriptor it is about to close. -/
def Main.joined (m : Main) : Option (ℕ × Fd) :=
  match m.pc with
  | .joinClose item _ fd _ => some (item.threadId, fd)
  | _ => none

structure Owned {σ : Type} (s : System σ) (h : Clients) : Prop where
  control : s.main.Control s.kernel.caughtSignal
  client : ∀ i w, s.workers i = some w →
    ∃ c, h.client i = some c ∧ s.kernel.fds w.data.clientFd = some (.conn c)
  distinct : ∀ i j w v, s.workers i = some w → s.workers j = some v →
    w.data.clientFd = v.data.clientFd → i = j
  connInj : ∀ f g c, s.kernel.fds f = some (.conn c) → s.kernel.fds g = some (.conn c) → f = g
  fresh : ∀ f c, s.kernel.fds f = some (.conn c) → c < s.kernel.accepted
  pending : ∀ fd, s.main.pendingFd = some fd →
    (∃ c, h.pending = some c ∧ s.kernel.fds fd = some (.conn c)) ∧
      ∀ i w, s.workers i = some w → w.data.clientFd ≠ fd
  joining : ∀ i fd, s.main.joined = some (i, fd) →
    (∃ c, h.client i = some c ∧ s.kernel.fds fd = some (.conn c)) ∧
      ∀ j w, s.workers j = some w → w.data.clientFd ≠ fd
  workerFile : ∀ i w fd, s.workers i = some w → w.fileFd = some fd →
    ∃ pos, s.kernel.fds fd = some (.file (.worker i) pos)
  mainFile : ∀ fd, s.main.fileFd = some fd → ∃ pos, s.kernel.fds fd = some (.file .main pos)
  isOpen : ∀ f c, s.kernel.fds f = some (.conn c) → s.kernel.closes c = 0
  isClosed : ∀ c < s.kernel.accepted, (∀ f, s.kernel.fds f ≠ some (.conn c)) →
    s.kernel.closes c = 1
  unused : ∀ c, s.kernel.accepted ≤ c → s.kernel.closes c = 0

section
variable {σ χ : Type} {ops : FileOps σ χ} {b : Build} {s s' : System σ} {h : Clients}
  {k : Kernel σ} {e : Event} {choice : χ}

theorem owned_start (node : σ) (reserved : Fd → Bool) :
    Owned (System.start node reserved) ⟨none, fun _ => none⟩ := by
  have hfds (f : Fd) (c : ℕ) : (System.start node reserved).kernel.fds f ≠ some (.conn c) := by
    simp only [System.start]
    split <;> simp
  refine ⟨control_init _, by simp [System.start], by simp [System.start],
    fun f g c hf => absurd hf (hfds f c), fun f c hf => absurd hf (hfds f c),
    by simp [System.start, Main.pendingFd, Main.init], by simp [System.start, Main.joined,
    Main.init], by simp [System.start], by simp [System.start, Main.fileFd, Main.init],
    fun f c hf => absurd hf (hfds f c), by simp [System.start], by simp [System.start]⟩

/-- A step of `t` on its own files, after which no thread has another connection and nothing is
pending or being joined that was not. -/
theorem Owned.keep (ho : Owned s h) {t : Tid} (hframe : FileFrame t s.kernel s'.kernel)
    (hcontrol : s'.main.Control s'.kernel.caughtSignal)
    (hworkers : ∀ i w', s'.workers i = some w' → ∃ w, s.workers i = some w ∧
      w'.data.clientFd = w.data.clientFd ∧ (Tid.worker i ≠ t → w'.fileFd = w.fileFd))
    (hpending : ∀ fd, s'.main.pendingFd = some fd → s.main.pendingFd = some fd)
    (hjoining : ∀ got, s'.main.joined = some got → s.main.joined = some got)
    (hmain : Tid.main ≠ t → s'.main.fileFd = s.main.fileFd)
    (hownWorker : ∀ i w' fd, Tid.worker i = t → s'.workers i = some w' → w'.fileFd = some fd →
      ∃ pos, s'.kernel.fds fd = some (.file t pos))
    (hownMain : ∀ fd, Tid.main = t → s'.main.fileFd = some fd →
      ∃ pos, s'.kernel.fds fd = some (.file t pos)) : Owned s' h where
  control := hcontrol
  client := fun i w' hw' => by
    obtain ⟨w, hw, hfd, -⟩ := hworkers i w' hw'
    obtain ⟨c, hc, hconn⟩ := ho.client i w hw
    exact ⟨c, hc, hfd ▸ (hframe.conns _ c).mpr hconn⟩
  distinct := fun i j w' v' hw' hv' heq => by
    obtain ⟨w, hw, hfd, -⟩ := hworkers i w' hw'
    obtain ⟨v, hv, hfd', -⟩ := hworkers j v' hv'
    exact ho.distinct i j w v hw hv (hfd.symm.trans (heq.trans hfd'))
  connInj := fun f g c hf hg =>
    ho.connInj f g c ((hframe.conns f c).mp hf) ((hframe.conns g c).mp hg)
  fresh := fun f c hf => hframe.accepted ▸ ho.fresh f c ((hframe.conns f c).mp hf)
  pending := fun fd hfd => by
    obtain ⟨⟨c, hc, hconn⟩, hne⟩ := ho.pending fd (hpending fd hfd)
    refine ⟨⟨c, hc, (hframe.conns fd c).mpr hconn⟩, fun i w' hw' => ?_⟩
    obtain ⟨w, hw, hsame, -⟩ := hworkers i w' hw'
    exact hsame ▸ hne i w hw
  joining := fun i fd hfd => by
    obtain ⟨⟨c, hc, hconn⟩, hne⟩ := ho.joining i fd (hjoining _ hfd)
    refine ⟨⟨c, hc, (hframe.conns fd c).mpr hconn⟩, fun i w' hw' => ?_⟩
    obtain ⟨w, hw, hsame, -⟩ := hworkers i w' hw'
    exact hsame ▸ hne i w hw
  workerFile := fun i w' fd hw' hfd => by
    by_cases ht : Tid.worker i = t
    · exact ht ▸ hownWorker i w' fd ht hw' hfd
    · obtain ⟨w, hw, -, hfile⟩ := hworkers i w' hw'
      obtain ⟨pos, hpos⟩ := ho.workerFile i w fd hw (hfile ht ▸ hfd)
      exact ⟨pos, hframe.files fd _ pos ht hpos⟩
  mainFile := fun fd hfd => by
    by_cases ht : Tid.main = t
    · exact ht ▸ hownMain fd ht hfd
    · obtain ⟨pos, hpos⟩ := ho.mainFile fd (hmain ht ▸ hfd)
      exact ⟨pos, hframe.files fd _ pos ht hpos⟩
  isOpen := fun f c hf => hframe.closes ▸ ho.isOpen f c ((hframe.conns f c).mp hf)
  isClosed := fun c hc hnone => by
    rw [hframe.closes]
    exact ho.isClosed c (hframe.accepted ▸ hc) fun f hf => hnone f ((hframe.conns f c).mpr hf)
  unused := fun c hc => by
    rw [hframe.closes]
    exact ho.unused c (hframe.accepted ▸ hc)

theorem Owned.worker_step (ho : Owned s h) {i : ℕ}
    (hs : s.step ops b (.thread (.worker i) e choice) = some s') : Owned s' h := by
  obtain ⟨-, w, w', kernel, hw, hstep, hcall, rfl⟩ := System.step_worker hs
  have hnext := Worker.step_next hstep
  obtain ⟨hframe, hown⟩ := hnext.fileStep.frame hcall fun fd hfd => ho.workerFile i w fd hw hfd
  refine ho.keep hframe (by rw [(call_stable hcall).1]; exact ho.control) ?_ (fun _ h => h)
    (fun _ h => h) (fun _ => rfl) ?_ (fun _ h => by cases h)
  · intro j v' hv'
    dsimp only at hv'
    by_cases hj : j = i
    · subst hj
      rw [Function.update_self] at hv'
      cases hv'
      exact ⟨w, hw, hnext.clientFd_eq, fun hne => absurd rfl hne⟩
    · rw [Function.update_of_ne hj] at hv'
      exact ⟨v', hv', rfl, fun _ => rfl⟩
  · intro j v' fd hj hv' hfd
    cases hj
    dsimp only at hv'
    rw [Function.update_self] at hv'
    cases hv'
    exact hown fd hfd

theorem Owned.main_quiet (ho : Owned s h) {main : Main} {kernel : Kernel σ}
    (hcall : s.kernel.call ops .main e choice = some kernel)
    (hcontrol : main.Control kernel.caughtSignal)
    (hfile : FileStep s.main.fileFd e main.fileFd)
    (hpending : ∀ fd, main.pendingFd = some fd → s.main.pendingFd = some fd)
    (hjoining : ∀ got, main.joined = some got → s.main.joined = some got) :
    Owned ⟨kernel, main, s.workers⟩ h := by
  obtain ⟨hframe, hown⟩ := hfile.frame hcall ho.mainFile
  exact ho.keep hframe hcontrol (fun i w hw => ⟨w, hw, rfl, fun _ => rfl⟩) hpending hjoining
    (fun hne => absurd rfl hne) (fun i _ _ hi => by cases hi) fun fd _ hfd => hown fd hfd

theorem Owned.main_joins (ho : Owned s h) {w : Worker} {item : Item} {rest : List Item}
    (hw : s.workers item.threadId = some w)
    (hcontrol : (s.main.goto (.joinClose item w.data.addr w.data.clientFd rest)).Control
      s.kernel.caughtSignal) :
    Owned ⟨s.kernel, s.main.goto (.joinClose item w.data.addr w.data.clientFd rest),
      Function.update s.workers item.threadId none⟩ h := by
  have hleft {j : ℕ} {v : Worker} (hv : Function.update s.workers item.threadId none j = some v) :
      j ≠ item.threadId ∧ s.workers j = some v := by
    by_cases hj : j = item.threadId
    · rw [hj, Function.update_self] at hv
      cases hv
    · exact ⟨hj, by rwa [Function.update_of_ne hj] at hv⟩
  refine ⟨hcontrol, fun j v hv => ho.client j v (hleft hv).2,
    fun j l v u hv hu => ho.distinct j l v u (hleft hv).2 (hleft hu).2, ho.connInj, ho.fresh,
    fun fd hfd => ?_, fun j fd hfd => ?_, fun j v fd hv => ho.workerFile j v fd (hleft hv).2,
    fun fd hfd => (by cases hfd), ho.isOpen, ho.isClosed, ho.unused⟩
  · obtain ⟨hconn, hne⟩ := ho.pending fd hfd
    exact ⟨hconn, fun j v hv => hne j v (hleft hv).2⟩
  · cases hfd
    refine ⟨ho.client _ w hw, fun j v hv heq => (hleft hv).1 ?_⟩
    exact ho.distinct j _ v w (hleft hv).2 hw heq

theorem Owned.main_closes (ho : Owned s h) {main : Main} {kernel : Kernel σ} {i : ℕ} {fd : Fd}
    {ok : Bool} (hfd : s.main.joined = some (i, fd))
    (hcall : s.kernel.call ops .main (.close fd ok) choice = some kernel)
    (hcontrol : main.Control kernel.caughtSignal)
    (hpending : main.pendingFd = none) (hjoining : main.joined = none)
    (hfile : main.fileFd = none) : Owned ⟨kernel, main, s.workers⟩ h := by
  obtain ⟨⟨c, -, hconn⟩, hne⟩ := ho.joining i fd hfd
  obtain rfl := call_close_conn hconn hcall
  have hconns {f : Fd} {d : Desc} (hf : Function.update s.kernel.fds fd none f = some d) :
      f ≠ fd ∧ s.kernel.fds f = some d := by
    by_cases hsame : f = fd
    · rw [hsame, Function.update_self] at hf
      cases hf
    · exact ⟨hsame, by rwa [Function.update_of_ne hsame] at hf⟩
  have hkeep {f : Fd} {d : Desc} (hf : s.kernel.fds f = some d) (hne : f ≠ fd) :
      Function.update s.kernel.fds fd none f = some d := by rwa [Function.update_of_ne hne]
  refine ⟨hcontrol, fun j v hv => ?_, ho.distinct, fun f g c hf hg => ?_, fun f c hf => ?_,
    fun f hf => ?_, fun j f hf => ?_, fun j v f hv hf => ?_, fun f hf => ?_, fun f c' hf => ?_,
    fun c' hc' hnone => ?_, fun c' hc' => ?_⟩
  · obtain ⟨c', hc', hconn'⟩ := ho.client j v hv
    exact ⟨c', hc', hkeep hconn' (hne j v hv)⟩
  · exact ho.connInj f g c (hconns hf).2 (hconns hg).2
  · exact ho.fresh f c (hconns hf).2
  · rw [hpending] at hf
    cases hf
  · rw [hjoining] at hf
    cases hf
  · obtain ⟨pos, hpos⟩ := ho.workerFile j v f hv hf
    refine ⟨pos, hkeep hpos ?_⟩
    rintro rfl
    cases hconn.symm.trans hpos
  · rw [hfile] at hf
    cases hf
  · have hother : c' ≠ c := by
      rintro rfl
      exact (hconns hf).1 (ho.connInj _ _ _ (hconns hf).2 hconn)
    simp only [Kernel.setFd, Function.update_of_ne hother]
    exact ho.isOpen f c' (hconns hf).2
  · by_cases hsame : c' = c
    · subst hsame
      simp only [Kernel.setFd, Function.update_self, ho.isOpen fd c' hconn]
    · simp only [Kernel.setFd, Function.update_of_ne hsame]
      refine ho.isClosed c' hc' fun f hf => hnone f (hkeep hf ?_)
      rintro rfl
      cases hconn.symm.trans hf
      exact hsame rfl
  · have hlt := ho.fresh fd c hconn
    have hother : c' ≠ c := by
      rintro rfl
      exact absurd hc' (not_le.mpr hlt)
    simp only [Kernel.setFd, Function.update_of_ne hother]
    exact ho.unused c' hc'

theorem Owned.main_accepts (ho : Owned s h) {main : Main} {kernel : Kernel σ} {fd : Fd} {c : ℕ}
    (hcall : s.kernel.call ops .main (.accept (some (fd, c))) choice = some kernel)
    (hcontrol : main.Control kernel.caughtSignal) (hpending : main.pendingFd = some fd)
    (hjoining : main.joined = none) (hfile : main.fileFd = none) :
    Owned ⟨kernel, main, s.workers⟩ (h.call .main (.accept (some (fd, c)))) := by
  obtain ⟨hfree, rfl, rfl⟩ := call_accept hcall
  have hold {f : Fd} {d : Desc} (hf : s.kernel.fds f = some d) :
      Function.update s.kernel.fds fd (some (.conn s.kernel.accepted)) f = some d := by
    rw [Function.update_of_ne, hf]
    rintro rfl
    cases hfree.symm.trans hf
  have hnew {f : Fd} {c' : ℕ}
      (hf : Function.update s.kernel.fds fd (some (.conn s.kernel.accepted)) f =
        some (.conn c')) :
      (f = fd ∧ c' = s.kernel.accepted) ∨ s.kernel.fds f = some (.conn c') := by
    by_cases hsame : f = fd
    · subst hsame
      rw [Function.update_self] at hf
      cases hf
      exact .inl ⟨rfl, rfl⟩
    · rw [Function.update_of_ne hsame] at hf
      exact .inr hf
  refine ⟨hcontrol, fun j v hv => ?_, ho.distinct, fun f g c' hf hg => ?_, fun f c' hf => ?_,
    fun f hf => ?_, fun j f hf => ?_, fun j v f hv hf => ?_, fun f hf => ?_, fun f c' hf => ?_,
    fun c' hc' hnone => ?_, fun c' hc' => ?_⟩
  · obtain ⟨c', hc', hconn'⟩ := ho.client j v hv
    exact ⟨c', hc', hold hconn'⟩
  · rcases hnew hf with ⟨rfl, rfl⟩ | hf' <;> rcases hnew hg with ⟨rfl, hc'⟩ | hg'
    · rfl
    · exact absurd (ho.fresh g _ hg') (lt_irrefl _)
    · exact absurd (hc' ▸ ho.fresh f _ hf') (lt_irrefl _)
    · exact ho.connInj f g c' hf' hg'
  · rcases hnew hf with ⟨rfl, rfl⟩ | hf'
    · exact Nat.lt_succ_self _
    · exact Nat.lt_succ_of_lt (ho.fresh f c' hf')
  · cases hpending.symm.trans hf
    refine ⟨⟨s.kernel.accepted, rfl, Function.update_self ..⟩, fun j v hv heq => ?_⟩
    obtain ⟨c', -, hconn'⟩ := ho.client j v hv
    cases hfree.symm.trans (heq ▸ hconn')
  · rw [hjoining] at hf
    cases hf
  · obtain ⟨pos, hpos⟩ := ho.workerFile j v f hv hf
    exact ⟨pos, hold hpos⟩
  · rw [hfile] at hf
    cases hf
  · rcases hnew hf with ⟨rfl, rfl⟩ | hf'
    · exact ho.unused _ le_rfl
    · exact ho.isOpen f c' hf'
  · rcases Nat.lt_succ_iff_lt_or_eq.mp hc' with hlt | rfl
    · exact ho.isClosed c' hlt fun f hf => hnone f (hold hf)
    · exact absurd (Function.update_self ..) (hnone fd)
  · exact ho.unused c' (Nat.le_of_succ_le hc')

theorem Owned.main_creates (ho : Owned s h) {main : Main} {i data : ℕ} {fd : Fd}
    (hfree : s.workers i = none) (hfd : s.main.pendingFd = some fd)
    (hcontrol : main.Control s.kernel.caughtSignal) (hpending : main.pendingFd = none)
    (hjoining : main.joined = none) (hfile : main.fileFd = none) :
    Owned ⟨s.kernel, main, Function.update s.workers i (some (Worker.create data fd))⟩
      (h.call .main (.pthreadCreate (some i))) := by
  obtain ⟨⟨c, hc, hconn⟩, hne⟩ := ho.pending fd hfd
  have hcases {j : ℕ} {v : Worker}
      (hv : Function.update s.workers i (some (Worker.create data fd)) j = some v) :
      (j = i ∧ v = Worker.create data fd) ∨ (j ≠ i ∧ s.workers j = some v) := by
    by_cases hj : j = i
    · subst hj
      rw [Function.update_self] at hv
      exact .inl ⟨rfl, (Option.some.inj hv).symm⟩
    · rw [Function.update_of_ne hj] at hv
      exact .inr ⟨hj, hv⟩
  refine ⟨hcontrol, fun j v hv => ?_, fun j l v u hv hu heq => ?_, ho.connInj, ho.fresh,
    fun f hf => ?_, fun j f hf => ?_, fun j v f hv hf => ?_, fun f hf => ?_, ho.isOpen,
    ho.isClosed, ho.unused⟩
  · rcases hcases hv with ⟨rfl, rfl⟩ | ⟨hj, hv'⟩
    · exact ⟨c, (Function.update_self ..).trans hc, hconn⟩
    · obtain ⟨c', hc', hconn'⟩ := ho.client j v hv'
      exact ⟨c', (Function.update_of_ne hj ..).trans hc', hconn'⟩
  · rcases hcases hv with ⟨rfl, rfl⟩ | ⟨hj, hv'⟩ <;> rcases hcases hu with ⟨rfl, rfl⟩ | ⟨hl, hu'⟩
    · rfl
    · exact absurd heq.symm (hne l u hu')
    · exact absurd heq (hne j v hv')
    · exact ho.distinct j l v u hv' hu' heq
  · rw [hpending] at hf
    cases hf
  · rw [hjoining] at hf
    cases hf
  · rcases hcases hv with ⟨rfl, rfl⟩ | ⟨-, hv'⟩
    · cases hf
    · exact ho.workerFile j v f hv' hf
  · rw [hfile] at hf
    cases hf

theorem pendingFd_of_state {m : Main} (h : m.currentState = .waiting) : m.pendingFd = none := by
  unfold Main.pendingFd
  rw [h]
  rfl

theorem Owned.main_step (ho : Owned s h)
    (hs : s.step ops b (.thread .main e choice) = some s') : Owned s' (h.call .main e) := by
  obtain ⟨-, main, kernel, workers, hnext, hcall, hthreads, rfl⟩ := System.step_main hs
  have hcontrol : main.Control kernel.caughtSignal := by
    rw [(call_stable hcall).1]
    exact ho.control.next hnext fun v he => call_loadSignal (he ▸ hcall)
  have hstate := ho.control.state
  have hquiet (hmoves : e.movesThread = false)
      (hfile : FileStep s.main.fileFd e main.fileFd)
      (hpending : ∀ fd, main.pendingFd = some fd → s.main.pendingFd = some fd)
      (hjoining : ∀ got, main.joined = some got → s.main.joined = some got) :
      Owned ⟨kernel, main, workers⟩ (h.call .main e) := by
    have hacc := hfile.accepts
    have hh : h.call .main e = h := by
      unfold Clients.call
      split
      · cases hacc
      · cases hmoves
      · rfl
    have hw : workers = s.workers := by
      cases hthreads with
      | starts => cases hmoves
      | joins => cases hmoves
      | quiet => rfl
    rw [hh, hw]
    exact ho.main_quiet hcall hcontrol hfile hpending hjoining
  cases hnext with
  | stamps hpc hstamp =>
    have hfile := hstamp.fileStep
    refine hquiet hstamp.movesThread ?_ (fun _ h => h) fun fd hfd => by cases hfd
    simp only [Main.fileFd, hpc]
    exact hfile
  | stamped hpc hstamp =>
    have hfile := hstamp.fileStep
    refine hquiet hstamp.movesThread ?_ (fun _ h => h) fun fd hfd => by cases hfd
    simp only [Main.fileFd, hpc]
    exact hfile
  | joins hpc data fd =>
    cases hthreads with
    | joins hw hexit =>
      simp only [Kernel.call, Option.some.injEq] at hcall
      subst hcall
      exact ho.main_joins hw hcontrol
    | quiet hmoves => cases hmoves
  | @joinCloses item data fd rest hpc ok =>
    have hst := hstate .waiting (by simp [hpc, MainPc.state])
    have hjoined : s.main.joined = some (item.threadId, fd) := by simp only [Main.joined, hpc]
    cases hthreads with
    | quiet => exact ho.main_closes hjoined hcall hcontrol (pendingFd_of_state hst) rfl rfl
  | accepts hpc fd c =>
    cases hthreads with
    | quiet => exact ho.main_accepts hcall hcontrol rfl rfl rfl
  | @creates item data hpc i =>
    have hst := hstate .creatingThread (by simp [hpc, MainPc.state])
    cases hthreads with
    | starts hpc' hfd hfree =>
      cases hpc.symm.trans hpc'
      simp only [Kernel.call, Option.some.injEq] at hcall
      subst hcall
      refine ho.main_creates hfree ?_ hcontrol (pendingFd_of_state rfl) rfl rfl
      unfold Main.pendingFd
      rw [if_pos hst, hfd]
    | quiet hmoves => cases hmoves
  | acceptFails hpc =>
    have hst := hstate .waiting (by simp [hpc, MainPc.state])
    refine hquiet rfl (.silent rfl rfl) (fun fd hfd => ?_) fun fd hfd => by cases hfd
    have hnone : Main.pendingFd (Main.goto { s.main with clientFd := none } .loop) = none :=
      pendingFd_of_state hst
    cases hnone.symm.trans hfd
  | mallocFails hpc =>
    exact hquiet rfl (.silent rfl rfl) (fun fd hfd => by cases hfd) fun fd hfd => by cases hfd
  | createFails hpc =>
    exact hquiet rfl (.silent rfl rfl) (fun fd hfd => by cases hfd) fun fd hfd => by cases hfd
  | _ => exact hquiet rfl (.silent rfl rfl) (fun _ h => h) fun fd hfd => by cases hfd

theorem Owned.outside (ho : Owned s h) {kernel : Kernel σ}
    (hfds : kernel.fds = s.kernel.fds ∧ kernel.accepted = s.kernel.accepted ∧
      kernel.closes = s.kernel.closes)
    (hcaught : s.kernel.caughtSignal = true → kernel.caughtSignal = true) :
    Owned { s with kernel := kernel } h := by
  have hframe : FileFrame .main s.kernel kernel := .of_fds hfds.1 hfds.2.1 hfds.2.2
  have hmainFile : ∀ fd, s.main.fileFd = some fd →
      ∃ pos, kernel.fds fd = some (.file .main pos) := fun fd hfd => hfds.1 ▸ ho.mainFile fd hfd
  exact ho.keep hframe (ho.control.mono hcaught) (fun i w hw => ⟨w, hw, rfl, fun _ => rfl⟩)
    (fun _ h => h) (fun _ h => h) (fun hne => absurd rfl hne) (fun i _ _ hi => by cases hi)
    fun fd _ hfd => hmainFile fd hfd

theorem deliver_caughtSignal (k : Kernel σ) (sig : Signal) (hc : k.caughtSignal = true) :
    (k.deliver sig).caughtSignal = true := by
  unfold Kernel.deliver
  split
  · exact hc
  · exact hc
  · simp only [signalHandler, hc, ite_self]

theorem Owned.step (ho : Owned s h) {l : Label χ} (hs : s.Step ops b l s') :
    Owned s' (h.next l) := by
  obtain ⟨-, hs⟩ := hs
  cases l with
  | thread t e choice =>
    cases t with
    | main => exact ho.main_step hs
    | worker i => exact ho.worker_step hs
  | signal sig =>
    obtain ⟨-, -, rfl⟩ := System.step_signal hs
    obtain ⟨hfds, haccepted, hcloses, -⟩ := deliver_fds s.kernel sig
    exact ho.outside ⟨hfds, haccepted, hcloses⟩ (deliver_caughtSignal s.kernel sig)
  | disconnect c =>
    obtain ⟨-, -, rfl⟩ := System.step_disconnect hs
    exact ho.outside ⟨rfl, rfl, rfl⟩ fun hc => hc

/-- A file call names a file of the caller or a connection that the main thread closes. -/
theorem Owned.names (ho : Owned s h) {t : Tid}
    (hs : s.step ops b (.thread t e choice) = some s') {fd : Fd} (hfd : e.fileFd = some fd) :
    (∃ pos, s.kernel.fds fd = some (.file t pos)) ∨
      t = .main ∧ ∃ c, s.kernel.fds fd = some (.conn c) := by
  cases t with
  | worker i =>
    obtain ⟨-, w, w', kernel, hw, hstep, -, -⟩ := System.step_worker hs
    exact .inl (ho.workerFile i w fd hw ((Worker.step_next hstep).fileStep.names fd hfd))
  | main =>
    obtain ⟨-, main, kernel, workers, hnext, -, -, -⟩ := System.step_main hs
    cases hnext with
    | stamps hpc hstamp | stamped hpc hstamp =>
      have hheld := hstamp.fileStep.names fd hfd
      exact .inl (ho.mainFile fd (by simpa only [Main.fileFd, hpc] using hheld))
    | @joinCloses item data _ rest hpc ok =>
      cases hfd
      have hjoined : s.main.joined = some (item.threadId, fd) := by simp only [Main.joined, hpc]
      obtain ⟨⟨c, -, hconn⟩, -⟩ := ho.joining _ fd hjoined
      exact .inr ⟨rfl, c, hconn⟩
    | _ => cases hfd

theorem Owned.files_kept (ho : Owned s h) {t t' : Tid}
    (hs : s.step ops b (.thread t e choice) = some s')
    (hcall : s.kernel.call ops t e choice = some k) (ht : t' ≠ t) {f : Fd} {pos : ℕ}
    (hf : s.kernel.fds f = some (.file t' pos)) : k.fds f = some (.file t' pos) := by
  have hne {fd : Fd} (hfd : e.fileFd = some fd) : f ≠ fd := by
    rintro rfl
    rcases ho.names hs hfd with ⟨pos', hpos⟩ | ⟨-, c, hc⟩
    · cases hf.symm.trans hpos
      exact ht rfl
    · cases hf.symm.trans hc
  cases call_fdEffect hcall with
  | quiet _ hfds => rw [hfds, hf]
  | opens fd hfree hk =>
    subst hk
    have hother : f ≠ fd := by
      rintro rfl
      cases hfree.symm.trans hf
    exact (Function.update_of_ne hother ..).trans hf
  | moves hfd _ _ hfds => rw [hfds, Function.update_of_ne (hne hfd), hf]
  | closesFile ok => exact (Function.update_of_ne (hne rfl) ..).trans hf
  | closesConn ok => exact (Function.update_of_ne (hne rfl) ..).trans hf
  | accepts fd hfree =>
    have hother : f ≠ fd := by
      rintro rfl
      cases hfree.symm.trans hf
    exact (Function.update_of_ne hother ..).trans hf

end

end Aesd.Server
