import Aesd.Server.LifeCycle
import Aesd.Server.Mutex

/-! Clients that hang up. A failed connection ends its own thread and nothing else, as long as no
`send` is made where it gives `EPIPE`: `startup` leaves `SIGPIPE` at its default and `sending_data`
passes no flags, so such a `send` ends the process. -/
namespace Aesd.Server
open Runs

/-- The connection fails or its peer has closed it. -/
def Event.ConnFails : Event → Prop
  | .recv _ _ _ got => got = none ∨ got = some []
  | .send _ _ _ _ sent => sent = none
  | _ => False

/-- The thread has failed and calls `pthread_exit` within `n` more steps; from 3 on it is in
`ClosedConnection`. -/
inductive Worker.Ends (w : Worker) : ℕ → Prop where
  | closing {fd : Fd} (hpc : w.pc = .sending (.closeFail fd)) : w.Ends 6
  | unlocking (hpc : w.pc = .sending .unlockFail) : w.Ends 5
  | returning (hpc : w.pc = .sending (.ret (-1))) : w.Ends 4
  | closed (hs : w.data.threadState = .closedConnection) (hpc : w.pc = .loop)
      (hk : w.keepLoopingThread = true) : w.Ends 3
  | stopping (hs : w.data.threadState = .closedConnection) (hpc : w.pc = .dispatch) : w.Ends 2
  | stopped (hs : w.data.threadState = .closedConnection) (hpc : w.pc = .loop)
      (hk : w.keepLoopingThread = false) : w.Ends 1
  | ended (hs : w.data.threadState = .closedConnection) (hpc : w.pc = .exited) : w.Ends 0

namespace Worker.Ends

variable {b : Build} {w w' : Worker} {e : Event} {n : ℕ}

theorem of_loop (hs : w.data.threadState = .closedConnection) (hpc : w.pc = .loop) :
    ∃ n ≤ 3, w.Ends n := by
  cases hk : w.keepLoopingThread with
  | true => exact ⟨3, le_rfl, .closed hs hpc hk⟩
  | false => exact ⟨1, by decide, .stopped hs hpc hk⟩

theorem next (h : w.Ends n) (hn : w.Next b e w') : ∃ m < n, w'.Ends m := by
  cases h with
  | closing hpc =>
    cases hn with
    | sends hpc' hsend =>
      cases hpc.symm.trans hpc'
      cases hsend with
      | closesFailed fd ok => exact ⟨5, by decide, .unlocking rfl⟩
    | _ hpc' => cases hpc.symm.trans hpc'
  | unlocking hpc =>
    cases hn with
    | sends hpc' hsend =>
      cases hpc.symm.trans hpc'
      cases hsend with
      | unlocksFailed hm => exact ⟨4, by decide, .returning rfl⟩
    | _ hpc' => cases hpc.symm.trans hpc'
  | returning hpc =>
    cases hn with
    | sends hpc' hsend =>
      cases hpc.symm.trans hpc'
      cases hsend with
      | returns r =>
        obtain ⟨m, hm, hends⟩ :=
          of_loop (w := (w.setState .closedConnection).goto .loop) rfl rfl
        exact ⟨m, by omega, hends⟩
    | _ hpc' => cases hpc.symm.trans hpc'
  | closed hs hpc hk =>
    cases hn with
    | loads hpc' hk' caught => exact ⟨2, by decide, .stopping hs rfl⟩
    | exits hpc' hk' => cases hk.symm.trans hk'
    | _ hpc' => cases hpc.symm.trans hpc'
  | stopping hs hpc =>
    cases hn with
    | stops hpc' hs' => exact ⟨1, by decide, .stopped hs rfl rfl⟩
    | recvFails hpc' hs' | recvEnds hpc' hs' | recvs hpc' hs' | processes hpc' hs'
    | callsSending hpc' hs' => cases hs.symm.trans hs'
    | _ hpc' => cases hpc.symm.trans hpc'
  | stopped hs hpc hk =>
    cases hn with
    | exits hpc' hk' => exact ⟨0, by decide, .ended hs rfl⟩
    | loads hpc' hk' => cases hk.symm.trans hk'
    | _ hpc' => cases hpc.symm.trans hpc'
  | ended hs hpc =>
    cases hn with
    | _ hpc' => cases hpc.symm.trans hpc'

theorem of_connFails (he : e.ConnFails) (hn : w.Next b e w') : ∃ n ≤ 6, w'.Ends n := by
  have hloop (hs : w'.data.threadState = .closedConnection) (hpc : w'.pc = .loop) :
      ∃ n ≤ 6, w'.Ends n := by
    obtain ⟨n, hle, hends⟩ := of_loop hs hpc
    exact ⟨n, by omega, hends⟩
  cases hn with
  | recvFails | recvEnds => exact hloop rfl rfl
  | recvs _ _ _ hne => rcases he with he | he <;> simp_all
  | sends hpc hsend =>
    cases hsend with
    | sendFails fd rest conn => exact ⟨6, le_rfl, .closing rfl⟩
    | sendsAll | sendsPart => cases he
    | lock hm =>
      rcases getFileMutex_cases hm with ⟨-, rfl, -⟩ | ⟨-, ok, rfl, -⟩ <;> cases he
    | unlockFails hm | unlocks hm | unlocksFailed hm =>
      rcases releaseFileMutex_cases hm with ⟨-, rfl, -⟩ | ⟨-, ok, rfl, -⟩ <;> cases he
    | _ => cases he
  | _ => cases he

theorem closed_of_le (h : w.Ends n) (hn : n ≤ 3) :
    w.data.threadState = .closedConnection ∧ w.lockPhase.critical = false := by
  cases h with
  | closing | unlocking | returning => omega
  | closed hs hpc | stopping hs hpc | stopped hs hpc | ended hs hpc =>
    exact ⟨hs, by simp only [Worker.lockPhase, hpc, LockPhase.critical]⟩

end Worker.Ends

def Label.sendsToGone {σ χ : Type} (s : System σ) : Label χ → Bool
  | .thread _ (.send _ conn _ _ _) _ => s.kernel.peerGone conn
  | _ => false

/-- The steps in which no `send` gives `EPIPE`; it may fail with any other error. -/
def PeersStay {σ χ : Type} (ops : FileOps σ χ) (b : Build) (s : System σ) (l : Label χ)
    (s' : System σ) : Prop :=
  l.sendsToGone s = false ∧ s.Step ops b l s'

section
variable {σ χ : Type} {ops : FileOps σ χ} {b : Build} {s s' : System σ} {h : Clients}
  {k k' : Kernel σ} {t : Tid} {e : Event} {choice : χ}

theorem Stamps.connCall {pc : StampPc} {next : Option StampPc} (h : Stamps b pc e next) :
    e.connCall = none := by
  cases h with
  | lock hm => exact getFileMutex_connCall hm
  | unlocks hm | unlocksFailed hm => exact releaseFileMutex_connCall hm
  | _ => rfl

theorem Main.Next.connCall {m m' : Main} (h : m.Next b e m') : e.connCall = none := by
  cases h with
  | stamps hpc hstamp | stamped hpc hstamp => exact hstamp.connCall
  | _ => rfl

theorem call_alive (h : k.call ops t e choice = some k')
    (he : ∀ fd conn data flags sent, e ≠ .send fd conn data flags sent) : k'.alive = k.alive := by
  unfold Kernel.call Kernel.close at h
  split at h
  all_goals repeat' split at h
  all_goals first
    | exact absurd rfl (he _ _ _ _ _)
    | cases h <;> rfl
    | obtain ⟨r, -, rfl⟩ := Option.map_eq_some_iff.mp h; rfl

/-- `SIGPIPE` at its default: a `send` without flags ends the process exactly when it gives
`EPIPE`. -/
theorem send_alive {c : ℕ} {sent : Option ℕ} (h : k.send c 0 sent = some k')
    (hsigpipe : k.disposition .sigpipe = .default) (halive : k.alive = true) :
    k'.alive = true ↔ k.peerGone c = false := by
  unfold Kernel.send at h
  split at h
  next hgone =>
    split at h
    next =>
      cases h
      simp [Kernel.deliver, hsigpipe, hgone]
    next => cases h
  next hthere =>
    cases h
    simp [halive, hthere]

theorem Worker.Next.send_flags {w w' : Worker} {fd : Fd} {conn flags : ℕ}
    {data : List Driver.Byte} {sent : Option ℕ}
    (hn : w.Next b (.send fd conn data flags sent) w') : flags = 0 := by
  cases hn with
  | sends hpc hsend =>
    cases hsend with
    | sendFails | sendsAll | sendsPart => rfl
    | lock hm => cases hm
    | unlockFails hm | unlocks hm | unlocksFailed hm => cases hm

/-- What `startup` has set stays set. -/
structure Signalled (s : System σ) (tr : List (Label χ)) : Prop where
  disposition : s.kernel.disposition = startupSignals fun _ => .default
  caught : s.kernel.caughtSignal = true → ∃ sig, .signal sig ∈ tr ∧ (sig = .sigint ∨ sig = .sigterm)

theorem deliver_outside {sig : Signal} (hsig : sig ≠ .sigpipe)
    (hdisp : k.disposition = startupSignals fun _ => .default) :
    k.deliver sig = { k with caughtSignal := true } ∧ (sig = .sigint ∨ sig = .sigterm) := by
  cases sig with
  | sigint => simp [Kernel.deliver, hdisp, startupSignals, signalHandler]
  | sigterm => simp [Kernel.deliver, hdisp, startupSignals, signalHandler]
  | sigpipe => exact absurd rfl hsig

theorem call_signalled {tr : List (Label χ)} (hsig : Signalled s tr)
    (hcall : s.kernel.call ops t e choice = some s'.kernel) (l : Label χ) :
    Signalled s' (tr ++ [l]) := by
  obtain ⟨hcaught, hdisp, -⟩ := call_stable hcall
  refine ⟨hdisp.trans hsig.disposition, fun h => ?_⟩
  obtain ⟨sig, hmem, hwhich⟩ := hsig.caught (hcaught ▸ h)
  exact ⟨sig, List.mem_append_left _ hmem, hwhich⟩

theorem Signalled.step {tr : List (Label χ)} (hsig : Signalled s tr) {l : Label χ}
    (hs : s.Step ops b l s') : Signalled s' (tr ++ [l]) := by
  obtain ⟨-, hs⟩ := hs
  cases l with
  | thread t e choice =>
    cases t with
    | main =>
      obtain ⟨-, main, kernel, workers, -, hcall, -, rfl⟩ := System.step_main hs
      exact call_signalled hsig hcall _
    | worker i =>
      obtain ⟨-, w, w', kernel, -, -, hcall, rfl⟩ := System.step_worker hs
      exact call_signalled hsig hcall _
  | signal sig =>
    obtain ⟨-, hne, rfl⟩ := System.step_signal hs
    obtain ⟨hdeliver, hcases⟩ := deliver_outside hne hsig.disposition
    rw [hdeliver]
    exact ⟨hsig.disposition, fun _ => ⟨sig, by simp, hcases⟩⟩
  | disconnect c =>
    obtain ⟨-, -, rfl⟩ := System.step_disconnect hs
    refine ⟨hsig.disposition, fun h => ?_⟩
    obtain ⟨sig, hmem, hwhich⟩ := hsig.caught h
    exact ⟨sig, List.mem_append_left _ hmem, hwhich⟩

theorem sendsToGone_of_ne (he : ∀ fd conn data flags sent, e ≠ .send fd conn data flags sent) :
    (Label.thread t e choice).sendsToGone s = false := by
  unfold Label.sendsToGone
  split
  next heq =>
    cases heq
    exact absurd rfl (he _ _ _ _ _)
  next => rfl

theorem Step.was_alive {l : Label χ} (hs : s.Step ops b l s') : s.kernel.alive = true := by
  obtain ⟨-, hs⟩ := hs
  cases l with
  | thread t e choice =>
    cases t with
    | main => exact (System.step_main hs).1
    | worker i => exact (System.step_worker hs).1
  | signal sig => exact (System.step_signal hs).1
  | disconnect c => exact (System.step_disconnect hs).1

/-- A step ends the process exactly when it is a `send` that gives `EPIPE`. -/
theorem alive_step_iff (ho : Owned s h) {tr : List (Label χ)} (hsig : Signalled s tr)
    {l : Label χ} (hs : s.Step ops b l s') : s'.kernel.alive = true ↔ l.sendsToGone s = false := by
  have halive := Step.was_alive hs
  cases l with
  | thread t e choice =>
    cases t with
    | main =>
      obtain ⟨-, main, kernel, workers, hnext, hcall, -, rfl⟩ := System.step_main hs.2
      have hconn := hnext.connCall
      have hsend : ∀ fd conn data flags sent, e ≠ .send fd conn data flags sent := by
        rintro fd conn data flags sent rfl
        cases hconn
      exact iff_of_true ((call_alive hcall hsend).trans halive) (sendsToGone_of_ne hsend)
    | worker i =>
      obtain ⟨-, w, w', kernel, hw, hstep, hcall, rfl⟩ := System.step_worker hs.2
      by_cases hsend : ∃ fd conn data flags sent, e = .send fd conn data flags sent
      · obtain ⟨fd, conn, data, flags, sent, rfl⟩ := hsend
        obtain rfl := (Worker.step_next hstep).send_flags
        obtain ⟨-, hfd, -⟩ := ho.connCall rfl hs
        simp only [Kernel.call, hfd, if_true] at hcall
        apply send_alive hcall _ halive
        rw [hsig.disposition]
        rfl
      · have hother : ∀ fd conn data flags sent, e ≠ .send fd conn data flags sent :=
          fun fd conn data flags sent he => hsend ⟨fd, conn, data, flags, sent, he⟩
        exact iff_of_true ((call_alive hcall hother).trans halive) (sendsToGone_of_ne hother)
  | signal sig =>
    obtain ⟨-, hne, rfl⟩ := System.step_signal hs.2
    rw [(deliver_outside hne hsig.disposition).1]
    exact iff_of_true halive rfl
  | disconnect c =>
    obtain ⟨-, -, rfl⟩ := System.step_disconnect hs.2
    exact iff_of_true halive rfl

def Label.isOf (t : Tid) : Label χ → Bool
  | .thread t' _ _ => t' = t
  | _ => false

def Label.joinsThread (i : ℕ) : Label χ → Bool
  | .thread .main (.tryJoin j (some _)) _ => j = i
  | _ => false

theorem System.step_of_worker {i : ℕ} {w : Worker} (halive : s.kernel.alive = true)
    (hw : s.workers i = some w) (he : e.Posix)
    (hwrite : ∀ fd data written, e ≠ .write fd data written) (hstep : (w.step b e).isSome)
    (hcall : (s.kernel.call ops (.worker i) e choice).isSome) :
    ∃ s', s.Step ops b (.thread (.worker i) e choice) s' := by
  obtain ⟨w', hstep⟩ := Option.isSome_iff_exists.mp hstep
  obtain ⟨kernel, hcall⟩ := Option.isSome_iff_exists.mp hcall
  refine ⟨⟨kernel, s.main, Function.update s.workers i (some w')⟩, ⟨he, ?_⟩, ?_⟩
  · split
    next => exact absurd rfl (hwrite _ _ _)
    next => trivial
  · simp [System.step, halive, hw, hstep, hcall]

/-- Until it is at its end, a failed thread always has a next step: nothing blocks it. -/
theorem Worker.Ends.enabled (ho : Owned s h) (hx : Exclusive b s)
    (halive : s.kernel.alive = true) {i : ℕ} {w : Worker} (hw : s.workers i = some w) {n : ℕ}
    (hends : w.Ends n) (hn : n ≠ 0) :
    ∃ e, ∀ choice, ∃ s', s.Step ops b (.thread (.worker i) e choice) s' := by
  cases hends with
  | @closing fd hpc =>
    obtain ⟨pos, hfd⟩ := ho.workerFile i w fd hw (by simp only [Worker.fileFd, hpc, SendPc.fileFd])
    refine ⟨.close fd true, fun choice => ?_⟩
    exact System.step_of_worker halive hw trivial (by simp)
      (by simp [Worker.step, hpc, Worker.sendingData]) (by simp [Kernel.call, Kernel.close, hfd])
  | unlocking hpc =>
    have hholds := hx (.worker i)
    rw [lockPhase_of_worker hw] at hholds
    cases hb : b.disableLocking with
    | true =>
      refine ⟨.compute, fun choice => ?_⟩
      exact System.step_of_worker halive hw trivial (by simp)
        (by simp [Worker.step, hpc, Worker.sendingData, releaseFileMutex, hb]) (by rfl)
    | false =>
      have hmutex : s.kernel.mutex = some (.worker i) :=
        hholds.mpr ⟨hb, by simp only [Worker.lockPhase, hpc, SendPc.lockPhase, LockPhase.critical]⟩
      refine ⟨.mutexUnlock true, fun choice => ?_⟩
      exact System.step_of_worker halive hw trivial (by simp)
        (by simp [Worker.step, hpc, Worker.sendingData, releaseFileMutex, hb])
        (by simp [Kernel.call, hmutex])
  | returning hpc =>
    refine ⟨.returns (-1), fun choice => ?_⟩
    exact System.step_of_worker halive hw trivial (by simp)
      (by simp [Worker.step, hpc, Worker.sendingData]) (by rfl)
  | closed hs hpc hk =>
    refine ⟨.loadSignal s.kernel.caughtSignal, fun choice => ?_⟩
    exact System.step_of_worker halive hw trivial (by simp) (by simp [Worker.step, hpc, hk])
      (by simp [Kernel.call])
  | stopping hs hpc =>
    refine ⟨.compute, fun choice => ?_⟩
    exact System.step_of_worker halive hw trivial (by simp) (by simp [Worker.step, hpc, hs])
      (by rfl)
  | stopped hs hpc hk =>
    refine ⟨.exitThread, fun choice => ?_⟩
    exact System.step_of_worker halive hw trivial (by simp) (by simp [Worker.step, hpc, hk])
      (by rfl)
  | ended => exact absurd rfl hn

theorem System.Step.other {i : ℕ} {w : Worker} (hw : s.workers i = some w) {l : Label χ}
    (hs : s.Step ops b l s') (hother : l.isOf (.worker i) = false)
    (hjoin : l.joinsThread i = false) : s'.workers i = some w := by
  cases l with
  | thread t e choice =>
    cases t with
    | main =>
      obtain ⟨-, main, kernel, workers, -, -, hthreads, rfl⟩ := System.step_main hs.2
      cases hthreads with
      | @starts j item data fd hpc hfd hfree =>
        have hne : i ≠ j := by
          rintro rfl
          cases hw.symm.trans hfree
        exact (Function.update_of_ne hne ..).trans hw
      | @joins j v hv hpc =>
        have hne : i ≠ j := by
          rintro rfl
          simp [Label.joinsThread] at hjoin
        exact (Function.update_of_ne hne ..).trans hw
      | quiet => exact hw
    | worker j =>
      obtain ⟨-, v, v', kernel, -, -, -, rfl⟩ := System.step_worker hs.2
      have hne : i ≠ j := by
        rintro rfl
        simp [Label.isOf] at hother
      exact (Function.update_of_ne hne ..).trans hw
  | signal sig =>
    obtain ⟨-, -, rfl⟩ := System.step_signal hs.2
    exact hw
  | disconnect c =>
    obtain ⟨-, -, rfl⟩ := System.step_disconnect hs.2
    exact hw

/-- However the others run, a failed thread gets closer to its end with every step of its own. -/
theorem Worker.Ends.run {i : ℕ} {w : Worker} {n : ℕ} (hw : s.workers i = some w)
    (hends : w.Ends n) {tr : List (Label χ)} (hrun : Run (System.Step ops b) s tr s')
    (hjoin : ∀ l ∈ tr, l.joinsThread i = false) :
    ∃ w' m, s'.workers i = some w' ∧ w'.Ends m ∧ m + tr.countP (Label.isOf (.worker i)) ≤ n := by
  induction hrun with
  | nil => exact ⟨w, n, hw, hends, by simp⟩
  | @snoc tr s₁ l s₂ _ hs ih =>
    obtain ⟨v, m, hv, hm, hle⟩ := ih fun l' hl' => hjoin l' (by simp [hl'])
    rw [List.countP_append, List.countP_singleton]
    cases hown : l.isOf (.worker i) with
    | false =>
      have hsame := hs.other hv hown (hjoin l (by simp))
      exact ⟨v, m, hsame, hm, by simpa using hle⟩
    | true =>
      cases l with
      | thread t e choice =>
        obtain rfl : t = .worker i := by simpa [Label.isOf] using hown
        obtain ⟨-, u, u', kernel, hu, hstep, -, rfl⟩ := System.step_worker hs.2
        cases hv.symm.trans hu
        obtain ⟨m', hlt, hends'⟩ := hm.next (Worker.step_next hstep)
        refine ⟨u', m', Function.update_self .., hends', ?_⟩
        simp only [if_true]
        omega
      | signal sig => cases hown
      | disconnect c => cases hown

theorem run_signalled {node : σ} {reserved : Fd → Bool} {tr : List (Label χ)}
    (hrun : Run (System.Step ops b) (System.start node reserved) tr s) : Signalled s tr := by
  induction hrun with
  | nil => exact ⟨rfl, fun hcaught => by simp [System.start] at hcaught⟩
  | snoc _ hs ih => exact ih.step hs

theorem run_alive {node : σ} {reserved : Fd → Bool} {tr : List (Label χ)}
    (hrun : Run (PeersStay ops b) (System.start node reserved) tr s) :
    s.kernel.alive = true := by
  have hsteps {tr : List (Label χ)} {s : System σ}
      (hrun : Run (PeersStay ops b) (System.start node reserved) tr s) :
      Run (System.Step ops b) (System.start node reserved) tr s :=
    hrun.mono fun _ _ _ hs => hs.2
  induction hrun with
  | nil => rfl
  | snoc hrun hs ih =>
    have hbefore := hsteps hrun
    exact (alive_step_iff (run_owned hbefore) (run_signalled hbefore) hs.2).mpr hs.1

/-- In every run in which no `send` gives `EPIPE`, whatever clients do otherwise: the process lives
and leaves `main_loop` only after `SIGINT` or `SIGTERM`; a worker's step touches no other thread;
and a thread whose connection has failed is never blocked and gets to `ClosedConnection` with the
mutex released, and then to its end. A step that does not meet the condition ends the process. -/
theorem disconnects_isolated_iff (ops : FileOps σ χ) (b : Build) (node : σ)
    (reserved : Fd → Bool) {tr : List (Label χ)} {s : System σ}
    (hrun : Run (PeersStay ops b) (System.start node reserved) tr s) :
    s.kernel.alive = true ∧
      (s.main.pc = .returned → ∃ sig, .signal sig ∈ tr ∧ (sig = .sigint ∨ sig = .sigterm)) ∧
      (∀ l s', s.Step ops b l s' → (s'.kernel.alive = true ↔ l.sendsToGone s = false)) ∧
      (∀ i e choice s', s.Step ops b (.thread (.worker i) e choice) s' →
        s'.main = s.main ∧ ∀ j ≠ i, s'.workers j = s.workers j) ∧
      ∀ i e choice s' tr' s'', e.ConnFails →
        PeersStay ops b s (.thread (.worker i) e choice) s' → Run (PeersStay ops b) s' tr' s'' →
        (∀ l ∈ tr', l.joinsThread i = false) →
        ∃ w n, s''.workers i = some w ∧ w.Ends n ∧ n + tr'.countP (Label.isOf (.worker i)) ≤ 6 ∧
          (n ≤ 3 → w.data.threadState = .closedConnection ∧
            s''.kernel.mutex ≠ some (.worker i)) ∧
          (n ≠ 0 → ∃ e', ∀ choice', ∃ s₃,
            s''.Step ops b (.thread (.worker i) e' choice') s₃) := by
  have hsteps := hrun.mono fun _ _ _ hs => hs.2
  have ho := run_owned hsteps
  have hsig := run_signalled hsteps
  refine ⟨run_alive hrun, fun hpc => ?_, fun l s' hs => alive_step_iff ho hsig hs, ?_, ?_⟩
  · exact hsig.caught (ho.control.stop (ho.control.returned hpc)).2.2.1
  · intro i e choice s' hs
    obtain ⟨-, w, w', kernel, -, -, -, rfl⟩ := System.step_worker hs.2
    exact ⟨rfl, fun j hj => Function.update_of_ne hj ..⟩
  · intro i e choice s' tr' s'' he hs hrun' hjoin
    have hwhole := (hrun.snoc hs).append hrun'
    have hafter := hwhole.mono fun _ _ _ hs => hs.2
    obtain ⟨-, w, w', kernel, -, hstep, -, hs'⟩ := System.step_worker hs.2.2
    obtain ⟨n, hle, hends⟩ := Worker.Ends.of_connFails he (Worker.step_next hstep)
    have hw' : s'.workers i = some w' := by
      rw [hs']
      exact Function.update_self ..
    obtain ⟨v, m, hv, hm, hcount⟩ :=
      hends.run hw' (hrun'.mono fun _ _ _ hs => hs.2) hjoin
    have hx := run_exclusive hafter
    refine ⟨v, m, hv, hm, hcount.trans hle, fun h3 => ?_, fun h0 => ?_⟩
    · obtain ⟨hclosed, hcritical⟩ := hm.closed_of_le h3
      refine ⟨hclosed, fun hmutex => ?_⟩
      have hheld := ((hx (.worker i)).mp hmutex).2
      rw [lockPhase_of_worker hv, hcritical] at hheld
      cases hheld
    · exact hm.enabled (run_owned hafter) hx (run_alive hwhole) hv h0

end

def stayStep (b : Build) (s : System (List Driver.Byte)) (l : Label Unit) :
    Option (System (List Driver.Byte)) :=
  if l.sendsToGone s then none else s.step regularFile b l

theorem peersStay_of_foldlM {b : Build} {tr : List (Label Unit)} {s₀ s : System (List Driver.Byte)}
    (hposix : ∀ l ∈ tr, l.Posix) (h : tr.foldlM (stayStep b) s₀ = some s) :
    Run (PeersStay regularFile b) s₀ tr s := by
  apply (Run.of_foldlM hposix h).mono
  rintro s l s' ⟨hl, hs⟩
  unfold stayStep at hs
  split at hs
  next => cases hs
  next hstays => exact ⟨Bool.eq_false_iff.mpr hstays, step_of_posix hl hs⟩

/-- The second client resets its connection. `recv` reports it, so that a `send` would now give
`EPIPE`; the thread makes none and ends. -/
def clientResets : List (Label Unit) :=
  twoClients ++ ([.mallocBuffers (List.replicate 1024 0), .loadSignal false,
    .recv 4 1 1024 none].map fun e => .thread (.worker 1) e ()) ++
  .disconnect 1 :: [.loadSignal false, .compute, .exitThread].map
    fun e => .thread (.worker 1) e ()

theorem clientResets_isolated : ∃ s, Run (PeersStay regularFile fileBuild)
    (System.start [] fun _ => false) clientResets s ∧ s.kernel.alive = true := by
  have hruns : (clientResets.foldlM (stayStep fileBuild)
      (System.start [] fun _ => false)).isSome := by decide +kernel
  obtain ⟨s, hs⟩ := Option.isSome_iff_exists.mp hruns
  have hrun := peersStay_of_foldlM (by decide +kernel) hs
  exact ⟨s, hrun, (disconnects_isolated_iff regularFile fileBuild [] (fun _ => false) hrun).1⟩

/-- The first client sends `"a\n"`, shuts down its side of the connection, and resets it after
`sending_data` has read the file. -/
def resetsDuringEcho : List (Label Unit) :=
  twoClients ++ [.mallocBuffers (List.replicate 1024 0), .loadSignal false,
    .recv 3 0 1024 (some [97, 10]), .realloc 1024 (some (List.replicate 1024 0)), .compute,
    .loadSignal false, .compute, .loadSignal false, .compute, .mutexLock true,
    .openFile (some 5), .write 5 [97, 10] (some 2), .lseek 5,
    .read 5 1023 (some [97, 10])].map (fun e => .thread (.worker 0) e ()) ++
  [.disconnect 0, .thread (.worker 0) (.send 3 0 [97, 10] 0 none) ()]

/-- The reset ends the server, although no signal was sent and the other client still waits. -/
theorem resetsDuringEcho_ends_server : ∃ s, Run (System.Step regularFile fileBuild)
    (System.start [] fun _ => false) resetsDuringEcho s ∧ s.kernel.alive = false ∧
      s.kernel.caughtSignal = false ∧
      (s.workers 1).map (fun w => w.data.threadState) = some .waitingForData := by
  have hends : (resetsDuringEcho.foldlM (System.step regularFile fileBuild)
      (System.start [] fun _ => false)).map (fun s => (s.kernel.alive, s.kernel.caughtSignal,
        (s.workers 1).map fun w => w.data.threadState)) =
      some (false, false, some .waitingForData) := by decide +kernel
  obtain ⟨s, hs, hfinal⟩ := Option.map_eq_some_iff.mp hends
  obtain ⟨halive, hfinal⟩ := Prod.mk.inj hfinal
  obtain ⟨hcaught, hother⟩ := Prod.mk.inj hfinal
  exact ⟨s, run_of_foldlM (by decide +kernel) hs, halive, hcaught, hother⟩

end Aesd.Server
