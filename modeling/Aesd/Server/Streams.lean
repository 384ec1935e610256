import Aesd.Server.Daemon
import Aesd.Server.FileEcho
import Aesd.Server.Mutex
import Aesd.Server.Ownership

/-! Standard input, output and error and the listening socket, from the start of the program to the
end of `main_loop`. -/
namespace Aesd.Server
open DescriptorTables Runs

/-- The child enters `main_loop` with its three streams on `/dev/null` exactly when all three were
open at the fork; otherwise the one that `open` took is closed again. Its socket is still the
listening one exactly when its number is none of the three, and no other descriptor has changed. -/
theorem daemon_streams (argv : List String) (fds₀ : Table Opened) {tr : List FamilyLabel}
    {f : Family} {c : Program} (hrun : Run Family.Step (.start argv fds₀) tr f)
    (hc : f.child = some c) (hloop : c.pc = .mainLoop) :
    ((∀ fd < 3, c.fds.get fd = some .devNull) ↔ ∀ fd < 3, f.parent.fds.get fd ≠ none) ∧
    (∃ fd, c.process.socketFd = some fd ∧ f.parent.fds.get fd = some .listening ∧
      (c.fds.get fd = some .listening ↔ 3 ≤ fd)) ∧
    ∀ fd, 3 ≤ fd → c.fds.get fd = f.parent.fds.get fd := by
  obtain ⟨hphase, -⟩ := Family.run_phase hrun
  cases hphase with
  | alone hnone => cases hnone.symm.trans hc
  | forked hsome _ _ hparent hstarted hredirecting =>
    cases hsome.symm.trans hc
    obtain ⟨hprocess, hredirects⟩ := hredirecting.redirects hloop
    obtain ⟨fd, hfd, hlistening, -⟩ := hstarted.listening (by rw [hparent]; rfl)
    exact ⟨hredirects.devNull_iff, ⟨fd, by rw [hprocess, hfd], hlistening,
      hredirects.listening_iff hlistening⟩, fun fd => hredirects.get_of_le⟩

/-- A daemon started without standard input and output: the C library takes 0 and the socket 1. -/
def noStreams : List FamilyLabel := [.parent .libraryOpens] ++ startupCalls 1 ++ forkCalls 3

theorem noStreams_loses_socket : ∃ f c, Run Family.Step (.start ["aesdsocket", "-d"] (streams [2]))
    noStreams f ∧ f.child = some c ∧ c.pc = .mainLoop ∧ c.process.socketFd = some 1 ∧
      c.fds.get 1 ≠ some .listening := by
  have hstate : (noStreams.foldlM Family.step (.start ["aesdsocket", "-d"] (streams [2]))).bind
      (fun f => f.child.map fun c => (c.pc, c.process.socketFd)) = some (.mainLoop, some 1) := by
    decide +kernel
  obtain ⟨f, hf, hstate⟩ := Option.bind_eq_some_iff.mp hstate
  obtain ⟨c, hc, hstate⟩ := Option.map_eq_some_iff.mp hstate
  obtain ⟨hpc, hsocket⟩ := Prod.mk.inj hstate
  have hrun := Family.run_of_foldlM hf
  obtain ⟨-, ⟨fd, hfd, -, hlistening⟩, -⟩ := daemon_streams _ _ hrun hc hpc
  obtain rfl : 1 = fd := Option.some.inj (hsocket.symm.trans hfd)
  exact ⟨f, c, hrun, hc, hpc, hsocket, fun h => absurd (hlistening.mp h) (by decide)⟩

/-- `startup` with the three streams open takes none of them for its socket. -/
theorem Program.Started.socket_ge {p : Program} {fds₀ : Table Opened} (h : p.Started fds₀)
    (hstreams : ∀ fd < 3, fds₀.get fd = some (.inherited fd)) (hpc : p.process.pc = .mainLoop) :
    ∃ fd, 3 ≤ fd ∧ p.process.socketFd = some fd ∧ p.fds.get fd = some .listening := by
  obtain ⟨fd, hfd, hlistening, hnew⟩ := h.listening (by rw [hpc]; rfl)
  refine ⟨fd, ?_, hfd, hlistening⟩
  by_contra hlow
  cases hnew _ (hstreams fd (Nat.lt_of_not_le hlow))

section
variable {σ χ : Type} {ops : FileOps σ χ} {b : Build} {s s' : System σ} {k k' : Kernel σ} {t : Tid}
  {e : Event} {choice : χ} {fd : Fd} {d : Desc}

theorem call_keeps_desc (h : k.call ops t e choice = some k') (hfd : k.fds fd = some d)
    (hne : e.fileFd ≠ some fd) : k'.fds fd = some d := by
  have hupdate {fd' : Fd} {d' : Option Desc} (hother : fd' ≠ fd) :
      Function.update k.fds fd' d' fd = some d := by
    rw [Function.update_of_ne hother.symm, hfd]
  have hnamed {fd' : Fd} (he : e.fileFd = some fd') : fd' ≠ fd := by
    rintro rfl
    exact hne he
  have hfree {fd' : Fd} (he : k.fds fd' = none) : fd' ≠ fd := by
    rintro rfl
    cases he.symm.trans hfd
  cases call_fdEffect h with
  | quiet _ hfds => rw [hfds, hfd]
  | opens fd' hnone hk =>
    subst hk
    exact hupdate (hfree hnone)
  | moves hname _ _ hfds =>
    rw [hfds]
    exact hupdate (hnamed hname)
  | closesFile => exact hupdate (hnamed rfl)
  | closesConn => exact hupdate (hnamed rfl)
  | accepts fd' hnone => exact hupdate (hfree hnone)

/-- No thread names a descriptor that was open before `main_loop`. -/
theorem Owned.other_kept {h : Clients} (ho : Owned s h) {l : Label χ} (hs : s.Step ops b l s')
    (hfd : s.kernel.fds fd = some .other) : s'.kernel.fds fd = some .other := by
  obtain ⟨-, hs⟩ := hs
  cases l with
  | thread t e choice =>
    obtain ⟨-, hcall, -⟩ := System.thread_step hs
    refine call_keeps_desc hcall hfd fun hname => ?_
    rcases ho.names hs hname with ⟨pos, hfile⟩ | ⟨-, c, hconn⟩
    · cases hfd.symm.trans hfile
    · cases hfd.symm.trans hconn
  | signal sig =>
    obtain ⟨-, -, rfl⟩ := System.step_signal hs
    rw [(deliver_fds s.kernel sig).1]
    exact hfd
  | disconnect c =>
    obtain ⟨-, -, rfl⟩ := System.step_disconnect hs
    exact hfd

theorem run_other_kept {node : σ} {reserved : Fd → Bool} {tr : List (Label χ)}
    (hrun : Run (System.Step ops b) (System.start node reserved) tr s)
    (hreserved : reserved fd = true) : s.kernel.fds fd = some .other := by
  have hfollows : Owned s (clientsAfter tr) ∧ s.kernel.fds fd = some .other :=
    hrun.follows (R := fun s h => Owned s h ∧ s.kernel.fds fd = some .other)
      ⟨owned_start node reserved, by simp [System.start, hreserved]⟩
      fun s h l s' hr hs => ⟨hr.1.step hs, hr.1.other_kept hs hr.2⟩
  exact hfollows.2

/-- Started with its three streams open, the program comes to `main_loop` with a listening socket
beside them and with the streams it inherited or, as the daemon, on `/dev/null`; whatever the
threads and clients then do, all four descriptors stay what they are. -/
theorem main_loop_keeps_streams (argv : List String) (fds₀ : Table Opened)
    (hstreams : ∀ fd < 3, fds₀.get fd = some (.inherited fd)) {tr : List FamilyLabel} {f : Family}
    {p : Program} (hrun : Run Family.Step (.start argv fds₀) tr f)
    (hp : f.parent = p ∨ f.child = some p) (hloop : p.pc = .mainLoop) (ops : FileOps σ χ)
    (b : Build) (node : σ) {tr' : List (Label χ)} {s : System σ}
    (hrun' : Run (System.Step ops b) (System.start node fun fd => (p.fds.get fd).isSome) tr' s) :
    (∃ fd, 3 ≤ fd ∧ p.process.socketFd = some fd ∧ p.fds.get fd = some .listening ∧
      s.kernel.fds fd = some .other) ∧
    ∀ fd < 3, p.fds.get fd = some (if daemonEnabled argv then .devNull else .inherited fd) ∧
      s.kernel.fds fd = some .other := by
  have hkept {fd : Fd} {d : Opened} (hd : p.fds.get fd = some d) : s.kernel.fds fd = some .other :=
    run_other_kept hrun' (by rw [hd]; rfl)
  have hboth : (∃ fd, 3 ≤ fd ∧ p.process.socketFd = some fd ∧ p.fds.get fd = some .listening) ∧
      ∀ fd < 3, p.fds.get fd = some (if daemonEnabled argv then .devNull else .inherited fd) := by
    obtain ⟨hphase, hdaemon⟩ := Family.run_phase hrun
    rcases hp with rfl | hc
    · cases hphase with
      | alone hnone h =>
        obtain ⟨hnot, hprocess, h⟩ := h.serving hloop
        refine ⟨h.socket_ge hstreams hprocess, fun fd hfd => ?_⟩
        rw [← hdaemon, hnot]
        exact h.kept fd _ (hstreams fd hfd) (by simp)
      | forked _ _ hpc => simp [hloop] at hpc
    · cases hphase with
      | alone hnone => cases hnone.symm.trans hc
      | forked hsome hyes _ hparent h hredirecting =>
        cases hsome.symm.trans hc
        obtain ⟨hprocess, hredirects⟩ := hredirecting.redirects hloop
        obtain ⟨fd, hge, hfd, hlistening⟩ := h.socket_ge hstreams hparent
        refine ⟨⟨fd, hge, by rw [hprocess, hfd], (hredirects.get_of_le hge).trans hlistening⟩, ?_⟩
        rw [← hdaemon, hyes]
        refine hredirects.devNull_iff.mpr fun fd hfd => ?_
        rw [h.kept fd _ (hstreams fd hfd) (by simp)]
        simp
  obtain ⟨⟨fd, hge, hfd, hlistening⟩, hstreams'⟩ := hboth
  exact ⟨⟨fd, hge, hfd, hlistening, hkept hlistening⟩,
    fun fd hfd => ⟨hstreams' fd hfd, hkept (hstreams' fd hfd)⟩⟩

end

theorem daemonRun_keeps_streams : ∃ f c s, Run Family.Step (.start ["aesdsocket", "-d"]
    (streams [0, 1, 2])) (startupCalls 3 ++ forkCalls 4) f ∧ f.child = some c ∧
      Run (System.Step regularFile fileBuild)
        (System.start [] fun fd => (c.fds.get fd).isSome) oneEcho s ∧
      s.kernel.fds 3 = some .other ∧ ∀ fd < 3, c.fds.get fd = some .devNull := by
  have hstate : ((startupCalls 3 ++ forkCalls 4).foldlM Family.step
      (.start ["aesdsocket", "-d"] (streams [0, 1, 2]))).bind (fun f => f.child.map fun c =>
        (c.pc, c.process.socketFd, (oneEcho.foldlM (System.step regularFile fileBuild)
          (System.start [] fun fd => (c.fds.get fd).isSome)).isSome)) =
      some (.mainLoop, some 3, true) := by decide +kernel
  obtain ⟨f, hf, hstate⟩ := Option.bind_eq_some_iff.mp hstate
  obtain ⟨c, hc, hstate⟩ := Option.map_eq_some_iff.mp hstate
  simp only [Prod.mk.injEq] at hstate
  obtain ⟨hpc, hsocket, hechoes⟩ := hstate
  obtain ⟨s, hs⟩ := Option.isSome_iff_exists.mp hechoes
  have hrun := Family.run_of_foldlM hf
  have hrun' := run_of_foldlM (by decide +kernel) hs
  obtain ⟨⟨fd, -, hfd, -, hother⟩, hnull⟩ := main_loop_keeps_streams _ _ (by decide +kernel) hrun
    (.inr hc) hpc regularFile fileBuild [] hrun'
  obtain rfl : 3 = fd := Option.some.inj (hsocket.symm.trans hfd)
  exact ⟨f, c, s, hrun, hc, hrun', hother, fun fd hfd => (hnull fd hfd).1⟩

end Aesd.Server
