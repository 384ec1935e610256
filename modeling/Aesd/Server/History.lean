import Aesd.Server.Framing
import Aesd.Server.Ownership

/-! The calls made for each connection, in order. Whatever the schedule, they are a run of
`main_loop_thread` of their own, so what holds of every such run holds of every connection. -/
namespace Aesd.Server
open Driver (Byte)
open Records Runs

/-- The calls that the thread of each connection has made. -/
structure History where
  clients : Clients
  log : ℕ → List Event

def History.call (h : History) (t : Tid) (e : Event) : History where
  clients := h.clients.call t e
  log :=
    match t with
    | .main => h.log
    | .worker i =>
      match h.clients.client i with
      | some c => Function.update h.log c (h.log c ++ [e])
      | none => h.log

def History.clientOf (h : History) : Tid → Option ℕ
  | .main => none
  | .worker i => h.clients.client i

def History.next {χ : Type} (h : History) : Label χ → History
  | .thread t e _ => h.call t e
  | _ => h

def History.init : History := ⟨⟨none, fun _ => none⟩, fun _ => []⟩

def historyAfter {χ : Type} (tr : List (Label χ)) : History := tr.foldl History.next .init

def History.stream (h : History) (c : ℕ) : List Byte := received (h.log c)

structure Logged {σ : Type} (b : Build) (s : System σ) (h : History) : Prop where
  owned : Owned s h.clients
  runs : ∀ i w c, s.workers i = some w → h.clients.client i = some c →
    ∃ addr fd, Run (Worker.Step b) (Worker.create addr fd) (h.log c) w
  past : ∀ c, ∃ addr fd w, Run (Worker.Step b) (Worker.create addr fd) (h.log c) w
  fresh : ∀ c, s.kernel.accepted ≤ c → h.log c = []
  pending : ∀ fd c, s.main.pendingFd = some fd → s.kernel.fds fd = some (.conn c) → h.log c = []

section
variable {σ χ : Type} {ops : FileOps σ χ} {b : Build} {s s' : System σ} {h h' : History}
  {k k' : Kernel σ} {t : Tid} {e : Event} {choice : χ}

theorem log_call (h : History) (t : Tid) (e : Event) (c : ℕ) :
    (h.call t e).log c = if h.clientOf t = some c then h.log c ++ [e] else h.log c := by
  cases t with
  | main => rfl
  | worker i =>
    cases hc : h.clients.client i with
    | none => simp [History.call, History.clientOf, hc]
    | some c' =>
      have hlog : (h.call (.worker i) e).log = Function.update h.log c' (h.log c' ++ [e]) := by
        simp only [History.call, hc]
      rw [hlog, History.clientOf, hc]
      by_cases hsame : c = c'
      · subst hsame
        rw [Function.update_self, if_pos rfl]
      · rw [Function.update_of_ne hsame, if_neg (by simpa using Ne.symm hsame)]

theorem logged_start (node : σ) (reserved : Fd → Bool) :
    Logged b (System.start node reserved) .init := by
  constructor
  · exact owned_start node reserved
  · intro i w c hw
    cases hw
  · intro c
    exact ⟨0, 0, _, .nil⟩
  · intro c _
    rfl
  · intro fd c _ _
    rfl

theorem call_conns (hcall : k.call ops t e choice = some k') (hacc : e.accepts = false) :
    k'.accepted = k.accepted ∧
      ∀ f c, k'.fds f = some (.conn c) → k.fds f = some (.conn c) := by
  have hupdate {fd : Fd} {d : Option Desc} (hd : ∀ c, d ≠ some (.conn c))
      (hfds : k'.fds = Function.update k.fds fd d) (f : Fd) (c : ℕ)
      (hf : k'.fds f = some (.conn c)) : k.fds f = some (.conn c) := by
    rw [hfds] at hf
    by_cases hsame : f = fd
    · subst hsame
      rw [Function.update_self] at hf
      exact absurd hf (hd c)
    · rwa [Function.update_of_ne hsame] at hf
  cases call_fdEffect hcall with
  | quiet _ hfds haccepted => exact ⟨haccepted, fun f c hf => hfds ▸ hf⟩
  | opens fd hfree hk =>
    subst hk
    exact ⟨rfl, hupdate (by simp) rfl⟩
  | moves _ _ _ hfds haccepted => exact ⟨haccepted, hupdate (by simp) hfds⟩
  | closesFile => exact ⟨rfl, hupdate (by simp) rfl⟩
  | closesConn => exact ⟨rfl, hupdate (by simp) rfl⟩
  | accepts => cases hacc

theorem Main.Next.pendingFd {m m' : Main} (hn : m.Next b e m') (hacc : e.accepts = false)
    {fd : Fd} (hfd : m'.pendingFd = some fd) : m.pendingFd = some fd := by
  cases hn with
  | accepts => cases hacc
  | acceptFails =>
    unfold Main.pendingFd at hfd
    split at hfd <;> cases hfd
  | mallocFails | createFails | creates => cases hfd
  | _ => exact hfd

theorem Logged.keep (hl : Logged b s h) (howned : Owned s' h'.clients) (hlog : h'.log = h.log)
    (hworkers : ∀ i w, s'.workers i = some w →
      s.workers i = some w ∧ h'.clients.client i = h.clients.client i)
    (haccepted : s.kernel.accepted ≤ s'.kernel.accepted)
    (hpending : ∀ fd c, s'.main.pendingFd = some fd → s'.kernel.fds fd = some (.conn c) →
      (s.main.pendingFd = some fd ∧ s.kernel.fds fd = some (.conn c)) ∨
        s.kernel.accepted ≤ c) : Logged b s' h' := by
  constructor
  · exact howned
  · intro i w c hw hc
    obtain ⟨hw', hsame⟩ := hworkers i w hw
    rw [hlog]
    exact hl.runs i w c hw' (hsame ▸ hc)
  · rw [hlog]
    exact hl.past
  · intro c hc
    rw [hlog]
    exact hl.fresh c (haccepted.trans hc)
  · intro fd c hfd hconn
    rw [hlog]
    rcases hpending fd c hfd hconn with ⟨hfd', hconn'⟩ | hle
    · exact hl.pending fd c hfd' hconn'
    · exact hl.fresh c hle

/-- The calls of the other threads do not show in a connection's log. -/
theorem Logged.worker_step (hl : Logged b s h) {i : ℕ} (he : e.Posix)
    (hs : s.step ops b (.thread (.worker i) e choice) = some s') :
    Logged b s' (h.call (.worker i) e) := by
  obtain ⟨-, w, w', kernel, hw, hstep, hcall, hs'⟩ := System.step_worker hs
  obtain ⟨c, hc, hconn⟩ := hl.owned.client i w hw
  have howned : Owned s' h.clients := hl.owned.worker_step hs
  subst hs'
  have hlog : (h.call (.worker i) e).log = Function.update h.log c (h.log c ++ [e]) := by
    simp only [History.call, hc]
  obtain ⟨addr, fd, hrun⟩ := hl.runs i w c hw hc
  have hown : Run (Worker.Step b) (Worker.create addr fd) (h.log c ++ [e]) w' :=
    hrun.snoc ⟨he, hstep⟩
  have hne {c' : ℕ} (hnil : h.log c' = []) (hlogged : c' = c → False) :
      Function.update h.log c (h.log c ++ [e]) c' = [] :=
    (Function.update_of_ne hlogged ..).trans hnil
  obtain ⟨haccepted, hconns⟩ := call_conns hcall (Worker.step_next hstep).fileStep.accepts
  constructor
  · exact howned
  · intro j v c' hv hc'
    rw [hlog]
    dsimp only at hv
    by_cases hj : j = i
    · subst hj
      rw [Function.update_self] at hv
      cases hv
      cases hc.symm.trans hc'
      exact ⟨addr, fd, by rwa [Function.update_self]⟩
    · rw [Function.update_of_ne hj] at hv
      have hother : c' ≠ c := by
        rintro rfl
        obtain ⟨c₂, hc₂, hconn₂⟩ := hl.owned.client j v hv
        cases hc₂.symm.trans hc'
        exact hj (hl.owned.distinct j i v w hv hw (hl.owned.connInj _ _ _ hconn₂ hconn))
      rw [Function.update_of_ne hother]
      exact hl.runs j v c' hv hc'
  · intro c'
    rw [hlog]
    by_cases hsame : c' = c
    · subst hsame
      exact ⟨addr, fd, w', by rwa [Function.update_self]⟩
    · rw [Function.update_of_ne hsame]
      exact hl.past c'
  · intro c' hc'
    rw [hlog]
    dsimp only at hc'
    rw [haccepted] at hc'
    apply hne (hl.fresh c' hc')
    rintro rfl
    exact absurd hc' (not_le.mpr (hl.owned.fresh _ _ hconn))
  · intro f c' hf hconn'
    rw [hlog]
    have hbefore := hconns f c' hconn'
    apply hne (hl.pending f c' hf hbefore)
    rintro rfl
    exact (hl.owned.pending f hf).2 i w hw (hl.owned.connInj _ _ _ hconn hbefore)

theorem Logged.main_step (hl : Logged b s h)
    (hs : s.step ops b (.thread .main e choice) = some s') : Logged b s' (h.call .main e) := by
  have howned : Owned s' (h.clients.call .main e) := hl.owned.main_step hs
  obtain ⟨-, main, kernel, workers, hnext, hcall, hthreads, hs'⟩ := System.step_main hs
  subst hs'
  cases hacc : e.accepts with
  | true =>
    obtain ⟨fd, c, rfl⟩ := accepts_eq_true hacc
    obtain ⟨hfree, rfl, rfl⟩ := call_accept hcall
    cases hthreads with
    | quiet =>
      refine hl.keep howned rfl (fun i w hw => ⟨hw, rfl⟩) (Nat.le_succ _) fun f c' hf hconn => ?_
      cases hnext with
      | accepts =>
        cases hf
        refine .inr (le_of_eq ?_)
        simpa [Kernel.setFd] using hconn
      | stamps hpc hstamp => cases hstamp.fileStep.accepts
      | stamped hpc hstamp => cases hstamp.fileStep.accepts
  | false =>
    obtain ⟨haccepted, hconns⟩ := call_conns hcall hacc
    have hpending (f : Fd) (c : ℕ) (hf : main.pendingFd = some f)
        (hconn : kernel.fds f = some (.conn c)) :
        (s.main.pendingFd = some f ∧ s.kernel.fds f = some (.conn c)) ∨
          s.kernel.accepted ≤ c :=
      .inl ⟨hnext.pendingFd hacc hf, hconns f c hconn⟩
    cases hthreads with
    | @starts i item data fd hpc hfd hfree =>
      have hst := hl.owned.control.state .creatingThread (by simp [hpc, MainPc.state])
      have hfd' : s.main.pendingFd = some fd := by
        unfold Main.pendingFd
        rw [if_pos hst, hfd]
      obtain ⟨⟨c, hc, hconn⟩, -⟩ := hl.owned.pending fd hfd'
      have hclient (j : ℕ) : (h.call .main (.pthreadCreate (some i))).clients.client j =
          Function.update h.clients.client i h.clients.pending j := rfl
      constructor
      · exact howned
      · intro j v c' hv hc'
        dsimp only at hv
        rw [hclient] at hc'
        by_cases hj : j = i
        · subst hj
          rw [Function.update_self] at hv hc'
          cases hv
          cases hc.symm.trans hc'
          have hnil : h.log c = [] := hl.pending fd c hfd' hconn
          exact ⟨data, fd, by simpa only [History.call, hnil] using Run.nil⟩
        · rw [Function.update_of_ne hj] at hv hc'
          exact hl.runs j v c' hv hc'
      · exact hl.past
      · intro c' hc'
        exact hl.fresh c' (haccepted ▸ hc')
      · intro f c' hf hconn'
        rcases hpending f c' hf hconn' with ⟨hf', hold⟩ | hle
        · exact hl.pending f c' hf' hold
        · exact hl.fresh c' hle
    | @joins i w hw hpc =>
      refine hl.keep howned rfl (fun j v hv => ⟨?_, rfl⟩) haccepted.ge hpending
      dsimp only at hv
      by_cases hj : j = i
      · subst hj
        simp at hv
      · rwa [Function.update_of_ne hj] at hv
    | quiet hmoves =>
      refine hl.keep howned rfl (fun j v hv => ⟨hv, ?_⟩) haccepted.ge hpending
      simp only [History.call]
      unfold Clients.call
      split
      · cases hacc
      · cases hmoves
      · rfl

theorem Logged.step (hl : Logged b s h) {l : Label χ} (hs : s.Step ops b l s') :
    Logged b s' (h.next l) := by
  have howned : Owned s' (h.clients.next l) := hl.owned.step hs
  cases l with
  | thread t e choice =>
    cases t with
    | main => exact hl.main_step hs.2
    | worker i => exact hl.worker_step hs.1.1 hs.2
  | signal sig =>
    obtain ⟨-, -, rfl⟩ := System.step_signal hs.2
    obtain ⟨hfds, haccepted, -⟩ := deliver_fds s.kernel sig
    exact hl.keep howned rfl (fun i w hw => ⟨hw, rfl⟩) haccepted.ge
      fun f c hf hconn => .inl ⟨hf, hfds ▸ hconn⟩
  | disconnect c =>
    obtain ⟨-, -, rfl⟩ := System.step_disconnect hs.2
    exact hl.keep howned rfl (fun i w hw => ⟨hw, rfl⟩) le_rfl fun f c hf hconn => .inl ⟨hf, hconn⟩

theorem run_logged {node : σ} {reserved : Fd → Bool} {tr : List (Label χ)}
    (hrun : Run (System.Step ops b) (System.start node reserved) tr s) :
    Logged b s (historyAfter tr) :=
  hrun.follows (R := Logged b) (logged_start node reserved) fun _ _ _ _ hl hs => hl.step hs

/-- A worker after a step has made the call itself, or is as it was and serves whom it served, or
has just been created. -/
theorem worker_after (h : History) (hs : s.step ops b (.thread t e choice) = some s') {i : ℕ}
    {w' : Worker} (hw' : s'.workers i = some w') :
    (t = .worker i ∧ ∃ w, s.workers i = some w ∧ w.step b e = some w') ∨
      (Tid.worker i ≠ t ∧ s.workers i = some w' ∧
        (h.call t e).clients.client i = h.clients.client i) ∨
      ∃ data fd, w' = Worker.create data fd := by
  cases t with
  | main =>
    obtain ⟨-, main, kernel, workers, -, -, hthreads, rfl⟩ := System.step_main hs
    dsimp only at hw'
    cases hthreads with
    | @starts j item data fd hp hfd hfree =>
      by_cases hj : i = j
      · subst hj
        rw [Function.update_self] at hw'
        exact .inr (.inr ⟨data, fd, (Option.some.inj hw').symm⟩)
      · rw [Function.update_of_ne hj] at hw'
        exact .inr (.inl ⟨by simp, hw', by simp [History.call, Clients.call, hj]⟩)
    | @joins j w hw hp =>
      by_cases hj : i = j
      · subst hj
        simp at hw'
      · rw [Function.update_of_ne hj] at hw'
        exact .inr (.inl ⟨by simp, hw', rfl⟩)
    | quiet hmoves =>
      refine .inr (.inl ⟨by simp, hw', ?_⟩)
      simp only [History.call]
      unfold Clients.call
      split
      · rfl
      · cases hmoves
      · rfl
  | worker j =>
    obtain ⟨-, w, w₂, kernel, hw, hstep, -, rfl⟩ := System.step_worker hs
    dsimp only at hw'
    by_cases hj : i = j
    · subst hj
      rw [Function.update_self] at hw'
      exact .inl ⟨rfl, w, hw, hstep.trans hw'⟩
    · rw [Function.update_of_ne hj] at hw'
      exact .inr (.inl ⟨by simp [hj], hw', rfl⟩)

theorem stream_next (h : History) (l : Label χ) (c : ℕ) : h.stream c <+: (h.next l).stream c := by
  cases l with
  | thread t e choice =>
    rw [History.stream, History.stream, History.next, log_call]
    split
    next =>
      rw [received_snoc]
      exact List.prefix_append _ _
    next => exact List.prefix_rfl
  | signal sig => exact List.prefix_rfl
  | disconnect c' => exact List.prefix_rfl

/-- What a connection's thread hands to `write_to_file` are lines of its client, in order. -/
theorem Logged.payloads_records (hl : Logged b s h) (c : ℕ) :
    payloads (h.log c) <+: records packetEnding (h.stream c) := by
  obtain ⟨addr, fd, w, hrun⟩ := hl.past c
  have hframed := run_framed hrun
  exact prefix_records hframed.records hframed.taken

end

end Aesd.Server
