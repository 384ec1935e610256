import Aesd.Server.Isolation
import Aesd.Server.Progress
import Aesd.Server.StepsLeft

/-! What a signal leaves to do in the whole process, and that it can be done: the process ends as
soon as its threads are let go on. -/
namespace Aesd.Server
open Driver (Byte)
open Runs

section
variable {χ : Type}

/-- The steps of a thread, and what a step costs and grants the others. -/
def Label.stepsOf (t : Tid) : Label χ → ℕ
  | .thread t' _ _ => if t' = t then 1 else 0
  | _ => 0

def Label.recvsOf (i : ℕ) : Label χ → ℕ
  | .thread t e _ => if t = .worker i then e.isRecv.toNat else 0
  | _ => 0

def Label.bytesReadBy (i : ℕ) : Label χ → ℕ
  | .thread t e _ => if t = .worker i then e.bytesRead else 0
  | _ => 0

def Label.startsThread (i : ℕ) : Label χ → ℕ
  | .thread .main (.pthreadCreate (some j)) _ => if j = i then 1 else 0
  | _ => 0

def Label.starts : Label χ → ℕ
  | .thread .main e _ => e.starts.toNat
  | _ => 0

def Label.accepts : Label χ → ℕ
  | .thread .main e _ => e.accepts.toNat
  | _ => 0

def Label.joinsNot : Label χ → ℕ
  | .thread .main e _ => e.joinsNot.toNat
  | _ => 0

end

section
variable {σ χ : Type} {ops : FileOps σ χ} {b : Build} {s s' : System σ} {l : Label χ} {e : Event}
  {choice : χ} {i : ℕ} {node : σ} {reserved : Fd → Bool}

def System.stepsLeft (s : System σ) (i : ℕ) : ℕ := ((s.workers i).map Worker.stepsLeft).getD 0

def System.recvsLeft (s : System σ) (i : ℕ) : ℕ := ((s.workers i).map Worker.recvsLeft).getD 0

def Stopping (ops : FileOps σ χ) (b : Build) (node : σ) (reserved : Fd → Bool) (s : System σ) :
    Prop :=
  (∃ tr, Run (System.Step ops b) (System.start node reserved) tr s) ∧
    s.kernel.caughtSignal = true

theorem Stopping.step (h : Stopping ops b node reserved s) (hs : s.Step ops b l s') :
    Stopping ops b node reserved s' := by
  obtain ⟨⟨tr, hrun⟩, hcaught⟩ := h
  refine ⟨⟨_, hrun.snoc hs⟩, ?_⟩
  cases l with
  | thread t e choice =>
    obtain ⟨-, hcall, -⟩ := System.thread_step hs.2
    exact (call_stable hcall).1.trans hcaught
  | signal sig =>
    obtain ⟨-, -, rfl⟩ := System.step_signal hs.2
    exact deliver_caughtSignal s.kernel sig hcaught
  | disconnect c =>
    obtain ⟨-, -, rfl⟩ := System.step_disconnect hs.2
    exact hcaught

theorem Stopping.steady (h : Stopping ops b node reserved s) : Steady b s := by
  obtain ⟨⟨tr, hrun⟩, -⟩ := h
  exact run_steady hrun

theorem Stopping.control (h : Stopping ops b node reserved s) : s.main.Control true := by
  obtain ⟨clients, ho⟩ := h.steady.owned
  exact h.2 ▸ ho.control

theorem Stopping.load (h : Stopping ops b node reserved s) {t : Tid} {kernel : Kernel σ}
    (hcall : s.kernel.call ops t e choice = some kernel) (v : Bool) (he : e = .loadSignal v) :
    v = true := by
  subst he
  exact (call_loadSignal hcall).trans h.2

/-- What a step of a worker costs is taken from what it had left. -/
theorem Stopping.worker_cost (h : Stopping ops b node reserved s)
    (hs : s.Step ops b (.thread (.worker i) e choice) s') :
    1 + s'.stepsLeft i ≤ s.stepsLeft i + e.bytesRead ∧
      e.isRecv.toNat + s'.recvsLeft i ≤ s.recvsLeft i ∧ s'.main = s.main ∧
      ∀ j ≠ i, s'.workers j = s.workers j := by
  obtain ⟨-, w, w', kernel, hw, hstep, hcall, rfl⟩ := System.step_worker hs.2
  have hnext := Worker.step_next hstep
  have hload := h.load hcall
  have hsteps := hnext.stepsLeft (h.steady.sound i w hw) hs.1.1 hload
  have hrecvs := hnext.recvsLeft hload
  refine ⟨?_, ?_, rfl, fun j hj => Function.update_of_ne hj ..⟩
  · simpa [System.stepsLeft, hw] using hsteps
  · simpa [System.recvsLeft, hw] using hrecvs

theorem Stopping.main_cost (h : Stopping ops b node reserved s)
    (hs : s.Step ops b (.thread .main e choice) s') :
    1 + s'.main.stepsLeft ≤ s.main.stepsLeft + 13 * e.joinsNot.toNat ∧
      e.accepts.toNat + s'.main.acceptsLeft ≤ s.main.acceptsLeft ∧
      e.starts.toNat + s'.main.createsLeft ≤ s.main.createsLeft ∧
      ∀ i, s'.stepsLeft i ≤ s.stepsLeft i + 12 * (Label.thread .main e choice).startsThread i ∧
        s'.recvsLeft i ≤ s.recvsLeft i + (Label.thread .main e choice).startsThread i := by
  obtain ⟨-, main, kernel, workers, hnext, hcall, hthreads, rfl⟩ := System.step_main hs.2
  have hload := h.load hcall
  refine ⟨hnext.stepsLeft h.control h.steady.listed.visits hload, hnext.acceptsLeft hload,
    hnext.createsLeft h.control hload, fun i => ?_⟩
  cases hthreads with
  | @starts j item data fd hpc hfd hunused =>
    by_cases hi : i = j
    · subst hi
      simp [System.stepsLeft, System.recvsLeft, Label.startsThread, Worker.create,
        Worker.stepsLeft, Worker.afterRound, Worker.recvsLeft]
    · simp [System.stepsLeft, System.recvsLeft, Function.update_of_ne hi]
  | @joins j w hw hexit =>
    by_cases hi : i = j
    · subst hi
      simp [System.stepsLeft, System.recvsLeft]
    · simp [System.stepsLeft, System.recvsLeft, Function.update_of_ne hi]
  | quiet => exact ⟨Nat.le_add_right .., Nat.le_add_right ..⟩

theorem Stopping.cost (h : Stopping ops b node reserved s) (hs : s.Step ops b l s') :
    l.stepsOf .main + s'.main.stepsLeft ≤ s.main.stepsLeft + 13 * l.joinsNot ∧
      l.accepts + s'.main.acceptsLeft ≤ s.main.acceptsLeft ∧
      l.starts + s'.main.createsLeft ≤ s.main.createsLeft ∧
      ∀ i, l.stepsOf (.worker i) + s'.stepsLeft i ≤
          s.stepsLeft i + (l.bytesReadBy i + 12 * l.startsThread i) ∧
        l.recvsOf i + s'.recvsLeft i ≤ s.recvsLeft i + l.startsThread i := by
  cases l with
  | thread t e choice =>
    cases t with
    | main =>
      obtain ⟨hsteps, haccepts, hstarts, hworkers⟩ := h.main_cost hs
      refine ⟨by simpa [Label.stepsOf, Label.joinsNot] using hsteps, haccepts, hstarts, fun i => ?_⟩
      obtain ⟨hstepsLeft, hrecvsLeft⟩ := hworkers i
      refine ⟨?_, by simpa [Label.recvsOf] using hrecvsLeft⟩
      simpa [Label.stepsOf, Label.bytesReadBy] using hstepsLeft
    | worker j =>
      obtain ⟨hsteps, hrecvs, hmain, hothers⟩ := h.worker_cost hs
      refine ⟨by simp [Label.stepsOf, hmain], by simp [Label.accepts, hmain],
        by simp [Label.starts, hmain], fun i => ?_⟩
      by_cases hi : i = j
      · subst hi
        simpa [Label.stepsOf, Label.bytesReadBy, Label.recvsOf, Label.startsThread] using
          ⟨hsteps, hrecvs⟩
      · have hne : j ≠ i := Ne.symm hi
        simp [Label.stepsOf, Label.bytesReadBy, Label.recvsOf, Label.startsThread, hne,
          System.stepsLeft, System.recvsLeft, hothers i hi]
  | signal sig =>
    obtain ⟨-, -, rfl⟩ := System.step_signal hs.2
    simp [Label.stepsOf, Label.accepts, Label.starts, Label.recvsOf, System.stepsLeft,
      System.recvsLeft]
  | disconnect c =>
    obtain ⟨-, -, rfl⟩ := System.step_disconnect hs.2
    simp [Label.stepsOf, Label.accepts, Label.starts, Label.recvsOf, System.stepsLeft,
      System.recvsLeft]

def System.unsent (s : System σ) (i : ℕ) : ℕ := ((s.workers i).map Worker.unsent).getD 0

theorem System.stepsLeft_le (s : System σ) (i : ℕ) : s.stepsLeft i ≤ 20 + s.unsent i := by
  unfold System.stepsLeft System.unsent
  cases s.workers i with
  | none => exact Nat.zero_le _
  | some w => exact w.stepsLeft_le

theorem System.recvsLeft_le (s : System σ) (i : ℕ) : s.recvsLeft i ≤ 1 := by
  unfold System.recvsLeft
  cases s.workers i with
  | none => exact Nat.zero_le _
  | some w => exact w.recvsLeft_le

/-- Once the signal is caught: at most one more connection is accepted and one more thread started,
each thread makes at most one more `recv` and at most 20 more steps, one for each byte it has still
to send, and one for each `read` of the file and each byte this gets; one that is started now makes
12 at most, counted likewise. `main_loop` makes a number of steps that depends only on its list and
on how often it asks for a thread that has not exited. -/
theorem signal_bounds (ops : FileOps σ χ) (b : Build) (node : σ) (reserved : Fd → Bool)
    {tr₁ tr₂ : List (Label χ)} {s₁ s₂ : System σ}
    (hrun₁ : Run (System.Step ops b) (System.start node reserved) tr₁ s₁)
    (hcaught : s₁.kernel.caughtSignal = true) (hrun₂ : Run (System.Step ops b) s₁ tr₂ s₂) :
    (tr₂.map Label.accepts).sum ≤ 1 ∧ (tr₂.map Label.starts).sum ≤ 1 ∧
      (∀ i, (tr₂.map (Label.recvsOf i)).sum ≤ 1 + (tr₂.map (Label.startsThread i)).sum ∧
        (tr₂.map (Label.stepsOf (.worker i))).sum ≤ 20 + s₁.unsent i +
          (tr₂.map (Label.bytesReadBy i)).sum + 12 * (tr₂.map (Label.startsThread i)).sum) ∧
      (tr₂.map (Label.stepsOf .main)).sum ≤
        4 * s₁.main.linkedList.length + 30 + 13 * (tr₂.map Label.joinsNot).sum := by
  have hstopping : Stopping ops b node reserved s₁ := ⟨⟨tr₁, hrun₁⟩, hcaught⟩
  have hspent (V : System σ → ℕ) (cost grant : Label χ → ℕ)
      (hstep : ∀ s l s', Stopping ops b node reserved s → s.Step ops b l s' →
        cost l + V s' ≤ V s + grant l) :
      (tr₂.map cost).sum + V s₂ ≤ V s₁ + (tr₂.map grant).sum :=
    hrun₂.potential hstopping fun s l s' hi hs => ⟨hi.step hs, hstep s l s' hi hs⟩
  refine ⟨?_, ?_, fun i => ⟨?_, ?_⟩, ?_⟩
  · have hspend := hspent (fun s => s.main.acceptsLeft) Label.accepts (fun _ => 0)
      fun s l s' hi hs => (hi.cost hs).2.1
    have hone : s₁.main.acceptsLeft ≤ 1 := by
      unfold Main.acceptsLeft
      split <;> omega
    simp only [List.map_const', List.sum_replicate, smul_zero] at hspend
    omega
  · have hspend := hspent (fun s => s.main.createsLeft) Label.starts (fun _ => 0)
      fun s l s' hi hs => (hi.cost hs).2.2.1
    have hone : s₁.main.createsLeft ≤ 1 := by
      unfold Main.createsLeft
      split <;> omega
    simp only [List.map_const', List.sum_replicate, smul_zero] at hspend
    omega
  · have hspend := hspent (fun s => s.recvsLeft i) (Label.recvsOf i) (Label.startsThread i)
      fun s l s' hi hs => ((hi.cost hs).2.2.2 i).2
    have hone := s₁.recvsLeft_le i
    omega
  · have hspend := hspent (fun s => s.stepsLeft i) (Label.stepsOf (.worker i))
      (fun l => l.bytesReadBy i + 12 * l.startsThread i)
      fun s l s' hi hs => ((hi.cost hs).2.2.2 i).1
    rw [List.sum_map_add, List.sum_map_mul_left] at hspend
    have hleft := s₁.stepsLeft_le i
    omega
  · have hspend := hspent (fun s => s.main.stepsLeft) (Label.stepsOf .main)
      (fun l => 13 * l.joinsNot) fun s l s' hi hs => (hi.cost hs).1
    rw [List.sum_map_mul_left] at hspend
    have hleft := s₁.main.stepsLeft_le
    omega

end

/-- The signal of `clientsLeave` and what follows it. -/
theorem clientsLeave_bounded : ∃ s₁ s₂, Run (System.Step regularFile fileBuild)
    (System.start [] fun _ => false) (clientsLeave.take 43) s₁ ∧
      Run (System.Step regularFile fileBuild) s₁ (clientsLeave.drop 43) s₂ ∧
      ((clientsLeave.drop 43).map (Label.stepsOf .main)).sum ≤
        4 * s₁.main.linkedList.length + 30 +
          13 * ((clientsLeave.drop 43).map Label.joinsNot).sum := by
  have hfirst : ((clientsLeave.take 43).foldlM (System.step regularFile fileBuild)
      (System.start [] fun _ => false)).map (·.kernel.caughtSignal) = some true := by
    decide +kernel
  have hwhole : (clientsLeave.foldlM (System.step regularFile fileBuild)
      (System.start [] fun _ => false)).isSome := by decide +kernel
  obtain ⟨s₁, hs₁, hcaught⟩ := Option.map_eq_some_iff.mp hfirst
  obtain ⟨s₂, hs₂⟩ := Option.isSome_iff_exists.mp hwhole
  rw [← List.take_append_drop 43 clientsLeave, List.foldlM_append, hs₁, Option.bind_eq_bind,
    Option.bind_some] at hs₂
  have hrun₁ := run_of_foldlM (by decide +kernel) hs₁
  have hrun₂ := run_of_foldlM (by decide +kernel) hs₂
  have hbounds := signal_bounds regularFile fileBuild [] (fun _ => false) hrun₁ hcaught hrun₂
  exact ⟨s₁, s₂, hrun₁, hrun₂, hbounds.2.2.2⟩

section
variable {σ χ : Type} {ops : FileOps σ χ} {b : Build} {s s' : System σ} {e : Event}
  {choice : χ} {i : ℕ} {node : σ} {reserved : Fd → Bool}

def System.allLeft (s : System σ) : ℕ :=
  s.main.stepsLeft + ∑ i ∈ (s.main.linkedList.map Item.threadId).toFinset, s.stepsLeft i

theorem Main.Next.list_sublist {m m' : Main} (h : m.Next b e m') (hstarts : e.starts = false) :
    m'.linkedList.Sublist m.linkedList := by
  cases h with
  | creates => cases hstarts
  | joinCloses => exact List.erase_sublist
  | _ => exact List.Sublist.refl _

theorem Listed.mem_ids (hl : Listed s) (hi : s.workers i ≠ none) :
    i ∈ (s.main.linkedList.map Item.threadId).toFinset := by
  obtain ⟨item, hitem, rfl⟩ := (hl.threads i).mp hi
  have hmem : item ∈ s.main.linkedList := by
    unfold Main.unjoined at hitem
    split at hitem
    · exact List.mem_of_mem_erase hitem
    · exact hitem
  exact List.mem_toFinset.mpr (List.mem_map_of_mem hmem)

theorem Event.Served.grants_none {k : Kernel σ} {t : Tid} (h : e.Served k t) (choice : χ) :
    e.bytesRead = 0 ∧ e.starts = false ∧ ∀ i, (Label.thread t e choice).startsThread i = 0 := by
  cases e with
  | read fd count got =>
    obtain ⟨-, rfl⟩ := h
    cases t <;> exact ⟨rfl, rfl, fun _ => rfl⟩
  | pthreadCreate thread =>
    obtain rfl : thread = none := h
    cases t <;> exact ⟨rfl, rfl, fun _ => rfl⟩
  | _ => cases t <;> exact ⟨rfl, rfl, fun _ => rfl⟩

theorem Stopping.worker_lowers (h : Stopping ops b node reserved s)
    (he : e.Served s.kernel (.worker i)) (hs : s.Step ops b (.thread (.worker i) e choice) s') :
    s'.allLeft < s.allLeft := by
  obtain ⟨hsteps, -, hmain, hothers⟩ := h.worker_cost hs
  obtain ⟨-, w, -, -, hw, -⟩ := System.step_worker hs.2
  have hmem := h.steady.listed.mem_ids (i := i) (by simp [hw])
  rw [(he.grants_none choice).1] at hsteps
  unfold System.allLeft
  rw [hmain]
  apply Nat.add_lt_add_left
  refine Finset.sum_lt_sum (fun j _ => ?_) ⟨i, hmem, by omega⟩
  by_cases hj : j = i
  · subst hj
    omega
  · exact le_of_eq (by simp only [System.stepsLeft, hothers j hj])

theorem Stopping.main_lowers (h : Stopping ops b node reserved s)
    (he : e.Served s.kernel .main) (hjoins : e.joinsNot = false)
    (hs : s.Step ops b (.thread .main e choice) s') : s'.allLeft < s.allLeft := by
  obtain ⟨hsteps, -, -, hworkers⟩ := h.main_cost hs
  obtain ⟨-, hstarts, hnone⟩ := he.grants_none choice
  obtain ⟨-, main, kernel, workers, hnext, -, -, rfl⟩ := System.step_main hs.2
  have hids : (main.linkedList.map Item.threadId).toFinset ⊆
      (s.main.linkedList.map Item.threadId).toFinset := fun i hi => by
    rw [List.mem_toFinset] at hi ⊢
    exact ((hnext.list_sublist hstarts).map _).subset hi
  rw [hjoins, Bool.toNat_false] at hsteps
  have hsum : ∑ i ∈ (main.linkedList.map Item.threadId).toFinset,
      System.stepsLeft ⟨kernel, main, workers⟩ i ≤
      ∑ i ∈ (s.main.linkedList.map Item.threadId).toFinset, s.stepsLeft i :=
    (Finset.sum_le_sum_of_subset hids).trans
      (Finset.sum_le_sum fun i _ => by simpa [hnone i] using (hworkers i).1)
  unfold System.allLeft
  dsimp only at hsteps ⊢
  omega

theorem call_ends {k k' : Kernel σ} {t : Tid} (h : k.call ops t e choice = some k')
    (halive : k.alive = true) : k'.alive = true ∨ ∃ c, k.peerGone c = true := by
  by_cases hgone : ∃ c, k.peerGone c = true
  · exact .inr hgone
  · left
    rw [not_exists] at hgone
    by_cases hsend : ∃ fd conn data flags sent, e = .send fd conn data flags sent
    · obtain ⟨fd, conn, data, flags, sent, rfl⟩ := hsend
      simp only [Kernel.call, Kernel.send, hgone, Bool.false_eq_true, ↓reduceIte] at h
      repeat' split at h
      all_goals
        cases h
        try exact halive
    · have hother : ∀ fd conn data flags sent, e ≠ .send fd conn data flags sent :=
        fun fd conn data flags sent he => hsend ⟨fd, conn, data, flags, sent, he⟩
      exact (call_alive h hother).trans halive

theorem System.Step.tryJoin_fails
    (hs : s.Step ops b (.thread .main (.tryJoin i none) choice) s') :
    (∃ item rest, s.main.pc = .joining (item :: rest)) ∧ s.Running (.worker i) := by
  have hstep := hs.2
  simp only [System.step] at hstep
  split at hstep
  next =>
    obtain ⟨main, hmain, hstep⟩ := Option.bind_eq_some_iff.mp hstep
    obtain ⟨kernel, -, hstep⟩ := Option.bind_eq_some_iff.mp hstep
    obtain ⟨workers, hworkers, -⟩ := Option.bind_eq_some_iff.mp hstep
    constructor
    · cases Main.step_next hmain with
      | joinsNot hpc => exact ⟨_, _, hpc⟩
      | stamps hpc hstamp | stamped hpc hstamp => cases hstamp <;> contradiction
    · cases hw : s.workers i with
      | none => simp [System.threadCall, hw] at hworkers
      | some w =>
        refine ⟨w, hw, fun hexit => ?_⟩
        simp [System.threadCall, hw, hexit] at hworkers
  next => cases hstep

/-- While `main_loop` has not returned some thread makes a step that brings the end nearer: a
worker that can go on, or else the main thread, which then finds every thread exited. -/
theorem Stopping.lowers (h : Stopping ops b node reserved s) (hops : ops.MayFail)
    (halive : s.kernel.alive = true) (hpc : s.main.pc ≠ .returned) :
    ∃ t e choice s', s.Step ops b (.thread t e choice) s' ∧ s'.allLeft < s.allLeft := by
  have hsteady := h.steady
  by_cases hworker : ∃ i, s.Ready ops b (.worker i)
  · obtain ⟨i, e, choice, s', he, hs⟩ := hworker
    exact ⟨_, e, choice, s', hs, h.worker_lowers he hs⟩
  · have hholder {t : Tid} (ht : s.kernel.mutex = some t) : t = .main := by
      cases t with
      | main => rfl
      | worker i => exact absurd ⟨i, hsteady.holder_ready hops halive ht⟩ hworker
    rcases hsteady.ready_or_atLock hops halive (t := .main) hpc with
      ⟨e, choice, s', he, hs⟩ | ⟨hat, htaken⟩
    · refine ⟨_, e, choice, s', hs, h.main_lowers he (Bool.eq_false_iff.mpr fun hjoins => ?_) hs⟩
      unfold Event.joinsNot at hjoins
      split at hjoins
      next i =>
        obtain ⟨⟨item, rest, hjoining⟩, hrunning⟩ := hs.tryJoin_fails
        rcases hsteady.ready_or_atLock hops halive hrunning with hready | ⟨-, htaken⟩
        · exact hworker ⟨i, hready⟩
        · obtain ⟨t, ht⟩ := Option.ne_none_iff_exists'.mp htaken
          obtain rfl := hholder ht
          have hcritical := ((hsteady.exclusive .main).mp ht).2
          simp [System.lockPhase, Main.lockPhase, hjoining, LockPhase.critical] at hcritical
      next => cases hjoins
    · obtain ⟨t, ht⟩ := Option.ne_none_iff_exists'.mp htaken
      obtain rfl := hholder ht
      exact absurd hat (hsteady.holder ht).2

theorem Stopping.finishes (hops : ops.MayFail) (n : ℕ) {s : System σ}
    (h : Stopping ops b node reserved s) (halive : s.kernel.alive = true) (hn : s.allLeft ≤ n) :
    ∃ tr s', Run (System.Step ops b) s tr s' ∧ tr.length ≤ n ∧
      (s'.main.pc = .returned ∨ s'.kernel.alive = false ∧ ∃ c, s.kernel.peerGone c = true) := by
  induction n generalizing s with
  | zero =>
    by_cases hpc : s.main.pc = .returned
    · exact ⟨[], s, .nil, le_rfl, .inl hpc⟩
    · obtain ⟨t, e, choice, s', -, hlt⟩ := h.lowers hops halive hpc
      omega
  | succ n ih =>
    by_cases hpc : s.main.pc = .returned
    · exact ⟨[], s, .nil, Nat.zero_le _, .inl hpc⟩
    · obtain ⟨t, e, choice, s₁, hs, hlt⟩ := h.lowers hops halive hpc
      obtain ⟨-, hcall, -⟩ := System.thread_step hs.2
      cases hdead : s₁.kernel.alive with
      | false =>
        refine ⟨[_], s₁, .single hs, by simp, .inr ⟨hdead, ?_⟩⟩
        exact (call_ends hcall halive).resolve_left (by simp [hdead])
      | true =>
        obtain ⟨tr, s', hrun, hlen, hend⟩ := ih (h.step hs) hdead (by omega)
        refine ⟨_ :: tr, s', .cons hs hrun, Nat.succ_le_succ hlen, ?_⟩
        rwa [(call_stable hcall).2.2] at hend

/-- From every state of a live process that has caught its signal the process can come to its end,
in a number of steps that its list and what its threads have still to send bound: some order of the
steps, in which every `recv` finds the end of its client's stream, brings `main_loop` to its return,
or a `send` that gives `EPIPE` ends the process. -/
theorem signal_ends_process (ops : FileOps σ χ) (hops : ops.MayFail) (b : Build) (node : σ)
    (reserved : Fd → Bool) {tr₁ : List (Label χ)} {s₁ : System σ}
    (hrun₁ : Run (System.Step ops b) (System.start node reserved) tr₁ s₁)
    (hcaught : s₁.kernel.caughtSignal = true) (halive : s₁.kernel.alive = true) :
    ∃ tr₂ s₂, Run (System.Step ops b) s₁ tr₂ s₂ ∧
      tr₂.length ≤ 4 * s₁.main.linkedList.length + 30 +
        (s₁.main.linkedList.map fun item => 20 + s₁.unsent item.threadId).sum ∧
      (s₂.main.pc = .returned ∨ s₂.kernel.alive = false ∧ ∃ c, s₁.kernel.peerGone c = true) := by
  have hstopping : Stopping ops b node reserved s₁ := ⟨⟨tr₁, hrun₁⟩, hcaught⟩
  have hmain := s₁.main.stepsLeft_le
  have hworkers : ∑ i ∈ (s₁.main.linkedList.map Item.threadId).toFinset, s₁.stepsLeft i ≤
      (s₁.main.linkedList.map fun item => 20 + s₁.unsent item.threadId).sum := by
    rw [List.sum_toFinset _ hstopping.steady.listed.nodup, List.map_map]
    exact List.sum_le_sum fun item _ => s₁.stepsLeft_le item.threadId
  exact hstopping.finishes hops _ halive (Nat.add_le_add hmain hworkers)

end

/-- The signal comes while the thread of `oneEcho` has the mutex. -/
def signalDuringEcho : List (Label Unit) := oneEcho.take 22 ++ [.signal .sigint]

/-- Both builds come to their end. -/
theorem signalDuringEcho_ends : (∃ s₁ tr₂ s₂, Run (System.Step regularFile fileBuild)
    (System.start [] fun _ => false) signalDuringEcho s₁ ∧
      s₁.kernel.mutex = some (.worker 0) ∧ Run (System.Step regularFile fileBuild) s₁ tr₂ s₂ ∧
      tr₂.length ≤ 54 ∧ (s₂.main.pc = .returned ∨ s₂.kernel.alive = false)) ∧
    ∃ s₀ : Driver.System 64, ∃ s₁ tr₂ s₂, Run (System.Step (aesdChar 4096) deviceBuild)
      (System.start s₀.driver fun _ => false) (deviceEcho ++ [.signal .sigint]) s₁ ∧
      Run (System.Step (aesdChar 4096) deviceBuild) s₁ tr₂ s₂ ∧ tr₂.length ≤ 54 ∧
        (s₂.main.pc = .returned ∨ s₂.kernel.alive = false) := by
  constructor
  · have hstate : (signalDuringEcho.foldlM (System.step regularFile fileBuild)
        (System.start [] fun _ => false)).map (fun s => (s.kernel.caughtSignal, s.kernel.alive,
          s.kernel.mutex, s.main.linkedList, s.unsent 0)) =
        some (true, true, some (.worker 0), [⟨1, 0⟩], 0) := by decide +kernel
    obtain ⟨s₁, hs₁, hstate⟩ := Option.map_eq_some_iff.mp hstate
    simp only [Prod.mk.injEq] at hstate
    obtain ⟨hcaught, halive, hmutex, hlist, hunsent⟩ := hstate
    have hrun₁ := run_of_foldlM (by decide +kernel) hs₁
    obtain ⟨tr₂, s₂, hrun₂, hlen, hend⟩ := signal_ends_process regularFile regularFile_mayFail
      fileBuild [] (fun _ => false) hrun₁ hcaught halive
    refine ⟨s₁, tr₂, s₂, hrun₁, hmutex, hrun₂, ?_, hend.imp_right And.left⟩
    simpa [hlist, hunsent] using hlen
  · have hstate : (runAfter earlierLine (deviceEcho ++ [.signal .sigint])).map (fun p =>
        (p.2.kernel.caughtSignal, p.2.kernel.alive, p.2.main.linkedList, p.2.unsent 0)) =
        some (true, true, [⟨1, 0⟩], 0) := by decide +kernel
    obtain ⟨⟨s₀, s₁⟩, hs, hstate⟩ := Option.map_eq_some_iff.mp hstate
    simp only [Prod.mk.injEq] at hstate
    obtain ⟨hcaught, halive, hlist, hunsent⟩ := hstate
    obtain ⟨-, hrun₁⟩ := runAfter_spec hs
    obtain ⟨tr₂, s₂, hrun₂, hlen, hend⟩ := signal_ends_process (aesdChar 4096)
      (aesdChar_mayFail 4096) deviceBuild s₀.driver (fun _ => false) hrun₁ hcaught halive
    refine ⟨s₀, s₁, tr₂, s₂, hrun₁, hrun₂, ?_, hend.imp_right And.left⟩
    simpa [hlist, hunsent] using hlen

end Aesd.Server
