import Aesd.Server.Descriptors

/-! `file_mutex`: a thread holds it exactly while it is between its lock and its unlock. -/
namespace Aesd.Server
open Driver (Byte)
open Runs

/-- Where a thread is with respect to `file_mutex`: outside its critical section, inside before
its `write`, or inside with no `write` to come. -/
inductive LockPhase where
  | outside
  | unwritten
  | written
  deriving DecidableEq

def LockPhase.critical : LockPhase → Bool
  | .outside => false
  | _ => true

def SendPc.lockPhase : SendPc → LockPhase
  | .lock => .outside
  | .ret _ => .outside
  | .openFile => .unwritten
  | .write _ => .unwritten
  | _ => .written

def StampPc.lockPhase : StampPc → LockPhase
  | .localtime => .outside
  | .lock _ => .outside
  | .ret _ => .outside
  | .openFile _ => .unwritten
  | .write _ _ => .unwritten
  | _ => .written

def Worker.lockPhase (w : Worker) : LockPhase :=
  match w.pc with
  | .sending pc => pc.lockPhase
  | _ => .outside

def Main.lockPhase (m : Main) : LockPhase :=
  match m.pc with
  | .stamp pc => pc.lockPhase
  | _ => .outside

def Event.usesMutex : Event → Bool
  | .mutexLock _ => true
  | .mutexUnlock _ => true
  | _ => false

def Event.isWrite : Event → Bool
  | .write _ _ _ => true
  | _ => false

/-- A call of a thread, with its phase before and after. -/
inductive LockStep (b : Build) : LockPhase → Event → LockPhase → Prop where
  | enters {e : Event} (h : getFileMutex b e = some 0) : LockStep b .outside e .unwritten
  | refused {e : Event} (h : getFileMutex b e = some (-1)) : LockStep b .outside e .outside
  | leaves {e : Event} {rc : ℤ} (h : releaseFileMutex b e = some rc) :
      LockStep b .written e .outside
  | writes (fd : Fd) (data : List Byte) (written : Option ℕ) :
      LockStep b .unwritten (.write fd data written) .written
  | gives : LockStep b .unwritten (.openFile none) .written
  | keeps (p : LockPhase) {e : Event} (h : e.usesMutex = false) (hw : e.isWrite = false) :
      LockStep b p e p

section
variable {b : Build} {e : Event} {rc : ℤ}

theorem getFileMutex_cases (h : getFileMutex b e = some rc) :
    (b.disableLocking = true ∧ e = .compute ∧ rc = 0) ∨
      (b.disableLocking = false ∧ ∃ ok, e = .mutexLock ok ∧ rc = if ok then 0 else -1) := by
  unfold getFileMutex at h
  split at h
  next ok =>
    split at h <;> cases h
    next hb => exact .inr ⟨Bool.eq_false_iff.mpr hb, ok, rfl, rfl⟩
  next =>
    split at h <;> cases h
    next hb => exact .inl ⟨hb, rfl, rfl⟩
  next => cases h

theorem releaseFileMutex_cases (h : releaseFileMutex b e = some rc) :
    (b.disableLocking = true ∧ e = .compute ∧ rc = 0) ∨
      (b.disableLocking = false ∧ ∃ ok, e = .mutexUnlock ok ∧ rc = if ok then 0 else -1) := by
  unfold releaseFileMutex at h
  split at h
  next ok =>
    split at h <;> cases h
    next hb => exact .inr ⟨Bool.eq_false_iff.mpr hb, ok, rfl, rfl⟩
  next =>
    split at h <;> cases h
    next hb => exact .inl ⟨hb, rfl, rfl⟩
  next => cases h

/-- `get_file_mutex` returns 0 or -1, so the comparison with -1 decides. -/
theorem LockStep.of_getFileMutex {p : LockPhase} (h : getFileMutex b e = some rc)
    (hp : p = if rc = -1 then .outside else .unwritten) : LockStep b .outside e p := by
  rcases getFileMutex_cases h with ⟨-, -, rfl⟩ | ⟨-, ok, -, rfl⟩
  · exact hp ▸ .enters h
  · cases ok
    · exact hp ▸ .refused h
    · exact hp ▸ .enters h

theorem Worker.Sends.lockStep {w w' : Worker} {pc : SendPc} (h : w.Sends b pc e w') :
    LockStep b pc.lockPhase e w'.lockPhase := by
  cases h with
  | @lock e rc hm =>
    apply LockStep.of_getFileMutex hm
    unfold Worker.lockPhase
    by_cases hrc : rc = -1 <;> simp [Worker.goto, hrc, SendPc.lockPhase]
  | openFails => exact .gives
  | opens fd => exact .keeps .unwritten rfl rfl
  | writeFails | writes => exact .writes ..
  | unlockFails hm | unlocks hm | unlocksFailed hm => exact .leaves hm
  | closes fd ok => cases ok <;> exact .keeps .written rfl rfl
  | returns r => split <;> exact .keeps .outside rfl rfl
  | seeks | readFails | readsEnd | reads | sendFails | sendsAll | sendsPart | closesFailed =>
    exact .keeps .written rfl rfl

theorem Worker.Next.lockStep {w w' : Worker} (h : w.Next b e w') :
    LockStep b w.lockPhase e w'.lockPhase := by
  cases h with
  | sends hpc hsend =>
    have hstep := hsend.lockStep
    simp only [Worker.lockPhase, hpc]
    exact hstep
  | reallocs hpc =>
    simp only [Worker.lockPhase, hpc]
    exact .keeps .outside rfl rfl
  | starts hpc | loads hpc | exits hpc | recvFails hpc | recvEnds hpc | recvs hpc
  | reallocFails hpc | grown hpc | processes hpc | callsSending hpc | stops hpc =>
    have hphase : w.lockPhase = .outside := by simp only [Worker.lockPhase, hpc]
    rw [hphase]
    exact .keeps .outside rfl rfl

theorem Stamps.lockStep {pc : StampPc} {next : Option StampPc} (h : Stamps b pc e next) :
    LockStep b pc.lockPhase e ((next.map StampPc.lockPhase).getD .outside) := by
  cases h with
  | @lock text e rc hm =>
    apply LockStep.of_getFileMutex hm
    by_cases hrc : rc = -1 <;> simp [hrc, StampPc.lockPhase]
  | unlocks hm | unlocksFailed hm => exact .leaves hm
  | openFails => exact .gives
  | opens => exact .keeps .unwritten rfl rfl
  | writes fd text written => split <;> exact .writes ..
  | closes fd ok => cases ok <;> exact .keeps .written rfl rfl
  | closesFailed => exact .keeps .written rfl rfl
  | formatFails | formats | returns => exact .keeps .outside rfl rfl

theorem Main.Next.lockStep {m m' : Main} (h : m.Next b e m') :
    LockStep b m.lockPhase e m'.lockPhase := by
  cases h with
  | stamps hpc hstamp =>
    have hstep := hstamp.lockStep
    simp only [Main.lockPhase, hpc]
    exact hstep
  | stamped hpc hstamp =>
    have hstep := hstamp.lockStep
    simp only [Main.lockPhase, hpc]
    exact hstep
  | mallocFails hpc =>
    have hphase : m.lockPhase = .outside := by
      rcases hpc with hpc | ⟨item, hpc⟩ <;> simp only [Main.lockPhase, hpc]
    rw [hphase]
    exact .keeps .outside rfl rfl
  | starts hpc | ticks hpc | stampDue hpc | finishes hpc | toJoin hpc | toCreate hpc | skips hpc
  | joinsDone hpc | joinsNot hpc | joins hpc | joinCloses hpc | freesItem hpc | freesData hpc
  | listEmpty hpc | listNotEmpty hpc | caught hpc | notCaught hpc | acceptFails hpc | accepts hpc
  | mallocsItem hpc | mallocsData hpc | createFails hpc | creates hpc =>
    have hphase : m.lockPhase = .outside := by simp only [Main.lockPhase, hpc]
    rw [hphase]
    exact .keeps .outside rfl rfl

end

section
variable {σ χ : Type} {ops : FileOps σ χ} {b : Build} {k k' : Kernel σ} {s s' : System σ}
  {t : Tid} {e : Event} {choice : χ}

theorem call_mutexLock (h : k.call ops t (.mutexLock true) choice = some k') :
    k.mutex = none ∧ k' = { k with mutex := some t } := by
  simp only [Kernel.call, if_true] at h
  split at h
  next hfree => exact ⟨hfree, (Option.some.inj h).symm⟩
  next => cases h

theorem call_mutexUnlock {ok : Bool} (h : k.call ops t (.mutexUnlock ok) choice = some k') :
    ok = true ∧ k.mutex = some t ∧ k' = { k with mutex := none } := by
  simp only [Kernel.call] at h
  split at h
  next hheld => exact ⟨hheld.1, hheld.2, (Option.some.inj h).symm⟩
  next => cases h

theorem call_mutex (h : k.call ops t e choice = some k') (he : e.usesMutex = false) :
    k'.mutex = k.mutex := by
  unfold Kernel.call Kernel.close at h
  split at h
  next => cases he
  next => cases he
  all_goals repeat' split at h
  all_goals first
    | cases h <;> rfl
    | exact (send_fds h).2.2.2.1
    | obtain ⟨r, -, rfl⟩ := Option.map_eq_some_iff.mp h; rfl

/-- `t` holds the mutex exactly when its build locks and it is in the critical section. -/
def Holds (b : Build) (k : Kernel σ) (t : Tid) (p : LockPhase) : Prop :=
  k.mutex = some t ↔ b.disableLocking = false ∧ p.critical = true

theorem LockStep.holds {p p' : LockPhase} (h : LockStep b p e p')
    (hcall : k.call ops t e choice = some k') (hheld : Holds b k t p) :
    Holds b k' t p' ∧ ∀ t' ≠ t, k'.mutex = some t' ↔ k.mutex = some t' := by
  unfold Holds at hheld ⊢
  have hsame (he : e.usesMutex = false) (hp : p'.critical = p.critical) :
      (k'.mutex = some t ↔ b.disableLocking = false ∧ p'.critical = true) ∧
        ∀ t' ≠ t, k'.mutex = some t' ↔ k.mutex = some t' := by
    rw [call_mutex hcall he, hp]
    exact ⟨hheld, fun _ _ => Iff.rfl⟩
  cases h with
  | enters hm =>
    rcases getFileMutex_cases hm with ⟨hb, rfl, -⟩ | ⟨hb, ok, rfl, hok⟩
    · rw [call_mutex hcall rfl]
      simpa [hb] using hheld
    · cases ok with
      | false => cases hok
      | true =>
        obtain ⟨hfree, rfl⟩ := call_mutexLock hcall
        exact ⟨by simp [hb, LockPhase.critical], fun t' ht => by simp [hfree, ht.symm]⟩
  | refused hm =>
    rcases getFileMutex_cases hm with ⟨-, -, hrc⟩ | ⟨hb, ok, rfl, hok⟩
    · cases hrc
    · cases ok with
      | false =>
        cases hcall
        exact ⟨hheld, fun _ _ => Iff.rfl⟩
      | true => cases hok
  | leaves hm =>
    rcases releaseFileMutex_cases hm with ⟨hb, rfl, -⟩ | ⟨hb, ok, rfl, -⟩
    · rw [call_mutex hcall rfl]
      simpa [hb] using hheld
    · obtain ⟨-, hmine, rfl⟩ := call_mutexUnlock hcall
      exact ⟨by simp [LockPhase.critical], fun t' ht => by simp [hmine, ht.symm]⟩
  | writes fd data written => exact hsame rfl rfl
  | gives => exact hsame rfl rfl
  | keeps p he hw => exact hsame he rfl

/-- A thread that is not there is outside. -/
def System.lockPhase (s : System σ) : Tid → LockPhase
  | .main => s.main.lockPhase
  | .worker i => ((s.workers i).map Worker.lockPhase).getD .outside

theorem lockPhase_of_worker {i : ℕ} {w : Worker} (hw : s.workers i = some w) :
    s.lockPhase (.worker i) = w.lockPhase := by
  simp only [System.lockPhase, hw, Option.map_some, Option.getD_some]

theorem ThreadEffect.lockPhase {workers : ℕ → Option Worker} (h : ThreadEffect s e workers)
    (i : ℕ) : ((workers i).map Worker.lockPhase).getD .outside = s.lockPhase (.worker i) := by
  cases h with
  | @starts j item data fd hpc hfd hfree =>
    by_cases hi : i = j
    · subst hi
      simp [System.lockPhase, hfree, Worker.create, Worker.lockPhase]
    · rw [Function.update_of_ne hi]
      rfl
  | @joins j w hw hpc =>
    by_cases hi : i = j
    · subst hi
      simp [System.lockPhase, hw, Worker.lockPhase, hpc]
    · rw [Function.update_of_ne hi]
      rfl
  | quiet => rfl

/-- A step of `t` is a step of its lock phase, and no other phase moves. -/
theorem System.thread_step (hs : s.step ops b (.thread t e choice) = some s') :
    LockStep b (s.lockPhase t) e (s'.lockPhase t) ∧
      s.kernel.call ops t e choice = some s'.kernel ∧
      ∀ t' ≠ t, s'.lockPhase t' = s.lockPhase t' := by
  cases t with
  | main =>
    obtain ⟨-, main, kernel, workers, hnext, hcall, hthreads, rfl⟩ := System.step_main hs
    refine ⟨hnext.lockStep, hcall, fun t' ht' => ?_⟩
    cases t' with
    | main => exact absurd rfl ht'
    | worker j => exact hthreads.lockPhase j
  | worker i =>
    obtain ⟨-, w, w', kernel, hw, hstep, hcall, rfl⟩ := System.step_worker hs
    refine ⟨?_, hcall, fun t' ht' => ?_⟩
    · rw [lockPhase_of_worker hw, lockPhase_of_worker (Function.update_self ..)]
      exact (Worker.step_next hstep).lockStep
    · cases t' with
      | main => rfl
      | worker j =>
        have hj : j ≠ i := by
          rintro rfl
          exact ht' rfl
        simp only [System.lockPhase, Function.update_of_ne hj]

/-- The holder is the one thread in the critical section. -/
def Exclusive (b : Build) (s : System σ) : Prop := ∀ t, Holds b s.kernel t (s.lockPhase t)

theorem exclusive_start (node : σ) (reserved : Fd → Bool) :
    Exclusive b (System.start node reserved) := by
  intro t
  cases t <;> simp [System.start, Holds, System.lockPhase, Main.lockPhase, Main.init,
    LockPhase.critical]

theorem Exclusive.step (hx : Exclusive b s) {l : Label χ} (hs : s.Step ops b l s') :
    Exclusive b s' := by
  obtain ⟨-, hs⟩ := hs
  intro t'
  cases l with
  | thread t e choice =>
    obtain ⟨hlock, hcall, hother⟩ := System.thread_step hs
    obtain ⟨hmine, hothers⟩ := hlock.holds hcall (hx t)
    by_cases ht : t' = t
    · subst ht
      exact hmine
    · unfold Holds
      rw [hothers t' ht, hother t' ht]
      exact hx t'
  | signal sig =>
    obtain ⟨-, -, rfl⟩ := System.step_signal hs
    unfold Holds
    rw [(deliver_fds s.kernel sig).2.2.2.1]
    exact hx t'
  | disconnect c =>
    obtain ⟨-, -, rfl⟩ := System.step_disconnect hs
    exact hx t'

theorem run_exclusive {node : σ} {reserved : Fd → Bool} {tr : List (Label χ)}
    (hrun : Run (System.Step ops b) (System.start node reserved) tr s) : Exclusive b s :=
  hrun.invariant (P := fun _ s => Exclusive b s) (exclusive_start node reserved)
    fun _ _ _ _ _ hx hs => hx.step hs

end

end Aesd.Server
