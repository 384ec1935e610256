import Aesd.Server.BufferBounds
import Aesd.Server.LifeCycle

/-! How many steps a thread of the server has left once `caught_signal` is set: each worker makes at
most one more round, and `main_loop` only joins. -/
namespace Aesd.Server
open Driver (Byte)
open Runs

/-- The steps of `sending_data` from a place on, the sends of what has been read included. -/
def SendPc.stepsLeft : SendPc → ℕ
  | .lock => 8
  | .openFile => 7
  | .write _ => 6
  | .lseek _ => 5
  | .read _ => 4
  | .send _ rest => rest.length + 4
  | .closeOk _ => 3
  | .closeFail _ => 3
  | .unlockOk => 2
  | .unlockFail => 2
  | .ret _ => 1

/-- The steps that the function called in a state takes. -/
def ThreadState.stepsLeft : ThreadState → ℕ
  | .waitingForData => 3
  | .processingData => 1
  | .sendingData => 9
  | .closedConnection => 1

/-- The steps after a round: a last round, unless the flag has been seen already, and the exit. -/
def Worker.afterRound (w : Worker) : ℕ := if w.keepLoopingThread then 11 else 1

/-- The steps that a thread still takes when `caught_signal` is set. -/
def Worker.stepsLeft (w : Worker) : ℕ :=
  match w.pc with
  | .start => w.afterRound + 1
  | .loop => w.afterRound
  | .dispatch => w.data.threadState.stepsLeft + w.afterRound
  | .growing => (if w.rb.allocated < w.rb.size + w.rbNew.size then 2 else 1) + w.afterRound
  | .sending pc => pc.stepsLeft + w.afterRound
  | .exited => 0

def Worker.recvsLeft (w : Worker) : ℕ :=
  match w.pc with
  | .start => 1
  | .loop =>
    if w.keepLoopingThread = true ∧ w.data.threadState = .waitingForData then 1 else 0
  | .dispatch =>
    if w.data.threadState = .waitingForData ∨ w.keepLoopingThread = true then 1 else 0
  | .growing => 0
  | .sending _ => if w.keepLoopingThread then 1 else 0
  | .exited => 0

/-- The steps that a `read` makes necessary: the sends of what it returns, and the next `read`. -/
def Event.bytesRead : Event → ℕ
  | .read _ _ (some bytes) => bytes.length + 1
  | _ => 0

def Event.isRecv : Event → Bool
  | .recv _ _ _ _ => true
  | _ => false

section
variable {b : Build} {w w' : Worker} {e : Event}

theorem getFileMutex_isRecv {rc : ℤ} (h : getFileMutex b e = some rc) :
    e.isRecv = false ∧ e.bytesRead = 0 := by
  unfold getFileMutex at h
  split at h <;> first | cases h | exact ⟨rfl, rfl⟩

theorem releaseFileMutex_isRecv {rc : ℤ} (h : releaseFileMutex b e = some rc) :
    e.isRecv = false ∧ e.bytesRead = 0 := by
  unfold releaseFileMutex at h
  split at h <;> first | cases h | exact ⟨rfl, rfl⟩

theorem handler_stepsLeft_le (state : ThreadState) : state.stepsLeft ≤ 9 := by
  cases state <;> decide

@[simp] theorem Worker.afterRound_goto (pc : WorkerPc) :
    (w.goto pc).afterRound = w.afterRound := rfl

@[simp] theorem Worker.afterRound_setState (state : ThreadState) :
    (w.setState state).afterRound = w.afterRound := rfl

theorem Worker.Sends.stepsLeft {pc : SendPc} (h : w.Sends b pc e w') (he : e.Posix) :
    1 + w'.stepsLeft ≤ pc.stepsLeft + w.afterRound + e.bytesRead := by
  cases h with
  | @lock e rc hm =>
    split <;> simp only [Worker.stepsLeft, SendPc.stepsLeft, Worker.goto_pc,
      Worker.afterRound_goto] <;> omega
  | closes fd ok =>
    cases ok <;> simp only [Worker.stepsLeft, SendPc.stepsLeft, Worker.goto_pc,
      Worker.afterRound_goto, ↓reduceIte, Bool.false_eq_true] <;> omega
  | @sendsPart fd rest conn n hpart =>
    obtain ⟨hn, -⟩ : 0 < n ∧ n ≤ rest.length := he
    have hdrop : 0 < (rest.drop n).length := List.length_pos_iff.mpr hpart
    simp only [Worker.stepsLeft, SendPc.stepsLeft, Worker.goto_pc, Worker.afterRound_goto]
    rw [List.length_drop] at hdrop ⊢
    omega
  | @sendsAll fd rest conn n hall =>
    obtain ⟨hn, hle⟩ : 0 < n ∧ n ≤ rest.length := he
    simp only [Worker.stepsLeft, SendPc.stepsLeft, Worker.goto_pc, Worker.afterRound_goto]
    omega
  | reads fd hne =>
    simp only [Worker.stepsLeft, SendPc.stepsLeft, Worker.goto_pc, Worker.afterRound_goto,
      Event.bytesRead]
    omega
  | unlocks hm hrc =>
    simp only [Worker.stepsLeft, SendPc.stepsLeft, Worker.goto_pc, Worker.afterRound_goto,
      Worker.afterRound_setState]
    omega
  | returns r =>
    have hloop : (if r = -1 then w.setState .closedConnection else w).afterRound =
        w.afterRound := by
      split <;> rfl
    simp only [Worker.stepsLeft, SendPc.stepsLeft, Worker.goto_pc, Worker.afterRound_goto, hloop]
    omega
  | writes fd hok =>
    have hafter : Worker.afterRound { w with rb := { w.rb with size := 0 } } = w.afterRound := rfl
    simp only [Worker.stepsLeft, SendPc.stepsLeft, Worker.goto_pc, Worker.afterRound_goto, hafter]
    omega
  | _ =>
    simp only [Worker.stepsLeft, SendPc.stepsLeft, Worker.goto_pc, Worker.afterRound_goto]
    omega

theorem Worker.afterRound_pos (w : Worker) : 1 ≤ w.afterRound := by
  unfold Worker.afterRound
  split <;> omega

theorem Worker.stepsLeft_growing_le (hpc : w.pc = .growing) : w.stepsLeft ≤ 2 + w.afterRound := by
  simp only [Worker.stepsLeft, hpc]
  split <;> omega

/-- Each step of a thread that finds the flag set is one of those it had left, or one that a `read`
has added. -/
theorem Worker.Next.stepsLeft (hsound : w.Sound) (he : e.Posix) (h : w.Next b e w')
    (hload : ∀ v, e = .loadSignal v → v = true) :
    1 + w'.stepsLeft ≤ w.stepsLeft + e.bytesRead := by
  have hafter := w.afterRound_pos
  have henough := h
  cases h with
  | starts hpc hblock =>
    show 1 + w.afterRound ≤ _
    simp only [Worker.stepsLeft, hpc]
    omega
  | loads hpc hk v =>
    obtain rfl := hload v rfl
    have hstate := handler_stepsLeft_le w.data.threadState
    simp only [Worker.stepsLeft, hpc, Worker.afterRound, hk, Bool.not_true, Bool.false_eq_true,
      ↓reduceIte]
    omega
  | exits hpc hk =>
    simp only [Worker.stepsLeft, hpc, Worker.goto_pc]
    omega
  | recvFails hpc hs | recvEnds hpc hs =>
    simp only [Worker.stepsLeft, hpc, hs, Worker.goto_pc, Worker.afterRound_goto,
      Worker.afterRound_setState, ThreadState.stepsLeft]
    omega
  | @recvs hpc hs conn bytes buffer hne hwrite =>
    have hgrowing : Worker.stepsLeft ({ w with
        rbNew := { w.rbNew with buffer := buffer, size := bytes.length } }.goto .growing) ≤
        2 + w.afterRound := Worker.stepsLeft_growing_le rfl
    have hleft : w.stepsLeft = 3 + w.afterRound := by
      simp only [Worker.stepsLeft, hpc, hs, ThreadState.stepsLeft]
    omega
  | reallocFails hpc hlt =>
    show 1 + w.afterRound ≤ _
    simp only [Worker.stepsLeft, hpc, if_pos hlt]
    omega
  | reallocs hpc hlt hlen =>
    have hroom := hsound.realloc_enough henough
    simp only [Worker.stepsLeft, hpc, if_pos hlt, if_neg (not_lt.mpr hroom)]
    show 1 + (1 + w.afterRound) ≤ _
    omega
  | grown hpc hle =>
    simp only [Worker.stepsLeft, hpc, if_neg (not_lt.mpr hle), Worker.goto_pc,
      Worker.afterRound_goto, Worker.afterRound_setState]
    omega
  | processes hpc hs hproc =>
    show 1 + w.afterRound ≤ _
    simp only [Worker.stepsLeft, hpc, hs, ThreadState.stepsLeft]
    omega
  | callsSending hpc hs =>
    simp only [Worker.stepsLeft, hpc, hs, Worker.goto_pc, Worker.afterRound_goto,
      ThreadState.stepsLeft, SendPc.stepsLeft]
    omega
  | stops hpc hs =>
    show 1 + 1 ≤ _
    simp only [Worker.stepsLeft, hpc, hs, ThreadState.stepsLeft]
    omega
  | sends hpc hsend =>
    have hle := hsend.stepsLeft he
    simp only [Worker.stepsLeft, hpc] at hle ⊢
    exact hle

theorem Worker.recvsLeft_loop_le (hpc : w.pc = .loop) :
    w.recvsLeft ≤ if w.keepLoopingThread then 1 else 0 := by
  simp only [Worker.recvsLeft, hpc]
  split
  next hboth => rw [if_pos hboth.1]
  next => exact Nat.zero_le _

theorem Worker.Sends.recvsLeft {pc : SendPc} (h : w.Sends b pc e w') :
    e.isRecv = false ∧ w'.recvsLeft ≤ if w.keepLoopingThread then 1 else 0 := by
  cases h with
  | lock hm => exact ⟨(getFileMutex_isRecv hm).1, le_rfl⟩
  | unlockFails hm => exact ⟨(releaseFileMutex_isRecv hm).1, le_rfl⟩
  | unlocks hm hrc => exact ⟨(releaseFileMutex_isRecv hm).1, le_rfl⟩
  | unlocksFailed hm => exact ⟨(releaseFileMutex_isRecv hm).1, le_rfl⟩
  | returns r =>
    refine ⟨rfl, (Worker.recvsLeft_loop_le rfl).trans_eq ?_⟩
    split <;> rfl
  | _ => exact ⟨rfl, le_rfl⟩

theorem Worker.Next.recvsLeft (h : w.Next b e w') (hload : ∀ v, e = .loadSignal v → v = true) :
    e.isRecv.toNat + w'.recvsLeft ≤ w.recvsLeft := by
  have hloop {w' : Worker} (hpc : w'.pc = .loop) (hs : w'.data.threadState ≠ .waitingForData) :
      w'.recvsLeft = 0 := by
    simp only [Worker.recvsLeft, hpc, hs, and_false, ↓reduceIte]
  cases h with
  | starts hpc hblock =>
    simp only [Worker.recvsLeft, hpc, Event.isRecv]
    split <;> simp
  | loads hpc hk v =>
    obtain rfl := hload v rfl
    simp only [Worker.recvsLeft, hpc, hk, Event.isRecv]
    split <;> simp_all
  | exits hpc hk => simp [Worker.recvsLeft, Event.isRecv]
  | recvFails hpc hs | recvEnds hpc hs =>
    rw [hloop rfl (by simp)]
    simp [Worker.recvsLeft, hpc, hs, Event.isRecv]
  | recvs hpc hs => simp [Worker.recvsLeft, hpc, hs, Event.isRecv]
  | reallocFails hpc hlt =>
    rw [hloop rfl (by simp)]
    simp [Event.isRecv]
  | reallocs hpc hlt hlen => simp [Worker.recvsLeft, hpc, Event.isRecv]
  | grown hpc hle =>
    rw [hloop rfl (by simp)]
    simp [Event.isRecv]
  | processes hpc hs hproc =>
    have hnext : w.recvsLeft = if w.keepLoopingThread then 1 else 0 := by
      simp [Worker.recvsLeft, hpc, hs]
    rw [hnext]
    show 0 + _ ≤ _
    rw [Nat.zero_add]
    exact Worker.recvsLeft_loop_le rfl
  | callsSending hpc hs =>
    have hnext : w.recvsLeft = if w.keepLoopingThread then 1 else 0 := by
      simp [Worker.recvsLeft, hpc, hs]
    rw [hnext]
    show 0 + _ ≤ _
    exact (Nat.zero_add _).le
  | stops hpc hs => simp [Worker.recvsLeft, Event.isRecv]
  | sends hpc hsend =>
    obtain ⟨hrecv, hle⟩ := hsend.recvsLeft
    rw [hrecv, Bool.toNat_false, Nat.zero_add]
    simpa only [Worker.recvsLeft, hpc] using hle

def Worker.unsent (w : Worker) : ℕ :=
  match w.pc with
  | .sending (.send _ rest) => rest.length
  | _ => 0

theorem Worker.stepsLeft_le (w : Worker) : w.stepsLeft ≤ 20 + w.unsent := by
  have hafter : w.afterRound ≤ 11 := by
    unfold Worker.afterRound
    split <;> omega
  have hstate := handler_stepsLeft_le w.data.threadState
  unfold Worker.stepsLeft Worker.unsent
  cases w.pc with
  | growing =>
    dsimp only
    split <;> omega
  | sending pc => cases pc <;> simp only [SendPc.stepsLeft] <;> omega
  | _ =>
    dsimp only
    omega

theorem Worker.recvsLeft_le (w : Worker) : w.recvsLeft ≤ 1 := by
  unfold Worker.recvsLeft
  cases w.pc <;> dsimp only <;> (try split) <;> omega

end

def StampPc.stepsLeft : StampPc → ℕ
  | .localtime => 7
  | .lock _ => 6
  | .openFile _ => 5
  | .write _ _ => 4
  | .closeOk _ => 3
  | .closeFail _ => 3
  | .unlockOk => 2
  | .unlockFail => 2
  | .ret _ => 1

/-- From the test of `current_state` on, with `n` items in the list. -/
def State.stepsLeft (n : ℕ) : State → ℕ
  | .creatingThread => 4 * n + 21
  | _ => 4 * n + 5

/-- What another pass adds when `left` of `n` items are still to be visited in this one. -/
def nextPass (left n : ℕ) : ℕ := if left < n then 12 else 0

/-- The steps that `main_loop` still takes when `caught_signal` is set and every thread that
`join_threads` asks for has exited: one pass over the list, and another one when it is in a pass
that has left items behind. A connection that is pending still gets its thread. -/
def Main.stepsLeft (m : Main) : ℕ :=
  let n := m.linkedList.length
  match m.pc with
  | .start => 4 * n + 30
  | .loop => if m.keepLooping then m.currentState.stepsLeft n + 8 else 1
  | .stamp pc => pc.stepsLeft + m.currentState.stepsLeft n
  | .branch => m.currentState.stepsLeft n
  | .joining rest => 4 * n + 4 + nextPass rest.length n
  | .joinClose _ _ _ rest => 4 * n + 3 + nextPass (rest.length + 1) n
  | .joinFreeItem _ _ rest => 4 * n + 6 + nextPass rest.length n
  | .joinFreeData _ rest => 4 * n + 5 + nextPass rest.length n
  | .closedTest => 4 * n + 3 + nextPass 0 n
  | .acceptTest => if m.keepLooping then 4 * n + 14 else 2
  | .accept => 4 * n + 30
  | .mallocItem => 4 * n + 20
  | .mallocData _ => 4 * n + 19
  | .pthreadCreate _ _ => 4 * n + 18
  | .returned => 0

/-- A thread that is asked for too early costs another round. -/
def Event.joinsNot : Event → Bool
  | .tryJoin _ none => true
  | _ => false

/-- Whether a connection may still be accepted, and whether a thread may still be started. -/
def Main.acceptsLeft (m : Main) : ℕ := if m.pc = .accept then 1 else 0

def Main.createsLeft (m : Main) : ℕ :=
  if m.pc = .accept ∨ m.currentState = .creatingThread then 1 else 0

def Event.starts : Event → Bool
  | .pthreadCreate (some _) => true
  | _ => false

section
variable {b : Build} {m m' : Main} {e : Event}

theorem Stamps.stepsLeft {pc : StampPc} {next : Option StampPc} (h : Stamps b pc e next) :
    1 + ((next.map StampPc.stepsLeft).getD 0) ≤ pc.stepsLeft := by
  cases h with
  | lock hm => split <;> simp [StampPc.stepsLeft]
  | writes => split <;> simp [StampPc.stepsLeft]
  | closes fd ok => cases ok <;> simp [StampPc.stepsLeft]
  | _ => simp [StampPc.stepsLeft]

theorem state_stepsLeft_le (n : ℕ) (state : State) : state.stepsLeft n ≤ 4 * n + 21 := by
  cases state <;> simp [State.stepsLeft]

theorem nextPass_le (left n : ℕ) : nextPass left n ≤ 12 := by
  unfold nextPass
  split <;> omega

@[simp] theorem nextPass_self (n : ℕ) : nextPass n n = 0 := if_neg (lt_irrefl n)

/-- An item that is joined is neither in the list nor to be visited any more. -/
theorem nextPass_pred {left n : ℕ} (hn : left + 1 ≤ n) :
    nextPass left (n - 1) = nextPass (left + 1) n := by
  unfold nextPass
  congr 1
  rw [eq_iff_iff]
  omega

theorem Main.stepsLeft_loop_le (hpc : m.pc = .loop) :
    m.stepsLeft ≤ m.currentState.stepsLeft m.linkedList.length + 8 := by
  simp only [Main.stepsLeft, hpc]
  split <;> omega

theorem Main.Next.stepsLeft (h : m.Next b e m') (hcontrol : m.Control true)
    (hvisits : m.toVisit.Sublist m.linkedList) (hload : ∀ v, e = .loadSignal v → v = true) :
    1 + m'.stepsLeft ≤ m.stepsLeft + 13 * e.joinsNot.toNat := by
  have hloop (hpc : m'.pc = .loop) {n : ℕ}
      (hn : m'.currentState.stepsLeft m'.linkedList.length + 9 ≤ n) : 1 + m'.stepsLeft ≤ n := by
    have hle := Main.stepsLeft_loop_le hpc
    omega
  have hstate := hcontrol.state
  cases h with
  | starts hpc sec =>
    have hle := state_stepsLeft_le m.linkedList.length m.currentState
    refine hloop rfl ?_
    simp only [Main.stepsLeft, hpc, Main.goto_currentState, Main.goto_linkedList]
    omega
  | ticks hpc hk sec next =>
    simp only [Main.stepsLeft, hpc, hk, Main.goto_pc, Main.goto_currentState,
      Main.goto_linkedList, ↓reduceIte]
    omega
  | stampDue hpc hk hb sec =>
    simp only [Main.stepsLeft, hpc, hk, Main.goto_pc, Main.goto_currentState,
      Main.goto_linkedList, StampPc.stepsLeft, ↓reduceIte]
    omega
  | finishes hpc hk =>
    simp only [Main.stepsLeft, hpc, hk, Main.goto_pc, Bool.false_eq_true, ↓reduceIte]
    omega
  | stamps hpc hstamp =>
    have hle := hstamp.stepsLeft
    simp only [Main.stepsLeft, hpc, Main.goto_pc, Main.goto_currentState, Main.goto_linkedList]
    simp only [Option.map_some, Option.getD_some] at hle
    omega
  | stamped hpc hstamp =>
    have hle := hstamp.stepsLeft
    simp only [Main.stepsLeft, hpc, Main.goto_pc, Main.goto_currentState, Main.goto_linkedList]
    simp only [Option.map_none, Option.getD_none] at hle
    omega
  | toJoin hpc hs =>
    simp only [Main.stepsLeft, hpc, hs, Main.goto_pc, Main.goto_linkedList, State.stepsLeft,
      nextPass_self]
    omega
  | toCreate hpc hs =>
    simp only [Main.stepsLeft, hpc, hs, Main.goto_pc, Main.goto_linkedList, State.stepsLeft]
    omega
  | skips hpc hw hc => rcases hcontrol.states with hs | hs <;> contradiction
  | joinsDone hpc =>
    simp only [Main.stepsLeft, hpc, Main.goto_pc, Main.goto_linkedList, List.length_nil]
    omega
  | @joinsNot item rest hpc =>
    have hle := nextPass_le rest.length m.linkedList.length
    simp only [Main.stepsLeft, hpc, Main.goto_pc, Main.goto_linkedList, Event.joinsNot,
      Bool.toNat_true]
    omega
  | @joins item rest hpc data fd =>
    simp only [Main.stepsLeft, hpc, Main.goto_pc, Main.goto_linkedList, List.length_cons]
    omega
  | @joinCloses item data fd rest hpc ok =>
    simp only [Main.toVisit, hpc] at hvisits
    have hlen := List.length_erase_of_mem (hvisits.subset List.mem_cons_self)
    have hpos := hvisits.length_le
    rw [List.length_cons] at hpos
    simp only [Main.stepsLeft, hpc, Main.goto_pc, Main.goto_linkedList, hlen, nextPass_pred hpos]
    omega
  | freesItem hpc =>
    simp only [Main.stepsLeft, hpc, Main.goto_pc, Main.goto_linkedList]
    omega
  | freesData hpc =>
    simp only [Main.stepsLeft, hpc, Main.goto_pc, Main.goto_linkedList]
    omega
  | listEmpty hpc hl v =>
    obtain rfl := hload v rfl
    simp [Main.stepsLeft, hpc, hl]
  | listNotEmpty hpc hl =>
    have hnext : nextPass 0 m.linkedList.length = 12 := if_pos (List.length_pos_iff.mpr hl)
    have hle : (m.goto .acceptTest).stepsLeft ≤ 4 * m.linkedList.length + 14 := by
      cases hk : m.keepLooping <;> simp [Main.stepsLeft, hk]
    have hleft : m.stepsLeft = 4 * m.linkedList.length + 3 + 12 := by
      simp only [Main.stepsLeft, hpc, hnext]
    omega
  | caught hpc =>
    have hs := hstate .waiting (by simp [hpc, MainPc.state])
    simp only [Main.stepsLeft, hpc, hs, Main.goto_pc, Main.goto_linkedList, Main.goto_keepLooping,
      Main.goto_currentState, State.stepsLeft]
    cases m.keepLooping <;> simp
    omega
  | notCaught hpc => cases hload false rfl
  | acceptFails hpc =>
    have hs := hstate .waiting (by simp [hpc, MainPc.state])
    refine hloop rfl ?_
    simp only [Main.stepsLeft, hpc, hs, Main.goto_currentState, Main.goto_linkedList,
      State.stepsLeft]
    omega
  | accepts hpc fd c =>
    refine hloop rfl ?_
    simp only [Main.stepsLeft, hpc, Main.goto_currentState, Main.goto_linkedList, State.stepsLeft]
    omega
  | mallocFails hpc =>
    refine hloop rfl ?_
    rcases hpc with hpc | ⟨item, hpc⟩ <;>
    · simp only [Main.stepsLeft, hpc, Main.goto_currentState, Main.goto_linkedList,
        State.stepsLeft]
      omega
  | mallocsItem hpc item =>
    simp only [Main.stepsLeft, hpc, Main.goto_pc, Main.goto_linkedList]
    omega
  | mallocsData hpc data =>
    simp only [Main.stepsLeft, hpc, Main.goto_pc, Main.goto_linkedList]
    omega
  | createFails hpc =>
    refine hloop rfl ?_
    simp only [Main.stepsLeft, hpc, Main.goto_currentState, Main.goto_linkedList, State.stepsLeft]
    omega
  | creates hpc i =>
    refine hloop rfl ?_
    simp only [Main.stepsLeft, hpc, Main.goto_currentState, Main.goto_linkedList, State.stepsLeft,
      List.length_cons]
    omega

/-- A connection is accepted once more at most, and only where the flag was clear when `main_loop`
looked at it. -/
theorem Main.Next.acceptsLeft (h : m.Next b e m') (hload : ∀ v, e = .loadSignal v → v = true) :
    e.accepts.toNat + m'.acceptsLeft ≤ m.acceptsLeft := by
  cases h with
  | notCaught hpc => cases hload false rfl
  | acceptFails hpc => simp [Main.acceptsLeft, hpc, Event.accepts]
  | accepts hpc => simp [Main.acceptsLeft, hpc, Event.accepts]
  | stamps hpc hstamp => simp [Main.acceptsLeft, hstamp.fileStep.accepts]
  | stamped hpc hstamp => simp [Main.acceptsLeft, hstamp.fileStep.accepts]
  | _ => simp [Main.acceptsLeft, Event.accepts]

theorem starts_of_movesThread (h : e.movesThread = false) : e.starts = false := by
  unfold Event.starts
  split
  next => cases h
  next => rfl

theorem Main.Next.createsLeft (h : m.Next b e m') (hcontrol : m.Control true)
    (hload : ∀ v, e = .loadSignal v → v = true) :
    e.starts.toNat + m'.createsLeft ≤ m.createsLeft := by
  have hstate := hcontrol.state
  have hkept (hpc : m'.pc ≠ .accept) (hs : m'.currentState = m.currentState) :
      m'.createsLeft ≤ m.createsLeft := by
    unfold Main.createsLeft
    rw [hs]
    split
    next hor => rw [if_pos (.inr (hor.resolve_left hpc))]
    next => exact Nat.zero_le _
  cases h with
  | notCaught hpc => cases hload false rfl
  | creates hpc i =>
    have hs := hstate .creatingThread (by simp [hpc, MainPc.state])
    simp [Main.createsLeft, hs, Event.starts]
  | accepts hpc fd c => simp [Main.createsLeft, hpc, Event.starts]
  | mallocFails | createFails => simp [Main.createsLeft, Event.starts]
  | stamps hpc hstamp =>
    rw [starts_of_movesThread hstamp.movesThread, Bool.toNat_false, Nat.zero_add]
    exact hkept (by simp) rfl
  | stamped hpc hstamp =>
    cases hstamp
    show 0 + _ ≤ _
    rw [Nat.zero_add]
    exact hkept (by simp) rfl
  | _ =>
    show 0 + _ ≤ _
    rw [Nat.zero_add]
    exact hkept (by simp) rfl

theorem Main.stepsLeft_le (m : Main) : m.stepsLeft ≤ 4 * m.linkedList.length + 30 := by
  have hstate := state_stepsLeft_le m.linkedList.length m.currentState
  have hpass (left : ℕ) := nextPass_le left m.linkedList.length
  unfold Main.stepsLeft
  cases m.pc with
  | loop | acceptTest =>
    dsimp only
    split <;> omega
  | stamp pc => cases pc <;> simp only [StampPc.stepsLeft] <;> omega
  | joining rest | joinFreeItem _ _ rest | joinFreeData _ rest =>
    have hle := hpass rest.length
    dsimp only
    omega
  | joinClose _ _ _ rest =>
    have hle := hpass (rest.length + 1)
    dsimp only
    omega
  | closedTest =>
    have hle := hpass 0
    dsimp only
    omega
  | _ =>
    dsimp only
    omega

end

end Aesd.Server
