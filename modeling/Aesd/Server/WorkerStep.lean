import Aesd.Server.Worker

/-! What one step of a worker can be. Every invariant of the server is derived from this list. -/
namespace Aesd.Server
open Driver (Byte)
open Blocks

/-- The steps of `sending_data` from a given place on. -/
inductive Worker.Sends (b : Build) (w : Worker) : SendPc → Event → Worker → Prop where
  | lock {e : Event} {rc : ℤ} (h : getFileMutex b e = some rc) : w.Sends b .lock e
      (w.goto (.sending (if rc = -1 then .ret (-1) else .openFile)))
  | openFails : w.Sends b .openFile (.openFile none) (w.goto (.sending .unlockFail))
  | opens (fd : Fd) : w.Sends b .openFile (.openFile (some fd)) (w.goto (.sending (.write fd)))
  | writeFails (fd : Fd) {written : Option ℕ} (h : writeToFile w.rb.size written = -1) :
      w.Sends b (.write fd) (.write fd w.rb.content written) (w.goto (.sending (.closeFail fd)))
  | writes (fd : Fd) {written : Option ℕ} (h : writeToFile w.rb.size written ≠ -1) :
      w.Sends b (.write fd) (.write fd w.rb.content written)
        ({ w with rb := { w.rb with size := 0 } }.goto (.sending (.lseek fd)))
  | seeks (fd : Fd) : w.Sends b (.lseek fd) (.lseek fd) (w.goto (.sending (.read fd)))
  | readFails (fd : Fd) : w.Sends b (.read fd)
      (.read fd (readFromFileCount sendBufferSize) none) (w.goto (.sending (.closeFail fd)))
  | readsEnd (fd : Fd) : w.Sends b (.read fd)
      (.read fd (readFromFileCount sendBufferSize) (some [])) (w.goto (.sending (.closeOk fd)))
  | reads (fd : Fd) {bytes : List Byte} (h : bytes ≠ []) : w.Sends b (.read fd)
      (.read fd (readFromFileCount sendBufferSize) (some bytes))
      (w.goto (.sending (.send fd bytes)))
  | sendFails (fd : Fd) (rest : List Byte) (conn : ℕ) : w.Sends b (.send fd rest)
      (.send w.data.clientFd conn rest 0 none) (w.goto (.sending (.closeFail fd)))
  | sendsAll (fd : Fd) (rest : List Byte) (conn : ℕ) {n : ℕ} (h : rest.drop n = []) :
      w.Sends b (.send fd rest) (.send w.data.clientFd conn rest 0 (some n))
        (w.goto (.sending (.read fd)))
  | sendsPart (fd : Fd) (rest : List Byte) (conn : ℕ) {n : ℕ} (h : rest.drop n ≠ []) :
      w.Sends b (.send fd rest) (.send w.data.clientFd conn rest 0 (some n))
        (w.goto (.sending (.send fd (rest.drop n))))
  | closes (fd : Fd) (ok : Bool) : w.Sends b (.closeOk fd) (.close fd ok)
      (w.goto (.sending (if ok then .unlockOk else .unlockFail)))
  | unlockFails {e : Event} (h : releaseFileMutex b e = some (-1)) :
      w.Sends b .unlockOk e (w.goto (.sending (.ret (-1))))
  | unlocks {e : Event} {rc : ℤ} (h : releaseFileMutex b e = some rc) (hrc : rc ≠ -1) :
      w.Sends b .unlockOk e
        ((w.setState (if 0 < w.rbNew.size then .processingData else .waitingForData)).goto
          (.sending (.ret 0)))
  | closesFailed (fd : Fd) (ok : Bool) : w.Sends b (.closeFail fd) (.close fd ok)
      (w.goto (.sending .unlockFail))
  | unlocksFailed {e : Event} {rc : ℤ} (h : releaseFileMutex b e = some rc) :
      w.Sends b .unlockFail e (w.goto (.sending (.ret (-1))))
  | returns (r : ℤ) : w.Sends b (.ret r) (.returns r)
      ((if r = -1 then w.setState .closedConnection else w).goto .loop)

/-- The steps of `main_loop_thread`. -/
inductive Worker.Next (b : Build) (w : Worker) : Event → Worker → Prop where
  | starts (hpc : w.pc = .start) {block : List Byte} (h : block.length = recvBufferTempSize) :
      w.Next b (.mallocBuffers block)
        { w with rb := ⟨[], 0, 0⟩, rbNew := ⟨block, 0, recvBufferTempSize⟩, pc := .loop }
  | loads (hpc : w.pc = .loop) (hk : w.keepLoopingThread = true) (caught : Bool) :
      w.Next b (.loadSignal caught) { w with keepLoopingThread := !caught, pc := .dispatch }
  | exits (hpc : w.pc = .loop) (hk : w.keepLoopingThread = false) :
      w.Next b .exitThread (w.goto .exited)
  | recvFails (hpc : w.pc = .dispatch) (hs : w.data.threadState = .waitingForData) (conn : ℕ) :
      w.Next b (.recv w.data.clientFd conn w.rbNew.allocated none)
        ((w.setState .closedConnection).goto .loop)
  | recvEnds (hpc : w.pc = .dispatch) (hs : w.data.threadState = .waitingForData) (conn : ℕ) :
      w.Next b (.recv w.data.clientFd conn w.rbNew.allocated (some []))
        ((w.setState .closedConnection).goto .loop)
  | recvs (hpc : w.pc = .dispatch) (hs : w.data.threadState = .waitingForData) (conn : ℕ)
      {bytes buffer : List Byte} (hne : bytes ≠ [])
      (h : writeBlock w.rbNew.buffer 0 bytes = some buffer) :
      w.Next b (.recv w.data.clientFd conn w.rbNew.allocated (some bytes))
        ({ w with rbNew := { w.rbNew with buffer := buffer, size := bytes.length } }.goto .growing)
  | reallocFails (hpc : w.pc = .growing) (h : w.rb.allocated < w.rb.size + w.rbNew.size) :
      w.Next b (.realloc (w.rb.allocated + recvBufferGrowSize) none)
        (({ w with rb := { w.rb with allocated := w.rb.allocated + recvBufferGrowSize } }.setState
          .closedConnection).goto .loop)
  | reallocs (hpc : w.pc = .growing) (h : w.rb.allocated < w.rb.size + w.rbNew.size)
      {added : List Byte}
      (hlen : w.rb.buffer.length + added.length = w.rb.allocated + recvBufferGrowSize) :
      w.Next b (.realloc (w.rb.allocated + recvBufferGrowSize) (some added))
        { w with rb :=
          ⟨w.rb.buffer ++ added, w.rb.size, w.rb.allocated + recvBufferGrowSize⟩ }
  | grown (hpc : w.pc = .growing) (h : w.rb.size + w.rbNew.size ≤ w.rb.allocated) :
      w.Next b .compute ((w.setState .processingData).goto .loop)
  | processes (hpc : w.pc = .dispatch) (hs : w.data.threadState = .processingData)
      {state : ThreadState} {rb rbNew : BufferData}
      (h : processReceivedData w.rb w.rbNew = some (state, rb, rbNew)) :
      w.Next b .compute (({ w with rb := rb, rbNew := rbNew }.setState state).goto .loop)
  | callsSending (hpc : w.pc = .dispatch) (hs : w.data.threadState = .sendingData) :
      w.Next b .compute (w.goto (.sending .lock))
  | stops (hpc : w.pc = .dispatch) (hs : w.data.threadState = .closedConnection) :
      w.Next b .compute ({ w with keepLoopingThread := false }.goto .loop)
  | sends {pc : SendPc} {e : Event} {w' : Worker} (hpc : w.pc = .sending pc)
      (h : w.Sends b pc e w') : w.Next b e w'

namespace Worker

variable {b : Build} {w w' : Worker} {e : Event}

theorem waitingForData_next (hpc : w.pc = .dispatch) (hs : w.data.threadState = .waitingForData)
    (h : w.waitingForData e = some w') : w.Next b e w' := by
  unfold waitingForData at h
  split at h
  next fd conn count got =>
    split at h
    next hargs =>
      obtain ⟨rfl, rfl⟩ := hargs
      split at h
      · cases h
        exact .recvFails hpc hs conn
      · cases h
        exact .recvEnds hpc hs conn
      next bytes hne =>
        obtain ⟨buffer, hwrite, h⟩ := Option.bind_eq_some_iff.mp h
        cases h
        exact .recvs hpc hs conn hne hwrite
    next => cases h
  next => cases h

theorem growBuffer_next (hpc : w.pc = .growing) (h : w.growBuffer e = some w') :
    w.Next b e w' := by
  unfold growBuffer at h
  split at h
  next hlt =>
    split at h
    next size block =>
      dsimp only at h
      split at h
      next hsize =>
        subst hsize
        split at h
        · cases h
          exact .reallocFails hpc hlt
        · split at h
          next hlen =>
            cases h
            exact .reallocs hpc hlt hlen
          next => cases h
      next => cases h
    next => cases h
  next hle =>
    split at h
    next he =>
      cases h
      subst he
      exact .grown hpc (not_lt.mp hle)
    next => cases h

theorem sendingData_sends {pc : SendPc} (h : w.sendingData b pc e = some w') :
    w.Sends b pc e w' := by
  unfold sendingData at h
  split at h
  next =>
    obtain ⟨rc, hm, rfl⟩ := Option.map_eq_some_iff.mp h
    exact .lock hm
  next =>
    split at h <;> cases h
    · exact .openFails
    · exact .opens _
  next =>
    split at h
    next hargs =>
      obtain ⟨rfl, rfl⟩ := hargs
      split at h <;> cases h
      next hfail => exact .writeFails _ hfail
      next hok => exact .writes _ hok
    next => cases h
  next =>
    split at h
    next hargs =>
      subst hargs
      cases h
      exact .seeks _
    next => cases h
  next =>
    split at h
    next hargs =>
      obtain ⟨rfl, rfl⟩ := hargs
      split at h <;> cases h
      · exact .readFails _
      · exact .readsEnd _
      next hne => exact .reads _ hne
    next => cases h
  next =>
    split at h
    next hargs =>
      obtain ⟨rfl, rfl, rfl⟩ := hargs
      split at h
      · cases h
        exact .sendFails ..
      · split at h <;> cases h
        next hall => exact .sendsAll _ _ _ hall
        next hpart => exact .sendsPart _ _ _ hpart
    next => cases h
  next =>
    split at h
    next hargs =>
      subst hargs
      cases h
      exact .closes ..
    next => cases h
  next =>
    obtain ⟨rc, hm, rfl⟩ := Option.map_eq_some_iff.mp h
    split
    next hrc => exact .unlockFails (hrc ▸ hm)
    next hrc => exact .unlocks hm hrc
  next =>
    split at h
    next hargs =>
      subst hargs
      cases h
      exact .closesFailed ..
    next => cases h
  next =>
    obtain ⟨rc, hm, rfl⟩ := Option.map_eq_some_iff.mp h
    exact .unlocksFailed hm
  next =>
    split at h
    next hargs =>
      subst hargs
      cases h
      exact .returns _
    next => cases h
  next => cases h

theorem step_next (h : w.step b e = some w') : w.Next b e w' := by
  unfold step at h
  split at h
  next hpc =>
    split at h
    next =>
      split at h
      next hlen =>
        cases h
        exact .starts hpc hlen
      next => cases h
    next => cases h
  next hpc =>
    split at h
    next =>
      split at h
      next hk =>
        cases h
        exact .loads hpc hk _
      next => cases h
    next =>
      split at h
      next => cases h
      next hk =>
        cases h
        exact .exits hpc (Bool.eq_false_iff.mpr hk)
    next => cases h
  next hpc =>
    split at h
    next hs => exact waitingForData_next hpc hs h
    next hs =>
      split at h
      next he =>
        obtain ⟨⟨state, rb, rbNew⟩, hp, h⟩ := Option.bind_eq_some_iff.mp h
        cases h
        subst he
        exact .processes hpc hs hp
      next => cases h
    next hs =>
      split at h
      next he =>
        cases h
        subst he
        exact .callsSending hpc hs
      next => cases h
    next hs =>
      split at h
      next he =>
        cases h
        subst he
        exact .stops hpc hs
      next => cases h
  next hpc => exact growBuffer_next hpc h
  next hpc => exact .sends hpc (sendingData_sends h)
  next => cases h

/-- A `write` is handed the main buffer, and one that does not take all of it ends the call. -/
theorem Next.write {fd : Fd} {data : List Byte} {written : Option ℕ}
    (h : w.Next b (.write fd data written) w') :
    w.pc = .sending (.write fd) ∧ data = w.rb.content ∧
      (written ≠ some w.rb.size → w'.pc = .sending (.closeFail fd)) := by
  cases h with
  | sends hpc hsend =>
    cases hsend with
    | writeFails => exact ⟨hpc, rfl, fun _ => rfl⟩
    | writes fd hok => exact ⟨hpc, rfl, fun hfails => absurd (writeToFile_eq hok) hfails⟩
    | lock hm => unfold getFileMutex at hm; cases hm
    | unlockFails hm | unlocks hm | unlocksFailed hm => unfold releaseFileMutex at hm; cases hm

end Worker

end Aesd.Server
