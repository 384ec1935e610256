import Aesd.Server.BufferBounds
import Aesd.Server.DeviceRecords
import Aesd.Server.FileEcho
import Aesd.Server.Framing
import Aesd.Server.History
import Aesd.Server.Isolation
import Aesd.Server.ThreadBlocks

/-! No thread is ever stuck, but for one that waits for `file_mutex` while another thread, which is
not stuck, holds it. -/
namespace Aesd.Server
open Driver (Byte)
open Blocks Runs

/-- A `write` and a `read` on the node may fail in any state, as when they are interrupted. -/
structure FileOps.MayFail {σ χ : Type} (ops : FileOps σ χ) : Prop where
  write : ∀ node pos data, ∃ choice r, ops.Allowed node choice data ∧
    ops.write node choice pos data none = some r
  read : ∀ node pos count, ∃ choice r, ops.read node choice pos count none = some r

theorem regularFile_mayFail : regularFile.MayFail where
  write _ _ _ := ⟨(), _, trivial, rfl⟩
  read _ _ _ := ⟨(), _, rfl⟩

/-- The driver returns at once when the lock is interrupted. -/
theorem aesdChar_mayFail (limit : ℕ) : (aesdChar limit).MayFail where
  write driver pos data := by
    let choice : DeviceChoice := ⟨⟨-4, none, 0⟩, ⟨-4, fun _ => 0⟩⟩
    refine ⟨choice, (driver, pos), ⟨by simp [choice], Nat.zero_le _⟩, ?_⟩
    rfl
  read driver pos count := by
    let choice : DeviceChoice := ⟨⟨-4, none, 0⟩, ⟨-4, fun _ => 0⟩⟩
    exact ⟨choice, (driver, (BitVec.ofNat 64 pos).toNat), rfl⟩

def Kernel.OwnFile {σ : Type} (k : Kernel σ) (t : Tid) (fd : Fd) : Prop :=
  ∃ pos, k.fds fd = some (.file t pos)

/-- A call of `t` that the kernel answers: what can fail fails, the mutex is there to be taken or
given back, a block to be freed is live, a file is the caller's own and what else the main thread
closes is a connection. A client answers a `recv` by the end of its stream; one that stays silent
lets it wait. -/
def Event.Served {σ : Type} (k : Kernel σ) (t : Tid) : Event → Prop
  | .mutexLock ok => ok = true ∧ k.mutex = none
  | .mutexUnlock ok => ok = true ∧ k.mutex = some t
  | .openFile fd => fd = none
  | .write fd _ written => k.OwnFile t fd ∧ written = none
  | .lseek fd => k.OwnFile t fd
  | .read fd _ got => k.OwnFile t fd ∧ got = none
  | .close fd ok => (k.OwnFile t fd ∨ t = .main ∧ ∃ c, k.fds fd = some (.conn c)) ∧ ok = true
  | .recv fd conn _ got => k.fds fd = some (.conn conn) ∧ got = some []
  | .send fd conn _ _ sent => k.fds fd = some (.conn conn) ∧ sent = none
  | .loadSignal caught => caught = k.caughtSignal
  | .accept got => got = none
  | .malloc addr => addr = none
  | .free addr => k.blocks addr = true
  | .pthreadCreate thread => thread = none
  | _ => True

namespace System

variable {σ χ : Type}

def Running (s : System σ) : Tid → Prop
  | .main => s.main.pc ≠ .returned
  | .worker i => ∃ w, s.workers i = some w ∧ w.pc ≠ .exited

def AtLock (b : Build) (s : System σ) : Tid → Prop
  | .main => b.disableLocking = false ∧ ∃ text, s.main.pc = .stamp (.lock text)
  | .worker i => b.disableLocking = false ∧ ∃ w, s.workers i = some w ∧ w.pc = .sending .lock

/-- The call is on the caller's own descriptors: a file that it has opened, the connection of its
client, or, for the main thread, a connection to be closed. -/
structure CallsOwn (s : System σ) (t : Tid) (e : Event) : Prop where
  file : ∀ fd, e.fileFd = some fd →
    s.kernel.OwnFile t fd ∨ t = .main ∧ ∃ c, s.kernel.fds fd = some (.conn c)
  client : ∀ fd conn, e.connCall = some (fd, conn) → ∃ i w, t = .worker i ∧
    s.workers i = some w ∧ w.data.clientFd = fd ∧ s.kernel.fds fd = some (.conn conn)

def Ready (ops : FileOps σ χ) (b : Build) (s : System σ) (t : Tid) : Prop :=
  ∃ e choice s', e.Served s.kernel t ∧ s.Step ops b (.thread t e choice) s'

end System

section
variable {σ χ : Type} {ops : FileOps σ χ} {b : Build} {s : System σ} {h : Clients}
  {k : Kernel σ} {t : Tid} {e : Event} {i : ℕ} {w : Worker}

theorem Event.Served.posix (h : e.Served k t) : e.Posix := by
  cases e with
  | write fd data written => obtain ⟨-, rfl⟩ := h; trivial
  | read fd count got => obtain ⟨-, rfl⟩ := h; trivial
  | recv fd conn count got => obtain ⟨-, rfl⟩ := h; exact Nat.zero_le _
  | send fd conn data flags sent => obtain ⟨-, rfl⟩ := h; trivial
  | _ => trivial

theorem answered_of_call [Nonempty χ] (hwrite : e.isWrite = false)
    (hcall : ∀ choice, k.call ops t e choice ≠ none) : ∃ choice k',
      (∀ fd data written, e = .write fd data written → ops.Allowed k.node choice data) ∧
        k.call ops t e choice = some k' := by
  obtain ⟨choice⟩ := ‹Nonempty χ›
  obtain ⟨k', hk'⟩ := Option.ne_none_iff_exists'.mp (hcall choice)
  refine ⟨choice, k', ?_, hk'⟩
  rintro fd data written rfl
  cases hwrite

theorem FileOps.MayFail.nonempty (hops : ops.MayFail) (k : Kernel σ) : Nonempty χ := by
  obtain ⟨choice, -⟩ := hops.read k.node 0 0
  exact ⟨choice⟩

theorem Event.Served.answered (h : e.Served k t) (hops : ops.MayFail) : ∃ choice k',
    (∀ fd data written, e = .write fd data written → ops.Allowed k.node choice data) ∧
      k.call ops t e choice = some k' := by
  have := hops.nonempty k
  cases e with
  | write fd data written =>
    obtain ⟨⟨pos, hfd⟩, rfl⟩ := h
    obtain ⟨choice, r, hallowed, hr⟩ := hops.write k.node pos data
    refine ⟨choice, { k with node := r.1 }.setFd fd (some (.file t r.2)), ?_, ?_⟩
    · rintro _ _ _ ⟨⟩
      exact hallowed
    · simp [Kernel.call, hfd, hr]
  | read fd count got =>
    obtain ⟨⟨pos, hfd⟩, rfl⟩ := h
    obtain ⟨choice, r, hr⟩ := hops.read k.node pos count
    refine ⟨choice, { k with node := r.1 }.setFd fd (some (.file t r.2)), by simp, ?_⟩
    simp [Kernel.call, hfd, hr]
  | mutexLock ok =>
    obtain ⟨rfl, hfree⟩ := h
    exact answered_of_call rfl (by simp [Kernel.call, hfree])
  | mutexUnlock ok =>
    obtain ⟨rfl, hheld⟩ := h
    exact answered_of_call rfl (by simp [Kernel.call, hheld])
  | close fd ok =>
    obtain ⟨⟨pos, hfd⟩ | ⟨-, c, hfd⟩, rfl⟩ := h
    · exact answered_of_call rfl (by simp [Kernel.call, Kernel.close, hfd])
    · exact answered_of_call rfl (by simp [Kernel.call, Kernel.close, hfd])
  | lseek fd =>
    obtain ⟨pos, hfd⟩ := h
    exact answered_of_call rfl (by simp [Kernel.call, hfd])
  | recv fd conn count got =>
    obtain ⟨hfd, -⟩ := h
    exact answered_of_call rfl (by simp [Kernel.call, hfd])
  | send fd conn data flags sent =>
    obtain ⟨hfd, rfl⟩ := h
    refine answered_of_call rfl fun choice => ?_
    simp only [Kernel.call, hfd, Kernel.send, ↓reduceIte]
    split <;> simp
  | loadSignal caught =>
    obtain rfl : caught = k.caughtSignal := h
    exact answered_of_call rfl (by simp [Kernel.call])
  | free addr =>
    have hlive : k.blocks addr = true := h
    exact answered_of_call rfl (by simp [Kernel.call, hlive])
  | openFile fd =>
    obtain rfl : fd = none := h
    exact answered_of_call rfl (by simp [Kernel.call])
  | accept got =>
    obtain rfl : got = none := h
    exact answered_of_call rfl (by simp [Kernel.call])
  | malloc addr =>
    obtain rfl : addr = none := h
    exact answered_of_call rfl (by simp [Kernel.call])
  | _ => exact answered_of_call rfl (by simp [Kernel.call])

theorem releaseFileMutex_served (hmutex : k.mutex = some t ↔ b.disableLocking = false) :
    ∃ e rc, e.Served k t ∧ releaseFileMutex b e = some rc := by
  cases hb : b.disableLocking with
  | true => exact ⟨.compute, 0, trivial, by simp [releaseFileMutex, hb]⟩
  | false => exact ⟨.mutexUnlock true, 0, ⟨rfl, hmutex.mpr hb⟩, by simp [releaseFileMutex, hb]⟩

theorem getFileMutex_served : (b.disableLocking = false ∧ k.mutex ≠ none) ∨
    ∃ e rc, e.Served k t ∧ getFileMutex b e = some rc := by
  cases hb : b.disableLocking with
  | true => exact .inr ⟨.compute, 0, trivial, by simp [getFileMutex, hb]⟩
  | false =>
    by_cases hfree : k.mutex = none
    · exact .inr ⟨.mutexLock true, 0, ⟨rfl, hfree⟩, by simp [getFileMutex, hb]⟩
    · exact .inl ⟨rfl, hfree⟩

/-- `sending_data` waits for the mutex only. -/
theorem sendingData_ready {pc : SendPc} {c : ℕ}
    (hconn : k.fds w.data.clientFd = some (.conn c))
    (hfile : ∀ fd, pc.fileFd = some fd → k.OwnFile t fd)
    (hmutex : pc.lockPhase.critical = true → (k.mutex = some t ↔ b.disableLocking = false)) :
    (b.disableLocking = false ∧ pc = .lock ∧ k.mutex ≠ none) ∨
      ∃ e w', e.Served k t ∧ w.sendingData b pc e = some w' := by
  cases pc with
  | lock =>
    rcases getFileMutex_served (b := b) (k := k) (t := t) with ⟨hb, htaken⟩ | ⟨e, rc, he, hm⟩
    · exact .inl ⟨hb, rfl, htaken⟩
    · exact .inr ⟨e, _, he, congrArg (Option.map _) hm⟩
  | openFile => exact .inr ⟨.openFile none, _, rfl, rfl⟩
  | write fd =>
    refine .inr ⟨.write fd w.rb.content none, w.goto (.sending (.closeFail fd)),
      ⟨hfile fd rfl, rfl⟩, ?_⟩
    simp [Worker.sendingData, writeToFile]
  | lseek fd => exact .inr ⟨.lseek fd, _, hfile fd rfl, if_pos rfl⟩
  | read fd =>
    exact .inr ⟨.read fd (readFromFileCount sendBufferSize) none, _, ⟨hfile fd rfl, rfl⟩,
      if_pos ⟨rfl, rfl⟩⟩
  | send fd rest =>
    exact .inr ⟨.send w.data.clientFd c rest 0 none, _, ⟨hconn, rfl⟩, if_pos ⟨rfl, rfl, rfl⟩⟩
  | closeOk fd => exact .inr ⟨.close fd true, _, ⟨.inl (hfile fd rfl), rfl⟩, if_pos rfl⟩
  | closeFail fd => exact .inr ⟨.close fd true, _, ⟨.inl (hfile fd rfl), rfl⟩, if_pos rfl⟩
  | unlockOk =>
    obtain ⟨e, rc, he, hm⟩ := releaseFileMutex_served (hmutex rfl)
    exact .inr ⟨e, _, he, congrArg (Option.map _) hm⟩
  | unlockFail =>
    obtain ⟨e, rc, he, hm⟩ := releaseFileMutex_served (hmutex rfl)
    exact .inr ⟨e, _, he, congrArg (Option.map _) hm⟩
  | ret r => exact .inr ⟨.returns r, _, trivial, if_pos rfl⟩

theorem worker_served (hsound : w.Sound) (hpc : w.pc ≠ .exited) {c : ℕ}
    (hconn : k.fds w.data.clientFd = some (.conn c))
    (hfile : ∀ fd, w.fileFd = some fd → k.OwnFile t fd)
    (hmutex : w.lockPhase.critical = true → (k.mutex = some t ↔ b.disableLocking = false)) :
    (b.disableLocking = false ∧ w.pc = .sending .lock ∧ k.mutex ≠ none) ∨
      ∃ e w', e.Served k t ∧ w.step b e = some w' := by
  cases hw : w.pc with
  | start =>
    have hlen : (List.replicate recvBufferTempSize (0 : Byte)).length = recvBufferTempSize :=
      List.length_replicate
    exact .inr ⟨.mallocBuffers _, _, trivial, by
      simp only [Worker.step, hw]; exact if_pos hlen⟩
  | loop =>
    cases hk : w.keepLoopingThread with
    | true =>
      exact .inr ⟨.loadSignal k.caughtSignal, _, rfl, by simp only [Worker.step, hw, hk]; rfl⟩
    | false => exact .inr ⟨.exitThread, _, trivial, by simp only [Worker.step, hw, hk]; rfl⟩
  | dispatch =>
    cases hs : w.data.threadState with
    | waitingForData =>
      exact .inr ⟨.recv w.data.clientFd c w.rbNew.allocated (some []), _, ⟨hconn, rfl⟩, by
        simp only [Worker.step, hw, hs, Worker.waitingForData, and_self, ↓reduceIte]; rfl⟩
    | processingData =>
      obtain ⟨state, rb, rbNew, hproc, -⟩ := hsound.processes hw hs
      exact .inr ⟨.compute, _, trivial, by
        simp only [Worker.step, hw, hs, hproc, ↓reduceIte]; rfl⟩
    | sendingData =>
      exact .inr ⟨.compute, _, trivial, by simp only [Worker.step, hw, hs]; rfl⟩
    | closedConnection =>
      exact .inr ⟨.compute, _, trivial, by simp only [Worker.step, hw, hs]; rfl⟩
  | growing =>
    by_cases hlt : w.rb.allocated < w.rb.size + w.rbNew.size
    · exact .inr ⟨.realloc (w.rb.allocated + recvBufferGrowSize) none, _, trivial, by
        simp only [Worker.step, hw, Worker.growBuffer, if_pos hlt, ↓reduceIte]; rfl⟩
    · exact .inr ⟨.compute, _, trivial, by
        simp only [Worker.step, hw, Worker.growBuffer, if_neg hlt, ↓reduceIte]; rfl⟩
  | sending pc =>
    have hphase : w.lockPhase = pc.lockPhase := by simp only [Worker.lockPhase, hw]
    have hfd : w.fileFd = pc.fileFd := by simp only [Worker.fileFd, hw]
    rcases sendingData_ready hconn (hfd ▸ hfile) (hphase ▸ hmutex) with
      ⟨hb, rfl, htaken⟩ | ⟨e, w', he, hstep⟩
    · exact .inl ⟨hb, rfl, htaken⟩
    · exact .inr ⟨e, w', he, by simp only [Worker.step, hw]; exact hstep⟩
  | exited => exact absurd hw hpc

theorem writeTimeStamp_ready {pc : StampPc}
    (hfile : ∀ fd, pc.fileFd = some fd → k.OwnFile t fd)
    (hmutex : pc.lockPhase.critical = true → (k.mutex = some t ↔ b.disableLocking = false)) :
    (b.disableLocking = false ∧ (∃ text, pc = .lock text) ∧ k.mutex ≠ none) ∨
      ∃ e next, e.Served k t ∧ e.movesThread = false ∧ writeTimeStamp b pc e = some next := by
  cases pc with
  | localtime =>
    have hformat : ∃ next, writeTimeStamp b .localtime (.localtime ⟨0, 0, 0, 0, 0, 0⟩) =
        some next := by
      simp only [writeTimeStamp]
      split <;> exact ⟨_, rfl⟩
    obtain ⟨next, hnext⟩ := hformat
    exact .inr ⟨.localtime _, next, trivial, rfl, hnext⟩
  | lock text =>
    rcases getFileMutex_served (b := b) (k := k) (t := t) with ⟨hb, htaken⟩ | ⟨e, rc, he, hm⟩
    · exact .inl ⟨hb, ⟨text, rfl⟩, htaken⟩
    · exact .inr ⟨e, _, he, getFileMutex_movesThread hm, congrArg (Option.map _) hm⟩
  | openFile text => exact .inr ⟨.openFile none, _, rfl, rfl, rfl⟩
  | write fd text =>
    exact .inr ⟨.write fd text none, _, ⟨hfile fd rfl, rfl⟩, rfl, if_pos ⟨rfl, rfl⟩⟩
  | closeOk fd => exact .inr ⟨.close fd true, _, ⟨.inl (hfile fd rfl), rfl⟩, rfl, if_pos rfl⟩
  | closeFail fd => exact .inr ⟨.close fd true, _, ⟨.inl (hfile fd rfl), rfl⟩, rfl, if_pos rfl⟩
  | unlockOk =>
    obtain ⟨e, rc, he, hm⟩ := releaseFileMutex_served (hmutex rfl)
    exact .inr ⟨e, _, he, releaseFileMutex_movesThread hm, congrArg (Option.map _) hm⟩
  | unlockFail =>
    obtain ⟨e, rc, he, hm⟩ := releaseFileMutex_served (hmutex rfl)
    exact .inr ⟨e, _, he, releaseFileMutex_movesThread hm, congrArg (Option.map _) hm⟩
  | ret r => exact .inr ⟨.returns r, _, trivial, rfl, if_pos rfl⟩

theorem Listed.tryJoin (hl : Listed s) {item : Item} {rest : List Item}
    (hpc : s.main.pc = .joining (item :: rest)) :
    ∃ joined, s.threadCall (.tryJoin item.threadId joined) ≠ none := by
  have hvisits := hl.visits
  simp only [Main.toVisit, hpc] at hvisits
  have hthread := (hl.threads item.threadId).mpr ⟨item, by
    simpa only [Main.unjoined, hpc] using hvisits.subset List.mem_cons_self, rfl⟩
  obtain ⟨w, hw⟩ := Option.ne_none_iff_exists'.mp hthread
  by_cases hexit : w.pc = .exited
  · exact ⟨some (w.data.addr, w.data.clientFd), by simp [System.threadCall, hw, hexit]⟩
  · exact ⟨none, by simp [System.threadCall, hw, hexit]⟩

theorem main_served {h : Clients} (ho : Owned s h) (hl : Listed s) (hr : Referred s)
    (hpc : s.main.pc ≠ .returned)
    (hmutex : s.main.lockPhase.critical = true →
      (s.kernel.mutex = some .main ↔ b.disableLocking = false)) :
    (b.disableLocking = false ∧ (∃ text, s.main.pc = .stamp (.lock text)) ∧
      s.kernel.mutex ≠ none) ∨
      ∃ e m, e.Served s.kernel .main ∧ s.main.step b e = some m ∧ s.threadCall e ≠ none := by
  have hquiet {e : Event} {m : Main} (he : e.Served s.kernel .main) (hmoves : e.movesThread = false)
      (hjoin : ∀ i, e ≠ .tryJoin i none) (hstep : s.main.step b e = some m) :
      ∃ e m, e.Served s.kernel .main ∧ s.main.step b e = some m ∧ s.threadCall e ≠ none :=
    ⟨e, m, he, hstep, by simp [System.threadCall_quiet hmoves hjoin]⟩
  cases hm : s.main.pc with
  | start =>
    exact .inr (hquiet (e := .clockGettime 0) trivial rfl (by simp) (by
      simp only [Main.step, hm]; rfl))
  | loop =>
    cases hk : s.main.keepLooping with
    | true =>
      have hticks : ∃ m, s.main.step b (.clockGettime 0) = some m := by
        simp only [Main.step, hm, hk, ↓reduceIte]
        split <;> exact ⟨_, rfl⟩
      obtain ⟨m, hstep⟩ := hticks
      exact .inr (hquiet (e := .clockGettime 0) trivial rfl (by simp) hstep)
    | false =>
      exact .inr (hquiet (e := .compute) trivial rfl (by simp) (by
        simp only [Main.step, hm, hk]; rfl))
  | stamp pc =>
    have hphase : s.main.lockPhase = pc.lockPhase := by simp only [Main.lockPhase, hm]
    have hfd : s.main.fileFd = pc.fileFd := by simp only [Main.fileFd, hm]
    rcases writeTimeStamp_ready (hfd ▸ ho.mainFile) (hphase ▸ hmutex) with
      ⟨hb, ⟨text, rfl⟩, htaken⟩ | ⟨e, next, he, hmoves, hstep⟩
    · exact .inl ⟨hb, ⟨text, rfl⟩, htaken⟩
    · refine .inr (hquiet he hmoves ?_ (m := _) (by
        simp only [Main.step, hm, hstep, Option.map_some]; rfl))
      rintro j rfl
      cases pc <;> simp [writeTimeStamp, getFileMutex, releaseFileMutex] at hstep
  | branch =>
    have hbranch : ∃ m, s.main.step b .compute = some m := by
      simp only [Main.step, hm, ↓reduceIte]
      split <;> exact ⟨_, rfl⟩
    obtain ⟨m, hstep⟩ := hbranch
    exact .inr (hquiet (e := .compute) trivial rfl (by simp) hstep)
  | joining rest =>
    cases rest with
    | nil =>
      exact .inr (hquiet (e := .compute) trivial rfl (by simp) (by
        simp only [Main.step, hm, Main.joinThreads]; rfl))
    | cons item rest =>
      obtain ⟨joined, hcall⟩ := hl.tryJoin hm
      have hvisit : ∃ m, s.main.step b (.tryJoin item.threadId joined) = some m := by
        simp only [Main.step, hm, Main.joinThreads, ↓reduceIte]
        split <;> exact ⟨_, rfl⟩
      obtain ⟨m, hstep⟩ := hvisit
      exact .inr ⟨.tryJoin item.threadId joined, m, trivial, hstep, hcall⟩
  | joinClose item data fd rest =>
    have hjoined : s.main.joined = some (item.threadId, fd) := by simp only [Main.joined, hm]
    obtain ⟨⟨c, -, hconn⟩, -⟩ := ho.joining _ _ hjoined
    exact .inr (hquiet (e := .close fd true) ⟨.inr ⟨rfl, c, hconn⟩, rfl⟩ rfl (by simp) (by
      simp only [Main.step, hm, Main.joinThreads, ↓reduceIte]; rfl))
  | joinFreeItem item data rest =>
    have hlive := hr.live .itemVar item.addr (by simp only [System.Refers, Main.itemVar, hm])
    exact .inr (hquiet (e := .free item.addr) hlive rfl (by simp) (by
      simp only [Main.step, hm, Main.joinThreads, ↓reduceIte]; rfl))
  | joinFreeData data rest =>
    have hlive := hr.live .dataVar data (by simp only [System.Refers, Main.dataVar, hm])
    exact .inr (hquiet (e := .free data) hlive rfl (by simp) (by
      simp only [Main.step, hm, Main.joinThreads, ↓reduceIte]; rfl))
  | closedTest =>
    by_cases hempty : s.main.linkedList = []
    · exact .inr (hquiet (e := .loadSignal s.kernel.caughtSignal) rfl rfl (by simp) (by
        simp only [Main.step, hm, hempty, ↓reduceIte]; rfl))
    · exact .inr (hquiet (e := .compute) trivial rfl (by simp) (by
        simp only [Main.step, hm, hempty, ↓reduceIte]; rfl))
  | acceptTest =>
    exact .inr (hquiet (e := .loadSignal s.kernel.caughtSignal) rfl rfl (by simp) (by
      simp only [Main.step, hm]; rfl))
  | accept =>
    exact .inr (hquiet (e := .accept none) rfl rfl (by simp) (by simp only [Main.step, hm]; rfl))
  | mallocItem =>
    exact .inr (hquiet (e := .malloc none) rfl rfl (by simp) (by
      simp only [Main.step, hm, Main.createThread]; rfl))
  | mallocData item =>
    exact .inr (hquiet (e := .malloc none) rfl rfl (by simp) (by
      simp only [Main.step, hm, Main.createThread]; rfl))
  | pthreadCreate item data =>
    exact .inr (hquiet (e := .pthreadCreate none) rfl rfl (by simp) (by
      simp only [Main.step, hm, Main.createThread]; rfl))
  | returned => exact absurd hm hpc

/-- What holds of every reachable state and keeps its threads going. -/
structure Steady (b : Build) (s : System σ) : Prop where
  owned : ∃ h, Owned s h
  listed : Listed s
  referred : Referred s
  exclusive : Exclusive b s
  sound : ∀ i w, s.workers i = some w → w.Sound

theorem Logged.sound {h : History} (hl : Logged b s h) (hw : s.workers i = some w) : w.Sound := by
  obtain ⟨c, hc, -⟩ := hl.owned.client i w hw
  obtain ⟨addr, fd, hrun⟩ := hl.runs i w c hw hc
  exact Worker.run_sound hrun

theorem run_steady {node : σ} {reserved : Fd → Bool} {tr : List (Label χ)}
    (hrun : Run (System.Step ops b) (System.start node reserved) tr s) : Steady b s where
  owned := ⟨_, run_owned hrun⟩
  listed := run_listed hrun
  referred := run_referred hrun
  exclusive := run_exclusive hrun
  sound _ _ hw := (run_logged hrun).sound hw

namespace Steady

theorem holds (hsteady : Steady b s) {p : LockPhase} (hp : s.lockPhase t = p)
    (hcritical : p.critical = true) : s.kernel.mutex = some t ↔ b.disableLocking = false := by
  have hholds := hsteady.exclusive t
  rw [hp] at hholds
  exact hholds.trans (and_iff_left hcritical)

/-- A thread that is there goes on, or is at the lock and another thread has the mutex. -/
theorem ready_or_atLock (hsteady : Steady b s) (hops : ops.MayFail) (halive : s.kernel.alive = true)
    (ht : s.Running t) : s.Ready ops b t ∨ s.AtLock b t ∧ s.kernel.mutex ≠ none := by
  cases t with
  | main =>
    obtain ⟨h, ho⟩ := hsteady.owned
    rcases main_served (b := b) ho hsteady.listed hsteady.referred ht (hsteady.holds rfl) with
      ⟨hb, hpc, htaken⟩ | ⟨e, m, he, hstep, hthreads⟩
    · exact .inr ⟨⟨hb, hpc⟩, htaken⟩
    · left
      obtain ⟨choice, k', hallowed, hcall⟩ := he.answered hops
      obtain ⟨workers, hworkers⟩ := Option.ne_none_iff_exists'.mp hthreads
      refine ⟨e, choice, ⟨k', m, workers⟩, he, ⟨he.posix, ?_⟩, ?_⟩
      · split
        · exact hallowed _ _ _ rfl
        · trivial
      · simp only [System.step, halive, hstep, hcall, hworkers, ↓reduceIte]
        rfl
  | worker i =>
    obtain ⟨w, hw, hpc⟩ := ht
    obtain ⟨h, ho⟩ := hsteady.owned
    obtain ⟨c, -, hconn⟩ := ho.client i w hw
    rcases worker_served (b := b) (hsteady.sound i w hw) hpc hconn
      (fun fd => ho.workerFile i w fd hw)
      (hsteady.holds (lockPhase_of_worker hw)) with ⟨hb, hlock, htaken⟩ | ⟨e, w', he, hstep⟩
    · exact .inr ⟨⟨hb, w, hw, hlock⟩, htaken⟩
    · left
      obtain ⟨choice, k', hallowed, hcall⟩ := he.answered hops
      refine ⟨e, choice, { s with
        kernel := k', workers := Function.update s.workers i (some w') }, he, ⟨he.posix, ?_⟩, ?_⟩
      · split
        · exact hallowed _ _ _ rfl
        · trivial
      · simp only [System.step, halive, hw, hstep, hcall, Option.bind_eq_bind, Option.bind_some,
          ↓reduceIte]

/-- Whoever has the mutex is in its critical section, so it is there and not at the lock. -/
theorem holder (hsteady : Steady b s) (ht : s.kernel.mutex = some t) :
    s.Running t ∧ ¬ s.AtLock b t := by
  have hcritical := ((hsteady.exclusive t).mp ht).2
  cases t with
  | main =>
    constructor
    · intro hpc
      simp [System.lockPhase, Main.lockPhase, hpc, LockPhase.critical] at hcritical
    · rintro ⟨-, text, hpc⟩
      simp [System.lockPhase, Main.lockPhase, hpc, StampPc.lockPhase, LockPhase.critical]
        at hcritical
  | worker i =>
    cases hw : s.workers i with
    | none => simp [System.lockPhase, hw, LockPhase.critical] at hcritical
    | some w =>
      rw [lockPhase_of_worker hw] at hcritical
      constructor
      · refine ⟨w, hw, fun hpc => ?_⟩
        simp [Worker.lockPhase, hpc, LockPhase.critical] at hcritical
      · rintro ⟨-, v, hv, hpc⟩
        cases hw.symm.trans hv
        simp [Worker.lockPhase, hpc, SendPc.lockPhase, LockPhase.critical] at hcritical

theorem callsOwn (hsteady : Steady b s) {choice : χ} {s' : System σ}
    (hs : s.Step ops b (.thread t e choice) s') : s.CallsOwn t e := by
  obtain ⟨h, ho⟩ := hsteady.owned
  refine ⟨fun fd hfd => ho.names hs.2 hfd, fun fd conn hconn => ?_⟩
  cases t with
  | main =>
    obtain ⟨-, main, kernel, workers, hnext, -⟩ := System.step_main hs.2
    cases hconn.symm.trans hnext.connCall
  | worker i =>
    obtain ⟨-, w, w', -, hw, hstep, -⟩ := System.step_worker hs.2
    obtain rfl := (Worker.step_next hstep).connCall hconn
    exact ⟨i, w, rfl, hw, rfl, (ho.connCall hconn hs).2.1⟩

theorem holder_ready (hsteady : Steady b s) (hops : ops.MayFail) (halive : s.kernel.alive = true)
    (ht : s.kernel.mutex = some t) : s.Ready ops b t := by
  obtain ⟨hrunning, hnot⟩ := hsteady.holder ht
  rcases hsteady.ready_or_atLock hops halive hrunning with hready | ⟨hat, -⟩
  · exact hready
  · exact absurd hat hnot

end Steady

/-- In every reachable state of a live process each thread that has not returned can make its next
call, once its client answers if that is `recv`, or it is at `pthread_mutex_lock` while another
thread has the mutex, is in its critical section and can make its own next call. So the threads
never wait for each other in a circle. Whatever a thread calls is on its own descriptors. -/
theorem threads_never_stuck (ops : FileOps σ χ) (hops : ops.MayFail) (b : Build) (node : σ)
    (reserved : Fd → Bool) {tr : List (Label χ)} {s : System σ}
    (hrun : Run (System.Step ops b) (System.start node reserved) tr s)
    (halive : s.kernel.alive = true) (t : Tid) (ht : s.Running t) :
    (s.Ready ops b t ∨ s.AtLock b t ∧ ∃ t' ≠ t, s.kernel.mutex = some t' ∧ s.Running t' ∧
      (s.lockPhase t').critical = true ∧ s.Ready ops b t') ∧
    ∀ e choice s', s.Step ops b (.thread t e choice) s' → s.CallsOwn t e := by
  have hsteady := run_steady hrun
  refine ⟨?_, fun e choice s' hs => hsteady.callsOwn hs⟩
  rcases hsteady.ready_or_atLock hops halive ht with hready | ⟨hat, htaken⟩
  · exact .inl hready
  · obtain ⟨t', ht'⟩ := Option.ne_none_iff_exists'.mp htaken
    obtain ⟨hrunning, hnot⟩ := hsteady.holder ht'
    have hcritical := ((hsteady.exclusive t').mp ht').2
    refine .inr ⟨hat, t', ?_, ht', hrunning, hcritical, hsteady.holder_ready hops halive ht'⟩
    rintro rfl
    exact hnot hat

end

/-- The thread of `oneEcho` has the mutex when a time stamp falls due. -/
def stampDuringEcho : List (Label Unit) :=
  oneEcho.take 22 ++
    [.clockGettime 10, .localtime ⟨2026, 2, 15, 9, 0, 10⟩].map fun e => .thread .main e ()

/-- The main thread waits for the mutex in the file build, and the thread of a client answers it in
the device build. -/
theorem stampDuringEcho_waits : (∃ s, Run (System.Step regularFile fileBuild)
    (System.start [] fun _ => false) stampDuringEcho s ∧
      s.main.pc = .stamp (.lock (timeStamp ⟨2026, 2, 15, 9, 0, 10⟩)) ∧
      (s.Ready regularFile fileBuild .main ∨ s.AtLock fileBuild .main ∧ ∃ t' ≠ Tid.main,
        s.kernel.mutex = some t' ∧ s.Running t' ∧ (s.lockPhase t').critical = true ∧
          s.Ready regularFile fileBuild t')) ∧
    ∃ s₀ : Driver.System 64, ∃ s, Run (System.Step (aesdChar 4096) deviceBuild)
      (System.start s₀.driver fun _ => false) deviceEcho s ∧
      (s.Ready (aesdChar 4096) deviceBuild (.worker 0) ∨ s.AtLock deviceBuild (.worker 0)) := by
  constructor
  · have hwaits : (stampDuringEcho.foldlM (System.step regularFile fileBuild)
        (System.start [] fun _ => false)).map (fun s => (s.main.pc, s.kernel.alive)) =
        some (.stamp (.lock (timeStamp ⟨2026, 2, 15, 9, 0, 10⟩)), true) := by decide +kernel
    obtain ⟨s, hs, hstate⟩ := Option.map_eq_some_iff.mp hwaits
    obtain ⟨hpc, halive⟩ := Prod.mk.inj hstate
    have hrun := run_of_foldlM (by decide +kernel) hs
    have hrunning : s.Running .main := by simp [System.Running, hpc]
    exact ⟨s, hrun, hpc, (threads_never_stuck regularFile regularFile_mayFail fileBuild []
      (fun _ => false) hrun halive .main hrunning).1⟩
  · have hserves : (runAfter earlierLine deviceEcho).map (fun p => (p.2.kernel.alive,
        (p.2.workers 0).map fun w => decide (w.pc = .exited))) = some (true, some false) := by
      decide +kernel
    obtain ⟨⟨s₀, s⟩, hs, hstate⟩ := Option.map_eq_some_iff.mp hserves
    obtain ⟨halive, hworker⟩ := Prod.mk.inj hstate
    obtain ⟨w, hw, hpc⟩ := Option.map_eq_some_iff.mp hworker
    obtain ⟨-, hrun⟩ := runAfter_spec hs
    have hrunning : s.Running (.worker 0) := ⟨w, hw, of_decide_eq_false hpc⟩
    exact ⟨s₀, s, hrun, (threads_never_stuck (aesdChar 4096) (aesdChar_mayFail 4096) deviceBuild
      s₀.driver (fun _ => false) hrun halive (.worker 0) hrunning).1.imp_right And.left⟩

end Aesd.Server
