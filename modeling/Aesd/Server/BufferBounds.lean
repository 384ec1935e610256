import Aesd.Lib.Runs
import Aesd.Server.ReceiveBuffers

/-! Every run of a worker stays inside its two receive buffers, and a worker whose connection is
closed touches neither them nor the connection again. -/
namespace Aesd.Server
open Driver (Byte)
open Blocks Runs

def Event.quiet : Event → Bool
  | .loadSignal _ => true
  | .compute => true
  | .exitThread => true
  | _ => false

namespace Worker

variable {b : Build} {w w' : Worker} {e : Event} {tr : List Event}

/-- The connection is closed and the thread is on its way out. -/
def Closed (w : Worker) : Prop :=
  w.data.threadState = .closedConnection ∧ (w.pc = .loop ∨ w.pc = .dispatch ∨ w.pc = .exited)

theorem Closed.next (h : w.Closed) (hn : w.Next b e w') :
    w'.Closed ∧ w'.rb = w.rb ∧ w'.rbNew = w.rbNew ∧ e.quiet = true := by
  obtain ⟨hs, hpc⟩ := h
  have hout : ∀ pc, w.pc = pc → pc = .loop ∨ pc = .dispatch ∨ pc = .exited := by
    rintro pc rfl
    exact hpc
  cases hn with
  | loads | exits | stops => exact ⟨⟨hs, by simp [goto]⟩, rfl, rfl, rfl⟩
  | recvFails _ hs' | recvEnds _ hs' | recvs _ hs' | processes _ hs' | callsSending _ hs' =>
    cases hs.symm.trans hs'
  | starts hpc' | reallocFails hpc' | reallocs hpc' | grown hpc' | sends hpc' =>
    simpa using hout _ hpc'

theorem Closed.run (h : w.Closed) (hrun : Run (Step b) w tr w') :
    (w'.Closed ∧ w'.rb = w.rb ∧ w'.rbNew = w.rbNew) ∧ ∀ e ∈ tr, e.quiet = true := by
  apply hrun.forall_label (I := fun v => v.Closed ∧ v.rb = w.rb ∧ v.rbNew = w.rbNew)
  · exact ⟨h, rfl, rfl⟩
  · rintro v e v' ⟨hv, hrb, hnew⟩ hs
    obtain ⟨hv', hrb', hnew', hquiet⟩ := hv.next (step_next hs.2)
    exact ⟨⟨hv', hrb'.trans hrb, hnew'.trans hnew⟩, hquiet⟩

theorem run_sound {addr : ℕ} {clientFd : Fd} (hrun : Run (Step b) (create addr clientFd) tr w) :
    w.Sound := by
  apply hrun.invariant (P := fun _ w => w.Sound) (sound_create addr clientFd)
  intro _ _ _ _ _ ih hs
  exact ih.next hs.1 (step_next hs.2)

/-- One growth is always enough: the test of the loop fails after it. -/
theorem Sound.realloc_enough (h : w.Sound) {size : ℕ} {block : Option (List Byte)}
    (hn : w.Next b (.realloc size block) w') :
    w'.rb.size + w'.rbNew.size ≤ w'.rb.allocated := by
  have hroom (hpc : w.pc = .growing) :
      w.rb.size + w.rbNew.size ≤ w.rb.allocated + recvBufferGrowSize := by
    have hwaits := h.waits (.inr hpc)
    have hblock := h.allocated (by simp [hwaits])
    have hsize := h.size_le
    have hnew : w.rbNew.size ≤ recvBufferGrowSize := h.newSize
    omega
  cases hn with
  | reallocFails hpc hlt => exact hroom hpc
  | reallocs hpc hlt hlen => exact hroom hpc
  | sends hpc hsend =>
    cases hsend with
    | lock hm => unfold getFileMutex at hm; cases hm
    | unlockFails hm | unlocks hm | unlocksFailed hm => unfold releaseFileMutex at hm; cases hm

/-- A failed `realloc` leaves `allocated` larger than the block and closes the connection. -/
theorem Sound.realloc_fails (h : w.Sound) {size : ℕ} (hn : w.Next b (.realloc size none) w') :
    w'.Closed ∧ w'.rb.buffer.length < w'.rb.allocated := by
  cases hn with
  | reallocFails hpc hlt =>
    have hwaits := h.waits (.inr hpc)
    have hblock := h.allocated (by simp [hwaits])
    refine ⟨⟨rfl, .inl rfl⟩, ?_⟩
    show w.rb.buffer.length < w.rb.allocated + recvBufferGrowSize
    rw [hblock]
    exact Nat.lt_add_of_pos_right (by decide)
  | sends hpc hsend =>
    cases hsend with
    | lock hm => unfold getFileMutex at hm; cases hm
    | unlockFails hm | unlocks hm | unlocksFailed hm => unfold releaseFileMutex at hm; cases hm

end Worker

/-- In every state of a worker that processes data, `allocated` is the length of the main block
and both sizes together fit it; the copies of `process_received_data` then stay inside their
blocks and no size wraps. The growth loop ends after one round at most, and after a failed
`realloc` the buffers are not touched again. -/
theorem receive_buffers_never_overrun {b : Build} {addr : ℕ} {clientFd : Fd} {tr : List Event}
    {w : Worker} (hrun : Run (Worker.Step b) (Worker.create addr clientFd) tr w) :
    (w.data.threadState = .processingData →
      w.rb.buffer.length = w.rb.allocated ∧ w.rb.size + w.rbNew.size ≤ w.rb.allocated ∧
        w.rbNew.size ≤ recvBufferTempSize) ∧
      (w.pc = .dispatch → w.data.threadState = .processingData →
        w.rbNew.buffer.length = recvBufferTempSize ∧ ∃ state rb rbNew,
          processReceivedData w.rb w.rbNew = some (state, rb, rbNew) ∧
            rb.size + rbNew.size = w.rb.size + w.rbNew.size) ∧
      (∀ size block w', w.Step b (.realloc size block) w' →
        w'.rb.size + w'.rbNew.size ≤ w'.rb.allocated) ∧
      ∀ size w₁ rest w₂, w.Step b (.realloc size none) w₁ → Run (Worker.Step b) w₁ rest w₂ →
        w₁.rb.buffer.length < w₁.rb.allocated ∧ w₂.data.threadState = .closedConnection ∧
          w₂.rb = w₁.rb ∧ w₂.rbNew = w₁.rbNew ∧ ∀ e ∈ rest, e.quiet = true := by
  have hsound := Worker.run_sound hrun
  refine ⟨fun hs => ?_, fun hpc hs => ?_, fun size block w' hstep => ?_,
    fun size w₁ rest w₂ hstep hrest => ?_⟩
  · exact ⟨hsound.allocated (by simp [hs]), hsound.room (.inl hs), hsound.newSize⟩
  · obtain ⟨state, rb, rbNew, hproc, hspec⟩ := hsound.processes hpc hs
    exact ⟨(hsound.newBlock (by simp [hpc])).1, state, rb, rbNew, hproc, hspec.sizes⟩
  · exact hsound.realloc_enough (Worker.step_next hstep.2)
  · obtain ⟨hclosed, hshort⟩ := hsound.realloc_fails (Worker.step_next hstep.2)
    obtain ⟨⟨hclosed', hrb, hnew⟩, hquiet⟩ := hclosed.run hrest
    exact ⟨hshort, hclosed'.1, hrb, hnew, hquiet⟩

def onePacket : List Event :=
  [.mallocBuffers (List.replicate 1024 0), .loadSignal false, .recv 4 0 1024 (some [97, 10]),
    .realloc 1024 (some (List.replicate 1024 0)), .compute, .loadSignal false]

theorem onePacket_fits : ∃ w : Worker,
    Run (Worker.Step fileBuild) (Worker.create 0 4) onePacket w ∧
      ∃ state rb rbNew, processReceivedData w.rb w.rbNew = some (state, rb, rbNew) ∧
        rb.size + rbNew.size = w.rb.size + w.rbNew.size := by
  have hstate : (onePacket.foldlM (Worker.step fileBuild) (Worker.create 0 4)).map
      (fun w => (w.pc, w.data.threadState)) = some (.dispatch, .processingData) := by
    decide +kernel
  obtain ⟨w, hw, hpair⟩ := Option.map_eq_some_iff.mp hstate
  obtain ⟨hpc, hs⟩ := Prod.mk.inj hpair
  have hrun : Run (Worker.Step fileBuild) (Worker.create 0 4) onePacket w :=
    Run.of_foldlM (by decide +kernel) hw
  exact ⟨w, hrun, ((receive_buffers_never_overrun hrun).2.1 hpc hs).2⟩

end Aesd.Server
