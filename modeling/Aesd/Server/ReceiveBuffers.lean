import Aesd.Lib.Records
import Aesd.Server.WorkerStep

/-! The two receive buffers of a worker: how `process_received_data` moves bytes between them,
and that the thread never leaves their blocks. -/
namespace Aesd.Server
open Driver (Byte)
open Blocks Records

theorem BufferData.append_spec {b : BufferData} (xs : List Byte)
    (h : b.size + xs.length ≤ b.buffer.length) : ∃ b', b.append xs = some b' ∧
      b'.content = b.content ++ xs ∧ b'.size = b.size + xs.length ∧
      b'.buffer.length = b.buffer.length ∧ b'.allocated = b.allocated := by
  refine ⟨⟨splice b.buffer b.size xs, b.size + xs.length, b.allocated⟩, ?_, ?_, rfl,
    splice_length h, rfl⟩
  · rw [append, writeBlock_eq h, Option.map_some]
  · exact splice_take (by omega)

theorem BufferData.content_length {b : BufferData} (h : b.size ≤ b.buffer.length) :
    b.content.length = b.size := by
  unfold content
  rw [List.length_take, Nat.min_eq_left h]

theorem BufferData.content_of_size_zero {b : BufferData} (h : b.size = 0) : b.content = [] := by
  unfold content
  rw [h, List.take_zero]

theorem isRecord_take_findIdx? {s : List Byte} {i : ℕ}
    (h : s.findIdx? (· = packetEnding) = some i) :
    i < s.length ∧ ∀ front : List Byte, packetEnding ∉ front →
      IsRecord packetEnding (front ++ s.take (i + 1)) := by
  obtain ⟨hi, hp, hbefore⟩ := List.findIdx?_eq_some_iff_getElem.mp h
  refine ⟨hi, fun front hfront => ⟨front ++ s.take i, ?_, ?_⟩⟩
  · intro hmem
    rcases List.mem_append.mp hmem with hmem | hmem
    · exact hfront hmem
    · obtain ⟨j, hj, heq⟩ := List.getElem_of_mem hmem
      rw [List.length_take] at hj
      rw [List.getElem_take] at heq
      exact hbefore j (by omega) (by simpa using heq)
  · have hlast : s[i] = packetEnding := by simpa using hp
    rw [List.take_succ_eq_append_getElem hi, hlast, List.append_assoc]

/-- What `process_received_data` makes of both buffers: every byte is kept. When no ending was
left in the main buffer, it then holds a complete packet, or everything without an ending. -/
structure Processed (rb rbNew : BufferData) (state : ThreadState) (rb' rbNew' : BufferData) :
    Prop where
  content : rb'.content ++ rbNew'.content = rb.content ++ rbNew.content
  sizes : rb'.size + rbNew'.size = rb.size + rbNew.size
  shrinks : rbNew'.size ≤ rbNew.size
  mainBlock : rb'.buffer.length = rb.buffer.length ∧ rb'.allocated = rb.allocated
  newBlock : rbNew'.buffer.length = rbNew.buffer.length ∧ rbNew'.allocated = rbNew.allocated
  next : state = .sendingData ∧ (packetEnding ∉ rb.content → IsRecord packetEnding rb'.content) ∨
    state = .waitingForData ∧ (packetEnding ∉ rb.content → packetEnding ∉ rb'.content) ∧
      rbNew'.size = 0

/-- `process_received_data` stays inside both blocks. -/
theorem processReceivedData_spec {rb rbNew : BufferData}
    (hroom : rb.size + rbNew.size ≤ rb.buffer.length)
    (hnew : rbNew.size ≤ rbNew.buffer.length) : ∃ state rb' rbNew',
      processReceivedData rb rbNew = some (state, rb', rbNew') ∧
        Processed rb rbNew state rb' rbNew' := by
  have hlen := BufferData.content_length hnew
  unfold processReceivedData
  cases hidx : rbNew.content.findIdx? (· = packetEnding) with
  | some index =>
    obtain ⟨hi, hrec⟩ := isRecord_take_findIdx? hidx
    have htake : (rbNew.buffer.drop 0).take (index + 1) = rbNew.content.take (index + 1) := by
      rw [List.drop_zero, BufferData.content, List.take_take, Nat.min_eq_left (by omega)]
    have htakelen : (rbNew.content.take (index + 1)).length = index + 1 := by
      rw [List.length_take]
      omega
    obtain ⟨rb', happ, hcontent, hsize, hblock, halloc⟩ :=
      BufferData.append_spec (b := rb) (rbNew.content.take (index + 1)) (by omega)
    set rest := (rbNew.buffer.drop (index + 1)).take (rbNew.size - (index + 1)) with hrest
    have hrestlen : rest.length = rbNew.size - (index + 1) := by
      rw [hrest, List.length_take, List.length_drop]
      omega
    have hrest' : rest = rbNew.content.drop (index + 1) := by
      rw [hrest, BufferData.content, List.drop_take]
    have hfit : 0 + rest.length ≤ rbNew.buffer.length := by omega
    refine ⟨.sendingData, rb', ⟨splice rbNew.buffer 0 rest, rbNew.size - (index + 1),
      rbNew.allocated⟩, ?_, ?_, ?_, Nat.sub_le _ _, ⟨hblock, halloc⟩, ⟨splice_length hfit, rfl⟩,
      .inl ⟨rfl, ?_⟩⟩
    · simp only [readBlock_eq (show 0 + (index + 1) ≤ rbNew.buffer.length by omega), htake, happ,
        readBlock_eq (show index + 1 + (rbNew.size - (index + 1)) ≤ rbNew.buffer.length by omega),
        ← hrest, writeBlock_eq hfit, Option.bind_eq_bind, Option.bind_some]
    · have hsplice : BufferData.content ⟨splice rbNew.buffer 0 rest, rbNew.size - (index + 1),
          rbNew.allocated⟩ = rest := by
        rw [BufferData.content, ← hrestlen, splice_zero, List.take_left]
      rw [hcontent, hsplice, hrest', List.append_assoc, List.take_append_drop]
    · dsimp only
      omega
    · intro hno
      rw [hcontent]
      exact hrec _ hno
  | none =>
    have htake : (rbNew.buffer.drop 0).take rbNew.size = rbNew.content := by
      rw [List.drop_zero, BufferData.content]
    obtain ⟨rb', happ, hcontent, hsize, hblock, halloc⟩ :=
      BufferData.append_spec (b := rb) rbNew.content (by omega)
    have hnone : packetEnding ∉ rbNew.content := by
      intro hmem
      simpa using List.findIdx?_eq_none_iff.mp hidx _ hmem
    refine ⟨.waitingForData, rb', ⟨rbNew.buffer, 0, rbNew.allocated⟩, ?_, ?_, ?_, Nat.zero_le _,
      ⟨hblock, halloc⟩, ⟨rfl, rfl⟩, .inr ⟨rfl, ?_, rfl⟩⟩
    · simp only [readBlock_eq (show 0 + rbNew.size ≤ rbNew.buffer.length by omega), htake, happ,
        Option.bind_eq_bind, Option.bind_some]
    · have hempty : BufferData.content ⟨rbNew.buffer, 0, rbNew.allocated⟩ = [] :=
        BufferData.content_of_size_zero rfl
      rw [hcontent, hempty, List.append_nil]
    · dsimp only
      omega
    · intro hno
      rw [hcontent, List.mem_append, not_or]
      exact ⟨hno, hnone⟩

theorem content_of_writeBlock {block bytes buffer : List Byte}
    (h : writeBlock block 0 bytes = some buffer) (allocated : ℕ) :
    BufferData.content ⟨buffer, bytes.length, allocated⟩ = bytes := by
  unfold writeBlock at h
  split at h
  · obtain rfl := Option.some.inj h
    rw [BufferData.content, splice_zero, List.take_left]
  · cases h

/-- Both blocks are as large as their owner takes them to be, and the bytes to be processed fit
into the main one. -/
structure Worker.Sound (w : Worker) : Prop where
  size_le : w.rb.size ≤ w.rb.buffer.length
  allocated : w.data.threadState ≠ .closedConnection → w.rb.buffer.length = w.rb.allocated
  newBlock : w.pc ≠ .start →
    w.rbNew.buffer.length = recvBufferTempSize ∧ w.rbNew.allocated = recvBufferTempSize
  newSize : w.rbNew.size ≤ recvBufferTempSize
  room : w.data.threadState = .processingData ∨ w.data.threadState = .sendingData →
    w.rb.size + w.rbNew.size ≤ w.rb.allocated
  waits : w.pc = .start ∨ w.pc = .growing → w.data.threadState = .waitingForData
  sends : ∀ pc, w.pc = .sending pc → w.data.threadState = .sendingData ∨ ∃ r, pc = .ret r
  rets : ∀ r, w.pc = .sending (.ret r) → r ≠ -1 →
    w.data.threadState = .waitingForData ∨ w.data.threadState = .processingData
  idle : w.data.threadState = .waitingForData → w.pc ≠ .growing → w.rbNew.size = 0
  fresh : w.pc = .start → w.rb.size = 0

namespace Worker

variable {b : Build} {w w' : Worker} {e : Event}

@[simp] theorem goto_rb (pc : WorkerPc) : (w.goto pc).rb = w.rb := rfl
@[simp] theorem goto_rbNew (pc : WorkerPc) : (w.goto pc).rbNew = w.rbNew := rfl
@[simp] theorem goto_data (pc : WorkerPc) : (w.goto pc).data = w.data := rfl
@[simp] theorem goto_keepLoopingThread (pc : WorkerPc) :
    (w.goto pc).keepLoopingThread = w.keepLoopingThread := rfl
@[simp] theorem goto_pc (pc : WorkerPc) : (w.goto pc).pc = pc := rfl
@[simp] theorem setState_rb (t : ThreadState) : (w.setState t).rb = w.rb := rfl
@[simp] theorem setState_rbNew (t : ThreadState) : (w.setState t).rbNew = w.rbNew := rfl
@[simp] theorem setState_threadState (t : ThreadState) :
    (w.setState t).data.threadState = t := rfl
@[simp] theorem setState_clientFd (t : ThreadState) :
    (w.setState t).data.clientFd = w.data.clientFd := rfl
@[simp] theorem setState_addr (t : ThreadState) : (w.setState t).data.addr = w.data.addr := rfl
@[simp] theorem setState_keepLoopingThread (t : ThreadState) :
    (w.setState t).keepLoopingThread = w.keepLoopingThread := rfl
@[simp] theorem setState_pc (t : ThreadState) : (w.setState t).pc = w.pc := rfl

theorem sound_create (addr : ℕ) (clientFd : Fd) : (create addr clientFd).Sound := by
  constructor <;> simp [create]

theorem Sound.close (h : w.Sound) (hpc : w.pc ≠ .start) :
    ((w.setState .closedConnection).goto .loop).Sound where
  size_le := h.size_le
  allocated := by simp
  newBlock := fun _ => h.newBlock hpc
  newSize := h.newSize
  room := by simp
  waits := by simp
  sends := by simp
  rets := by simp
  idle := by simp
  fresh := by simp

theorem Sound.goto_sending (h : w.Sound) {pc : SendPc} (hpc : w.pc = .sending pc)
    (hs : w.data.threadState = .sendingData) {pc' : SendPc} (hret : ∀ r, pc' = .ret r → r = -1) :
    (w.goto (.sending pc')).Sound where
  size_le := h.size_le
  allocated := h.allocated
  newBlock := fun _ => h.newBlock (by simp [hpc])
  newSize := h.newSize
  room := h.room
  waits := by simp
  sends := fun _ _ => .inl hs
  rets := fun r hr hne => absurd (hret r (by simpa using hr)) hne
  idle := fun hw => by simp [hs] at hw
  fresh := by simp

theorem Sound.sends_step (h : w.Sound) {pc : SendPc} (hpc : w.pc = .sending pc)
    (hn : w.Sends b pc e w') : w'.Sound := by
  have hstart : w.pc ≠ .start := by simp [hpc]
  have hsending (hne : ∀ r, pc ≠ .ret r) : w.data.threadState = .sendingData := by
    rcases h.sends pc hpc with hs | ⟨r, hr⟩
    · exact hs
    · exact absurd hr (hne r)
  cases hn with
  | writes fd hok =>
    have hs := hsending (by simp)
    have hroom := h.room (.inr hs)
    refine ⟨Nat.zero_le _, h.allocated, fun _ => h.newBlock hstart, h.newSize, fun _ => ?_,
      by simp, fun _ _ => .inl hs, by simp, fun hw => ?_, by simp⟩
    · simp only [goto_rb, goto_rbNew]
      omega
    · simp [hs] at hw
  | unlocks hm hrc =>
    have hs := hsending (by simp)
    refine ⟨h.size_le, fun _ => h.allocated (by simp [hs]), fun _ => h.newBlock hstart, h.newSize,
      fun _ => h.room (.inr hs), by simp, fun pc hp => .inr ⟨0, ?_⟩, fun r hr _ => ?_,
      fun hw _ => ?_, by simp⟩
    · simpa using hp.symm
    · by_cases hsize : 0 < w.rbNew.size
      · exact .inr (by simp [hsize])
      · exact .inl (by simp [hsize])
    · simpa using hw
  | returns r =>
    split
    · exact h.close hstart
    · next hr =>
      exact ⟨h.size_le, h.allocated, fun _ => h.newBlock hstart, h.newSize, h.room, by simp,
        by simp, by simp, fun hw _ => h.idle hw (by simp [hpc]), by simp⟩
  | @lock e rc hm =>
    refine h.goto_sending hpc (hsending (by simp)) fun r hr => ?_
    split at hr <;> simp at hr
    exact hr.symm
  | unlockFails hm => exact h.goto_sending hpc (hsending (by simp)) (by simp)
  | unlocksFailed hm => exact h.goto_sending hpc (hsending (by simp)) (by simp)
  | closes fd ok =>
    refine h.goto_sending hpc (hsending (by simp)) fun r hr => ?_
    split at hr <;> simp at hr
  | _ => exact h.goto_sending hpc (hsending (by simp)) (by simp)

theorem Sound.processes (h : w.Sound) (hpc : w.pc = .dispatch)
    (hs : w.data.threadState = .processingData) : ∃ state rb' rbNew',
      processReceivedData w.rb w.rbNew = some (state, rb', rbNew') ∧
        Processed w.rb w.rbNew state rb' rbNew' := by
  have hblock := (h.newBlock (by simp [hpc])).1
  have hfull := h.allocated (by simp [hs])
  exact processReceivedData_spec ((h.room (.inl hs)).trans_eq hfull.symm)
    (h.newSize.trans_eq hblock.symm)

theorem Sound.processed (h : w.Sound) (hpc : w.pc = .dispatch)
    (hs : w.data.threadState = .processingData) {state : ThreadState} {rb rbNew : BufferData}
    (hproc : processReceivedData w.rb w.rbNew = some (state, rb, rbNew)) :
    Processed w.rb w.rbNew state rb rbNew := by
  obtain ⟨_, _, _, hproc', hspec⟩ := h.processes hpc hs
  cases hproc'.symm.trans hproc
  exact hspec

theorem Sound.next (h : w.Sound) (he : e.Posix) (hn : w.Next b e w') : w'.Sound := by
  cases hn with
  | starts hpc hlen =>
    have hw := h.waits (.inl hpc)
    exact ⟨Nat.zero_le _, fun _ => rfl, fun _ => ⟨hlen, rfl⟩, Nat.zero_le _, by simp [hw],
      by simp, by simp, by simp, fun _ _ => rfl, by simp⟩
  | loads hpc hk caught =>
    exact ⟨h.size_le, h.allocated, fun _ => h.newBlock (by simp [hpc]), h.newSize, h.room,
      by simp, by simp, by simp, fun hw _ => h.idle hw (by simp [hpc]), by simp⟩
  | exits hpc hk =>
    exact ⟨h.size_le, h.allocated, fun _ => h.newBlock (by simp [hpc]), h.newSize, h.room,
      by simp, by simp, by simp, fun hw _ => h.idle hw (by simp [hpc]), by simp⟩
  | recvFails hpc hs conn => exact h.close (by simp [hpc])
  | recvEnds hpc hs conn => exact h.close (by simp [hpc])
  | recvs hpc hs conn hne hwrite =>
    obtain ⟨hblock, halloc⟩ := h.newBlock (by simp [hpc])
    have hlen := he
    simp only [Event.Posix, halloc] at hlen
    rw [writeBlock_eq (by omega)] at hwrite
    obtain rfl := Option.some.inj hwrite
    refine ⟨h.size_le, h.allocated, fun _ => ⟨?_, halloc⟩, hlen, by simp [hs], fun _ => hs,
      by simp, by simp, by simp, by simp⟩
    exact (splice_length (by omega)).trans hblock
  | reallocFails hpc hlt =>
    have hclose := h.close (by simp [hpc])
    exact ⟨hclose.size_le, by simp, hclose.newBlock, hclose.newSize, by simp, by simp, by simp,
      by simp, by simp, by simp⟩
  | reallocs hpc hlt hlen =>
    have hw := h.waits (.inr hpc)
    refine ⟨?_, fun _ => ?_, fun _ => h.newBlock (by simp [hpc]), h.newSize, by simp [hw],
      fun _ => hw, by simp [hpc], by simp [hpc], fun _ hne => absurd hpc hne, by simp [hpc]⟩
    · simp only [List.length_append]
      exact Nat.le_add_right_of_le h.size_le
    · simpa using hlen
  | grown hpc hfit =>
    have hw := h.waits (.inr hpc)
    exact ⟨h.size_le, fun _ => h.allocated (by simp [hw]), fun _ => h.newBlock (by simp [hpc]),
      h.newSize, fun _ => hfit, by simp, by simp, by simp, by simp, by simp⟩
  | @processes hpc hs state rb rbNew hproc =>
    obtain ⟨hblock, halloc⟩ := h.newBlock (by simp [hpc])
    have hfull := h.allocated (by simp [hs])
    have hroom := h.room (.inl hs)
    obtain ⟨-, hsum, hle, ⟨hrb, hrba⟩, ⟨hrn, hrna⟩, hcase⟩ := h.processed hpc hs hproc
    refine ⟨?_, fun _ => ?_, fun _ => ⟨?_, ?_⟩, hle.trans h.newSize, fun _ => ?_, by simp,
      by simp, by simp, fun hw _ => ?_, by simp⟩
    · simp only [goto_rb, setState_rb]
      omega
    · simpa [hrb, hrba] using hfull
    · exact hrn.trans hblock
    · exact hrna.trans halloc
    · simp only [goto_rb, setState_rb, goto_rbNew, setState_rbNew]
      omega
    · rcases hcase with ⟨rfl, -⟩ | ⟨rfl, -, hzero⟩
      · simp at hw
      · exact hzero
  | callsSending hpc hs =>
    exact ⟨h.size_le, h.allocated, fun _ => h.newBlock (by simp [hpc]), h.newSize, h.room,
      by simp, fun _ _ => .inl hs, by simp, fun hw => by simp [hs] at hw, by simp⟩
  | stops hpc hs =>
    exact ⟨h.size_le, h.allocated, fun _ => h.newBlock (by simp [hpc]), h.newSize, h.room,
      by simp, by simp, by simp, fun hw => by simp [hs] at hw, by simp⟩
  | sends hpc hsend => exact h.sends_step hpc hsend

end Worker

end Aesd.Server
