import Aesd.Lib.Runs
import Aesd.Server.ReceiveBuffers

/-! Packet framing: however the stream arrives, a worker hands its lines to `write_to_file`. -/
namespace Aesd.Server
open Driver (Byte)
open Blocks Records Runs

def Event.recvResult : Event → Option (Option (List Byte))
  | .recv _ _ _ got => some got
  | _ => none

/-- The `(buffer, size)` handed to `write_to_file`, which passes it on to `write`. -/
def Event.payload : Event → Option (List Byte)
  | .write _ data _ => some data
  | _ => none

def recvResults (tr : List Event) : List (Option (List Byte)) := tr.filterMap Event.recvResult

def received (tr : List Event) : List Byte := (recvResults tr).flatMap (·.getD [])

def payloads (tr : List Event) : List (List Byte) := tr.filterMap Event.payload

/-- No failed `recv` or `realloc`, no failed `sending_data` and no signal seen. -/
def Event.Succeeds : Event → Prop
  | .recv _ _ _ none => False
  | .realloc _ none => False
  | .loadSignal true => False
  | .returns r => r ≠ -1
  | _ => True

instance (e : Event) : Decidable e.Succeeds := by
  unfold Event.Succeeds
  split <;> infer_instance

def Event.isRound : Event → Bool
  | .loadSignal _ => true
  | .realloc _ _ => true
  | _ => false

def rounds (tr : List Event) : ℕ := tr.countP Event.isRound

section
variable {tr : List Event} {e : Event}

theorem recvResults_snoc : recvResults (tr ++ [e]) = recvResults tr ++ e.recvResult.toList := by
  rw [recvResults, List.filterMap_append]
  cases h : e.recvResult <;> simp [recvResults, h]

theorem received_snoc :
    received (tr ++ [e]) = received tr ++ (e.recvResult.bind id).getD [] := by
  rw [received, recvResults_snoc, List.flatMap_append]
  cases h : e.recvResult with
  | none => simp [received]
  | some got => cases got <;> simp [received]

theorem payloads_snoc : payloads (tr ++ [e]) = payloads tr ++ e.payload.toList := by
  rw [payloads, List.filterMap_append]
  cases h : e.payload <;> simp [payloads, h]

theorem rounds_snoc : rounds (tr ++ [e]) = rounds tr + e.isRound.toNat := by
  rw [rounds, List.countP_append]
  cases h : e.isRound <;> simp [rounds, h]

end

/-- What the main buffer holds: a packet that is still growing, one that is complete and not
handed over yet, or nothing that matters any more. -/
inductive Phase where
  | gathering
  | ready
  | stopped
  deriving DecidableEq

def SendPc.phase : SendPc → Phase
  | .lock => .ready
  | .openFile => .ready
  | .write _ => .ready
  | .closeFail _ => .stopped
  | .unlockFail => .stopped
  | .ret r => if r = -1 then .stopped else .gathering
  | _ => .gathering

def ThreadState.phase : ThreadState → Phase
  | .waitingForData => .gathering
  | .processingData => .gathering
  | .sendingData => .ready
  | .closedConnection => .stopped

def Worker.phase (w : Worker) : Phase :=
  match w.pc with
  | .sending pc => pc.phase
  | .exited => .stopped
  | _ => w.data.threadState.phase

/-- The stream received is the payloads handed over, all of them records, then the bytes held. -/
structure Framed (succeeded : Prop) (w : Worker) (results : List (Option (List Byte)))
    (stream : List Byte) (handed : List (List Byte)) : Prop where
  sound : w.Sound
  records : ∀ p ∈ handed, IsRecord packetEnding p
  taken : handed.flatten <+: stream
  gathering : w.phase = .gathering → packetEnding ∉ w.rb.content ∧
    stream = handed.flatten ++ (w.rb.content ++ w.rbNew.content)
  ready : w.phase = .ready → IsRecord packetEnding w.rb.content ∧
    stream = handed.flatten ++ (w.rb.content ++ w.rbNew.content)
  ended : succeeded → w.data.threadState = .closedConnection → some [] ∈ results ∧
    ∃ rest, packetEnding ∉ rest ∧ stream = handed.flatten ++ rest

section
variable {b : Build} {w w' : Worker} {e : Event} {succeeded : Prop}
  {results : List (Option (List Byte))} {stream : List Byte} {handed : List (List Byte)}

theorem framed_create (addr : ℕ) (clientFd : Fd) :
    Framed True (Worker.create addr clientFd) [] [] [] where
  sound := Worker.sound_create addr clientFd
  records := by simp
  taken := List.prefix_rfl
  gathering := by simp [Worker.create, BufferData.content]
  ready := by simp [Worker.create, Worker.phase, ThreadState.phase]
  ended := by simp [Worker.create]

theorem Framed.keep (h : Framed succeeded w results stream handed) (hsound : w'.Sound)
    (hrb : w'.rb.content = w.rb.content) (hnew : w'.rbNew.content = w.rbNew.content)
    (hphase : w'.phase = w.phase ∨ w'.phase = .stopped) (he : e.recvResult = none)
    (hp : e.payload = none)
    (hclosed : e.Succeeds → w'.data.threadState = .closedConnection →
      w.data.threadState = .closedConnection) :
    Framed (succeeded ∧ e.Succeeds) w' (results ++ e.recvResult.toList)
      (stream ++ (e.recvResult.bind id).getD []) (handed ++ e.payload.toList) := by
  simp only [he, hp, Option.toList_none, Option.bind_none, Option.getD_none, List.append_nil]
  refine ⟨hsound, h.records, h.taken, fun hg => ?_, fun hr => ?_, fun hs hc => ?_⟩
  · rw [hrb, hnew]
    rcases hphase with hphase | hphase
    · exact h.gathering (hphase ▸ hg)
    · simp [hg] at hphase
  · rw [hrb, hnew]
    rcases hphase with hphase | hphase
    · exact h.ready (hphase ▸ hr)
    · simp [hr] at hphase
  · exact h.ended hs.1 (hclosed hs.2 hc)

theorem getFileMutex_silent {rc : ℤ} (h : getFileMutex b e = some rc) :
    e.recvResult = none ∧ e.payload = none := by
  unfold getFileMutex at h
  split at h <;> first | cases h | exact ⟨rfl, rfl⟩

theorem releaseFileMutex_silent {rc : ℤ} (h : releaseFileMutex b e = some rc) :
    e.recvResult = none ∧ e.payload = none := by
  unfold releaseFileMutex at h
  split at h <;> first | cases h | exact ⟨rfl, rfl⟩

theorem Framed.handedOver (h : Framed succeeded w results stream handed)
    (hphase : w.phase = .ready) :
    (∀ p ∈ handed ++ [w.rb.content], IsRecord packetEnding p) ∧
      stream = (handed ++ [w.rb.content]).flatten ++ w.rbNew.content := by
  obtain ⟨hrec, hstream⟩ := h.ready hphase
  refine ⟨fun p hp => ?_, ?_⟩
  · rcases List.mem_append.mp hp with hp | hp
    · exact h.records p hp
    · exact List.mem_singleton.mp hp ▸ hrec
  · rw [hstream, List.flatten_append, List.flatten_singleton, List.append_assoc]

/-- The steps of `sending_data`: the packet is handed over at its `write`. -/
theorem Framed.sends (h : Framed succeeded w results stream handed) {pc : SendPc}
    (hpc : w.pc = .sending pc) (hn : w.Sends b pc e w') :
    Framed (succeeded ∧ e.Succeeds) w' (results ++ e.recvResult.toList)
      (stream ++ (e.recvResult.bind id).getD []) (handed ++ e.payload.toList) := by
  have hsound := h.sound.sends_step hpc hn
  have hphase : w.phase = pc.phase := by simp only [Worker.phase, hpc]
  have hgoto {pc' : SendPc} (hw : w' = w.goto (.sending pc'))
      (hp : pc'.phase = pc.phase ∨ pc'.phase = .stopped)
      (he : e.recvResult = none ∧ e.payload = none) :
      Framed (succeeded ∧ e.Succeeds) w' (results ++ e.recvResult.toList)
        (stream ++ (e.recvResult.bind id).getD []) (handed ++ e.payload.toList) := by
    subst hw
    exact h.keep hsound rfl rfl (hphase ▸ hp) he.1 he.2 fun _ hc => hc
  cases hn with
  | @lock e rc hm =>
    refine hgoto rfl ?_ (getFileMutex_silent hm)
    split
    · exact .inr rfl
    · exact .inl rfl
  | openFails => exact hgoto rfl (.inr rfl) ⟨rfl, rfl⟩
  | opens fd => exact hgoto rfl (.inl rfl) ⟨rfl, rfl⟩
  | writeFails fd hfail =>
    obtain ⟨hrec, hstream⟩ := h.handedOver hphase
    refine ⟨hsound, hrec, ?_, by simp [Worker.phase, SendPc.phase],
      by simp [Worker.phase, SendPc.phase], fun _ hc => ?_⟩
    · exact ⟨w.rbNew.content, by simpa [Event.payload, Event.recvResult] using hstream.symm⟩
    · rcases h.sound.sends _ hpc with hs | ⟨r, hr⟩
      · simp [hs] at hc
      · simp at hr
  | writes fd hok =>
    obtain ⟨hrec, hstream⟩ := h.handedOver hphase
    refine ⟨hsound, hrec, ?_, fun _ => ⟨?_, ?_⟩, by simp [Worker.phase, SendPc.phase],
      fun _ hc => ?_⟩
    · exact ⟨w.rbNew.content, by simpa [Event.payload, Event.recvResult] using hstream.symm⟩
    · simp [BufferData.content]
    · simpa [BufferData.content, Event.payload, Event.recvResult] using hstream
    · rcases h.sound.sends _ hpc with hs | ⟨r, hr⟩
      · simp [hs] at hc
      · simp at hr
  | seeks fd => exact hgoto rfl (.inl rfl) ⟨rfl, rfl⟩
  | readFails fd => exact hgoto rfl (.inr rfl) ⟨rfl, rfl⟩
  | readsEnd fd => exact hgoto rfl (.inl rfl) ⟨rfl, rfl⟩
  | reads fd hne => exact hgoto rfl (.inl rfl) ⟨rfl, rfl⟩
  | sendFails fd rest conn => exact hgoto rfl (.inr rfl) ⟨rfl, rfl⟩
  | sendsAll fd rest conn hall => exact hgoto rfl (.inl rfl) ⟨rfl, rfl⟩
  | sendsPart fd rest conn hpart => exact hgoto rfl (.inl rfl) ⟨rfl, rfl⟩
  | closes fd ok =>
    refine hgoto rfl ?_ ⟨rfl, rfl⟩
    split
    · exact .inl rfl
    · exact .inr rfl
  | unlockFails hm => exact hgoto rfl (.inr rfl) (releaseFileMutex_silent hm)
  | unlocks hm hrc =>
    have hsil := releaseFileMutex_silent hm
    refine h.keep hsound rfl rfl (.inl hphase.symm) hsil.1 hsil.2 fun _ hc => ?_
    simp at hc
    split at hc <;> simp at hc
  | closesFailed fd ok => exact hgoto rfl (.inl rfl) ⟨rfl, rfl⟩
  | unlocksFailed hm => exact hgoto rfl (.inl rfl) (releaseFileMutex_silent hm)
  | returns r =>
    split
    next hr =>
      refine h.keep (h.sound.close (by simp [hpc])) rfl rfl (.inr rfl) rfl rfl fun hs => ?_
      exact absurd hr hs
    next hr =>
      have hthread := h.sound.rets r hpc hr
      refine h.keep ?_ rfl rfl (.inl ?_) rfl rfl fun _ hc => hc
      · simpa [hr] using hsound
      · rcases hthread with hs | hs <;>
          simp [Worker.phase, hpc, SendPc.phase, hr, hs, ThreadState.phase]

theorem Framed.next (h : Framed succeeded w results stream handed) (he : e.Posix)
    (hn : w.Next b e w') :
    Framed (succeeded ∧ e.Succeeds) w' (results ++ e.recvResult.toList)
      (stream ++ (e.recvResult.bind id).getD []) (handed ++ e.payload.toList) := by
  have hsound := h.sound.next he hn
  cases hn with
  | @starts hpc block hlen =>
    have hw := h.sound.waits (.inl hpc)
    refine h.keep hsound ?_ ?_ (.inl ?_) rfl rfl fun _ hc => hc
    · rw [BufferData.content_of_size_zero rfl,
        BufferData.content_of_size_zero (h.sound.fresh hpc)]
    · rw [BufferData.content_of_size_zero rfl,
        BufferData.content_of_size_zero (h.sound.idle hw (by simp [hpc]))]
    · simp [Worker.phase, hpc]
  | loads hpc hk caught =>
    exact h.keep hsound rfl rfl (.inl (by simp [Worker.phase, hpc])) rfl rfl fun _ hc => hc
  | exits hpc hk => exact h.keep hsound rfl rfl (.inr rfl) rfl rfl fun _ hc => hc
  | recvFails hpc hs conn =>
    exact ⟨hsound, by simpa [Event.payload] using h.records,
      by simpa [Event.payload, Event.recvResult] using h.taken,
      by simp [Worker.phase, ThreadState.phase], by simp [Worker.phase, ThreadState.phase],
      by simp [Event.Succeeds]⟩
  | recvEnds hpc hs conn =>
    have hphase : w.phase = .gathering := by simp [Worker.phase, hpc, hs, ThreadState.phase]
    obtain ⟨hno, hstream⟩ := h.gathering hphase
    rw [BufferData.content_of_size_zero (h.sound.idle hs (by simp [hpc])), List.append_nil]
      at hstream
    exact ⟨hsound, by simpa [Event.payload] using h.records,
      by simpa [Event.payload, Event.recvResult] using h.taken,
      by simp [Worker.phase, ThreadState.phase], by simp [Worker.phase, ThreadState.phase],
      fun _ _ => ⟨by simp [Event.recvResult], w.rb.content, hno,
        by simpa [Event.payload, Event.recvResult] using hstream⟩⟩
  | @recvs hpc hs conn bytes buffer hne hwrite =>
    have hphase : w.phase = .gathering := by simp [Worker.phase, hpc, hs, ThreadState.phase]
    obtain ⟨hno, hstream⟩ := h.gathering hphase
    rw [BufferData.content_of_size_zero (h.sound.idle hs (by simp [hpc])), List.append_nil]
      at hstream
    have hnew := content_of_writeBlock hwrite w.rbNew.allocated
    have hstream' : stream ++ bytes = handed.flatten ++ (w.rb.content ++ bytes) := by
      rw [hstream, List.append_assoc]
    refine ⟨hsound, by simpa [Event.payload] using h.records, ?_, fun _ => ⟨hno, ?_⟩,
      by simp [Worker.phase, hs, ThreadState.phase], by simp [hs]⟩
    · exact ⟨w.rb.content ++ bytes, by simpa [Event.payload, Event.recvResult] using hstream'.symm⟩
    · simpa [Event.payload, Event.recvResult, hnew] using hstream'
  | reallocFails hpc hlt =>
    exact h.keep hsound rfl rfl (.inr rfl) rfl rfl fun hs => absurd hs (by simp [Event.Succeeds])
  | reallocs hpc hlt hlen =>
    refine h.keep hsound ?_ rfl (.inl (by simp [Worker.phase, hpc])) rfl rfl fun _ hc => hc
    exact List.take_append_of_le_length h.sound.size_le
  | grown hpc hfit =>
    have hw := h.sound.waits (.inr hpc)
    refine h.keep hsound rfl rfl (.inl ?_) rfl rfl fun _ hc => by simp at hc
    simp [Worker.phase, hpc, hw, ThreadState.phase]
  | @processes hpc hs state rb rbNew hproc =>
    have hphase : w.phase = .gathering := by simp [Worker.phase, hpc, hs, ThreadState.phase]
    obtain ⟨hno, hstream⟩ := h.gathering hphase
    obtain ⟨hcat, -, -, -, -, hcase⟩ := h.sound.processed hpc hs hproc
    rw [← hcat] at hstream
    refine ⟨hsound, by simpa [Event.payload] using h.records,
      by simpa [Event.payload, Event.recvResult] using h.taken, fun hg => ⟨?_, ?_⟩,
      fun hr => ⟨?_, ?_⟩, fun _ hc => ?_⟩
    · rcases hcase with ⟨rfl, -⟩ | ⟨-, hkeep, -⟩
      · simp [Worker.phase, ThreadState.phase] at hg
      · exact hkeep hno
    · simpa [Event.payload, Event.recvResult] using hstream
    · rcases hcase with ⟨-, hrec⟩ | ⟨rfl, -⟩
      · exact hrec hno
      · simp [Worker.phase, ThreadState.phase] at hr
    · simpa [Event.payload, Event.recvResult] using hstream
    · rcases hcase with ⟨rfl, -⟩ | ⟨rfl, -⟩ <;> simp at hc
  | callsSending hpc hs =>
    refine h.keep hsound rfl rfl (.inl ?_) rfl rfl fun _ hc => hc
    simp [Worker.phase, hpc, hs, ThreadState.phase, SendPc.phase]
  | stops hpc hs =>
    exact h.keep hsound rfl rfl (.inl (by simp [Worker.phase, hpc])) rfl rfl fun _ hc => hc
  | sends hpc hsend => exact h.sends hpc hsend

end

theorem run_framed {b : Build} {w : Worker} {tr : List Event} {addr : ℕ} {clientFd : Fd}
    (hrun : Run (Worker.Step b) (Worker.create addr clientFd) tr w) :
    Framed (∀ e ∈ tr, e.Succeeds) w (recvResults tr) (received tr) (payloads tr) := by
  refine hrun.invariant
    (P := fun tr w => Framed (∀ e ∈ tr, e.Succeeds) w (recvResults tr) (received tr) (payloads tr))
    ?_ ?_
  · simpa [recvResults, received, payloads] using framed_create addr clientFd
  · intro tr w e w' _ ih hs
    have hnext := ih.next hs.1 (Worker.step_next hs.2)
    rw [recvResults_snoc, received_snoc, payloads_snoc]
    simpa [or_imp, forall_and] using hnext

/-- The rounds a thread in this state can still make at most before it receives again, with `n`
packets complete in the new buffer. -/
def ThreadState.roundsLeft (n : ℕ) : ThreadState → ℕ
  | .waitingForData => 1
  | .processingData => 2 * n + 2
  | .sendingData => 2 * n + 3
  | .closedConnection => 1

def Worker.roundsLeft (w : Worker) : ℕ :=
  let n := w.rbNew.content.count packetEnding
  match w.pc with
  | .start => 1
  | .loop => if w.keepLoopingThread then w.data.threadState.roundsLeft n else 0
  | .dispatch => w.data.threadState.roundsLeft n - 1
  | .growing => 2 * n + 2 + if w.rb.allocated < w.rb.size + w.rbNew.size then 1 else 0
  | .sending _ => 2 * n + 2
  | .exited => 0

section
variable {b : Build} {w w' : Worker} {e : Event} {succeeded : Prop}
  {results : List (Option (List Byte))} {stream : List Byte} {handed : List (List Byte)}

theorem roundsLeft_loop_le (w : Worker) (hpc : w.pc = .loop) :
    w.roundsLeft ≤ w.data.threadState.roundsLeft (w.rbNew.content.count packetEnding) := by
  simp only [Worker.roundsLeft, hpc]
  split <;> omega

theorem getFileMutex_not_round {rc : ℤ} (h : getFileMutex b e = some rc) : e.isRound = false := by
  unfold getFileMutex at h
  split at h <;> first | cases h | rfl

theorem releaseFileMutex_not_round {rc : ℤ} (h : releaseFileMutex b e = some rc) :
    e.isRound = false := by
  unfold releaseFileMutex at h
  split at h <;> first | cases h | rfl

theorem roundsLeft_sends (h : w.Sound) {pc : SendPc} (hpc : w.pc = .sending pc)
    (hn : w.Sends b pc e w') : e.isRound = false ∧ w'.roundsLeft ≤ w.roundsLeft := by
  have hleft : w.roundsLeft = 2 * w.rbNew.content.count packetEnding + 2 := by
    simp only [Worker.roundsLeft, hpc]
  cases hn with
  | lock hm => exact ⟨getFileMutex_not_round hm, hleft.ge⟩
  | unlockFails hm => exact ⟨releaseFileMutex_not_round hm, hleft.ge⟩
  | unlocks hm hrc => exact ⟨releaseFileMutex_not_round hm, hleft.ge⟩
  | unlocksFailed hm => exact ⟨releaseFileMutex_not_round hm, hleft.ge⟩
  | returns r =>
    refine ⟨rfl, (roundsLeft_loop_le _ rfl).trans ?_⟩
    rw [hleft]
    split
    · simp [ThreadState.roundsLeft]
    next hr =>
      rcases h.rets r hpc hr with hs | hs <;> simp [hs, ThreadState.roundsLeft]
  | _ => exact ⟨rfl, hleft.ge⟩

/-- Only receiving gives the thread more to do: four rounds, and two for each packet received. -/
theorem roundsLeft_next (h : Framed succeeded w results stream handed) (he : e.Posix)
    (hn : w.Next b e w') : e.isRound.toNat + w'.roundsLeft ≤ w.roundsLeft +
      4 * e.recvResult.toList.length + 2 * ((e.recvResult.bind id).getD []).count packetEnding := by
  have hloop {w' : Worker} (hpc : w'.pc = .loop) {n : ℕ}
      (hn : w'.data.threadState.roundsLeft (w'.rbNew.content.count packetEnding) ≤ n) :
      w'.roundsLeft ≤ n := (roundsLeft_loop_le w' hpc).trans hn
  cases hn with
  | @starts hpc block hlen =>
    have hw := h.sound.waits (.inl hpc)
    have hle : Worker.roundsLeft { w with
        rb := ⟨[], 0, 0⟩, rbNew := ⟨block, 0, recvBufferTempSize⟩, pc := .loop } ≤ 1 :=
      hloop rfl (by simp [hw, ThreadState.roundsLeft])
    have hleft : w.roundsLeft = 1 := by simp only [Worker.roundsLeft, hpc]
    simp only [Event.isRound, Event.recvResult, Bool.toNat_false]
    omega
  | loads hpc hk caught =>
    simp only [Event.isRound, Event.recvResult, Worker.roundsLeft, hpc, hk, ↓reduceIte]
    cases w.data.threadState <;> simp [ThreadState.roundsLeft] <;> omega
  | exits hpc hk => simp [Event.isRound, Event.recvResult, Worker.roundsLeft]
  | recvFails hpc hs conn =>
    have hle : ((w.setState .closedConnection).goto .loop).roundsLeft ≤ 1 :=
      hloop rfl (by simp [ThreadState.roundsLeft])
    simp only [Event.isRound, Event.recvResult, Bool.toNat_false, Option.toList_some,
      List.length_singleton]
    omega
  | recvEnds hpc hs conn =>
    have hle : ((w.setState .closedConnection).goto .loop).roundsLeft ≤ 1 :=
      hloop rfl (by simp [ThreadState.roundsLeft])
    simp only [Event.isRound, Event.recvResult, Bool.toNat_false, Option.toList_some,
      List.length_singleton]
    omega
  | @recvs hpc hs conn bytes buffer hne hwrite =>
    have hle : (Worker.goto { w with rbNew := ⟨buffer, bytes.length, w.rbNew.allocated⟩ }
        .growing).roundsLeft ≤ 2 * bytes.count packetEnding + 3 := by
      simp only [Worker.roundsLeft, Worker.goto_pc, Worker.goto_rbNew,
        content_of_writeBlock hwrite w.rbNew.allocated]
      exact Nat.add_le_add_left (ite_le_one (le_refl 1) (Nat.zero_le 1)) _
    simp only [Event.isRound, Event.recvResult, Bool.toNat_false, Option.toList_some,
      List.length_singleton, Option.bind_some, id_eq, Option.getD_some]
    omega
  | reallocFails hpc hlt =>
    refine (Nat.add_le_add_left (hloop rfl (n := 1) (by simp [ThreadState.roundsLeft])) _).trans ?_
    have hleft : 3 ≤ w.roundsLeft := by
      simp only [Worker.roundsLeft, hpc, hlt, ↓reduceIte]
      omega
    simp only [Event.isRound, Event.recvResult, Bool.toNat_true]
    omega
  | reallocs hpc hlt hlen =>
    have hw := h.sound.waits (.inr hpc)
    have hfull := h.sound.allocated (by simp [hw])
    have hsize := h.sound.size_le
    have hnew := h.sound.newSize
    unfold recvBufferTempSize at hnew
    have henough : ¬ w.rb.allocated + recvBufferGrowSize < w.rb.size + w.rbNew.size := by
      unfold recvBufferGrowSize
      omega
    simp [Event.isRound, Event.recvResult, Worker.roundsLeft, hpc, hlt, henough]
    omega
  | grown hpc hfit =>
    have hle : ((w.setState .processingData).goto .loop).roundsLeft ≤
        2 * w.rbNew.content.count packetEnding + 2 :=
      hloop rfl (by simp [ThreadState.roundsLeft])
    have hleft : 2 * w.rbNew.content.count packetEnding + 2 ≤ w.roundsLeft := by
      simp only [Worker.roundsLeft, hpc]
      omega
    simp only [Event.isRound, Event.recvResult, Bool.toNat_false]
    omega
  | @processes hpc hs state rb rbNew hproc =>
    have hphase : w.phase = .gathering := by simp [Worker.phase, hpc, hs, ThreadState.phase]
    have hno := (h.gathering hphase).1
    obtain ⟨hcat, -, -, -, -, hcase⟩ := h.sound.processed hpc hs hproc
    have hcount := congrArg (List.count packetEnding) hcat
    rw [List.count_append, List.count_append, List.count_eq_zero_of_not_mem hno] at hcount
    have hle : state.roundsLeft (rbNew.content.count packetEnding) ≤
        2 * w.rbNew.content.count packetEnding + 1 := by
      rcases hcase with ⟨rfl, hrec⟩ | ⟨rfl, -, -⟩
      · obtain ⟨body, hbody, heq⟩ := hrec hno
        rw [heq, List.count_append, List.count_eq_zero_of_not_mem hbody,
          List.count_singleton_self] at hcount
        simp only [ThreadState.roundsLeft]
        omega
      · simp only [ThreadState.roundsLeft]
        omega
    have hle' : ((Worker.setState { w with rb := rb, rbNew := rbNew } state).goto
        .loop).roundsLeft ≤ 2 * w.rbNew.content.count packetEnding + 1 := hloop rfl hle
    have hleft : w.roundsLeft = 2 * w.rbNew.content.count packetEnding + 1 := by
      simp only [Worker.roundsLeft, hpc, hs, ThreadState.roundsLeft]
      omega
    simp only [Event.isRound, Event.recvResult, Bool.toNat_false]
    omega
  | callsSending hpc hs =>
    simp [Event.isRound, Event.recvResult, Worker.roundsLeft, hpc, hs, ThreadState.roundsLeft]
  | stops hpc hs => simp [Event.isRound, Event.recvResult, Worker.roundsLeft]
  | sends hpc hsend =>
    obtain ⟨hround, hle⟩ := roundsLeft_sends h.sound hpc hsend
    rw [hround]
    simp only [Bool.toNat_false]
    omega

/-- Whatever a waiting thread receives, up to the count it asks for, it can take. -/
theorem recv_accepted (h : w.Sound) (hpc : w.pc = .dispatch)
    (hs : w.data.threadState = .waitingForData) (conn : ℕ) (got : Option (List Byte))
    (hgot : (got.getD []).length ≤ recvBufferTempSize) :
    ∃ w', w.Step b (.recv w.data.clientFd conn recvBufferTempSize got) w' := by
  obtain ⟨hblock, halloc⟩ := h.newBlock (by simp [hpc])
  simp only [Worker.Step, Worker.step, hpc, hs, Worker.waitingForData, halloc, and_self, ↓reduceIte]
  cases got with
  | none => exact ⟨_, trivial, rfl⟩
  | some bytes =>
    rw [Option.getD_some] at hgot
    have hwrite : writeBlock w.rbNew.buffer 0 bytes = some (splice w.rbNew.buffer 0 bytes) :=
      writeBlock_eq (by omega)
    cases bytes with
    | nil => exact ⟨_, Nat.zero_le _, rfl⟩
    | cons x xs =>
      simp only [hwrite, Option.bind_eq_bind, Option.bind_some]
      exact ⟨_, hgot, rfl⟩

theorem sending_progress (b : Build) (w : Worker) (pc : SendPc) :
    ∃ e w', e.Posix ∧ w.sendingData b pc e = some w' := by
  cases pc with
  | lock =>
    by_cases hb : b.disableLocking
    · exact ⟨.compute, _, trivial, by simp only [Worker.sendingData, getFileMutex, hb]; rfl⟩
    · exact ⟨.mutexLock true, _, trivial, by
        simp only [Worker.sendingData, getFileMutex, hb]; rfl⟩
  | openFile => exact ⟨.openFile none, _, trivial, rfl⟩
  | write fd =>
    refine ⟨.write fd w.rb.content none, w.goto (.sending (.closeFail fd)), trivial, ?_⟩
    simp [Worker.sendingData, writeToFile]
  | lseek fd => exact ⟨.lseek fd, _, trivial, if_pos rfl⟩
  | read fd =>
    exact ⟨.read fd (readFromFileCount sendBufferSize) none, _, trivial, if_pos ⟨rfl, rfl⟩⟩
  | send fd rest =>
    exact ⟨.send w.data.clientFd 0 rest 0 none, _, trivial, if_pos ⟨rfl, rfl, rfl⟩⟩
  | closeOk fd => exact ⟨.close fd true, _, trivial, if_pos rfl⟩
  | unlockOk =>
    by_cases hb : b.disableLocking
    · exact ⟨.compute, _, trivial, by simp only [Worker.sendingData, releaseFileMutex, hb]; rfl⟩
    · exact ⟨.mutexUnlock true, _, trivial, by
        simp only [Worker.sendingData, releaseFileMutex, hb]; rfl⟩
  | closeFail fd => exact ⟨.close fd true, _, trivial, if_pos rfl⟩
  | unlockFail =>
    by_cases hb : b.disableLocking
    · exact ⟨.compute, _, trivial, by simp only [Worker.sendingData, releaseFileMutex, hb]; rfl⟩
    · exact ⟨.mutexUnlock true, _, trivial, by
        simp only [Worker.sendingData, releaseFileMutex, hb]; rfl⟩
  | ret r => exact ⟨.returns r, _, trivial, if_pos rfl⟩

/-- A thread that has not exited can go on: no access outside a block stops it. -/
theorem worker_progress (b : Build) (h : w.Sound) :
    w.pc = .exited ∨ ∃ e w', w.Step b e w' := by
  cases hpc : w.pc with
  | start =>
    have hlen : (List.replicate recvBufferTempSize (0 : Byte)).length = recvBufferTempSize :=
      List.length_replicate
    exact .inr ⟨.mallocBuffers _, _, trivial, by
      simp only [Worker.step, hpc]; exact if_pos hlen⟩
  | loop =>
    cases hk : w.keepLoopingThread with
    | true =>
      exact .inr ⟨.loadSignal false, _, trivial, by simp only [Worker.step, hpc, hk]; rfl⟩
    | false => exact .inr ⟨.exitThread, _, trivial, by simp only [Worker.step, hpc, hk]; rfl⟩
  | dispatch =>
    cases hs : w.data.threadState with
    | waitingForData =>
      obtain ⟨w', hstep⟩ := recv_accepted (b := b) h hpc hs 0 none (Nat.zero_le _)
      exact .inr ⟨_, w', hstep⟩
    | processingData =>
      obtain ⟨state, rb, rbNew, hproc, -⟩ := h.processes hpc hs
      exact .inr ⟨.compute, _, trivial, by
        simp only [Worker.step, hpc, hs, hproc, ↓reduceIte]; rfl⟩
    | sendingData =>
      exact .inr ⟨.compute, _, trivial, by simp only [Worker.step, hpc, hs]; rfl⟩
    | closedConnection =>
      exact .inr ⟨.compute, _, trivial, by simp only [Worker.step, hpc, hs]; rfl⟩
  | growing =>
    by_cases hlt : w.rb.allocated < w.rb.size + w.rbNew.size
    · exact .inr ⟨.realloc (w.rb.allocated + recvBufferGrowSize) none, _, trivial, by
        simp only [Worker.step, hpc, Worker.growBuffer, if_pos hlt, ↓reduceIte]; rfl⟩
    · exact .inr ⟨.compute, _, trivial, by
        simp only [Worker.step, hpc, Worker.growBuffer, if_neg hlt, ↓reduceIte]; rfl⟩
  | sending pc =>
    obtain ⟨e, w', he, hstep⟩ := sending_progress b w pc
    exact .inr ⟨e, w', he, by simp only [Worker.step, hpc]; exact hstep⟩
  | exited => exact .inl rfl

end

theorem run_rounds {b : Build} {w : Worker} {tr : List Event} {addr : ℕ} {clientFd : Fd}
    (hrun : Run (Worker.Step b) (Worker.create addr clientFd) tr w) :
    rounds tr + w.roundsLeft ≤
      1 + 4 * (recvResults tr).length + 2 * (received tr).count packetEnding := by
  refine hrun.invariant (P := fun tr w => rounds tr + w.roundsLeft ≤
    1 + 4 * (recvResults tr).length + 2 * (received tr).count packetEnding) ?_ ?_
  · simp only [rounds, Worker.create, Worker.roundsLeft, List.countP_nil]
    omega
  · intro tr w e w' hrun ih hs
    have hnext := roundsLeft_next (run_framed hrun) hs.1 (Worker.step_next hs.2)
    rw [rounds_snoc, recvResults_snoc, received_snoc, List.length_append, List.count_append]
    omega

theorem eq_of_prefix_of_mem {α : Type*} {xs ys : List α} {z : α} (h : xs <+: ys ++ [z])
    (hz : z ∈ xs) (hys : z ∉ ys) : xs = ys ++ [z] := by
  rcases List.prefix_concat_iff.mp h with h | h
  · exact h
  · exact absurd (h.subset hz) hys

/-- Framing does not depend on how the stream is cut. The packets handed over always start the
list of its lines. When a stream has been delivered whole, nothing failed and the thread has
closed the connection, they are all its lines. The thread makes a bounded number of rounds, takes
whatever it receives and is never stuck. -/
theorem main_loop_thread_frames_lines (b : Build) (addr : ℕ) (clientFd : Fd) {tr : List Event}
    {w : Worker} (hrun : Run (Worker.Step b) (Worker.create addr clientFd) tr w) :
    (∀ s, received tr <+: s → payloads tr <+: records packetEnding s) ∧
      (∀ segments : List (List Byte), (∀ seg ∈ segments, seg ≠ []) →
        recvResults tr <+: segments.map some ++ [some []] → (∀ e ∈ tr, e.Succeeds) →
        w.data.threadState = .closedConnection →
        payloads tr = records packetEnding segments.flatten) ∧
      rounds tr ≤ 1 + 4 * (recvResults tr).length +
        2 * (records packetEnding (received tr)).length ∧
      (w.pc = .exited ∨ ∃ e w', w.Step b e w') ∧
      (w.pc = .dispatch → w.data.threadState = .waitingForData → ∀ conn got,
        (got.getD []).length ≤ recvBufferTempSize →
        ∃ w', w.Step b (.recv w.data.clientFd conn recvBufferTempSize got) w') := by
  have hframed := run_framed hrun
  refine ⟨fun s hs => ?_, fun segments hne hdelivered hsucc hclosed => ?_, ?_,
    worker_progress b hframed.sound, fun hpc hs conn got =>
      recv_accepted hframed.sound hpc hs conn got⟩
  · exact prefix_records hframed.records (hframed.taken.trans hs)
  · obtain ⟨hend, rest, hrest, hstream⟩ := hframed.ended hsucc hclosed
    have hall : recvResults tr = segments.map some ++ [some []] := by
      refine eq_of_prefix_of_mem hdelivered hend fun hmem => ?_
      obtain ⟨seg, hseg, heq⟩ := List.mem_map.mp hmem
      exact hne seg hseg (Option.some.inj heq)
    have hflat : received tr = segments.flatten := by
      simp [received, hall, List.flatMap_map, List.flatMap_id']
    rw [← hflat, hstream, records_flatten_append hframed.records, records_of_not_mem hrest,
      List.append_nil]
  · have hrounds := run_rounds hrun
    rw [length_records]
    omega

/-- The results of one successful `sending_data` over the file build, the file holding only the
packet. -/
def echo (packet : List Byte) : List Event :=
  [.compute, .mutexLock true, .openFile (some 5), .write 5 packet (some packet.length), .lseek 5,
    .read 5 1023 (some packet), .send 4 0 packet 0 (some packet.length), .read 5 1023 (some []),
    .close 5 true, .mutexUnlock true, .returns 0]

/-- The stream `"a\n\nb"` in two segments, the second with two endings. -/
def twoSegments : List Event :=
  [.mallocBuffers (List.replicate 1024 0), .loadSignal false, .recv 4 0 1024 (some [97]),
    .realloc 1024 (some (List.replicate 1024 0)), .compute, .loadSignal false, .compute,
    .loadSignal false, .recv 4 0 1024 (some [10, 10, 98]), .compute, .loadSignal false, .compute,
    .loadSignal false] ++ echo [97, 10] ++ [.loadSignal false, .compute, .loadSignal false] ++
    echo [10] ++ [.loadSignal false, .compute, .loadSignal false, .recv 4 0 1024 (some [])]

theorem twoSegments_frames : ∃ w : Worker,
    Run (Worker.Step fileBuild) (Worker.create 0 4) twoSegments w ∧
      payloads twoSegments = records packetEnding [97, 10, 10, 98] := by
  have hcloses : (twoSegments.foldlM (Worker.step fileBuild) (Worker.create 0 4)).map
      (·.data.threadState) = some .closedConnection := by decide +kernel
  obtain ⟨w, hw, hclosed⟩ := Option.map_eq_some_iff.mp hcloses
  have hrun : Run (Worker.Step fileBuild) (Worker.create 0 4) twoSegments w :=
    Run.of_foldlM (by decide +kernel) hw
  have hframes := (main_loop_thread_frames_lines fileBuild 0 4 hrun).2.1 [[97], [10, 10, 98]]
    (by decide) (by decide +kernel) (by decide +kernel) hclosed
  exact ⟨w, hrun, hframes⟩

end Aesd.Server
