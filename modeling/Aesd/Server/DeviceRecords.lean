import Aesd.Server.BufferBounds
import Aesd.Server.DeviceFile
import Aesd.Server.TornWrites

/-! The device build: the server's packets are the driver's entries. The server cuts its clients'
streams at every newline, the driver looks at the last byte of what it is passed. -/
namespace Aesd.Server
open Driver (Byte DriverState Device maxRwCount endWriteChar maxWriteOperationsSupported)
open CircularWindow Records Runs

section
variable {σ χ : Type} {ops : FileOps σ χ} {b : Build} {s s' : System σ} {h : History} {e : Event}
  {choice : χ} {l : Label χ} {tr : List (Label χ)} {node : σ} {reserved : Fd → Bool}

/-- What a worker hands to `write` is one line of its client. -/
theorem worker_write_line (hl : Logged b s h) {i : ℕ} {fd : Fd} {data : List Byte}
    {written : Option ℕ}
    (hs : s.Step ops b (.thread (.worker i) (.write fd data written) choice) s') :
    ∃ c, h.clients.client i = some c ∧ data ∈ records packetEnding (h.stream c) := by
  obtain ⟨-, w, w', -, hw, -⟩ := System.step_worker hs.2
  obtain ⟨c, hc, -⟩ := hl.owned.client i w hw
  have hlog : (h.call (.worker i) (.write fd data written)).log c =
      h.log c ++ [.write fd data written] := by
    rw [log_call]
    exact if_pos hc
  have hstream : (h.call (.worker i) (.write fd data written)).stream c = h.stream c := by
    rw [History.stream, hlog, received_snoc]
    exact List.append_nil _
  have hlines := (hl.step hs).payloads_records c
  simp only [History.next, hstream, hlog, payloads_snoc] at hlines
  refine ⟨c, hc, hlines.subset ?_⟩
  simp [Event.payload]

theorem Main.Next.unstamped {m m' : Main} (hn : m.Next deviceBuild e m')
    (h : ∀ pc, m.pc ≠ .stamp pc) : ∀ pc, m'.pc ≠ .stamp pc := by
  intro pc
  cases hn with
  | stampDue hpc hk hb => cases hb
  | stamps hpc | stamped hpc => exact absurd hpc (h _)
  | _ => simp

theorem run_unstamped (hrun : Run (System.Step ops deviceBuild) (System.start node reserved) tr s) :
    ∀ pc, s.main.pc ≠ .stamp pc := by
  induction hrun with
  | nil => simp [System.start, Main.init]
  | @snoc tr s l s' hrun hs ih =>
    obtain ⟨-, hs⟩ := hs
    cases l with
    | thread t e choice =>
      cases t with
      | main =>
        obtain ⟨-, main, kernel, workers, hnext, -, -, rfl⟩ := System.step_main hs
        exact hnext.unstamped ih
      | worker i =>
        obtain ⟨-, w, w', kernel, -, -, -, rfl⟩ := System.step_worker hs
        exact ih
    | signal sig =>
      obtain ⟨-, -, rfl⟩ := System.step_signal hs
      exact ih
    | disconnect c =>
      obtain ⟨-, -, rfl⟩ := System.step_disconnect hs
      exact ih

end

def ringEntries (driver : DriverState 64) : List (List Byte) :=
  driver.device.buffer.occupied.map fun e => (Driver.entryBytes driver.heap e).getD []

section
variable {limit : ℕ} {d : Device} {s s' : System (DriverState 64)} {h : History}
  {choice : DeviceChoice} {l : Label DeviceChoice} {tr : List (Label DeviceChoice)}
  {node : DriverState 64} {reserved : Fd → Bool}

theorem Serves.ringEntries_eq (h : Serves limit node d) : ringEntries node = d.committed := by
  obtain ⟨⟨-, stored, hrep⟩, -⟩ := h
  have hmap := congrArg (List.map fun o : Option (List Byte) => o.getD []) hrep.spells.1
  rw [List.map_map, List.map_map] at hmap
  exact hmap.trans (List.map_id _)

theorem Serves.entryTemp_iff (h : Serves limit node d) :
    node.device.entryTemp = .zero 64 ↔ d.pending = [] := by
  obtain ⟨⟨-, stored, hrep⟩, -⟩ := h
  have hpending := hrep.pending
  constructor
  · intro hzero
    rcases hpending with ⟨-, hnil⟩ | ⟨⟨a, ha, -⟩, -⟩
    · exact hnil
    · rw [hzero] at ha
      cases ha
  · intro hnil
    exact (hnil ▸ hpending).eq_zero

theorem write_line (hpending : d.pending = []) {data : List Byte}
    (hline : IsRecord packetEnding data) :
    (d.write data).pending = [] ∧
      (d.write data).committed = pushLast maxWriteOperationsSupported d.committed data := by
  have hlast : (d.append data).pending.getLast? = some endWriteChar := by
    rw [Device.append, hpending, List.nil_append]
    exact hline.getLast?_eq
  obtain ⟨hcommitted, hnil⟩ := Device.settle_complete hlast
  refine ⟨hnil, hcommitted.trans ?_⟩
  rw [Device.append, hpending, List.nil_append]

/-- Each packet that is written whole goes into the ring, and nothing else does. -/
theorem step_records (hserves : Serves limit s.kernel.node d) (hlimit : limit < maxRwCount)
    (hl : Logged deviceBuild s h) (hmain : ∀ pc, s.main.pc ≠ .stamp pc)
    (hpending : d.pending = []) (hs : s.Step (aesdChar limit) deviceBuild l s') :
    (deviceNext d l).pending = [] ∧
      (deviceNext d l).committed =
        (d.committed ++ completedRecords [l]).rtake maxWriteOperationsSupported ∧
      ∀ packet ∈ completedRecords [l], ∃ c, packet ∈ records packetEnding (h.stream c) := by
  by_cases hwrite : ∃ t fd data n choice, l = .thread t (.write fd data (some n)) choice
  · obtain ⟨t, fd, data, n, choice, rfl⟩ := hwrite
    obtain ⟨rfl, hfits⟩ := step_write_succeeds hserves (by unfold maxRwCount at hlimit; omega) hs
    have hwhole : passed data = data := passed_of_length_lt (by omega)
    rw [hwhole] at hs hfits ⊢
    obtain ⟨c, hline⟩ : ∃ c, data ∈ records packetEnding (h.stream c) := by
      cases t with
      | main =>
        obtain ⟨-, main, -, -, hnext, -⟩ := System.step_main hs.2
        cases hnext with
        | stamps hpc | stamped hpc => exact absurd hpc (hmain _)
      | worker i =>
        obtain ⟨c, -, hline⟩ := worker_write_line hl hs
        exact ⟨c, hline⟩
    have hcompleted : completedRecords [Label.thread t (.write fd data (some data.length)) choice] =
        [data] := by
      simp [completedRecords, Label.event, Event.completed]
    obtain ⟨hnil, hcommitted⟩ := write_line hpending (isRecord_of_mem hline)
    simp only [deviceNext, deviceCall, List.take_length, hcompleted]
    refine ⟨hnil, hcommitted, fun packet hpacket => ⟨c, ?_⟩⟩
    rwa [List.mem_singleton.mp hpacket]
  · have hnone : completedRecords [l] = [] := by
      apply List.eq_nil_iff_forall_not_mem.mpr
      intro packet hpacket
      obtain ⟨fd, data, n, t, choice, hl', -⟩ := completed_write hpacket
      exact hwrite ⟨t, fd, data, n, choice, hl'⟩
    have hsame : deviceNext d l = d := by
      cases l with
      | thread t e choice =>
        apply deviceCall_quiet
        rintro fd data n rfl
        exact hwrite ⟨t, fd, data, n, choice, rfl⟩
      | signal | disconnect => rfl
    rw [hsame, hnone, List.append_nil]
    exact ⟨hpending, (rtake_of_length_le d.bounded).symm, by simp⟩

/-- Starting with nothing pending, nothing is pending after any step, and the ring holds the last
of what it held and the packets written since. -/
theorem run_records (hserves : Serves limit node d) (hlimit : limit < maxRwCount)
    (hpending : d.pending = [])
    (hrun : Run (System.Step (aesdChar limit) deviceBuild) (System.start node reserved) tr s) :
    (deviceAfter d tr).pending = [] ∧
      (deviceAfter d tr).committed =
        (d.committed ++ completedRecords tr).rtake maxWriteOperationsSupported ∧
      ∀ packet ∈ completedRecords tr,
        ∃ c, packet ∈ records packetEnding ((historyAfter tr).stream c) := by
  induction hrun with
  | nil =>
    show d.pending = [] ∧ d.committed = (d.committed ++ []).rtake maxWriteOperationsSupported ∧ _
    rw [List.append_nil, rtake_of_length_le d.bounded]
    exact ⟨hpending, rfl, by simp [completedRecords]⟩
  | @snoc tr s l s' hrun hs ih =>
    obtain ⟨hnil, hcommitted, hlines⟩ := ih
    have hbefore := run_device hserves (by unfold maxRwCount at hlimit; omega) hrun
    obtain ⟨hnil', hcommitted', hlines'⟩ :=
      step_records hbefore hlimit (run_logged hrun) (run_unstamped hrun) hnil hs
    have hdevice : deviceAfter d (tr ++ [l]) = deviceNext (deviceAfter d tr) l := by
      rw [deviceAfter, List.foldl_append]
      rfl
    have hhistory : historyAfter (tr ++ [l]) = (historyAfter tr).next l := by
      rw [historyAfter, List.foldl_append]
      rfl
    rw [hdevice, hhistory, completedRecords_append, ← List.append_assoc]
    refine ⟨hnil', ?_, fun packet hpacket => ?_⟩
    · rw [hcommitted', hcommitted, rtake_append]
    · have hgrows (c : ℕ) : records packetEnding ((historyAfter tr).stream c) ⊆
          records packetEnding (((historyAfter tr).next l).stream c) := by
        apply List.IsPrefix.subset
        exact records_prefix (stream_next (historyAfter tr) l c)
      rcases List.mem_append.mp hpacket with hold | hnew
      · obtain ⟨c, hline⟩ := hlines packet hold
        exact ⟨c, hgrows c hline⟩
      · obtain ⟨c, hline⟩ := hlines' packet hnew
        exact ⟨c, hgrows c hline⟩

end

section
variable {b : Build} {w w' : Worker} {e : Event} {tr : List Event}

def Event.isSend : Event → Bool
  | .send _ _ _ _ _ => true
  | _ => false

theorem Worker.stopped_next (h : w.Sound) (hstopped : w.phase = .stopped) (hn : w.Next b e w') :
    w'.phase = .stopped ∧ e.isSend = false := by
  have hstate (hpc : ∀ pc, w.pc ≠ .sending pc) (hexit : w.pc ≠ .exited) :
      w.data.threadState = .closedConnection := by
    unfold Worker.phase at hstopped
    split at hstopped
    next pc hpc' => exact absurd hpc' (hpc pc)
    next hpc' => exact absurd hpc' hexit
    next => cases hs : w.data.threadState <;> rw [hs] at hstopped <;> first | rfl | cases hstopped
  cases hn with
  | starts hpc | loads hpc =>
    have hclosed := hstate (by simp [hpc]) (by simp [hpc])
    exact ⟨by simp [Worker.phase, hclosed, ThreadState.phase], rfl⟩
  | exits hpc => exact ⟨rfl, rfl⟩
  | recvFails hpc hs | recvEnds hpc hs | recvs hpc hs | processes hpc hs | callsSending hpc hs =>
    exact absurd (hs.symm.trans (hstate (by simp [hpc]) (by simp [hpc]))) (by decide)
  | reallocFails hpc | reallocs hpc | grown hpc =>
    have hwaits := h.waits (.inr hpc)
    exact absurd (hwaits.symm.trans (hstate (by simp [hpc]) (by simp [hpc]))) (by decide)
  | stops hpc hs => exact ⟨by simp [Worker.phase, Worker.goto, hs, ThreadState.phase], rfl⟩
  | @sends pc e w' hpc hsend =>
    have hphase : pc.phase = .stopped := by
      unfold Worker.phase at hstopped
      simpa only [hpc] using hstopped
    cases hsend with
    | closesFailed => exact ⟨rfl, rfl⟩
    | unlocksFailed hm =>
      refine ⟨rfl, ?_⟩
      unfold releaseFileMutex at hm
      split at hm <;> first | rfl | cases hm
    | returns r =>
      have hr : r = -1 := by
        by_contra hne
        rw [SendPc.phase, if_neg hne] at hphase
        cases hphase
      subst hr
      exact ⟨rfl, rfl⟩
    | _ => cases hphase

/-- After a `write` that did not take its whole packet a worker sends nothing any more. -/
theorem no_send_after_failure {addr : ℕ} {clientFd : Fd} {fd : Fd} {data : List Byte}
    {written : Option ℕ} {before rest : List Event}
    (hrun : Run (Worker.Step b) (Worker.create addr clientFd)
      (before ++ .write fd data written :: rest) w) (hfails : written ≠ some data.length) :
    ∀ e ∈ rest, e.isSend = false := by
  rw [List.append_cons] at hrun
  obtain ⟨w₂, hfront, hback⟩ := hrun.split
  obtain ⟨w₁, hbefore, hwrite⟩ := hfront.last
  have hsound : w₂.Sound := Worker.run_sound hfront
  have hstopped : w₂.phase = .stopped := by
    obtain ⟨-, rfl, hends⟩ := (Worker.step_next hwrite.2).write
    rw [BufferData.content_length (Worker.run_sound hbefore).size_le] at hfails
    simp only [Worker.phase, hends hfails]
    rfl
  have hall := hback.forall_label (I := fun w => w.Sound ∧ w.phase = .stopped)
    (Q := fun e => e.isSend = false) ⟨hsound, hstopped⟩ fun v e v' hv hs => by
      obtain ⟨hphase, hquiet⟩ := Worker.stopped_next hv.1 hv.2 (Worker.step_next hs.2)
      exact ⟨⟨hv.1.next hs.1 (Worker.step_next hs.2), hphase⟩, hquiet⟩
  exact hall.2

end

/-- Whatever the schedule, the segmentation and the failures of the driver: nothing is ever
pending, and the ring holds the last ten of its first entries and the packets written since, in
the order of the writes. Each packet is one line of one client. A `write` takes its whole packet
or leaves the driver as it was, and then its client gets no more responses. -/
theorem device_holds_whole_packets {limit : ℕ} (hlimit : limit < maxRwCount)
    {node : DriverState 64} {fPos : ℕ → BitVec 64} (hnode : Driver.Reachable limit ⟨node, fPos⟩)
    (hzero : node.device.entryTemp = .zero 64) (reserved : Fd → Bool)
    {tr : List (Label DeviceChoice)} {s : System (DriverState 64)}
    (hrun : Run (System.Step (aesdChar limit) deviceBuild) (System.start node reserved) tr s) :
    s.kernel.node.device.entryTemp = .zero 64 ∧
      ringEntries s.kernel.node =
        (ringEntries node ++ completedRecords tr).rtake maxWriteOperationsSupported ∧
      (∀ packet ∈ completedRecords tr,
        ∃ c, packet ∈ records packetEnding ((historyAfter tr).stream c)) ∧
      (∀ t fd data written choice s',
        s.Step (aesdChar limit) deviceBuild (.thread t (.write fd data written) choice) s' →
          written = some data.length ∨ (written = none ∧ s'.kernel.node = s.kernel.node)) ∧
      ∀ c before fd data written rest,
        (historyAfter tr).log c = before ++ .write fd data written :: rest →
          written ≠ some data.length → ∀ e ∈ rest, e.isSend = false := by
  have hlimit' : limit < 2 ^ 31 := by
    unfold maxRwCount at hlimit
    omega
  obtain ⟨d, hrep, hd⟩ := hnode.represents (by decide) hlimit'
  have hserves : Serves limit node d := ⟨hrep, hd⟩
  have hafter := run_device hserves hlimit' hrun
  obtain ⟨hnil, hcommitted, hlines⟩ :=
    run_records hserves hlimit (hserves.entryTemp_iff.mp hzero) hrun
  refine ⟨hafter.entryTemp_iff.mpr hnil, ?_, hlines, ?_, ?_⟩
  · rw [hafter.ringEntries_eq, hserves.ringEntries_eq, hcommitted]
  · intro t fd data written choice s' hs
    cases written with
    | none => exact .inr ⟨rfl, step_write_fails hafter hlimit' hs⟩
    | some n =>
      obtain ⟨rfl, hle⟩ := step_write_succeeds hafter hlimit' hs
      rw [passed_of_length_lt (by omega)]
      exact .inl rfl
  · intro c before fd data written rest hlog hfails
    obtain ⟨addr, clientFd, w, hlogged⟩ := (run_logged hrun).past c
    rw [hlog] at hlogged
    exact no_send_after_failure hlogged hfails

def earlierLine : List Driver.CallLabel := [(.write 0 (Driver.wholeCopy 7 [0, 0]) [120, 10], 2)]

/-- A kernel that interrupts no lock and copies everything. -/
def kernelGives (block : Option (ℕ × List Byte)) : DeviceChoice :=
  ⟨⟨0, block, 0⟩, ⟨0, fun _ => 0⟩⟩

def firstClient : List (Label DeviceChoice) :=
  [.clockGettime 0, .clockGettime 0, .compute, .compute, .loadSignal false, .loadSignal false,
    .accept (some (4, 0)), .clockGettime 0, .compute, .malloc (some 1), .malloc (some 2),
    .pthreadCreate (some 0)].map fun e => .thread .main e (kernelGives none)

/-- The client sends `"a\n"` and gets both entries. -/
def firstPacket : List (Label DeviceChoice) :=
  [.mallocBuffers (List.replicate 1024 0), .loadSignal false, .recv 4 0 1024 (some [97, 10]),
    .realloc 1024 (some (List.replicate 1024 0)), .compute, .loadSignal false, .compute,
    .loadSignal false, .compute, .compute, .openFile (some 5), .write 5 [97, 10] (some 2),
    .lseek 5, .read 5 1023 (some [120, 10, 97, 10]), .send 4 0 [120, 10, 97, 10] 0 (some 4),
    .read 5 1023 (some []), .close 5 true, .compute, .returns 0].map fun e =>
      .thread (.worker 0) e (kernelGives (some (9, [0, 0])))

def deviceEcho : List (Label DeviceChoice) := firstClient ++ firstPacket

def runAfter (calls : List Driver.CallLabel) (tr : List (Label DeviceChoice)) :
    Option (Driver.System 64 × System (DriverState 64)) :=
  (calls.foldlM (Driver.System.checkedCall 4096)
    (Driver.System.start (Driver.loaded 64).device 0)).bind fun s₀ =>
      (tr.foldlM (checkedStep 4096) (System.start s₀.driver fun _ => false)).map fun s => (s₀, s)

theorem runAfter_spec {calls : List Driver.CallLabel} {tr : List (Label DeviceChoice)}
    {s₀ : Driver.System 64} {s : System (DriverState 64)} (h : runAfter calls tr = some (s₀, s)) :
    Driver.Reachable 4096 s₀ ∧
      Run (System.Step (aesdChar 4096) deviceBuild)
        (System.start s₀.driver fun _ => false) tr s := by
  obtain ⟨s₁, hs₁, h⟩ := Option.bind_eq_some_iff.mp h
  obtain ⟨s₂, hs₂, hsame⟩ := Option.map_eq_some_iff.mp h
  obtain ⟨rfl, rfl⟩ := Prod.mk.inj hsame
  exact ⟨Driver.reachable_of_foldlM hs₁, deviceRun_of_foldlM hs₂⟩

theorem deviceEcho_run : ∃ s₀ : Driver.System 64, ∃ s, Driver.Reachable 4096 s₀ ∧
    s₀.driver.device.entryTemp = .zero 64 ∧
    Run (System.Step (aesdChar 4096) deviceBuild) (System.start s₀.driver fun _ => false)
      deviceEcho s ∧ Driver.Spells s₀.driver (Device.empty.write [120, 10]) ∧
      ringEntries s.kernel.node = [[120, 10], [97, 10]] := by
  have hends : (runAfter earlierLine deviceEcho).map (fun p => (p.1.driver.device.entryTemp,
      decide (Driver.Spells p.1.driver (Device.empty.write [120, 10])),
        ringEntries p.2.kernel.node)) = some (.zero 64, true, [[120, 10], [97, 10]]) := by
    decide +kernel
  obtain ⟨⟨s₀, s⟩, hs, hends⟩ := Option.map_eq_some_iff.mp hends
  obtain ⟨hzero, hends⟩ := Prod.mk.inj hends
  obtain ⟨hspells, hring⟩ := Prod.mk.inj hends
  obtain ⟨hreach, hrun⟩ := runAfter_spec hs
  exact ⟨s₀, s, hreach, hzero, hrun, of_decide_eq_true hspells, hring⟩

theorem deviceEcho_holds : ∃ s₀ : Driver.System 64, ∃ s, Driver.Reachable 4096 s₀ ∧
    s₀.driver.device.entryTemp = .zero 64 ∧
    Run (System.Step (aesdChar 4096) deviceBuild) (System.start s₀.driver fun _ => false)
      deviceEcho s ∧ s.kernel.node.device.entryTemp = .zero 64 ∧
      ringEntries s.kernel.node = (ringEntries s₀.driver ++ completedRecords deviceEcho).rtake
        maxWriteOperationsSupported := by
  obtain ⟨s₀, s, hreach, hzero, hrun, -⟩ := deviceEcho_run
  obtain ⟨hempty, hentries, -⟩ :=
    device_holds_whole_packets (by decide) hreach hzero (fun _ => false) hrun
  exact ⟨s₀, s, hreach, hzero, hrun, hempty, hentries⟩

theorem earlierLine_remains : ∃ s₀ : Driver.System 64, ∃ s, Driver.Reachable 4096 s₀ ∧
    s₀.driver.device.entryTemp = .zero 64 ∧
    Run (System.Step (aesdChar 4096) deviceBuild) (System.start s₀.driver fun _ => false)
      deviceEcho s ∧
    ringEntries s.kernel.node ≠
      (completedRecords deviceEcho).rtake maxWriteOperationsSupported := by
  obtain ⟨s₀, s, hreach, hzero, hrun, -, hring⟩ := deviceEcho_run
  refine ⟨s₀, s, hreach, hzero, hrun, ?_⟩
  rw [hring]
  decide

end Aesd.Server
