import Aesd.Server.DeviceRecords

/-! What `sending_data` sends back in the device build, where nothing keeps the other threads from
writing between two reads: the entries of one instant, unless an entry goes out of the ring
between its first read and its last. -/
namespace Aesd.Server
open Driver (Byte DriverState Device maxRwCount endWriteChar maxWriteOperationsSupported)
open CircularWindow Records Runs

/-- A call of `sending_data`: the packet it wrote and what it has sent. From its `write` to its
last `read`: the entries held at each instant, the latest first, and how many entries came later.
`evicted` says that one has gone out of the ring since the first `read`. -/
structure Answer where
  packet : List Byte
  delivered : List Byte
  held : List (List (List Byte))
  later : ℕ
  reading : Bool
  finished : Bool
  evicted : Bool

/-- The thread's own calls. -/
def Answer.call (a : Answer) (d : Device) : Event → Answer
  | .write _ data (some n) =>
    ⟨data.take n, [], [(d.write (data.take n)).committed], 0, false, false, false⟩
  | .read _ _ (some bytes) => { a with reading := true, finished := bytes.isEmpty }
  | .send _ _ data _ (some n) => { a with delivered := a.delivered ++ data.take n }
  | _ => a

/-- The calls of the other threads, up to the last `read`. -/
def Answer.observe (a : Answer) (d : Device) : Event → Answer
  | .write _ data (some n) =>
    if a.finished then a
    else
      { a with
        held := (d.write (data.take n)).committed :: a.held
        later := a.later + (d.commits (data.take n)).toNat
        evicted := a.evicted || (a.reading && d.evicts (data.take n)) }
  | _ => a

structure Returned where
  client : Option ℕ
  answer : Answer

/-- The latest return comes first. -/
structure Answers where
  history : History
  device : Device
  current : Tid → Answer
  returned : List Returned

def Answers.call (g : Answers) (t : Tid) (e : Event) : Answers where
  history := g.history.call t e
  device := deviceCall g.device e
  current := fun t' =>
    if t' = t then (g.current t).call g.device e else (g.current t').observe g.device e
  returned :=
    if e = .returns 0 ∧ t ≠ .main then ⟨g.history.clientOf t, g.current t⟩ :: g.returned
    else g.returned

def Answers.next {χ : Type} (g : Answers) : Label χ → Answers
  | .thread t e _ => g.call t e
  | _ => g

def Answers.init (d : Device) : Answers :=
  ⟨.init, d, fun _ => ⟨[], [], [], 0, false, false, false⟩, []⟩

def answersAfter {χ : Type} (d : Device) (tr : List (Label χ)) : Answers :=
  tr.foldl Answers.next (.init d)

/-- The call goes on: its packet is the last entry but `later`, unless it has gone out. -/
structure Answer.Follows (a : Answer) (d : Device) (lines : List (List Byte)) : Prop where
  packet : a.packet ∈ lines
  unfinished : a.finished = false
  held : a.held.head? = some d.committed
  recent : a.later < maxWriteOperationsSupported →
    ∃ entry, d.committed.reverse[a.later]? = some entry ∧ a.packet <:+ entry

/-- With `rest` it will have sent what stands before its position. -/
def Answer.Sending (a : Answer) (k : Kernel (DriverState 64)) (t : Tid) (d : Device) (fd : Fd)
    (rest : List Byte) : Prop :=
  ∃ pos, k.fds fd = some (.file t pos) ∧ (a.reading = false → pos = 0) ∧
    (a.evicted = false → pos ≤ d.content.length ∧ a.delivered ++ rest = d.content.take pos)

/-- The call has read all there was. -/
structure Answer.Whole (a : Answer) (lines : List (List Byte)) : Prop where
  packet : a.packet ∈ lines
  finished : a.finished = true
  echo : a.evicted = false → ∃ entries ∈ a.held, a.delivered = entries.flatten ∧
    (a.later < maxWriteOperationsSupported → ∃ entry ∈ entries, a.packet <:+ entry)

/-- What the call has sent of the device when it gets to each place. -/
def Answering (k : Kernel (DriverState 64)) (t : Tid) (d : Device) (a : Answer)
    (lines : List (List Byte)) : SendPc → Prop
  | .write fd => k.fds fd = some (.file t 0)
  | .lseek fd => a.Follows d lines ∧ a.Sending k t d fd []
  | .read fd => a.Follows d lines ∧ a.Sending k t d fd []
  | .send fd rest => a.Follows d lines ∧ a.Sending k t d fd rest
  | .closeOk _ => a.Whole lines
  | .unlockOk => a.Whole lines
  | .ret r => r = 0 → a.Whole lines
  | _ => True

section
variable {limit : ℕ} {d : Device} {a : Answer} {k k' : Kernel (DriverState 64)} {t : Tid}
  {e : Event} {choice : DeviceChoice} {lines lines' : List (List Byte)} {fd : Fd}
  {rest : List Byte} {pc : SendPc} {pos : ℕ}

theorem observe_cases (a : Answer) (d : Device) (e : Event) :
    (a.observe d e = a ∧ deviceCall d e = d) ∨
      ∃ fd data n, e = .write fd data (some n) := by
  cases e with
  | write fd data written =>
    cases written with
    | none => exact .inl ⟨rfl, rfl⟩
    | some n => exact .inr ⟨fd, data, n, rfl⟩
  | _ => exact .inl ⟨rfl, rfl⟩

theorem Answer.Whole.observe (h : a.Whole lines) (hsub : lines ⊆ lines') :
    (a.observe d e).Whole lines' := by
  have hsame : a.observe d e = a := by
    rcases observe_cases a d e with ⟨hsame, -⟩ | ⟨fd, data, n, rfl⟩
    · exact hsame
    · exact if_pos h.finished
  rw [hsame]
  exact ⟨hsub h.packet, h.finished, h.echo⟩

theorem Answer.Follows.observe (h : a.Follows d lines) (hsub : lines ⊆ lines') :
    (a.observe d e).Follows (deviceCall d e) lines' := by
  rcases observe_cases a d e with ⟨hsame, hdevice⟩ | ⟨fd, data, n, rfl⟩
  · rw [hsame, hdevice]
    exact ⟨hsub h.packet, h.unfinished, h.held, h.recent⟩
  · have hopen : ¬ a.finished = true := by simp [h.unfinished]
    rw [Answer.observe, if_neg hopen]
    constructor
    · exact hsub h.packet
    · exact h.unfinished
    · rfl
    · intro hlater
      obtain ⟨entry, hentry, hends⟩ := h.recent (lt_of_le_of_lt (Nat.le_add_right _ _) hlater)
      exact ⟨entry, Device.write_reverse hentry hlater, hends⟩

/-- What the others write leaves the part before the position as it is, unless it evicts. -/
theorem Answer.Sending.observe (h : a.Sending k t d fd rest) (hopen : a.finished = false)
    (hfile : ∀ pos, k.fds fd = some (.file t pos) → k'.fds fd = some (.file t pos)) :
    (a.observe d e).Sending k' t (deviceCall d e) fd rest := by
  obtain ⟨pos, hfd, hstart, hsent⟩ := h
  refine ⟨pos, hfile pos hfd, ?_⟩
  rcases observe_cases a d e with ⟨hsame, hdevice⟩ | ⟨fd', data, n, rfl⟩
  · rw [hsame, hdevice]
    exact ⟨hstart, hsent⟩
  · rw [Answer.observe, if_neg (by simp [hopen])]
    refine ⟨hstart, fun hevicted => ?_⟩
    obtain ⟨hbefore, hnow⟩ := Bool.or_eq_false_iff.mp hevicted
    obtain ⟨hpos, hdelivered⟩ := hsent hbefore
    cases hreading : a.reading with
    | false =>
      obtain rfl := hstart hreading
      exact ⟨Nat.zero_le _, hdelivered⟩
    | true =>
      have hkept : d.evicts (data.take n) = false := by simpa [hreading] using hnow
      obtain ⟨added, hadded⟩ := Device.prefix_write hkept
      have hcontent : (d.write (data.take n)).content = d.content ++ added.flatten := by
        rw [Device.content, ← hadded, List.flatten_append]
        rfl
      show pos ≤ (d.write (data.take n)).content.length ∧
        a.delivered ++ rest = (d.write (data.take n)).content.take pos
      rw [hcontent, List.take_append_of_le_length hpos, List.length_append]
      exact ⟨by omega, hdelivered⟩

theorem Answering.observe (h : Answering k t d a lines pc) (hsub : lines ⊆ lines')
    (hfile : ∀ fd pos, k.fds fd = some (.file t pos) → k'.fds fd = some (.file t pos)) :
    Answering k' t (deviceCall d e) (a.observe d e) lines' pc := by
  cases pc with
  | write fd => exact hfile fd 0 h
  | lseek fd | read fd | send fd =>
    obtain ⟨hfollows, hsending⟩ := h
    exact ⟨hfollows.observe hsub, hsending.observe hfollows.unfinished (hfile fd)⟩
  | closeOk | unlockOk =>
    have hwhole : a.Whole lines := h
    exact hwhole.observe hsub
  | ret r => exact fun hr => (h hr).observe hsub
  | lock | openFile | closeFail | unlockFail => trivial

theorem call_deviceWrite (hserves : Serves limit k.node d) (hlimit : limit < 2 ^ 31)
    {data : List Byte} {n : ℕ} (hallowed : (aesdChar limit).Allowed k.node choice data)
    (hfd : k.fds fd = some (.file t pos))
    (hcall : k.call (aesdChar limit) t (.write fd data (some n)) choice = some k') :
    k'.fds fd = some (.file t pos) := by
  cases call_nodeEffect hcall with
  | quiet _ hwrite => exact absurd rfl (hwrite _ _ _)
  | writes hfd' hr =>
    cases hfd'.symm.trans hfd
    obtain ⟨hpos, -⟩ := aesdChar_write hserves hlimit hallowed hr
    rw [← hpos]
    exact Function.update_self ..

theorem call_deviceRead (hserves : Serves limit k.node d) (hlimit : limit < 2 ^ 31)
    {count : ℕ} {bytes : List Byte} (hfd : k.fds fd = some (.file t pos))
    (hcall : k.call (aesdChar limit) t (.read fd count (some bytes)) choice = some k') :
    ∃ pos', k'.fds fd = some (.file t pos') ∧ (pos ≤ d.content.length →
      bytes = (d.content.drop pos).take (min count maxRwCount) ∧ pos' = pos + bytes.length) := by
  cases call_nodeEffect hcall with
  | quiet _ _ hread => exact absurd rfl (hread _ _ _)
  | reads hfd' hr =>
    cases hfd'.symm.trans hfd
    obtain ⟨-, hbytes⟩ := aesdChar_read hserves hlimit hr
    exact ⟨_, Function.update_self .., hbytes bytes rfl⟩

/-- A packet that is written whole is the latest entry, or the end of it. -/
theorem Answer.follows_write (fd : Fd) {data : List Byte} (hlines : data ∈ lines)
    (hline : IsRecord packetEnding data) :
    (a.call d (.write fd data (some data.length))).Follows
      (deviceCall d (.write fd data (some data.length))) lines := by
  have hcommits : d.commits data = true := by
    apply decide_eq_true
    rw [List.getLast?_append, hline.getLast?_eq]
    rfl
  simp only [Answer.call, deviceCall, List.take_length]
  constructor
  · exact hlines
  · rfl
  · rfl
  · intro _
    refine ⟨d.pending ++ data, ?_, List.suffix_append _ _⟩
    show (d.write data).committed.reverse[0]? = _
    rw [Device.write_committed, if_pos hcommits, reverse_pushLast]
    rfl

theorem Answer.Sending.reads (h : a.Sending k t d fd []) (hserves : Serves limit k.node d)
    (hlimit : limit < 2 ^ 31) {count : ℕ} {bytes : List Byte}
    (hcall : k.call (aesdChar limit) t (.read fd count (some bytes)) choice = some k') :
    (a.call d (.read fd count (some bytes))).Sending k' t d fd bytes := by
  obtain ⟨pos, hfd, -, hsent⟩ := h
  obtain ⟨pos', hfd', hbytes⟩ := call_deviceRead hserves hlimit hfd hcall
  refine ⟨pos', hfd', by simp [Answer.call], fun hevicted => ?_⟩
  obtain ⟨hpos, hdelivered⟩ := hsent hevicted
  obtain ⟨hslice, rfl⟩ := hbytes hpos
  have hlen := congrArg List.length hslice
  rw [List.length_take, List.length_drop] at hlen
  refine ⟨by omega, ?_⟩
  show a.delivered ++ bytes = _
  rw [List.append_nil] at hdelivered
  have hnext : (d.content.drop pos).take bytes.length = bytes := by
    apply Eq.symm
    apply List.prefix_iff_eq_take.mp
    rw [hslice]
    exact List.take_prefix _ _
  rw [List.take_add, hnext, hdelivered]

theorem Answer.Follows.ends (hf : a.Follows d lines) (h : a.Sending k t d fd [])
    (hserves : Serves limit k.node d) (hlimit : limit < 2 ^ 31) {count : ℕ} (hcount : 0 < count)
    (hcall : k.call (aesdChar limit) t (.read fd count (some [])) choice = some k') :
    (a.call d (.read fd count (some []))).Whole lines := by
  obtain ⟨pos, hfd, -, hsent⟩ := h
  obtain ⟨pos', -, hbytes⟩ := call_deviceRead hserves hlimit hfd hcall
  constructor
  · exact hf.packet
  · rfl
  · intro hevicted
    obtain ⟨hpos, hdelivered⟩ := hsent hevicted
    obtain ⟨hslice, -⟩ := hbytes hpos
    have hall : d.content.length ≤ pos := by
      have hlen := congrArg List.length hslice
      rw [List.length_take, List.length_drop, List.length_nil] at hlen
      unfold maxRwCount at hlen
      omega
    refine ⟨d.committed, List.mem_of_head? hf.held, ?_, fun hlater => ?_⟩
    · rw [List.append_nil, List.take_of_length_le hall] at hdelivered
      exact hdelivered
    · obtain ⟨entry, hentry, hends⟩ := hf.recent hlater
      exact ⟨entry, List.mem_reverse.mp (List.mem_of_getElem? hentry), hends⟩

theorem Answer.Sending.sends (h : a.Sending k t d fd rest) {conn flags n : ℕ} {fd' : Fd}
    (hcall : k.call (aesdChar limit) t (.send fd' conn rest flags (some n)) choice = some k') :
    (a.call d (.send fd' conn rest flags (some n))).Sending k' t d fd (rest.drop n) := by
  obtain ⟨pos, hfd, hstart, hsent⟩ := h
  obtain ⟨-, hfds⟩ := call_send hcall
  refine ⟨pos, hfds ▸ hfd, hstart, fun hevicted => ?_⟩
  obtain ⟨hpos, hdelivered⟩ := hsent hevicted
  refine ⟨hpos, ?_⟩
  show (a.delivered ++ rest.take n) ++ rest.drop n = _
  rw [List.append_assoc, List.take_append_drop, hdelivered]

theorem Answer.Follows.mono (h : a.Follows d lines) (hsub : lines ⊆ lines') :
    a.Follows d lines' :=
  ⟨hsub h.packet, h.unfinished, h.held, h.recent⟩

theorem Answer.Whole.mono (h : a.Whole lines) (hsub : lines ⊆ lines') : a.Whole lines' :=
  ⟨hsub h.packet, h.finished, h.echo⟩

theorem Answering.next {b : Build} {w w' : Worker} {pc' : SendPc}
    (h : Answering k t d a lines pc) (hsend : w.Sends b pc e w') (hpc' : w'.pc = .sending pc')
    (he : e.Posix) (hcall : k.call (aesdChar limit) t e choice = some k')
    (hserves : Serves limit k.node d) (hlimit : limit < 2 ^ 31)
    (hwrite : ∀ fd data written, e = .write fd data written →
      (aesdChar limit).Allowed k.node choice data ∧ data ∈ lines' ∧ IsRecord packetEnding data)
    (hsub : lines ⊆ lines') : Answering k' t (deviceCall d e) (a.call d e) lines' pc' := by
  cases hsend with
  | @lock e rc hm =>
    dsimp only [Worker.goto] at hpc'
    split at hpc' <;> cases hpc'
    · intro hr
      cases hr
    · trivial
  | openFails | writeFails | readFails | sendFails | closesFailed =>
    cases hpc'
    trivial
  | opens fd =>
    cases hpc'
    exact (call_opens hcall).2
  | writes fd hok =>
    cases hpc'
    obtain rfl := writeToFile_eq hok
    obtain ⟨hallowed, hlines, hline⟩ := hwrite _ _ _ rfl
    have hlen : w.rb.size = w.rb.content.length :=
      le_antisymm he (List.length_take_le _ _)
    have hfd : k.fds fd = some (.file t 0) := h
    have hfd' := call_deviceWrite hserves hlimit hallowed hfd hcall
    rw [hlen] at hcall ⊢
    refine ⟨Answer.follows_write fd hlines hline, 0, hfd', fun _ => rfl, fun _ => ?_⟩
    exact ⟨Nat.zero_le _, rfl⟩
  | seeks fd =>
    cases hpc'
    obtain ⟨hfollows, pos, hfd, hsending⟩ := h
    exact ⟨hfollows.mono hsub, pos, (call_lseek hfd hcall).2, hsending⟩
  | readsEnd fd =>
    cases hpc'
    obtain ⟨hfollows, hsending⟩ := h
    exact (hfollows.ends hsending hserves hlimit (by decide) hcall).mono hsub
  | @reads fd bytes hne =>
    cases hpc'
    obtain ⟨hfollows, hsending⟩ := h
    refine ⟨?_, hsending.reads hserves hlimit hcall⟩
    have hempty : bytes.isEmpty = false := by simpa using hne
    exact ⟨hsub hfollows.packet, hempty, hfollows.held, hfollows.recent⟩
  | @sendsAll fd rest conn n hall =>
    cases hpc'
    obtain ⟨hfollows, hsending⟩ := h
    refine ⟨⟨hsub hfollows.packet, hfollows.unfinished, hfollows.held, hfollows.recent⟩, ?_⟩
    exact hall ▸ hsending.sends hcall
  | @sendsPart fd rest conn n hpart =>
    cases hpc'
    obtain ⟨hfollows, hsending⟩ := h
    refine ⟨⟨hsub hfollows.packet, hfollows.unfinished, hfollows.held, hfollows.recent⟩, ?_⟩
    exact hsending.sends hcall
  | closes fd ok =>
    have hwhole : a.Whole lines := h
    cases ok with
    | true =>
      cases hpc'
      exact hwhole.mono hsub
    | false =>
      cases hpc'
      trivial
  | unlockFails | unlocksFailed =>
    cases hpc'
    intro hr
    cases hr
  | unlocks hm =>
    cases hpc'
    intro _
    have hwhole : a.Whole lines := h
    rcases releaseFileMutex_cases hm with ⟨-, rfl, -⟩ | ⟨-, ok, rfl, -⟩
    · exact hwhole.mono hsub
    · exact hwhole.mono hsub
  | returns r => cases hpc'

end

/-- What the calls that have returned and those under way have sent. -/
structure Answered (limit : ℕ) (s : System (DriverState 64)) (g : Answers) : Prop where
  serves : Serves limit s.kernel.node g.device
  answering : ∀ i w pc c, s.workers i = some w → w.pc = .sending pc →
    g.history.clients.client i = some c →
    Answering s.kernel (.worker i) g.device (g.current (.worker i))
      (records packetEnding (g.history.stream c)) pc
  returned : ∀ r ∈ g.returned, ∃ c, r.client = some c ∧
    r.answer.Whole (records packetEnding (g.history.stream c))

section
variable {limit : ℕ} {d : Device} {s s' : System (DriverState 64)} {g : Answers} {h : History}
  {t : Tid} {e : Event} {choice : DeviceChoice} {l : Label DeviceChoice}
  {tr : List (Label DeviceChoice)} {node : DriverState 64} {reserved : Fd → Bool}

theorem answered_start (hserves : Serves limit node d) :
    Answered limit (System.start node reserved) (.init d) := by
  constructor
  · exact hserves
  · intro i w pc c hw
    cases hw
  · simp [Answers.init]

theorem records_next (h : History) (l : Label DeviceChoice) (c : ℕ) :
    records packetEnding (h.stream c) ⊆ records packetEnding ((h.next l).stream c) := by
  apply List.IsPrefix.subset
  exact records_prefix (stream_next h l c)

theorem Answered.thread_step (ha : Answered limit s g) (hl : Logged deviceBuild s g.history)
    (hlimit : limit < 2 ^ 31)
    (hs : s.Step (aesdChar limit) deviceBuild (.thread t e choice) s') :
    Answered limit s' (g.call t e) := by
  have hcall := (System.thread_step hs.2).2.1
  have hlines (c : ℕ) : records packetEnding (g.history.stream c) ⊆
      records packetEnding ((g.history.call t e).stream c) :=
    records_next g.history (.thread t e choice) c
  constructor
  · exact step_device ha.serves hlimit hs
  · intro i w' pc' c hw' hpc' hc
    have hc' : (g.history.call t e).clients.client i = some c := hc
    rcases worker_after g.history hs.2 hw' with
      ⟨rfl, w, hw, hstep⟩ | ⟨hother, hw, hclient⟩ | ⟨data, fd, rfl⟩
    · have hmine : (g.call (.worker i) e).current (.worker i) =
          (g.current (.worker i)).call g.device e := if_pos rfl
      rw [hmine]
      cases Worker.step_next hstep with
      | @sends pc _ _ hpc hsend =>
        apply (ha.answering i w pc c hw hpc hc').next hsend hpc' hs.1.1 hcall ha.serves hlimit _
          (hlines c)
        rintro fd data written rfl
        obtain ⟨c', hclient, hline⟩ := worker_write_line hl hs
        cases hclient.symm.trans hc'
        exact ⟨step_allowed hs, hlines c hline, isRecord_of_mem hline⟩
      | callsSending =>
        cases hpc'
        trivial
      | reallocs hpc => cases hpc.symm.trans hpc'
      | _ => cases hpc'
    · rw [hclient] at hc'
      have hkept : (g.call t e).current (.worker i) =
          (g.current (.worker i)).observe g.device e := if_neg hother
      rw [hkept]
      exact (ha.answering i w' pc' c hw hpc' hc').observe (hlines c)
        fun fd pos hfd => hl.owned.files_kept hs.2 hcall hother hfd
    · cases hpc'
  · intro r hr
    have hold (hr : r ∈ g.returned) : ∃ c, r.client = some c ∧
        r.answer.Whole (records packetEnding ((g.call t e).history.stream c)) := by
      obtain ⟨c, hc, hwhole⟩ := ha.returned r hr
      exact ⟨c, hc, hwhole.mono (hlines c)⟩
    simp only [Answers.call] at hr
    split at hr
    next hreturn =>
      rcases List.mem_cons.mp hr with rfl | hr
      · obtain ⟨rfl, hworker⟩ := hreturn
        cases t with
        | main => exact absurd rfl hworker
        | worker i =>
          obtain ⟨-, w, w', kernel, hw, hstep, -⟩ := System.step_worker hs.2
          obtain ⟨c, hc, -⟩ := hl.owned.client i w hw
          have hpc := (Worker.step_next hstep).returns
          have hwhole := ha.answering i w _ c hw hpc hc rfl
          exact ⟨c, hc, hwhole.mono (hlines c)⟩
      · exact hold hr
    next => exact hold hr

theorem Answered.step (ha : Answered limit s g) (hl : Logged deviceBuild s g.history)
    (hlimit : limit < 2 ^ 31) (hs : s.Step (aesdChar limit) deviceBuild l s') :
    Answered limit s' (g.next l) := by
  have hserves := step_device ha.serves hlimit hs
  cases l with
  | thread t e choice => exact ha.thread_step hl hlimit hs
  | signal sig =>
    obtain ⟨-, hs⟩ := hs
    obtain ⟨-, -, rfl⟩ := System.step_signal hs
    refine ⟨hserves, fun i w pc c hw hpc hc => ?_, ha.returned⟩
    apply (ha.answering i w pc c hw hpc hc).observe (e := .compute) (List.Subset.refl _)
    intro fd pos hfd
    rw [(deliver_fds s.kernel sig).1, hfd]
  | disconnect c =>
    obtain ⟨-, hs⟩ := hs
    obtain ⟨-, -, rfl⟩ := System.step_disconnect hs
    exact ⟨hserves, fun i w pc c hw hpc hc =>
      (ha.answering i w pc c hw hpc hc).observe (e := .compute) (List.Subset.refl _)
        fun fd pos hfd => hfd, ha.returned⟩

theorem answersAfter_snoc (d : Device) (tr : List (Label DeviceChoice)) (l : Label DeviceChoice) :
    answersAfter d (tr ++ [l]) = (answersAfter d tr).next l := by
  rw [answersAfter, List.foldl_append]
  rfl

theorem answersAfter_history (d : Device) (tr : List (Label DeviceChoice)) :
    (answersAfter d tr).history = historyAfter tr := by
  induction tr using List.reverseRecOn with
  | nil => rfl
  | append_singleton tr l ih =>
    rw [answersAfter_snoc, historyAfter, List.foldl_append, ← historyAfter, ← ih]
    cases l <;> rfl

theorem run_answered (hserves : Serves limit node d) (hlimit : limit < 2 ^ 31)
    (hrun : Run (System.Step (aesdChar limit) deviceBuild) (System.start node reserved) tr s) :
    Answered limit s (answersAfter d tr) := by
  induction hrun with
  | nil => exact answered_start hserves
  | @snoc tr s l s' hrun hs ih =>
    rw [answersAfter_snoc]
    apply ih.step _ hlimit hs
    rw [answersAfter_history]
    exact run_logged hrun

/-- For any number of threads and any schedule of the device build: the ledger's device is what
the driver holds, and a call of `sending_data` that returned 0 with no entry going out of the ring
between its first `read` and its last has sent the entries of one instant between its `write` and
its last `read`. Its packet, a line of its client, is among them or ends one of them unless ten
entries came later. -/
theorem sending_data_answers_from_one_instant (hlimit : limit < 2 ^ 31) {fPos : ℕ → BitVec 64}
    (hnode : Driver.Reachable limit ⟨node, fPos⟩) (hd : Driver.Spells node d)
    (reserved : Fd → Bool)
    (hrun : Run (System.Step (aesdChar limit) deviceBuild) (System.start node reserved) tr s) :
    let g := answersAfter d tr
    Driver.Spells s.kernel.node g.device ∧ ∀ r ∈ g.returned,
      (∃ c, r.client = some c ∧ r.answer.packet ∈ records packetEnding (g.history.stream c)) ∧
        (r.answer.evicted = false → ∃ entries ∈ r.answer.held,
          r.answer.delivered = entries.flatten ∧
            (r.answer.later < maxWriteOperationsSupported →
              ∃ entry ∈ entries, r.answer.packet <:+ entry)) := by
  intro g
  obtain ⟨d', hrep, hwithin⟩ := hnode.represents (by decide) hlimit
  obtain rfl : d = d' := by
    obtain ⟨-, stored, hstored⟩ := id hrep
    exact hd.unique hstored.spells
  have hserves : Serves limit node d := ⟨hrep, hwithin⟩
  have hanswered := run_answered hserves hlimit hrun
  constructor
  · obtain ⟨⟨-, stored, hstored⟩, -⟩ := hanswered.serves
    exact hstored.spells
  · intro r hr
    obtain ⟨c, hc, hwhole⟩ := hanswered.returned r hr
    exact ⟨⟨c, hc, hwhole.packet⟩, hwhole.echo⟩

end

theorem deviceEcho_answered : ∃ s₀ : Driver.System 64, ∃ s, Driver.Reachable 4096 s₀ ∧
    Run (System.Step (aesdChar 4096) deviceBuild) (System.start s₀.driver fun _ => false)
      deviceEcho s ∧
    (answersAfter (Device.empty.write [120, 10]) deviceEcho).returned.length = 1 ∧
    ∀ r ∈ (answersAfter (Device.empty.write [120, 10]) deviceEcho).returned,
      ∃ entries ∈ r.answer.held, r.answer.delivered = entries.flatten := by
  obtain ⟨s₀, s, hreach, -, hrun, hspells, -⟩ := deviceEcho_run
  refine ⟨s₀, s, hreach, hrun, by decide +kernel, fun r hr => ?_⟩
  have hkept : ∀ r ∈ (answersAfter (Device.empty.write [120, 10]) deviceEcho).returned,
      r.answer.evicted = false := by decide +kernel
  obtain ⟨entries, hentries, hdelivered, -⟩ :=
    ((sending_data_answers_from_one_instant (by decide) hreach hspells (fun _ => false)
      hrun).2 r hr).2 (hkept r hr)
  exact ⟨entries, hentries, hdelivered⟩

def tenLines : List Driver.CallLabel :=
  (List.range 10).map fun i => (.write 0 (Driver.wholeCopy i [0]) [10], 1)

def nextClient : List (Label DeviceChoice) :=
  [.clockGettime 0, .compute, .tryJoin 0 none, .compute, .compute, .loadSignal false,
    .accept (some (6, 1)), .clockGettime 0, .compute, .malloc (some 3), .malloc (some 4),
    .pthreadCreate (some 1)].map fun e => .thread .main e (kernelGives none)

/-- The first client's `"a\n"` goes into the full ring, and the first `read` returns all of it. -/
def firstRead : List (Label DeviceChoice) :=
  [.mallocBuffers (List.replicate 1024 0), .loadSignal false, .recv 4 0 1024 (some [97, 10]),
    .realloc 1024 (some (List.replicate 1024 0)), .compute, .loadSignal false, .compute,
    .loadSignal false, .compute, .compute, .openFile (some 5), .write 5 [97, 10] (some 2),
    .lseek 5, .read 5 1023 (some [10, 10, 10, 10, 10, 10, 10, 10, 10, 97, 10]),
    .send 4 0 [10, 10, 10, 10, 10, 10, 10, 10, 10, 97, 10] 0 (some 11)].map fun e =>
      .thread (.worker 0) e (kernelGives (some (20, [0, 0])))

/-- The second client's `"bc\n"` goes into the ring. -/
def otherWrite : List (Label DeviceChoice) :=
  [.mallocBuffers (List.replicate 1024 0), .loadSignal false, .recv 6 1 1024 (some [98, 99, 10]),
    .realloc 1024 (some (List.replicate 1024 0)), .compute, .loadSignal false, .compute,
    .loadSignal false, .compute, .compute, .openFile (some 7),
    .write 7 [98, 99, 10] (some 3)].map fun e =>
      .thread (.worker 1) e (kernelGives (some (21, [0, 0, 0])))

/-- The next `read` returns what stands behind the eleventh byte now. -/
def laterReads : List (Label DeviceChoice) :=
  [.read 5 1023 (some [99, 10]), .send 4 0 [99, 10] 0 (some 2), .read 5 1023 (some []),
    .close 5 true, .compute, .returns 0].map fun e => .thread (.worker 0) e (kernelGives none)

def overtaken : List (Label DeviceChoice) :=
  firstClient ++ nextClient ++ firstRead ++ otherWrite ++ laterReads

/-- The first client gets nine newlines, its packet and `"c\n"`, which were never in the ring
together. -/
theorem overtaken_mixes_instants : ∃ s₀ : Driver.System 64, ∃ s, Driver.Reachable 4096 s₀ ∧
    Driver.Spells s₀.driver ((List.replicate 10 [10]).foldl Device.write .empty) ∧
    Run (System.Step (aesdChar 4096) deviceBuild) (System.start s₀.driver fun _ => false)
      overtaken s ∧
    ∃ r ∈ (answersAfter ((List.replicate 10 [10]).foldl Device.write .empty) overtaken).returned,
      ∀ entries ∈ r.answer.held, r.answer.delivered ≠ entries.flatten := by
  have hends : (runAfter tenLines overtaken).map (fun p => decide (Driver.Spells p.1.driver
      ((List.replicate 10 [10]).foldl Device.write .empty))) = some true := by
    decide +kernel
  obtain ⟨⟨s₀, s⟩, hs, hspells⟩ := Option.map_eq_some_iff.mp hends
  obtain ⟨hreach, hrun⟩ := runAfter_spec hs
  exact ⟨s₀, s, hreach, of_decide_eq_true hspells, hrun, by decide +kernel⟩

end Aesd.Server
