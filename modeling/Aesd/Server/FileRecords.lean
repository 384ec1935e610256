import Aesd.Server.History
import Aesd.Server.Mutex
import Aesd.Server.RegularFile

/-! The file build with writes that append all or nothing: the file is a concatenation of whole
records, one for each critical section, in the order in which `file_mutex` was taken. -/
namespace Aesd.Server
open Driver (Byte)
open Records Runs

/-- What one critical section has appended, and for which connection. -/
structure Section where
  writer : Tid
  client : Option ℕ
  bytes : List Byte

/-- A call of `sending_data`: what it has sent, the packet it appended and the content of the file
right after. -/
structure Call where
  delivered : List Byte
  packet : List Byte
  atAppend : List Byte

structure Response where
  client : Option ℕ
  call : Call

/-- The latest section and response come first. -/
structure Ledger where
  history : History
  content : List Byte
  sections : List Section
  calls : Tid → Call
  responses : List Response

/-- The bytes go to the latest section of their writer. -/
def fill (t : Tid) (bytes : List Byte) : List Section → List Section
  | [] => []
  | sec :: rest =>
    if sec.writer = t then { sec with bytes := sec.bytes ++ bytes } :: rest
    else sec :: fill t bytes rest

def Ledger.call (g : Ledger) (t : Tid) (e : Event) : Ledger :=
  match e with
  | .mutexLock true =>
    { g with
      history := g.history.call t e
      sections := ⟨t, g.history.clientOf t, []⟩ :: g.sections
      calls := Function.update g.calls t ⟨[], [], []⟩ }
  | .write _ data (some n) =>
    { g with
      history := g.history.call t e
      content := g.content ++ data.take n
      sections := fill t (data.take n) g.sections
      calls := Function.update g.calls t
        ⟨(g.calls t).delivered, data.take n, g.content ++ data.take n⟩ }
  | .send _ _ data _ (some n) =>
    { g with
      history := g.history.call t e
      calls := Function.update g.calls t
        ⟨(g.calls t).delivered ++ data.take n, (g.calls t).packet, (g.calls t).atAppend⟩ }
  | .returns r =>
    if r = 0 ∧ t ≠ .main then
      { g with
        history := g.history.call t e
        responses := ⟨g.history.clientOf t, g.calls t⟩ :: g.responses }
    else { g with history := g.history.call t e }
  | _ => { g with history := g.history.call t e }

def Ledger.next {χ : Type} (g : Ledger) : Label χ → Ledger
  | .thread t e _ => g.call t e
  | _ => g

def Ledger.init (content : List Byte) : Ledger :=
  ⟨.init, content, [], fun _ => ⟨[], [], []⟩, []⟩

def ledgerAfter {χ : Type} (content : List Byte) (tr : List (Label χ)) : Ledger :=
  tr.foldl Ledger.next (.init content)

def Event.shortWrite : Event → Bool
  | .write _ data (some n) => n ≠ data.length
  | _ => false

def Label.shortWrite {χ : Type} : Label χ → Bool
  | .thread _ e _ => e.shortWrite
  | _ => false

def Event.appended : Event → List Byte
  | .write _ data (some n) => data.take n
  | _ => []

/-- What the events appended, without the empty writes. -/
def appended (tr : List Event) : List (List Byte) := (tr.map Event.appended).filter (· ≠ [])

def packetsOf (c : ℕ) (sections : List Section) : List (List Byte) :=
  ((sections.filter fun sec => sec.client = some c ∧ sec.bytes ≠ []).map Section.bytes).reverse

theorem appended_snoc (tr : List Event) (e : Event) :
    appended (tr ++ [e]) = appended tr ++ if e.appended = [] then [] else [e.appended] := by
  by_cases he : e.appended = [] <;> simp [appended, he]

theorem packetsOf_cons (c : ℕ) (sec : Section) (rest : List Section) :
    packetsOf c (sec :: rest) =
      packetsOf c rest ++ if sec.client = some c ∧ sec.bytes ≠ [] then [sec.bytes] else [] := by
  unfold packetsOf
  rw [List.filter_cons]
  by_cases h : sec.client = some c ∧ sec.bytes ≠ [] <;> simp [h]

theorem mem_packetsOf {c : ℕ} {sections : List Section} {sec : Section} (hmem : sec ∈ sections)
    (hc : sec.client = some c) (hne : sec.bytes ≠ []) : sec.bytes ∈ packetsOf c sections := by
  unfold packetsOf
  apply List.mem_reverse.mpr
  apply List.mem_map_of_mem
  simp [hmem, hc, hne]

theorem appended_eq_nil {e : Event} (he : e.isWrite = false) : e.appended = [] := by
  cases e <;> first | rfl | cases he

theorem appended_sublist {tr : List Event} (hwhole : ∀ e ∈ tr, e.shortWrite = false) :
    (appended tr).Sublist (payloads tr) := by
  induction tr using List.reverseRecOn with
  | nil => exact List.Sublist.refl _
  | append_singleton tr e ih =>
    rw [appended_snoc, payloads_snoc]
    apply (ih fun e' he' => hwhole e' (by simp [he'])).append
    have he := hwhole e (by simp)
    cases e with
    | write fd data written =>
      cases written with
      | none => simp [Event.appended]
      | some n =>
        have hn : n = data.length := by simpa [Event.shortWrite] using he
        by_cases hdata : data = [] <;> simp [Event.appended, Event.payload, hn, hdata]
    | _ => simp [Event.appended]

section
variable {k k' : Kernel (List Byte)} {s s' : System (List Byte)} {g : Ledger} {h : History}
  {t t' : Tid} {e : Event} {content : List Byte}

theorem regularFile_write {file data : List Byte} {choice : Unit} {pos : ℕ} {written : Option ℕ}
    {r : List Byte × ℕ} (hr : regularFile.write file choice pos data written = some r) (fd : Fd) :
    r.1 = file ++ (Event.write fd data written).appended := by
  cases written with
  | none =>
    cases hr
    exact (List.append_nil _).symm
  | some n =>
    cases hr
    rfl

theorem regularFile_read {file : List Byte} {choice : Unit} {pos count : ℕ}
    {got : Option (List Byte)} {r : List Byte × ℕ}
    (hr : regularFile.read file choice pos count got = some r) : r.1 = file := by
  cases got with
  | none =>
    cases hr
    rfl
  | some bytes =>
    simp only [regularFile] at hr
    split at hr <;> cases hr
    rfl

theorem call_node {choice : Unit} (hcall : k.call regularFile t e choice = some k') :
    k'.node = k.node ++ e.appended := by
  unfold Kernel.call Kernel.close at hcall
  split at hcall
  all_goals repeat' split at hcall
  all_goals first
    | cases hcall <;> exact (List.append_nil _).symm
    | exact (send_fds hcall).2.2.2.2.trans (List.append_nil _).symm
    | obtain ⟨r, hr, rfl⟩ := Option.map_eq_some_iff.mp hcall
      exact regularFile_write hr _
    | obtain ⟨r, hr, rfl⟩ := Option.map_eq_some_iff.mp hcall
      exact (regularFile_read hr).trans (List.append_nil _).symm
    | obtain rfl := Option.some.inj hcall
      simp_all [Event.appended]

theorem call_history : (g.call t e).history = g.history.call t e := by
  unfold Ledger.call
  split
  case h_4 => split <;> rfl
  all_goals rfl

theorem call_content : (g.call t e).content = g.content ++ e.appended := by
  unfold Ledger.call
  split
  next => exact (List.append_nil _).symm
  next => rfl
  next => exact (List.append_nil _).symm
  next => split <;> exact (List.append_nil _).symm
  next _ hwrite _ _ =>
    have he : e.appended = [] := by
      unfold Event.appended
      split
      next => exact absurd rfl (hwrite _ _ _)
      next => rfl
    rw [he, List.append_nil]

theorem call_sections (hlock : e.usesMutex = false) (hwrite : e.isWrite = false) :
    (g.call t e).sections = g.sections := by
  unfold Ledger.call
  split
  next => cases hlock
  next => cases hwrite
  next => rfl
  next => split <;> rfl
  next => rfl

theorem call_calls (ht : t' ≠ t) : (g.call t e).calls t' = g.calls t' := by
  unfold Ledger.call
  split
  next => exact Function.update_of_ne ht ..
  next => exact Function.update_of_ne ht ..
  next => exact Function.update_of_ne ht ..
  next => split <;> rfl
  next => rfl

theorem appended_call (c : ℕ) : appended ((h.call t e).log c) = appended (h.log c) ++
    if h.clientOf t = some c ∧ e.appended ≠ [] then [e.appended] else [] := by
  rw [log_call]
  by_cases hc : h.clientOf t = some c
  · rw [if_pos hc, appended_snoc]
    by_cases he : e.appended = [] <;> simp [hc, he]
  · simp [hc]

theorem clientOf_call {choice : Unit} (hs : s.step regularFile fileBuild (.thread t e choice) =
    some s') (hphase : s.lockPhase t' ≠ .outside) :
    (h.call t e).clientOf t' = h.clientOf t' := by
  cases t' with
  | main => rfl
  | worker i =>
    simp only [History.clientOf, History.call]
    unfold Clients.call
    split
    · rfl
    next j =>
      obtain ⟨-, main, kernel, workers, -, -, hthreads, -⟩ := System.step_main hs
      cases hthreads with
      | starts hpc hfd hfree =>
        apply Function.update_of_ne
        rintro rfl
        simp [System.lockPhase, hfree] at hphase
      | quiet hmoves => cases hmoves
    · rfl

def StampPc.text : StampPc → Option (List Byte)
  | .lock text => some text
  | .openFile text => some text
  | .write _ text => some text
  | _ => none

/-- Whatever `write_time_stamp` holds ready is a whole timestamp. -/
def Main.Stamped (m : Main) : Prop :=
  ∀ pc text, m.pc = .stamp pc → pc.text = some text → ∃ tm, text = timeStamp tm

theorem Stamps.text {b : Build} {pc pc' : StampPc} {text : List Byte}
    (h : Stamps b pc e (some pc')) (htext : pc'.text = some text)
    (hold : ∀ text, pc.text = some text → ∃ tm, text = timeStamp tm) :
    ∃ tm, text = timeStamp tm := by
  cases h with
  | formats tm =>
    cases htext
    exact ⟨tm, rfl⟩
  | lock hm =>
    split at htext <;> cases htext
    exact hold _ rfl
  | opens =>
    cases htext
    exact hold _ rfl
  | writes => split at htext <;> cases htext
  | closes fd ok => cases ok <;> cases htext
  | formatFails | openFails | unlocks | closesFailed | unlocksFailed => cases htext

theorem Main.Stamped.next {b : Build} {m m' : Main} (h : m.Stamped) (hn : m.Next b e m') :
    m'.Stamped := by
  intro pc' text hpc' htext
  cases hn with
  | stamps hpc hstamp =>
    cases hpc'
    exact hstamp.text htext fun text ht => h _ text hpc ht
  | stampDue =>
    cases hpc'
    cases htext
  | _ => cases hpc'

theorem Main.Next.write_text {b : Build} {m m' : Main} {fd : Fd} {data : List Byte}
    {written : Option ℕ} (h : m.Stamped) (hn : m.Next b (.write fd data written) m') :
    ∃ tm, data = timeStamp tm := by
  cases hn with
  | stamps hpc hstamp =>
    cases hstamp with
    | writes => exact h _ _ hpc rfl
    | lock hm => cases hm
    | unlocks hm => cases hm
    | unlocksFailed hm => cases hm
  | stamped hpc hstamp => cases hstamp

/-- The file is the sections' bytes, and the thread in its critical section fills the latest. -/
structure Recorded (content : List Byte) (s : System (List Byte)) (g : Ledger) : Prop where
  node : s.kernel.node = g.content
  content : g.content = content ++ (g.sections.reverse.map Section.bytes).flatten
  current : ∀ t, s.kernel.mutex = some t → ∃ bytes rest,
    g.sections = ⟨t, g.history.clientOf t, bytes⟩ :: rest ∧
      (s.lockPhase t = .unwritten → bytes = [])
  stamps : ∀ sec ∈ g.sections, sec.writer = .main →
    sec.bytes = [] ∨ ∃ tm, sec.bytes = timeStamp tm
  workers : ∀ sec ∈ g.sections, sec.writer ≠ .main → sec.client ≠ none
  packets : ∀ c, packetsOf c g.sections = appended (g.history.log c)
  stamped : s.main.Stamped

theorem recorded_start (content : List Byte) (reserved : Fd → Bool) :
    Recorded content (System.start content reserved) (.init content) := by
  constructor
  · rfl
  · simp [Ledger.init]
  · intro t ht
    cases ht
  · simp [Ledger.init]
  · simp [Ledger.init]
  · intro c
    rfl
  · intro pc text hpc
    cases hpc

variable {choice : Unit}

theorem Main.Stamped.step (h : s.main.Stamped)
    (hs : s.step regularFile fileBuild (.thread t e choice) = some s') : s'.main.Stamped := by
  cases t with
  | main =>
    obtain ⟨-, main, kernel, workers, hnext, -, -, rfl⟩ := System.step_main hs
    exact h.next hnext
  | worker i =>
    obtain ⟨-, w, w', kernel, -, -, -, rfl⟩ := System.step_worker hs
    exact h

theorem Recorded.keep (hr : Recorded content s g) (hx : Exclusive fileBuild s)
    (hs : s.step regularFile fileBuild (.thread t e choice) = some s')
    (hsections : (g.call t e).sections = g.sections) (happ : e.appended = [])
    (hcurrent : ∀ t', s'.kernel.mutex = some t' → s.kernel.mutex = some t' ∧
      (s'.lockPhase t' = .unwritten → s.lockPhase t' = .unwritten)) :
    Recorded content s' (g.call t e) := by
  have hcall := (System.thread_step hs).2.1
  constructor
  · rw [call_node hcall, call_content, hr.node]
  · rw [call_content, happ, List.append_nil, hsections]
    exact hr.content
  · intro t' ht'
    obtain ⟨hmutex, hphase⟩ := hcurrent t' ht'
    obtain ⟨bytes, rest, hsec, hnil⟩ := hr.current t' hmutex
    have hinside : s.lockPhase t' ≠ .outside := by
      intro hout
      have hheld := ((hx t').mp hmutex).2
      rw [hout] at hheld
      cases hheld
    rw [hsections, call_history, clientOf_call hs hinside]
    exact ⟨bytes, rest, hsec, fun h => hnil (hphase h)⟩
  · rw [hsections]
    exact hr.stamps
  · rw [hsections]
    exact hr.workers
  · intro c
    rw [hsections, call_history, appended_call, hr.packets c]
    simp [happ]
  · exact hr.stamped.step hs

theorem Recorded.enters (hr : Recorded content s g) (hl : Logged fileBuild s g.history)
    (hs : s.step regularFile fileBuild (.thread t (.mutexLock true) choice) = some s') :
    Recorded content s' (g.call t (.mutexLock true)) := by
  have hcall := (System.thread_step hs).2.1
  obtain ⟨-, hkernel⟩ := call_mutexLock hcall
  constructor
  · rw [hkernel]
    exact hr.node
  · simpa [Ledger.call] using hr.content
  · intro t' ht'
    rw [hkernel] at ht'
    cases ht'
    refine ⟨[], g.sections, ?_, fun _ => rfl⟩
    cases t <;> rfl
  · intro sec hsec hmain
    rcases List.mem_cons.mp hsec with rfl | hsec
    · exact .inl rfl
    · exact hr.stamps sec hsec hmain
  · intro sec hsec hworker
    rcases List.mem_cons.mp hsec with rfl | hsec
    · cases t with
      | main => exact absurd rfl hworker
      | worker i =>
        obtain ⟨-, w, -, -, hw, -⟩ := System.step_worker hs
        obtain ⟨c, hc, -⟩ := hl.owned.client i w hw
        simp [History.clientOf, hc]
    · exact hr.workers sec hsec hworker
  · intro c
    rw [call_history, appended_call, ← hr.packets c]
    simp [Ledger.call, packetsOf_cons, Event.appended]
  · exact hr.stamped.step hs

/-- A whole `write` fills the section of its writer. -/
theorem Recorded.writes (hr : Recorded content s g) (hx : Exclusive fileBuild s) {fd : Fd}
    {data : List Byte}
    (hs : s.step regularFile fileBuild
      (.thread t (.write fd data (some data.length)) choice) = some s')
    (hp : s.lockPhase t = .unwritten) (hp' : s'.lockPhase t = .written) :
    Recorded content s' (g.call t (.write fd data (some data.length))) := by
  have hcall := (System.thread_step hs).2.1
  have hmutex : s.kernel.mutex = some t := (hx t).mpr ⟨rfl, by rw [hp]; rfl⟩
  obtain ⟨bytes, rest, hsec, hnil⟩ := hr.current t hmutex
  obtain rfl := hnil hp
  have hsections : (g.call t (.write fd data (some data.length))).sections =
      ⟨t, g.history.clientOf t, data⟩ :: rest := by
    simp [Ledger.call, hsec, fill]
  have hdata : (Event.write fd data (some data.length)).appended = data := List.take_length
  constructor
  · rw [call_node hcall, call_content, hr.node]
  · rw [call_content, hdata, hsections, hr.content, hsec]
    simp
  · intro t' ht'
    rw [call_mutex hcall rfl, hmutex] at ht'
    cases ht'
    rw [hsections, call_history, clientOf_call hs (by simp [hp])]
    exact ⟨data, rest, rfl, by simp [hp']⟩
  · intro sec hmem hmain
    rw [hsections] at hmem
    rcases List.mem_cons.mp hmem with rfl | hmem
    · obtain rfl : t = .main := hmain
      obtain ⟨-, main, -, -, hnext, -⟩ := System.step_main hs
      exact .inr (hnext.write_text hr.stamped)
    · exact hr.stamps sec (hsec ▸ List.mem_cons_of_mem _ hmem) hmain
  · intro sec hmem hworker
    rw [hsections] at hmem
    rcases List.mem_cons.mp hmem with rfl | hmem
    · exact hr.workers ⟨t, _, []⟩ (hsec ▸ List.mem_cons_self) hworker
    · exact hr.workers sec (hsec ▸ List.mem_cons_of_mem _ hmem) hworker
  · intro c
    rw [hsections, call_history, appended_call, hdata, packetsOf_cons, ← hr.packets c, hsec,
      packetsOf_cons]
    simp
  · exact hr.stamped.step hs

theorem Recorded.thread_step (hr : Recorded content s g) (hl : Logged fileBuild s g.history)
    (hx : Exclusive fileBuild s) (hwhole : e.shortWrite = false)
    (hs : s.step regularFile fileBuild (.thread t e choice) = some s') :
    Recorded content s' (g.call t e) := by
  obtain ⟨hlock, hcall, hother⟩ := System.thread_step hs
  generalize hp : s.lockPhase t = p at hlock
  generalize hp' : s'.lockPhase t = p' at hlock
  -- as long as the mutex does not move and `t` begins no section, the holder stays where it was
  have hcurrent (hmutex : s'.kernel.mutex = s.kernel.mutex)
      (hphase : p' = .unwritten → p = .unwritten) (t' : Tid)
      (ht' : s'.kernel.mutex = some t') : s.kernel.mutex = some t' ∧
        (s'.lockPhase t' = .unwritten → s.lockPhase t' = .unwritten) := by
    refine ⟨hmutex ▸ ht', fun h => ?_⟩
    by_cases hsame : t' = t
    · subst hsame
      rw [hp]
      exact hphase (hp' ▸ h)
    · exact hother t' hsame ▸ h
  cases hlock with
  | enters hm =>
    rcases getFileMutex_cases hm with ⟨hb, -⟩ | ⟨-, ok, rfl, hok⟩
    · cases hb
    · cases ok with
      | false => cases hok
      | true => exact hr.enters hl hs
  | refused hm =>
    rcases getFileMutex_cases hm with ⟨hb, -⟩ | ⟨-, ok, rfl, hok⟩
    · cases hb
    · cases ok with
      | false =>
        have hkernel : s'.kernel = s.kernel := (Option.some.inj hcall).symm
        exact hr.keep hx hs rfl rfl (hcurrent (by rw [hkernel]) fun h => by cases h)
      | true => cases hok
  | leaves hm =>
    rcases releaseFileMutex_cases hm with ⟨hb, -⟩ | ⟨-, ok, rfl, -⟩
    · cases hb
    · obtain ⟨-, -, hkernel⟩ := call_mutexUnlock hcall
      refine hr.keep hx hs rfl rfl fun t' ht' => ?_
      rw [hkernel] at ht'
      cases ht'
  | writes fd data written =>
    cases written with
    | none =>
      exact hr.keep hx hs rfl rfl (hcurrent (call_mutex hcall rfl) fun h => by cases h)
    | some n =>
      obtain rfl : n = data.length := by simpa [Event.shortWrite] using hwhole
      exact hr.writes hx hs hp hp'
  | gives => exact hr.keep hx hs rfl rfl (hcurrent (call_mutex hcall rfl) fun h => by cases h)
  | keeps p he hw =>
    exact hr.keep hx hs (call_sections he hw) (appended_eq_nil hw)
      (hcurrent (call_mutex hcall he) id)

theorem Recorded.outside (hr : Recorded content s g) {kernel : Kernel (List Byte)}
    (hnode : kernel.node = s.kernel.node) (hmutex : kernel.mutex = s.kernel.mutex) :
    Recorded content { s with kernel := kernel } g := by
  constructor
  · exact hnode.trans hr.node
  · exact hr.content
  · intro t ht
    exact hr.current t (hmutex ▸ ht)
  · exact hr.stamps
  · exact hr.workers
  · exact hr.packets
  · exact hr.stamped

theorem Recorded.step (hr : Recorded content s g) (hl : Logged fileBuild s g.history)
    (hx : Exclusive fileBuild s) {l : Label Unit} (hwhole : l.shortWrite = false)
    (hs : s.Step regularFile fileBuild l s') : Recorded content s' (g.next l) := by
  obtain ⟨-, hs⟩ := hs
  cases l with
  | thread t e choice => exact hr.thread_step hl hx hwhole hs
  | signal sig =>
    obtain ⟨-, -, rfl⟩ := System.step_signal hs
    obtain ⟨-, -, -, hmutex, hnode⟩ := deliver_fds s.kernel sig
    exact hr.outside hnode hmutex
  | disconnect c =>
    obtain ⟨-, -, rfl⟩ := System.step_disconnect hs
    exact hr.outside rfl rfl

end

end Aesd.Server
