import Aesd.Server.FileRecords

/-! What `sending_data` sends back in the file build: the whole file as it was right after the
call's own packet was appended. -/
namespace Aesd.Server
open Driver (Byte)
open Records Runs

/-- The call's packet ends the file it saw and was handed to `write_to_file`. -/
structure Call.Appended (call : Call) (handed : List (List Byte)) : Prop where
  packet : call.packet <:+ call.atAppend
  handed : call.packet ∈ handed

/-- What the call has sent of the file when it gets to each place. -/
def Echoing (k : Kernel (List Byte)) (t : Tid) (call : Call) (handed : List (List Byte)) :
    SendPc → Prop
  | .openFile => call.delivered = []
  | .write _ => call.delivered = []
  | .lseek _ => call.Appended handed ∧ call.atAppend = k.node ∧ call.delivered = []
  | .read fd => call.Appended handed ∧ call.atAppend = k.node ∧
      ∃ pos, k.fds fd = some (.file t pos) ∧ call.delivered = k.node.take pos
  | .send fd rest => call.Appended handed ∧ call.atAppend = k.node ∧
      ∃ pos, k.fds fd = some (.file t pos) ∧ call.delivered ++ rest = k.node.take pos
  | .closeOk _ => call.Appended handed ∧ call.atAppend = k.node ∧ call.delivered = k.node
  | .unlockOk => call.Appended handed ∧ call.atAppend = k.node ∧ call.delivered = k.node
  | .ret r => r = 0 →
      call.Appended handed ∧ call.atAppend <+: k.node ∧ call.delivered = call.atAppend
  | _ => True

section
variable {k k' : Kernel (List Byte)} {s s' : System (List Byte)} {g : Ledger} {h : History}
  {t : Tid} {e : Event} {content : List Byte} {choice : Unit} {call : Call}
  {handed handed' : List (List Byte)} {pc : SendPc}

theorem Call.Appended.mono (h : call.Appended handed) (hsub : handed ⊆ handed') :
    call.Appended handed' :=
  ⟨h.packet, hsub h.handed⟩

/-- Steps of the other threads: inside the critical section the file stands still. -/
theorem Echoing.frame (h : Echoing k t call handed pc)
    (hnode : pc.lockPhase ≠ .outside → k'.node = k.node) (hgrows : k.node <+: k'.node)
    (hfile : ∀ fd pos, k.fds fd = some (.file t pos) → k'.fds fd = some (.file t pos))
    (hsub : handed ⊆ handed') : Echoing k' t call handed' pc := by
  cases pc with
  | openFile | write => exact h
  | lseek fd =>
    obtain ⟨happ, hat, hdelivered⟩ := h
    exact ⟨happ.mono hsub, by rw [hat, hnode (by simp [SendPc.lockPhase])], hdelivered⟩
  | read fd =>
    obtain ⟨happ, hat, pos, hfd, hdelivered⟩ := h
    have hsame := hnode (by simp [SendPc.lockPhase])
    exact ⟨happ.mono hsub, by rw [hat, hsame], pos, hfile fd pos hfd, by rw [hdelivered, hsame]⟩
  | send fd rest =>
    obtain ⟨happ, hat, pos, hfd, hdelivered⟩ := h
    have hsame := hnode (by simp [SendPc.lockPhase])
    exact ⟨happ.mono hsub, by rw [hat, hsame], pos, hfile fd pos hfd, by rw [hdelivered, hsame]⟩
  | closeOk | unlockOk =>
    obtain ⟨happ, hat, hdelivered⟩ := h
    have hsame := hnode (by simp [SendPc.lockPhase])
    exact ⟨happ.mono hsub, by rw [hat, hsame], by rw [hdelivered, hsame]⟩
  | ret r =>
    intro hr
    obtain ⟨happ, hpre, hdelivered⟩ := h hr
    exact ⟨happ.mono hsub, hpre.trans hgrows, hdelivered⟩
  | lock | closeFail | unlockFail => trivial

/-- A `read` returns the next bytes of the file and moves behind them; it returns none only at the
end. -/
theorem call_read {fd : Fd} {opener : Tid} {pos n : ℕ} {bytes : List Byte} (hn : 0 < n)
    (hfd : k.fds fd = some (.file opener pos))
    (hcall : k.call regularFile t (.read fd n (some bytes)) choice = some k') :
    k'.node = k.node ∧ k'.fds fd = some (.file opener (pos + bytes.length)) ∧
      k.node.take pos ++ bytes = k.node.take (pos + bytes.length) ∧
      (bytes = [] → k.node.take pos = k.node) := by
  simp only [Kernel.call, hfd] at hcall
  obtain ⟨r, hr, rfl⟩ := Option.map_eq_some_iff.mp hcall
  simp only [regularFile] at hr
  split at hr <;> cases hr
  next hread =>
    obtain ⟨hpre, hend⟩ := hread
    refine ⟨rfl, Function.update_self .., ?_, fun hnil => ?_⟩
    · have hbytes : (k.node.drop pos).take bytes.length = bytes :=
        (List.prefix_iff_eq_take.mp (hpre.trans (List.take_prefix _ _))).symm
      rw [List.take_add, hbytes]
    · have hlen := congrArg List.length (hend hnil)
      simp only [List.length_take, List.length_drop, List.length_nil] at hlen
      exact List.take_of_length_le (by omega)

theorem call_sent (fd : Fd) (conn : ℕ) (rest : List Byte) (n : ℕ) :
    ∃ delivered, (g.call t (.send fd conn rest 0 (some n))).calls t =
      ⟨delivered, (g.calls t).packet, (g.calls t).atAppend⟩ ∧
      delivered ++ rest.drop n = (g.calls t).delivered ++ rest := by
  refine ⟨(g.calls t).delivered ++ rest.take n, ?_, ?_⟩
  · simp [Ledger.call]
  · rw [List.append_assoc, List.take_append_drop]

theorem Echoing.next {w w' : Worker} {pc' : SendPc} (hecho : Echoing k t (g.calls t) handed pc)
    (hsend : w.Sends fileBuild pc e w') (hpc' : w'.pc = .sending pc')
    (hcall : k.call regularFile t e choice = some k') (hnode : k.node = g.content)
    (hfile : ∀ fd, pc.fileFd = some fd → ∃ pos, k.fds fd = some (.file t pos)) :
    Echoing k' t ((g.call t e).calls t) (handed ++ e.payload.toList) pc' := by
  have hgrown := call_node hcall
  cases hsend with
  | @lock e rc hm =>
    rcases getFileMutex_cases hm with ⟨hb, -⟩ | ⟨-, ok, rfl, rfl⟩
    · cases hb
    · cases ok with
      | true =>
        cases hpc'
        simp [Echoing, Ledger.call]
      | false =>
        cases hpc'
        intro hr
        cases hr
  | openFails =>
    cases hpc'
    trivial
  | opens fd =>
    cases hpc'
    exact hecho
  | writeFails fd hfail =>
    cases hpc'
    trivial
  | writes fd hok =>
    cases hpc'
    obtain rfl := writeToFile_eq hok
    have hdata : w.rb.content.take w.rb.size = w.rb.content := by
      rw [BufferData.content, List.take_take, min_self]
    have happended : (Event.write fd w.rb.content (some w.rb.size)).appended = w.rb.content := hdata
    refine ⟨⟨?_, ?_⟩, ?_, ?_⟩
    · simp [Ledger.call, hdata]
    · simp [Ledger.call, hdata, Event.payload]
    · simp [Ledger.call, hgrown, happended, hdata, hnode]
    · have hempty : (g.calls t).delivered = [] := hecho
      simpa [Ledger.call] using hempty
  | seeks fd =>
    cases hpc'
    obtain ⟨happ, hat, hdelivered⟩ := hecho
    obtain ⟨pos, hfd⟩ := hfile fd rfl
    obtain ⟨hsame, hfd'⟩ := call_lseek hfd hcall
    exact ⟨happ.mono (List.subset_append_left _ _), hat.trans hsame.symm, 0, hfd', by
      rw [List.take_zero]; exact hdelivered⟩
  | readFails fd =>
    cases hpc'
    trivial
  | readsEnd fd =>
    cases hpc'
    obtain ⟨happ, hat, pos, hfd, hdelivered⟩ := hecho
    obtain ⟨hsame, -, -, hend⟩ := call_read (by decide) hfd hcall
    exact ⟨happ.mono (List.subset_append_left _ _), hat.trans hsame.symm,
      hdelivered.trans ((hend rfl).trans hsame.symm)⟩
  | @reads fd bytes hne =>
    cases hpc'
    obtain ⟨happ, hat, pos, hfd, hdelivered⟩ := hecho
    obtain ⟨hsame, hfd', hnext, -⟩ := call_read (by decide) hfd hcall
    refine ⟨happ.mono (List.subset_append_left _ _), hat.trans hsame.symm, _, hfd', ?_⟩
    rw [hsame, ← hnext, ← hdelivered]
    rfl
  | sendFails fd rest conn =>
    cases hpc'
    trivial
  | @sendsAll fd rest conn n hall =>
    cases hpc'
    obtain ⟨happ, hat, pos, hfd, hdelivered⟩ := hecho
    obtain ⟨hsame, hfds⟩ := call_send hcall
    obtain ⟨delivered, hcalls, hmoved⟩ := call_sent w.data.clientFd conn rest n
    rw [hcalls]
    rw [hall, List.append_nil] at hmoved
    refine ⟨⟨happ.packet, List.mem_append_left _ happ.handed⟩, hat.trans hsame.symm, pos,
      hfds ▸ hfd, ?_⟩
    exact (hmoved.trans hdelivered).trans (by rw [hsame])
  | @sendsPart fd rest conn n hpart =>
    cases hpc'
    obtain ⟨happ, hat, pos, hfd, hdelivered⟩ := hecho
    obtain ⟨hsame, hfds⟩ := call_send hcall
    obtain ⟨delivered, hcalls, hmoved⟩ := call_sent w.data.clientFd conn rest n
    rw [hcalls]
    refine ⟨⟨happ.packet, List.mem_append_left _ happ.handed⟩, hat.trans hsame.symm, pos,
      hfds ▸ hfd, ?_⟩
    exact (hmoved.trans hdelivered).trans (by rw [hsame])
  | closes fd ok =>
    obtain ⟨happ, hat, hdelivered⟩ := hecho
    have hsame : k'.node = k.node := hgrown.trans (List.append_nil _)
    cases ok with
    | true =>
      cases hpc'
      exact ⟨happ.mono (List.subset_append_left _ _), hat.trans hsame.symm,
        hdelivered.trans hsame.symm⟩
    | false =>
      cases hpc'
      trivial
  | unlockFails hm =>
    cases hpc'
    intro hr
    cases hr
  | unlocks hm hrc =>
    cases hpc'
    obtain ⟨happ, hat, hdelivered⟩ := hecho
    rcases releaseFileMutex_cases hm with ⟨hb, -⟩ | ⟨-, ok, rfl, -⟩
    · cases hb
    · intro _
      have hsame : k'.node = k.node := hgrown.trans (List.append_nil _)
      refine ⟨happ.mono (List.subset_append_left _ _), ?_, hdelivered.trans hat.symm⟩
      rw [hsame, ← hat]
      exact List.prefix_rfl
  | closesFailed fd ok =>
    cases hpc'
    trivial
  | unlocksFailed hm =>
    cases hpc'
    intro hr
    cases hr
  | returns r => cases hpc'

structure Echoed (s : System (List Byte)) (g : Ledger) : Prop where
  echoing : ∀ i w pc c, s.workers i = some w → w.pc = .sending pc →
    g.history.clients.client i = some c →
    Echoing s.kernel (.worker i) (g.calls (.worker i)) (payloads (g.history.log c)) pc
  responses : ∀ r ∈ g.responses, ∃ c, r.client = some c ∧
    r.call.Appended (payloads (g.history.log c)) ∧ r.call.atAppend <+: g.content ∧
    r.call.delivered = r.call.atAppend

theorem echoed_start (content : List Byte) (reserved : Fd → Bool) :
    Echoed (System.start content reserved) (.init content) := by
  constructor
  · intro i w pc c hw
    cases hw
  · simp [Ledger.init]

theorem payloads_call (c : ℕ) : payloads (h.log c) ⊆ payloads ((h.call t e).log c) := by
  rw [log_call]
  split
  · rw [payloads_snoc]
    exact List.subset_append_left _ _
  · exact List.Subset.refl _

theorem LockStep.unwritten_of_write {b : Build} {p p' : LockPhase} (h : LockStep b p e p')
    (he : e.isWrite = true) : p = .unwritten := by
  cases h with
  | writes => rfl
  | gives => rfl
  | enters hm | refused hm =>
    rcases getFileMutex_cases hm with ⟨-, rfl, -⟩ | ⟨-, ok, rfl, -⟩ <;> cases he
  | leaves hm =>
    rcases releaseFileMutex_cases hm with ⟨-, rfl, -⟩ | ⟨-, ok, rfl, -⟩ <;> cases he
  | keeps p hlock hwrite => cases hwrite.symm.trans he

/-- While a thread is in its critical section, no step of another writes. -/
theorem Exclusive.node_still {t' : Tid} (hx : Exclusive fileBuild s)
    (hs : s.step regularFile fileBuild (.thread t e choice) = some s') (ht : t' ≠ t)
    (hphase : s.lockPhase t' ≠ .outside) : s'.kernel.node = s.kernel.node := by
  obtain ⟨hlock, hcall, -⟩ := System.thread_step hs
  have hheld : s.kernel.mutex = some t' := by
    apply (hx t').mpr
    cases hp : s.lockPhase t' with
    | outside => exact absurd hp hphase
    | unwritten => exact ⟨rfl, rfl⟩
    | written => exact ⟨rfl, rfl⟩
  cases hwrite : e.isWrite with
  | true =>
    have hmine : s.kernel.mutex = some t :=
      (hx t).mpr ⟨rfl, by rw [hlock.unwritten_of_write hwrite]; rfl⟩
    exact absurd (Option.some.inj (hheld.symm.trans hmine)) ht
  | false => rw [call_node hcall, appended_eq_nil hwrite, List.append_nil]

theorem call_responses {r : Response} (hr : r ∈ (g.call t e).responses) : r ∈ g.responses ∨
    ∃ i, t = .worker i ∧ e = .returns 0 ∧
      r = ⟨g.history.clients.client i, g.calls (.worker i)⟩ := by
  unfold Ledger.call at hr
  split at hr
  next => exact .inl hr
  next => exact .inl hr
  next => exact .inl hr
  next =>
    split at hr
    next hreturn =>
      obtain ⟨rfl, hworker⟩ := hreturn
      rcases List.mem_cons.mp hr with rfl | hr
      · cases t with
        | main => exact absurd rfl hworker
        | worker i => exact .inr ⟨i, rfl, rfl, rfl⟩
      · exact .inl hr
    next => exact .inl hr
  next => exact .inl hr

theorem Echoed.frame (hecho : Echoed s g) (hl : Logged fileBuild s g.history)
    (hx : Exclusive fileBuild s)
    (hs : s.step regularFile fileBuild (.thread t e choice) = some s') {i : ℕ} {w : Worker}
    (ht : Tid.worker i ≠ t) (hw : s.workers i = some w) {pc : SendPc} (hpc : w.pc = .sending pc)
    {c : ℕ} (hc : g.history.clients.client i = some c) :
    Echoing s'.kernel (.worker i) ((g.call t e).calls (.worker i))
      (payloads ((g.call t e).history.log c)) pc := by
  have hcall := (System.thread_step hs).2.1
  rw [call_calls ht, call_history]
  refine (hecho.echoing i w pc c hw hpc hc).frame (fun hphase => ?_) ?_
    (fun fd pos hfd => hl.owned.files_kept hs hcall ht hfd) (payloads_call c)
  · apply hx.node_still hs ht
    rw [lockPhase_of_worker hw]
    simpa only [Worker.lockPhase, hpc] using hphase
  · rw [call_node hcall]
    exact List.prefix_append _ _

theorem Worker.Next.returns {b : Build} {w w' : Worker} {r : ℤ} (hn : w.Next b (.returns r) w') :
    w.pc = .sending (.ret r) := by
  cases hn with
  | sends hpc hsend =>
    cases hsend with
    | returns => exact hpc
    | lock hm => cases hm
    | unlockFails hm => cases hm
    | unlocks hm => cases hm
    | unlocksFailed hm => cases hm

theorem Echoed.thread_step (hecho : Echoed s g) (hl : Logged fileBuild s g.history)
    (hx : Exclusive fileBuild s) (hnode : s.kernel.node = g.content)
    (hs : s.step regularFile fileBuild (.thread t e choice) = some s') :
    Echoed s' (g.call t e) := by
  have hcall := (System.thread_step hs).2.1
  constructor
  · intro i w' pc' c hw' hpc' hc
    rw [call_history] at hc
    rcases worker_after g.history hs hw' with
      ⟨rfl, w, hw, hstep⟩ | ⟨hother, hw, hclient⟩ | ⟨data, fd, rfl⟩
    · have hc' : g.history.clients.client i = some c := hc
      have hlog : (g.history.call (.worker i) e).log c = g.history.log c ++ [e] := by
        simp only [History.call, hc', Function.update_self]
      rw [call_history, hlog, payloads_snoc]
      cases Worker.step_next hstep with
      | @sends pc _ _ hpc hsend =>
        refine (hecho.echoing i w pc c hw hpc hc').next hsend hpc' hcall hnode fun fd hfd => ?_
        exact hl.owned.workerFile i w fd hw (by simpa only [Worker.fileFd, hpc] using hfd)
      | callsSending =>
        cases hpc'
        trivial
      | reallocs hpc => cases hpc.symm.trans hpc'
      | _ => cases hpc'
    · exact hecho.frame hl hx hs hother hw hpc' (hclient ▸ hc)
    · cases hpc'
  · intro r hr
    have hgrows : g.content <+: (g.call t e).content := by
      rw [call_content]
      exact List.prefix_append _ _
    rcases call_responses hr with hold | ⟨i, rfl, rfl, rfl⟩
    · obtain ⟨c, hc, happ, hpre, hdelivered⟩ := hecho.responses r hold
      refine ⟨c, hc, happ.mono ?_, hpre.trans hgrows, hdelivered⟩
      rw [call_history]
      exact payloads_call c
    · obtain ⟨-, w, w', kernel, hw, hstep, -, -⟩ := System.step_worker hs
      obtain ⟨c, hc, -⟩ := hl.owned.client i w hw
      have hpc := (Worker.step_next hstep).returns
      obtain ⟨happ, hpre, hdelivered⟩ := hecho.echoing i w _ c hw hpc hc rfl
      refine ⟨c, hc, happ.mono ?_, (hnode ▸ hpre).trans hgrows, hdelivered⟩
      rw [call_history]
      exact payloads_call c

theorem Echoed.outside (hecho : Echoed s g) {kernel : Kernel (List Byte)}
    (hnode : kernel.node = s.kernel.node) (hfds : kernel.fds = s.kernel.fds) :
    Echoed { s with kernel := kernel } g := by
  constructor
  · intro i w pc c hw hpc hc
    apply (hecho.echoing i w pc c hw hpc hc).frame (fun _ => hnode) _ _ (List.Subset.refl _)
    · rw [hnode]
    · intro fd pos hfd
      rw [hfds, hfd]
  · exact hecho.responses

theorem Echoed.step (hecho : Echoed s g) (hl : Logged fileBuild s g.history)
    (hx : Exclusive fileBuild s) (hnode : s.kernel.node = g.content) {l : Label Unit}
    (hs : s.Step regularFile fileBuild l s') : Echoed s' (g.next l) := by
  obtain ⟨-, hs⟩ := hs
  cases l with
  | thread t e choice => exact hecho.thread_step hl hx hnode hs
  | signal sig =>
    obtain ⟨-, -, rfl⟩ := System.step_signal hs
    obtain ⟨hfds, -, -, -, hnode'⟩ := deliver_fds s.kernel sig
    exact hecho.outside hnode' hfds
  | disconnect c =>
    obtain ⟨-, -, rfl⟩ := System.step_disconnect hs
    exact hecho.outside rfl rfl

variable {reserved : Fd → Bool} {tr : List (Label Unit)}

theorem ledgerAfter_snoc (content : List Byte) (tr : List (Label Unit)) (l : Label Unit) :
    ledgerAfter content (tr ++ [l]) = (ledgerAfter content tr).next l := by
  rw [ledgerAfter, List.foldl_append]
  rfl

theorem ledgerAfter_history (content : List Byte) (tr : List (Label Unit)) :
    (ledgerAfter content tr).history = historyAfter tr := by
  induction tr using List.reverseRecOn with
  | nil => rfl
  | append_singleton tr l ih =>
    rw [ledgerAfter_snoc, historyAfter, List.foldl_append, ← historyAfter, ← ih]
    cases l with
    | thread t e choice => exact call_history
    | signal => rfl
    | disconnect => rfl

theorem run_ledger (hrun : Run (System.Step regularFile fileBuild)
    (System.start content reserved) tr s) (hwhole : ∀ l ∈ tr, l.shortWrite = false) :
    Recorded content s (ledgerAfter content tr) ∧ Echoed s (ledgerAfter content tr) := by
  induction hrun with
  | nil => exact ⟨recorded_start content reserved, echoed_start content reserved⟩
  | @snoc tr s l s' hrun hs ih =>
    obtain ⟨hr, hecho⟩ := ih fun l' hl' => hwhole l' (by simp [hl'])
    have hl : Logged fileBuild s (ledgerAfter content tr).history := by
      rw [ledgerAfter_history]
      exact run_logged hrun
    have hx := run_exclusive hrun
    rw [ledgerAfter_snoc]
    exact ⟨hr.step hl hx (hwhole l (by simp)) hs, hecho.step hl hx hr.node hs⟩

theorem log_forall {P : Event → Prop} (hP : ∀ t e choice, .thread t e choice ∈ tr → P e) (c : ℕ) :
    ∀ e ∈ (historyAfter tr).log c, P e := by
  induction tr using List.reverseRecOn with
  | nil =>
    intro e he
    cases he
  | append_singleton tr l ih =>
    have hold := ih fun t e choice hmem => hP t e choice (by simp [hmem])
    rw [historyAfter, List.foldl_append, ← historyAfter]
    cases l with
    | thread t e choice =>
      have hlast : P e := hP t e choice (by simp)
      simp only [List.foldl_cons, List.foldl_nil, History.next]
      rw [log_call]
      split
      · intro e' he'
        rcases List.mem_append.mp he' with he' | he'
        · exact hold e' he'
        · exact List.mem_singleton.mp he' ▸ hlast
      · exact hold
    | signal => exact hold
    | disconnect => exact hold

/-- For every schedule of the file build whose writes append all or nothing: the file is what it
was followed by whole records, one for each critical section that wrote, in the order in which the
mutex was taken; the packets of each client are its lines, in order; and a call of `sending_data`
that returned 0 has delivered the file as it was right after its own packet, so that of any two
such responses one is a prefix of the other. -/
theorem sending_data_echoes_file (content : List Byte) (reserved : Fd → Bool)
    {tr : List (Label Unit)} {s : System (List Byte)}
    (hrun : Run (System.Step regularFile fileBuild) (System.start content reserved) tr s)
    (hwhole : ∀ l ∈ tr, l.shortWrite = false) :
    let g := ledgerAfter content tr
    g.content = s.kernel.node ∧
      s.kernel.node = content ++ (g.sections.reverse.map Section.bytes).flatten ∧
      (∀ sec ∈ g.sections, sec.bytes = [] ∨
        (sec.writer = .main ∧ ∃ tm, sec.bytes = timeStamp tm) ∨
        ∃ i c, sec.writer = .worker i ∧ sec.client = some c ∧
          sec.bytes ∈ records packetEnding (g.history.stream c)) ∧
      (∀ c, (packetsOf c g.sections).Sublist (records packetEnding (g.history.stream c))) ∧
      (∀ r ∈ g.responses, r.call.delivered = r.call.atAppend ∧
        r.call.packet <:+ r.call.delivered ∧ r.call.atAppend <+: s.kernel.node ∧
        ∃ c, r.client = some c ∧ r.call.packet ∈ records packetEnding (g.history.stream c)) ∧
      ∀ r₁ ∈ g.responses, ∀ r₂ ∈ g.responses,
        r₁.call.delivered <+: r₂.call.delivered ∨ r₂.call.delivered <+: r₁.call.delivered := by
  intro g
  obtain ⟨hr, hecho⟩ := run_ledger hrun hwhole
  have hl : Logged fileBuild s g.history := by
    rw [ledgerAfter_history]
    exact run_logged hrun
  have hpayloads (c : ℕ) : (appended (g.history.log c)).Sublist (payloads (g.history.log c)) := by
    apply appended_sublist
    rw [ledgerAfter_history]
    exact log_forall (P := fun e => e.shortWrite = false) (fun t e choice hmem => hwhole _ hmem) c
  have hsublist (c : ℕ) :
      (packetsOf c g.sections).Sublist (records packetEnding (g.history.stream c)) := by
    rw [hr.packets c]
    exact (hpayloads c).trans (hl.payloads_records c).sublist
  refine ⟨hr.node.symm, hr.node.trans hr.content, fun sec hsec => ?_, hsublist, fun r hrmem => ?_,
    fun r₁ h₁ r₂ h₂ => ?_⟩
  · by_cases hnil : sec.bytes = []
    · exact .inl hnil
    · cases hwriter : sec.writer with
      | main =>
        exact .inr (.inl ⟨rfl, (hr.stamps sec hsec hwriter).resolve_left hnil⟩)
      | worker i =>
        have hclient := hr.workers sec hsec (by simp [hwriter])
        obtain ⟨c, hc⟩ := Option.ne_none_iff_exists'.mp hclient
        exact .inr (.inr ⟨i, c, rfl, hc, (hsublist c).subset (mem_packetsOf hsec hc hnil)⟩)
  · obtain ⟨c, hc, happ, hpre, hdelivered⟩ := hecho.responses r hrmem
    refine ⟨hdelivered, hdelivered ▸ happ.packet, hr.node ▸ hpre, c, hc, ?_⟩
    exact (hl.payloads_records c).subset happ.handed
  · obtain ⟨-, -, -, hpre₁, hdelivered₁⟩ := hecho.responses r₁ h₁
    obtain ⟨-, -, -, hpre₂, hdelivered₂⟩ := hecho.responses r₂ h₂
    rw [hdelivered₁, hdelivered₂]
    exact List.prefix_or_prefix_of_prefix hpre₁ hpre₂

end

/-- One client sends `"a\n"` and gets it back in two parts. -/
def oneEcho : List (Label Unit) :=
  [.clockGettime 0, .clockGettime 0, .compute, .compute, .loadSignal false, .loadSignal false,
    .accept (some (4, 0)), .clockGettime 0, .compute, .malloc (some 1), .malloc (some 2),
    .pthreadCreate (some 0)].map (fun e => .thread .main e ()) ++
  [.mallocBuffers (List.replicate 1024 0), .loadSignal false, .recv 4 0 1024 (some [97, 10]),
    .realloc 1024 (some (List.replicate 1024 0)), .compute, .loadSignal false, .compute,
    .loadSignal false, .compute, .mutexLock true, .openFile (some 5), .write 5 [97, 10] (some 2),
    .lseek 5, .read 5 1023 (some [97, 10]), .send 4 0 [97, 10] 0 (some 1),
    .send 4 0 [10] 0 (some 1), .read 5 1023 (some []), .close 5 true, .mutexUnlock true,
    .returns 0].map fun e => .thread (.worker 0) e ()

def receives (fd conn : ℕ) (line : List Byte) : List Event :=
  [.mallocBuffers (List.replicate 1024 0), .loadSignal false, .recv fd conn 1024 (some line),
    .realloc 1024 (some (List.replicate 1024 0)), .compute, .loadSignal false, .compute,
    .loadSignal false, .compute]

def echoes (fd conn file : ℕ) (line content : List Byte) : List Event :=
  [.mutexLock true, .openFile (some file), .write file line (some line.length), .lseek file,
    .read file 1023 (some content), .send fd conn content 0 (some content.length),
    .read file 1023 (some []), .close file true, .mutexUnlock true, .returns 0]

def stampTime : Tm := ⟨2026, 2, 15, 9, 0, 10⟩

/-- Two clients send a line each before either is answered, and a time stamp falls due between the
two answers. -/
def twoEchoes : List (Label Unit) :=
  oneEcho.take 12 ++
  callsOf .main [.clockGettime 0, .compute, .tryJoin 0 none, .compute, .compute,
    .loadSignal false, .accept (some (5, 1)), .clockGettime 0, .compute, .malloc (some 3),
    .malloc (some 4), .pthreadCreate (some 1)] ++
  callsOf (.worker 0) (receives 4 0 [97, 10]) ++ callsOf (.worker 1) (receives 5 1 [98, 10]) ++
  callsOf .main [.clockGettime 10, .localtime stampTime] ++
  callsOf (.worker 0) (echoes 4 0 6 [97, 10] [97, 10]) ++
  callsOf .main [.mutexLock true, .openFile (some 6), .write 6 (timeStamp stampTime) (some 30),
    .close 6 true, .mutexUnlock true, .returns 0] ++
  callsOf (.worker 1) (echoes 5 1 6 [98, 10] ([97, 10] ++ timeStamp stampTime ++ [98, 10]))

/-- The first response is a prefix of the second. -/
theorem twoEchoes_delivered : ∃ s, Run (System.Step regularFile fileBuild)
    (System.start [] fun _ => false) twoEchoes s ∧
      s.kernel.node = [97, 10] ++ timeStamp stampTime ++ [98, 10] ∧
      (ledgerAfter [] twoEchoes).responses.length = 2 ∧
      (∀ r ∈ (ledgerAfter [] twoEchoes).responses, r.call.delivered = r.call.atAppend) ∧
      ∀ r₁ ∈ (ledgerAfter [] twoEchoes).responses, ∀ r₂ ∈ (ledgerAfter [] twoEchoes).responses,
        r₁.call.delivered <+: r₂.call.delivered ∨ r₂.call.delivered <+: r₁.call.delivered := by
  have hfile : (twoEchoes.foldlM (System.step regularFile fileBuild)
      (System.start [] fun _ => false)).map (fun s => s.kernel.node) =
        some ([97, 10] ++ timeStamp stampTime ++ [98, 10]) := by decide +kernel
  obtain ⟨s, hs, hnode⟩ := Option.map_eq_some_iff.mp hfile
  have hrun := run_of_foldlM (by decide +kernel) hs
  have hecho := sending_data_echoes_file [] (fun _ => false) hrun (by decide +kernel)
  exact ⟨s, hrun, hnode, by decide +kernel, fun r hr => (hecho.2.2.2.2.1 r hr).1,
    hecho.2.2.2.2.2⟩

end Aesd.Server
