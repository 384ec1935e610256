import Aesd.Server.Startup
import Aesd.Server.TornWrites

/-! The history of a running server while other processes fail to start. A process whose `startup`
failed unlinks `FILE_PATH` all the same. -/
namespace Aesd.Server
open Driver (Byte)
open Runs

/-- Every packet appended is in the file, and everything appended is at its end; a response that
succeeded ends with everything that had been appended when its own packet was. -/
structure Kept (file : List Byte) (tr : List (Label Unit)) : Prop where
  packets : ∀ packet ∈ completedRecords tr, packet <:+: file
  bytes : (ledgerAfter [] tr).content <:+ file
  responses : ∀ r ∈ (ledgerAfter [] tr).responses, r.call.atAppend <:+ r.call.delivered

/-- Two ledgers of one run, the first of a file that was not empty before. -/
structure Shifted (content : List Byte) (g g' : Ledger) : Prop where
  content : g.content = content ++ g'.content
  calls : ∀ t, (g.calls t).delivered = (g'.calls t).delivered ∧
    (g'.calls t).atAppend <:+ (g.calls t).atAppend
  responses : List.Forall₂ (fun r r' : Response => r.call.delivered = r'.call.delivered ∧
    r'.call.atAppend <:+ r.call.atAppend) g.responses g'.responses

section
variable {content : List Byte} {g g' : Ledger} {t : Tid} {e : Event} {s s' : System (List Byte)}
  {reserved : Fd → Bool} {tr : List (Label Unit)}

theorem Shifted.update_calls (h : Shifted content g g') {call call' : Call}
    (hdelivered : call.delivered = call'.delivered) (happend : call'.atAppend <:+ call.atAppend)
    (t' : Tid) : (Function.update g.calls t call t').delivered =
      (Function.update g'.calls t call' t').delivered ∧
      (Function.update g'.calls t call' t').atAppend <:+
        (Function.update g.calls t call t').atAppend := by
  by_cases ht : t' = t
  · subst ht
    rw [Function.update_self, Function.update_self]
    exact ⟨hdelivered, happend⟩
  · rw [Function.update_of_ne ht, Function.update_of_ne ht]
    exact h.calls t'

theorem Shifted.call (h : Shifted content g g') (t : Tid) (e : Event) :
    Shifted content (g.call t e) (g'.call t e) := by
  unfold Ledger.call
  split
  next => exact ⟨h.content, h.update_calls rfl List.suffix_rfl, h.responses⟩
  next fd data n =>
    refine ⟨?_, h.update_calls (h.calls t).1 ?_, h.responses⟩
    · rw [h.content, List.append_assoc]
    · rw [h.content, List.append_assoc]
      exact List.suffix_append _ _
  next fd conn data flags n =>
    refine ⟨h.content, h.update_calls ?_ (h.calls t).2, h.responses⟩
    rw [(h.calls t).1]
  next r =>
    split
    · exact ⟨h.content, h.calls, .cons (h.calls t) h.responses⟩
    · exact ⟨h.content, h.calls, h.responses⟩
  next => exact ⟨h.content, h.calls, h.responses⟩

theorem ledgerAfter_shifted (content : List Byte) (tr : List (Label Unit)) :
    Shifted content (ledgerAfter content tr) (ledgerAfter [] tr) := by
  induction tr using List.reverseRecOn with
  | nil => exact ⟨(List.append_nil _).symm, fun _ => ⟨rfl, List.suffix_rfl⟩, .nil⟩
  | append_singleton tr l ih =>
    rw [ledgerAfter_snoc, ledgerAfter_snoc]
    cases l with
    | thread t e choice => exact ih.call t e
    | signal => exact ih
    | disconnect => exact ih

theorem ledgerAfter_content (content : List Byte) (tr : List (Label Unit)) :
    (ledgerAfter content tr).content = content ++ appendedBytes tr := by
  induction tr using List.reverseRecOn with
  | nil => exact (List.append_nil _).symm
  | append_singleton tr l ih =>
    rw [ledgerAfter_snoc, appendedBytes_append, ← List.append_assoc, ← ih]
    cases l with
    | thread t e choice => simp [Ledger.next, call_content, appendedBytes, Label.event]
    | signal sig => simp [Ledger.next, appendedBytes, Label.event]
    | disconnect c => simp [Ledger.next, appendedBytes, Label.event]

/-- In every run the file is what the ledger says, also with writes that take a part. -/
theorem run_echoed (hrun : Run (System.Step regularFile fileBuild)
    (System.start content reserved) tr s) :
    s.kernel.node = (ledgerAfter content tr).content ∧ Echoed s (ledgerAfter content tr) := by
  induction hrun with
  | nil => exact ⟨rfl, echoed_start content reserved⟩
  | @snoc tr s l s' hrun hs ih =>
    obtain ⟨hnode, hecho⟩ := ih
    have hl : Logged fileBuild s (ledgerAfter content tr).history := by
      rw [ledgerAfter_history]
      exact run_logged hrun
    constructor
    · rw [step_node hs, hnode, ledgerAfter_content, ledgerAfter_content, appendedBytes_append,
        List.append_assoc]
    · rw [ledgerAfter_snoc]
      exact hecho.step hl (run_exclusive hrun) hnode hs

theorem Event.appended_of_completed {packet : List Byte} (h : e.completed = some packet) :
    e.appended = packet := by
  unfold Event.completed at h
  split at h
  next fd data n =>
    split at h
    next hn =>
      cases h
      rw [hn]
      exact List.take_length
    next => cases h
  next => cases h

theorem completed_isInfix {packet : List Byte} (h : packet ∈ completedRecords tr) :
    packet <:+: appendedBytes tr := by
  obtain ⟨l, hl, hcompleted⟩ := List.mem_filterMap.mp h
  obtain ⟨tr₁, tr₂, rfl⟩ := List.append_of_mem hl
  have hlabel : packet = appendedBytes [l] := by
    obtain ⟨e, he, hcompleted⟩ := Option.bind_eq_some_iff.mp hcompleted
    simp [appendedBytes, he, Event.appended_of_completed hcompleted]
  rw [List.append_cons, appendedBytes_append, appendedBytes_append, ← hlabel]
  exact List.infix_append ..

theorem run_kept (hrun : Run (System.Step regularFile fileBuild)
    (System.start content reserved) tr s) : Kept s.kernel.node tr := by
  obtain ⟨hnode, hecho⟩ := run_echoed hrun
  have hshift := ledgerAfter_shifted content tr
  have hbytes : (ledgerAfter [] tr).content <:+ s.kernel.node := by
    rw [hnode, hshift.content]
    exact List.suffix_append _ _
  refine ⟨fun packet hpacket => ?_, hbytes, fun r' hr' => ?_⟩
  · rw [ledgerAfter_content] at hbytes
    exact (completed_isInfix hpacket).trans hbytes.isInfix
  · obtain ⟨r, hr, hdelivered, happend⟩ : ∃ r ∈ (ledgerAfter content tr).responses,
        r.call.delivered = r'.call.delivered ∧ r'.call.atAppend <:+ r.call.atAppend := by
      obtain ⟨i, hi, rfl⟩ := List.getElem_of_mem hr'
      have hi' := hi
      rw [← hshift.responses.length_eq] at hi'
      exact ⟨_, List.getElem_mem hi', hshift.responses.get hi' hi⟩
    obtain ⟨-, -, -, -, hsame⟩ := hecho.responses r hr
    rw [← hdelivered, hsame]
    exact happend

end

def Kernel.withNode {σ τ : Type} (k : Kernel σ) (node : τ) : Kernel τ where
  node := node
  fds := k.fds
  mutex := k.mutex
  accepted := k.accepted
  closes := k.closes
  peerGone := k.peerGone
  disposition := k.disposition
  caughtSignal := k.caughtSignal
  alive := k.alive
  blocks := k.blocks

def System.withNode {σ τ : Type} (s : System σ) (node : τ) : System τ :=
  ⟨s.kernel.withNode node, s.main, s.workers⟩

section
variable {σ τ χ χ' : Type} {ops : FileOps σ χ} {ops' : FileOps τ χ'} {b : Build} {f : σ → τ}
  {k k' : Kernel σ} {s s' : System σ} {t : Tid} {e : Event} {choice : χ} {choice' : χ'} {node : τ}

theorem deliver_withNode (k : Kernel σ) (node : τ) (sig : Signal) :
    (k.withNode node).deliver sig = (k.deliver sig).withNode node := by
  simp only [Kernel.deliver, Kernel.withNode]
  cases k.disposition sig <;> rfl

/-- The files of `ops` seen through `f` are those of `ops'`, as far as `e` touches them. -/
structure Mirrors (ops : FileOps σ χ) (ops' : FileOps τ χ') (f : σ → τ) (k : Kernel σ) (e : Event)
    (choice : χ) (choice' : χ') : Prop where
  seekSet : ops.seekSet = ops'.seekSet
  write : ∀ fd data written opener pos r, e = .write fd data written →
    k.fds fd = some (.file opener pos) → ops.write k.node choice pos data written = some r →
    ops'.write (f k.node) choice' pos data written = some (f r.1, r.2)
  read : ∀ fd count got opener pos r, e = .read fd count got →
    k.fds fd = some (.file opener pos) → ops.read k.node choice pos count got = some r →
    ops'.read (f k.node) choice' pos count got = some (f r.1, r.2)

theorem send_withNode {c flags : ℕ} {sent : Option ℕ} (hsend : k.send c flags sent = some k') :
    (k.withNode node).send c flags sent = some (k'.withNode node) := by
  unfold Kernel.send at hsend ⊢
  split at hsend
  next hgone =>
    rw [if_pos (show (k.withNode node).peerGone c = true from hgone)]
    split at hsend
    next hnone =>
      rw [if_pos hnone]
      cases hsend
      split
      · rw [deliver_withNode]
      · rfl
    next => cases hsend
  next hgone =>
    cases hsend
    exact if_neg hgone

theorem Mirrors.call (h : Mirrors ops ops' f k e choice choice')
    (hcall : k.call ops t e choice = some k') :
    (k.withNode (f k.node)).call ops' t e choice' = some (k'.withNode (f k'.node)) := by
  have hfds : (k.withNode (f k.node)).fds = k.fds := rfl
  have hnode : (k.withNode (f k.node)).node = f k.node := rfl
  cases e with
  | write fd data written =>
    simp only [Kernel.call, hfds, hnode] at hcall ⊢
    split at hcall
    next opener pos hfd =>
      obtain ⟨r, hr, rfl⟩ := Option.map_eq_some_iff.mp hcall
      rw [h.write _ _ _ _ _ r rfl hfd hr]
      rfl
    next hfd =>
      split at hcall <;> cases hcall
      next hnone => exact if_pos hnone
  | read fd count got =>
    simp only [Kernel.call, hfds, hnode] at hcall ⊢
    split at hcall
    next opener pos hfd =>
      obtain ⟨r, hr, rfl⟩ := Option.map_eq_some_iff.mp hcall
      rw [h.read _ _ _ _ _ r rfl hfd hr]
      rfl
    next hfd =>
      split at hcall <;> cases hcall
      next hnone => exact if_pos hnone
  | lseek fd =>
    simp only [Kernel.call, hfds, h.seekSet] at hcall ⊢
    split at hcall <;> cases hcall <;> rfl
  | close fd ok =>
    simp only [Kernel.call, Kernel.close, hfds] at hcall ⊢
    split at hcall
    next hfd =>
      split at hcall <;> cases hcall
      next hok => exact if_neg hok
    next c hfd =>
      cases hcall
      rfl
    next d hne hfd =>
      cases hcall
      rfl
  | send fd conn data flags sent =>
    simp only [Kernel.call, hfds] at hcall ⊢
    split at hcall
    next c hfd =>
      split at hcall
      next hconn =>
        rw [(send_fds hcall).2.2.2.2, if_pos hconn]
        exact send_withNode hcall
      next => cases hcall
    next hfd =>
      split at hcall <;> cases hcall
      next hnone => exact if_pos hnone
  | openFile fd =>
    cases fd with
    | none =>
      cases hcall
      rfl
    | some fd =>
      simp only [Kernel.call, hfds] at hcall ⊢
      split at hcall <;> cases hcall
      next hfree => exact if_pos hfree
  | accept got =>
    cases got with
    | none =>
      cases hcall
      rfl
    | some got =>
      simp only [Kernel.call] at hcall ⊢
      split at hcall <;> cases hcall
      next hfree => exact if_pos hfree
  | malloc addr =>
    cases addr with
    | none =>
      cases hcall
      rfl
    | some a =>
      simp only [Kernel.call] at hcall ⊢
      split at hcall <;> cases hcall
      next hfree => exact if_neg hfree
  | free a =>
    simp only [Kernel.call] at hcall ⊢
    split at hcall <;> cases hcall
    next hlive => exact if_pos hlive
  | mutexLock ok =>
    simp only [Kernel.call] at hcall ⊢
    split at hcall
    next hok =>
      split at hcall <;> cases hcall
      next hfree =>
        rw [if_pos hok]
        exact if_pos hfree
    next hok =>
      cases hcall
      exact if_neg hok
  | mutexUnlock ok =>
    simp only [Kernel.call] at hcall ⊢
    split at hcall <;> cases hcall
    next hheld => exact if_pos hheld
  | recv fd conn count got =>
    simp only [Kernel.call, hfds] at hcall ⊢
    split at hcall
    next c hfd =>
      split at hcall <;> cases hcall
      next hconn => exact if_pos hconn
    next hfd =>
      split at hcall <;> cases hcall
      next hnone => exact if_pos hnone
  | loadSignal caught =>
    simp only [Kernel.call] at hcall ⊢
    split at hcall <;> cases hcall
    next hcaught => exact if_pos hcaught
  | _ =>
    cases hcall
    rfl

theorem Mirrors.step (h : Mirrors ops ops' f s.kernel e choice choice')
    (hs : s.step ops b (.thread t e choice) = some s') :
    (s.withNode (f s.kernel.node)).step ops' b (.thread t e choice') =
      some (s'.withNode (f s'.kernel.node)) := by
  cases t with
  | main =>
    simp only [System.step] at hs ⊢
    split at hs
    next halive =>
      obtain ⟨main, hmain, hs⟩ := Option.bind_eq_some_iff.mp hs
      obtain ⟨kernel, hkernel, hs⟩ := Option.bind_eq_some_iff.mp hs
      obtain ⟨workers, hworkers, hs⟩ := Option.bind_eq_some_iff.mp hs
      cases hs
      rw [if_pos (show (s.withNode (f s.kernel.node)).kernel.alive = true from halive)]
      apply Option.bind_eq_some_iff.mpr ⟨main, hmain, _⟩
      apply Option.bind_eq_some_iff.mpr ⟨_, h.call hkernel, _⟩
      exact Option.bind_eq_some_iff.mpr ⟨workers, hworkers, rfl⟩
    next => cases hs
  | worker i =>
    simp only [System.step] at hs ⊢
    split at hs
    next halive =>
      obtain ⟨w, hw, hs⟩ := Option.bind_eq_some_iff.mp hs
      obtain ⟨w', hw', hs⟩ := Option.bind_eq_some_iff.mp hs
      obtain ⟨kernel, hkernel, hs⟩ := Option.bind_eq_some_iff.mp hs
      cases hs
      rw [if_pos (show (s.withNode (f s.kernel.node)).kernel.alive = true from halive)]
      apply Option.bind_eq_some_iff.mpr ⟨w, hw, _⟩
      apply Option.bind_eq_some_iff.mpr ⟨w', hw', _⟩
      exact Option.bind_eq_some_iff.mpr ⟨_, h.call hkernel, rfl⟩
    next => cases hs

end

/-- Every file the server has open is the one that `FILE_PATH` names. -/
def Host.Named (h : Host) : Prop :=
  ∀ fd opener pos, h.server.kernel.fds fd = some (.file opener pos) → h.name = some (h.inodeOf fd)

def NoFiles {σ : Type} (k : Kernel σ) : Prop := ∀ fd opener pos, k.fds fd ≠ some (.file opener pos)

def HostLabel.opens : HostLabel → Bool
  | .server (.thread _ (.openFile (some _)) _) => true
  | _ => false

/-- Another process removes the name `FILE_PATH`. -/
def HostLabel.unlinks : HostLabel → Bool
  | .other _ (.unlink true) => true
  | _ => false

section
variable {h h' : Host} {l : Label Unit} {f : (ℕ → List Byte) → List Byte}
  {k k' : Kernel (ℕ → List Byte)} {t : Tid} {e : Event} {i : ℕ}

/-- Through `f` the inodes look like one file, as long as the call is on an inode that `f` shows. -/
theorem mirrors_inode (hshown : ∀ fd opener pos, e.fileFd = some fd →
      k.fds fd = some (.file opener pos) → ∀ inodes, f inodes = inodes i) :
    Mirrors inodeFiles regularFile f k e i () := by
  refine ⟨rfl, ?_, ?_⟩
  · rintro fd data written opener pos r rfl hfd hr
    have hf := hshown fd opener pos rfl hfd
    obtain ⟨r', hr', rfl⟩ := Option.map_eq_some_iff.mp hr
    rw [hf, hf, hr']
    simp
  · rintro fd count got opener pos r rfl hfd hr
    have hf := hshown fd opener pos rfl hfd
    obtain ⟨r', hr', rfl⟩ := Option.map_eq_some_iff.mp hr
    rw [hf, hf, hr']
    simp

theorem call_files (hcall : k.call inodeFiles t e i = some k') {fd : Fd} {opener : Tid} {pos : ℕ}
    (hfd : k'.fds fd = some (.file opener pos)) :
    (∃ pos', k.fds fd = some (.file opener pos')) ∨ e = .openFile (some fd) := by
  have hupdate {fd' : Fd} {d : Option Desc} (hfds : k'.fds = Function.update k.fds fd' d)
      (hd : ∀ opener pos, d ≠ some (.file opener pos)) :
      (∃ pos', k.fds fd = some (.file opener pos')) ∨ e = .openFile (some fd) := by
    rw [hfds] at hfd
    by_cases hsame : fd = fd'
    · subst hsame
      rw [Function.update_self] at hfd
      exact absurd hfd (hd opener pos)
    · rw [Function.update_of_ne hsame] at hfd
      exact .inl ⟨pos, hfd⟩
  cases call_fdEffect hcall with
  | quiet _ hfds => exact .inl ⟨pos, hfds ▸ hfd⟩
  | opens fd' hfree hk =>
    subst hk
    by_cases hsame : fd = fd'
    · exact .inr (by rw [hsame])
    · simp only [Kernel.setFd, Function.update_of_ne hsame] at hfd
      exact .inl ⟨pos, hfd⟩
  | @moves _ _ fd' opener' pos₁ pos' hfd' hne hold hfds =>
    rw [hfds] at hfd
    by_cases hsame : fd = fd'
    · subst hsame
      rw [Function.update_self] at hfd
      cases hfd
      exact .inl ⟨_, hold⟩
    · rw [Function.update_of_ne hsame] at hfd
      exact .inl ⟨pos, hfd⟩
  | closesFile => exact hupdate rfl (by simp)
  | closesConn => exact hupdate rfl (by simp)
  | accepts => exact hupdate rfl (by simp)

theorem step_files {server : System (ℕ → List Byte)}
    (hs : h.server.step inodeFiles fileBuild (l.on h.inodeOf) = some server) {fd : Fd}
    {opener : Tid} {pos : ℕ} (hfd : server.kernel.fds fd = some (.file opener pos)) :
    (∃ pos', h.server.kernel.fds fd = some (.file opener pos')) ∨
      ∃ t choice, l = .thread t (.openFile (some fd)) choice := by
  cases l with
  | thread t e choice =>
    rcases call_files (System.thread_step hs).2.1 hfd with hold | rfl
    · exact .inl hold
    · exact .inr ⟨t, choice, rfl⟩
  | signal sig =>
    obtain ⟨-, -, rfl⟩ := System.step_signal hs
    exact .inl ⟨pos, (deliver_fds h.server.kernel sig).1 ▸ hfd⟩
  | disconnect c =>
    obtain ⟨-, -, rfl⟩ := System.step_disconnect hs
    exact .inl ⟨pos, hfd⟩

theorem on_step {server : System (ℕ → List Byte)}
    (hshown : ∀ fd opener pos, h.server.kernel.fds fd = some (.file opener pos) →
      ∀ inodes, f inodes = inodes (h.inodeOf fd))
    (hs : h.server.step inodeFiles fileBuild (l.on h.inodeOf) = some server) :
    (h.server.withNode (f h.server.kernel.node)).step regularFile fileBuild l =
      some (server.withNode (f server.kernel.node)) := by
  cases l with
  | thread t e choice =>
    apply Mirrors.step (mirrors_inode _) hs
    intro fd opener pos he hfd
    simpa [he] using hshown fd opener pos hfd
  | signal sig =>
    simp only [Label.on, System.step] at hs ⊢
    split at hs <;> cases hs
    next hsig =>
      rw [(deliver_fds h.server.kernel sig).2.2.2.2]
      apply (if_pos hsig).trans
      rw [System.withNode, deliver_withNode]
      rfl
  | disconnect c =>
    simp only [Label.on, System.step] at hs ⊢
    split at hs <;> cases hs
    next halive => exact if_pos halive

theorem Host.step_server (hs : h.step (.server l) = some h') :
    ∃ server, h.server.step inodeFiles fileBuild (l.on h.inodeOf) = some server ∧
      ((∃ t fd choice, l = .thread t (.openFile (some fd)) choice ∧
        h' = { h with server := server }.opens fd) ∨
      ((HostLabel.server l).opens = false ∧ h' = { h with server := server })) := by
  obtain ⟨server, hserver, hs⟩ := Option.bind_eq_some_iff.mp hs
  refine ⟨server, hserver, ?_⟩
  split at hs
  next =>
    cases hs
    exact .inl ⟨_, _, _, rfl, rfl⟩
  next hopen =>
    cases hs
    refine .inr ⟨?_, rfl⟩
    unfold HostLabel.opens
    split
    next t fd choice heq =>
      cases heq
      exact absurd rfl (hopen _ _ _)
    next => rfl

theorem Host.opens_spec (h : Host) (fd : Fd) : ∃ i, (h.opens fd).name = some i ∧
    (h.name = none ∨ h.name = some i) ∧ (h.opens fd).inodeOf = Function.update h.inodeOf fd i ∧
    (h.opens fd).file = h.file ∧ (h.opens fd).server.kernel.fds = h.server.kernel.fds ∧
    ∀ node : List Byte, (h.opens fd).server.withNode node = h.server.withNode node := by
  unfold Host.opens
  split
  next i hname =>
    exact ⟨i, hname, .inr hname, rfl, rfl, rfl, fun _ => rfl⟩
  next hname =>
    refine ⟨h.nextInode, rfl, .inl hname, rfl, ?_, rfl, fun _ => rfl⟩
    simp [Host.file, hname]

/-- The server goes on over the one file that `FILE_PATH` names. -/
theorem Host.Named.server_step (hn : h.Named) (hs : h.Step (.server l) h') :
    h'.Named ∧
      (h.server.withNode h.file).Step regularFile fileBuild l (h'.server.withNode h'.file) := by
  obtain ⟨hposix, hs⟩ := hs
  have hl : l.Posix := hposix
  obtain ⟨server, hserver, hcases⟩ := Host.step_server hs
  have hview := on_step (f := fun inodes => h.name.elim [] inodes)
    (fun fd opener pos hfd inodes => by rw [hn fd opener pos hfd, Option.elim_some]) hserver
  have hold {fd : Fd} {opener : Tid} {pos : ℕ}
      (hfd : server.kernel.fds fd = some (.file opener pos)) :
      h.name = some (h.inodeOf fd) ∨ ∃ t choice, l = .thread t (.openFile (some fd)) choice := by
    rcases step_files hserver hfd with ⟨pos', hfd'⟩ | hopen
    · exact .inl (hn fd opener pos' hfd')
    · exact .inr hopen
  rcases hcases with ⟨t, fd, choice, rfl, rfl⟩ | ⟨hopens, rfl⟩
  · obtain ⟨i, hname, hname', hinode, hfile, hfds, hnode⟩ :=
      Host.opens_spec { h with server := server } fd
    constructor
    · intro fd' opener pos hfd'
      rw [hfds] at hfd'
      rw [hname, hinode]
      by_cases hsame : fd' = fd
      · rw [hsame, Function.update_self]
      · rw [Function.update_of_ne hsame]
        rcases hold hfd' with hnamed | ⟨t', choice', hopen⟩
        · rcases hname' with hnone | hsome
          · cases hnone.symm.trans hnamed
          · exact hsome.symm.trans hnamed
        · cases hopen
          exact absurd rfl hsame
    · apply step_of_posix hl
      rw [hfile, hnode]
      exact hview
  · constructor
    · intro fd opener pos hfd
      rcases hold hfd with hname | ⟨t, choice, rfl⟩
      · exact hname
      · cases hopens
    · exact step_of_posix hl hview

/-- Before the server opens anything, its steps do not depend on what the file is. -/
theorem NoFiles.server_step (hno : NoFiles h.server.kernel)
    (hopens : (HostLabel.server l).opens = false) (hs : h.Step (.server l) h') :
    NoFiles h'.server.kernel ∧ ∀ content : List Byte,
      (h.server.withNode content).Step regularFile fileBuild l (h'.server.withNode content) := by
  obtain ⟨hposix, hs⟩ := hs
  have hl : l.Posix := hposix
  obtain ⟨server, hserver, hcases⟩ := Host.step_server hs
  rcases hcases with ⟨t, fd, choice, rfl, rfl⟩ | ⟨-, rfl⟩
  · cases hopens
  constructor
  · intro fd opener pos hfd
    rcases step_files hserver hfd with ⟨pos', hfd'⟩ | ⟨t, choice, rfl⟩
    · exact hno fd opener pos' hfd'
    · cases hopens
  · intro content
    apply step_of_posix hl
    exact on_step (f := fun _ => content)
      (fun fd opener pos hfd => absurd hfd (hno fd opener pos)) hserver

variable {file : Option (List Byte)} {reserved : Fd → Bool} {tr : List HostLabel}

theorem serverLabels_snoc (tr : List HostLabel) (l : Label Unit) :
    serverLabels (tr ++ [.server l]) = serverLabels tr ++ [l] := by
  simp [serverLabels]

theorem serverLabels_other (tr : List HostLabel) (p : ℕ) (call : SetupCall) :
    serverLabels (tr ++ [.other p call]) = serverLabels tr := by
  simp [serverLabels]

theorem noFiles_start (file : Option (List Byte)) (reserved : Fd → Bool) :
    NoFiles (Host.start file reserved).server.kernel := by
  intro fd opener pos hfd
  simp only [Host.start, System.start] at hfd
  split at hfd <;> cases hfd

theorem Host.step_other {p : ℕ} {call : SetupCall} (hs : h.step (.other p call) = some h') :
    h'.server = h.server ∧ h'.inodeOf = h.inodeOf ∧
      h'.name = if (HostLabel.other p call).unlinks then none else h.name := by
  obtain ⟨process, -, hs⟩ := Option.bind_eq_some_iff.mp hs
  split at hs
  next =>
    dsimp only at hs
    split at hs <;> cases hs
    exact ⟨rfl, rfl, rfl⟩
  next hunlink =>
    cases hs
    refine ⟨rfl, rfl, (if_neg ?_).symm⟩
    intro hunlinks
    unfold HostLabel.unlinks at hunlinks
    split at hunlinks
    next heq =>
      cases heq
      exact hunlink rfl
    next => cases hunlinks

/-- While nobody removes the name of a file that the server has opened, the server runs as if it
were alone with its file. -/
theorem run_alone (hrun : Run Host.Step (Host.start file reserved) tr h)
    (hname : tr.Pairwise fun l l' => l.opens = true → l'.unlinks = false) :
    h.Named ∧ ((∀ l ∈ tr, l.opens = false) → NoFiles h.server.kernel ∧ ∀ content,
      Run (System.Step regularFile fileBuild) (System.start content reserved) (serverLabels tr)
        (h.server.withNode content)) ∧
      ∃ content, Run (System.Step regularFile fileBuild) (System.start content reserved)
        (serverLabels tr) (h.server.withNode h.file) := by
  induction hrun with
  | nil =>
    have hno := noFiles_start file reserved
    exact ⟨fun fd opener pos hfd => absurd hfd (hno fd opener pos),
      fun _ => ⟨hno, fun content => .nil⟩, _, .nil⟩
  | @snoc tr h l h' hrun hs ih =>
    obtain ⟨hpair, -, hlast⟩ := List.pairwise_append.mp hname
    obtain ⟨hnamed, hunopened, content, halone⟩ := ih hpair
    cases l with
    | server l =>
      rw [serverLabels_snoc]
      obtain ⟨hnamed', hview⟩ := hnamed.server_step hs
      refine ⟨hnamed', fun hopens => ?_, content, halone.snoc hview⟩
      obtain ⟨hno, hviews⟩ := hunopened fun l' hl' => hopens l' (by simp [hl'])
      obtain ⟨hno', hsteps⟩ := hno.server_step (hopens _ (by simp)) hs
      exact ⟨hno', fun content => (hviews content).snoc (hsteps content)⟩
    | other p call =>
      rw [serverLabels_other]
      obtain ⟨hserver, hinode, hunlink⟩ := Host.step_other hs.2
      have hunopened' (hopens : ∀ l ∈ tr, l.opens = false) : NoFiles h'.server.kernel ∧ ∀ content,
          Run (System.Step regularFile fileBuild) (System.start content reserved) (serverLabels tr)
            (h'.server.withNode content) := by
        rw [hserver]
        exact hunopened hopens
      have hbefore (hopens : ∀ l ∈ tr ++ [.other p call], l.opens = false) :
          ∀ l ∈ tr, l.opens = false := fun l hl => hopens l (by simp [hl])
      cases hunlinks : (HostLabel.other p call).unlinks with
      | true =>
        have hnever : ∀ l ∈ tr, l.opens = false := by
          intro l hl
          by_contra hopens
          have hkept := hlast l hl _ (List.mem_singleton_self _)
            (Bool.eq_true_of_not_eq_false hopens)
          cases hunlinks.symm.trans hkept
        obtain ⟨hno, hviews⟩ := hunopened' hnever
        exact ⟨fun fd opener pos hfd => absurd hfd (hno fd opener pos),
          fun hopens => hunopened' (hbefore hopens), h'.file, hviews h'.file⟩
      | false =>
        rw [hunlinks] at hunlink
        refine ⟨fun fd opener pos hfd => ?_, fun hopens => hunopened' (hbefore hopens), content, ?_⟩
        · rw [hserver] at hfd
          rw [hunlink, hinode]
          exact hnamed fd opener pos hfd
        · have hfile : h'.file = h.file := by
            unfold Host.file
            rw [hunlink, hserver]
            rfl
          rw [hserver, hfile]
          exact halone

/-- For every schedule of the server and any number of processes whose `startup` fails: the file and
the responses keep everything the server has appended, as long as none of them removes the name of
the file once the server has opened it. -/
theorem history_survives (file : Option (List Byte)) (reserved : Fd → Bool)
    {tr : List HostLabel} {h : Host}
    (hrun : Run Host.Step (Host.start file reserved) tr h)
    (hname : tr.Pairwise fun l l' => l.opens = true → l'.unlinks = false) :
    Kept h.file (serverLabels tr) := by
  obtain ⟨-, -, content, halone⟩ := run_alone hrun hname
  exact run_kept halone

/-- Whenever something has been appended, a process that fails to start takes it away. -/
theorem unlink_loses {p : ℕ} (hs : h.Step (.other p (.unlink true)) h')
    (happended : (ledgerAfter [] (serverLabels tr)).content ≠ []) :
    ¬ Kept h'.file (serverLabels (tr ++ [.other p (.unlink true)])) := by
  intro hkept
  have hgone : h'.name = none := (Host.step_other hs.2).2.2
  have hbytes := hkept.bytes
  rw [serverLabels_other, Host.file, hgone] at hbytes
  exact happended (List.suffix_nil.mp hbytes)

end

theorem Host.run_of_foldlM {tr : List HostLabel} {h₀ h : Host} (hposix : ∀ l ∈ tr, l.Posix)
    (hs : tr.foldlM Host.step h₀ = some h) : Run Host.Step h₀ tr h :=
  Run.of_foldlM hposix hs

/-- A second process finds the port taken and cleans up. -/
def failedBind : List HostLabel :=
  [.sigaction .sigterm true, .sigaction .sigint true, .getaddrinfo true, .socket (some 3),
    .bind false, .freeaddrinfo, .close 3 true, .unlink true].map (.other 0)

theorem failedBind_survived : ∃ h, Run Host.Step (Host.start (some [120, 10]) fun _ => false)
    (failedBind ++ oneEcho.map HostLabel.server) h ∧
      Kept h.file (serverLabels (failedBind ++ oneEcho.map HostLabel.server)) := by
  have hruns : ((failedBind ++ oneEcho.map HostLabel.server).foldlM Host.step
      (Host.start (some [120, 10]) fun _ => false)).isSome := by decide +kernel
  obtain ⟨h, hs⟩ := Option.isSome_iff_exists.mp hruns
  have hrun := Host.run_of_foldlM (by decide +kernel) hs
  exact ⟨h, hrun, history_survives (some [120, 10]) (fun _ => false) hrun (by decide +kernel)⟩

/-- The client of `oneEcho` sends `"b\n"` after the second process has failed. -/
def lostHistory : List HostLabel :=
  oneEcho.map HostLabel.server ++ failedBind ++
  [.loadSignal false, .recv 4 0 1024 (some [98, 10]), .compute, .loadSignal false, .compute,
    .loadSignal false, .compute, .mutexLock true, .openFile (some 5), .write 5 [98, 10] (some 2),
    .lseek 5, .read 5 1023 (some [98, 10]), .send 4 0 [98, 10] 0 (some 2),
    .read 5 1023 (some []), .close 5 true, .mutexUnlock true,
    .returns 0].map fun e => .server (.thread (.worker 0) e ())

/-- The packet `"a\n"` is neither in the file nor in the later response. -/
theorem lostHistory_loses : ∃ h, Run Host.Step (Host.start none fun _ => false) lostHistory h ∧
    [97, 10] ∈ completedRecords (serverLabels lostHistory) ∧ ¬ [97, 10] <:+: h.file ∧
      ∃ r ∈ (ledgerAfter [] (serverLabels lostHistory)).responses,
        r.call.atAppend = [97, 10, 98, 10] ∧ r.call.delivered = [98, 10] := by
  have hfile : (lostHistory.foldlM Host.step (Host.start none fun _ => false)).map Host.file =
      some [98, 10] := by decide +kernel
  obtain ⟨h, hs, hh⟩ := Option.map_eq_some_iff.mp hfile
  refine ⟨h, Host.run_of_foldlM (by decide +kernel) hs, by decide +kernel, ?_, ?_⟩
  · rw [hh]
    decide
  · have hlatest : ((ledgerAfter [] (serverLabels lostHistory)).responses.head?.map
        fun r => (r.call.atAppend, r.call.delivered)) = some ([97, 10, 98, 10], [98, 10]) := by
      decide +kernel
    obtain ⟨r, hr, hcall⟩ := Option.map_eq_some_iff.mp hlatest
    exact ⟨r, List.mem_of_mem_head? hr, congrArg Prod.fst hcall, congrArg Prod.snd hcall⟩

end Aesd.Server
