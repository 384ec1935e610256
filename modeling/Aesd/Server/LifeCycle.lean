import Aesd.Server.Ownership
import Aesd.Server.RegularFile

/-! The life of a connection from `accept` to `close`, and what is left when `main_loop`
returns. -/
namespace Aesd.Server
open Runs

def Main.unjoined (m : Main) : List Item :=
  match m.pc with
  | .joinClose item _ _ _ => m.linkedList.erase item
  | _ => m.linkedList

/-- The item that `join_threads` is at and those it has still to visit. -/
def Main.toVisit (m : Main) : List Item :=
  match m.pc with
  | .joining rest => rest
  | .joinClose item _ _ rest => item :: rest
  | .joinFreeItem _ _ rest => rest
  | .joinFreeData _ rest => rest
  | _ => []

structure Listed {σ : Type} (s : System σ) : Prop where
  threads : ∀ i, s.workers i ≠ none ↔ ∃ item ∈ s.main.unjoined, item.threadId = i
  nodup : (s.main.linkedList.map Item.threadId).Nodup
  visits : s.main.toVisit.Sublist s.main.linkedList

theorem mem_erase_item {l : List Item} {item : Item} (hnodup : (l.map Item.threadId).Nodup)
    (hitem : item ∈ l) (i : ℕ) :
    (∃ x ∈ l.erase item, x.threadId = i) ↔ i ≠ item.threadId ∧ ∃ x ∈ l, x.threadId = i := by
  constructor
  · rintro ⟨x, hx, rfl⟩
    obtain ⟨hne, hmem⟩ := (hnodup.of_map).mem_erase_iff.mp hx
    exact ⟨fun heq => hne (List.inj_on_of_nodup_map hnodup hmem hitem heq), x, hmem, rfl⟩
  · rintro ⟨hne, x, hx, rfl⟩
    refine ⟨x, hnodup.of_map.mem_erase_iff.mpr ⟨?_, hx⟩, rfl⟩
    rintro rfl
    exact hne rfl

section
variable {σ χ : Type} {ops : FileOps σ χ} {b : Build} {s s' : System σ} {h : Clients}
  {e : Event} {choice : χ}

theorem listed_start (node : σ) (reserved : Fd → Bool) : Listed (System.start node reserved) := by
  constructor <;> simp [System.start, Main.unjoined, Main.toVisit, Main.init]

theorem Listed.keep (hl : Listed s) (hworkers : ∀ i, s'.workers i ≠ none ↔ s.workers i ≠ none)
    (hlist : s'.main.linkedList = s.main.linkedList)
    (hunjoined : s'.main.unjoined = s.main.unjoined)
    (hvisits : s'.main.toVisit.Sublist s.main.linkedList) : Listed s' := by
  constructor
  · intro i
    rw [hworkers, hunjoined]
    exact hl.threads i
  · rw [hlist]
    exact hl.nodup
  · rw [hlist]
    exact hvisits

theorem Listed.worker_step (hl : Listed s) {i : ℕ}
    (hs : s.step ops b (.thread (.worker i) e choice) = some s') : Listed s' := by
  obtain ⟨-, w, w', kernel, hw, -, -, rfl⟩ := System.step_worker hs
  refine hl.keep (fun j => ?_) rfl rfl hl.visits
  by_cases hj : j = i
  · subst hj
    simp [hw]
  · simp only [Function.update_of_ne hj]

theorem Listed.joins (hl : Listed s) {kernel : Kernel σ} {item : Item} {data : ℕ} {fd : Fd}
    {rest : List Item} (hpc : s.main.pc = .joining (item :: rest)) :
    Listed ⟨kernel, s.main.goto (.joinClose item data fd rest),
      Function.update s.workers item.threadId none⟩ := by
  have hvisits : (item :: rest).Sublist s.main.linkedList := by
    simpa only [Main.toVisit, hpc] using hl.visits
  have hmem := hvisits.subset List.mem_cons_self
  refine ⟨fun i => ?_, hl.nodup, hvisits⟩
  have hthreads := hl.threads i
  simp only [Main.unjoined, hpc] at hthreads
  simp only [Main.unjoined, Main.goto_pc, Main.goto_linkedList]
  rw [mem_erase_item hl.nodup hmem, ← hthreads]
  by_cases hi : i = item.threadId
  · simp [hi]
  · simp [hi]

theorem Listed.joinCloses (hl : Listed s) {kernel : Kernel σ} {item : Item} {data : ℕ} {fd : Fd}
    {rest : List Item} (hpc : s.main.pc = .joinClose item data fd rest) :
    Listed ⟨kernel, { s.main with linkedList := s.main.linkedList.erase item }.goto
      (.joinFreeItem item data rest), s.workers⟩ := by
  refine ⟨fun i => ?_, hl.nodup.sublist (List.erase_sublist.map _), ?_⟩
  · have hthreads := hl.threads i
    simp only [Main.unjoined, hpc] at hthreads
    exact hthreads
  · have hvisits : (item :: rest).Sublist s.main.linkedList := by
      simpa only [Main.toVisit, hpc] using hl.visits
    simpa [Main.toVisit] using hvisits.erase item

theorem Listed.creates (hl : Listed s) {kernel : Kernel σ} {item data i : ℕ} {w : Worker}
    (hpc : s.main.pc = .pthreadCreate item data) (hfree : s.workers i = none) :
    Listed ⟨kernel, Main.goto
      { s.main with linkedList := ⟨item, i⟩ :: s.main.linkedList, currentState := .waiting } .loop,
      Function.update s.workers i (some w)⟩ := by
  have hthreads := hl.threads
  simp only [Main.unjoined, hpc] at hthreads
  constructor
  · intro j
    simp only [Main.unjoined, Main.goto_pc, Main.goto_linkedList, List.mem_cons, exists_eq_or_imp]
    rw [← hthreads j]
    by_cases hj : j = i
    · simp [hj]
    · simp [hj, Ne.symm hj]
  · simp only [Main.goto_linkedList, List.map_cons, List.nodup_cons]
    refine ⟨fun hmem => ?_, hl.nodup⟩
    obtain ⟨x, hx, hxi⟩ := List.mem_map.mp hmem
    exact (hthreads i).mpr ⟨x, hx, hxi⟩ hfree
  · exact List.nil_sublist _

theorem Listed.main_step (hl : Listed s)
    (hs : s.step ops b (.thread .main e choice) = some s') : Listed s' := by
  obtain ⟨-, main, kernel, workers, hnext, -, hthreads, rfl⟩ := System.step_main hs
  have hquiet (hmoves : e.movesThread = false) (hlist : main.linkedList = s.main.linkedList)
      (hunjoined : main.unjoined = s.main.unjoined)
      (hvisits : main.toVisit.Sublist s.main.linkedList) : Listed ⟨kernel, main, workers⟩ := by
    have hworkers : workers = s.workers := by
      cases hthreads with
      | starts => cases hmoves
      | joins => cases hmoves
      | quiet => rfl
    rw [hworkers]
    exact hl.keep (fun _ => Iff.rfl) hlist hunjoined hvisits
  have hvisits := hl.visits
  cases hnext with
  | toJoin hpc =>
    apply hquiet rfl rfl _ (List.Sublist.refl _)
    simp only [Main.unjoined, hpc, Main.goto_pc, Main.goto_linkedList]
  | joinsNot hpc =>
    simp only [Main.toVisit, hpc] at hvisits
    apply hquiet rfl rfl _ ((List.sublist_cons_self _ _).trans hvisits)
    simp only [Main.unjoined, hpc, Main.goto_pc, Main.goto_linkedList]
  | @joins item rest hpc data fd =>
    cases hthreads with
    | joins hw hexit => exact hl.joins hpc
    | quiet hmoves => cases hmoves
  | joinCloses hpc ok =>
    cases hthreads with
    | quiet => exact hl.joinCloses hpc
  | freesItem hpc =>
    simp only [Main.toVisit, hpc] at hvisits
    apply hquiet rfl rfl _ hvisits
    simp only [Main.unjoined, hpc, Main.goto_pc, Main.goto_linkedList]
  | freesData hpc =>
    simp only [Main.toVisit, hpc] at hvisits
    apply hquiet rfl rfl _ hvisits
    simp only [Main.unjoined, hpc, Main.goto_pc, Main.goto_linkedList]
  | creates hpc i =>
    cases hthreads with
    | starts _ _ hfree => exact hl.creates hpc hfree
    | quiet hmoves => cases hmoves
  | stamps hpc hstamp | stamped hpc hstamp =>
    apply hquiet hstamp.movesThread rfl _ (List.nil_sublist _)
    simp only [Main.unjoined, hpc, Main.goto_pc, Main.goto_linkedList]
  | mallocFails hpc =>
    apply hquiet rfl rfl _ (List.nil_sublist _)
    rcases hpc with hpc | ⟨item, hpc⟩ <;>
      simp only [Main.unjoined, hpc, Main.goto_pc, Main.goto_linkedList]
  | starts hpc | ticks hpc | stampDue hpc | finishes hpc | toCreate hpc | skips hpc | joinsDone hpc
  | listEmpty hpc | listNotEmpty hpc | caught hpc | notCaught hpc | acceptFails hpc | accepts hpc
  | mallocsItem hpc | mallocsData hpc | createFails hpc =>
    apply hquiet rfl rfl _ (List.nil_sublist _)
    simp only [Main.unjoined, hpc, Main.goto_pc, Main.goto_linkedList]

theorem Listed.step (hl : Listed s) {l : Label χ} (hs : s.Step ops b l s') : Listed s' := by
  obtain ⟨-, hs⟩ := hs
  cases l with
  | thread t e choice =>
    cases t with
    | main => exact hl.main_step hs
    | worker i => exact hl.worker_step hs
  | signal sig =>
    obtain ⟨-, -, rfl⟩ := System.step_signal hs
    exact hl.keep (fun _ => Iff.rfl) rfl rfl hl.visits
  | disconnect c =>
    obtain ⟨-, -, rfl⟩ := System.step_disconnect hs
    exact hl.keep (fun _ => Iff.rfl) rfl rfl hl.visits

/-- `malloc` or `pthread_create` fails in `create_thread`. -/
def Label.creationFails : Label χ → Bool
  | .thread .main (.malloc none) _ => true
  | .thread .main (.pthreadCreate none) _ => true
  | _ => false

/-- Every open connection waits for its thread, has one, or is about to be closed. -/
def Accounted (s : System σ) : Prop :=
  ∀ fd c, s.kernel.fds fd = some (.conn c) → s.main.pendingFd = some fd ∨
    (∃ i, s.main.joined = some (i, fd)) ∨ ∃ i w, s.workers i = some w ∧ w.data.clientFd = fd

theorem accounted_start (node : σ) (reserved : Fd → Bool) :
    Accounted (System.start node reserved) := by
  intro fd c hfd
  simp only [System.start] at hfd
  split at hfd <;> simp at hfd

theorem Accounted.keep (ha : Accounted s)
    (hconns : ∀ f c, s'.kernel.fds f = some (.conn c) → s.kernel.fds f = some (.conn c))
    (hpending : ∀ fd, s.main.pendingFd = some fd → s'.main.pendingFd = some fd)
    (hjoined : ∀ got, s.main.joined = some got → s'.main.joined = some got)
    (hworkers : ∀ i w, s.workers i = some w →
      ∃ w', s'.workers i = some w' ∧ w'.data.clientFd = w.data.clientFd) : Accounted s' := by
  intro fd c hfd
  rcases ha fd c (hconns fd c hfd) with hp | ⟨i, hj⟩ | ⟨i, w, hw, hclient⟩
  · exact .inl (hpending fd hp)
  · exact .inr (.inl ⟨i, hjoined _ hj⟩)
  · obtain ⟨w', hw', heq⟩ := hworkers i w hw
    exact .inr (.inr ⟨i, w', hw', heq.trans hclient⟩)

theorem Accounted.worker_step (ha : Accounted s) (ho : Owned s h) {i : ℕ}
    (hs : s.step ops b (.thread (.worker i) e choice) = some s') : Accounted s' := by
  obtain ⟨-, w, w', kernel, hw, hstep, hcall, rfl⟩ := System.step_worker hs
  have hnext := Worker.step_next hstep
  have hframe := (hnext.fileStep.frame hcall fun fd hfd => ho.workerFile i w fd hw hfd).1
  refine ha.keep (fun f c => (hframe.conns f c).mp) (fun _ h => h) (fun _ h => h) ?_
  intro j v hv
  by_cases hj : j = i
  · subst hj
    cases hw.symm.trans hv
    exact ⟨w', Function.update_self .., hnext.clientFd_eq⟩
  · exact ⟨v, (Function.update_of_ne hj ..).trans hv, rfl⟩

theorem Accounted.joinCloses (ha : Accounted s) (ho : Owned s h) {main : Main}
    {kernel : Kernel σ} {i : ℕ} {fd : Fd} {ok : Bool} (hjoined : s.main.joined = some (i, fd))
    (hcall : s.kernel.call ops .main (.close fd ok) choice = some kernel)
    (hpending : s.main.pendingFd = none) : Accounted ⟨kernel, main, s.workers⟩ := by
  obtain ⟨⟨c, -, hconn⟩, -⟩ := ho.joining i fd hjoined
  obtain rfl := call_close_conn hconn hcall
  intro f c' hf
  by_cases hsame : f = fd
  · subst hsame
    simp [Kernel.setFd] at hf
  · simp only [Kernel.setFd, Function.update_of_ne hsame] at hf
    rcases ha f c' hf with hp | ⟨j, hj⟩ | hw
    · cases hpending.symm.trans hp
    · cases hjoined.symm.trans hj
      exact absurd rfl hsame
    · exact .inr (.inr hw)

theorem Accounted.accepts (ha : Accounted s) {main : Main} {kernel : Kernel σ} {fd : Fd} {c : ℕ}
    (hcall : s.kernel.call ops .main (.accept (some (fd, c))) choice = some kernel)
    (hpending : s.main.pendingFd = none) (hjoined : s.main.joined = none)
    (hnew : main.pendingFd = some fd) : Accounted ⟨kernel, main, s.workers⟩ := by
  obtain ⟨-, -, rfl⟩ := call_accept hcall
  intro f c' hf
  by_cases hsame : f = fd
  · exact .inl (hsame ▸ hnew)
  · simp only [Kernel.setFd, Function.update_of_ne hsame] at hf
    rcases ha f c' hf with hp | ⟨j, hj⟩ | hw
    · cases hpending.symm.trans hp
    · cases hjoined.symm.trans hj
    · exact .inr (.inr hw)

theorem Accounted.creates (ha : Accounted s) {main : Main} {i data : ℕ} {fd : Fd}
    (hfree : s.workers i = none) (hfd : s.main.clientFd = some fd)
    (hjoined : s.main.joined = none) :
    Accounted ⟨s.kernel, main, Function.update s.workers i (some (Worker.create data fd))⟩ := by
  intro f c hf
  rcases ha f c hf with hp | ⟨j, hj⟩ | ⟨j, w, hw, hclient⟩
  · unfold Main.pendingFd at hp
    split at hp
    · cases hfd.symm.trans hp
      exact .inr (.inr ⟨i, _, Function.update_self .., rfl⟩)
    · cases hp
  · cases hjoined.symm.trans hj
  · have hne : j ≠ i := by
      rintro rfl
      cases hfree.symm.trans hw
    exact .inr (.inr ⟨j, w, (Function.update_of_ne hne ..).trans hw, hclient⟩)

theorem Accounted.main_step (ha : Accounted s) (ho : Owned s h)
    (hcreate : (Label.thread .main e choice).creationFails = false)
    (hs : s.step ops b (.thread .main e choice) = some s') : Accounted s' := by
  obtain ⟨-, main, kernel, workers, hnext, hcall, hthreads, rfl⟩ := System.step_main hs
  have hstate := ho.control.state
  have hquiet (hmoves : e.movesThread = false)
      (hfile : FileStep s.main.fileFd e main.fileFd)
      (hpending : ∀ fd, s.main.pendingFd = some fd → main.pendingFd = some fd)
      (hjoined : s.main.joined = none) : Accounted ⟨kernel, main, workers⟩ := by
    have hworkers : workers = s.workers := by
      cases hthreads with
      | starts => cases hmoves
      | joins => cases hmoves
      | quiet => rfl
    have hframe := (hfile.frame hcall ho.mainFile).1
    rw [hworkers]
    exact ha.keep (fun f c => (hframe.conns f c).mp) hpending
      (fun got hgot => by cases hjoined.symm.trans hgot) fun i w hw => ⟨w, hw, rfl⟩
  cases hnext with
  | stamps hpc hstamp | stamped hpc hstamp =>
    have hfile := hstamp.fileStep
    refine hquiet hstamp.movesThread ?_ (fun _ h => h) (by simp only [Main.joined, hpc])
    simp only [Main.fileFd, hpc]
    exact hfile
  | @joins item rest hpc data fd =>
    cases hthreads with
    | joins hw hexit =>
      simp only [Kernel.call, Option.some.injEq] at hcall
      subst hcall
      intro f c hf
      rcases ha f c hf with hp | ⟨j, hj⟩ | ⟨j, v, hv, hclient⟩
      · exact .inl hp
      · simp only [Main.joined, hpc] at hj
        cases hj
      · by_cases hsame : j = item.threadId
        · subst hsame
          cases hw.symm.trans hv
          exact .inr (.inl ⟨_, congrArg (fun fd => some (_, fd)) hclient⟩)
        · exact .inr (.inr ⟨j, v, (Function.update_of_ne hsame ..).trans hv, hclient⟩)
    | quiet hmoves => cases hmoves
  | @joinCloses item data fd rest hpc ok =>
    have hst := hstate .waiting (by simp [hpc, MainPc.state])
    have hjoined : s.main.joined = some (item.threadId, fd) := by simp only [Main.joined, hpc]
    cases hthreads with
    | quiet => exact ha.joinCloses ho hjoined hcall (pendingFd_of_state hst)
  | accepts hpc fd c =>
    have hst := hstate .waiting (by simp [hpc, MainPc.state])
    cases hthreads with
    | quiet =>
      exact ha.accepts hcall (pendingFd_of_state hst) (by simp only [Main.joined, hpc]) rfl
  | creates hpc i =>
    cases hthreads with
    | starts hpc' hfd hfree =>
      simp only [Kernel.call, Option.some.injEq] at hcall
      subst hcall
      exact ha.creates hfree hfd (by simp only [Main.joined, hpc])
    | quiet hmoves => cases hmoves
  | acceptFails hpc =>
    have hst := hstate .waiting (by simp [hpc, MainPc.state])
    refine hquiet rfl (.silent rfl rfl) (fun fd hfd => ?_) (by simp only [Main.joined, hpc])
    cases (pendingFd_of_state hst).symm.trans hfd
  | mallocFails | createFails => cases hcreate
  | starts hpc | ticks hpc | stampDue hpc | finishes hpc | toJoin hpc | toCreate hpc | skips hpc
  | joinsDone hpc | joinsNot hpc | freesItem hpc | freesData hpc | listEmpty hpc | listNotEmpty hpc
  | caught hpc | notCaught hpc | mallocsItem hpc | mallocsData hpc =>
    exact hquiet rfl (.silent rfl rfl) (fun _ h => h) (by simp only [Main.joined, hpc])

theorem Accounted.step (ha : Accounted s) (ho : Owned s h) {l : Label χ}
    (hcreate : l.creationFails = false) (hs : s.Step ops b l s') : Accounted s' := by
  obtain ⟨-, hs⟩ := hs
  cases l with
  | thread t e choice =>
    cases t with
    | main => exact ha.main_step ho hcreate hs
    | worker i => exact ha.worker_step ho hs
  | signal sig =>
    obtain ⟨-, -, rfl⟩ := System.step_signal hs
    have hfds := (deliver_fds s.kernel sig).1
    exact ha.keep (fun f c hf => by rwa [hfds] at hf) (fun _ h => h) (fun _ h => h)
      fun i w hw => ⟨w, hw, rfl⟩
  | disconnect c =>
    obtain ⟨-, -, rfl⟩ := System.step_disconnect hs
    exact ha.keep (fun _ _ hf => hf) (fun _ h => h) (fun _ h => h) fun i w hw => ⟨w, hw, rfl⟩

/-- The connection is `client_fd` in state `CreatingThread`. -/
def Pending (s : System σ) (c : ℕ) : Prop :=
  ∃ fd, s.main.pendingFd = some fd ∧ s.kernel.fds fd = some (.conn c)

/-- The connection is behind the thread's descriptor. -/
def ThreadOwns (s : System σ) (c i : ℕ) : Prop :=
  ∃ w, s.workers i = some w ∧ s.kernel.fds w.data.clientFd = some (.conn c)

def ItemOwns (s : System σ) (c : ℕ) (item : Item) : Prop :=
  item ∈ s.main.linkedList ∧ ThreadOwns s c item.threadId

def Served (s : System σ) (c : ℕ) : Prop := (∃! item, ItemOwns s c item) ∧ ∃! i, ThreadOwns s c i

def Closed (s : System σ) (c : ℕ) : Prop :=
  (∀ fd, s.kernel.fds fd ≠ some (.conn c)) ∧ s.kernel.closes c = 1

theorem Owned.threadOwns_unique (ho : Owned s h) {c i j : ℕ} (hi : ThreadOwns s c i)
    (hj : ThreadOwns s c j) : i = j := by
  obtain ⟨w, hw, hconn⟩ := hi
  obtain ⟨v, hv, hconn'⟩ := hj
  exact ho.distinct i j w v hw hv (ho.connInj _ _ c hconn hconn')

theorem Owned.not_pending_of_threadOwns (ho : Owned s h) {c i : ℕ} (hi : ThreadOwns s c i) :
    ¬ Pending s c := by
  rintro ⟨fd, hpending, hfd⟩
  obtain ⟨w, hw, hconn⟩ := hi
  exact (ho.pending fd hpending).2 i w hw (ho.connInj _ _ c hconn hfd)

theorem joined_of_loop {m : Main} (hpc : m.pc = .loop) : m.joined = none := by
  simp only [Main.joined, hpc]

/-- Between two rounds every thread has its item. -/
theorem Listed.served (hl : Listed s) (ho : Owned s h) (hpc : s.main.pc = .loop) {c i : ℕ}
    (hi : ThreadOwns s c i) : Served s c := by
  obtain ⟨w, hw, -⟩ := id hi
  have hthread := (hl.threads i).mp (by simp [hw])
  simp only [Main.unjoined, hpc] at hthread
  obtain ⟨item, hmem, rfl⟩ := hthread
  refine ⟨⟨item, ⟨hmem, hi⟩, fun x hx => ?_⟩, item.threadId, hi, fun j hj =>
    ho.threadOwns_unique hj hi⟩
  exact List.inj_on_of_nodup_map hl.nodup hx.1 hmem (ho.threadOwns_unique hx.2 hi)

theorem Accounted.stage (ha : Accounted s) (hl : Listed s) (ho : Owned s h)
    (hpc : s.main.pc = .loop) {c : ℕ} (hc : c < s.kernel.accepted) :
    Pending s c ∨ Served s c ∨ Closed s c := by
  by_cases hopen : ∃ fd, s.kernel.fds fd = some (.conn c)
  · obtain ⟨fd, hfd⟩ := hopen
    rcases ha fd c hfd with hp | ⟨i, hj⟩ | ⟨i, w, hw, rfl⟩
    · exact .inl ⟨fd, hp, hfd⟩
    · cases (joined_of_loop hpc).symm.trans hj
    · exact .inr (.inl (hl.served ho hpc ⟨w, hw, hfd⟩))
  · have hnone : ∀ fd, s.kernel.fds fd ≠ some (.conn c) := not_exists.mp hopen
    exact .inr (.inr ⟨hnone, ho.isClosed c hc hnone⟩)

theorem Owned.closes_le_one (ho : Owned s h) (c : ℕ) : s.kernel.closes c ≤ 1 := by
  by_cases hc : c < s.kernel.accepted
  · by_cases hopen : ∃ fd, s.kernel.fds fd = some (.conn c)
    · obtain ⟨fd, hfd⟩ := hopen
      rw [ho.isOpen fd c hfd]
      exact Nat.zero_le _
    · exact (ho.isClosed c hc (not_exists.mp hopen)).le
  · rw [ho.unused c (not_lt.mp hc)]
    exact Nat.zero_le _

/-- The descriptor and the connection that `recv` and `send` name. -/
def Event.connCall : Event → Option (Fd × ℕ)
  | .recv fd conn _ _ => some (fd, conn)
  | .send fd conn _ _ _ => some (fd, conn)
  | _ => none

theorem getFileMutex_connCall {b : Build} {e : Event} {rc : ℤ} (h : getFileMutex b e = some rc) :
    e.connCall = none := by
  unfold getFileMutex at h
  split at h <;> first | cases h | rfl

theorem releaseFileMutex_connCall {b : Build} {e : Event} {rc : ℤ}
    (h : releaseFileMutex b e = some rc) : e.connCall = none := by
  unfold releaseFileMutex at h
  split at h <;> first | cases h | rfl

theorem Worker.Next.connCall {w w' : Worker} (hn : w.Next b e w') {fd : Fd} {conn : ℕ}
    (he : e.connCall = some (fd, conn)) : fd = w.data.clientFd := by
  cases hn with
  | recvFails | recvEnds | recvs =>
    cases he
    rfl
  | sends hpc hsend =>
    cases hsend with
    | sendFails | sendsAll | sendsPart =>
      cases he
      rfl
    | lock hm => cases (getFileMutex_connCall hm).symm.trans he
    | unlockFails hm => cases (releaseFileMutex_connCall hm).symm.trans he
    | unlocks hm => cases (releaseFileMutex_connCall hm).symm.trans he
    | unlocksFailed hm => cases (releaseFileMutex_connCall hm).symm.trans he
    | _ => cases he
  | _ => cases he

theorem call_connCall {k k' : Kernel σ} {t : Tid} {fd : Fd} {conn c : ℕ}
    (he : e.connCall = some (fd, conn)) (hfd : k.fds fd = some (.conn c))
    (hcall : k.call ops t e choice = some k') : conn = c := by
  unfold Event.connCall at he
  split at he
  · cases he
    simp only [Kernel.call, hfd] at hcall
    split at hcall
    next heq => exact heq
    next => cases hcall
  · cases he
    simp only [Kernel.call, hfd] at hcall
    split at hcall
    next heq => exact heq
    next => cases hcall
  · cases he

/-- A worker receives and sends on the connection it was started for, which is open. -/
theorem Owned.connCall (ho : Owned s h) {i : ℕ} {fd : Fd} {conn : ℕ}
    (he : e.connCall = some (fd, conn)) (hs : s.Step ops b (.thread (.worker i) e choice) s') :
    h.client i = some conn ∧ s.kernel.fds fd = some (.conn conn) ∧ s.kernel.closes conn = 0 := by
  obtain ⟨-, w, w', kernel, hw, hstep, hcall, -⟩ := System.step_worker hs.2
  obtain ⟨c, hclient, hconn⟩ := ho.client i w hw
  obtain rfl := (Worker.step_next hstep).connCall he
  obtain rfl := call_connCall he hconn hcall
  exact ⟨hclient, hconn, ho.isOpen _ _ hconn⟩

/-- Only `join_threads` closes a connection, that of a thread it has joined. -/
theorem Owned.closes (ho : Owned s h) {t : Tid} {fd : Fd} {ok : Bool} {c : ℕ}
    (hfd : s.kernel.fds fd = some (.conn c))
    (hs : s.Step ops b (.thread t (.close fd ok) choice) s') :
    t = .main ∧ ∃ item data rest, s.main.pc = .joinClose item data fd rest ∧
      h.client item.threadId = some c := by
  cases t with
  | worker i =>
    obtain ⟨-, w, w', kernel, hw, hstep, -, -⟩ := System.step_worker hs.2
    have hheld := (Worker.step_next hstep).fileStep.names fd rfl
    obtain ⟨pos, hpos⟩ := ho.workerFile i w fd hw hheld
    cases hfd.symm.trans hpos
  | main =>
    obtain ⟨-, main, kernel, workers, hnext, -, -, -⟩ := System.step_main hs.2
    have hstamp {pc : StampPc} {next : Option StampPc} (hpc : s.main.pc = .stamp pc)
        (hstamp : Stamps b pc (.close fd ok) next) : False := by
      have hheld : s.main.fileFd = some fd := by
        simp only [Main.fileFd, hpc]
        exact hstamp.fileStep.names fd rfl
      obtain ⟨pos, hpos⟩ := ho.mainFile fd hheld
      cases hfd.symm.trans hpos
    cases hnext with
    | stamps hpc hs => exact (hstamp hpc hs).elim
    | stamped hpc hs => exact (hstamp hpc hs).elim
    | @joinCloses item data _ rest hpc =>
      have hjoined : s.main.joined = some (item.threadId, fd) := by simp only [Main.joined, hpc]
      obtain ⟨⟨c', hclient, hconn⟩, -⟩ := ho.joining _ fd hjoined
      cases hfd.symm.trans hconn
      exact ⟨rfl, item, data, rest, hpc, hclient⟩

theorem Listed.joined_gone (hl : Listed s) {item : Item} {data : ℕ} {fd : Fd} {rest : List Item}
    (hpc : s.main.pc = .joinClose item data fd rest) : s.workers item.threadId = none := by
  have hvisits : (item :: rest).Sublist s.main.linkedList := by
    simpa only [Main.toVisit, hpc] using hl.visits
  have hmem := hvisits.subset List.mem_cons_self
  by_contra hne
  have hthread := (hl.threads item.threadId).mp hne
  simp only [Main.unjoined, hpc] at hthread
  exact ((mem_erase_item hl.nodup hmem _).mp hthread).1 rfl

/-- A thread that is joined has called `pthread_exit` and does nothing more. -/
theorem System.Step.tryJoin {i : ℕ} {got : ℕ × Fd}
    (hs : s.Step ops b (.thread .main (.tryJoin i (some got)) choice) s') :
    ∃ w, s.workers i = some w ∧ w.pc = .exited ∧ got = (w.data.addr, w.data.clientFd) := by
  obtain ⟨-, main, kernel, workers, -, -, hthreads, -⟩ := System.step_main hs.2
  cases hthreads with
  | joins hw hpc => exact ⟨_, hw, hpc, rfl⟩
  | quiet hmoves => cases hmoves

variable {node : σ} {reserved : Fd → Bool} {tr : List (Label χ)}

theorem run_owned (hrun : Run (System.Step ops b) (System.start node reserved) tr s) :
    Owned s (clientsAfter tr) :=
  hrun.follows (R := Owned) (owned_start node reserved) fun _ _ _ _ ho hs => ho.step hs

theorem run_listed (hrun : Run (System.Step ops b) (System.start node reserved) tr s) :
    Listed s :=
  hrun.invariant (P := fun _ s => Listed s) (listed_start node reserved)
    fun _ _ _ _ _ hl hs => hl.step hs

theorem run_accounted (hrun : Run (System.Step ops b) (System.start node reserved) tr s)
    (hcreate : ∀ l ∈ tr, l.creationFails = false) : Accounted s := by
  induction hrun with
  | nil => exact accounted_start node reserved
  | @snoc tr s l s' hrun hs ih =>
    have hlast : l.creationFails = false := hcreate l (by simp)
    exact (ih fun l' hl' => hcreate l' (by simp [hl'])).step (run_owned hrun) hlast hs

theorem Main.Next.not_returned {m m' : Main} (hn : m.Next b e m') : m.pc ≠ .returned := by
  cases hn with
  | mallocFails hpc => rcases hpc with hpc | ⟨item, hpc⟩ <;> simp [hpc]
  | starts hpc | ticks hpc | stampDue hpc | finishes hpc | stamps hpc | stamped hpc | toJoin hpc
  | toCreate hpc | skips hpc | joinsDone hpc | joinsNot hpc | joins hpc | joinCloses hpc
  | freesItem hpc | freesData hpc | listEmpty hpc | listNotEmpty hpc | caught hpc | notCaught hpc
  | acceptFails hpc | accepts hpc | mallocsItem hpc | mallocsData hpc | createFails hpc
  | creates hpc => simp [hpc]

theorem Accounted.none_open (ha : Accounted s) (hl : Listed s) (ho : Owned s h)
    (hpc : s.main.pc = .returned) :
    (∀ i, s.workers i = none) ∧ ∀ c fd, s.kernel.fds fd ≠ some (.conn c) := by
  obtain ⟨hlist, hwaiting, -, -⟩ := ho.control.stop (ho.control.returned hpc)
  have hworkers : ∀ i, s.workers i = none := by
    intro i
    by_contra hne
    have hthread := (hl.threads i).mp hne
    simp [Main.unjoined, hpc, hlist] at hthread
  refine ⟨hworkers, fun c fd hfd => ?_⟩
  rcases ha fd c hfd with hp | ⟨i, hj⟩ | ⟨i, w, hw, -⟩
  · cases (pendingFd_of_state hwaiting).symm.trans hp
  · simp [Main.joined, hpc] at hj
  · cases (hworkers i).symm.trans hw

theorem Accounted.returned (ha : Accounted s) (hl : Listed s) (ho : Owned s h)
    (hpc : s.main.pc = .returned) :
    s.main.linkedList = [] ∧ (∀ i, s.workers i = none) ∧ (∀ c, ¬ Pending s c) ∧
      (∀ c < s.kernel.accepted, Closed s c) ∧
      ∀ t e choice s', ¬ s.Step ops b (.thread t e choice) s' := by
  obtain ⟨hlist, -⟩ := ho.control.stop (ho.control.returned hpc)
  obtain ⟨hworkers, hfds⟩ := ha.none_open hl ho hpc
  refine ⟨hlist, hworkers, ?_, fun c hc => ⟨hfds c, ho.isClosed c hc (hfds c)⟩, ?_⟩
  · rintro c ⟨fd, -, hfd⟩
    exact hfds c fd hfd
  intro t e choice s' hs
  cases t with
  | worker i =>
    obtain ⟨-, w, -, -, hw, -⟩ := System.step_worker hs.2
    cases (hworkers i).symm.trans hw
  | main =>
    obtain ⟨-, main, kernel, workers, hnext, -⟩ := System.step_main hs.2
    exact hnext.not_returned hpc

/-- For every schedule of `main_loop`, the workers, the clients and the signals, with
`create_thread` succeeding: between two rounds an accepted connection is pending, served by one
item and one thread, or closed; only `join_threads` closes it, once, after joining its thread;
workers use only their own open connection; and nothing is left when `main_loop` returns. -/
theorem main_loop_life_cycle (ops : FileOps σ χ) (b : Build) (node : σ) (reserved : Fd → Bool)
    {tr : List (Label χ)} {s : System σ}
    (hrun : Run (System.Step ops b) (System.start node reserved) tr s)
    (hcreate : ∀ l ∈ tr, l.creationFails = false) :
    (s.main.pc = .loop → (s.main.linkedList.map Item.threadId).Nodup ∧ ∀ c < s.kernel.accepted,
      (Pending s c ∨ Served s c ∨ Closed s c) ∧ ¬ (Pending s c ∧ ∃ i, ThreadOwns s c i) ∧
        ¬ (Pending s c ∧ Closed s c) ∧ ¬ (Closed s c ∧ ∃ i, ThreadOwns s c i)) ∧
      (∀ c, s.kernel.closes c ≤ 1) ∧
      (∀ t fd ok choice s' c, s.kernel.fds fd = some (.conn c) →
        s.Step ops b (.thread t (.close fd ok) choice) s' →
        t = .main ∧ ∃ item data rest, s.main.pc = .joinClose item data fd rest ∧
          (clientsAfter tr).client item.threadId = some c ∧ s.workers item.threadId = none) ∧
      (∀ i got choice s', s.Step ops b (.thread .main (.tryJoin i (some got)) choice) s' →
        ∃ w, s.workers i = some w ∧ w.pc = .exited) ∧
      (∀ i e fd conn choice s', e.connCall = some (fd, conn) →
        s.Step ops b (.thread (.worker i) e choice) s' →
        (clientsAfter tr).client i = some conn ∧ s.kernel.fds fd = some (.conn conn) ∧
          s.kernel.closes conn = 0) ∧
      (s.main.pc = .returned → s.main.linkedList = [] ∧ (∀ i, s.workers i = none) ∧
        (∀ c, ¬ Pending s c) ∧ (∀ c < s.kernel.accepted, Closed s c) ∧
        ∀ t e choice s', ¬ s.Step ops b (.thread t e choice) s') := by
  have ho := run_owned hrun
  have hl := run_listed hrun
  have ha := run_accounted hrun hcreate
  refine ⟨fun hpc => ⟨hl.nodup, fun c hc => ⟨ha.stage hl ho hpc hc, ?_, ?_, ?_⟩⟩,
    ho.closes_le_one, ?_, ?_, ?_, ha.returned hl ho⟩
  · rintro ⟨hp, i, hi⟩
    exact ho.not_pending_of_threadOwns hi hp
  · rintro ⟨⟨fd, -, hfd⟩, hclosed⟩
    exact hclosed.1 fd hfd
  · rintro ⟨hclosed, i, w, -, hfd⟩
    exact hclosed.1 _ hfd
  · intro t fd ok choice s' c hfd hs
    obtain ⟨rfl, item, data, rest, hpc, hclient⟩ := ho.closes hfd hs
    exact ⟨rfl, item, data, rest, hpc, hclient, hl.joined_gone hpc⟩
  · intro i got choice s' hs
    obtain ⟨w, hw, hpc, -⟩ := hs.tryJoin
    exact ⟨w, hw, hpc⟩
  · intro i e fd conn choice s' he hs
    exact ho.connCall he hs

end

def twoClients : List (Label Unit) :=
  callsOf .main [.clockGettime 0, .clockGettime 0, .compute, .compute, .loadSignal false,
    .loadSignal false, .accept (some (3, 0)), .clockGettime 0, .compute, .malloc (some 1), .malloc (some 2),
    .pthreadCreate (some 0), .clockGettime 0, .compute, .tryJoin 0 none, .compute, .compute,
    .loadSignal false, .accept (some (4, 1)), .clockGettime 0, .compute, .malloc (some 3),
    .malloc (some 4), .pthreadCreate (some 1)]

def hangsUp (fd conn : ℕ) (caught : Bool) : List Event :=
  [.mallocBuffers (List.replicate 1024 0), .loadSignal false, .recv fd conn 1024 (some []),
    .loadSignal caught, .compute, .exitThread]

/-- Of two clients the second one hangs up and its thread is joined; a `SIGINT` comes while the
thread of the first one is in `recv`. -/
def clientsLeave : List (Label Unit) :=
  twoClients ++ callsOf (.worker 1) (hangsUp 4 1 false) ++
  callsOf (.worker 0) ((hangsUp 3 0 true).take 2) ++
  callsOf .main [.clockGettime 0, .compute, .tryJoin 1 (some (4, 4)), .close 4 true, .free 3,
    .free 4, .tryJoin 0 none, .compute, .compute, .loadSignal false] ++
  [.signal .sigint] ++ callsOf (.worker 0) ((hangsUp 3 0 true).drop 2) ++
  callsOf .main [.accept none, .clockGettime 0, .compute, .tryJoin 0 (some (2, 3)),
    .close 3 true, .free 1, .free 2, .compute, .loadSignal true, .loadSignal true, .compute]

theorem clientsLeave_life_cycle : ∃ s, Run (System.Step regularFile fileBuild)
    (System.start [] fun _ => false) clientsLeave s ∧ s.main.pc = .returned ∧ Closed s 0 ∧
      Closed s 1 := by
  have hreturns : (clientsLeave.foldlM (System.step regularFile fileBuild)
      (System.start [] fun _ => false)).map (fun s => (s.main.pc, s.kernel.accepted)) =
      some (.returned, 2) := by decide +kernel
  obtain ⟨s, hs, hpc⟩ := Option.map_eq_some_iff.mp hreturns
  have hrun := run_of_foldlM (by decide +kernel) hs
  have haccepted : s.kernel.accepted = 2 := congrArg Prod.snd hpc
  have hlife := main_loop_life_cycle regularFile fileBuild [] (fun _ => false) hrun
    (by decide +kernel)
  have hclosed := (hlife.2.2.2.2.2 (congrArg Prod.fst hpc)).2.2.2.1
  exact ⟨s, hrun, congrArg Prod.fst hpc, hclosed 0 (by omega), hclosed 1 (by omega)⟩

end Aesd.Server
