import Aesd.Server.LifeCycle

/-! What `create_thread` takes and who has it: the connection, the list item and the thread's data.
It gives nothing back when it fails. -/
namespace Aesd.Server
open Runs

/-- The blocks that a function of the main thread has in a local variable. -/
def Main.inHand (m : Main) : List ℕ :=
  match m.pc with
  | .mallocData item => [item]
  | .pthreadCreate item data => [item, data]
  | .joinClose _ data _ _ => [data]
  | .joinFreeItem item data _ => [item.addr, data]
  | .joinFreeData data _ => [data]
  | _ => []

/-- The main thread can still free the block: from a local variable or from the list. -/
def Main.Holds (m : Main) (a : ℕ) : Prop :=
  a ∈ m.inHand ∨ ∃ item ∈ m.linkedList, item.addr = a

/-- Every live block is reached from the main thread or is the data of a thread. -/
def Allotted {σ : Type} (s : System σ) : Prop :=
  ∀ a, s.kernel.blocks a = true → s.main.Holds a ∨ ∃ i w, s.workers i = some w ∧ w.data.addr = a

section
variable {σ χ : Type} {ops : FileOps σ χ} {b : Build} {s s' : System σ} {k k' : Kernel σ}
  {t : Tid} {e : Event} {choice : χ} {m m' : Main} {a : ℕ}

theorem Worker.Next.addr_eq {w w' : Worker} (h : w.Next b e w') : w'.data.addr = w.data.addr := by
  cases h with
  | sends hpc hsend =>
    cases hsend with
    | returns r => split <;> rfl
    | _ => rfl
  | _ => rfl

theorem deliver_blocks (k : Kernel σ) (sig : Signal) : (k.deliver sig).blocks = k.blocks := by
  unfold Kernel.deliver
  split <;> rfl

theorem call_blocks (h : k.call ops t e choice = some k') (ha : k'.blocks a = true) :
    e = .malloc (some a) ∨ k.blocks a = true ∧ e ≠ .free a := by
  have hsame (hblocks : k'.blocks = k.blocks) (hfree : ∀ x, e ≠ .free x) :
      e = .malloc (some a) ∨ k.blocks a = true ∧ e ≠ .free a :=
    .inr ⟨hblocks ▸ ha, hfree a⟩
  unfold Kernel.call Kernel.close Kernel.send at h
  split at h
  case h_15 x =>
    split at h <;> cases h
    by_cases hx : a = x
    · exact .inl (by rw [hx])
    · exact .inr ⟨by simpa [Function.update_of_ne hx] using ha, by simp⟩
  case h_16 x =>
    split at h <;> cases h
    by_cases hx : a = x
    · subst hx
      simp at ha
    · exact .inr ⟨by simpa [Function.update_of_ne hx] using ha, by simpa using Ne.symm hx⟩
  case h_17 hfree =>
    cases h
    exact hsame rfl hfree
  all_goals
    refine hsame ?_ (by simp)
    repeat' split at h
    all_goals first
      | cases h <;> rfl
      | cases h <;> exact deliver_blocks k _
      | obtain ⟨r, -, rfl⟩ := Option.map_eq_some_iff.mp h; rfl

/-- A step of `main_loop` in which `create_thread` does not fail drops no block; one of them it may
pass to a new thread. -/
theorem Main.Next.keeps_block (hn : m.Next b e m') (hmalloc : e ≠ .malloc none)
    (hthread : e ≠ .pthreadCreate none) (hfree : e ≠ .free a) (ha : m.Holds a) :
    m'.Holds a ∨ ∃ item i, m.pc = .pthreadCreate item a ∧ e = .pthreadCreate (some i) := by
  unfold Main.Holds Main.inHand at *
  cases hn with
  | mallocFails => exact absurd rfl hmalloc
  | createFails => exact absurd rfl hthread
  | @joinCloses item data fd rest hpc ok =>
    left
    simp only [hpc, List.mem_singleton] at ha
    simp only [Main.goto_pc, Main.goto_linkedList, List.mem_cons, List.not_mem_nil, or_false]
    rcases ha with rfl | ⟨x, hx, rfl⟩
    · exact .inl (.inr rfl)
    · by_cases hitem : x = item
      · exact .inl (.inl (by rw [hitem]))
      · exact .inr ⟨x, (List.mem_erase_of_ne hitem).mpr hx, rfl⟩
  | @freesItem item data rest hpc =>
    left
    have hne : a ≠ item.addr := fun heq => hfree (by rw [heq])
    simpa [hpc, hne] using ha
  | @freesData data rest hpc =>
    left
    have hne : a ≠ data := fun heq => hfree (by rw [heq])
    simpa [hpc, hne] using ha
  | @creates item data hpc i =>
    simp only [hpc, List.mem_cons, List.not_mem_nil, or_false] at ha
    rcases ha with (rfl | rfl) | ⟨x, hx, rfl⟩
    · exact .inl (.inr ⟨⟨a, i⟩, List.mem_cons_self, rfl⟩)
    · exact .inr ⟨item, i, hpc, rfl⟩
    · exact .inl (.inr ⟨x, List.mem_cons_of_mem _ hx, rfl⟩)
  | joins hpc data fd =>
    left
    simp only [hpc, List.not_mem_nil, false_or] at ha
    exact .inr ha
  | @mallocsData item hpc data =>
    left
    simp only [hpc, List.mem_singleton] at ha
    exact ha.imp_left fun heq => List.mem_cons.mpr (.inl heq)
  | starts hpc | ticks hpc | stampDue hpc | finishes hpc | stamps hpc | stamped hpc | toJoin hpc
  | toCreate hpc | skips hpc | joinsDone hpc | joinsNot hpc | listEmpty hpc | listNotEmpty hpc
  | caught hpc | notCaught hpc | acceptFails hpc | accepts hpc | mallocsItem hpc =>
    left
    simp only [hpc, List.not_mem_nil, false_or] at ha
    exact .inr ha

theorem Main.Next.malloc_inHand (hn : m.Next b (.malloc (some a)) m') : a ∈ m'.inHand := by
  cases hn with
  | mallocsItem => exact List.mem_singleton_self a
  | mallocsData => exact List.mem_cons_of_mem _ (List.mem_singleton_self a)
  | stamps hpc hstamp | stamped hpc hstamp => cases hstamp <;> contradiction

theorem allotted_start (node : σ) (reserved : Fd → Bool) :
    Allotted (System.start node reserved) := by
  intro a ha
  cases ha

theorem Allotted.worker_step (ha : Allotted s) {i : ℕ}
    (hs : s.step ops b (.thread (.worker i) e choice) = some s') : Allotted s' := by
  obtain ⟨-, w, w', kernel, hw, hstep, hcall, rfl⟩ := System.step_worker hs
  have hnext := Worker.step_next hstep
  intro a hlive
  have hbefore : s.kernel.blocks a = true := by
    rcases call_blocks hcall hlive with rfl | ⟨hlive, -⟩
    · cases hnext with
      | sends hpc hsend =>
        cases hsend with
        | lock hm | unlockFails hm | unlocks hm | unlocksFailed hm => cases hm
    · exact hlive
  rcases ha a hbefore with hmain | ⟨j, v, hv, haddr⟩
  · exact .inl hmain
  · right
    by_cases hj : j = i
    · subst hj
      cases hw.symm.trans hv
      exact ⟨j, w', Function.update_self .., hnext.addr_eq.trans haddr⟩
    · exact ⟨j, v, (Function.update_of_ne hj ..).trans hv, haddr⟩

theorem Allotted.main_step (ha : Allotted s)
    (hcreate : (Label.thread .main e choice).creationFails = false)
    (hs : s.step ops b (.thread .main e choice) = some s') : Allotted s' := by
  obtain ⟨-, main, kernel, workers, hnext, hcall, hthreads, rfl⟩ := System.step_main hs
  intro a hlive
  rcases call_blocks hcall hlive with rfl | ⟨hbefore, hfree⟩
  · exact .inl (.inl hnext.malloc_inHand)
  have hmalloc : e ≠ .malloc none := by
    rintro rfl
    cases hcreate
  have hthread : e ≠ .pthreadCreate none := by
    rintro rfl
    cases hcreate
  rcases ha a hbefore with hmain | ⟨j, v, hv, rfl⟩
  · rcases hnext.keeps_block hmalloc hthread hfree hmain with hmain | ⟨item, i, hpc, rfl⟩
    · exact .inl hmain
    · -- the block is the data of the thread that starts here
      cases hthreads with
      | starts hpc' =>
        cases hpc.symm.trans hpc'
        exact .inr ⟨_, _, Function.update_self .., rfl⟩
      | quiet hmoves => cases hmoves
  · cases hthreads with
    | @starts i item data fd hpc hfd hunused =>
      have hne : j ≠ i := by
        rintro rfl
        cases hunused.symm.trans hv
      exact .inr ⟨j, v, (Function.update_of_ne hne ..).trans hv, rfl⟩
    | @joins i w hw hexit =>
      by_cases hj : j = i
      · -- `join_threads` takes over the data of the thread that it joins
        subst hj
        cases hw.symm.trans hv
        cases hnext with
        | joins hpc => exact .inl (.inl (List.mem_singleton_self _))
        | stamps hpc hstamp | stamped hpc hstamp => cases hstamp <;> contradiction
      · exact .inr ⟨j, v, (Function.update_of_ne hj ..).trans hv, rfl⟩
    | quiet => exact .inr ⟨j, v, hv, rfl⟩

theorem Allotted.step (ha : Allotted s) {l : Label χ} (hcreate : l.creationFails = false)
    (hs : s.Step ops b l s') : Allotted s' := by
  obtain ⟨-, hs⟩ := hs
  cases l with
  | thread t e choice =>
    cases t with
    | main => exact ha.main_step hcreate hs
    | worker i => exact ha.worker_step hs
  | signal sig =>
    obtain ⟨-, -, rfl⟩ := System.step_signal hs
    intro a hlive
    exact ha a (deliver_blocks s.kernel sig ▸ hlive)
  | disconnect c =>
    obtain ⟨-, -, rfl⟩ := System.step_disconnect hs
    exact ha

/-- The list item has a thread, which was created for this descriptor. -/
def HasClient (s : System σ) (item : Item) (fd : Fd) : Prop :=
  item ∈ s.main.linkedList ∧ ∃ w, s.workers item.threadId = some w ∧ w.data.clientFd = fd

def openClients (s : System σ) : Set Fd := {fd | ∃ c, s.kernel.fds fd = some (.conn c)}

structure NothingLost (s : System σ) : Prop where
  clients : ∀ fd ∈ openClients s,
    Xor (s.main.pendingFd = some fd) (∃! item, HasClient s item fd)
  blocks : ∀ a, s.kernel.blocks a = true → ∃ item ∈ s.main.linkedList, ∃ w,
    s.workers item.threadId = some w ∧ (item.addr = a ∨ w.data.addr = a)
  count : (openClients s).encard ≤ s.main.linkedList.length + 1

def clientFds (s : System σ) : List Fd :=
  s.main.pendingFd.toList ++
    s.main.linkedList.filterMap fun item => (s.workers item.threadId).map (·.data.clientFd)

theorem length_clientFds_le (s : System σ) :
    (clientFds s).length ≤ s.main.linkedList.length + 1 := by
  have hpending : s.main.pendingFd.toList.length ≤ 1 := by
    cases s.main.pendingFd <;> simp
  have hitems := List.length_filterMap_le
    (fun item => (s.workers item.threadId).map (·.data.clientFd)) s.main.linkedList
  simp only [clientFds, List.length_append]
  omega

theorem encard_le_of_mem_clientFds (hmem : ∀ fd ∈ openClients s, fd ∈ clientFds s) :
    (openClients s).encard ≤ s.main.linkedList.length + 1 := by
  have hsub : openClients s ⊆ ((clientFds s).toFinset : Set Fd) := by
    intro fd hfd
    simpa using hmem fd hfd
  calc (openClients s).encard
      ≤ ((clientFds s).toFinset : Set Fd).encard := Set.encard_le_encard hsub
    _ = (clientFds s).toFinset.card := Set.encard_coe_eq_coe_finsetCard _
    _ ≤ (clientFds s).length := by exact_mod_cast List.toFinset_card_le _
    _ ≤ s.main.linkedList.length + 1 := by exact_mod_cast length_clientFds_le s

variable {h : Clients}

/-- With `create_thread` succeeding, everything it took is in the list or with a listed thread. -/
theorem Allotted.nothingLost (hallot : Allotted s) (ha : Accounted s) (hl : Listed s)
    (ho : Owned s h) (hpc : s.main.pc = .loop) : NothingLost s := by
  have hitem {i : ℕ} {w : Worker} (hw : s.workers i = some w) :
      ∃ item ∈ s.main.linkedList, item.threadId = i := by
    have hthread := (hl.threads i).mp (by simp [hw])
    simpa only [Main.unjoined, hpc] using hthread
  have hserved {fd : Fd} (hfd : fd ∈ openClients s) (hp : s.main.pendingFd ≠ some fd) :
      ∃ item, HasClient s item fd := by
    obtain ⟨c, hc⟩ := hfd
    rcases ha fd c hc with hp' | ⟨i, hj⟩ | ⟨i, w, hw, rfl⟩
    · exact absurd hp' hp
    · cases (joined_of_loop hpc).symm.trans hj
    · obtain ⟨item, hmem, rfl⟩ := hitem hw
      exact ⟨item, hmem, w, hw, rfl⟩
  constructor
  · intro fd hfd
    by_cases hp : s.main.pendingFd = some fd
    · left
      refine ⟨hp, ?_⟩
      rintro ⟨item, ⟨-, w, hw, hclient⟩, -⟩
      exact (ho.pending fd hp).2 _ w hw hclient
    · right
      obtain ⟨item, hmem, w, hw, hclient⟩ := hserved hfd hp
      refine ⟨⟨item, ⟨hmem, w, hw, hclient⟩, ?_⟩, hp⟩
      rintro x ⟨hx, v, hv, hclient'⟩
      have hsame := ho.distinct _ _ v w hv hw (hclient'.trans hclient.symm)
      exact List.inj_on_of_nodup_map hl.nodup hx hmem hsame
  · intro a hlive
    rcases hallot a hlive with (hhand | ⟨item, hmem, haddr⟩) | ⟨i, w, hw, haddr⟩
    · simp [Main.inHand, hpc] at hhand
    · have hthread := (hl.threads item.threadId).mpr ⟨item, by
        simpa only [Main.unjoined, hpc] using hmem, rfl⟩
      obtain ⟨w, hw⟩ := Option.ne_none_iff_exists'.mp hthread
      exact ⟨item, hmem, w, hw, .inl haddr⟩
    · obtain ⟨item, hmem, rfl⟩ := hitem hw
      exact ⟨item, hmem, w, hw, .inr haddr⟩
  · apply encard_le_of_mem_clientFds
    intro fd hfd
    rw [clientFds, List.mem_append, Option.mem_toList, List.mem_filterMap]
    by_cases hp : s.main.pendingFd = some fd
    · exact .inl hp
    · obtain ⟨item, hmem, w, hw, hclient⟩ := hserved hfd hp
      exact .inr ⟨item, hmem, by rw [hw, Option.map_some, hclient]⟩

theorem Main.Next.creation_fails (hn : m.Next b e m')
    (he : e = .malloc none ∨ e = .pthreadCreate none) :
    m.pc.state = some .creatingThread ∧ m'.pc = .loop ∧ m'.currentState = .waiting := by
  cases hn with
  | mallocFails hpc =>
    refine ⟨?_, rfl, rfl⟩
    rcases hpc with hpc | ⟨item, hpc⟩ <;> rw [hpc] <;> rfl
  | createFails hpc =>
    refine ⟨?_, rfl, rfl⟩
    rw [hpc]
    rfl
  | stamps hpc hstamp | stamped hpc hstamp =>
    rcases he with rfl | rfl <;> cases hstamp <;> contradiction
  | _ => simp at he

/-- After a failure nobody has the connection that was to get its thread. -/
theorem Owned.creation_loses (ho : Owned s h) {l : Label χ} (hfails : l.creationFails = true)
    (hs : s.Step ops b l s') : s'.main.pc = .loop ∧ ¬ NothingLost s' := by
  obtain ⟨e, choice, he, rfl⟩ : ∃ e choice, (e = .malloc none ∨ e = .pthreadCreate none) ∧
      l = .thread .main e choice := by
    unfold Label.creationFails at hfails
    split at hfails
    · exact ⟨_, _, .inl rfl, rfl⟩
    · exact ⟨_, _, .inr rfl, rfl⟩
    · cases hfails
  obtain ⟨-, main, kernel, workers, hnext, hcall, hthreads, rfl⟩ := System.step_main hs.2
  obtain ⟨hstate, hloop, hwaiting⟩ := hnext.creation_fails he
  obtain rfl : s.kernel = kernel := by
    rcases he with rfl | rfl <;> exact Option.some.inj hcall
  obtain rfl : workers = s.workers := by
    rcases he with rfl | rfl <;> cases hthreads <;> rfl
  have hcreating := ho.control.state _ hstate
  obtain ⟨fd, hfd⟩ := Option.ne_none_iff_exists'.mp (ho.control.clientFd hcreating)
  have hpending : s.main.pendingFd = some fd := by
    rw [Main.pendingFd, if_pos hcreating, hfd]
  obtain ⟨⟨c, -, hconn⟩, hnone⟩ := ho.pending fd hpending
  refine ⟨hloop, fun hkept => ?_⟩
  rcases hkept.clients fd ⟨c, hconn⟩ with ⟨hp, -⟩ | ⟨⟨item, ⟨-, w, hw, hclient⟩, -⟩, -⟩
  · cases (pendingFd_of_state hwaiting).symm.trans hp
  · exact hnone _ w hw hclient

variable {node : σ} {reserved : Fd → Bool} {tr : List (Label χ)}

theorem run_allotted (hrun : Run (System.Step ops b) (System.start node reserved) tr s)
    (hcreate : ∀ l ∈ tr, l.creationFails = false) : Allotted s := by
  induction hrun with
  | nil => exact allotted_start node reserved
  | @snoc tr s l s' hrun hs ih =>
    have hlast : l.creationFails = false := hcreate l (by simp)
    exact (ih fun l' hl' => hcreate l' (by simp [hl'])).step hlast hs

/-- For every schedule: whenever `main_loop` is between two rounds no connection and no block is
lost, and none is open when it returns, exactly when `create_thread` never fails. -/
theorem nothing_lost_iff (ops : FileOps σ χ) (b : Build) (node : σ) (reserved : Fd → Bool)
    {tr : List (Label χ)} {s : System σ}
    (hrun : Run (System.Step ops b) (System.start node reserved) tr s) :
    (∀ tr₁ tr₂ s₁, tr = tr₁ ++ tr₂ →
      Run (System.Step ops b) (System.start node reserved) tr₁ s₁ →
      (s₁.main.pc = .loop → NothingLost s₁) ∧ (s₁.main.pc = .returned → openClients s₁ = ∅)) ↔
    ∀ l ∈ tr, l.creationFails = false := by
  constructor
  · intro hkept l hl
    by_contra hfails
    obtain ⟨tr₁, tr₂, rfl⟩ := List.append_of_mem hl
    rw [List.append_cons] at hrun
    obtain ⟨s₂, hrun₂, -⟩ := hrun.split
    obtain ⟨s₁, hrun₁, hs⟩ := hrun₂.last
    obtain ⟨hpc, hlost⟩ := (run_owned hrun₁).creation_loses (Bool.eq_true_of_not_eq_false hfails) hs
    exact hlost ((hkept _ tr₂ s₂ (by simp) hrun₂).1 hpc)
  · rintro hcreate tr₁ tr₂ s₁ rfl hrun₁
    have hcreate₁ : ∀ l ∈ tr₁, l.creationFails = false :=
      fun l hl => hcreate l (List.mem_append_left _ hl)
    have ho := run_owned hrun₁
    have ha := run_accounted hrun₁ hcreate₁
    have hl := run_listed hrun₁
    constructor
    · exact (run_allotted hrun₁ hcreate₁).nothingLost ha hl ho
    · intro hpc
      apply Set.eq_empty_of_forall_notMem
      rintro fd ⟨c, hfd⟩
      exact (ha.none_open hl ho hpc).2 c fd hfd

end

theorem clientsLeave_loses_nothing : ∃ s, Run (System.Step regularFile fileBuild)
    (System.start [] fun _ => false) clientsLeave s ∧ ∀ tr₁ tr₂ s₁, clientsLeave = tr₁ ++ tr₂ →
      Run (System.Step regularFile fileBuild) (System.start [] fun _ => false) tr₁ s₁ →
      (s₁.main.pc = .loop → NothingLost s₁) ∧
        (s₁.main.pc = .returned → openClients s₁ = ∅) := by
  have hruns : (clientsLeave.foldlM (System.step regularFile fileBuild)
      (System.start [] fun _ => false)).isSome := by decide +kernel
  obtain ⟨s, hs⟩ := Option.isSome_iff_exists.mp hruns
  have hrun := run_of_foldlM (by decide +kernel) hs
  exact ⟨s, hrun, (nothing_lost_iff regularFile fileBuild [] (fun _ => false) hrun).mpr
    (by decide +kernel)⟩

/-- One client connects, `pthread_create` fails, and a `SIGINT` ends the loop. -/
def failedCreate : List (Label Unit) :=
  [.clockGettime 0, .clockGettime 0, .compute, .compute, .loadSignal false, .loadSignal false,
    .accept (some (3, 0)), .clockGettime 0, .compute, .malloc (some 1), .malloc (some 2),
    .pthreadCreate none].map fun e => .thread .main e ()

def interrupted : List (Label Unit) :=
  .signal .sigint :: [.clockGettime 0, .compute, .compute, .loadSignal true, .loadSignal true,
    .compute].map fun e => .thread .main e ()

theorem failedCreate_loses : ∃ s s', Run (System.Step regularFile fileBuild)
    (System.start [] fun _ => false) failedCreate s ∧ s.main.pc = .loop ∧ ¬ NothingLost s ∧
      Run (System.Step regularFile fileBuild) (System.start [] fun _ => false)
        (failedCreate ++ interrupted) s' ∧ s'.main.pc = .returned ∧ 3 ∈ openClients s' ∧
      s'.kernel.blocks 1 = true ∧ s'.kernel.blocks 2 = true := by
  have hloop : (failedCreate.foldlM (System.step regularFile fileBuild)
      (System.start [] fun _ => false)).map (fun s => (s.main.pc, s.main.linkedList,
        s.main.pendingFd, s.kernel.fds 3)) = some (.loop, [], none, some (.conn 0)) := by
    decide +kernel
  have hreturned : ((failedCreate ++ interrupted).foldlM (System.step regularFile fileBuild)
      (System.start [] fun _ => false)).map (fun s => (s.main.pc, s.kernel.fds 3,
        s.kernel.blocks 1, s.kernel.blocks 2)) = some (.returned, some (.conn 0), true, true) := by
    decide +kernel
  obtain ⟨s, hs, hpc⟩ := Option.map_eq_some_iff.mp hloop
  obtain ⟨s', hs', hpc'⟩ := Option.map_eq_some_iff.mp hreturned
  simp only [Prod.mk.injEq] at hpc hpc'
  obtain ⟨hpc, hlist, hpending, hfd⟩ := hpc
  obtain ⟨hpc', hfd', hitem, hdata⟩ := hpc'
  refine ⟨s, s', run_of_foldlM (by decide +kernel) hs, hpc, fun hkept => ?_,
    run_of_foldlM (by decide +kernel) hs', hpc', ⟨0, hfd'⟩, hitem, hdata⟩
  rcases hkept.clients 3 ⟨0, hfd⟩ with ⟨hp, -⟩ | ⟨⟨item, ⟨hmem, -⟩, -⟩, -⟩
  · cases hpending.symm.trans hp
  · simp [hlist] at hmem

end Aesd.Server
