import Aesd.Lib.Claims
import Aesd.Server.CreateFailures

/-! The list items and the data of the threads as blocks: each that something still refers to is
live and referred to once, whatever fails. -/
namespace Aesd.Server
open Claims Runs

/-- What refers to a block: the local variables of `create_thread` and `join_threads`, the list by
the item of a thread, a thread by its argument. -/
inductive Holder where
  | itemVar
  | dataVar
  | item (threadId : ℕ)
  | thread (i : ℕ)
  deriving DecidableEq

/-- `linked_list_item_ptr`, while the item is not in the list. -/
def Main.itemVar (m : Main) : Option ℕ :=
  match m.pc with
  | .mallocData item => some item
  | .pthreadCreate item _ => some item
  | .joinFreeItem item _ _ => some item.addr
  | _ => none

/-- `thread_data_ptr`, while no thread has it. -/
def Main.dataVar (m : Main) : Option ℕ :=
  match m.pc with
  | .pthreadCreate _ data => some data
  | .joinClose _ data _ _ => some data
  | .joinFreeItem _ data _ => some data
  | .joinFreeData data _ => some data
  | _ => none

def System.Refers {σ : Type} (s : System σ) : Holder → ℕ → Prop
  | .itemVar, a => s.main.itemVar = some a
  | .dataVar, a => s.main.dataVar = some a
  | .item i, a => ∃ x ∈ s.main.linkedList, x.threadId = i ∧ x.addr = a
  | .thread i, a => ∃ w, s.workers i = some w ∧ w.data.addr = a

/-- Every block referred to is live, and one holder refers to it. -/
def Referred {σ : Type} (s : System σ) : Prop :=
  Claimed (fun a => s.kernel.blocks a = true) s.Refers

section
variable {σ χ : Type} {ops : FileOps σ χ} {b : Build} {s s' : System σ} {k k' : Kernel σ}
  {t : Tid} {e : Event} {choice : χ} {a : ℕ}

theorem referred_start (node : σ) (reserved : Fd → Bool) :
    Referred (System.start node reserved) := by
  apply claimed_of_none
  intro holder a h
  cases holder <;> simp [System.Refers, System.start, Main.itemVar, Main.dataVar, Main.init] at h

theorem call_keeps_block (h : k.call ops t e choice = some k') (ha : k.blocks a = true)
    (hfree : e ≠ .free a) : k'.blocks a = true := by
  unfold Kernel.call Kernel.close Kernel.send at h
  split at h
  case h_15 x =>
    split at h <;> cases h
    by_cases hx : a = x
    · simp [hx]
    · simpa [Function.update_of_ne hx] using ha
  case h_16 x =>
    split at h <;> cases h
    have hx : a ≠ x := by simpa using Ne.symm hfree
    simpa [Function.update_of_ne hx] using ha
  all_goals
    repeat' split at h
    all_goals first
      | cases h <;> exact ha
      | cases h <;> exact (deliver_blocks k _).symm ▸ ha
      | obtain ⟨r, -, rfl⟩ := Option.map_eq_some_iff.mp h; exact ha

theorem Worker.Next.not_free {w w' : Worker} (h : w.Next b e w') (a : ℕ) : e ≠ .free a := by
  rintro rfl
  cases h with
  | sends hpc hsend => cases hsend <;> contradiction

theorem Worker.Next.not_malloc {w w' : Worker} (h : w.Next b e w') (addr : Option ℕ) :
    e ≠ .malloc addr := by
  rintro rfl
  cases h with
  | sends hpc hsend => cases hsend <;> contradiction

theorem Stamps.not_free {pc : StampPc} {next : Option StampPc} (h : Stamps b pc e next) (a : ℕ) :
    e ≠ .free a := by
  rintro rfl
  cases h <;> contradiction

theorem call_malloc (h : k.call ops t (.malloc (some a)) choice = some k') :
    k.blocks a = false ∧ k'.blocks a = true := by
  simp only [Kernel.call] at h
  split at h
  next => cases h
  next hfree =>
    cases h
    exact ⟨Bool.eq_false_iff.mpr hfree, Function.update_self ..⟩

theorem Referred.keep (hr : Referred s) (hcall : s.kernel.call ops t e choice = some s'.kernel)
    (hfree : ∀ x, e ≠ .free x) (hrefers : ∀ holder a, s'.Refers holder a → s.Refers holder a) :
    Referred s' :=
  hr.mono hrefers fun a ha => call_keeps_block hcall ha (hfree a)

theorem Referred.worker_step (hr : Referred s) {i : ℕ}
    (hs : s.step ops b (.thread (.worker i) e choice) = some s') : Referred s' := by
  obtain ⟨-, w, w', kernel, hw, hstep, hcall, rfl⟩ := System.step_worker hs
  have hnext := Worker.step_next hstep
  refine hr.keep hcall hnext.not_free fun holder a h => ?_
  cases holder with
  | thread j =>
    obtain ⟨v, hv, rfl⟩ := h
    dsimp only at hv
    by_cases hj : j = i
    · subst hj
      rw [Function.update_self] at hv
      cases hv
      exact ⟨w, hw, hnext.addr_eq.symm⟩
    · rw [Function.update_of_ne hj] at hv
      exact ⟨v, hv, rfl⟩
  | itemVar | dataVar | item => exact h

/-- `create_thread` passes both blocks on, one to the list and one to the thread. -/
theorem Referred.creates (hr : Referred s) {kernel : Kernel σ} {item data i : ℕ} {fd : Fd}
    (hpc : s.main.pc = .pthreadCreate item data)
    (hcall : s.kernel.call ops .main (.pthreadCreate (some i)) choice = some kernel) :
    Referred ⟨kernel, Main.goto
      { s.main with linkedList := ⟨item, i⟩ :: s.main.linkedList, currentState := .waiting } .loop,
      Function.update s.workers i (some (Worker.create data fd))⟩ := by
  let g : Holder → Holder := fun holder =>
    match holder with
    | .itemVar => .item i
    | .dataVar => .thread i
    | holder => holder
  refine hr.rename g ?_ fun a ha => call_keeps_block hcall ha (by simp)
  intro holder a h
  cases holder with
  | itemVar => simp [System.Refers, Main.itemVar] at h
  | dataVar => simp [System.Refers, Main.dataVar] at h
  | item j =>
    obtain ⟨x, hx, rfl, rfl⟩ := h
    rcases List.mem_cons.mp hx with rfl | hx
    · exact ⟨.itemVar, by simp only [System.Refers, Main.itemVar, hpc], rfl⟩
    · exact ⟨.item x.threadId, ⟨x, hx, rfl, rfl⟩, rfl⟩
  | thread j =>
    obtain ⟨v, hv, rfl⟩ := h
    dsimp only at hv
    by_cases hj : j = i
    · subst hj
      rw [Function.update_self] at hv
      cases hv
      exact ⟨.dataVar, by simp only [System.Refers, Main.dataVar, hpc, Worker.create], rfl⟩
    · rw [Function.update_of_ne hj] at hv
      exact ⟨.thread j, ⟨v, hv, rfl⟩, rfl⟩

theorem Referred.joins (hr : Referred s) {kernel : Kernel σ} {w : Worker} {item : Item}
    {rest : List Item} (hw : s.workers item.threadId = some w)
    (hcall : s.kernel.call ops .main e choice = some kernel) (hfree : ∀ x, e ≠ .free x) :
    Referred ⟨kernel, s.main.goto (.joinClose item w.data.addr w.data.clientFd rest),
      Function.update s.workers item.threadId none⟩ := by
  let g : Holder → Holder := fun holder =>
    if holder = .thread item.threadId then .dataVar else holder
  refine hr.rename g ?_ fun a ha => call_keeps_block hcall ha (hfree a)
  intro holder a h
  cases holder with
  | itemVar => simp [System.Refers, Main.itemVar] at h
  | dataVar =>
    have ha : w.data.addr = a := by simpa [System.Refers, Main.dataVar] using h
    exact ⟨.thread item.threadId, ⟨w, hw, ha⟩, if_pos rfl⟩
  | item j => exact ⟨.item j, h, rfl⟩
  | thread j =>
    obtain ⟨v, hv, rfl⟩ := h
    dsimp only at hv
    by_cases hj : j = item.threadId
    · subst hj
      simp at hv
    · rw [Function.update_of_ne hj] at hv
      exact ⟨.thread j, ⟨v, hv, rfl⟩, if_neg (by simpa using hj)⟩

theorem Referred.joinCloses (hr : Referred s) (hl : Listed s) {kernel : Kernel σ} {item : Item}
    {data : ℕ} {fd : Fd} {rest : List Item} (hpc : s.main.pc = .joinClose item data fd rest)
    (hcall : s.kernel.call ops .main e choice = some kernel) (hfree : ∀ x, e ≠ .free x) :
    Referred ⟨kernel, { s.main with linkedList := s.main.linkedList.erase item }.goto
      (.joinFreeItem item data rest), s.workers⟩ := by
  have hmem : item ∈ s.main.linkedList := by
    have hvisits := hl.visits
    simp only [Main.toVisit, hpc] at hvisits
    exact hvisits.subset List.mem_cons_self
  let g : Holder → Holder := fun holder =>
    if holder = .item item.threadId then .itemVar else holder
  refine hr.rename g ?_ fun a ha => call_keeps_block hcall ha (hfree a)
  intro holder a h
  cases holder with
  | itemVar =>
    have ha : item.addr = a := by simpa [System.Refers, Main.itemVar] using h
    exact ⟨.item item.threadId, ⟨item, hmem, rfl, ha⟩, if_pos rfl⟩
  | dataVar =>
    have ha : s.main.dataVar = some a := by
      simpa [System.Refers, Main.dataVar, hpc] using h
    exact ⟨.dataVar, ha, rfl⟩
  | item j =>
    obtain ⟨x, hx, rfl, rfl⟩ := h
    obtain ⟨hne, hx'⟩ := (hl.nodup.of_map).mem_erase_iff.mp hx
    have hid : x.threadId ≠ item.threadId := fun heq =>
      hne (List.inj_on_of_nodup_map hl.nodup hx' hmem heq)
    exact ⟨.item x.threadId, ⟨x, hx', rfl, rfl⟩, if_neg (by simpa using hid)⟩
  | thread j => exact ⟨.thread j, h, rfl⟩

theorem ThreadEffect.quiet_eq {workers : ℕ → Option Worker} (h : ThreadEffect s e workers)
    (hmoves : e.movesThread = false) : workers = s.workers := by
  cases h with
  | starts => cases hmoves
  | joins => cases hmoves
  | quiet => rfl

theorem Referred.main_quiet (hr : Referred s) {main : Main} {kernel : Kernel σ}
    {workers : ℕ → Option Worker} (hcall : s.kernel.call ops .main e choice = some kernel)
    (hthreads : ThreadEffect s e workers) (hmoves : e.movesThread = false)
    (hfree : ∀ x, e ≠ .free x) (hlist : main.linkedList = s.main.linkedList)
    (hitem : ∀ a, main.itemVar = some a → s.main.itemVar = some a)
    (hdata : ∀ a, main.dataVar = some a → s.main.dataVar = some a) :
    Referred ⟨kernel, main, workers⟩ := by
  rw [hthreads.quiet_eq hmoves]
  apply Referred.keep hr hcall hfree
  intro holder a h
  cases holder with
  | itemVar => exact hitem a h
  | dataVar => exact hdata a h
  | item j =>
    obtain ⟨x, hx, hid⟩ := h
    exact ⟨x, hlist ▸ hx, hid⟩
  | thread j => exact h

theorem Referred.mallocs (hr : Referred s) (holder : Holder) {main : Main} {kernel : Kernel σ}
    (hcall : s.kernel.call ops .main (.malloc (some a)) choice = some kernel)
    (hrefers : ∀ holder' x, System.Refers ⟨kernel, main, s.workers⟩ holder' x →
      s.Refers holder' x ∨ holder' = holder ∧ x = a) : Referred ⟨kernel, main, s.workers⟩ := by
  obtain ⟨hfresh, hnew⟩ := call_malloc hcall
  exact hr.alloc hrefers (by simp [hfresh]) hnew fun x hx => call_keeps_block hcall hx (by simp)

theorem Referred.frees (hr : Referred s) (main : Main) {kernel : Kernel σ} {holder : Holder}
    (hcall : s.kernel.call ops .main (.free a) choice = some kernel) (hholds : s.Refers holder a)
    (hrefers : ∀ holder' x, System.Refers ⟨kernel, main, s.workers⟩ holder' x →
      s.Refers holder' x ∧ holder' ≠ holder) : Referred ⟨kernel, main, s.workers⟩ ∧
      ∀ holder', ¬ System.Refers ⟨kernel, main, s.workers⟩ holder' a := by
  apply hr.free hholds hrefers
  intro x hx hne
  exact call_keeps_block hcall hx (by simpa using hne.symm)

theorem Referred.main_step (hr : Referred s) (hl : Listed s)
    (hs : s.step ops b (.thread .main e choice) = some s') : Referred s' ∧
      ∀ a, e = .free a → (∃ holder, s.Refers holder a) ∧ ∀ holder, ¬ s'.Refers holder a := by
  obtain ⟨-, main, kernel, workers, hnext, hcall, hthreads, rfl⟩ := System.step_main hs
  have hstamp {pc : StampPc} {next : Option StampPc} (hpc : s.main.pc = .stamp pc)
      (hstamp : Stamps b pc e next) (hlist : main.linkedList = s.main.linkedList)
      (hitem : main.itemVar = none) (hdata : main.dataVar = none) :
      Referred ⟨kernel, main, workers⟩ ∧ ∀ a, e = .free a → (∃ holder, s.Refers holder a) ∧
        ∀ holder, ¬ System.Refers ⟨kernel, main, workers⟩ holder a := by
    exact ⟨hr.main_quiet hcall hthreads hstamp.movesThread hstamp.not_free hlist (by simp [hitem])
      (by simp [hdata]), fun a ha => absurd ha (hstamp.not_free a)⟩
  cases hnext with
  | stamps hpc hnext => exact hstamp hpc hnext rfl rfl rfl
  | stamped hpc hnext => exact hstamp hpc hnext rfl rfl rfl
  | @mallocsItem hpc item =>
    rw [hthreads.quiet_eq rfl]
    refine ⟨hr.mallocs .itemVar hcall fun holder x h => ?_, fun a ha => by cases ha⟩
    cases holder with
    | itemVar => exact .inr ⟨rfl, (Option.some.inj h).symm⟩
    | dataVar => cases h
    | item j => exact .inl h
    | thread j => exact .inl h
  | @mallocsData item hpc data =>
    rw [hthreads.quiet_eq rfl]
    refine ⟨hr.mallocs .dataVar hcall fun holder x h => ?_, fun a ha => by cases ha⟩
    cases holder with
    | itemVar => exact .inl (by simpa [System.Refers, Main.itemVar, hpc] using h)
    | dataVar => exact .inr ⟨rfl, (Option.some.inj h).symm⟩
    | item j => exact .inl h
    | thread j => exact .inl h
  | @joins item rest hpc data fd =>
    cases hthreads with
    | joins hw hexit => exact ⟨hr.joins hw hcall (by simp), fun a ha => by cases ha⟩
    | quiet hmoves => cases hmoves
  | joinCloses hpc ok =>
    rw [hthreads.quiet_eq rfl]
    exact ⟨hr.joinCloses hl hpc hcall (by simp), fun a ha => by cases ha⟩
  | creates hpc i =>
    cases hthreads with
    | starts hpc' hfd hunused =>
      cases hpc.symm.trans hpc'
      exact ⟨hr.creates hpc hcall, fun a ha => by cases ha⟩
    | quiet hmoves => cases hmoves
  | @freesItem item data rest hpc =>
    rw [hthreads.quiet_eq rfl]
    have hholds : s.Refers .itemVar item.addr := by
      simp only [System.Refers, Main.itemVar, hpc]
    obtain ⟨hr', hgone⟩ := hr.frees (s.main.goto (.joinFreeData data rest)) hcall hholds
      fun holder x h => by
        cases holder with
        | itemVar => cases h
        | dataVar => exact ⟨by simpa [System.Refers, Main.dataVar, hpc] using h, by simp⟩
        | item j => exact ⟨h, by simp⟩
        | thread j => exact ⟨h, by simp⟩
    refine ⟨hr', fun a ha => ?_⟩
    cases ha
    exact ⟨⟨_, hholds⟩, hgone⟩
  | @freesData data rest hpc =>
    rw [hthreads.quiet_eq rfl]
    have hholds : s.Refers .dataVar data := by simp only [System.Refers, Main.dataVar, hpc]
    obtain ⟨hr', hgone⟩ := hr.frees (s.main.goto (.joining rest)) hcall hholds
      fun holder x h => by
        cases holder with
        | itemVar => cases h
        | dataVar => cases h
        | item j => exact ⟨h, by simp⟩
        | thread j => exact ⟨h, by simp⟩
    refine ⟨hr', fun a ha => ?_⟩
    cases ha
    exact ⟨⟨_, hholds⟩, hgone⟩
  | starts | ticks | stampDue | finishes | toJoin | toCreate | skips | joinsDone | joinsNot
  | listEmpty | listNotEmpty | caught | notCaught | acceptFails | accepts | mallocFails
  | createFails =>
    exact ⟨hr.main_quiet hcall hthreads rfl (by simp) rfl (fun a h => by cases h)
      (fun a h => by cases h), fun a ha => by cases ha⟩

theorem Referred.step (hr : Referred s) (hl : Listed s) {l : Label χ} (hs : s.Step ops b l s') :
    Referred s' := by
  obtain ⟨-, hs⟩ := hs
  cases l with
  | thread t e choice =>
    cases t with
    | main => exact (hr.main_step hl hs).1
    | worker i => exact hr.worker_step hs
  | signal sig =>
    obtain ⟨-, -, rfl⟩ := System.step_signal hs
    exact hr.mono (fun _ _ h => h) fun a ha => (deliver_blocks s.kernel sig).symm ▸ ha
  | disconnect c =>
    obtain ⟨-, -, rfl⟩ := System.step_disconnect hs
    exact hr.mono (fun _ _ h => h) fun _ ha => ha

variable {node : σ} {reserved : Fd → Bool} {tr : List (Label χ)}

theorem run_referred (hrun : Run (System.Step ops b) (System.start node reserved) tr s) :
    Referred s := by
  induction hrun with
  | nil => exact referred_start node reserved
  | snoc hrun hs ih => exact ih.step (run_listed hrun) hs

end

end Aesd.Server
