import Aesd.Server.MemoryRuns

/-! The server with its memory refines the server whose threads have their buffers as values: what
is proved of every run of `System` holds of every run of `HeapSystem`. -/
namespace Aesd.Server
open Driver (Byte)
open Blocks Runs

/-- The call that a thread makes in `System`. A buffer that `malloc` does not give is never filled,
whatever it is there. -/
def HeapEvent.seen : HeapEvent → Option Event
  | .mallocBuffer (some (_, block)) => some (.mallocBuffers block)
  | .mallocBuffer none => some (.mallocBuffers (List.replicate recvBufferTempSize 0))
  | .call e _ => some e
  | .exitThread => some .exitThread
  | _ => none

def HeapLabel.seen {χ : Type} : HeapLabel χ → Option (Label χ)
  | .main e choice => some (.thread .main e choice)
  | .worker i e choice => e.seen.map fun e => .thread (.worker i) e choice
  | .signal sig => some (.signal sig)
  | .disconnect c => some (.disconnect c)

def HeapPc.allocates : HeapPc → Bool
  | .mallocStruct _ | .initRb | .mallocBuffer => true
  | _ => false

def HeapPc.cleansUp : HeapPc → Bool
  | .freeBuffer _ | .freeStruct _ | .ret => true
  | _ => false

/-- A thread whose `receive_buffer_data_new` has no buffer: nothing has been received, or nothing
will be. -/
structure Worker.NoBuffer (w : Worker) : Prop where
  pc : w.pc = .loop ∨ w.pc = .dispatch
  state : w.data.threadState = .waitingForData ∨ w.data.threadState = .closedConnection
  rbNew : w.rbNew = ⟨[], 0, recvBufferTempSize⟩

def Worker.withBuffer (w : Worker) (block : List Byte) : Worker :=
  { w with rbNew := ⟨block, 0, recvBufferTempSize⟩ }

/-- The thread of `System` that a thread with its memory stands for. -/
inductive HeapWorker.Abstracts (m : Memory) (th : HeapWorker) : Worker → Prop where
  | allocating {addr : ℕ} {fd : Fd} (hpc : th.pc.allocates = true)
      (hdata : th.data = ⟨addr, fd, .waitingForData⟩) (hk : th.keepLoopingThread = true)
      (hrb : th.pc.stage .rb = .full → m.load (th.pointer .rb) = some ⟨[], 0, 0⟩) :
      th.Abstracts m (.create addr fd)
  | running {pc : WorkerPc} {w : Worker} (hpc : th.pc = .run pc) (hexit : pc ≠ .exited)
      (hview : th.view m pc = some w) : th.Abstracts m w
  | noBuffer {pc : WorkerPc} {w : Worker} {block : List Byte} (hpc : th.pc = .run pc)
      (hview : th.view m pc = some w) (hnull : w.NoBuffer) : th.Abstracts m (w.withBuffer block)
  | cleaningUp {w : Worker} (hpc : th.pc.cleansUp = true) (hdata : w.data = th.data)
      (hk : w.keepLoopingThread = false) (hw : w.pc = .loop) : th.Abstracts m w
  | returned {w : Worker} (hpc : th.pc = .returned) (hdata : w.data = th.data)
      (hw : w.pc = .exited) : th.Abstracts m w

theorem Worker.NoBuffer.step {b : Build} {w w' : Worker} {e : Event} (h : w.NoBuffer)
    (hs : w.step b e = some w') (hexit : e ≠ .exitThread) (block : List Byte) :
    w'.NoBuffer ∧ (w.withBuffer block).step b e = some (w'.withBuffer block) := by
  obtain ⟨hpc, hstate, hnull⟩ := h
  have hn := Worker.step_next hs
  cases hn with
  | loads hpc' hk caught =>
    refine ⟨⟨.inr rfl, hstate, hnull⟩, ?_⟩
    simp [Worker.step, withBuffer, hpc', hk]
  | exits => exact absurd rfl hexit
  | recvFails hpc' hs' conn =>
    refine ⟨⟨.inl rfl, .inr rfl, hnull⟩, ?_⟩
    simp [Worker.step, withBuffer, hpc', hs', waitingForData, hnull, setState, goto]
  | recvEnds hpc' hs' conn =>
    refine ⟨⟨.inl rfl, .inr rfl, hnull⟩, ?_⟩
    simp [Worker.step, withBuffer, hpc', hs', waitingForData, hnull, setState, goto]
  | recvs hpc' hs' conn hne hwrite =>
    -- there is nowhere to receive to
    simp [writeBlock, hnull, hne] at hwrite
  | stops hpc' hs' =>
    refine ⟨⟨.inl rfl, .inr hs', hnull⟩, ?_⟩
    simp [Worker.step, withBuffer, hpc', hs', goto]
  | processes hpc' hs' | callsSending hpc' hs' => simp [hs'] at hstate
  | starts hpc' | reallocFails hpc' | reallocs hpc' | grown hpc' | sends hpc' =>
    simp [hpc'] at hpc

namespace HeapWorker

variable {b : Build} {m m' : Memory} {th th' : HeapWorker} {w : Worker} {e : HeapEvent}

theorem Abstracts.data_eq (h : th.Abstracts m w) :
    w.data.addr = th.data.addr ∧ w.data.clientFd = th.data.clientFd := by
  cases h with
  | allocating hpc hdata => rw [hdata]; exact ⟨rfl, rfl⟩
  | running hpc hexit hview =>
    rw [(view_eq_some hview).2.2.1]
    exact ⟨rfl, rfl⟩
  | noBuffer hpc hview =>
    rw [Worker.withBuffer, (view_eq_some hview).2.2.1]
    exact ⟨rfl, rfl⟩
  | cleaningUp hpc hdata | returned hpc hdata => rw [hdata]; exact ⟨rfl, rfl⟩

theorem Abstracts.exited_iff (h : th.Abstracts m w) : w.pc = .exited ↔ th.pc = .returned := by
  cases h with
  | allocating hpc =>
    refine iff_of_false (by simp [Worker.create]) fun hr => ?_
    simp [hr, HeapPc.allocates] at hpc
  | running hpc hexit hview =>
    rw [(view_eq_some hview).2.2.2.2, hpc]
    simpa using hexit
  | noBuffer hpc hview hnull =>
    rw [hpc]
    rcases hnull.pc with hw | hw <;> simp [Worker.withBuffer, hw]
  | cleaningUp hpc hdata hk hw =>
    refine iff_of_false (by simp [hw]) fun hr => ?_
    simp [hr, HeapPc.cleansUp] at hpc
  | returned hpc hdata hw => exact iff_of_true hw hpc

theorem view_congr {pc : WorkerPc} (hsame : ∀ r a, th.held m r = some a → m' a = m a) :
    th.view m' pc = th.view m pc := by
  have hload (x : Buf) : m'.load (th.pointer x) = m.load (th.pointer x) := by
    apply Memory.load_congr
    rintro a (ha | ha)
    · exact hsame (x, .struct) a ha
    · exact hsame (x, .block) a ha
  simp only [view, hload]

theorem Abstracts.congr (h : th.Abstracts m w)
    (hsame : ∀ r a, th.held m r = some a → m' a = m a) : th.Abstracts m' w := by
  cases h with
  | allocating hpc hdata hk hrb =>
    refine .allocating hpc hdata hk fun hstage => ?_
    rw [← hrb hstage]
    apply Memory.load_congr
    rintro a (ha | ha)
    · exact hsame (.rb, .struct) a ha
    · exact hsame (.rb, .block) a ha
  | running hpc hexit hview => exact .running hpc hexit ((view_congr hsame).trans hview)
  | noBuffer hpc hview hnull => exact .noBuffer hpc ((view_congr hsame).trans hview) hnull
  | cleaningUp hpc hdata hk hw => exact .cleaningUp hpc hdata hk hw
  | returned hpc hdata hw => exact .returned hpc hdata hw

/-- What the thread `w` does while the other one makes a step. -/
inductive Follows (b : Build) (w : Worker) (e : HeapEvent) (w' : Worker) : Prop where
  | stays (he : e.seen = none) (hw : w' = w)
  | steps {ev : Event} (he : e.seen = some ev) (hw : w.step b ev = some w')

theorem Abstracts.view_eq {pc : WorkerPc} (h : th.Abstracts m w) (hpc : th.pc = .run pc) :
    (pc ≠ .exited ∧ th.view m pc = some w) ∨
      ∃ v block, th.view m pc = some v ∧ v.NoBuffer ∧ w = v.withBuffer block := by
  cases h with
  | running hpc' hexit hview =>
    cases hpc.symm.trans hpc'
    exact .inl ⟨hexit, hview⟩
  | noBuffer hpc' hview hnull =>
    cases hpc.symm.trans hpc'
    exact .inr ⟨_, _, hview, hnull, rfl⟩
  | allocating hpc' => simp [hpc, HeapPc.allocates] at hpc'
  | cleaningUp hpc' => simp [hpc, HeapPc.cleansUp] at hpc'
  | returned hpc' => cases hpc.symm.trans hpc'

theorem Abstracts.create_eq (h : th.Abstracts m w) (hpc : th.pc.allocates = true) :
    ∃ addr fd, w = .create addr fd ∧ th.data = ⟨addr, fd, .waitingForData⟩ ∧
      th.keepLoopingThread = true ∧
      (th.pc.stage .rb = .full → m.load (th.pointer .rb) = some ⟨[], 0, 0⟩) := by
  cases h with
  | allocating hpc' hdata hk hrb => exact ⟨_, _, rfl, hdata, hk, hrb⟩
  | running hpc' | noBuffer hpc' => simp [hpc', HeapPc.allocates] at hpc
  | cleaningUp hpc' =>
    cases hcase : th.pc <;> simp [hcase, HeapPc.allocates, HeapPc.cleansUp] at hpc hpc'
  | returned hpc' => simp [hpc', HeapPc.allocates] at hpc

theorem Abstracts.cleaning_eq (h : th.Abstracts m w) (hpc : th.pc.cleansUp = true) :
    w.data = th.data ∧ w.keepLoopingThread = false ∧ w.pc = .loop := by
  cases h with
  | cleaningUp hpc' hdata hk hw => exact ⟨hdata, hk, hw⟩
  | running hpc' | noBuffer hpc' | returned hpc' => simp [hpc', HeapPc.cleansUp] at hpc
  | allocating hpc' =>
    cases hcase : th.pc <;> simp [hcase, HeapPc.allocates, HeapPc.cleansUp] at hpc hpc'

theorem allocates_afterMalloc (x : Buf) : (afterMalloc x).allocates = true := by cases x <;> rfl

theorem cleansUp_afterFree (x : Buf) : (afterFree x).cleansUp = true := by cases x <;> rfl

/-- A step that changes only new blocks and the struct behind one pointer leaves what is behind the
other. -/
theorem Ok.load_kept (h : th.Ok m) {x y : Buf} (hy : y ≠ x)
    (hsame : ∀ a, m a ≠ none → th.pointer x ≠ some a → m' a = m a) :
    m'.load (th.pointer y) = m.load (th.pointer y) := by
  apply Memory.load_congr
  intro a ha
  obtain ⟨hlive, hstruct, -⟩ := h.apart hy ha
  exact hsame a hlive hstruct

/-- The step of the other thread, or none at all. -/
theorem Abstracts.step (h : th.Abstracts m w) (hok : th.Ok m) (hm : Moves b m th e m' th') :
    ∃ w', th'.Abstracts m' w' ∧ Follows b w e w' := by
  have hcleans (hpc : th.pc.cleansUp = true) (hpc' : th'.pc.cleansUp = true)
      (hdata : th'.data = th.data) (he : e.seen = none) :
      ∃ w', th'.Abstracts m' w' ∧ Follows b w e w' := by
    obtain ⟨hd, hk, hw⟩ := h.cleaning_eq hpc
    exact ⟨w, .cleaningUp hpc' (hd.trans hdata.symm) hk hw, .stays he rfl⟩
  cases hm with
  | @structFails x hpc =>
    obtain ⟨addr, fd, rfl, hdata, hk, hrb⟩ := h.create_eq (by rw [hpc]; rfl)
    refine ⟨_, .allocating (allocates_afterMalloc x) hdata hk fun hstage => ?_, .stays rfl rfl⟩
    cases x with
    | rb => cases hstage
    | rbNew =>
      rw [hpc] at hrb
      rw [pointer_goto, pointer_setPointer_of_ne _ _ (by decide)]
      exact hrb rfl
  | @mallocsStruct x a hpc ha =>
    obtain ⟨addr, fd, rfl, hdata, hk, hrb⟩ := h.create_eq (by rw [hpc]; rfl)
    refine ⟨_, .allocating (allocates_afterMalloc x) hdata hk fun hstage => ?_, .stays rfl rfl⟩
    cases x with
    | rb => cases hstage
    | rbNew =>
      rw [hpc] at hrb
      rw [pointer_goto, pointer_setPointer_of_ne _ _ (by decide), ← hrb rfl]
      apply hok.load_kept (show Buf.rb ≠ Buf.rbNew by decide)
      intro a' hlive _
      apply Memory.set_of_ne
      rintro rfl
      exact hlive ha
  | inits hpc hp =>
    obtain ⟨addr, fd, rfl, hdata, hk, -⟩ := h.create_eq (by rw [hpc]; rfl)
    refine ⟨_, .allocating rfl hdata hk fun _ => ?_, .stays rfl rfl⟩
    rw [pointer_goto, hp]
    exact Memory.load_null (Memory.set_self ..)
  | @bufferFails a hpc hp =>
    obtain ⟨addr, fd, rfl, hdata, hk, hrb⟩ := h.create_eq (by rw [hpc]; rfl)
    rw [hpc] at hrb
    have hrb' : (m.set a (some (.bufferData none 0 recvBufferTempSize))).load (th.pointer .rb) =
        some ⟨[], 0, 0⟩ := by
      rw [← hrb rfl]
      apply hok.load_kept (show Buf.rb ≠ Buf.rbNew by decide)
      intro a' _ hstruct
      exact Memory.set_of_ne _ _ fun he => hstruct (hp.trans (congrArg some he.symm))
    have hnew :=
      Memory.load_null (Memory.set_self m a (some (.bufferData none 0 recvBufferTempSize)))
    rw [← hp] at hnew
    have hview := (th.goto (.run .loop)).view_of_loads .loop hrb' hnew
    refine ⟨Worker.withBuffer _ (List.replicate recvBufferTempSize 0), .noBuffer rfl hview
      ⟨.inl rfl, .inl (by simp [goto, hdata]), rfl⟩, .steps rfl ?_⟩
    simp [Worker.step, Worker.create, Worker.withBuffer, goto, hdata, hk]
  | @mallocsBuffer a c block hpc hp hc hlen =>
    obtain ⟨addr, fd, rfl, hdata, hk, hrb⟩ := h.create_eq (by rw [hpc]; rfl)
    rw [hpc] at hrb
    have hca : c ≠ a := by
      rintro rfl
      exact Memory.not_live_of_none hc ((hok.fits .rbNew).live (.inl hp))
    have hrb' : ((m.set c (some (.bytes block))).set a
        (some (.bufferData (some c) 0 recvBufferTempSize))).load (th.pointer .rb) =
        some ⟨[], 0, 0⟩ := by
      rw [← hrb rfl]
      apply hok.load_kept (show Buf.rb ≠ Buf.rbNew by decide)
      intro a' hlive hstruct
      rw [Memory.set_of_ne _ _ fun he => hstruct (hp.trans (congrArg some he.symm)),
        Memory.set_of_ne]
      rintro rfl
      exact hlive hc
    have hblock : ((m.set c (some (.bytes block))).set a
        (some (.bufferData (some c) 0 recvBufferTempSize))) c = some (.bytes block) := by
      rw [Memory.set_of_ne _ _ hca, Memory.set_self]
    have hnew := Memory.load_block (Memory.set_self ..) hblock
    rw [← hp] at hnew
    have hview := (th.goto (.run .loop)).view_of_loads .loop hrb' hnew
    refine ⟨_, .running rfl (by simp) hview, .steps rfl ?_⟩
    simp [Worker.step, Worker.create, goto, hdata, hk, hlen]
  | @loops pc ev moved m' th' hpc hl =>
    obtain ⟨-, v, v', hview, hv, hexit, rfl, hview'⟩ := hok.loopStep hpc hl
    rcases h.view_eq hpc with ⟨-, hw⟩ | ⟨v₁, block, hview₁, hnull, rfl⟩
    · cases hview.symm.trans hw
      exact ⟨v', .running rfl ((Worker.step_next hv).not_exited hexit) hview', .steps rfl hv⟩
    · cases hview.symm.trans hview₁
      obtain ⟨hnull', hstep⟩ := hnull.step hv hexit block
      exact ⟨_, .noBuffer rfl hview' hnull', .steps rfl hstep⟩
  | leaves hpc hk =>
    rcases h.view_eq hpc with ⟨-, hview⟩ | ⟨v, block, hview, hnull, rfl⟩ <;>
      obtain ⟨-, -, hdata, hkeep, hw⟩ := view_eq_some hview
    · exact ⟨w, .cleaningUp rfl hdata (hkeep.trans hk) hw, .stays rfl rfl⟩
    · exact ⟨v.withBuffer block, .cleaningUp rfl hdata (hkeep.trans hk) hw, .stays rfl rfl⟩
  | @noStruct x hpc hp => exact hcleans (by rw [hpc]; rfl) (cleansUp_afterFree x) rfl rfl
  | noBuffer hpc hp ha => exact hcleans (by rw [hpc]; rfl) rfl rfl rfl
  | freesBuffer hpc hp ha hc => exact hcleans (by rw [hpc]; rfl) rfl rfl rfl
  | @freesStruct x a hpc hp => exact hcleans (by rw [hpc]; rfl) (cleansUp_afterFree x) rfl rfl
  | returns hpc =>
    obtain ⟨hdata, hk, hw⟩ := h.cleaning_eq (by rw [hpc]; rfl)
    exact ⟨w.goto .exited, .returned rfl hdata rfl, .steps rfl (by simp [Worker.step, hw, hk])⟩

end HeapWorker

theorem HeapEvent.kernelCall_unseen {σ χ : Type} {ops : FileOps σ χ} {k k' : Kernel σ} {i : ℕ}
    {choice : χ} {e : HeapEvent} (h : e.kernelCall ops k i choice = some k')
    (he : e.seen = none) : k' = k := by
  cases e with
  | call => cases he
  | _ =>
    cases h
    rfl

theorem HeapEvent.kernelCall_seen {σ χ : Type} {ops : FileOps σ χ} {k k' : Kernel σ} {i : ℕ}
    {choice : χ} {e : HeapEvent} {ev : Event} (h : e.kernelCall ops k i choice = some k')
    (he : e.seen = some ev) : k.call ops (.worker i) ev choice = some k' := by
  cases e with
  | call =>
    cases he
    exact h
  | mallocBuffer got =>
    cases h
    cases got <;> cases he <;> rfl
  | exitThread =>
    cases h
    cases he
    rfl
  | _ => cases he

/-- `t` is the process without its memory. -/
structure HeapSystem.Abstracts {σ : Type} (s : HeapSystem σ) (t : System σ) : Prop where
  kernel : t.kernel = s.kernel
  main : t.main = s.main
  threads : ∀ i, Option.Rel (fun th w => th.Abstracts s.memory w) (s.threads i) (t.workers i)

namespace HeapSystem

variable {σ χ : Type} {ops : FileOps σ χ} {b : Build} {s s' : HeapSystem σ} {t : System σ}
  {e : Event} {choice : χ} {threads : ℕ → Option HeapWorker}

theorem Abstracts.thread (h : s.Abstracts t) {i : ℕ} {th : HeapWorker}
    (hth : s.threads i = some th) : ∃ w, t.workers i = some w ∧ th.Abstracts s.memory w := by
  have hi := h.threads i
  rw [hth] at hi
  generalize hw : t.workers i = w at hi
  cases hi with
  | some hi => exact ⟨_, rfl, hi⟩

theorem Abstracts.no_thread (h : s.Abstracts t) {i : ℕ} (hth : s.threads i = none) :
    t.workers i = none := by
  have hi := h.threads i
  rw [hth] at hi
  generalize hw : t.workers i = w at hi
  cases hi
  rfl

/-- A thread whose blocks a step leaves as they are stands for the same thread. -/
theorem Abstracts.kept (h : s.Abstracts t) {m' : Memory} {i : ℕ}
    (hkept : ∀ th, s.threads i = some th → ∀ r a, th.held s.memory r = some a →
      m' a = s.memory a) :
    Option.Rel (fun th w => th.Abstracts m' w) (s.threads i) (t.workers i) := by
  cases hth : s.threads i with
  | none =>
    rw [h.no_thread hth]
    exact .none
  | some th =>
    obtain ⟨w, hw, habs⟩ := h.thread hth
    rw [hw]
    exact .some (habs.congr (hkept th hth))

theorem Abstracts.update (h : s.Abstracts t) {m' : Memory} {i : ℕ} {th : Option HeapWorker}
    {w : Option Worker} (hi : Option.Rel (fun th w => th.Abstracts m' w) th w)
    (hkept : ∀ j, j ≠ i → ∀ th, s.threads j = some th → ∀ r a, th.held s.memory r = some a →
      m' a = s.memory a) (j : ℕ) :
    Option.Rel (fun th w => th.Abstracts m' w) (Function.update s.threads i th j)
      (Function.update t.workers i w j) := by
  by_cases hj : j = i
  · subst hj
    rw [Function.update_self, Function.update_self]
    exact hi
  · rw [Function.update_of_ne hj, Function.update_of_ne hj]
    exact h.kept (hkept j hj)

theorem Abstracts.threadCall (h : s.Abstracts t) {m' : Memory}
    (hkept : ∀ i th, s.threads i = some th → ∀ r a, th.held s.memory r = some a →
      m' a = s.memory a)
    (hcall : s.threadCall e = some threads) : ∃ workers, t.threadCall e = some workers ∧
      ∀ i, Option.Rel (fun th w => th.Abstracts m' w) (threads i) (workers i) := by
  have hothers (i : ℕ) : ∀ j, j ≠ i → ∀ th, s.threads j = some th → ∀ r a,
      th.held s.memory r = some a → m' a = s.memory a := fun j _ => hkept j
  cases threadCall_cases hcall with
  | @starts thread i data fd hcreated hfree =>
    have hnew : (HeapWorker.create data fd).Abstracts m' (.create data fd) :=
      .allocating rfl rfl rfl fun hstage => by cases hstage
    refine ⟨Function.update t.workers i (some (.create data fd)), ?_,
      h.update (.some hnew) (hothers i)⟩
    simp [System.threadCall, h.main, hcreated, h.no_thread hfree]
  | @joins i th hth hpc =>
    obtain ⟨w, hw, habs⟩ := h.thread hth
    have hdata : (w.data.addr, w.data.clientFd) = (th.data.addr, th.data.clientFd) :=
      Prod.ext habs.data_eq.1 habs.data_eq.2
    refine ⟨Function.update t.workers i none, ?_, h.update .none (hothers i)⟩
    simp [System.threadCall, hw, habs.exited_iff.mpr hpc, hdata]
  | busy hth hpc =>
    obtain ⟨w, hw, habs⟩ := h.thread hth
    refine ⟨t.workers, ?_, fun j => h.kept (hkept j)⟩
    simp [System.threadCall, hw, mt habs.exited_iff.mp hpc]
  | quiet hmoves hjoin =>
    exact ⟨t.workers, System.threadCall_quiet hmoves hjoin, fun j => h.kept (hkept j)⟩

theorem Abstracts.main_step (h : s.Abstracts t) (hok : s.Ok)
    (hs : s.step ops b (.main e choice) = some s') :
    ∃ t', s'.Abstracts t' ∧ t.step ops b (.thread .main e choice) = some t' := by
  obtain ⟨halive, hmain, hkernel, hmemory, hthreads⟩ := step_main hs
  obtain ⟨-, hsame⟩ := Memory.mainCall_spec hmemory
  obtain ⟨workers, hworkers, hrel⟩ := h.threadCall
    (fun i th hth r a ha => hsame a (hok.live hth ha)) hthreads
  refine ⟨⟨s'.kernel, s'.main, workers⟩, ⟨rfl, rfl, hrel⟩, ?_⟩
  simp [System.step, h.kernel, h.main, halive, hmain, hkernel, hworkers]

theorem Abstracts.worker_step (h : s.Abstracts t) (hok : s.Ok) {i : ℕ} {e : HeapEvent}
    (hs : s.step ops b (.worker i e choice) = some s') : ∃ t', s'.Abstracts t' ∧
      ((e.seen = none ∧ t' = t) ∨ ∃ ev, e.seen = some ev ∧
        t.step ops b (.thread (.worker i) ev choice) = some t') := by
  obtain ⟨halive, hmain, th, th', hth, hstep, hcall, hthreads⟩ := step_worker hs
  have hmoves := HeapWorker.step_moves hstep
  obtain ⟨-, hframe, -⟩ := hmoves.stepped (hok.thread hth)
  obtain ⟨w, hw, habs⟩ := h.thread hth
  obtain ⟨w', habs', hfollows⟩ := habs.step (hok.thread hth) hmoves
  have hrel : ∀ j, Option.Rel (fun th w => th.Abstracts s'.memory w) (s'.threads j)
      (Function.update t.workers i (some w') j) := by
    rw [hthreads]
    exact h.update (.some habs') fun j hj th₁ hth₁ => hok.others hth hth₁ hj hframe
  refine ⟨⟨s'.kernel, s'.main, Function.update t.workers i (some w')⟩, ⟨rfl, rfl, hrel⟩, ?_⟩
  cases hfollows with
  | stays he hw' =>
    have hkernel := HeapEvent.kernelCall_unseen hcall he
    refine .inl ⟨he, ?_⟩
    rw [hw', ← hw, Function.update_eq_self, hkernel, hmain, ← h.kernel, ← h.main]
  | @steps ev he hw' =>
    have hkernel := HeapEvent.kernelCall_seen hcall he
    refine .inr ⟨ev, he, ?_⟩
    simp [System.step, h.kernel, h.main, halive, hw, hw', hkernel, hmain]

theorem Abstracts.allowed_thread (h : s.Abstracts t) {tid : Tid}
    (hl : s.seen.Allowed ops (.thread tid e choice)) : t.Allowed ops (.thread tid e choice) := by
  unfold System.Allowed at hl ⊢
  rw [h.kernel]
  exact hl

theorem Abstracts.allowed (h : s.Abstracts t) {l : HeapLabel χ} {l' : Label χ}
    (hl : s.Allowed ops l) (hseen : l.seen = some l') : t.Allowed ops l' := by
  cases l with
  | main e choice =>
    cases hseen
    exact h.allowed_thread hl
  | worker i e choice =>
    obtain ⟨ev, he, hev⟩ := Option.map_eq_some_iff.mp hseen
    cases hev
    cases e with
    | call =>
      cases he
      exact h.allowed_thread hl
    | mallocBuffer got => cases got <;> cases he <;> exact ⟨trivial, trivial⟩
    | exitThread =>
      cases he
      exact ⟨trivial, trivial⟩
    | _ => cases he
  | signal sig =>
    cases hseen
    trivial
  | disconnect c =>
    cases hseen
    trivial

theorem Abstracts.step (h : s.Abstracts t) (hok : s.Ok) {l : HeapLabel χ}
    (hs : s.Step ops b l s') : ∃ t', s'.Abstracts t' ∧
      ((l.seen = none ∧ t' = t) ∨ ∃ l', l.seen = some l' ∧ t.Step ops b l' t') := by
  obtain ⟨hallowed, hs⟩ := hs
  have halive : t.kernel.alive = s.kernel.alive := by rw [h.kernel]
  cases l with
  | main e choice =>
    obtain ⟨t', ht', hstep⟩ := h.main_step hok hs
    exact ⟨t', ht', .inr ⟨_, rfl, h.allowed hallowed rfl, hstep⟩⟩
  | worker i e choice =>
    obtain ⟨t', ht', ⟨he, rfl⟩ | ⟨ev, he, hstep⟩⟩ := h.worker_step hok hs
    · exact ⟨t', ht', .inl ⟨by simp [HeapLabel.seen, he], rfl⟩⟩
    · have hseen : (HeapLabel.worker i e choice).seen = some (.thread (.worker i) ev choice) := by
        simp [HeapLabel.seen, he]
      exact ⟨t', ht', .inr ⟨_, hseen, h.allowed hallowed hseen, hstep⟩⟩
  | signal sig =>
    obtain ⟨hlive, hsig, rfl⟩ := step_signal hs
    refine ⟨{ t with kernel := t.kernel.deliver sig }, ⟨?_, h.main, h.threads⟩,
      .inr ⟨_, rfl, trivial, ?_⟩⟩
    · rw [h.kernel]
    · simp [System.step, halive, hlive, hsig]
  | disconnect c =>
    obtain ⟨hlive, hc, rfl⟩ := step_disconnect hs
    refine ⟨{ t with kernel := { t.kernel with
      peerGone := Function.update t.kernel.peerGone c true } }, ⟨?_, h.main, h.threads⟩,
      .inr ⟨_, rfl, trivial, ?_⟩⟩
    · rw [h.kernel]
    · simp [System.step, h.kernel, hlive, hc]

end HeapSystem

/-- Every run of the server with its memory is a run of `System`, call by call, with the same kernel
and main thread and with the same threads. -/
theorem memory_refines {σ χ : Type} (ops : FileOps σ χ) (b : Build) (node : σ)
    (reserved : Fd → Bool) {tr : List (HeapLabel χ)} {s : HeapSystem σ}
    (hrun : Run (HeapSystem.Step ops b) (HeapSystem.start node reserved) tr s) :
    ∃ t, Run (System.Step ops b) (System.start node reserved) (tr.filterMap HeapLabel.seen) t ∧
      s.Abstracts t := by
  obtain ⟨t, hrun', -, habs⟩ := hrun.simulates (R := fun s t => s.Ok ∧ s.Abstracts t)
    ⟨HeapSystem.ok_start node reserved, rfl, rfl, fun _ => .none⟩ fun s l s' t hr hs => by
      obtain ⟨t', ht', hl⟩ := hr.2.step hr.1 hs
      exact ⟨t', ⟨hr.1.step hs, ht'⟩, hl⟩
  exact ⟨t, hrun', habs⟩

end Aesd.Server
