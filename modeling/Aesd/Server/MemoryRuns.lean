import Aesd.Server.MemorySteps
import Aesd.Server.ThreadBlocks

/-! The server process with one memory for the blocks of all its threads: the list items and the
data of the threads, and the receive buffers that each thread allocates and frees itself. -/
namespace Aesd.Server
open Claims Runs

structure HeapSystem (σ : Type) where
  kernel : Kernel σ
  main : Main
  memory : Memory
  threads : ℕ → Option HeapWorker

inductive HeapLabel (χ : Type) where
  | main (e : Event) (choice : χ)
  | worker (i : ℕ) (e : HeapEvent) (choice : χ)
  | signal (sig : Signal)
  | disconnect (c : ℕ)

/-- What `join_threads` can tell of a thread: its data, and whether it has returned. -/
def HeapWorker.seen (th : HeapWorker) : Worker :=
  ⟨th.data, th.keepLoopingThread, ⟨[], 0, 0⟩, ⟨[], 0, 0⟩,
    if th.pc = .returned then .exited else .start⟩

/-- The process as the main thread sees it. -/
def HeapSystem.seen {σ : Type} (s : HeapSystem σ) : System σ :=
  ⟨s.kernel, s.main, fun i => (s.threads i).map HeapWorker.seen⟩

/-- `malloc` and `free` of the main thread. -/
def Memory.mainCall (m : Memory) : Event → Option Memory
  | .malloc (some a) => if m a = none then some (m.set a (some .other)) else none
  | .free a => if m a = some .other then some (m.set a none) else none
  | _ => some m

/-- What a call of thread `i` does to the kernel; its allocations leave it as it is. -/
def HeapEvent.kernelCall {σ χ : Type} (ops : FileOps σ χ) (k : Kernel σ) (i : ℕ) (choice : χ) :
    HeapEvent → Option (Kernel σ)
  | .call e _ => k.call ops (.worker i) e choice
  | _ => some k

namespace HeapSystem

variable {σ χ : Type}

/-- `pthread_create` and `pthread_tryjoin_np`. -/
def threadCall (s : HeapSystem σ) (e : Event) : Option (ℕ → Option HeapWorker) :=
  match e with
  | .pthreadCreate (some _) => do
    let (i, data, fd) ← s.main.created e
    if s.threads i = none then
      some (Function.update s.threads i (some (HeapWorker.create data fd)))
    else none
  | .tryJoin i joined =>
    match s.threads i with
    | none => none
    | some th =>
      if th.pc = .returned then
        if joined = some (th.data.addr, th.data.clientFd) then
          some (Function.update s.threads i none)
        else none
      else if joined = none then some s.threads else none
  | _ => some s.threads

def step (ops : FileOps σ χ) (b : Build) (s : HeapSystem σ) : HeapLabel χ → Option (HeapSystem σ)
  | .main e choice =>
    if s.kernel.alive then do
      let main ← s.main.step b e
      let kernel ← s.kernel.call ops .main e choice
      let memory ← s.memory.mainCall e
      let threads ← s.threadCall e
      some ⟨kernel, main, memory, threads⟩
    else none
  | .worker i e choice =>
    if s.kernel.alive then do
      let th ← s.threads i
      let (memory, th') ← th.step b s.memory e
      let kernel ← e.kernelCall ops s.kernel i choice
      some ⟨kernel, s.main, memory, Function.update s.threads i (some th')⟩
    else none
  | .signal sig =>
    if s.kernel.alive = true ∧ sig ≠ .sigpipe then some { s with kernel := s.kernel.deliver sig }
    else none
  | .disconnect c =>
    if s.kernel.alive = true ∧ c < s.kernel.accepted then
      some { s with kernel := { s.kernel with
        peerGone := Function.update s.kernel.peerGone c true } }
    else none

/-- The results that POSIX and the node promise of a call. -/
def Allowed (ops : FileOps σ χ) (s : HeapSystem σ) : HeapLabel χ → Prop
  | .main e choice => s.seen.Allowed ops (.thread .main e choice)
  | .worker i (.call e _) choice => s.seen.Allowed ops (.thread (.worker i) e choice)
  | _ => True

def Step (ops : FileOps σ χ) (b : Build) (s : HeapSystem σ) (l : HeapLabel χ)
    (s' : HeapSystem σ) : Prop :=
  s.Allowed ops l ∧ s.step ops b l = some s'

def start (node : σ) (reserved : Fd → Bool) : HeapSystem σ :=
  ⟨(System.start node reserved).kernel, .init, fun _ => none, fun _ => none⟩

def held (s : HeapSystem σ) : ℕ × Buf × Part → Option ℕ
  | (i, r) => (s.threads i).bind fun th => th.held s.memory r

end HeapSystem

/-- A pointer to a block: one that the main thread, the list or a thread's argument is, or one of a
thread to its receive buffers. -/
inductive Pointer where
  | main (holder : Holder)
  | buffer (i : ℕ) (r : Buf × Part)
  deriving DecidableEq

def Pointer.owner : Pointer → Tid
  | .main _ => .main
  | .buffer i _ => .worker i

def HeapLabel.thread {χ : Type} : HeapLabel χ → Option Tid
  | .main _ _ => some .main
  | .worker i _ _ => some (.worker i)
  | _ => none

def HeapSystem.Refers {σ : Type} (s : HeapSystem σ) : Pointer → ℕ → Prop
  | .main holder, a => s.seen.Refers holder a
  | .buffer i r, a => s.held (i, r) = some a

/-- Every block has at most one pointer to it, those of the threads exactly one, and each pointer
fits the place in the code that its thread is at. -/
structure HeapSystem.Ok {σ : Type} (s : HeapSystem σ) : Prop where
  referred : Referred s.seen
  listed : Listed s.seen
  blocks : ∀ a, s.kernel.blocks a = true → s.memory a = some .other
  fits : ∀ i th, s.threads i = some th →
    th.pc ≠ .run .start ∧ ∀ x, Fits s.memory (th.pc.stage x) (th.pointer x)
  accounts : Accounts s.memory.Live s.held

namespace HeapWorker

variable {b : Build} {m m' : Memory} {th th' : HeapWorker} {e : HeapEvent}

theorem Moves.data_eq (h : Moves b m th e m' th') :
    th'.data.addr = th.data.addr ∧ th'.data.clientFd = th.data.clientFd := by
  cases h with
  | loops hpc hl =>
    obtain ⟨w, w', hview, hw, -, rfl, -⟩ := loopStep_cases hl
    obtain ⟨-, -, hdata, -, -⟩ := view_eq_some hview
    have hnext := Worker.step_next hw
    exact ⟨hnext.addr_eq.trans (by rw [hdata]), hnext.clientFd_eq.trans (by rw [hdata])⟩
  | _ => exact ⟨rfl, rfl⟩

theorem Moves.call_blocks (h : Moves b m th e m' th') {σ χ : Type} {ops : FileOps σ χ}
    {k k' : Kernel σ} {i : ℕ} {choice : χ} (hcall : e.kernelCall ops k i choice = some k') (a : ℕ) :
    k'.blocks a = true ↔ k.blocks a = true := by
  cases h with
  | loops hpc hl =>
    obtain ⟨w, w', -, hw, -, -, -⟩ := loopStep_cases hl
    have hnext := Worker.step_next hw
    constructor
    · intro ha
      rcases Aesd.Server.call_blocks hcall ha with rfl | ⟨ha, -⟩
      · exact absurd rfl (hnext.not_malloc _)
      · exact ha
    · exact fun ha => call_keeps_block hcall ha (hnext.not_free a)
  | _ =>
    cases hcall
    exact Iff.rfl

theorem Moves.not_returned (h : Moves b m th e m' th') : th.pc ≠ .returned := by
  cases h <;> simp [*]

/-- The memory lets the thread take any step that its loop can take. -/
theorem step_of_view {pc : WorkerPc} {w w' : Worker} {ev : Event} {a : ℕ} (hpc : th.pc = .run pc)
    (hview : th.view m pc = some w) (hw : w.step b ev = some w') (hexit : ev ≠ .exitThread)
    (ha : m a = none) : ∃ moved, (th.step b m (.call ev moved)).isSome := by
  have hstep (moved : Option ℕ) : th.step b m (.call ev moved) = th.loopStep b m pc ev moved := by
    simp only [step, hpc]
  simp only [hstep, loopStep, hview, hw, Option.bind_eq_bind, Option.bind_some]
  by_cases hrealloc : ∃ size added, ev = .realloc size (some added)
  · obtain ⟨size, added, rfl⟩ := hrealloc
    obtain ⟨m', hmove⟩ := Memory.moveBuffer_of_free (view_eq_some hview).1 ha w'.rb
    exact ⟨some a, by simp [hmove]⟩
  · refine ⟨none, ?_⟩
    split
    next => exact absurd rfl hexit
    next => exact absurd ⟨_, _, rfl⟩ hrealloc
    next => exact absurd ⟨_, _, rfl⟩ hrealloc
    next => rfl
    next hmoved => cases hmoved

/-- Each pointer that a thread is about to follow leads to a live block, unless the `malloc` of a
`struct BufferData` has failed. -/
theorem Ok.goes_on (h : th.Ok m) (b : Build) (hpc : th.pc ≠ .returned) :
    (∃ x, th.pc.stage x = .raw ∧ th.pointer x = none) ∨
      (∃ pc w, th.pc = .run pc ∧ th.view m pc = some w ∧ ∀ e w' a, w.step b e = some w' →
        e ≠ .exitThread → m a = none → ∃ moved, (th.step b m (.call e moved)).isSome) ∨
      ∃ e, (th.step b m e).isSome := by
  have hfit := h.fits
  cases hcase : th.pc with
  | mallocStruct x => exact .inr (.inr ⟨.mallocStruct none, by simp [step, hcase]⟩)
  | initRb =>
    have hrb := hfit .rb
    rw [hcase] at hrb
    cases hp : th.pointer .rb with
    | none => exact .inl ⟨.rb, rfl, hp⟩
    | some a =>
      rw [hp] at hrb
      cases hrb with
      | raw ha => exact .inr (.inr ⟨.compute, by simp [step, hcase, hp, ha]⟩)
  | mallocBuffer =>
    have hnew := hfit .rbNew
    rw [hcase] at hnew
    cases hp : th.pointer .rbNew with
    | none => exact .inl ⟨.rbNew, rfl, hp⟩
    | some a =>
      rw [hp] at hnew
      cases hnew with
      | raw ha =>
        exact .inr (.inr ⟨.mallocBuffer none, by simp [step, hcase, hp, ha]⟩)
  | run pc =>
    have hrb := hfit .rb
    have hnew := hfit .rbNew
    rw [hcase] at hrb hnew
    obtain ⟨d, hrb⟩ := hrb.load
    obtain ⟨dNew, hnew⟩ := hnew.load
    have hview := th.view_of_loads pc hrb hnew
    exact .inr (.inl ⟨pc, _, rfl, hview, fun e w' a hw hexit ha =>
      step_of_view hcase hview hw hexit ha⟩)
  | freeBuffer x =>
    have hx := hfit x
    rw [hcase, (stage_cleanup x).1] at hx
    obtain ⟨d, hload⟩ := hx.load
    obtain ⟨a, hp, ⟨ha, -⟩ | ⟨c, ha, hc⟩⟩ := Memory.load_eq_some hload
    · exact .inr (.inr ⟨.compute, by simp [step, hcase, hp, ha]⟩)
    · exact .inr (.inr ⟨.free c, by simp [step, hcase, hp, ha, hc]⟩)
  | freeStruct x =>
    have hx := hfit x
    rw [hcase, (stage_cleanup x).2.1] at hx
    generalize hp : th.pointer x = p at hx
    cases hx with
    | @emptied a _ _ ha => exact .inr (.inr ⟨.free a, by simp [step, hcase, hp, ha]⟩)
  | ret => exact .inr (.inr ⟨.exitThread, by simp [step, hcase]⟩)
  | returned => exact absurd hcase hpc

end HeapWorker

/-- One thread's blocks change as its step says, and those of the others stay. -/
theorem Effect.accounts {m m' : Memory} {held held' : ℕ × Buf × Part → Option ℕ} {i : ℕ}
    (he : Effect m m' (fun r => held (i, r)) fun r => held' (i, r))
    (hother : ∀ j r, j ≠ i → held' (j, r) = held (j, r)) (h : Accounts m.Live held) :
    Accounts m'.Live held' := by
  have hupdate {r : Buf × Part} {v : Option ℕ}
      (hr : (fun r => held' (i, r)) = Function.update (fun r => held (i, r)) r v) :
      held' = Function.update held (i, r) v := by
    funext ⟨j, r'⟩
    by_cases hj : j = i
    · subst hj
      rw [show held' (j, r') = _ from congrFun hr r']
      by_cases hrr : r' = r
      · subst hrr
        rw [Function.update_self, Function.update_self]
      · rw [Function.update_of_ne hrr, Function.update_of_ne (by simpa using hrr)]
    · rw [hother j r' hj, Function.update_of_ne (by simp [hj])]
  cases he with
  | keeps hheld hlive =>
    refine h.congr hlive (funext fun ⟨j, r⟩ => ?_)
    by_cases hj : j = i
    · subst hj
      exact congrFun hheld r
    · exact hother j r hj
  | allocs hr ha hheld hlive =>
    rw [hupdate hheld]
    exact h.alloc hr (Memory.not_live_of_none ha) hlive
  | frees hr hheld hlive =>
    rw [hupdate hheld]
    exact h.free hr hlive
  | moves hr ha hheld hlive =>
    rw [hupdate hheld]
    exact h.move hr (ha.imp Memory.not_live_of_none Eq.symm) hlive

namespace Memory

variable {m m' : Memory} {e : Event} {a : ℕ}

theorem mainCall_cases (h : m.mainCall e = some m') :
    (∃ x, e = .malloc (some x) ∧ m x = none ∧ m' = m.set x (some .other)) ∨
      (∃ x, e = .free x ∧ m x = some .other ∧ m' = m.set x none) ∨
      ((∀ x, e ≠ .malloc (some x)) ∧ m' = m) := by
  unfold mainCall at h
  split at h
  next x =>
    split at h
    next hx =>
      cases h
      exact .inl ⟨x, rfl, hx, rfl⟩
    next => cases h
  next x =>
    split at h
    next hx =>
      cases h
      exact .inr (.inl ⟨x, rfl, hx, rfl⟩)
    next => cases h
  next hmalloc _ =>
    cases h
    exact .inr (.inr ⟨hmalloc, rfl⟩)

theorem mainCall_spec (h : m.mainCall e = some m') :
    (∀ a, m'.Live a ↔ m.Live a) ∧ ∀ a, m.Live a → m' a = m a := by
  have hset {x : ℕ} {cell : Option Cell} (hx : ¬ m.Live x)
      (hcell : cell = none ∨ cell = some .other) :
      (∀ a, (m.set x cell).Live a ↔ m.Live a) ∧ ∀ a, m.Live a → m.set x cell a = m a := by
    constructor
    · intro a
      by_cases ha : a = x
      · subst ha
        refine iff_of_false ?_ hx
        rcases hcell with rfl | rfl <;> simp [Live]
      · exact live_congr (set_of_ne _ _ ha)
    · intro a ha
      apply set_of_ne
      rintro rfl
      exact hx ha
  rcases mainCall_cases h with ⟨x, -, hx, rfl⟩ | ⟨x, -, hx, rfl⟩ | ⟨-, rfl⟩
  · exact hset (not_live_of_none hx) (.inr rfl)
  · exact hset (by simp [Live, hx]) (.inl rfl)
  · exact ⟨fun _ => Iff.rfl, fun _ _ => rfl⟩

theorem mainCall_gone (h : m.mainCall e = some m') (ha : m a ≠ none) (ha' : m' a = none) :
    e = .free a := by
  rcases mainCall_cases h with ⟨x, -, hx, rfl⟩ | ⟨x, rfl, -, rfl⟩ | ⟨-, rfl⟩
  · rw [set_of_ne] at ha'
    · exact absurd ha' ha
    · rintro rfl
      exact ha hx
  · by_cases hax : a = x
    · rw [hax]
    · exact absurd ((set_of_ne _ _ hax).symm.trans ha') ha
  · exact absurd ha' ha

theorem mainCall_malloc (h : m.mainCall (.malloc (some a)) = some m') : m' a = some .other := by
  rcases mainCall_cases h with ⟨x, he, -, rfl⟩ | ⟨x, he, -⟩ | ⟨hmalloc, -⟩
  · cases he
    exact set_self ..
  · cases he
  · exact absurd rfl (hmalloc a)

theorem mainCall_other (h : m.mainCall e = some m') (ha : m a = some .other)
    (hfree : e ≠ .free a) : m' a = some .other := by
  rcases mainCall_cases h with ⟨x, -, hx, rfl⟩ | ⟨x, rfl, -, rfl⟩ | ⟨-, rfl⟩
  · rw [set_of_ne, ha]
    rintro rfl
    cases ha.symm.trans hx
  · rw [set_of_ne, ha]
    rintro rfl
    exact hfree rfl
  · exact ha

end Memory

namespace HeapSystem

variable {σ χ : Type} {ops : FileOps σ χ} {b : Build} {s s' : HeapSystem σ} {e : Event}
  {choice : χ} {threads : ℕ → Option HeapWorker}

theorem step_main (h : s.step ops b (.main e choice) = some s') :
    s.kernel.alive = true ∧ s.main.step b e = some s'.main ∧
      s.kernel.call ops .main e choice = some s'.kernel ∧
      s.memory.mainCall e = some s'.memory ∧ s.threadCall e = some s'.threads := by
  simp only [step] at h
  split at h
  next halive =>
    obtain ⟨main, hmain, h⟩ := Option.bind_eq_some_iff.mp h
    obtain ⟨kernel, hkernel, h⟩ := Option.bind_eq_some_iff.mp h
    obtain ⟨memory, hmemory, h⟩ := Option.bind_eq_some_iff.mp h
    obtain ⟨threads, hthreads, h⟩ := Option.bind_eq_some_iff.mp h
    cases h
    exact ⟨halive, hmain, hkernel, hmemory, hthreads⟩
  next => cases h

theorem step_worker {i : ℕ} {e : HeapEvent} (h : s.step ops b (.worker i e choice) = some s') :
    s.kernel.alive = true ∧ s'.main = s.main ∧ ∃ th th', s.threads i = some th ∧
      th.step b s.memory e = some (s'.memory, th') ∧
      e.kernelCall ops s.kernel i choice = some s'.kernel ∧
      s'.threads = Function.update s.threads i (some th') := by
  simp only [step] at h
  split at h
  next halive =>
    obtain ⟨th, hth, h⟩ := Option.bind_eq_some_iff.mp h
    obtain ⟨⟨memory, th'⟩, hstep, h⟩ := Option.bind_eq_some_iff.mp h
    obtain ⟨kernel, hkernel, h⟩ := Option.bind_eq_some_iff.mp h
    cases h
    exact ⟨halive, rfl, th, th', hth, hstep, hkernel, rfl⟩
  next => cases h

theorem step_signal {sig : Signal} (h : s.step ops b (.signal sig) = some s') :
    s.kernel.alive = true ∧ sig ≠ .sigpipe ∧ s' = { s with kernel := s.kernel.deliver sig } := by
  simp only [step] at h
  split at h
  next hguard => exact ⟨hguard.1, hguard.2, (Option.some.inj h).symm⟩
  next => cases h

theorem step_disconnect {c : ℕ} (h : s.step ops b (.disconnect c) = some s') :
    s.kernel.alive = true ∧ c < s.kernel.accepted ∧ s' = { s with kernel := { s.kernel with
      peerGone := Function.update s.kernel.peerGone c true } } := by
  simp only [step] at h
  split at h
  next hguard => exact ⟨hguard.1, hguard.2, (Option.some.inj h).symm⟩
  next => cases h

/-- What a call of the main thread does to the threads. -/
inductive ThreadCall (s : HeapSystem σ) : Event → (ℕ → Option HeapWorker) → Prop where
  | starts {thread i data : ℕ} {fd : Fd}
      (hcreated : s.main.created (.pthreadCreate (some thread)) = some (i, data, fd))
      (hfree : s.threads i = none) : ThreadCall s (.pthreadCreate (some thread))
        (Function.update s.threads i (some (HeapWorker.create data fd)))
  | joins {i : ℕ} {th : HeapWorker} (hth : s.threads i = some th) (hpc : th.pc = .returned) :
      ThreadCall s (.tryJoin i (some (th.data.addr, th.data.clientFd)))
        (Function.update s.threads i none)
  | busy {i : ℕ} {th : HeapWorker} (hth : s.threads i = some th) (hpc : th.pc ≠ .returned) :
      ThreadCall s (.tryJoin i none) s.threads
  | quiet {e : Event} (hmoves : e.movesThread = false) (hjoin : ∀ i, e ≠ .tryJoin i none) :
      ThreadCall s e s.threads

theorem threadCall_cases (h : s.threadCall e = some threads) : s.ThreadCall e threads := by
  unfold threadCall at h
  split at h
  next =>
    obtain ⟨⟨i, data, fd⟩, hcreated, h⟩ := Option.bind_eq_some_iff.mp h
    dsimp only at h
    split at h
    next hfree =>
      cases h
      exact .starts hcreated hfree
    next => cases h
  next i joined =>
    split at h
    next => cases h
    next th hth =>
      split at h
      next hpc =>
        split at h
        next hjoined =>
          cases h
          subst hjoined
          exact .joins hth hpc
        next => cases h
      next hpc =>
        split at h
        next hjoined =>
          cases h
          subst hjoined
          exact .busy hth hpc
        next => cases h
  next hcreate hjoin =>
    cases h
    refine .quiet (Bool.eq_false_of_not_eq_true fun hmoves => ?_) fun i => hjoin i none
    unfold Event.movesThread at hmoves
    split at hmoves
    · exact hcreate _ rfl
    · exact hjoin _ _ rfl
    · cases hmoves

theorem threadCall_threads (h : s.threadCall e = some threads) (i : ℕ) :
    threads i = s.threads i ∨
      (s.threads i = none ∧ ∃ data fd, threads i = some (.create data fd)) ∨
      ∃ th, s.threads i = some th ∧ th.pc = .returned ∧ threads i = none := by
  cases threadCall_cases h with
  | @starts _ j data fd hcreated hfree =>
    by_cases hi : i = j
    · subst hi
      exact .inr (.inl ⟨hfree, data, fd, Function.update_self ..⟩)
    · exact .inl (Function.update_of_ne hi ..)
  | @joins j th hth hpc =>
    by_cases hi : i = j
    · subst hi
      exact .inr (.inr ⟨th, hth, hpc, Function.update_self ..⟩)
    · exact .inl (Function.update_of_ne hi ..)
  | busy | quiet => exact .inl rfl

theorem seen_update (s : HeapSystem σ) (i : ℕ) (th : Option HeapWorker) :
    (fun j => ((Function.update s.threads i th) j).map HeapWorker.seen) =
      Function.update s.seen.workers i (th.map HeapWorker.seen) := by
  funext j
  by_cases hj : j = i
  · subst hj
    simp
  · simp only [Function.update_of_ne hj]
    rfl

theorem seen_threadCall (h : s.threadCall e = some threads) :
    s.seen.threadCall e = some fun i => (threads i).map HeapWorker.seen := by
  cases threadCall_cases h with
  | @starts thread i data fd hcreated hfree =>
    rw [seen_update]
    have hcreated' : s.seen.main.created _ = some (i, data, fd) := hcreated
    have hfree' : s.seen.workers i = none := by simp [seen, hfree]
    simp only [System.threadCall, hcreated', Option.bind_eq_bind, Option.bind_some, hfree',
      if_true]
    rfl
  | @joins i th hth hpc =>
    have hth' : s.seen.workers i = some th.seen := by simp [seen, hth]
    have hexited : th.seen.pc = .exited := if_pos hpc
    rw [seen_update]
    simp only [System.threadCall, hth', if_pos hexited]
    exact if_pos rfl
  | @busy i th hth hpc =>
    have hth' : s.seen.workers i = some th.seen := by simp [seen, hth]
    have hexited : th.seen.pc ≠ .exited := by simp [HeapWorker.seen, hpc]
    simp only [System.threadCall, hth', if_neg hexited, if_true]
    rfl
  | quiet hmoves hjoin => exact System.threadCall_quiet hmoves hjoin

/-- The main thread's steps need nothing of the threads but what it sees. -/
theorem seen_step (h : s.step ops b (.main e choice) = some s') :
    s.seen.step ops b (.thread .main e choice) = some s'.seen := by
  obtain ⟨halive, hmain, hkernel, -, hthreads⟩ := step_main h
  have hthreads' := seen_threadCall hthreads
  refine (if_pos halive).trans ?_
  exact Option.bind_eq_some_iff.mpr ⟨_, hmain, Option.bind_eq_some_iff.mpr ⟨_, hkernel,
    Option.bind_eq_some_iff.mpr ⟨_, hthreads', rfl⟩⟩⟩

theorem held_of_thread {i : ℕ} {th : HeapWorker} (hth : s.threads i = some th) (r : Buf × Part) :
    s.held (i, r) = th.held s.memory r := by
  simp only [held, hth, Option.bind_some]

theorem held_of_none {i : ℕ} (hth : s.threads i = none) (r : Buf × Part) :
    s.held (i, r) = none := by
  simp only [held, hth, Option.bind_none]

theorem held_congr {m' : Memory} {th : HeapWorker} {m : Memory}
    (hsame : ∀ r a, th.held m r = some a → m' a = m a) : th.held m' = th.held m := by
  funext ⟨x, part⟩
  cases part with
  | struct => rfl
  | block => exact Memory.blockOf_congr fun a ha => hsame (x, .struct) a ha

theorem fits_congr {m m' : Memory} {th : HeapWorker}
    (hsame : ∀ r a, th.held m r = some a → m' a = m a)
    (h : ∀ x, Fits m (th.pc.stage x) (th.pointer x)) (x : Buf) :
    Fits m' (th.pc.stage x) (th.pointer x) := by
  apply (h x).congr
  rintro a (ha | ha)
  · exact hsame (x, .struct) a ha
  · exact hsame (x, .block) a ha

theorem held_returned {m : Memory} {th : HeapWorker}
    (h : ∀ x, Fits m (th.pc.stage x) (th.pointer x)) (hpc : th.pc = .returned) (r : Buf × Part) :
    th.held m r = none := by
  obtain ⟨x, part⟩ := r
  have hx : th.pointer x = none := by
    apply HeapWorker.pointer_of_absent (m := m)
    have := h x
    rwa [hpc] at this
  cases part with
  | struct => exact hx
  | block => simp only [HeapWorker.held, hx, Memory.blockOf_none]

theorem ok_start (node : σ) (reserved : Fd → Bool) : (start node reserved).Ok where
  referred := referred_start node reserved
  listed := listed_start node reserved
  blocks := by simp [start, System.start]
  fits := by simp [start]
  accounts := accounts_of_none (by simp [start, Memory.Live]) (by simp [held, start])

theorem Ok.live (h : s.Ok) {i : ℕ} {th : HeapWorker} (hth : s.threads i = some th)
    {r : Buf × Part} {a : ℕ} (ha : th.held s.memory r = some a) : s.memory.Live a :=
  (h.accounts.live_iff a).mpr ⟨(i, r), (held_of_thread hth r).trans ha⟩

theorem Ok.thread (h : s.Ok) {i : ℕ} {th : HeapWorker} (hth : s.threads i = some th) :
    th.Ok s.memory where
  fits := (h.fits i th hth).2
  started := (h.fits i th hth).1
  alone := by
    intro r r' a ha ha'
    have hi := h.accounts.alone (i, r) (i, r') a ((held_of_thread hth r).trans ha)
      ((held_of_thread hth r').trans ha')
    exact congrArg Prod.snd hi

theorem Ok.main_step (h : s.Ok) (hs : s.step ops b (.main e choice) = some s') : s'.Ok := by
  have hseen := seen_step hs
  obtain ⟨-, -, hkernel, hmemory, hthreads⟩ := step_main hs
  obtain ⟨hlive, hsame⟩ := Memory.mainCall_spec hmemory
  have hthread := threadCall_threads hthreads
  have hkept {i : ℕ} {th : HeapWorker} (hth : s.threads i = some th) {r : Buf × Part} {a : ℕ}
      (ha : th.held s.memory r = some a) : s'.memory a = s.memory a := hsame a (h.live hth ha)
  refine ⟨(h.referred.main_step h.listed hseen).1, h.listed.main_step hseen, ?_, ?_, ?_⟩
  · intro a ha
    rcases call_blocks hkernel ha with rfl | ⟨hold, hfree⟩
    · exact Memory.mainCall_malloc hmemory
    · exact Memory.mainCall_other hmemory (h.blocks a hold) hfree
  · intro i th hth
    rcases hthread i with hold | ⟨-, data, fd, hnew⟩ | ⟨th', -, -, hgone⟩
    · have hth' : s.threads i = some th := hold ▸ hth
      obtain ⟨hstarted, hfits⟩ := h.fits i th hth'
      exact ⟨hstarted, fits_congr (fun _ _ => hkept hth') hfits⟩
    · cases hnew.symm.trans hth
      exact ⟨by simp [HeapWorker.create], fun x => .absent⟩
    · cases hgone.symm.trans hth
  · apply h.accounts.congr hlive
    funext ⟨i, r⟩
    rcases hthread i with hold | ⟨hnone, data, fd, hnew⟩ | ⟨th, hth, hpc, hgone⟩
    · cases hth : s.threads i with
      | none => rw [held_of_none hth, held_of_none (hold.trans hth)]
      | some th =>
        rw [held_of_thread hth, held_of_thread (hold.trans hth)]
        exact congrFun (held_congr fun _ _ => hkept hth) r
    · rw [held_of_none hnone, held_of_thread hnew]
      obtain ⟨x, part⟩ := r
      cases part <;> rfl
    · rw [held_of_none hgone, held_of_thread hth, held_returned (h.fits i th hth).2 hpc]

/-- What another thread holds stays where it is in a step of thread `i`. -/
theorem Ok.others (h : s.Ok) {i j : ℕ} {th th₁ : HeapWorker} {m' : Memory}
    (hth : s.threads i = some th) (hth₁ : s.threads j = some th₁) (hj : j ≠ i)
    (hframe : ∀ a, s.memory a ≠ none → (∀ r, th.held s.memory r ≠ some a) → m' a = s.memory a)
    (r : Buf × Part) (a : ℕ) (ha : th₁.held s.memory r = some a) : m' a = s.memory a := by
  obtain ⟨cell, hcell, -⟩ := h.live hth₁ ha
  refine hframe a (by simp [hcell]) fun r' hr' => hj ?_
  have hboth := h.accounts.alone (j, r) (i, r') a ((held_of_thread hth₁ r).trans ha)
    ((held_of_thread hth r').trans hr')
  exact congrArg Prod.fst hboth

theorem Ok.seen_worker (h : s.Ok) {i : ℕ} {th th' : HeapWorker} (hth : s.threads i = some th)
    (haddr : th'.data.addr = th.data.addr) (hmain : s'.main = s.main)
    (hblocks : ∀ a, s.kernel.blocks a = true → s'.kernel.blocks a = true)
    (hself : s'.threads i = some th') (hothers : ∀ j, j ≠ i → s'.threads j = s.threads j) :
    Referred s'.seen ∧ Listed s'.seen := by
  constructor
  · refine h.referred.mono (fun holder a hrefers => ?_) hblocks
    cases holder with
    | thread j =>
      obtain ⟨w, hw, rfl⟩ := hrefers
      by_cases hj : j = i
      · subst hj
        obtain rfl : th'.seen = w := by simpa [seen, hself] using hw
        exact ⟨th.seen, by simp [seen, hth], haddr.symm⟩
      · exact ⟨w, by simpa [seen, hothers j hj] using hw, rfl⟩
    | itemVar | dataVar | item =>
      simp only [System.Refers, seen, hmain] at hrefers
      exact hrefers
  · refine h.listed.keep (fun j => ?_) ?_ ?_ ?_
    · by_cases hj : j = i
      · subst hj
        simp [seen, hth, hself]
      · simp only [seen, hothers j hj]
    all_goals simp only [seen, hmain]
    exact h.listed.visits

theorem Ok.worker_step (h : s.Ok) {i : ℕ} {e : HeapEvent}
    (hs : s.step ops b (.worker i e choice) = some s') : s'.Ok := by
  obtain ⟨-, hmain, th, th', hth, hstep, hcall, hthreads⟩ := step_worker hs
  have hmoves := HeapWorker.step_moves hstep
  obtain ⟨heffect, hframe, hfits⟩ := hmoves.stepped (h.thread hth)
  have hblocks := hmoves.call_blocks hcall
  have hself : s'.threads i = some th' := by rw [hthreads, Function.update_self]
  have hothers : ∀ j, j ≠ i → s'.threads j = s.threads j := by
    intro j hj
    rw [hthreads, Function.update_of_ne hj]
  obtain ⟨hreferred, hlisted⟩ := h.seen_worker hth hmoves.data_eq.1 hmain
    (fun a ha => (hblocks a).mpr ha) hself hothers
  refine ⟨hreferred, hlisted, ?_, ?_, ?_⟩
  · intro a ha
    have hold : s.memory a = some .other := h.blocks a ((hblocks a).mp ha)
    rw [hframe a (by simp [hold]), hold]
    intro r hr
    obtain ⟨cell, hcell, hne⟩ := h.live hth hr
    cases hcell.symm.trans hold
    exact hne rfl
  · intro j th₁ hth₁
    by_cases hj : j = i
    · subst hj
      cases hself.symm.trans hth₁
      exact ⟨hmoves.started, hfits⟩
    · rw [hothers j hj] at hth₁
      obtain ⟨hstarted, hfits₁⟩ := h.fits j th₁ hth₁
      exact ⟨hstarted, fits_congr (h.others hth hth₁ hj hframe) hfits₁⟩
  · apply Effect.accounts (i := i) ?_ ?_ h.accounts
    · rw [show (fun r => s.held (i, r)) = th.held s.memory from funext (held_of_thread hth),
        show (fun r => s'.held (i, r)) = th'.held s'.memory from funext (held_of_thread hself)]
      exact heffect
    · intro j r hj
      cases hth₁ : s.threads j with
      | none => rw [held_of_none hth₁, held_of_none ((hothers j hj).trans hth₁)]
      | some th₁ =>
        rw [held_of_thread hth₁, held_of_thread ((hothers j hj).trans hth₁)]
        exact congrFun (held_congr (h.others hth hth₁ hj hframe)) r

theorem Ok.kernel (h : s.Ok) {kernel : Kernel σ} (hblocks : kernel.blocks = s.kernel.blocks) :
    ({ s with kernel := kernel } : HeapSystem σ).Ok where
  referred := h.referred.mono (fun _ _ h => h) fun _ ha => hblocks ▸ ha
  listed := h.listed.keep (fun _ => Iff.rfl) rfl rfl h.listed.visits
  blocks := fun a ha => h.blocks a (hblocks ▸ ha)
  fits := h.fits
  accounts := h.accounts

theorem Ok.step (h : s.Ok) {l : HeapLabel χ} (hs : s.Step ops b l s') : s'.Ok := by
  obtain ⟨-, hs⟩ := hs
  cases l with
  | main e choice => exact h.main_step hs
  | worker i e choice => exact h.worker_step hs
  | signal sig =>
    obtain ⟨-, -, rfl⟩ := step_signal hs
    exact h.kernel (deliver_blocks s.kernel sig)
  | disconnect c =>
    obtain ⟨-, -, rfl⟩ := step_disconnect hs
    exact h.kernel rfl

theorem run_ok {node : σ} {reserved : Fd → Bool} {tr : List (HeapLabel χ)}
    (hrun : Run (Step ops b) (start node reserved) tr s) : s.Ok :=
  hrun.invariant (P := fun _ s => s.Ok) (ok_start node reserved)
    fun _ _ _ _ _ h hs => h.step hs

theorem Ok.main_block (h : s.Ok) {holder : Holder} {a : ℕ} (ha : s.Refers (.main holder) a) :
    s.memory a = some .other := h.blocks a (h.referred.live holder a ha)

theorem Ok.buffer_block (h : s.Ok) {i : ℕ} {r : Buf × Part} {a : ℕ}
    (ha : s.Refers (.buffer i r) a) : s.memory.Live a :=
  (h.accounts.live_iff a).mpr ⟨(i, r), ha⟩

theorem Ok.refers_live (h : s.Ok) {p : Pointer} {a : ℕ} (ha : s.Refers p a) :
    s.memory a ≠ none := by
  cases p with
  | main holder => simp [h.main_block ha]
  | buffer i r =>
    obtain ⟨cell, hcell, -⟩ := h.buffer_block ha
    simp [hcell]

theorem Ok.refers_alone (h : s.Ok) {p p' : Pointer} {a : ℕ} (ha : s.Refers p a)
    (ha' : s.Refers p' a) : p = p' := by
  cases p with
  | main holder =>
    cases p' with
    | main holder' => exact congrArg Pointer.main (h.referred.alone holder holder' a ha ha')
    | buffer i r =>
      obtain ⟨cell, hcell, hne⟩ := h.buffer_block ha'
      cases hcell.symm.trans (h.main_block ha)
      exact absurd rfl hne
  | buffer i r =>
    cases p' with
    | main holder =>
      obtain ⟨cell, hcell, hne⟩ := h.buffer_block ha
      cases hcell.symm.trans (h.main_block ha')
      exact absurd rfl hne
    | buffer j r' =>
      cases h.accounts.alone (i, r) (j, r') a ha ha'
      rfl

/-- A block that is gone after a step was the thread's own. -/
theorem Ok.releases (h : s.Ok) {l : HeapLabel χ} (hs : s.Step ops b l s') {a : ℕ}
    (ha : s.memory a ≠ none) (ha' : s'.memory a = none) :
    ∃ p, l.thread = some p.owner ∧ s.Refers p a := by
  obtain ⟨-, hs⟩ := hs
  cases l with
  | main e choice =>
    obtain ⟨-, -, -, hmemory, -⟩ := step_main hs
    obtain rfl := Memory.mainCall_gone hmemory ha ha'
    obtain ⟨holder, hholder⟩ := ((h.referred.main_step h.listed (seen_step hs)).2 a rfl).1
    exact ⟨.main holder, rfl, hholder⟩
  | worker i e choice =>
    obtain ⟨-, -, th, th', hth, hstep, -, -⟩ := step_worker hs
    by_contra hnone
    have hframe := ((HeapWorker.step_moves hstep).stepped (h.thread hth)).frame a ha
    refine ha ((hframe fun r hr => hnone ?_).symm.trans ha')
    exact ⟨.buffer i r, rfl, (held_of_thread hth r).trans hr⟩
  | signal sig =>
    obtain ⟨-, -, rfl⟩ := step_signal hs
    exact absurd ha' ha
  | disconnect c =>
    obtain ⟨-, -, rfl⟩ := step_disconnect hs
    exact absurd ha' ha

end HeapSystem

open HeapSystem in
/-- For every schedule and whatever fails: each block that a local variable, the list or a thread
refers to is live and nothing else refers to it; each live block that a thread has allocated is
referred to by a thread that has not returned; `free` in the main thread gets a live block, and a
thread finds what its next step accesses or frees, unless the `malloc` of a `struct BufferData` has
failed; and a step releases only blocks of its own thread, to which nothing refers afterwards. -/
theorem thread_blocks_safe {σ χ : Type} (ops : FileOps σ χ) (b : Build) (node : σ)
    (reserved : Fd → Bool) {tr : List (HeapLabel χ)} {s : HeapSystem σ}
    (hrun : Run (HeapSystem.Step ops b) (HeapSystem.start node reserved) tr s) :
    (∀ p a, s.Refers p a → s.memory a ≠ none) ∧
      (∀ p p' a, s.Refers p a → s.Refers p' a → p = p') ∧
      (∀ a, s.memory.Live a → ∃ i th r, s.threads i = some th ∧ th.pc ≠ .returned ∧
        th.held s.memory r = some a) ∧
      (∀ a main, s.main.step b (.free a) = some main → s.memory a = some .other) ∧
      (∀ i th, s.threads i = some th → th.pc ≠ .returned →
        (∃ x, th.pc.stage x = .raw ∧ th.pointer x = none) ∨
          (∃ pc w, th.pc = .run pc ∧ th.view s.memory pc = some w ∧
            ∀ e w' a, w.step b e = some w' → e ≠ .exitThread → s.memory a = none →
              ∃ moved, (th.step b s.memory (.call e moved)).isSome) ∨
          ∃ e, (th.step b s.memory e).isSome) ∧
      ∀ l s' a, s.Step ops b l s' → s.memory a ≠ none → s'.memory a = none →
        (∃ p, l.thread = some p.owner ∧ s.Refers p a) ∧ ∀ p, ¬ s'.Refers p a := by
  have h := run_ok hrun
  refine ⟨fun p a => h.refers_live, fun p p' a => h.refers_alone, ?_, ?_, ?_, ?_⟩
  · intro a ha
    obtain ⟨⟨i, r⟩, hheld⟩ := (h.accounts.live_iff a).mp ha
    obtain ⟨th, hth, hr⟩ := Option.bind_eq_some_iff.mp hheld
    refine ⟨i, th, r, hth, fun hpc => ?_, hr⟩
    cases (held_returned (h.fits i th hth).2 hpc r).symm.trans hr
  · intro a main hstep
    cases Main.step_next hstep with
    | @freesItem item data rest hpc =>
      have hrefers : s.Refers (.main .itemVar) item.addr := by
        simp only [Refers, System.Refers, seen, Main.itemVar, hpc]
      exact h.main_block hrefers
    | freesData hpc =>
      have hrefers : s.Refers (.main .dataVar) a := by
        simp only [Refers, System.Refers, seen, Main.dataVar, hpc]
      exact h.main_block hrefers
    | stamps hpc hstamp | stamped hpc hstamp => exact absurd rfl (hstamp.not_free a)
  · intro i th hth hpc
    exact (h.thread hth).goes_on b hpc
  · intro l s' a hs ha ha'
    exact ⟨h.releases hs ha ha', fun p hp => (h.step hs).refers_live hp ha'⟩

def HeapLabel.Posix {χ : Type} : HeapLabel χ → Prop
  | .main e _ | .worker _ (.call e _) _ => e.Posix
  | _ => True

instance HeapLabel.decidablePosix {χ : Type} (l : HeapLabel χ) : Decidable l.Posix := by
  unfold HeapLabel.Posix
  split <;> infer_instance

theorem heapStep_of_posix {b : Build} {s s' : HeapSystem (List Driver.Byte)} {l : HeapLabel Unit}
    (hl : l.Posix) (hs : s.step regularFile b l = some s') : s.Step regularFile b l s' := by
  refine ⟨?_, hs⟩
  cases l with
  | main e choice =>
    refine ⟨hl, ?_⟩
    split <;> trivial
  | worker i e choice =>
    cases e with
    | call e moved =>
      refine ⟨hl, ?_⟩
      split <;> trivial
    | _ => trivial
  | signal sig => trivial
  | disconnect c => trivial

/-- The thread of a client that hangs up, with its three blocks from `a` on. -/
def hangsUpFreeing (fd conn a : ℕ) : List HeapEvent :=
  [.mallocStruct (some a), .compute, .mallocStruct (some (a + 1)),
    .mallocBuffer (some (a + 2, List.replicate 1024 0)), .call (.loadSignal false) none,
    .call (.recv fd conn 1024 (some [])) none, .call (.loadSignal false) none,
    .call .compute none, .compute, .compute, .free a, .free (a + 2), .free (a + 1), .exitThread]

/-- Of two clients the second one hangs up while the thread of the first one is in `recv`. -/
def secondFrees : List (HeapLabel Unit) :=
  twoClients.filterMap (fun l => match l with
    | .thread .main e choice => some (.main e choice)
    | _ => none) ++
  ((hangsUpFreeing 3 0 10).take 5).map (fun e => .worker 0 e ()) ++
  ((hangsUpFreeing 4 1 20).take 11).map fun e => .worker 1 e ()

theorem secondFrees_safe : ∃ s s', Run (HeapSystem.Step regularFile fileBuild)
    (HeapSystem.start [] fun _ => false) secondFrees s ∧
      s.Step regularFile fileBuild (.worker 1 (.free 22) ()) s' ∧ s'.memory 22 = none ∧
      (∃ p, p.owner = .worker 1 ∧ s.Refers p 22) ∧ ∀ p, ¬ s'.Refers p 22 := by
  have hfrees : ((secondFrees.foldlM (HeapSystem.step regularFile fileBuild)
      (HeapSystem.start [] fun _ => false)).bind fun s =>
        (s.step regularFile fileBuild (.worker 1 (.free 22) ())).map fun s' =>
          ((s.memory 22).isSome, s'.memory 22)) = some (true, none) := by
    decide +kernel
  obtain ⟨s, hs, hfrees⟩ := Option.bind_eq_some_iff.mp hfrees
  obtain ⟨s', hs', hcells⟩ := Option.map_eq_some_iff.mp hfrees
  have hlive : s.memory 22 ≠ none := Option.isSome_iff_ne_none.mp (congrArg Prod.fst hcells)
  have hgone : s'.memory 22 = none := congrArg Prod.snd hcells
  have hrun : Run (HeapSystem.Step regularFile fileBuild) (HeapSystem.start [] fun _ => false)
      secondFrees s :=
    (Run.of_foldlM (P := HeapLabel.Posix) (by decide +kernel) hs).mono
      fun _ _ _ h => heapStep_of_posix h.1 h.2
  have hstep : s.Step regularFile fileBuild (.worker 1 (.free 22) ()) s' :=
    heapStep_of_posix trivial hs'
  obtain ⟨⟨p, hp, hrefers⟩, hnone⟩ := (thread_blocks_safe regularFile fileBuild []
    (fun _ => false) hrun).2.2.2.2.2 _ _ _ hstep hlive hgone
  exact ⟨s, s', hrun, hstep, hgone, ⟨p, (Option.some.inj hp).symm, hrefers⟩, hnone⟩

end Aesd.Server
