import Aesd.Lib.Claims
import Aesd.Lib.Runs

/-! `start_thread_obtaining_mutex` and `threadfunc`: any number of callers start any number of
threads on any mutexes, and the threads are joined. An access outside a live block and a signed
overflow have no result. -/
namespace Aesd.Threading
open Claims Runs

/-- `struct thread_data`. -/
structure ThreadData where
  mutexPtr : ℕ
  waitToObtainMs : ℤ
  waitToReleaseMs : ℤ
  threadCompleteSuccess : Bool
  deriving DecidableEq

/-- The arguments of `start_thread_obtaining_mutex`. -/
structure StartArgs where
  mutex : ℕ
  waitToObtainMs : ℤ
  waitToReleaseMs : ℤ
  deriving DecidableEq

/-- What `start_thread_obtaining_mutex` puts into the block. -/
def StartArgs.data (args : StartArgs) : ThreadData :=
  ⟨args.mutex, args.waitToObtainMs, args.waitToReleaseMs, false⟩

/-- `ms * 1000` in `int`, as the `useconds_t` that `usleep` gets. -/
def usleepArg (ms : ℤ) : Option ℕ :=
  if -2 ^ 31 ≤ ms * 1000 ∧ ms * 1000 < 2 ^ 31 then some (ms * 1000 % 2 ^ 32).toNat else none

def TooLong (ms : ℤ) : Prop := ms < -2147483 ∨ 2147483 < ms

theorem usleepArg_eq_none_iff (ms : ℤ) : usleepArg ms = none ↔ TooLong ms := by
  unfold usleepArg TooLong
  split
  · simp only [reduceCtorEq, false_iff]
    omega
  · simp only [true_iff]
    omega

/-- The call that `threadfunc` makes next, or its last assignment. -/
inductive ThreadPc where
  | sleepToObtain
  | lock
  | sleepToRelease
  | unlock (usleepReturn : ℤ)
  | complete (success : Bool)
  | returned
  deriving DecidableEq

/-- A step of `threadfunc`, with its arguments and what the C library returns. -/
inductive ThreadEvent where
  | usleep (usec : ℕ) (rc : ℤ)
  | mutexLock (mutex : ℕ) (rc : ℤ)
  | mutexUnlock (mutex : ℕ) (rc : ℤ)
  | compute
  deriving DecidableEq

/-- One step, with the thread's data before and after. -/
def threadfunc (data : ThreadData) : ThreadPc → ThreadEvent → Option (ThreadPc × ThreadData)
  | .sleepToObtain, .usleep usec rc =>
    if usleepArg data.waitToObtainMs = some usec then
      some (if rc = -1 then .complete false else .lock, data)
    else none
  | .lock, .mutexLock mutex rc =>
    if mutex = data.mutexPtr then
      some (if rc ≠ 0 then .complete false else .sleepToRelease, data)
    else none
  | .sleepToRelease, .usleep usec rc =>
    if usleepArg data.waitToReleaseMs = some usec then some (.unlock rc, data) else none
  | .unlock usleepReturn, .mutexUnlock mutex rc =>
    if mutex = data.mutexPtr then
      some (.complete (if usleepReturn = -1 then false else if rc ≠ 0 then false else true), data)
    else none
  | .complete success, .compute =>
    some (.returned, { data with threadCompleteSuccess := success })
  | _, _ => none

/-- Between `pthread_mutex_lock` and `pthread_mutex_unlock`. -/
def ThreadPc.critical : ThreadPc → Bool
  | .sleepToRelease => true
  | .unlock _ => true
  | _ => false

def ThreadEvent.succeeds : ThreadEvent → Bool
  | .usleep _ rc => rc = 0
  | .mutexLock _ rc => rc = 0
  | .mutexUnlock _ rc => rc = 0
  | .compute => true

inductive Advances (data : ThreadData) : ThreadPc → ThreadEvent → ThreadPc × ThreadData → Prop where
  | sleepFails {usec : ℕ} (harg : usleepArg data.waitToObtainMs = some usec) :
      Advances data .sleepToObtain (.usleep usec (-1)) (.complete false, data)
  | sleeps {usec : ℕ} {rc : ℤ} (harg : usleepArg data.waitToObtainMs = some usec) (hrc : rc ≠ -1) :
      Advances data .sleepToObtain (.usleep usec rc) (.lock, data)
  | lockFails {rc : ℤ} (hrc : rc ≠ 0) :
      Advances data .lock (.mutexLock data.mutexPtr rc) (.complete false, data)
  | locks : Advances data .lock (.mutexLock data.mutexPtr 0) (.sleepToRelease, data)
  | sleepsAgain {usec : ℕ} {rc : ℤ} (harg : usleepArg data.waitToReleaseMs = some usec) :
      Advances data .sleepToRelease (.usleep usec rc) (.unlock rc, data)
  | unlocks {usleepReturn rc : ℤ} :
      Advances data (.unlock usleepReturn) (.mutexUnlock data.mutexPtr rc)
        (.complete (if usleepReturn = -1 then false else if rc ≠ 0 then false else true), data)
  | completes {success : Bool} : Advances data (.complete success) .compute
      (.returned, { data with threadCompleteSuccess := success })

theorem threadfunc_advances {data : ThreadData} {pc : ThreadPc} {e : ThreadEvent}
    {next : ThreadPc × ThreadData} (h : threadfunc data pc e = some next) :
    Advances data pc e next := by
  unfold threadfunc at h
  split at h
  · obtain ⟨harg, h⟩ := Option.ite_none_right_eq_some.mp h
    cases h
    split
    next hrc => exact hrc ▸ .sleepFails harg
    next hrc => exact .sleeps harg hrc
  · obtain ⟨hmutex, h⟩ := Option.ite_none_right_eq_some.mp h
    cases h
    subst hmutex
    split
    next hrc => exact .lockFails hrc
    next hrc =>
      obtain rfl := not_not.mp hrc
      exact .locks
  · obtain ⟨harg, h⟩ := Option.ite_none_right_eq_some.mp h
    cases h
    exact .sleepsAgain harg
  · obtain ⟨hmutex, h⟩ := Option.ite_none_right_eq_some.mp h
    cases h
    subst hmutex
    exact .unlocks
  · cases h
    exact .completes
  · cases h

/-- A thread that was started here, or anything else in the process. -/
inductive Holder where
  | thread (t : ℕ)
  | outside
  deriving DecidableEq

/-- Who holds each mutex after a call of thread `t`. A mutex that is held makes its caller wait, and
unlocking one's own mutex does not fail. -/
def mutexCall (holder : ℕ → Option Holder) (t : ℕ) : ThreadEvent → Option (ℕ → Option Holder)
  | .usleep _ rc => if rc = 0 ∨ rc = -1 then some holder else none
  | .mutexLock mutex rc =>
    if rc ≠ 0 then some holder
    else if holder mutex = none then some (Function.update holder mutex (some (.thread t)))
    else none
  | .mutexUnlock mutex rc =>
    if rc = 0 ∧ holder mutex = some (.thread t) then some (Function.update holder mutex none)
    else none
  | .compute => some holder

section
variable {holder holder' : ℕ → Option Holder} {t mutex : ℕ} {rc : ℤ}

theorem mutexCall_usleep {usec : ℕ} (h : mutexCall holder t (.usleep usec rc) = some holder') :
    (rc = 0 ∨ rc = -1) ∧ holder' = holder := by
  simp only [mutexCall] at h
  split at h <;> cases h
  exact ⟨‹_›, rfl⟩

theorem mutexCall_lock (h : mutexCall holder t (.mutexLock mutex 0) = some holder') :
    holder mutex = none ∧ holder' = Function.update holder mutex (some (.thread t)) := by
  simp only [mutexCall, ne_eq, not_true_eq_false, if_false] at h
  split at h <;> cases h
  exact ⟨‹_›, rfl⟩

theorem mutexCall_unlock (h : mutexCall holder t (.mutexUnlock mutex rc) = some holder') :
    rc = 0 ∧ holder mutex = some (.thread t) ∧ holder' = Function.update holder mutex none := by
  simp only [mutexCall] at h
  split at h <;> cases h
  next hheld => exact ⟨hheld.1, hheld.2, rfl⟩

end

/-- Where a call of `start_thread_obtaining_mutex` is: its next call or assignments, with the block
it has. -/
inductive StartPc where
  | idle
  | malloc (args : StartArgs)
  | setup (args : StartArgs) (data : ℕ)
  | create (args : StartArgs) (data : ℕ)
  | free (data : ℕ)
  | returned (thread : Option ℕ)
  deriving DecidableEq

/-- A step of a caller. A block comes with what was in it, and a thread with its `pthread_t`. -/
inductive StartEvent where
  | call (args : StartArgs)
  | malloc (got : Option (ℕ × ThreadData))
  | compute
  | pthreadCreate (thread : Option ℕ)
  | free
  | ret (thread : Option ℕ)
  deriving DecidableEq

def StartPc.data : StartPc → Option ℕ
  | .setup _ a => some a
  | .create _ a => some a
  | .free a => some a
  | _ => none

structure Thread where
  pc : ThreadPc
  data : ℕ
  deriving DecidableEq

/-- The callers are named by `ι`, the threads by `pthread_t`; a thread that was joined is gone. -/
structure Process (ι : Type) where
  blocks : ℕ → Option ThreadData
  holder : ℕ → Option Holder
  threads : ℕ → Option Thread
  callers : ι → StartPc

/-- A step of a caller or of a thread; a join, after which the joiner frees the block; or the rest
of the process locks or unlocks a mutex. -/
inductive Label (ι : Type) where
  | caller (c : ι) (e : StartEvent)
  | thread (t : ℕ) (e : ThreadEvent)
  | join (t : ℕ) (success : Bool)
  | outsideLock (mutex : ℕ)
  | outsideUnlock (mutex : ℕ)
  deriving DecidableEq

namespace Process

variable {ι : Type} [DecidableEq ι]

def start (ι : Type) : Process ι := ⟨fun _ => none, fun _ => none, fun _ => none, fun _ => .idle⟩

def setCaller (s : Process ι) (c : ι) (pc : StartPc) : Process ι :=
  { s with callers := Function.update s.callers c pc }

def setBlock (s : Process ι) (a : ℕ) (data : Option ThreadData) : Process ι :=
  { s with blocks := Function.update s.blocks a data }

def setThread (s : Process ι) (t : ℕ) (thread : Option Thread) : Process ι :=
  { s with threads := Function.update s.threads t thread }

/-- `start_thread_obtaining_mutex`, one step. -/
def callerStep (s : Process ι) (c : ι) : StartPc → StartEvent → Option (Process ι)
  | .idle, .call args => some (s.setCaller c (.malloc args))
  | .malloc _, .malloc none => some (s.setCaller c (.returned none))
  | .malloc args, .malloc (some (a, data)) =>
    if s.blocks a = none then
      some ((s.setBlock a (some data)).setCaller c (.setup args a))
    else none
  | .setup args a, .compute =>
    if s.blocks a = none then none
    else some ((s.setBlock a (some args.data)).setCaller c (.create args a))
  | .create _ a, .pthreadCreate none => some (s.setCaller c (.free a))
  | .create _ a, .pthreadCreate (some t) =>
    if s.threads t = none then
      some ((s.setThread t (some ⟨.sleepToObtain, a⟩)).setCaller c (.returned (some t)))
    else none
  | .free a, .free =>
    if s.blocks a = none then none else some ((s.setBlock a none).setCaller c (.returned none))
  | .returned thread, .ret thread' =>
    if thread' = thread then some (s.setCaller c .idle) else none
  | _, _ => none

def step (s : Process ι) : Label ι → Option (Process ι)
  | .caller c e => s.callerStep c (s.callers c) e
  | .thread t e => do
    let thread ← s.threads t
    let data ← s.blocks thread.data
    let next ← threadfunc data thread.pc e
    let holder ← mutexCall s.holder t e
    some { (s.setBlock thread.data (some next.2)).setThread t (some ⟨next.1, thread.data⟩) with
      holder := holder }
  | .join t success => do
    let thread ← s.threads t
    let data ← s.blocks thread.data
    if thread.pc = .returned ∧ success = data.threadCompleteSuccess then
      some ((s.setBlock thread.data none).setThread t none)
    else none
  | .outsideLock mutex =>
    if s.holder mutex = none then
      some { s with holder := Function.update s.holder mutex (some .outside) }
    else none
  | .outsideUnlock mutex =>
    if s.holder mutex = some .outside then
      some { s with holder := Function.update s.holder mutex none }
    else none

def Step (s : Process ι) (l : Label ι) (s' : Process ι) : Prop := s.step l = some s'

def held (s : Process ι) : ι ⊕ ℕ → Option ℕ
  | .inl c => (s.callers c).data
  | .inr t => (s.threads t).map Thread.data

end Process

/-- Threads that share the mutexes and nothing else. -/
@[ext]
structure Crew where
  member : ℕ → Option (ThreadPc × ThreadData)
  holder : ℕ → Option Holder

/-- What a label does to the threads. -/
inductive Crew.Step {ι : Type} (w : Crew) : Label ι → Crew → Prop where
  | quiet {c : ι} {e : StartEvent} (he : ∀ t, e ≠ .pthreadCreate (some t)) : Step w (.caller c e) w
  | starts {c : ι} {t : ℕ} (args : StartArgs) (hfree : w.member t = none) :
      Step w (.caller c (.pthreadCreate (some t)))
        { w with member := Function.update w.member t (some (.sleepToObtain, args.data)) }
  | thread {t : ℕ} {e : ThreadEvent} {pc : ThreadPc} {data : ThreadData}
      {next : ThreadPc × ThreadData} {holder : ℕ → Option Holder}
      (ht : w.member t = some (pc, data)) (hnext : threadfunc data pc e = some next)
      (hcall : mutexCall w.holder t e = some holder) :
      Step w (.thread t e) ⟨Function.update w.member t (some next), holder⟩
  | join {t : ℕ} {data : ThreadData} (ht : w.member t = some (.returned, data)) :
      Step w (.join t data.threadCompleteSuccess)
        { w with member := Function.update w.member t none }
  | outsideLock {mutex : ℕ} (hfree : w.holder mutex = none) : Step w (.outsideLock mutex)
      { w with holder := Function.update w.holder mutex (some .outside) }
  | outsideUnlock {mutex : ℕ} (hheld : w.holder mutex = some .outside) :
      Step w (.outsideUnlock mutex) { w with holder := Function.update w.holder mutex none }

namespace Process

variable {ι : Type} [DecidableEq ι] {s s' : Process ι} {l : Label ι}

def crew (s : Process ι) : Crew where
  member t := (s.threads t).bind fun thread => (s.blocks thread.data).map (thread.pc, ·)
  holder := s.holder

inductive Moves (s : Process ι) : Label ι → Process ι → Prop where
  | quiet {c : ι} {e : StartEvent} {pc : StartPc} (hdata : pc.data = (s.callers c).data)
      (hpc : ∀ args a, pc ≠ .create args a) (he : ∀ t, e ≠ .pthreadCreate (some t)) :
      s.Moves (.caller c e) (s.setCaller c pc)
  | malloc {c : ι} {args : StartArgs} {a : ℕ} {data : ThreadData}
      (hpc : s.callers c = .malloc args) (hfree : s.blocks a = none) :
      s.Moves (.caller c (.malloc (some (a, data))))
        ((s.setBlock a (some data)).setCaller c (.setup args a))
  | setup {c : ι} {args : StartArgs} {a : ℕ} (hpc : s.callers c = .setup args a)
      (hlive : s.blocks a ≠ none) : s.Moves (.caller c .compute)
        ((s.setBlock a (some args.data)).setCaller c (.create args a))
  | create {c : ι} {args : StartArgs} {a t : ℕ} (hpc : s.callers c = .create args a)
      (hfree : s.threads t = none) : s.Moves (.caller c (.pthreadCreate (some t)))
        ((s.setThread t (some ⟨.sleepToObtain, a⟩)).setCaller c (.returned (some t)))
  | free {c : ι} {a : ℕ} (hpc : s.callers c = .free a) (hlive : s.blocks a ≠ none) :
      s.Moves (.caller c .free) ((s.setBlock a none).setCaller c (.returned none))
  | thread {t a : ℕ} {e : ThreadEvent} {pc : ThreadPc} {data : ThreadData}
      {next : ThreadPc × ThreadData} {holder : ℕ → Option Holder}
      (ht : s.threads t = some ⟨pc, a⟩) (ha : s.blocks a = some data)
      (hnext : threadfunc data pc e = some next) (hcall : mutexCall s.holder t e = some holder) :
      s.Moves (.thread t e)
        { (s.setBlock a (some next.2)).setThread t (some ⟨next.1, a⟩) with holder := holder }
  | join {t a : ℕ} {data : ThreadData} (ht : s.threads t = some ⟨.returned, a⟩)
      (ha : s.blocks a = some data) : s.Moves (.join t data.threadCompleteSuccess)
        ((s.setBlock a none).setThread t none)
  | outsideLock {mutex : ℕ} (hfree : s.holder mutex = none) : s.Moves (.outsideLock mutex)
      { s with holder := Function.update s.holder mutex (some .outside) }
  | outsideUnlock {mutex : ℕ} (hheld : s.holder mutex = some .outside) :
      s.Moves (.outsideUnlock mutex) { s with holder := Function.update s.holder mutex none }

theorem callerStep_moves {c : ι} {e : StartEvent}
    (h : s.callerStep c (s.callers c) e = some s') : s.Moves (.caller c e) s' := by
  generalize hpc : s.callers c = pc at h
  unfold callerStep at h
  split at h
  · cases h
    exact .quiet (by rw [hpc]; rfl) (by simp) (by simp)
  · cases h
    exact .quiet (by rw [hpc]; rfl) (by simp) (by simp)
  · split at h <;> cases h
    exact .malloc hpc ‹_›
  · split at h <;> cases h
    exact .setup hpc ‹_›
  · cases h
    exact .quiet (by rw [hpc]; rfl) (by simp) (by simp)
  · split at h <;> cases h
    exact .create hpc ‹_›
  · split at h <;> cases h
    exact .free hpc ‹_›
  · split at h <;> cases h
    exact .quiet (by rw [hpc]; rfl) (by simp) (by simp)
  · cases h

theorem step_moves (h : s.Step l s') : s.Moves l s' := by
  unfold Step Process.step at h
  split at h
  · exact callerStep_moves h
  · obtain ⟨⟨pc, a⟩, ht, h⟩ := Option.bind_eq_some_iff.mp h
    obtain ⟨data, ha, h⟩ := Option.bind_eq_some_iff.mp h
    obtain ⟨next, hnext, h⟩ := Option.bind_eq_some_iff.mp h
    obtain ⟨holder, hcall, h⟩ := Option.bind_eq_some_iff.mp h
    cases h
    exact .thread ht ha hnext hcall
  · obtain ⟨⟨pc, a⟩, ht, h⟩ := Option.bind_eq_some_iff.mp h
    obtain ⟨data, ha, h⟩ := Option.bind_eq_some_iff.mp h
    obtain ⟨⟨hpc, hsuccess⟩, h⟩ := Option.ite_none_right_eq_some.mp h
    cases h
    cases hpc
    cases hsuccess
    exact .join ht ha
  · split at h <;> cases h
    exact .outsideLock ‹_›
  · split at h <;> cases h
    exact .outsideUnlock ‹_›

omit [DecidableEq ι] in
@[simp] theorem held_setBlock (s : Process ι) (a : ℕ) (data : Option ThreadData) :
    (s.setBlock a data).held = s.held := rfl

@[simp] theorem held_setCaller (s : Process ι) (c : ι) (pc : StartPc) :
    (s.setCaller c pc).held = Function.update s.held (.inl c) pc.data := by
  funext o
  cases o with
  | inl c' =>
    by_cases hc : c' = c
    · simp [held, setCaller, hc]
    · simp [held, setCaller, hc]
  | inr t => simp [held, setCaller]

@[simp] theorem held_setThread (s : Process ι) (t : ℕ) (thread : Option Thread) :
    (s.setThread t thread).held =
      Function.update s.held (.inr t) (thread.map Thread.data) := by
  funext o
  cases o with
  | inl c => simp [held, setThread]
  | inr t' =>
    by_cases ht : t' = t
    · simp [held, setThread, ht]
    · simp [held, setThread, ht]

/-- Each block is one caller's or one thread's, and a block handed to `pthread_create` is filled. -/
structure Accounted (s : Process ι) : Prop where
  accounts : Accounts (fun a => s.blocks a ≠ none) s.held
  filled : ∀ c args a, s.callers c = .create args a → s.blocks a = some args.data

omit [DecidableEq ι] in
theorem accounted_start : (start ι).Accounted :=
  ⟨accounts_of_none (fun _ h => h rfl) (by rintro (c | t) <;> rfl), by simp [start]⟩

/-- A block that `o` is not concerned with: it is free, or another has it. -/
def Elsewhere (s : Process ι) (o : ι ⊕ ℕ) (a : ℕ) : Prop :=
  s.blocks a = none ∨ ∃ o', o' ≠ o ∧ s.held o' = some a

section
omit [DecidableEq ι]

theorem Accounted.held_live (h : s.Accounted) {o : ι ⊕ ℕ} {a : ℕ} (ho : s.held o = some a) :
    s.blocks a ≠ none := (h.accounts.live_iff a).mpr ⟨o, ho⟩

theorem Accounted.elsewhere_ne (h : s.Accounted) {o : ι ⊕ ℕ} {a a' : ℕ} (ha : s.Elsewhere o a)
    (ho : s.held o = some a') : a' ≠ a := by
  rintro rfl
  rcases ha with hfree | ⟨o', hne, ho'⟩
  · exact h.held_live ho hfree
  · exact hne (h.accounts.alone _ _ _ ho' ho)

theorem Accounted.member_setBlock (h : s.Accounted) {a t : ℕ} (data : Option ThreadData)
    (ha : s.Elsewhere (.inr t) a) : (s.setBlock a data).crew.member t = s.crew.member t := by
  simp only [crew, setBlock]
  cases ht : s.threads t with
  | none => rfl
  | some thread =>
    have hne : thread.data ≠ a := h.elsewhere_ne ha (by simp [held, ht])
    simp [Function.update_of_ne hne]

theorem Accounted.filled_setBlock (h : s.Accounted) {a : ℕ} (data : Option ThreadData) {c : ι}
    (ha : s.Elsewhere (.inl c) a) {args : StartArgs} {a' : ℕ}
    (hpc : s.callers c = .create args a') : (s.setBlock a data).blocks a' = some args.data := by
  have hne : a' ≠ a := h.elsewhere_ne ha (by simp [held, hpc, StartPc.data])
  simp [setBlock, hne, h.filled c args a' hpc]

theorem live_setBlock {a : ℕ} {data : ThreadData} (hlive : s.blocks a ≠ none) (x : ℕ) :
    (s.setBlock a (some data)).blocks x ≠ none ↔ s.blocks x ≠ none := by
  by_cases hx : x = a
  · simp [setBlock, hx, hlive]
  · simp [setBlock, hx]

theorem live_freeBlock (a x : ℕ) :
    (s.setBlock a none).blocks x ≠ none ↔ s.blocks x ≠ none ∧ x ≠ a := by
  by_cases hx : x = a
  · simp [setBlock, hx]
  · simp [setBlock, hx]

end

theorem Accounted.filled_setCaller (h : s.Accounted) {a : ℕ} (data : Option ThreadData) {c : ι}
    (ha : s.blocks a = none ∨ s.held (.inl c) = some a) {pc : StartPc}
    (hpc : ∀ args a', pc = .create args a' → a' = a ∧ data = some args.data) (c' : ι)
    (args : StartArgs) (a' : ℕ)
    (hc' : ((s.setBlock a data).setCaller c pc).callers c' = .create args a') :
    ((s.setBlock a data).setCaller c pc).blocks a' = some args.data := by
  by_cases hc : c' = c
  · subst hc
    obtain ⟨rfl, rfl⟩ := hpc args a' (by simpa [setCaller] using hc')
    simp [setCaller, setBlock]
  · refine h.filled_setBlock data (c := c') ?_ (by simpa [setCaller, setBlock, hc] using hc')
    exact ha.imp_right fun ho => ⟨.inl c, fun he => hc (Sum.inl.inj he).symm, ho⟩

theorem Accounted.quiet (h : s.Accounted) {c : ι} {pc : StartPc}
    (hdata : pc.data = (s.callers c).data) (hpc : ∀ args a, pc ≠ .create args a) :
    (s.setCaller c pc).Accounted := by
  constructor
  · rw [held_setCaller, hdata]
    exact (Function.update_eq_self (.inl c) s.held).symm ▸ h.accounts
  · intro c' args a hc'
    by_cases hc : c' = c
    · subst hc
      exact absurd (by simpa [setCaller] using hc') (hpc args a)
    · exact h.filled c' args a (by simpa [setCaller, hc] using hc')

theorem Accounted.moves (h : s.Accounted) (hm : s.Moves l s') : s'.Accounted := by
  cases hm with
  | quiet hdata hpc => exact h.quiet hdata hpc
  | @malloc c args a data hpc hfree =>
    refine ⟨?_, h.filled_setCaller _ (.inl hfree) (by simp)⟩
    rw [held_setCaller, held_setBlock]
    refine h.accounts.alloc (by simp [held, hpc, StartPc.data]) (fun hlive => hlive hfree)
      fun x => ?_
    by_cases hx : x = a
    · simp [setCaller, setBlock, hx]
    · simp [setCaller, setBlock, hx]
  | @setup c args a hpc hlive =>
    have hheld : s.held (.inl c) = some a := by simp [held, hpc, StartPc.data]
    refine ⟨?_, h.filled_setCaller _ (.inr hheld) (by simp)⟩
    rw [held_setCaller, held_setBlock]
    exact h.accounts.keep hheld (live_setBlock hlive)
  | @create c args a t hpc hfree =>
    have hheld : s.held (.inl c) = some a := by simp [held, hpc, StartPc.data]
    constructor
    · rw [held_setCaller, held_setThread, Function.update_comm (by simp)]
      exact h.accounts.give hheld (by simp [held, hfree])
    · intro c' args' a' hc'
      by_cases hc : c' = c
      · simp [setCaller, hc] at hc'
      · exact h.filled c' args' a' (by simpa [setCaller, setThread, hc] using hc')
  | @free c a hpc hlive =>
    have hheld : s.held (.inl c) = some a := by simp [held, hpc, StartPc.data]
    refine ⟨?_, h.filled_setCaller _ (.inr hheld) (by simp)⟩
    rw [held_setCaller, held_setBlock]
    exact h.accounts.free hheld (live_freeBlock a)
  | @thread t a e pc data next holder ht ha =>
    have hheld : s.held (.inr t) = some a := by simp [held, ht]
    refine ⟨?_, fun c args a' hc => h.filled_setBlock _ (.inr ⟨_, by simp, hheld⟩) hc⟩
    exact (held_setThread (s.setBlock a _) t _).symm ▸
      h.accounts.keep hheld (live_setBlock (h.held_live hheld))
  | @join t a data ht ha =>
    have hheld : s.held (.inr t) = some a := by simp [held, ht]
    refine ⟨?_, fun c args a' hc => h.filled_setBlock none (.inr ⟨_, by simp, hheld⟩) hc⟩
    rw [held_setThread, held_setBlock]
    exact h.accounts.free hheld (live_freeBlock a)
  | outsideLock hfree => exact ⟨h.accounts, h.filled⟩
  | outsideUnlock hheld => exact ⟨h.accounts, h.filled⟩

theorem crew_setCaller (s : Process ι) (c : ι) (pc : StartPc) : (s.setCaller c pc).crew = s.crew :=
  rfl

omit [DecidableEq ι] in
theorem Accounted.crew_setThread (h : s.Accounted) {t a : ℕ} {pc : ThreadPc}
    (ht : s.threads t = some ⟨pc, a⟩) (data : Option ThreadData) (thread : Option Thread) :
    ((s.setBlock a data).setThread t thread).crew.member = Function.update s.crew.member t
      (thread.bind fun th => ((s.setBlock a data).blocks th.data).map (th.pc, ·)) := by
  funext t'
  by_cases hne : t' = t
  · subst hne
    simp [crew, setThread, setBlock]
  · have hother : (s.setBlock a data).crew.member t' = s.crew.member t' :=
      h.member_setBlock data (.inr ⟨.inr t, by simp [Ne.symm hne], by simp [held, ht]⟩)
    rw [Function.update_of_ne hne, ← hother]
    simp [crew, setThread, hne]

omit [DecidableEq ι] in
theorem Accounted.crew_create (h : s.Accounted) {c : ι} {args : StartArgs} {a : ℕ}
    (hpc : s.callers c = .create args a) (t : ℕ) :
    (s.setThread t (some ⟨.sleepToObtain, a⟩)).crew = { s.crew with
      member := Function.update s.crew.member t (some (.sleepToObtain, args.data)) } := by
  refine Crew.ext (funext fun t' => ?_) rfl
  by_cases ht : t' = t
  · simp [crew, setThread, ht, h.filled c args a hpc]
  · simp [crew, setThread, ht]

/-- The threads do not see what their callers do with blocks, nor where blocks lie. -/
theorem Accounted.crew_step (h : s.Accounted) (hm : s.Moves l s') : s.crew.Step l s'.crew := by
  have hcaller {c : ι} {e : StartEvent} {a : ℕ} {pc : StartPc} (data : Option ThreadData)
      (ha : s.blocks a = none ∨ s.held (.inl c) = some a) (he : ∀ t, e ≠ .pthreadCreate (some t)) :
      s.crew.Step (.caller c e) ((s.setBlock a data).setCaller c pc).crew := by
    have hcrew : (s.setBlock a data).crew = s.crew :=
      Crew.ext (funext fun t => h.member_setBlock data (ha.imp_right fun ho => ⟨_, by simp, ho⟩))
        rfl
    rw [crew_setCaller, hcrew]
    exact .quiet he
  cases hm with
  | quiet _ _ he => exact .quiet he
  | malloc hpc hfree => exact hcaller _ (.inl hfree) (by simp)
  | setup hpc => exact hcaller _ (.inr (by simp [held, hpc, StartPc.data])) (by simp)
  | free hpc => exact hcaller _ (.inr (by simp [held, hpc, StartPc.data])) (by simp)
  | @create c args a t hpc hfree =>
    rw [crew_setCaller, h.crew_create hpc]
    exact .starts args (by simp [crew, hfree])
  | @thread t a e pc data next holder ht ha hnext hcall =>
    have hmember := h.crew_setThread ht (some next.2) (some ⟨next.1, a⟩)
    have hcrew : Process.crew { (s.setBlock a (some next.2)).setThread t (some ⟨next.1, a⟩) with
        holder := holder } = ⟨Function.update s.crew.member t (some next), holder⟩ := by
      refine Crew.ext (hmember.trans ?_) rfl
      simp [setBlock]
    rw [hcrew]
    exact .thread (by simp [crew, ht, ha]) hnext hcall
  | @join t a data ht ha =>
    have hcrew : ((s.setBlock a none).setThread t none).crew = { s.crew with
        member := Function.update s.crew.member t none } :=
      Crew.ext (h.crew_setThread ht none none) rfl
    rw [hcrew]
    exact .join (by simp [crew, ht, ha])
  | outsideLock hfree => exact .outsideLock hfree
  | outsideUnlock hheld => exact .outsideUnlock hheld

end Process

end Aesd.Threading
