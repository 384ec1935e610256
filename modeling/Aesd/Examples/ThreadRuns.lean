import Aesd.Examples.Threading

/-! What any number of threads of `start_thread_obtaining_mutex` do to their blocks and mutexes, and
what each reports when it is joined. -/
namespace Aesd.Threading
open Claims Runs

namespace Crew

variable {ι : Type} {w w' : Crew} {l : Label ι} {t : ℕ} {pc : ThreadPc} {data : ThreadData}

def InSection (w : Crew) (m t : ℕ) : Prop :=
  ∃ pc data, w.member t = some (pc, data) ∧ pc.critical = true ∧ data.mutexPtr = m

/-- A thread holds a mutex exactly while it is in its critical section on it. -/
def Exclusive (w : Crew) : Prop := ∀ m t, w.holder m = some (.thread t) ↔ w.InSection m t

theorem exclusive_start : (Process.start ι).crew.Exclusive := by
  intro m t
  constructor
  · intro h
    cases h
  · rintro ⟨pc, data, h, -⟩
    cases h

theorem inSection_iff (ht : w.member t = some (pc, data)) (m : ℕ) :
    w.InSection m t ↔ pc.critical = true ∧ data.mutexPtr = m := by
  constructor
  · rintro ⟨pc', data', ht', h⟩
    cases ht.symm.trans ht'
    exact h
  · rintro h
    exact ⟨pc, data, ht, h⟩

theorem not_inSection (ht : w.member t = none) (m : ℕ) : ¬ w.InSection m t := by
  rintro ⟨pc, data, ht', -⟩
  cases ht.symm.trans ht'

theorem inSection_update {x : Option (ThreadPc × ThreadData)} {holder : ℕ → Option Holder}
    {t' : ℕ} (hne : t' ≠ t) (m : ℕ) :
    InSection ⟨Function.update w.member t x, holder⟩ m t' ↔ w.InSection m t' := by
  simp only [InSection, Function.update_of_ne hne]

theorem Exclusive.keep (h : w.Exclusive) (hholder : w'.holder = w.holder)
    (hsection : ∀ m t, w'.InSection m t ↔ w.InSection m t) : w'.Exclusive := by
  intro m t
  rw [hholder, h m t, hsection]

theorem Exclusive.set (h : w.Exclusive) {m : ℕ} {d : Option Holder}
    (hholder : w'.holder = Function.update w.holder m d)
    (hsection : ∀ m' ≠ m, ∀ t, w'.InSection m' t ↔ w.InSection m' t)
    (hown : ∀ t, d = some (.thread t) ↔ w'.InSection m t) : w'.Exclusive := by
  intro m' t
  rw [hholder]
  by_cases hm : m' = m
  · subst hm
    rw [Function.update_self, hown]
  · rw [Function.update_of_ne hm, h m' t, hsection m' hm]

theorem Exclusive.thread (h : w.Exclusive) {e : ThreadEvent} {next : ThreadPc × ThreadData}
    {holder : ℕ → Option Holder} (ht : w.member t = some (pc, data))
    (hnext : threadfunc data pc e = some next) (hcall : mutexCall w.holder t e = some holder) :
    Exclusive ⟨Function.update w.member t (some next), holder⟩ := by
  have hself (holder : ℕ → Option Holder) (m : ℕ) :
      InSection ⟨Function.update w.member t (some next), holder⟩ m t ↔
        next.1.critical = true ∧ next.2.mutexPtr = m :=
    inSection_iff (w := ⟨_, holder⟩) (Function.update_self ..) m
  have hkeep (hholder : holder = w.holder) (hpc : next.1.critical = pc.critical)
      (hdata : next.2.mutexPtr = data.mutexPtr) :
      Exclusive ⟨Function.update w.member t (some next), holder⟩ := by
    refine h.keep hholder fun m t' => ?_
    by_cases hne : t' = t
    · subst hne
      rw [hself, inSection_iff ht, hpc, hdata]
    · exact inSection_update hne m
  cases threadfunc_advances hnext with
  | sleepFails | sleeps | sleepsAgain => exact hkeep (mutexCall_usleep hcall).2 rfl rfl
  | lockFails hrc =>
    simp only [mutexCall, if_pos hrc, Option.some.injEq] at hcall
    exact hkeep hcall.symm rfl rfl
  | completes =>
    cases hcall
    exact hkeep rfl rfl rfl
  | locks =>
    obtain ⟨hfree, rfl⟩ := mutexCall_lock hcall
    refine h.set rfl (fun m hm t' => ?_) fun t' => ?_
    · by_cases hne : t' = t
      · subst hne
        rw [hself, inSection_iff ht]
        simp [ThreadPc.critical, Ne.symm hm]
      · exact inSection_update hne m
    · by_cases hne : t' = t
      · subst hne
        simp [hself, ThreadPc.critical]
      · rw [inSection_update hne, ← h, hfree]
        simp [Ne.symm hne]
  | unlocks =>
    obtain ⟨rfl, hheld, rfl⟩ := mutexCall_unlock hcall
    refine h.set rfl (fun m hm t' => ?_) fun t' => ?_
    · by_cases hne : t' = t
      · subst hne
        rw [hself, inSection_iff ht]
        simp [ThreadPc.critical, Ne.symm hm]
      · exact inSection_update hne m
    · by_cases hne : t' = t
      · subst hne
        rw [hself]
        simp [ThreadPc.critical]
      · rw [inSection_update hne, ← h, hheld]
        simp [Ne.symm hne]

theorem Exclusive.step (h : w.Exclusive) (hs : w.Step l w') : w'.Exclusive := by
  cases hs with
  | quiet => exact h
  | @starts c t args hfree =>
    refine h.keep rfl fun m t' => ?_
    by_cases hne : t' = t
    · subst hne
      exact iff_of_false (by simp [InSection, ThreadPc.critical]) (not_inSection hfree m)
    · exact inSection_update hne m
  | thread ht hnext hcall => exact h.thread ht hnext hcall
  | @join t data ht =>
    refine h.keep rfl fun m t' => ?_
    by_cases hne : t' = t
    · subst hne
      rw [inSection_iff ht]
      exact iff_of_false (not_inSection (Function.update_self ..) m) (by simp [ThreadPc.critical])
    · exact inSection_update hne m
  | @outsideLock m hfree =>
    refine h.set rfl (fun m' _ t => Iff.rfl) fun t => iff_of_false (by simp) fun hin => ?_
    cases hfree.symm.trans ((h m t).mpr hin)
  | @outsideUnlock m hheld =>
    refine h.set rfl (fun m' _ t => Iff.rfl) fun t => iff_of_false (by simp) fun hin => ?_
    cases hheld.symm.trans ((h m t).mpr hin)

/-- A thread that has not returned can make its next call with success, or waits for a mutex that is
held, or the time it is to sleep overflows. -/
theorem Exclusive.can_succeed (h : w.Exclusive) (ht : w.member t = some (pc, data))
    (hpc : pc ≠ .returned) :
    (∃ e next holder, e.succeeds = true ∧ threadfunc data pc e = some next ∧
      mutexCall w.holder t e = some holder) ∨
    (pc = .lock ∧ w.holder data.mutexPtr ≠ none) ∨
    (pc = .sleepToObtain ∧ TooLong data.waitToObtainMs) ∨
    (pc = .sleepToRelease ∧ TooLong data.waitToReleaseMs) := by
  cases pc with
  | returned => exact absurd rfl hpc
  | complete success => exact .inl ⟨.compute, _, _, rfl, rfl, rfl⟩
  | sleepToObtain =>
    cases harg : usleepArg data.waitToObtainMs with
    | none => exact .inr (.inr (.inl ⟨rfl, (usleepArg_eq_none_iff _).mp harg⟩))
    | some usec =>
      refine .inl ⟨.usleep usec 0, (.lock, data), w.holder, rfl, ?_, rfl⟩
      simp [threadfunc, harg]
  | sleepToRelease =>
    cases harg : usleepArg data.waitToReleaseMs with
    | none => exact .inr (.inr (.inr ⟨rfl, (usleepArg_eq_none_iff _).mp harg⟩))
    | some usec =>
      refine .inl ⟨.usleep usec 0, (.unlock 0, data), w.holder, rfl, ?_, rfl⟩
      simp [threadfunc, harg]
  | lock =>
    by_cases hfree : w.holder data.mutexPtr = none
    · refine .inl ⟨.mutexLock data.mutexPtr 0, (.sleepToRelease, data),
        Function.update w.holder data.mutexPtr (some (.thread t)), rfl, if_pos rfl, ?_⟩
      simp only [mutexCall, ne_eq, not_true_eq_false, if_false, if_pos hfree]
    · exact .inr (.inl ⟨rfl, hfree⟩)
  | unlock usleepReturn =>
    have hheld : w.holder data.mutexPtr = some (.thread t) :=
      (h _ t).mpr ((inSection_iff ht _).mpr ⟨rfl, rfl⟩)
    refine .inl ⟨.mutexUnlock data.mutexPtr 0, _, Function.update w.holder data.mutexPtr none, rfl,
      if_pos rfl, ?_⟩
    simp only [mutexCall, hheld, true_and, if_true]

def Alone (x : ThreadPc × ThreadData) (e : ThreadEvent) (x' : ThreadPc × ThreadData) : Prop :=
  threadfunc x.2 x.1 e = some x' ∧ ∀ usec rc, e = .usleep usec rc → rc = 0 ∨ rc = -1

end Crew

def threadEvents {ι : Type} (t : ℕ) (tr : List (Label ι)) : List ThreadEvent :=
  tr.filterMap fun l =>
    match l with
    | .thread t' e => if t' = t then some e else none
    | _ => none

theorem threadEvents_append {ι : Type} (t : ℕ) (tr₁ tr₂ : List (Label ι)) :
    threadEvents t (tr₁ ++ tr₂) = threadEvents t tr₁ ++ threadEvents t tr₂ :=
  List.filterMap_append

namespace Crew

variable {ι : Type} {w w' w₀ : Crew} {l : Label ι} {t : ℕ} {x : ThreadPc × ThreadData}
  {tr : List (Label ι)}

/-- A step of the crew is a step of a thread alone, or none of its business. -/
theorem Step.member (hs : w.Step l w') (ht : w.member t = some x)
    (hjoin : ∀ success, l ≠ .join t success) :
    ∃ x', w'.member t = some x' ∧ Run Alone x (threadEvents t [l]) x' := by
  cases hs with
  | quiet | outsideLock | outsideUnlock => exact ⟨x, ht, .nil⟩
  | @starts c t' args hfree =>
    have hne : t ≠ t' := by
      rintro rfl
      cases hfree.symm.trans ht
    exact ⟨x, (Function.update_of_ne hne ..).trans ht, .nil⟩
  | @thread t' e pc data next holder ht' hnext hcall =>
    by_cases hne : t = t'
    · subst hne
      cases ht.symm.trans ht'
      have halone : Alone (pc, data) e next := by
        refine ⟨hnext, ?_⟩
        rintro usec rc rfl
        exact (mutexCall_usleep hcall).1
      refine ⟨next, Function.update_self .., ?_⟩
      simpa [threadEvents] using Run.single halone
    · refine ⟨x, (Function.update_of_ne hne ..).trans ht, ?_⟩
      simpa [threadEvents, Ne.symm hne] using Run.nil
  | @join t' data ht' =>
    have hne : t ≠ t' := by
      rintro rfl
      exact hjoin _ rfl
    exact ⟨x, (Function.update_of_ne hne ..).trans ht, .nil⟩

/-- Until it is joined, a thread runs as if it were alone. -/
theorem run_member (hrun : Run Step w₀ tr w) (ht : w₀.member t = some x)
    (hjoin : ∀ success, .join t success ∉ tr) :
    ∃ x', w.member t = some x' ∧ Run Alone x (threadEvents t tr) x' := by
  induction hrun with
  | nil => exact ⟨x, ht, .nil⟩
  | snoc hrun hs ih =>
    obtain ⟨x₁, ht₁, hrun₁⟩ := ih fun success hmem => hjoin success (List.mem_append_left _ hmem)
    obtain ⟨x', ht', hstep⟩ := hs.member ht₁ fun success he => hjoin success (by simp [he])
    refine ⟨x', ht', ?_⟩
    rw [threadEvents_append]
    exact hrun₁.append hstep

end Crew

/-- The steps of a thread started with `args` when everything succeeds. -/
def StartArgs.script (args : StartArgs) (evs : List ThreadEvent) : Prop :=
  ∃ usec usec', usleepArg args.waitToObtainMs = some usec ∧
    usleepArg args.waitToReleaseMs = some usec' ∧
    evs = [.usleep usec 0, .mutexLock args.mutex 0, .usleep usec' 0, .mutexUnlock args.mutex 0,
      .compute]

/-- How far a thread started with `args` is after the steps `evs`. -/
def StartArgs.Ran (args : StartArgs) (evs : List ThreadEvent) : ThreadPc × ThreadData → Prop
  | (.sleepToObtain, data) => data = args.data ∧ evs = []
  | (.lock, data) => data = args.data ∧
    ∃ usec, usleepArg args.waitToObtainMs = some usec ∧ evs = [.usleep usec 0]
  | (.sleepToRelease, data) => data = args.data ∧
    ∃ usec, usleepArg args.waitToObtainMs = some usec ∧
      evs = [.usleep usec 0, .mutexLock args.mutex 0]
  | (.unlock usleepReturn, data) => data = args.data ∧ (usleepReturn = 0 ∨ usleepReturn = -1) ∧
    ∃ usec usec', usleepArg args.waitToObtainMs = some usec ∧
      usleepArg args.waitToReleaseMs = some usec' ∧
      evs = [.usleep usec 0, .mutexLock args.mutex 0, .usleep usec' usleepReturn]
  | (.complete success, data) => data = args.data ∧ evs.length ≤ 4 ∧
    (success = true ↔ ∀ e ∈ evs, e.succeeds = true) ∧
    (success = true → args.script (evs ++ [.compute]))
  | (.returned, data) => evs.length ≤ 5 ∧
    (data.threadCompleteSuccess = true ↔ ∀ e ∈ evs, e.succeeds = true) ∧
    (data.threadCompleteSuccess = true → args.script evs)

theorem StartArgs.Ran.step {args : StartArgs} {evs : List ThreadEvent}
    {x x' : ThreadPc × ThreadData} {e : ThreadEvent} (h : args.Ran evs x)
    (hs : Crew.Alone x e x') : args.Ran (evs ++ [e]) x' := by
  obtain ⟨pc, data⟩ := x
  obtain ⟨hnext, hrc⟩ := hs
  cases threadfunc_advances hnext with
  | sleepFails harg =>
    obtain ⟨rfl, rfl⟩ := h
    exact ⟨rfl, by simp, by simp [ThreadEvent.succeeds], by simp⟩
  | sleeps harg hne =>
    obtain ⟨rfl, rfl⟩ := h
    obtain rfl := (hrc _ _ rfl).resolve_right hne
    exact ⟨rfl, _, harg, rfl⟩
  | lockFails hne =>
    obtain ⟨rfl, usec, harg, rfl⟩ := h
    exact ⟨rfl, by simp, by simp [ThreadEvent.succeeds, hne], by simp⟩
  | locks =>
    obtain ⟨rfl, usec, harg, rfl⟩ := h
    exact ⟨rfl, usec, harg, rfl⟩
  | sleepsAgain harg' =>
    obtain ⟨rfl, usec, harg, rfl⟩ := h
    exact ⟨rfl, hrc _ _ rfl, usec, _, harg, harg', rfl⟩
  | @unlocks usleepReturn rc =>
    obtain ⟨rfl, hreturn, usec, usec', harg, harg', rfl⟩ := h
    refine ⟨rfl, by simp, ?_, ?_⟩
    · rcases hreturn with rfl | rfl <;> by_cases hzero : rc = 0 <;>
        simp [ThreadEvent.succeeds, hzero]
    · intro hsuccess
      obtain ⟨hne, rfl⟩ : usleepReturn ≠ -1 ∧ rc = 0 := by simpa using hsuccess
      obtain rfl := hreturn.resolve_right hne
      exact ⟨usec, usec', harg, harg', rfl⟩
  | completes =>
    obtain ⟨rfl, hlen, hsuccess, hscript⟩ := h
    have hlen' : (evs ++ [ThreadEvent.compute]).length ≤ 5 := by
      rw [List.length_append, List.length_singleton]
      omega
    refine ⟨hlen', ?_, hscript⟩
    simpa [ThreadEvent.succeeds, or_imp, forall_and] using hsuccess

theorem StartArgs.run_ran {args : StartArgs} {evs : List ThreadEvent} {x : ThreadPc × ThreadData}
    (h : Run Crew.Alone (.sleepToObtain, args.data) evs x) : args.Ran evs x :=
  h.invariant (P := args.Ran) ⟨rfl, rfl⟩ fun _ _ _ _ _ hran hs => hran.step hs

theorem StartArgs.Ran.length_le {args : StartArgs} {evs : List ThreadEvent}
    {x : ThreadPc × ThreadData} (h : args.Ran evs x) : evs.length ≤ 5 := by
  obtain ⟨pc, data⟩ := x
  cases pc with
  | sleepToObtain =>
    obtain ⟨-, rfl⟩ := h
    simp
  | lock =>
    obtain ⟨-, usec, -, rfl⟩ := h
    simp
  | sleepToRelease =>
    obtain ⟨-, usec, -, rfl⟩ := h
    simp
  | unlock usleepReturn =>
    obtain ⟨-, -, usec, usec', -, -, rfl⟩ := h
    simp
  | complete success => exact h.2.1.trans (by omega)
  | returned => exact h.1

namespace Process

variable {ι : Type} [DecidableEq ι] {s s' : Process ι} {tr : List (Label ι)}

theorem Accounted.run (hrun : Run Process.Step s tr s') (h : s.Accounted) :
    s'.Accounted ∧ Run Crew.Step s.crew tr s'.crew := by
  induction hrun with
  | nil => exact ⟨h, .nil⟩
  | snoc _ hs ih =>
    have hm := step_moves hs
    exact ⟨ih.1.moves hm, ih.2.snoc (ih.1.crew_step hm)⟩

theorem run_exclusive (hrun : Run Process.Step (.start ι) tr s) :
    s.Accounted ∧ s.crew.Exclusive := by
  obtain ⟨haccounted, hcrew⟩ := accounted_start.run hrun
  exact ⟨haccounted, hcrew.invariant (P := fun _ w => w.Exclusive) Crew.exclusive_start
    fun _ _ _ _ _ h hs => h.step hs⟩

/-- A caller never waits. -/
theorem Accounted.caller_steps (h : s.Accounted) {c : ι} (hpc : s.callers c ≠ .idle) :
    ∃ e s', s.Step (.caller c e) s' := by
  have hlive {a : ℕ} (ha : (s.callers c).data = some a) : s.blocks a ≠ none :=
    h.held_live (o := .inl c) ha
  change ∃ e s', s.callerStep c (s.callers c) e = some s'
  cases hc : s.callers c with
  | idle => exact absurd hc hpc
  | malloc args => exact ⟨.malloc none, _, rfl⟩
  | setup args a => exact ⟨.compute, _, if_neg (hlive (by rw [hc]; rfl))⟩
  | create args a => exact ⟨.pthreadCreate none, _, rfl⟩
  | free a => exact ⟨.free, _, if_neg (hlive (by rw [hc]; rfl))⟩
  | returned thread => exact ⟨.ret thread, _, if_pos rfl⟩

omit [DecidableEq ι] in
theorem Accounted.thread_data (h : s.Accounted) {t a : ℕ} {pc : ThreadPc}
    (ht : s.threads t = some ⟨pc, a⟩) :
    ∃ data, s.blocks a = some data ∧ s.crew.member t = some (pc, data) := by
  obtain ⟨data, hdata⟩ := Option.ne_none_iff_exists'.mp
    (h.held_live (o := .inr t) (a := a) (by simp [held, ht]))
  exact ⟨data, hdata, by simp [crew, ht, hdata]⟩

theorem thread_step {t a : ℕ} {pc : ThreadPc} {data : ThreadData} {e : ThreadEvent}
    {next : ThreadPc × ThreadData} {holder : ℕ → Option Holder}
    (ht : s.threads t = some ⟨pc, a⟩) (ha : s.blocks a = some data)
    (hnext : threadfunc data pc e = some next) (hcall : mutexCall s.holder t e = some holder) :
    ∃ s', s.Step (.thread t e) s' := by
  simp only [Step, Process.step, ht, ha, hnext, hcall, Option.bind_eq_bind, Option.bind_some]
  exact ⟨_, rfl⟩

theorem join_step {t a : ℕ} {data : ThreadData} (ht : s.threads t = some ⟨.returned, a⟩)
    (ha : s.blocks a = some data) : ∃ s', s.Step (.join t data.threadCompleteSuccess) s' := by
  simp only [Step, Process.step, ht, ha, Option.bind_eq_bind, Option.bind_some, and_self, if_true]
  exact ⟨_, rfl⟩

/-- Whatever fails: each live block is one caller's or one thread's, and they have no other; a
mutex is held by a thread exactly while that thread is between its lock and its unlock; no caller
ever waits; and a thread waits only for a mutex that something else holds. What is left is the
overflow of `ms * 1000`. -/
theorem threads_share_mutexes_only (hrun : Run Process.Step (.start ι) tr s) :
    (∀ a, s.blocks a ≠ none ↔ ∃ o, s.held o = some a) ∧
    (∀ o o' a, s.held o = some a → s.held o' = some a → o = o') ∧
    (∀ m t, s.holder m = some (.thread t) ↔ s.crew.InSection m t) ∧
    (∀ c, s.callers c ≠ .idle → ∃ e s', s.Step (.caller c e) s') ∧
    ∀ t pc a, s.threads t = some ⟨pc, a⟩ → ∃ data, s.blocks a = some data ∧
      ((pc = .returned ∧ ∃ s', s.Step (.join t data.threadCompleteSuccess) s') ∨
        (∃ e s', e.succeeds = true ∧ s.Step (.thread t e) s') ∨
        (pc = .lock ∧ ∃ h, s.holder data.mutexPtr = some h ∧ h ≠ .thread t) ∨
        (pc = .sleepToObtain ∧ TooLong data.waitToObtainMs) ∨
        (pc = .sleepToRelease ∧ TooLong data.waitToReleaseMs)) := by
  obtain ⟨h, hexclusive⟩ := run_exclusive hrun
  refine ⟨h.accounts.live_iff, h.accounts.alone, hexclusive, fun c => h.caller_steps,
    fun t pc a ht => ?_⟩
  obtain ⟨data, hdata, hmember⟩ := h.thread_data ht
  refine ⟨data, hdata, ?_⟩
  by_cases hpc : pc = .returned
  · subst hpc
    exact .inl ⟨rfl, join_step ht hdata⟩
  · refine .inr ?_
    rcases hexclusive.can_succeed hmember hpc with hsucceeds | hwaits | hoverflow
    · obtain ⟨e, next, holder, hsucceeds, hnext, hcall⟩ := hsucceeds
      obtain ⟨s', hs⟩ := thread_step ht hdata hnext hcall
      exact .inl ⟨e, s', hsucceeds, hs⟩
    · obtain ⟨hlock, hheld⟩ := hwaits
      obtain ⟨holder, hholder⟩ := Option.ne_none_iff_exists'.mp hheld
      refine .inr (.inl ⟨hlock, holder, hholder, ?_⟩)
      rintro rfl
      have hsection := ((Crew.inSection_iff hmember _).mp ((hexclusive _ t).mp hholder)).1
      simp [hlock, ThreadPc.critical] at hsection
    · exact .inr (.inr hoverflow)

theorem run_of_foldlM {s₀ : Process ι} (h : tr.foldlM Process.step s₀ = some s) :
    Run Process.Step s₀ tr s :=
  Run.of_foldlM_step (fun _ _ _ _ hs => hs) h

def startCall (c a t : ℕ) : List (Label ℕ) :=
  [.call ⟨0, 1, 2⟩, .malloc (some (a, ⟨7, 0, 0, true⟩)), .compute, .pthreadCreate (some t)].map
    (.caller c)

/-- Two threads on one mutex: the first has it, the second waits for it. -/
def oneWaits : List (Label ℕ) :=
  startCall 0 10 0 ++ startCall 1 11 1 ++ [.thread 0 (.usleep 1000 0),
    .thread 1 (.usleep 1000 0), .thread 0 (.mutexLock 0 0)]

theorem oneWaits_shares : ∃ s, Run Process.Step (.start ℕ) oneWaits s ∧
    s.threads 1 = some ⟨.lock, 11⟩ ∧ ∀ t, s.crew.InSection 0 t ↔ t = 0 := by
  have hstate : (oneWaits.foldlM Process.step (.start ℕ)).map
      (fun s => (s.threads 1, s.holder 0)) = some (some ⟨.lock, 11⟩, some (.thread 0)) := by
    decide +kernel
  obtain ⟨s, hs, hstate⟩ := Option.map_eq_some_iff.mp hstate
  obtain ⟨hthread, hholder⟩ := Prod.mk.inj hstate
  have hrun := run_of_foldlM hs
  obtain ⟨-, -, hmutex, -⟩ := threads_share_mutexes_only hrun
  refine ⟨s, hrun, hthread, fun t => ?_⟩
  rw [← hmutex 0 t, hholder]
  simp [eq_comm]

/-- A thread makes at most five steps from its start to its end. Joined, it reports success exactly
when all its calls succeeded, and then it has slept as long as its caller asked, had the mutex,
slept again and released it; it holds no mutex in either case. -/
theorem join_reports {c : ι} {args : StartArgs} {a t : ℕ} {s₁ s₂ : Process ι}
    {tr₁ tr₂ : List (Label ι)} (hrun₁ : Run Process.Step (.start ι) tr₁ s₁)
    (hpc : s₁.callers c = .create args a) (hs : s₁.Step (.caller c (.pthreadCreate (some t))) s₂)
    (hrun₂ : Run Process.Step s₂ tr₂ s) (hjoin : ∀ success, .join t success ∉ tr₂) :
    (threadEvents t tr₂).length ≤ 5 ∧ ∀ success s', s.Step (.join t success) s' →
      (success = true ↔ ∀ e ∈ threadEvents t tr₂, e.succeeds = true) ∧
      (success = true ↔ args.script (threadEvents t tr₂)) ∧
      ∀ m, s.holder m ≠ some (.thread t) := by
  obtain ⟨haccounted₁, hexclusive₁⟩ := run_exclusive hrun₁
  have hm := step_moves hs
  have hstart : s₂.crew.member t = some (.sleepToObtain, args.data) := by
    cases hm with
    | quiet _ _ he => exact absurd rfl (he t)
    | create hpc' =>
      cases hpc.symm.trans hpc'
      rw [crew_setCaller, haccounted₁.crew_create hpc]
      exact Function.update_self ..
  obtain ⟨haccounted, hrun⟩ := (haccounted₁.moves hm).run hrun₂
  have hexclusive : s.crew.Exclusive := hrun.invariant (P := fun _ w => w.Exclusive)
    (hexclusive₁.step (haccounted₁.crew_step hm)) fun _ _ _ _ _ h hs => h.step hs
  obtain ⟨x, hx, halone⟩ := Crew.run_member hrun hstart hjoin
  have hran := StartArgs.run_ran halone
  refine ⟨hran.length_le, fun success s' hjoins => ?_⟩
  have hjoined := haccounted.crew_step (step_moves hjoins)
  generalize s'.crew = w' at hjoined
  cases hjoined with
  | join ht =>
    cases hx.symm.trans ht
    obtain ⟨-, hsuccess, hscript⟩ := hran
    refine ⟨hsuccess, ⟨hscript, fun hall => hsuccess.mpr ?_⟩, fun m hheld => ?_⟩
    · obtain ⟨usec, usec', -, -, hevs⟩ := hall
      simp [hevs, ThreadEvent.succeeds]
    · have hsection := ((Crew.inSection_iff ht m).mp ((hexclusive m t).mp hheld)).1
      cases hsection

/-- A thread whose second `usleep` is interrupted. -/
def interrupted : List (Label ℕ) :=
  [.usleep 1000 0, .mutexLock 0 0, .usleep 2000 (-1), .mutexUnlock 0 0, .compute].map (.thread 0)

theorem interrupted_reports : ∃ s₁ s₂ s s', Run Process.Step (.start ℕ) ((startCall 0 10 0).take 3)
    s₁ ∧ s₁.Step (.caller 0 (.pthreadCreate (some 0))) s₂ ∧ Run Process.Step s₂ interrupted s ∧
    s.Step (.join 0 false) s' ∧ s.holder 0 ≠ some (.thread 0) := by
  have hstate : (((startCall 0 10 0).take 3).foldlM Process.step (.start ℕ)).bind (fun s₁ =>
      (s₁.step (.caller 0 (.pthreadCreate (some 0)))).bind fun s₂ =>
        (interrupted.foldlM Process.step s₂).bind fun s => (s.step (.join 0 false)).map
          fun _ => s₁.callers 0) = some (.create ⟨0, 1, 2⟩ 10) := by
    decide +kernel
  obtain ⟨s₁, hs₁, hstate⟩ := Option.bind_eq_some_iff.mp hstate
  obtain ⟨s₂, hs₂, hstate⟩ := Option.bind_eq_some_iff.mp hstate
  obtain ⟨s, hs, hstate⟩ := Option.bind_eq_some_iff.mp hstate
  obtain ⟨s', hs', hpc⟩ := Option.map_eq_some_iff.mp hstate
  have hrun₁ := run_of_foldlM hs₁
  have hrun := run_of_foldlM hs
  have hreports := join_reports hrun₁ hpc hs₂ hrun (by decide)
  exact ⟨s₁, s₂, s, s', hrun₁, hs₂, hrun, hs', (hreports.2 false s' hs').2.2 0⟩

end Process

end Aesd.Threading
