import Aesd.Server.BufferBounds
import Aesd.Server.Mutex

/-! The critical sections on the file: `sending_data` and `write_time_stamp` give back the mutex
and the descriptor on every path, whatever their calls return. -/
namespace Aesd.Server
open Driver (Byte)
open Runs

def Event.openedFd : Event → Option Fd
  | .openFile fd => fd
  | _ => none

def Event.closedFd : Event → Option Fd
  | .close fd _ => some fd
  | _ => none

def Event.usesFile : Event → Bool
  | .openFile _ => true
  | .write _ _ _ => true
  | .lseek _ => true
  | .read _ _ _ => true
  | .close _ _ => true
  | _ => false

def Event.acquires : Event → Bool
  | .mutexLock ok => ok
  | _ => false

def Event.unlocks : Event → Bool
  | .mutexUnlock _ => true
  | _ => false

def Event.isReturn : Event → Bool
  | .returns _ => true
  | _ => false

/-- A call that reports an error, or a `write` of only a part. -/
def Event.failed : Event → Bool
  | .mutexLock ok => !ok
  | .mutexUnlock ok => !ok
  | .openFile fd => fd.isNone
  | .write _ data written => written ≠ some data.length
  | .read _ _ got => got.isNone
  | .send _ _ _ _ sent => sent.isNone
  | .close _ ok => !ok
  | _ => false

/-- Every use of the file comes after the mutex was acquired and before it is unlocked. -/
def Bracketed (tr : List Event) : Prop :=
  ∀ before e after, tr = before ++ e :: after → e.usesFile = true →
    before.countP Event.acquires = 1 ∧ before.countP Event.unlocks = 0

/-- A call that made the given calls and returned `r` has kept nothing: it unlocked once if it had
acquired the mutex and not otherwise, and closed what it had opened and nothing else. -/
structure Balanced (body : List Event) (r : ℤ) : Prop where
  unlocks : body.countP Event.unlocks = body.countP Event.acquires
  once : body.countP Event.acquires ≤ 1
  closes : body.filterMap Event.closedFd = body.filterMap Event.openedFd
  bracketed : Bracketed body
  unlocksLast : ∀ before e after, body = before ++ e :: after → e.usesFile = true →
    after.countP Event.unlocks = 1
  result : r = 0 ∨ r = -1
  succeeded : r = 0 → ∀ e ∈ body, e.failed = false

/-- Where a call is in its critical section; the flags tell whether all has gone well. -/
inductive FilePhase where
  | idle
  | locked
  | opened (fd : Fd) (ok : Bool)
  | closed (ok : Bool)
  | left (r : ℤ)

inductive SectionStep : FilePhase → Event → FilePhase → Prop where
  | formats (tm : Tm) : SectionStep .idle (.localtime tm) .idle
  | formatFails (tm : Tm) : SectionStep .idle (.localtime tm) (.left (-1))
  | refused : SectionStep .idle (.mutexLock false) (.left (-1))
  | locks : SectionStep .idle (.mutexLock true) .locked
  | openFails : SectionStep .locked (.openFile none) (.closed false)
  | opens (fd : Fd) : SectionStep .locked (.openFile (some fd)) (.opened fd true)
  | works (fd : Fd) {e : Event} {ok : Bool} (hmutex : e.usesMutex = false)
      (hopen : e.openedFd = none) (hclose : e.closedFd = none) (hreturn : e.isReturn = false)
      (hok : ok = true → e.failed = false) : SectionStep (.opened fd true) e (.opened fd ok)
  | closes (fd : Fd) (was ok : Bool) :
      SectionStep (.opened fd was) (.close fd ok) (.closed (was && ok))
  | unlocks (was ok : Bool) : SectionStep (.closed was) (.mutexUnlock ok)
      (.left (if was && ok then 0 else -1))

/-- How often the mutex was acquired and unlocked so far. -/
def FilePhase.Counts : FilePhase → (acquired unlocked : ℕ) → Prop
  | .idle, acquired, unlocked => acquired = 0 ∧ unlocked = 0
  | .left _, acquired, unlocked => unlocked = acquired ∧ acquired ≤ 1
  | _, acquired, unlocked => acquired = 1 ∧ unlocked = 0

def FilePhase.Fds : FilePhase → (opens closes : List Fd) → Prop
  | .idle, opens, closes => opens = [] ∧ closes = []
  | .locked, opens, closes => opens = [] ∧ closes = []
  | .opened fd _, opens, closes => opens = [fd] ∧ closes = []
  | _, opens, closes => closes = opens

/-- Nothing has failed so far. -/
def FilePhase.good : FilePhase → Bool
  | .opened _ ok => ok
  | .closed ok => ok
  | .left r => r = 0
  | _ => true

structure SectionSoFar (p : FilePhase) (tr : List Event) : Prop where
  counts : p.Counts (tr.countP Event.acquires) (tr.countP Event.unlocks)
  fds : p.Fds (tr.filterMap Event.openedFd) (tr.filterMap Event.closedFd)
  bracketed : Bracketed tr
  good : p.good = true → ∀ e ∈ tr, e.failed = false
  result : ∀ r, p = .left r → r = 0 ∨ r = -1

theorem Bracketed.snoc {tr : List Event} {e : Event} (h : Bracketed tr)
    (he : e.usesFile = true → tr.countP Event.acquires = 1 ∧ tr.countP Event.unlocks = 0) :
    Bracketed (tr ++ [e]) := by
  intro before x after hsplit hx
  rcases List.eq_nil_or_concat after with rfl | ⟨after, y, rfl⟩
  · obtain ⟨rfl, hxe⟩ := List.append_inj' hsplit rfl
    obtain rfl := List.singleton_injective hxe
    exact he hx
  · rw [List.concat_eq_append, ← List.cons_append, ← List.append_assoc] at hsplit
    exact h before x after (List.append_inj' hsplit rfl).1 hx

theorem usesMutex_eq_false {e : Event} (h : e.usesMutex = false) :
    e.acquires = false ∧ e.unlocks = false := by
  cases e <;> first | exact ⟨rfl, rfl⟩ | cases h

theorem SectionSoFar.snoc {p p' : FilePhase} {tr : List Event} {e : Event}
    (h : SectionSoFar p tr)
    (hcounts : p'.Counts (tr.countP Event.acquires + e.acquires.toNat)
      (tr.countP Event.unlocks + e.unlocks.toNat))
    (hfds : p'.Fds (tr.filterMap Event.openedFd ++ e.openedFd.toList)
      (tr.filterMap Event.closedFd ++ e.closedFd.toList))
    (hinside : e.usesFile = true →
      tr.countP Event.acquires = 1 ∧ tr.countP Event.unlocks = 0)
    (hgood : p'.good = true → p.good = true ∧ e.failed = false)
    (hresult : ∀ r, p' = .left r → r = 0 ∨ r = -1) : SectionSoFar p' (tr ++ [e]) where
  counts := by
    rw [List.countP_append, List.countP_append, List.countP_singleton, List.countP_singleton]
    cases ha : e.acquires <;> cases hu : e.unlocks <;> simpa [ha, hu] using hcounts
  fds := by
    rw [List.filterMap_append, List.filterMap_append]
    cases ho : e.openedFd <;> cases hc : e.closedFd <;> simpa [ho, hc] using hfds
  bracketed := h.bracketed.snoc hinside
  good := by
    intro hgood' x hx
    obtain ⟨hp, he⟩ := hgood hgood'
    rcases List.mem_append.mp hx with hx | hx
    · exact h.good hp x hx
    · exact List.mem_singleton.mp hx ▸ he
  result := hresult

theorem SectionSoFar.next {p p' : FilePhase} {tr : List Event} {e : Event}
    (h : SectionSoFar p tr) (hs : SectionStep p e p') : SectionSoFar p' (tr ++ [e]) := by
  have hcounts := h.counts
  have hfds := h.fds
  cases hs with
  | works fd hmutex hopen hclose hreturn hok =>
    obtain ⟨hacquires, hunlocks⟩ := usesMutex_eq_false hmutex
    simp only [FilePhase.Counts, FilePhase.Fds] at hcounts hfds
    apply h.snoc <;> simp [FilePhase.Counts, FilePhase.Fds, FilePhase.good, hacquires, hunlocks,
      hopen, hclose, hcounts, hfds]
    exact hok
  | formats | formatFails | refused | locks | openFails | opens | closes | unlocks =>
    simp only [FilePhase.Counts, FilePhase.Fds] at hcounts hfds
    apply h.snoc <;> simp [FilePhase.Counts, FilePhase.Fds, FilePhase.good, Event.acquires,
      Event.unlocks, Event.openedFd, Event.closedFd, Event.usesFile, Event.failed, hcounts, hfds]

theorem SectionSoFar.balanced {r : ℤ} {tr : List Event} (h : SectionSoFar (.left r) tr) :
    Balanced tr r where
  unlocks := h.counts.1
  once := h.counts.2
  closes := h.fds
  bracketed := h.bracketed
  unlocksLast := by
    intro before e after hsplit he
    obtain ⟨hacquired, hunlocked⟩ := h.bracketed before e after hsplit he
    obtain ⟨heq, hle⟩ := h.counts
    have huse : e.acquires = false ∧ e.unlocks = false := by
      cases e <;> first | exact ⟨rfl, rfl⟩ | cases he
    rw [hsplit, List.countP_append, List.countP_append, List.countP_cons, List.countP_cons] at heq
    rw [hsplit, List.countP_append, List.countP_cons] at hle
    simp only [huse.1, huse.2, Bool.false_eq_true, ↓reduceIte] at heq hle
    omega
  result := h.result r rfl
  succeeded := fun hr => h.good (by simp [FilePhase.good, hr])

theorem sectionSoFar_idle : SectionSoFar .idle [] where
  counts := ⟨rfl, rfl⟩
  fds := ⟨rfl, rfl⟩
  bracketed := by
    intro before e after hsplit
    simp at hsplit
  good := by simp
  result := by simp

theorem run_sectionSoFar {p : FilePhase} {tr : List Event} (hrun : Run SectionStep .idle tr p) :
    SectionSoFar p tr := by
  apply hrun.invariant (P := fun tr p => SectionSoFar p tr) sectionSoFar_idle
  intro _ _ _ _ _ ih hs
  exact ih.next hs

def SendPc.filePhase : SendPc → FilePhase
  | .lock => .idle
  | .openFile => .locked
  | .closeFail fd => .opened fd false
  | .unlockOk => .closed true
  | .unlockFail => .closed false
  | .ret r => .left r
  | .write fd => .opened fd true
  | .lseek fd => .opened fd true
  | .read fd => .opened fd true
  | .send fd _ => .opened fd true
  | .closeOk fd => .opened fd true

def StampPc.filePhase : StampPc → FilePhase
  | .localtime => .idle
  | .lock _ => .idle
  | .openFile _ => .locked
  | .write fd _ => .opened fd true
  | .closeOk fd => .opened fd true
  | .closeFail fd => .opened fd false
  | .unlockOk => .closed true
  | .unlockFail => .closed false
  | .ret r => .left r

variable {e : Event} {tr : List Event}

theorem getFileMutex_fileBuild {rc : ℤ} (h : getFileMutex fileBuild e = some rc) :
    ∃ ok, e = .mutexLock ok ∧ rc = if ok then 0 else -1 := by
  rcases getFileMutex_cases h with ⟨hb, -, -⟩ | ⟨-, hok⟩
  · cases hb
  · exact hok

theorem releaseFileMutex_fileBuild {rc : ℤ} (h : releaseFileMutex fileBuild e = some rc) :
    ∃ ok, e = .mutexUnlock ok ∧ rc = if ok then 0 else -1 := by
  rcases releaseFileMutex_cases h with ⟨hb, -, -⟩ | ⟨-, hok⟩
  · cases hb
  · exact hok

/-- A call of `sending_data` goes through its critical section until it returns. -/
theorem Worker.Sends.sectionStep {w w' : Worker} {pc : SendPc}
    (hsize : w.rb.size ≤ w.rb.buffer.length) (h : w.Sends fileBuild pc e w') :
    (∃ r, pc = .ret r ∧ e = .returns r) ∨
      ∃ pc', w'.pc = .sending pc' ∧ SectionStep pc.filePhase e pc'.filePhase := by
  cases h with
  | lock hm =>
    obtain ⟨ok, rfl, rfl⟩ := getFileMutex_fileBuild hm
    cases ok
    · exact .inr ⟨_, rfl, .refused⟩
    · exact .inr ⟨_, rfl, .locks⟩
  | openFails => exact .inr ⟨_, rfl, .openFails⟩
  | opens fd => exact .inr ⟨_, rfl, .opens fd⟩
  | writeFails fd hfail => exact .inr ⟨_, rfl, .works fd rfl rfl rfl rfl (by simp)⟩
  | writes fd hok =>
    have hwhole := writeToFile_eq hok
    refine .inr ⟨_, rfl, .works fd rfl rfl rfl rfl fun _ => ?_⟩
    simp [Event.failed, hwhole, BufferData.content_length hsize]
  | seeks fd | readsEnd fd | reads fd | sendsAll fd | sendsPart fd =>
    exact .inr ⟨_, rfl, .works fd rfl rfl rfl rfl fun _ => rfl⟩
  | readFails fd | sendFails fd => exact .inr ⟨_, rfl, .works fd rfl rfl rfl rfl (by simp)⟩
  | closes fd ok =>
    cases ok
    · exact .inr ⟨_, rfl, .closes fd true false⟩
    · exact .inr ⟨_, rfl, .closes fd true true⟩
  | unlockFails hm =>
    obtain ⟨ok, rfl, hrc⟩ := releaseFileMutex_fileBuild hm
    cases ok
    · exact .inr ⟨_, rfl, .unlocks true false⟩
    · cases hrc
  | unlocks hm hrc =>
    obtain ⟨ok, rfl, rfl⟩ := releaseFileMutex_fileBuild hm
    cases ok
    · exact absurd rfl hrc
    · exact .inr ⟨_, rfl, .unlocks true true⟩
  | closesFailed fd ok => exact .inr ⟨_, rfl, .closes fd false ok⟩
  | unlocksFailed hm =>
    obtain ⟨ok, rfl, -⟩ := releaseFileMutex_fileBuild hm
    exact .inr ⟨_, rfl, .unlocks false ok⟩
  | returns r => exact .inl ⟨r, rfl, rfl⟩

theorem Stamps.sectionStep {pc : StampPc} {next : Option StampPc} (h : Stamps fileBuild pc e next) :
    (∃ r, pc = .ret r ∧ e = .returns r) ∨
      ∃ pc', next = some pc' ∧ SectionStep pc.filePhase e pc'.filePhase := by
  cases h with
  | formatFails tm => exact .inr ⟨_, rfl, .formatFails tm⟩
  | formats tm => exact .inr ⟨_, rfl, .formats tm⟩
  | lock hm =>
    obtain ⟨ok, rfl, rfl⟩ := getFileMutex_fileBuild hm
    cases ok
    · exact .inr ⟨_, rfl, .refused⟩
    · exact .inr ⟨_, rfl, .locks⟩
  | openFails => exact .inr ⟨_, rfl, .openFails⟩
  | opens text fd => exact .inr ⟨_, rfl, .opens fd⟩
  | writes fd text written =>
    refine .inr ⟨_, rfl, ?_⟩
    split
    next => exact .works fd rfl rfl rfl rfl (by simp)
    next hok =>
      have hwhole := writeToFile_eq hok
      exact .works fd rfl rfl rfl rfl fun _ => by simp [Event.failed, hwhole]
  | closes fd ok =>
    cases ok
    · exact .inr ⟨_, rfl, .closes fd true false⟩
    · exact .inr ⟨_, rfl, .closes fd true true⟩
  | unlocks hm =>
    obtain ⟨ok, rfl, rfl⟩ := releaseFileMutex_fileBuild hm
    cases ok
    · exact .inr ⟨_, rfl, .unlocks true false⟩
    · exact .inr ⟨_, rfl, .unlocks true true⟩
  | closesFailed fd ok => exact .inr ⟨_, rfl, .closes fd false ok⟩
  | unlocksFailed hm =>
    obtain ⟨ok, rfl, -⟩ := releaseFileMutex_fileBuild hm
    exact .inr ⟨_, rfl, .unlocks false ok⟩
  | returns r => exact .inl ⟨r, rfl, rfl⟩

theorem Worker.Next.sends_of_pc {b : Build} {w w' : Worker} {pc : SendPc}
    (hpc : w.pc = .sending pc) (h : w.Next b e w') : w.Sends b pc e w' := by
  cases h with
  | sends hpc' hsend =>
    obtain rfl := WorkerPc.sending.inj (hpc.symm.trans hpc')
    exact hsend
  | _ hpc' => cases hpc.symm.trans hpc'

theorem Main.Next.stamps_of_pc {b : Build} {m m' : Main} {pc : StampPc} (hpc : m.pc = .stamp pc)
    (h : m.Next b e m') :
    ∃ next, Stamps b pc e next ∧ ∀ pc', next = some pc' → m'.pc = .stamp pc' := by
  cases h with
  | stamps hpc' hstamp =>
    obtain rfl := MainPc.stamp.inj (hpc.symm.trans hpc')
    exact ⟨_, hstamp, fun pc' h => congrArg MainPc.stamp (Option.some.inj h)⟩
  | stamped hpc' hstamp =>
    obtain rfl := MainPc.stamp.inj (hpc.symm.trans hpc')
    exact ⟨_, hstamp, by simp⟩
  | mallocFails hpc' =>
    rcases hpc' with hpc' | ⟨item, hpc'⟩ <;> cases hpc.symm.trans hpc'
  | _ hpc' => cases hpc.symm.trans hpc'

def Main.Step (b : Build) (m : Main) (e : Event) (m' : Main) : Prop :=
  e.Posix ∧ m.step b e = some m'

theorem sending_run {w w' : Worker} (hsound : w.Sound) (hpc : w.pc = .sending .lock)
    (hrun : Run (Worker.Step fileBuild) w tr w') (htr : ∀ e ∈ tr, e.isReturn = false) :
    w'.Sound ∧ ∃ pc, w'.pc = .sending pc ∧ Run SectionStep .idle tr pc.filePhase := by
  induction hrun with
  | nil => exact ⟨hsound, .lock, hpc, .nil⟩
  | @snoc tr w₁ e w₂ _ hs ih =>
    obtain ⟨hsound₁, pc, hpc₁, hsection⟩ := ih fun x hx => htr x (List.mem_append_left _ hx)
    have hnext := Worker.step_next hs.2
    rcases (hnext.sends_of_pc hpc₁).sectionStep hsound₁.size_le with
      ⟨r, -, rfl⟩ | ⟨pc', hpc₂, hstep⟩
    · exact absurd (htr (.returns r) (by simp)) (by simp [Event.isReturn])
    · exact ⟨hsound₁.next hs.1 hnext, pc', hpc₂, hsection.snoc hstep⟩

theorem stamp_run {m m' : Main} (hpc : m.pc = .stamp .localtime)
    (hrun : Run (Main.Step fileBuild) m tr m') (htr : ∀ e ∈ tr, e.isReturn = false) :
    ∃ pc, m'.pc = .stamp pc ∧ Run SectionStep .idle tr pc.filePhase := by
  induction hrun with
  | nil => exact ⟨.localtime, hpc, .nil⟩
  | @snoc tr m₁ e m₂ _ hs ih =>
    obtain ⟨pc, hpc₁, hsection⟩ := ih fun x hx => htr x (List.mem_append_left _ hx)
    obtain ⟨next, hstamp, hpc₂⟩ := (Main.step_next hs.2).stamps_of_pc hpc₁
    rcases hstamp.sectionStep with ⟨r, -, rfl⟩ | ⟨pc', hnext, hstep⟩
    · exact absurd (htr (.returns r) (by simp)) (by simp [Event.isReturn])
    · exact ⟨pc', hpc₂ pc' hnext, hsection.snoc hstep⟩

theorem not_sectionStep_returns {p p' : FilePhase} {r : ℤ} : ¬ SectionStep p (.returns r) p' := by
  intro h
  cases h with
  | works fd _ _ _ hreturn => cases hreturn

/-- Every call of `sending_data` and of `write_time_stamp` that returns is balanced, and after a
`-1` of `sending_data` its worker receives, writes and sends no more. -/
theorem file_sections_balanced :
    (∀ (addr : ℕ) (clientFd : Fd) (past body : List Event) (w w' : Worker) (r : ℤ),
      Run (Worker.Step fileBuild) (Worker.create addr clientFd) past w →
      w.pc = .sending .lock → (∀ e ∈ body, e.isReturn = false) →
      Run (Worker.Step fileBuild) w (body ++ [.returns r]) w' →
        Balanced body r ∧ (r = -1 → ∀ rest w'', Run (Worker.Step fileBuild) w' rest w'' →
          ∀ e ∈ rest, e.quiet = true)) ∧
      ∀ (body : List Event) (m m' : Main) (r : ℤ), m.pc = .stamp .localtime →
        (∀ e ∈ body, e.isReturn = false) →
        Run (Main.Step fileBuild) m (body ++ [.returns r]) m' → Balanced body r := by
  constructor
  · intro addr clientFd past body w w' r hpast hpc hbody hrun
    obtain ⟨w₁, hrun, hlast⟩ := hrun.last
    obtain ⟨hsound, pc, hpc₁, hsection⟩ := sending_run (Worker.run_sound hpast) hpc hrun hbody
    have hsend := (Worker.step_next hlast.2).sends_of_pc hpc₁
    rcases hsend.sectionStep hsound.size_le with ⟨r', rfl, hr⟩ | ⟨_, -, hstep⟩
    · obtain rfl := Event.returns.inj hr
      refine ⟨(run_sectionSoFar hsection).balanced, ?_⟩
      rintro rfl rest w'' hrest
      have hclosed : w'.Closed := by
        cases hsend with
        | returns => exact ⟨rfl, .inl rfl⟩
      exact (hclosed.run hrest).2
    · exact absurd hstep not_sectionStep_returns
  · intro body m m' r hpc hbody hrun
    obtain ⟨m₁, hrun, hlast⟩ := hrun.last
    obtain ⟨pc, hpc₁, hsection⟩ := stamp_run hpc hrun hbody
    obtain ⟨next, hstamp, -⟩ := (Main.step_next hlast.2).stamps_of_pc hpc₁
    rcases hstamp.sectionStep with ⟨r', rfl, hr⟩ | ⟨_, -, hstep⟩
    · obtain rfl := Event.returns.inj hr
      exact (run_sectionSoFar hsection).balanced
    · exact absurd hstep not_sectionStep_returns

def packetReceived : List Event := onePacket ++ [.compute, .loadSignal false, .compute]

def clientGone : List Event :=
  [.mutexLock true, .openFile (some 5), .write 5 [97, 10] (some 2), .lseek 5,
    .read 5 1023 (some [97, 10]), .send 4 0 [97, 10] 0 none, .close 5 true, .mutexUnlock true]

theorem clientGone_balanced : Balanced clientGone (-1) := by
  have hpast : (packetReceived.foldlM (Worker.step fileBuild) (Worker.create 0 4)).map (·.pc) =
      some (.sending .lock) := by decide +kernel
  have hcall : ((packetReceived.foldlM (Worker.step fileBuild) (Worker.create 0 4)).bind fun w =>
      (clientGone ++ [Event.returns (-1)]).foldlM (Worker.step fileBuild) w).isSome = true := by
    decide +kernel
  obtain ⟨w, hw, hpc⟩ := Option.map_eq_some_iff.mp hpast
  obtain ⟨w', hw'⟩ := Option.isSome_iff_exists.mp hcall
  rw [hw, Option.bind_some] at hw'
  have hreceived : Run (Worker.Step fileBuild) (Worker.create 0 4) packetReceived w :=
    Run.of_foldlM (by decide +kernel) hw
  have hreturned : Run (Worker.Step fileBuild) w (clientGone ++ [.returns (-1)]) w' :=
    Run.of_foldlM (by decide +kernel) hw'
  exact (file_sections_balanced.1 0 4 packetReceived clientGone w w' (-1) hreceived hpc
    (by decide) hreturned).1

end Aesd.Server
