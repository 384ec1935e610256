import Aesd.Lib.Timers
import Aesd.Server.FileRecords
import Mathlib.Data.List.ModifyLast

/-! When the server writes timestamps: the readings of the clock in `main_loop` and the calls that
`write_time_stamp` makes after each. -/
namespace Aesd.Server
open Driver (Byte)
open Runs Timers

variable {σ χ : Type} {ops : FileOps σ χ} {b : Build}

/-- A reading of the clock by `main_loop`, with the calls of `localtime` and `write` that the main
thread makes up to its next reading. -/
structure Reading where
  sec : ℕ
  calls : List Event
  deriving DecidableEq

def Reading.add (e : Event) (r : Reading) : Reading := { r with calls := r.calls ++ [e] }

def readingsCall (rs : List Reading) : Event → List Reading
  | .clockGettime sec => rs ++ [⟨sec, []⟩]
  | .localtime tm => rs.modifyLast (Reading.add (.localtime tm))
  | .write fd data written => rs.modifyLast (Reading.add (.write fd data written))
  | _ => rs

def readingsNext (rs : List Reading) : Label χ → List Reading
  | .thread .main e _ => readingsCall rs e
  | _ => rs

/-- The readings of a run, oldest first. -/
def readingsOf (tr : List (Label χ)) : List Reading := tr.foldl readingsNext []

def secs (rs : List Reading) : List ℕ := rs.map (·.sec)

def stampTimes (rs : List Reading) : List ℕ := secs (rs.filter fun r => r.calls ≠ [])

/-- `write_time_stamp` has asked for the local time and, unless a call failed before that, has
written it, as one line and once. -/
def Reading.Stamped (r : Reading) : Prop :=
  ∃ tm, r.calls = [.localtime tm] ∨
    ∃ fd written, r.calls = [.localtime tm, .write fd (timeStamp tm) written]

def Label.stampWrites : Label χ → ℕ
  | .thread .main (.write ..) _ => 1
  | _ => 0

/-- The text that `write_time_stamp` is to write. -/
def Main.stampText (m : Main) : Option (List Byte) :=
  match m.pc with
  | .stamp pc => pc.text
  | _ => none

/-- What a step of the main thread does with the clock and with the text to write. -/
inductive Main.Timed (b : Build) (m : Main) : Event → Main → Prop where
  | starts {sec : ℕ} {m' : Main} (hpc : m.pc = .start) (hnext : m'.nextTimestamp = sec + 10)
      (hpc' : m'.pc = .loop) : m.Timed b (.clockGettime sec) m'
  | waits {sec : ℕ} {m' : Main} (hpc : m.pc = .loop) (hsec : sec < m.nextTimestamp)
      (hnext : m'.nextTimestamp = m.nextTimestamp) (hpc' : m'.pc = .branch) :
      m.Timed b (.clockGettime sec) m'
  | due {sec : ℕ} {m' : Main} (hpc : m.pc = .loop) (hsec : m.nextTimestamp ≤ sec)
      (hnext : m'.nextTimestamp = sec + 10)
      (hpc' : m'.pc = if b.disableTimestamp then .branch else .stamp .localtime) :
      m.Timed b (.clockGettime sec) m'
  | asks {tm : Tm} {m' : Main} {pc : StampPc} (hpc : m.pc = .stamp .localtime)
      (hnext : m'.nextTimestamp = m.nextTimestamp) (hpc' : m'.pc = .stamp pc)
      (hne : pc ≠ .localtime) (htext : ∀ text, pc.text = some text → text = timeStamp tm) :
      m.Timed b (.localtime tm) m'
  | writes {fd : Fd} {text : List Byte} {written : Option ℕ} {m' : Main} {pc : StampPc}
      (hpc : m.pc = .stamp (.write fd text)) (hnext : m'.nextTimestamp = m.nextTimestamp)
      (hpc' : m'.pc = .stamp pc) (hne : pc ≠ .localtime) (htext : pc.text = none) :
      m.Timed b (.write fd text written) m'
  | other {e : Event} {m' : Main} (he : ∀ rs, readingsCall rs e = rs) (hwrite : e.isWrite = false)
      (hpc : m.pc ≠ .start ∧ m.pc ≠ .stamp .localtime)
      (hnext : m'.nextTimestamp = m.nextTimestamp)
      (hpc' : m'.pc ≠ .start ∧ m'.pc ≠ .stamp .localtime)
      (htext : ∀ text, m'.stampText = some text → m.stampText = some text) : m.Timed b e m'

theorem getFileMutex_quiet {e : Event} {rc : ℤ} (h : getFileMutex b e = some rc) :
    (∀ rs, readingsCall rs e = rs) ∧ e.isWrite = false := by
  unfold getFileMutex at h
  split at h
  next => exact ⟨fun _ => rfl, rfl⟩
  next => exact ⟨fun _ => rfl, rfl⟩
  next => cases h

theorem releaseFileMutex_quiet {e : Event} {rc : ℤ} (h : releaseFileMutex b e = some rc) :
    (∀ rs, readingsCall rs e = rs) ∧ e.isWrite = false := by
  unfold releaseFileMutex at h
  split at h
  next => exact ⟨fun _ => rfl, rfl⟩
  next => exact ⟨fun _ => rfl, rfl⟩
  next => cases h

theorem Main.clockGettime_timed {m m' : Main} {sec : ℕ} (hpc : m.pc = .loop)
    (h : m.step b (.clockGettime sec) = some m') : m.Timed b (.clockGettime sec) m' := by
  simp only [Main.step, hpc] at h
  split at h
  next =>
    split at h
    next hle =>
      cases h
      exact .due hpc hle rfl rfl
    next hlt =>
      cases h
      exact .waits hpc (not_le.mp hlt) rfl rfl
  next => cases h

theorem Main.step_timed {m m' : Main} {e : Event} (h : m.step b e = some m') : m.Timed b e m' := by
  have hn := Main.step_next h
  cases hn with
  | starts hpc sec => exact .starts hpc rfl rfl
  | ticks hpc | stampDue hpc => exact Main.clockGettime_timed hpc h
  | stamps hpc hstamp =>
    cases hstamp with
    | formatFails tm => exact .asks hpc rfl rfl (by simp) (by simp [StampPc.text])
    | formats tm => exact .asks hpc rfl rfl (by simp) (by simp [StampPc.text, eq_comm])
    | lock hm =>
      obtain ⟨he, hwrite⟩ := getFileMutex_quiet hm
      refine .other he hwrite (by simp [hpc]) rfl ?_ ?_
      · dsimp only [Main.goto]
        split <;> simp
      · dsimp only [Main.stampText, Main.goto]
        split <;> simp [hpc, StampPc.text]
    | writes fd text written =>
      refine .writes hpc rfl rfl ?_ ?_
      · split <;> simp
      · split <;> rfl
    | openFails | closesFailed =>
      exact .other (fun _ => rfl) rfl (by simp [hpc]) rfl (by simp)
        (by simp [Main.stampText, StampPc.text])
    | opens text fd =>
      exact .other (fun _ => rfl) rfl (by simp [hpc]) rfl (by simp)
        (by simp [Main.stampText, StampPc.text, hpc])
    | closes fd ok =>
      exact .other (fun _ => rfl) rfl (by simp [hpc]) rfl (by cases ok <;> simp)
        (by cases ok <;> simp [Main.stampText, StampPc.text])
    | unlocks hm | unlocksFailed hm =>
      obtain ⟨he, hwrite⟩ := releaseFileMutex_quiet hm
      exact .other he hwrite (by simp [hpc]) rfl (by simp) (by simp [Main.stampText, StampPc.text])
  | stamped hpc hstamp =>
    cases hstamp
    exact .other (fun _ => rfl) rfl (by simp [hpc]) rfl (by simp) (by simp [Main.stampText])
  | mallocFails hpc =>
    refine .other (fun _ => rfl) rfl ?_ rfl (by simp) (by simp [Main.stampText])
    rcases hpc with hpc | ⟨item, hpc⟩ <;> simp [hpc]
  | caught hpc | notCaught hpc | listEmpty hpc | listNotEmpty hpc | acceptFails hpc | accepts hpc
  | mallocsItem hpc | mallocsData hpc | createFails hpc | creates hpc | finishes hpc | toJoin hpc
  | toCreate hpc | skips hpc | joinsDone hpc | joinsNot hpc | joins hpc | joinCloses hpc
  | freesItem hpc | freesData hpc =>
    exact .other (fun _ => rfl) rfl (by simp [hpc]) rfl (by simp) (by simp [Main.stampText])

@[simp] theorem secs_append (rs rs' : List Reading) : secs (rs ++ rs') = secs rs ++ secs rs' :=
  List.map_append

@[simp] theorem secs_singleton (r : Reading) : secs [r] = [r.sec] := rfl

theorem stampTimes_concat (rs : List Reading) (r : Reading) :
    stampTimes (rs ++ [r]) = stampTimes rs ++ if r.calls = [] then [] else [r.sec] := by
  rw [stampTimes, List.filter_append, secs_append, stampTimes]
  by_cases hr : r.calls = [] <;> simp [hr, secs]

theorem readingsCall_localtime (rs : List Reading) (r : Reading) (tm : Tm) :
    readingsCall (rs ++ [r]) (.localtime tm) = rs ++ [r.add (.localtime tm)] :=
  List.modifyLast_concat _ _ _

theorem readingsCall_write (rs : List Reading) (r : Reading) (fd : Fd) (data : List Byte)
    (written : Option ℕ) :
    readingsCall (rs ++ [r]) (.write fd data written) = rs ++ [r.add (.write fd data written)] :=
  List.modifyLast_concat _ _ _

/-- The reading whose call of `write_time_stamp` the main thread is about to begin. -/
def Main.stampDue (m : Main) (rs : List Reading) : List ℕ :=
  if m.pc = .stamp .localtime then (secs rs).getLast?.toList else []

theorem Main.stampDue_of_ne {m : Main} (h : m.pc ≠ .stamp .localtime) (rs : List Reading) :
    m.stampDue rs = [] := if_neg h

def writesIn (rs : List Reading) : ℕ := (rs.map fun r => r.calls.countP Event.isWrite).sum

theorem writesIn_concat (rs : List Reading) (r : Reading) :
    writesIn (rs ++ [r]) = writesIn rs + r.calls.countP Event.isWrite := by
  rw [writesIn, List.map_append, List.sum_append, List.map_singleton, List.sum_singleton, writesIn]

theorem writesIn_le {rs : List Reading} (h : ∀ r ∈ rs, r.calls = [] ∨ r.Stamped) :
    writesIn rs ≤ (stampTimes rs).length := by
  induction rs using List.reverseRecOn with
  | nil => exact Nat.le_refl 0
  | append_singleton rs r ih =>
    have hrs := ih fun r' hr' => h r' (List.mem_append_left _ hr')
    rw [writesIn_concat, stampTimes_concat, List.length_append]
    rcases h r (List.mem_append_right _ List.mem_cons_self) with hr | ⟨tm, hr | ⟨fd, written, hr⟩⟩
    · simpa [hr] using hrs
    · simpa [hr, Event.isWrite] using Nat.le_succ_of_le hrs
    · simpa [hr, Event.isWrite] using hrs

/-- The main thread after its first reading: `next_timestamp` is what the timer says, the calls made
so far are those that were due, and the text it holds is that of the latest call. -/
structure Clocked (m : Main) (first : ℕ) (passes : List Reading) : Prop where
  running : m.pc ≠ .start
  next_eq : m.nextTimestamp = lastDue 10 first (secs passes) + 10
  stamped : stampTimes passes ++ m.stampDue passes = due 10 first (secs passes)
  shape : ∀ r ∈ passes, r.calls = [] ∨ r.Stamped
  asks : m.pc = .stamp .localtime → ∃ done sec, passes = done ++ [⟨sec, []⟩]
  holds : ∀ text, m.stampText = some text →
    ∃ done sec tm, passes = done ++ [⟨sec, [.localtime tm]⟩] ∧ text = timeStamp tm

variable {m m' : Main} {e : Event} {first sec : ℕ} {passes done : List Reading}

theorem Clocked.shape_replace {r r' : Reading} (h : Clocked m first (done ++ [r]))
    (hr' : r'.Stamped) : ∀ x ∈ done ++ [r'], x.calls = [] ∨ x.Stamped := by
  intro x hx
  rcases List.mem_append.mp hx with hx | hx
  · exact h.shape x (List.mem_append_left _ hx)
  · exact .inr (List.mem_singleton.mp hx ▸ hr')

/-- The clock is read: the call is due exactly when the timer goes off. -/
theorem Clocked.reads (h : Clocked m first passes) (hpc : m.pc = .loop)
    (hb : b.disableTimestamp = false) (ht : m.Timed b (.clockGettime sec) m') :
    Clocked m' first (passes ++ [⟨sec, []⟩]) := by
  have hstamped : stampTimes passes = due 10 first (secs passes) := by
    simpa [Main.stampDue, hpc] using h.stamped
  have hshape : ∀ r ∈ passes ++ [⟨sec, []⟩], r.calls = [] ∨ r.Stamped := by
    intro r hr
    rcases List.mem_append.mp hr with hr | hr
    · exact h.shape r hr
    · exact .inl (List.mem_singleton.mp hr ▸ rfl)
  cases ht with
  | starts hpc₀ => simp [hpc] at hpc₀
  | waits _ hsec hnext hpc' =>
    rw [h.next_eq] at hsec
    constructor
    · simp [hpc']
    · rw [hnext, h.next_eq, secs_append, secs_singleton, lastDue_concat_of_lt hsec]
    · rw [Main.stampDue_of_ne (by simp [hpc']), stampTimes_concat, if_pos rfl, hstamped,
        secs_append, secs_singleton, due_concat, if_neg (not_le.mpr hsec), List.append_nil]
    · exact hshape
    · simp [hpc']
    · simp [Main.stampText, hpc']
  | due _ hsec hnext hpc' =>
    rw [hb, if_neg Bool.false_ne_true] at hpc'
    rw [h.next_eq] at hsec
    constructor
    · simp [hpc']
    · rw [hnext, secs_append, secs_singleton, lastDue_concat_of_le hsec]
    · rw [Main.stampDue, if_pos hpc', stampTimes_concat, if_pos rfl, hstamped, secs_append,
        secs_singleton, due_concat, if_pos hsec, List.append_nil, List.getLast?_concat]
      rfl
    · exact hshape
    · exact fun _ => ⟨passes, sec, rfl⟩
    · simp [Main.stampText, hpc', StampPc.text]
  | other he => simpa [readingsCall] using he []

theorem Clocked.asked {tm : Tm} {pc : StampPc} (h : Clocked m first (done ++ [⟨sec, []⟩]))
    (hpc : m.pc = .stamp .localtime) (hnext : m'.nextTimestamp = m.nextTimestamp)
    (hpc' : m'.pc = .stamp pc) (hne : pc ≠ .localtime)
    (htext : ∀ text, pc.text = some text → text = timeStamp tm) :
    Clocked m' first (done ++ [⟨sec, [.localtime tm]⟩]) := by
  have hstamped := h.stamped
  rw [Main.stampDue, if_pos hpc, stampTimes_concat, if_pos rfl, List.append_nil, secs_append,
    secs_singleton, List.getLast?_concat, Option.toList_some] at hstamped
  constructor
  · simp [hpc']
  · rw [hnext, h.next_eq, secs_append, secs_append, secs_singleton, secs_singleton]
  · rw [Main.stampDue_of_ne (by simp [hpc', hne]), stampTimes_concat, if_neg (by simp),
      List.append_nil, secs_append, secs_singleton, hstamped]
  · exact h.shape_replace ⟨tm, .inl rfl⟩
  · simp [hpc', hne]
  · intro text ht
    rw [Main.stampText, hpc'] at ht
    exact ⟨done, sec, tm, rfl, htext text ht⟩

theorem Clocked.wrote {tm : Tm} {pc : StampPc} {fd : Fd} {written : Option ℕ}
    (h : Clocked m first (done ++ [⟨sec, [.localtime tm]⟩])) (hpc : m.pc ≠ .stamp .localtime)
    (hnext : m'.nextTimestamp = m.nextTimestamp) (hpc' : m'.pc = .stamp pc) (hne : pc ≠ .localtime)
    (htext : pc.text = none) :
    Clocked m' first (done ++ [⟨sec, [.localtime tm, .write fd (timeStamp tm) written]⟩]) := by
  have hstamped := h.stamped
  rw [Main.stampDue_of_ne hpc, stampTimes_concat, if_neg (by simp), List.append_nil, secs_append,
    secs_singleton] at hstamped
  constructor
  · simp [hpc']
  · rw [hnext, h.next_eq, secs_append, secs_append, secs_singleton, secs_singleton]
  · rw [Main.stampDue_of_ne (by simp [hpc', hne]), stampTimes_concat, if_neg (by simp),
      List.append_nil, secs_append, secs_singleton, hstamped]
  · exact h.shape_replace ⟨tm, .inr ⟨fd, written, rfl⟩⟩
  · simp [hpc', hne]
  · simp [Main.stampText, hpc', htext]

theorem Clocked.step (h : Clocked m first passes) (hb : b.disableTimestamp = false)
    (ht : m.Timed b e m') :
    ∃ passes', readingsCall (⟨first, []⟩ :: passes) e = ⟨first, []⟩ :: passes' ∧
      Clocked m' first passes' ∧
      writesIn passes' = writesIn passes + if e.isWrite then 1 else 0 := by
  cases ht with
  | starts hpc => exact absurd hpc h.running
  | waits hpc hsec hnext hpc' =>
    exact ⟨_, rfl, h.reads hpc hb (.waits hpc hsec hnext hpc'), writesIn_concat _ _⟩
  | due hpc hsec hnext hpc' =>
    exact ⟨_, rfl, h.reads hpc hb (.due hpc hsec hnext hpc'), writesIn_concat _ _⟩
  | @asks tm _ _ hpc hnext hpc' hne htext =>
    obtain ⟨done, sec, rfl⟩ := h.asks hpc
    refine ⟨done ++ [⟨sec, [.localtime tm]⟩], ?_, h.asked hpc hnext hpc' hne htext, ?_⟩
    · exact readingsCall_localtime (⟨first, []⟩ :: done) ⟨sec, []⟩ tm
    · rw [writesIn_concat, writesIn_concat]
      rfl
  | @writes fd text written _ _ hpc hnext hpc' hne htext =>
    obtain ⟨done, sec, tm, rfl, rfl⟩ := h.holds text (by rw [Main.stampText, hpc]; rfl)
    refine ⟨done ++ [⟨sec, [.localtime tm, .write fd (timeStamp tm) written]⟩], ?_,
      h.wrote (by simp [hpc]) hnext hpc' hne htext, ?_⟩
    · exact readingsCall_write (⟨first, []⟩ :: done) ⟨sec, [.localtime tm]⟩ fd _ written
    · rw [writesIn_concat, writesIn_concat]
      rfl
  | other he hwrite hpc hnext hpc' htext =>
    refine ⟨passes, he _, ?_, by rw [hwrite]; rfl⟩
    constructor
    · exact hpc'.1
    · rw [hnext, h.next_eq]
    · rw [Main.stampDue_of_ne hpc'.2, ← Main.stampDue_of_ne hpc.2 passes, h.stamped]
    · exact h.shape
    · exact fun hpc₀ => absurd hpc₀ hpc'.2
    · exact fun text ht => h.holds text (htext text ht)

/-- Before its first reading the main thread has called nothing; after it the readings so far fit
its state. -/
def Scheduled (m : Main) (rs : List Reading) (written : ℕ) : Prop :=
  (m.pc = .start ∧ rs = [] ∧ written = 0) ∨
    ∃ first passes, rs = ⟨first, []⟩ :: passes ∧ Clocked m first passes ∧ written = writesIn passes

theorem Scheduled.step {rs : List Reading} {written : ℕ} (h : Scheduled m rs written)
    (hb : b.disableTimestamp = false) (ht : m.Timed b e m') :
    Scheduled m' (readingsCall rs e) (written + if e.isWrite then 1 else 0) := by
  right
  rcases h with ⟨hpc, rfl, rfl⟩ | ⟨first, passes, rfl, hc, rfl⟩
  · cases ht with
    | @starts sec _ _ hnext hpc' =>
      refine ⟨sec, [], rfl, ?_, rfl⟩
      constructor
      · simp [hpc']
      · rw [hnext]
        rfl
      · rw [Main.stampDue_of_ne (by simp [hpc'])]
        rfl
      · simp
      · simp [hpc']
      · simp [Main.stampText, hpc']
    | waits hpc₀ | due hpc₀ | asks hpc₀ | writes hpc₀ => cases hpc.symm.trans hpc₀
    | other _ _ hpc₀ => exact absurd hpc hpc₀.1
  · obtain ⟨passes', hrs, hc', hwrites⟩ := hc.step hb ht
    exact ⟨first, passes', hrs, hc', hwrites.symm⟩

theorem stampWrites_main (e : Event) (choice : χ) :
    Label.stampWrites (.thread .main e choice) = if e.isWrite then 1 else 0 := by
  cases e <;> rfl

theorem System.step_main_step {s s' : System σ} {choice : χ}
    (h : s.step ops b (.thread .main e choice) = some s') : s.main.step b e = some s'.main := by
  simp only [System.step] at h
  split at h
  next =>
    obtain ⟨main, hmain, h⟩ := Option.bind_eq_some_iff.mp h
    obtain ⟨kernel, -, h⟩ := Option.bind_eq_some_iff.mp h
    obtain ⟨workers, -, h⟩ := Option.bind_eq_some_iff.mp h
    rw [hmain, ← Option.some.inj h]
  next => cases h

theorem System.step_main_eq {s s' : System σ} {l : Label χ} (h : s.step ops b l = some s')
    (hl : ∀ e choice, l ≠ .thread .main e choice) : s'.main = s.main := by
  cases l with
  | thread t e choice =>
    cases t with
    | main => exact absurd rfl (hl e choice)
    | worker i =>
      obtain ⟨-, w, w', kernel, -, -, -, rfl⟩ := System.step_worker h
      rfl
  | signal sig =>
    obtain ⟨-, -, rfl⟩ := System.step_signal h
    rfl
  | disconnect c =>
    obtain ⟨-, -, rfl⟩ := System.step_disconnect h
    rfl

theorem scheduled {node : σ} {reserved : Fd → Bool} {tr : List (Label χ)} {s : System σ}
    (hb : b.disableTimestamp = false)
    (hrun : Run (System.Step ops b) (System.start node reserved) tr s) :
    Scheduled s.main (readingsOf tr) (tr.map Label.stampWrites).sum := by
  refine hrun.invariant
    (P := fun tr s => Scheduled s.main (readingsOf tr) (tr.map Label.stampWrites).sum)
    (.inl ⟨rfl, rfl, rfl⟩) ?_
  intro tr s l s' _ h hs
  rw [readingsOf, List.foldl_append, List.foldl_cons, List.foldl_nil, List.map_append,
    List.sum_append, List.map_singleton, List.sum_singleton]
  by_cases hl : ∃ e choice, l = .thread .main e choice
  · obtain ⟨e, choice, rfl⟩ := hl
    rw [stampWrites_main]
    exact h.step hb (Main.step_timed (System.step_main_step hs.2))
  · have hother : ∀ e choice, l ≠ .thread .main e choice := fun e choice he => hl ⟨e, choice, he⟩
    have hquiet : readingsNext (readingsOf tr) l = readingsOf tr ∧ l.stampWrites = 0 := by
      cases l with
      | thread t e choice =>
        cases t with
        | main => exact absurd rfl (hother e choice)
        | worker i => exact ⟨rfl, rfl⟩
      | signal sig => exact ⟨rfl, rfl⟩
      | disconnect c => exact ⟨rfl, rfl⟩
    rw [System.step_main_eq hs.2 hother, hquiet.2]
    exact hquiet.1.symm ▸ h

/-- In every run of the server the calls of `write_time_stamp` are those that a timer of ten seconds
demands: each comes after the first reading that is ten seconds or more after the reading of the
call before (for the first call: after the reading at the start), and no other reading is followed
by one, whatever fails. Each writes at most once, the whole time, and `n` writes take `10 * n`
seconds. -/
theorem time_stamps_due {node : σ} {reserved : Fd → Bool} {tr : List (Label χ)} {s : System σ}
    (hb : b.disableTimestamp = false)
    (hrun : Run (System.Step ops b) (System.start node reserved) tr s) :
    (readingsOf tr = [] ∧ (tr.map Label.stampWrites).sum = 0) ∨
      ∃ first passes, readingsOf tr = ⟨first, []⟩ :: passes ∧
        stampTimes passes ++ s.main.stampDue passes = due 10 first (secs passes) ∧
        (first :: stampTimes passes).IsChain (fun r r' => r + 10 ≤ r') ∧
        (∀ r ∈ passes, r.calls = [] ∨ r.Stamped) ∧
        first + 10 * (tr.map Label.stampWrites).sum ≤ lastDue 10 first (secs passes) := by
  rcases scheduled hb hrun with ⟨-, hrs, hwritten⟩ | ⟨first, passes, hrs, hc, hwritten⟩
  · exact .inl ⟨hrs, hwritten⟩
  · refine .inr ⟨first, passes, hrs, hc.stamped, ?_, hc.shape, ?_⟩
    · have hchain := due_isChain 10 first (secs passes)
      rw [← hc.stamped, ← List.cons_append] at hchain
      exact hchain.left_of_append
    · have hwrites := writesIn_le hc.shape
      have hlen := congrArg List.length hc.stamped
      have hbound := add_nsmul_le_lastDue 10 first (secs passes)
      rw [List.length_append] at hlen
      rw [smul_eq_mul] at hbound
      omega

def halfPastTen : Tm := ⟨2026, 2, 15, 10, 30, 0⟩

/-- A pass without a client: after the reading `write_time_stamp` makes the calls `stamp`. -/
def idlePass (sec : ℕ) (stamp : List Event) : List Event :=
  .clockGettime sec :: stamp ++ [.compute, .compute, .loadSignal false, .loadSignal false,
    .accept none]

/-- Readings 100 (the start), 105, 113, 122 and 123: the first timestamp is written three seconds
late, and the lock fails at the second. -/
def lateStamps : List (Label Unit) :=
  (.clockGettime 100 :: idlePass 105 [] ++
    idlePass 113 [.localtime halfPastTen, .mutexLock true, .openFile (some 3),
      .write 3 (timeStamp halfPastTen) (some (timeStamp halfPastTen).length), .close 3 true,
      .mutexUnlock true, .returns 0] ++ idlePass 122 [] ++
    idlePass 123 [.localtime halfPastTen, .mutexLock false, .returns (-1)]).map
      fun e => .thread .main e ()

theorem lateStamps_due : stampTimes (readingsOf lateStamps).tail = [113, 123] ∧
    ∃ s, Run (System.Step regularFile fileBuild) (System.start [] fun _ => false) lateStamps s ∧
      ((readingsOf lateStamps = [] ∧ (lateStamps.map Label.stampWrites).sum = 0) ∨
        ∃ first passes, readingsOf lateStamps = ⟨first, []⟩ :: passes ∧
          stampTimes passes ++ s.main.stampDue passes = due 10 first (secs passes) ∧
          (first :: stampTimes passes).IsChain (fun r r' => r + 10 ≤ r') ∧
          (∀ r ∈ passes, r.calls = [] ∨ r.Stamped) ∧
          first + 10 * (lateStamps.map Label.stampWrites).sum ≤
            lastDue 10 first (secs passes)) := by
  have hruns : (lateStamps.foldlM (System.step regularFile fileBuild)
      (System.start [] fun _ => false)).isSome := by decide +kernel
  obtain ⟨s, hs⟩ := Option.isSome_iff_exists.mp hruns
  have hrun := run_of_foldlM (by decide +kernel) hs
  exact ⟨by decide +kernel, s, hrun, time_stamps_due rfl hrun⟩

end Aesd.Server
