import Aesd.Finder.Writer
import Aesd.Lib.Runs

/-! Sequences of `writer` invocations. `FILE_FLAGS` has no `O_TRUNC`, so an invocation that exits 0
leaves exactly its string when the file held no more bytes than that. -/
namespace Aesd.Finder
open Files Files.FileSystem Blocks Runs

def named : List CString → Option (CString × CString)
  | _ :: writefile :: writestr :: _ => some (writefile, writestr)
  | _ => none

/-- One invocation: its `argv` and the kernel's part in it. -/
structure Invocation where
  argv : List CString
  env : WriterEnv

/-- The files, and for each inode the string of the last invocation on it that exited 0. -/
structure Host where
  files : FileSystem
  lastWritten : ℕ → Option CString
  live : ∀ i, (lastWritten i).isSome → (files.file i).isSome

/-- The inode that the path of an invocation names afterwards, and its string. -/
def written (argv : List CString) (exit : Exit) : Option (ℕ × CString) :=
  (named argv).bind fun p => (exit.files.lookup p.1).map fun i => (i, p.2)

/-- What an invocation adds to the record of the last strings. -/
def record (lastWritten : ℕ → Option CString) (argv : List CString) (exit : Exit) :
    ℕ → Option CString :=
  if exit.status = 0 then
    match written argv exit with
    | some (i, writestr) => Function.update lastWritten i (some writestr)
    | none => lastWritten
  else lastWritten

section
variable {lastWritten : ℕ → Option CString} {argv : List CString} {exit : Exit}
  {writefile writestr : CString} {i j : ℕ}

theorem record_of_error (h : exit.status ≠ 0) : record lastWritten argv exit = lastWritten :=
  if_neg h

theorem record_of_success (h : exit.status = 0) (hargv : named argv = some (writefile, writestr))
    (hlookup : exit.files.lookup writefile = some i) :
    record lastWritten argv exit = Function.update lastWritten i (some writestr) := by
  simp [record, written, h, hargv, hlookup]

theorem record_live (hkeep : ∀ j, (lastWritten j).isSome → (exit.files.file j).isSome)
    (hj : (record lastWritten argv exit j).isSome) : (exit.files.file j).isSome := by
  unfold record at hj
  split at hj
  next =>
    cases hwritten : written argv exit with
    | none =>
      rw [hwritten] at hj
      exact hkeep j hj
    | some p =>
      obtain ⟨q, -, hq⟩ := Option.bind_eq_some_iff.mp hwritten
      obtain ⟨i, hlookup, rfl⟩ := Option.map_eq_some_iff.mp hq
      rw [hwritten] at hj
      by_cases hji : j = i
      · rw [hji]
        exact lookup_live hlookup
      · apply hkeep j
        dsimp only at hj
        rwa [Function.update_of_ne hji] at hj
  next => exact hkeep j hj

end

namespace Host

def start (files : FileSystem) : Host := ⟨files, fun _ => none, by simp⟩

def exit (h : Host) (inv : Invocation) : Exit := main h.files inv.env inv.argv

def invoke (h : Host) (inv : Invocation) : Host where
  files := (h.exit inv).files
  lastWritten := record h.lastWritten inv.argv (h.exit inv)
  live := fun _ => record_live fun j hj => main_live h.files inv.env inv.argv (h.live j hj)

/-- An invocation; the kernel gives a new file an inode that is free. -/
def Step (h : Host) (inv : Invocation) (h' : Host) : Prop :=
  h.files.file inv.env.fresh = none ∧ h' = h.invoke inv

/-- Every file written holds exactly the last string successfully written to it. -/
def HoldsLast (h : Host) : Prop :=
  ∀ i writestr, h.lastWritten i = some writestr → h.files.content i = writestr.chars

/-- An invocation overwrites: when it exits 0 the file it names holds exactly its string, every
other file is as it was and no other name has changed; and after it every file written holds the
last string. -/
structure Overwrites (h : Host) (inv : Invocation) : Prop where
  success : (h.exit inv).status = 0 → ∃ writefile writestr i,
    named inv.argv = some (writefile, writestr) ∧ (h.exit inv).files.lookup writefile = some i ∧
      (h.exit inv).files.content i = writestr.chars ∧
      (∀ j, j ≠ i → (h.exit inv).files.file j = h.files.file j) ∧
      ∀ other, (h.exit inv).files.lookup other = some i ∨
        (h.exit inv).files.lookup other = h.files.lookup other
  last : (h.invoke inv).HoldsLast

/-- The path, the string and the number of bytes that `write` takes, unless it is not reached or
fails. -/
def transfer (h : Host) (inv : Invocation) : Option (CString × CString × ℕ) :=
  (named inv.argv).bind fun p =>
    (openWritefile h.files inv.env p.1).bind fun _ => inv.env.write.map fun n => (p.1, p.2, n)

/-- What it takes for an invocation to overwrite. One that exits 0 finds no more bytes in the file
than it writes; one that fails after its `write` finds the bytes it writes there already, unless no
invocation has exited 0 on that file before. -/
def Fits (h : Host) (inv : Invocation) : Prop :=
  ∀ writefile writestr n, h.transfer inv = some (writefile, writestr, n) →
    if n = writestr.strlen ∧ inv.env.closeFails = false then
      (h.files.contentAt writefile).length ≤ writestr.strlen
    else writestr.chars.take n <+: h.files.contentAt writefile ∨
      (h.files.lookup writefile).bind h.lastWritten = none

section
variable {h : Host} {inv : Invocation} {writefile writestr : CString} {n i : ℕ}
  {fs₁ : FileSystem}

/-- All that an invocation can do: it exits 1 with no byte of any file changed, or it writes the
first `n` bytes of its string over those of the file it opened. -/
theorem exit_cases (hfresh : h.files.file inv.env.fresh = none) :
    (h.transfer inv = none ∧ (h.exit inv).status = 1 ∧
      ∀ j, (h.exit inv).files.content j = h.files.content j) ∨
    ∃ writefile writestr n fs₁ i, named inv.argv = some (writefile, writestr) ∧
      h.transfer inv = some (writefile, writestr, n) ∧
      openWritefile h.files inv.env writefile = some (fs₁, i) ∧
      (h.exit inv).files = fs₁.write i 0 (writestr.chars.take n) ∧
      (h.exit inv).status =
        if n = writestr.strlen ∧ inv.env.closeFails = false then 0 else 1 := by
  obtain ⟨argv, env⟩ := inv
  rcases argv with _ | ⟨prog, _ | ⟨writefile, _ | ⟨writestr, rest⟩⟩⟩
  · exact .inl ⟨rfl, rfl, fun _ => rfl⟩
  · exact .inl ⟨rfl, rfl, fun _ => rfl⟩
  · exact .inl ⟨rfl, rfl, fun _ => rfl⟩
  · set inv : Invocation := ⟨prog :: writefile :: writestr :: rest, env⟩
    have htransfer : h.transfer inv = (openWritefile h.files env writefile).bind fun _ =>
        env.write.map fun n => (writefile, writestr, n) := rfl
    cases hopen : openWritefile h.files env writefile with
    | none =>
      have hexit : h.exit inv = ⟨1, h.files, [openFailed writefile]⟩ := by
        simp only [exit, inv, main, hopen]
      rw [hopen] at htransfer
      exact .inl ⟨htransfer, by rw [hexit], fun _ => by rw [hexit]⟩
    | some opened =>
      obtain ⟨fs₁, i⟩ := opened
      have hexit : h.exit inv = writeContents fs₁ env i writefile writestr := by
        simp only [exit, inv, main, hopen]
      rw [hopen, Option.bind_some] at htransfer
      rw [hexit]
      cases hwrite : env.write with
      | none =>
        rw [hwrite] at htransfer
        left
        refine ⟨htransfer, ?_, ?_⟩
        · simp [writeContents, hwrite]
        · intro j
          simp only [writeContents, hwrite]
          exact (openWritefile_spec hfresh hopen).2.1 j
      | some n =>
        rw [hwrite] at htransfer
        right
        refine ⟨writefile, writestr, n, fs₁, i, rfl, htransfer, hopen, ?_, ?_⟩
        · simp only [writeContents, hwrite]
          split
          · rfl
          · split <;> rfl
        · by_cases hn : n = writestr.strlen
          · cases hclose : env.closeFails <;> simp [writeContents, hwrite, hn, hclose]
          · simp [writeContents, hwrite, hn]

/-- An invocation that transfers nothing changes no byte of any file and fails. -/
theorem overwrites_of_no_transfer (hlast : h.HoldsLast) (hstatus : (h.exit inv).status = 1)
    (hcontent : ∀ j, (h.exit inv).files.content j = h.files.content j) : h.Overwrites inv where
  success := by
    intro hzero
    rw [hstatus] at hzero
    exact absurd hzero one_ne_zero
  last := by
    intro j writestr hj
    have hsame : (h.invoke inv).lastWritten = h.lastWritten :=
      record_of_error (by rw [hstatus]; exact one_ne_zero)
    rw [hsame] at hj
    exact (hcontent j).trans (hlast j writestr hj)

section
variable (hfresh : h.files.file inv.env.fresh = none)
  (hopen : openWritefile h.files inv.env writefile = some (fs₁, i))
  (hfiles : (h.exit inv).files = fs₁.write i 0 (writestr.chars.take n))

include hfresh hopen hfiles

/-- The file written: its old bytes with those transferred over their front. -/
theorem transfer_content : (h.exit inv).files.content i =
    splice (h.files.contentAt writefile) 0 (writestr.chars.take n) := by
  obtain ⟨hlookup, hcontent, -, -, hat, -⟩ := openWritefile_spec hfresh hopen
  rw [hfiles, content_write (lookup_live hlookup), hcontent, hat]

theorem transfer_others : (h.exit inv).files.lookup writefile = some i ∧
    (∀ j, j ≠ i → (h.exit inv).files.file j = h.files.file j) ∧
    ∀ other, (h.exit inv).files.lookup other = some i ∨
      (h.exit inv).files.lookup other = h.files.lookup other := by
  obtain ⟨hlookup, -, hothers, hnames, -⟩ := openWritefile_spec hfresh hopen
  simp only [hfiles, lookup_write]
  refine ⟨hlookup, ?_, hnames⟩
  intro j hj
  exact (write_file_of_ne hj ..).trans (hothers j hj)

/-- An invocation that exits 0 overwrites exactly when the file was no longer than its string. -/
theorem overwrites_iff_of_success (hlast : h.HoldsLast)
    (hargv : named inv.argv = some (writefile, writestr)) (hn : n = writestr.strlen)
    (hstatus : (h.exit inv).status = 0) :
    h.Overwrites inv ↔ (h.files.contentAt writefile).length ≤ writestr.strlen := by
  have hcontent := transfer_content hfresh hopen hfiles
  obtain ⟨hlookup, hothers, hnames⟩ := transfer_others hfresh hopen hfiles
  rw [hn, CString.strlen, List.take_length] at hcontent
  have hrecord : (h.invoke inv).lastWritten =
      Function.update h.lastWritten i (some writestr) := record_of_success hstatus hargv hlookup
  rw [CString.strlen, ← splice_zero_eq_iff, ← hcontent]
  constructor
  · intro hover
    apply hover.last i writestr
    rw [hrecord, Function.update_self]
  · intro hexact
    constructor
    · intro _
      exact ⟨writefile, writestr, i, hargv, hlookup, hexact, hothers, hnames⟩
    · intro j writestr' hj
      rw [hrecord] at hj
      by_cases hji : j = i
      · rw [hji, Function.update_self, Option.some.injEq] at hj
        rw [hji, ← hj]
        exact hexact
      · rw [Function.update_of_ne hji] at hj
        exact (content_congr (hothers j hji)).trans (hlast j writestr' hj)

/-- One that fails after its `write` breaks nothing exactly when it changes no byte, or no earlier
invocation has exited 0 on that file. -/
theorem overwrites_iff_of_failure (hlast : h.HoldsLast) (hstatus : (h.exit inv).status = 1) :
    h.Overwrites inv ↔ writestr.chars.take n <+: h.files.contentAt writefile ∨
      (h.files.lookup writefile).bind h.lastWritten = none := by
  have hcontent := transfer_content hfresh hopen hfiles
  obtain ⟨-, hothers, -⟩ := transfer_others hfresh hopen hfiles
  obtain ⟨-, -, -, -, hat, hcase⟩ := openWritefile_spec hfresh hopen
  have hrecord : (h.invoke inv).lastWritten = h.lastWritten :=
    record_of_error (by rw [hstatus]; exact one_ne_zero)
  have hlookup : (h.files.lookup writefile).bind h.lastWritten = h.lastWritten i := by
    rcases hcase with hold | ⟨hnew, hi⟩
    · rw [hold, Option.bind_some]
    · rw [hnew, Option.bind_none]
      by_contra hsome
      have hlive := h.live i (Option.isSome_iff_ne_none.mpr (Ne.symm hsome))
      rw [hi, hfresh] at hlive
      exact absurd hlive (by decide)
  rw [hlookup, ← splice_zero_eq_self_iff, ← hcontent]
  constructor
  · intro hover
    cases hwritten : h.lastWritten i with
    | none => exact .inr rfl
    | some last =>
      left
      have hafter : (h.exit inv).files.content i = last.chars :=
        hover.last i last (by rw [hrecord, hwritten])
      rw [hafter, hat, hlast i last hwritten]
  · intro hfits
    constructor
    · intro hzero
      rw [hstatus] at hzero
      exact absurd hzero one_ne_zero
    · intro j last hj
      rw [hrecord] at hj
      by_cases hji : j = i
      · subst hji
        rcases hfits with hsame | hnone
        · exact hsame.trans (hat.trans (hlast j last hj))
        · exact absurd (hnone.symm.trans hj) (by simp)
      · exact (content_congr (hothers j hji)).trans (hlast j last hj)

end

/-- In a state where every file written holds the last string, an invocation overwrites exactly
when it fits. -/
theorem overwrites_iff_fits (hfresh : h.files.file inv.env.fresh = none) (hlast : h.HoldsLast) :
    h.Overwrites inv ↔ h.Fits inv := by
  rcases exit_cases hfresh with ⟨hnone, hstatus, hcontent⟩ |
    ⟨writefile, writestr, n, fs₁, i, hargv, htransfer, hopen, hfiles, hstatus⟩
  · constructor
    · intro _ writefile writestr n htransfer
      exact absurd (hnone.symm.trans htransfer) (by simp)
    · intro _
      exact overwrites_of_no_transfer hlast hstatus hcontent
  · have hfits : h.Fits inv ↔ if n = writestr.strlen ∧ inv.env.closeFails = false then
          (h.files.contentAt writefile).length ≤ writestr.strlen
        else writestr.chars.take n <+: h.files.contentAt writefile ∨
          (h.files.lookup writefile).bind h.lastWritten = none := by
      constructor
      · intro hfits
        exact hfits writefile writestr n htransfer
      · intro hfits writefile' writestr' n' htransfer'
        cases htransfer.symm.trans htransfer'
        exact hfits
    rw [hfits]
    split at hstatus
    next hdone =>
      rw [if_pos hdone]
      exact overwrites_iff_of_success hfresh hopen hfiles hlast hargv hdone.1 hstatus
    next hfailed =>
      rw [if_neg hfailed]
      exact overwrites_iff_of_failure hfresh hopen hfiles hlast hstatus

end

end Host

/-- For every initial file system and every sequence of invocations: each of them overwrites, in
every state reached, exactly when each of them fits. -/
theorem writer_overwrites_iff (files : FileSystem) (tr : List Invocation) (h : Host) :
    Run (Restrict Host.Step Host.Overwrites) (Host.start files) tr h ↔
      Run (Restrict Host.Step Host.Fits) (Host.start files) tr h := by
  apply Run.restrict_iff (I := Host.HoldsLast)
  · intro i writestr hi
    cases hi
  · rintro h inv h' - ⟨-, rfl⟩ hover
    exact hover.last
  · rintro h inv h' hlast ⟨hfresh, -⟩
    exact Host.overwrites_iff_fits hfresh hlast

def emptyDirectory : FileSystem :=
  ⟨fun path => if path.chars = [102] then some 0 else none, fun _ => none, fun _ => none, by simp⟩

def completes (fresh : ℕ) (writestr : CString) : Invocation :=
  ⟨[⟨[119], by decide⟩, ⟨[102], by decide⟩, writestr],
    ⟨false, fresh, 0, some writestr.strlen, false⟩⟩

def longString : Invocation := completes 0 ⟨[97, 98, 99], by decide⟩

def shortString : Invocation := completes 1 ⟨[122], by decide⟩

/-- The shorter string leaves the tail of the longer one: both invocations exit 0, and then the
file holds `"zbc"`. -/
theorem shortString_keeps_tail :
    let h₀ := Host.start emptyDirectory
    let h₁ := h₀.invoke longString
    let h₂ := h₁.invoke shortString
    Run Host.Step h₀ [longString, shortString] h₂ ∧ (h₀.exit longString).status = 0 ∧
      (h₁.exit shortString).status = 0 ∧
      h₂.files.contentAt ⟨[102], by decide⟩ = [122, 98, 99] ∧
      ¬Run (Restrict Host.Step Host.Overwrites) h₀ [longString, shortString] h₂ := by
  intro h₀ h₁ h₂
  refine ⟨.cons ⟨by decide, rfl⟩ (.cons ⟨by decide, rfl⟩ .nil), by decide, by decide, by decide, ?_⟩
  intro hrun
  have hsplit : Run (Restrict Host.Step Host.Overwrites) h₀ ([longString] ++ [shortString]) h₂ :=
    hrun
  obtain ⟨h, -, ⟨-, hafter⟩, hover⟩ := hsplit.last
  have hlast : h₂.HoldsLast := by
    rw [hafter]
    exact hover.last
  have hcontent : h₂.files.content 0 = [122] := hlast 0 ⟨[122], by decide⟩ (by decide)
  exact absurd hcontent (by decide)

def equalString : Invocation := completes 1 ⟨[120, 121, 122], by decide⟩

theorem equalString_overwrites : ∃ h,
    Run (Restrict Host.Step Host.Overwrites) (Host.start emptyDirectory)
      [longString, equalString] h := by
  refine ⟨_, (writer_overwrites_iff _ _ _).mpr (.cons ⟨⟨by decide, rfl⟩, ?_⟩
    (.cons ⟨⟨by decide, rfl⟩, ?_⟩ .nil))⟩
  · rintro writefile writestr n ⟨⟩
    decide
  · rintro writefile writestr n ⟨⟩
    decide

end Aesd.Finder
