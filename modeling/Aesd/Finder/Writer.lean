import Aesd.Lib.Files

/-! The `writer` utility: `writer.c`. What the kernel decides (whether `open`, `write` and `close`
fail, how much `write` takes, which inode a new file gets) is an argument of each invocation. -/
namespace Aesd.Finder
open Files

/-- A C string: its bytes before the terminating `NUL`. -/
structure CString where
  chars : List UInt8
  noNul : 0 ∉ chars
  deriving DecidableEq

def CString.strlen (s : CString) : ℕ := s.chars.length

abbrev FileSystem := Files.FileSystem CString UInt8

/-- `FILE_FLAGS`. -/
def fileFlags : ℕ := oWrOnly ||| oCreat

/-- `FILE_MODE`: `S_IRUSR | S_IWUSR | S_IRGRP | S_IWGRP | S_IROTH`. -/
def fileMode : ℕ := 0o400 ||| 0o200 ||| 0o40 ||| 0o20 ||| 0o4

/-- `BUFFER_SIZE`. -/
def bufferSize : ℕ := 256

inductive LogLevel where
  | err
  | debug
  deriving DecidableEq

/-- What `print_and_log` prints and sends to syslog. -/
structure Message where
  level : LogLevel
  content : List UInt8
  deriving DecidableEq

def ascii (s : String) : List UInt8 := s.toList.map fun c => c.toNat.toUInt8

/-- What `snprintf` leaves in `print_buffer` of the text it formats. -/
def snprintf (text : List UInt8) : List UInt8 := text.take (bufferSize - 1)

def fileError (before : String) (writefile : CString) : Message :=
  ⟨.err, snprintf (ascii before ++ writefile.chars ++ ascii "'!\n")⟩

def missingWritefile : Message := ⟨.err, snprintf (ascii "Error: Missing writefile argument!\n")⟩
def missingWritestr : Message := ⟨.err, snprintf (ascii "Error: Missing writestr argument!\n")⟩
def openFailed : CString → Message := fileError "Error: Failed to open file '"
def writeFailed : CString → Message := fileError "Error: Failed to write to file '"
def writeShort : CString → Message := fileError "Error: Failed to write all content to file '"
def closeFailed : CString → Message := fileError "Error: Failed to close file '"

def writing (writestr writefile : CString) : Message :=
  ⟨.debug, snprintf (ascii "Writing '" ++ writestr.chars ++ ascii "' to '" ++ writefile.chars ++
    ascii "'\n")⟩

/-- The kernel's part in one invocation. `openFails` is a failure for any reason but a missing
directory; `write` is what `write` returns, `none` for `-1`. -/
structure WriterEnv where
  openFails : Bool
  fresh : ℕ
  umask : ℕ
  write : Option ℕ
  closeFails : Bool

/-- How an invocation ends: its exit status, the files it leaves and what it has logged. -/
structure Exit where
  status : ℕ
  files : FileSystem
  messages : List Message

/-- `open(writefile, FILE_FLAGS, FILE_MODE)`; `none` for `-1`. -/
def openWritefile (fs : FileSystem) (env : WriterEnv) (writefile : CString) :
    Option (FileSystem × ℕ) :=
  if env.openFails then none else fs.openPath writefile fileFlags fileMode env.umask env.fresh

/-- `main`, once `open` has succeeded: the descriptor is at offset 0. -/
def writeContents (fs : FileSystem) (env : WriterEnv) (file : ℕ) (writefile writestr : CString) :
    Exit :=
  let log := writing writestr writefile
  let writeLength := writestr.strlen
  match env.write with
  | none => ⟨1, fs, [log, writeFailed writefile]⟩
  | some bytesWritten =>
    let fs := fs.write file 0 (writestr.chars.take bytesWritten)
    if bytesWritten ≠ writeLength then ⟨1, fs, [log, writeShort writefile]⟩
    else if env.closeFails then ⟨1, fs, [log, closeFailed writefile]⟩
    else ⟨0, fs, [log]⟩

/-- `main`, `argv` being its `argc` arguments. -/
def main (fs : FileSystem) (env : WriterEnv) (argv : List CString) : Exit :=
  match argv with
  | [] => ⟨1, fs, [missingWritefile]⟩
  | [_] => ⟨1, fs, [missingWritefile]⟩
  | [_, _] => ⟨1, fs, [missingWritestr]⟩
  | _ :: writefile :: writestr :: _ =>
    match openWritefile fs env writefile with
    | none => ⟨1, fs, [openFailed writefile]⟩
    | some (fs, file) => writeContents fs env file writefile writestr

/-- `FILE_FLAGS` creates and does not truncate. -/
theorem openWritefile_spec {fs fs₁ : FileSystem} {env : WriterEnv} {writefile : CString} {i : ℕ}
    (hfresh : fs.file env.fresh = none)
    (hopen : openWritefile fs env writefile = some (fs₁, i)) :
    fs₁.lookup writefile = some i ∧ (∀ j, fs₁.content j = fs.content j) ∧
      (∀ j, j ≠ i → fs₁.file j = fs.file j) ∧
      (∀ other, fs₁.lookup other = some i ∨ fs₁.lookup other = fs.lookup other) ∧
      fs.contentAt writefile = fs.content i ∧
      (fs.lookup writefile = some i ∨ (fs.lookup writefile = none ∧ i = env.fresh)) := by
  unfold openWritefile at hopen
  split at hopen
  · cases hopen
  · exact FileSystem.openPath_spec (by decide) hfresh hopen

theorem main_live (fs : FileSystem) (env : WriterEnv) (argv : List CString) {j : ℕ}
    (hj : (fs.file j).isSome) : ((main fs env argv).files.file j).isSome := by
  unfold main
  split
  next => exact hj
  next => exact hj
  next => exact hj
  next writefile writestr _ =>
    split
    next => exact hj
    next fs₁ file hopen =>
      have hopened : (fs₁.file j).isSome := by
        unfold openWritefile at hopen
        split at hopen
        · cases hopen
        · exact FileSystem.openPath_live hopen hj
      unfold writeContents
      dsimp only
      split
      next => exact hopened
      next bytesWritten _ =>
        have hwritten := FileSystem.write_live file 0 (writestr.chars.take bytesWritten) hopened
        split
        · exact hwritten
        · split <;> exact hwritten

theorem snprintf_length (text : List UInt8) : (snprintf text).length < bufferSize := by
  rw [snprintf, List.length_take]
  unfold bufferSize
  omega

section
variable (fs : FileSystem) (env : WriterEnv)

theorem writeContents_messages (file : ℕ) (writefile writestr : CString) :
    let exit := writeContents fs env file writefile writestr
    (∀ m ∈ exit.messages, m.content.length < bufferSize) ∧
      (exit.status = 0 ↔ ∀ m ∈ exit.messages, m.level = .debug) := by
  unfold writeContents
  dsimp only
  split
  · simp [writing, writeFailed, fileError, snprintf_length]
  · split
    · simp [writing, writeShort, fileError, snprintf_length]
    · split
      · simp [writing, closeFailed, fileError, snprintf_length]
      · simp [writing, snprintf_length]

/-- Every message fits the buffer, and an invocation exits 0 exactly when it has logged no error. -/
theorem main_messages (argv : List CString) :
    (∀ m ∈ (main fs env argv).messages, m.content.length < bufferSize) ∧
      ((main fs env argv).status = 0 ↔
        ∀ m ∈ (main fs env argv).messages, m.level = .debug) := by
  unfold main
  split
  · simp [missingWritefile, snprintf_length]
  · simp [missingWritefile, snprintf_length]
  · simp [missingWritestr, snprintf_length]
  · split
    · simp [openFailed, fileError, snprintf_length]
    · exact writeContents_messages ..

end

end Aesd.Finder
