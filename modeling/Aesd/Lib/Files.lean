import Aesd.Lib.Blocks

/-! A file system, as far as opening and writing regular files goes. A path leads to a directory
entry, an entry may name an inode, and an inode holds a file. Several paths may lead to one entry
and several entries may name one inode. -/
namespace Files
open Blocks

variable {π β : Type*}

structure File (β : Type*) where
  content : List β
  mode : ℕ

/-- `entry` has no result for a path whose directory is missing. -/
structure FileSystem (π β : Type*) where
  entry : π → Option ℕ
  inode : ℕ → Option ℕ
  file : ℕ → Option (File β)
  live : ∀ e i, inode e = some i → (file i).isSome

def oWrOnly : ℕ := 0o1
def oCreat : ℕ := 0o100
def oTrunc : ℕ := 0o1000

namespace FileSystem

/-- The inode of the file that a path names. -/
def lookup (fs : FileSystem π β) (path : π) : Option ℕ := (fs.entry path).bind fs.inode

def content (fs : FileSystem π β) (i : ℕ) : List β := ((fs.file i).map File.content).getD []

/-- The bytes that a reader of the path finds; none when there is no such file. -/
def contentAt (fs : FileSystem π β) (path : π) : List β := ((fs.lookup path).map fs.content).getD []

theorem update_live {f : ℕ → Option (File β)} {i j : ℕ} {new : Option (File β)}
    (hnew : (f i).isSome → new.isSome) (hj : (f j).isSome) :
    (Function.update f i new j).isSome := by
  by_cases hji : j = i
  · subst hji
    rw [Function.update_self]
    exact hnew hj
  · rwa [Function.update_of_ne hji]

def setContent (fs : FileSystem π β) (i : ℕ) (bytes : List β) : FileSystem π β where
  entry := fs.entry
  inode := fs.inode
  file := Function.update fs.file i ((fs.file i).map fun f => { f with content := bytes })
  live := fun e j hj => update_live (fun hi => by simpa using hi) (fs.live e j hj)

/-- A new file at inode `i`, named by the entry `e`. -/
def create (fs : FileSystem π β) (e i : ℕ) (f : File β) : FileSystem π β where
  entry := fs.entry
  inode := Function.update fs.inode e (some i)
  file := Function.update fs.file i (some f)
  live := by
    intro e' j hj
    by_cases hji : j = i
    · simp [hji]
    · rw [Function.update_of_ne hji]
      apply fs.live e' j
      by_cases he : e' = e
      · rw [he, Function.update_self, Option.some.injEq] at hj
        exact absurd hj.symm hji
      · rwa [Function.update_of_ne he] at hj

/-- `open` when nothing but the flags and the names decides its result: the inode opened. A file it
creates gets the inode `fresh`. -/
def openPath (fs : FileSystem π β) (path : π) (flags mode umask fresh : ℕ) :
    Option (FileSystem π β × ℕ) :=
  (fs.entry path).bind fun e =>
    match fs.inode e with
    | some i => some (if flags &&& oTrunc ≠ 0 then fs.setContent i [] else fs, i)
    | none =>
      if flags &&& oCreat ≠ 0 then
        some (fs.create e fresh ⟨[], mode ^^^ (mode &&& umask)⟩, fresh)
      else none

def write (fs : FileSystem π β) (i off : ℕ) (bytes : List β) : FileSystem π β :=
  fs.setContent i (splice (fs.content i) off bytes)

section
variable {fs fs' : FileSystem π β} {i j : ℕ} {path : π} {bytes : List β}

@[simp] theorem lookup_write (fs : FileSystem π β) (i off : ℕ) (bytes : List β) (path : π) :
    (fs.write i off bytes).lookup path = fs.lookup path := rfl

theorem write_file_of_ne (hj : j ≠ i) (off : ℕ) (bytes : List β) :
    (fs.write i off bytes).file j = fs.file j := Function.update_of_ne hj ..

theorem content_congr (h : fs'.file j = fs.file j) : fs'.content j = fs.content j := by
  rw [content, content, h]

theorem content_of_free (h : fs.file i = none) : fs.content i = [] := by rw [content, h]; rfl

theorem content_write (hlive : (fs.file i).isSome) (off : ℕ) (bytes : List β) :
    (fs.write i off bytes).content i = splice (fs.content i) off bytes := by
  obtain ⟨f, hf⟩ := Option.isSome_iff_exists.mp hlive
  simp [write, setContent, content, hf]

theorem lookup_live (h : fs.lookup path = some i) : (fs.file i).isSome := by
  obtain ⟨e, -, he⟩ := Option.bind_eq_some_iff.mp h
  exact fs.live e i he

theorem contentAt_of_lookup (h : fs.lookup path = some i) : fs.contentAt path = fs.content i := by
  rw [contentAt, h]
  rfl

theorem setContent_live (i : ℕ) (bytes : List β) (hj : (fs.file j).isSome) :
    ((fs.setContent i bytes).file j).isSome :=
  update_live (fun hi => by simpa using hi) hj

theorem write_live (i off : ℕ) (bytes : List β) (hj : (fs.file j).isSome) :
    ((fs.write i off bytes).file j).isSome := setContent_live i _ hj

theorem openPath_live {flags mode umask fresh : ℕ}
    (h : fs.openPath path flags mode umask fresh = some (fs', i)) (hj : (fs.file j).isSome) :
    (fs'.file j).isSome := by
  obtain ⟨e, -, h⟩ := Option.bind_eq_some_iff.mp h
  split at h
  next i' hi =>
    cases h
    split
    · exact setContent_live _ [] hj
    · exact hj
  next =>
    split at h
    · cases h
      exact update_live (fun _ => rfl) hj
    · cases h

/-- `open` without `O_TRUNC` changes no byte of any file. A path then names the file opened or what
it named before, and the other files are as they were. -/
theorem openPath_spec {flags mode umask fresh : ℕ} (htrunc : flags &&& oTrunc = 0)
    (hfresh : fs.file fresh = none)
    (h : fs.openPath path flags mode umask fresh = some (fs', i)) :
    fs'.lookup path = some i ∧ (∀ j, fs'.content j = fs.content j) ∧
      (∀ j, j ≠ i → fs'.file j = fs.file j) ∧
      (∀ other, fs'.lookup other = some i ∨ fs'.lookup other = fs.lookup other) ∧
      fs.contentAt path = fs.content i ∧
      (fs.lookup path = some i ∨ (fs.lookup path = none ∧ i = fresh)) := by
  obtain ⟨e, he, h⟩ := Option.bind_eq_some_iff.mp h
  split at h
  next i' hi =>
    rw [if_neg (not_not.mpr htrunc)] at h
    cases h
    have hlookup : fs.lookup path = some i := by rw [lookup, he, Option.bind_some, hi]
    exact ⟨hlookup, fun _ => rfl, fun _ _ => rfl, fun _ => .inr rfl, contentAt_of_lookup hlookup,
      .inl hlookup⟩
  next hnone =>
    split at h
    next =>
      cases h
      have hlookup : fs.lookup path = none := by rw [lookup, he, Option.bind_some, hnone]
      have hother : ∀ j, j ≠ i →
          (fs.create e i ⟨[], mode ^^^ (mode &&& umask)⟩).file j = fs.file j :=
        fun j hj => Function.update_of_ne hj ..
      refine ⟨?_, ?_, hother, ?_, ?_, .inr ⟨hlookup, rfl⟩⟩
      · simp [lookup, create, he]
      · intro j
        by_cases hj : j = i
        · subst hj
          rw [content_of_free hfresh]
          simp [content, create]
        · exact content_congr (hother j hj)
      · intro other
        by_cases hentry : fs.entry other = some e
        · exact .inl (by simp [lookup, create, hentry])
        · right
          rw [lookup, lookup]
          apply Option.bind_congr
          intro e' he'
          have hne : e' ≠ e := by
            rintro rfl
            exact hentry he'
          exact Function.update_of_ne hne ..
      · rw [contentAt, hlookup, content_of_free hfresh]
        rfl
    next => cases h

end

end FileSystem

end Files
