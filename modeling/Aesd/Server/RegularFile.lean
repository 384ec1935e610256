import Aesd.Server.Kernel

/-! The node of the file build: a regular file that all threads open with `O_APPEND`. -/
namespace Aesd.Server
open Driver (Byte)
open Runs

/-- `write` appends what it takes, `read` returns some non-empty part of what it may, `lseek` to
the start goes there. Either call may fail. -/
def regularFile : FileOps (List Byte) Unit where
  Allowed := fun _ _ _ => True
  write := fun file _ pos data written =>
    match written with
    | none => some (file, pos)
    | some n => some (file ++ data.take n, (file ++ data.take n).length)
  read := fun file _ pos count got =>
    match got with
    | none => some (file, pos)
    | some bytes =>
      if bytes <+: (file.drop pos).take count ∧ (bytes = [] → (file.drop pos).take count = []) then
        some (file, pos + bytes.length)
      else none
  seekSet := fun _ => 0

def Label.Posix {χ : Type} : Label χ → Prop
  | .thread _ e _ => e.Posix
  | _ => True

instance {χ : Type} (l : Label χ) : Decidable l.Posix := by
  unfold Label.Posix
  split <;> infer_instance

theorem step_of_posix {b : Build} {s s' : System (List Byte)} {l : Label Unit} (hl : l.Posix)
    (hs : s.step regularFile b l = some s') : s.Step regularFile b l s' := by
  refine ⟨?_, hs⟩
  cases l with
  | thread t e choice =>
    refine ⟨hl, ?_⟩
    split <;> trivial
  | signal sig => trivial
  | disconnect c => trivial

theorem run_of_foldlM {b : Build} {tr : List (Label Unit)} {s₀ s : System (List Byte)}
    (hposix : ∀ l ∈ tr, l.Posix) (h : tr.foldlM (System.step regularFile b) s₀ = some s) :
    Run (System.Step regularFile b) s₀ tr s :=
  (Run.of_foldlM hposix h).mono fun _ _ _ hs => step_of_posix hs.1 hs.2

/-- Calls of one thread, in a run in which the kernel chooses nothing but their results. -/
def callsOf (t : Tid) (es : List Event) : List (Label Unit) := es.map fun e => .thread t e ()

end Aesd.Server
