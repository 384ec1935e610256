import Aesd.Driver.Linearizable

/-! Threads that write whole lines share the device without tearing them. -/
namespace Aesd.Driver
open Blocks CircularWindow Runs Atomicity

variable {w limit : ℕ} {ι : Type}

def lineAdded : Request × Response → Option (List Byte)
  | (.write buf, .write returned) => if 0 ≤ returned then some buf else none
  | _ => none

def linesAdded (ops : List (ι × Request × Response)) : List (List Byte) :=
  ops.filterMap fun e => lineAdded e.2

theorem linesAdded_append (o₁ o₂ : List (ι × Request × Response)) :
    linesAdded (o₁ ++ o₂) = linesAdded o₁ ++ linesAdded o₂ := List.filterMap_append

theorem linesAdded_none {t : ι} {e : Request × Response} (h : lineAdded e = none) :
    linesAdded [(t, e)] = [] := by simp [linesAdded, h]

theorem linesAdded_some {t : ι} {e : Request × Response} {line : List Byte}
    (h : lineAdded e = some line) : linesAdded [(t, e)] = [line] := by simp [linesAdded, h]

def WritesLines (ops : List (ι × Request × Response)) : Prop :=
  ∀ e ∈ ops, ∀ buf, e.2.1 = .write buf → buf.getLast? = some endWriteChar

theorem serial_lines {ops : List (ι × Request × Response)} {d : Device}
    (h : Run (Serial Device.Serves) Device.empty ops d) (hlines : WritesLines ops) :
    d.pending = [] ∧ d.committed = (linesAdded ops).rtake maxWriteOperationsSupported := by
  induction h with
  | nil => exact ⟨rfl, rfl⟩
  | @snoc ops d e d' _ hs ih =>
    obtain ⟨hpending, hcommitted⟩ := ih fun e he => hlines e (List.mem_append_left _ he)
    obtain ⟨t, request, response⟩ := e
    have hs' : d.Serves request response d' := hs
    rw [linesAdded_append]
    cases hs' with
    | written buf =>
      have hline := hlines _ (List.mem_append_right _ (List.mem_singleton_self _)) buf rfl
      have hend : (d.append buf).pending.getLast? = some endWriteChar := by
        simpa [Device.append, hpending] using hline
      have hadded : lineAdded (.write buf, .write buf.length) = some buf := by simp [lineAdded]
      obtain ⟨hwritten, hnil⟩ := Device.settle_complete hend
      rw [linesAdded_some hadded, ← pushLast_rtake, ← hcommitted]
      refine ⟨hnil, hwritten.trans ?_⟩
      rw [Device.append, hpending, List.nil_append]
    | @writeFails buf returned hneg =>
      have hadded : lineAdded (.write buf, .write returned) = none := if_neg (not_le.mpr hneg)
      rw [linesAdded_none hadded, List.append_nil]
      exact ⟨hpending, hcommitted⟩
    | delivered | readFails =>
      rw [linesAdded_none rfl, List.append_nil]
      exact ⟨hpending, hcommitted⟩

/-- A successful read gets as many bytes as it asks for of the last ten lines, from its position
on. -/
def SeesLines (lines : List (List Byte)) : Request × Response → Prop
  | (.read fPos buf, .read returned fPos' buf') => 0 ≤ returned → ∃ got : List Byte,
    got = ((lines.rtake maxWriteOperationsSupported).flatten.drop fPos.toNat).take buf.length ∧
      returned = got.length ∧ fPos' = fPos + BitVec.ofNat 64 got.length ∧ buf' = splice buf 0 got
  | _ => True

theorem serial_sees {o₁ o₂ : List (ι × Request × Response)} {t : ι} {e : Request × Response}
    {d : Device} (h : Run (Serial Device.Serves) Device.empty (o₁ ++ (t, e) :: o₂) d)
    (hlines : WritesLines (o₁ ++ (t, e) :: o₂)) : SeesLines (linesAdded o₁) e := by
  rw [List.append_cons] at h
  obtain ⟨d₂, hrun₂, -⟩ := h.split
  obtain ⟨d₁, hrun₁, hs⟩ := hrun₂.last
  obtain ⟨-, hcommitted⟩ := serial_lines hrun₁ fun e he => hlines e (List.mem_append_left _ he)
  obtain ⟨request, response⟩ := e
  have hs' : d₁.Serves request response d₂ := hs
  cases hs' with
  | written | writeFails => trivial
  | @delivered fPos buf got hgot =>
    intro _
    refine ⟨got, ?_, rfl, rfl, rfl⟩
    rw [hgot, Device.content, hcommitted]
  | readFails _ _ hneg _ =>
    intro hok
    exact absurd hok (not_le.mpr hneg)

theorem seen_invoke {tr : List (ι × CallEvent)} {t : ι} {request : Request}
    (h : .invoke t request ∈ tr.filterMap CallEvent.seen) : (t, .invoke request) ∈ tr := by
  obtain ⟨⟨t', e⟩, hl, hseen⟩ := List.mem_filterMap.mp h
  cases e with
  | invoke request' =>
    obtain ⟨rfl, rfl⟩ := Action.invoke.inj (Option.some.inj hseen)
    exact hl
  | respond response => exact absurd (Option.some.inj hseen) (by simp)
  | _ => cases hseen

variable [DecidableEq ι] {c : Callers ι w} {tr : List (ι × CallEvent)}

theorem Orders.writesLines {ops : List (ι × Request × Response)}
    (h : Orders (tr.filterMap CallEvent.seen) ops)
    (hlines : ∀ t buf, (t, .invoke (.write buf)) ∈ tr → buf.getLast? = some endWriteChar) :
    WritesLines ops := by
  rintro ⟨t, request, response⟩ he buf rfl
  have hop := List.mem_map_of_mem (f := Prod.fst) (mem_ofThread.mpr he)
  exact hlines t buf (seen_invoke (mem_invoked.mp ((h.threads t).2.subset hop)))

/-- Threads that write whole lines, and read at any time: there is one order of all calls, which
agrees with each thread's own order and with real time, such that the device holds the last ten
lines added in it whenever the lock is free, and every successful read gets what it asks for of the
last ten lines added before it. -/
theorem concurrent_lines_whole (hw : 32 ≤ w) (hw' : w ≤ 64) (hlimit : limit < 2 ^ 31)
    (hfits : maxWriteOperationsSupported * limit < 2 ^ w)
    (hrun : Run (Callers.Step limit) (Callers.start ι w) tr c)
    (hlines : ∀ t buf, (t, .invoke (.write buf)) ∈ tr → buf.getLast? = some endWriteChar) :
    ∃ ops : List (ι × Request × Response), Orders (tr.filterMap CallEvent.seen) ops ∧
      (c.driver.device.bufferLock = false → ∃ d, Spells c.driver d ∧ d.pending = [] ∧
        d.committed = (linesAdded ops).rtake maxWriteOperationsSupported) ∧
      ∀ o₁ t e o₂, ops = o₁ ++ (t, e) :: o₂ → SeesLines (linesAdded o₁) e := by
  obtain ⟨moments, a, hmoments, hseen, holder, s, rest, h⟩ := run_moments hw hw' hlimit hfits hrun
  obtain ⟨a', hrun', hholds, -⟩ := implements (R := Holds limit) hmoments holds_loaded
    fun s d request response s' h hs => serves_refines hw hw' hlimit hfits h hs
  have horder := effects_order hrun'
  have hserial := effects_serial hrun'
  rw [hseen] at horder
  have hwrites := Orders.writesLines horder hlines
  refine ⟨effects moments, horder, ?_, ?_⟩
  · intro hfree
    obtain rfl := h.holder_eq_none hfree
    obtain ⟨-, ⟨stored, hrep⟩, -⟩ := hholds
    obtain ⟨hpending, hcommitted⟩ := serial_lines hserial hwrites
    refine ⟨a'.object, ?_, hpending, hcommitted⟩
    rw [h.driver, h.idle rfl]
    exact hrep.spells.extend rest
  · intro o₁ t e o₂ hops
    rw [hops] at hserial hwrites
    exact serial_sees hserial hwrites

theorem writeAndRead_whole : ∃ c : Callers Bool 64,
    Run (Callers.Step 4096) (Callers.start Bool 64) writeAndRead c ∧
    ∃ ops : List (Bool × Request × Response), Orders (writeAndRead.filterMap CallEvent.seen) ops ∧
      (c.driver.device.bufferLock = false → ∃ d, Spells c.driver d ∧ d.pending = [] ∧
        d.committed = (linesAdded ops).rtake maxWriteOperationsSupported) ∧
      ∀ o₁ t e o₂, ops = o₁ ++ (t, e) :: o₂ → SeesLines (linesAdded o₁) e := by
  obtain ⟨c, hrun⟩ := writeAndRead_run
  refine ⟨c, hrun, ?_⟩
  apply concurrent_lines_whole (by decide) (by decide) (by decide) (by decide) hrun
  intro t buf h
  simp only [writeAndRead, List.mem_cons, Prod.mk.injEq, CallEvent.invoke.injEq, reduceCtorEq,
    and_false, or_false, Request.write.injEq, List.not_mem_nil] at h
  rw [h.2]
  rfl

end Aesd.Driver
