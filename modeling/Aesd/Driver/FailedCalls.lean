import Aesd.Driver.Refinement

/-! Calls that return an error leave everything as it was, so a run may as well be without them. -/
namespace Aesd.Driver
open Blocks Runs

variable {w limit : ℕ}

def System.userBuffer (s : System w) : Call → Option (List Byte)
  | .open _ => some []
  | .write _ _ buf => some buf
  | .read handle env buf =>
      (aesdRead s.driver env buf (BitVec.ofNat w buf.length) (s.fPos handle)).map (·.buf)
  | .pread fPos env buf =>
      (aesdRead s.driver env buf (BitVec.ofNat w buf.length) fPos).map (·.buf)

/-- A call with all that its caller sees of it: the value returned and the buffer. -/
structure Observation where
  label : CallLabel
  buf : List Byte

def Observation.succeeded (o : Observation) : Bool := 0 ≤ o.label.2

def ObservedStep (limit : ℕ) (s : System w) (o : Observation) (s' : System w) : Prop :=
  PassedStep limit s o.label s' ∧ s.userBuffer o.label.1 = some o.buf

theorem toInt_nonneg_of_le_maxRwCount {count read : BitVec w} (hw : 32 ≤ w)
    (hmax : count.toNat ≤ maxRwCount) (hread : read.toNat ≤ count.toNat) : 0 ≤ read.toInt := by
  rw [toInt_of_le_maxRwCount hw (hread.trans hmax)]
  exact Int.natCast_nonneg _

variable {s s' : System w} {d : Device}

theorem aesdRead_failed (h : Represents limit s d) (hw : 32 ≤ w) {env : ReadEnv} {buf : List Byte}
    (hmax : buf.length ≤ maxRwCount) {fPos : BitVec 64} {r : ReadResult w}
    (hr : aesdRead s.driver env buf (BitVec.ofNat w buf.length) fPos = some r)
    (hneg : r.returned < 0) : r.state = s.driver ∧ r.fPos = fPos := by
  obtain ⟨hunlocked, stored, hrep⟩ := h
  obtain ⟨r', hr', hstate, hpos⟩ :=
    aesdRead_returns hrep hunlocked env buf (BitVec.ofNat w buf.length) fPos
  obtain rfl := Option.some.inj (hr'.symm.trans hr)
  apply And.intro hstate
  rcases hpos with hpos | ⟨read, hreturned, hread⟩
  · exact hpos
  · have hcount := ofNat_length_toNat hw hmax
    have hnonneg := toInt_nonneg_of_le_maxRwCount hw (by omega) hread
    omega

theorem aesdWrite_failed (h : Represents limit s d) (hw : 32 ≤ w) (hlimit : limit < 2 ^ 31)
    {env : WriteEnv} {buf : List Byte} (hmax : buf.length ≤ maxRwCount)
    (henv : env.Allowed limit s.driver (BitVec.ofNat w buf.length)) {r : WriteResult w}
    (hr : aesdWrite s.driver env buf (BitVec.ofNat w buf.length) = some r)
    (hneg : r.returned < 0) : r.state = s.driver := by
  obtain ⟨hunlocked, stored, hrep⟩ := h
  obtain ⟨-, hdone⟩ := aesdWrite_result hrep hunlocked hw hlimit hmax henv hr
  split at hdone
  next =>
    have hreturned := hdone.1
    omega
  next => exact hdone.2

theorem failedCall_keeps (h : Represents limit s d) (hw : 32 ≤ w) (hlimit : limit < 2 ^ 31)
    {l : CallLabel} (hs : PassedStep limit s l s') (hneg : l.2 < 0) : s' = s := by
  obtain ⟨call, ret⟩ := l
  obtain ⟨ha, hcall⟩ := hs
  cases call with
  | «open» handle =>
    obtain ⟨rfl, -⟩ := Prod.mk.inj (Option.some.inj hcall)
    exact absurd hneg (lt_irrefl _)
  | write handle env buf =>
    obtain ⟨r, hr, hcall⟩ := Option.map_eq_some_iff.mp hcall
    obtain ⟨rfl, rfl⟩ := Prod.mk.inj hcall
    rw [aesdWrite_failed h hw hlimit ha.1 ha.2 hr hneg]
  | read handle env buf =>
    obtain ⟨r, hr, hcall⟩ := Option.map_eq_some_iff.mp hcall
    obtain ⟨rfl, rfl⟩ := Prod.mk.inj hcall
    obtain ⟨hstate, hpos⟩ := aesdRead_failed h hw ha hr hneg
    rw [hstate, hpos, Function.update_eq_self]
  | pread fPos env buf =>
    obtain ⟨r, hr, hcall⟩ := Option.map_eq_some_iff.mp hcall
    obtain ⟨rfl, rfl⟩ := Prod.mk.inj hcall
    rw [(aesdRead_failed h hw ha hr hneg).1]

/-- In a reachable state a write or read that returns an error leaves the driver, its blocks and
the position as they were, with the lock free; and any run without its failed calls is a run to
the same state, with the same results of the calls that remain. -/
theorem failed_calls_atomic (hw : 32 ≤ w) (hlimit : limit < 2 ^ 31) (device : AesdDev w)
    {region : ℤ} (hregion : 0 ≤ region) {tr : List Observation}
    (hrun : Run (ObservedStep limit) (System.start device region) tr s) :
    s.driver.device.bufferLock = false ∧
      (∀ env buf r, buf.length ≤ maxRwCount →
        env.Allowed limit s.driver (BitVec.ofNat w buf.length) →
        aesdWrite s.driver env buf (BitVec.ofNat w buf.length) = some r → r.returned < 0 →
        r.state = s.driver) ∧
      (∀ env buf fPos r, buf.length ≤ maxRwCount →
        aesdRead s.driver env buf (BitVec.ofNat w buf.length) fPos = some r → r.returned < 0 →
        r.state = s.driver ∧ r.fPos = fPos) ∧
      Run (ObservedStep limit) (System.start device region)
        (tr.filter Observation.succeeded) s := by
  have hstart : Represents limit (System.start device region) .empty :=
    represents_start device hregion
  have hstep : ∀ (s : System w) o s', (∃ d, Represents limit s d) → ObservedStep limit s o s' →
      ∃ d, Represents limit s' d := by
    rintro s o s' ⟨d, h⟩ hs
    exact ⟨_, (passedStep_represents hw hlimit h hs.1).1⟩
  obtain ⟨d, h⟩ := hrun.invariant (P := fun _ s => ∃ d, Represents limit s d) ⟨_, hstart⟩
    fun _ s o s' _ => hstep s o s'
  refine ⟨h.1, fun env buf r hmax henv => aesdWrite_failed h hw hlimit hmax henv,
    fun env buf fPos r hmax => aesdRead_failed h hw hmax, ?_⟩
  apply hrun.filter ⟨_, hstart⟩ hstep
  rintro s o s' ⟨d, h⟩ hs hfailed
  exact failedCall_keeps h hw hlimit hs.1 (not_le.mp (of_decide_eq_false hfailed))

def faultyCalls : List Observation :=
  [⟨(.write 0 (wholeCopy 7 [0, 0]) [97, 10], 2), [97, 10]⟩,
    ⟨(.write 1 ⟨0, some (8, [1]), 1⟩ [120], -14), [120]⟩,
    ⟨(.read 0 ⟨0, fun _ => 1⟩ [0], -14), [0]⟩]

theorem faultyCalls_run : ∃ s : System 64,
    Run (ObservedStep 4096) (System.start (loaded 64).device 0) faultyCalls s := by
  refine ⟨_, .cons ⟨⟨⟨by decide, ?_, by decide⟩, rfl⟩, rfl⟩
    (.cons ⟨⟨⟨by decide, ?_, by decide⟩, rfl⟩, rfl⟩
      (.cons ⟨⟨show [0].length ≤ maxRwCount by decide, rfl⟩, rfl⟩ .nil))⟩
  all_goals rintro a block ⟨⟩; exact ⟨rfl, rfl, by decide⟩

theorem faultyCalls_atomic : ∃ s : System 64,
    Run (ObservedStep 4096) (System.start (loaded 64).device 0) (faultyCalls.take 1) s := by
  obtain ⟨s, hrun⟩ := faultyCalls_run
  exact ⟨s, (failed_calls_atomic (by decide) (by decide) _ (by decide) hrun).2.2.2⟩

end Aesd.Driver
