import Aesd.Driver.DriverRuns

/-! The driver refines the device: what its memory holds, what its calls return and which
blocks it owns after every run. -/
namespace Aesd.Driver
open Blocks Runs

variable {w limit : ℕ} {s : System w} {tr : List CallLabel}

/-- After every run the memory spells the device that the successful writes leave, every write
has returned its count or an error, and every call the kernel can make next has a result. -/
theorem aesd_refines_device (hw : 32 ≤ w) (hlimit : limit < 2 ^ 31) (device : AesdDev w)
    {region : ℤ} (hregion : 0 ≤ region)
    (hrun : Run (CallStep limit) (System.start device region) tr s) :
    Spells s.driver (deviceAfter tr) ∧ (∀ l ∈ tr, ReturnsCount l) ∧
      ∀ call : Call, call.Allowed limit s → ∃ r s', s.call call = some (r, s') := by
  have hstart : Represents limit (System.start device region) .empty :=
    represents_start device hregion
  have hpassed := hrun.mono fun _ _ _ => CallStep.passed
  have hrep := run_represents hw hlimit hstart hpassed
  refine ⟨?_, run_returnsCount hw hlimit hstart hpassed, fun call => call_returns hw hlimit hrep⟩
  obtain ⟨-, stored, hstored⟩ := hrep
  exact hstored.spells

def wholeCopy (a : ℕ) (block : List Byte) : WriteEnv := ⟨0, some (a, block), 0⟩

def splitCommand : List CallLabel :=
  [(.write 0 (wholeCopy 7 [0, 0]) [97, 98], 2),
    (.write 1 ⟨0, some (8, [1, 1, 1]), 1⟩ [120], -14),
    (.write 0 (wholeCopy 8 [1, 1, 1, 1]) [99, 10], 2)]

theorem splitCommand_run : ∃ s : System 64,
    Run (CallStep 4096) (System.start (loaded 64).device 0) splitCommand s := by
  refine ⟨_, .cons ⟨⟨by decide, by decide, ?_, by decide⟩, rfl⟩
    (.cons ⟨⟨by decide, by decide, ?_, by decide⟩, rfl⟩
      (.cons ⟨⟨by decide, by decide, ?_, by decide⟩, rfl⟩ .nil))⟩
  all_goals rintro a block ⟨⟩; exact ⟨rfl, rfl, by decide⟩

theorem splitCommand_refines : ∃ s : System 64,
    Run (CallStep 4096) (System.start (loaded 64).device 0) splitCommand s ∧
      Spells s.driver (deviceAfter splitCommand) ∧ (∀ l ∈ splitCommand, ReturnsCount l) ∧
      ∀ call : Call, call.Allowed 4096 s → ∃ r s', s.call call = some (r, s') := by
  obtain ⟨s, hrun⟩ := splitCommand_run
  exact ⟨s, hrun, aesd_refines_device (by decide) (by decide) _ (by decide) hrun⟩

/-- The live blocks are exactly those held, each held once and as long as its recorded size. -/
structure OwnsHeld (s : DriverState w) : Prop where
  owns : s.heap.Owns (heldPointers s)
  covers : ∀ e ∈ s.device.entryTemp :: s.device.buffer.occupied, ∀ a, e.buffptr = some a →
    ∃ block, s.heap a = some block ∧ e.size.toNat ≤ block.length

theorem Rep.ownsHeld {s : DriverState w} {stored : List (AesdBufferEntry w)} {d : Device}
    (h : Rep limit s stored d) : OwnsHeld s := by
  refine ⟨?_, fun e he a => h.block_of_pointer he⟩
  rw [h.heldPointers_eq]
  exact h.owns

/-- Between calls the driver owns exactly what it holds. The next write frees live blocks only,
which nothing holds afterwards, and the next read copies from live blocks only. -/
theorem aesd_owns_blocks (hw : 32 ≤ w) (hlimit : limit < 2 ^ 31) (device : AesdDev w)
    {region : ℤ} (hregion : 0 ≤ region)
    (hrun : Run (CallStep limit) (System.start device region) tr s) :
    OwnsHeld s.driver ∧
      (∀ env buf, 0 < buf.length → buf.length ≤ maxRwCount →
        env.Allowed limit s.driver (BitVec.ofNat w buf.length) →
        ∃ r, aesdWrite s.driver env buf (BitVec.ofNat w buf.length) = some r ∧
          ∀ a ∈ r.freed, r.state.heap a = none ∧ a ∉ heldPointers r.state) ∧
      ∀ env buf fPos, ∃ r,
        aesdRead s.driver env buf (BitVec.ofNat w buf.length) fPos = some r := by
  have hstart : Represents limit (System.start device region) .empty :=
    represents_start device hregion
  obtain ⟨hunlocked, stored, hrep⟩ :=
    run_represents hw hlimit hstart (hrun.mono fun _ _ _ => CallStep.passed)
  refine ⟨hrep.ownsHeld, fun env buf hpos hmax henv => ?_, fun env buf fPos => ?_⟩
  · have hcount := ofNat_length_toNat hw hmax
    obtain ⟨r, hr, -, hfreed, hdone⟩ := aesdWrite_spec hrep hunlocked hw hlimit hcount.symm
      (by omega) henv fun _ => List.append_ne_nil_of_right_ne_nil _ (List.length_pos_iff.mp hpos)
    have howns : OwnsHeld r.state := by
      split at hdone
      next =>
        obtain ⟨-, stored', hrep'⟩ := hdone
        exact hrep'.ownsHeld
      next => exact hdone.2 ▸ hrep.ownsHeld
    exact ⟨r, hr, fun a ha => ⟨hfreed a ha, howns.owns.dead (hfreed a ha)⟩⟩
  · obtain ⟨r, hr, -⟩ := aesdRead_returns hrep hunlocked env buf _ fPos
    exact ⟨r, hr⟩

theorem splitCommand_owns : ∃ s : System 64,
    Run (CallStep 4096) (System.start (loaded 64).device 0) splitCommand s ∧
      OwnsHeld s.driver := by
  obtain ⟨s, hrun⟩ := splitCommand_run
  exact ⟨s, hrun, (aesd_owns_blocks (by decide) (by decide) _ (by decide) hrun).1⟩

end Aesd.Driver
