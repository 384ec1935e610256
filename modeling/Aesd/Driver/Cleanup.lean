import Aesd.Driver.DriverRuns
import Aesd.Driver.Fifo

/-! Unloading the module: what `aesd_cleanup_module` frees after a run of the driver. -/
namespace Aesd.Driver
open Blocks Runs AesdCircularBuffer

variable {w limit : ℕ}

/-- `aesd_cleanup_module` frees every live block exactly once and leaves the device empty. -/
def ReleasesEverything (s : DriverState w) : Prop :=
  ∃ r, aesdCleanupModule s = some r ∧ r.freed.Nodup ∧
    (∀ a, (s.heap a).isSome ↔ a ∈ r.freed) ∧ (∀ a, r.state.heap a = none) ∧
    r.state.device.buffer.occupied = [] ∧ r.state.device.entryTemp = .zero w

def NoEntryCompleted (tr : List CallLabel) : Prop :=
  ∀ l ∈ tr, match l.1 with
    | .write _ env buf => env.succeeds → buf.getLast? ≠ some endWriteChar
    | _ => True

def WritesBytes (l : CallLabel) : Prop :=
  match l.1 with
  | .write _ _ buf => buf ≠ []
  | _ => True

section
variable {s s' : System w} {l : CallLabel} {tr : List CallLabel} {d : Device}

theorem callStep_writesBytes (hs : CallStep limit s l s') : WritesBytes l := by
  obtain ⟨call, ret⟩ := l
  obtain ⟨ha, -⟩ := hs
  cases call with
  | write handle env buf => exact List.length_pos_iff.mp ha.1
  | «open» _ => trivial
  | read _ _ _ => trivial
  | pread _ _ _ => trivial

/-- Only a write that completes an entry fills a device with no committed entry. -/
theorem committed_call_eq_nil (hl : WritesBytes l) :
    (d.call l).committed = [] ↔ d.committed = [] ∧ NoEntryCompleted [l] := by
  obtain ⟨call, ret⟩ := l
  have hone (P : CallLabel → Prop) : (∀ l ∈ [(call, ret)], P l) ↔ P (call, ret) := by simp
  unfold NoEntryCompleted
  rw [hone]
  cases call with
  | write handle env buf =>
    have hlast : (d.pending ++ buf).getLast? = buf.getLast? :=
      List.getLast?_append_of_ne_nil _ hl
    simp only [Device.call, Device.write]
    by_cases hsucc : env.succeeds
    · rw [if_pos hsucc]
      by_cases hnl : buf.getLast? = some endWriteChar
      · have hset := Device.settle_complete (d := d.append buf) (hlast.trans hnl)
        rw [hset.1]
        constructor
        · intro h
          exact absurd h (CircularWindow.pushLast_ne_nil (by decide) _ _)
        · rintro ⟨-, h⟩
          exact absurd hnl (h hsucc)
      · have hset := Device.settle_incomplete (d := d.append buf)
          (fun hc => hnl (hlast.symm.trans hc))
        rw [hset]
        exact ⟨fun h => ⟨h, fun _ => hnl⟩, fun h => h.1⟩
    · rw [if_neg hsucc]
      exact ⟨fun h => ⟨h, fun hc => absurd hc hsucc⟩, fun h => h.1⟩
  | «open» _ => simp [Device.call]
  | read _ _ _ => simp [Device.call]
  | pread _ _ _ => simp [Device.call]

theorem noEntryCompleted_append {tr' : List CallLabel} :
    NoEntryCompleted (tr ++ tr') ↔ NoEntryCompleted tr ∧ NoEntryCompleted tr' :=
  List.forall_mem_append

theorem deviceAfter_committed_eq_nil
    (hrun : Run (CallStep limit) s tr s') :
    (deviceAfter tr).committed = [] ↔ NoEntryCompleted tr := by
  refine hrun.invariant
    (P := fun tr _ => (deviceAfter tr).committed = [] ↔ NoEntryCompleted tr) ?_ ?_
  · simp [deviceAfter, Device.empty, NoEntryCompleted]
  · intro tr s l s' _ ih hs
    have hnext : deviceAfter (tr ++ [l]) = (deviceAfter tr).call l := by
      simp [deviceAfter, List.foldl_append]
    rw [hnext, committed_call_eq_nil (callStep_writesBytes hs), ih, noEntryCompleted_append]

end

section
variable {s : DriverState w} {stored : List (AesdBufferEntry w)} {d : Device}

/-- With `empty` false the loop stops at its first removal. -/
theorem cleanupLoop_of_not_empty {buffer : AesdCircularBuffer w} (h : buffer.empty = false)
    (fuel : ℕ) (heap : Heap Byte) (freed : List ℕ) :
    cleanupLoop (fuel + 1) buffer heap freed = some (buffer, heap, freed) := by
  simp [cleanupLoop, h, removeEntry_of_not_empty h]

/-- Cleanup frees the pending block and no other. -/
theorem Rep.cleanup (h : Rep limit s stored d) : ∃ heap,
    aesdCleanupModule s = some ⟨⟨⟨aesdCircularBufferInit w, .zero w, s.device.bufferLock⟩, heap,
      false, false⟩, s.device.entryTemp.buffptr.toList⟩ ∧
      heap.Owns (stored.filterMap (·.buffptr)) ∧
        ∀ a ∈ stored.filterMap (·.buffptr), heap a = s.heap a := by
  have howns := h.owns
  unfold owned at howns
  unfold aesdCleanupModule
  rw [cleanupLoop_of_not_empty h.emptyFlag]
  cases hptr : s.device.entryTemp.buffptr with
  | none =>
    rw [hptr] at howns
    exact ⟨s.heap, rfl, howns, fun _ _ => rfl⟩
  | some a =>
    rw [hptr] at howns
    obtain ⟨hfree, hrest⟩ := Heap.Owns.free howns
    refine ⟨_, ?_, hrest, ?_⟩
    · simp [freeUnlessNull, hfree]
    · intro b hb
      have hne : b ≠ a := by
        rintro rfl
        exact (List.nodup_cons.mp howns.1).1 hb
      exact Function.update_of_ne hne ..

theorem Rep.releasesEverything_iff (h : Rep limit s stored d) :
    ReleasesEverything s ↔ d.committed = [] := by
  obtain ⟨heap, hclean, howns, -⟩ := h.cleanup
  constructor
  · rintro ⟨r, hr, -, -, hdead, -⟩
    obtain rfl := Option.some.inj (hclean.symm.trans hr)
    cases hk : d.committed with
    | nil => rfl
    | cons k ks =>
      have hhead : d.committed[0]? = some k := by rw [hk]; rfl
      obtain ⟨e, he, a, ha, -⟩ := h.getElem? hhead
      have hmem : a ∈ stored.filterMap (·.buffptr) :=
        List.mem_filterMap.mpr ⟨e, List.mem_of_getElem? he, ha⟩
      exact absurd hmem (howns.dead (hdead a))
  · intro hk
    have hstored : stored = [] := List.length_eq_zero_iff.mp (by rw [h.entries.length_eq, hk]; rfl)
    subst hstored
    have hlive := h.owns
    unfold owned at hlive
    rw [List.filterMap_nil, List.append_nil] at hlive
    refine ⟨_, hclean, hlive.1, hlive.2, fun a => ?_, stores_init.occupied_eq, rfl⟩
    simpa using howns.2 a

end

/-- Unloading after a run releases everything exactly when no write of the run completed an
entry: `empty` stays false from init on, and `aesd_circular_buffer_remove_entry` takes that for
an empty ring. -/
theorem aesd_cleanup_releases_iff {s : System w} {tr : List CallLabel} (hw : 32 ≤ w)
    (hlimit : limit < 2 ^ 31) (device : AesdDev w) {region : ℤ} (hregion : 0 ≤ region)
    (hrun : Run (CallStep limit) (System.start device region) tr s) :
    ReleasesEverything s.driver ↔ NoEntryCompleted tr := by
  have hstart : Represents limit (System.start device region) .empty :=
    represents_start device hregion
  obtain ⟨-, stored, hrep⟩ :=
    run_represents hw hlimit hstart (hrun.mono fun _ _ _ => CallStep.passed)
  exact hrep.releasesEverything_iff.trans (deviceAfter_committed_eq_nil hrun)

theorem aesd_cleanup_releases_pending : ∃ s : System 64,
    Run (CallStep 4096) (System.start (loaded 64).device 0)
      [(.write 0 ⟨0, some (7, [0, 0]), 0⟩ [97, 98], 2)] s ∧ ReleasesEverything s.driver := by
  have hrun : ∃ s : System 64, Run (CallStep 4096) (System.start (loaded 64).device 0)
      [(.write 0 ⟨0, some (7, [0, 0]), 0⟩ [97, 98], 2)] s := by
    refine ⟨_, .cons ⟨⟨by decide, by decide, ?_, by decide⟩, rfl⟩ .nil⟩
    rintro a block ⟨⟩
    exact ⟨rfl, rfl, by decide⟩
  obtain ⟨s, hrun⟩ := hrun
  have hiff := aesd_cleanup_releases_iff (by decide) (by decide) _ (by decide) hrun
  exact ⟨s, hrun, hiff.mpr (by simp [NoEntryCompleted, endWriteChar])⟩

theorem aesd_cleanup_leaks_command : ∃ s : System 64,
    Run (CallStep 4096) (System.start (loaded 64).device 0)
      [(.write 0 ⟨0, some (7, [0, 0]), 0⟩ [97, 10], 2)] s ∧ ¬ ReleasesEverything s.driver := by
  refine ⟨_, .cons ⟨⟨by decide, by decide, ?_, by decide⟩, rfl⟩ .nil, ?_⟩
  · rintro a block ⟨⟩
    exact ⟨rfl, rfl, by decide⟩
  · rintro ⟨r, hr, -, -, hdead, -⟩
    obtain rfl := Option.some.inj hr
    exact absurd (hdead 7) (by decide)

end Aesd.Driver
