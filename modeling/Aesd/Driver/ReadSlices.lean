import Aesd.Driver.Refinement

/-! The reads of a reachable device: each returns the slice of the committed content asked for, and
together the reads through one handle return a front part of it. -/
namespace Aesd.Driver
open Blocks CircularWindow Runs

variable {w limit : ℕ}

/-- The bytes of the committed entries, oldest first, as the driver's memory holds them. -/
def committedContent (s : DriverState w) : List Byte :=
  (s.device.buffer.occupied.map fun e => (entryBytes s.heap e).getD []).flatten

def ReadEnv.Completes (env : ReadEnv) : Prop :=
  env.mutexLockInterruptible = 0 ∧ ∀ i, env.bytesNotCopied i = 0

structure ReadCall (w : ℕ) where
  env : ReadEnv
  buf : List Byte
  count : BitVec w

/-- Calls of `aesd_read` through one handle, each from where the one before it ended. -/
def aesdReads (s : DriverState w) (fPos : BitVec 64) :
    List (ReadCall w) → Option (List (ReadResult w))
  | [] => some []
  | call :: calls => do
    let result ← aesdRead s call.env call.buf call.count fPos
    let results ← aesdReads result.state result.fPos calls
    some (result :: results)

def ReadResult.delivered (result : ReadResult w) : List Byte :=
  result.buf.take result.returned.toNat

theorem Spells.content_eq {s : DriverState w} {d : Device} (h : Spells s d) :
    committedContent s = d.content := by
  have hmap := congrArg (List.map fun o : Option (List Byte) => o.getD []) h.1
  rw [List.map_map, List.map_map] at hmap
  rw [committedContent, Device.content]
  exact congrArg List.flatten (hmap.trans (List.map_id _))

theorem toInt_nonneg_iff {fPos : BitVec 64} : 0 ≤ fPos.toInt ↔ fPos.toNat < 2 ^ 63 := by
  have := fPos.isLt
  rw [BitVec.toInt_eq_toNat_cond]
  split <;> omega

theorem slice_of_represents {s : System 64} {d : Device} (h : Represents limit s d)
    (hd : d.Within limit) (hlimit : limit < 2 ^ 31) {env : ReadEnv} (henv : env.Completes)
    (buf : List Byte) (count : BitVec 64) {fPos : BitVec 64} (hpos : 0 ≤ fPos.toInt) :
    let r := min count.toNat (d.content.length - fPos.toNat)
    ∃ result, aesdRead s.driver env buf count fPos = some result ∧ result.returned = r ∧
      result.buf.take r = (d.content.drop fPos.toNat).take r ∧ result.buf.drop r = buf.drop r ∧
      result.fPos.toNat = fPos.toNat + r ∧ result.state = s.driver := by
  intro r
  obtain ⟨hunlocked, stored, hrep⟩ := h
  have hlen := hd.content_length_le
  have hfPos : fPos.toNat < 2 ^ 63 := toInt_nonneg_iff.mp hpos
  unfold maxWriteOperationsSupported at hlen
  have hread := aesdRead_exact hrep hunlocked (Nat.le_refl 64) henv.1 henv.2 fPos.isLt (by omega)
    count buf
  set got := (d.content.drop fPos.toNat).take count.toNat with hgot
  have hr : got.length = r := by
    rw [hgot, List.length_take, List.length_drop]
  have hslice : got = (d.content.drop fPos.toNat).take r := by
    rw [hgot, List.take_eq_take_min, List.length_drop]
  have hnat : (BitVec.ofNat 64 got.length).toNat = r := by
    rw [hr, BitVec.toNat_ofNat, Nat.mod_eq_of_lt (by omega)]
  refine ⟨_, hread, ?_, ?_, ?_, ?_, rfl⟩
  · show (BitVec.ofNat 64 got.length).toInt = r
    rw [BitVec.toInt_eq_toNat_of_lt (by omega), hnat]
  · show (splice buf 0 got).take r = _
    rw [splice_zero, List.take_left' hr]
    exact hslice
  · show (splice buf 0 got).drop r = _
    rw [splice_zero, List.drop_left' hr, hr]
  · show (fPos + (BitVec.ofNat 64 got.length).setWidth 64).toNat = _
    rw [BitVec.setWidth_eq, BitVec.toNat_add, hnat, Nat.mod_eq_of_lt (by omega)]

/-- Reads of positive counts that complete go through the content without gap or repeat, and one
that returns nothing comes after all of it. -/
theorem aesdReads_of_represents {s : System 64} {d : Device} (h : Represents limit s d)
    (hd : d.Within limit) (hlimit : limit < 2 ^ 31) (calls : List (ReadCall 64))
    (hcalls : ∀ call ∈ calls, call.env.Completes ∧ 0 < call.count.toNat) {fPos : BitVec 64}
    (hpos : 0 ≤ fPos.toInt) :
    ∃ results, aesdReads s.driver fPos calls = some results ∧
      (results.map (·.delivered)).flatten <+: d.content.drop fPos.toNat ∧
      ((∃ result ∈ results, result.returned = 0) →
        (results.map (·.delivered)).flatten = d.content.drop fPos.toNat) := by
  induction calls generalizing fPos with
  | nil => exact ⟨[], rfl, List.nil_prefix, by simp⟩
  | cons call calls ih =>
    obtain ⟨henv, hcount⟩ := hcalls call List.mem_cons_self
    obtain ⟨result, hresult, hreturned, htaken, -, hnext, hstate⟩ :=
      slice_of_represents h hd hlimit henv call.buf call.count hpos
    set r := min call.count.toNat (d.content.length - fPos.toNat) with hr
    have hlen := hd.content_length_le
    unfold maxWriteOperationsSupported at hlen
    have hpos' : 0 ≤ result.fPos.toInt := by
      rw [toInt_nonneg_iff] at hpos ⊢
      omega
    obtain ⟨results, hresults, hfront, hall⟩ :=
      ih (fun call hm => hcalls call (List.mem_cons_of_mem _ hm)) hpos'
    have hdelivered : result.delivered = (d.content.drop fPos.toNat).take r := by
      rw [ReadResult.delivered, hreturned, Int.toNat_natCast, htaken]
    have hrest : d.content.drop fPos.toNat =
        result.delivered ++ d.content.drop result.fPos.toNat := by
      rw [hdelivered, hnext, ← List.drop_drop, List.take_append_drop]
    refine ⟨result :: results, ?_, ?_, ?_⟩
    · simp only [aesdReads, hresult, hstate, hresults, Option.bind_eq_bind, Option.bind_some]
    · rw [List.map_cons, List.flatten_cons, hrest]
      exact (List.prefix_append_right_inj _).mpr hfront
    · rintro ⟨last, hlast, hzero⟩
      rw [List.map_cons, List.flatten_cons, hrest]
      rcases List.mem_cons.mp hlast with rfl | hlast
      · -- A first read of nothing means that the position is at the end already.
        have hend : d.content.length ≤ last.fPos.toNat := by
          rw [hzero] at hreturned
          omega
        rw [List.drop_eq_nil_of_le hend] at hfront ⊢
        rw [List.prefix_nil.mp hfront]
      · rw [hall ⟨last, hlast, hzero⟩]

/-- Every read of a reachable device that completes returns exactly the slice asked for and leaves
the driver as it was; the reads through one handle return the content from its position on. -/
theorem aesdRead_slice (hlimit : limit < 2 ^ 31) {s : System 64} (hs : Reachable limit s) :
    let content := committedContent s.driver
    (∀ (env : ReadEnv) (buf : List Byte) (count fPos : BitVec 64),
      env.Completes → 0 ≤ fPos.toInt →
        let r := min count.toNat (content.length - fPos.toNat)
        ∃ result, aesdRead s.driver env buf count fPos = some result ∧ result.returned = r ∧
          result.buf.take r = (content.drop fPos.toNat).take r ∧
          result.buf.drop r = buf.drop r ∧ result.fPos.toNat = fPos.toNat + r ∧
          result.state = s.driver) ∧
      ∀ (calls : List (ReadCall 64)) (fPos : BitVec 64), 0 ≤ fPos.toInt →
        (∀ call ∈ calls, call.env.Completes ∧ 0 < call.count.toNat) →
          ∃ results, aesdReads s.driver fPos calls = some results ∧
            (results.map (·.delivered)).flatten <+: content.drop fPos.toNat ∧
            ((∃ result ∈ results, result.returned = 0) →
              (results.map (·.delivered)).flatten = content.drop fPos.toNat) := by
  intro content
  obtain ⟨d, hrep, hd⟩ := hs.represents (by decide) hlimit
  obtain ⟨-, stored, hstored⟩ := id hrep
  have hcontent : content = d.content := hstored.spells.content_eq
  rw [hcontent]
  constructor
  · intro env buf count fPos henv hpos
    exact slice_of_represents hrep hd hlimit henv buf count hpos
  · intro calls fPos hpos hcalls
    exact aesdReads_of_represents hrep hd hlimit calls hcalls hpos

theorem splitCommand_slices : ∃ s : System 64, Reachable 4096 s ∧
    ∃ result, aesdRead s.driver ⟨0, fun _ => 0⟩ [0, 0, 0, 0] 4 1 = some result ∧
      result.returned = 3 ∧ result.buf.take 3 = [98, 99, 10] := by
  obtain ⟨s, hrun⟩ := splitCommand_run
  have hpassed := hrun.mono fun _ _ _ => CallStep.passed
  have hreach : Reachable 4096 s := ⟨_, 0, splitCommand, le_refl 0, hpassed⟩
  obtain ⟨-, stored, hrep⟩ := run_represents (by decide) (by decide : 4096 < 2 ^ 31)
    (represents_start _ (le_refl 0)) hpassed
  have hcontent : committedContent s.driver = [97, 98, 99, 10] := hrep.spells.content_eq
  obtain ⟨result, hresult, hreturned, htaken, -⟩ :=
    (aesdRead_slice (by decide) hreach).1 ⟨0, fun _ => 0⟩ [0, 0, 0, 0] 4 1 ⟨rfl, fun _ => rfl⟩
      (by decide)
  rw [hcontent] at hreturned htaken
  exact ⟨s, hreach, result, hresult, hreturned, htaken⟩

end Aesd.Driver
