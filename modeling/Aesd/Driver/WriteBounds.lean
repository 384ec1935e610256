import Aesd.Driver.Refinement

/-! Where one `aesd_write` reads and writes, for every count the VFS passes. -/
namespace Aesd.Driver
open Blocks Runs

variable {w limit : ℕ}

/-- The new size does not wrap, both copies fit the new buffer, the byte tested for the end of an
entry lies in it, and nothing else is touched outside a live block. -/
structure StaysInside (s : DriverState w) (env : WriteEnv) (buf : List Byte)
    (count : BitVec w) : Prop where
  size_exact : (s.device.entryTemp.size + count).toNat =
    s.device.entryTemp.size.toNat + count.toNat
  copies_fit : env.mutexLockInterruptible = 0 → ∀ a block, env.kmalloc = some (a, block) →
    s.device.entryTemp.size.toNat + count.toNat ≤ block.length
  last_inside : env.succeeds = true → ∀ a block, env.kmalloc = some (a, block) →
    (s.device.entryTemp.size + count - 1).toNat < block.length
  returns : ∃ r, aesdWrite s env buf count = some r

/-- Something to write or pending already, or the call ends before it has a new buffer. -/
def SomethingToTest (s : DriverState w) (env : WriteEnv) (count : BitVec w) : Prop :=
  0 < count.toNat ∨ s.device.entryTemp.buffptr ≠ none ∨ env.mutexLockInterruptible ≠ 0 ∨
    env.kmalloc = none

variable {s : DriverState w} {stored : List (AesdBufferEntry w)} {d : Device}

theorem Rep.pending_ne_nil (h : Rep limit s stored d) (hp : s.device.entryTemp.buffptr ≠ none) :
    d.pending ≠ [] := by
  intro hnil
  have hzero := (hnil ▸ h.pending).eq_zero
  exact hp (by rw [hzero]; rfl)

theorem Rep.pending_eq_nil (h : Rep limit s stored d) (hp : s.device.entryTemp.buffptr = none) :
    d.pending = [] := by
  rcases h.pending with ⟨-, hnil⟩ | ⟨⟨a, ha, -, -⟩, -, -⟩
  · exact hnil
  · exact absurd (hp.symm.trans ha) (Option.some_ne_none a).symm

/-- The write stays inside its buffers exactly when there is a byte to test. -/
theorem staysInside_of_rep (h : Rep limit s stored d) (hunlocked : s.device.bufferLock = false)
    (hw : 32 ≤ w) (hlimit : limit < 2 ^ 31) {env : WriteEnv} {buf : List Byte} {count : BitVec w}
    (hbuf : buf.length = count.toNat) (hmax : count.toNat ≤ maxRwCount)
    (henv : env.Allowed limit s count) :
    StaysInside s env buf count ↔ SomethingToTest s env count := by
  have hsum := size_add_count_toNat h hw hlimit hmax
  have hsize := h.pending.size_eq
  constructor
  · intro hin
    by_contra hnone
    simp only [SomethingToTest, not_or, not_lt, Nat.le_zero, not_not] at hnone
    obtain ⟨hzero, htemp, hlock, halloc⟩ := hnone
    obtain ⟨⟨a, block⟩, halloc⟩ := Option.ne_none_iff_exists'.mp halloc
    have hcopied : env.bytesNotCopied = 0 := by have := henv.copied; omega
    have hsucc := succeeds_iff.mpr ⟨hlock, ⟨a, block, halloc⟩, hcopied⟩
    obtain ⟨r, hr⟩ := hin.returns
    have hnil : buf = [] := List.length_eq_zero_iff.mp (hbuf.trans hzero)
    obtain rfl : count = 0 := BitVec.eq_of_toNat_eq (by simpa using hzero)
    have hunder := aesdWrite_underrun h hw hlimit (h.pending_eq_nil htemp) hsucc henv
    rw [hnil, hunder] at hr
    exact Option.some_ne_none r hr.symm
  · intro hsome
    have hne : env.succeeds = true → d.pending ++ buf ≠ [] := by
      intro hsucc hnil
      obtain ⟨hlock, ⟨a, block, halloc⟩, -⟩ := succeeds_iff.mp hsucc
      obtain ⟨hp, rfl⟩ := List.append_eq_nil_iff.mp hnil
      rcases hsome with hpos | htemp | hl | ha
      · exact absurd hbuf hpos.ne
      · exact h.pending_ne_nil htemp hp
      · exact hl hlock
      · exact Option.some_ne_none _ (halloc.symm.trans ha)
    obtain ⟨r, hr, -⟩ := aesdWrite_spec h hunlocked hw hlimit hbuf hmax henv hne
    have hfits : ∀ a block, env.kmalloc = some (a, block) →
        block.length = d.pending.length + count.toNat := by
      intro a block halloc
      obtain ⟨-, hblock, -⟩ := henv.kmalloc a block halloc
      rw [hblock, allocSize_toNat h hw hlimit hmax]
    refine ⟨by rw [hsum, hsize], fun _ a block halloc => ?_, fun hsucc a block halloc => ?_, r, hr⟩
    · rw [hfits a block halloc, hsize]
    · have hpos : 0 < (d.pending ++ buf).length := List.length_pos_iff.mpr (hne hsucc)
      rw [List.length_append, hbuf] at hpos
      have hone : (1 : BitVec w).toNat = 1 :=
        Nat.mod_eq_of_lt (Nat.one_lt_two_pow (by omega))
      rw [BitVec.toNat_sub_of_le (by rw [BitVec.le_def, hone, hsum]; exact hpos), hone, hsum,
        hfits a block halloc]
      omega

/-- For every reachable device, every count and every outcome of the allocation: the write stays
inside its buffers exactly when it has a byte to test, so all but the empty write to an empty
`entry_temp` that gets its block. -/
theorem aesdWrite_inside_iff (hw : 32 ≤ w) (hlimit : limit < 2 ^ 31) {s : System w}
    (hs : Reachable limit s) {env : WriteEnv} {buf : List Byte} (hmax : buf.length ≤ maxRwCount)
    (henv : env.Allowed limit s.driver (BitVec.ofNat w buf.length)) :
    StaysInside s.driver env buf (BitVec.ofNat w buf.length) ↔
      SomethingToTest s.driver env (BitVec.ofNat w buf.length) := by
  obtain ⟨d, ⟨hunlocked, stored, hrep⟩, -⟩ := hs.represents hw hlimit
  have hcount := ofNat_length_toNat hw hmax
  exact staysInside_of_rep hrep hunlocked hw hlimit hcount.symm (by omega) henv

theorem loaded_reachable : Reachable 4096 (System.start (loaded 64).device 0) :=
  ⟨_, 0, [], le_refl 0, .nil⟩

theorem oneByteWrite_inside :
    StaysInside (System.start (loaded 64).device 0).driver (wholeCopy 7 [0]) [97] 1 := by
  have henv : (wholeCopy 7 [0]).Allowed 4096 (System.start (loaded 64).device 0).driver
      (BitVec.ofNat 64 [97].length) := by
    refine ⟨?_, by decide⟩
    rintro a block ⟨⟩
    exact ⟨rfl, rfl, by decide⟩
  exact (aesdWrite_inside_iff (by decide) (by decide) loaded_reachable (by decide)
    henv).mpr (.inl (by decide))

/-- The first write to the device has no bytes: its block has none either, and the index of the
byte tested wraps. -/
theorem emptyWrite_reads_outside : ∃ s : System 64, Reachable 4096 s ∧
    (wholeCopy 7 []).Allowed 4096 s.driver 0 ∧
      ¬ StaysInside s.driver (wholeCopy 7 []) [] 0 := by
  refine ⟨_, loaded_reachable, ⟨?_, by decide⟩, ?_⟩
  · rintro a block ⟨⟩
    exact ⟨rfl, rfl, by decide⟩
  · intro hin
    have hlast := hin.last_inside rfl 7 [] rfl
    exact absurd hlast (by decide)

end Aesd.Driver
