import Aesd.Driver.ReadSpec
import Aesd.Driver.WriteSpec
import Aesd.Lib.Runs

/-! Runs of the driver: calls through any handles, serialised by `buffer_lock`. -/
namespace Aesd.Driver
open Blocks CircularWindow AesdCircularBuffer Runs

variable {w : ℕ}

structure System (w : ℕ) where
  driver : DriverState w
  fPos : ℕ → BitVec 64

/-- One call. A read passes the user's buffer, whose length is the count; a positioned read
brings its own position. -/
inductive Call where
  | open (handle : ℕ)
  | write (handle : ℕ) (env : WriteEnv) (buf : List Byte)
  | read (handle : ℕ) (env : ReadEnv) (buf : List Byte)
  | pread (fPos : BitVec 64) (env : ReadEnv) (buf : List Byte)

/-- The value returned and the system after a call. `aesd_open` only stores the device pointer,
and a new handle starts at position zero. -/
def System.call (s : System w) : Call → Option (ℤ × System w)
  | .open handle => some (0, { s with fPos := Function.update s.fPos handle 0 })
  | .write _ env buf => (aesdWrite s.driver env buf (BitVec.ofNat w buf.length)).map fun r =>
      (r.returned, { s with driver := r.state })
  | .read handle env buf =>
      (aesdRead s.driver env buf (BitVec.ofNat w buf.length) (s.fPos handle)).map fun r =>
        (r.returned, ⟨r.state, Function.update s.fPos handle r.fPos⟩)
  | .pread fPos env buf => (aesdRead s.driver env buf (BitVec.ofNat w buf.length) fPos).map fun r =>
      (r.returned, { s with driver := r.state })

/-- What the VFS and the kernel promise of a call; a write has at least one byte. -/
def Call.Allowed (limit : ℕ) (s : System w) : Call → Prop
  | .open _ => True
  | .write _ env buf => 0 < buf.length ∧ buf.length ≤ maxRwCount ∧
      env.Allowed limit s.driver (BitVec.ofNat w buf.length)
  | .read _ _ buf => buf.length ≤ maxRwCount
  | .pread _ _ buf => buf.length ≤ maxRwCount

/-- The same when a write of no bytes may come through too. -/
def Call.Passed (limit : ℕ) (s : System w) : Call → Prop
  | .open _ => True
  | .write _ env buf => buf.length ≤ maxRwCount ∧
      env.Allowed limit s.driver (BitVec.ofNat w buf.length)
  | .read _ _ buf => buf.length ≤ maxRwCount
  | .pread _ _ buf => buf.length ≤ maxRwCount

/-- A call with the value it returned. -/
abbrev CallLabel := Call × ℤ

def CallStep (limit : ℕ) (s : System w) (l : CallLabel) (s' : System w) : Prop :=
  l.1.Allowed limit s ∧ s.call l.1 = some (l.2, s')

def PassedStep (limit : ℕ) (s : System w) (l : CallLabel) (s' : System w) : Prop :=
  l.1.Passed limit s ∧ s.call l.1 = some (l.2, s')

def System.start (device : AesdDev w) (allocChrdevRegion : ℤ) : System w :=
  ⟨(aesdInitModule (unloaded device) allocChrdevRegion 0).2, fun _ => 0⟩

def Device.call (d : Device) (l : CallLabel) : Device :=
  match l.1 with
  | .write _ env buf => if env.succeeds then d.write buf else d
  | _ => d

def deviceAfter (tr : List CallLabel) : Device := tr.foldl Device.call .empty

/-- The driver between calls represents the device. -/
def Represents (limit : ℕ) (s : System w) (d : Device) : Prop :=
  s.driver.device.bufferLock = false ∧ ∃ stored, Rep limit s.driver stored d

/-- A system that some run of calls leads to, zero-length writes among them. -/
def Reachable (limit : ℕ) (s : System w) : Prop :=
  ∃ (device : AesdDev w) (region : ℤ) (tr : List CallLabel), 0 ≤ region ∧
    Run (PassedStep limit) (System.start device region) tr s

instance (limit : ℕ) (s : System w) (call : Call) : Decidable (call.Passed limit s) :=
  match call with
  | .open _ => .isTrue trivial
  | .write _ env buf => inferInstanceAs (Decidable (buf.length ≤ maxRwCount ∧
      env.Allowed limit s.driver (BitVec.ofNat w buf.length)))
  | .read _ _ buf => inferInstanceAs (Decidable (buf.length ≤ maxRwCount))
  | .pread _ _ buf => inferInstanceAs (Decidable (buf.length ≤ maxRwCount))

def System.checkedCall (limit : ℕ) (s : System w) (l : CallLabel) : Option (System w) :=
  if l.1.Passed limit s then
    (s.call l.1).bind fun r => if r.1 = l.2 then some r.2 else none
  else none

theorem checkedCall_step {limit : ℕ} {s s' : System w} {l : CallLabel}
    (h : s.checkedCall limit l = some s') : PassedStep limit s l s' := by
  unfold System.checkedCall at h
  split at h
  next hpassed =>
    obtain ⟨⟨returned, s₁⟩, hcall, hreturned⟩ := Option.bind_eq_some_iff.mp h
    split at hreturned <;> cases hreturned
    next heq => exact ⟨hpassed, hcall.trans (congrArg (fun r => some (r, s₁)) heq)⟩
  next => cases h

theorem reachable_of_foldlM {limit : ℕ} {device : AesdDev w} {s : System w} {tr : List CallLabel}
    (h : tr.foldlM (System.checkedCall limit) (System.start device 0) = some s) :
    Reachable limit s :=
  ⟨device, 0, tr, le_refl 0, Run.of_foldlM_step (fun _ _ _ _ => checkedCall_step) h⟩

def Device.Within (limit : ℕ) (d : Device) : Prop := ∀ k ∈ d.committed, k.length ≤ limit

def ReturnsCount (l : CallLabel) : Prop :=
  match l.1 with
  | .write _ env buf => if env.succeeds then l.2 = buf.length else l.2 < 0
  | _ => True

section
variable {limit : ℕ} {s s' : System w} {d : Device} {l : CallLabel} {tr : List CallLabel}

theorem ofNat_length_toNat {n : ℕ} (hw : 32 ≤ w) (h : n ≤ maxRwCount) :
    (BitVec.ofNat w n).toNat = n := by
  have hpow : 2 ^ 32 ≤ 2 ^ w := Nat.pow_le_pow_right (by decide) hw
  unfold maxRwCount at h
  rw [BitVec.toNat_ofNat, Nat.mod_eq_of_lt (by omega)]

theorem represents_start (device : AesdDev w) {region : ℤ} (h : 0 ≤ region) :
    Represents limit (System.start device region) .empty := by
  rw [System.start, aesdInitModule_ok device h]
  exact ⟨rfl, [], rep_loaded limit⟩

/-- Every call the kernel can make has a result: no access or free of a block that is not live. -/
theorem call_returns (hw : 32 ≤ w) (hlimit : limit < 2 ^ 31) (h : Represents limit s d)
    {call : Call} (ha : call.Allowed limit s) : ∃ r s', s.call call = some (r, s') := by
  obtain ⟨hunlocked, stored, hrep⟩ := h
  cases call with
  | «open» handle => exact ⟨0, _, rfl⟩
  | write handle env buf =>
    obtain ⟨hpos, hmax, henv⟩ := ha
    have hcount := ofNat_length_toNat hw hmax
    obtain ⟨r, hr, -⟩ := aesdWrite_spec hrep hunlocked hw hlimit hcount.symm (by omega) henv
      fun _ => List.append_ne_nil_of_right_ne_nil _ (List.length_pos_iff.mp hpos)
    exact ⟨_, _, congrArg (Option.map _) hr⟩
  | read handle env buf =>
    obtain ⟨r, hr, -⟩ := aesdRead_returns hrep hunlocked env buf (BitVec.ofNat w buf.length)
      (s.fPos handle)
    exact ⟨_, _, congrArg (Option.map _) hr⟩
  | pread fPos env buf =>
    obtain ⟨r, hr, -⟩ := aesdRead_returns hrep hunlocked env buf (BitVec.ofNat w buf.length) fPos
    exact ⟨_, _, congrArg (Option.map _) hr⟩

theorem CallStep.passed (hs : CallStep limit s l s') : PassedStep limit s l s' := by
  obtain ⟨call, ret⟩ := l
  obtain ⟨ha, hcall⟩ := hs
  cases call with
  | write handle env buf => exact ⟨ha.2, hcall⟩
  | _ => exact ⟨ha, hcall⟩

theorem aesdWrite_result {driver : DriverState w} {stored : List (AesdBufferEntry w)}
    (h : Rep limit driver stored d) (hunlocked : driver.device.bufferLock = false) (hw : 32 ≤ w)
    (hlimit : limit < 2 ^ 31) {env : WriteEnv} {buf : List Byte} (hmax : buf.length ≤ maxRwCount)
    (henv : env.Allowed limit driver (BitVec.ofNat w buf.length)) {r : WriteResult w}
    (hr : aesdWrite driver env buf (BitVec.ofNat w buf.length) = some r) :
    r.state.device.bufferLock = false ∧
      if env.succeeds then
        r.returned = buf.length ∧ ∃ stored', Rep limit r.state stored' (d.write buf)
      else r.returned < 0 ∧ r.state = driver := by
  have hcount := ofNat_length_toNat hw hmax
  have hne : env.succeeds → d.pending ++ buf ≠ [] := by
    intro hsucc hnil
    obtain ⟨hp, rfl⟩ := List.append_eq_nil_iff.mp hnil
    have hnone := aesdWrite_underrun h hw hlimit hp hsucc henv
    exact Option.some_ne_none r (hr.symm.trans hnone)
  obtain ⟨r', hr', hfree, -, hdone⟩ := aesdWrite_spec h hunlocked hw hlimit hcount.symm
    (by omega) henv hne
  obtain rfl := Option.some.inj (hr'.symm.trans hr)
  rw [hcount] at hdone
  exact ⟨hfree, hdone⟩

theorem passedStep_represents (hw : 32 ≤ w) (hlimit : limit < 2 ^ 31) (h : Represents limit s d)
    (hs : PassedStep limit s l s') : Represents limit s' (d.call l) ∧ ReturnsCount l := by
  obtain ⟨hunlocked, stored, hrep⟩ := h
  obtain ⟨call, ret⟩ := l
  obtain ⟨ha, hcall⟩ := hs
  cases call with
  | «open» handle =>
    obtain ⟨-, rfl⟩ := Prod.mk.inj (Option.some.inj hcall)
    exact ⟨⟨hunlocked, stored, hrep⟩, trivial⟩
  | write handle env buf =>
    obtain ⟨r, hr, hcall⟩ := Option.map_eq_some_iff.mp hcall
    obtain ⟨rfl, rfl⟩ := Prod.mk.inj hcall
    obtain ⟨hfree, hdone⟩ := aesdWrite_result hrep hunlocked hw hlimit ha.1 ha.2 hr
    simp only [Device.call, ReturnsCount]
    split at hdone
    next hsucc =>
      rw [if_pos hsucc, if_pos hsucc]
      exact ⟨⟨hfree, hdone.2⟩, hdone.1⟩
    next hfail =>
      rw [if_neg hfail, if_neg hfail]
      exact ⟨⟨hfree, stored, by rw [hdone.2]; exact hrep⟩, hdone.1⟩
  | read handle env buf =>
    obtain ⟨r, hr, hstate, -⟩ := aesdRead_returns hrep hunlocked env buf (BitVec.ofNat w buf.length)
      (s.fPos handle)
    simp only [System.call, hr, Option.map_some, Option.some.injEq, Prod.mk.injEq] at hcall
    obtain ⟨-, rfl⟩ := hcall
    simp only [Represents, hstate]
    exact ⟨⟨hunlocked, stored, hrep⟩, trivial⟩
  | pread fPos env buf =>
    obtain ⟨r, hr, hstate, -⟩ := aesdRead_returns hrep hunlocked env buf (BitVec.ofNat w buf.length)
      fPos
    simp only [System.call, hr, Option.map_some, Option.some.injEq, Prod.mk.injEq] at hcall
    obtain ⟨-, rfl⟩ := hcall
    simp only [Represents, hstate]
    exact ⟨⟨hunlocked, stored, hrep⟩, trivial⟩

/-- Every run keeps the representation invariant and follows the device call by call. -/
theorem run_represents (hw : 32 ≤ w) (hlimit : limit < 2 ^ 31) (h : Represents limit s d)
    (hrun : Run (PassedStep limit) s tr s') : Represents limit s' (tr.foldl Device.call d) :=
  hrun.follows h fun _ _ _ _ hr hs => (passedStep_represents hw hlimit hr hs).1

theorem Device.Within.write (h : d.Within limit) {b : List Byte}
    (hb : d.pending.length + b.length ≤ limit) : (d.write b).Within limit := by
  rw [Device.write]
  by_cases hend : (d.append b).pending.getLast? = some endWriteChar
  · intro k hk
    rw [(Device.settle_complete hend).1] at hk
    rcases mem_pushLast hk with hk | rfl
    · exact h k hk
    · rw [Device.append, List.length_append]
      exact hb
  · rw [Device.settle_incomplete hend]
    exact h

theorem Device.Within.content_length_le (h : d.Within limit) :
    d.content.length ≤ maxWriteOperationsSupported * limit := by
  have hsum := List.sum_le_card_nsmul (d.committed.map List.length) limit fun n hn => by
    obtain ⟨k, hk, rfl⟩ := List.mem_map.mp hn
    exact h k hk
  rw [List.length_map, smul_eq_mul] at hsum
  rw [Device.content, List.length_flatten]
  exact hsum.trans (Nat.mul_le_mul_right limit d.bounded)

theorem passedStep_within (hw : 32 ≤ w) (hlimit : limit < 2 ^ 31) (h : Represents limit s d)
    (hd : d.Within limit) (hs : PassedStep limit s l s') : (d.call l).Within limit := by
  obtain ⟨-, stored, hrep⟩ := h
  obtain ⟨call, ret⟩ := l
  cases call with
  | write handle env buf =>
    obtain ⟨⟨hmax, henv⟩, -⟩ := hs
    show (if env.succeeds then d.write buf else d).Within limit
    split
    next hsucc =>
      have hcount := ofNat_length_toNat hw hmax
      have hfits := pending_add_count_le hrep hw hlimit (by omega) henv hsucc
      exact hd.write (by omega)
    next => exact hd
  | _ => exact hd

theorem Reachable.represents (hw : 32 ≤ w) (hlimit : limit < 2 ^ 31) (h : Reachable limit s) :
    ∃ d, Represents limit s d ∧ d.Within limit := by
  obtain ⟨device, region, tr, hregion, hrun⟩ := h
  have hempty : Device.empty.Within limit := by simp [Device.Within, Device.empty]
  have hfollows : Represents limit s (deviceAfter tr) ∧ (deviceAfter tr).Within limit := by
    apply hrun.follows (R := fun s d => Represents limit s d ∧ d.Within limit)
    · exact ⟨represents_start device hregion, hempty⟩
    · intro s d l s' hi hs
      exact ⟨(passedStep_represents hw hlimit hi.1 hs).1,
        passedStep_within hw hlimit hi.1 hi.2 hs⟩
  exact ⟨_, hfollows⟩

theorem run_returnsCount (hw : 32 ≤ w) (hlimit : limit < 2 ^ 31) (h : Represents limit s d)
    (hrun : Run (PassedStep limit) s tr s') : ∀ l ∈ tr, ReturnsCount l :=
  (hrun.forall_label (I := fun s => ∃ d, Represents limit s d) ⟨d, h⟩ fun _ l _ ⟨d, hi⟩ hs =>
    ⟨⟨d.call l, (passedStep_represents hw hlimit hi hs).1⟩,
      (passedStep_represents hw hlimit hi hs).2⟩).2

end

/-- The bytes an entry designates; none for a dangling pointer. -/
def entryBytes (heap : Heap Byte) (e : AesdBufferEntry w) : Option (List Byte) :=
  match e.buffptr with
  | none => some []
  | some a => heap.load a 0 e.size.toNat

/-- The ring read from `out_offs` spells the committed entries and `entry_temp` the pending
bytes. -/
def Spells (s : DriverState w) (d : Device) : Prop :=
  s.device.buffer.occupied.map (entryBytes s.heap) = d.committed.map some ∧
    entryBytes s.heap s.device.entryTemp = some d.pending

instance (s : DriverState w) (d : Device) : Decidable (Spells s d) :=
  inferInstanceAs (Decidable (_ ∧ _))

theorem Spells.unique {s : DriverState w} {d d' : Device} (h : Spells s d) (h' : Spells s d') :
    d = d' := by
  obtain ⟨committed, pending, _, _⟩ := d
  obtain ⟨committed', pending', _, _⟩ := d'
  obtain rfl : committed = committed' :=
    List.map_injective_iff.mpr (Option.some_injective _) (h.1.symm.trans h'.1)
  obtain rfl : pending = pending' := Option.some.inj (h.2.symm.trans h'.2)
  rfl

def heldPointers (s : DriverState w) : List ℕ :=
  s.device.entryTemp.buffptr.toList ++ s.device.buffer.occupied.filterMap (·.buffptr)

section
variable {limit : ℕ} {s : DriverState w} {stored : List (AesdBufferEntry w)} {d : Device}

theorem Backs.entryBytes {heap : Heap Byte} {e : AesdBufferEntry w} {bytes : List Byte}
    (h : Backs heap e bytes) : entryBytes heap e = some bytes := by
  obtain ⟨a, ha, hlive, hsize⟩ := h
  simp only [Driver.entryBytes, ha, hsize, Heap.load_all hlive]

theorem PendingBy.entryBytes {heap : Heap Byte} {e : AesdBufferEntry w} {bytes : List Byte}
    (h : PendingBy limit heap e bytes) : entryBytes heap e = some bytes := by
  rcases h with ⟨rfl, rfl⟩ | ⟨hb, -, -⟩
  · rfl
  · exact hb.entryBytes

theorem forall₂_backs_spell {heap : Heap Byte} {ks : List (List Byte)}
    (h : List.Forall₂ (Backs heap) stored ks) : stored.map (entryBytes heap) = ks.map some := by
  induction h with
  | nil => rfl
  | cons he _ ih => rw [List.map_cons, List.map_cons, ih, he.entryBytes]

theorem Rep.spells (h : Rep limit s stored d) : Spells s d := by
  constructor
  · rw [h.stores.occupied_eq]
    exact forall₂_backs_spell h.entries
  · exact h.pending.entryBytes

theorem Rep.heldPointers_eq (h : Rep limit s stored d) :
    heldPointers s = owned s.device.entryTemp stored := by
  rw [heldPointers, h.stores.occupied_eq, owned]

theorem Rep.block_of_pointer (h : Rep limit s stored d) {e : AesdBufferEntry w} {a : ℕ}
    (he : e ∈ s.device.entryTemp :: s.device.buffer.occupied) (ha : e.buffptr = some a) :
    ∃ block, s.heap a = some block ∧ e.size.toNat ≤ block.length := by
  have hback {bytes : List Byte} (hb : Backs s.heap e bytes) :
      ∃ block, s.heap a = some block ∧ e.size.toNat ≤ block.length := by
    obtain ⟨a', ha', hlive, hsize⟩ := hb
    obtain rfl := Option.some.inj (ha.symm.trans ha')
    exact ⟨bytes, hlive, hsize.le⟩
  rw [h.stores.occupied_eq] at he
  rcases List.mem_cons.mp he with rfl | he
  · rcases h.pending with ⟨hz, -⟩ | ⟨hb, -, -⟩
    · simp [hz, AesdBufferEntry.zero] at ha
    · exact hback hb
  · obtain ⟨i, hi, rfl⟩ := List.getElem_of_mem he
    exact hback (h.entries.get hi (h.entries.length_eq ▸ hi))

end

end Aesd.Driver
