import Aesd.Driver.ReadSlices
import Aesd.Server.Framing
import Aesd.Server.History
import Aesd.Server.Mutex
import Aesd.Server.RegularFile

/-! The node of the device build: `/dev/aesdchar`, served by this driver. -/
namespace Aesd.Server
open Driver (Byte DriverState Device maxRwCount)
open CircularWindow Records Runs

/-- What the kernel decides in a call on the device. -/
structure DeviceChoice where
  write : Driver.WriteEnv
  read : Driver.ReadEnv

/-- The bytes of a `write` that the VFS passes on. -/
def passed (data : List Byte) : List Byte := data.take maxRwCount

/-- What `write` and `read` return for a return value of the driver. -/
def fromReturned (returned : ℤ) : Option ℕ := if returned < 0 then none else some returned.toNat

/-- `aesd_write` leaves the position of the handle alone, and `lseek` has no effect. -/
def aesdChar (limit : ℕ) : FileOps (DriverState 64) DeviceChoice where
  Allowed := fun driver choice data =>
    choice.write.Allowed limit driver (BitVec.ofNat 64 (passed data).length)
  write := fun driver choice pos data written =>
    (Driver.aesdWrite driver choice.write (passed data)
      (BitVec.ofNat 64 (passed data).length)).bind fun r =>
        if written = fromReturned r.returned then some (r.state, pos) else none
  read := fun driver choice pos count got =>
    (Driver.aesdRead driver choice.read (List.replicate (min count maxRwCount) 0)
      (BitVec.ofNat 64 (min count maxRwCount)) (BitVec.ofNat 64 pos)).bind fun r =>
        if got = (fromReturned r.returned).map r.buf.take then some (r.state, r.fPos.toNat)
        else none
  seekSet := id

def writeAllowed (limit : ℕ) (s : System (DriverState 64)) : Label DeviceChoice → Bool
  | .thread _ (.write _ data _) choice => decide (choice.write.Allowed limit s.kernel.node
      (BitVec.ofNat 64 (passed data).length))
  | _ => true

def checkedStep (limit : ℕ) (s : System (DriverState 64)) (l : Label DeviceChoice) :
    Option (System (DriverState 64)) :=
  if writeAllowed limit s l = true ∧ l.Posix then s.step (aesdChar limit) deviceBuild l else none

/-- The driver represents the device and is between two calls. -/
def Serves (limit : ℕ) (driver : DriverState 64) (d : Device) : Prop :=
  Driver.Represents limit ⟨driver, fun _ => 0⟩ d ∧ d.Within limit

section
variable {limit : ℕ} {driver : DriverState 64} {d : Device} {choice : DeviceChoice}
  {data : List Byte} {pos : ℕ} {r : DriverState 64 × ℕ}

theorem passed_length_le (data : List Byte) : (passed data).length ≤ maxRwCount := by
  rw [passed, List.length_take]
  exact min_le_left _ _

theorem passed_of_length_lt (h : (passed data).length < maxRwCount) : passed data = data := by
  rw [passed, List.length_take] at h
  exact List.take_of_length_le (by omega)

theorem fromReturned_eq_some {returned : ℤ} {n : ℕ} (h : fromReturned returned = some n) :
    0 ≤ returned ∧ returned.toNat = n := by
  unfold fromReturned at h
  split at h
  next => cases h
  next hnonneg => exact ⟨not_lt.mp hnonneg, Option.some.inj h⟩

/-- A `write` that succeeds writes to the device all it was passed, one that fails does nothing. -/
theorem aesdChar_write (h : Serves limit driver d) (hlimit : limit < 2 ^ 31)
    (hallowed : (aesdChar limit).Allowed driver choice data) {written : Option ℕ}
    (hr : (aesdChar limit).write driver choice pos data written = some r) : r.2 = pos ∧
      ((written = some (passed data).length ∧ Serves limit r.1 (d.write (passed data)) ∧
          d.pending.length + (passed data).length ≤ limit) ∨
        (written = none ∧ r.1 = driver)) := by
  obtain ⟨⟨hunlocked, stored, hrep⟩, hd⟩ := h
  obtain ⟨result, hresult, hr⟩ := Option.bind_eq_some_iff.mp hr
  split at hr <;> cases hr
  next hwritten =>
    have hmax := passed_length_le data
    obtain ⟨hfree, hdone⟩ := Driver.aesdWrite_result hrep hunlocked (by decide) hlimit hmax
      hallowed hresult
    refine ⟨rfl, ?_⟩
    split at hdone
    next hsucc =>
      obtain ⟨hreturned, stored', hrep'⟩ := hdone
      have hcount := Driver.ofNat_length_toNat (by decide : 32 ≤ 64) hmax
      have hfits := Driver.pending_add_count_le hrep (by decide) hlimit (by omega) hallowed hsucc
      rw [hcount] at hfits
      refine .inl ⟨?_, ⟨⟨hfree, stored', hrep'⟩, hd.write hfits⟩, hfits⟩
      rw [hwritten, hreturned]
      simp [fromReturned]
    next hfails =>
      refine .inr ⟨?_, hdone.2⟩
      rw [hwritten, fromReturned, if_pos hdone.1]

theorem aesdChar_read (h : Serves limit driver d) (hlimit : limit < 2 ^ 31) {count : ℕ}
    {got : Option (List Byte)}
    (hr : (aesdChar limit).read driver choice pos count got = some r) : r.1 = driver ∧
      ∀ bytes, got = some bytes → pos ≤ d.content.length →
        bytes = (d.content.drop pos).take (min count maxRwCount) ∧ r.2 = pos + bytes.length := by
  obtain ⟨⟨hunlocked, stored, hrep⟩, hd⟩ := h
  obtain ⟨result, hresult, hr⟩ := Option.bind_eq_some_iff.mp hr
  split at hr <;> cases hr
  next hgot =>
    obtain ⟨result', hresult', hstate, -⟩ := Driver.aesdRead_returns hrep hunlocked choice.read
      (List.replicate (min count maxRwCount) 0) (BitVec.ofNat 64 (min count maxRwCount))
      (BitVec.ofNat 64 pos)
    obtain rfl := Option.some.inj (hresult.symm.trans hresult')
    refine ⟨hstate, fun bytes hbytes hpos => ?_⟩
    obtain ⟨n, hn, rfl⟩ := Option.map_eq_some_iff.mp (hgot.symm.trans hbytes)
    obtain ⟨hnonneg, rfl⟩ := fromReturned_eq_some hn
    have hlen := hd.content_length_le
    unfold Driver.maxWriteOperationsSupported at hlen
    have hmax : min count maxRwCount ≤ maxRwCount := min_le_right _ _
    have hfPos : (BitVec.ofNat 64 pos).toNat = pos := by
      rw [BitVec.toNat_ofNat, Nat.mod_eq_of_lt (by omega)]
    have hexact := Driver.aesdRead_of_nonneg hrep hunlocked (by decide) (BitVec.isLt _) (by omega)
      hresult hnonneg
    rw [hfPos, Driver.ofNat_length_toNat (by decide) hmax] at hexact
    set slice := (d.content.drop pos).take (min count maxRwCount) with hslice
    have hshort : slice.length ≤ min count maxRwCount := List.length_take_le _ _
    have htotal : slice.length ≤ d.content.length - pos := by
      rw [hslice, List.length_take, List.length_drop]
      exact min_le_right _ _
    have hnat : (BitVec.ofNat 64 slice.length).toNat = slice.length := by
      rw [BitVec.toNat_ofNat, Nat.mod_eq_of_lt (by unfold maxRwCount at hmax; omega)]
    have hreturned : result.returned.toNat = slice.length := by
      rw [hexact]
      show (BitVec.ofNat 64 slice.length).toInt.toNat = slice.length
      rw [BitVec.toInt_eq_toNat_of_lt (by unfold maxRwCount at hmax; omega), hnat,
        Int.toNat_natCast]
    have hbuf : result.buf =
        slice ++ (List.replicate (min count maxRwCount) 0).drop slice.length := by
      rw [hexact]
      exact Blocks.splice_zero _ _
    have hnext : result.fPos.toNat = pos + slice.length := by
      rw [hexact]
      show (BitVec.ofNat 64 pos + (BitVec.ofNat 64 slice.length).setWidth 64).toNat = _
      rw [BitVec.setWidth_eq, BitVec.toNat_add, hnat, hfPos, Nat.mod_eq_of_lt (by omega)]
    have hbytes : result.buf.take result.returned.toNat = slice := by
      rw [hreturned, hbuf, List.take_left' rfl]
    rw [hbytes]
    exact ⟨rfl, hnext⟩

end

/-- What a call does to the node. -/
inductive NodeEffect {σ χ : Type} (ops : FileOps σ χ) (k : Kernel σ) (choice : χ) :
    Event → Kernel σ → Prop where
  | quiet {e : Event} {k' : Kernel σ} (hnode : k'.node = k.node)
      (hwrite : ∀ fd data n, e ≠ .write fd data (some n))
      (hread : ∀ fd count bytes, e ≠ .read fd count (some bytes)) : NodeEffect ops k choice e k'
  | writes {fd : Fd} {data : List Byte} {written : Option ℕ} {opener : Tid} {pos : ℕ} {r : σ × ℕ}
      (hfd : k.fds fd = some (.file opener pos))
      (hr : ops.write k.node choice pos data written = some r) :
      NodeEffect ops k choice (.write fd data written)
        ({ k with node := r.1 }.setFd fd (some (.file opener r.2)))
  | reads {fd : Fd} {count : ℕ} {got : Option (List Byte)} {opener : Tid} {pos : ℕ} {r : σ × ℕ}
      (hfd : k.fds fd = some (.file opener pos))
      (hr : ops.read k.node choice pos count got = some r) :
      NodeEffect ops k choice (.read fd count got)
        ({ k with node := r.1 }.setFd fd (some (.file opener r.2)))

section
variable {σ χ : Type} {ops : FileOps σ χ} {k k' : Kernel σ} {t : Tid} {e : Event} {choice : χ}

theorem call_keeps_node (hwrite : ∀ fd data written, e ≠ .write fd data written)
    (hread : ∀ fd count got, e ≠ .read fd count got)
    (hcall : k.call ops t e choice = some k') : k'.node = k.node := by
  unfold Kernel.call Kernel.close at hcall
  split at hcall
  case h_5 => exact absurd rfl (hwrite _ _ _)
  case h_7 => exact absurd rfl (hread _ _ _)
  all_goals repeat' split at hcall
  all_goals first
    | cases hcall <;> rfl
    | exact (send_fds hcall).2.2.2.2

theorem call_nodeEffect (hcall : k.call ops t e choice = some k') :
    NodeEffect ops k choice e k' := by
  cases e with
  | write fd data written =>
    simp only [Kernel.call] at hcall
    split at hcall
    next opener pos hfd =>
      obtain ⟨r, hr, rfl⟩ := Option.map_eq_some_iff.mp hcall
      exact .writes hfd hr
    next =>
      split at hcall <;> cases hcall
      next hnone =>
        subst hnone
        exact .quiet rfl (by simp) (by simp)
  | read fd count got =>
    simp only [Kernel.call] at hcall
    split at hcall
    next opener pos hfd =>
      obtain ⟨r, hr, rfl⟩ := Option.map_eq_some_iff.mp hcall
      exact .reads hfd hr
    next =>
      split at hcall <;> cases hcall
      next hnone =>
        subst hnone
        exact .quiet rfl (by simp) (by simp)
  | _ => exact .quiet (call_keeps_node (by simp) (by simp) hcall) (by simp) (by simp)

end

/-- The device after a call: only a `write` that succeeds changes it. -/
def deviceCall (d : Device) : Event → Device
  | .write _ data (some n) => d.write (data.take n)
  | _ => d

def deviceNext {χ : Type} (d : Device) : Label χ → Device
  | .thread _ e _ => deviceCall d e
  | _ => d

def deviceAfter {χ : Type} (d : Device) (tr : List (Label χ)) : Device := tr.foldl deviceNext d

section
variable {limit : ℕ} {d : Device} {b : Build} {s s' : System (DriverState 64)}
  {k k' : Kernel (DriverState 64)} {t : Tid} {e : Event} {choice : DeviceChoice}
  {l : Label DeviceChoice} {tr : List (Label DeviceChoice)} {node : DriverState 64}
  {reserved : Fd → Bool}

theorem deviceCall_quiet (hwrite : ∀ fd data n, e ≠ .write fd data (some n)) :
    deviceCall d e = d := by
  unfold deviceCall
  split
  next => exact absurd rfl (hwrite _ _ _)
  next => rfl

theorem take_passed (data : List Byte) : data.take (passed data).length = passed data := by
  rw [passed, List.length_take, List.take_eq_take_min, min_assoc, min_self, ← List.take_eq_take_min]

theorem call_device (h : Serves limit k.node d) (hlimit : limit < 2 ^ 31)
    (hallowed : ∀ fd data written, e = .write fd data written →
      (aesdChar limit).Allowed k.node choice data)
    (hcall : k.call (aesdChar limit) t e choice = some k') :
    Serves limit k'.node (deviceCall d e) := by
  cases call_nodeEffect hcall with
  | quiet hnode hwrite =>
    rw [hnode, deviceCall_quiet hwrite]
    exact h
  | writes hfd hr =>
    obtain ⟨-, ⟨rfl, hserves, -⟩ | ⟨rfl, hsame⟩⟩ :=
      aesdChar_write h hlimit (hallowed _ _ _ rfl) hr
    · simp only [deviceCall, take_passed]
      exact hserves
    · show Serves limit _ d
      rw [Kernel.setFd, hsame]
      exact h
  | reads hfd hr =>
    show Serves limit _ d
    rw [Kernel.setFd, (aesdChar_read h hlimit hr).1]
    exact h

theorem checkedStep_step (hs : checkedStep limit s l = some s') :
    s.Step (aesdChar limit) deviceBuild l s' := by
  unfold checkedStep at hs
  split at hs
  next h =>
    obtain ⟨hallowed, hposix⟩ := h
    refine ⟨?_, hs⟩
    cases l with
    | thread t e choice =>
      refine ⟨hposix, ?_⟩
      cases e with
      | write fd data written =>
        simp only [writeAllowed, decide_eq_true_eq] at hallowed
        exact hallowed
      | _ => trivial
    | signal sig => trivial
    | disconnect c => trivial
  next => cases hs

theorem deviceRun_of_foldlM {s₀ : System (DriverState 64)}
    (hs : tr.foldlM (checkedStep limit) s₀ = some s) :
    Run (System.Step (aesdChar limit) deviceBuild) s₀ tr s :=
  Run.of_foldlM_step (fun _ _ _ _ => checkedStep_step) hs

theorem step_allowed {fd : Fd} {data : List Byte} {written : Option ℕ}
    (hs : s.Step (aesdChar limit) b (.thread t (.write fd data written) choice) s') :
    (aesdChar limit).Allowed s.kernel.node choice data := hs.1.2

theorem step_device (h : Serves limit s.kernel.node d) (hlimit : limit < 2 ^ 31)
    (hs : s.Step (aesdChar limit) b l s') : Serves limit s'.kernel.node (deviceNext d l) := by
  cases l with
  | thread t e choice =>
    apply call_device h hlimit _ (System.thread_step hs.2).2.1
    rintro fd data written rfl
    exact step_allowed hs
  | signal sig =>
    obtain ⟨-, -, rfl⟩ := System.step_signal hs.2
    rw [(deliver_fds s.kernel sig).2.2.2.2]
    exact h
  | disconnect c =>
    obtain ⟨-, -, rfl⟩ := System.step_disconnect hs.2
    exact h

/-- Whatever the schedule, the driver represents the device that the successful writes leave. -/
theorem run_device (h : Serves limit node d) (hlimit : limit < 2 ^ 31)
    (hrun : Run (System.Step (aesdChar limit) b) (System.start node reserved) tr s) :
    Serves limit s.kernel.node (deviceAfter d tr) :=
  hrun.follows (R := fun s d => Serves limit s.kernel.node d) h
    fun _ _ _ _ hserves hs => step_device hserves hlimit hs

theorem step_write_fails (h : Serves limit s.kernel.node d) (hlimit : limit < 2 ^ 31) {fd : Fd}
    {data : List Byte}
    (hs : s.Step (aesdChar limit) b (.thread t (.write fd data none) choice) s') :
    s'.kernel.node = s.kernel.node := by
  have hallowed := step_allowed hs
  have hcall := (System.thread_step hs.2).2.1
  generalize s'.kernel = k' at hcall ⊢
  cases call_nodeEffect hcall with
  | quiet hnode => exact hnode
  | writes hfd hr =>
    obtain ⟨-, ⟨hsome, -⟩ | ⟨-, hsame⟩⟩ := aesdChar_write h hlimit hallowed hr
    · cases hsome
    · exact hsame

theorem step_write_succeeds (h : Serves limit s.kernel.node d) (hlimit : limit < 2 ^ 31) {fd : Fd}
    {data : List Byte} {n : ℕ}
    (hs : s.Step (aesdChar limit) b (.thread t (.write fd data (some n)) choice) s') :
    n = (passed data).length ∧ n ≤ limit := by
  have hallowed := step_allowed hs
  have hcall := (System.thread_step hs.2).2.1
  generalize s'.kernel = k' at hcall
  cases call_nodeEffect hcall with
  | quiet _ hwrite => exact absurd rfl (hwrite _ _ _)
  | writes hfd hr =>
    obtain ⟨-, ⟨hsome, -, hfits⟩ | ⟨hnone, -⟩⟩ := aesdChar_write h hlimit hallowed hr
    · obtain rfl := Option.some.inj hsome
      exact ⟨rfl, by omega⟩
    · cases hnone

end

end Aesd.Server
