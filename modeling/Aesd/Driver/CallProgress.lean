import Aesd.Driver.Linearizable

/-! No interleaving of calls touches memory that is not live, loses a block, gets stuck or goes on
for ever. -/
namespace Aesd.Driver
open Blocks AesdCircularBuffer Runs Atomicity

variable {w limit : ℕ} {ι : Type}

/-- The kind of step that a thread takes next. -/
def CallPc.Expects : CallPc w → CallEvent → Prop
  | .idle, .invoke _ => True
  | .write _ .lock, .mutexLockInterruptible _ => True
  | .write _ .alloc, .kmalloc _ => True
  | .write _ (.copyUser _), .copyFromUser _ => True
  | .write _ (.unlock _), .mutexUnlock => True
  | .write _ (.unlockFault _), .mutexUnlock => True
  | .write _ (.copyOld _), .compute => True
  | .write _ (.freeOld _), .compute => True
  | .write _ (.setEntry _), .compute => True
  | .write _ .endTest, .compute => True
  | .write _ .addEntry, .compute => True
  | .write _ (.resetEntry _), .compute => True
  | .write _ (.freeOverwritten _), .compute => True
  | .write _ (.freeNew _), .compute => True
  | .read _ _ _ .lock, .mutexLockInterruptible _ => True
  | .read _ _ _ (.search _ _), .compute => True
  | .read _ _ _ (.copyUser _ _ _ _), .copyToUser _ => True
  | .read _ _ _ (.unlock _ _), .mutexUnlock => True
  | .returns response, .respond response' => response' = response
  | _, _ => False

def CallPc.AtLock : CallPc w → Prop
  | .write _ .lock => True
  | .read _ _ _ .lock => True
  | _ => False

def CallPc.HoldsLock : CallPc w → Prop
  | .write _ .lock | .write _ (.freeNew _) => False
  | .write _ _ => True
  | .read _ _ _ .lock => False
  | .read _ _ _ _ => True
  | _ => False

theorem CallPc.HoldsLock.not_idle {pc : CallPc w} (h : pc.HoldsLock) : pc ≠ .idle := by
  rintro rfl
  exact h

theorem CallPc.HoldsLock.not_atLock {pc : CallPc w} (h : pc.HoldsLock) : ¬pc.AtLock := by
  intro hlock
  cases pc with
  | write _ pc =>
    cases pc with
    | lock => exact h
    | _ => exact hlock
  | read _ _ _ pc =>
    cases pc with
    | lock => exact h
    | _ => exact hlock
  | _ => exact h

/-- An upper bound on the steps that the thread takes until it is idle again. -/
def CallPc.stepsLeft : CallPc w → ℕ
  | .idle => 0
  | .write _ .lock => 12
  | .write _ .alloc => 11
  | .write _ (.copyOld _) => 10
  | .write _ (.copyUser _) => 9
  | .write _ (.freeOld _) => 8
  | .write _ (.setEntry _) => 7
  | .write _ .endTest => 6
  | .write _ .addEntry => 5
  | .write _ (.resetEntry _) => 4
  | .write _ (.freeOverwritten _) => 3
  | .write _ (.unlockFault _) => 3
  | .write _ (.unlock _) => 2
  | .write _ (.freeNew _) => 2
  | .read _ count _ .lock => 2 * count.toNat + 4
  | .read _ count _ (.search bytesRead _) => 2 * (count.toNat - bytesRead.toNat) + 3
  | .read _ count _ (.copyUser _ bytesRead _ _) => 2 * (count.toNat - bytesRead.toNat) + 2
  | .read _ _ _ (.unlock _ _) => 2
  | .returns _ => 1

/-- The steps allowed to a call: twelve to a write, two to each byte of a read and four more. -/
def Request.steps : Request → ℕ
  | .write _ => 12
  | .read _ buf => 2 * buf.length + 4

section
variable {s s' s₀ : DriverState w} {rest : Heap Byte} {buf : List Byte} {e : CallEvent}

theorem Finishes.enabled {pc : WritePc} {returned : ℤ} (h : Finishes buf returned s' pc s)
    (hd : s.heap.Apart rest) (he : (CallPc.write buf pc : CallPc w).Expects e) :
    ∃ next, writeStep (s.extend rest) buf pc e = some next := by
  cases h with
  | unlock | fault =>
    cases e with
    | mutexUnlock => exact ⟨_, rfl⟩
    | _ => cases he
  | compute hs _ =>
    obtain ⟨hs', -⟩ := writeStep_frame hd (by simp) hs
    cases e with
    | compute => exact ⟨_, hs'⟩
    | _ =>
      cases pc with
      | lock | alloc | copyUser | unlock | unlockFault => cases hs
      | _ => cases he

theorem WriteInside.enabled {stored : List (AesdBufferEntry w)} {d : Device}
    (h : Rep limit s₀ stored d) (hunlocked : s₀.device.bufferLock = false) (hw : 32 ≤ w)
    (hlimit : limit < 2 ^ 31) (hpassed : (Request.write buf).Passed w) {pc : WritePc}
    (hi : WriteInside limit s₀ buf pc s) (hd : s.heap.Apart rest)
    (he : (CallPc.write buf pc : CallPc w).Expects e)
    (hallowed : (CallPc.write buf pc).Allowed limit (s.extend rest) e) :
    ∃ next, writeStep (s.extend rest) buf pc e = some next := by
  cases hi with
  | alloc =>
    cases e with
    | kmalloc got => cases got <;> exact ⟨_, rfl⟩
    | _ => cases he
  | copyOld henv =>
    cases e with
    | compute =>
      obtain ⟨r, hr⟩ := henv.writes h hunlocked hw hlimit hpassed
      obtain ⟨heap, hcopy⟩ := aesdWrite_copyOld rfl rfl hr
      obtain ⟨hcopy', -⟩ := copyOldBuffer_frame hd hcopy
      exact ⟨_, congrArg (Option.map _) hcopy'⟩
    | _ => cases he
  | @copyUser a block heap henv hcopy =>
    cases e with
    | copyFromUser notCopied =>
      have hcount := ofNat_length_toNat hw hpassed.2
      have henv' : WriteEnv.Allowed limit s₀ (BitVec.ofNat w buf.length)
        ⟨0, some (a, block), notCopied⟩ := ⟨henv.kmalloc, hallowed.trans_eq hcount.symm⟩
      obtain ⟨r, hr⟩ := henv'.writes h hunlocked hw hlimit hpassed
      obtain ⟨pc₁, s₁, hstep, -, -⟩ := aesdWrite_finishes rfl rfl hcopy hr
      obtain ⟨hstep', -⟩ := writeStep_frame hd (by simp) hstep
      exact ⟨_, hstep'⟩
    | _ => cases he
  | finishes _ _ _ hf => exact hf.enabled hd he

theorem ReadInside.enabled {fPos : BitVec 64} {buf₀ : List Byte} {count : BitVec w} {pc : ReadPc w}
    (hi : ReadInside s₀ fPos buf₀ count pc buf)
    (he : (CallPc.read fPos count buf pc).Expects e) :
    ∃ next, readStep (s₀.lock.extend rest) fPos count buf pc e = some next := by
  cases hi with
  | search =>
    cases e with
    | compute => exact ⟨_, rfl⟩
    | _ => cases he
  | copyUser _ _ _ hload _ =>
    cases e with
    | copyToUser notCopied => exact ⟨_, congrArg (Option.map _) (load_frame hload rest)⟩
    | _ => cases he
  | unlock =>
    cases e with
    | mutexUnlock => exact ⟨_, rfl⟩
    | _ => cases he

end

section
variable {holder : Option ι} {s : DriverState w} {rest : Heap Byte} {c : Callers ι w}
  {a : State ι Request Response (DriverState w)}

/-- A thread goes on from any answer, unless it waits for the lock. -/
theorem Simulates.enabled (hw : 32 ≤ w) (hlimit : limit < 2 ^ 31)
    (h : Simulates limit holder s rest c a) {t : ι} {e : CallEvent} (he : (c.pc t).Expects e)
    (hallowed : (c.pc t).Allowed limit c.driver e) :
    (∃ next, callStep c.driver (c.pc t) e = some next) ∨
      ((c.pc t).AtLock ∧ c.driver.device.bufferLock = true) := by
  by_cases ht : holder = some t
  · left
    obtain ⟨d, hd⟩ := h.holds
    obtain ⟨stored, hrep⟩ := hd.rep
    have hi := h.inside t ht
    rw [h.driver] at hallowed ⊢
    generalize c.pc t = pc at hi he hallowed
    generalize a.phase t = phase at hi
    cases hi with
    | write hpassed hi =>
      exact hi.enabled hrep hd.unlocked hw hlimit hpassed h.apart he hallowed
    | read hpassed hi => exact hi.enabled he
  · have ho := h.outside t ht
    have hclaim : ∀ x, (c.pc t).toFree = some x → (c.driver.heap x).isSome := by
      intro x hx
      have hlive := (h.leftOver.live x).mpr ⟨t, hx⟩
      rw [h.driver]
      exact Heap.isSome_union.mpr (.inr hlive)
    generalize c.pc t = pc at ho he hclaim
    generalize a.phase t = phase at ho
    cases ho with
    | idle =>
      cases e with
      | invoke request => cases request <;> exact .inl ⟨_, rfl⟩
      | _ => cases he
    | writeLock hpassed =>
      cases e with
      | mutexLockInterruptible rc =>
        by_cases hlock : c.driver.device.bufferLock = true
        · exact .inr ⟨trivial, hlock⟩
        · left
          by_cases hget : getLock rc ≠ 0
          · exact ⟨_, if_pos hget⟩
          · exact ⟨_, (if_neg hget).trans (if_neg hlock)⟩
      | _ => cases he
    | readLock hpassed =>
      cases e with
      | mutexLockInterruptible rc =>
        by_cases hlock : c.driver.device.bufferLock = true
        · exact .inr ⟨trivial, hlock⟩
        · left
          by_cases hget : getLock rc ≠ 0
          · exact ⟨_, if_pos hget⟩
          · exact ⟨_, (if_neg hget).trans (if_neg hlock)⟩
      | _ => cases he
    | @freeNew buf x =>
      cases e with
      | compute =>
        obtain ⟨block, hblock⟩ := Option.isSome_iff_exists.mp (hclaim x rfl)
        exact .inl ⟨_, congrArg (Option.map _) (Heap.free_of_live hblock)⟩
      | _ => cases he
    | returns response =>
      cases e with
      | respond response' => exact .inl ⟨_, if_pos he⟩
      | _ => cases he

/-- With the lock free the live blocks are those of the device and those that threads have still to
free. -/
theorem Simulates.accounts (h : Simulates limit holder s rest c a)
    (hfree : c.driver.device.bufferLock = false) : (heldPointers c.driver).Nodup ∧
      (∀ t x, (c.pc t).toFree = some x → x ∉ heldPointers c.driver) ∧
      ∀ x, (c.driver.heap x).isSome ↔
        x ∈ heldPointers c.driver ∨ ∃ t, (c.pc t).toFree = some x := by
  obtain rfl := h.holder_eq_none hfree
  obtain ⟨d, hd⟩ := h.holds
  obtain ⟨stored, hrep⟩ := hd.rep
  rw [← h.idle rfl] at hrep
  obtain ⟨hnodup, hlive⟩ := hrep.ownsHeld.owns
  have hheld : heldPointers c.driver = heldPointers s := by
    rw [h.driver]
    rfl
  rw [hheld]
  refine ⟨hnodup, ?_, ?_⟩
  · intro t x ht hx
    have hleft := (h.leftOver.live x).mpr ⟨t, ht⟩
    rcases h.apart x with hnone | hnone
    · simpa [hnone] using (hlive x).mpr hx
    · simp [hnone] at hleft
  · intro x
    rw [h.driver]
    exact Heap.isSome_union.trans (or_congr (hlive x) (h.leftOver.live x))

theorem WriteInside.holdsLock {s₀ : DriverState w} {buf : List Byte} {pc : WritePc}
    (hi : WriteInside limit s₀ buf pc s) : (CallPc.write buf pc : CallPc w).HoldsLock := by
  cases hi with
  | finishes _ _ _ hf =>
    have hfree := hf.toFree (w := w)
    cases pc with
    | lock =>
      cases hf with
      | compute hs _ => cases hs
    | freeNew => cases hfree
    | _ => trivial
  | _ => trivial

theorem Simulates.holder_of_locked (h : Simulates limit holder s rest c a)
    (hlock : c.driver.device.bufferLock = true) :
    ∃ t, (c.pc t).HoldsLock ∧ ∀ t', (c.pc t').HoldsLock → t' = t := by
  cases holder with
  | none =>
    obtain ⟨d, hd⟩ := h.holds
    rw [h.driver, h.idle rfl] at hlock
    exact absurd (hd.unlocked.symm.trans hlock) (by decide)
  | some t =>
    refine ⟨t, ?_, ?_⟩
    · have hi := h.inside t rfl
      generalize c.pc t = pc at hi
      generalize a.phase t = phase at hi
      cases hi with
      | write _ hi => exact hi.holdsLock
      | read _ hi => cases hi <;> trivial
    · intro t' hholds
      by_contra hne
      have ho := h.outside t' fun hc => hne (Option.some.inj hc).symm
      generalize c.pc t' = pc at ho hholds
      generalize a.phase t' = phase at ho
      cases ho <;> exact hholds

end

theorem exists_expected (s : DriverState w) (pc : CallPc w) (hpc : pc ≠ .idle) :
    ∃ e, pc.Expects e ∧ pc.Allowed limit s e := by
  cases pc with
  | idle => exact absurd rfl hpc
  | write buf pc =>
    cases pc with
    | lock => exact ⟨.mutexLockInterruptible 0, trivial, trivial⟩
    | alloc => exact ⟨.kmalloc none, trivial, trivial⟩
    | copyUser => exact ⟨.copyFromUser 0, trivial, Nat.zero_le _⟩
    | unlock | unlockFault => exact ⟨.mutexUnlock, trivial, trivial⟩
    | _ => exact ⟨.compute, trivial, trivial⟩
  | read fPos count buf pc =>
    cases pc with
    | lock => exact ⟨.mutexLockInterruptible 0, trivial, trivial⟩
    | search => exact ⟨.compute, trivial, trivial⟩
    | copyUser => exact ⟨.copyToUser 0, trivial, trivial⟩
    | unlock => exact ⟨.mutexUnlock, trivial, trivial⟩
  | returns response => exact ⟨.respond response, rfl, trivial⟩

section
variable {s s' : DriverState w} {buf : List Byte} {e : CallEvent} {pc' : CallPc w}

theorem writeStep_stepsLeft {pc : WritePc} (h : writeStep s buf pc e = some (s', pc')) :
    pc'.stepsLeft < (CallPc.write buf pc : CallPc w).stepsLeft := by
  unfold writeStep at h
  split at h
  case h_1 rc =>
    split at h
    next =>
      obtain ⟨rfl, rfl⟩ := Prod.mk.inj (Option.some.inj h)
      simp [CallPc.stepsLeft]
    next =>
      split at h
      next => cases h
      next =>
        obtain ⟨rfl, rfl⟩ := Prod.mk.inj (Option.some.inj h)
        simp [CallPc.stepsLeft]
  case h_2 got =>
    split at h <;>
    · obtain ⟨rfl, rfl⟩ := Prod.mk.inj (Option.some.inj h)
      simp [CallPc.stepsLeft]
  case h_4 a n =>
    obtain ⟨heap, -, heq⟩ := Option.map_eq_some_iff.mp h
    obtain ⟨rfl, rfl⟩ := Prod.mk.inj heq
    split <;> simp [CallPc.stepsLeft]
  case h_7 =>
    obtain ⟨last, -, heq⟩ := Option.map_eq_some_iff.mp h
    obtain ⟨rfl, rfl⟩ := Prod.mk.inj heq
    split <;> simp [CallPc.stepsLeft]
  case h_3 | h_5 | h_10 | h_13 =>
    obtain ⟨_, -, heq⟩ := Option.map_eq_some_iff.mp h
    obtain ⟨rfl, rfl⟩ := Prod.mk.inj heq
    simp [CallPc.stepsLeft]
  case h_14 => cases h
  all_goals
    obtain ⟨rfl, rfl⟩ := Prod.mk.inj (Option.some.inj h)
    simp [CallPc.stepsLeft]

/-- A round under way copies something, within the count. -/
def ReadPc.Advances (count : BitVec w) : ReadPc w → Prop
  | .copyUser _ bytesRead _ bytesToCopy => 0 < bytesToCopy.toNat ∧
      bytesRead.toNat + bytesToCopy.toNat ≤ count.toNat
  | _ => True

theorem readStep_stepsLeft {fPos : BitVec 64} {count : BitVec w} {pc : ReadPc w}
    (hpc : pc.Advances count) (h : readStep s fPos count buf pc e = some (s', pc')) :
    pc'.stepsLeft < (CallPc.read fPos count buf pc).stepsLeft := by
  unfold readStep at h
  split at h
  case h_1 rc =>
    split at h
    next =>
      obtain ⟨rfl, rfl⟩ := Prod.mk.inj (Option.some.inj h)
      simp [CallPc.stepsLeft]
    next =>
      split at h
      next => cases h
      next =>
        obtain ⟨rfl, rfl⟩ := Prod.mk.inj (Option.some.inj h)
        simp [CallPc.stepsLeft]
  case h_2 bytesRead charReturned =>
    obtain ⟨rfl, rfl⟩ := Prod.mk.inj (Option.some.inj h)
    unfold readRound
    split
    · split <;> simp [CallPc.stepsLeft]
    · simp [CallPc.stepsLeft]
  case h_3 index bytesRead charReturned n notCopied =>
    obtain ⟨bytes, -, heq⟩ := Option.map_eq_some_iff.mp h
    obtain ⟨rfl, rfl⟩ := Prod.mk.inj heq
    obtain ⟨hpos, hle⟩ := hpc
    have hn : n.toNat ≤ count.toNat - bytesRead.toNat := by omega
    have hadd := add_toNat_of_le hn (by omega)
    split
    · simp only [CallPc.stepsLeft]
      omega
    · simp only [CallPc.stepsLeft]
      omega
  case h_4 =>
    obtain ⟨rfl, rfl⟩ := Prod.mk.inj (Option.some.inj h)
    simp [CallPc.stepsLeft]
  case h_5 => cases h

end

def CallEvent.request : CallEvent → Option Request
  | .invoke request => some request
  | _ => none

section
variable [DecidableEq ι]

/-- One for each step of `t` inside a call. -/
def stepCost (t : ι) (l : ι × CallEvent) : ℕ := if l.1 = t ∧ l.2.request = none then 1 else 0

/-- The steps that the requests of `t` are allowed. -/
def stepGrant (t : ι) (l : ι × CallEvent) : ℕ :=
  if l.1 = t then (l.2.request.map Request.steps).getD 0 else 0

variable {holder : Option ι} {s : DriverState w} {rest : Heap Byte} {c c' : Callers ι w}
  {a : State ι Request Response (DriverState w)} {l : ι × CallEvent} {tr : List (ι × CallEvent)}

theorem callStep_stepsLeft (hw : 32 ≤ w) (h : Simulates limit holder s rest c a) {t : ι}
    {e : CallEvent} {s' : DriverState w} {pc' : CallPc w}
    (hallowed : (c.pc t).Allowed limit c.driver e)
    (hs : callStep c.driver (c.pc t) e = some (s', pc')) :
    (if e.request = none then 1 else 0) + pc'.stepsLeft ≤
      (c.pc t).stepsLeft + (e.request.map Request.steps).getD 0 := by
  by_cases ht : holder = some t
  · have hi := h.inside t ht
    generalize c.pc t = pc at hi hs
    generalize a.phase t = phase at hi
    cases hi with
    | write _ hi =>
      have hless := writeStep_stepsLeft hs
      split <;> omega
    | @read fPos buf₀ buf pc _ hi =>
      have hadvances : pc.Advances (BitVec.ofNat w buf₀.length) := by
        cases hi with
        | copyUser hpos hle _ _ _ => exact ⟨hpos, hle⟩
        | _ => trivial
      have hless := readStep_stepsLeft hadvances hs
      split <;> omega
  · have ho := h.outside t ht
    generalize c.pc t = pc at ho hs hallowed
    generalize a.phase t = phase at ho
    cases ho with
    | idle =>
      cases e with
      | invoke request =>
        cases request with
        | write buf =>
          obtain ⟨rfl, rfl⟩ := Prod.mk.inj (Option.some.inj hs)
          simp [CallEvent.request, CallPc.stepsLeft, Request.steps]
        | read fPos buf =>
          obtain ⟨rfl, rfl⟩ := Prod.mk.inj (Option.some.inj hs)
          have hcount := ofNat_length_toNat hw hallowed.2
          rw [if_neg (by simp [CallEvent.request])]
          change 0 + (2 * (BitVec.ofNat w buf.length).toNat + 4) ≤ 0 + (2 * buf.length + 4)
          rw [hcount]
      | _ => cases hs
    | writeLock | freeNew =>
      have hless := writeStep_stepsLeft hs
      split <;> omega
    | @readLock fPos buf =>
      have hadvances : (ReadPc.lock : ReadPc w).Advances (BitVec.ofNat w buf.length) := trivial
      have hless := readStep_stepsLeft hadvances hs
      split <;> omega
    | returns response =>
      cases e with
      | respond response' =>
        change (if response' = response then _ else _) = _ at hs
        split at hs
        next =>
          obtain ⟨rfl, rfl⟩ := Prod.mk.inj (Option.some.inj hs)
          simp [CallEvent.request, CallPc.stepsLeft]
        next => cases hs
      | _ => cases hs

theorem step_stepsLeft (hw : 32 ≤ w) (h : Simulates limit holder s rest c a) (t : ι)
    (hs : c.Step limit l c') :
    stepCost t l + (c'.pc t).stepsLeft ≤ (c.pc t).stepsLeft + stepGrant t l := by
  obtain ⟨t', e⟩ := l
  obtain ⟨hallowed, s', pc', hs, rfl⟩ := hs
  by_cases ht : t' = t
  · subst ht
    simpa [stepCost, stepGrant] using callStep_stepsLeft hw h hallowed hs
  · simp [stepCost, stepGrant, ht, Function.update_of_ne (Ne.symm ht)]

theorem goes_on_or_waits (hw : 32 ≤ w) (hw' : w ≤ 64) (hlimit : limit < 2 ^ 31)
    (hfits : maxWriteOperationsSupported * limit < 2 ^ w)
    (hrun : Run (Callers.Step limit) (Callers.start ι w) tr c) (t : ι) (e : CallEvent)
    (he : (c.pc t).Expects e) (hallowed : (c.pc t).Allowed limit c.driver e) :
    (∃ c', c.Step limit (t, e) c') ∨ ((c.pc t).AtLock ∧ c.driver.device.bufferLock = true) := by
  obtain ⟨a, holder, s, rest, h⟩ := run_simulates hw hw' hlimit hfits hrun
  rcases h.enabled hw hlimit he hallowed with ⟨⟨s', pc'⟩, hs⟩ | hwaits
  · exact .inl ⟨_, hallowed, s', pc', hs, rfl⟩
  · exact .inr hwaits

/-- In every interleaving each access and each release is of a live block: a thread can go on from
whatever the kernel answers, unless another has the lock. With the lock free, the live blocks are
those of the device, each held once, and those of failed copies, each still to be freed by one
thread. -/
theorem concurrent_calls_safe (hw : 32 ≤ w) (hw' : w ≤ 64) (hlimit : limit < 2 ^ 31)
    (hfits : maxWriteOperationsSupported * limit < 2 ^ w)
    (hrun : Run (Callers.Step limit) (Callers.start ι w) tr c) :
    (∀ t e, (c.pc t).Expects e → (c.pc t).Allowed limit c.driver e →
      (∃ c', c.Step limit (t, e) c') ∨
        ((c.pc t).AtLock ∧ c.driver.device.bufferLock = true)) ∧
    (c.driver.device.bufferLock = false → (heldPointers c.driver).Nodup ∧
      (∀ t x, (c.pc t).toFree = some x → x ∉ heldPointers c.driver ∧
        ∀ t', (c.pc t').toFree = some x → t' = t) ∧
      ∀ x, (c.driver.heap x).isSome ↔
        x ∈ heldPointers c.driver ∨ ∃ t, (c.pc t).toFree = some x) := by
  refine ⟨goes_on_or_waits hw hw' hlimit hfits hrun, ?_⟩
  obtain ⟨a, holder, s, rest, h⟩ := run_simulates hw hw' hlimit hfits hrun
  intro hfree
  obtain ⟨hnodup, hapart, hlive⟩ := h.accounts hfree
  refine ⟨hnodup, ?_, hlive⟩
  intro t x ht
  exact ⟨hapart t x ht, fun t' ht' => h.leftOver.alone t' t x ht' ht⟩

/-- The thread has a next step, and takes it whatever the kernel answers. -/
def Callers.GoesOn (limit : ℕ) (c : Callers ι w) (t : ι) : Prop :=
  (∃ e c', c.Step limit (t, e) c') ∧
    ∀ e, (c.pc t).Expects e → (c.pc t).Allowed limit c.driver e → ∃ c', c.Step limit (t, e) c'

theorem goesOn_of_safe {t : ι} (ht : c.pc t ≠ .idle)
    (hsafe : ∀ e, (c.pc t).Expects e → (c.pc t).Allowed limit c.driver e →
      ∃ c', c.Step limit (t, e) c') : c.GoesOn limit t := by
  obtain ⟨e, he, hallowed⟩ := exists_expected c.driver (c.pc t) ht
  exact ⟨⟨e, hsafe e he hallowed⟩, hsafe⟩

/-- No call goes on for ever: in every run a thread takes at most twelve steps for each write it has
called and `2 * n + 4` for each read of `n` bytes. No call gets stuck: each thread in one goes on
from any answer, or is about to take a lock that exactly one other thread has, which goes on. -/
theorem concurrent_calls_end (hw : 32 ≤ w) (hw' : w ≤ 64) (hlimit : limit < 2 ^ 31)
    (hfits : maxWriteOperationsSupported * limit < 2 ^ w)
    (hrun : Run (Callers.Step limit) (Callers.start ι w) tr c) :
    (∀ t, (tr.map (stepCost t)).sum ≤ (tr.map (stepGrant t)).sum) ∧
      ∀ t, c.pc t ≠ .idle → c.GoesOn limit t ∨
        (c.pc t).AtLock ∧ c.driver.device.bufferLock = true ∧
          ∃ t', (c.pc t').HoldsLock ∧ (∀ u, (c.pc u).HoldsLock → u = t') ∧ c.GoesOn limit t' := by
  constructor
  · intro t
    have hbound : (tr.map (stepCost t)).sum + (c.pc t).stepsLeft ≤
        ((Callers.start ι w).pc t).stepsLeft + (tr.map (stepGrant t)).sum := by
      apply hrun.potential (I := fun c => ∃ a holder s rest, Simulates limit holder s rest c a)
        (V := fun c => (c.pc t).stepsLeft)
      · exact ⟨_, none, _, _, simulates_start⟩
      · rintro c l c' ⟨a, holder, s, rest, h⟩ hs
        obtain ⟨_, a', -, -, holder', s', rest', h'⟩ := h.step hw hw' hlimit hfits hs
        exact ⟨⟨a', holder', s', rest', h'⟩, step_stepsLeft hw h t hs⟩
    have hstart : ((Callers.start ι w).pc t).stepsLeft = 0 := rfl
    omega
  · intro t ht
    have hsafe := goes_on_or_waits hw hw' hlimit hfits hrun
    obtain ⟨a, holder, s, rest, h⟩ := run_simulates hw hw' hlimit hfits hrun
    by_cases hwaits : (c.pc t).AtLock ∧ c.driver.device.bufferLock = true
    · right
      obtain ⟨t', hholds, halone⟩ := h.holder_of_locked hwaits.2
      have hnot : ¬(c.pc t').AtLock := hholds.not_atLock
      refine ⟨hwaits.1, hwaits.2, t', hholds, halone, goesOn_of_safe hholds.not_idle ?_⟩
      intro e he hallowed
      exact (hsafe t' e he hallowed).resolve_right fun hc => hnot hc.1
    · left
      apply goesOn_of_safe ht
      intro e he hallowed
      exact (hsafe t e he hallowed).resolve_right hwaits

end

theorem writeAndRead_safe : ∃ c : Callers Bool 64,
    Run (Callers.Step 4096) (Callers.start Bool 64) (writeAndRead.take 10) c ∧
    (∀ t e, (c.pc t).Expects e → (c.pc t).Allowed 4096 c.driver e →
      (∃ c', c.Step 4096 (t, e) c') ∨
        ((c.pc t).AtLock ∧ c.driver.device.bufferLock = true)) ∧
    (c.driver.device.bufferLock = false → (heldPointers c.driver).Nodup ∧
      (∀ t x, (c.pc t).toFree = some x → x ∉ heldPointers c.driver ∧
        ∀ t', (c.pc t').toFree = some x → t' = t) ∧
      ∀ x, (c.driver.heap x).isSome ↔
        x ∈ heldPointers c.driver ∨ ∃ t, (c.pc t).toFree = some x) := by
  obtain ⟨c, hrun⟩ := writeAndRead_run
  rw [← List.take_append_drop 10 writeAndRead] at hrun
  obtain ⟨c₁, hrun₁, -⟩ := hrun.split
  exact ⟨c₁, hrun₁,
    concurrent_calls_safe (by decide) (by decide) (by decide) (by decide) hrun₁⟩

/-- The second thread at the lock while the first one has it. -/
theorem writeAndRead_ends : ∃ c : Callers Bool 64,
    Run (Callers.Step 4096) (Callers.start Bool 64) (writeAndRead.take 3) c ∧
    (∀ t, ((writeAndRead.take 3).map (stepCost t)).sum ≤
      ((writeAndRead.take 3).map (stepGrant t)).sum) ∧
    ∀ t, c.pc t ≠ .idle → c.GoesOn 4096 t ∨
      (c.pc t).AtLock ∧ c.driver.device.bufferLock = true ∧
        ∃ t', (c.pc t').HoldsLock ∧ (∀ u, (c.pc u).HoldsLock → u = t') ∧ c.GoesOn 4096 t' := by
  obtain ⟨c, hrun⟩ := writeAndRead_run
  rw [← List.take_append_drop 3 writeAndRead] at hrun
  obtain ⟨c₁, hrun₁, -⟩ := hrun.split
  exact ⟨c₁, hrun₁, concurrent_calls_end (by decide) (by decide) (by decide) (by decide) hrun₁⟩

end Aesd.Driver
