import Aesd.Lib.Atomicity
import Aesd.Driver.CallSections
import Aesd.Driver.FailedCalls

/-! Concurrent calls are linearizable: each takes effect when it releases `buffer_lock`, or when it
gives up waiting for it, as the device says. -/
namespace Aesd.Driver
open Blocks CircularWindow AesdCircularBuffer Runs Atomicity

variable {w limit : ℕ} {ι : Type}

/-- What user space sees of a step. -/
def CallEvent.seen (l : ι × CallEvent) : Option (Action ι Request Response) :=
  match l.2 with
  | .invoke request => some (.invoke l.1 request)
  | .respond response => some (.respond l.1 response)
  | _ => none

/-- What the device may answer. A failed read may have filled the front of the buffer. -/
inductive Device.Serves (d : Device) : Request → Response → Device → Prop where
  | written (buf : List Byte) : Device.Serves d (.write buf) (.write buf.length) (d.write buf)
  | writeFails (buf : List Byte) {returned : ℤ} (h : returned < 0) :
      Device.Serves d (.write buf) (.write returned) d
  | delivered {fPos : BitVec 64} {buf got : List Byte}
      (h : got = (d.content.drop fPos.toNat).take buf.length) : Device.Serves d (.read fPos buf)
        (.read got.length (fPos + BitVec.ofNat 64 got.length) (splice buf 0 got)) d
  | readFails (fPos : BitVec 64) (buf : List Byte) {returned : ℤ} (h : returned < 0) (n : ℕ) :
      Device.Serves d (.read fPos buf)
        (.read returned fPos (splice buf 0 ((d.content.drop fPos.toNat).take n))) d

structure Holds (limit : ℕ) (s : DriverState w) (d : Device) : Prop where
  unlocked : s.device.bufferLock = false
  rep : ∃ stored, Rep limit s stored d
  within : d.Within limit

theorem holds_loaded : Holds limit (loaded w) Device.empty :=
  ⟨rfl, ⟨[], rep_loaded limit⟩, by simp [Device.Within, Device.empty]⟩

section
variable {s s' : DriverState w} {d : Device}

theorem aesdRead_serves (hw : 32 ≤ w) (hw' : w ≤ 64)
    (hfits : maxWriteOperationsSupported * limit < 2 ^ w) (h : Holds limit s d) {fPos : BitVec 64}
    {buf : List Byte} (hpassed : (Request.read fPos buf).Passed w) {env : ReadEnv}
    {r : ReadResult w} (hr : aesdRead s env buf (BitVec.ofNat w buf.length) fPos = some r) :
    r.state = s ∧ d.Serves (.read fPos buf) (.read r.returned r.fPos r.buf) d := by
  obtain ⟨hunlocked, ⟨stored, hrep⟩, hwithin⟩ := h
  obtain ⟨hpos, hmax⟩ := hpassed
  have hcount := ofNat_length_toNat hw hmax
  have hcontent : d.content.length < 2 ^ w := hwithin.content_length_le.trans_lt hfits
  by_cases hnonneg : 0 ≤ r.returned
  · have hexact := aesdRead_of_nonneg hrep hunlocked hw' hpos hcontent hr hnonneg
    rw [hcount] at hexact
    set got := (d.content.drop fPos.toNat).take buf.length with hgot
    have hgotMax : got.length ≤ maxRwCount := by
      rw [hgot]
      exact (List.length_take_le ..).trans hmax
    have hgotCount := ofNat_length_toNat hw hgotMax
    have hreturned : (BitVec.ofNat w got.length).toInt = got.length := by
      rw [toInt_of_le_maxRwCount hw (hgotCount.trans_le hgotMax), hgotCount]
    have hcast : (BitVec.ofNat w got.length).setWidth 64 = BitVec.ofNat 64 got.length := by
      apply BitVec.eq_of_toNat_eq
      rw [BitVec.toNat_setWidth, hgotCount, BitVec.toNat_ofNat]
    rw [hexact, hreturned, hcast]
    exact ⟨rfl, .delivered hgot⟩
  · have hneg := not_le.mp hnonneg
    obtain ⟨r', hr', hstate, hposition⟩ :=
      aesdRead_returns hrep hunlocked env buf (BitVec.ofNat w buf.length) fPos
    obtain rfl := Option.some.inj (hr'.symm.trans hr)
    have hsame : r'.fPos = fPos := by
      rcases hposition with hposition | ⟨read, hreturned, hread⟩
      · exact hposition
      · have := toInt_nonneg_of_le_maxRwCount hw (hcount.trans_le hmax) hread
        omega
    obtain ⟨n, hbuf⟩ : ∃ n, r'.buf = splice buf 0 ((d.content.drop fPos.toNat).take n) := by
      by_cases hlock : env.mutexLockInterruptible = 0
      · have hzero : (0 : BitVec w).toNat = 0 := by simp
        obtain ⟨-, ⟨done, buf'⟩, -, hloop⟩ :=
          tracedLoop_returns hrep.lock env (BitVec.ofNat w buf.length) fPos buf
        obtain ⟨n, hbuf, -⟩ := readLoop_front hrep.lock hw' hpos hcontent _ 0
          (hzero.le.trans (Nat.zero_le _)) (.inl hzero) (hzero.le.trans (Nat.zero_le _)) hloop
        rw [hzero, Nat.add_zero] at hbuf
        have hresult := Option.some.inj ((aesdRead_of_loop hlock hloop).symm.trans hr')
        refine ⟨n, ?_⟩
        rw [← hresult, ← hbuf]
        cases done <;> rfl
      · have hresult : r' = ⟨-eRestartSys, s, fPos, buf⟩ := by
          simpa [aesdRead, getLock, hlock, eRestartSys, eq_comm] using hr'
        exact ⟨0, by rw [hresult, List.take_zero, splice_nil]⟩
    rw [hsame, hbuf]
    exact ⟨hstate, .readFails fPos buf hneg n⟩

/-- Calls made one after the other serve as the device does. -/
theorem serves_refines (hw : 32 ≤ w) (hw' : w ≤ 64) (hlimit : limit < 2 ^ 31)
    (hfits : maxWriteOperationsSupported * limit < 2 ^ w) (h : Holds limit s d) {request : Request}
    {response : Response} (hs : Serves limit s request response s') :
    ∃ d', d.Serves request response d' ∧ Holds limit s' d' := by
  cases hs with
  | @write buf env r hpassed henv hr =>
    obtain ⟨hunlocked, ⟨stored, hrep⟩, hwithin⟩ := h
    obtain ⟨hfree, hdone⟩ := aesdWrite_result hrep hunlocked hw hlimit hpassed.2 henv hr
    split at hdone
    next hsucc =>
      have hcount := ofNat_length_toNat hw hpassed.2
      have hroom := pending_add_count_le hrep hw hlimit (hcount.trans_le hpassed.2) henv hsucc
      rw [hcount] at hroom
      rw [hdone.1]
      exact ⟨d.write buf, .written buf, hfree, hdone.2, hwithin.write hroom⟩
    next =>
      rw [hdone.2]
      exact ⟨d, .writeFails buf hdone.1, hunlocked, ⟨stored, hrep⟩, hwithin⟩
  | read hpassed hr =>
    obtain ⟨hstate, hserves⟩ := aesdRead_serves hw hw' hfits h hpassed hr
    exact ⟨d, hserves, hstate ▸ h⟩

end

def CallPc.toFree : CallPc w → Option ℕ
  | .write _ (.freeNew a) => some a
  | _ => none

/-- A thread without the lock, and how far the object has its operation. -/
inductive Outside : CallPc w → Phase Request Response → Prop where
  | idle : Outside .idle .idle
  | writeLock {buf : List Byte} (hpassed : (Request.write buf).Passed w) :
      Outside (.write buf .lock) (.called (.write buf))
  | readLock {fPos : BitVec 64} {buf : List Byte} (hpassed : (Request.read fPos buf).Passed w) :
      Outside (.read fPos (BitVec.ofNat w buf.length) buf .lock) (.called (.read fPos buf))
  | freeNew {buf : List Byte} {a : ℕ} :
      Outside (.write buf (.freeNew a)) (.done (.write (-eFault)))
  | returns (response : Response) : Outside (.returns response) (.done response)

/-- The thread with the lock: the driver was `s₀` when it took it and is `s` now, but for the blocks
left over. -/
inductive Inside (limit : ℕ) (s₀ : DriverState w) :
    CallPc w → Phase Request Response → DriverState w → Prop where
  | write {buf : List Byte} {pc : WritePc} {s : DriverState w}
      (hpassed : (Request.write buf).Passed w) (hi : WriteInside limit s₀ buf pc s) :
      Inside limit s₀ (.write buf pc) (.called (.write buf)) s
  | read {fPos : BitVec 64} {buf₀ buf : List Byte} {pc : ReadPc w}
      (hpassed : (Request.read fPos buf₀).Passed w)
      (hi : ReadInside s₀ fPos buf₀ (BitVec.ofNat w buf₀.length) pc buf) :
      Inside limit s₀ (.read fPos (BitVec.ofNat w buf₀.length) buf pc) (.called (.read fPos buf₀))
        s₀.lock

/-- The driver with its threads, and the object: the last state without a call under way. -/
structure Simulates (limit : ℕ) (holder : Option ι) (s : DriverState w) (rest : Heap Byte)
    (c : Callers ι w) (a : State ι Request Response (DriverState w)) : Prop where
  holds : ∃ d, Holds limit a.object d
  driver : c.driver = s.extend rest
  apart : s.heap.Apart rest
  leftOver : rest.ClaimedBy (CallPc.toFree ∘ c.pc)
  idle : holder = none → s = a.object
  inside : ∀ t, holder = some t → Inside limit a.object (c.pc t) (a.phase t) s
  outside : ∀ t, holder ≠ some t → Outside (c.pc t) (a.phase t)

theorem simulates_start : Simulates limit none (loaded w) (fun _ => none) (Callers.start ι w)
    (State.start (loaded w)) where
  holds := ⟨_, holds_loaded⟩
  driver := congrArg (DriverState.withHeap (loaded w)) (Heap.union_empty _).symm
  apart := Heap.apart_empty _
  leftOver := Heap.claimedBy_none
  idle _ := rfl
  inside t h := by cases h
  outside _ _ := .idle

theorem writeStep_unseen {s : DriverState w} {buf : List Byte} {pc : WritePc} {e : CallEvent}
    {next : DriverState w × CallPc w} (t : ι) (hs : writeStep s buf pc e = some next) :
    CallEvent.seen (t, e) = none := by
  cases e with
  | invoke _ | respond _ => cases pc <;> cases hs
  | _ => rfl

theorem readStep_unseen {s : DriverState w} {fPos : BitVec 64} {count : BitVec w} {buf : List Byte}
    {pc : ReadPc w} {e : CallEvent} {next : DriverState w × CallPc w} (t : ι)
    (hs : readStep s fPos count buf pc e = some next) : CallEvent.seen (t, e) = none := by
  cases e with
  | invoke _ | respond _ => cases pc <;> cases hs
  | _ => rfl

theorem Finishes.toFree {buf : List Byte} {returned : ℤ} {s s' : DriverState w} {pc : WritePc}
    (h : Finishes buf returned s' pc s) : (CallPc.write buf pc : CallPc w).toFree = none := by
  cases pc with
  | freeNew a =>
    cases h with
    | compute hs _ =>
      obtain ⟨_, -, hs⟩ := Option.map_eq_some_iff.mp hs
      cases hs
  | _ => rfl

theorem Inside.locked {s₀ s : DriverState w} {pc : CallPc w} {phase : Phase Request Response}
    (h : Inside limit s₀ pc phase s) : s.device.bufferLock = true ∧ pc.toFree = none := by
  cases h with
  | write _ hi =>
    cases hi with
    | finishes _ _ hlock hf => exact ⟨hlock, hf.toFree⟩
    | _ => exact ⟨rfl, rfl⟩
  | read _ _ => exact ⟨rfl, rfl⟩

theorem Simulates.holder_eq_none {holder : Option ι} {s : DriverState w}
    {rest : Heap Byte} {c : Callers ι w} {a : State ι Request Response (DriverState w)}
    (h : Simulates limit holder s rest c a) (hfree : c.driver.device.bufferLock = false) :
    holder = none := by
  cases holder with
  | none => rfl
  | some t =>
    have hlocked := (h.inside t rfl).locked.1
    rw [h.driver] at hfree
    exact absurd (hlocked.symm.trans hfree) (by decide)

variable [DecidableEq ι]

section
variable {holder : Option ι} {s s' : DriverState w} {rest rest' : Heap Byte} {c : Callers ι w}
  {a : State ι Request Response (DriverState w)} {t : ι} {pc : CallPc w}
  {phase : Phase Request Response}

theorem Simulates.claims (h : Simulates limit holder s rest c a)
    (hpc : pc.toFree = (c.pc t).toFree) :
    rest.ClaimedBy (CallPc.toFree ∘ Function.update c.pc t pc) := by
  rw [Function.comp_update, hpc]
  exact (Function.update_eq_self t (CallPc.toFree ∘ c.pc)).symm ▸ h.leftOver

theorem Simulates.move (h : Simulates limit holder s rest c a) (ht : holder ≠ some t)
    (hd : s.heap.Apart rest') (hleft : rest'.ClaimedBy (CallPc.toFree ∘ Function.update c.pc t pc))
    (ho : Outside pc phase) :
    Simulates limit holder s rest' ⟨s.extend rest', Function.update c.pc t pc⟩
      ⟨a.object, Function.update a.phase t phase⟩ where
  holds := h.holds
  driver := rfl
  apart := hd
  leftOver := hleft
  idle := h.idle
  inside t' ht' := by
    have hne : t' ≠ t := fun hc => ht (hc ▸ ht')
    simp only [Function.update_of_ne hne]
    exact h.inside t' ht'
  outside t' ht' := by
    by_cases hne : t' = t
    · subst hne
      simpa only [Function.update_self] using ho
    · simp only [Function.update_of_ne hne]
      exact h.outside t' ht'

theorem Simulates.enter (h : Simulates limit holder s rest c a)
    (ht : ∀ t', holder = some t' → t' = t) (hpc : pc.toFree = (c.pc t).toFree)
    (hd : s'.heap.Apart rest) (hi : Inside limit a.object pc (a.phase t) s') :
    Simulates limit (some t) s' rest ⟨s'.extend rest, Function.update c.pc t pc⟩ a where
  holds := h.holds
  driver := rfl
  apart := hd
  leftOver := h.claims hpc
  idle := by simp
  inside t' ht' := by
    obtain rfl := Option.some.inj ht'
    simpa only [Function.update_self] using hi
  outside t' ht' := by
    have hne : t' ≠ t := fun hc => ht' (by rw [hc])
    simp only [Function.update_of_ne hne]
    exact h.outside t' fun hc => hne (ht t' hc)

/-- A thread gives the lock back, and its call takes effect. -/
theorem Simulates.leave (h : Simulates limit (some t) s rest c a) (hholds : ∃ d, Holds limit s' d)
    (hd : s'.heap.Apart rest')
    (hleft : rest'.ClaimedBy (CallPc.toFree ∘ Function.update c.pc t pc))
    (ho : Outside pc phase) :
    Simulates limit none s' rest' ⟨s'.extend rest', Function.update c.pc t pc⟩
      ⟨s', Function.update a.phase t phase⟩ where
  holds := hholds
  driver := rfl
  apart := hd
  leftOver := hleft
  idle _ := rfl
  inside t' ht' := by cases ht'
  outside t' _ := by
    by_cases hne : t' = t
    · subst hne
      simpa only [Function.update_self] using ho
    · simp only [Function.update_of_ne hne]
      exact h.outside t' fun hc => hne (Option.some.inj hc).symm

/-- What a step is matched by: moments of the object that show the same to user space. -/
def Matched (limit : ℕ) (a : State ι Request Response (DriverState w))
    (l : ι × CallEvent) (c' : Callers ι w) : Prop :=
  ∃ moments a', Run (Atomicity.Step (Serves limit)) a moments a' ∧
    actions moments = (CallEvent.seen l).toList ∧
    ∃ holder s rest, Simulates limit holder s rest c' a'

theorem Simulates.acquire (h : Simulates limit holder s rest c a)
    (hfree : c.driver.device.bufferLock = false) (hpc : pc.toFree = (c.pc t).toFree)
    (hi : Inside limit a.object pc (a.phase t) a.object.lock) :
    Simulates limit (some t) a.object.lock rest ⟨c.driver.lock, Function.update c.pc t pc⟩ a := by
  obtain rfl := h.holder_eq_none hfree
  have hs := h.idle rfl
  have hapart := h.apart
  have hdriver : c.driver.lock = a.object.lock.extend rest := by
    rw [h.driver, hs]
    rfl
  rw [hs] at hapart
  rw [hdriver]
  exact h.enter (by simp) hpc hapart hi

theorem Matched.silent {l : ι × CallEvent} {c' : Callers ι w} (hseen : CallEvent.seen l = none)
    (h : Simulates limit holder s rest c' a) : Matched limit a l c' :=
  ⟨[], a, .nil, by rw [hseen]; rfl, holder, s, rest, h⟩

theorem Matched.effect {l : ι × CallEvent} {c' : Callers ι w} {request : Request}
    {response : Response} (hseen : CallEvent.seen l = none) (hphase : a.phase t = .called request)
    (hs : Serves limit a.object request response s')
    (h : Simulates limit holder s rest c' ⟨s', Function.update a.phase t (.done response)⟩) :
    Matched limit a l c' :=
  ⟨_, _, Run.single (.effect hphase hs), by rw [hseen]; rfl, holder, s, rest, h⟩

theorem Simulates.matched (h : Simulates limit holder s rest c a) (ht : holder ≠ some t)
    {e : CallEvent} (hpc : pc.toFree = (c.pc t).toFree) (ho : Outside pc phase)
    {m : Moment ι Request Response}
    (hstep : Atomicity.Step (Serves limit) a m ⟨a.object, Function.update a.phase t phase⟩)
    (hseen : actions [m] = (CallEvent.seen (t, e)).toList) :
    Matched limit a (t, e) ⟨c.driver, Function.update c.pc t pc⟩ := by
  refine ⟨[m], _, Run.single hstep, hseen, holder, s, rest, ?_⟩
  rw [h.driver]
  exact h.move ht h.apart (h.claims hpc) ho

theorem Simulates.outside_step (h : Simulates limit holder s rest c a) {e : CallEvent}
    {c' : Callers ι w} (ht : holder ≠ some t) (hs : c.Step limit (t, e) c') :
    Matched limit a (t, e) c' := by
  obtain ⟨hallowed, s', pc', hs, rfl⟩ := hs
  have ho := h.outside t ht
  dsimp only at hallowed hs ⊢
  generalize hpc : c.pc t = pc at ho hs hallowed
  generalize hphase : a.phase t = phase at ho
  cases ho with
  | idle =>
    cases e with
    | invoke request =>
      cases request with
      | write buf =>
        obtain ⟨rfl, rfl⟩ := Prod.mk.inj (Option.some.inj hs)
        exact h.matched ht (by rw [hpc]; rfl) (.writeLock hallowed) (.invoke _ hphase) rfl
      | read fPos buf =>
        obtain ⟨rfl, rfl⟩ := Prod.mk.inj (Option.some.inj hs)
        exact h.matched ht (by rw [hpc]; rfl) (.readLock hallowed) (.invoke _ hphase) rfl
    | _ => cases hs
  | @writeLock buf hpassed =>
    cases e with
    | mutexLockInterruptible rc =>
      change (if getLock rc ≠ 0 then _ else _) = _ at hs
      split at hs
      next hget =>
        obtain ⟨rfl, rfl⟩ := Prod.mk.inj (Option.some.inj hs)
        have hr : aesdWrite a.object ⟨rc, none, 0⟩ buf (BitVec.ofNat w buf.length) =
          some ⟨-eRestartSys, a.object, []⟩ := if_pos hget
        have henv : WriteEnv.Allowed limit a.object (BitVec.ofNat w buf.length) ⟨rc, none, 0⟩ :=
          ⟨by simp, Nat.zero_le _⟩
        exact h.matched ht (by rw [hpc]; rfl) (.returns _)
          (.effect hphase (.write hpassed henv hr)) rfl
      next =>
        split at hs
        next => cases hs
        next hfree =>
          obtain ⟨rfl, rfl⟩ := Prod.mk.inj (Option.some.inj hs)
          exact .silent rfl (h.acquire (by simpa using hfree) (by rw [hpc]; rfl)
            (hphase ▸ .write hpassed .alloc))
    | _ => cases hs
  | @readLock fPos buf hpassed =>
    cases e with
    | mutexLockInterruptible rc =>
      change (if getLock rc ≠ 0 then _ else _) = _ at hs
      split at hs
      next hget =>
        obtain ⟨rfl, rfl⟩ := Prod.mk.inj (Option.some.inj hs)
        have hr : aesdRead a.object ⟨rc, fun _ => 0⟩ buf (BitVec.ofNat w buf.length) fPos =
          some ⟨-eRestartSys, a.object, fPos, buf⟩ := if_pos hget
        exact h.matched ht (by rw [hpc]; rfl) (.returns _) (.effect hphase (.read hpassed hr)) rfl
      next =>
        split at hs
        next => cases hs
        next hfree =>
          obtain ⟨rfl, rfl⟩ := Prod.mk.inj (Option.some.inj hs)
          have hi : ReadInside a.object fPos buf (BitVec.ofNat w buf.length) (.search 0 0) buf := by
            refine .search (by simp) (Nat.lt_succ_of_le (Nat.sub_le _ _)) ?_
            intro _ _
            rfl
          exact .silent rfl (h.acquire (by simpa using hfree) (by rw [hpc]; rfl)
            (hphase ▸ .read hpassed hi))
    | _ => cases hs
  | @freeNew buf x =>
    cases e with
    | compute =>
      have hclaim : (CallPc.toFree ∘ c.pc) t = some x := by
        rw [Function.comp_apply, hpc]
        rfl
      obtain ⟨hfree, hleft⟩ := h.leftOver.free hclaim
      obtain ⟨hfree', hapart⟩ := Heap.free_union_rest h.apart hfree
      obtain ⟨heap, hheap, hs⟩ := Option.map_eq_some_iff.mp hs
      obtain ⟨rfl, rfl⟩ := Prod.mk.inj hs
      rw [h.driver] at hheap ⊢
      obtain rfl := Option.some.inj (hheap.symm.trans hfree')
      have hsame :
          State.mk a.object (Function.update a.phase t (.done (.write (-eFault)))) = a := by
        rw [← hphase, Function.update_eq_self]
      have hleft' : Heap.ClaimedBy (Function.update rest x none)
          (CallPc.toFree ∘ Function.update c.pc t (.returns (.write (-eFault)))) := by
        rw [Function.comp_update]
        exact hleft
      have hmove := h.move ht hapart hleft' (.returns _)
      rw [hsame] at hmove
      exact .silent rfl hmove
    | _ => cases hs
  | returns response =>
    cases e with
    | respond response' =>
      change (if response' = response then _ else _) = _ at hs
      split at hs
      next heq =>
        subst heq
        obtain ⟨rfl, rfl⟩ := Prod.mk.inj (Option.some.inj hs)
        exact h.matched ht (by rw [hpc]; rfl) .idle (.respond hphase) rfl
      next => cases hs
    | _ => cases hs

theorem Simulates.inside_step (hw : 32 ≤ w) (hw' : w ≤ 64) (hlimit : limit < 2 ^ 31)
    (hfits : maxWriteOperationsSupported * limit < 2 ^ w)
    (h : Simulates limit (some t) s rest c a) {e : CallEvent} {c' : Callers ι w}
    (hs : c.Step limit (t, e) c') : Matched limit a (t, e) c' := by
  obtain ⟨hallowed, s', pc', hs, rfl⟩ := hs
  obtain ⟨d, hd⟩ := h.holds
  obtain ⟨stored, hrep⟩ := hd.rep
  have hi := h.inside t rfl
  have hfree := hi.locked.2
  dsimp only at hallowed hs ⊢
  rw [h.driver] at hallowed hs
  generalize hpc : c.pc t = pc at hi hs hallowed
  generalize hphase : a.phase t = phase at hi
  cases hi with
  | @write buf pc _ hpassed hi =>
    have hpcFree : (CallPc.toFree ∘ c.pc) t = none := hfree
    have hseen := writeStep_unseen t hs
    cases hi.step hrep hd.unlocked hw hlimit hpassed h.apart hallowed hs with
    | inside hapart hi =>
      have hi' := Inside.write hpassed hi
      rw [← hphase] at hi'
      exact .silent hseen (h.enter (by simp) (hi'.locked.2.trans hfree.symm) hapart hi')
    | returns henv hr hapart =>
      have hserves := Serves.write hpassed henv hr
      obtain ⟨d', -, hholds⟩ := serves_refines hw hw' hlimit hfits hd hserves
      exact .effect hseen hphase hserves
        (h.leave ⟨d', hholds⟩ hapart (h.claims hfree.symm) (.returns _))
    | @freeNew _ _ x block henv hr hreturned hx hapart =>
      have hserves := Serves.write hpassed henv hr
      obtain ⟨d', -, hholds⟩ := serves_refines hw hw' hlimit hfits hd hserves
      have hleft : (rest.alloc x block).ClaimedBy
          (CallPc.toFree ∘ Function.update c.pc t (.write buf (.freeNew x))) := by
        rw [Function.comp_update]
        exact h.leftOver.alloc hpcFree hx block
      rw [hreturned] at hserves
      exact .effect hseen hphase hserves (h.leave ⟨d', hholds⟩ hapart hleft .freeNew)
  | @read fPos buf₀ buf pc hpassed hi =>
    have hseen := readStep_unseen t hs
    rcases hi.step hrep hs with ⟨pc₁, buf₁, rfl, rfl, hi⟩ | ⟨env, r, hr, rfl, rfl⟩
    · have hi' : Inside limit a.object _ _ _ := .read hpassed hi
      rw [← hphase] at hi'
      exact .silent hseen (h.enter (by simp) (by rw [hpc]; rfl) h.apart hi')
    · have hserves : Serves limit a.object _ _ _ := .read hpassed hr
      obtain ⟨hstate, -⟩ := aesdRead_serves hw hw' hfits hd hpassed hr
      have hdriver : a.object.lock.releaseLock.extend rest = r.state.extend rest := by
        rw [lock_releaseLock hd.unlocked, hstate]
      rw [hdriver]
      exact .effect hseen hphase hserves
        (h.leave ⟨d, hstate ▸ hd⟩ (hstate ▸ h.apart) (h.claims hfree.symm) (.returns _))

theorem Simulates.step (hw : 32 ≤ w) (hw' : w ≤ 64) (hlimit : limit < 2 ^ 31)
    (hfits : maxWriteOperationsSupported * limit < 2 ^ w) (h : Simulates limit holder s rest c a)
    {l : ι × CallEvent} {c' : Callers ι w} (hs : c.Step limit l c') : Matched limit a l c' := by
  by_cases ht : holder = some l.1
  · subst ht
    exact h.inside_step hw hw' hlimit hfits hs
  · exact h.outside_step ht hs

end

section
variable {c : Callers ι w} {tr : List (ι × CallEvent)}

/-- Every run is one of the object, through moments that show the same to user space. -/
theorem run_moments (hw : 32 ≤ w) (hw' : w ≤ 64) (hlimit : limit < 2 ^ 31)
    (hfits : maxWriteOperationsSupported * limit < 2 ^ w)
    (hrun : Run (Callers.Step limit) (Callers.start ι w) tr c) :
    ∃ moments a, Run (Atomicity.Step (Serves limit)) (State.start (loaded w)) moments a ∧
      actions moments = tr.filterMap CallEvent.seen ∧
      ∃ holder s rest, Simulates limit holder s rest c a := by
  apply run_linearizable (R := fun c a => ∃ holder s rest, Simulates limit holder s rest c a) hrun
  · exact ⟨none, _, _, simulates_start⟩
  · rintro c a l c' ⟨holder, s, rest, h⟩ hs
    exact h.step hw hw' hlimit hfits hs

theorem run_simulates (hw : 32 ≤ w) (hw' : w ≤ 64) (hlimit : limit < 2 ^ 31)
    (hfits : maxWriteOperationsSupported * limit < 2 ^ w)
    (hrun : Run (Callers.Step limit) (Callers.start ι w) tr c) :
    ∃ a holder s rest, Simulates limit holder s rest c a := by
  obtain ⟨-, a, -, -, h⟩ := run_moments hw hw' hlimit hfits hrun
  exact ⟨a, h⟩

/-- However the calls of any number of threads interleave, the answers are those of the device used
by one call at a time, in an order that keeps to the one in which calls return before others
start. -/
theorem aesd_linearizable (hw : 32 ≤ w) (hw' : w ≤ 64) (hlimit : limit < 2 ^ 31)
    (hfits : maxWriteOperationsSupported * limit < 2 ^ w)
    (hrun : Run (Callers.Step limit) (Callers.start ι w) tr c) :
    Linearizable Device.Serves Device.empty (tr.filterMap CallEvent.seen) := by
  obtain ⟨moments, a, hmoments, hseen, -⟩ := run_moments hw hw' hlimit hfits hrun
  have hlin : Linearizable (Serves limit) (loaded w) (tr.filterMap CallEvent.seen) :=
    ⟨moments, a, hmoments, hseen⟩
  apply hlin.mono (R := Holds limit) holds_loaded
  intro s d request response s' h hs
  exact serves_refines hw hw' hlimit hfits h hs

end

/-- A write and two reads: the first read is interrupted while the write has the lock, the second
one finds the line. -/
def writeAndRead : List (Bool × CallEvent) :=
  [(false, .invoke (.write [97, 10])), (true, .invoke (.read 0 [0, 0, 0])),
    (false, .mutexLockInterruptible 0), (true, .mutexLockInterruptible (-4)),
    (false, .kmalloc (some (7, [0, 0]))), (true, .respond (.read (-512) 0 [0, 0, 0])),
    (false, .compute), (false, .copyFromUser 0), (true, .invoke (.read 0 [0, 0, 0])),
    (false, .compute), (false, .compute), (false, .compute), (false, .compute), (false, .compute),
    (false, .compute), (false, .mutexUnlock), (true, .mutexLockInterruptible 0), (true, .compute),
    (true, .copyToUser 0), (true, .compute), (true, .mutexUnlock),
    (true, .respond (.read 2 2 [97, 10, 0])), (false, .respond (.write 2))]

theorem writeAndRead_run : ∃ c : Callers Bool 64,
    Run (Callers.Step 4096) (Callers.start Bool 64) writeAndRead c := by
  have hsome : (writeAndRead.foldlM (Callers.checkedStep 4096) (Callers.start Bool 64)).isSome := by
    decide
  obtain ⟨c, hc⟩ := Option.isSome_iff_exists.mp hsome
  exact ⟨c, Run.of_foldlM_step (fun _ _ _ _ => checkedStep_step) hc⟩

theorem writeAndRead_linearizable : ∃ c : Callers Bool 64,
    Run (Callers.Step 4096) (Callers.start Bool 64) writeAndRead c ∧
      Linearizable Device.Serves Device.empty (writeAndRead.filterMap CallEvent.seen) := by
  obtain ⟨c, hrun⟩ := writeAndRead_run
  exact ⟨c, hrun, aesd_linearizable (by decide) (by decide) (by decide) (by decide) hrun⟩

end Aesd.Driver
