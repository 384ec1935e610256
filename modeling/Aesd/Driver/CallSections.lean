import Aesd.Driver.ReadPositions
import Aesd.Lib.Frames
import Aesd.Driver.ConcurrentCalls

/-! The critical sections of `aesd_write` and `aesd_read`: a thread that has the lock gets to its
return whatever blocks other threads still have to free, and does what the call does when it is
made alone. -/
namespace Aesd.Driver
open Blocks AesdCircularBuffer

variable {w limit : ℕ} {s s' s₀ : DriverState w} {rest : Heap Byte} {buf : List Byte}

def DriverState.extend (s : DriverState w) (rest : Heap Byte) : DriverState w :=
  s.withHeap (s.heap.union rest)

theorem copyOldBuffer_frame {heap heap' : Heap Byte} {e : AesdBufferEntry w} {a : ℕ}
    (hd : heap.Apart rest) (h : copyOldBuffer heap e a = some heap') :
    copyOldBuffer (heap.union rest) e a = some (heap'.union rest) ∧ heap'.Apart rest := by
  unfold copyOldBuffer at h ⊢
  cases hp : e.buffptr with
  | none =>
    rw [hp] at h
    obtain rfl := Option.some.inj h
    exact ⟨rfl, hd⟩
  | some old =>
    rw [hp] at h
    obtain ⟨bytes, hload, hstore⟩ := Option.bind_eq_some_iff.mp h
    obtain ⟨hstore', hd'⟩ := Heap.store_union hd hstore
    exact ⟨Option.bind_eq_some_iff.mpr ⟨bytes, Heap.load_union hload rest, hstore'⟩, hd'⟩

theorem load_frame {heap : Heap Byte} {p : Ptr} {off k : ℕ} {bytes : List Byte}
    (h : (p.bind fun a => heap.load a off k) = some bytes) (rest : Heap Byte) :
    (p.bind fun a => (heap.union rest).load a off k) = some bytes := by
  obtain ⟨a, ha, hload⟩ := Option.bind_eq_some_iff.mp h
  exact Option.bind_eq_some_iff.mpr ⟨a, ha, Heap.load_union hload rest⟩

theorem freeUnlessNull_frame {heap heap' : Heap Byte} {p : Ptr} {freed : List ℕ}
    (hd : heap.Apart rest) (h : freeUnlessNull heap p = some (heap', freed)) :
    freeUnlessNull (heap.union rest) p = some (heap'.union rest, freed) ∧ heap'.Apart rest := by
  cases p with
  | none =>
    obtain ⟨rfl, rfl⟩ := Prod.mk.inj (Option.some.inj h)
    exact ⟨rfl, hd⟩
  | some a =>
    obtain ⟨heap₁, hfree, heq⟩ := Option.map_eq_some_iff.mp h
    obtain ⟨rfl, rfl⟩ := Prod.mk.inj heq
    obtain ⟨hfree', hd'⟩ := Heap.free_union hd hfree
    exact ⟨by rw [freeUnlessNull, hfree', Option.map_some], hd'⟩

theorem entryBytes_frame {heap : Heap Byte} {e : AesdBufferEntry w} {bytes : List Byte}
    (h : entryBytes heap e = some bytes) (rest : Heap Byte) :
    entryBytes (heap.union rest) e = some bytes := by
  unfold entryBytes at h ⊢
  split at h
  next => exact h
  next => exact Heap.load_union h rest

theorem Spells.extend {s : DriverState w} {d : Device} (h : Spells s d) (rest : Heap Byte) :
    Spells (s.extend rest) d := by
  obtain ⟨hcommitted, hpending⟩ := h
  refine ⟨?_, entryBytes_frame hpending rest⟩
  rw [← hcommitted]
  apply List.map_congr_left
  intro e he
  have he' : e ∈ s.device.buffer.occupied := he
  have hmem := List.mem_map_of_mem (f := entryBytes s.heap) he'
  rw [hcommitted] at hmem
  obtain ⟨bytes, -, hbytes⟩ := List.mem_map.mp hmem
  rw [← hbytes]
  exact entryBytes_frame hbytes.symm rest

theorem writeStep_frame {pc : WritePc} {e : CallEvent} {pc' : CallPc w} (hd : s.heap.Apart rest)
    (hfresh : ∀ a block, e = .kmalloc (some (a, block)) → s.heap.union rest a = none)
    (h : writeStep s buf pc e = some (s', pc')) :
    writeStep (s.extend rest) buf pc e = some (s'.extend rest, pc') ∧ s'.heap.Apart rest := by
  unfold writeStep at h
  split at h
  case h_1 rc =>
    split at h
    next hget =>
      obtain ⟨rfl, rfl⟩ := Prod.mk.inj (Option.some.inj h)
      exact ⟨if_pos hget, hd⟩
    next hget =>
      split at h
      next => cases h
      next hlock =>
        obtain ⟨rfl, rfl⟩ := Prod.mk.inj (Option.some.inj h)
        exact ⟨(if_neg hget).trans (if_neg hlock), hd⟩
  case h_2 got =>
    split at h
    next =>
      obtain ⟨rfl, rfl⟩ := Prod.mk.inj (Option.some.inj h)
      exact ⟨rfl, hd⟩
    next a block =>
      obtain ⟨rfl, rfl⟩ := Prod.mk.inj (Option.some.inj h)
      obtain ⟨halloc, hd'⟩ := Heap.alloc_union hd (hfresh a block rfl) block
      refine ⟨?_, hd'⟩
      show some ((s.extend rest).withHeap ((s.heap.union rest).alloc a block), _) = _
      rw [halloc]
      rfl
  case h_3 a =>
    obtain ⟨heap, hcopy, heq⟩ := Option.map_eq_some_iff.mp h
    obtain ⟨rfl, rfl⟩ := Prod.mk.inj heq
    obtain ⟨hcopy', hd'⟩ := copyOldBuffer_frame hd hcopy
    exact ⟨congrArg (Option.map _) hcopy', hd'⟩
  case h_4 a n =>
    obtain ⟨heap, hstore, heq⟩ := Option.map_eq_some_iff.mp h
    obtain ⟨rfl, rfl⟩ := Prod.mk.inj heq
    obtain ⟨hstore', hd'⟩ := Heap.store_union hd hstore
    exact ⟨congrArg (Option.map _) hstore', hd'⟩
  case h_7 =>
    obtain ⟨last, hload, heq⟩ := Option.map_eq_some_iff.mp h
    obtain ⟨rfl, rfl⟩ := Prod.mk.inj heq
    exact ⟨congrArg (Option.map _) (load_frame hload rest), hd⟩
  case h_13 a =>
    obtain ⟨heap, hfree, heq⟩ := Option.map_eq_some_iff.mp h
    obtain ⟨rfl, rfl⟩ := Prod.mk.inj heq
    obtain ⟨hfree', hd'⟩ := Heap.free_union hd hfree
    exact ⟨congrArg (Option.map _) hfree', hd'⟩
  case h_14 => cases h
  case h_5 | h_10 =>
    obtain ⟨⟨heap, freed⟩, hfree, heq⟩ := Option.map_eq_some_iff.mp h
    obtain ⟨rfl, rfl⟩ := Prod.mk.inj heq
    obtain ⟨hfree', hd'⟩ := freeUnlessNull_frame hd hfree
    exact ⟨congrArg (Option.map _) hfree', hd'⟩
  all_goals
    obtain ⟨rfl, rfl⟩ := Prod.mk.inj (Option.some.inj h)
    exact ⟨rfl, hd⟩

/-- What the calls of the driver may answer and leave when they are made alone. -/
inductive Serves (limit : ℕ) (s : DriverState w) : Request → Response → DriverState w → Prop where
  | write {buf : List Byte} {env : WriteEnv} {r : WriteResult w}
      (hpassed : (Request.write buf).Passed w)
      (henv : env.Allowed limit s (BitVec.ofNat w buf.length))
      (hr : aesdWrite s env buf (BitVec.ofNat w buf.length) = some r) :
      Serves limit s (.write buf) (.write r.returned) r.state
  | read {fPos : BitVec 64} {buf : List Byte} {env : ReadEnv} {r : ReadResult w}
      (hpassed : (Request.read fPos buf).Passed w)
      (hr : aesdRead s env buf (BitVec.ofNat w buf.length) fPos = some r) :
      Serves limit s (.read fPos buf) (.read r.returned r.fPos r.buf) r.state

/-- From here `aesd_write` computes until it releases the lock; it returns `returned` and leaves
`s'`. -/
inductive Finishes (buf : List Byte) (returned : ℤ) (s' : DriverState w) :
    WritePc → DriverState w → Prop where
  | unlock {s : DriverState w} (h : s.releaseLock = s') :
      Finishes buf returned s' (.unlock returned) s
  | fault {a : ℕ} {s : DriverState w} {heap : Heap Byte} (hreturned : returned = -eFault)
      (hfree : s.heap.free a = some heap) (h : s.releaseLock.withHeap heap = s') :
      Finishes buf returned s' (.unlockFault a) s
  | compute {pc pc₁ : WritePc} {s s₁ : DriverState w}
      (hs : writeStep s buf pc .compute = some (s₁, .write buf pc₁))
      (h : Finishes buf returned s' pc₁ s₁) : Finishes buf returned s' pc s

theorem commitEntry_finishes {freed freed' : List ℕ}
    (h : commitEntry s freed = some (s', freed')) :
    Finishes buf (BitVec.ofNat w buf.length).toInt s'.releaseLock .endTest s := by
  obtain ⟨last, hlast, h⟩ := Option.bind_eq_some_iff.mp h
  split at h
  next hend =>
    obtain ⟨⟨heap, freedEntry⟩, hfree, h⟩ := Option.bind_eq_some_iff.mp h
    obtain ⟨rfl, -⟩ := Prod.mk.inj (Option.some.inj h)
    have htest : writeStep s buf .endTest .compute = some (s, .write buf .addEntry) := by
      show Option.map _ _ = _
      rw [hlast, Option.map_some, if_pos hend]
    refine .compute htest (.compute rfl (.compute rfl (.compute ?_ (.unlock rfl))))
    exact congrArg (Option.map _) hfree
  next hend =>
    obtain ⟨rfl, -⟩ := Prod.mk.inj (Option.some.inj h)
    refine .compute ?_ (.unlock rfl)
    show Option.map _ _ = _
    rw [hlast, Option.map_some, if_neg hend]

section
variable {env : WriteEnv} {a : ℕ} {block : List Byte} {r : WriteResult w}

theorem aesdWrite_copyOld (hlock : env.mutexLockInterruptible = 0)
    (halloc : env.kmalloc = some (a, block))
    (hr : aesdWrite s env buf (BitVec.ofNat w buf.length) = some r) :
    ∃ heap, copyOldBuffer (s.heap.alloc a block) s.device.entryTemp a = some heap := by
  simp only [aesdWrite, getLock, hlock, halloc, ne_eq, not_true_eq_false, ↓reduceIte] at hr
  obtain ⟨heap, hcopy, -⟩ := Option.bind_eq_some_iff.mp hr
  exact ⟨heap, hcopy⟩

/-- From the second copy on the steps are those of the call. -/
theorem aesdWrite_finishes {heap : Heap Byte} (hlock : env.mutexLockInterruptible = 0)
    (halloc : env.kmalloc = some (a, block))
    (hcopy : copyOldBuffer (s.heap.alloc a block) s.device.entryTemp a = some heap)
    (hr : aesdWrite s env buf (BitVec.ofNat w buf.length) = some r) :
    ∃ pc s₁, writeStep (s.lock.withHeap heap) buf (.copyUser a) (.copyFromUser env.bytesNotCopied) =
      some (s₁, .write buf pc) ∧ s₁.device.bufferLock = true ∧
        Finishes buf r.returned r.state pc s₁ := by
  simp only [aesdWrite, getLock, hlock, halloc, ne_eq, not_true_eq_false, ↓reduceIte] at hr
  obtain ⟨heap', hcopy', hr⟩ := Option.bind_eq_some_iff.mp hr
  obtain rfl := Option.some.inj (hcopy'.symm.trans hcopy)
  obtain ⟨heap, hstore, hr⟩ := Option.bind_eq_some_iff.mp hr
  have hstep : writeStep (s.lock.withHeap heap') buf (.copyUser a)
      (.copyFromUser env.bytesNotCopied) = some (s.lock.withHeap heap, .write buf
        (if 0 < env.bytesNotCopied then .unlockFault a else .freeOld a)) :=
    congrArg (Option.map _) hstore
  refine ⟨_, _, hstep, rfl, ?_⟩
  split at hr
  next hfault =>
    obtain ⟨heap₁, hfree, hr⟩ := Option.bind_eq_some_iff.mp hr
    obtain rfl := Option.some.inj hr
    rw [if_pos hfault]
    exact .fault rfl hfree rfl
  next hcopied =>
    obtain ⟨⟨heap₁, freed⟩, hfree, hr⟩ := Option.bind_eq_some_iff.mp hr
    obtain ⟨⟨s₁, freed'⟩, hcommit, hr⟩ := Option.bind_eq_some_iff.mp hr
    obtain rfl := Option.some.inj hr
    rw [if_neg hcopied]
    have hold : writeStep (s.lock.withHeap heap) buf (.freeOld a) .compute =
        some (s.lock.withHeap heap₁, .write buf (.setEntry a)) :=
      congrArg (Option.map _) hfree
    exact .compute hold (.compute rfl (commitEntry_finishes hcommit))

end

/-- A thread in `aesd_write` that has the lock: the driver was `s₀` when it took it and is `s`
now. -/
inductive WriteInside (limit : ℕ) (s₀ : DriverState w) (buf : List Byte) :
    WritePc → DriverState w → Prop where
  | alloc : WriteInside limit s₀ buf .alloc s₀.lock
  | copyOld {a : ℕ} {block : List Byte}
      (henv : WriteEnv.Allowed limit s₀ (BitVec.ofNat w buf.length) ⟨0, some (a, block), 0⟩) :
      WriteInside limit s₀ buf (.copyOld a) (s₀.lock.withHeap (s₀.heap.alloc a block))
  | copyUser {a : ℕ} {block : List Byte} {heap : Heap Byte}
      (henv : WriteEnv.Allowed limit s₀ (BitVec.ofNat w buf.length) ⟨0, some (a, block), 0⟩)
      (hcopy : copyOldBuffer (s₀.heap.alloc a block) s₀.device.entryTemp a = some heap) :
      WriteInside limit s₀ buf (.copyUser a) (s₀.lock.withHeap heap)
  | finishes {pc : WritePc} {s : DriverState w} {env : WriteEnv} {r : WriteResult w}
      (henv : env.Allowed limit s₀ (BitVec.ofNat w buf.length))
      (hr : aesdWrite s₀ env buf (BitVec.ofNat w buf.length) = some r)
      (hlock : s.device.bufferLock = true)
      (h : Finishes buf r.returned r.state pc s) : WriteInside limit s₀ buf pc s

/-- The copies of a read that come before `bytesRead` are complete. -/
def ReadEnv.CompleteBefore (env : ReadEnv) (bytesRead : ℕ) : Prop :=
  ∀ i < bytesRead, env.bytesNotCopied i = 0

/-- A thread in `aesd_read` that has the lock: it was called with `buf₀`, which is `buf` by now, and
the rest of its loop gives what the whole loop gives. -/
inductive ReadInside (s₀ : DriverState w) (fPos : BitVec 64) (buf₀ : List Byte) (count : BitVec w) :
    ReadPc w → List Byte → Prop where
  | search {bytesRead charReturned : BitVec w} {buf : List Byte} {fuel : ℕ}
      (hle : bytesRead.toNat ≤ count.toNat) (hfuel : count.toNat - bytesRead.toNat < fuel)
      (hloop : ∀ env : ReadEnv, env.CompleteBefore bytesRead.toNat →
        aesdReadLoop s₀.lock env count fPos (count.toNat + 1) 0 0 buf₀ =
          aesdReadLoop s₀.lock env count fPos fuel bytesRead charReturned buf) :
      ReadInside s₀ fPos buf₀ count (.search bytesRead charReturned) buf
  | copyUser {index : ℕ} {bytesRead charReturned n : BitVec w} {buf bytes : List Byte} {fuel : ℕ}
      (hpos : 0 < n.toNat) (hle : bytesRead.toNat + n.toNat ≤ count.toNat)
      (hfuel : count.toNat - bytesRead.toNat < fuel + 1)
      (hload : ((s₀.device.buffer.slot index).buffptr.bind fun a =>
        s₀.heap.load a charReturned.toNat n.toNat) = some bytes)
      (hloop : ∀ env : ReadEnv, env.CompleteBefore bytesRead.toNat →
        aesdReadLoop s₀.lock env count fPos (count.toNat + 1) 0 0 buf₀ =
          let notCopied := env.bytesNotCopied bytesRead.toNat
          let buf' := splice buf bytesRead.toNat (bytes.take (n.toNat - notCopied))
          if 0 < notCopied then some (none, buf')
          else aesdReadLoop s₀.lock env count fPos fuel (bytesRead + n) charReturned buf') :
      ReadInside s₀ fPos buf₀ count (.copyUser index bytesRead charReturned n) buf
  | unlock {env : ReadEnv} {r : ReadResult w} (hr : aesdRead s₀ env buf₀ count fPos = some r) :
      ReadInside s₀ fPos buf₀ count (.unlock r.returned r.fPos) r.buf

section
variable {stored : List (AesdBufferEntry w)} {d : Device}

theorem readInside_readRound (h : Rep limit s₀ stored d) {fPos : BitVec 64} {buf₀ : List Byte}
    {count bytesRead charReturned : BitVec w}
    (hle : bytesRead.toNat ≤ count.toNat) {fuel : ℕ}
    (hloop : ∀ env : ReadEnv, env.CompleteBefore bytesRead.toNat →
      aesdReadLoop s₀.lock env count fPos (count.toNat + 1) 0 0 buf₀ =
        aesdReadLoop s₀.lock env count fPos (fuel + 1) bytesRead charReturned buf)
    (hfuel : count.toNat - bytesRead.toNat < fuel + 1) :
    ReadInside s₀ fPos buf₀ count (readRound s₀.device fPos count bytesRead charReturned) buf := by
  have hends : aesdReadLoop s₀.lock ⟨0, fun _ => 0⟩ count fPos (fuel + 1) bytesRead charReturned
      buf = some (some bytesRead, buf) → ReadInside s₀ fPos buf₀ count
        (.unlock bytesRead.toInt (fPos + bytesRead.setWidth 64)) buf := by
    intro hend
    have hstart := (hloop ⟨0, fun _ => 0⟩ fun _ _ => rfl).trans hend
    exact .unlock (aesdRead_of_loop rfl hstart)
  unfold readRound
  by_cases hlt : bytesRead < count
  · rw [if_pos hlt]
    by_cases hin : (searchOffset fPos bytesRead : BitVec w).toNat < d.content.length
    · obtain ⟨index, charReturned', n, hfind, hn, hn0, hncount, -, hload⟩ :=
        round_loads h.lock charReturned hlt hin
      have hfind' : aesdCircularBufferFindEntryOffsetForFpos s₀.device.buffer
        (searchOffset fPos bytesRead) charReturned = (some index, charReturned') := hfind
      have hn' : n = if count - bytesRead ≤ (s₀.device.buffer.slot index).size - charReturned' then
        count - bytesRead else (s₀.device.buffer.slot index).size - charReturned' := hn
      rw [hfind']
      dsimp only
      rw [← hn']
      refine .copyUser hn0 (by omega) hfuel hload ?_
      intro env henv
      rw [hloop env henv]
      simp only [aesdReadLoop, hlt, ↓reduceIte, hfind, ← hn, hload, Option.bind_eq_bind,
        Option.bind_some]
    · have hnone := Segments.locate_lengths_eq_none_iff.mpr (not_lt.mp hin)
      have hend := readLoop_end h.lock ⟨0, fun _ => 0⟩ charReturned buf fuel hlt (not_lt.mp hin)
      have hfind := find_of_rep h (searchOffset fPos bytesRead) charReturned
      rw [hnone] at hfind
      rw [hfind]
      exact hends hend
  · rw [if_neg hlt]
    apply hends
    unfold aesdReadLoop
    rw [if_neg hlt]

/-- A step of a reader that has the lock, beside blocks still to be freed. -/
theorem ReadInside.step (h : Rep limit s₀ stored d) {fPos : BitVec 64} {buf₀ : List Byte}
    {count : BitVec w} {pc : ReadPc w} {e : CallEvent} {pc' : CallPc w}
    (hi : ReadInside s₀ fPos buf₀ count pc buf)
    (hs : readStep (s₀.lock.extend rest) fPos count buf pc e = some (s', pc')) :
    (∃ pc₁ buf₁, pc' = .read fPos count buf₁ pc₁ ∧ s' = s₀.lock.extend rest ∧
      ReadInside s₀ fPos buf₀ count pc₁ buf₁) ∨
    ∃ env r, aesdRead s₀ env buf₀ count fPos = some r ∧
      pc' = .returns (.read r.returned r.fPos r.buf) ∧ s' = s₀.lock.releaseLock.extend rest := by
  cases hi with
  | @search bytesRead charReturned _ fuel hle hfuel hloop =>
    cases e with
    | compute =>
      obtain ⟨rfl, rfl⟩ := Prod.mk.inj (Option.some.inj hs)
      obtain ⟨fuel, rfl⟩ := Nat.exists_eq_add_one.mpr (Nat.zero_lt_of_lt hfuel)
      exact .inl ⟨_, buf, rfl, rfl, readInside_readRound h hle hloop hfuel⟩
    | _ => cases hs
  | @copyUser index bytesRead charReturned n _ bytes fuel hpos hle hfuel hload hloop =>
    cases e with
    | copyToUser notCopied =>
      obtain ⟨bytes', hload', hs⟩ := Option.map_eq_some_iff.mp hs
      obtain ⟨rfl, rfl⟩ := Prod.mk.inj hs
      obtain rfl := Option.some.inj (hload'.symm.trans (load_frame hload rest))
      refine .inl ⟨_, _, rfl, rfl, ?_⟩
      by_cases hfault : 0 < notCopied
      · rw [if_pos hfault]
        let env : ReadEnv := ⟨0, fun i => if i = bytesRead.toNat then notCopied else 0⟩
        have hbefore : env.CompleteBefore bytesRead.toNat := fun i hi => if_neg hi.ne
        have hhere : env.bytesNotCopied bytesRead.toNat = notCopied := if_pos rfl
        have hstart := hloop env hbefore
        dsimp only at hstart
        rw [hhere, if_pos hfault] at hstart
        exact .unlock (aesdRead_of_loop rfl hstart)
      · rw [if_neg hfault, Nat.eq_zero_of_not_pos hfault]
        have hn : n.toNat ≤ count.toNat - bytesRead.toNat := by omega
        have hadd := add_toNat_of_le hn (by omega)
        have hleft : count.toNat - (bytesRead + n).toNat < fuel := by omega
        refine .search (by omega) hleft ?_
        intro env henv
        have hzero := henv bytesRead.toNat (by omega)
        rw [hloop env fun i hi => henv i (by omega)]
        simp only [hzero, Nat.lt_irrefl, ↓reduceIte]
    | _ => cases hs
  | unlock hr =>
    cases e with
    | mutexUnlock =>
      obtain ⟨rfl, rfl⟩ := Prod.mk.inj (Option.some.inj hs)
      exact .inr ⟨_, _, hr, rfl, rfl⟩
    | _ => cases hs

theorem writeStep_compute_lock {pc : WritePc} {pc' : CallPc w}
    (hs : writeStep s buf pc .compute = some (s', pc')) :
    s'.device.bufferLock = s.device.bufferLock := by
  cases pc with
  | lock | alloc | copyUser | unlock | unlockFault => cases hs
  | setEntry | addEntry | resetEntry =>
    obtain ⟨rfl, -⟩ := Prod.mk.inj (Option.some.inj hs)
    rfl
  | copyOld | freeOld | endTest | freeOverwritten | freeNew =>
    obtain ⟨_, -, hs⟩ := Option.map_eq_some_iff.mp hs
    obtain ⟨rfl, -⟩ := Prod.mk.inj hs
    rfl

theorem writeStep_compute {pc : WritePc} {e : CallEvent} {next : DriverState w × CallPc w}
    {s₁ s₂ : DriverState w} {next' : DriverState w × CallPc w}
    (hcompute : writeStep s₁ buf pc .compute = some next)
    (hs : writeStep s₂ buf pc e = some next') : e = .compute := by
  cases pc with
  | lock | alloc | copyUser | unlock | unlockFault => cases hcompute
  | _ =>
    cases e with
    | compute => rfl
    | _ => cases hs

/-- What a thread in `aesd_write` has after a step: the lock still, or its result, with the block of
a failed copy left for it to free. -/
inductive WriteStepped (limit : ℕ) (s₀ : DriverState w) (rest : Heap Byte) (buf : List Byte) :
    CallPc w → DriverState w → Prop where
  | inside {pc : WritePc} {s : DriverState w} (hd : s.heap.Apart rest)
      (hi : WriteInside limit s₀ buf pc s) :
      WriteStepped limit s₀ rest buf (.write buf pc) (s.extend rest)
  | returns {env : WriteEnv} {r : WriteResult w}
      (henv : env.Allowed limit s₀ (BitVec.ofNat w buf.length))
      (hr : aesdWrite s₀ env buf (BitVec.ofNat w buf.length) = some r)
      (hd : r.state.heap.Apart rest) :
      WriteStepped limit s₀ rest buf (.returns (.write r.returned)) (r.state.extend rest)
  | freeNew {env : WriteEnv} {r : WriteResult w} {a : ℕ} {block : List Byte}
      (henv : env.Allowed limit s₀ (BitVec.ofNat w buf.length))
      (hr : aesdWrite s₀ env buf (BitVec.ofNat w buf.length) = some r)
      (hreturned : r.returned = -eFault) (ha : rest a = none)
      (hd : r.state.heap.Apart (rest.alloc a block)) :
      WriteStepped limit s₀ rest buf (.write buf (.freeNew a)) (r.state.extend (rest.alloc a block))

theorem Finishes.step {env : WriteEnv} {r : WriteResult w} {pc : WritePc} {e : CallEvent}
    {pc' : CallPc w} (henv : env.Allowed limit s₀ (BitVec.ofNat w buf.length))
    (hr : aesdWrite s₀ env buf (BitVec.ofNat w buf.length) = some r)
    (hlock : s.device.bufferLock = true) (hf : Finishes buf r.returned r.state pc s)
    (hd : s.heap.Apart rest)
    (hs : writeStep (s.extend rest) buf pc e = some (s', pc')) :
    WriteStepped limit s₀ rest buf pc' s' := by
  cases hf with
  | unlock h =>
    cases e with
    | mutexUnlock =>
      obtain ⟨rfl, rfl⟩ := Prod.mk.inj (Option.some.inj hs)
      have hstate : (s.extend rest).releaseLock = r.state.extend rest := by
        rw [← h]
        rfl
      rw [hstate]
      exact .returns henv hr (h ▸ hd)
    | _ => cases hs
  | @fault a _ heap hreturned hfree h =>
    cases e with
    | mutexUnlock =>
      obtain ⟨rfl, rfl⟩ := Prod.mk.inj (Option.some.inj hs)
      unfold Heap.free at hfree
      split at hfree
      next hlive =>
        obtain ⟨block, hblock⟩ := Option.isSome_iff_exists.mp hlive
        obtain rfl := Option.some.inj hfree
        obtain ⟨hunion, hd'⟩ := Heap.union_handOver hd hblock
        have hstate : (s.extend rest).releaseLock = r.state.extend (rest.alloc a block) := by
          rw [← h]
          exact congrArg (DriverState.withHeap s.releaseLock) hunion
        rw [hstate]
        exact .freeNew henv hr hreturned (hd.rest_none hblock) (h ▸ hd')
      next => cases hfree
    | _ => cases hs
  | @compute _ pc₁ _ s₁ hstep h =>
    obtain rfl := writeStep_compute hstep hs
    obtain ⟨hstep', hd'⟩ := writeStep_frame hd (by simp) hstep
    obtain ⟨rfl, rfl⟩ := Prod.mk.inj (Option.some.inj (hs.symm.trans hstep'))
    exact .inside hd' (.finishes henv hr ((writeStep_compute_lock hstep).trans hlock) h)

theorem WriteEnv.Allowed.writes {env : WriteEnv} (h : Rep limit s₀ stored d)
    (hunlocked : s₀.device.bufferLock = false) (hw : 32 ≤ w) (hlimit : limit < 2 ^ 31)
    (hpassed : (Request.write buf).Passed w)
    (henv : env.Allowed limit s₀ (BitVec.ofNat w buf.length)) :
    ∃ r, aesdWrite s₀ env buf (BitVec.ofNat w buf.length) = some r := by
  have hcount := ofNat_length_toNat hw hpassed.2
  have hmax := hcount.trans_le hpassed.2
  obtain ⟨r, hr, -⟩ := aesdWrite_spec h hunlocked hw hlimit hcount.symm hmax henv fun _ =>
    List.append_ne_nil_of_right_ne_nil _ (List.length_pos_iff.mp hpassed.1)
  exact ⟨r, hr⟩

/-- A step of a writer that has the lock, beside blocks still to be freed. -/
theorem WriteInside.step (h : Rep limit s₀ stored d) (hunlocked : s₀.device.bufferLock = false)
    (hw : 32 ≤ w) (hlimit : limit < 2 ^ 31) (hpassed : (Request.write buf).Passed w) {pc : WritePc}
    {e : CallEvent} {pc' : CallPc w} (hi : WriteInside limit s₀ buf pc s)
    (hd : s.heap.Apart rest) (hallowed : (CallPc.write buf pc).Allowed limit (s.extend rest) e)
    (hs : writeStep (s.extend rest) buf pc e = some (s', pc')) :
    WriteStepped limit s₀ rest buf pc' s' := by
  cases hi with
  | alloc =>
    cases e with
    | kmalloc got =>
      cases got with
      | none =>
        obtain ⟨rfl, rfl⟩ := Prod.mk.inj (Option.some.inj hs)
        have henv : WriteEnv.Allowed limit s₀ (BitVec.ofNat w buf.length) ⟨0, none, 0⟩ :=
          ⟨by simp, Nat.zero_le _⟩
        have hr : aesdWrite s₀ ⟨0, none, 0⟩ buf (BitVec.ofNat w buf.length) =
          some ⟨-eNoMem, s₀.lock.releaseLock, []⟩ := rfl
        exact .inside hd (.finishes henv hr rfl (.unlock rfl))
      | some got =>
        obtain ⟨a, block⟩ := got
        obtain ⟨hfresh, hsize, hblock⟩ := hallowed
        obtain ⟨halloc, hd'⟩ := Heap.alloc_union hd hfresh block
        obtain ⟨rfl, rfl⟩ := Prod.mk.inj (Option.some.inj hs)
        have henv : WriteEnv.Allowed limit s₀ (BitVec.ofNat w buf.length)
            ⟨0, some (a, block), 0⟩ := by
          constructor
          · rintro _ _ ⟨⟩
            exact ⟨(Heap.union_eq_none.mp hfresh).1, hsize, hblock⟩
          · exact Nat.zero_le _
        have hstate : (s₀.lock.extend rest).withHeap ((s₀.lock.extend rest).heap.alloc a block) =
            (s₀.lock.withHeap (s₀.heap.alloc a block)).extend rest :=
          congrArg (DriverState.withHeap s₀.lock) halloc
        rw [hstate]
        exact .inside hd' (.copyOld henv)
    | _ => cases hs
  | @copyOld a block henv =>
    obtain ⟨r, hr⟩ := henv.writes h hunlocked hw hlimit hpassed
    obtain ⟨heap, hcopy⟩ := aesdWrite_copyOld rfl rfl hr
    have hstep : writeStep (s₀.lock.withHeap (s₀.heap.alloc a block)) buf (.copyOld a) .compute =
      some (s₀.lock.withHeap heap, .write buf (.copyUser a)) := congrArg (Option.map _) hcopy
    obtain rfl := writeStep_compute hstep hs
    obtain ⟨hstep', hd'⟩ := writeStep_frame hd (by simp) hstep
    obtain ⟨rfl, rfl⟩ := Prod.mk.inj (Option.some.inj (hs.symm.trans hstep'))
    exact .inside hd' (.copyUser henv hcopy)
  | @copyUser a block heap henv hcopy =>
    cases e with
    | copyFromUser notCopied =>
      have hcount := ofNat_length_toNat hw hpassed.2
      have henv' : WriteEnv.Allowed limit s₀ (BitVec.ofNat w buf.length)
        ⟨0, some (a, block), notCopied⟩ := ⟨henv.kmalloc, hallowed.trans_eq hcount.symm⟩
      obtain ⟨r, hr⟩ := henv'.writes h hunlocked hw hlimit hpassed
      obtain ⟨pc₁, s₁, hstep, hlock, hf⟩ := aesdWrite_finishes rfl rfl hcopy hr
      obtain ⟨hstep', hd'⟩ := writeStep_frame hd (by simp) hstep
      obtain ⟨rfl, rfl⟩ := Prod.mk.inj (Option.some.inj (hs.symm.trans hstep'))
      exact .inside hd' (.finishes henv' hr hlock hf)
    | _ => cases hs
  | finishes henv hr hlock hf => exact hf.step henv hr hlock hd hs

end

end Aesd.Driver
