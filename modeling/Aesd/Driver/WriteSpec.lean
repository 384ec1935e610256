import Aesd.Driver.Device

/-! What one `aesd_write` does to the device. -/
namespace Aesd.Driver
open Blocks CircularWindow AesdCircularBuffer

variable {w limit : ℕ} {s : DriverState w} {stored : List (AesdBufferEntry w)} {d : Device}

theorem PendingBy.size_eq {heap : Heap Byte} {e : AesdBufferEntry w} {bytes : List Byte}
    (h : PendingBy limit heap e bytes) : e.size.toNat = bytes.length := by
  rcases h with ⟨rfl, rfl⟩ | ⟨⟨_, _, _, hs⟩, -, -⟩
  · simp [AesdBufferEntry.zero]
  · exact hs

theorem PendingBy.length_le {heap : Heap Byte} {e : AesdBufferEntry w} {bytes : List Byte}
    (h : PendingBy limit heap e bytes) : bytes.length ≤ limit := by
  rcases h with ⟨-, rfl⟩ | ⟨-, -, hl⟩
  · exact Nat.zero_le _
  · exact hl

/-- The sum of a pending entry and a write the VFS passes does not wrap. -/
theorem pending_add_count_lt {count : BitVec w} (h : Rep limit s stored d) (hw : 32 ≤ w)
    (hlimit : limit < 2 ^ 31) (hcount : count.toNat ≤ maxRwCount) :
    d.pending.length + count.toNat < 2 ^ w := by
  have hp := h.pending.length_le
  have hpow : 2 ^ 32 ≤ 2 ^ w := Nat.pow_le_pow_right (by decide) hw
  unfold maxRwCount at hcount
  omega

theorem size_add_count_toNat {count : BitVec w} (h : Rep limit s stored d) (hw : 32 ≤ w)
    (hlimit : limit < 2 ^ 31) (hcount : count.toNat ≤ maxRwCount) :
    (s.device.entryTemp.size + count).toNat = d.pending.length + count.toNat := by
  rw [BitVec.toNat_add, h.pending.size_eq,
    Nat.mod_eq_of_lt (pending_add_count_lt h hw hlimit hcount)]

theorem allocSize_toNat {count : BitVec w} (h : Rep limit s stored d) (hw : 32 ≤ w)
    (hlimit : limit < 2 ^ 31) (hcount : count.toNat ≤ maxRwCount) :
    (allocSize s.device.entryTemp count).toNat = d.pending.length + count.toNat := by
  have hsum := size_add_count_toNat h hw hlimit hcount
  rcases h.pending with ⟨he, hp⟩ | ⟨⟨a, ha, -, -⟩, -, -⟩
  · simp [allocSize, he, hp, AesdBufferEntry.zero]
  · rw [allocSize, if_neg (by simp [ha]), hsum]

/-- The two copies leave the pending bytes and then the new ones at the front of the block. -/
theorem copies_eq (h : Rep limit s stored d) {a : ℕ} {block xs : List Byte}
    (ha : s.heap a = none) (hlen : d.pending.length + xs.length ≤ block.length) :
    ((copyOldBuffer (s.heap.alloc a block) s.device.entryTemp a).bind fun heap =>
        heap.store a s.device.entryTemp.size.toNat xs) =
      some (s.heap.alloc a (d.pending ++ xs ++ block.drop (d.pending.length + xs.length))) := by
  rcases h.pending with ⟨he, hp⟩ | ⟨⟨old, hold, hlive, hsize⟩, -, -⟩
  · have hxs : 0 + xs.length ≤ block.length := by simpa [hp] using hlen
    simp [he, hp, copyOldBuffer, AesdBufferEntry.zero, Heap.store_alloc _ hxs, splice_zero]
  · have hne : old ≠ a := fun hc => by simp [← hc, hlive] at ha
    have hload : (s.heap.alloc a block).load old 0 d.pending.length = some d.pending :=
      Heap.load_all ((Heap.alloc_of_ne _ _ hne).trans hlive)
    have hfit : 0 + d.pending.length ≤ block.length := by omega
    have hrest : d.pending.length + xs.length ≤
        (d.pending ++ block.drop d.pending.length).length := by
      simp only [List.length_append, List.length_drop]
      omega
    simp only [copyOldBuffer, hold, hsize, hload, Option.bind_eq_bind, Option.bind_some,
      Heap.store_alloc _ hfit, splice_zero, Heap.store_alloc _ hrest, splice_append,
      List.drop_drop]

theorem freeUnlessNull_spec {heap : Heap Byte} {p : Ptr} {ps : List ℕ}
    (h : heap.Owns (p.toList ++ ps)) :
    ∃ heap', freeUnlessNull heap p = some (heap', p.toList) ∧ heap'.Owns ps ∧
      (∀ a ∈ ps, heap' a = heap a) ∧ (∀ a, heap a = none → heap' a = none) ∧
      ∀ a ∈ p.toList, heap' a = none := by
  cases p with
  | none => exact ⟨heap, rfl, h, fun _ _ => rfl, fun _ ha => ha, by simp⟩
  | some b =>
    have hnd := h.1
    obtain ⟨hfree, hrest⟩ := Heap.Owns.free h
    refine ⟨_, by simp [freeUnlessNull, hfree], hrest, fun a ha => ?_, fun a ha => ?_, by simp⟩
    · refine Function.update_of_ne ?_ ..
      rintro rfl
      exact (List.nodup_cons.mp hnd).1 ha
    · by_cases hab : a = b
      · simp [hab]
      · rwa [Function.update_of_ne hab]

theorem freeOld_spec (h : Rep limit s stored d) {a : ℕ} (block : List Byte)
    (ha : s.heap a = none) :
    ∃ heap, freeUnlessNull (s.heap.alloc a block) s.device.entryTemp.buffptr =
        some (heap, s.device.entryTemp.buffptr.toList) ∧ heap a = some block ∧
      heap.Owns (a :: stored.filterMap (·.buffptr)) ∧
      (∀ b ∈ stored.filterMap (·.buffptr), heap b = s.heap b) ∧
      ∀ b ∈ s.device.entryTemp.buffptr.toList, heap b = none := by
  have howns := (h.owns.alloc block ha).perm List.perm_middle.symm
  obtain ⟨heap, hfree, howns', hsame, -, hfreed⟩ := freeUnlessNull_spec howns
  refine ⟨heap, hfree, (hsame a List.mem_cons_self).trans (Heap.alloc_self ..), howns',
    fun b hb => ?_, hfreed⟩
  have hne : b ≠ a := by
    rintro rfl
    exact h.owns.dead ha (List.mem_append_right _ hb)
  rw [hsame b (List.mem_cons_of_mem _ hb), Heap.alloc_of_ne _ _ hne]

theorem take_one_drop_last (l : List Byte) :
    (l.drop (l.length - 1)).take 1 = l.getLast?.toList := by
  rcases List.eq_nil_or_concat l with rfl | ⟨l, x, rfl⟩
  · rfl
  · simp

theorem load_last (h : Rep limit s stored d) (hp : d.pending ≠ []) :
    (s.device.entryTemp.buffptr.bind fun a =>
      s.heap.load a (s.device.entryTemp.size - 1).toNat 1) = some d.pending.getLast?.toList := by
  rcases h.pending with ⟨-, hnil⟩ | ⟨⟨a, ha, hlive, hsize⟩, -, -⟩
  · exact absurd hnil hp
  · have hpos : 0 < d.pending.length := List.length_pos_iff.mpr hp
    have hlt := s.device.entryTemp.size.isLt
    have hpow : 1 < 2 ^ w := by omega
    have hone : (1 : BitVec w).toNat = 1 := Nat.mod_eq_of_lt hpow
    have hindex : (s.device.entryTemp.size - 1).toNat = d.pending.length - 1 := by
      rw [BitVec.toNat_sub_of_le (by rw [BitVec.le_def, hone, hsize]; exact hpos), hone, hsize]
    rw [ha, Option.bind_some, hindex, Heap.load_of_live hlive (by omega), take_one_drop_last]

private theorem filterMap_cons_toList {α β : Type*} (f : α → Option β) (x : α) (xs : List α) :
    (x :: xs).filterMap f = (f x).toList ++ xs.filterMap f := by
  cases hx : f x <;> simp [hx]

/-- An add moves the pending block into the ring and lets go of the one it hands back. -/
theorem owned_addEntry_perm {buffer : AesdCircularBuffer w} (hs : buffer.Stores stored)
    (e : AesdBufferEntry w) :
    (owned e stored).Perm ((aesdCircularBufferAddEntry buffer e).1.toList ++
      (pushLast maxWriteOperationsSupported stored e).filterMap (·.buffptr)) := by
  rcases hs.length_le.lt_or_eq with hlt | heq
  · rw [(addEntry_of_room hs hlt e).1, pushLast_of_lt hlt, List.filterMap_append,
      filterMap_cons_toList, List.filterMap_nil, List.append_nil, owned]
    exact List.perm_append_comm
  · rw [(addEntry_of_full hs heq e).1, pushLast_of_length_eq heq (by decide)]
    cases stored with
    | nil => simp [maxWriteOperationsSupported] at heq
    | cons x xs =>
      rw [owned, filterMap_cons_toList, List.tail_cons, List.filterMap_append,
        filterMap_cons_toList, List.filterMap_nil, List.append_nil]
      exact (List.perm_append_comm).trans (by simp)

theorem commitEntry_spec (h : Rep limit s stored d) (hp : d.pending ≠ []) (freed : List ℕ) :
    ∃ s' stored' freed', commitEntry s freed = some (s', freed ++ freed') ∧
      Rep limit s' stored' d.settle ∧ s'.device.bufferLock = s.device.bufferLock ∧
      s'.region = s.region ∧ s'.cdev = s.cdev ∧
      (∀ a, s.heap a = none → s'.heap a = none) ∧ ∀ a ∈ freed', s'.heap a = none := by
  have hlast := load_last h hp
  by_cases hend : d.pending.getLast? = some endWriteChar
  · obtain ⟨hcommitted, hpending⟩ := Device.settle_complete hend
    have hperm := owned_addEntry_perm h.stores s.device.entryTemp
    obtain ⟨heap, hfree, howns, hsame, hdead, hfreed⟩ := freeUnlessNull_spec (h.owns.perm hperm)
    have hbacks : Backs s.heap s.device.entryTemp d.pending := by
      rcases h.pending with ⟨-, hnil⟩ | ⟨hb, -, -⟩
      · exact absurd hnil hp
      · exact hb
    let buffer := (aesdCircularBufferAddEntry s.device.buffer s.device.entryTemp).2
    refine ⟨⟨⟨buffer, .zero w, s.device.bufferLock⟩, heap, s.region, s.cdev⟩,
      pushLast maxWriteOperationsSupported stored s.device.entryTemp,
      (aesdCircularBufferAddEntry s.device.buffer s.device.entryTemp).1.toList,
      ?_, ?_, rfl, rfl, rfl, hdead, hfreed⟩
    · simp only [commitEntry, hlast, hend, hfree, Option.bind_eq_bind, Option.bind_some,
        Option.toList_some, ↓reduceIte, buffer]
    · exact {
        stores := addEntry_stores h.stores _
        entries := by
          rw [hcommitted]
          exact forall₂_backs_frame (forall₂_pushLast _ h.entries hbacks) hsame
        pending := .inl ⟨rfl, hpending⟩
        owns := howns
        emptyFlag := addEntry_empty _ _ }
  · refine ⟨s, stored, [], ?_, ?_, rfl, rfl, rfl, fun _ ha => ha, by simp⟩
    · have hne : d.pending.getLast?.toList ≠ [endWriteChar] := by
        intro hc
        cases hl : d.pending.getLast? with
        | none => simp [hl] at hc
        | some x => exact hend (by simpa [hl] using hc)
      simp only [commitEntry, hlast, hne, Option.bind_eq_bind, Option.bind_some, ↓reduceIte,
        List.append_nil]
    · rw [Device.settle_incomplete hend]
      exact h

theorem Rep.append (h : Rep limit s stored d) {a : ℕ} {heap : Heap Byte} {b : List Byte}
    {size : BitVec w} (hlive : heap a = some (d.pending ++ b)) (hne : d.pending ++ b ≠ [])
    (hsize : size.toNat = d.pending.length + b.length)
    (hlen : d.pending.length + b.length ≤ limit)
    (howns : heap.Owns (a :: stored.filterMap (·.buffptr)))
    (hsame : ∀ x ∈ stored.filterMap (·.buffptr), heap x = s.heap x) :
    Rep limit ⟨⟨s.device.buffer, ⟨some a, size⟩, s.device.bufferLock⟩, heap, s.region, s.cdev⟩
      stored (d.append b) where
  stores := h.stores
  entries := forall₂_backs_frame h.entries hsame
  pending := .inr ⟨⟨a, rfl, hlive, by simpa [Device.append] using hsize⟩, hne,
    by simpa [Device.append] using hlen⟩
  owns := howns
  emptyFlag := h.emptyFlag

theorem succeeds_iff {env : WriteEnv} : env.succeeds = true ↔
    env.mutexLockInterruptible = 0 ∧ (∃ a block, env.kmalloc = some (a, block)) ∧
      env.bytesNotCopied = 0 := by
  simp [WriteEnv.succeeds, Option.isSome_iff_exists, and_assoc]

theorem aesdWrite_copied (h : Rep limit s stored d) {env : WriteEnv} {buf : List Byte}
    {count : BitVec w} {a : ℕ} {block : List Byte} (hbuf : buf.length = count.toNat)
    (hlock : env.mutexLockInterruptible = 0) (halloc : env.kmalloc = some (a, block))
    (ha : s.heap a = none) (hblock : block.length = d.pending.length + count.toNat) :
    let xs := buf.take (count.toNat - env.bytesNotCopied)
    let heap := s.heap.alloc a (d.pending ++ xs ++ block.drop (d.pending.length + xs.length))
    aesdWrite s env buf count =
      if 0 < env.bytesNotCopied then
        (heap.free a).bind fun heap =>
          some ⟨-eFault, { s.lock.releaseLock with heap := heap }, [a]⟩
      else
        (freeUnlessNull heap s.device.entryTemp.buffptr).bind fun old =>
          (commitEntry ⟨⟨s.device.buffer, ⟨some a, s.device.entryTemp.size + count⟩, true⟩,
            old.1, s.region, s.cdev⟩ old.2).bind fun done =>
              some ⟨count.toInt, done.1.releaseLock, done.2⟩ := by
  intro xs heap
  have hxs : xs.length ≤ count.toNat := (List.length_take_le' ..).trans_eq hbuf
  have hfits : d.pending.length + xs.length ≤ block.length := by omega
  have hcopies := copies_eq h ha hfits
  have hget : getLock env.mutexLockInterruptible = 0 := by simp [getLock, hlock]
  simp only [aesdWrite, hget, halloc, ne_eq, not_true_eq_false, ↓reduceIte, Option.bind_eq_bind]
  change ((copyOldBuffer (s.heap.alloc a block) s.device.entryTemp a).bind fun heap =>
    (heap.store a s.device.entryTemp.size.toNat xs).bind _) = _
  rw [← Option.bind_assoc, hcopies, Option.bind_some]
  rfl

theorem toInt_of_le_maxRwCount {count : BitVec w} (hw : 32 ≤ w)
    (hmax : count.toNat ≤ maxRwCount) : count.toInt = count.toNat := by
  have hpow : 2 ^ 32 ≤ 2 ^ w := Nat.pow_le_pow_right (by decide) hw
  unfold maxRwCount at hmax
  exact BitVec.toInt_eq_toNat_of_lt (by omega)

/-- One `aesd_write`, unless it succeeds in adding nothing to nothing: it touches only live memory,
a success writes the bytes to the device and returns their number, a failure leaves the state as
it was. -/
theorem aesdWrite_spec (h : Rep limit s stored d) (hunlocked : s.device.bufferLock = false)
    (hw : 32 ≤ w) (hlimit : limit < 2 ^ 31) {env : WriteEnv} {buf : List Byte} {count : BitVec w}
    (hbuf : buf.length = count.toNat) (hmax : count.toNat ≤ maxRwCount)
    (henv : env.Allowed limit s count) (hne : env.succeeds → d.pending ++ buf ≠ []) :
    ∃ r, aesdWrite s env buf count = some r ∧ r.state.device.bufferLock = false ∧
      (∀ a ∈ r.freed, r.state.heap a = none) ∧
      if env.succeeds then
        r.returned = count.toNat ∧ ∃ stored', Rep limit r.state stored' (d.write buf)
      else r.returned < 0 ∧ r.state = s := by
  by_cases hlock : env.mutexLockInterruptible = 0
  swap
  · refine ⟨⟨-eRestartSys, s, []⟩, by simp [aesdWrite, getLock, hlock, eRestartSys], hunlocked,
      by simp, ?_⟩
    simp [WriteEnv.succeeds, hlock, eRestartSys]
  cases halloc : env.kmalloc with
  | none =>
    refine ⟨⟨-eNoMem, s.lock.releaseLock, []⟩, by simp [aesdWrite, getLock, hlock, halloc], rfl,
      by simp, ?_⟩
    simp [WriteEnv.succeeds, halloc, eNoMem, lock_releaseLock hunlocked]
  | some result =>
    obtain ⟨a, block⟩ := result
    obtain ⟨ha, hsize, hblock⟩ := henv.kmalloc a block halloc
    rw [allocSize_toNat h hw hlimit hmax] at hsize
    have hwrite := aesdWrite_copied h hbuf hlock halloc ha hsize
    dsimp only at hwrite
    by_cases hcopied : env.bytesNotCopied = 0
    · have hsucc := succeeds_iff.mpr ⟨hlock, ⟨a, block, halloc⟩, hcopied⟩
      have htake : buf.take (count.toNat - env.bytesNotCopied) = buf := by
        rw [hcopied, Nat.sub_zero, ← hbuf, List.take_length]
      have hdrop : block.drop (d.pending.length + buf.length) = [] :=
        List.drop_eq_nil_of_le (by omega)
      rw [htake, hdrop, List.append_nil, hcopied, if_neg (Nat.lt_irrefl 0)] at hwrite
      obtain ⟨heap, hfree, hlive, howns, hsame, hdead⟩ := freeOld_spec h (d.pending ++ buf) ha
      have hsize' : (s.device.entryTemp.size + count).toNat = d.pending.length + buf.length := by
        rw [size_add_count_toNat h hw hlimit hmax, hbuf]
      have happ := h.lock.append hlive (hne hsucc) hsize' (by omega) howns hsame
      obtain ⟨s', stored', freed', hcommit, hrep, -, -, -, hkeep, hfreed⟩ :=
        commitEntry_spec happ (hne hsucc) s.device.entryTemp.buffptr.toList
      rw [hfree, Option.bind_some] at hwrite
      refine ⟨⟨count.toInt, s'.releaseLock, s.device.entryTemp.buffptr.toList ++ freed'⟩,
        hwrite.trans (congrArg (Option.bind · _) hcommit), rfl, ?_, ?_⟩
      · intro b hb
        rcases List.mem_append.mp hb with hb | hb
        · exact hkeep b (hdead b hb)
        · exact hfreed b hb
      · rw [if_pos hsucc]
        exact ⟨toInt_of_le_maxRwCount hw hmax, stored', hrep.releaseLock⟩
    · have hfault : 0 < env.bytesNotCopied := Nat.pos_of_ne_zero hcopied
      rw [if_pos hfault, Heap.free_alloc _ ha, Option.bind_some,
        lock_releaseLock hunlocked] at hwrite
      refine ⟨_, hwrite, hunlocked, by simpa using ha, ?_⟩
      simp [WriteEnv.succeeds, hcopied, eFault]

theorem PendingBy.eq_zero {heap : Heap Byte} {e : AesdBufferEntry w}
    (h : PendingBy limit heap e []) : e = .zero w := by
  rcases h with ⟨he, -⟩ | ⟨-, hne, -⟩
  · exact he
  · exact absurd rfl hne

/-- A write that adds nothing to nothing tests the byte before its block: it has no result. -/
theorem aesdWrite_underrun (h : Rep limit s stored d) (hw : 32 ≤ w) (hlimit : limit < 2 ^ 31)
    (hpending : d.pending = []) {env : WriteEnv} (hsucc : env.succeeds = true)
    (henv : env.Allowed limit s 0) : aesdWrite s env [] 0 = none := by
  obtain ⟨hlock, ⟨a, block, halloc⟩, hcopied⟩ := succeeds_iff.mp hsucc
  obtain ⟨ha, hsize, -⟩ := henv.kmalloc a block halloc
  have hzero : (0 : BitVec w).toNat = 0 := by simp
  rw [allocSize_toNat h hw hlimit (hzero.le.trans (Nat.zero_le _)), hpending, hzero] at hsize
  have htemp : s.device.entryTemp = .zero w := (hpending ▸ h.pending).eq_zero
  have hbuf : ([] : List Byte).length = (0 : BitVec w).toNat := hzero.symm
  have hwrite := aesdWrite_copied h hbuf hlock halloc ha (by rw [hsize, hpending, hzero])
  dsimp only at hwrite
  rw [hcopied, if_neg (Nat.lt_irrefl 0), htemp, hpending, List.length_eq_zero_iff.mp hsize]
    at hwrite
  rw [hwrite]
  simp [AesdBufferEntry.zero, freeUnlessNull, commitEntry, Heap.load, readBlock]

theorem pending_add_count_le (h : Rep limit s stored d) (hw : 32 ≤ w) (hlimit : limit < 2 ^ 31)
    {env : WriteEnv} {count : BitVec w} (hmax : count.toNat ≤ maxRwCount)
    (henv : env.Allowed limit s count) (hsucc : env.succeeds = true) :
    d.pending.length + count.toNat ≤ limit := by
  obtain ⟨-, ⟨a, block, halloc⟩, -⟩ := succeeds_iff.mp hsucc
  obtain ⟨-, hsize, hblock⟩ := henv.kmalloc a block halloc
  rw [allocSize_toNat h hw hlimit hmax] at hsize
  omega

end Aesd.Driver
