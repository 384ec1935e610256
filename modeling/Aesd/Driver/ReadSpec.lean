import Aesd.Driver.Device

/-! What one `aesd_read` returns. It never changes the device; it reads only stored blocks, and
from a position that fits a `size_t` it returns the bytes asked for of the committed content. -/
namespace Aesd.Driver
open Blocks AesdCircularBuffer

variable {w limit : ℕ} {s : DriverState w} {stored : List (AesdBufferEntry w)} {d : Device}
  {env : ReadEnv} {count bytesRead charReturned : BitVec w} {fPos : BitVec 64} {buf : List Byte}

theorem find_of_rep (h : Rep limit s stored d) (charOffset rtn : BitVec w) :
    aesdCircularBufferFindEntryOffsetForFpos s.device.buffer charOffset rtn =
      match Segments.locate (d.committed.map List.length) charOffset.toNat with
      | some (k, r) => (some ((s.device.buffer.outOffs + k) % maxWriteOperationsSupported),
          BitVec.ofNat w r)
      | none => (none, rtn) := by
  have hfind := findEntry_eq_locate h.stores charOffset rtn
  rw [h.sizes_eq] at hfind
  exact hfind

theorem slot_of_rep (h : Rep limit s stored d) {k : ℕ} {bytes : List Byte}
    (hk : d.committed[k]? = some bytes) :
    Backs s.heap (s.device.buffer.slot
      ((s.device.buffer.outOffs + k) % maxWriteOperationsSupported)) bytes := by
  obtain ⟨e, he, hb⟩ := h.getElem? hk
  have hlt := (List.getElem?_eq_some_iff.mp he).1
  rw [h.stores.holds.cell_eq (hlt.trans_le h.stores.length_le), he, Option.getD_some]
  exact hb

theorem readLoop_end (h : Rep limit s stored d) (env : ReadEnv) (charReturned : BitVec w)
    (buf : List Byte) (fuel : ℕ) (hlt : bytesRead < count)
    (hend : d.content.length ≤ (searchOffset fPos bytesRead : BitVec w).toNat) :
    aesdReadLoop s env count fPos (fuel + 1) bytesRead charReturned buf =
      some (some bytesRead, buf) := by
  have hnone := Segments.locate_lengths_eq_none_iff.mpr hend
  simp only [aesdReadLoop, hlt, ↓reduceIte, find_of_rep h, hnone]

/-- What a round inside the content finds and copies: at least one byte, and all of it follows the
position searched for. -/
theorem round_loads (h : Rep limit s stored d) (charReturned : BitVec w) (hlt : bytesRead < count)
    (hin : (searchOffset fPos bytesRead : BitVec w).toNat < d.content.length) :
    ∃ (index : ℕ) (charReturned' n : BitVec w),
      aesdCircularBufferFindEntryOffsetForFpos s.device.buffer (searchOffset fPos bytesRead)
        charReturned = (some index, charReturned') ∧
      (n = if count - bytesRead ≤ (s.device.buffer.slot index).size - charReturned' then
        count - bytesRead else (s.device.buffer.slot index).size - charReturned') ∧
      0 < n.toNat ∧ n.toNat ≤ count.toNat - bytesRead.toNat ∧
      (searchOffset fPos bytesRead : BitVec w).toNat + n.toNat ≤ d.content.length ∧
      ((s.device.buffer.slot index).buffptr.bind fun a =>
        s.heap.load a charReturned'.toNat n.toNat) =
          some ((d.content.drop (searchOffset fPos bytesRead : BitVec w).toNat).take n.toNat) := by
  cases hloc : Segments.locate (d.committed.map List.length)
      (searchOffset fPos bytesRead : BitVec w).toNat with
  | none => exact absurd (Segments.locate_lengths_eq_none_iff.mp hloc) (not_le.mpr hin)
  | some p =>
    obtain ⟨k, r⟩ := p
    obtain ⟨seg, hseg, hr, hdrop⟩ := Segments.drop_flatten_of_locate hloc
    obtain ⟨a, ha, hlive, hsize⟩ := slot_of_rep h hseg
    set e := s.device.buffer.slot ((s.device.buffer.outOffs + k) % maxWriteOperationsSupported)
      with he
    have hmod : (BitVec.ofNat w r).toNat = r := by
      rw [BitVec.toNat_ofNat, Nat.mod_eq_of_lt (by have := e.size.isLt; omega)]
    have hentry : (e.size - BitVec.ofNat w r).toNat = seg.length - r := by
      rw [BitVec.toNat_sub_of_le (by rw [BitVec.le_def]; omega), hmod, hsize]
    have hleft : (count - bytesRead).toNat = count.toNat - bytesRead.toNat :=
      BitVec.toNat_sub_of_le (BitVec.le_of_lt hlt)
    have hpos : bytesRead.toNat < count.toNat := BitVec.lt_def.mp hlt
    set n := if count - bytesRead ≤ e.size - BitVec.ofNat w r then count - bytesRead
      else e.size - BitVec.ofNat w r with hn
    have hbounds : 0 < n.toNat ∧ n.toNat ≤ count.toNat - bytesRead.toNat ∧
        n.toNat ≤ seg.length - r := by
      rw [hn]
      split
      next hle =>
        rw [BitVec.le_def] at hle
        omega
      next hle =>
        rw [BitVec.le_def] at hle
        omega
    obtain ⟨hn0, hncount, hnseg⟩ := hbounds
    have hload : s.heap.load a r n.toNat = some ((d.content.drop
        (searchOffset fPos bytesRead : BitVec w).toNat).take n.toNat) := by
      rw [Heap.load_of_live hlive (by omega), Device.content, hdrop,
        List.take_append_of_le_length (by rw [List.length_drop]; omega)]
    have hlen := congrArg List.length hdrop
    rw [List.length_drop, List.length_append, List.length_drop] at hlen
    refine ⟨_, BitVec.ofNat w r, n, ?_, hn, hn0, hncount, ?_, ?_⟩
    · rw [find_of_rep h, hloc]
    · rw [Device.content] at hin ⊢
      omega
    · rw [← he, ha, Option.bind_some, hmod, hload]

/-- A round inside the content copies at least one byte, all of it from the content. -/
theorem readLoop_round (h : Rep limit s stored d) (env : ReadEnv) (charReturned : BitVec w)
    (buf : List Byte) (fuel : ℕ) (hlt : bytesRead < count)
    (hin : (searchOffset fPos bytesRead : BitVec w).toNat < d.content.length) :
    ∃ n charReturned' : BitVec w, 0 < n.toNat ∧ n.toNat ≤ count.toNat - bytesRead.toNat ∧
      (searchOffset fPos bytesRead : BitVec w).toNat + n.toNat ≤ d.content.length ∧
      aesdReadLoop s env count fPos (fuel + 1) bytesRead charReturned buf =
        let chunk := (d.content.drop (searchOffset fPos bytesRead : BitVec w).toNat).take n.toNat
        let notCopied := env.bytesNotCopied bytesRead.toNat
        let buf' := splice buf bytesRead.toNat (chunk.take (n.toNat - notCopied))
        if 0 < notCopied then some (none, buf')
        else aesdReadLoop s env count fPos fuel (bytesRead + n) charReturned' buf' := by
  obtain ⟨index, charReturned', n, hfind, hn, hn0, hncount, hfit, hload⟩ :=
    round_loads h charReturned hlt hin
  refine ⟨n, charReturned', hn0, hncount, hfit, ?_⟩
  simp only [aesdReadLoop, hlt, ↓reduceIte, hfind, ← hn, hload, Option.bind_eq_bind,
    Option.bind_some]

theorem add_toNat_of_le {n : BitVec w} (h : n.toNat ≤ count.toNat - bytesRead.toNat)
    (hle : bytesRead.toNat ≤ count.toNat) :
    (bytesRead + n).toNat = bytesRead.toNat + n.toNat := by
  have := count.isLt
  rw [BitVec.toNat_add, Nat.mod_eq_of_lt (by omega)]

/-- The loop ends within its rounds, reads at most `count` bytes and touches only live memory,
whatever the position. -/
theorem readLoop_returns (h : Rep limit s stored d) (env : ReadEnv) (fPos : BitVec 64)
    (charReturned : BitVec w) (buf : List Byte) (fuel : ℕ)
    (hfuel : count.toNat - bytesRead.toNat < fuel) (hle : bytesRead.toNat ≤ count.toNat) :
    ∃ r, aesdReadLoop s env count fPos fuel bytesRead charReturned buf = some r ∧
      ∀ read, r.1 = some read → read.toNat ≤ count.toNat := by
  induction fuel generalizing bytesRead charReturned buf with
  | zero => omega
  | succ fuel ih =>
    by_cases hlt : bytesRead < count
    · by_cases hin : (searchOffset fPos bytesRead : BitVec w).toNat < d.content.length
      · obtain ⟨n, charReturned', hn0, hn, -, heq⟩ :=
          readLoop_round h env charReturned buf fuel hlt hin
        have hadd := add_toNat_of_le hn hle
        rw [heq]
        dsimp only
        split
        · exact ⟨_, rfl, by simp⟩
        · exact ih _ _ (by omega) (by omega)
      · refine ⟨_, readLoop_end h env charReturned buf fuel hlt (not_lt.mp hin), ?_⟩
        rintro read ⟨⟩
        exact hle
    · refine ⟨(some bytesRead, buf), by simp [aesdReadLoop, hlt], ?_⟩
      rintro read ⟨⟩
      exact hle

/-- With the lock obtained `aesd_read` is its loop, then the new position. -/
theorem aesdRead_of_loop (hlock : env.mutexLockInterruptible = 0)
    {done : Option (BitVec w)} {buf' : List Byte}
    (hloop : aesdReadLoop s.lock env count fPos (count.toNat + 1) 0 0 buf = some (done, buf')) :
    aesdRead s env buf count fPos = some (match done with
      | none => ⟨-eFault, s.lock.releaseLock, fPos, buf'⟩
      | some bytesRead =>
        ⟨bytesRead.toInt, s.lock.releaseLock, fPos + bytesRead.setWidth 64, buf'⟩) := by
  have hget : getLock env.mutexLockInterruptible = 0 := by simp [getLock, hlock]
  simp only [aesdRead, hget, ne_eq, not_true_eq_false, ↓reduceIte, hloop, Option.bind_eq_bind,
    Option.bind_some]
  cases done <;> rfl

/-- `aesd_read` always returns, and leaves the device as it was. An error leaves the position too;
without one the bytes read are at most those asked for. -/
theorem aesdRead_returns (h : Rep limit s stored d) (hunlocked : s.device.bufferLock = false)
    (env : ReadEnv) (buf : List Byte) (count : BitVec w) (fPos : BitVec 64) :
    ∃ r, aesdRead s env buf count fPos = some r ∧ r.state = s ∧
      (r.fPos = fPos ∨ ∃ read : BitVec w, r.returned = read.toInt ∧ read.toNat ≤ count.toNat) := by
  by_cases hlock : env.mutexLockInterruptible = 0
  · have hzero : (0 : BitVec w).toNat = 0 := by simp
    obtain ⟨⟨done, buf'⟩, hloop, hread⟩ := readLoop_returns h.lock env fPos 0 buf (count.toNat + 1)
      (by rw [hzero]; exact Nat.lt_succ_self _) (hzero.le.trans (Nat.zero_le count.toNat))
    refine ⟨_, aesdRead_of_loop hlock hloop, ?_, ?_⟩
    · cases done <;> exact lock_releaseLock hunlocked
    · cases done with
      | none => exact .inl rfl
      | some read => exact .inr ⟨read, rfl, hread read rfl⟩
  · exact ⟨⟨-eRestartSys, s, fPos, buf⟩, by simp [aesdRead, getLock, hlock, eRestartSys], rfl,
      .inl rfl⟩

theorem searchOffset_toNat (hw : w ≤ 64) (hno : fPos.toNat + bytesRead.toNat < 2 ^ w) :
    (searchOffset fPos bytesRead : BitVec w).toNat = fPos.toNat + bytesRead.toNat := by
  have hpow : 2 ^ w ≤ 2 ^ 64 := Nat.pow_le_pow_right (by decide) hw
  have hb : bytesRead.toNat % 2 ^ 64 = bytesRead.toNat := Nat.mod_eq_of_lt (by omega)
  rw [searchOffset, BitVec.toNat_setWidth, BitVec.toNat_add, BitVec.toNat_setWidth, hb,
    Nat.mod_eq_of_lt (lt_of_lt_of_le hno hpow), Nat.mod_eq_of_lt hno]

/-- With every copy complete the loop fills the buffer with the content that follows. The search
never wraps: a round either starts the read or comes after bytes of the content. -/
theorem readLoop_exact (h : Rep limit s stored d) (hw : w ≤ 64)
    (hcopy : ∀ i, env.bytesNotCopied i = 0) (hpos : fPos.toNat < 2 ^ w)
    (hcontent : d.content.length < 2 ^ w) (charReturned : BitVec w) (buf : List Byte) (fuel : ℕ)
    (hfuel : count.toNat - bytesRead.toNat < fuel) (hle : bytesRead.toNat ≤ count.toNat)
    (hread : bytesRead.toNat = 0 ∨ fPos.toNat + bytesRead.toNat ≤ d.content.length)
    (hbuf : bytesRead.toNat ≤ buf.length) :
    let rest := (d.content.drop (fPos.toNat + bytesRead.toNat)).take
      (count.toNat - bytesRead.toNat)
    aesdReadLoop s env count fPos fuel bytesRead charReturned buf =
      some (some (bytesRead + BitVec.ofNat w rest.length), splice buf bytesRead.toNat rest) := by
  intro rest
  induction fuel generalizing bytesRead charReturned buf with
  | zero => omega
  | succ fuel ih =>
    by_cases hlt : bytesRead < count
    · have hoff : (searchOffset fPos bytesRead : BitVec w).toNat =
          fPos.toNat + bytesRead.toNat := searchOffset_toNat hw (by omega)
      by_cases hin : (searchOffset fPos bytesRead : BitVec w).toNat < d.content.length
      · obtain ⟨n, charReturned', hn0, hn, hfit, heq⟩ :=
          readLoop_round h env charReturned buf fuel hlt hin
        have hadd := add_toNat_of_le hn hle
        rw [hoff] at heq hfit
        simp only [hcopy, Nat.sub_zero, Nat.lt_irrefl, ↓reduceIte, List.take_take,
          Nat.min_self] at heq
        set chunk := (d.content.drop (fPos.toNat + bytesRead.toNat)).take n.toNat with hchunk
        have hlen : chunk.length = n.toNat := by
          rw [hchunk, List.length_take, List.length_drop]
          omega
        have hroom := le_length_splice hbuf chunk
        have hrest : rest = chunk ++ (d.content.drop (fPos.toNat + (bytesRead + n).toNat)).take
            (count.toNat - (bytesRead + n).toNat) := by
          have hsplit : count.toNat - bytesRead.toNat =
              n.toNat + (count.toNat - (bytesRead + n).toNat) := by omega
          have hnext : fPos.toNat + (bytesRead + n).toNat =
              fPos.toNat + bytesRead.toNat + n.toNat := by omega
          simp only [rest]
          rw [hsplit, List.take_add, List.drop_drop, hnext]
        rw [heq, ih charReturned' _ (by omega) (by omega) (.inr (by omega)) (by omega)]
        rw [hrest, List.length_append, hlen, BitVec.ofNat_add, BitVec.ofNat_toNat,
          BitVec.setWidth_eq, BitVec.add_assoc, hadd, ← hlen, splice_splice_next hbuf]
      · have hnil : rest = [] := by
          simp only [rest]
          rw [List.drop_eq_nil_of_le (by omega), List.take_nil]
        rw [readLoop_end h env charReturned buf fuel hlt (not_lt.mp hin), hnil]
        simp
    · have hge : count.toNat ≤ bytesRead.toNat := not_lt.mp hlt
      have hnil : rest = [] := by
        simp only [rest]
        rw [Nat.sub_eq_zero_of_le hge, List.take_zero]
      simp [aesdReadLoop, hlt, hnil]

/-- The loop knows its position only through the searches. -/
theorem readLoop_congr {fPos' : BitVec 64}
    (hsame : ∀ b : BitVec w, searchOffset fPos b = searchOffset fPos' b) (fuel : ℕ)
    (charReturned : BitVec w) :
    aesdReadLoop s env count fPos fuel bytesRead charReturned buf =
      aesdReadLoop s env count fPos' fuel bytesRead charReturned buf := by
  induction fuel generalizing bytesRead charReturned buf with
  | zero => rfl
  | succ fuel ih => simp only [aesdReadLoop, hsame, ih]

/-- Whatever its position, a read that completes returns the content from that position modulo the
width of a `size_t`. -/
theorem aesdRead_truncated (h : Rep limit s stored d) (hunlocked : s.device.bufferLock = false)
    (hw : w ≤ 64) (hlock : env.mutexLockInterruptible = 0) (hcopy : ∀ i, env.bytesNotCopied i = 0)
    (hcontent : d.content.length < 2 ^ w) (count : BitVec w) (buf : List Byte)
    (fPos : BitVec 64) :
    let got := (d.content.drop (fPos.toNat % 2 ^ w)).take count.toNat
    aesdRead s env buf count fPos =
      some ⟨(BitVec.ofNat w got.length).toInt, s, fPos + (BitVec.ofNat w got.length).setWidth 64,
        splice buf 0 got⟩ := by
  intro got
  have hpow : 2 ^ w ≤ 2 ^ 64 := Nat.pow_le_pow_right (by decide) hw
  have hlt : fPos.toNat % 2 ^ w < 2 ^ w := Nat.mod_lt _ (Nat.two_pow_pos w)
  have htrunc : ((fPos.setWidth w).setWidth 64).toNat = fPos.toNat % 2 ^ w := by
    rw [BitVec.toNat_setWidth, BitVec.toNat_setWidth, Nat.mod_eq_of_lt (by omega)]
  have hsame : ∀ b : BitVec w,
      searchOffset fPos b = searchOffset ((fPos.setWidth w).setWidth 64) b := by
    intro b
    apply BitVec.eq_of_toNat_eq
    simp only [searchOffset, BitVec.setWidth_add _ _ hw, BitVec.toNat_add, BitVec.toNat_setWidth,
      htrunc, Nat.mod_mod]
  have hzero : (0 : BitVec w).toNat = 0 := by simp
  have hloop := readLoop_exact h.lock hw hcopy (htrunc.symm ▸ hlt) hcontent 0 buf (count.toNat + 1)
    (by rw [hzero]; exact Nat.lt_succ_self _) (hzero.le.trans (Nat.zero_le count.toNat))
    (.inl hzero) (hzero.le.trans (Nat.zero_le _))
  have hstart : (0 : BitVec w) + BitVec.ofNat w got.length = BitVec.ofNat w got.length :=
    BitVec.zero_add _
  rw [hzero, Nat.add_zero, Nat.sub_zero, htrunc] at hloop
  dsimp only at hloop
  rw [← readLoop_congr hsame, hstart] at hloop
  exact (aesdRead_of_loop hlock hloop).trans (by rw [lock_releaseLock hunlocked])

/-- A read that is not interrupted and copies everything returns the next `count` bytes of the
content, or what there is of them, and moves the position past them. -/
theorem aesdRead_exact (h : Rep limit s stored d) (hunlocked : s.device.bufferLock = false)
    (hw : w ≤ 64) (hlock : env.mutexLockInterruptible = 0) (hcopy : ∀ i, env.bytesNotCopied i = 0)
    (hpos : fPos.toNat < 2 ^ w) (hcontent : d.content.length < 2 ^ w) (count : BitVec w)
    (buf : List Byte) :
    let got := (d.content.drop fPos.toNat).take count.toNat
    aesdRead s env buf count fPos =
      some ⟨(BitVec.ofNat w got.length).toInt, s, fPos + (BitVec.ofNat w got.length).setWidth 64,
        splice buf 0 got⟩ := by
  have hread := aesdRead_truncated h hunlocked hw hlock hcopy hcontent count buf fPos
  rw [Nat.mod_eq_of_lt hpos] at hread
  exact hread

theorem readLoop_copied {n : BitVec w} {buf' : List Byte} (fuel : ℕ)
    (hdone : aesdReadLoop s env count fPos fuel bytesRead charReturned buf =
      some (some n, buf')) :
    aesdReadLoop s ⟨env.mutexLockInterruptible, fun _ => 0⟩ count fPos fuel bytesRead charReturned
      buf = some (some n, buf') := by
  induction fuel generalizing bytesRead charReturned buf with
  | zero => cases hdone
  | succ fuel ih =>
    unfold aesdReadLoop at hdone ⊢
    split at hdone
    next hlt =>
      rw [if_pos hlt]
      split at hdone
      next => exact hdone
      next index rtn hfind =>
        obtain ⟨bytes, hbytes, hdone⟩ := Option.bind_eq_some_iff.mp hdone
        dsimp only at hdone
        split at hdone
        next => cases hdone
        next hcopied =>
          have hzero := Nat.eq_zero_of_not_pos hcopied
          rw [hzero] at hdone
          apply Option.bind_eq_some_iff.mpr
          exact ⟨bytes, hbytes, ih hdone⟩
    next hge =>
      rw [if_neg hge]
      exact hdone

/-- Whatever the kernel did, a read that returns no error has returned the next `count` bytes of
the content. -/
theorem aesdRead_of_nonneg (h : Rep limit s stored d) (hunlocked : s.device.bufferLock = false)
    (hw : w ≤ 64) (hpos : fPos.toNat < 2 ^ w) (hcontent : d.content.length < 2 ^ w)
    {r : ReadResult w} (hr : aesdRead s env buf count fPos = some r) (hnonneg : 0 ≤ r.returned) :
    let got := (d.content.drop fPos.toNat).take count.toNat
    r = ⟨(BitVec.ofNat w got.length).toInt, s, fPos + (BitVec.ofNat w got.length).setWidth 64,
      splice buf 0 got⟩ := by
  intro got
  by_cases hlock : env.mutexLockInterruptible = 0
  · have hzero : (0 : BitVec w).toNat = 0 := by simp
    obtain ⟨⟨done, buf'⟩, hloop, -⟩ := readLoop_returns h.lock env fPos 0 buf (count.toNat + 1)
      (by rw [hzero]; exact Nat.lt_succ_self _) (hzero.le.trans (Nat.zero_le count.toNat))
    have hresult := (aesdRead_of_loop hlock hloop).symm.trans hr
    cases done with
    | none =>
      cases hresult
      have hneg : (0 : ℤ) ≤ -eFault := hnonneg
      exact absurd hneg (by decide)
    | some n =>
      let copies : ReadEnv := ⟨env.mutexLockInterruptible, fun _ => 0⟩
      have hlock' : copies.mutexLockInterruptible = 0 := hlock
      have hcopied := aesdRead_of_loop hlock' (readLoop_copied _ hloop)
      have hexact := aesdRead_exact h hunlocked hw hlock' (fun _ => rfl) hpos hcontent count buf
      exact Option.some.inj (hresult.symm.trans (hcopied.symm.trans hexact))
  · have hfails : r = ⟨-eRestartSys, s, fPos, buf⟩ := by
      simpa [aesdRead, getLock, hlock, eRestartSys, eq_comm] using hr
    rw [hfails] at hnonneg
    have hneg : (0 : ℤ) ≤ -eRestartSys := hnonneg
    exact absurd hneg (by decide)

end Aesd.Driver
