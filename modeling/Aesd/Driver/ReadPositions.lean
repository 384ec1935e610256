import Aesd.Driver.ReadSlices

/-! The positions that `aesd_read` searches for, with a `size_t` no wider than `loff_t`. The sum of
`*f_pos` and `bytes_read` is cast to a `size_t`, so a search denotes the position asked for exactly
when that position fits one. -/
namespace Aesd.Driver
open Blocks Runs

variable {w limit : ℕ}

/-- One search of the loop: `bytes_read` and the offset searched for. -/
structure Search (w : ℕ) where
  bytesRead : BitVec w
  charOffset : BitVec w
  deriving DecidableEq

/-- `aesdReadLoop`, with the searches it makes in order. -/
def aesdReadLoopTraced (s : DriverState w) (env : ReadEnv) (count : BitVec w) (fPos : BitVec 64) :
    (fuel : ℕ) → (bytesRead charReturned : BitVec w) → (buf : List Byte) →
    Option (List (Search w) × Option (BitVec w) × List Byte)
  | 0, _, _, _ => none
  | fuel + 1, bytesRead, charReturned, buf =>
    if bytesRead < count then
      let search := ⟨bytesRead, searchOffset fPos bytesRead⟩
      match aesdCircularBufferFindEntryOffsetForFpos s.device.buffer
          (searchOffset fPos bytesRead) charReturned with
      | (none, _) => some ([search], some bytesRead, buf)
      | (some index, charReturned) => do
        let readPointer := s.device.buffer.slot index
        let entryBytes := readPointer.size - charReturned
        let bytesToCopy := if count - bytesRead ≤ entryBytes then count - bytesRead else entryBytes
        let bytes ← readPointer.buffptr.bind fun a =>
          s.heap.load a charReturned.toNat bytesToCopy.toNat
        let bytesNotCopied := env.bytesNotCopied bytesRead.toNat
        let buf := splice buf bytesRead.toNat (bytes.take (bytesToCopy.toNat - bytesNotCopied))
        if 0 < bytesNotCopied then some ([search], none, buf)
        else
          let (searches, done) ←
            aesdReadLoopTraced s env count fPos fuel (bytesRead + bytesToCopy) charReturned buf
          some (search :: searches, done)
    else some ([], some bytesRead, buf)

/-- The trace only watches the loop. -/
theorem aesdReadLoopTraced_result (s : DriverState w) (env : ReadEnv) (count : BitVec w)
    (fPos : BitVec 64) (fuel : ℕ) (bytesRead charReturned : BitVec w) (buf : List Byte) :
    (aesdReadLoopTraced s env count fPos fuel bytesRead charReturned buf).map Prod.snd =
      aesdReadLoop s env count fPos fuel bytesRead charReturned buf := by
  induction fuel generalizing bytesRead charReturned buf with
  | zero => rfl
  | succ fuel ih =>
    unfold aesdReadLoopTraced aesdReadLoop
    by_cases hlt : bytesRead < count
    · rw [if_pos hlt, if_pos hlt]
      rcases aesdCircularBufferFindEntryOffsetForFpos s.device.buffer
        (searchOffset fPos bytesRead) charReturned with ⟨_ | index, charReturned'⟩
      · rfl
      · simp only [Option.bind_eq_bind, Option.map_bind]
        apply congrArg
        funext bytes
        dsimp only [Function.comp_apply]
        split
        · rfl
        · rw [← ih, Option.map_bind, Option.map_eq_bind]
          rfl
    · rw [if_neg hlt, if_neg hlt]
      rfl

def readSearches (s : DriverState w) (env : ReadEnv) (buf : List Byte) (count : BitVec w)
    (fPos : BitVec 64) : List (Search w) :=
  if getLock env.mutexLockInterruptible ≠ 0 then []
  else
    match aesdReadLoopTraced s.lock env count fPos (count.toNat + 1) 0 0 buf with
    | some (searches, _) => searches
    | none => []

/-- A read whose positions mean what they say: each search is for `f_pos + bytes_read`; from the
end of the content on nothing is read; and what reaches the user's buffer, whether or not a copy
faults, is the content from `f_pos` on. -/
structure ReadsInPlace (s : DriverState w) (env : ReadEnv) (buf : List Byte) (count : BitVec w)
    (fPos : BitVec 64) : Prop where
  searches : ∀ search ∈ readSearches s env buf count fPos,
    (search.charOffset.toNat : ℤ) = fPos.toInt + search.bytesRead.toNat
  result : ∃ result, aesdRead s env buf count fPos = some result ∧
    (env.mutexLockInterruptible = 0 → ((committedContent s).length : ℤ) ≤ fPos.toInt →
      result.returned = 0) ∧
    ∃ n, result.buf = splice buf 0 (((committedContent s).drop fPos.toInt.toNat).take n) ∧
      (0 ≤ result.returned → result.returned =
        (((committedContent s).drop fPos.toInt.toNat).take n).length)

section
variable {s : DriverState w} {stored : List (AesdBufferEntry w)} {d : Device} {env : ReadEnv}
  {count bytesRead : BitVec w} {fPos : BitVec 64} {buf : List Byte}

theorem tracedLoop_first {fuel : ℕ} {charReturned : BitVec w} {searches : List (Search w)}
    {done : Option (BitVec w) × List Byte} (hlt : bytesRead < count)
    (h : aesdReadLoopTraced s env count fPos (fuel + 1) bytesRead charReturned buf =
      some (searches, done)) :
    searches.head? = some ⟨bytesRead, searchOffset fPos bytesRead⟩ := by
  unfold aesdReadLoopTraced at h
  rw [if_pos hlt] at h
  dsimp only at h
  split at h
  next =>
    cases h
    rfl
  next index charReturned' hfind =>
    obtain ⟨bytes, -, h⟩ := Option.bind_eq_some_iff.mp h
    split at h
    next =>
      cases h
      rfl
    next =>
      obtain ⟨rest, -, h⟩ := Option.bind_eq_some_iff.mp h
      cases h
      rfl

theorem tracedLoop_end (h : Rep limit s stored d) (env : ReadEnv) (charReturned : BitVec w)
    (buf : List Byte) (fuel : ℕ) (hlt : bytesRead < count)
    (hend : d.content.length ≤ (searchOffset fPos bytesRead : BitVec w).toNat) :
    aesdReadLoopTraced s env count fPos (fuel + 1) bytesRead charReturned buf =
      some ([⟨bytesRead, searchOffset fPos bytesRead⟩], some bytesRead, buf) := by
  have hnone := Segments.locate_lengths_eq_none_iff.mpr hend
  simp only [aesdReadLoopTraced, hlt, ↓reduceIte, find_of_rep h, hnone]

theorem tracedLoop_round (h : Rep limit s stored d) (env : ReadEnv) (charReturned : BitVec w)
    (buf : List Byte) (fuel : ℕ) (hlt : bytesRead < count)
    (hin : (searchOffset fPos bytesRead : BitVec w).toNat < d.content.length) :
    ∃ n charReturned' : BitVec w, n.toNat ≤ count.toNat - bytesRead.toNat ∧
      (searchOffset fPos bytesRead : BitVec w).toNat + n.toNat ≤ d.content.length ∧
      aesdReadLoopTraced s env count fPos (fuel + 1) bytesRead charReturned buf =
        let search := ⟨bytesRead, searchOffset fPos bytesRead⟩
        let chunk := (d.content.drop (searchOffset fPos bytesRead : BitVec w).toNat).take n.toNat
        let buf' := splice buf bytesRead.toNat
          (chunk.take (n.toNat - env.bytesNotCopied bytesRead.toNat))
        if 0 < env.bytesNotCopied bytesRead.toNat then some ([search], none, buf')
        else (aesdReadLoopTraced s env count fPos fuel (bytesRead + n) charReturned' buf').map
          fun r => (search :: r.1, r.2) := by
  obtain ⟨index, charReturned', n, hfind, hn, -, hncount, hfit, hload⟩ :=
    round_loads h charReturned hlt hin
  refine ⟨n, charReturned', hncount, hfit, ?_⟩
  simp only [aesdReadLoopTraced, hlt, ↓reduceIte, hfind, ← hn, hload, Option.bind_eq_bind,
    Option.bind_some, Option.map_eq_bind]
  rfl

/-- From a position that fits a `size_t` no search is truncated: a round either starts the read or
comes after bytes of the content. -/
theorem tracedLoop_searches (h : Rep limit s stored d) (hw : w ≤ 64) (hpos : fPos.toNat < 2 ^ w)
    (hcontent : d.content.length < 2 ^ w) (fuel : ℕ) (charReturned : BitVec w)
    (hle : bytesRead.toNat ≤ count.toNat)
    (hread : bytesRead.toNat = 0 ∨ fPos.toNat + bytesRead.toNat ≤ d.content.length)
    {searches : List (Search w)} {done : Option (BitVec w) × List Byte}
    (htrace : aesdReadLoopTraced s env count fPos fuel bytesRead charReturned buf =
      some (searches, done)) :
    ∀ search ∈ searches, search.charOffset.toNat = fPos.toNat + search.bytesRead.toNat := by
  induction fuel generalizing bytesRead charReturned buf searches done with
  | zero => cases htrace
  | succ fuel ih =>
    by_cases hlt : bytesRead < count
    · have hoff : (searchOffset fPos bytesRead : BitVec w).toNat =
          fPos.toNat + bytesRead.toNat := searchOffset_toNat hw (by omega)
      by_cases hin : (searchOffset fPos bytesRead : BitVec w).toNat < d.content.length
      · obtain ⟨n, charReturned', hn, hfit, heq⟩ :=
          tracedLoop_round h env charReturned buf fuel hlt hin
        rw [heq] at htrace
        dsimp only at htrace
        split at htrace
        next =>
          cases htrace
          simpa using hoff
        next =>
          obtain ⟨⟨rest, done'⟩, hrest, htrace⟩ := Option.map_eq_some_iff.mp htrace
          cases htrace
          have hadd := add_toNat_of_le hn hle
          rw [List.forall_mem_cons]
          exact ⟨hoff, ih charReturned' (by omega) (.inr (by omega)) hrest⟩
      · rw [tracedLoop_end h env charReturned buf fuel hlt (not_lt.mp hin)] at htrace
        cases htrace
        simpa using hoff
    · unfold aesdReadLoopTraced at htrace
      rw [if_neg hlt] at htrace
      cases htrace
      simp

/-- From a position that fits a `size_t` what the loop copies, up to a fault or to its end, is the
content from there on. -/
theorem readLoop_front (h : Rep limit s stored d) (hw : w ≤ 64) (hpos : fPos.toNat < 2 ^ w)
    (hcontent : d.content.length < 2 ^ w) (fuel : ℕ) (charReturned : BitVec w)
    (hle : bytesRead.toNat ≤ count.toNat)
    (hread : bytesRead.toNat = 0 ∨ fPos.toNat + bytesRead.toNat ≤ d.content.length)
    (hbuf : bytesRead.toNat ≤ buf.length) {done : Option (BitVec w)} {buf' : List Byte}
    (hloop : aesdReadLoop s env count fPos fuel bytesRead charReturned buf = some (done, buf')) :
    ∃ n, let got := (d.content.drop (fPos.toNat + bytesRead.toNat)).take n
      buf' = splice buf bytesRead.toNat got ∧
        ∀ read, done = some read → read.toNat = bytesRead.toNat + got.length := by
  induction fuel generalizing bytesRead charReturned buf with
  | zero => cases hloop
  | succ fuel ih =>
    by_cases hlt : bytesRead < count
    · have hoff : (searchOffset fPos bytesRead : BitVec w).toNat =
          fPos.toNat + bytesRead.toNat := searchOffset_toNat hw (by omega)
      by_cases hin : (searchOffset fPos bytesRead : BitVec w).toNat < d.content.length
      · obtain ⟨n, charReturned', hn0, hn, hfit, heq⟩ :=
          readLoop_round h env charReturned buf fuel hlt hin
        have hadd := add_toNat_of_le hn hle
        rw [hoff] at heq hfit
        rw [heq] at hloop
        dsimp only at hloop
        split at hloop
        next =>
          cases hloop
          exact ⟨min (n.toNat - env.bytesNotCopied bytesRead.toNat) n.toNat,
            congrArg _ (List.take_take ..), by simp⟩
        next hcopied =>
          rw [Nat.eq_zero_of_not_pos hcopied, Nat.sub_zero, List.take_take, Nat.min_self] at hloop
          set chunk := (d.content.drop (fPos.toNat + bytesRead.toNat)).take n.toNat with hchunk
          have hlen : chunk.length = n.toNat := by
            rw [hchunk, List.length_take, List.length_drop]
            omega
          have hroom := le_length_splice hbuf chunk
          obtain ⟨n', hbuf', hdone⟩ :=
            ih charReturned' (by omega) (.inr (by omega)) (by omega) hloop
          have hnext : (d.content.drop (fPos.toNat + bytesRead.toNat)).take (n.toNat + n') =
              chunk ++ (d.content.drop (fPos.toNat + (bytesRead + n).toNat)).take n' := by
            rw [List.take_add, List.drop_drop, hadd, Nat.add_assoc]
          refine ⟨n.toNat + n', ?_, ?_⟩
          · rw [hbuf', hnext, hadd, ← hlen, splice_splice_next hbuf]
          · intro read hread
            rw [hdone read hread, hnext, List.length_append, hlen, hadd, Nat.add_assoc]
      · rw [readLoop_end h env charReturned buf fuel hlt (not_lt.mp hin)] at hloop
        cases hloop
        exact ⟨0, by simp, by simp⟩
    · unfold aesdReadLoop at hloop
      rw [if_neg hlt] at hloop
      cases hloop
      exact ⟨0, by simp, by simp⟩

theorem readLoop_nothing (h : Rep limit s stored d) (env : ReadEnv) (buf : List Byte)
    (count : BitVec w) (fPos : BitVec 64)
    (hnothing : count = 0 ∨ d.content.length ≤ (searchOffset fPos (0 : BitVec w)).toNat) :
    aesdReadLoop s env count fPos (count.toNat + 1) 0 0 buf = some (some 0, buf) := by
  by_cases hlt : 0 < count
  · apply readLoop_end h env 0 buf count.toNat hlt
    exact hnothing.resolve_left ((BitVec.pos_iff_ne_zero count).mp hlt)
  · unfold aesdReadLoop
    rw [if_neg hlt]

theorem readSearches_of_lock (hlock : env.mutexLockInterruptible = 0) {searches : List (Search w)}
    {done : Option (BitVec w) × List Byte}
    (htrace : aesdReadLoopTraced s.lock env count fPos (count.toNat + 1) 0 0 buf =
      some (searches, done)) : readSearches s env buf count fPos = searches := by
  have hget : getLock env.mutexLockInterruptible = 0 := by simp [getLock, hlock]
  simp only [readSearches, hget, ne_eq, not_true_eq_false, ↓reduceIte, htrace]

/-- The loop of every `aesd_read` ends within its rounds, and so does its trace. -/
theorem tracedLoop_returns (h : Rep limit s stored d) (env : ReadEnv) (count : BitVec w)
    (fPos : BitVec 64) (buf : List Byte) :
    ∃ searches done,
      aesdReadLoopTraced s env count fPos (count.toNat + 1) 0 0 buf = some (searches, done) ∧
      aesdReadLoop s env count fPos (count.toNat + 1) 0 0 buf = some done := by
  have hzero : (0 : BitVec w).toNat = 0 := by simp
  obtain ⟨done, hloop, -⟩ := readLoop_returns h env fPos 0 buf (count.toNat + 1)
    (by rw [hzero]; exact Nat.lt_succ_self _) (hzero.le.trans (Nat.zero_le count.toNat))
  have hresult := (aesdReadLoopTraced_result s env count fPos (count.toNat + 1) 0 0 buf).trans hloop
  obtain ⟨⟨searches, done'⟩, htrace, rfl⟩ := Option.map_eq_some_iff.mp hresult
  exact ⟨searches, done', htrace, hloop⟩

theorem inPlace_of_interrupted (hlock : env.mutexLockInterruptible ≠ 0) (buf : List Byte)
    (count : BitVec w) (fPos : BitVec 64) : ReadsInPlace s env buf count fPos where
  searches := by simp [readSearches, getLock, hlock, eRestartSys]
  result := by
    refine ⟨⟨-eRestartSys, s, fPos, buf⟩, by simp [aesdRead, getLock, hlock, eRestartSys],
      fun h => absurd h hlock, 0, by simp, ?_⟩
    intro hnonneg
    exact absurd hnonneg (by simp [eRestartSys])

theorem inPlace_of_empty (h : Rep limit s stored d) (hlock : env.mutexLockInterruptible = 0)
    (buf : List Byte) (fPos : BitVec 64) : ReadsInPlace s env buf 0 fPos where
  searches := by
    simp [readSearches, getLock, hlock, aesdReadLoopTraced]
  result := by
    have hloop := readLoop_nothing h.lock env buf 0 fPos (.inl rfl)
    exact ⟨_, aesdRead_of_loop hlock hloop, fun _ _ => BitVec.toInt_zero, 0, by simp, by simp⟩

theorem toInt_eq_toNat (hpos : 0 ≤ fPos.toInt) : fPos.toInt = fPos.toNat := by
  rw [toInt_nonneg_iff] at hpos
  exact BitVec.toInt_eq_toNat_of_lt (by omega)

theorem inPlace_of_fits (h : Rep limit s stored d) (hw : 32 ≤ w) (hw' : w ≤ 64)
    (hcontent : (committedContent s).length < 2 ^ 31) (hlock : env.mutexLockInterruptible = 0)
    (hpos : 0 ≤ fPos.toInt) (hfits : fPos.toInt < 2 ^ w) (buf : List Byte) (count : BitVec w) :
    ReadsInPlace s env buf count fPos := by
  have hpow : 2 ^ 32 ≤ 2 ^ w := Nat.pow_le_pow_right (by decide) hw
  have hint := toInt_eq_toNat hpos
  have hfits' : fPos.toNat < 2 ^ w := by
    rw [hint] at hfits
    exact_mod_cast hfits
  have hspell : committedContent s = d.content := h.spells.content_eq
  rw [hspell] at hcontent
  have hzero : (0 : BitVec w).toNat = 0 := by simp
  have hle : (0 : BitVec w).toNat ≤ count.toNat := hzero.le.trans (Nat.zero_le _)
  obtain ⟨searches, ⟨done, buf'⟩, htrace, hloop⟩ := tracedLoop_returns h.lock env count fPos buf
  constructor
  · intro search hsearch
    rw [readSearches_of_lock hlock htrace] at hsearch
    have hexact := tracedLoop_searches h.lock hw' hfits' (by omega) _ 0 hle (.inl hzero) htrace
      search hsearch
    rw [hexact, hint, Nat.cast_add]
  · obtain ⟨n, hbuf', hdone⟩ := readLoop_front h.lock hw' hfits' (by omega) _ 0 hle (.inl hzero)
      (hzero.le.trans (Nat.zero_le _)) hloop
    rw [hzero, Nat.add_zero] at hbuf' hdone
    simp only [Nat.zero_add] at hdone
    refine ⟨_, aesdRead_of_loop hlock hloop, ?_, n, ?_, ?_⟩
    · intro _ hend
      rw [hspell, hint, Nat.cast_le] at hend
      have hoff : (searchOffset fPos (0 : BitVec w)).toNat = fPos.toNat := by
        rw [searchOffset_toNat hw' (by omega), hzero, Nat.add_zero]
      have hnothing := readLoop_nothing h.lock env buf count fPos (.inr (hoff.symm ▸ hend))
      cases hloop.symm.trans hnothing
      exact BitVec.toInt_zero
    · rw [hspell, hint, Int.toNat_natCast]
      cases done <;> exact hbuf'
    · intro hnonneg
      rw [hspell, hint, Int.toNat_natCast]
      cases done with
      | none => exact absurd hnonneg (by simp [eFault])
      | some read =>
        have hlen := hdone read rfl
        have hle : ((d.content.drop fPos.toNat).take n).length ≤ d.content.length := by
          rw [List.length_take, List.length_drop]
          omega
        show read.toInt = _
        rw [BitVec.toInt_eq_toNat_of_lt (by omega), hlen]

/-- The first search of a read that searches at all is in place only if its position fits. -/
theorem fits_of_inPlace (h : Rep limit s stored d) (hlock : env.mutexLockInterruptible = 0)
    (hcount : count ≠ 0) (hin : ReadsInPlace s env buf count fPos) : fPos.toInt < 2 ^ w := by
  obtain ⟨searches, done, htrace, -⟩ := tracedLoop_returns h.lock env count fPos buf
  have hlt : 0 < count := (BitVec.pos_iff_ne_zero count).mpr hcount
  have hfirst := List.mem_of_head? (tracedLoop_first hlt htrace)
  have hexact := hin.searches _ (readSearches_of_lock hlock htrace ▸ hfirst)
  have hbound := (searchOffset fPos (0 : BitVec w)).isLt
  have hzero : (0 : BitVec w).toNat = 0 := by simp
  rw [hzero, Nat.cast_zero, add_zero] at hexact
  rw [← hexact]
  exact_mod_cast hbound

end

/-- With a `size_t` of 32 to 64 bits a read of a reachable device is in place exactly when its
position fits a `size_t`, unless it comes to no search at all. -/
theorem aesdRead_inPlace_iff (hw : 32 ≤ w) (hw' : w ≤ 64) (hlimit : limit < 2 ^ 31) {s : System w}
    (hs : Reachable limit s) (hcontent : (committedContent s.driver).length < 2 ^ 31)
    (env : ReadEnv) (buf : List Byte) (count : BitVec w) {fPos : BitVec 64}
    (hpos : 0 ≤ fPos.toInt) :
    ReadsInPlace s.driver env buf count fPos ↔
      fPos.toInt < 2 ^ w ∨ count = 0 ∨ env.mutexLockInterruptible ≠ 0 := by
  obtain ⟨d, ⟨-, stored, hrep⟩, -⟩ := hs.represents hw hlimit
  by_cases hlock : env.mutexLockInterruptible = 0
  · by_cases hcount : count = 0
    · subst hcount
      simpa using inPlace_of_empty hrep hlock buf fPos
    · constructor
      · intro hin
        exact .inl (fits_of_inPlace hrep hlock hcount hin)
      · rintro (hfits | hzero | hlock')
        · exact inPlace_of_fits hrep hw hw' hcontent hlock hpos hfits buf count
        · exact absurd hzero hcount
        · exact absurd hlock hlock'
  · simpa [hlock] using inPlace_of_interrupted hlock buf count fPos

def oneLine : List CallLabel := [(.write 0 (wholeCopy 7 [0, 0]) [97, 10], 2)]

theorem oneLine_reachable : ∃ s : System 32, Reachable 4096 s ∧
    committedContent s.driver = [97, 10] := by
  have hruns : (oneLine.foldlM (System.checkedCall 4096)
      (System.start (loaded 32).device 0)).map (fun s => committedContent s.driver) =
        some [97, 10] := by
    decide +kernel
  obtain ⟨s, hs, hcontent⟩ := Option.map_eq_some_iff.mp hruns
  exact ⟨s, reachable_of_foldlM hs, hcontent⟩

/-- A read 2 ^ 32 bytes past the start returns the first bytes when a `size_t` has 32 bits. -/
theorem highPosition_displaced : ∃ s : System 32, Reachable 4096 s ∧
    committedContent s.driver = [97, 10] ∧
    (∃ result, aesdRead s.driver ⟨0, fun _ => 0⟩ [0, 0] 2 (BitVec.ofNat 64 (2 ^ 32)) = some result ∧
      result.returned = 2 ∧ result.buf = [97, 10]) ∧
    ¬ReadsInPlace s.driver ⟨0, fun _ => 0⟩ [0, 0] 2 (BitVec.ofNat 64 (2 ^ 32)) := by
  obtain ⟨s, hs, hcontent⟩ := oneLine_reachable
  obtain ⟨d, ⟨hunlocked, stored, hrep⟩, -⟩ := hs.represents (by decide) (by decide)
  have hd : d.content = [97, 10] := hrep.spells.content_eq.symm.trans hcontent
  let env : ReadEnv := ⟨0, fun _ => 0⟩
  have hlock : env.mutexLockInterruptible = 0 := rfl
  have hread := aesdRead_truncated hrep hunlocked (by decide) hlock (fun _ => rfl)
    (by rw [hd]; decide) 2 [0, 0] (BitVec.ofNat 64 (2 ^ 32))
  have hgot : (d.content.drop ((BitVec.ofNat 64 (2 ^ 32)).toNat % 2 ^ 32)).take
      (2 : BitVec 32).toNat = [97, 10] := by
    rw [hd]
    decide
  dsimp only at hread
  rw [hgot] at hread
  refine ⟨s, hs, hcontent, ⟨_, hread, ?_, ?_⟩, ?_⟩
  · show (BitVec.ofNat 32 2).toInt = 2
    decide
  · show splice [0, 0] 0 [97, 10] = [97, 10]
    decide
  · intro hin
    obtain ⟨result, hresult, hend, -⟩ := hin.result
    obtain rfl := Option.some.inj (hread.symm.trans hresult)
    have hzero : (BitVec.ofNat 32 2).toInt = 0 := hend rfl (by rw [hcontent]; decide)
    exact absurd hzero (by decide)

theorem oneLine_inPlace : ∃ s : System 32, Reachable 4096 s ∧
    ReadsInPlace s.driver ⟨0, fun _ => 0⟩ [0] 1 1 := by
  obtain ⟨s, hs, hcontent⟩ := oneLine_reachable
  have hlen : (committedContent s.driver).length < 2 ^ 31 := by rw [hcontent]; decide
  exact ⟨s, hs, (aesdRead_inPlace_iff (by decide) (by decide) (by decide) hs hlen ⟨0, fun _ => 0⟩
    [0] 1 (by decide)).mpr (.inl (by decide))⟩

end Aesd.Driver
