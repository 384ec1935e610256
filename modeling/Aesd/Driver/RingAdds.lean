import Aesd.Driver.CircularBuffer

/-! The ring that any sequence of adds leaves, what the adds hand back, and the search over it. -/
namespace Aesd.Driver
open CircularWindow AesdCircularBuffer

variable {w : ℕ}

/-- `aesd_circular_buffer_add_entry` on each entry in turn: what the calls return, in order, and
the buffer they leave. -/
def addEntries (buffer : AesdCircularBuffer w) :
    List (AesdBufferEntry w) → List Ptr × AesdCircularBuffer w
  | [] => ([], buffer)
  | e :: adds =>
    let added := aesdCircularBufferAddEntry buffer e
    let rest := addEntries added.2 adds
    (added.1 :: rest.1, rest.2)

/-- The pointer that the add after `added` hands back. -/
def handedBack (added : List (AesdBufferEntry w)) : Ptr :=
  (overwritten (added.rtake maxWriteOperationsSupported)).bind (·.buffptr)

theorem handedBack_of_lt {added : List (AesdBufferEntry w)}
    (h : added.length < maxWriteOperationsSupported) : handedBack added = none := by
  have hlen : (added.rtake maxWriteOperationsSupported).length ≠ maxWriteOperationsSupported := by
    rw [length_rtake]
    omega
  rw [handedBack, overwritten, if_neg hlen, Option.bind_none]

theorem handedBack_of_le {added : List (AesdBufferEntry w)}
    (h : maxWriteOperationsSupported ≤ added.length) :
    handedBack added = added[added.length - maxWriteOperationsSupported]?.bind (·.buffptr) := by
  have hlen : (added.rtake maxWriteOperationsSupported).length = maxWriteOperationsSupported := by
    rw [length_rtake, Nat.min_eq_left h]
  rw [handedBack, overwritten, if_pos hlen, List.rtake, List.head?_drop]

theorem addEntries_stores {buffer : AesdCircularBuffer w} {prior : List (AesdBufferEntry w)}
    (h : buffer.Stores (prior.rtake maxWriteOperationsSupported))
    (adds : List (AesdBufferEntry w)) :
    (addEntries buffer adds).2.Stores ((prior ++ adds).rtake maxWriteOperationsSupported) ∧
      (addEntries buffer adds).1 =
        (List.range adds.length).map fun k => handedBack (prior ++ adds.take k) := by
  induction adds generalizing buffer prior with
  | nil => exact ⟨by simpa [addEntries] using h, rfl⟩
  | cons e adds ih =>
    have hnext := addEntry_stores h e
    rw [pushLast_rtake] at hnext
    obtain ⟨hstores, hreturns⟩ := ih hnext
    rw [List.append_assoc, List.singleton_append] at hstores
    apply And.intro
    · exact hstores
    · show (aesdCircularBufferAddEntry buffer e).1 :: (addEntries _ adds).1 = _
      rw [hreturns, addEntry_returns h, List.length_cons, List.range_succ_eq_map, List.map_cons,
        List.map_map, List.take_zero, List.append_nil]
      congr 1
      apply List.map_congr_left
      intro k _
      simp

theorem addEntries_init_stores (adds : List (AesdBufferEntry w)) :
    (addEntries (aesdCircularBufferInit w) adds).2.Stores
      (adds.rtake maxWriteOperationsSupported) := by
  have hinit : (aesdCircularBufferInit w).Stores
      (([] : List (AesdBufferEntry w)).rtake maxWriteOperationsSupported) := stores_init
  exact (addEntries_stores hinit adds).1

/-- The first ten adds hand back nothing; from then on each hands back the pointer added ten
calls before. -/
theorem handedBack_range (adds : List (AesdBufferEntry w)) :
    ((List.range adds.length).map fun k => handedBack (adds.take k)) =
      List.replicate (min adds.length maxWriteOperationsSupported) none ++
        (adds.take (adds.length - maxWriteOperationsSupported)).map (·.buffptr) := by
  apply List.ext_getElem?
  intro k
  by_cases hk : k < adds.length
  · have htake : (adds.take k).length = k := List.length_take_of_le hk.le
    rw [List.getElem?_map, List.getElem?_range hk, Option.map_some, List.getElem?_append,
      List.length_replicate]
    split
    next hlt =>
      rw [handedBack_of_lt (by omega), List.getElem?_replicate, if_pos hlt]
    next hge =>
      have hold : k - min adds.length maxWriteOperationsSupported =
          k - maxWriteOperationsSupported := by omega
      have hin : k - maxWriteOperationsSupported < adds.length - maxWriteOperationsSupported := by
        omega
      have hpos : 0 < maxWriteOperationsSupported := by decide
      obtain ⟨e, hget⟩ : ∃ e, adds[k - maxWriteOperationsSupported]? = some e :=
        ⟨_, List.getElem?_eq_getElem (by omega)⟩
      rw [handedBack_of_le (by omega), htake, hold, List.getElem?_map,
        List.getElem?_take_of_lt hin, List.getElem?_take_of_lt (by omega), hget]
      rfl
  · rw [List.getElem?_eq_none (by simpa using hk), List.getElem?_eq_none]
    simp only [List.length_append, List.length_replicate, List.length_map, List.length_take]
    omega

/-- After `n` adds the ring reads, from `out_offs` round, the last ten entries and then zero slots;
`full` holds from the tenth add on, and each pointer comes back when its slot is overwritten. -/
theorem addEntries_ring (adds : List (AesdBufferEntry w)) :
    let result := addEntries (aesdCircularBufferInit w) adds
    let ring := result.2
    ring.inOffs < maxWriteOperationsSupported ∧ ring.outOffs < maxWriteOperationsSupported ∧
      (ring.full = true ↔ maxWriteOperationsSupported ≤ adds.length) ∧
      window maxWriteOperationsSupported ring.slot ring.outOffs maxWriteOperationsSupported =
        adds.rtake maxWriteOperationsSupported ++
          List.replicate (maxWriteOperationsSupported - adds.length) (.zero w) ∧
      result.1 = List.replicate (min adds.length maxWriteOperationsSupported) none ++
        (adds.take (adds.length - maxWriteOperationsSupported)).map (·.buffptr) := by
  intro result ring
  have hstores : ring.Stores (adds.rtake maxWriteOperationsSupported) :=
    addEntries_init_stores adds
  have hlen : (adds.rtake maxWriteOperationsSupported).length =
      min maxWriteOperationsSupported adds.length := length_rtake adds
  refine ⟨hstores.inOffs_lt, hstores.outOffs_lt, ?_, ?_, ?_⟩
  · rw [hstores.full_eq, decide_eq_true_iff, hlen]
    omega
  · rw [hstores.window_eq, hlen]
    congr 2
    omega
  · have hinit : (aesdCircularBufferInit w).Stores
        (([] : List (AesdBufferEntry w)).rtake maxWriteOperationsSupported) := stores_init
    exact (addEntries_stores hinit adds).2.trans (handedBack_range adds)

def startOf (stored : List (AesdBufferEntry w)) (k : ℕ) : ℕ :=
  ((stored.take k).map (·.size.toNat)).sum

/-- Position `off` of the concatenated entries falls in the `k`-th of them. -/
def FallsIn (stored : List (AesdBufferEntry w)) (off k : ℕ) : Prop :=
  k < stored.length ∧ startOf stored k ≤ off ∧ off < startOf stored (k + 1)

/-- The subtractions that the loop of the search makes: what is left, and what is taken off. -/
def findEntrySubtractions (buffer : AesdCircularBuffer w) :
    (remaining index : ℕ) → (charOffsetLeft : BitVec w) → List (BitVec w × BitVec w)
  | 0, _, _ => []
  | remaining + 1, index, charOffsetLeft =>
    let tempPtr := buffer.slot index
    if charOffsetLeft < tempPtr.size then []
    else (charOffsetLeft, tempPtr.size) ::
      findEntrySubtractions buffer remaining (nextIndex index) (charOffsetLeft - tempPtr.size)

/-- These are the subtractions of the loop: it stops at the entry behind them with what the last one
leaves, or they are made for all entries. -/
theorem findEntryLoop_eq_subtractions (buffer : AesdCircularBuffer w) (remaining index : ℕ)
    (left : BitVec w) : findEntryLoop buffer remaining index left =
      if (findEntrySubtractions buffer remaining index left).length < remaining then
        some (nextIndex^[(findEntrySubtractions buffer remaining index left).length] index,
          ((findEntrySubtractions buffer remaining index left).getLast?.map
            fun p => p.1 - p.2).getD left)
      else none := by
  induction remaining generalizing index left with
  | zero => rfl
  | succ remaining ih =>
    rw [findEntryLoop, findEntrySubtractions]
    split
    next => simp
    next =>
      rw [ih, List.length_cons, Function.iterate_succ_apply, List.getLast?_cons]
      simp only [Nat.add_lt_add_iff_right]
      cases (findEntrySubtractions buffer remaining (nextIndex index)
        (left - (buffer.slot index).size)).getLast? <;> rfl

theorem startOf_succ {stored : List (AesdBufferEntry w)} {k : ℕ} {e : AesdBufferEntry w}
    (h : stored[k]? = some e) : startOf stored (k + 1) = startOf stored k + e.size.toNat := by
  rw [startOf, startOf, List.take_add_one, h, Option.toList_some, List.map_append, List.sum_append,
    List.map_singleton, List.sum_singleton]

theorem startOf_mono (stored : List (AesdBufferEntry w)) {j k : ℕ} (h : j ≤ k) :
    startOf stored j ≤ startOf stored k := by
  have hsplit : stored.take k = stored.take j ++ (stored.take k).drop j := by
    conv_lhs => rw [← List.take_append_drop j (stored.take k), List.take_take, Nat.min_eq_left h]
  rw [startOf, startOf, hsplit, List.map_append, List.sum_append]
  exact Nat.le_add_right ..

theorem FallsIn.unique {stored : List (AesdBufferEntry w)} {off j k : ℕ}
    (hj : FallsIn stored off j) (hk : FallsIn stored off k) : j = k := by
  obtain ⟨-, hjlow, hjup⟩ := hj
  obtain ⟨-, hklow, hkup⟩ := hk
  rcases Nat.lt_trichotomy j k with hlt | heq | hgt
  · have hmono : startOf stored (j + 1) ≤ startOf stored k := startOf_mono stored hlt
    omega
  · exact heq
  · have hmono : startOf stored (k + 1) ≤ startOf stored j := startOf_mono stored hgt
    omega

/-- The entry that a position falls in is the one that `Segments.locate` names. -/
theorem fallsIn_iff_locate {stored : List (AesdBufferEntry w)} {off k : ℕ} :
    FallsIn stored off k ↔
      Segments.locate (stored.map (·.size.toNat)) off = some (k, off - startOf stored k) := by
  rw [Segments.locate_eq_some_iff, ← List.map_take]
  constructor
  · rintro ⟨hk, hlow, hup⟩
    have hget : stored[k]? = some stored[k] := List.getElem?_eq_getElem hk
    rw [startOf_succ hget] at hup
    refine ⟨stored[k].size.toNat, by rw [List.getElem?_map, hget]; rfl, by omega, ?_⟩
    show off = startOf stored k + (off - startOf stored k)
    omega
  · rintro ⟨len, hk, hr, hoff⟩
    rw [List.getElem?_map] at hk
    obtain ⟨e, he, rfl⟩ := Option.map_eq_some_iff.mp hk
    have hoff' : off = startOf stored k + (off - startOf stored k) := hoff
    refine ⟨(List.getElem?_eq_some_iff.mp he).1, by omega, ?_⟩
    rw [startOf_succ he]
    omega

theorem exists_fallsIn {stored : List (AesdBufferEntry w)} {off : ℕ}
    (h : off < startOf stored stored.length) : ∃ k, FallsIn stored off k := by
  cases hl : Segments.locate (stored.map (·.size.toNat)) off with
  | none =>
    rw [Segments.locate_eq_none_iff] at hl
    rw [startOf, List.take_length] at h
    exact absurd hl (not_le.mpr h)
  | some p =>
    obtain ⟨k, r⟩ := p
    obtain ⟨-, -, -, hoff⟩ := Segments.locate_eq_some_iff.mp hl
    rw [← List.map_take] at hoff
    have hr : r = off - startOf stored k := by
      change off = startOf stored k + r at hoff
      omega
    exact ⟨k, fallsIn_iff_locate.mpr (hr ▸ hl)⟩

/-- No subtraction goes below zero: what is left is the offset less the sizes passed so far. -/
theorem findEntrySubtractions_exact (buffer : AesdCircularBuffer w) (remaining : ℕ) {index : ℕ}
    (hindex : index < maxWriteOperationsSupported) (left : BitVec w) {j : ℕ}
    {p : BitVec w × BitVec w}
    (hp : (findEntrySubtractions buffer remaining index left)[j]? = some p) :
    p.2 ≤ p.1 ∧ left.toNat =
      startOf (window maxWriteOperationsSupported buffer.slot index remaining) j + p.1.toNat := by
  induction remaining generalizing index left j with
  | zero => simp [findEntrySubtractions] at hp
  | succ remaining ih =>
    simp only [findEntrySubtractions] at hp
    split at hp
    next => simp at hp
    next hge =>
      have hle : (buffer.slot index).size ≤ left := BitVec.not_lt.mp hge
      cases j with
      | zero =>
        obtain rfl := Option.some.inj hp
        exact ⟨hle, by simp [startOf]⟩
      | succ j =>
        obtain ⟨hsub, hleft⟩ := ih (nextIndex_lt hindex) _ hp
        rw [nextIndex_eq_mod hindex, window_start_mod, BitVec.toNat_sub_of_le hle] at hleft
        rw [BitVec.le_def] at hle
        refine ⟨hsub, ?_⟩
        rw [window_cons, Nat.mod_eq_of_lt hindex, startOf, List.take_succ_cons, List.map_cons,
          List.sum_cons]
        change _ = _ + startOf _ j + _
        omega

/-- After any adds the search gives the slot of the one entry the offset falls in and the offset
inside it; past the last byte it gives `NULL` and stores nothing. -/
theorem findEntry_exact (adds : List (AesdBufferEntry w)) (charOffset rtn : BitVec w) :
    let buffer := (addEntries (aesdCircularBufferInit w) adds).2
    let stored := adds.rtake maxWriteOperationsSupported
    let found := aesdCircularBufferFindEntryOffsetForFpos buffer charOffset rtn
    (charOffset.toNat < startOf stored stored.length →
      ∃! k, FallsIn stored charOffset.toNat k ∧
        found.1 = some ((buffer.outOffs + k) % maxWriteOperationsSupported) ∧
        stored[k]? = some (buffer.slot ((buffer.outOffs + k) % maxWriteOperationsSupported)) ∧
        found.2.toNat = charOffset.toNat - startOf stored k) ∧
      (found.1 = none ↔ startOf stored stored.length ≤ charOffset.toNat) ∧
      (found.1 = none → found.2 = rtn) ∧
      ∀ j p, (findEntrySubtractions buffer maxWriteOperationsSupported buffer.outOffs
          charOffset)[j]? = some p →
        p.2 ≤ p.1 ∧ charOffset.toNat = startOf (window maxWriteOperationsSupported buffer.slot
          buffer.outOffs maxWriteOperationsSupported) j + p.1.toNat := by
  intro buffer stored found
  have hstores : buffer.Stores stored := addEntries_init_stores adds
  have hfind := findEntry_eq_locate hstores charOffset rtn
  have htotal : startOf stored stored.length = (stored.map (·.size.toNat)).sum := by
    rw [startOf, List.take_length]
  have hnone : found.1 = none ↔
      Segments.locate (stored.map (·.size.toNat)) charOffset.toNat = none := by
    show (aesdCircularBufferFindEntryOffsetForFpos buffer charOffset rtn).1 = none ↔ _
    rw [hfind]
    cases Segments.locate (stored.map (·.size.toNat)) charOffset.toNat <;> simp
  refine ⟨fun hin => ?_, ?_, fun hf => ?_, fun j p hp => ?_⟩
  · obtain ⟨k, hk⟩ := exists_fallsIn hin
    have hlt : charOffset.toNat - startOf stored k < 2 ^ w :=
      (Nat.sub_le ..).trans_lt charOffset.isLt
    have hklt : k < stored.length := hk.1
    have hslot := hstores.holds.cell_eq (hklt.trans_le hstores.length_le)
    have hget : stored[k]? = some stored[k] := List.getElem?_eq_getElem hklt
    have hfound : found = (some ((buffer.outOffs + k) % maxWriteOperationsSupported),
        BitVec.ofNat w (charOffset.toNat - startOf stored k)) := by
      show aesdCircularBufferFindEntryOffsetForFpos buffer charOffset rtn = _
      rw [hfind, fallsIn_iff_locate.mp hk]
    refine ⟨k, ⟨hk, by rw [hfound], by rw [hslot, hget, Option.getD_some], ?_⟩, ?_⟩
    · rw [hfound]
      exact Nat.mod_eq_of_lt hlt
    · rintro j ⟨hj, -⟩
      exact hj.unique hk
  · rw [hnone, Segments.locate_eq_none_iff, htotal]
  · have hloc := hnone.mp hf
    show (aesdCircularBufferFindEntryOffsetForFpos buffer charOffset rtn).2 = rtn
    rw [hfind, hloc]
  · exact findEntrySubtractions_exact buffer _ hstores.outOffs_lt charOffset hp

end Aesd.Driver
