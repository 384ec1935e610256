import Aesd.Lib.CircularWindow
import Aesd.Lib.Segments

/-! The circular buffer of the driver: `aesd-circular-buffer.h` and `aesd-circular-buffer.c`. -/
namespace Aesd.Driver
open CircularWindow

/-- A `char` of a write, an entry, a packet or a file. -/
abbrev Byte := UInt8

/-- An address of the allocator, or `NULL`. -/
abbrev Ptr := Option ℕ

/-- `AESDCHAR_MAX_WRITE_OPERATIONS_SUPPORTED`. -/
def maxWriteOperationsSupported : ℕ := 10

/-- `struct aesd_buffer_entry`; `size_t` has `w` bits. -/
structure AesdBufferEntry (w : ℕ) where
  buffptr : Ptr
  size : BitVec w
  deriving DecidableEq

def AesdBufferEntry.zero (w : ℕ) : AesdBufferEntry w := ⟨none, 0⟩

/-- `struct aesd_circular_buffer`. -/
structure AesdCircularBuffer (w : ℕ) where
  entry : Vector (AesdBufferEntry w) maxWriteOperationsSupported
  inOffs : ℕ
  outOffs : ℕ
  full : Bool
  empty : Bool
  deriving DecidableEq

variable {w : ℕ}

namespace AesdCircularBuffer

/-- `buffer->entry[index]`. Reads past the array are not defined in C and give the zero
entry here; `Stores` keeps every index below the capacity. -/
def slot (buffer : AesdCircularBuffer w) (index : ℕ) : AesdBufferEntry w :=
  buffer.entry[index]?.getD (.zero w)

def setSlot (buffer : AesdCircularBuffer w) (index : ℕ) (e : AesdBufferEntry w) :
    AesdCircularBuffer w := { buffer with entry := buffer.entry.setIfInBounds index e }

end AesdCircularBuffer

/-- The wrap-around step written out at each use of an index in the source. -/
def nextIndex (index : ℕ) : ℕ :=
  if index = maxWriteOperationsSupported - 1 then 0 else index + 1

/-- `aesd_circular_buffer_init`: all of the structure is set to zero, the flag `empty` too. -/
def aesdCircularBufferInit (w : ℕ) : AesdCircularBuffer w where
  entry := Vector.replicate maxWriteOperationsSupported (.zero w)
  inOffs := 0
  outOffs := 0
  full := false
  empty := false

/-- The loop of `aesd_circular_buffer_find_entry_offset_for_fpos` with `remaining` rounds
to go: the index of the entry found, with what is then stored through the last argument. -/
def findEntryLoop (buffer : AesdCircularBuffer w) :
    (remaining index : ℕ) → (charOffsetLeft : BitVec w) → Option (ℕ × BitVec w)
  | 0, _, _ => none
  | remaining + 1, index, charOffsetLeft =>
    let tempPtr := buffer.slot index
    if charOffsetLeft < tempPtr.size then some (index, charOffsetLeft)
    else findEntryLoop buffer remaining (nextIndex index) (charOffsetLeft - tempPtr.size)

/-- `aesd_circular_buffer_find_entry_offset_for_fpos`: the entry returned (`none` is `NULL`)
and the value of `*entry_offset_byte_rtn` after the call. -/
def aesdCircularBufferFindEntryOffsetForFpos (buffer : AesdCircularBuffer w)
    (charOffset entryOffsetByteRtn : BitVec w) : Option ℕ × BitVec w :=
  match findEntryLoop buffer maxWriteOperationsSupported buffer.outOffs charOffset with
  | some (index, charOffsetLeft) => (some index, charOffsetLeft)
  | none => (none, entryOffsetByteRtn)

/-- `aesd_circular_buffer_add_entry`: the pointer overwritten, if any, and the new buffer. -/
def aesdCircularBufferAddEntry (buffer : AesdCircularBuffer w) (addEntry : AesdBufferEntry w) :
    Ptr × AesdCircularBuffer w :=
  let returnValue := if buffer.full then (buffer.slot buffer.inOffs).buffptr else none
  let written := { buffer.setSlot buffer.inOffs addEntry with empty := false }
  let moved := { written with inOffs := nextIndex written.inOffs }
  if moved.full then (returnValue, { moved with outOffs := nextIndex moved.outOffs })
  else if moved.inOffs = moved.outOffs then (returnValue, { moved with full := true })
  else (returnValue, moved)

/-- `aesd_circular_buffer_remove_entry`: the index of the entry returned (`none` is `NULL`).
The guard on `empty` is the one in the source. -/
def aesdCircularBufferRemoveEntry (buffer : AesdCircularBuffer w) :
    Option ℕ × AesdCircularBuffer w :=
  if buffer.empty = false then (none, buffer)
  else
    let returnPtr := buffer.outOffs
    let moved := { buffer with outOffs := nextIndex buffer.outOffs }
    if moved.inOffs = moved.outOffs then (some returnPtr, { moved with empty := true })
    else (some returnPtr, moved)

theorem nextIndex_eq_mod {index : ℕ} (h : index < maxWriteOperationsSupported) :
    nextIndex index = (index + 1) % maxWriteOperationsSupported := by
  unfold nextIndex maxWriteOperationsSupported at *
  split <;> omega

theorem nextIndex_lt {index : ℕ} (h : index < maxWriteOperationsSupported) :
    nextIndex index < maxWriteOperationsSupported := by
  rw [nextIndex_eq_mod h]
  exact Nat.mod_lt _ (by decide)

namespace AesdCircularBuffer

@[simp] theorem slot_setSlot (buffer : AesdCircularBuffer w) {index : ℕ} (e : AesdBufferEntry w)
    (h : index < maxWriteOperationsSupported) :
    (buffer.setSlot index e).slot = Function.update buffer.slot index e := by
  funext j
  by_cases hj : j = index
  · simp [slot, setSlot, hj, h]
  · simp [slot, setSlot, Function.update_of_ne hj, Ne.symm hj]

@[simp] theorem slot_init (index : ℕ) : (aesdCircularBufferInit w).slot index = .zero w := by
  simp only [slot, aesdCircularBufferInit, Vector.getElem?_replicate]
  split <;> rfl

/-- The representation invariant: the slots from `out_offs` on hold `stored`, oldest first, and
every other slot is zero; `full` tells a full ring from one that has room. -/
structure Stores (buffer : AesdCircularBuffer w) (stored : List (AesdBufferEntry w)) : Prop where
  outOffs_lt : buffer.outOffs < maxWriteOperationsSupported
  inOffs_eq : buffer.inOffs = (buffer.outOffs + stored.length) % maxWriteOperationsSupported
  full_eq : buffer.full = decide (stored.length = maxWriteOperationsSupported)
  holds : Holds maxWriteOperationsSupported buffer.slot (.zero w) buffer.outOffs stored

variable {buffer : AesdCircularBuffer w} {stored : List (AesdBufferEntry w)}

theorem Stores.length_le (h : buffer.Stores stored) :
    stored.length ≤ maxWriteOperationsSupported := h.holds.length_le

theorem Stores.inOffs_lt (h : buffer.Stores stored) :
    buffer.inOffs < maxWriteOperationsSupported := by
  rw [h.inOffs_eq]
  exact Nat.mod_lt _ (by decide)

theorem stores_init : (aesdCircularBufferInit w).Stores [] where
  outOffs_lt := Nat.succ_pos 9
  inOffs_eq := rfl
  full_eq := rfl
  holds := by
    rw [show (aesdCircularBufferInit w).slot = fun _ => .zero w from funext slot_init]
    exact holds_blank _ _

theorem Stores.window_eq (h : buffer.Stores stored) :
    window maxWriteOperationsSupported buffer.slot buffer.outOffs maxWriteOperationsSupported =
      stored ++ List.replicate (maxWriteOperationsSupported - stored.length) (.zero w) := h.holds.2

/-- How many entries the offsets and the flag `full` count. -/
def occupancy (buffer : AesdCircularBuffer w) : ℕ :=
  if buffer.full then maxWriteOperationsSupported
  else (buffer.inOffs + maxWriteOperationsSupported - buffer.outOffs) % maxWriteOperationsSupported

def occupied (buffer : AesdCircularBuffer w) : List (AesdBufferEntry w) :=
  window maxWriteOperationsSupported buffer.slot buffer.outOffs buffer.occupancy

theorem Stores.occupancy_eq (h : buffer.Stores stored) : buffer.occupancy = stored.length := by
  have hin := h.inOffs_eq
  have hout := h.outOffs_lt
  have hlen := h.length_le
  unfold occupancy
  rw [h.full_eq]
  unfold maxWriteOperationsSupported at *
  split
  next hfull => exact (of_decide_eq_true hfull).symm
  next hfull =>
    have hne : stored.length ≠ 10 := fun hc => hfull (decide_eq_true hc)
    omega

theorem Stores.occupied_eq (h : buffer.Stores stored) : buffer.occupied = stored := by
  unfold occupied
  rw [h.occupancy_eq, h.holds.window_length_eq]

/-- In a full ring the slot to be written is the oldest. -/
theorem Stores.inOffs_of_full (h : buffer.Stores stored)
    (hfull : stored.length = maxWriteOperationsSupported) : buffer.inOffs = buffer.outOffs := by
  rw [h.inOffs_eq, hfull, Nat.add_mod_right, Nat.mod_eq_of_lt h.outOffs_lt]

end AesdCircularBuffer

open AesdCircularBuffer

theorem addEntry_of_room {buffer : AesdCircularBuffer w} {stored : List (AesdBufferEntry w)}
    (h : buffer.Stores stored) (hroom : stored.length < maxWriteOperationsSupported)
    (e : AesdBufferEntry w) :
    (aesdCircularBufferAddEntry buffer e).1 = none ∧
      (aesdCircularBufferAddEntry buffer e).2.Stores (stored ++ [e]) := by
  have hfull : buffer.full = false := by simp [h.full_eq, hroom.ne]
  have hslots := h.holds.append hroom e
  rw [← h.inOffs_eq, ← slot_setSlot buffer e h.inOffs_lt] at hslots
  have hin : nextIndex buffer.inOffs =
      (buffer.outOffs + (stored ++ [e]).length) % maxWriteOperationsSupported := by
    rw [nextIndex_eq_mod h.inOffs_lt, h.inOffs_eq, Nat.mod_add_mod, List.length_append]
    rfl
  have hwrap : nextIndex buffer.inOffs = buffer.outOffs ↔
      (stored ++ [e]).length = maxWriteOperationsSupported := by
    have hlt := h.outOffs_lt
    rw [hin, List.length_append, List.length_singleton]
    unfold maxWriteOperationsSupported at *
    omega
  by_cases hlast : nextIndex buffer.inOffs = buffer.outOffs
  · simp only [aesdCircularBufferAddEntry, setSlot, hfull, Bool.false_eq_true, ↓reduceIte, hlast,
      true_and]
    exact ⟨h.outOffs_lt, hlast ▸ hin, by simp [hwrap.mp hlast], hslots⟩
  · simp only [aesdCircularBufferAddEntry, setSlot, hfull, Bool.false_eq_true, ↓reduceIte, hlast,
      true_and]
    exact ⟨h.outOffs_lt, hin, (decide_eq_false fun hc => hlast (hwrap.mpr hc)).symm, hslots⟩

theorem addEntry_of_full {buffer : AesdCircularBuffer w} {stored : List (AesdBufferEntry w)}
    (h : buffer.Stores stored) (hfull : stored.length = maxWriteOperationsSupported)
    (e : AesdBufferEntry w) :
    (aesdCircularBufferAddEntry buffer e).1 = stored.head?.bind (·.buffptr) ∧
      (aesdCircularBufferAddEntry buffer e).2.Stores (stored.tail ++ [e]) := by
  have hflag : buffer.full = true := by simp [h.full_eq, hfull]
  have hio := h.inOffs_of_full hfull
  have hlen : (stored.tail ++ [e]).length = maxWriteOperationsSupported := by
    rw [List.length_append, List.length_tail, hfull]
    rfl
  have hslots := h.holds.overwrite hfull (by decide) e
  rw [Nat.mod_eq_of_lt h.outOffs_lt, ← slot_setSlot buffer e h.outOffs_lt] at hslots
  have hslot := h.holds.head_cell (by decide)
  rw [Nat.mod_eq_of_lt h.outOffs_lt] at hslot
  have hhead : (buffer.slot buffer.outOffs).buffptr = stored.head?.bind (·.buffptr) := by
    rw [hslot]
    cases stored <;> rfl
  simp only [aesdCircularBufferAddEntry, setSlot, hflag, ↓reduceIte, hio, hhead, true_and]
  refine ⟨nextIndex_lt h.outOffs_lt, ?_, by rw [hlen]; rfl, hlen.le, ?_⟩
  · simp [hlen, nextIndex_lt h.outOffs_lt, Nat.mod_eq_of_lt]
  · change window _ (buffer.setSlot buffer.outOffs e).slot (nextIndex buffer.outOffs) _ = _
    rw [nextIndex_eq_mod h.outOffs_lt, window_start_mod]
    exact hslots.2

/-- One add keeps the last ten entries. -/
theorem addEntry_stores {buffer : AesdCircularBuffer w} {stored : List (AesdBufferEntry w)}
    (h : buffer.Stores stored) (e : AesdBufferEntry w) :
    (aesdCircularBufferAddEntry buffer e).2.Stores
      (pushLast maxWriteOperationsSupported stored e) := by
  rcases h.length_le.lt_or_eq with hlt | heq
  · rw [pushLast_of_lt hlt]
    exact (addEntry_of_room h hlt e).2
  · rw [pushLast_of_length_eq heq (by decide)]
    exact (addEntry_of_full h heq e).2

/-- The entry an add overwrites: the oldest one of a full ring, none while there is room. -/
def overwritten (stored : List (AesdBufferEntry w)) : Option (AesdBufferEntry w) :=
  if stored.length = maxWriteOperationsSupported then stored.head? else none

theorem addEntry_returns {buffer : AesdCircularBuffer w} {stored : List (AesdBufferEntry w)}
    (h : buffer.Stores stored) (e : AesdBufferEntry w) :
    (aesdCircularBufferAddEntry buffer e).1 = (overwritten stored).bind (·.buffptr) := by
  rcases h.length_le.lt_or_eq with hlt | heq
  · simp [(addEntry_of_room h hlt e).1, overwritten, hlt.ne]
  · rw [(addEntry_of_full h heq e).1, overwritten, if_pos heq]

@[simp] theorem addEntry_empty (buffer : AesdCircularBuffer w) (e : AesdBufferEntry w) :
    (aesdCircularBufferAddEntry buffer e).2.empty = false := by
  simp only [aesdCircularBufferAddEntry]
  split
  · rfl
  · split <;> rfl

theorem findEntryLoop_eq_locate (buffer : AesdCircularBuffer w) (remaining : ℕ) {index : ℕ}
    (hindex : index < maxWriteOperationsSupported) (left : BitVec w) :
    findEntryLoop buffer remaining index left =
      (Segments.locate
        ((window maxWriteOperationsSupported buffer.slot index remaining).map (·.size.toNat))
        left.toNat).map
        fun p => ((index + p.1) % maxWriteOperationsSupported, BitVec.ofNat w p.2) := by
  induction remaining generalizing index left with
  | zero => rfl
  | succ remaining ih =>
    rw [window_cons, Nat.mod_eq_of_lt hindex]
    simp only [findEntryLoop, List.map_cons, Segments.locate, BitVec.lt_def]
    split
    next => simp [Nat.mod_eq_of_lt hindex]
    next hge =>
      rw [ih (nextIndex_lt hindex), nextIndex_eq_mod hindex, window_start_mod,
        BitVec.toNat_sub_of_le (BitVec.le_def.mpr (not_lt.mp hge)), Option.map_map]
      congr 1
      funext p
      simp only [Function.comp_apply, Nat.mod_add_mod]
      congr 2
      omega

/-- The search over a ring is the search over its stored entries; zero slots hold nothing. -/
theorem findEntry_eq_locate {buffer : AesdCircularBuffer w} {stored : List (AesdBufferEntry w)}
    (h : buffer.Stores stored) (charOffset rtn : BitVec w) :
    aesdCircularBufferFindEntryOffsetForFpos buffer charOffset rtn =
      match Segments.locate (stored.map (·.size.toNat)) charOffset.toNat with
      | some (k, r) =>
        (some ((buffer.outOffs + k) % maxWriteOperationsSupported), BitVec.ofNat w r)
      | none => (none, rtn) := by
  have hzero : (AesdBufferEntry.zero w).size.toNat = 0 := by simp [AesdBufferEntry.zero]
  rw [aesdCircularBufferFindEntryOffsetForFpos, findEntryLoop_eq_locate _ _ h.outOffs_lt,
    h.window_eq, List.map_append, List.map_replicate, hzero, Segments.locate_append_zeros]
  cases Segments.locate (stored.map (·.size.toNat)) charOffset.toNat <;> rfl

end Aesd.Driver
