import Aesd.Driver.CharDriver

/-! The device that the driver implements: the last ten committed entries and the bytes of an
entry that is not complete yet. `Rep` ties a driver state to it. -/
namespace Aesd.Driver
open Blocks CircularWindow AesdCircularBuffer

variable {w : ℕ}

/-- Every committed entry ends in a newline, and there are at most ten. -/
structure Device where
  committed : List (List Byte)
  pending : List Byte
  bounded : committed.length ≤ maxWriteOperationsSupported
  complete : ∀ k ∈ committed, k.getLast? = some endWriteChar

namespace Device

def empty : Device := ⟨[], [], Nat.zero_le _, by simp⟩

def append (d : Device) (b : List Byte) : Device := { d with pending := d.pending ++ b }

/-- A pending entry that ends in a newline is committed. -/
def settle (d : Device) : Device :=
  if h : d.pending.getLast? = some endWriteChar then
    { committed := pushLast maxWriteOperationsSupported d.committed d.pending
      pending := []
      bounded := length_pushLast_le _ _
      complete := fun k hk => by
        rcases mem_pushLast hk with hk | rfl
        · exact d.complete k hk
        · exact h }
  else d

def write (d : Device) (b : List Byte) : Device := (d.append b).settle

theorem settle_complete {d : Device} (h : d.pending.getLast? = some endWriteChar) :
    d.settle.committed = pushLast maxWriteOperationsSupported d.committed d.pending ∧
      d.settle.pending = [] := by
  rw [settle, dif_pos h]
  exact ⟨rfl, rfl⟩

theorem settle_incomplete {d : Device} (h : d.pending.getLast? ≠ some endWriteChar) :
    d.settle = d := by rw [settle, dif_neg h]

/-- The write ends a line: what was pending becomes an entry with it. -/
def commits (d : Device) (b : List Byte) : Bool := (d.pending ++ b).getLast? = some endWriteChar

/-- The oldest entry goes out of a full ring. -/
def evicts (d : Device) (b : List Byte) : Bool :=
  d.commits b && d.committed.length = maxWriteOperationsSupported

theorem write_committed (d : Device) (b : List Byte) : (d.write b).committed =
    if d.commits b then pushLast maxWriteOperationsSupported d.committed (d.pending ++ b)
    else d.committed := by
  by_cases hlast : (d.append b).pending.getLast? = some endWriteChar
  · have hcommits : d.commits b = true := decide_eq_true hlast
    rw [if_pos hcommits]
    exact (settle_complete hlast).1
  · have hcommits : d.commits b ≠ true := fun h => hlast (of_decide_eq_true h)
    rw [if_neg hcommits, write, settle_incomplete hlast]
    rfl

theorem prefix_write {d : Device} {b : List Byte} (h : d.evicts b = false) :
    d.committed <+: (d.write b).committed := by
  rw [write_committed]
  split
  next hcommits =>
    have hlt : d.committed.length < maxWriteOperationsSupported := by
      apply lt_of_le_of_ne d.bounded
      simpa [evicts, hcommits] using h
    rw [pushLast_of_lt hlt]
    exact List.prefix_append _ _
  next => exact List.prefix_rfl

theorem write_reverse {d : Device} {b entry : List Byte} {k : ℕ}
    (h : d.committed.reverse[k]? = some entry)
    (hk : k + (d.commits b).toNat < maxWriteOperationsSupported) :
    (d.write b).committed.reverse[k + (d.commits b).toNat]? = some entry := by
  rw [write_committed]
  cases hc : d.commits b with
  | true =>
    rw [hc] at hk
    rw [if_pos rfl, reverse_pushLast, List.getElem?_take_of_lt hk]
    exact h
  | false => exact h

def content (d : Device) : List Byte := d.committed.flatten

end Device

def Backs (heap : Heap Byte) (e : AesdBufferEntry w) (bytes : List Byte) : Prop :=
  ∃ a, e.buffptr = some a ∧ heap a = some bytes ∧ e.size.toNat = bytes.length

/-- `entry_temp` is zero, or a block of at most `limit` pending bytes. -/
def PendingBy (limit : ℕ) (heap : Heap Byte) (e : AesdBufferEntry w) (bytes : List Byte) : Prop :=
  (e = .zero w ∧ bytes = []) ∨ (Backs heap e bytes ∧ bytes ≠ [] ∧ bytes.length ≤ limit)

/-- The addresses held by `entry_temp` and the stored entries. -/
def owned (entryTemp : AesdBufferEntry w) (stored : List (AesdBufferEntry w)) : List ℕ :=
  entryTemp.buffptr.toList ++ stored.filterMap (·.buffptr)

/-- The representation invariant of the driver. -/
structure Rep (limit : ℕ) (s : DriverState w) (stored : List (AesdBufferEntry w))
    (d : Device) : Prop where
  stores : s.device.buffer.Stores stored
  entries : List.Forall₂ (Backs s.heap) stored d.committed
  pending : PendingBy limit s.heap s.device.entryTemp d.pending
  owns : s.heap.Owns (owned s.device.entryTemp stored)
  emptyFlag : s.device.buffer.empty = false

theorem Backs.frame {heap heap' : Heap Byte} {e : AesdBufferEntry w} {bytes : List Byte}
    (h : Backs heap e bytes) (hf : ∀ a, e.buffptr = some a → heap' a = heap a) :
    Backs heap' e bytes := by
  obtain ⟨a, hp, hl, hs⟩ := h
  exact ⟨a, hp, (hf a hp).trans hl, hs⟩

theorem forall₂_backs_frame {heap heap' : Heap Byte} {stored : List (AesdBufferEntry w)}
    {ks : List (List Byte)} (h : List.Forall₂ (Backs heap) stored ks)
    (hf : ∀ a ∈ stored.filterMap (·.buffptr), heap' a = heap a) :
    List.Forall₂ (Backs heap') stored ks := by
  induction h with
  | nil => exact .nil
  | @cons e k stored ks he _ ih =>
    refine .cons (he.frame fun a ha => hf a ?_) (ih fun a ha => hf a ?_)
    · exact List.mem_filterMap.mpr ⟨e, List.mem_cons_self, ha⟩
    · obtain ⟨e', hm, hp⟩ := List.mem_filterMap.mp ha
      exact List.mem_filterMap.mpr ⟨e', List.mem_cons_of_mem _ hm, hp⟩

theorem backs_sizes {heap : Heap Byte} {stored : List (AesdBufferEntry w)} {ks : List (List Byte)}
    (h : List.Forall₂ (Backs heap) stored ks) :
    stored.map (·.size.toNat) = ks.map List.length := by
  induction h with
  | nil => rfl
  | cons he _ ih =>
    obtain ⟨_, _, _, hs⟩ := he
    rw [List.map_cons, List.map_cons, hs, ih]

theorem forall₂_pushLast {α β : Type*} {R : α → β → Prop} {l : List α} {m : List β} {x : α} {y : β}
    (n : ℕ) (h : List.Forall₂ R l m) (hxy : R x y) :
    List.Forall₂ R (pushLast n l x) (pushLast n m y) := by
  have happ : List.Forall₂ R (l ++ [x]) (m ++ [y]) := List.rel_append h (.cons hxy .nil)
  rw [pushLast, pushLast, List.rtake, List.rtake, happ.length_eq]
  exact List.forall₂_drop _ happ

theorem rep_loaded (limit : ℕ) : Rep limit (loaded w) [] Device.empty where
  stores := stores_init
  entries := .nil
  pending := .inl ⟨rfl, rfl⟩
  owns := Heap.owns_empty
  emptyFlag := rfl

namespace Rep

variable {limit : ℕ} {s : DriverState w} {stored : List (AesdBufferEntry w)} {d : Device}

theorem sizes_eq (h : Rep limit s stored d) :
    stored.map (·.size.toNat) = d.committed.map List.length := backs_sizes h.entries

theorem getElem? (h : Rep limit s stored d) {k : ℕ} {bytes : List Byte}
    (hk : d.committed[k]? = some bytes) : ∃ e, stored[k]? = some e ∧ Backs s.heap e bytes := by
  obtain ⟨hlt, hget⟩ := List.getElem?_eq_some_iff.mp hk
  have hlt' : k < stored.length := h.entries.length_eq ▸ hlt
  have hb := h.entries.get hlt' hlt
  simp only [List.get_eq_getElem, hget] at hb
  exact ⟨stored[k], List.getElem?_eq_getElem hlt', hb⟩

theorem lock (h : Rep limit s stored d) : Rep limit s.lock stored d :=
  ⟨h.stores, h.entries, h.pending, h.owns, h.emptyFlag⟩

theorem releaseLock (h : Rep limit s stored d) : Rep limit s.releaseLock stored d :=
  ⟨h.stores, h.entries, h.pending, h.owns, h.emptyFlag⟩

end Rep

theorem lock_releaseLock {s : DriverState w} (h : s.device.bufferLock = false) :
    s.lock.releaseLock = s := by
  obtain ⟨⟨buffer, entryTemp, bufferLock⟩, heap, region, cdev⟩ := s
  subst h
  rfl

end Aesd.Driver
