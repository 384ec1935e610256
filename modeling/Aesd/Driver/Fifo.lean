import Aesd.Driver.CircularBuffer
import Aesd.Lib.BoundedFifo

/-! The circular buffer against the queue of capacity ten that it is meant to be. A push is a
call of `aesd_circular_buffer_add_entry` and a pop one of `aesd_circular_buffer_remove_entry`. -/
namespace Aesd.Driver
open CircularWindow BoundedFifo AesdCircularBuffer

variable {w : ℕ}

abbrev BufferCall (w : ℕ) := Op (AesdBufferEntry w)

abbrev EntryQueue (w : ℕ) := Queue (AesdBufferEntry w) maxWriteOperationsSupported

def EntryQueue.init (w : ℕ) : EntryQueue w := .nil

/-- What a caller gets back: the pointer an add hands back, or the entry that the pointer
returned by a remove designates. -/
inductive BufferReply (w : ℕ) where
  | overwrote (old : Ptr)
  | removed (e : Option (AesdBufferEntry w))
  deriving DecidableEq

def callBuffer (buffer : AesdCircularBuffer w) :
    BufferCall w → BufferReply w × AesdCircularBuffer w
  | .push e =>
    let result := aesdCircularBufferAddEntry buffer e
    (.overwrote result.1, result.2)
  | .pop =>
    let result := aesdCircularBufferRemoveEntry buffer
    (.removed (result.1.map buffer.slot), result.2)

/-- The reply of the queue: the pointer of the entry dropped, or the entry popped. -/
def queueReply (q : EntryQueue w) : BufferCall w → BufferReply w
  | .push e => .overwrote ((q.departs (.push e)).bind (·.buffptr))
  | .pop => .removed (q.departs .pop)

/-- The search finds each byte position in the stored entries and none past them. -/
def SeesExactly (buffer : AesdCircularBuffer w) (stored : List (AesdBufferEntry w)) : Prop :=
  ∀ charOffset rtn : BitVec w,
    let found := aesdCircularBufferFindEntryOffsetForFpos buffer charOffset rtn
    (found.1.map buffer.slot, found.2) =
      match Segments.locate (stored.map (·.size.toNat)) charOffset.toNat with
      | some (k, r) => (stored[k]?, BitVec.ofNat w r)
      | none => (none, rtn)

def FullFlagRight (buffer : AesdCircularBuffer w) (q : EntryQueue w) : Prop :=
  buffer.full = true ↔ q.items.length = maxWriteOperationsSupported

def EmptyFlagRight (buffer : AesdCircularBuffer w) (q : EntryQueue w) : Prop :=
  buffer.empty = true ↔ q.items = []

/-- In every state of the run `Ok` relates buffer and queue, and every call replies alike. -/
def RunsAlike (Ok : AesdCircularBuffer w → EntryQueue w → Prop) (buffer : AesdCircularBuffer w)
    (q : EntryQueue w) : List (BufferCall w) → Prop
  | [] => Ok buffer q
  | call :: calls => Ok buffer q ∧ (callBuffer buffer call).1 = queueReply q call ∧
      RunsAlike Ok (callBuffer buffer call).2 (q.step call) calls

/-- A run from `aesd_circular_buffer_init` that behaves as the queue does: replies, both flags
and the search; with it every entry added has left once, in order, or is still stored. -/
def RefinesFifo (calls : List (BufferCall w)) : Prop :=
  RunsAlike (fun buffer q => EmptyFlagRight buffer q ∧ FullFlagRight buffer q ∧
      SeesExactly buffer q.items) (aesdCircularBufferInit w) (.init w) calls ∧
    pushed calls = departed (EntryQueue.init w) calls ++ ((EntryQueue.init w).run calls).items

/-- The same without the clause on `empty`. -/
def RefinesFifoUpToEmpty (calls : List (BufferCall w)) : Prop :=
  RunsAlike (fun buffer q => FullFlagRight buffer q ∧ SeesExactly buffer q.items)
      (aesdCircularBufferInit w) (.init w) calls ∧
    pushed calls = departed (EntryQueue.init w) calls ++ ((EntryQueue.init w).run calls).items

def NoRemoveAfterAdd (calls : List (BufferCall w)) : Prop :=
  calls.Pairwise fun first later => first.isPush → later.isPush

theorem noRemoveAfterAdd_push (e : AesdBufferEntry w) (calls : List (BufferCall w)) :
    NoRemoveAfterAdd (.push e :: calls) ↔ ∀ call ∈ calls, call.isPush := by
  rw [NoRemoveAfterAdd, List.pairwise_cons]
  exact ⟨fun h call hm => h.1 call hm rfl, fun h => ⟨fun call hm _ => h call hm,
    List.pairwise_of_forall_mem_list fun _ _ b hb _ => h b hb⟩⟩

theorem noRemoveAfterAdd_pop (calls : List (BufferCall w)) :
    NoRemoveAfterAdd (.pop :: calls) ↔ NoRemoveAfterAdd calls := by
  rw [NoRemoveAfterAdd, List.pairwise_cons]
  exact and_iff_right fun _ _ hf => absurd hf Bool.false_ne_true

variable {buffer : AesdCircularBuffer w} {q : EntryQueue w}

theorem Stores.seesExactly {stored : List (AesdBufferEntry w)} (h : buffer.Stores stored) :
    SeesExactly buffer stored := by
  intro charOffset rtn
  simp only [findEntry_eq_locate h]
  cases hl : Segments.locate (stored.map (·.size.toNat)) charOffset.toNat with
  | none => rfl
  | some p =>
    obtain ⟨len, hk, -, -⟩ := Segments.locate_eq_some_iff.mp hl
    rw [List.getElem?_map] at hk
    obtain ⟨e, he, -⟩ := Option.map_eq_some_iff.mp hk
    have hlt := (List.getElem?_eq_some_iff.mp he).1
    simp only [Option.map_some, he]
    rw [h.holds.cell_eq (hlt.trans_le h.length_le), he, Option.getD_some]

theorem Stores.fullFlagRight (h : buffer.Stores q.items) : FullFlagRight buffer q := by
  simp [FullFlagRight, h.full_eq]

theorem removeEntry_of_not_empty (hflag : buffer.empty = false) :
    aesdCircularBufferRemoveEntry buffer = (none, buffer) := by
  simp [aesdCircularBufferRemoveEntry, hflag]

/-- Neither call ever sets `empty`, so a remove never takes anything out. -/
theorem callBuffer_empty (hflag : buffer.empty = false) (call : BufferCall w) :
    (callBuffer buffer call).2.empty = false := by
  cases call with
  | push e => exact addEntry_empty buffer e
  | pop => simp [callBuffer, removeEntry_of_not_empty hflag, hflag]

theorem callBuffer_push (h : buffer.Stores q.items) (e : AesdBufferEntry w) :
    (callBuffer buffer (.push e)).1 = queueReply q (.push e) ∧
      (callBuffer buffer (.push e)).2.Stores (q.push e).items :=
  ⟨congrArg BufferReply.overwrote (addEntry_returns h e), addEntry_stores h e⟩

theorem callBuffer_pop (hflag : buffer.empty = false) :
    callBuffer buffer (.pop : BufferCall w) = (.removed none, buffer) := by
  simp [callBuffer, removeEntry_of_not_empty hflag]

/-- While entries are stored the buffer acts as the queue exactly as long as nothing is removed. -/
theorem runsAlike_of_stored (h : buffer.Stores q.items) (hflag : buffer.empty = false)
    (hq : q.items ≠ []) (calls : List (BufferCall w)) :
    RunsAlike (fun buffer q => FullFlagRight buffer q ∧ SeesExactly buffer q.items) buffer q calls ↔
      ∀ call ∈ calls, call.isPush := by
  induction calls generalizing buffer q with
  | nil => simpa [RunsAlike] using ⟨Stores.fullFlagRight h, Stores.seesExactly h⟩
  | cons call calls ih =>
    have hok := And.intro (Stores.fullFlagRight h) (Stores.seesExactly h)
    cases call with
    | push e =>
      obtain ⟨hreply, hstores⟩ := callBuffer_push h e
      have hnext := ih (q := q.push e) hstores (callBuffer_empty hflag _)
        (q.push_ne_nil (by decide) e)
      simp only [RunsAlike, hok, hreply, true_and, List.forall_mem_cons, Op.isPush]
      exact hnext
    | pop =>
      simp only [RunsAlike, callBuffer_pop hflag, queueReply, Queue.departs, Op.isPush,
        List.forall_mem_cons, Bool.false_eq_true, false_and, iff_false, not_and]
      intro _ hc
      exact absurd (List.head?_eq_none_iff.mp (BufferReply.removed.inj hc).symm) hq

theorem runsAlike_of_nothing_stored (h : buffer.Stores q.items) (hflag : buffer.empty = false)
    (hq : q.items = []) (calls : List (BufferCall w)) :
    RunsAlike (fun buffer q => FullFlagRight buffer q ∧ SeesExactly buffer q.items) buffer q calls ↔
      NoRemoveAfterAdd calls := by
  induction calls generalizing buffer q with
  | nil => simpa [RunsAlike, NoRemoveAfterAdd] using
      ⟨Stores.fullFlagRight h, Stores.seesExactly h⟩
  | cons call calls ih =>
    have hok := And.intro (Stores.fullFlagRight h) (Stores.seesExactly h)
    cases call with
    | push e =>
      obtain ⟨hreply, hstores⟩ := callBuffer_push h e
      have hnext := runsAlike_of_stored (q := q.push e) hstores (callBuffer_empty hflag _)
        (q.push_ne_nil (by decide) e) calls
      rw [noRemoveAfterAdd_push]
      simp only [RunsAlike, hok, hreply, true_and]
      exact hnext
    | pop =>
      have hstep : (q.step .pop).items = q.items := by simp [Queue.step, Queue.pop, hq]
      have hreply : BufferReply.removed none = queueReply q .pop := by
        simp [queueReply, Queue.departs, hq]
      rw [noRemoveAfterAdd_pop]
      simp only [RunsAlike, callBuffer_pop hflag, hok, ← hreply, true_and]
      exact ih (hstep ▸ h) hflag (hstep.trans hq)

/-- The flag `empty` is wrong from `aesd_circular_buffer_init` on, so no run refines the queue;
apart from it the runs that do are exactly those without a remove after an add. -/
theorem circularBuffer_refines_fifo_never (calls : List (BufferCall w)) :
    ¬ RefinesFifo calls ∧ (RefinesFifoUpToEmpty calls ↔ NoRemoveAfterAdd calls) := by
  constructor
  · rintro ⟨hrun, -⟩
    have hflag : EmptyFlagRight (aesdCircularBufferInit w) (.init w) := by
      cases calls with
      | nil => exact hrun.1
      | cons call calls => exact hrun.1.1
    exact Bool.false_ne_true (hflag.mpr rfl)
  · have hledger := (EntryQueue.init w).run_ledger (by decide) calls
    rw [RefinesFifoUpToEmpty, runsAlike_of_nothing_stored stores_init rfl rfl]
    exact and_iff_left hledger

/-- Add one entry, then remove: the queue gives it back, the buffer answers `NULL`. -/
theorem circularBuffer_remove_refused :
    ¬ RefinesFifo ([.push ⟨some 1, 3⟩, .pop] : List (BufferCall 64)) := by
  rintro ⟨⟨-, -, -, hreply, -⟩, -⟩
  exact absurd hreply (by decide)

end Aesd.Driver
