import Aesd.Lib.Claims
import Aesd.Server.WorkerStep

/-! The memory of the worker threads by address: what `main_loop_thread` allocates, `realloc` moves
and `thread_cleanup` frees, in one heap. An access through `NULL`, or to a block that is not live or
not initialised, has no result. -/
namespace Aesd.Server
open Driver (Byte)
open Blocks

/-- A live block: a `struct BufferData`, as `malloc` returns it or with its fields, a buffer, or one
of the rest of the process. -/
inductive Cell where
  | uninitialised
  | bufferData (buffer : Option ℕ) (size allocated : ℕ)
  | bytes (block : List Byte)
  | other
  deriving DecidableEq

abbrev Memory := ℕ → Option Cell

namespace Memory

def set (m : Memory) (a : ℕ) (cell : Option Cell) : Memory := Function.update m a cell

/-- The field `buffer` behind a pointer to a `struct BufferData`, as long as there is one. -/
def blockOf (m : Memory) (p : Option ℕ) : Option ℕ :=
  match p.bind m with
  | some (.bufferData buffer _ _) => buffer
  | _ => none

/-- What is behind a pointer to a `struct BufferData`. -/
def load (m : Memory) (p : Option ℕ) : Option BufferData :=
  match p.bind m with
  | some (.bufferData none size allocated) => some ⟨[], size, allocated⟩
  | some (.bufferData (some b) size allocated) =>
    match m b with
    | some (.bytes block) => some ⟨block, size, allocated⟩
    | _ => none
  | _ => none

/-- Assign `size` and `allocated` behind a pointer, and the bytes of the buffer. -/
def store (m : Memory) (p : Option ℕ) (d : BufferData) : Memory :=
  match p with
  | none => m
  | some a =>
    match m a with
    | some (.bufferData none _ _) => m.set a (some (.bufferData none d.size d.allocated))
    | some (.bufferData (some b) _ _) =>
      (m.set b (some (.bytes d.buffer))).set a (some (.bufferData (some b) d.size d.allocated))
    | _ => m

/-- `realloc` of the buffer behind a pointer has returned `a`: the bytes are there now, and the
block they were in is free unless it is the same. -/
def moveBuffer (m : Memory) (p : Option ℕ) (a : ℕ) (d : BufferData) : Option Memory :=
  match p with
  | none => none
  | some s =>
    match m s with
    | some (.bufferData old _ _) =>
      let freed := old.elim m fun b => m.set b none
      if freed a = none then
        some ((freed.set a (some (.bytes d.buffer))).set s
          (some (.bufferData (some a) d.size d.allocated)))
      else none
    | _ => none

end Memory

/-- `receive_buffer_data` and `receive_buffer_data_new`. -/
inductive Buf where
  | rb
  | rbNew
  deriving DecidableEq

/-- Where `main_loop_thread` is: at one of its allocations, in its loop, in `thread_cleanup`, or at
its return. -/
inductive HeapPc where
  | mallocStruct (x : Buf)
  | initRb
  | mallocBuffer
  | run (pc : WorkerPc)
  | freeBuffer (x : Buf)
  | freeStruct (x : Buf)
  | ret
  | returned
  deriving DecidableEq

/-- A call of the thread; `call` is one that it makes in its loop, with the address that `realloc`
returns. -/
inductive HeapEvent where
  | mallocStruct (addr : Option ℕ)
  | mallocBuffer (got : Option (ℕ × List Byte))
  | call (e : Event) (moved : Option ℕ)
  | free (addr : ℕ)
  | compute
  | exitThread
  deriving DecidableEq

/-- A worker thread with its two pointers. -/
structure HeapWorker where
  data : ThreadData
  keepLoopingThread : Bool
  pointer : Buf → Option ℕ
  pc : HeapPc

namespace HeapWorker

def create (addr : ℕ) (clientFd : Fd) : HeapWorker :=
  ⟨⟨addr, clientFd, .waitingForData⟩, true, fun _ => none, .mallocStruct .rb⟩

def goto (th : HeapWorker) (pc : HeapPc) : HeapWorker := { th with pc := pc }

def setPointer (th : HeapWorker) (x : Buf) (p : Option ℕ) : HeapWorker :=
  { th with pointer := Function.update th.pointer x p }

/-- The thread as far as its loop is concerned. -/
def view (m : Memory) (th : HeapWorker) (pc : WorkerPc) : Option Worker := do
  let rb ← m.load (th.pointer .rb)
  let rbNew ← m.load (th.pointer .rbNew)
  some ⟨th.data, th.keepLoopingThread, rb, rbNew, pc⟩

def follow (th : HeapWorker) (w : Worker) : HeapWorker :=
  { th with data := w.data, keepLoopingThread := w.keepLoopingThread, pc := .run w.pc }

/-- A step of the loop of `main_loop_thread`, other than its end. -/
def loopStep (b : Build) (m : Memory) (th : HeapWorker) (pc : WorkerPc) (e : Event)
    (moved : Option ℕ) : Option (Memory × HeapWorker) := do
  let w ← th.view m pc
  let w' ← w.step b e
  match e, moved with
  | .exitThread, _ => none
  | .realloc _ (some _), none => none
  | .realloc _ (some _), some a =>
    (m.moveBuffer (th.pointer .rb) a w'.rb).map fun m => (m, th.follow w')
  | _, none =>
    some ((m.store (th.pointer .rb) w'.rb).store (th.pointer .rbNew) w'.rbNew, th.follow w')
  | _, some _ => none

/-- Where the thread goes on after `malloc` for a struct, and after a struct is freed. -/
def afterMalloc : Buf → HeapPc
  | .rb => .initRb
  | .rbNew => .mallocBuffer

def afterFree : Buf → HeapPc
  | .rb => .freeBuffer .rbNew
  | .rbNew => .ret

/-- `main_loop_thread` and `thread_cleanup`, one call or one group of assignments at a time. -/
def step (b : Build) (m : Memory) (th : HeapWorker) (e : HeapEvent) :
    Option (Memory × HeapWorker) :=
  match th.pc, e with
  | .mallocStruct x, .mallocStruct none => some (m, (th.setPointer x none).goto (afterMalloc x))
  | .mallocStruct x, .mallocStruct (some a) =>
    if m a = none then
      some (m.set a (some .uninitialised), (th.setPointer x (some a)).goto (afterMalloc x))
    else none
  | .initRb, .compute =>
    match th.pointer .rb with
    | none => none
    | some a =>
      if m a = none then none
      else some (m.set a (some (.bufferData none 0 0)), th.goto (.mallocStruct .rbNew))
  | .mallocBuffer, .mallocBuffer got =>
    match th.pointer .rbNew with
    | none => none
    | some a =>
      if m a = none then none
      else
        match got with
        | none =>
          some (m.set a (some (.bufferData none 0 recvBufferTempSize)), th.goto (.run .loop))
        | some (c, block) =>
          if m c = none ∧ block.length = recvBufferTempSize then
            some ((m.set c (some (.bytes block))).set a
              (some (.bufferData (some c) 0 recvBufferTempSize)), th.goto (.run .loop))
          else none
  | .run pc, .call e moved => th.loopStep b m pc e moved
  | .run pc, .compute =>
    -- the loop ends
    if pc = .loop ∧ th.keepLoopingThread = false then some (m, th.goto (.freeBuffer .rb)) else none
  | .freeBuffer x, e =>
    match th.pointer x with
    | none => if e = .compute then some (m, th.goto (afterFree x)) else none
    | some a =>
      match m a with
      | some (.bufferData none _ _) =>
        if e = .compute then some (m, th.goto (.freeStruct x)) else none
      | some (.bufferData (some c) size allocated) =>
        if e = .free c ∧ m c ≠ none then
          some ((m.set c none).set a (some (.bufferData none size allocated)),
            th.goto (.freeStruct x))
        else none
      | _ => none
  | .freeStruct x, .free a =>
    if th.pointer x = some a ∧ m a ≠ none then
      some (m.set a none, (th.setPointer x none).goto (afterFree x))
    else none
  | .ret, .exitThread => some (m, th.goto .returned)
  | _, _ => none

end HeapWorker

theorem writeBlock_length {block xs block' : List Byte} {off : ℕ}
    (h : writeBlock block off xs = some block') : block'.length = block.length := by
  unfold writeBlock at h
  split at h
  next hle =>
    cases h
    exact splice_length hle
  next => cases h

theorem BufferData.append_length {d d' : BufferData} {xs : List Byte}
    (h : d.append xs = some d') : d'.buffer.length = d.buffer.length := by
  obtain ⟨block, hblock, rfl⟩ := Option.map_eq_some_iff.mp h
  exact writeBlock_length hblock

theorem processReceivedData_lengths {rb rbNew rb' rbNew' : BufferData} {state : ThreadState}
    (h : processReceivedData rb rbNew = some (state, rb', rbNew')) :
    rb'.buffer.length = rb.buffer.length ∧ rbNew'.buffer.length = rbNew.buffer.length := by
  unfold processReceivedData at h
  split at h
  · obtain ⟨packet, -, h⟩ := Option.bind_eq_some_iff.mp h
    obtain ⟨main, hmain, h⟩ := Option.bind_eq_some_iff.mp h
    obtain ⟨rest, -, h⟩ := Option.bind_eq_some_iff.mp h
    obtain ⟨block, hblock, h⟩ := Option.bind_eq_some_iff.mp h
    cases h
    exact ⟨BufferData.append_length hmain, writeBlock_length hblock⟩
  · obtain ⟨data, -, h⟩ := Option.bind_eq_some_iff.mp h
    obtain ⟨main, hmain, h⟩ := Option.bind_eq_some_iff.mp h
    cases h
    exact ⟨BufferData.append_length hmain, rfl⟩

/-- Only the first allocation and a `realloc` that succeeds change the length of a block. -/
theorem Worker.Next.lengths {b : Build} {w w' : Worker} {e : Event} (h : w.Next b e w')
    (hstart : w.pc ≠ .start) (hrealloc : ∀ size added, e ≠ .realloc size (some added)) :
    w'.rb.buffer.length = w.rb.buffer.length ∧ w'.rbNew.buffer.length = w.rbNew.buffer.length := by
  cases h with
  | starts hpc => exact absurd hpc hstart
  | recvs hpc hs conn hne hwrite => exact ⟨rfl, writeBlock_length hwrite⟩
  | reallocs => exact absurd rfl (hrealloc _ _)
  | processes hpc hs hp => exact processReceivedData_lengths hp
  | sends hpc hsend =>
    cases hsend with
    | returns r => split <;> exact ⟨rfl, rfl⟩
    | _ => exact ⟨rfl, rfl⟩
  | _ => exact ⟨rfl, rfl⟩

theorem Worker.Next.not_exited {b : Build} {w w' : Worker} {e : Event} (h : w.Next b e w')
    (hexit : e ≠ .exitThread) : w'.pc ≠ .exited := by
  cases h with
  | exits => exact absurd rfl hexit
  | reallocs hpc =>
    rw [hpc]
    simp
  | sends hpc hsend => cases hsend <;> simp [goto]
  | _ => simp [goto]

theorem Worker.Next.not_start {b : Build} {w w' : Worker} {e : Event} (h : w.Next b e w') :
    w'.pc ≠ .start := by
  cases h with
  | reallocs hpc =>
    rw [hpc]
    simp
  | sends hpc hsend => cases hsend <;> simp [goto]
  | _ => simp [goto]

namespace Memory

variable {m m' : Memory} {p : Option ℕ} {a x : ℕ} {cell : Cell} {d d' : BufferData}

@[simp] theorem set_self (m : Memory) (a : ℕ) (c : Option Cell) : m.set a c a = c :=
  Function.update_self ..

theorem set_of_ne (m : Memory) (c : Option Cell) (h : x ≠ a) : m.set a c x = m x :=
  Function.update_of_ne h ..

def Live (m : Memory) (a : ℕ) : Prop := ∃ cell, m a = some cell ∧ cell ≠ .other

theorem live_congr (h : m' a = m a) : m'.Live a ↔ m.Live a := by
  unfold Live
  rw [h]

theorem live_of (h : m a = some cell) (hne : cell ≠ .other) : m.Live a := ⟨cell, h, hne⟩

theorem not_live_of_none (h : m a = none) : ¬ m.Live a := by
  rintro ⟨cell, hcell, -⟩
  cases h.symm.trans hcell

theorem live_set_keep (h : m.Live a) (hne : cell ≠ .other) :
    (m.set a (some cell)).Live x ↔ m.Live x := by
  by_cases hx : x = a
  · subst hx
    exact ⟨fun _ => h, fun _ => live_of (set_self ..) hne⟩
  · exact live_congr (set_of_ne _ _ hx)

theorem live_set_new (hne : cell ≠ .other) :
    (m.set a (some cell)).Live x ↔ m.Live x ∨ x = a := by
  by_cases hx : x = a
  · subst hx
    exact ⟨fun _ => .inr rfl, fun _ => live_of (set_self ..) hne⟩
  · rw [live_congr (set_of_ne _ _ hx)]
    simp [hx]

theorem live_set_none : (m.set a none).Live x ↔ m.Live x ∧ x ≠ a := by
  by_cases hx : x = a
  · subst hx
    simp [not_live_of_none (set_self ..)]
  · rw [live_congr (set_of_ne _ _ hx)]
    simp [hx]

@[simp] theorem blockOf_none : m.blockOf none = none := rfl

theorem blockOf_of {buffer : Option ℕ} {size allocated : ℕ}
    (h : m a = some (.bufferData buffer size allocated)) : m.blockOf (some a) = buffer := by
  simp [blockOf, h]

theorem blockOf_uninitialised (h : m a = some .uninitialised) : m.blockOf (some a) = none := by
  simp [blockOf, h]

theorem blockOf_congr (h : ∀ a, p = some a → m' a = m a) : m'.blockOf p = m.blockOf p := by
  cases p with
  | none => rfl
  | some a => simp only [blockOf, Option.bind_some, h a rfl]

/-- What a pointer leads to is in the two blocks behind it. -/
theorem load_congr (h : ∀ a, p = some a ∨ m.blockOf p = some a → m' a = m a) :
    m'.load p = m.load p := by
  cases p with
  | none => rfl
  | some a =>
    have ha := h a (.inl rfl)
    simp only [load, Option.bind_some, ha]
    split
    · rfl
    next b size allocated hcell => rw [h b (.inr (blockOf_of hcell))]
    · rfl

theorem load_eq_some (h : m.load p = some d) : ∃ a, p = some a ∧
    ((m a = some (.bufferData none d.size d.allocated) ∧ d.buffer = []) ∨
      ∃ c, m a = some (.bufferData (some c) d.size d.allocated) ∧
        m c = some (.bytes d.buffer)) := by
  cases p with
  | none => cases h
  | some a =>
    refine ⟨a, rfl, ?_⟩
    simp only [load, Option.bind_some] at h
    split at h
    next hcell =>
      cases h
      exact .inl ⟨hcell, rfl⟩
    next c size allocated hcell =>
      split at h
      next block hc =>
        cases h
        exact .inr ⟨c, hcell, hc⟩
      next => cases h
    next => cases h

theorem load_null {size allocated : ℕ} (h : m a = some (.bufferData none size allocated)) :
    m.load (some a) = some ⟨[], size, allocated⟩ := by
  simp [load, h]

theorem load_block {c size allocated : ℕ} {block : List Byte}
    (h : m a = some (.bufferData (some c) size allocated)) (hc : m c = some (.bytes block)) :
    m.load (some a) = some ⟨block, size, allocated⟩ := by
  simp [load, h, hc]

theorem store_spec (h : m.load p = some d) (hlen : d'.buffer.length = d.buffer.length) :
    (m.store p d').load p = some d' ∧ (m.store p d').blockOf p = m.blockOf p ∧
      (∀ x, (m.store p d').Live x ↔ m.Live x) ∧
      ∀ x, p ≠ some x → m.blockOf p ≠ some x → m.store p d' x = m x := by
  obtain ⟨a, rfl, ⟨ha, hnull⟩ | ⟨c, ha, hc⟩⟩ := load_eq_some h
  · have hempty : d'.buffer = [] := List.eq_nil_of_length_eq_zero (by rw [hlen, hnull]; rfl)
    have hstore : m.store (some a) d' = m.set a (some (.bufferData none d'.size d'.allocated)) := by
      simp [store, ha]
    rw [hstore]
    refine ⟨?_, ?_, fun x => live_set_keep (live_of ha (by simp)) (by simp), ?_⟩
    · rw [load_null (set_self ..), ← hempty]
    · rw [blockOf_of (set_self ..), blockOf_of ha]
    · intro x hx _
      exact set_of_ne _ _ fun hxa => hx (hxa ▸ rfl)
  · have hca : c ≠ a := by
      rintro rfl
      cases ha.symm.trans hc
    have hstore : m.store (some a) d' = (m.set c (some (.bytes d'.buffer))).set a
        (some (.bufferData (some c) d'.size d'.allocated)) := by
      simp [store, ha]
    have hlive : (m.set c (some (.bytes d'.buffer))).Live a :=
      (live_congr (set_of_ne _ _ hca.symm)).mpr (live_of ha (by simp))
    rw [hstore]
    refine ⟨?_, ?_, fun x => ?_, ?_⟩
    · exact load_block (set_self ..) (by rw [set_of_ne _ _ hca, set_self])
    · rw [blockOf_of (set_self ..), blockOf_of ha]
    · rw [live_set_keep hlive (by simp), live_set_keep (live_of hc (by simp)) (by simp)]
    · intro x hx hx'
      have hxa : x ≠ a := fun hxa => hx (hxa ▸ rfl)
      rw [set_of_ne _ _ hxa, set_of_ne]
      rintro rfl
      exact hx' (blockOf_of ha)

/-- `realloc`: the old block is gone, unless the new one is the same. -/
theorem moveBuffer_spec (h : m.load p = some d) (hmove : m.moveBuffer p a d' = some m') :
    m'.load p = some d' ∧ m'.blockOf p = some a ∧ (m a = none ∨ m.blockOf p = some a) ∧
      (∀ x, m'.Live x ↔ (m.Live x ∧ m.blockOf p ≠ some x) ∨ x = a) ∧
      ∀ x, p ≠ some x → m.blockOf p ≠ some x → x ≠ a → m' x = m x := by
  obtain ⟨s, rfl, hcell⟩ := load_eq_some h
  obtain ⟨old, hs, hold⟩ : ∃ old, m s = some (.bufferData old d.size d.allocated) ∧
      ∀ c, old = some c → m c = some (.bytes d.buffer) := by
    rcases hcell with ⟨hs, -⟩ | ⟨c, hs, hc⟩
    · exact ⟨none, hs, by simp⟩
    · refine ⟨some c, hs, ?_⟩
      rintro _ ⟨⟩
      exact hc
  rw [blockOf_of hs]
  simp only [moveBuffer, hs] at hmove
  split at hmove
  next hfree =>
    cases hmove
    -- the memory once the old block is gone
    generalize hfreed : (old.elim m fun b => m.set b none) = freed at hfree ⊢
    have hsame : ∀ x, old ≠ some x → freed x = m x := by
      intro x hx
      subst hfreed
      cases old with
      | none => rfl
      | some c => exact set_of_ne _ _ fun hxc => hx (hxc ▸ rfl)
    have hlive : ∀ x, freed.Live x ↔ m.Live x ∧ old ≠ some x := by
      intro x
      subst hfreed
      cases old with
      | none => simp
      | some c =>
        rw [Option.elim_some, live_set_none, ne_comm]
        simp [eq_comm]
    have hs_old : old ≠ some s := by
      intro he
      cases hs.symm.trans (hold s he)
    have hsa : s ≠ a := by
      rintro rfl
      rw [hsame s hs_old, hs] at hfree
      cases hfree
    have hsLive : (freed.set a (some (.bytes d'.buffer))).Live s :=
      (live_congr (set_of_ne _ _ hsa)).mpr ((hlive s).mpr ⟨live_of hs (by simp), hs_old⟩)
    refine ⟨?_, blockOf_of (set_self ..), ?_, fun x => ?_, ?_⟩
    · exact load_block (set_self ..) (by rw [set_of_ne _ _ hsa.symm, set_self])
    · by_cases ha : old = some a
      · exact .inr ha
      · exact .inl (hsame a ha ▸ hfree)
    · rw [live_set_keep hsLive (by simp), live_set_new (by simp), hlive]
    · intro x hx hx' hxa
      have hxs : x ≠ s := fun hxs => hx (hxs ▸ rfl)
      rw [set_of_ne _ _ hxs, set_of_ne _ _ hxa, hsame x hx']
  next => cases hmove

theorem moveBuffer_of_free (h : m.load p = some d) (ha : m a = none) (d' : BufferData) :
    ∃ m', m.moveBuffer p a d' = some m' := by
  obtain ⟨s, rfl, hcell⟩ := load_eq_some h
  obtain ⟨old, hs⟩ : ∃ old, m s = some (.bufferData old d.size d.allocated) := by
    rcases hcell with ⟨hs, -⟩ | ⟨c, hs, -⟩
    · exact ⟨none, hs⟩
    · exact ⟨some c, hs⟩
  simp only [moveBuffer, hs]
  split
  next => exact ⟨_, rfl⟩
  next hlive =>
    refine absurd ?_ hlive
    cases old with
    | none => exact ha
    | some c =>
      by_cases hc : a = c
      · rw [hc]
        exact set_self ..
      · exact (set_of_ne _ _ hc).trans ha

end Memory

/-- The `struct BufferData` behind a pointer, or its buffer. -/
inductive Part where
  | struct
  | block
  deriving DecidableEq

/-- What there is of a `struct BufferData` with its buffer: nothing, what `malloc` returned, both
(the buffer may be `NULL`), or the struct without the buffer. -/
inductive Stage where
  | absent
  | raw
  | full
  | emptied
  deriving DecidableEq

def HeapPc.stage : HeapPc → Buf → Stage
  | .mallocStruct .rb, _ => .absent
  | .initRb, .rb => .raw
  | .initRb, .rbNew => .absent
  | .mallocStruct .rbNew, .rb => .full
  | .mallocStruct .rbNew, .rbNew => .absent
  | .mallocBuffer, .rb => .full
  | .mallocBuffer, .rbNew => .raw
  | .run _, _ => .full
  | .freeBuffer .rb, _ => .full
  | .freeStruct .rb, .rb => .emptied
  | .freeStruct .rb, .rbNew => .full
  | .freeBuffer .rbNew, .rb => .absent
  | .freeBuffer .rbNew, .rbNew => .full
  | .freeStruct .rbNew, .rb => .absent
  | .freeStruct .rbNew, .rbNew => .emptied
  | .ret, _ => .absent
  | .returned, _ => .absent

inductive Fits (m : Memory) : Stage → Option ℕ → Prop where
  | absent : Fits m .absent none
  | failed : Fits m .raw none
  | raw {a : ℕ} (h : m a = some .uninitialised) : Fits m .raw (some a)
  | full {p : Option ℕ} {d : BufferData} (h : m.load p = some d) : Fits m .full p
  | emptied {a size allocated : ℕ} (h : m a = some (.bufferData none size allocated)) :
      Fits m .emptied (some a)

def HeapWorker.held (m : Memory) (th : HeapWorker) : Buf × Part → Option ℕ
  | (x, .struct) => th.pointer x
  | (x, .block) => m.blockOf (th.pointer x)

section
variable {m m' : Memory} {st : Stage} {p : Option ℕ} {a : ℕ}

theorem Fits.congr (h : Fits m st p) (hsame : ∀ a, p = some a ∨ m.blockOf p = some a → m' a = m a) :
    Fits m' st p := by
  cases h with
  | absent => exact .absent
  | failed => exact .failed
  | raw h => exact .raw ((hsame _ (.inl rfl)).trans h)
  | full h => exact .full ((Memory.load_congr hsame).trans h)
  | emptied h => exact .emptied ((hsame _ (.inl rfl)).trans h)

theorem Fits.load (h : Fits m .full p) : ∃ d, m.load p = some d := by
  cases h with
  | full h => exact ⟨_, h⟩

theorem Fits.live (h : Fits m st p) (ha : p = some a ∨ m.blockOf p = some a) : m.Live a := by
  cases h with
  | absent | failed => rcases ha with ha | ha <;> cases ha
  | raw h =>
    rcases ha with ha | ha
    · cases ha
      exact Memory.live_of h (by simp)
    · cases (Memory.blockOf_uninitialised h).symm.trans ha
  | full h =>
    obtain ⟨s, rfl, ⟨hs, -⟩ | ⟨c, hs, hc⟩⟩ := Memory.load_eq_some h
    · rcases ha with ha | ha
      · cases ha
        exact Memory.live_of hs (by simp)
      · cases (Memory.blockOf_of hs).symm.trans ha
    · rcases ha with ha | ha
      · cases ha
        exact Memory.live_of hs (by simp)
      · cases (Memory.blockOf_of hs).symm.trans ha
        exact Memory.live_of hc (by simp)
  | emptied h =>
    rcases ha with ha | ha
    · cases ha
      exact Memory.live_of h (by simp)
    · cases (Memory.blockOf_of h).symm.trans ha

end

end Aesd.Server
