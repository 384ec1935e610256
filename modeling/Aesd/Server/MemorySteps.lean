import Aesd.Server.ThreadMemory

/-! What a step of a worker thread does to the blocks: each allocates one, frees one, moves one or
leaves all where they are, and none but the thread's own. -/
namespace Aesd.Server
open Driver (Byte)

/-- What a step does to the live blocks and to what its thread holds. -/
inductive Effect (m m' : Memory) (held held' : Buf × Part → Option ℕ) : Prop where
  | keeps (hheld : held' = held) (hlive : ∀ x, m'.Live x ↔ m.Live x)
  | allocs {r : Buf × Part} {a : ℕ} (hr : held r = none) (ha : m a = none)
      (hheld : held' = Function.update held r (some a)) (hlive : ∀ x, m'.Live x ↔ m.Live x ∨ x = a)
  | frees {r : Buf × Part} {a : ℕ} (hr : held r = some a)
      (hheld : held' = Function.update held r none) (hlive : ∀ x, m'.Live x ↔ m.Live x ∧ x ≠ a)
  | moves {r : Buf × Part} {old a : ℕ} (hr : held r = some old) (ha : m a = none ∨ old = a)
      (hheld : held' = Function.update held r (some a))
      (hlive : ∀ x, m'.Live x ↔ (m.Live x ∧ x ≠ old) ∨ x = a)

namespace HeapWorker

variable {b : Build} {m m' : Memory} {th th' : HeapWorker} {x : Buf} {e : HeapEvent}

/-- The pointers of a thread fit its place in the code, and no two of them meet. -/
structure Ok (m : Memory) (th : HeapWorker) : Prop where
  fits : ∀ x, Fits m (th.pc.stage x) (th.pointer x)
  started : th.pc ≠ .run .start
  alone : ∀ r r' a, th.held m r = some a → th.held m r' = some a → r = r'

structure Stepped (m m' : Memory) (th th' : HeapWorker) : Prop where
  effect : Effect m m' (th.held m) (th'.held m')
  frame : ∀ a, m a ≠ none → (∀ r, th.held m r ≠ some a) → m' a = m a
  fits : ∀ x, Fits m' (th'.pc.stage x) (th'.pointer x)

theorem held_of_pointer {a : ℕ} (h : th.pointer x = some a ∨ m.blockOf (th.pointer x) = some a) :
    ∃ part, th.held m (x, part) = some a := by
  rcases h with h | h
  · exact ⟨.struct, h⟩
  · exact ⟨.block, h⟩

theorem Ok.live (h : th.Ok m) {r : Buf × Part} {a : ℕ} (ha : th.held m r = some a) : m.Live a := by
  obtain ⟨x, part⟩ := r
  cases part with
  | struct => exact (h.fits x).live (.inl ha)
  | block => exact (h.fits x).live (.inr ha)

/-- What belongs to one of the two pointers does not belong to the other. -/
theorem Ok.apart (h : th.Ok m) {y : Buf} (hy : y ≠ x) {a : ℕ}
    (ha : th.pointer y = some a ∨ m.blockOf (th.pointer y) = some a) :
    m a ≠ none ∧ th.pointer x ≠ some a ∧ m.blockOf (th.pointer x) ≠ some a := by
  obtain ⟨part, hpart⟩ := held_of_pointer ha
  refine ⟨?_, fun hx => ?_, fun hx => ?_⟩
  · intro hnone
    exact Memory.not_live_of_none hnone (h.live hpart)
  · exact hy (congrArg Prod.fst (h.alone _ (x, .struct) a hpart hx))
  · exact hy (congrArg Prod.fst (h.alone _ (x, .block) a hpart hx))

/-- A step that changes only what belongs to one of the two pointers. -/
theorem Ok.stepped (h : th.Ok m) (x : Buf)
    (hpointer : ∀ y, y ≠ x → th'.pointer y = th.pointer y)
    (hstage : ∀ y, y ≠ x → th'.pc.stage y = th.pc.stage y)
    (hsame : ∀ a, m a ≠ none → th.pointer x ≠ some a → m.blockOf (th.pointer x) ≠ some a →
      m' a = m a)
    (hfit : Fits m' (th'.pc.stage x) (th'.pointer x))
    (heffect : (∀ y part, y ≠ x → th'.held m' (y, part) = th.held m (y, part)) →
      Effect m m' (th.held m) (th'.held m')) : Stepped m m' th th' := by
  have hkept : ∀ y, y ≠ x → ∀ a, th.pointer y = some a ∨ m.blockOf (th.pointer y) = some a →
      m' a = m a := by
    intro y hy a ha
    obtain ⟨hlive, hstruct, hblock⟩ := h.apart hy ha
    exact hsame a hlive hstruct hblock
  constructor
  · apply heffect
    intro y part hy
    cases part with
    | struct => exact hpointer y hy
    | block =>
      simp only [held, hpointer y hy]
      exact Memory.blockOf_congr fun a ha => hkept y hy a (.inl ha)
  · intro a hlive hfree
    exact hsame a hlive (hfree (x, .struct)) (hfree (x, .block))
  · intro y
    by_cases hy : y = x
    · exact hy ▸ hfit
    · rw [hstage y hy, hpointer y hy]
      exact (h.fits y).congr (hkept y hy)

theorem Ok.keeps {pc : HeapPc} (h : th.Ok m) (hstage : ∀ x, pc.stage x = th.pc.stage x) :
    Stepped m m th { th with pc := pc } := by
  refine ⟨.keeps rfl fun _ => Iff.rfl, fun _ _ _ => rfl, fun x => ?_⟩
  rw [show ({ th with pc := pc } : HeapWorker).pc = pc from rfl, hstage]
  exact h.fits x

theorem update_held {held held' : Buf × Part → Option ℕ} {part : Part} {v : Option ℕ}
    (hother : ∀ y part', y ≠ x → held' (y, part') = held (y, part')) (hpart : held' (x, part) = v)
    (hrest : ∀ part', part' ≠ part → held' (x, part') = held (x, part')) :
    held' = Function.update held (x, part) v := by
  funext ⟨y, part'⟩
  by_cases hr : (y, part') = (x, part)
  · cases hr
    rw [hpart, Function.update_self]
  · rw [Function.update_of_ne hr]
    by_cases hy : y = x
    · subst hy
      exact hrest part' fun hp => hr (hp ▸ rfl)
    · exact hother y part' hy

theorem same_held {held held' : Buf × Part → Option ℕ}
    (hother : ∀ y part', y ≠ x → held' (y, part') = held (y, part'))
    (hrest : ∀ part', held' (x, part') = held (x, part')) : held' = held := by
  funext ⟨y, part'⟩
  by_cases hy : y = x
  · exact hy ▸ hrest part'
  · exact hother y part' hy

theorem stage_afterMalloc (x : Buf) :
    (HeapPc.mallocStruct x).stage x = .absent ∧ (afterMalloc x).stage x = .raw ∧
      ∀ y, y ≠ x → (afterMalloc x).stage y = (HeapPc.mallocStruct x).stage y := by
  cases x <;> refine ⟨rfl, rfl, fun y hy => ?_⟩ <;> cases y <;> first | rfl | exact absurd rfl hy

theorem stage_cleanup (x : Buf) :
    (HeapPc.freeBuffer x).stage x = .full ∧ (HeapPc.freeStruct x).stage x = .emptied ∧
      (afterFree x).stage x = .absent ∧
      ∀ y, y ≠ x → (HeapPc.freeStruct x).stage y = (HeapPc.freeBuffer x).stage y ∧
        (afterFree x).stage y = (HeapPc.freeStruct x).stage y := by
  cases x <;> refine ⟨rfl, rfl, rfl, fun y hy => ?_⟩ <;> cases y <;>
    first | exact ⟨rfl, rfl⟩ | exact absurd rfl hy

@[simp] theorem pointer_goto (th : HeapWorker) (pc : HeapPc) : (th.goto pc).pointer = th.pointer :=
  rfl

@[simp] theorem pc_goto (th : HeapWorker) (pc : HeapPc) : (th.goto pc).pc = pc := rfl

@[simp] theorem pointer_setPointer (th : HeapWorker) (x : Buf) (p : Option ℕ) :
    (th.setPointer x p).pointer x = p := Function.update_self ..

theorem pointer_setPointer_of_ne (th : HeapWorker) (p : Option ℕ) {y : Buf} (hy : y ≠ x) :
    (th.setPointer x p).pointer y = th.pointer y := Function.update_of_ne hy ..

theorem pointer_of_absent (h : Fits m .absent (th.pointer x)) : th.pointer x = none := by
  generalize th.pointer x = p at h
  cases h
  rfl

theorem Ok.raw_cell {a : ℕ} (h : th.Ok m) (hstage : th.pc.stage x = .raw)
    (hp : th.pointer x = some a) : m a = some .uninitialised := by
  have hfit := h.fits x
  rw [hstage, hp] at hfit
  cases hfit with
  | raw hcell => exact hcell

theorem Ok.mallocStruct_fails (h : th.Ok m) (hpc : th.pc = .mallocStruct x) :
    Stepped m m th ((th.setPointer x none).goto (afterMalloc x)) := by
  obtain ⟨habsent, hraw, hstage⟩ := stage_afterMalloc x
  have hnone : th.pointer x = none := pointer_of_absent (habsent ▸ hpc ▸ h.fits x)
  have hpointer : (th.setPointer x none).pointer = th.pointer :=
    Function.update_eq_self_iff.mpr hnone.symm
  apply h.stepped x
  · intro y _
    exact congrFun hpointer y
  · intro y hy
    rw [pc_goto, hpc, hstage y hy]
  · exact fun _ _ _ _ => rfl
  · rw [pc_goto, hraw, pointer_goto, pointer_setPointer]
    exact .failed
  · intro _
    refine .keeps ?_ fun _ => Iff.rfl
    funext ⟨y, part⟩
    cases part <;> simp only [held, pointer_goto, hpointer]

theorem Ok.mallocStruct {a : ℕ} (h : th.Ok m) (hpc : th.pc = .mallocStruct x) (ha : m a = none) :
    Stepped m (m.set a (some .uninitialised)) th
      ((th.setPointer x (some a)).goto (afterMalloc x)) := by
  obtain ⟨habsent, hraw, hstage⟩ := stage_afterMalloc x
  have hnone : th.pointer x = none := pointer_of_absent (habsent ▸ hpc ▸ h.fits x)
  apply h.stepped x
  · intro y hy
    exact th.pointer_setPointer_of_ne _ hy
  · intro y hy
    rw [pc_goto, hpc, hstage y hy]
  · intro a' hlive _ _
    apply Memory.set_of_ne
    rintro rfl
    exact hlive ha
  · rw [pc_goto, hraw, pointer_goto, pointer_setPointer]
    exact .raw (Memory.set_self ..)
  · intro hother
    refine .allocs (r := (x, .struct)) hnone ha (update_held hother ?_ ?_)
      fun y => Memory.live_set_new (by simp)
    · exact th.pointer_setPointer x _
    · intro part hpart
      cases part with
      | struct => exact absurd rfl hpart
      | block =>
        simp only [held, pointer_goto, pointer_setPointer, hnone, Memory.blockOf_none]
        exact Memory.blockOf_uninitialised (Memory.set_self ..)

theorem Ok.inits {a size allocated : ℕ} {pc : HeapPc} (h : th.Ok m) (hstage : th.pc.stage x = .raw)
    (hp : th.pointer x = some a) (hpc : pc.stage x = .full)
    (hother : ∀ y, y ≠ x → pc.stage y = th.pc.stage y) :
    Stepped m (m.set a (some (.bufferData none size allocated))) th (th.goto pc) := by
  have hraw := h.raw_cell hstage hp
  apply h.stepped x
  · exact fun _ _ => rfl
  · exact hother
  · intro a' _ hstruct _
    exact Memory.set_of_ne _ _ fun ha => hstruct (hp.trans (ha ▸ rfl))
  · rw [pc_goto, hpc, pointer_goto, hp]
    exact .full (Memory.load_null (Memory.set_self ..))
  · intro hheld
    refine .keeps (same_held hheld fun part => ?_)
      fun y => Memory.live_set_keep (Memory.live_of hraw (by simp)) (by simp)
    cases part with
    | struct => rfl
    | block =>
      simp only [held, pointer_goto, hp, Memory.blockOf_of (Memory.set_self ..),
        Memory.blockOf_uninitialised hraw]

theorem Ok.mallocBuffer {a c size allocated : ℕ} {block : List Byte} {pc : HeapPc} (h : th.Ok m)
    (hstage : th.pc.stage x = .raw) (hp : th.pointer x = some a) (hc : m c = none)
    (hpc : pc.stage x = .full) (hother : ∀ y, y ≠ x → pc.stage y = th.pc.stage y) :
    Stepped m ((m.set c (some (.bytes block))).set a
      (some (.bufferData (some c) size allocated))) th (th.goto pc) := by
  have hraw := h.raw_cell hstage hp
  have hca : c ≠ a := by
    rintro rfl
    cases hc.symm.trans hraw
  have hlive : (m.set c (some (.bytes block))).Live a :=
    (Memory.live_congr (Memory.set_of_ne _ _ hca.symm)).mpr (Memory.live_of hraw (by simp))
  apply h.stepped x
  · exact fun _ _ => rfl
  · exact hother
  · intro a' hlive' hstruct _
    have ha' : a' ≠ a := fun ha => hstruct (hp.trans (ha ▸ rfl))
    rw [Memory.set_of_ne _ _ ha', Memory.set_of_ne]
    rintro rfl
    exact hlive' hc
  · rw [pc_goto, hpc, pointer_goto, hp]
    exact .full (Memory.load_block (Memory.set_self ..)
      (by rw [Memory.set_of_ne _ _ hca, Memory.set_self]))
  · intro hheld
    refine .allocs (r := (x, .block)) (a := c) ?_ hc (update_held hheld ?_ ?_) fun y => ?_
    · simp only [held, hp, Memory.blockOf_uninitialised hraw]
    · simp only [held, pointer_goto, hp, Memory.blockOf_of (Memory.set_self ..)]
    · intro part hpart
      cases part with
      | struct => rfl
      | block => exact absurd rfl hpart
    · rw [Memory.live_set_keep hlive (by simp), Memory.live_set_new (by simp)]

theorem Ok.freeBuffer {a c size allocated : ℕ} (h : th.Ok m) (hpc : th.pc = .freeBuffer x)
    (hp : th.pointer x = some a) (ha : m a = some (.bufferData (some c) size allocated))
    (hc : m c ≠ none) :
    Stepped m ((m.set c none).set a (some (.bufferData none size allocated))) th
      (th.goto (.freeStruct x)) := by
  obtain ⟨-, hemptied, -, hstage⟩ := stage_cleanup x
  have hblock : th.held m (x, .block) = some c := by
    simp only [held, hp, Memory.blockOf_of ha]
  have hca : c ≠ a := by
    rintro rfl
    cases congrArg Prod.snd (h.alone (x, .struct) (x, .block) c hp hblock)
  have hlive : (m.set c none).Live a :=
    (Memory.live_congr (Memory.set_of_ne _ _ hca.symm)).mpr (Memory.live_of ha (by simp))
  apply h.stepped x
  · exact fun _ _ => rfl
  · intro y hy
    rw [pc_goto, hpc, (hstage y hy).1]
  · intro a' _ hstruct hblock'
    have ha' : a' ≠ a := fun he => hstruct (hp.trans (he ▸ rfl))
    rw [Memory.set_of_ne _ _ ha', Memory.set_of_ne]
    rintro rfl
    exact hblock' hblock
  · rw [pc_goto, hemptied, pointer_goto, hp]
    exact .emptied (Memory.set_self ..)
  · intro hheld
    refine .frees hblock (update_held hheld ?_ ?_) fun y => ?_
    · simp only [held, pointer_goto, hp, Memory.blockOf_of (Memory.set_self ..)]
    · intro part hpart
      cases part with
      | struct => rfl
      | block => exact absurd rfl hpart
    · rw [Memory.live_set_keep hlive (by simp), Memory.live_set_none]

theorem Ok.freeBuffer_null {a size allocated : ℕ} (h : th.Ok m) (hpc : th.pc = .freeBuffer x)
    (hp : th.pointer x = some a) (ha : m a = some (.bufferData none size allocated)) :
    Stepped m m th (th.goto (.freeStruct x)) := by
  obtain ⟨-, hemptied, -, hstage⟩ := stage_cleanup x
  apply h.stepped x
  · exact fun _ _ => rfl
  · intro y hy
    rw [pc_goto, hpc, (hstage y hy).1]
  · exact fun _ _ _ _ => rfl
  · rw [pc_goto, hemptied, pointer_goto, hp]
    exact .emptied ha
  · exact fun _ => .keeps rfl fun _ => Iff.rfl

theorem Ok.freeStruct {a : ℕ} (h : th.Ok m) (hpc : th.pc = .freeStruct x)
    (hp : th.pointer x = some a) :
    Stepped m (m.set a none) th ((th.setPointer x none).goto (afterFree x)) := by
  obtain ⟨-, hemptied, habsent, hstage⟩ := stage_cleanup x
  have hblock : m.blockOf (some a) = none := by
    have hfit := h.fits x
    rw [hpc, hemptied, hp] at hfit
    cases hfit with
    | emptied hcell => exact Memory.blockOf_of hcell
  apply h.stepped x
  · intro y hy
    exact th.pointer_setPointer_of_ne _ hy
  · intro y hy
    rw [pc_goto, hpc, (hstage y hy).2]
  · intro a' _ hstruct _
    exact Memory.set_of_ne _ _ fun he => hstruct (hp.trans (he ▸ rfl))
  · rw [pc_goto, habsent, pointer_goto, pointer_setPointer]
    exact .absent
  · intro hheld
    refine .frees (r := (x, .struct)) hp (update_held hheld ?_ ?_) fun y => Memory.live_set_none
    · exact th.pointer_setPointer x none
    · intro part hpart
      cases part with
      | struct => exact absurd rfl hpart
      | block =>
        simp only [held, pointer_goto, pointer_setPointer, hp, hblock, Memory.blockOf_none]

variable {w w' : Worker} {pc : WorkerPc} {ev : Event} {moved : Option ℕ}

theorem view_eq_some (h : th.view m pc = some w) : m.load (th.pointer .rb) = some w.rb ∧
    m.load (th.pointer .rbNew) = some w.rbNew ∧ w.data = th.data ∧
      w.keepLoopingThread = th.keepLoopingThread ∧ w.pc = pc := by
  obtain ⟨rb, hrb, h⟩ := Option.bind_eq_some_iff.mp h
  obtain ⟨rbNew, hnew, h⟩ := Option.bind_eq_some_iff.mp h
  cases h
  exact ⟨hrb, hnew, rfl, rfl, rfl⟩

theorem view_of_loads (th : HeapWorker) (pc : WorkerPc) {d dNew : BufferData}
    (hrb : m.load (th.pointer .rb) = some d) (hnew : m.load (th.pointer .rbNew) = some dNew) :
    th.view m pc = some ⟨th.data, th.keepLoopingThread, d, dNew, pc⟩ := by
  simp only [view, hrb, hnew]
  rfl

/-- A step of the loop is a step of the worker that the thread is. -/
theorem loopStep_cases (h : th.loopStep b m pc ev moved = some (m', th')) : ∃ w w',
    th.view m pc = some w ∧ w.step b ev = some w' ∧ ev ≠ .exitThread ∧ th' = th.follow w' ∧
      (((∀ size added, ev ≠ .realloc size (some added)) ∧
          m' = (m.store (th.pointer .rb) w'.rb).store (th.pointer .rbNew) w'.rbNew) ∨
        ∃ size added a, ev = .realloc size (some added) ∧
          m.moveBuffer (th.pointer .rb) a w'.rb = some m') := by
  obtain ⟨w, hview, hrest⟩ := Option.bind_eq_some_iff.mp h
  obtain ⟨w', hstep, hresult⟩ := Option.bind_eq_some_iff.mp hrest
  clear h hrest
  refine ⟨w, w', hview, hstep, ?_⟩
  split at hresult
  next => cases hresult
  next => cases hresult
  next size added a =>
    obtain ⟨m₁, hmove, hm₁⟩ := Option.map_eq_some_iff.mp hresult
    cases hm₁
    exact ⟨by simp, rfl, .inr ⟨size, added, a, rfl, hmove⟩⟩
  next hexit hrealloc =>
    cases hresult
    exact ⟨hexit, rfl, .inl ⟨fun size added he => hrealloc size added he, rfl⟩⟩
  next => cases hresult

theorem fits_of_loads (hrb : m'.load (th.pointer .rb) = some w.rb)
    (hnew : m'.load (th.pointer .rbNew) = some w.rbNew) (x : Buf) :
    Fits m' ((th.follow w).pc.stage x) ((th.follow w).pointer x) := by
  cases x with
  | rb => exact .full hrb
  | rbNew => exact .full hnew

/-- Both buffers are assigned, and neither assignment reaches the other. -/
theorem Ok.store_both (h : th.Ok m) {d dNew d' dNew' : BufferData}
    (hrb : m.load (th.pointer .rb) = some d) (hnew : m.load (th.pointer .rbNew) = some dNew)
    (hlen : d'.buffer.length = d.buffer.length)
    (hlenNew : dNew'.buffer.length = dNew.buffer.length)
    (hm' : m' = (m.store (th.pointer .rb) d').store (th.pointer .rbNew) dNew') :
    m'.load (th.pointer .rb) = some d' ∧ m'.load (th.pointer .rbNew) = some dNew' ∧
      th.held m' = th.held m ∧ (∀ a, m'.Live a ↔ m.Live a) ∧
      ∀ a, (∀ r, th.held m r ≠ some a) → m' a = m a := by
  obtain ⟨hload, hblock, hlive, hframe⟩ := Memory.store_spec hrb hlen
  generalize hm₁ : m.store (th.pointer .rb) d' = m₁ at hload hblock hlive hframe hm'
  have hnew₁ : m₁.load (th.pointer .rbNew) = some dNew := by
    rw [← hnew]
    apply Memory.load_congr
    intro a ha
    obtain ⟨-, hstruct, hpart⟩ := h.apart (show Buf.rbNew ≠ Buf.rb by decide) ha
    exact hframe a hstruct hpart
  have hblockNew₁ : m₁.blockOf (th.pointer .rbNew) = m.blockOf (th.pointer .rbNew) := by
    apply Memory.blockOf_congr
    intro a ha
    obtain ⟨-, hstruct, hpart⟩ := h.apart (show Buf.rbNew ≠ Buf.rb by decide) (.inl ha)
    exact hframe a hstruct hpart
  obtain ⟨hload', hblock', hlive', hframe'⟩ := Memory.store_spec hnew₁ hlenNew
  rw [← hm', hblockNew₁] at hframe'
  rw [← hm'] at hload' hblock' hlive'
  have hkept : ∀ a, th.pointer .rb = some a ∨ m.blockOf (th.pointer .rb) = some a →
      m' a = m₁ a := by
    intro a ha
    obtain ⟨-, hstruct, hpart⟩ := h.apart (show Buf.rb ≠ Buf.rbNew by decide) ha
    exact hframe' a hstruct hpart
  refine ⟨?_, hload', ?_, fun a => (hlive' a).trans (hlive a), fun a hfree => ?_⟩
  · rw [← hload]
    apply Memory.load_congr
    rw [hblock]
    exact hkept
  · funext ⟨x, part⟩
    cases part with
    | struct => rfl
    | block =>
      cases x with
      | rb => exact (Memory.blockOf_congr fun a ha => hkept a (.inl ha)).trans hblock
      | rbNew => exact hblock'.trans hblockNew₁
  · rw [hframe' a (hfree (.rbNew, .struct)) (hfree (.rbNew, .block)),
      hframe a (hfree (.rb, .struct)) (hfree (.rb, .block))]

theorem realloc_next {size : ℕ} {added : List Byte} (h : w.Next b (.realloc size (some added)) w') :
    w'.rbNew = w.rbNew ∧ w'.pc = w.pc ∧ w.pc = .growing := by
  cases h with
  | reallocs hpc => exact ⟨rfl, rfl, hpc⟩
  | sends hpc hsend =>
    cases hsend with
    | lock hm => unfold getFileMutex at hm; cases hm
    | unlockFails hm | unlocks hm | unlocksFailed hm => unfold releaseFileMutex at hm; cases hm

/-- The buffer behind `rb` moves: to a new block, or it is allocated for the first time. -/
theorem Ok.moveBuffer (h : th.Ok m) {d d' dNew : BufferData} {a : ℕ}
    (hrb : m.load (th.pointer .rb) = some d) (hnew : m.load (th.pointer .rbNew) = some dNew)
    (hmove : m.moveBuffer (th.pointer .rb) a d' = some m') :
    m'.load (th.pointer .rb) = some d' ∧ m'.load (th.pointer .rbNew) = some dNew ∧
      Effect m m' (th.held m) (th.held m') ∧
      ∀ a', m a' ≠ none → (∀ r, th.held m r ≠ some a') → m' a' = m a' := by
  obtain ⟨hload, hblock, hfresh, hlive, hframe⟩ := Memory.moveBuffer_spec hrb hmove
  have hnotLive : ∀ a', m a' ≠ none → m.blockOf (th.pointer .rb) ≠ some a' → a' ≠ a := by
    rintro a' hlive' hne rfl
    rcases hfresh with hnone | hold
    · exact hlive' hnone
    · exact hne hold
  have hkept : ∀ a', th.pointer .rbNew = some a' ∨ m.blockOf (th.pointer .rbNew) = some a' →
      m' a' = m a' := by
    intro a' ha'
    obtain ⟨hlive', hstruct, hpart⟩ := h.apart (show Buf.rbNew ≠ Buf.rb by decide) ha'
    exact hframe a' hstruct hpart (hnotLive a' hlive' hpart)
  have hheld : th.held m' = Function.update (th.held m) (.rb, .block) (some a) := by
    apply update_held
    · intro y part hy
      cases part with
      | struct => rfl
      | block =>
        cases y with
        | rb => exact absurd rfl hy
        | rbNew => exact Memory.blockOf_congr fun a' ha' => hkept a' (.inl ha')
    · exact hblock
    · intro part hpart
      cases part with
      | struct => rfl
      | block => exact absurd rfl hpart
  refine ⟨hload, (Memory.load_congr hkept).trans hnew, ?_, fun a' hlive' hfree => ?_⟩
  · cases hold : m.blockOf (th.pointer .rb) with
    | none =>
      rw [hold] at hfresh
      refine .allocs (r := (.rb, .block)) hold (hfresh.resolve_right (by simp)) hheld fun x => ?_
      rw [hlive, hold]
      simp
    | some old =>
      rw [hold] at hfresh
      refine .moves (r := (.rb, .block)) hold (hfresh.imp_right Option.some.inj) hheld fun x => ?_
      rw [hlive, hold]
      simp [eq_comm]
  · exact hframe a' (hfree (.rb, .struct)) (hfree (.rb, .block))
      (hnotLive a' hlive' (hfree (.rb, .block)))

theorem Ok.loopStep (h : th.Ok m) (hpc : th.pc = .run pc)
    (hstep : th.loopStep b m pc ev moved = some (m', th')) : Stepped m m' th th' ∧
      ∃ w w', th.view m pc = some w ∧ w.step b ev = some w' ∧ ev ≠ .exitThread ∧
        th' = th.follow w' ∧ th'.view m' w'.pc = some w' := by
  obtain ⟨w, w', hview, hw, hexit, rfl, hm'⟩ := loopStep_cases hstep
  obtain ⟨hrb, hnew, -, -, hwpc⟩ := view_eq_some hview
  have hn := Worker.step_next hw
  have hstart : w.pc ≠ .start := by
    rw [hwpc]
    rintro rfl
    exact h.started hpc
  have hboth : m'.load (th.pointer .rb) = some w'.rb ∧ m'.load (th.pointer .rbNew) = some w'.rbNew ∧
      Effect m m' (th.held m) (th.held m') ∧
      ∀ a, m a ≠ none → (∀ r, th.held m r ≠ some a) → m' a = m a := by
    rcases hm' with ⟨hrealloc, hm'⟩ | ⟨size, added, a, rfl, hmove⟩
    · obtain ⟨hlen, hlenNew⟩ := hn.lengths hstart hrealloc
      obtain ⟨hrb', hnew', hheld, hlive, hframe⟩ := h.store_both hrb hnew hlen hlenNew hm'
      exact ⟨hrb', hnew', .keeps hheld hlive, fun a _ => hframe a⟩
    · rw [(realloc_next hn).1]
      exact h.moveBuffer hrb hnew hmove
  obtain ⟨hrb', hnew', heffect, hframe⟩ := hboth
  exact ⟨⟨heffect, hframe, fits_of_loads hrb' hnew'⟩, w, w', hview, hw, hexit, rfl,
    view_of_loads _ _ hrb' hnew'⟩

inductive Moves (b : Build) (m : Memory) (th : HeapWorker) :
    HeapEvent → Memory → HeapWorker → Prop where
  | structFails {x : Buf} (hpc : th.pc = .mallocStruct x) :
      Moves b m th (.mallocStruct none) m ((th.setPointer x none).goto (afterMalloc x))
  | mallocsStruct {x : Buf} {a : ℕ} (hpc : th.pc = .mallocStruct x) (ha : m a = none) :
      Moves b m th (.mallocStruct (some a)) (m.set a (some .uninitialised))
        ((th.setPointer x (some a)).goto (afterMalloc x))
  | inits {a : ℕ} (hpc : th.pc = .initRb) (hp : th.pointer .rb = some a) :
      Moves b m th .compute (m.set a (some (.bufferData none 0 0)))
        (th.goto (.mallocStruct .rbNew))
  | bufferFails {a : ℕ} (hpc : th.pc = .mallocBuffer) (hp : th.pointer .rbNew = some a) :
      Moves b m th (.mallocBuffer none)
        (m.set a (some (.bufferData none 0 recvBufferTempSize))) (th.goto (.run .loop))
  | mallocsBuffer {a c : ℕ} {block : List Byte} (hpc : th.pc = .mallocBuffer)
      (hp : th.pointer .rbNew = some a) (hc : m c = none)
      (hlen : block.length = recvBufferTempSize) :
      Moves b m th (.mallocBuffer (some (c, block))) ((m.set c (some (.bytes block))).set a
        (some (.bufferData (some c) 0 recvBufferTempSize))) (th.goto (.run .loop))
  | loops {pc : WorkerPc} {ev : Event} {moved : Option ℕ} {m' : Memory} {th' : HeapWorker}
      (hpc : th.pc = .run pc) (h : th.loopStep b m pc ev moved = some (m', th')) :
      Moves b m th (.call ev moved) m' th'
  | leaves (hpc : th.pc = .run .loop) (hk : th.keepLoopingThread = false) :
      Moves b m th .compute m (th.goto (.freeBuffer .rb))
  | noStruct {x : Buf} (hpc : th.pc = .freeBuffer x) (hp : th.pointer x = none) :
      Moves b m th .compute m (th.goto (afterFree x))
  | noBuffer {x : Buf} {a size allocated : ℕ} (hpc : th.pc = .freeBuffer x)
      (hp : th.pointer x = some a) (ha : m a = some (.bufferData none size allocated)) :
      Moves b m th .compute m (th.goto (.freeStruct x))
  | freesBuffer {x : Buf} {a c size allocated : ℕ} (hpc : th.pc = .freeBuffer x)
      (hp : th.pointer x = some a) (ha : m a = some (.bufferData (some c) size allocated))
      (hc : m c ≠ none) :
      Moves b m th (.free c) ((m.set c none).set a (some (.bufferData none size allocated)))
        (th.goto (.freeStruct x))
  | freesStruct {x : Buf} {a : ℕ} (hpc : th.pc = .freeStruct x) (hp : th.pointer x = some a) :
      Moves b m th (.free a) (m.set a none) ((th.setPointer x none).goto (afterFree x))
  | returns (hpc : th.pc = .ret) : Moves b m th .exitThread m (th.goto .returned)

theorem step_moves (h : th.step b m e = some (m', th')) : Moves b m th e m' th' := by
  unfold step at h
  split at h
  next x hpc =>
    cases h
    exact .structFails hpc
  next x a hpc =>
    split at h
    next ha =>
      cases h
      exact .mallocsStruct hpc ha
    next => cases h
  next hpc =>
    split at h
    next => cases h
    next a hp =>
      split at h
      next => cases h
      next =>
        cases h
        exact .inits hpc hp
  next got hpc =>
    split at h
    next => cases h
    next a hp =>
      split at h
      next => cases h
      next =>
        split at h
        next =>
          cases h
          exact .bufferFails hpc hp
        next c block =>
          split at h
          next hargs =>
            cases h
            exact .mallocsBuffer hpc hp hargs.1 hargs.2
          next => cases h
  next pc ev moved hpc => exact .loops hpc h
  next pc hpc =>
    split at h
    next hargs =>
      cases h
      exact .leaves (hargs.1 ▸ hpc) hargs.2
    next => cases h
  next x ev hpc =>
    split at h
    next hp =>
      split at h
      next he =>
        cases h
        subst he
        exact .noStruct hpc hp
      next => cases h
    next a hp =>
      split at h
      next size allocated ha =>
        split at h
        next he =>
          cases h
          subst he
          exact .noBuffer hpc hp ha
        next => cases h
      next c size allocated ha =>
        split at h
        next hargs =>
          cases h
          obtain ⟨he, hc⟩ := hargs
          subst he
          exact .freesBuffer hpc hp ha hc
        next => cases h
      next => cases h
  next x a hpc =>
    split at h
    next hargs =>
      cases h
      exact .freesStruct hpc hargs.1
    next => cases h
  next hpc =>
    cases h
    exact .returns hpc
  next => cases h

theorem Moves.stepped (h : th.Ok m) (hm : Moves b m th e m' th') : Stepped m m' th th' := by
  cases hm with
  | structFails hpc => exact h.mallocStruct_fails hpc
  | mallocsStruct hpc ha => exact h.mallocStruct hpc ha
  | inits hpc hp =>
    refine h.inits (by rw [hpc]; rfl) hp rfl fun y hy => ?_
    rw [hpc]
    cases y with
    | rb => exact absurd rfl hy
    | rbNew => rfl
  | bufferFails hpc hp =>
    refine h.inits (by rw [hpc]; rfl) hp rfl fun y hy => ?_
    rw [hpc]
    cases y with
    | rb => rfl
    | rbNew => exact absurd rfl hy
  | mallocsBuffer hpc hp hc =>
    refine h.mallocBuffer (by rw [hpc]; rfl) hp hc rfl fun y hy => ?_
    rw [hpc]
    cases y with
    | rb => rfl
    | rbNew => exact absurd rfl hy
  | loops hpc hl => exact (h.loopStep hpc hl).1
  | leaves hpc => exact h.keeps fun x => by rw [hpc]; rfl
  | returns hpc => exact h.keeps fun x => by rw [hpc]; rfl
  | @noStruct x hpc hp =>
    have hfit := h.fits x
    rw [hpc, (stage_cleanup x).1, hp] at hfit
    cases hfit with
    | full hload => cases hload
  | noBuffer hpc hp ha => exact h.freeBuffer_null hpc hp ha
  | freesBuffer hpc hp ha hc => exact h.freeBuffer hpc hp ha hc
  | freesStruct hpc hp => exact h.freeStruct hpc hp

theorem Moves.started (hm : Moves b m th e m' th') : th'.pc ≠ .run .start := by
  cases hm with
  | @structFails x | @mallocsStruct x => cases x <;> simp [afterMalloc]
  | @noStruct x | @freesStruct x => cases x <;> simp [afterFree]
  | inits | bufferFails | mallocsBuffer | leaves | noBuffer | freesBuffer | returns => simp
  | loops hpc hl =>
    obtain ⟨w, w', -, hw, -, rfl, -⟩ := loopStep_cases hl
    have hne : w'.pc ≠ .start := (Worker.step_next hw).not_start
    simpa [follow] using hne

end HeapWorker

end Aesd.Server
