import Aesd.Server.MainLoop

/-! What one step of the main thread can be. -/
namespace Aesd.Server
open Driver (Byte)

/-- The steps of `write_time_stamp` from a given place on. -/
inductive Stamps (b : Build) : StampPc → Event → Option StampPc → Prop where
  | formatFails (tm : Tm) : Stamps b .localtime (.localtime tm) (some (.ret (-1)))
  | formats (tm : Tm) : Stamps b .localtime (.localtime tm) (some (.lock (timeStamp tm)))
  | lock {text : List Byte} {e : Event} {rc : ℤ} (h : getFileMutex b e = some rc) :
      Stamps b (.lock text) e (some (if rc = -1 then .ret (-1) else .openFile text))
  | openFails (text : List Byte) :
      Stamps b (.openFile text) (.openFile none) (some .unlockFail)
  | opens (text : List Byte) (fd : Fd) :
      Stamps b (.openFile text) (.openFile (some fd)) (some (.write fd text))
  | writes (fd : Fd) (text : List Byte) (written : Option ℕ) :
      Stamps b (.write fd text) (.write fd text written)
        (some (if writeToFile text.length written = -1 then .closeFail fd else .closeOk fd))
  | closes (fd : Fd) (ok : Bool) : Stamps b (.closeOk fd) (.close fd ok)
      (some (if ok then .unlockOk else .unlockFail))
  | unlocks {e : Event} {rc : ℤ} (h : releaseFileMutex b e = some rc) :
      Stamps b .unlockOk e (some (.ret (if rc = -1 then -1 else 0)))
  | closesFailed (fd : Fd) (ok : Bool) : Stamps b (.closeFail fd) (.close fd ok)
      (some .unlockFail)
  | unlocksFailed {e : Event} {rc : ℤ} (h : releaseFileMutex b e = some rc) :
      Stamps b .unlockFail e (some (.ret (-1)))
  | returns (r : ℤ) : Stamps b (.ret r) (.returns r) none

inductive Main.Next (b : Build) (m : Main) : Event → Main → Prop where
  | starts (hpc : m.pc = .start) (sec : ℕ) :
      m.Next b (.clockGettime sec) ({ m with nextTimestamp := sec + 10 }.goto .loop)
  | ticks (hpc : m.pc = .loop) (hk : m.keepLooping = true) (sec next : ℕ) :
      m.Next b (.clockGettime sec) ({ m with nextTimestamp := next }.goto .branch)
  | stampDue (hpc : m.pc = .loop) (hk : m.keepLooping = true) (hb : b.disableTimestamp = false)
      (sec : ℕ) : m.Next b (.clockGettime sec)
        ({ m with nextTimestamp := sec + 10 }.goto (.stamp .localtime))
  | finishes (hpc : m.pc = .loop) (hk : m.keepLooping = false) :
      m.Next b .compute (m.goto .returned)
  | stamps {pc pc' : StampPc} {e : Event} (hpc : m.pc = .stamp pc)
      (h : Stamps b pc e (some pc')) : m.Next b e (m.goto (.stamp pc'))
  | stamped {pc : StampPc} {e : Event} (hpc : m.pc = .stamp pc) (h : Stamps b pc e none) :
      m.Next b e (m.goto .branch)
  | toJoin (hpc : m.pc = .branch) (hs : m.currentState = .waiting) :
      m.Next b .compute (m.goto (.joining m.linkedList))
  | toCreate (hpc : m.pc = .branch) (hs : m.currentState = .creatingThread) :
      m.Next b .compute (m.goto .mallocItem)
  | skips (hpc : m.pc = .branch) (hw : m.currentState ≠ .waiting)
      (hc : m.currentState ≠ .creatingThread) : m.Next b .compute (m.goto .loop)
  | joinsDone (hpc : m.pc = .joining []) : m.Next b .compute (m.goto .closedTest)
  | joinsNot {item : Item} {rest : List Item} (hpc : m.pc = .joining (item :: rest)) :
      m.Next b (.tryJoin item.threadId none) (m.goto (.joining rest))
  | joins {item : Item} {rest : List Item} (hpc : m.pc = .joining (item :: rest)) (data : ℕ)
      (fd : Fd) : m.Next b (.tryJoin item.threadId (some (data, fd)))
        (m.goto (.joinClose item data fd rest))
  | joinCloses {item : Item} {data : ℕ} {fd : Fd} {rest : List Item}
      (hpc : m.pc = .joinClose item data fd rest) (ok : Bool) : m.Next b (.close fd ok)
        ({ m with linkedList := m.linkedList.erase item }.goto (.joinFreeItem item data rest))
  | freesItem {item : Item} {data : ℕ} {rest : List Item}
      (hpc : m.pc = .joinFreeItem item data rest) :
      m.Next b (.free item.addr) (m.goto (.joinFreeData data rest))
  | freesData {data : ℕ} {rest : List Item} (hpc : m.pc = .joinFreeData data rest) :
      m.Next b (.free data) (m.goto (.joining rest))
  | listEmpty (hpc : m.pc = .closedTest) (hl : m.linkedList = []) (caught : Bool) :
      m.Next b (.loadSignal caught)
        ({ m with keepLooping := m.keepLooping && !caught }.goto .acceptTest)
  | listNotEmpty (hpc : m.pc = .closedTest) (hl : m.linkedList ≠ []) :
      m.Next b .compute (m.goto .acceptTest)
  | caught (hpc : m.pc = .acceptTest) : m.Next b (.loadSignal true) (m.goto .loop)
  | notCaught (hpc : m.pc = .acceptTest) : m.Next b (.loadSignal false) (m.goto .accept)
  | acceptFails (hpc : m.pc = .accept) :
      m.Next b (.accept none) ({ m with clientFd := none }.goto .loop)
  | accepts (hpc : m.pc = .accept) (fd : Fd) (c : ℕ) : m.Next b (.accept (some (fd, c)))
      ({ m with clientFd := some fd, currentState := .creatingThread }.goto .loop)
  | mallocFails (hpc : m.pc = .mallocItem ∨ ∃ item, m.pc = .mallocData item) :
      m.Next b (.malloc none) ({ m with currentState := .waiting }.goto .loop)
  | mallocsItem (hpc : m.pc = .mallocItem) (item : ℕ) :
      m.Next b (.malloc (some item)) (m.goto (.mallocData item))
  | mallocsData {item : ℕ} (hpc : m.pc = .mallocData item) (data : ℕ) :
      m.Next b (.malloc (some data)) (m.goto (.pthreadCreate item data))
  | createFails {item data : ℕ} (hpc : m.pc = .pthreadCreate item data) :
      m.Next b (.pthreadCreate none) ({ m with currentState := .waiting }.goto .loop)
  | creates {item data : ℕ} (hpc : m.pc = .pthreadCreate item data) (i : ℕ) :
      m.Next b (.pthreadCreate (some i))
        ({ m with linkedList := ⟨item, i⟩ :: m.linkedList, currentState := .waiting }.goto .loop)

theorem writeTimeStamp_stamps {b : Build} {pc : StampPc} {e : Event} {next : Option StampPc}
    (h : writeTimeStamp b pc e = some next) : Stamps b pc e next := by
  unfold writeTimeStamp at h
  split at h
  next tm =>
    unfold strftime at h
    split at h
    next hnone =>
      cases h
      exact .formatFails tm
    next text hsome =>
      cases h
      split at hsome <;> cases hsome
      exact .formats tm
  next =>
    obtain ⟨rc, hm, rfl⟩ := Option.map_eq_some_iff.mp h
    exact .lock hm
  next =>
    split at h <;> cases h
    · exact .openFails _
    · exact .opens _ _
  next =>
    split at h
    next hargs =>
      obtain ⟨rfl, rfl⟩ := hargs
      cases h
      exact .writes ..
    next => cases h
  next =>
    split at h
    next hfd =>
      subst hfd
      cases h
      exact .closes ..
    next => cases h
  next =>
    obtain ⟨rc, hm, rfl⟩ := Option.map_eq_some_iff.mp h
    exact .unlocks hm
  next =>
    split at h
    next hfd =>
      subst hfd
      cases h
      exact .closesFailed ..
    next => cases h
  next =>
    obtain ⟨rc, hm, rfl⟩ := Option.map_eq_some_iff.mp h
    exact .unlocksFailed hm
  next =>
    split at h
    next hr =>
      subst hr
      cases h
      exact .returns _
    next => cases h
  next => cases h

namespace Main

variable {b : Build} {m m' : Main} {e : Event}

theorem joinThreads_next (h : m.joinThreads e = some m') : m.Next b e m' := by
  unfold joinThreads at h
  split at h
  next =>
    split at h
    next hpc =>
      cases h
      exact .joinsDone hpc
    next => cases h
  next =>
    split at h
    next hpc =>
      split at h
      next hthread =>
        subst hthread
        split at h <;> cases h
        · exact .joinsNot hpc
        · exact .joins hpc _ _
      next => cases h
    next => cases h
  next =>
    split at h
    next hpc =>
      split at h
      next hfd =>
        subst hfd
        cases h
        exact .joinCloses hpc _
      next => cases h
    next => cases h
  next =>
    split at h
    next hpc =>
      split at h
      next haddr =>
        subst haddr
        cases h
        exact .freesItem hpc
      next => cases h
    next hpc =>
      split at h
      next haddr =>
        subst haddr
        cases h
        exact .freesData hpc
      next => cases h
    next => cases h
  next => cases h

theorem createThread_next (h : m.createThread e = some m') : m.Next b e m' := by
  unfold createThread at h
  split at h
  next =>
    split at h
    next hpc =>
      split at h <;> cases h
      · exact .mallocFails (.inl hpc)
      · exact .mallocsItem hpc _
    next hpc =>
      split at h <;> cases h
      · exact .mallocFails (.inr ⟨_, hpc⟩)
      · exact .mallocsData hpc _
    next => cases h
  next =>
    split at h
    next hpc =>
      split at h <;> cases h
      · exact .createFails hpc
      · exact .creates hpc _
    next => cases h
  next => cases h

theorem checkForClientConnection_next (hpc : m.pc = .accept)
    (h : m.checkForClientConnection e = some m') : m.Next b e m' := by
  unfold checkForClientConnection at h
  split at h
  next =>
    cases h
    exact .acceptFails hpc
  next =>
    cases h
    exact .accepts hpc _ _
  next => cases h

theorem step_next (h : m.step b e = some m') : m.Next b e m' := by
  unfold step at h
  split at h
  next hpc =>
    split at h
    next =>
      cases h
      exact .starts hpc _
    next => cases h
  next hpc =>
    split at h
    next hk =>
      split at h
      next =>
        split at h
        next =>
          cases h
          split
          next hb => exact .ticks hpc hk _ _
          next hb => exact .stampDue hpc hk (Bool.eq_false_iff.mpr hb) _
        next =>
          cases h
          exact .ticks hpc hk _ _
      next => cases h
    next hk =>
      split at h
      next he =>
        subst he
        cases h
        exact .finishes hpc (Bool.eq_false_iff.mpr hk)
      next => cases h
  next hpc =>
    obtain ⟨next, hstamp, rfl⟩ := Option.map_eq_some_iff.mp h
    cases next with
    | none => exact .stamped hpc (writeTimeStamp_stamps hstamp)
    | some pc' => exact .stamps hpc (writeTimeStamp_stamps hstamp)
  next hpc =>
    split at h
    next he =>
      subst he
      split at h <;> cases h
      next hs => exact .toJoin hpc hs
      next hs => exact .toCreate hpc hs
      next hw hc => exact .skips hpc hw hc
    next => cases h
  next hpc =>
    split at h
    next hl =>
      split at h
      next =>
        cases h
        exact .listEmpty hpc hl _
      next => cases h
    next hl =>
      split at h
      next he =>
        subst he
        cases h
        exact .listNotEmpty hpc hl
      next => cases h
  next hpc =>
    split at h
    next caught =>
      cases h
      cases caught with
      | true => exact .caught hpc
      | false => exact .notCaught hpc
    next => cases h
  next hpc => exact checkForClientConnection_next hpc h
  next => exact createThread_next h
  next => exact createThread_next h
  next => exact createThread_next h
  next => cases h
  next => exact joinThreads_next h

end Main

end Aesd.Server
