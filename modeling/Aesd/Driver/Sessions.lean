import Aesd.Driver.CallSections
import Aesd.Driver.Cleanup

/-! The module loaded and unloaded any number of times. What an earlier load has leaked stays
allocated and changes nothing else: every session is a run of a freshly loaded driver. -/
namespace Aesd.Driver
open Blocks Runs AesdCircularBuffer

variable {w limit : ℕ}

section
variable {s s' : DriverState w} {rest : Heap Byte}

theorem commitEntry_frame {freed freed' : List ℕ} (hd : s.heap.Apart rest)
    (h : commitEntry s freed = some (s', freed')) :
    commitEntry (s.extend rest) freed = some (s'.extend rest, freed') ∧ s'.heap.Apart rest := by
  obtain ⟨last, hlast, h⟩ := Option.bind_eq_some_iff.mp h
  have hlast' := load_frame hlast rest
  split at h
  next hend =>
    obtain ⟨⟨heap, freedEntry⟩, hfree, h⟩ := Option.bind_eq_some_iff.mp h
    obtain ⟨rfl, rfl⟩ := Prod.mk.inj (Option.some.inj h)
    obtain ⟨hfree', hd'⟩ := freeUnlessNull_frame hd hfree
    refine ⟨Option.bind_eq_some_iff.mpr ⟨last, hlast', ?_⟩, hd'⟩
    rw [if_pos hend]
    exact Option.bind_eq_some_iff.mpr ⟨_, hfree', rfl⟩
  next hend =>
    obtain ⟨rfl, rfl⟩ := Prod.mk.inj (Option.some.inj h)
    refine ⟨Option.bind_eq_some_iff.mpr ⟨last, hlast', ?_⟩, hd⟩
    rw [if_neg hend]

theorem aesdWrite_frame {env : WriteEnv} {buf : List Byte} {count : BitVec w} {r : WriteResult w}
    (hd : s.heap.Apart rest)
    (hfresh : ∀ a block, env.kmalloc = some (a, block) → s.heap.union rest a = none)
    (h : aesdWrite s env buf count = some r) :
    aesdWrite (s.extend rest) env buf count = some ⟨r.returned, r.state.extend rest, r.freed⟩ ∧
      r.state.heap.Apart rest := by
  unfold aesdWrite at h ⊢
  split at h
  next hget =>
    obtain rfl := Option.some.inj h
    exact ⟨if_pos hget, hd⟩
  next hget =>
    rw [if_neg hget]
    cases hk : env.kmalloc with
    | none =>
      rw [hk] at h
      obtain rfl := Option.some.inj h
      exact ⟨rfl, hd⟩
    | some got =>
      obtain ⟨a, block⟩ := got
      rw [hk] at h
      obtain ⟨halloc, hd₁⟩ := Heap.alloc_union hd (hfresh a block hk) block
      obtain ⟨heap₁, hcopy, h⟩ := Option.bind_eq_some_iff.mp h
      obtain ⟨heap₂, hstore, h⟩ := Option.bind_eq_some_iff.mp h
      obtain ⟨hcopy', hd₂⟩ := copyOldBuffer_frame hd₁ hcopy
      obtain ⟨hstore', hd₃⟩ := Heap.store_union hd₂ hstore
      rw [← halloc] at hcopy'
      split at h
      next hfault =>
        obtain ⟨heap₃, hfree, h⟩ := Option.bind_eq_some_iff.mp h
        obtain rfl := Option.some.inj h
        obtain ⟨hfree', hd₄⟩ := Heap.free_union hd₃ hfree
        refine ⟨Option.bind_eq_some_iff.mpr ⟨_, hcopy', Option.bind_eq_some_iff.mpr
          ⟨_, hstore', ?_⟩⟩, hd₄⟩
        rw [if_pos hfault]
        exact Option.bind_eq_some_iff.mpr ⟨_, hfree', rfl⟩
      next hcopied =>
        obtain ⟨⟨heap₃, freed⟩, hfree, h⟩ := Option.bind_eq_some_iff.mp h
        obtain ⟨⟨s₁, freed'⟩, hcommit, h⟩ := Option.bind_eq_some_iff.mp h
        obtain rfl := Option.some.inj h
        obtain ⟨hfree', hd₄⟩ := freeUnlessNull_frame hd₃ hfree
        obtain ⟨hcommit', hd₅⟩ := commitEntry_frame hd₄ hcommit
        refine ⟨Option.bind_eq_some_iff.mpr ⟨_, hcopy', Option.bind_eq_some_iff.mpr
          ⟨_, hstore', ?_⟩⟩, hd₅⟩
        rw [if_neg hcopied]
        exact Option.bind_eq_some_iff.mpr ⟨_, hfree', Option.bind_eq_some_iff.mpr
          ⟨_, hcommit', rfl⟩⟩

theorem aesdReadLoop_frame {env : ReadEnv} {count : BitVec w} {fPos : BitVec 64} {fuel : ℕ}
    {bytesRead charReturned : BitVec w} {buf : List Byte}
    {done : Option (BitVec w) × List Byte}
    (h : aesdReadLoop s env count fPos fuel bytesRead charReturned buf = some done) :
    aesdReadLoop (s.extend rest) env count fPos fuel bytesRead charReturned buf = some done := by
  induction fuel generalizing bytesRead charReturned buf with
  | zero => cases h
  | succ fuel ih =>
    unfold aesdReadLoop at h ⊢
    split at h
    next hlt =>
      rw [if_pos hlt]
      split at h
      next hfind =>
        have hfind' : aesdCircularBufferFindEntryOffsetForFpos (s.extend rest).device.buffer
          (searchOffset fPos bytesRead) charReturned = _ := hfind
        rw [hfind']
        exact h
      next index charReturned' hfind =>
        have hfind' : aesdCircularBufferFindEntryOffsetForFpos (s.extend rest).device.buffer
          (searchOffset fPos bytesRead) charReturned = _ := hfind
        rw [hfind']
        obtain ⟨bytes, hload, h⟩ := Option.bind_eq_some_iff.mp h
        refine Option.bind_eq_some_iff.mpr ⟨bytes, load_frame hload rest, ?_⟩
        dsimp only at h ⊢
        split at h
        next hfault =>
          rw [if_pos hfault]
          exact h
        next hcopied =>
          rw [if_neg hcopied]
          exact ih h
    next hlt =>
      rw [if_neg hlt]
      exact h

theorem aesdRead_frame {env : ReadEnv} {buf : List Byte} {count : BitVec w} {fPos : BitVec 64}
    {r : ReadResult w} (hd : s.heap.Apart rest) (h : aesdRead s env buf count fPos = some r) :
    aesdRead (s.extend rest) env buf count fPos =
      some ⟨r.returned, r.state.extend rest, r.fPos, r.buf⟩ ∧ r.state.heap.Apart rest := by
  unfold aesdRead at h ⊢
  split at h
  next hget =>
    obtain rfl := Option.some.inj h
    exact ⟨if_pos hget, hd⟩
  next hget =>
    rw [if_neg hget]
    obtain ⟨⟨done, buf'⟩, hloop, h⟩ := Option.bind_eq_some_iff.mp h
    have hloop' : aesdReadLoop (s.extend rest).lock env count fPos (count.toNat + 1) 0 0 buf =
      some (done, buf') := aesdReadLoop_frame hloop
    cases done with
    | none =>
      obtain rfl := Option.some.inj h
      exact ⟨Option.bind_eq_some_iff.mpr ⟨_, hloop', rfl⟩, hd⟩
    | some bytesRead =>
      obtain rfl := Option.some.inj h
      exact ⟨Option.bind_eq_some_iff.mpr ⟨_, hloop', rfl⟩, hd⟩

end

def System.extend (s : System w) (rest : Heap Byte) : System w :=
  { s with driver := s.driver.extend rest }

theorem call_frame {s s' : System w} {rest : Heap Byte} {call : Call} {ret : ℤ}
    (hd : s.driver.heap.Apart rest) (hallowed : call.Allowed limit (s.extend rest))
    (h : s.call call = some (ret, s')) :
    (s.extend rest).call call = some (ret, s'.extend rest) ∧ s'.driver.heap.Apart rest := by
  cases call with
  | «open» handle =>
    obtain ⟨rfl, rfl⟩ := Prod.mk.inj (Option.some.inj h)
    exact ⟨rfl, hd⟩
  | write handle env buf =>
    obtain ⟨r, hr, h⟩ := Option.map_eq_some_iff.mp h
    obtain ⟨rfl, rfl⟩ := Prod.mk.inj h
    have hfresh : ∀ a block, env.kmalloc = some (a, block) → s.driver.heap.union rest a = none :=
      fun a block hk => (hallowed.2.2.kmalloc a block hk).1
    obtain ⟨hr', hd'⟩ := aesdWrite_frame hd hfresh hr
    exact ⟨congrArg (Option.map _) hr', hd'⟩
  | read handle env buf =>
    obtain ⟨r, hr, h⟩ := Option.map_eq_some_iff.mp h
    obtain ⟨rfl, rfl⟩ := Prod.mk.inj h
    obtain ⟨hr', hd'⟩ := aesdRead_frame hd hr
    exact ⟨congrArg (Option.map _) hr', hd'⟩
  | pread fPos env buf =>
    obtain ⟨r, hr, h⟩ := Option.map_eq_some_iff.mp h
    obtain ⟨rfl, rfl⟩ := Prod.mk.inj h
    obtain ⟨hr', hd'⟩ := aesdRead_frame hd hr
    exact ⟨congrArg (Option.map _) hr', hd'⟩

theorem Call.Allowed.alone {s : System w} {rest : Heap Byte} {call : Call}
    (h : call.Allowed limit (s.extend rest)) : call.Allowed limit s := by
  cases call with
  | write handle env buf =>
    obtain ⟨hpos, hmax, henv⟩ := h
    refine ⟨hpos, hmax, ?_, henv.copied⟩
    intro a block hk
    obtain ⟨hfresh, hblock⟩ := henv.kmalloc a block hk
    exact ⟨(Heap.union_eq_none.mp hfresh).1, hblock⟩
  | _ => exact h

theorem cleanupLoop_frame {fuel : ℕ} {buffer buffer' : AesdCircularBuffer w}
    {heap heap' rest : Heap Byte} {freed freed' : List ℕ} (hd : heap.Apart rest)
    (h : cleanupLoop fuel buffer heap freed = some (buffer', heap', freed')) :
    cleanupLoop fuel buffer (heap.union rest) freed = some (buffer', heap'.union rest, freed') ∧
      heap'.Apart rest := by
  induction fuel generalizing buffer heap freed with
  | zero => cases h
  | succ fuel ih =>
    unfold cleanupLoop at h ⊢
    split at h
    next hempty =>
      rw [if_pos hempty]
      obtain ⟨rfl, rfl, rfl⟩ : buffer = buffer' ∧ heap = heap' ∧ freed = freed' := by simpa using h
      exact ⟨rfl, hd⟩
    next hempty =>
      rw [if_neg hempty]
      split at h
      next hremove =>
        obtain ⟨rfl, rfl, rfl⟩ : _ = buffer' ∧ heap = heap' ∧ freed = freed' := by simpa using h
        exact ⟨rfl, hd⟩
      next hremove =>
        obtain ⟨⟨heap₁, freedEntry⟩, hfree, h⟩ := Option.bind_eq_some_iff.mp h
        obtain ⟨hfree', hd₁⟩ := freeUnlessNull_frame hd hfree
        obtain ⟨hloop, hd'⟩ := ih hd₁ h
        exact ⟨Option.bind_eq_some_iff.mpr ⟨_, hfree', hloop⟩, hd'⟩

theorem cleanup_frame {s : DriverState w} {rest : Heap Byte} {r : CleanupResult w}
    (hd : s.heap.Apart rest) (h : aesdCleanupModule s = some r) :
    aesdCleanupModule (s.extend rest) = some ⟨r.state.extend rest, r.freed⟩ ∧
      r.state.heap.Apart rest := by
  obtain ⟨⟨buffer, heap, freed⟩, hloop, h⟩ := Option.bind_eq_some_iff.mp h
  obtain ⟨⟨heap', freedTemp⟩, hfree, h⟩ := Option.bind_eq_some_iff.mp h
  obtain rfl := Option.some.inj h
  obtain ⟨hloop', hd₁⟩ := cleanupLoop_frame hd hloop
  obtain ⟨hfree', hd₂⟩ := freeUnlessNull_frame hd₁ hfree
  exact ⟨Option.bind_eq_some_iff.mpr ⟨_, hloop', Option.bind_eq_some_iff.mpr ⟨_, hfree', rfl⟩⟩, hd₂⟩

/-- The module's memory, and whether it is loaded. -/
structure Module (w : ℕ) where
  system : System w
  loaded : Bool

/-- `insmod` with what its global device holds before, what the kernel answers and what it returns;
a call; `rmmod`. -/
inductive SessionLabel (w : ℕ) where
  | insmod (device : AesdDev w) (allocChrdevRegion cdevAdd returned : ℤ)
  | call (l : CallLabel)
  | rmmod

def Module.start (device : AesdDev w) (fPos : ℕ → BitVec 64) : Module w :=
  ⟨⟨unloaded device, fPos⟩, false⟩

/-- The module is loaded when `aesd_init_module` returns 0, and unloaded with no call under way. -/
def ModuleStep (limit : ℕ) (m : Module w) (l : SessionLabel w) (m' : Module w) : Prop :=
  match l with
  | .insmod device allocChrdevRegion cdevAdd returned => m.loaded = false ∧
      aesdInitModule { m.system.driver with device := device } allocChrdevRegion cdevAdd =
        (returned, m'.system.driver) ∧
      m'.system.fPos = m.system.fPos ∧ m'.loaded = decide (returned = 0)
  | .call l => m.loaded = true ∧ CallStep limit m.system l m'.system ∧ m'.loaded = true
  | .rmmod => m.loaded = true ∧ (∃ r, aesdCleanupModule m.system.driver = some r ∧
      m'.system = { m.system with driver := r.state }) ∧ m'.loaded = false

/-- The calls of the sessions that ended, and those of the session under way. -/
structure Sessions where
  ended : List (List CallLabel)
  current : Option (List CallLabel)

def Sessions.next (h : Sessions) : SessionLabel w → Sessions
  | .insmod _ _ _ returned => if returned = 0 then { h with current := some [] } else h
  | .call l => { h with current := h.current.map (· ++ [l]) }
  | .rmmod => ⟨h.ended ++ h.current.toList, none⟩

def sessionsOf (tr : List (SessionLabel w)) : Sessions := tr.foldl Sessions.next ⟨[], none⟩

/-- The commands that are committed when the sessions end. -/
def leakedBy (ended : List (List CallLabel)) : List (List Byte) :=
  ended.flatMap fun calls => (deviceAfter calls).committed

/-- The calls are a run of a driver loaded into an empty kernel, which ends in `s`. -/
def FreshRun (limit : ℕ) (calls : List CallLabel) (s : System w) : Prop :=
  ∃ fPos, Run (CallStep limit) ⟨loaded w, fPos⟩ calls s

section
variable {calls : List CallLabel} {s : System w} {d : Device}

theorem FreshRun.represents (hw : 32 ≤ w) (hlimit : limit < 2 ^ 31)
    (h : FreshRun limit calls s) : Represents limit s (deviceAfter calls) := by
  obtain ⟨fPos, hrun⟩ := h
  have hstart : Represents limit (⟨loaded w, fPos⟩ : System w) .empty := ⟨rfl, [], rep_loaded limit⟩
  exact run_represents hw hlimit hstart (hrun.mono fun _ _ _ => CallStep.passed)

theorem insmod_heap {s s' : DriverState w} {region cdevAdd returned : ℤ}
    (h : aesdInitModule s region cdevAdd = (returned, s')) : s'.heap = s.heap := by
  unfold aesdInitModule at h
  split at h
  next => rw [← (Prod.mk.inj h).2]
  next =>
    split at h
    · rw [← (Prod.mk.inj h).2]
    · rw [← (Prod.mk.inj h).2]

/-- When `aesd_init_module` succeeds the driver is a freshly loaded one beside what was live. -/
theorem insmod_ok {s s' : DriverState w} {region cdevAdd : ℤ}
    (h : aesdInitModule s region cdevAdd = (0, s')) : s' = (loaded w).extend s.heap := by
  unfold aesdInitModule at h
  split at h
  next hneg =>
    have hzero : region = 0 := (Prod.mk.inj h).1
    omega
  next =>
    split at h
    next hcdev => exact absurd (Prod.mk.inj h).1 hcdev
    next =>
      rw [← (Prod.mk.inj h).2, DriverState.extend, loaded, Heap.empty_union]
      rfl

/-- Where a session is: between two of them only what was leaked is live, and in one the driver is
that of a fresh run beside what was leaked. -/
inductive SessionAt (limit : ℕ) (m : Module w) (leaked : List (ℕ × List Byte)) :
    Option (List CallLabel) → Prop where
  | out (hloaded : m.loaded = false) (hleaked : m.system.driver.heap.Consists leaked) :
      SessionAt limit m leaked none
  | within {calls : List CallLabel} {s : System w} {rest : Heap Byte} (hloaded : m.loaded = true)
      (hsystem : m.system = s.extend rest) (hd : s.driver.heap.Apart rest)
      (hfresh : FreshRun limit calls s) (hleaked : rest.Consists leaked) :
      SessionAt limit m leaked (some calls)

/-- What holds of the module after the sessions `h`, which have left the blocks `leaked`. -/
structure SessionsOk (limit : ℕ) (m : Module w) (h : Sessions) (leaked : List (ℕ × List Byte)) :
    Prop where
  ended : ∀ calls ∈ h.ended, ∃ s : System w, FreshRun limit calls s
  contents : leaked.map Prod.snd = leakedBy h.ended
  now : SessionAt limit m leaked h.current

theorem leakedBy_append (ended : List (List CallLabel)) (calls : List CallLabel) :
    leakedBy (ended ++ [calls]) = leakedBy ended ++ (deviceAfter calls).committed := by
  rw [leakedBy, List.flatMap_append, List.flatMap_singleton, leakedBy]

theorem forall₂_backs_blocks {heap : Heap Byte} {stored : List (AesdBufferEntry w)}
    {ks : List (List Byte)} (h : List.Forall₂ (Backs heap) stored ks) :
    ∃ blocks : List (ℕ × List Byte), blocks.map Prod.fst = stored.filterMap (·.buffptr) ∧
      blocks.map Prod.snd = ks ∧ ∀ p ∈ blocks, heap p.1 = some p.2 := by
  induction h with
  | nil => exact ⟨[], rfl, rfl, by simp⟩
  | @cons e k stored ks he _ ih =>
    obtain ⟨a, ha, hlive, -⟩ := he
    obtain ⟨blocks, hptrs, hks, hblocks⟩ := ih
    refine ⟨(a, k) :: blocks, ?_, ?_, ?_⟩
    · rw [List.filterMap_cons_some ha, List.map_cons, hptrs]
    · rw [List.map_cons, hks]
    · exact List.forall_mem_cons.mpr ⟨hlive, hblocks⟩

/-- What an unload leaves is a block for each committed command, with its bytes. -/
theorem Rep.leaves {s : DriverState w} {stored : List (AesdBufferEntry w)} {d : Device}
    (h : Rep limit s stored d) : ∃ r blocks, aesdCleanupModule s = some r ∧
      r.state.heap.Consists blocks ∧ blocks.map Prod.snd = d.committed := by
  obtain ⟨heap, hclean, howns, hsame⟩ := h.cleanup
  obtain ⟨blocks, hptrs, hks, hblocks⟩ := forall₂_backs_blocks h.entries
  refine ⟨_, blocks, hclean, ⟨hptrs ▸ howns, ?_⟩, hks⟩
  intro p hp
  have hmem : p.1 ∈ stored.filterMap (·.buffptr) := hptrs ▸ List.mem_map_of_mem hp
  exact (hsame p.1 hmem).trans (hblocks p hp)

theorem sessionsOk_step (hw : 32 ≤ w) (hlimit : limit < 2 ^ 31) {m m' : Module w} {h : Sessions}
    {l : SessionLabel w} {leaked : List (ℕ × List Byte)} (hok : SessionsOk limit m h leaked)
    (hs : ModuleStep limit m l m') : ∃ more, SessionsOk limit m' (h.next l) (leaked ++ more) := by
  obtain ⟨hended, hcontents, hnow⟩ := hok
  obtain ⟨ended, current⟩ := h
  dsimp only at hended hcontents hnow
  cases l with
  | insmod device region cdevAdd returned =>
    refine ⟨[], ?_⟩
    rw [List.append_nil]
    obtain ⟨hunloaded, hinit, hpos, hloaded'⟩ := hs
    cases hnow with
    | within hloaded => exact absurd (hloaded.symm.trans hunloaded) (by decide)
    | out _ hleaked =>
      by_cases hok : returned = 0
      · subst hok
        refine ⟨hended, hcontents, ?_⟩
        have hsystem : m'.system =
            (⟨loaded w, m.system.fPos⟩ : System w).extend m.system.driver.heap := by
          rw [System.extend, ← hpos, ← insmod_ok hinit]
        exact .within hloaded' hsystem (Heap.apart_empty _).symm ⟨m.system.fPos, .nil⟩ hleaked
      · have hheap : m'.system.driver.heap = m.system.driver.heap := (insmod_heap hinit).trans rfl
        have hnext : Sessions.next ⟨ended, none⟩ (.insmod device region cdevAdd returned) =
          ⟨ended, none⟩ := if_neg hok
        rw [hnext]
        refine ⟨hended, hcontents, .out ?_ (hheap ▸ hleaked)⟩
        rw [hloaded', decide_eq_false hok]
  | call l =>
    refine ⟨[], ?_⟩
    rw [List.append_nil]
    obtain ⟨hloaded, ⟨hallowed, hcall⟩, hloaded'⟩ := hs
    cases hnow with
    | out hunloaded => exact absurd (hloaded.symm.trans hunloaded) (by decide)
    | @within calls s rest _ hsystem hd hfresh hleaked =>
      refine ⟨hended, hcontents, ?_⟩
      rw [hsystem] at hallowed hcall
      have halone := hallowed.alone
      obtain ⟨r, s', hcall'⟩ := call_returns hw hlimit (hfresh.represents hw hlimit) halone
      obtain ⟨hframe, hd'⟩ := call_frame hd hallowed hcall'
      obtain ⟨hret, hsystem'⟩ := Prod.mk.inj (Option.some.inj (hcall.symm.trans hframe))
      obtain ⟨fPos, hrun⟩ := hfresh
      subst hret
      exact .within hloaded' hsystem' hd' ⟨fPos, hrun.snoc ⟨halone, hcall'⟩⟩ hleaked
  | rmmod =>
    obtain ⟨hloaded, ⟨r, hr, hsystem'⟩, hloaded'⟩ := hs
    cases hnow with
    | out hunloaded => exact absurd (hloaded.symm.trans hunloaded) (by decide)
    | @within calls s rest _ hsystem hd hfresh hleaked =>
      obtain ⟨-, stored, hrep⟩ := hfresh.represents hw hlimit
      obtain ⟨r', blocks, hclean, hkept, hks⟩ := hrep.leaves
      obtain ⟨hframe, hd'⟩ := cleanup_frame hd hclean
      rw [hsystem] at hr
      obtain rfl := Option.some.inj (hr.symm.trans hframe)
      refine ⟨blocks, ?_, ?_, .out hloaded' ?_⟩
      · intro calls' hcalls'
        rcases List.mem_append.mp hcalls' with hmem | hmem
        · exact hended calls' hmem
        · obtain rfl := List.mem_singleton.mp hmem
          exact ⟨s, hfresh⟩
      · show _ = leakedBy (ended ++ [calls])
        rw [leakedBy_append, List.map_append, hcontents, hks]
      · rw [hsystem', show (DriverState.extend r'.state rest).heap = rest.union r'.state.heap from
          hd'.union_comm]
        exact hleaked.union hkept hd'.symm

theorem sessionsOk_run (hw : 32 ≤ w) (hlimit : limit < 2 ^ 31) {m m' : Module w} {h : Sessions}
    {tr : List (SessionLabel w)} {leaked : List (ℕ × List Byte)} (hok : SessionsOk limit m h leaked)
    (hrun : Run (ModuleStep limit) m tr m') :
    ∃ more, SessionsOk limit m' (tr.foldl Sessions.next h) (leaked ++ more) := by
  apply hrun.follows (R := fun m h => ∃ more, SessionsOk limit m h (leaked ++ more))
  · exact ⟨[], by rwa [List.append_nil]⟩
  · rintro m h l m' ⟨more, hok⟩ hs
    obtain ⟨more', hok'⟩ := sessionsOk_step hw hlimit hok hs
    exact ⟨more ++ more', by rwa [← List.append_assoc]⟩

end

/-- The blocks that ended sessions have left: one for each command that was committed when its
session ended, with its bytes. They and the blocks of the device are all that is live. -/
structure LeftBy (ended : List (List CallLabel)) (m : Module w) (leaked : List (ℕ × List Byte)) :
    Prop where
  contents : leaked.map Prod.snd = leakedBy ended
  live : ∀ p ∈ leaked, m.system.driver.heap p.1 = some p.2
  owns : m.system.driver.heap.Owns
    ((if m.loaded then heldPointers m.system.driver else []) ++ leaked.map Prod.fst)

theorem SessionsOk.leftBy (hw : 32 ≤ w) (hlimit : limit < 2 ^ 31) {m : Module w} {h : Sessions}
    {leaked : List (ℕ × List Byte)} (hok : SessionsOk limit m h leaked) :
    LeftBy h.ended m leaked := by
  obtain ⟨-, hcontents, hnow⟩ := hok
  obtain ⟨ended, current⟩ := h
  dsimp only at hcontents hnow ⊢
  cases hnow with
  | out hloaded hleaked =>
    refine ⟨hcontents, hleaked.holds, ?_⟩
    rw [hloaded]
    exact hleaked.owns
  | @within calls s rest hloaded hsystem hd hfresh hleaked =>
    obtain ⟨-, stored, hrep⟩ := hfresh.represents hw hlimit
    refine ⟨hcontents, ?_, ?_⟩
    · intro p hp
      rw [hsystem]
      show s.driver.heap.union rest p.1 = _
      rw [hd.union_comm]
      exact Heap.union_of_live (hleaked.holds p hp) _
    · rw [hloaded, hsystem]
      have hheld : (s.driver.heap.union rest).Owns
          (heldPointers s.driver ++ leaked.map Prod.fst) :=
        hrep.ownsHeld.owns.union hleaked.owns hd
      exact hheld

/-- However often the module is loaded and unloaded: what the ended sessions have left are the
commands that were committed when they ended, and it stays where it is whatever comes later. Every
session is a run of a freshly loaded driver whose heap holds none of it: the same calls return the
same values, and the driver spells the device of these calls alone, serves every call and can be
unloaded. -/
theorem module_sessions (hw : 32 ≤ w) (hlimit : limit < 2 ^ 31) (device : AesdDev w)
    (fPos : ℕ → BitVec 64) {m : Module w} {tr : List (SessionLabel w)}
    (hrun : Run (ModuleStep limit) (Module.start device fPos) tr m) :
    (m.loaded = true ↔ (sessionsOf tr).current.isSome) ∧
    (∀ calls ∈ (sessionsOf tr).ended, ∃ s : System w, FreshRun limit calls s) ∧
    ∃ leaked, LeftBy (sessionsOf tr).ended m leaked ∧
      (∀ tr' m', Run (ModuleStep limit) m tr' m' →
        ∃ more, LeftBy (sessionsOf (tr ++ tr')).ended m' (leaked ++ more)) ∧
      ∀ calls, (sessionsOf tr).current = some calls →
        (∃ s rest, FreshRun limit calls s ∧ rest.Consists leaked ∧ s.driver.heap.Apart rest ∧
          m.system = s.extend rest) ∧
        Spells m.system.driver (deviceAfter calls) ∧
        (∀ call : Call, call.Allowed limit m.system →
          ∃ r s', m.system.call call = some (r, s')) ∧
        ∃ r, aesdCleanupModule m.system.driver = some r := by
  have hstart : SessionsOk limit (Module.start device fPos) ⟨[], none⟩ [] :=
    ⟨by simp, rfl, .out rfl Heap.consists_empty⟩
  obtain ⟨leaked, hok⟩ := sessionsOk_run hw hlimit hstart hrun
  rw [List.nil_append] at hok
  have hlater : ∀ tr' m', Run (ModuleStep limit) m tr' m' →
      ∃ more, LeftBy (sessionsOf (tr ++ tr')).ended m' (leaked ++ more) := by
    intro tr' m' hrun'
    obtain ⟨more, hok'⟩ := sessionsOk_run hw hlimit hok hrun'
    refine ⟨more, ?_⟩
    rw [sessionsOf, List.foldl_append]
    exact hok'.leftBy hw hlimit
  have hnow := hok.now
  refine ⟨?_, hok.ended, leaked, hok.leftBy hw hlimit, hlater, ?_⟩
  · change m.loaded = true ↔ (tr.foldl Sessions.next ⟨[], none⟩).current.isSome
    generalize (tr.foldl Sessions.next ⟨[], none⟩).current = current at hnow
    cases hnow with
    | out hloaded => simp [hloaded]
    | within hloaded => simp [hloaded]
  · intro calls hcalls
    change (tr.foldl Sessions.next ⟨[], none⟩).current = some calls at hcalls
    rw [hcalls] at hnow
    cases hnow with
    | @within _ s rest hloaded hsystem hd hfresh hleaked =>
      obtain ⟨hunlocked, stored, hrep⟩ := hfresh.represents hw hlimit
      refine ⟨⟨s, rest, hfresh, hleaked, hd, hsystem⟩, ?_⟩
      rw [hsystem]
      refine ⟨hrep.spells.extend rest, ?_, ?_⟩
      · intro call hallowed
        obtain ⟨r, s', hcall⟩ :=
          call_returns hw hlimit ⟨hunlocked, stored, hrep⟩ hallowed.alone
        exact ⟨r, _, (call_frame hd hallowed hcall).1⟩
      · obtain ⟨heap, hclean, -⟩ := hrep.cleanup
        exact ⟨_, (cleanup_frame hd hclean).1⟩

/-- A command, an unload that leaks it, and a session that finds the device empty. -/
def reloaded : List (SessionLabel 64) :=
  [.insmod (loaded 64).device 0 0 0, .call (.write 0 (wholeCopy 7 [0, 0]) [97, 10], 2), .rmmod,
    .insmod (loaded 64).device 0 0 0, .call (.pread 0 ⟨0, fun _ => 0⟩ [0, 0], 0)]

theorem reloaded_sessions : ∃ m : Module 64,
    Run (ModuleStep 4096) (Module.start (loaded 64).device fun _ => 0) reloaded m ∧
    (m.loaded = true ↔ (sessionsOf reloaded).current.isSome) ∧
    ∃ leaked, LeftBy [[(.write 0 (wholeCopy 7 [0, 0]) [97, 10], 2)]] m leaked := by
  have hrun : ∃ m : Module 64,
      Run (ModuleStep 4096) (Module.start (loaded 64).device fun _ => 0) reloaded m := by
    have hlen : ([0, 0] : List Byte).length ≤ maxRwCount := by decide
    refine ⟨_, .cons (show ModuleStep 4096 _ _ ⟨⟨_, _⟩, _⟩ from ⟨rfl, rfl, rfl, rfl⟩)
      (.cons (show ModuleStep 4096 _ _ ⟨_, _⟩ from
        ⟨rfl, ⟨⟨by decide, by decide, ?_, by decide⟩, rfl⟩, rfl⟩)
      (.cons (show ModuleStep 4096 _ _ ⟨_, _⟩ from ⟨rfl, ⟨_, rfl, rfl⟩, rfl⟩)
      (.cons (show ModuleStep 4096 _ _ ⟨⟨_, _⟩, _⟩ from ⟨rfl, rfl, rfl, rfl⟩)
      (.cons (show ModuleStep 4096 _ _ ⟨_, _⟩ from ⟨rfl, ⟨hlen, rfl⟩, rfl⟩) .nil))))⟩
    rintro a block ⟨⟩
    exact ⟨rfl, rfl, by decide⟩
  obtain ⟨m, hrun⟩ := hrun
  obtain ⟨hloaded, -, leaked, hleaked, -⟩ := module_sessions (by decide) (by decide) _ _ hrun
  exact ⟨m, hrun, hloaded, leaked, hleaked⟩

end Aesd.Driver
