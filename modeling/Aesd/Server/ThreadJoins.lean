import Aesd.Server.ThreadList

/-! `join_threads` takes the finished threads out of the list and leaves the others in it, in their
order. -/
namespace Aesd.Server.ThreadList
open Driver (Byte)
open LinkedList

/-- An item of the list at its address, with the `ThreadData` of its thread. -/
structure Entry where
  addr : ℕ
  threadId : ℕ
  clientIpString : List Byte
  data : ℕ
  clientFd : Fd
  deriving DecidableEq

/-- The list is well formed and holds these entries: distinct live items linked in this order, each
with a thread that returns its own live `ThreadData`. -/
structure Holds (threadReturn : ℕ → Option ℕ) (p : ThreadList) (es : List Entry) : Prop where
  linked : Segment p.slistNext p.slhFirst (es.map (·.addr)) none
  items : ∀ e ∈ es, ∃ next,
    p.blocks e.addr = some (.item ⟨e.threadId, e.clientIpString, next⟩)
  data : ∀ e ∈ es, threadReturn e.threadId = some e.data ∧
    ∃ threadState, p.blocks e.data = some (.data e.clientFd threadState)
  distinct : (es.map (·.addr)).Nodup
  distinctData : (es.map (·.data)).Nodup

section
variable {threadReturn : ℕ → Option ℕ} {p p' : ThreadList} {es front rest : List Entry} {e : Entry}
  {a : ℕ}

theorem item_of_block {i : LinkedListItem} (h : p.blocks a = some (.item i)) :
    p.item a = some i := by rw [item, h]

theorem slistNext_congr (h : p'.blocks a = p.blocks a) : p'.slistNext a = p.slistNext a := by
  rw [slistNext, slistNext, item, item, h]

theorem setNext_spec {i : LinkedListItem} (h : p.blocks a = some (.item i)) (next : Option ℕ) :
    ∃ p', p.setNext a next = some p' ∧ p'.blocks a = some (.item { i with sleNext := next }) ∧
      p'.slistNext a = some next ∧ (∀ b, b ≠ a → p'.blocks b = p.blocks b) ∧
      p'.slhFirst = p.slhFirst ∧ p'.fds = p.fds ∧ p'.calls = p.calls := by
  let after : Block := .item { i with sleNext := next }
  have hblock : Function.update p.blocks a (some after) a = some after := Function.update_self ..
  refine ⟨{ p with blocks := Function.update p.blocks a (some after) }, ?_, hblock, ?_, ?_, rfl,
    rfl, rfl⟩
  · rw [setNext, item_of_block h]
    rfl
  · rw [slistNext, item_of_block hblock]
    rfl
  · intro b hb
    exact Function.update_of_ne hb ..

/-- What `SLIST_REMOVE` leaves: the other items in their order, and every block as it was but for
the links of items in front of the one removed. -/
structure Removed (p : ThreadList) (front rest : List Entry) (p' : ThreadList) : Prop where
  linked : Segment p'.slistNext p'.slhFirst ((front ++ rest).map (·.addr)) none
  items : ∀ e ∈ front, ∃ next,
    p'.blocks e.addr = some (.item ⟨e.threadId, e.clientIpString, next⟩)
  others : ∀ a, a ∉ front.map (·.addr) → p'.blocks a = p.blocks a
  fds : p'.fds = p.fds
  calls : p'.calls = p.calls

theorem slistRemove_head (h : Holds threadReturn p (e :: rest)) (fuel : ℕ) :
    ∃ p', p.slistRemove fuel e.addr = some p' ∧ Removed p [] rest p' := by
  obtain ⟨hfirst, next, hnext, hrest⟩ := h.linked
  refine ⟨{ p with slhFirst := next }, ?_, hrest, by simp, fun _ _ => rfl, rfl, rfl⟩
  simp only [slistRemove, hfirst, ↓reduceIte, slistRemoveHead, Option.bind_eq_bind,
    Option.bind_some, hnext]

theorem slistRemove_later {pred : Entry} {fuel : ℕ}
    (h : Holds threadReturn p (front ++ pred :: e :: rest)) (hfuel : front.length < fuel) :
    ∃ p', p.slistRemove fuel e.addr = some p' ∧ Removed p (front ++ [pred]) rest p' := by
  have hlinked := h.linked
  have hdistinct := h.distinct
  simp only [List.map_append, List.map_cons] at hlinked hdistinct
  have hpred : pred.addr ∉ front.map (·.addr) ++ e.addr :: rest.map (·.addr) :=
    (List.nodup_cons.mp (List.nodup_middle.mp hdistinct)).1
  have he : e.addr ∉ front.map (·.addr) ++ [pred.addr] := by
    rw [List.append_cons] at hdistinct
    intro hm
    exact (List.nodup_cons.mp (List.nodup_middle.mp hdistinct)).1 (List.mem_append_left _ hm)
  obtain ⟨first, hfirst, hmem⟩ :
      ∃ first, p.slhFirst = some first ∧ first ∈ front.map (·.addr) ++ [pred.addr] := by
    rw [hlinked.head_eq]
    cases front with
    | nil => exact ⟨pred.addr, rfl, by simp⟩
    | cons f front => exact ⟨f.addr, rfl, by simp⟩
  have hsearch : predecessor p.slistNext e.addr fuel first = some pred.addr := by
    apply predecessor_eq (hfirst ▸ hlinked) he
    rwa [List.length_map]
  obtain ⟨_, hblock⟩ := h.items pred (by simp)
  obtain ⟨next, hnext⟩ := h.items e (by simp)
  have hlink : p.slistNext e.addr = some next := by
    rw [slistNext, item_of_block hnext]
    rfl
  obtain ⟨p', hset, hblock', hlink', hsame, hhead, hfds, hcalls⟩ := setNext_spec hblock next
  refine ⟨p', ?_, ?_, ?_, ?_, hfds, hcalls⟩
  · have hne : first ≠ e.addr := fun heq => he (heq ▸ hmem)
    simp only [slistRemove, hfirst, Option.some.injEq, hne, ↓reduceIte, Option.bind_eq_bind,
      Option.bind_some, hsearch, slistRemoveAfter, hlinked.pred_next, hlink]
    exact hset
  · rw [hhead, List.append_assoc, List.singleton_append, List.map_append, List.map_cons]
    apply hlinked.unlink (hlink'.trans hlink.symm)
    intro x hx
    apply slistNext_congr (hsame x _)
    rintro rfl
    apply hpred
    rcases List.mem_append.mp hx with hx | hx
    · exact List.mem_append_left _ hx
    · exact List.mem_append_right _ (List.mem_cons_of_mem _ hx)
  · intro e' he'
    rcases List.mem_append.mp he' with he' | he'
    · have hne : e'.addr ≠ pred.addr := fun heq =>
        hpred (heq ▸ List.mem_append_left _ (List.mem_map_of_mem he'))
      rw [hsame _ hne]
      exact h.items e' (List.mem_append_left _ he')
    · rw [List.mem_singleton.mp he']
      exact ⟨next, hblock'⟩
  · intro a ha
    apply hsame
    rintro rfl
    exact ha (by simp)

theorem slistRemove_spec {fuel : ℕ} (h : Holds threadReturn p (front ++ e :: rest))
    (hfuel : front.length ≤ fuel) :
    ∃ p', p.slistRemove fuel e.addr = some p' ∧ Removed p front rest p' := by
  rcases List.eq_nil_or_concat front with rfl | ⟨front, pred, rfl⟩
  · exact slistRemove_head h fuel
  · rw [List.concat_eq_append] at h hfuel ⊢
    rw [List.length_append, List.length_singleton] at hfuel
    rw [List.append_assoc, List.singleton_append] at h
    exact slistRemove_later h hfuel

theorem Holds.congr (h : Holds threadReturn p es) (hhead : p'.slhFirst = p.slhFirst)
    (hblocks : p'.blocks = p.blocks) : Holds threadReturn p' es where
  linked := by
    rw [hhead]
    exact h.linked.congr fun a _ => slistNext_congr (congrFun hblocks a)
  items := by
    rw [hblocks]
    exact h.items
  data := by
    rw [hblocks]
    exact h.data
  distinct := h.distinct
  distinctData := h.distinctData

theorem Holds.live (h : Holds threadReturn p es) (he : e ∈ es) :
    p.blocks e.addr ≠ none ∧ p.blocks e.data ≠ none := by
  obtain ⟨next, hitem⟩ := h.items e he
  obtain ⟨-, threadState, hdata⟩ := h.data e he
  simp [hitem, hdata]

theorem Holds.addr_ne_data (h : Holds threadReturn p es) {e' : Entry} (he : e ∈ es)
    (he' : e' ∈ es) : e.addr ≠ e'.data := by
  obtain ⟨next, hitem⟩ := h.items e he
  obtain ⟨-, threadState, hdata⟩ := h.data e' he'
  intro heq
  rw [heq, hdata] at hitem
  cases hitem

theorem Holds.addr_notMem_front (h : Holds threadReturn p (front ++ e :: rest)) :
    e.addr ∉ front.map (·.addr) := by
  have hdistinct := h.distinct
  rw [List.map_append, List.map_cons, List.nodup_middle] at hdistinct
  intro hm
  exact (List.nodup_cons.mp hdistinct).1 (List.mem_append_left _ hm)

theorem Holds.data_notMem_addrs (h : Holds threadReturn p (front ++ e :: rest)) {e' : Entry}
    (he' : e' ∈ front ++ e :: rest) : e'.data ∉ front.map (·.addr) := by
  intro hm
  obtain ⟨f, hf, heq⟩ := List.mem_map.mp hm
  exact h.addr_ne_data (List.mem_append_left _ hf) he' heq

theorem free_spec {block : Block} (h : p.blocks a = some block) :
    p.free a = some
      ({ p with blocks := Function.update p.blocks a none }.call (.free a)) := by
  rw [free, h, Option.map_some]

/-- What is in the list stays there when only dead blocks, blocks of other kinds and links in front
of a removed item have changed. -/
theorem Holds.of_removed (h : Holds threadReturn p (front ++ e :: rest))
    (hremoved : Removed p front rest p')
    {p'' : ThreadList} (hhead : p''.slhFirst = p'.slhFirst)
    (hsame : ∀ a, a ≠ e.addr → a ≠ e.data → p''.blocks a = p'.blocks a) :
    Holds threadReturn p'' (front ++ rest) := by
  have he : e ∈ front ++ e :: rest := by simp
  have hsub : (front ++ rest).Sublist (front ++ e :: rest) :=
    (List.sublist_cons_self e rest).append_left front
  have hdistinct := h.distinct
  have hdistinctData := h.distinctData
  rw [List.map_append, List.map_cons, List.nodup_middle, ← List.map_append]
    at hdistinct hdistinctData
  obtain ⟨haddr, -⟩ := List.nodup_cons.mp hdistinct
  obtain ⟨hdata, -⟩ := List.nodup_cons.mp hdistinctData
  have haddrs : ∀ e' ∈ front ++ rest, p''.blocks e'.addr = p'.blocks e'.addr := by
    intro e' he'
    apply hsame
    · exact fun heq => haddr (heq ▸ List.mem_map_of_mem he')
    · exact h.addr_ne_data (hsub.subset he') he
  constructor
  · rw [hhead]
    apply hremoved.linked.congr
    intro x hx
    obtain ⟨e', he', rfl⟩ := List.mem_map.mp hx
    exact slistNext_congr (haddrs e' he')
  · intro e' he'
    rw [haddrs e' he']
    rcases List.mem_append.mp he' with hf | hr
    · exact hremoved.items e' hf
    · have hnot : e'.addr ∉ front.map (·.addr) := by
        have hnd := h.distinct
        rw [List.map_append, List.nodup_append] at hnd
        intro hm
        exact hnd.2.2 _ hm _ (List.mem_map_of_mem (List.mem_cons_of_mem _ hr)) rfl
      rw [hremoved.others _ hnot]
      exact h.items e' (hsub.subset he')
  · intro e' he'
    obtain ⟨hreturn, threadState, hblock⟩ := h.data e' (hsub.subset he')
    refine ⟨hreturn, threadState, ?_⟩
    rw [hsame _ (h.addr_ne_data he (hsub.subset he')).symm
      fun heq => hdata (heq ▸ List.mem_map_of_mem he')]
    exact (hremoved.others _ (h.data_notMem_addrs (hsub.subset he'))).trans hblock
  · exact h.distinct.sublist (hsub.map _)
  · exact h.distinctData.sublist (hsub.map _)

def visitCalls (e : Entry) (joined : Bool) : List JoinCall :=
  .tryJoin e.addr e.threadId joined ::
    if joined then [.log e.clientIpString, .close e.clientFd, .free e.addr, .free e.data] else []

/-- The visit of an item whose thread has finished: it is unlinked, its descriptor closed, and it
and its `ThreadData` are freed. -/
structure Joined (p : ThreadList) (front : List Entry) (e : Entry) (p' : ThreadList) : Prop where
  calls : p'.calls = p.calls ++ visitCalls e true
  fds : p'.fds = Function.update p.fds e.clientFd false
  freed : p'.blocks e.addr = none ∧ p'.blocks e.data = none
  others : ∀ a, a ∉ front.map (·.addr) → a ≠ e.addr → a ≠ e.data → p'.blocks a = p.blocks a

theorem joinVisit_unfinished (finished : ℕ → Bool) {fuel k : ℕ} (h : Holds threadReturn p es)
    (he : e ∈ es) (hk : finished k = false) :
    joinVisit threadReturn finished fuel p k e.addr =
      some (p.call (.tryJoin e.addr e.threadId false)) := by
  obtain ⟨next, hitem⟩ := h.items e he
  simp [joinVisit, item_of_block hitem, hk]

theorem joinVisit_finished (finished : ℕ → Bool) {fuel k : ℕ}
    (h : Holds threadReturn p (front ++ e :: rest)) (hfuel : front.length ≤ fuel)
    (hk : finished k = true) :
    ∃ p', joinVisit threadReturn finished fuel p k e.addr = some p' ∧
      Holds threadReturn p' (front ++ rest) ∧ Joined p front e p' := by
  have he : e ∈ front ++ e :: rest := by simp
  obtain ⟨next, hitem⟩ := h.items e he
  obtain ⟨hreturn, threadState, hblock⟩ := h.data e he
  have hne := h.addr_ne_data he he
  -- The calls before the removal touch neither the blocks nor the list.
  let p₁ := ((p.call (.tryJoin e.addr e.threadId true)).call (.log e.clientIpString)).close
    e.clientFd
  have h₁ : Holds threadReturn p₁ (front ++ e :: rest) := h.congr rfl rfl
  obtain ⟨p₂, hremove, hremoved⟩ := slistRemove_spec h₁ hfuel
  have hitem₂ : p₂.blocks e.addr = some (.item ⟨e.threadId, e.clientIpString, next⟩) := by
    rw [hremoved.others _ h.addr_notMem_front]
    exact hitem
  let p₃ := { p₂ with blocks := Function.update p₂.blocks e.addr none }.call (.free e.addr)
  have hblock₃ : p₃.blocks e.data = some (.data e.clientFd threadState) := by
    show Function.update p₂.blocks e.addr none e.data = _
    rw [Function.update_of_ne hne.symm, hremoved.others _ (h.data_notMem_addrs he)]
    exact hblock
  let p₄ := { p₃ with blocks := Function.update p₃.blocks e.data none }.call (.free e.data)
  have hsame : ∀ a, a ≠ e.addr → a ≠ e.data → p₄.blocks a = p₂.blocks a := by
    intro a ha hd
    show Function.update (Function.update p₂.blocks e.addr none) e.data none a = _
    rw [Function.update_of_ne hd, Function.update_of_ne ha]
  refine ⟨p₄, ?_, h₁.of_removed hremoved rfl hsame, ?_⟩
  · have hfd : p.clientFd e.data = some e.clientFd := by rw [clientFd, hblock]
    simp only [joinVisit, item_of_block hitem, hk, ↓reduceIte, hreturn, Option.bind_eq_bind,
      Option.bind_some]
    show ((p.clientFd e.data).bind _) = _
    rw [hfd, Option.bind_some]
    show ((p₁.slistRemove fuel e.addr).bind _) = _
    rw [hremove, Option.bind_some, free_spec hitem₂, Option.bind_some]
    exact free_spec hblock₃
  · constructor
    · show (p₂.calls ++ [JoinCall.free e.addr]) ++ [JoinCall.free e.data] = _
      rw [hremoved.calls]
      simp [p₁, close, call, visitCalls]
    · exact hremoved.fds
    · constructor
      · show Function.update (Function.update p₂.blocks e.addr none) e.data none e.addr = none
        rw [Function.update_of_ne hne, Function.update_self]
      · exact Function.update_self ..
    · intro a hf ha hd
      exact (hsame a ha hd).trans (hremoved.others a hf)

/-- The entries whose thread has, or has not, finished when it is visited: the `k`-th one at the
`k`-th visit. -/
def visited (finished : ℕ → Bool) (joined : Bool) (es : List Entry) : List Entry :=
  (es.zipIdx.filter fun v => finished v.2 = joined).map Prod.fst

/-- The calls of a traversal that visits each entry once, in order. -/
def joinCalls (finished : ℕ → Bool) (es : List Entry) : List JoinCall :=
  es.zipIdx.flatMap fun v => visitCalls v.1 (finished v.2)

theorem visited_snoc (finished : ℕ → Bool) (joined : Bool) (es : List Entry) (e : Entry) :
    visited finished joined (es ++ [e]) =
      visited finished joined es ++ if finished es.length = joined then [e] else [] := by
  rw [visited, visited, List.zipIdx_append, List.filter_append, List.map_append]
  by_cases h : finished es.length = joined
  · simp [h]
  · simp [h]

theorem visited_snoc_of_eq {finished : ℕ → Bool} {joined : Bool}
    (h : finished es.length = joined) (e : Entry) :
    visited finished joined (es ++ [e]) = visited finished joined es ++ [e] := by
  rw [visited_snoc, if_pos h]

theorem visited_snoc_of_ne {finished : ℕ → Bool} {joined : Bool}
    (h : finished es.length = !joined) (e : Entry) :
    visited finished joined (es ++ [e]) = visited finished joined es := by
  rw [visited_snoc, if_neg (by simp [h]), List.append_nil]

theorem joinCalls_snoc (finished : ℕ → Bool) (es : List Entry) (e : Entry) :
    joinCalls finished (es ++ [e]) =
      joinCalls finished es ++ visitCalls e (finished es.length) := by
  simp [joinCalls, List.zipIdx_append]

theorem visited_sublist (finished : ℕ → Bool) (joined : Bool) (es : List Entry) :
    (visited finished joined es).Sublist es := by
  have hmap := (List.filter_sublist (p := fun v : Entry × ℕ => finished v.2 = joined)
    (l := es.zipIdx)).map Prod.fst
  rwa [List.zipIdx_map_fst] at hmap

/-- What the traversal has done once it has visited `done`. -/
structure Walked (threadReturn : ℕ → Option ℕ) (finished : ℕ → Bool) (p : ThreadList)
    (p' : ThreadList) (done todo : List Entry) : Prop where
  holds : Holds threadReturn p' (visited finished false done ++ todo)
  calls : p'.calls = p.calls ++ joinCalls finished done
  freed : ∀ e ∈ visited finished true done, p'.blocks e.addr = none ∧ p'.blocks e.data = none
  fds : ∀ fd, p'.fds fd = (p.fds fd && decide (fd ∉ (visited finished true done).map (·.clientFd)))
  others : ∀ a, a ∉ done.map (·.addr) → a ∉ (visited finished true done).map (·.data) →
    p'.blocks a = p.blocks a

theorem Walked.start (finished : ℕ → Bool) (h : Holds threadReturn p es) :
    Walked threadReturn finished p p [] es where
  holds := h
  calls := by simp [joinCalls]
  freed := by simp [visited]
  fds := by simp [visited]
  others := fun _ _ _ => rfl

theorem Walked.visit_unfinished {finished : ℕ → Bool} {done todo : List Entry}
    (h : Walked threadReturn finished p p' done (e :: todo)) (hk : finished done.length = false) :
    Walked threadReturn finished p (p'.call (.tryJoin e.addr e.threadId false)) (done ++ [e])
      todo := by
  have hkept := visited_snoc_of_eq hk e
  have hjoined : visited finished true (done ++ [e]) = visited finished true done :=
    visited_snoc_of_ne hk e
  constructor
  · rw [hkept, List.append_assoc, List.singleton_append]
    exact h.holds.congr rfl rfl
  · show p'.calls ++ _ = _
    rw [h.calls, joinCalls_snoc, hk, List.append_assoc]
    rfl
  · rw [hjoined]
    exact h.freed
  · rw [hjoined]
    exact h.fds
  · intro a ha hd
    rw [hjoined] at hd
    apply h.others a _ hd
    intro hm
    exact ha (by rw [List.map_append]; exact List.mem_append_left _ hm)

theorem Joined.dead (hj : Joined p front e p') (h : Holds threadReturn p (front ++ e :: rest))
    (ha : p.blocks a = none) : p'.blocks a = none := by
  have he : e ∈ front ++ e :: rest := by simp
  rw [hj.others a, ha]
  · intro hm
    obtain ⟨e', he', rfl⟩ := List.mem_map.mp hm
    exact (h.live (List.mem_append_left _ he')).1 ha
  · rintro rfl
    exact (h.live he).1 ha
  · rintro rfl
    exact (h.live he).2 ha

theorem Walked.visit_finished {finished : ℕ → Bool} {done todo : List Entry} {p'' : ThreadList}
    (h : Walked threadReturn finished p p' done (e :: todo)) (hk : finished done.length = true)
    (hj : Joined p' (visited finished false done) e p'')
    (hh : Holds threadReturn p'' (visited finished false done ++ todo)) :
    Walked threadReturn finished p p'' (done ++ [e]) todo := by
  have hkept : visited finished false (done ++ [e]) = visited finished false done :=
    visited_snoc_of_ne hk e
  have hjoined := visited_snoc_of_eq hk e
  constructor
  · rw [hkept]
    exact hh
  · rw [hj.calls, h.calls, joinCalls_snoc, hk, List.append_assoc]
  · rw [hjoined]
    intro e' he'
    rcases List.mem_append.mp he' with he' | he'
    · obtain ⟨haddr, hdata⟩ := h.freed e' he'
      exact ⟨hj.dead h.holds haddr, hj.dead h.holds hdata⟩
    · rw [List.mem_singleton.mp he']
      exact hj.freed
  · intro fd
    rw [hj.fds, hjoined]
    by_cases hfd : fd = e.clientFd
    · simp [hfd]
    · rw [Function.update_of_ne hfd, h.fds]
      simp [hfd]
  · intro a ha hd
    rw [hjoined] at hd
    simp only [List.map_append, List.map_cons, List.map_nil, List.mem_append, List.mem_singleton,
      not_or] at ha hd
    rw [hj.others a _ ha.2 hd.2]
    · exact h.others a ha.1 hd.1
    · intro hm
      exact ha.1 (((visited_sublist finished false done).map _).subset hm)

end

section
variable {threadReturn : ℕ → Option ℕ} {p : ThreadList} {es : List Entry}

/-- The list before any thread, whatever else is in memory. -/
theorem holds_empty (threadReturn : ℕ → Option ℕ) (blocks : ℕ → Option Block) (fds : Fd → Bool)
    (calls : List JoinCall) : Holds threadReturn ⟨none, blocks, fds, calls⟩ [] :=
  ⟨rfl, by simp, by simp, List.nodup_nil, List.nodup_nil⟩

theorem createThread_holds (h : Holds threadReturn p es) (e : Entry) (sleNext : Option ℕ)
    (hitem : p.blocks e.addr = none) (hdata : p.blocks e.data = none) (hne : e.addr ≠ e.data)
    (hreturn : threadReturn e.threadId = some e.data) :
    ∃ p', p.createThread e.addr e.data e.threadId e.clientIpString sleNext e.clientFd = some p' ∧
      Holds threadReturn p' (e :: es) := by
  have hlive : ∀ a, p.blocks a ≠ none → a ≠ e.addr ∧ a ≠ e.data := by
    intro a ha
    constructor
    · rintro rfl
      exact ha hitem
    · rintro rfl
      exact ha hdata
  have haddrs : ∀ e' ∈ es, e'.addr ≠ e.addr ∧ e'.addr ≠ e.data := fun _ he' =>
    hlive _ (h.live he').1
  have hdatas : ∀ e' ∈ es, e'.data ≠ e.addr ∧ e'.data ≠ e.data := fun _ he' =>
    hlive _ (h.live he').2
  set blocks := Function.update (Function.update p.blocks e.addr
    (some (.item ⟨e.threadId, e.clientIpString, sleNext⟩))) e.data
    (some (.data e.clientFd .waitingForData)) with hblocks
  have hnew : blocks e.addr = some (.item ⟨e.threadId, e.clientIpString, sleNext⟩) := by
    rw [hblocks, Function.update_of_ne hne, Function.update_self]
  obtain ⟨p₂, hset, hblock, hlink, hsame, hhead, -, -⟩ :=
    setNext_spec (p := { p with blocks := blocks }) hnew p.slhFirst
  have hold : ∀ a, a ≠ e.addr → a ≠ e.data → p₂.blocks a = p.blocks a := by
    intro a ha hd
    rw [hsame a ha]
    show blocks a = _
    rw [hblocks, Function.update_of_ne hd, Function.update_of_ne ha]
  refine ⟨{ p₂ with slhFirst := some e.addr }, ?_, ?_⟩
  · simp only [createThread, slistInsertHead, ← hblocks, hset, Option.map_some]
  · constructor
    · refine ⟨rfl, p.slhFirst, hlink, h.linked.congr ?_⟩
      intro x hx
      obtain ⟨e', he', rfl⟩ := List.mem_map.mp hx
      exact slistNext_congr (hold _ (haddrs e' he').1 (haddrs e' he').2)
    · intro e' he'
      rcases List.mem_cons.mp he' with rfl | he'
      · exact ⟨_, hblock⟩
      · obtain ⟨next, hblock'⟩ := h.items e' he'
        exact ⟨next, (hold _ (haddrs e' he').1 (haddrs e' he').2).trans hblock'⟩
    · intro e' he'
      rcases List.mem_cons.mp he' with rfl | he'
      · refine ⟨hreturn, .waitingForData, ?_⟩
        show p₂.blocks e'.data = _
        rw [hsame _ hne.symm]
        show blocks e'.data = _
        rw [hblocks, Function.update_self]
      · obtain ⟨hreturn', threadState, hblock'⟩ := h.data e' he'
        exact ⟨hreturn', threadState, (hold _ (hdatas e' he').1 (hdatas e' he').2).trans hblock'⟩
    · apply List.nodup_cons.mpr
      refine ⟨?_, h.distinct⟩
      intro hm
      obtain ⟨e', he', heq⟩ := List.mem_map.mp hm
      exact (haddrs e' he').1 heq
    · apply List.nodup_cons.mpr
      refine ⟨?_, h.distinctData⟩
      intro hm
      obtain ⟨e', he', heq⟩ := List.mem_map.mp hm
      exact (hdatas e' he').2 heq

end

/-- The traversal of a well-formed list returns, having visited every entry. -/
theorem joinThreads_walked {threadReturn : ℕ → Option ℕ} {p : ThreadList} {es : List Entry}
    (h : Holds threadReturn p es) (finished : ℕ → Bool) {fuel : ℕ} (hfuel : es.length < fuel) :
    ∃ p', p.joinThreads threadReturn finished fuel = some p' ∧
      Walked threadReturn finished p p' es [] := by
  have hnext : ∀ p' done e todo,
      Walked threadReturn finished p p' done (e :: todo) ∧ done ++ e :: todo = es →
        p'.slistNext e.addr = some (todo.map Entry.addr).head? := by
    rintro p' done e todo ⟨hw, -⟩
    have hlinked := hw.holds.linked
    rw [List.map_append, List.map_cons] at hlinked
    exact hlinked.next_eq
  have hvisit : ∀ p' done e todo,
      Walked threadReturn finished p p' done (e :: todo) ∧ done ++ e :: todo = es →
        ∃ p'', joinVisit threadReturn finished fuel p' done.length e.addr = some p'' ∧
          Walked threadReturn finished p p'' (done ++ [e]) todo ∧ (done ++ [e]) ++ todo = es := by
    rintro p' done e todo ⟨hw, hes⟩
    have hes' : (done ++ [e]) ++ todo = es := by
      rw [List.append_assoc, List.singleton_append, hes]
    cases hk : finished done.length with
    | false =>
      exact ⟨_, joinVisit_unfinished finished hw.holds (by simp) hk, hw.visit_unfinished hk, hes'⟩
    | true =>
      have hfront : (visited finished false done).length ≤ fuel := by
        have hle := (visited_sublist finished false done).length_le
        have hlen := congrArg List.length hes
        rw [List.length_append] at hlen
        omega
      obtain ⟨p'', hp'', hholds, hjoined⟩ := joinVisit_finished finished hw.holds hfront hk
      exact ⟨p'', hp'', hw.visit_finished hk hjoined hholds, hes'⟩
  obtain ⟨p', hreturns, hdone, -⟩ := foreachSafe_spec Entry.addr
    (fun p' done todo => Walked threadReturn finished p p' done todo ∧ done ++ todo = es)
    hnext hvisit ⟨Walked.start finished h, rfl⟩ hfuel
  rw [← h.linked.head_eq] at hreturns
  exact ⟨p', hreturns, hdone⟩

/-- `join_threads` is a filter. On a well-formed list of any length, whichever threads have
finished when they are visited, it returns; it visits each item once, in order; for each finished
thread it closes its descriptor and frees the item and the `ThreadData`, once each, and it makes no
other call; the list then holds the other items in their order; and nothing else has changed but
links of those items. -/
theorem join_threads_filters {threadReturn : ℕ → Option ℕ} {p : ThreadList} {es : List Entry}
    (h : Holds threadReturn p es) (finished : ℕ → Bool) {fuel : ℕ} (hfuel : es.length < fuel) :
    ∃ p', p.joinThreads threadReturn finished fuel = some p' ∧
      Holds threadReturn p' (visited finished false es) ∧
      p'.calls = p.calls ++ joinCalls finished es ∧
      (∀ e ∈ visited finished true es, p'.blocks e.addr = none ∧ p'.blocks e.data = none) ∧
      (∀ fd, p'.fds fd = (p.fds fd && decide (fd ∉ (visited finished true es).map (·.clientFd)))) ∧
      ∀ a, a ∉ es.map (·.addr) → a ∉ (visited finished true es).map (·.data) →
        p'.blocks a = p.blocks a := by
  obtain ⟨p', hreturns, hdone⟩ := joinThreads_walked h finished hfuel
  have hholds := hdone.holds
  rw [List.append_nil] at hholds
  exact ⟨p', hreturns, hholds, hdone.calls, hdone.freed, hdone.fds, hdone.others⟩

def twoClients : List Entry := [⟨1, 7, [], 2, 5⟩, ⟨3, 8, [], 4, 6⟩]

def twoThreads : ThreadList where
  slhFirst := some 1
  blocks := fun
    | 1 => some (.item ⟨7, [], some 3⟩)
    | 2 => some (.data 5 .sendingData)
    | 3 => some (.item ⟨8, [], none⟩)
    | 4 => some (.data 6 .waitingForData)
    | _ => none
  fds := fun fd => fd = 5 ∨ fd = 6
  calls := []

def twoReturns (threadId : ℕ) : Option ℕ := if threadId = 7 then some 2 else some 4

/-- The first thread has finished and the second has not. -/
theorem twoThreads_first_joined :
    ∃ p', twoThreads.joinThreads twoReturns (· = 0) 3 = some p' ∧
      Holds twoReturns p' [⟨3, 8, [], 4, 6⟩] ∧ p'.blocks 1 = none ∧ p'.blocks 2 = none ∧
      p'.fds 5 = false ∧ p'.fds 6 = true := by
  have hholds : Holds twoReturns twoThreads twoClients := by
    constructor
    · simp [Segment, twoThreads, twoClients, slistNext, item]
    · simp [twoThreads, twoClients]
    · simp [twoThreads, twoClients, twoReturns]
    · decide
    · decide
  obtain ⟨p', hreturns, hkept, -, hfreed, hfds, -⟩ :=
    join_threads_filters hholds (· = 0) (by decide : twoClients.length < 3)
  have hfirst := hfreed ⟨1, 7, [], 2, 5⟩ (by decide)
  refine ⟨p', hreturns, hkept, hfirst.1, hfirst.2, ?_, ?_⟩
  · rw [hfds]
    decide
  · rw [hfds]
    decide

/-- The item as `main_loop` keeps it. -/
def Entry.item (e : Entry) : Item := ⟨e.addr, e.threadId⟩

def visitEvents (e : Entry) (joined : Bool) : List Event :=
  if joined then
    [.tryJoin e.threadId (some (e.data, e.clientFd)), .close e.clientFd true, .free e.addr,
      .free e.data]
  else [.tryJoin e.threadId none]

def joinEvents (finished : ℕ → Bool) (es : List Entry) : List Event :=
  es.zipIdx.flatMap fun v => visitEvents v.1 (finished v.2)

theorem joinEvents_snoc (finished : ℕ → Bool) (es : List Entry) (e : Entry) :
    joinEvents finished (es ++ [e]) =
      joinEvents finished es ++ visitEvents e (finished es.length) := by
  simp [joinEvents, List.zipIdx_append]

/-- `main_loop` once it has visited `done`, with `todo` to come. -/
def mainAfter (m : Main) (finished : ℕ → Bool) (done todo : List Entry) : Main :=
  { m with linkedList := (visited finished false done ++ todo).map Entry.item }.goto
    (.joining (todo.map Entry.item))

theorem main_visit (m : Main) (finished : ℕ → Bool) {done todo : List Entry} {e : Entry}
    (hdistinct : ((done ++ e :: todo).map Entry.addr).Nodup) :
    (visitEvents e (finished done.length)).foldlM Main.joinThreads
        (mainAfter m finished done (e :: todo)) =
      some (mainAfter m finished (done ++ [e]) todo) := by
  cases hk : finished done.length with
  | false =>
    have hkept : visited finished false (done ++ [e]) ++ todo =
        visited finished false done ++ e :: todo := by
      rw [visited_snoc_of_eq hk, List.append_assoc, List.singleton_append]
    rw [mainAfter, mainAfter, hkept]
    simp [visitEvents, Main.joinThreads, Main.goto, Entry.item]
  | true =>
    have hkept : visited finished false (done ++ [e]) = visited finished false done :=
      visited_snoc_of_ne hk e
    have hnotin : e.item ∉ (visited finished false done).map Entry.item := by
      intro hm
      obtain ⟨e', he', heq⟩ := List.mem_map.mp hm
      rw [List.map_append, List.map_cons, List.nodup_middle] at hdistinct
      apply (List.nodup_cons.mp hdistinct).1
      apply List.mem_append_left
      have haddr : e'.addr = e.addr := congrArg Item.addr heq
      rw [← haddr]
      exact List.mem_map_of_mem ((visited_sublist finished false done).subset he')
    have herase : ((visited finished false done ++ e :: todo).map Entry.item).erase e.item =
        (visited finished false done ++ todo).map Entry.item := by
      rw [List.map_append, List.map_cons, List.erase_append_right _ hnotin, List.erase_cons_head,
        List.map_append]
    rw [mainAfter, mainAfter, hkept, ← herase]
    simp [visitEvents, Main.joinThreads, Main.goto, Entry.item]

theorem main_joins (m : Main) (finished : ℕ → Bool) (done todo : List Entry)
    (hdistinct : ((done ++ todo).map Entry.addr).Nodup) :
    (joinEvents finished done).foldlM Main.joinThreads (mainAfter m finished [] (done ++ todo)) =
      some (mainAfter m finished done todo) := by
  induction done using List.reverseRecOn generalizing todo with
  | nil => rfl
  | append_singleton done e ih =>
    rw [List.append_assoc, List.singleton_append] at hdistinct ⊢
    rw [joinEvents_snoc, List.foldlM_append, ih _ hdistinct]
    exact main_visit m finished hdistinct

/-- `join_threads` in memory and `join_threads` on the list of `main_loop` agree: with the same
threads finished they end with the same items. -/
theorem join_threads_refines {threadReturn : ℕ → Option ℕ} {p : ThreadList} {es : List Entry}
    (h : Holds threadReturn p es) {m : Main} (hm : m.linkedList = es.map Entry.item)
    (finished : ℕ → Bool) :
    ∃ p' es', p.joinThreads threadReturn finished (es.length + 1) = some p' ∧
      Holds threadReturn p' es' ∧
      (joinEvents finished es).foldlM Main.joinThreads (m.goto (.joining m.linkedList)) =
        some ({ m with linkedList := es'.map Entry.item }.goto (.joining [])) ∧
      (p'.slistEmpty = true ↔ es'.map Entry.item = []) := by
  obtain ⟨p', hreturns, hdone⟩ := joinThreads_walked h finished (Nat.lt_succ_self es.length)
  have hholds := hdone.holds
  rw [List.append_nil] at hholds
  refine ⟨p', visited finished false es, hreturns, hholds, ?_, ?_⟩
  · have hjoins := main_joins m finished es []
      (by rw [List.append_nil]; exact h.distinct)
    rw [List.append_nil] at hjoins
    have hstart : mainAfter m finished [] es = m.goto (.joining m.linkedList) := by
      rw [hm, mainAfter]
      simp [visited, ← hm]
    rw [← hstart, hjoins, mainAfter, List.append_nil]
    rfl
  · rw [slistEmpty, decide_eq_true_iff, hholds.linked.head_eq]
    simp

end Aesd.Server.ThreadList
