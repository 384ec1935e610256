import Aesd.Lib.Blocks

/-! Heaps side by side: what is done in one part of a heap leaves the rest of it as it was. -/
namespace Blocks.Heap

variable {β : Type*} {h h' rest : Heap β} {a off k : ℕ} {block bytes : List β}

def union (h rest : Heap β) : Heap β := fun a => (h a).or (rest a)

def Apart (h rest : Heap β) : Prop := ∀ a, h a = none ∨ rest a = none

theorem union_of_live (hl : h a = some block) (rest : Heap β) : h.union rest a = some block := by
  rw [union, hl]
  rfl

theorem union_eq_none : h.union rest a = none ↔ h a = none ∧ rest a = none :=
  Option.or_eq_none_iff

theorem isSome_union : (h.union rest a).isSome ↔ (h a).isSome ∨ (rest a).isSome := by
  simp [union]

theorem apart_empty (h : Heap β) : h.Apart fun _ => none := fun _ => .inr rfl

@[simp] theorem union_empty (h : Heap β) : (h.union fun _ => none) = h := by
  funext a
  exact Option.or_none

@[simp] theorem empty_union (rest : Heap β) : Heap.union (fun _ => none) rest = rest := by
  funext a
  exact Option.none_or

theorem union_update (hr : rest a = none) (o : Option (List β)) :
    Function.update (h.union rest) a o = Heap.union (Function.update h a o) rest := by
  funext b
  by_cases hb : b = a
  · simp [union, hb, hr]
  · simp [union, hb]

theorem Apart.update (hd : h.Apart rest) (hr : rest a = none) (o : Option (List β)) :
    Heap.Apart (Function.update h a o) rest := by
  intro b
  by_cases hb : b = a
  · exact .inr (hb ▸ hr)
  · rw [Function.update_of_ne hb]
    exact hd b

theorem Apart.rest_none (hd : h.Apart rest) (hl : h a = some block) : rest a = none :=
  (hd a).resolve_left (by simp [hl])

theorem load_union (hl : h.load a off k = some bytes) (rest : Heap β) :
    (h.union rest).load a off k = some bytes := by
  obtain ⟨block, hblock, hread⟩ := Option.bind_eq_some_iff.mp hl
  rw [load, union_of_live hblock, Option.bind_some, hread]

theorem store_union (hd : h.Apart rest) (hs : h.store a off bytes = some h') :
    (h.union rest).store a off bytes = some (h'.union rest) ∧ h'.Apart rest := by
  obtain ⟨block, hblock, hwrite⟩ := Option.bind_eq_some_iff.mp hs
  obtain ⟨block', hblock', rfl⟩ := Option.map_eq_some_iff.mp hwrite
  have hr := hd.rest_none hblock
  refine ⟨?_, hd.update hr _⟩
  rw [store, union_of_live hblock, Option.bind_some, hblock', Option.map_some, union_update hr]

theorem free_union (hd : h.Apart rest) (hf : h.free a = some h') :
    (h.union rest).free a = some (h'.union rest) ∧ h'.Apart rest := by
  unfold free at hf
  split at hf
  next hlive =>
    obtain ⟨block, hblock⟩ := Option.isSome_iff_exists.mp hlive
    obtain rfl := Option.some.inj hf
    have hr := hd.rest_none hblock
    refine ⟨?_, hd.update hr _⟩
    rw [free_of_live (union_of_live hblock rest), union_update hr]
  next => cases hf

theorem alloc_union (hd : h.Apart rest) (ha : h.union rest a = none) (block : List β) :
    (h.union rest).alloc a block = (h.alloc a block).union rest ∧ (h.alloc a block).Apart rest := by
  have hr := (union_eq_none.mp ha).2
  exact ⟨union_update hr _, hd.update hr _⟩

theorem Apart.symm (hd : h.Apart rest) : rest.Apart h := fun a => (hd a).symm

theorem Apart.union_comm (hd : h.Apart rest) : h.union rest = rest.union h := by
  funext a
  rcases hd a with ha | ha
  · simp [union, ha]
  · simp [union, ha]

theorem free_union_rest (hd : h.Apart rest) {rest' : Heap β} (hf : rest.free a = some rest') :
    (h.union rest).free a = some (h.union rest') ∧ h.Apart rest' := by
  obtain ⟨hfree, hd'⟩ := free_union hd.symm hf
  exact ⟨by rw [hd.union_comm, hfree, hd'.symm.union_comm], hd'.symm⟩

theorem Owns.union {ps qs : List ℕ} (hp : h.Owns ps) (hq : rest.Owns qs) (hd : h.Apart rest) :
    (h.union rest).Owns (ps ++ qs) := by
  constructor
  · refine List.nodup_append'.mpr ⟨hp.1, hq.1, ?_⟩
    intro a ha hb
    obtain ⟨block, hblock⟩ := hp.live ha
    exact hq.dead (hd.rest_none hblock) hb
  · intro a
    rw [isSome_union, hp.2, hq.2, List.mem_append]

/-- The heap is these blocks, each with its address. -/
structure Consists (h : Heap β) (blocks : List (ℕ × List β)) : Prop where
  owns : h.Owns (blocks.map Prod.fst)
  holds : ∀ p ∈ blocks, h p.1 = some p.2

theorem consists_empty : Consists (fun _ => none : Heap β) [] :=
  ⟨owns_empty, fun _ hp => absurd hp List.not_mem_nil⟩

theorem Consists.union {blocks more : List (ℕ × List β)} (hc : h.Consists blocks)
    (hr : rest.Consists more) (hd : h.Apart rest) : (h.union rest).Consists (blocks ++ more) := by
  constructor
  · rw [List.map_append]
    exact hc.owns.union hr.owns hd
  · intro p hp
    rcases List.mem_append.mp hp with hp | hp
    · exact union_of_live (hc.holds p hp) rest
    · rw [hd.union_comm]
      exact union_of_live (hr.holds p hp) h

/-- A live block handed over to the rest. -/
theorem union_handOver (hd : h.Apart rest) (hl : h a = some block) :
    h.union rest = Heap.union (Function.update h a none) (rest.alloc a block) ∧
      Heap.Apart (Function.update h a none) (rest.alloc a block) := by
  constructor
  · funext b
    by_cases hb : b = a
    · subst hb
      simp [union, hl]
    · simp [union, alloc, hb]
  · intro b
    by_cases hb : b = a
    · exact .inl (by rw [hb, Function.update_self])
    · rw [Function.update_of_ne hb, alloc_of_ne _ _ hb]
      exact hd b

variable {ι : Type*} {claim : ι → Option ℕ} {i : ι}

/-- Every live block is claimed, each by one claimant. -/
structure ClaimedBy (h : Heap β) (claim : ι → Option ℕ) : Prop where
  live : ∀ a, (h a).isSome ↔ ∃ i, claim i = some a
  alone : ∀ i j a, claim i = some a → claim j = some a → i = j

theorem claimedBy_none : ClaimedBy (fun _ => none : Heap β) fun _ : ι => none where
  live a := by simp
  alone i j a h := by cases h

variable [DecidableEq ι]

theorem ClaimedBy.alloc (hc : h.ClaimedBy claim) (hi : claim i = none) (ha : h a = none)
    (block : List β) : (h.alloc a block).ClaimedBy (Function.update claim i (some a)) := by
  have hnew : ∀ j, Function.update claim i (some a) j = some a → j = i := by
    intro j hj
    by_contra hne
    rw [Function.update_of_ne hne] at hj
    have hlive := (hc.live a).mpr ⟨j, hj⟩
    simp [ha] at hlive
  have hother : ∀ j b, b ≠ a →
      (Function.update claim i (some a) j = some b ↔ claim j = some b) := by
    intro j b hb
    by_cases hj : j = i
    · subst hj
      rw [Function.update_self, hi]
      simp [Ne.symm hb]
    · rw [Function.update_of_ne hj]
  constructor
  · intro b
    by_cases hb : b = a
    · subst hb
      exact ⟨fun _ => ⟨i, Function.update_self ..⟩, fun _ => by simp⟩
    · rw [alloc_of_ne _ _ hb, hc.live]
      exact exists_congr fun j => (hother j b hb).symm
  · intro j k b hj hk
    by_cases hb : b = a
    · subst hb
      exact (hnew j hj).trans (hnew k hk).symm
    · exact hc.alone j k b ((hother j b hb).mp hj) ((hother k b hb).mp hk)

theorem ClaimedBy.free (hc : h.ClaimedBy claim) (hi : claim i = some a) :
    h.free a = some (Function.update h a none) ∧
      ClaimedBy (Function.update h a none) (Function.update claim i none) := by
  have hother : ∀ j b, Function.update claim i none j = some b ↔ claim j = some b ∧ b ≠ a := by
    intro j b
    by_cases hj : j = i
    · subst hj
      rw [Function.update_self, hi]
      constructor
      · intro hb
        cases hb
      · rintro ⟨hb, hne⟩
        exact absurd (Option.some.inj hb).symm hne
    · rw [Function.update_of_ne hj]
      refine ⟨fun hb => ⟨hb, ?_⟩, And.left⟩
      rintro rfl
      exact hj (hc.alone j i b hb hi)
  obtain ⟨block, hblock⟩ := Option.isSome_iff_exists.mp ((hc.live a).mpr ⟨i, hi⟩)
  refine ⟨free_of_live hblock, ?_, ?_⟩
  · intro b
    by_cases hb : b = a
    · subst hb
      simp [hother]
    · rw [Function.update_of_ne hb, hc.live]
      exact exists_congr fun j => by rw [hother, and_iff_left hb]
  · intro j k b hj hk
    exact hc.alone j k b ((hother j b).mp hj).1 ((hother k b).mp hk).1

end Blocks.Heap
