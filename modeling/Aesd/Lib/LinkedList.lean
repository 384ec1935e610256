import Mathlib.Data.List.Basic
import Mathlib.Logic.Function.Basic
import Mathlib.Tactic

/-! Singly linked lists in memory, and walks that change the list on their way. Reading the link of
a node that is not live has no result. -/
namespace LinkedList

variable {α σ : Type*} {next next' : α → Option (Option α)} {p q : Option α} {x elm pred : α}
  {xs ys front rest : List α}

/-- From the pointer `p` the nodes `xs` are linked, up to the pointer `q`. -/
def Segment (next : α → Option (Option α)) : Option α → List α → Option α → Prop
  | p, [], q => p = q
  | p, x :: xs, q => p = some x ∧ ∃ r, next x = some r ∧ Segment next r xs q

theorem segment_append :
    Segment next p (xs ++ ys) q ↔ ∃ r, Segment next p xs r ∧ Segment next r ys q := by
  induction xs generalizing p with
  | nil => simp [Segment]
  | cons x xs ih =>
    simp only [List.cons_append, Segment, ih]
    constructor
    · rintro ⟨hp, r, hr, r', hxs, hys⟩
      exact ⟨r', ⟨hp, r, hr, hxs⟩, hys⟩
    · rintro ⟨r', ⟨hp, r, hr, hxs⟩, hys⟩
      exact ⟨hp, r, hr, r', hxs, hys⟩

theorem Segment.congr (h : Segment next p xs q) (hsame : ∀ x ∈ xs, next' x = next x) :
    Segment next' p xs q := by
  induction xs generalizing p with
  | nil => exact h
  | cons x xs ih =>
    obtain ⟨hp, r, hr, hxs⟩ := h
    exact ⟨hp, r, (hsame x List.mem_cons_self).trans hr,
      ih hxs fun y hy => hsame y (List.mem_cons_of_mem _ hy)⟩

theorem Segment.head_eq (h : Segment next p xs none) : p = xs.head? := by
  cases xs with
  | nil => exact h
  | cons x xs => exact h.1

theorem Segment.next_eq (h : Segment next p (front ++ x :: rest) none) :
    next x = some rest.head? := by
  obtain ⟨r, -, -, r', hr', hrest⟩ := segment_append.mp h
  rw [hr', hrest.head_eq]

/-- Every node but the last links to the next one, so a node is the successor of one node only. -/
theorem Segment.pred_next (h : Segment next p (front ++ pred :: elm :: rest) q) :
    next pred = some (some elm) := by
  obtain ⟨r, -, -, r', hr', helm, -⟩ := segment_append.mp h
  rw [hr', helm]

/-- Unlinking a node: its predecessor takes over its link and the other links are kept. -/
theorem Segment.unlink (h : Segment next p (front ++ pred :: elm :: rest) q)
    (hpred : next' pred = next elm) (hother : ∀ x ∈ front ++ rest, next' x = next x) :
    Segment next' p (front ++ pred :: rest) q := by
  obtain ⟨r, hfront, hr, r', -, -, r'', helm, hrest⟩ := segment_append.mp h
  apply segment_append.mpr
  refine ⟨r, hfront.congr ?_, hr, r'', hpred.trans helm, hrest.congr ?_⟩
  · intro x hx
    exact hother x (List.mem_append_left _ hx)
  · intro x hx
    exact hother x (List.mem_append_right _ hx)

/-- From `cur` on the node whose link is `elm`, looked for in at most `fuel` nodes. Following the
link of a node that is not live, or `NULL`, has no result. -/
def predecessor [DecidableEq α] (next : α → Option (Option α)) (elm : α) : (fuel : ℕ) → α → Option α
  | 0, _ => none
  | fuel + 1, cur => (next cur).bind fun r =>
    if r = some elm then some cur else r.bind (predecessor next elm fuel)

theorem predecessor_eq [DecidableEq α] {cur : α} {fuel : ℕ}
    (h : Segment next (some cur) (front ++ pred :: elm :: rest) q)
    (helm : elm ∉ front ++ [pred]) (hfuel : front.length < fuel) :
    predecessor next elm fuel cur = some pred := by
  induction front generalizing cur fuel with
  | nil =>
    obtain ⟨fuel, rfl⟩ := Nat.exists_eq_succ_of_ne_zero (Nat.ne_zero_of_lt hfuel)
    obtain ⟨hcur, r, hr, hnext, -⟩ := h
    rw [predecessor, Option.some.inj hcur, hr, Option.bind_some, if_pos hnext]
  | cons y front ih =>
    obtain ⟨fuel, rfl⟩ := Nat.exists_eq_succ_of_ne_zero (Nat.ne_zero_of_lt hfuel)
    obtain ⟨hcur, r, hr, htail⟩ := h
    have htail_elm : elm ∉ front ++ [pred] := fun hm => helm (List.mem_cons_of_mem _ hm)
    have hhead : r = some ((front ++ [pred]).head (by simp)) := by
      cases front with
      | nil => exact htail.1
      | cons z front => exact htail.1
    have hne : r ≠ some elm := by
      rw [hhead]
      intro heq
      exact htail_elm (Option.some.inj heq ▸ List.head_mem _)
    rw [predecessor, Option.some.inj hcur, hr, Option.bind_some, if_neg hne, hhead,
      Option.bind_some]
    rw [hhead] at htail
    exact ih htail htail_elm (Nat.lt_of_succ_lt_succ hfuel)

/-- Visit the nodes from `var` on, numbered from `k`, in at most `fuel` rounds. The link of a node
is read before its visit, which may unlink the node and release it. -/
def foreachSafe (next : σ → α → Option (Option α)) (visit : σ → ℕ → α → Option σ) :
    (fuel k : ℕ) → (var : Option α) → σ → Option σ
  | 0, _, _, _ => none
  | _ + 1, _, none, s => some s
  | fuel + 1, k, some x, s =>
    (next s x).bind fun tvar =>
      (visit s k x).bind fun s => foreachSafe next visit fuel (k + 1) tvar s

/-- The rule of such a walk. `I` relates the state to the entries visited and those to come: it
gives the link of the node visited, and a visit takes its entry from the one list to the other. The
walk then ends within one round more than there are entries. -/
theorem foreachSafe_spec {β : Type*} (node : β → α) {nextOf : σ → α → Option (Option α)}
    {visit : σ → ℕ → α → Option σ} (I : σ → List β → List β → Prop)
    (hnext : ∀ s done x todo, I s done (x :: todo) →
      nextOf s (node x) = some (todo.map node).head?)
    (hvisit : ∀ s done x todo, I s done (x :: todo) →
      ∃ s', visit s done.length (node x) = some s' ∧ I s' (done ++ [x]) todo)
    {s : σ} {done todo : List β} {fuel : ℕ} (hi : I s done todo) (hfuel : todo.length < fuel) :
    ∃ s', foreachSafe nextOf visit fuel done.length (todo.map node).head? s = some s' ∧
      I s' (done ++ todo) [] := by
  induction todo generalizing s done fuel with
  | nil =>
    obtain ⟨fuel, rfl⟩ := Nat.exists_eq_succ_of_ne_zero (Nat.ne_zero_of_lt hfuel)
    exact ⟨s, rfl, by simpa using hi⟩
  | cons x todo ih =>
    obtain ⟨fuel, rfl⟩ := Nat.exists_eq_succ_of_ne_zero (Nat.ne_zero_of_lt hfuel)
    obtain ⟨s₁, hs₁, hi₁⟩ := hvisit s done x todo hi
    obtain ⟨s', hs', hi'⟩ := ih hi₁ (Nat.lt_of_succ_lt_succ hfuel)
    rw [List.length_append, List.length_singleton] at hs'
    rw [List.append_assoc, List.singleton_append] at hi'
    refine ⟨s', ?_, hi'⟩
    simp only [List.map_cons, List.head?_cons, foreachSafe, hnext s done x todo hi, hs₁,
      Option.bind_some]
    exact hs'

end LinkedList
