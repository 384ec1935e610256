import Mathlib.Data.List.Basic
import Mathlib.Algebra.BigOperators.Group.List.Basic
import Mathlib.Tactic

/-! Positions in a concatenation of segments. -/
namespace Segments

/-- The segment that position `off` of the concatenation falls in, and the offset inside it. -/
def locate : List ℕ → ℕ → Option (ℕ × ℕ)
  | [], _ => none
  | len :: lens, off =>
    if off < len then some (0, off)
    else (locate lens (off - len)).map fun p => (p.1 + 1, p.2)

theorem locate_eq_none_iff {lens : List ℕ} {off : ℕ} :
    locate lens off = none ↔ lens.sum ≤ off := by
  induction lens generalizing off with
  | nil => simp [locate]
  | cons len lens ih =>
    simp only [locate, List.sum_cons]
    split
    next h =>
      simp only [reduceCtorEq, false_iff]
      omega
    next h =>
      rw [Option.map_eq_none_iff, ih]
      omega

/-- The segment found is the one whose lower sum is at most `off` and upper sum above it. -/
theorem locate_eq_some_iff {lens : List ℕ} {off k r : ℕ} :
    locate lens off = some (k, r) ↔
      ∃ len, lens[k]? = some len ∧ r < len ∧ off = (lens.take k).sum + r := by
  induction lens generalizing off k with
  | nil => simp [locate]
  | cons len lens ih =>
    simp only [locate]
    split
    next h =>
      cases k with
      | zero =>
        simp only [Option.some.injEq, Prod.mk.injEq, true_and, List.getElem?_cons_zero,
          List.take_zero, List.sum_nil, zero_add, exists_eq_left']
        omega
      | succ k =>
        simp only [Option.some.injEq, Prod.mk.injEq, Nat.zero_ne_add_one, false_and,
          List.take_succ_cons, List.sum_cons, false_iff, not_exists, not_and]
        intro _ _ _
        omega
    next h =>
      cases k with
      | zero =>
        simp only [Option.map_eq_some_iff, Prod.mk.injEq, Nat.add_eq_zero_iff, one_ne_zero,
          and_false, false_and, exists_false, List.getElem?_cons_zero, Option.some.injEq,
          List.take_zero, List.sum_nil, zero_add, exists_eq_left', false_iff, not_and]
        omega
      | succ k =>
        simp only [Option.map_eq_some_iff, Prod.mk.injEq, Nat.add_right_cancel_iff, Prod.exists,
          List.getElem?_cons_succ, List.take_succ_cons, List.sum_cons]
        constructor
        · rintro ⟨k', r', hl, rfl, rfl⟩
          obtain ⟨len', hk, hr, ho⟩ := ih.mp hl
          exact ⟨len', hk, hr, by omega⟩
        · rintro ⟨len', hk, hr, ho⟩
          exact ⟨k, r, ih.mpr ⟨len', hk, hr, by omega⟩, rfl, rfl⟩

theorem locate_append_zeros (lens : List ℕ) (k off : ℕ) :
    locate (lens ++ List.replicate k 0) off = locate lens off := by
  induction lens generalizing off with
  | nil =>
    induction k with
    | zero => rfl
    | succ k ih => simpa [List.replicate_succ, locate] using ih
  | cons len lens ih => simp only [List.cons_append, locate, ih]

theorem drop_flatten_of_locate {β : Type*} {segs : List (List β)} {off k r : ℕ}
    (h : locate (segs.map List.length) off = some (k, r)) :
    ∃ seg, segs[k]? = some seg ∧ r < seg.length ∧
      segs.flatten.drop off = seg.drop r ++ (segs.drop (k + 1)).flatten := by
  obtain ⟨len, hk, hr, ho⟩ := locate_eq_some_iff.mp h
  rw [List.getElem?_map] at hk
  obtain ⟨seg, hs, rfl⟩ := Option.map_eq_some_iff.mp hk
  refine ⟨seg, hs, hr, ?_⟩
  obtain ⟨hlt, he⟩ := List.getElem?_eq_some_iff.mp hs
  have hsplit : segs = segs.take k ++ seg :: segs.drop (k + 1) := by
    rw [← he, List.getElem_cons_drop, List.take_append_drop]
  have hlen : ((segs.map List.length).take k).sum = (segs.take k).flatten.length := by
    rw [List.length_flatten, List.map_take]
  conv_lhs => rw [hsplit, List.flatten_append, List.flatten_cons]
  rw [ho, hlen, List.drop_append, List.drop_eq_nil_of_le (by omega), List.nil_append,
    Nat.add_sub_cancel_left, List.drop_append_of_le_length hr.le]

theorem locate_lengths_eq_none_iff {β : Type*} {segs : List (List β)} {off : ℕ} :
    locate (segs.map List.length) off = none ↔ segs.flatten.length ≤ off := by
  rw [locate_eq_none_iff, List.length_flatten]

end Segments
