import Mathlib.Data.List.DropRight
import Mathlib.Logic.Function.Basic
import Mathlib.Tactic

/-! Consecutive cells of a ring of `n` cells, and the list of the last `n` items pushed. -/
namespace CircularWindow

variable {α : Type*} {n : ℕ}

/-- The contents of `k` consecutive cells from `start`, wrapping at `n`. -/
def window (n : ℕ) (cell : ℕ → α) (start k : ℕ) : List α :=
  (List.range k).map fun j => cell ((start + j) % n)

@[simp] theorem window_length (cell : ℕ → α) (start k : ℕ) :
    (window n cell start k).length = k := by simp [window]

@[simp] theorem window_zero (cell : ℕ → α) (start : ℕ) : window n cell start 0 = [] := rfl

theorem window_cons (cell : ℕ → α) (start k : ℕ) :
    window n cell start (k + 1) = cell (start % n) :: window n cell (start + 1) k := by
  simp only [window, List.range_succ_eq_map, List.map_cons, List.map_map, Nat.add_zero]
  congr 1
  apply List.map_congr_left
  intro j _
  simp only [Function.comp_apply, Nat.succ_eq_add_one]
  congr 2
  omega

theorem window_start_mod (cell : ℕ → α) (start k : ℕ) :
    window n cell (start % n) k = window n cell start k := by
  simp [window, Nat.add_mod]

theorem window_getElem? (cell : ℕ → α) {start k j : ℕ} (hj : j < k) :
    (window n cell start k)[j]? = some (cell ((start + j) % n)) := by
  simp [window, hj]

theorem offset_injective {start j k : ℕ} (hj : j < n) (hk : k < n)
    (h : (start + j) % n = (start + k) % n) : j = k := by
  have h' := Nat.ModEq.add_left_cancel' start h
  rwa [Nat.ModEq, Nat.mod_eq_of_lt hj, Nat.mod_eq_of_lt hk] at h'

/-- The ring holds `items` from `start` on, and `blank` in every other cell. -/
def Holds (n : ℕ) (cell : ℕ → α) (blank : α) (start : ℕ) (items : List α) : Prop :=
  items.length ≤ n ∧ window n cell start n = items ++ List.replicate (n - items.length) blank

theorem Holds.length_le {cell : ℕ → α} {blank : α} {start : ℕ} {items : List α}
    (h : Holds n cell blank start items) : items.length ≤ n := h.1

theorem holds_blank (blank : α) (start : ℕ) : Holds n (fun _ => blank) blank start [] := by
  refine ⟨Nat.zero_le _, ?_⟩
  rw [List.eq_replicate_of_mem (a := blank) (l := window n (fun _ => blank) start n)]
  · simp
  · intro b hb
    obtain ⟨_, _, rfl⟩ := List.mem_map.mp hb
    rfl

theorem Holds.cell_eq {cell : ℕ → α} {blank : α} {start : ℕ} {items : List α}
    (h : Holds n cell blank start items) {j : ℕ} (hj : j < n) :
    cell ((start + j) % n) = items[j]?.getD blank := by
  have hw : (window n cell start n)[j]? = some (cell ((start + j) % n)) := window_getElem? cell hj
  rw [h.2, List.getElem?_append] at hw
  split at hw
  next hlt => rw [hw, Option.getD_some]
  next hge =>
    rw [List.getElem?_replicate, if_pos (by omega)] at hw
    rw [List.getElem?_eq_none (not_lt.mp hge), Option.getD_none]
    exact (Option.some.inj hw).symm

theorem Holds.window_length_eq {cell : ℕ → α} {blank : α} {start : ℕ} {items : List α}
    (h : Holds n cell blank start items) : window n cell start items.length = items := by
  have hsub : window n cell start items.length = (window n cell start n).take items.length := by
    rw [window, window, ← List.map_take, List.take_range, Nat.min_eq_left h.length_le]
  rw [hsub, h.2, List.take_left]

/-- A ring is determined by what it shows at each offset. -/
theorem holds_of_cells {cell : ℕ → α} {blank : α} {start : ℕ} {items : List α}
    (hlen : items.length ≤ n)
    (h : ∀ j < n, cell ((start + j) % n) = items[j]?.getD blank) :
    Holds n cell blank start items := by
  refine ⟨hlen, List.ext_getElem? fun j => ?_⟩
  by_cases hj : j < n
  · rw [window_getElem? cell hj, h j hj, List.getElem?_append]
    split
    next hlt => simp [hlt]
    next hge =>
      rw [List.getElem?_eq_none (not_lt.mp hge), List.getElem?_replicate, if_pos (by omega),
        Option.getD_none]
  · rw [List.getElem?_eq_none (by simpa using hj), List.getElem?_eq_none]
    simp only [List.length_append, List.length_replicate]
    omega

theorem Holds.append {cell : ℕ → α} {blank : α} {start : ℕ} {items : List α}
    (h : Holds n cell blank start items) (hroom : items.length < n) (x : α) :
    Holds n (Function.update cell ((start + items.length) % n) x) blank start
      (items ++ [x]) := by
  refine holds_of_cells (by simpa using hroom) fun j hj => ?_
  by_cases he : j = items.length
  · simp [he]
  · have hne : (start + j) % n ≠ (start + items.length) % n :=
      fun hc => he (offset_injective hj hroom hc)
    rw [Function.update_of_ne hne, h.cell_eq hj]
    rw [List.getElem?_append]
    split
    next => rfl
    next hge =>
      rw [List.getElem?_eq_none (not_lt.mp hge), List.getElem?_eq_none (by simp; omega)]

/-- A write over the oldest item of a full ring drops it and appends the new one. -/
theorem Holds.overwrite {cell : ℕ → α} {blank : α} {start : ℕ} {items : List α}
    (h : Holds n cell blank start items) (hfull : items.length = n) (hn : 0 < n) (x : α) :
    Holds n (Function.update cell (start % n) x) blank (start + 1) (items.tail ++ [x]) := by
  have hlen : items.tail.length + 1 = n := by rw [List.length_tail]; omega
  refine holds_of_cells (by simp; omega) fun j hj => ?_
  by_cases he : j + 1 = n
  · have hwrap : (start + 1 + j) % n = start % n := by
      rw [show start + 1 + j = start + n by omega, Nat.add_mod_right]
    have hjt : j = items.tail.length := by omega
    rw [hwrap, Function.update_self, hjt, List.getElem?_concat_length, Option.getD_some]
  · have hne : (start + (j + 1)) % n ≠ start % n := by
      intro hc
      have h0 : (start + (j + 1)) % n = (start + 0) % n := hc
      exact absurd (offset_injective (by omega) hn h0) (by omega)
    rw [show start + 1 + j = start + (j + 1) by omega, Function.update_of_ne hne,
      h.cell_eq (by omega)]
    rw [List.getElem?_append, List.getElem?_tail, if_pos (by omega)]

theorem Holds.head_cell {cell : ℕ → α} {blank : α} {start : ℕ} {items : List α}
    (h : Holds n cell blank start items) (hn : 0 < n) :
    cell (start % n) = items[0]?.getD blank := by simpa using h.cell_eq hn

/-- Append `x` and keep the last `n`. -/
def pushLast (n : ℕ) (items : List α) (x : α) : List α := (items ++ [x]).rtake n

theorem rtake_of_length_le {l : List α} (h : l.length ≤ n) : l.rtake n = l := by
  simp [List.rtake, Nat.sub_eq_zero_of_le h]

theorem length_rtake (l : List α) : (l.rtake n).length = min n l.length := by
  simp only [List.rtake, List.length_drop]
  omega

theorem mem_of_mem_rtake {l : List α} {x : α} (h : x ∈ l.rtake n) : x ∈ l := List.mem_of_mem_drop h

theorem rtake_append (l m : List α) : (l.rtake n ++ m).rtake n = (l ++ m).rtake n := by
  simp only [List.rtake, List.length_append, List.length_drop, List.drop_append, List.drop_drop]
  congr 2 <;> omega

theorem pushLast_rtake (l : List α) (x : α) : pushLast n (l.rtake n) x = (l ++ [x]).rtake n :=
  rtake_append l [x]

theorem pushLast_of_lt {items : List α} (h : items.length < n) (x : α) :
    pushLast n items x = items ++ [x] := rtake_of_length_le (by simpa using h)

theorem pushLast_of_length_eq {items : List α} (h : items.length = n) (hn : 0 < n) (x : α) :
    pushLast n items x = items.tail ++ [x] := by
  cases items with
  | nil => simp at h; omega
  | cons y ys =>
    simp only [List.length_cons] at h
    simp [pushLast, List.rtake, h.symm]

theorem length_pushLast_le (items : List α) (x : α) : (pushLast n items x).length ≤ n := by
  simp [pushLast, length_rtake]

theorem reverse_pushLast (items : List α) (x : α) :
    (pushLast n items x).reverse = (x :: items.reverse).take n := by
  rw [pushLast, List.rtake_eq_reverse_take_reverse, List.reverse_reverse, List.reverse_append]
  rfl

theorem pushLast_ne_nil (hn : 0 < n) (items : List α) (x : α) : pushLast n items x ≠ [] := by
  intro h
  have hlen := congrArg List.length h
  rw [pushLast, length_rtake, List.length_append, List.length_singleton, List.length_nil] at hlen
  omega

theorem mem_pushLast {items : List α} {x y : α} (h : y ∈ pushLast n items x) :
    y ∈ items ∨ y = x := by
  simpa using mem_of_mem_rtake h

end CircularWindow
