import Mathlib.Data.List.Basic
import Mathlib.Tactic

/-! The descriptor table of a process: finitely many numbers are open, and opening something takes
the lowest that is not. -/
namespace DescriptorTables

variable {δ : Type*}

/-- What each descriptor refers to; from `bound` on none is open. -/
structure Table (δ : Type*) where
  get : ℕ → Option δ
  bound : ℕ
  closed : ∀ fd, bound ≤ fd → get fd = none

namespace Table

variable {t t' t₀ : Table δ} {d : δ} {fd n : ℕ} {targets : List ℕ}

def ofList (fds : List ℕ) (d : ℕ → δ) : Table δ where
  get fd := if fd ∈ fds then some (d fd) else none
  bound := fds.sum + 1
  closed fd hfd := by
    apply if_neg
    intro hmem
    have hle := List.le_sum_of_mem hmem
    omega

def lowest (t : Table δ) : ℕ :=
  ((List.range t.bound).find? fun fd => (t.get fd).isNone).getD t.bound

def set (t : Table δ) (fd : ℕ) (d : Option δ) : Table δ where
  get := Function.update t.get fd d
  bound := max t.bound (fd + 1)
  closed fd' hfd' := by
    rw [Function.update_of_ne (by omega), t.closed fd' (by omega)]

/-- `open` and whatever else takes a new descriptor, `t.lowest`. -/
def openLowest (t : Table δ) (d : δ) : Table δ := t.set t.lowest (some d)

/-- `dup2`, which fails when `old` is not open. -/
def dup2 (t : Table δ) (old new : ℕ) : Option (Table δ) :=
  (t.get old).map fun d => t.set new (some d)

/-- `close`, which fails when `fd` is not open. -/
def close (t : Table δ) (fd : ℕ) : Option (Table δ) :=
  if (t.get fd).isSome then some (t.set fd none) else none

def filter (t : Table δ) (p : δ → Bool) : Table δ where
  get fd := (t.get fd).filter p
  bound := t.bound
  closed fd hfd := by rw [t.closed fd hfd, Option.filter_none]

@[simp] theorem set_get (t : Table δ) (fd : ℕ) (d : Option δ) :
    (t.set fd d).get = Function.update t.get fd d := rfl

@[simp] theorem get_lowest (t : Table δ) : t.get t.lowest = none := by
  unfold lowest
  cases hfind : (List.range t.bound).find? fun fd => (t.get fd).isNone with
  | none => exact t.closed _ le_rfl
  | some fd => exact Option.isNone_iff_eq_none.mp (List.find?_range_eq_some.mp hfind).1

theorem lowest_le (h : t.get fd = none) : t.lowest ≤ fd := by
  unfold lowest
  by_contra hlt
  rw [Nat.not_le] at hlt
  cases hfind : (List.range t.bound).find? fun fd => (t.get fd).isNone with
  | none =>
    rw [hfind, Option.getD_none] at hlt
    exact List.find?_eq_none.mp hfind fd (List.mem_range.mpr hlt) (by simp [h])
  | some n =>
    rw [hfind, Option.getD_some] at hlt
    have hopen := (List.find?_range_eq_some.mp hfind).2.2 fd hlt
    simp [h] at hopen

theorem le_lowest_iff : n ≤ t.lowest ↔ ∀ fd < n, t.get fd ≠ none := by
  constructor
  · intro hn fd hfd hnone
    have hle := lowest_le hnone
    omega
  · intro hopen
    by_contra hlt
    exact hopen t.lowest (by omega) t.get_lowest

theorem lowest_eq_iff : t.lowest = n ↔ t.get n = none ∧ ∀ fd < n, t.get fd ≠ none := by
  constructor
  · rintro rfl
    exact ⟨t.get_lowest, le_lowest_iff.mp le_rfl⟩
  · rintro ⟨hnone, hopen⟩
    exact le_antisymm (lowest_le hnone) (le_lowest_iff.mpr hopen)

theorem openLowest_get {d' : δ} (h : t.get fd = some d') : (t.openLowest d).get fd = some d' := by
  have hne : fd ≠ t.lowest := by
    rintro rfl
    simp at h
  simp [openLowest, hne, h]

/-- `d` has been opened in `t₀` and then duplicated to each of `targets`. -/
def Redirected (t₀ : Table δ) (d : δ) (targets : List ℕ) (t : Table δ) : Prop :=
  ∀ fd, t.get fd = if fd = t₀.lowest ∨ fd ∈ targets then some d else t₀.get fd

theorem redirected_open (t₀ : Table δ) (d : δ) : Redirected t₀ d [] (t₀.openLowest d) := by
  intro fd
  by_cases hfd : fd = t₀.lowest
  · simp [openLowest, hfd]
  · simp [openLowest, hfd]

theorem Redirected.dup2 (h : Redirected t₀ d targets t) (n : ℕ) :
    ∃ t', t.dup2 t₀.lowest n = some t' ∧ Redirected t₀ d (n :: targets) t' := by
  have hopen : t.get t₀.lowest = some d := (h _).trans (if_pos (.inl rfl))
  refine ⟨t.set n (some d), by simp [Table.dup2, hopen], fun fd => ?_⟩
  by_cases hfd : fd = n
  · simp [hfd]
  · simp [hfd, h fd]

/-- The descriptor that was opened is closed again, even when it is one of the targets. -/
theorem Redirected.close (h : Redirected t₀ d targets t) :
    ∃ t', t.close t₀.lowest = some t' ∧ ∀ fd, t'.get fd =
      if fd = t₀.lowest then none else if fd ∈ targets then some d else t₀.get fd := by
  have hopen : t.get t₀.lowest = some d := (h _).trans (if_pos (.inl rfl))
  refine ⟨t.set t₀.lowest none, by simp [Table.close, hopen], fun fd => ?_⟩
  by_cases hfd : fd = t₀.lowest
  · simp [hfd]
  · simp [hfd, h fd]

end Table
end DescriptorTables
