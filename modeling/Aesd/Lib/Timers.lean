import Mathlib.Algebra.Order.Monoid.Defs
import Mathlib.Data.List.Chain
import Mathlib.Tactic

/-! A periodic timer that is looked at now and then: it goes off at the first reading of the clock
that is at least a period after the reading at which it last went off. -/
namespace Timers

variable {α : Type*} [AddCommMonoid α] [LinearOrder α] {period last reading : α} {readings : List α}

/-- The readings at which the timer goes off. -/
def due (period : α) : (last : α) → List α → List α
  | _, [] => []
  | last, r :: rs => if last + period ≤ r then r :: due period r rs else due period last rs

/-- The reading at which it last went off. -/
def lastDue (period last : α) (readings : List α) : α := (due period last readings).getLastD last

@[simp] theorem lastDue_nil : lastDue period last [] = last := rfl

theorem due_concat : due period last (readings ++ [reading]) = due period last readings ++
    if lastDue period last readings + period ≤ reading then [reading] else [] := by
  induction readings generalizing last with
  | nil => rfl
  | cons r rs ih =>
    rw [List.cons_append, due, due]
    by_cases hr : last + period ≤ r
    · rw [if_pos hr, if_pos hr, ih, List.cons_append, lastDue, lastDue, due, if_pos hr,
        List.getLastD_cons]
    · rw [if_neg hr, if_neg hr, ih, lastDue, lastDue, due, if_neg hr]

theorem lastDue_concat_of_le (h : lastDue period last readings + period ≤ reading) :
    lastDue period last (readings ++ [reading]) = reading := by
  rw [lastDue, due_concat, if_pos h, List.getLastD_concat]

theorem lastDue_concat_of_lt (h : reading < lastDue period last readings + period) :
    lastDue period last (readings ++ [reading]) = lastDue period last readings := by
  rw [lastDue, due_concat, if_neg (not_le.mpr h), List.append_nil, lastDue]

/-- It never goes off twice within a period, whatever the clock does. -/
theorem due_isChain (period last : α) (readings : List α) :
    List.IsChain (fun r r' => r + period ≤ r') (last :: due period last readings) := by
  induction readings generalizing last with
  | nil => exact List.isChain_singleton _
  | cons r rs ih =>
    rw [due]
    split
    next hr => exact List.isChain_cons_cons.mpr ⟨hr, ih r⟩
    next => exact ih last

/-- To go off `n` times takes `n` periods. -/
theorem add_nsmul_le_lastDue [IsOrderedAddMonoid α] (period last : α) (readings : List α) :
    last + (due period last readings).length • period ≤ lastDue period last readings := by
  induction readings using List.reverseRecOn with
  | nil => simp [due]
  | append_singleton rs r ih =>
    rcases le_or_gt (lastDue period last rs + period) r with hr | hr
    · rw [lastDue_concat_of_le hr, due_concat, if_pos hr, List.length_append, List.length_singleton,
        succ_nsmul, ← add_assoc]
      exact (add_le_add_left ih period).trans hr
    · rw [lastDue_concat_of_lt hr, due_concat, if_neg (not_le.mpr hr), List.append_nil]
      exact ih

end Timers
