import Aesd.Lib.CircularWindow

/-! A first-in first-out queue that drops its oldest item when it is full. -/
namespace BoundedFifo
open CircularWindow

variable {α : Type*} {n : ℕ}

/-- A queue never holds more than its capacity. -/
structure Queue (α : Type*) (n : ℕ) where
  items : List α
  bounded : items.length ≤ n

inductive Op (α : Type*) where
  | push (x : α)
  | pop
  deriving DecidableEq

def Op.isPush : Op α → Bool
  | .push _ => true
  | .pop => false

def Queue.nil : Queue α n := ⟨[], Nat.zero_le _⟩

def Queue.push (q : Queue α n) (x : α) : Queue α n :=
  ⟨pushLast n q.items x, length_pushLast_le _ _⟩

def Queue.pop (q : Queue α n) : Queue α n :=
  ⟨q.items.tail, by simpa using Nat.le_succ_of_le q.bounded⟩

def Queue.step (q : Queue α n) : Op α → Queue α n
  | .push x => q.push x
  | .pop => q.pop

/-- The item that an operation takes out: one popped, or one that a push on a full queue drops. -/
def Queue.departs (q : Queue α n) : Op α → Option α
  | .push _ => if q.items.length = n then q.items.head? else none
  | .pop => q.items.head?

def pushed : List (Op α) → List α
  | [] => []
  | .push x :: ops => x :: pushed ops
  | .pop :: ops => pushed ops

/-- The items that leave during a run, in order. -/
def departed (q : Queue α n) : List (Op α) → List α
  | [] => []
  | op :: ops => (q.departs op).toList ++ departed (q.step op) ops

def Queue.run (q : Queue α n) (ops : List (Op α)) : Queue α n := ops.foldl Queue.step q

theorem Queue.push_ne_nil (q : Queue α n) (hn : 0 < n) (x : α) : (q.push x).items ≠ [] :=
  pushLast_ne_nil hn q.items x

theorem Queue.step_ledger (q : Queue α n) (hn : 0 < n) (op : Op α) :
    q.items ++ pushed [op] = (q.departs op).toList ++ (q.step op).items := by
  cases op with
  | pop => cases hq : q.items <;> simp [pushed, departs, step, pop, hq]
  | push x =>
    simp only [pushed, departs, step, push]
    split
    next hfull =>
      rw [pushLast_of_length_eq hfull hn]
      cases hq : q.items with
      | nil => simp [hq] at hfull; omega
      | cons y ys => rfl
    next hroom =>
      rw [pushLast_of_lt (lt_of_le_of_ne q.bounded hroom)]
      rfl

theorem pushed_cons (op : Op α) (ops : List (Op α)) :
    pushed (op :: ops) = pushed [op] ++ pushed ops := by cases op <;> rfl

/-- Every item pushed has left, once and in order, or is still in the queue. -/
theorem Queue.run_ledger (q : Queue α n) (hn : 0 < n) (ops : List (Op α)) :
    q.items ++ pushed ops = departed q ops ++ (q.run ops).items := by
  induction ops generalizing q with
  | nil => simp [pushed, departed, run]
  | cons op ops ih =>
    rw [pushed_cons, ← List.append_assoc, q.step_ledger hn op, List.append_assoc, ih (q.step op)]
    simp [departed, run]

end BoundedFifo
