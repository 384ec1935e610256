import Mathlib.Data.List.Basic
import Mathlib.Data.List.Perm.Basic
import Mathlib.Logic.Function.Basic
import Mathlib.Tactic

/-! A heap of separately allocated blocks. Every access outside a live block, and every
release of an address that is not live, has no result. -/
namespace Blocks

variable {β : Type*}

/-- Overwrite the part of `l` that begins at `off` with `xs`. -/
def splice (l : List β) (off : ℕ) (xs : List β) : List β :=
  l.take off ++ xs ++ l.drop (off + xs.length)

@[simp] theorem splice_nil (l : List β) (off : ℕ) : splice l off [] = l := by simp [splice]

theorem splice_length {l xs : List β} {off : ℕ} (h : off + xs.length ≤ l.length) :
    (splice l off xs).length = l.length := by
  simp only [splice, List.length_append, List.length_take, List.length_drop]
  omega

theorem splice_append (front rest xs : List β) :
    splice (front ++ rest) front.length xs = front ++ xs ++ rest.drop xs.length := by
  simp [splice, List.drop_append]

theorem splice_zero (l xs : List β) : splice l 0 xs = xs ++ l.drop xs.length := by simp [splice]

/-- A write from the start leaves nothing else exactly when it covers all there was. -/
theorem splice_zero_eq_iff {l xs : List β} : splice l 0 xs = xs ↔ l.length ≤ xs.length := by
  rw [splice_zero, List.append_right_eq_self, List.drop_eq_nil_iff]

theorem splice_zero_eq_self_iff {l xs : List β} : splice l 0 xs = l ↔ xs <+: l := by
  rw [splice_zero]
  constructor
  · intro h
    exact ⟨_, h⟩
  · rintro ⟨rest, rfl⟩
    rw [List.drop_left]

theorem splice_splice_next {l xs ys : List β} {off : ℕ} (h : off ≤ l.length) :
    splice (splice l off xs) (off + xs.length) ys = splice l off (xs ++ ys) := by
  have hfront : (l.take off ++ xs).length = off + xs.length := by
    simp only [List.length_append, List.length_take]
    omega
  have happ := splice_append (l.take off ++ xs) (l.drop (off + xs.length)) ys
  rw [hfront] at happ
  rw [show splice l off xs = l.take off ++ xs ++ l.drop (off + xs.length) from rfl, happ]
  simp [splice, Nat.add_assoc]

theorem le_length_splice {l : List β} {off : ℕ} (h : off ≤ l.length) (xs : List β) :
    off + xs.length ≤ (splice l off xs).length := by
  simp only [splice, List.length_append, List.length_take, List.length_drop]
  omega

theorem splice_take {l xs : List β} {off : ℕ} (h : off ≤ l.length) :
    (splice l off xs).take (off + xs.length) = l.take off ++ xs := by
  have hfront : (l.take off ++ xs).length = off + xs.length := by
    simp only [List.length_append, List.length_take]
    omega
  rw [splice, ← hfront, List.take_left]

/-- Read `k` cells of a block from `off` on; nothing past its end. -/
def readBlock (block : List β) (off k : ℕ) : Option (List β) :=
  if off + k ≤ block.length then some ((block.drop off).take k) else none

/-- Write `xs` into a block from `off` on; nothing past its end. -/
def writeBlock (block : List β) (off : ℕ) (xs : List β) : Option (List β) :=
  if off + xs.length ≤ block.length then some (splice block off xs) else none

theorem readBlock_eq {block : List β} {off k : ℕ} (h : off + k ≤ block.length) :
    readBlock block off k = some ((block.drop off).take k) := if_pos h

theorem writeBlock_eq {block xs : List β} {off : ℕ} (h : off + xs.length ≤ block.length) :
    writeBlock block off xs = some (splice block off xs) := if_pos h

/-- Live blocks by address. -/
abbrev Heap (β : Type*) := ℕ → Option (List β)

namespace Heap

def alloc (h : Heap β) (a : ℕ) (block : List β) : Heap β := Function.update h a (some block)

def free (h : Heap β) (a : ℕ) : Option (Heap β) :=
  if (h a).isSome then some (Function.update h a none) else none

/-- Read `k` cells of the block at `a` from `off` on; nothing outside a live block. -/
def load (h : Heap β) (a off k : ℕ) : Option (List β) :=
  (h a).bind fun block => readBlock block off k

/-- Write `xs` into the block at `a` from `off` on; nothing outside a live block. -/
def store (h : Heap β) (a off : ℕ) (xs : List β) : Option (Heap β) :=
  (h a).bind fun block =>
    (writeBlock block off xs).map fun block => Function.update h a (some block)

@[simp] theorem alloc_self (h : Heap β) (a : ℕ) (block : List β) : h.alloc a block a = some block :=
  Function.update_self ..

theorem alloc_of_ne (h : Heap β) {a b : ℕ} (block : List β) (hb : b ≠ a) :
    h.alloc a block b = h b := Function.update_of_ne hb ..

theorem free_of_live {h : Heap β} {a : ℕ} {block : List β} (hl : h a = some block) :
    h.free a = some (Function.update h a none) := by simp [free, hl]

theorem free_alloc {h : Heap β} {a : ℕ} (block : List β) (hd : h a = none) :
    (h.alloc a block).free a = some h := by
  rw [free_of_live (alloc_self ..), alloc, Function.update_idem, ← hd, Function.update_eq_self]

theorem load_of_live {h : Heap β} {a off k : ℕ} {block : List β} (hl : h a = some block)
    (hk : off + k ≤ block.length) : h.load a off k = some ((block.drop off).take k) := by
  rw [load, hl, Option.bind_some, readBlock_eq hk]

theorem load_all {h : Heap β} {a : ℕ} {block : List β} (hl : h a = some block) :
    h.load a 0 block.length = some block := by
  rw [load_of_live hl (by omega), List.drop_zero, List.take_length]

theorem store_alloc (h : Heap β) {a off : ℕ} {block xs : List β}
    (hk : off + xs.length ≤ block.length) :
    (h.alloc a block).store a off xs = some (h.alloc a (splice block off xs)) := by
  rw [store, alloc_self, Option.bind_some, writeBlock_eq hk, Option.map_some, alloc, alloc,
    Function.update_idem]

/-- The live addresses are exactly the listed ones, each listed once. -/
def Owns (h : Heap β) (ps : List ℕ) : Prop := ps.Nodup ∧ ∀ a, (h a).isSome ↔ a ∈ ps

theorem Owns.perm {h : Heap β} {ps qs : List ℕ} (ho : h.Owns ps) (hp : ps.Perm qs) :
    h.Owns qs := ⟨hp.nodup_iff.mp ho.1, fun a => (ho.2 a).trans hp.mem_iff⟩

theorem Owns.live {h : Heap β} {ps : List ℕ} (ho : h.Owns ps) {a : ℕ} (ha : a ∈ ps) :
    ∃ block, h a = some block := Option.isSome_iff_exists.mp ((ho.2 a).mpr ha)

theorem Owns.dead {h : Heap β} {ps : List ℕ} (ho : h.Owns ps) {a : ℕ} (ha : h a = none) :
    a ∉ ps := fun hm => by simpa [ha] using (ho.2 a).mpr hm

theorem Owns.alloc {h : Heap β} {ps : List ℕ} (ho : h.Owns ps) {a : ℕ} (block : List β)
    (ha : h a = none) : (h.alloc a block).Owns (a :: ps) := by
  refine ⟨List.nodup_cons.mpr ⟨ho.dead ha, ho.1⟩, fun b => ?_⟩
  by_cases hb : b = a
  · simp [hb]
  · simp [alloc_of_ne h block hb, ho.2 b, hb]

theorem Owns.free {h : Heap β} {a : ℕ} {ps : List ℕ} (ho : h.Owns (a :: ps)) :
    h.free a = some (Function.update h a none) ∧ Owns (Function.update h a none) ps := by
  obtain ⟨hnd, hm⟩ := ho
  obtain ⟨ha, hnd⟩ := List.nodup_cons.mp hnd
  obtain ⟨block, hl⟩ := Option.isSome_iff_exists.mp ((hm a).mpr List.mem_cons_self)
  refine ⟨free_of_live hl, hnd, fun b => ?_⟩
  by_cases hb : b = a
  · simp [hb, ha]
  · simp [hm b, hb]

theorem owns_empty : Owns (fun _ => none : Heap β) [] := by simp [Owns]

end Heap

end Blocks
