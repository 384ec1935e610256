import Mathlib.Data.List.Infix
import Mathlib.Tactic

/-! Streams cut into records at every occurrence of an ending symbol. -/
namespace Records

variable {α : Type*} [DecidableEq α] {e : α}

/-- A record is the ending symbol with anything but that symbol before it. -/
def IsRecord (e : α) (r : List α) : Prop := ∃ body, e ∉ body ∧ r = body ++ [e]

/-- The complete records of a stream and what follows the last of them. -/
def split (e : α) : List α → List (List α) × List α
  | [] => ([], [])
  | x :: xs =>
    let tail := split e xs
    if x = e then ([x] :: tail.1, tail.2)
    else match tail.1 with
      | [] => ([], x :: tail.2)
      | r :: rs => ((x :: r) :: rs, tail.2)

def records (e : α) (s : List α) : List (List α) := (split e s).1

def remainder (e : α) (s : List α) : List α := (split e s).2

omit [DecidableEq α] in
theorem IsRecord.getLast?_eq {r : List α} (h : IsRecord e r) : r.getLast? = some e := by
  obtain ⟨body, -, rfl⟩ := h
  simp

theorem split_of_not_mem {s : List α} (h : e ∉ s) : split e s = ([], s) := by
  induction s with
  | nil => rfl
  | cons x xs ih =>
    rw [List.mem_cons, not_or] at h
    simp only [split, ih h.2, if_neg (Ne.symm h.1)]

theorem split_record_append {r : List α} (h : IsRecord e r) (s : List α) :
    split e (r ++ s) = (r :: records e s, remainder e s) := by
  obtain ⟨body, hbody, rfl⟩ := h
  induction body with
  | nil => simp [split, records, remainder]
  | cons x xs ih =>
    rw [List.mem_cons, not_or] at hbody
    have htail := ih hbody.2
    rw [List.cons_append, List.cons_append]
    simp only [split, htail, if_neg (Ne.symm hbody.1)]

/-- Records written one after the other are read back, whatever follows them. -/
theorem split_flatten_append {rs : List (List α)} (h : ∀ r ∈ rs, IsRecord e r) (s : List α) :
    split e (rs.flatten ++ s) = (rs ++ records e s, remainder e s) := by
  induction rs with
  | nil => rfl
  | cons r rs ih =>
    have hrs : ∀ r ∈ rs, IsRecord e r := fun r hr => h r (List.mem_cons_of_mem _ hr)
    rw [List.flatten_cons, List.append_assoc, split_record_append (h r List.mem_cons_self)]
    simp only [records, remainder, ih hrs, List.cons_append]

theorem records_flatten_append {rs : List (List α)} (h : ∀ r ∈ rs, IsRecord e r) (s : List α) :
    records e (rs.flatten ++ s) = rs ++ records e s :=
  congrArg Prod.fst (split_flatten_append h s)

theorem records_of_not_mem {s : List α} (h : e ∉ s) : records e s = [] :=
  congrArg Prod.fst (split_of_not_mem h)

/-- A stream is its records followed by the remainder, which holds no ending symbol. -/
theorem split_spec (s : List α) : (records e s).flatten ++ remainder e s = s ∧
    (∀ r ∈ records e s, IsRecord e r) ∧ e ∉ remainder e s := by
  induction s with
  | nil => simp [records, remainder, split]
  | cons x xs ih =>
    obtain ⟨hcat, hrec, hrest⟩ := ih
    unfold records remainder at *
    by_cases hx : x = e
    · simp only [split, if_pos hx]
      refine ⟨by simp [hcat], fun r hr => ?_, hrest⟩
      rcases List.mem_cons.mp hr with rfl | hr
      · exact ⟨[], by simp, by simp [hx]⟩
      · exact hrec r hr
    · simp only [split, if_neg hx]
      cases htail : (split e xs).1 with
      | nil =>
        rw [htail] at hcat
        simp only [List.flatten_nil, List.nil_append] at hcat ⊢
        exact ⟨by rw [hcat], by simp, by simp [Ne.symm hx, hrest]⟩
      | cons r rs =>
        rw [htail] at hcat hrec
        refine ⟨?_, fun r' hr' => ?_, hrest⟩
        · rw [List.flatten_cons] at hcat ⊢
          rw [List.cons_append, List.cons_append, hcat]
        · rcases List.mem_cons.mp hr' with rfl | hr'
          · obtain ⟨body, hbody, rfl⟩ := hrec r List.mem_cons_self
            exact ⟨x :: body, by simp [Ne.symm hx, hbody], rfl⟩
          · exact hrec r' (List.mem_cons_of_mem _ hr')

theorem isRecord_of_mem {s r : List α} (h : r ∈ records e s) : IsRecord e r :=
  (split_spec s).2.1 r h

theorem records_prefix {s t : List α} (h : s <+: t) : records e s <+: records e t := by
  obtain ⟨u, rfl⟩ := h
  obtain ⟨hcat, hrec, -⟩ := split_spec (e := e) s
  have ht : s ++ u = (records e s).flatten ++ (remainder e s ++ u) := by
    rw [← List.append_assoc, hcat]
  rw [ht, records_flatten_append hrec]
  exact List.prefix_append _ _

theorem prefix_records {rs : List (List α)} {s : List α} (h : ∀ r ∈ rs, IsRecord e r)
    (hs : rs.flatten <+: s) : rs <+: records e s := by
  obtain ⟨u, rfl⟩ := hs
  rw [records_flatten_append h]
  exact List.prefix_append _ _

theorem length_records (s : List α) : (records e s).length = s.count e := by
  induction s with
  | nil => rfl
  | cons x xs ih =>
    unfold records at *
    by_cases hx : x = e
    · simp [split, hx, ih]
    · rw [List.count_cons_of_ne hx, ← ih]
      simp only [split, if_neg hx]
      cases (split e xs).1 <;> rfl

end Records
