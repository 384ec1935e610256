import Mathlib.Data.List.Basic
import Mathlib.Tactic

/-! Finite runs of a labelled transition relation, with the labels taken, oldest first. -/
namespace Runs

variable {σ ℓ α : Type*} {step : σ → ℓ → σ → Prop} {s₀ s₁ s : σ} {tr tr₁ tr₂ : List ℓ}

inductive Run (step : σ → ℓ → σ → Prop) (s₀ : σ) : List ℓ → σ → Prop where
  | nil : Run step s₀ [] s₀
  | snoc {tr : List ℓ} {s : σ} {l : ℓ} {s' : σ} :
      Run step s₀ tr s → step s l s' → Run step s₀ (tr ++ [l]) s'

/-- A property of state and history that holds at the start and that every step keeps. -/
theorem Run.invariant {P : List ℓ → σ → Prop} (h : Run step s₀ tr s) (hinit : P [] s₀)
    (hstep : ∀ tr s l s', Run step s₀ tr s → P tr s → step s l s' → P (tr ++ [l]) s') : P tr s := by
  induction h with
  | nil => exact hinit
  | snoc hrun hs ih => exact hstep _ _ _ _ hrun ih hs

/-- Forward simulation by a deterministic machine: it follows the run label by label. -/
theorem Run.follows {R : σ → α → Prop} {next : α → ℓ → α} {a₀ : α} (h : Run step s₀ tr s)
    (hinit : R s₀ a₀) (hstep : ∀ s a l s', R s a → step s l s' → R s' (next a l)) :
    R s (tr.foldl next a₀) := by
  refine h.invariant (P := fun tr s => R s (tr.foldl next a₀)) hinit ?_
  intro tr s l s' _ ih hs
  rw [List.foldl_append, List.foldl_cons, List.foldl_nil]
  exact hstep _ _ _ _ ih hs

/-- Forward simulation in which some steps are not seen. -/
theorem Run.simulates {τ ℓ' : Type*} {step' : τ → ℓ' → τ → Prop} {R : σ → τ → Prop} {t₀ : τ}
    {seen : ℓ → Option ℓ'} (h : Run step s₀ tr s) (hinit : R s₀ t₀)
    (hstep : ∀ s l s' t, R s t → step s l s' → ∃ t', R s' t' ∧
      ((seen l = none ∧ t' = t) ∨ ∃ l', seen l = some l' ∧ step' t l' t')) :
    ∃ t, Run step' t₀ (tr.filterMap seen) t ∧ R s t := by
  induction h with
  | nil => exact ⟨t₀, .nil, hinit⟩
  | @snoc tr s l s' _ hs ih =>
    obtain ⟨t, hrun, hr⟩ := ih
    obtain ⟨t', hr', ⟨hl, rfl⟩ | ⟨l', hl, hs'⟩⟩ := hstep _ _ _ _ hr hs
    · exact ⟨t', by simpa [List.filterMap_append, hl] using hrun, hr'⟩
    · refine ⟨t', ?_, hr'⟩
      rw [List.filterMap_append, List.filterMap_cons_some hl, List.filterMap_nil]
      exact hrun.snoc hs'

theorem Run.forall_label {I : σ → Prop} {Q : ℓ → Prop} (h : Run step s₀ tr s) (hinit : I s₀)
    (hstep : ∀ s l s', I s → step s l s' → I s' ∧ Q l) : I s ∧ ∀ l ∈ tr, Q l := by
  induction h with
  | nil => exact ⟨hinit, by simp⟩
  | snoc _ hs ih =>
    obtain ⟨hi, hq⟩ := hstep _ _ _ ih.1 hs
    refine ⟨hi, fun l hl => ?_⟩
    rcases List.mem_append.mp hl with hl | hl
    · exact ih.2 l hl
    · exact List.mem_singleton.mp hl ▸ hq

theorem Run.single {l : ℓ} (h : step s₀ l s) : Run step s₀ [l] s := .snoc .nil h

theorem Run.append (h₁ : Run step s₀ tr₁ s₁) (h₂ : Run step s₁ tr₂ s) :
    Run step s₀ (tr₁ ++ tr₂) s := by
  induction h₂ with
  | nil => simpa using h₁
  | snoc _ hs ih =>
    rw [← List.append_assoc]
    exact ih.snoc hs

theorem Run.cons {l : ℓ} (hs : step s₀ l s₁) (h : Run step s₁ tr s) :
    Run step s₀ (l :: tr) s :=
  (Run.single hs).append h

theorem Run.mono {step' : σ → ℓ → σ → Prop} (hstep : ∀ s l s', step s l s' → step' s l s')
    (h : Run step s₀ tr s) : Run step' s₀ tr s := by
  induction h with
  | nil => exact .nil
  | snoc _ hs ih => exact ih.snoc (hstep _ _ _ hs)

/-- Steps that change nothing can be left out of a run. -/
theorem Run.filter {I : σ → Prop} {keep : ℓ → Bool} (h : Run step s₀ tr s) (hinit : I s₀)
    (hstep : ∀ s l s', I s → step s l s' → I s')
    (hdrop : ∀ s l s', I s → step s l s' → keep l = false → s' = s) :
    Run step s₀ (tr.filter keep) s := by
  have hboth : I s ∧ Run step s₀ (tr.filter keep) s := by
    induction h with
    | nil => exact ⟨hinit, .nil⟩
    | @snoc tr s l s' _ hs ih =>
      obtain ⟨hi, hrun⟩ := ih
      refine ⟨hstep _ _ _ hi hs, ?_⟩
      rw [List.filter_append, List.filter_singleton]
      cases hk : keep l with
      | true => exact hrun.snoc hs
      | false =>
        rw [hdrop _ _ _ hi hs hk]
        simpa using hrun
  exact hboth.2

theorem Run.of_foldlM_step {f : σ → ℓ → Option σ}
    (hstep : ∀ l ∈ tr, ∀ s s', f s l = some s' → step s l s') (h : tr.foldlM f s₀ = some s) :
    Run step s₀ tr s := by
  induction tr generalizing s₀ with
  | nil =>
    obtain rfl := Option.some.inj h
    exact .nil
  | cons l tr ih =>
    obtain ⟨s₁, hs, h⟩ := Option.bind_eq_some_iff.mp h
    exact .cons (hstep l List.mem_cons_self _ _ hs)
      (ih (fun l hl => hstep l (List.mem_cons_of_mem _ hl)) h)

theorem Run.of_foldlM {P : ℓ → Prop} {f : σ → ℓ → Option σ} (hP : ∀ l ∈ tr, P l)
    (h : tr.foldlM f s₀ = some s) : Run (fun s l s' => P l ∧ f s l = some s') s₀ tr s :=
  Run.of_foldlM_step (fun l hl _ _ hs => ⟨hP l hl, hs⟩) h

theorem Run.last {l : ℓ} (h : Run step s₀ (tr ++ [l]) s) :
    ∃ s₁, Run step s₀ tr s₁ ∧ step s₁ l s := by
  generalize htr : tr ++ [l] = tr' at h
  cases h with
  | nil => simp at htr
  | snoc hrun hs =>
    obtain ⟨rfl, hl⟩ := List.append_inj' htr rfl
    obtain rfl := List.singleton_injective hl
    exact ⟨_, hrun, hs⟩

theorem Run.split (h : Run step s₀ (tr₁ ++ tr₂) s) :
    ∃ s₁, Run step s₀ tr₁ s₁ ∧ Run step s₁ tr₂ s := by
  induction tr₂ using List.reverseRecOn generalizing s with
  | nil => exact ⟨s, by simpa using h, .nil⟩
  | append_singleton tr₂ l ih =>
    rw [← List.append_assoc] at h
    obtain ⟨s₂, hrun, hs⟩ := h.last
    obtain ⟨s₁, h₁, h₂⟩ := ih hrun
    exact ⟨s₁, h₁, h₂.snoc hs⟩

/-- Potentials: where each step costs no more than it takes from the potential and what its label
grants, a whole run costs no more than was there and was granted. -/
theorem Run.potential {I : σ → Prop} {V : σ → ℕ} {cost grant : ℓ → ℕ} (h : Run step s₀ tr s)
    (hinit : I s₀)
    (hstep : ∀ s l s', I s → step s l s' → I s' ∧ cost l + V s' ≤ V s + grant l) :
    (tr.map cost).sum + V s ≤ V s₀ + (tr.map grant).sum := by
  have hboth : I s ∧ (tr.map cost).sum + V s ≤ V s₀ + (tr.map grant).sum := by
    induction h with
    | nil => exact ⟨hinit, by simp⟩
    | snoc _ hs ih =>
      obtain ⟨hi, hle⟩ := ih
      obtain ⟨hi', hcost⟩ := hstep _ _ _ hi hs
      refine ⟨hi', ?_⟩
      rw [List.map_append, List.map_append, List.sum_append, List.sum_append, List.map_singleton,
        List.map_singleton, List.sum_singleton, List.sum_singleton]
      omega
  exact hboth.2

/-- The steps that meet `P` in the state they start from. -/
def Restrict (step : σ → ℓ → σ → Prop) (P : σ → ℓ → Prop) (s : σ) (l : ℓ) (s' : σ) : Prop :=
  step s l s' ∧ P s l

theorem Run.restrict_of {I : σ → Prop} {P Q : σ → ℓ → Prop} (hinit : I s₀)
    (hstep : ∀ s l s', I s → step s l s' → P s l → I s' ∧ Q s l)
    (h : Run (Restrict step P) s₀ tr s) : Run (Restrict step Q) s₀ tr s := by
  have hboth : I s ∧ Run (Restrict step Q) s₀ tr s := by
    induction h with
    | nil => exact ⟨hinit, .nil⟩
    | snoc _ hs ih =>
      obtain ⟨hi, hq⟩ := hstep _ _ _ ih.1 hs.1 hs.2
      exact ⟨hi, ih.2.snoc ⟨hs.1, hq⟩⟩
  exact hboth.2

/-- Two conditions that agree wherever an invariant holds, which the steps that meet them keep, are
met by the same runs. -/
theorem Run.restrict_iff {I : σ → Prop} {P Q : σ → ℓ → Prop} (hinit : I s₀)
    (hkeep : ∀ s l s', I s → step s l s' → P s l → I s')
    (hagree : ∀ s l s', I s → step s l s' → (P s l ↔ Q s l)) :
    Run (Restrict step P) s₀ tr s ↔ Run (Restrict step Q) s₀ tr s := by
  constructor
  · apply Run.restrict_of hinit
    intro s l s' hi hs hp
    exact ⟨hkeep s l s' hi hs hp, (hagree s l s' hi hs).mp hp⟩
  · apply Run.restrict_of hinit
    intro s l s' hi hs hq
    have hp := (hagree s l s' hi hs).mpr hq
    exact ⟨hkeep s l s' hi hs hp, hp⟩

end Runs
