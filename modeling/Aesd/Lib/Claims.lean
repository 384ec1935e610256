import Mathlib.Logic.Function.Basic

/-! Things that are claimed one by one: what is claimed is live and has one claimant. What nobody
claims may be live as well, unless the claims account for everything. -/
namespace Claims

variable {ι α : Type*} {live live' : α → Prop} {claims claims' : ι → α → Prop} {i₀ : ι} {a₀ : α}

structure Claimed (live : α → Prop) (claims : ι → α → Prop) : Prop where
  live : ∀ i a, claims i a → live a
  alone : ∀ i j a, claims i a → claims j a → i = j

theorem claimed_of_none (hnone : ∀ i a, ¬ claims i a) : Claimed live claims :=
  ⟨fun i a h => absurd h (hnone i a), fun i _ a h => absurd h (hnone i a)⟩

/-- Claims change hands: what `i` claimed is claimed by `g i` now. -/
theorem Claimed.rename (h : Claimed live claims) (g : ι → ι)
    (hclaims : ∀ i a, claims' i a → ∃ j, claims j a ∧ g j = i)
    (hlive : ∀ a, live a → live' a) : Claimed live' claims' := by
  constructor
  · intro i a hi
    obtain ⟨j, hj, -⟩ := hclaims i a hi
    exact hlive a (h.live j a hj)
  · intro i i' a hi hi'
    obtain ⟨j, hj, rfl⟩ := hclaims i a hi
    obtain ⟨j', hj', rfl⟩ := hclaims i' a hi'
    rw [h.alone j j' a hj hj']

theorem Claimed.mono (h : Claimed live claims) (hclaims : ∀ i a, claims' i a → claims i a)
    (hlive : ∀ a, live a → live' a) : Claimed live' claims' :=
  h.rename id (fun i a hi => ⟨i, hclaims i a hi, rfl⟩) hlive

theorem Claimed.alloc (h : Claimed live claims)
    (hclaims : ∀ i a, claims' i a → claims i a ∨ i = i₀ ∧ a = a₀) (hfresh : ¬ live a₀)
    (hnew : live' a₀) (hlive : ∀ a, live a → live' a) : Claimed live' claims' := by
  have hold : ∀ i a, claims i a → a ≠ a₀ := by
    rintro i a hi rfl
    exact hfresh (h.live i a hi)
  constructor
  · intro i a hi
    rcases hclaims i a hi with hi | ⟨-, rfl⟩
    · exact hlive a (h.live i a hi)
    · exact hnew
  · intro i j a hi hj
    rcases hclaims i a hi with hi | ⟨rfl, ha⟩ <;> rcases hclaims j a hj with hj | ⟨rfl, ha'⟩
    · exact h.alone i j a hi hj
    · exact absurd ha' (hold i a hi)
    · exact absurd ha (hold j a hj)
    · rfl

theorem Claimed.free (h : Claimed live claims) (hi₀ : claims i₀ a₀)
    (hclaims : ∀ i a, claims' i a → claims i a ∧ i ≠ i₀)
    (hlive : ∀ a, live a → a ≠ a₀ → live' a) :
    Claimed live' claims' ∧ ∀ i, ¬ claims' i a₀ := by
  have hgone : ∀ i, ¬ claims' i a₀ := by
    intro i hi
    obtain ⟨hold, hne⟩ := hclaims i a₀ hi
    exact hne (h.alone i i₀ a₀ hold hi₀)
  refine ⟨⟨fun i a hi => ?_, fun i j a hi hj => ?_⟩, hgone⟩
  · apply hlive a (h.live i a (hclaims i a hi).1)
    rintro rfl
    exact hgone i hi
  · exact h.alone i j a (hclaims i a hi).1 (hclaims j a hj).1

variable {held : ι → Option α} {i j : ι} {a : α}

/-- Everything live is held by exactly one claimant, who holds nothing else. -/
structure Accounts (live : α → Prop) (held : ι → Option α) : Prop where
  live_iff : ∀ a, live a ↔ ∃ i, held i = some a
  alone : ∀ i j a, held i = some a → held j = some a → i = j

theorem accounts_of_none (hlive : ∀ a, ¬ live a) (hnone : ∀ i, held i = none) :
    Accounts live held := by
  refine ⟨fun a => ⟨fun ha => absurd ha (hlive a), ?_⟩, fun i j a hi _ => ?_⟩
  · rintro ⟨i, hi⟩
    cases (hnone i).symm.trans hi
  · cases (hnone i).symm.trans hi

theorem Accounts.congr {held' : ι → Option α} (h : Accounts live held)
    (hlive : ∀ x, live' x ↔ live x) (hheld : held' = held) : Accounts live' held' := by
  rw [hheld]
  exact ⟨fun x => (hlive x).trans (h.live_iff x), h.alone⟩

variable [DecidableEq ι]

theorem Accounts.alloc (h : Accounts live held) (hi : held i = none) (ha : ¬ live a)
    (hlive : ∀ x, live' x ↔ live x ∨ x = a) :
    Accounts live' (Function.update held i (some a)) := by
  have hfree : ∀ k, held k ≠ some a := fun k hk => ha ((h.live_iff a).mpr ⟨k, hk⟩)
  constructor
  · intro x
    rw [hlive, h.live_iff]
    constructor
    · rintro (⟨k, hk⟩ | rfl)
      · refine ⟨k, ?_⟩
        rw [Function.update_of_ne, hk]
        rintro rfl
        cases hi.symm.trans hk
      · exact ⟨i, Function.update_self ..⟩
    · rintro ⟨k, hk⟩
      by_cases hki : k = i
      · subst hki
        rw [Function.update_self] at hk
        exact .inr (Option.some.inj hk).symm
      · rw [Function.update_of_ne hki] at hk
        exact .inl ⟨k, hk⟩
  · intro k l x hk hl
    by_cases hki : k = i <;> by_cases hli : l = i
    · rw [hki, hli]
    · subst hki
      rw [Function.update_self] at hk
      rw [Function.update_of_ne hli, ← hk] at hl
      exact absurd hl (hfree l)
    · subst hli
      rw [Function.update_self] at hl
      rw [Function.update_of_ne hki, ← hl] at hk
      exact absurd hk (hfree k)
    · rw [Function.update_of_ne hki] at hk
      rw [Function.update_of_ne hli] at hl
      exact h.alone k l x hk hl

theorem Accounts.free (h : Accounts live held) (hi : held i = some a)
    (hlive : ∀ x, live' x ↔ live x ∧ x ≠ a) : Accounts live' (Function.update held i none) := by
  have hold {k : ι} {x : α} (hk : Function.update held i none k = some x) :
      held k = some x ∧ k ≠ i := by
    by_cases hki : k = i
    · subst hki
      rw [Function.update_self] at hk
      cases hk
    · rw [Function.update_of_ne hki] at hk
      exact ⟨hk, hki⟩
  constructor
  · intro x
    rw [hlive, h.live_iff]
    constructor
    · rintro ⟨⟨k, hk⟩, hne⟩
      refine ⟨k, ?_⟩
      rw [Function.update_of_ne, hk]
      rintro rfl
      exact hne (Option.some.inj (hk.symm.trans hi))
    · rintro ⟨k, hk⟩
      obtain ⟨hk, hki⟩ := hold hk
      refine ⟨⟨k, hk⟩, ?_⟩
      rintro rfl
      exact hki (h.alone k i x hk hi)
  · intro k l x hk hl
    exact h.alone k l x (hold hk).1 (hold hl).1

/-- What a claimant holds is gone, and it holds another thing, or the same one again. -/
theorem Accounts.move {old : α} (h : Accounts live held) (hi : held i = some old)
    (ha : ¬ live a ∨ a = old) (hlive : ∀ x, live' x ↔ (live x ∧ x ≠ old) ∨ x = a) :
    Accounts live' (Function.update held i (some a)) := by
  have hfree : Accounts (fun x => live x ∧ x ≠ old) (Function.update held i none) :=
    h.free hi fun x => Iff.rfl
  rw [← Function.update_idem (a := i) none (some a) held]
  refine hfree.alloc (by simp) ?_ hlive
  rintro ⟨hlive, hne⟩
  exact ha.elim (fun ha => ha hlive) hne

theorem Accounts.keep (h : Accounts live held) (hi : held i = some a)
    (hlive : ∀ x, live' x ↔ live x) : Accounts live' (Function.update held i (some a)) := by
  rw [← hi, Function.update_eq_self]
  exact h.congr hlive rfl

theorem Accounts.give (h : Accounts live held) (hi : held i = some a) (hj : held j = none) :
    Accounts live (Function.update (Function.update held i none) j (some a)) := by
  have hne : j ≠ i := by
    rintro rfl
    cases hj.symm.trans hi
  have hfree : Accounts (fun x => live x ∧ x ≠ a) (Function.update held i none) :=
    h.free hi fun x => Iff.rfl
  refine hfree.alloc ?_ (by simp) ?_
  · rw [Function.update_of_ne hne, hj]
  · intro x
    by_cases hx : x = a
    · subst hx
      simp [(h.live_iff x).mpr ⟨i, hi⟩]
    · simp [hx]

end Claims
