import Aesd.Lib.Runs

/-! Concurrent objects. A history of calls and returns is linearizable when each call takes effect
at one moment between the two, as the sequential object says. -/
namespace Atomicity
open Runs

variable {ι ω ρ σ S ℓ : Type*}

/-- What is seen of an object: a thread calls an operation, or gets its result. -/
inductive Action (ι ω ρ : Type*) where
  | invoke (t : ι) (op : ω)
  | respond (t : ι) (res : ρ)

/-- An action, or the moment at which the operation of a thread takes effect. -/
inductive Moment (ι ω ρ : Type*) where
  | seen (a : Action ι ω ρ)
  | effect (t : ι) (op : ω) (res : ρ)

def Moment.action : Moment ι ω ρ → Option (Action ι ω ρ)
  | .seen a => some a
  | .effect _ _ _ => none

def actions (moments : List (Moment ι ω ρ)) : List (Action ι ω ρ) :=
  moments.filterMap Moment.action

theorem actions_append (m₁ m₂ : List (Moment ι ω ρ)) :
    actions (m₁ ++ m₂) = actions m₁ ++ actions m₂ := List.filterMap_append

theorem actions_seen (a : Action ι ω ρ) : actions [.seen a] = [a] := rfl

theorem actions_effect (t : ι) (op : ω) (res : ρ) : actions [Moment.effect t op res] = [] := rfl

/-- The operations in the order in which they take effect. -/
def effects (moments : List (Moment ι ω ρ)) : List (ι × ω × ρ) :=
  moments.filterMap fun m =>
    match m with
    | .seen _ => none
    | .effect t op res => some (t, op, res)

theorem effects_append (m₁ m₂ : List (Moment ι ω ρ)) :
    effects (m₁ ++ m₂) = effects m₁ ++ effects m₂ := List.filterMap_append

/-- How far the operation of a thread is. -/
inductive Phase (ω ρ : Type*) where
  | idle
  | called (op : ω)
  | done (res : ρ)

/-- The object with the threads that use it. -/
structure State (ι ω ρ σ : Type*) where
  object : σ
  phase : ι → Phase ω ρ

def State.start (s : σ) : State ι ω ρ σ := ⟨s, fun _ => .idle⟩

variable [DecidableEq ι] {spec : σ → ω → ρ → σ → Prop}

/-- The atomic object: `spec` says what an operation may answer and leave. -/
inductive Step (spec : σ → ω → ρ → σ → Prop) (a : State ι ω ρ σ) :
    Moment ι ω ρ → State ι ω ρ σ → Prop where
  | invoke {t : ι} (op : ω) (h : a.phase t = .idle) :
      Step spec a (.seen (.invoke t op)) ⟨a.object, Function.update a.phase t (.called op)⟩
  | effect {t : ι} {op : ω} {res : ρ} {s : σ} (h : a.phase t = .called op)
      (hspec : spec a.object op res s) :
      Step spec a (.effect t op res) ⟨s, Function.update a.phase t (.done res)⟩
  | respond {t : ι} {res : ρ} (h : a.phase t = .done res) :
      Step spec a (.seen (.respond t res)) ⟨a.object, Function.update a.phase t .idle⟩

def Linearizable (spec : σ → ω → ρ → σ → Prop) (s₀ : σ) (history : List (Action ι ω ρ)) : Prop :=
  ∃ moments a, Run (Step spec) (State.start s₀) moments a ∧
    actions moments = history

/-- A system whose every step is matched by moments of the object that show the same action, if
any, goes through moments that show its history. -/
theorem run_linearizable {step : S → ℓ → S → Prop} {view : ℓ → Option (Action ι ω ρ)}
    {R : S → State ι ω ρ σ → Prop} {c₀ c : S} {s₀ : σ} {tr : List ℓ} (h : Run step c₀ tr c)
    (hinit : R c₀ (State.start s₀))
    (hstep : ∀ c a l c', R c a → step c l c' → ∃ moments a', Run (Step spec) a moments a' ∧
      actions moments = (view l).toList ∧ R c' a') :
    ∃ moments a, Run (Step spec) (State.start s₀) moments a ∧
      actions moments = tr.filterMap view ∧ R c a := by
  induction h with
  | nil => exact ⟨[], _, .nil, rfl, hinit⟩
  | @snoc tr c l c' _ hs ih =>
    obtain ⟨moments, a, hrun, hseen, hr⟩ := ih
    obtain ⟨more, a', hmore, hview, hr'⟩ := hstep c a l c' hr hs
    refine ⟨moments ++ more, a', hrun.append hmore, ?_, hr'⟩
    rw [actions_append, List.filterMap_append, hseen, hview]
    cases hv : view l <;> simp [hv]

/-- An object that another one implements, operation by operation, goes through the same moments. -/
theorem implements {σ' : Type*} {spec' : σ' → ω → ρ → σ' → Prop} {s₀ : σ} {s₀' : σ'}
    {moments : List (Moment ι ω ρ)} {a : State ι ω ρ σ} {R : σ → σ' → Prop}
    (hrun : Run (Step spec) (State.start s₀) moments a) (hinit : R s₀ s₀')
    (hspec : ∀ s s' op res s₁, R s s' → spec s op res s₁ → ∃ s₁', spec' s' op res s₁' ∧ R s₁ s₁') :
    ∃ a', Run (Step spec') (State.start s₀') moments a' ∧ R a.object a'.object ∧
      a'.phase = a.phase := by
  induction hrun with
  | nil => exact ⟨_, .nil, hinit, rfl⟩
  | @snoc moments a m a₁ _ hs ih =>
    obtain ⟨a', hrun', hr, hphase⟩ := ih
    cases hs with
    | invoke op hidle =>
      refine ⟨_, hrun'.snoc (.invoke op (hphase ▸ hidle)), hr, ?_⟩
      rw [hphase]
    | @effect t op res s hcalled hs =>
      obtain ⟨s', hs', hr'⟩ := hspec _ _ _ _ _ hr hs
      refine ⟨_, hrun'.snoc (.effect (hphase ▸ hcalled) hs'), hr', ?_⟩
      rw [hphase]
    | respond hdone =>
      refine ⟨_, hrun'.snoc (.respond (hphase ▸ hdone)), hr, ?_⟩
      rw [hphase]

theorem Linearizable.mono {σ' : Type*} {spec' : σ' → ω → ρ → σ' → Prop} {s₀ : σ} {s₀' : σ'}
    {history : List (Action ι ω ρ)} {R : σ → σ' → Prop} (h : Linearizable spec s₀ history)
    (hinit : R s₀ s₀') (hspec : ∀ s s' op res s₁, R s s' → spec s op res s₁ →
      ∃ s₁', spec' s' op res s₁' ∧ R s₁ s₁') : Linearizable spec' s₀' history := by
  obtain ⟨moments, a, hrun, hseen⟩ := h
  obtain ⟨a', hrun', -, -⟩ := implements hrun hinit hspec
  exact ⟨moments, a', hrun', hseen⟩

def invoked (t : ι) (history : List (Action ι ω ρ)) : List ω :=
  history.filterMap fun a =>
    match a with
    | .invoke t' op => if t' = t then some op else none
    | .respond _ _ => none

def responded (t : ι) (history : List (Action ι ω ρ)) : List ρ :=
  history.filterMap fun a =>
    match a with
    | .invoke _ _ => none
    | .respond t' res => if t' = t then some res else none

def ofThread (t : ι) (ops : List (ι × ω × ρ)) : List (ω × ρ) :=
  (ops.filter fun e => e.1 = t).map Prod.snd

theorem invoked_append (t : ι) (h₁ h₂ : List (Action ι ω ρ)) :
    invoked t (h₁ ++ h₂) = invoked t h₁ ++ invoked t h₂ := List.filterMap_append

theorem responded_append (t : ι) (h₁ h₂ : List (Action ι ω ρ)) :
    responded t (h₁ ++ h₂) = responded t h₁ ++ responded t h₂ := List.filterMap_append

theorem ofThread_append (t : ι) (o₁ o₂ : List (ι × ω × ρ)) :
    ofThread t (o₁ ++ o₂) = ofThread t o₁ ++ ofThread t o₂ := by
  rw [ofThread, List.filter_append, List.map_append, ofThread, ofThread]

theorem mem_ofThread {t : ι} {ops : List (ι × ω × ρ)} {e : ω × ρ} :
    e ∈ ofThread t ops ↔ (t, e) ∈ ops := by
  constructor
  · intro h
    obtain ⟨⟨t', e'⟩, hmem, rfl⟩ := List.mem_map.mp h
    obtain ⟨hmem, ht⟩ := List.mem_filter.mp hmem
    have ht' : t' = t := of_decide_eq_true ht
    exact ht' ▸ hmem
  · intro h
    exact List.mem_map.mpr ⟨(t, e), List.mem_filter.mpr ⟨h, decide_eq_true rfl⟩, rfl⟩

theorem mem_invoked {t : ι} {op : ω} {history : List (Action ι ω ρ)} :
    op ∈ invoked t history ↔ .invoke t op ∈ history := by
  rw [invoked, List.mem_filterMap]
  constructor
  · rintro ⟨a, ha, hop⟩
    cases a with
    | invoke t' op' =>
      dsimp only at hop
      split at hop
      next ht =>
        obtain rfl := Option.some.inj hop
        exact ht ▸ ha
      next => cases hop
    | respond => cases hop
  · intro h
    exact ⟨_, h, if_pos rfl⟩

/-- The sequential object, used by one thread after the other. -/
def Serial (spec : σ → ω → ρ → σ → Prop) (s : σ) (e : ι × ω × ρ) (s' : σ) : Prop :=
  spec s e.2.1 e.2.2 s'

theorem effects_serial {s₀ : σ} {moments : List (Moment ι ω ρ)} {a : State ι ω ρ σ}
    (h : Run (Step spec) (State.start s₀) moments a) :
    Run (Serial spec) s₀ (effects moments) a.object := by
  induction h with
  | nil => exact .nil
  | snoc _ hs ih =>
    rw [effects, List.filterMap_append]
    cases hs with
    | invoke => simpa [effects] using ih
    | effect _ hspec => exact ih.snoc hspec
    | respond => simpa [effects] using ih

/-- The operation called that has not taken effect, and the result not returned yet. -/
def Phase.waiting : Phase ω ρ → List ω
  | .called op => [op]
  | _ => []

def Phase.result : Phase ω ρ → List ρ
  | .done res => [res]
  | _ => []

/-- The lists of one thread agree, up to what is under way. -/
structure Phase.Tells (phase : Phase ω ρ) (ops : List ω) (effected : List (ω × ρ))
    (answers : List ρ) : Prop where
  ops : ops = effected.map Prod.fst ++ phase.waiting
  answers : effected.map Prod.snd = answers ++ phase.result

theorem phase_tells {s₀ : σ} {moments : List (Moment ι ω ρ)} {a : State ι ω ρ σ}
    (h : Run (Step spec) (State.start s₀) moments a) (t : ι) :
    (a.phase t).Tells (invoked t (actions moments))
      (ofThread t (effects moments)) (responded t (actions moments)) := by
  induction h with
  | nil => exact ⟨rfl, rfl⟩
  | @snoc moments a m a' _ hs ih =>
    obtain ⟨hops, hanswers⟩ := ih
    rw [actions_append, effects_append, invoked_append, responded_append, ofThread_append]
    cases hs with
    | @invoke t' op hphase =>
      by_cases ht : t' = t
      · subst ht
        rw [hphase] at hops hanswers
        constructor
        · simpa [actions_seen, effects, ofThread, invoked, Phase.waiting] using hops
        · simpa [actions_seen, effects, ofThread, responded, Phase.result] using hanswers
      · constructor
        · simpa [actions_seen, effects, ofThread, invoked, ht, Ne.symm ht] using hops
        · simpa [actions_seen, effects, ofThread, responded, ht, Ne.symm ht] using hanswers
    | @effect t' op res s hphase _ =>
      by_cases ht : t' = t
      · subst ht
        rw [hphase] at hops hanswers
        constructor
        · simpa [actions_effect, effects, ofThread, invoked, Phase.waiting] using hops
        · simpa [actions_effect, effects, ofThread, responded, Phase.result] using hanswers
      · constructor
        · simpa [actions_effect, effects, ofThread, invoked, ht, Ne.symm ht] using hops
        · simpa [actions_effect, effects, ofThread, responded, ht, Ne.symm ht] using hanswers
    | @respond t' res hphase =>
      by_cases ht : t' = t
      · subst ht
        rw [hphase] at hops hanswers
        constructor
        · simpa [actions_seen, effects, ofThread, invoked, Phase.waiting] using hops
        · simpa [actions_seen, effects, ofThread, responded, Phase.result] using hanswers
      · constructor
        · simpa [actions_seen, effects, ofThread, invoked, ht, Ne.symm ht] using hops
        · simpa [actions_seen, effects, ofThread, responded, ht, Ne.symm ht] using hanswers

/-- The operations, in this order, can be those of the history: those of each thread are in the
order of its calls, with its answers, and at any time those answered so far come first and those not
called yet come last. -/
structure Orders (history : List (Action ι ω ρ)) (ops : List (ι × ω × ρ)) : Prop where
  threads : ∀ t, responded t history <+: (ofThread t ops).map Prod.snd ∧
    (ofThread t ops).map Prod.fst <+: invoked t history
  realTime : ∀ h₁ h₂, history = h₁ ++ h₂ → ∃ o₁ o₂, ops = o₁ ++ o₂ ∧ ∀ t,
    responded t h₁ <+: (ofThread t o₁).map Prod.snd ∧ (ofThread t o₁).map Prod.fst <+: invoked t h₁

/-- What a run of the atomic object gives: its effects order what is seen of it. -/
theorem effects_order {s₀ : σ} {moments : List (Moment ι ω ρ)} {a : State ι ω ρ σ}
    (hrun : Run (Step spec) (State.start s₀) moments a) :
    Orders (actions moments) (effects moments) := by
  have htells {m : List (Moment ι ω ρ)} {a : State ι ω ρ σ}
      (hrun : Run (Step spec) (State.start s₀) m a) (t : ι) :
      responded t (actions m) <+: (ofThread t (effects m)).map Prod.snd ∧
        (ofThread t (effects m)).map Prod.fst <+: invoked t (actions m) := by
    have h := phase_tells hrun t
    exact ⟨⟨_, h.answers.symm⟩, ⟨_, h.ops.symm⟩⟩
  refine ⟨htells hrun, ?_⟩
  intro h₁ h₂ hcut
  obtain ⟨m₁, m₂, rfl, rfl, -⟩ := List.filterMap_eq_append_iff.mp hcut
  obtain ⟨a₁, hrun₁, -⟩ := hrun.split
  exact ⟨effects m₁, effects m₂, List.filterMap_append, htells hrun₁⟩

end Atomicity
