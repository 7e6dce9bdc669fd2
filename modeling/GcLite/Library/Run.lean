import Mathlib.Data.List.Induction

/-!
# Runs of a labelled step relation

A system is a relation `step s a t` saying that action `a` takes state `s` to state `t`. A run is a
list of actions together with the states they lead through, and an invariant of the system is a
predicate that every step preserves.

Nothing here fixes what the states or the actions are. A system whose actions are restricted is a
system too: strengthen `step` and use `Run.mono`.

## Main definitions

* `Run step s as t` — the actions `as`, in order, lead from `s` to `t`
* `Reaches step s t` — some list of actions does

## Main results

* `Run.invariant`, `Reaches.invariant` — the induction over a run, done once
* `Run.invariant_trace` — the same for a property of the state and of the actions so far
* `Run.follow` — a system that knows more can follow a run
* `Run.simulate` — a system that takes any number of steps for each can follow a run
* `run_append` — a run of `as ++ bs` stops somewhere between the two halves
* `run_concat` — a run seen from its last step
* `Run.forall_step_iff` — a condition on every step of a run
* `Run.forall_prefix_iff` — a condition on steps against a property of states
* `Run.functional` — a deterministic system has one run for each list of actions
-/

namespace Transition

variable {σ α : Type*} {step step' : σ → α → σ → Prop}

/-- The actions of the list, in order, lead from the first state to the second. -/
inductive Run (step : σ → α → σ → Prop) : σ → List α → σ → Prop
  /-- No action. -/
  | nil (s : σ) : Run step s [] s
  /-- An action, and a run from where it leads. -/
  | cons {s t u : σ} {a : α} {as : List α} : step s a t → Run step t as u → Run step s (a :: as) u

/-- Some list of actions leads from the first state to the second. -/
def Reaches (step : σ → α → σ → Prop) (s t : σ) : Prop := ∃ as, Run step s as t

@[simp] theorem run_nil {s t : σ} : Run step s [] t ↔ t = s := by
  constructor
  · rintro ⟨⟩
    rfl
  · rintro rfl
    exact .nil _

theorem run_cons {s u : σ} {a : α} {as : List α} :
    Run step s (a :: as) u ↔ ∃ t, step s a t ∧ Run step t as u := by
  constructor
  · rintro ⟨⟩
    exact ⟨_, ‹_›, ‹_›⟩
  · rintro ⟨t, hst, htu⟩
    exact .cons hst htu

theorem run_append {s u : σ} {as bs : List α} :
    Run step s (as ++ bs) u ↔ ∃ t, Run step s as t ∧ Run step t bs u := by
  induction as generalizing s with
  | nil => simp
  | cons a as ih =>
    simp only [List.cons_append, run_cons, ih]
    constructor
    · rintro ⟨t, hst, v, htv, hvu⟩
      exact ⟨v, ⟨t, hst, htv⟩, hvu⟩
    · rintro ⟨v, ⟨t, hst, htv⟩, hvu⟩
      exact ⟨t, hst, v, htv, hvu⟩

theorem run_concat {s u : σ} {as : List α} {a : α} :
    Run step s (as ++ [a]) u ↔ ∃ t, Run step s as t ∧ step t a u := by
  simp [run_append, run_cons]

theorem Run.mono (h : ∀ s a t, step s a t → step' s a t) {s t : σ} {as : List α}
    (hr : Run step s as t) : Run step' s as t := by
  induction hr with
  | nil s => exact .nil s
  | cons hst _ ih => exact .cons (h _ _ _ hst) ih

/-- **Following a run.** A system that can follow every step can follow every run. Its states may
know more, and `view` is what they know of the others. -/
theorem Run.follow {τ : Type*} {next : τ → α → τ → Prop} (view : τ → σ)
    (h : ∀ g a t, step (view g) a t → ∃ g', next g a g' ∧ view g' = t) {g : τ} {t : σ}
    {as : List α} (hr : Run step (view g) as t) : ∃ g', Run next g as g' ∧ view g' = t := by
  generalize hs : view g = s at hr
  induction hr generalizing g with
  | nil s => exact ⟨g, .nil g, hs⟩
  | cons hst _ ih =>
    subst hs
    obtain ⟨g₁, hg, hview⟩ := h _ _ _ hst
    obtain ⟨g', hrun, heq⟩ := ih hview
    exact ⟨g', .cons hg hrun, heq⟩

/-- **Simulation.** If each step is followed by some steps of another system, then each run is
followed by those of its actions in turn. -/
theorem Run.simulate {τ β : Type*} {next : τ → β → τ → Prop} {R : σ → τ → Prop} (f : α → List β)
    (h : ∀ s a t g, R s g → step s a t → ∃ g', Run next g (f a) g' ∧ R t g') {s t : σ} {g : τ}
    {as : List α} (hr : Run step s as t) (hs : R s g) :
    ∃ g', Run next g (as.flatMap f) g' ∧ R t g' := by
  induction hr generalizing g with
  | nil s => exact ⟨g, .nil g, hs⟩
  | cons hst _ ih =>
    obtain ⟨g₁, hrun, hs₁⟩ := h _ _ _ _ hs hst
    obtain ⟨g', hrun', hs'⟩ := ih hs₁
    exact ⟨g', List.flatMap_cons ▸ run_append.mpr ⟨g₁, hrun, hrun'⟩, hs'⟩

/-- With steps that are functions of the state and the action, so are runs. -/
theorem Run.functional (h : ∀ s a t t', step s a t → step s a t' → t = t') {s t t' : σ}
    {as : List α} (hr : Run step s as t) (hr' : Run step s as t') : t = t' := by
  induction hr with
  | nil s => exact (run_nil.mp hr').symm
  | cons hst _ ih =>
    obtain ⟨u, hst', hr'⟩ := run_cons.mp hr'
    obtain rfl := h _ _ _ _ hst hst'
    exact ih hr'

/-- **The invariant rule.** What every step preserves, every run preserves. -/
theorem Run.invariant {I : σ → Prop} (hstep : ∀ s a t, I s → step s a t → I t) {s t : σ}
    {as : List α} (hr : Run step s as t) (hs : I s) : I t := by
  induction hr with
  | nil s => exact hs
  | cons hst _ ih => exact ih (hstep _ _ _ hs hst)

/-- An invariant may speak of the actions taken so far. -/
theorem Run.invariant_trace {I : List α → σ → Prop}
    (hstep : ∀ as s a t, I as s → step s a t → I (as ++ [a]) t) {s t : σ} {as : List α}
    (hr : Run step s as t) (hs : I [] s) : I as t := by
  induction as using List.reverseRecOn generalizing t with
  | nil => exact run_nil.mp hr ▸ hs
  | append_singleton as a ih =>
    obtain ⟨u, hru, hut⟩ := run_concat.mp hr
    exact hstep _ _ _ _ (ih hru) hut

/-- Steps from states with an invariant meet every condition that follows from it. -/
theorem Run.strengthen {I : σ → Prop} {C : σ → α → Prop} (hstep : ∀ s a t, I s → step s a t → I t)
    (hC : ∀ s a t, I s → step s a t → C s a) {s t : σ} {as : List α} (hr : Run step s as t)
    (hs : I s) : Run (fun s a t => step s a t ∧ C s a) s as t := by
  induction hr with
  | nil s => exact .nil s
  | cons hst _ ih => exact .cons ⟨hst, hC _ _ _ hs hst⟩ (ih (hstep _ _ _ hs hst))

theorem Run.of_forall_mem {C : α → Prop} {s t : σ} {as : List α} (hr : Run step s as t)
    (has : ∀ a ∈ as, C a) : Run (fun s a t => step s a t ∧ C a) s as t := by
  induction hr with
  | nil s => exact .nil s
  | cons hst _ ih =>
    obtain ⟨ha, has⟩ := List.forall_mem_cons.mp has
    exact .cons ⟨hst, ha⟩ (ih has)

/-- A run meets a condition on its steps if every step of it does. -/
theorem Run.forall_step_iff {C : σ → α → Prop}
    (hfun : ∀ s a t t', step s a t → step s a t' → t = t') {s t : σ} {as : List α}
    (hr : Run step s as t) :
    (∀ pre a post u, as = pre ++ a :: post → Run step s pre u → C u a) ↔
      Run (fun s a t => step s a t ∧ C s a) s as t := by
  induction hr with
  | nil s => exact ⟨fun _ => .nil s, fun _ pre a post u heq => by simp at heq⟩
  | @cons s t u a as hst hrun ih =>
    constructor
    · intro hall
      refine .cons ⟨hst, hall [] a as s rfl (.nil s)⟩ (ih.mp fun pre b post v heq hrv => ?_)
      exact hall (a :: pre) b post v (congrArg (a :: ·) heq) (.cons hst hrv)
    · intro hrun' pre b post v heq hrv
      obtain ⟨t', ⟨hst', hC⟩, htail⟩ := run_cons.mp hrun'
      obtain rfl := hfun _ _ _ _ hst hst'
      cases pre with
      | nil =>
        obtain ⟨rfl, -⟩ := List.cons.inj heq
        exact run_nil.mp hrv ▸ hC
      | cons c pre =>
        obtain ⟨rfl, heq'⟩ := List.cons.inj heq
        obtain ⟨t', hst', hrv'⟩ := run_cons.mp hrv
        obtain rfl := hfun _ _ _ _ hst hst'
        exact ih.mpr htail pre b post v heq' hrv'

/-- **Conditions on steps, properties of states.** If, from states with the property, exactly the
steps that meet the condition lead to states with the property, then the runs of such steps are the
runs through such states. -/
theorem Run.forall_prefix_iff {I P : σ → Prop} {C : σ → α → Prop}
    (hfun : ∀ s a t t', step s a t → step s a t' → t = t')
    (hI : ∀ s a t, I s → step s a t → I t)
    (hP : ∀ s a t, I s → P s → step s a t → (P t ↔ C s a)) {s t : σ} {as : List α}
    (hr : Run step s as t) (his : I s) (hps : P s) :
    (∀ pre u, pre <+: as → Run step s pre u → P u) ↔
      Run (fun s a t => step s a t ∧ C s a) s as t := by
  induction hr with
  | nil s =>
    refine ⟨fun _ => .nil s, fun _ pre u hpre hru => ?_⟩
    obtain rfl := List.prefix_nil.mp hpre
    exact run_nil.mp hru ▸ hps
  | @cons s t u a as hst hrun ih =>
    have hstep := hP s a t his hps hst
    constructor
    · intro hall
      have hpt : P t := hall [a] t ⟨as, rfl⟩ (.cons hst (.nil t))
      refine .cons ⟨hst, hstep.mp hpt⟩ ((ih (hI s a t his hst) hpt).mp fun pre v hpre hrv => ?_)
      exact hall (a :: pre) v (List.prefix_cons_inj a |>.mpr hpre) (.cons hst hrv)
    · intro hrun' pre v hpre hrv
      obtain ⟨t', ⟨hst', hC⟩, htail⟩ := run_cons.mp hrun'
      obtain rfl := hfun _ _ _ _ hst hst'
      cases pre with
      | nil => exact run_nil.mp hrv ▸ hps
      | cons b pre =>
        obtain ⟨rfl, hpre'⟩ := List.cons_prefix_cons.mp hpre
        obtain ⟨t', hst', hrv⟩ := run_cons.mp hrv
        obtain rfl := hfun _ _ _ _ hst hst'
        have hpt := hstep.mpr hC
        exact (ih (hI s _ t his hst) hpt).mpr htail pre v hpre' hrv

theorem Reaches.refl (s : σ) : Reaches step s s := ⟨[], .nil s⟩

theorem Reaches.tail {s t u : σ} {a : α} (h : Reaches step s t) (ha : step t a u) :
    Reaches step s u := by
  obtain ⟨as, hr⟩ := h
  exact ⟨as ++ [a], run_concat.mpr ⟨t, hr, ha⟩⟩

theorem Reaches.mono (h : ∀ s a t, step s a t → step' s a t) {s t : σ}
    (hr : Reaches step s t) : Reaches step' s t := by
  obtain ⟨as, hr⟩ := hr
  exact ⟨as, hr.mono h⟩

theorem Reaches.invariant {I : σ → Prop} (hstep : ∀ s a t, I s → step s a t → I t) {s t : σ}
    (hr : Reaches step s t) (hs : I s) : I t := by
  obtain ⟨as, hr⟩ := hr
  exact hr.invariant hstep hs

end Transition
