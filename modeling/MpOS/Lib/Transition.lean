import Mathlib.Logic.Basic
import Mathlib.Data.Option.Basic

/-!
# Runs of a partial transition function

A deterministic system is a function `step : σ → ε → Option σ`. `none` says that
the event is not enabled : its issuer is still waiting, or there is no issuer.
A run is a list of events. `AllStates` and `AllSteps` speak about the states and
the transitions of a run up to the first event that is not enabled, and
`Reachable` about the states of all runs.

`allStates_iff_allSteps` lifts an exact condition on single steps to whole runs :
if one step from a good state leads to a good state exactly when the step meets
a condition, a run stays in good states exactly when all its steps meet it.

`outputs` collects what the events of a run put out, and `outputs_eq` is the rule for
two runs that put out the same. `run_simulation` matches the runs of one system with runs of
another, and `flag_iff` says which runs leave a flag up.

`track` runs a history variable beside the system. A refinement is an invariant
of the tracked system.
-/

namespace Transition

variable {σ ε γ : Type*}

/-- The state after the events, if each of them is enabled in its turn. -/
def run (step : σ → ε → Option σ) : σ → List ε → Option σ
  | s, [] => some s
  | s, e :: es => (step s e).bind fun s' => run step s' es

/-- Every transition of the run satisfies `P`. -/
def AllSteps (step : σ → ε → Option σ) (P : σ → ε → σ → Prop) : σ → List ε → Prop
  | _, [] => True
  | s, e :: es => ∀ s', step s e = some s' → P s e s' ∧ AllSteps step P s' es

/-- Every state of the run, its first included, satisfies `Q`. -/
def AllStates (step : σ → ε → Option σ) (Q : σ → Prop) : σ → List ε → Prop
  | s, [] => Q s
  | s, e :: es => Q s ∧ ∀ s', step s e = some s' → AllStates step Q s' es

/-- Every event of the run satisfies `P` in the state it is issued in, the first that is not
enabled included. -/
def AllEvents (step : σ → ε → Option σ) (P : σ → ε → Prop) : σ → List ε → Prop
  | _, [] => True
  | s, e :: es => P s e ∧ ∀ s', step s e = some s' → AllEvents step P s' es

/-- The states of the runs that start in `init` and whose events satisfy `C`. -/
inductive Reachable (step : σ → ε → Option σ) (C : σ → ε → Prop) (init : σ → Prop) : σ → Prop
  | init {s : σ} : init s → Reachable step C init s
  | step {s s' : σ} {e : ε} : Reachable step C init s → C s e → step s e = some s' →
      Reachable step C init s'

variable {step : σ → ε → Option σ} {C : σ → ε → Prop} {init : σ → Prop}

@[simp] theorem run_nil (s : σ) : run step s [] = some s :=
  rfl

theorem run_cons (s : σ) (e : ε) (es : List ε) :
    run step s (e :: es) = (step s e).bind fun s' => run step s' es :=
  rfl

theorem run_append (s : σ) (es es' : List ε) :
    run step s (es ++ es') = (run step s es).bind fun s' => run step s' es' := by
  induction es generalizing s with
  | nil => rfl
  | cons e es ih =>
    rw [List.cons_append, run_cons, run_cons, Option.bind_assoc]
    exact congrArg _ (funext ih)

/-- A run from a reachable state ends in one. -/
theorem Reachable.run {s s' : σ} {es : List ε} (h : Reachable step C init s)
    (hc : AllEvents step C s es) (hrun : run step s es = some s') : Reachable step C init s' := by
  induction es generalizing s with
  | nil =>
    obtain rfl := Option.some.inj hrun
    exact h
  | cons e es ih =>
    rw [run_cons] at hrun
    obtain ⟨s₁, hstep, hrun⟩ := Option.bind_eq_some_iff.1 hrun
    exact ih (h.step hc.1 hstep) (hc.2 s₁ hstep) hrun

/-- The invariant rule : what holds initially and is preserved by every step holds in
every reachable state. -/
theorem Reachable.invariant {Inv : σ → Prop} (h₀ : ∀ s, init s → Inv s)
    (hstep : ∀ s e s', Inv s → C s e → step s e = some s' → Inv s') {s : σ}
    (hs : Reachable step C init s) : Inv s := by
  induction hs with
  | init h => exact h₀ _ h
  | step _ hc h ih => exact hstep _ _ _ ih hc h

theorem allSteps_cons {P : σ → ε → σ → Prop} {s s' : σ} {e : ε} {es : List ε}
    (h : step s e = some s') (hp : P s e s') (hes : AllSteps step P s' es) :
    AllSteps step P s (e :: es) := by
  intro s'' h'
  obtain rfl := Option.some.inj (h.symm.trans h')
  exact ⟨hp, hes⟩

theorem AllStates.head {Q : σ → Prop} {s : σ} {es : List ε} (h : AllStates step Q s es) : Q s := by
  cases es with
  | nil => exact h
  | cons e es => exact h.1

theorem AllStates.last {Q : σ → Prop} {s s' : σ} {es : List ε} (h : AllStates step Q s es)
    (hrun : run step s es = some s') : Q s' := by
  induction es generalizing s with
  | nil =>
    obtain rfl := Option.some.inj hrun
    exact h
  | cons e es ih =>
    rw [run_cons] at hrun
    obtain ⟨s₁, hstep, hrun⟩ := Option.bind_eq_some_iff.1 hrun
    exact ih (h.2 s₁ hstep) hrun

/-- A property of states that follows from another under an invariant. -/
theorem AllStates.imp {Inv Q Q' : σ → Prop} {s : σ} {es : List ε} (h : AllStates step Q s es)
    (hc : AllEvents step C s es) (hInv : ∀ s e s', Inv s → C s e → step s e = some s' → Inv s')
    (hQ : ∀ s, Inv s → Q s → Q' s) (hs : Inv s) : AllStates step Q' s es := by
  induction es generalizing s with
  | nil => exact hQ _ hs h
  | cons e es ih =>
    exact ⟨hQ _ hs h.1, fun s' h' => ih (h.2 s' h') (hc.2 s' h') (hInv _ _ _ hs hc.1 h')⟩

theorem AllStates.mono {Q Q' : σ → Prop} {s : σ} {es : List ε} (h : AllStates step Q s es)
    (hQ : ∀ s, Q s → Q' s) : AllStates step Q' s es := by
  induction es generalizing s with
  | nil => exact hQ s h
  | cons e es ih => exact ⟨hQ s h.1, fun s' h' => ih (h.2 s' h')⟩

/-- Steps that meet `C` and keep `Q` under an invariant keep `Q` along a whole run. -/
theorem allStates_of_allSteps {Inv Q : σ → Prop}
    (hInv : ∀ s e s', Inv s → step s e = some s' → Inv s')
    (hQ : ∀ s e s', Inv s → Q s → C s e → step s e = some s' → Q s') {s : σ} {es : List ε}
    (hs : Inv s) (hq : Q s) (hc : AllSteps step (fun s e _ => C s e) s es) :
    AllStates step Q s es := by
  induction es generalizing s with
  | nil => exact hq
  | cons e es ih =>
    refine ⟨hq, fun s' h => ?_⟩
    obtain ⟨hC, hc'⟩ := hc s' h
    exact ih (hInv _ _ _ hs h) (hQ _ _ _ hs hq hC h) hc'

/-- An exact condition on single steps is an exact condition on runs, under an invariant that
the events of the run keep. -/
theorem allStates_iff_allSteps {Inv Q : σ → Prop} {G : σ → ε → Prop}
    (hInv : ∀ s e s', Inv s → G s e → step s e = some s' → Inv s')
    (hQ : ∀ s e s', Inv s → Q s → step s e = some s' → (Q s' ↔ C s e)) {s : σ} {es : List ε}
    (hg : AllEvents step G s es) (hs : Inv s) (hq : Q s) :
    AllStates step Q s es ↔ AllSteps step (fun s e _ => C s e) s es := by
  induction es generalizing s with
  | nil => exact iff_of_true hq trivial
  | cons e es ih =>
    have hnext : ∀ s', step s e = some s' → Q s' →
        (AllStates step Q s' es ↔ AllSteps step (fun s e _ => C s e) s' es) :=
      fun s' h' hq' => ih (hg.2 s' h') (hInv s e s' hs hg.1 h') hq'
    constructor
    · intro h s' h'
      have hq' : Q s' := (h.2 s' h').head
      exact ⟨(hQ s e s' hs hq h').1 hq', (hnext s' h' hq').1 (h.2 s' h')⟩
    · refine fun h => ⟨hq, fun s' h' => ?_⟩
      obtain ⟨hc, hcs⟩ := h s' h'
      exact (hnext s' h' ((hQ s e s' hs hq h').2 hc)).2 hcs

/-- The same for a run through states of a kind, with an invariant that steps between states of
the kind keep. -/
theorem allStates_iff_allSteps_of {Inv D Q : σ → Prop}
    (hInv : ∀ s e s', Inv s → D s → step s e = some s' → D s' → Inv s')
    (hQ : ∀ s e s', Inv s → D s → Q s → step s e = some s' → D s' → (Q s' ↔ C s e)) {s : σ}
    {es : List ε} (hs : Inv s) (hq : Q s) (hd : AllStates step D s es) :
    AllStates step Q s es ↔ AllSteps step (fun s e _ => C s e) s es := by
  induction es generalizing s with
  | nil => exact iff_of_true hq trivial
  | cons e es ih =>
    have hstep : ∀ s', step s e = some s' → (Q s' ↔ C s e) :=
      fun s' h' => hQ s e s' hs hd.1 hq h' (hd.2 s' h').head
    have hnext : ∀ s', step s e = some s' → Q s' →
        (AllStates step Q s' es ↔ AllSteps step (fun s e _ => C s e) s' es) :=
      fun s' h' hq' => ih (hInv s e s' hs hd.1 h' (hd.2 s' h').head) hq' (hd.2 s' h')
    constructor
    · intro h s' h'
      have hall := h.2 s' h'
      exact ⟨(hstep s' h').1 hall.head, (hnext s' h' hall.head).1 hall⟩
    · refine fun h => ⟨hq, fun s' h' => ?_⟩
      obtain ⟨hc, hcs⟩ := h s' h'
      exact (hnext s' h' ((hstep s' h').2 hc)).2 hcs

/-- Two properties of steps that agree under an invariant agree on every run whose events keep
the invariant. -/
theorem allSteps_congr {Inv : σ → Prop} {P P' : σ → ε → σ → Prop}
    (hInv : ∀ s e s', Inv s → C s e → step s e = some s' → Inv s')
    (hP : ∀ s e s', Inv s → step s e = some s' → (P s e s' ↔ P' s e s')) {s : σ} {es : List ε}
    (hc : AllEvents step C s es) (hs : Inv s) : AllSteps step P s es ↔ AllSteps step P' s es := by
  induction es generalizing s with
  | nil => exact Iff.rfl
  | cons e es ih =>
    exact forall₂_congr fun s' h =>
      and_congr (hP _ _ _ hs h) (ih (hc.2 s' h) (hInv _ _ _ hs hc.1 h))

/-- What holds of each event of the list in all states. -/
theorem AllEvents.of_mem {P : σ → ε → Prop} {s : σ} {es : List ε} (h : ∀ e ∈ es, ∀ s, P s e) :
    AllEvents step P s es := by
  induction es generalizing s with
  | nil => trivial
  | cons e es ih =>
    obtain ⟨he, hes⟩ := List.forall_mem_cons.1 h
    exact ⟨he s, fun s' _ => ih hes⟩

theorem AllEvents.allSteps {P : σ → ε → Prop} {s : σ} {es : List ε} (h : AllEvents step P s es) :
    AllSteps step (fun s e _ => P s e) s es := by
  induction es generalizing s with
  | nil => trivial
  | cons e es ih => exact fun s' h' => ⟨h.1, ih (h.2 s' h')⟩

/-- A property of events that follows from another, under an invariant that events under the
other keep. -/
theorem AllEvents.imp {Inv : σ → Prop} {C P : σ → ε → Prop} {s : σ} {es : List ε}
    (h : AllEvents step C s es) (hInv : ∀ s e s', Inv s → C s e → step s e = some s' → Inv s')
    (hP : ∀ s e, Inv s → C s e → P s e) (hs : Inv s) : AllEvents step P s es := by
  induction es generalizing s with
  | nil => trivial
  | cons e es ih =>
    exact ⟨hP s e hs h.1, fun s' h' => ih (h.2 s' h') (hInv s e s' hs h.1 h')⟩

/-- The invariant in the states of a run whose events meet the condition. -/
theorem AllEvents.allStates {Inv : σ → Prop} {s : σ} {es : List ε}
    (h : AllEvents step C s es) (hInv : ∀ s e s', Inv s → C s e → step s e = some s' → Inv s')
    (hs : Inv s) : AllStates step Inv s es := by
  induction es generalizing s with
  | nil => exact hs
  | cons e es ih => exact ⟨hs, fun s' h' => ih (h.2 s' h') (hInv s e s' hs h.1 h')⟩

/-- The invariant at the end of a run whose events meet the condition. -/
theorem AllEvents.invariant {Inv : σ → Prop} {s s' : σ} {es : List ε}
    (h : AllEvents step C s es) (hInv : ∀ s e s', Inv s → C s e → step s e = some s' → Inv s')
    (hs : Inv s) (hr : Transition.run step s es = some s') : Inv s' := by
  induction es generalizing s with
  | nil =>
    obtain rfl := Option.some.inj hr
    exact hs
  | cons e es ih =>
    rw [run_cons, Option.bind_eq_some_iff] at hr
    obtain ⟨s₁, h₁, hr⟩ := hr
    exact ih (h.2 s₁ h₁) (hInv s e s₁ hs h.1 h₁) hr

/-- An exact condition on single events is an exact condition on runs, under an invariant that
events under the condition keep. -/
theorem allEvents_iff {Inv : σ → Prop} {G P C : σ → ε → Prop}
    (hInv : ∀ s e s', Inv s → G s e → C s e → step s e = some s' → Inv s')
    (hP : ∀ s e, Inv s → G s e → (P s e ↔ C s e)) {s : σ} {es : List ε}
    (hg : AllEvents step G s es) (hs : Inv s) :
    AllEvents step P s es ↔ AllEvents step C s es := by
  induction es generalizing s with
  | nil => exact Iff.rfl
  | cons e es ih =>
    have he := hP s e hs hg.1
    constructor
    · refine fun h => ⟨he.1 h.1, fun s' h' => ?_⟩
      exact (ih (hg.2 s' h') (hInv s e s' hs hg.1 (he.1 h.1) h')).1 (h.2 s' h')
    · refine fun h => ⟨he.2 h.1, fun s' h' => ?_⟩
      exact (ih (hg.2 s' h') (hInv s e s' hs hg.1 h.1 h')).2 (h.2 s' h')

/-- The same for a property of states together with one of events. -/
theorem allStates_and_allEvents_iff {Q : σ → Prop} {P C : σ → ε → Prop}
    (hstep : ∀ s e, Q s → ((P s e ∧ ∀ s', step s e = some s' → Q s') ↔ C s e)) {s : σ} {es : List ε}
    (hs : Q s) :
    AllStates step Q s es ∧ AllEvents step P s es ↔ AllEvents step C s es := by
  induction es generalizing s with
  | nil => exact iff_of_true ⟨hs, trivial⟩ trivial
  | cons e es ih =>
    constructor
    · rintro ⟨⟨-, hq⟩, hp, hps⟩
      refine ⟨(hstep s e hs).1 ⟨hp, fun s' h' => (hq s' h').head⟩, fun s' h' => ?_⟩
      exact (ih (hq s' h').head).1 ⟨hq s' h', hps s' h'⟩
    · rintro ⟨hc, hcs⟩
      obtain ⟨hp, hq⟩ := (hstep s e hs).2 hc
      have hall := fun s' h' => (ih (hq s' h')).2 (hcs s' h')
      exact ⟨⟨hs, fun s' h' => (hall s' h').1⟩, hp, fun s' h' => (hall s' h').2⟩

/-- Two systems with the same steps under a condition have the same runs under it. -/
theorem run_congr {step' : σ → ε → Option σ} (h : ∀ s e, C s e → step s e = step' s e) {s : σ}
    {es : List ε} (hc : AllEvents step C s es) :
    run step s es = run step' s es ∧ AllEvents step' C s es := by
  induction es generalizing s with
  | nil => exact ⟨rfl, trivial⟩
  | cons e es ih =>
    have he := h s e hc.1
    constructor
    · rw [run_cons, run_cons, ← he]
      cases hs : step s e with
      | none => rfl
      | some s' => exact (ih (hc.2 s' hs)).1
    · exact ⟨hc.1, fun s' hs => (ih (hc.2 s' (he.trans hs))).2⟩

/-- A condition on the events of a run and of the run behind it. -/
theorem allEvents_append {P : σ → ε → Prop} {s s' : σ} {es es' : List ε}
    (h : run step s es = some s') :
    AllEvents step P s (es ++ es') ↔ AllEvents step P s es ∧ AllEvents step P s' es' := by
  induction es generalizing s with
  | nil =>
    obtain rfl := Option.some.inj h
    exact (iff_of_eq (true_and _)).symm
  | cons e es ih =>
    rw [run_cons, Option.bind_eq_some_iff] at h
    obtain ⟨s₁, he, h⟩ := h
    have hnext : ∀ es, (∀ t, step s e = some t → AllEvents step P t es) ↔
        AllEvents step P s₁ es := by
      simp [he]
    rw [List.cons_append, AllEvents, AllEvents, hnext, hnext, ih h, and_assoc]

/-- What holds of the events of the list on their own. -/
theorem AllEvents.and_mem {Q : ε → Prop} {s : σ} {es : List ε}
    (h : AllEvents step C s es) (hq : ∀ e ∈ es, Q e) :
    AllEvents step (fun s e => Q e ∧ C s e) s es := by
  induction es generalizing s with
  | nil => trivial
  | cons e es ih =>
    obtain ⟨he, hes⟩ := List.forall_mem_cons.1 hq
    exact ⟨⟨he, h.1⟩, fun s' h' => ih (h.2 s' h') hes⟩

/-! ## Two runs -/

/-- What the events of a run put out, the first that is not enabled included. -/
def outputs (step : σ → ε → Option σ) (out : σ → ε → List γ) : σ → List ε → List γ
  | _, [] => []
  | s, e :: es => out s e ++ (step s e).elim [] fun s' => outputs step out s' es

theorem outputs_append (out : σ → ε → List γ) (s : σ) (es es' : List ε) :
    outputs step out s (es ++ es') =
      outputs step out s es ++ (run step s es).elim [] fun s' => outputs step out s' es' := by
  induction es generalizing s with
  | nil => rfl
  | cons e es ih =>
    simp only [List.cons_append, outputs, run_cons]
    cases step s e with
    | none => simp
    | some s' => simp [ih]

theorem all_outputs {P : σ → ε → Prop} [∀ s e, Decidable (P s e)] {s : σ} {es : List ε} :
    (outputs step (fun s e => [decide (P s e)]) s es).all id = true ↔ AllEvents step P s es := by
  induction es generalizing s with
  | nil => exact iff_of_true rfl trivial
  | cons e es ih =>
    rw [outputs, List.singleton_append, List.all_cons, Bool.and_eq_true]
    refine and_congr (by simp) ?_
    cases h : step s e with
    | none => simp
    | some s' => simp [ih]

/-- A decidable condition on events can be checked along a run. -/
instance decidableAllEvents (P : σ → ε → Prop) [∀ s e, Decidable (P s e)] (s : σ) (es : List ε) :
    Decidable (AllEvents step P s es) :=
  decidable_of_iff _ all_outputs

theorem allStates_iff_allEvents {Q : σ → Prop} {s : σ} {es : List ε} :
    AllStates step Q s es ↔
      AllEvents step (fun s _ => Q s) s es ∧ ∀ s' ∈ run step s es, Q s' := by
  constructor
  · refine fun h => ⟨?_, fun s' hs' => h.last hs'⟩
    induction es generalizing s with
    | nil => trivial
    | cons e es ih => exact ⟨h.1, fun s' hs' => ih (h.2 s' hs')⟩
  · rintro ⟨h, hlast⟩
    induction es generalizing s with
    | nil => exact hlast s rfl
    | cons e es ih =>
      refine ⟨h.1, fun s' hs' => ih (h.2 s' hs') fun t ht => hlast t ?_⟩
      rw [run_cons, hs', Option.bind_some]
      exact ht

/-- So can a decidable condition on states. -/
instance decidableAllStates (Q : σ → Prop) [DecidablePred Q] (s : σ) (es : List ε) :
    Decidable (AllStates step Q s es) :=
  decidable_of_iff' _ allStates_iff_allEvents

/-- The unwinding rule : a relation between states that every event under the condition keeps
and under which it puts out the same, relates two runs with the same outputs. -/
theorem outputs_eq {R : σ → σ → Prop} {C : σ → ε → Prop} {out : σ → ε → List γ}
    (hstep : ∀ s t e, R s t → C s e → Option.Rel R (step s e) (step t e))
    (hout : ∀ s t e, R s t → C s e → out s e = out t e) {s t : σ} {es : List ε} (h : R s t)
    (hc : AllEvents step C s es) : outputs step out s es = outputs step out t es := by
  induction es generalizing s t with
  | nil => rfl
  | cons e es ih =>
    rw [outputs, outputs, hout s t e h hc.1]
    have hrel := hstep s t e h hc.1
    have htail := hc.2
    cases hs : step s e with
    | none =>
      rw [hs] at hrel
      cases ht : step t e with
      | none => rfl
      | some t' =>
        rw [ht] at hrel
        cases hrel
    | some s' =>
      rw [hs] at hrel
      cases ht : step t e with
      | none =>
        rw [ht] at hrel
        cases hrel
      | some t' =>
        rw [ht] at hrel
        cases hrel with
        | some h' => rw [Option.elim_some, Option.elim_some, ih h' (htail s' hs)]

/-! ## Two levels -/

/-- The simulation rule : if each step under a condition is matched by a run of another system
over the events it puts out, so is each run under it. -/
theorem run_simulation {τ δ : Type*} {step' : τ → δ → Option τ} {R : σ → τ → Prop}
    {out : σ → ε → List δ}
    (hstep : ∀ s t e s', R s t → C s e → step s e = some s' →
      ∃ t', run step' t (out s e) = some t' ∧ R s' t')
    {s s' : σ} {t : τ} {es : List ε} (h : R s t) (hc : AllEvents step C s es)
    (hrun : run step s es = some s') :
    ∃ t', run step' t (outputs step out s es) = some t' ∧ R s' t' := by
  induction es generalizing s t with
  | nil =>
    obtain rfl := Option.some.inj hrun
    exact ⟨t, rfl, h⟩
  | cons e es ih =>
    rw [run_cons] at hrun
    obtain ⟨s₁, he, hrun⟩ := Option.bind_eq_some_iff.1 hrun
    obtain ⟨t₁, ht₁, h₁⟩ := hstep s t e s₁ h hc.1 he
    obtain ⟨t', ht', h'⟩ := ih h₁ (hc.2 s₁ he) hrun
    refine ⟨t', ?_, h'⟩
    rw [outputs, he, Option.elim_some, run_append, ht₁, Option.bind_some, ht']

/-- A flag that some events raise and others lower is up at the end of a run exactly if it was up
before and no event lowered it, or some event raised it and none behind that one lowered it. -/
theorem flag_iff {Q : σ → Prop} {Raises Lowers : σ → ε → Prop}
    (hstep : ∀ s e s', step s e = some s' → (Q s' ↔ Raises s e ∨ Q s ∧ ¬Lowers s e))
    {s s' : σ} {es : List ε} (hrun : run step s es = some s') :
    Q s' ↔ (Q s ∧ AllEvents step (fun s e => ¬Lowers s e) s es) ∨
      ∃ es₁ e es₂ s₁ s₂, es = es₁ ++ e :: es₂ ∧ run step s es₁ = some s₁ ∧
        step s₁ e = some s₂ ∧ Raises s₁ e ∧ AllEvents step (fun s e => ¬Lowers s e) s₂ es₂ := by
  induction es generalizing s with
  | nil =>
    obtain rfl := Option.some.inj hrun
    constructor
    · exact fun h => Or.inl ⟨h, trivial⟩
    · rintro (h | ⟨es₁, e, es₂, s₁, s₂, h, -⟩)
      · exact h.1
      · exact absurd h (by simp)
  | cons e es ih =>
    rw [run_cons] at hrun
    obtain ⟨s₁, he, hrun⟩ := Option.bind_eq_some_iff.1 hrun
    rw [ih hrun, hstep s e s₁ he]
    constructor
    · rintro (⟨hr | ⟨hq, hl⟩, hall⟩ | ⟨es₁, e', es₂, t₁, t₂, rfl, h₁, h₂, hr, hall⟩)
      · exact Or.inr ⟨[], e, es, s, s₁, rfl, rfl, he, hr, hall⟩
      · refine Or.inl ⟨hq, hl, fun t ht => ?_⟩
        obtain rfl := Option.some.inj (he.symm.trans ht)
        exact hall
      · refine Or.inr ⟨e :: es₁, e', es₂, t₁, t₂, rfl, ?_, h₂, hr, hall⟩
        rw [run_cons, he, Option.bind_some, h₁]
    · rintro (⟨hq, hl, hall⟩ | ⟨es₁, e', es₂, t₁, t₂, heq, h₁, h₂, hr, hall⟩)
      · exact Or.inl ⟨Or.inr ⟨hq, hl⟩, hall s₁ he⟩
      · cases es₁ with
        | nil =>
          obtain ⟨rfl, rfl⟩ := List.cons.inj heq
          obtain rfl := Option.some.inj h₁
          obtain rfl := Option.some.inj (he.symm.trans h₂)
          exact Or.inl ⟨Or.inl hr, hall⟩
        | cons f es₁ =>
          obtain ⟨rfl, rfl⟩ := List.cons.inj heq
          rw [run_cons, he, Option.bind_some] at h₁
          exact Or.inr ⟨es₁, e', es₂, t₁, t₂, rfl, h₁, h₂, hr, hall⟩

/-! ## History variables -/

/-- The system together with a history variable `g` updates from each step's pre-state. -/
def track (step : σ → ε → Option σ) (g : σ → ε → γ → γ) (p : σ × γ) (e : ε) : Option (σ × γ) :=
  (step p.1 e).map fun s' => (s', g p.1 e p.2)

theorem track_eq_some_iff {g : σ → ε → γ → γ} {p p' : σ × γ} {e : ε} :
    track step g p e = some p' ↔ step p.1 e = some p'.1 ∧ p'.2 = g p.1 e p.2 := by
  obtain ⟨s', h'⟩ := p'
  simp only [track, Option.map_eq_some_iff, Prod.mk.injEq]
  constructor
  · rintro ⟨a, ha, rfl, rfl⟩
    exact ⟨ha, rfl⟩
  · rintro ⟨ha, rfl⟩
    exact ⟨s', ha, rfl, rfl⟩

theorem allEvents_track {g : σ → ε → γ → γ} {P : σ → ε → Prop} {s : σ} {c : γ} {es : List ε} :
    AllEvents (track step g) (fun p e => P p.1 e) (s, c) es ↔ AllEvents step P s es := by
  induction es generalizing s c with
  | nil => exact Iff.rfl
  | cons e es ih =>
    refine and_congr_right fun _ => ⟨fun h s' h' => ?_, fun h p h' => ?_⟩
    · exact ih.1 (h (s', g s e c) (track_eq_some_iff.2 ⟨h', rfl⟩))
    · exact ih.2 (h p.1 (track_eq_some_iff.1 h').1)

theorem outputs_track {β : Type*} {g : σ → ε → γ → γ} (out : σ → ε → List β) (s : σ) (c : γ)
    (es : List ε) : outputs (track step g) (fun p e => out p.1 e) (s, c) es =
      outputs step out s es := by
  induction es generalizing s c with
  | nil => rfl
  | cons e es ih =>
    rw [outputs, outputs, track]
    cases step s e with
    | none => rfl
    | some s' => exact congrArg (out s e ++ ·) (ih s' (g s e c))

end Transition
