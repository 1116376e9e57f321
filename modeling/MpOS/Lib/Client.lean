import MpOS.Lib.Transition
import Mathlib.Data.List.Forall2

/-!
# Clients of a shared system

A client calls a system that others use as well. Its trace is the list of its calls with
their replies. Where each of its calls takes its view of the system from one state to the
next, and no other event of the run changes the view, the trace of any run is a run of the view
(`run_trace`) : what the client sees is a system of its own. Two such runs with the same
calls can be compared call by call (`Run.simulation`).

A client may be a program, whose next call is a function of its state (`Program`). A
relation between the states of a program and of its view and the calls so far that every
call keeps holds behind every trace the program follows (`Program.Follows.invariant`).
-/

namespace Client

open Transition

variable {κ ρ τ σ ε : Type*}

/-- The calls of the trace take the view from one state to another. -/
def Run (view : τ → κ × ρ → τ → Prop) : τ → List (κ × ρ) → τ → Prop
  | t, [], t' => t' = t
  | t, c :: cs, t' => ∃ t₁, view t c t₁ ∧ Run view t₁ cs t'

/-- The calls and replies of a client in a run. -/
def trace (step : σ → ε → Option σ) (own : σ → ε → Option (κ × ρ)) : σ → List ε → List (κ × ρ) :=
  outputs step fun s e => (own s e).toList

variable {view : τ → κ × ρ → τ → Prop} {step : σ → ε → Option σ} {own : σ → ε → Option (κ × ρ)}

/-- The refinement rule : a view that only the client's own calls change, and those as the view
says, is run by the client's trace, whatever happens between the calls. -/
theorem run_trace {Inv : σ → Prop} {C : σ → ε → Prop} (v : σ → τ)
    (hown : ∀ s e s' c, Inv s → Inv s' → C s e → step s e = some s' → own s e = some c →
      view (v s) c (v s'))
    (hother : ∀ s e s', Inv s → Inv s' → C s e → step s e = some s' → own s e = none → v s' = v s)
    {s s' : σ} {es : List ε} (hs : AllStates step Inv s es) (hc : AllEvents step C s es)
    (hrun : Transition.run step s es = some s') : Run view (v s) (trace step own s es) (v s') := by
  induction es generalizing s with
  | nil =>
    obtain rfl := Option.some.inj hrun
    rfl
  | cons e es ih =>
    rw [run_cons] at hrun
    obtain ⟨s₁, hstep, hrun⟩ := Option.bind_eq_some_iff.1 hrun
    have hs₁ := hs.2 s₁ hstep
    have hrest := ih hs₁ (hc.2 s₁ hstep) hrun
    rw [trace, outputs, hstep, Option.elim_some]
    cases hcall : own s e with
    | none =>
      rw [← hother s e s₁ hs.1 hs₁.head hc.1 hstep hcall]
      exact hrest
    | some c => exact ⟨v s₁, hown s e s₁ c hs.1 hs₁.head hc.1 hstep hcall, hrest⟩

/-- Two runs with the same calls keep a relation between their views, and one between their
replies, if every call does. -/
theorem Run.simulation {R : τ → τ → Prop} {Q : κ × ρ → κ × ρ → Prop}
    (hR : ∀ t u c r q t' u', R t u → view t (c, r) t' → view u (c, q) u' →
      R t' u' ∧ Q (c, r) (c, q))
    {t t' u u' : τ} {cs ds : List (κ × ρ)} (h : Run view t cs t') (h' : Run view u ds u')
    (hcalls : cs.map Prod.fst = ds.map Prod.fst) (htu : R t u) :
    R t' u' ∧ List.Forall₂ Q cs ds := by
  induction cs generalizing t u ds with
  | nil =>
    obtain rfl := List.map_eq_nil_iff.1 hcalls.symm
    obtain rfl : t' = t := h
    obtain rfl : u' = u := h'
    exact ⟨htu, .nil⟩
  | cons c cs ih =>
    obtain ⟨d, ds, rfl, hcd, hrest⟩ := List.map_eq_cons_iff.1 hcalls.symm
    obtain ⟨t₁, hc, h⟩ := h
    obtain ⟨u₁, hd, h'⟩ := h'
    obtain ⟨c, r⟩ := c
    obtain ⟨d, q⟩ := d
    obtain rfl : d = c := hcd
    obtain ⟨hnext, hq⟩ := hR t u d r q t₁ u₁ htu hc hd
    obtain ⟨hend, hall⟩ := ih h h' hrest.symm hnext
    exact ⟨hend, .cons hq hall⟩

/-! ## Programs -/

/-- A sequential program : the call it makes in a state, if it has not come to its end, and the
state it goes on in with the reply. -/
structure Program (κ ρ : Type*) (σ : Type*) where
  next : σ → Option κ
  resume : σ → ρ → σ

namespace Program

variable (P : Program κ ρ σ)

/-- The trace is one of the program's, between two of its states. -/
def Follows : σ → List (κ × ρ) → σ → Prop :=
  Run fun s c s' => P.next s = some c.1 ∧ s' = P.resume s c.2

/-- The rule for programs : a relation between program, view and the calls so far that every
call keeps. -/
theorem Follows.invariant {P : Program κ ρ σ} {J : σ → τ → List (κ × ρ) → Prop}
    (hJ : ∀ s t cs c r t', J s t cs → P.next s = some c → view t (c, r) t' →
      J (P.resume s r) t' (cs ++ [(c, r)]))
    {s s' : σ} {t t' : τ} {cs cs₀ : List (κ × ρ)} (hf : P.Follows s cs s') (hr : Run view t cs t')
    (h : J s t cs₀) : J s' t' (cs₀ ++ cs) := by
  induction cs generalizing s t cs₀ with
  | nil =>
    obtain rfl : s' = s := hf
    obtain rfl : t' = t := hr
    rwa [List.append_nil]
  | cons c cs ih =>
    obtain ⟨s₁, ⟨hnext, rfl⟩, hf⟩ := hf
    obtain ⟨t₁, hview, hr⟩ := hr
    rw [List.append_cons]
    exact ih hf hr (hJ s t cs₀ c.1 c.2 t₁ h hnext hview)

end Program

end Client
