import Mathlib.Data.List.Range
import Mathlib.Data.Option.Basic

/-!
# Loops

The rule of a loop over `List.range` : an invariant that is indexed by the number of
passes, holds before the first and is kept by each pass holds after the last. For a loop
over rows and columns the index counts cells. A loop of checked passes is the loop of
the passes where no check fails.

`iterate` is a loop whose passes say whether it goes on, cut off after a number of
passes. If each pass keeps an invariant and decreases a variant, more passes than the
variant says at the start are enough (`iterate_induction`), and the result does not
depend on how many are allowed (`iterate_mono`). Two loops whose passes keep a relation end
in related results (`iterate_rel`).
-/

namespace Loop

variable {σ : Type*}

/-- A loop of `n` passes. -/
theorem range_induction {f : σ → ℕ → σ} (Inv : ℕ → σ → Prop) {s : σ} (n : ℕ) (h₀ : Inv 0 s)
    (hstep : ∀ i < n, ∀ s, Inv i s → Inv (i + 1) (f s i)) :
    Inv n ((List.range n).foldl f s) := by
  induction n with
  | zero => exact h₀
  | succ n ih =>
    rw [List.range_succ, List.foldl_concat]
    exact hstep n (Nat.lt_succ_self n) _ (ih fun i hi => hstep i (hi.trans (Nat.lt_succ_self n)))

/-- A loop over the cells of `rows` rows of `cols` columns. -/
theorem grid_induction {f : σ → ℕ → σ} (Inv : ℕ → σ → Prop) {s : σ} (rows cols : ℕ)
    (h₀ : Inv 0 s) (hstep : ∀ n < rows * cols, ∀ s, Inv n s → Inv (n + 1) (f s n)) :
    Inv (rows * cols) ((List.range rows).foldl
      (fun s i => (List.range cols).foldl (fun s j => f s (i * cols + j)) s) s) := by
  refine range_induction (fun i => Inv (i * cols)) rows (by simpa using h₀) fun i hi s hs => ?_
  have hrow := @range_induction σ (fun s j => f s (i * cols + j)) (fun j => Inv (i * cols + j)) s
    cols hs fun j hj s hs => ?_
  · rwa [Nat.succ_mul]
  · have hnext : (i + 1) * cols ≤ rows * cols := Nat.mul_le_mul_right cols hi
    rw [Nat.succ_mul] at hnext
    have hcell : i * cols + j < rows * cols := by omega
    exact hstep _ hcell s hs

/-- A loop whose passes can fail, and do not. -/
theorem foldlM_eq_some {α : Type*} {f : σ → α → Option σ} {g : σ → α → σ} {l : List α}
    (h : ∀ a ∈ l, ∀ s, f s a = some (g s a)) (s : σ) : l.foldlM f s = some (l.foldl g s) := by
  induction l generalizing s with
  | nil => rfl
  | cons a l ih =>
    obtain ⟨ha, hl⟩ := List.forall_mem_cons.1 h
    rw [List.foldlM_cons, ha]
    exact ih hl (g s a)

/-! ## Loops that say when to stop -/

section Iterate

variable {ρ : Type*} {body : σ → σ ⊕ ρ} {s : σ} {r : ρ} {n : ℕ}

/-- The result of a loop within `n` passes. A pass goes on from a state or leaves with a result. -/
def iterate (body : σ → σ ⊕ ρ) : (n : ℕ) → (s : σ) → Option ρ
  | 0, _ => none
  | n + 1, s =>
    match body s with
    | .inl s => iterate body n s
    | .inr r => some r

theorem iterate_of_inl {s' : σ} (h : body s = .inl s') (n : ℕ) :
    iterate body (n + 1) s = iterate body n s' := by
  rw [iterate, h]

theorem iterate_of_inr (h : body s = .inr r) (n : ℕ) : iterate body (n + 1) s = some r := by
  rw [iterate, h]

/-- Allowing more passes does not change the result. -/
theorem iterate_mono {m : ℕ} (h : iterate body n s = some r) (hm : n ≤ m) :
    iterate body m s = some r := by
  induction n generalizing s m with
  | zero => exact absurd h (by simp [iterate])
  | succ n ih =>
    obtain ⟨m, rfl⟩ := Nat.exists_eq_add_one_of_ne_zero (by omega : m ≠ 0)
    cases hb : body s with
    | inl s' =>
      rw [iterate_of_inl hb] at h ⊢
      exact ih h (by omega)
    | inr r' =>
      rw [iterate_of_inr hb] at h ⊢
      exact h

/-- A loop has one result. -/
theorem iterate_unique {m : ℕ} {r' : ρ} (h : iterate body n s = some r)
    (h' : iterate body m s = some r') : r = r' := by
  have hn := iterate_mono h (Nat.le_max_left n m)
  have hm := iterate_mono h' (Nat.le_max_right n m)
  exact Option.some.inj (hn.symm.trans hm)

/-- Total correctness : passes that keep an invariant and decrease a variant, or leave with a good
result, leave with one. -/
theorem iterate_induction (Inv : σ → Prop) (Post : ρ → Prop) (variant : σ → ℕ)
    (hnext : ∀ s s', Inv s → body s = .inl s' → Inv s' ∧ variant s' < variant s)
    (hexit : ∀ s r, Inv s → body s = .inr r → Post r) (hs : Inv s) (hn : variant s < n) :
    ∃ r, iterate body n s = some r ∧ Post r := by
  induction n generalizing s with
  | zero => exact absurd hn (Nat.not_lt_zero _)
  | succ n ih =>
    cases hb : body s with
    | inl s' =>
      obtain ⟨hs', hlt⟩ := hnext s s' hs hb
      rw [iterate_of_inl hb]
      exact ih hs' (by omega)
    | inr r => exact ⟨r, iterate_of_inr hb n, hexit s r hs hb⟩

/-- The simulation rule : passes that keep a relation of states, or leave with related results,
make loops with related results. -/
theorem iterate_rel {τ ρ' : Type*} {body' : τ → τ ⊕ ρ'} {R : σ → τ → Prop} {Q : ρ → ρ' → Prop}
    (h : ∀ s t, R s t → Sum.LiftRel R Q (body s) (body' t)) {t : τ} (hst : R s t) (n : ℕ) :
    Option.Rel Q (iterate body n s) (iterate body' n t) := by
  induction n generalizing s t with
  | zero => exact .none
  | succ n ih =>
    have hpass := h s t hst
    rw [iterate, iterate]
    generalize body s = x at hpass
    generalize body' t = y at hpass
    cases hpass with
    | inl hnext => exact ih hnext
    | inr hexit => exact .some hexit

end Iterate

end Loop
