import Mathlib.Data.List.Basic

/-!
# Texts and their lines

A text is a list whose lines `List.splitOn` separates. `Complete nl t` : the text `t`
consists of lines with their separators. Every text is such a text and a last line
without separator (`exists_complete`).

`collect nl g t` puts together what `g` makes of each line. It can be done piece by piece :
over a complete first part (`collect_append`), and also over a part that ends inside a
line, if `g` makes of the line what it makes of its two parts (`collect_cut_iff`).
-/

namespace TextLines

variable {α : Type*} {nl : α} {l l' t t' : List α}

/-! ## Lines with their separators -/

/-- Lines with their separators. -/
inductive Complete (nl : α) : List α → Prop
  | nil : Complete nl []
  | cons {l t : List α} : nl ∉ l → Complete nl t → Complete nl (l ++ nl :: t)

theorem complete_line (h : nl ∉ l) : Complete nl (l ++ [nl]) :=
  .cons h .nil

/-- A text is complete lines and a last line. -/
theorem exists_complete (nl : α) (t : List α) :
    ∃ p l, t = p ++ l ∧ Complete nl p ∧ nl ∉ l := by
  induction t with
  | nil => exact ⟨[], [], rfl, .nil, List.not_mem_nil⟩
  | cons a t ih =>
    obtain ⟨p, l, rfl, hp, hl⟩ := ih
    by_cases ha : a = nl
    · subst ha
      exact ⟨a :: p, l, rfl, .cons List.not_mem_nil hp, hl⟩
    · cases hp with
      | nil =>
        refine ⟨[], a :: l, rfl, .nil, ?_⟩
        rw [List.mem_cons, not_or]
        exact ⟨Ne.symm ha, hl⟩
      | @cons m q hm hq =>
        refine ⟨(a :: m) ++ nl :: q, l, rfl, .cons ?_ hq, hl⟩
        rw [List.mem_cons, not_or]
        exact ⟨Ne.symm ha, hm⟩

/-- A text is a first line, and the rest from its separator on. -/
theorem exists_first (nl : α) (t : List α) :
    ∃ l r, t = l ++ r ∧ nl ∉ l ∧ (r = [] ∨ ∃ t', r = nl :: t') := by
  induction t with
  | nil => exact ⟨[], [], rfl, List.not_mem_nil, .inl rfl⟩
  | cons a t ih =>
    by_cases ha : a = nl
    · subst ha
      exact ⟨[], a :: t, rfl, List.not_mem_nil, .inr ⟨t, rfl⟩⟩
    · obtain ⟨l, r, rfl, hl, hr⟩ := ih
      refine ⟨a :: l, r, rfl, ?_, hr⟩
      rw [List.mem_cons, not_or]
      exact ⟨Ne.symm ha, hl⟩

/-- Complete lines end in a separator. -/
theorem Complete.getLast?_eq (h : Complete nl t) (hne : t ≠ []) : t.getLast? = some nl := by
  induction h with
  | nil => exact absurd rfl hne
  | @cons l t hl _ ih =>
    cases t with
    | nil => simp
    | cons a t =>
      have hlast := ih (List.cons_ne_nil a t)
      simpa [List.getLast?_append] using hlast

/-- A text ends in a separator if its last line is empty. -/
theorem Complete.getLast?_append_iff (h : Complete nl t) (hl : nl ∉ l) (hne : t ++ l ≠ []) :
    (t ++ l).getLast? = some nl ↔ l = [] := by
  cases l with
  | nil =>
    rw [List.append_nil] at hne ⊢
    exact iff_of_true (h.getLast?_eq hne) rfl
  | cons a l =>
    refine iff_of_false (fun hlast => hl ?_) (List.cons_ne_nil a l)
    rw [List.getLast?_append_of_ne_nil _ (List.cons_ne_nil a l)] at hlast
    exact List.mem_of_getLast? hlast

/-- What ends in a separator is complete. -/
theorem complete_of_getLast? (h : t.getLast? = some nl) : Complete nl t := by
  obtain ⟨p, l, rfl, hp, hl⟩ := exists_complete nl t
  have hne : p ++ l ≠ [] := fun hnil => by simp [hnil] at h
  have hnil := (hp.getLast?_append_iff hl hne).1 h
  rwa [hnil, List.append_nil]

/-- A part without separators of two texts around a separator is a part of one of them. -/
theorem infix_of_infix_append (h : nl ∉ l) (hl : l <:+: t ++ nl :: t') : l <:+: t ∨ l <:+: t' := by
  obtain ⟨x, y, hxy⟩ := hl
  rw [List.append_assoc] at hxy
  rcases List.append_eq_append_iff.1 hxy with ⟨z, rfl, hz⟩ | ⟨z, rfl, hz⟩
  · -- the part starts inside the first text
    rcases List.append_eq_append_iff.1 hz with ⟨w, rfl, -⟩ | ⟨w, rfl, hw⟩
    · exact .inl ⟨x, w, by simp⟩
    · cases w with
      | nil => exact .inl ⟨x, [], by simp⟩
      | cons a w =>
        rw [List.cons_append, List.cons.injEq] at hw
        exact absurd (by simp [hw.1]) h
  · cases z with
    | nil =>
      cases l with
      | nil => exact .inl List.nil_infix
      | cons a l =>
        rw [List.nil_append, List.cons_append, List.cons.injEq] at hz
        exact absurd (by simp [hz.1]) h
    | cons a z =>
      rw [List.cons_append, List.cons.injEq] at hz
      exact .inr ⟨z, y, by rw [hz.2, List.append_assoc]⟩

/-! ## What is made of the lines -/

section Collect

variable {β : Type*} [DecidableEq α] {g : List α → List β}

/-- What `g` makes of the lines of a text. -/
def collect (nl : α) (g : List α → List β) (t : List α) : List β :=
  (t.splitOn nl).flatMap g

theorem collect_line (h : nl ∉ l) : collect nl g l = g l := by
  rw [collect, List.splitOn_eq_singleton h, List.flatMap_singleton]

theorem collect_cons (h : nl ∉ l) (t : List α) :
    collect nl g (l ++ nl :: t) = g l ++ collect nl g t := by
  rw [collect, List.splitOn_append_cons_self_of_not_mem h, List.flatMap_cons, collect]

/-- A complete first part goes first. -/
theorem collect_append (hg : g [] = []) (h : Complete nl t) (t' : List α) :
    collect nl g (t ++ t') = collect nl g t ++ collect nl g t' := by
  induction h with
  | nil => rw [List.nil_append, collect_line List.not_mem_nil, hg, List.nil_append]
  | cons hl _ ih =>
    rw [List.append_assoc, List.cons_append, collect_cons hl, collect_cons hl, ih,
      List.append_assoc]

/-- Cutting a text inside a line. -/
theorem collect_cut_iff (hg : g [] = []) {r : List α} (ht : Complete nl t) (hl : nl ∉ l)
    (hl' : nl ∉ l') (hr : r = [] ∨ ∃ t', r = nl :: t') :
    collect nl g (t ++ l) ++ collect nl g (l' ++ r) = collect nl g (t ++ l ++ (l' ++ r)) ↔
      g l ++ g l' = g (l ++ l') := by
  have hll' : nl ∉ l ++ l' := by
    rw [List.mem_append, not_or]
    exact ⟨hl, hl'⟩
  have htext : t ++ l ++ (l' ++ r) = t ++ (l ++ l' ++ r) := by simp
  rw [htext, collect_append hg ht, collect_append hg ht, collect_line hl, List.append_assoc,
    List.append_cancel_left_eq]
  rcases hr with rfl | ⟨t', rfl⟩
  · rw [List.append_nil, List.append_nil, collect_line hl', collect_line hll']
  · rw [collect_cons hl', collect_cons hll', ← List.append_assoc, List.append_cancel_right_eq]

/-- A part without separators is a part of a line. -/
theorem exists_line_of_infix (h : nl ∉ l) (hl : l <:+: t) : ∃ l' ∈ t.splitOn nl, l <:+: l' := by
  obtain ⟨p, m, rfl, hp, hm⟩ := exists_complete nl t
  induction hp with
  | nil =>
    rw [List.nil_append, List.splitOn_eq_singleton hm]
    exact ⟨m, List.mem_singleton_self m, hl⟩
  | @cons q p hq _ ih =>
    rw [List.append_assoc, List.cons_append] at hl ⊢
    rw [List.splitOn_append_cons_self_of_not_mem hq]
    rcases infix_of_infix_append h hl with hl | hl
    · exact ⟨q, List.mem_cons_self, hl⟩
    · obtain ⟨l', hl', hinfix⟩ := ih hl
      exact ⟨l', List.mem_cons_of_mem _ hl', hinfix⟩

end Collect

end TextLines
