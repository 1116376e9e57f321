import Mathlib.Data.List.Nodup
import Mathlib.Logic.Function.Basic

/-!
# Pointer chains

`LinkPath next stop a l` : following `next` from `a` visits the elements of `l`, in order,
and then arrives at `stop`. A chain ends, so it visits no element twice
(`LinkPath.nodup`) and is determined by its head (`LinkPath.unique`). Changing `next` outside
the chain does not disturb it (`LinkPath.congr`). Linking an element to the one after its
successor takes the successor off the chain (`LinkPath.unlink`).
-/

variable {α : Type*}

/-- Following `next` from the head visits the list and then arrives at `stop`. -/
inductive LinkPath (next : α → α) (stop : α) : α → List α → Prop
  | nil : LinkPath next stop stop []
  | cons {a : α} {l : List α} : a ≠ stop → LinkPath next stop (next a) l →
      LinkPath next stop a (a :: l)

namespace LinkPath

variable {next next' : α → α} {stop a b : α} {l l' : List α}

theorem head_eq_stop_iff (h : LinkPath next stop a l) : a = stop ↔ l = [] := by
  cases h with
  | nil => simp
  | cons hne _ => simp [hne]

theorem eq_cons (h : LinkPath next stop a l) (hne : a ≠ stop) :
    ∃ l', l = a :: l' ∧ LinkPath next stop (next a) l' := by
  cases h with
  | nil => exact absurd rfl hne
  | cons _ ht => exact ⟨_, rfl, ht⟩

theorem of_cons (h : LinkPath next stop a (b :: l)) :
    a = b ∧ a ≠ stop ∧ LinkPath next stop (next a) l := by
  cases h with
  | cons hne ht => exact ⟨rfl, hne, ht⟩

/-- The chain from an element is determined. -/
theorem unique (h : LinkPath next stop a l) (h' : LinkPath next stop a l') : l = l' := by
  induction h generalizing l' with
  | nil => exact ((h'.head_eq_stop_iff).1 rfl).symm
  | cons hne _ ih =>
    obtain ⟨l₁, rfl, h₁⟩ := h'.eq_cons hne
    rw [ih h₁]

/-- From each element of a chain a final part of it goes on to the sentinel. -/
theorem exists_suffix (h : LinkPath next stop a l) (hb : b ∈ l) :
    ∃ l', l' <:+ l ∧ LinkPath next stop b l' := by
  induction h with
  | nil => simp at hb
  | @cons a l hne ht ih =>
    rcases List.mem_cons.1 hb with rfl | hb
    · exact ⟨_, List.suffix_refl _, .cons hne ht⟩
    · obtain ⟨l', hl', h'⟩ := ih hb
      exact ⟨l', hl'.trans (List.suffix_cons _ _), h'⟩

/-- A chain that ends visits no element twice. -/
theorem nodup (h : LinkPath next stop a l) : l.Nodup := by
  induction h with
  | nil => exact List.nodup_nil
  | @cons a l hne ht ih =>
    refine List.nodup_cons.2 ⟨fun hmem => ?_, ih⟩
    obtain ⟨l', hl', h'⟩ := ht.exists_suffix hmem
    -- the chain from `a` would be a proper part of itself
    obtain rfl := h'.unique (.cons hne ht)
    exact absurd hl'.length_le (by simp)

/-- Links outside the chain do not matter. -/
theorem congr (h : LinkPath next stop a l) (hl : ∀ b ∈ l, next' b = next b) :
    LinkPath next' stop a l := by
  induction h with
  | nil => exact .nil
  | @cons a l hne _ ih =>
    refine .cons hne ?_
    rw [hl a (by simp)]
    exact ih fun b hb => hl b (by simp [hb])

/-- Taking an element off the chain by the link of the element before it. -/
theorem unlink [DecidableEq α] {c : α} (h : LinkPath next stop a (l ++ b :: c :: l')) :
    LinkPath (Function.update next b (next c)) stop a (l ++ b :: l') := by
  induction l generalizing a with
  | nil =>
    obtain ⟨rfl, hne, ht⟩ := h.of_cons
    obtain ⟨rfl, -, ht'⟩ := ht.of_cons
    have hb : a ∉ l' := fun hmem => (List.nodup_cons.1 h.nodup).1 (List.mem_cons_of_mem _ hmem)
    refine .cons hne ?_
    rw [Function.update_self]
    refine ht'.congr fun d hd => Function.update_of_ne ?_ _ _
    rintro rfl
    exact hb hd
  | cons d l ih =>
    obtain ⟨rfl, hne, ht⟩ := h.of_cons
    have hb : a ≠ b := by
      rintro rfl
      exact (List.nodup_cons.1 h.nodup).1 (by simp)
    refine .cons hne ?_
    rw [Function.update_of_ne hb]
    exact ih ht

end LinkPath
