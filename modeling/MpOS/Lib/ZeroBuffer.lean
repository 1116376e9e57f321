import Mathlib.Data.List.GetD
import Mathlib.Logic.Function.Basic

/-!
# Zero-terminated buffers

A buffer is a function from indices to elements, of which the first `n` belong to it.
`Holds buf n l` : the buffer starts with the elements of `l` and is zero from there on.
The operations on such a buffer are those on the list : storing at the end
(`Holds.push`), zeroing the last element (`Holds.pop`) and clearing (`holds_nil`).
If no element of `l` is zero the length can be read off the buffer
(`Holds.strlen_eq_some_iff`).

`load` and `store` are accesses that are `none` outside the buffer, and `string` reads
the elements before the first zero. `Window mem i l` : the list `l` lies in a buffer from
the index `i` on.
-/

namespace ZeroBuffer

variable {α : Type*} [Zero α] {buf : ℕ → α} {n : ℕ} {l : List α}

/-- The buffer holds the list, padded with zeros up to `n`. -/
def Holds (buf : ℕ → α) (n : ℕ) (l : List α) : Prop :=
  ∀ i < n, buf i = l.getD i 0

/-- The index of the first zero below `n`. -/
def strlen [DecidableEq α] (n : ℕ) (buf : ℕ → α) : Option ℕ :=
  (List.range n).find? fun i => buf i = 0

/-- A cleared buffer holds the empty list. -/
theorem holds_nil (h : ∀ i < n, buf i = 0) : Holds buf n [] := by
  intro i hi
  simpa using h i hi

theorem Holds.getElem (h : Holds buf n l) {i : ℕ} (hi : i < l.length) (hn : i < n) :
    buf i = l[i] := by
  rw [h i hn, List.getD_eq_getElem _ _ hi]

theorem Holds.zero (h : Holds buf n l) {i : ℕ} (hi : l.length ≤ i) (hn : i < n) : buf i = 0 := by
  rw [h i hn, List.getD_eq_default _ _ hi]

/-- Storing at index `l.length` appends to the list. -/
theorem Holds.push (h : Holds buf n l) (c : α) :
    Holds (Function.update buf l.length c) n (l ++ [c]) := by
  intro i hi
  rcases Nat.lt_trichotomy i l.length with hlt | rfl | hgt
  · rw [Function.update_of_ne (by omega), h i hi, List.getD_append _ _ _ _ hlt]
  · simp
  · rw [Function.update_of_ne (by omega), h i hi, List.getD_eq_default _ _ (by omega),
      List.getD_eq_default _ _ (by simp; omega)]

/-- Zeroing the last element drops it from the list. -/
theorem Holds.pop (h : Holds buf n l) :
    Holds (Function.update buf (l.length - 1) 0) n l.dropLast := by
  intro i hi
  rcases Nat.lt_or_ge i (l.length - 1) with hlt | hge
  · rw [Function.update_of_ne (by omega), h i hi, List.getD_eq_getElem _ _ (by omega),
      List.getD_eq_getElem _ _ (by simpa using hlt), List.getElem_dropLast]
  · rw [List.getD_eq_default _ _ (by simpa using hge)]
    rcases Nat.eq_or_lt_of_le hge with heq | hgt
    · rw [← heq, Function.update_self]
    · rw [Function.update_of_ne (by omega), h.zero (by omega) hi]

/-- The buffer read out over the length of its list is the list. -/
theorem Holds.map_range (h : Holds buf n l) (hn : l.length ≤ n) :
    (List.range l.length).map buf = l := by
  refine List.ext_getElem (by simp) fun i h₁ h₂ => ?_
  simpa using h.getElem h₂ (by omega)

/-- The length of a list without zeros is found if its terminator lies in the buffer. -/
theorem Holds.strlen_eq_some_iff [DecidableEq α] (h : Holds buf n l) (hl : (0 : α) ∉ l) {m : ℕ} :
    strlen n buf = some m ↔ l.length < n ∧ m = l.length := by
  have hne : ∀ j < l.length, j < n → buf j ≠ 0 := by
    intro j hj hn h0
    rw [h.getElem hj hn] at h0
    exact hl (h0 ▸ List.getElem_mem hj)
  rw [strlen, List.find?_range_eq_some]
  simp only [decide_eq_true_eq, List.mem_range, Bool.not_eq_true', decide_eq_false_iff_not]
  constructor
  · rintro ⟨h0, hm, hleast⟩
    have hle : l.length ≤ m := by
      by_contra hlt
      exact hne m (by omega) hm h0
    have heq : m = l.length := by
      by_contra hgt
      exact hleast l.length (by omega) (h.zero (Nat.le_refl _) (by omega))
    exact ⟨by omega, heq⟩
  · rintro ⟨hlt, rfl⟩
    exact ⟨h.zero (Nat.le_refl _) hlt, hlt, fun j hj => hne j hj (by omega)⟩

theorem Holds.isSome_strlen_iff [DecidableEq α] (h : Holds buf n l) (hl : (0 : α) ∉ l) :
    (strlen n buf).isSome ↔ l.length < n := by
  simp [Option.isSome_iff_exists, h.strlen_eq_some_iff hl]

/-! ## Accesses with bounds -/

section Access

variable {β : Type*} {mem : ℕ → β} {w : List β}

/-- An element, if its index lies in the buffer. -/
def load (n : ℕ) (buf : ℕ → β) (i : ℕ) : Option β :=
  if i < n then some (buf i) else none

/-- Store an element, if its index lies in the buffer. -/
def store (n : ℕ) (buf : ℕ → β) (i : ℕ) (c : β) : Option (ℕ → β) :=
  if i < n then some (Function.update buf i c) else none

/-- A buffer with a list stored from its start on. -/
def fill (buf : ℕ → β) (l : List β) (i : ℕ) : β :=
  l.getD i (buf i)

theorem load_of_lt {i : ℕ} (h : i < n) : load n mem i = some (mem i) :=
  if_pos h

theorem store_of_lt {i : ℕ} (h : i < n) (c : β) :
    store n mem i c = some (Function.update mem i c) :=
  if_pos h

theorem fill_nil (buf : ℕ → β) : fill buf [] = buf :=
  rfl

theorem fill_of_le {i : ℕ} (h : w.length ≤ i) : fill mem w i = mem i :=
  List.getD_eq_default _ _ h

theorem fill_of_lt {i : ℕ} (h : i < w.length) : fill mem w i = w[i] :=
  List.getD_eq_getElem _ _ h

/-- Storing behind the list. -/
theorem update_fill (buf : ℕ → β) (l : List β) (c : β) :
    Function.update (fill buf l) l.length c = fill buf (l ++ [c]) := by
  funext i
  rcases Nat.lt_trichotomy i l.length with hlt | rfl | hgt
  · rw [Function.update_of_ne (by omega), fill, fill, List.getD_append _ _ _ _ hlt,
      List.getD_eq_getElem _ _ hlt]
  · rw [Function.update_self, fill, List.getD_append_right _ _ _ _ (Nat.le_refl _), Nat.sub_self,
      List.getD_cons_zero]
  · rw [Function.update_of_ne (by omega), fill_of_le (by omega), fill_of_le]
    rw [List.length_append, List.length_singleton]
    omega

end Access

/-- Storing a list over one that is not longer. -/
theorem Holds.fill (h : Holds buf n l) {w : List α} (hw : l.length ≤ w.length) :
    Holds (fill buf w) n w := by
  intro i hi
  rcases Nat.lt_or_ge i w.length with hlt | hge
  · rw [fill_of_lt hlt, List.getD_eq_getElem _ _ hlt]
  · rw [fill_of_le hge, h.zero (Nat.le_trans hw hge) hi, List.getD_eq_default _ _ hge]

/-- The list in a cleared buffer. -/
theorem holds_fill (h : ∀ i < n, buf i = 0) (l : List α) : Holds (ZeroBuffer.fill buf l) n l :=
  (holds_nil h).fill (Nat.zero_le _)

/-! ## Stretches of a buffer -/

section Window

variable {β : Type*} {mem mem' : ℕ → β} {i : ℕ} {l l' : List β}

/-- A list lies in a buffer from an index on. -/
def Window (mem : ℕ → β) : ℕ → List β → Prop
  | _, [] => True
  | i, c :: l => mem i = c ∧ Window mem (i + 1) l

theorem window_append :
    Window mem i (l ++ l') ↔ Window mem i l ∧ Window mem (i + l.length) l' := by
  induction l generalizing i with
  | nil => simp [Window]
  | cons c l ih =>
    rw [List.cons_append, Window, ih, Window, and_assoc, List.length_cons, Nat.add_assoc,
      Nat.add_comm 1]

theorem Window.congr (h : Window mem i l)
    (hmem : ∀ j, i ≤ j → j < i + l.length → mem' j = mem j) : Window mem' i l := by
  induction l generalizing i with
  | nil => trivial
  | cons c l ih =>
    rw [List.length_cons] at hmem
    refine ⟨?_, ih h.2 fun j hj hlt => hmem j (by omega) (by omega)⟩
    rw [hmem i (Nat.le_refl i) (by omega), h.1]

theorem Window.update (h : Window mem i l) {j : ℕ} (hj : i + l.length ≤ j) (c : β) :
    Window (Function.update mem j c) i l :=
  h.congr fun k _ hk => Function.update_of_ne (by omega) c mem

theorem window_shift {k : ℕ} : Window (fun j => mem (k + j)) i l ↔ Window mem (k + i) l := by
  induction l generalizing i with
  | nil => exact Iff.rfl
  | cons c l ih => rw [Window, Window, ih, Nat.add_assoc]

theorem window_of_forall (h : ∀ j (hj : j < l.length), mem (i + j) = l[j]) : Window mem i l := by
  induction l generalizing i with
  | nil => trivial
  | cons c l ih =>
    refine ⟨h 0 (by simp), ih fun j hj => ?_⟩
    have hnext := h (j + 1) (by simpa using hj)
    rwa [Nat.add_assoc, Nat.add_comm 1]

theorem Window.getElem (h : Window mem i l) {j : ℕ} (hj : j < l.length) : mem (i + j) = l[j] := by
  induction l generalizing i j with
  | nil => exact absurd hj (Nat.not_lt_zero j)
  | cons c l ih =>
    cases j with
    | zero => exact h.1
    | succ j =>
      rw [List.length_cons] at hj
      have hnext := ih h.2 (Nat.lt_of_succ_lt_succ hj)
      rwa [Nat.add_assoc, Nat.add_comm 1] at hnext

end Window

/-! ## The string in a buffer -/

theorem strlen_eq_some_iff [DecidableEq α] {len : ℕ} :
    strlen n buf = some len ↔ len < n ∧ buf len = 0 ∧ ∀ j < len, buf j ≠ 0 := by
  rw [strlen, List.find?_range_eq_some]
  simp only [decide_eq_true_eq, List.mem_range, Bool.not_eq_true', decide_eq_false_iff_not]
  exact and_left_comm

/-- The length of a string, whatever comes behind its terminator. -/
theorem Holds.strlen_eq [DecidableEq α] (h : Holds buf (l.length + 1) l) (hl : (0 : α) ∉ l)
    (hn : l.length < n) : strlen n buf = some l.length := by
  refine ZeroBuffer.strlen_eq_some_iff.2 ⟨hn, h.zero (Nat.le_refl _) (Nat.lt_succ_self _), ?_⟩
  intro j hj hzero
  rw [h.getElem hj (by omega)] at hzero
  exact hl (hzero ▸ List.getElem_mem hj)

/-- A string that is stored with its terminator. -/
theorem holds_fill_zero (buf : ℕ → α) (w : List α) :
    Holds (ZeroBuffer.fill buf (w ++ [0])) (w.length + 1) w := by
  intro i hi
  rcases Nat.eq_or_lt_of_le (Nat.le_of_lt_succ hi) with rfl | hlt
  · rw [ZeroBuffer.fill, List.getD_append_right _ _ _ _ (Nat.le_refl _), Nat.sub_self,
      List.getD_eq_default _ _ (Nat.le_refl _)]
    rfl
  · rw [ZeroBuffer.fill, List.getD_append _ _ _ _ hlt, List.getD_eq_getElem _ _ hlt,
      List.getD_eq_getElem _ _ hlt]

/-- There is a string if there is a zero. -/
theorem isSome_strlen_iff [DecidableEq α] : (strlen n buf).isSome ↔ ∃ i < n, buf i = 0 := by
  rw [strlen, List.find?_isSome]
  simp

section String

variable {β : Type*} (mem : ℕ → β)

/-- The elements before an index. -/
def string (len : ℕ) : List β :=
  (List.range len).map mem

theorem length_string (len : ℕ) : (string mem len).length = len := by
  rw [string, List.length_map, List.length_range]

theorem drop_string {i len : ℕ} (h : i < len) :
    (string mem len).drop i = mem i :: (string mem len).drop (i + 1) := by
  have hi : i < (string mem len).length := by rwa [length_string]
  rw [List.drop_eq_getElem_cons hi]
  simp [string]

theorem drop_string_self (len : ℕ) : (string mem len).drop len = [] :=
  List.drop_eq_nil_of_le (Nat.le_of_eq (length_string mem len))

end String

/-- A string is read out. -/
theorem Holds.map_string_strlen [DecidableEq α] (h : Holds buf (l.length + 1) l) (hl : (0 : α) ∉ l)
    (hn : l.length < n) : (strlen n buf).map (string buf) = some l := by
  rw [h.strlen_eq hl hn, Option.map_some, string, h.map_range (Nat.le_succ _)]

end ZeroBuffer
