import Mathlib.Data.Fintype.Card
import Mathlib.Data.Fintype.List
import MpOS.Blink

/-!
# The shape of the blink list

A node of location 0 looks free while it is on the list. Without such nodes the list is a
chain of distinct slots and the slots off it are the free ones (`Represents`), so its walks
end, `mp1_ioctl_add` finds a slot as long as the list is not full, and `mp1_ioctl_remove`
takes one node off (`represents_iff`).
-/

namespace MpOS

namespace Fish

/-! ## Chains of nodes -/

/-- The link of a pointer's node. -/
def next (s : Fish) (p : Option Slot) : Option Slot :=
  p.bind fun i => (s.blinkArray i).next

/-- The nodes from a pointer on. -/
def Chain (s : Fish) (p : Option Slot) (l : List Slot) : Prop :=
  LinkPath s.next none p (l.map some)

/-- The nodes of the list. -/
def Lists (s : Fish) (l : List Slot) : Prop :=
  s.Chain s.mp1ListHead l

/-- A field of the nodes that a store does not change. -/
theorem field_update {γ : Type*} {s t : Fish} {i : Slot} {node : BlinkStruct}
    (field : BlinkStruct → γ) (harray : t.blinkArray = Function.update s.blinkArray i node)
    (hfield : field node = field (s.blinkArray i)) (j : Slot) :
    field (t.blinkArray j) = field (s.blinkArray j) := by
  rw [harray]
  rcases Decidable.em (j = i) with rfl | hj
  · rw [Function.update_self, hfield]
  · rw [Function.update_of_ne hj]

/-- Nodes that differ in neither links nor locations, under the same head. -/
structure Keeps (s t : Fish) : Prop where
  head : t.mp1ListHead = s.mp1ListHead
  next : ∀ i, (t.blinkArray i).next = (s.blinkArray i).next
  location : ∀ i, (t.blinkArray i).location = (s.blinkArray i).location
  onChar : ∀ i, (t.blinkArray i).onChar = (s.blinkArray i).onChar
  offChar : ∀ i, (t.blinkArray i).offChar = (s.blinkArray i).offChar

variable {s t : Fish} {p : Option Slot} {i : Slot} {l l' : List Slot}

theorem chain_nil : s.Chain p [] ↔ p = none := by
  refine ⟨fun h => h.head_eq_stop_iff.2 rfl, ?_⟩
  rintro rfl
  exact .nil

theorem chain_cons : s.Chain p (i :: l) ↔ p = some i ∧ s.Chain (s.blinkArray i).next l := by
  constructor
  · intro h
    obtain ⟨rfl, -, ht⟩ := h.of_cons
    exact ⟨rfl, ht⟩
  · rintro ⟨rfl, ht⟩
    exact .cons (Option.some_ne_none i) ht

theorem Chain.nodup (h : s.Chain p l) : l.Nodup :=
  List.Nodup.of_map some (LinkPath.nodup h)

theorem Chain.unique (h : s.Chain p l) (h' : s.Chain p l') : l = l' :=
  List.map_injective_iff.2 (Option.some_injective _) (LinkPath.unique h h')

theorem Chain.congr (h : s.Chain p l)
    (hnext : ∀ i ∈ l, (t.blinkArray i).next = (s.blinkArray i).next) : t.Chain p l :=
  LinkPath.congr h fun q hq => by
    obtain ⟨i, hi, rfl⟩ := List.mem_map.1 hq
    exact hnext i hi

namespace Keeps

theorem refl (s : Fish) : s.Keeps s :=
  ⟨rfl, fun _ => rfl, fun _ => rfl, fun _ => rfl, fun _ => rfl⟩

theorem trans {u : Fish} (h : s.Keeps t) (h' : t.Keeps u) : s.Keeps u where
  head := h'.head.trans h.head
  next i := (h'.next i).trans (h.next i)
  location i := (h'.location i).trans (h.location i)
  onChar i := (h'.onChar i).trans (h.onChar i)
  offChar i := (h'.offChar i).trans (h.offChar i)

theorem chain (h : s.Keeps t) (hc : s.Chain p l) : t.Chain p l :=
  hc.congr fun i _ => h.next i

theorem lists (h : s.Keeps t) (hl : s.Lists l) : t.Lists l := by
  rw [Lists, h.head]
  exact h.chain hl

/-- Storing a node that differs in none of these. -/
theorem of_update {node : BlinkStruct} (hhead : t.mp1ListHead = s.mp1ListHead)
    (harray : t.blinkArray = Function.update s.blinkArray i node)
    (hnext : node.next = (s.blinkArray i).next)
    (hlocation : node.location = (s.blinkArray i).location)
    (hon : node.onChar = (s.blinkArray i).onChar) (hoff : node.offChar = (s.blinkArray i).offChar) :
    s.Keeps t where
  head := hhead
  next := field_update BlinkStruct.next harray hnext
  location := field_update BlinkStruct.location harray hlocation
  onChar := field_update BlinkStruct.onChar harray hon
  offChar := field_update BlinkStruct.offChar harray hoff

theorem tick (s : Fish) (i : Slot) : s.Keeps (s.tick i) := by
  rw [Fish.tick]
  simp only
  split
  · exact of_update rfl rfl rfl rfl rfl rfl
  · split
    · exact of_update rfl rfl rfl rfl rfl rfl
    · exact of_update rfl rfl rfl rfl rfl rfl

end Keeps

/-! ## Walks -/

/-- `mp1_find_helper` finds the first node of a location. -/
theorem iterate_findPass (location : UInt16) {n : ℕ} (h : s.Chain p l) (hn : l.length < n) :
    Loop.iterate (s.findPass location) n p =
      some (l.find? fun i => (s.blinkArray i).location = location) := by
  induction l generalizing p n with
  | nil =>
    obtain rfl := chain_nil.1 h
    obtain ⟨n, rfl⟩ := Nat.exists_eq_add_one_of_ne_zero (Nat.pos_iff_ne_zero.1 hn)
    exact Loop.iterate_of_inr rfl n
  | cons i l ih =>
    obtain ⟨rfl, ht⟩ := chain_cons.1 h
    rw [List.length_cons] at hn
    obtain ⟨n, rfl⟩ := Nat.exists_eq_add_one_of_ne_zero (by omega : n ≠ 0)
    by_cases hi : (s.blinkArray i).location = location
    · have hpass : s.findPass location (some i) = .inr (some i) := if_pos hi
      rw [Loop.iterate_of_inr hpass, List.find?_cons_of_pos (by simpa using hi)]
    · have hpass : s.findPass location (some i) = .inl (s.blinkArray i).next := if_neg hi
      rw [Loop.iterate_of_inl hpass, ih ht (by omega), List.find?_cons_of_neg (by simpa using hi)]

/-- The search for the predecessor of a node stops at the last link before it. -/
theorem iterate_findPrevPass {l₁ l₂ : List Slot} {place : Option Slot} {n : ℕ}
    (h : s.Chain (s.link place) (l₁ ++ i :: l₂)) (hn : l₁.length < n) :
    Loop.iterate (s.findPrevPass i) n place = some (some ((l₁.map some).getLastD place)) := by
  have hnodup := h.nodup
  induction l₁ generalizing place n with
  | nil =>
    obtain ⟨n, rfl⟩ := Nat.exists_eq_add_one_of_ne_zero (Nat.pos_iff_ne_zero.1 hn)
    have hpass : s.findPrevPass i place = .inr (some place) := if_pos (chain_cons.1 h).1
    exact Loop.iterate_of_inr hpass n
  | cons j l₁ ih =>
    obtain ⟨hj, ht⟩ := chain_cons.1 h
    rw [List.length_cons] at hn
    rw [List.cons_append, List.nodup_cons] at hnodup
    obtain ⟨n, rfl⟩ := Nat.exists_eq_add_one_of_ne_zero (by omega : n ≠ 0)
    have hji : j ≠ i := fun hji => hnodup.1 (hji ▸ by simp)
    have hpass : s.findPrevPass i place = .inl (some j) := by
      rw [findPrevPass, hj, if_neg fun h => hji (Option.some.inj h)]
    have hlen : l₁.length < n := by omega
    have hlast : Loop.iterate (s.findPrevPass i) n (some j) = _ := ih ht hlen hnodup.2
    rw [Loop.iterate_of_inl hpass, hlast, List.map_cons, List.getLastD_cons]

/-- The tasklet works on every node of the list, and keeps what its work on a node keeps. -/
theorem iterate_taskletPass {P : Fish → Prop} {n : ℕ} (hP : ∀ t, ∀ i ∈ l, P t → P (t.tick i))
    (h : s.Chain p l) (hn : l.length < n) (hs : P s) :
    ∃ t, Loop.iterate taskletPass n (p, s) = some t ∧ P t ∧ s.Keeps t := by
  induction l generalizing s p n with
  | nil =>
    obtain rfl := chain_nil.1 h
    obtain ⟨n, rfl⟩ := Nat.exists_eq_add_one_of_ne_zero (Nat.pos_iff_ne_zero.1 hn)
    exact ⟨s, Loop.iterate_of_inr rfl n, hs, .refl s⟩
  | cons i l ih =>
    obtain ⟨rfl, ht⟩ := chain_cons.1 h
    rw [List.length_cons] at hn
    obtain ⟨n, rfl⟩ := Nat.exists_eq_add_one_of_ne_zero (by omega : n ≠ 0)
    have hkeeps := Keeps.tick s i
    have ht' : (s.tick i).Chain ((s.tick i).blinkArray i).next l := by
      rw [hkeeps.next]
      exact hkeeps.chain ht
    have hlen : l.length < n := by omega
    obtain ⟨t, hiter, hPt, hkt⟩ := ih (fun t j hj => hP t j (List.mem_cons_of_mem _ hj)) ht' hlen
      (hP s i List.mem_cons_self hs)
    have hpass : taskletPass (some i, s) = .inl (((s.tick i).blinkArray i).next, s.tick i) := rfl
    exact ⟨t, by rw [Loop.iterate_of_inl hpass, hiter], hPt, hkeeps.trans hkt⟩

/-! ## The pool -/

/-- The list is a chain, and its nodes are the slots that `mp1_malloc` takes for used. -/
def Represents (s : Fish) : Prop :=
  ∃ l, s.Lists l ∧ l.Nodup ∧ ∀ i, i ∈ l ↔ (s.blinkArray i).location ≠ 0

theorem Keeps.represents (h : s.Keeps t) (hs : s.Represents) : t.Represents := by
  obtain ⟨l, hl, hnodup, hmem⟩ := hs
  exact ⟨l, h.lists hl, hnodup, fun i => by rw [h.location, hmem]⟩

/-- On a list of used slots, its nodes are no more than the pool has. -/
theorem length_lists_le (hl : s.Lists l) : l.length ≤ 80 * 25 := by
  have h := List.Nodup.length_le_card (Chain.nodup hl)
  rwa [Fintype.card_fin] at h

theorem mp1Malloc_eq_none_iff : s.mp1Malloc = none ↔ ∀ i, (s.blinkArray i).location ≠ 0 := by
  simp [mp1Malloc]

theorem location_of_mp1Malloc (h : s.mp1Malloc = some i) : (s.blinkArray i).location = 0 := by
  simpa using List.find?_some h

theorem notMem_of_mp1Malloc (hmem : ∀ i, i ∈ l ↔ (s.blinkArray i).location ≠ 0)
    (h : s.mp1Malloc = some i) : i ∉ l :=
  fun hil => (hmem i).1 hil (location_of_mp1Malloc h)

/-- The list is full if there is no free slot. -/
theorem mp1Malloc_eq_none_iff_length (hl : s.Lists l)
    (hmem : ∀ i, i ∈ l ↔ (s.blinkArray i).location ≠ 0) :
    s.mp1Malloc = none ↔ ¬l.length < 80 * 25 := by
  have hnodup := Chain.nodup hl
  rw [mp1Malloc_eq_none_iff]
  constructor
  · intro hall hlt
    have huniv : Finset.univ ⊆ l.toFinset := fun i _ => List.mem_toFinset.2 ((hmem i).2 (hall i))
    have hcard := Finset.card_le_card huniv
    rw [Finset.card_univ, Fintype.card_fin, List.toFinset_card_of_nodup hnodup] at hcard
    omega
  · intro hfull i h0
    have hi : i ∉ l := fun hi => (hmem i).1 hi h0
    have hcard := List.Nodup.length_le_card (List.nodup_cons.2 ⟨hi, hnodup⟩)
    rw [Fintype.card_fin, List.length_cons] at hcard
    omega

/-! ## What each operation does to the list -/

/-- What an event returns and does to a list of nodes. -/
def Effect (s : Fish) (l : List Slot) (e : Event) (ret : ℤ) (t : Fish) : Prop :=
  match e with
  | .add user =>
    (ret = 0 ↔ user.location < 80 * 25 ∧ l.length < 80 * 25) ∧
      (ret = 0 → ∃ i, i ∉ l ∧ t.Lists (i :: l)) ∧ (ret ≠ 0 → t.Lists l)
  | .remove arg =>
    (ret = 0 ↔ ∃ i ∈ l, (s.blinkArray i).location = arg.toUInt16) ∧
      (ret = 0 → ∃ l₁ i l₂, l = l₁ ++ i :: l₂ ∧ (s.blinkArray i).location = arg.toUInt16 ∧
        t.Lists (l₁ ++ l₂)) ∧
      (ret ≠ 0 → t.Lists l)
  | _ => t.Lists l

/-- The event returns, and has its effect. -/
def Obeys (passes : ℕ) (s : Fish) (e : Event) : Prop :=
  ∀ l, s.Lists l → ∃ ret t, s.call passes e = some (ret, t) ∧ Effect s l e ret t

/-- No node of location 0 gets a slot. -/
def AddsUsed (s : Fish) (e : Event) : Prop :=
  ∀ user, e = .add user → user.location = 0 → ∀ i, (s.blinkArray i).location ≠ 0

/-- What a good event does to a good state. -/
def Good (passes : ℕ) (s : Fish) (e : Event) : Prop :=
  ∀ l, s.Lists l → (∀ i, i ∈ l ↔ (s.blinkArray i).location ≠ 0) →
    ∃ ret t, s.call passes e = some (ret, t) ∧ Effect s l e ret t ∧ t.Represents

/-- The state after `mp1_ioctl_add` has got a slot. -/
def added (s : Fish) (user : BlinkStruct) (i : Slot) : Fish :=
  { s.setNode i { user with
      status := 1, countdown := user.onLength, next := s.mp1ListHead } with
    mp1ListHead := some i }.poke user.onChar (2 * user.location.toNat)

/-- What `mp1_ioctl_add` does : it fails, or puts a node into a free slot. -/
theorem add_cases (s : Fish) (user : BlinkStruct) :
    (¬(user.location < 80 * 25 ∧ s.mp1Malloc ≠ none) ∧ s.mp1IoctlAdd user = (-1, s)) ∨
    ∃ i, user.location < 80 * 25 ∧ s.mp1Malloc = some i ∧
      s.mp1IoctlAdd user = (0, s.added user i) := by
  by_cases hloc : user.location ≥ 80 * 25
  · exact .inl ⟨fun h => absurd h.1 (UInt16.not_lt.2 hloc), if_pos hloc⟩
  cases hi : s.mp1Malloc with
  | none =>
    refine .inl ⟨fun h => h.2 rfl, ?_⟩
    simp [mp1IoctlAdd, hi]
  | some i =>
    refine .inr ⟨i, UInt16.not_le.1 hloc, rfl, ?_⟩
    rw [mp1IoctlAdd, if_neg hloc, hi]
    rfl

theorem added_self (user : BlinkStruct) : (s.added user i).blinkArray i =
    { user with status := 1, countdown := user.onLength, next := s.mp1ListHead } :=
  setNode_self s i _

theorem added_of_ne (user : BlinkStruct) {j : Slot} (hj : j ≠ i) :
    (s.added user i).blinkArray j = s.blinkArray j :=
  setNode_of_ne s hj _

theorem lists_added (user : BlinkStruct) (hl : s.Lists l) (hi : i ∉ l) :
    (s.added user i).Lists (i :: l) := by
  refine chain_cons.2 ⟨rfl, ?_⟩
  rw [added_self]
  refine Chain.congr hl fun j hj => ?_
  rw [added_of_ne user]
  rintro rfl
  exact hi hj

theorem represents_added {user : BlinkStruct} (hl : s.Lists l)
    (hmem : ∀ i, i ∈ l ↔ (s.blinkArray i).location ≠ 0) (hi : s.mp1Malloc = some i)
    (h0 : user.location ≠ 0) : (s.added user i).Represents := by
  have hil := notMem_of_mp1Malloc hmem hi
  have hlists := lists_added user hl hil
  refine ⟨i :: l, hlists, Chain.nodup hlists, fun j => ?_⟩
  rcases Decidable.em (j = i) with rfl | hj
  · rw [added_self]
    exact iff_of_true List.mem_cons_self h0
  · rw [added_of_ne user hj, List.mem_cons, ← hmem j]
    exact or_iff_right hj

/-- A node of location 0 on the list is taken for a free slot. -/
theorem not_represents_added {user : BlinkStruct} (h0 : user.location = 0) :
    ¬(s.added user i).Represents := by
  rintro ⟨l, hl, -, hmem⟩
  have hi : i ∈ l := by
    cases l with
    | nil => exact absurd (chain_nil.1 hl) (Option.some_ne_none i)
    | cons j l =>
      obtain ⟨hj, -⟩ := chain_cons.1 hl
      exact (Option.some.inj hj) ▸ List.mem_cons_self
  refine (hmem i).1 hi ?_
  rw [added_self]
  exact h0

theorem good_add {user : BlinkStruct} (hadd : AddsUsed s (.add user)) (n : ℕ) :
    Good n s (.add user) := by
  intro l hl hmem
  have hfull := mp1Malloc_eq_none_iff_length hl hmem
  rcases add_cases s user with ⟨hfail, hcall⟩ | ⟨i, hlt, hi, hcall⟩
  · refine ⟨-1, s, congrArg some hcall, ⟨iff_of_false (by decide) ?_, ?_, fun _ => hl⟩,
      l, hl, Chain.nodup hl, hmem⟩
    · exact fun h => hfail ⟨h.1, fun hnone => hfull.1 hnone h.2⟩
    · exact fun h => absurd h (by decide)
  · have hil := notMem_of_mp1Malloc hmem hi
    have hroom : l.length < 80 * 25 := by
      by_contra hge
      rw [hfull.2 hge] at hi
      cases hi
    refine ⟨0, s.added user i, congrArg some hcall, ⟨iff_of_true rfl ⟨hlt, hroom⟩,
      fun _ => ⟨i, hil, lists_added user hl hil⟩, fun h => absurd rfl h⟩, ?_⟩
    exact represents_added hl hmem hi fun h => hadd user rfl h i (location_of_mp1Malloc hi)

theorem mp1Free_self : ((s.mp1Free i).blinkArray i).location = 0 :=
  congrArg BlinkStruct.location (setNode_self s i .zero)

theorem mp1Free_of_ne {j : Slot} (hj : j ≠ i) : (s.mp1Free i).blinkArray j = s.blinkArray j :=
  setNode_of_ne s hj .zero

theorem location_setLink (place q : Option Slot) (j : Slot) :
    ((s.setLink place q).blinkArray j).location = (s.blinkArray j).location := by
  cases place with
  | none => rfl
  | some k =>
    have harray : (s.setLink (some k) q).blinkArray =
        Function.update s.blinkArray k { s.blinkArray k with next := q } := rfl
    exact field_update BlinkStruct.location harray rfl j

/-- Unlinking a node by the last link before it, and freeing it. -/
def removed (s : Fish) (l₁ : List Slot) (i : Slot) : Fish :=
  (s.setLink ((l₁.map some).getLastD none) (s.blinkArray i).next).mp1Free i

theorem lists_removed {l₁ l₂ : List Slot} (hl : s.Lists (l₁ ++ i :: l₂)) :
    (s.removed l₁ i).Lists (l₁ ++ l₂) := by
  have hnodup := List.nodup_middle.1 (Chain.nodup hl)
  rw [List.nodup_cons] at hnodup
  have hne : ∀ k ∈ l₁ ++ l₂, k ≠ i := by
    rintro k hk rfl
    exact hnodup.1 hk
  rcases List.eq_nil_or_concat l₁ with rfl | ⟨l₀, j, rfl⟩
  · refine Chain.congr (chain_cons.1 hl).2 fun k hk => ?_
    rw [removed, mp1Free_of_ne (hne k hk)]
    rfl
  · rw [List.concat_eq_append] at hl hne ⊢
    have hlast : s.removed (l₀ ++ [j]) i =
        (s.setNode j { s.blinkArray j with next := (s.blinkArray i).next }).mp1Free i := by
      simp [removed, setLink]
    have hpath : LinkPath s.next none s.mp1ListHead
        (l₀.map some ++ some j :: some i :: l₂.map some) := by
      simpa [Lists, Chain] using hl
    have hmap : (l₀ ++ [j] ++ l₂).map some = l₀.map some ++ some j :: l₂.map some := by simp
    rw [hlast, Lists, Chain, hmap]
    refine hpath.unlink.congr fun q hq => ?_
    rw [← hmap] at hq
    obtain ⟨k, hk, rfl⟩ := List.mem_map.1 hq
    refine (congrArg BlinkStruct.next (mp1Free_of_ne (hne k hk))).trans ?_
    by_cases hkj : k = j
    · subst hkj
      rw [Function.update_self]
      rw [setNode_self]
      rfl
    · rw [Function.update_of_ne fun h => hkj (Option.some.inj h)]
      rw [setNode_of_ne s hkj]
      rfl

theorem represents_removed {l₁ l₂ : List Slot} (hl : s.Lists (l₁ ++ i :: l₂))
    (hmem : ∀ j, j ∈ l₁ ++ i :: l₂ ↔ (s.blinkArray j).location ≠ 0) :
    (s.removed l₁ i).Represents := by
  have hnodup := List.nodup_middle.1 (Chain.nodup hl)
  have hlists := lists_removed hl
  refine ⟨l₁ ++ l₂, hlists, Chain.nodup hlists, fun j => ?_⟩
  rcases Decidable.em (j = i) with rfl | hj
  · refine iff_of_false (List.nodup_cons.1 hnodup).1 (not_not.2 ?_)
    exact mp1Free_self
  · rw [removed, mp1Free_of_ne hj, location_setLink, ← hmem j]
    simp [hj]

theorem findHelper_eq (hl : s.Lists l) {n : ℕ} (hn : 80 * 25 < n) (location : UInt16) :
    s.mp1FindHelper n location = some (l.find? fun i => (s.blinkArray i).location = location) :=
  iterate_findPass location hl (Nat.lt_of_le_of_lt (length_lists_le hl) hn)

/-- What `mp1_ioctl_remove` does : it finds no node, or takes one off the list. -/
theorem remove_cases {n : ℕ} (hn : 80 * 25 < n) (hl : s.Lists l) (arg : Word) :
    ((¬∃ i ∈ l, (s.blinkArray i).location = arg.toUInt16) ∧
      s.mp1IoctlRemove n arg = some (-1, s)) ∨
    ∃ l₁ i l₂, l = l₁ ++ i :: l₂ ∧ (s.blinkArray i).location = arg.toUInt16 ∧
      s.mp1IoctlRemove n arg = some (0, s.removed l₁ i) := by
  have hfind := findHelper_eq hl hn arg.toUInt16
  cases hi : l.find? fun i => (s.blinkArray i).location = arg.toUInt16 with
  | none =>
    rw [hi] at hfind
    refine .inl ⟨by simpa using List.find?_eq_none.1 hi, ?_⟩
    rw [mp1IoctlRemove, hfind]
    rfl
  | some i =>
    rw [hi] at hfind
    obtain ⟨l₁, l₂, rfl⟩ := List.append_of_mem (List.mem_of_find?_eq_some hi)
    have hlen := length_lists_le hl
    rw [List.length_append] at hlen
    have hprev : Loop.iterate (s.findPrevPass i) n none = _ :=
      iterate_findPrevPass hl (by omega : l₁.length < n)
    refine .inr ⟨l₁, i, l₂, rfl, by simpa using List.find?_some hi, ?_⟩
    rw [mp1IoctlRemove, hfind]
    change (Loop.iterate (s.findPrevPass i) n none).bind _ = _
    rw [hprev]
    rfl

theorem good_remove {n : ℕ} (hn : 80 * 25 < n) (arg : Word) : Good n s (.remove arg) := by
  intro l hl hmem
  rcases remove_cases hn hl arg with ⟨hnone, hremove⟩ | ⟨l₁, i, l₂, rfl, hloc, hremove⟩
  · exact ⟨-1, s, hremove,
      ⟨iff_of_false (by decide) hnone, fun h => absurd h (by decide), fun _ => hl⟩,
      l, hl, Chain.nodup hl, hmem⟩
  · refine ⟨0, s.removed l₁ i, hremove, ⟨iff_of_true rfl ⟨i, by simp, hloc⟩, fun _ => ?_,
      fun h => absurd rfl h⟩, represents_removed hl hmem⟩
    exact ⟨l₁, i, l₂, rfl, hloc, lists_removed hl⟩

theorem find_keeps {n : ℕ} (hn : 80 * 25 < n) (hl : s.Lists l) (location : UInt16) :
    ∃ ret t, s.call n (.find location) = some (ret, t) ∧ s.Keeps t := by
  have hfind := findHelper_eq hl hn location
  have hcall : ∃ ret, s.call n (.find location) = some (ret, s) := by
    rw [call, mp1IoctlFind, hfind]
    cases l.find? fun i => (s.blinkArray i).location = location with
    | none => exact ⟨_, rfl⟩
    | some i => exact ⟨_, rfl⟩
  obtain ⟨ret, hret⟩ := hcall
  exact ⟨ret, s, hret, .refl s⟩

/-- What `mp1_ioctl_sync` does : it misses a node, or copies one node's phase to the other. -/
theorem sync_cases {n : ℕ} (hn : 80 * 25 < n) (hl : s.Lists l) (arg : Word) :
    (¬((∃ i ∈ l, (s.blinkArray i).location = (arg >>> 16).toUInt16) ∧
        ∃ j ∈ l, (s.blinkArray j).location = (arg &&& 0xFFFF).toUInt16) ∧
      s.mp1IoctlSync n arg = some (-1, s)) ∨
    ∃ i ∈ l, ∃ j ∈ l, (s.blinkArray i).location = (arg >>> 16).toUInt16 ∧
      (s.blinkArray j).location = (arg &&& 0xFFFF).toUInt16 ∧
      s.mp1IoctlSync n arg = some (0, s.synced i j) := by
  have hfirst := findHelper_eq hl hn (arg >>> 16).toUInt16
  have hsecond := findHelper_eq hl hn (arg &&& 0xFFFF).toUInt16
  cases hi : l.find? fun i => (s.blinkArray i).location = (arg >>> 16).toUInt16 with
  | none =>
    rw [hi] at hfirst
    have hnone : ∀ i ∈ l, (s.blinkArray i).location ≠ (arg >>> 16).toUInt16 := by
      simpa using List.find?_eq_none.1 hi
    refine .inl ⟨?_, ?_⟩
    · rintro ⟨⟨i, hil, hloc⟩, -⟩
      exact hnone i hil hloc
    · rw [mp1IoctlSync, hfirst]
      rfl
  | some i =>
    rw [hi] at hfirst
    cases hj : l.find? fun i => (s.blinkArray i).location = (arg &&& 0xFFFF).toUInt16 with
    | none =>
      rw [hj] at hsecond
      have hnone : ∀ i ∈ l, (s.blinkArray i).location ≠ (arg &&& 0xFFFF).toUInt16 := by
        simpa using List.find?_eq_none.1 hj
      refine .inl ⟨?_, ?_⟩
      · rintro ⟨-, j, hjl, hloc⟩
        exact hnone j hjl hloc
      · rw [mp1IoctlSync, hfirst, hsecond]
        rfl
    | some j =>
      rw [hj] at hsecond
      refine .inr ⟨i, List.mem_of_find?_eq_some hi, j, List.mem_of_find?_eq_some hj, ?_, ?_, ?_⟩
      · simpa using List.find?_some hi
      · simpa using List.find?_some hj
      · rw [mp1IoctlSync, hfirst, hsecond]
        rfl

theorem Keeps.synced (s : Fish) (i j : Slot) : s.Keeps (s.synced i j) := by
  rw [Fish.synced]
  exact of_update rfl rfl rfl rfl rfl rfl

theorem sync_keeps {n : ℕ} (hn : 80 * 25 < n) (hl : s.Lists l) (arg : Word) :
    ∃ ret t, s.call n (.sync arg) = some (ret, t) ∧ s.Keeps t := by
  rcases sync_cases hn hl arg with ⟨-, hsync⟩ | ⟨i, -, j, -, -, -, hsync⟩
  · exact ⟨-1, s, hsync, .refl s⟩
  · exact ⟨0, s.synced i j, hsync, .synced s i j⟩

/-- Calls that keep the links and the locations are good. -/
theorem good_of_keeps {n : ℕ} {e : Event} (heffect : ∀ l ret t, t.Lists l → Effect s l e ret t)
    (h : ∀ l, s.Lists l → ∃ ret t, s.call n e = some (ret, t) ∧ s.Keeps t) : Good n s e := by
  intro l hl hmem
  obtain ⟨ret, t, hcall, hkeeps⟩ := h l hl
  exact ⟨ret, t, hcall, heffect l ret t (hkeeps.lists hl),
    hkeeps.represents ⟨l, hl, Chain.nodup hl, hmem⟩⟩

/-- The tasklet keeps what its work on the nodes of the list keeps. -/
theorem tasklet_spec {n : ℕ} (hn : 80 * 25 < n) (hl : s.Lists l) (P : Fish → Prop)
    (hP : ∀ t, ∀ i ∈ l, P t → P (t.tick i)) (hs : P s) :
    ∃ t, s.mp1RtcTasklet n = some t ∧ P t ∧ s.Keeps t :=
  iterate_taskletPass hP hl (Nat.lt_of_le_of_lt (length_lists_le hl) hn) hs

theorem tasklet_keeps {n : ℕ} (hn : 80 * 25 < n) (hl : s.Lists l) :
    ∃ ret t, s.call n .tasklet = some (ret, t) ∧ s.Keeps t := by
  obtain ⟨t, ht, -, hkeeps⟩ := tasklet_spec hn hl (fun _ => True) (fun _ _ _ _ => trivial) trivial
  refine ⟨0, t, ?_, hkeeps⟩
  rw [call, ht]
  rfl

/-- Every event but an add of location 0 to a pool with a free slot is good. -/
theorem good_of_addsUsed {n : ℕ} (hn : 80 * 25 < n) {e : Event} (h : AddsUsed s e) :
    Good n s e := by
  cases e with
  | add user => exact good_add h n
  | remove arg => exact good_remove hn arg
  | find location => exact good_of_keeps (fun _ _ _ h => h) fun _ hl => find_keeps hn hl location
  | sync arg => exact good_of_keeps (fun _ _ _ h => h) fun _ hl => sync_keeps hn hl arg
  | tasklet => exact good_of_keeps (fun _ _ _ h => h) fun _ hl => tasklet_keeps hn hl

theorem represents_start (vmem : ℕ → Byte) : (start vmem).Represents :=
  ⟨[], chain_nil.2 rfl, List.nodup_nil, fun _ => iff_of_false List.not_mem_nil (not_not.2 rfl)⟩

theorem step_add_zero (n : ℕ) {user : BlinkStruct} (h0 : user.location = 0)
    (hi : s.mp1Malloc = some i) : s.step n (.add user) = some (s.added user i) := by
  have hlt : user.location < 80 * 25 := by
    rw [h0]
    decide
  rcases add_cases s user with ⟨hfail, -⟩ | ⟨j, -, hj, hcall⟩
  · exact absurd ⟨hlt, by simp [hi]⟩ hfail
  · obtain rfl := Option.some.inj (hi.symm.trans hj)
    rw [step, call, hcall]
    rfl

/-- An event that breaks the condition puts a node of location 0 on the list. -/
theorem step_of_not_addsUsed (n : ℕ) {e : Event} (h : ¬AddsUsed s e) :
    ∃ user i, user.location = 0 ∧ s.mp1Malloc = some i ∧ s.step n e = some (s.added user i) := by
  simp only [AddsUsed, not_forall] at h
  obtain ⟨user, rfl, h0, i, hi⟩ := h
  have hsome : s.mp1Malloc ≠ none := fun h => hi (mp1Malloc_eq_none_iff.1 h i)
  obtain ⟨j, hj⟩ := Option.ne_none_iff_exists'.1 hsome
  exact ⟨user, j, h0, hj, step_add_zero n h0 hj⟩

/-- An exact condition on one event. -/
theorem obeys_and_represents_iff {n : ℕ} (hn : 80 * 25 < n) (s : Fish) (e : Event)
    (hs : s.Represents) :
    (s.Obeys n e ∧ ∀ t, s.step n e = some t → t.Represents) ↔ AddsUsed s e := by
  constructor
  · rintro ⟨-, hrep⟩
    by_contra hadd
    obtain ⟨user, i, h0, -, hstep⟩ := step_of_not_addsUsed n hadd
    exact not_represents_added h0 (hrep _ hstep)
  · intro h
    obtain ⟨l, hl, -, hmem⟩ := hs
    obtain ⟨ret, t, hcall, heffect, hrep⟩ := good_of_addsUsed hn h l hl hmem
    refine ⟨fun l' hl' => ?_, fun t' ht' => ?_⟩
    · obtain rfl := Chain.unique hl hl'
      exact ⟨ret, t, hcall, heffect⟩
    · rw [step, hcall] at ht'
      cases ht'
      exact hrep

/-- The tasklet does not come back from a node that is linked to itself. -/
theorem iterate_taskletPass_of_loop (hi : (s.blinkArray i).next = some i) (n : ℕ) :
    Loop.iterate taskletPass n (some i, s) = none := by
  induction n generalizing s with
  | zero => rfl
  | succ n ih =>
    have hnext := (Keeps.tick s i).next i
    rw [hi] at hnext
    have hpass : taskletPass (some i, s) = .inl (some i, s.tick i) := by
      rw [taskletPass]
      simp only [hnext]
    rw [Loop.iterate_of_inl hpass, ih hnext]

/-- A second node of location 0 gets the slot of the first. -/
theorem mp1Malloc_added {user : BlinkStruct} (h0 : user.location = 0)
    (hi : s.mp1Malloc = some i) : (s.added user i).mp1Malloc = some i := by
  have hlocation : ∀ j, ((s.added user i).blinkArray j).location = (s.blinkArray j).location := by
    intro j
    rcases Decidable.em (j = i) with rfl | hj
    · rw [added_self, h0, location_of_mp1Malloc hi]
    · rw [added_of_ne user hj]
  have hfree : (fun j => decide (((s.added user i).blinkArray j).location = 0)) =
      fun j => decide ((s.blinkArray j).location = 0) := funext fun j => by rw [hlocation]
  exact (congrArg (fun free => List.find? free (List.finRange (80 * 25))) hfree).trans hi

/-- The list represents the pool, and the operations work on it, in the runs that give no slot to
a node of location 0, and in no others. -/
theorem represents_iff {n : ℕ} (hn : 80 * 25 < n) (vmem : ℕ → Byte) (es : List Event) :
    Transition.AllStates (step n) Represents (start vmem) es ∧
      Transition.AllEvents (step n) (Obeys n) (start vmem) es ↔
      Transition.AllEvents (step n) AddsUsed (start vmem) es :=
  Transition.allStates_and_allEvents_iff (fun s e hs => obeys_and_represents_iff hn s e hs)
    (represents_start vmem)

theorem allEvents_addsUsed {n : ℕ} {es : List Event}
    (h : ∀ e ∈ es, ∀ user, e = .add user → user.location ≠ 0) (s : Fish) :
    Transition.AllEvents (step n) AddsUsed s es :=
  .of_mem fun e he _ user huser h0 => absurd h0 (h e he user huser)

/-- Two nodes at the top of row 1. They are ticked and synced, and the first is removed. -/
theorem represents_tick :
    Transition.AllStates (step 2001) Represents (start fun _ => 0)
        [.add { BlinkStruct.zero with location := 80 },
          .add { BlinkStruct.zero with location := 81 }, .tasklet, .sync 0x00500051, .remove 80,
          .find 81, .tasklet] ∧
      Transition.AllEvents (step 2001) (Obeys 2001) (start fun _ => 0)
        [.add { BlinkStruct.zero with location := 80 },
          .add { BlinkStruct.zero with location := 81 }, .tasklet, .sync 0x00500051, .remove 80,
          .find 81, .tasklet] := by
  refine (represents_iff (by omega) (fun _ => 0) _).2
    (allEvents_addsUsed (fun e he user huser => ?_) _)
  subst huser
  have huser : user = { BlinkStruct.zero with location := 80 } ∨
      user = { BlinkStruct.zero with location := 81 } := by simpa using he
  rcases huser with rfl | rfl <;> decide

/-- One node in the corner is off the pool while it is on the list. The tasklet does not come back
from two. -/
theorem not_represents_corner :
    ¬Transition.AllStates (step 2001) Represents (start fun _ => 0) [.add .zero] ∧
      ¬∃ n, (Transition.run (step n) (start fun _ => 0)
        [.add .zero, .add .zero, .tasklet]).isSome := by
  have hsome : (start fun _ => 0).mp1Malloc ≠ none := fun h => mp1Malloc_eq_none_iff.1 h 0 rfl
  obtain ⟨i, hi⟩ := Option.ne_none_iff_exists'.1 hsome
  refine ⟨fun h => ?_, ?_⟩
  · exact not_represents_added rfl (h.2 _ (step_add_zero 2001 rfl hi)).head
  · rintro ⟨n, hn⟩
    have hloop : ((((start fun _ => 0).added .zero i).added .zero i).blinkArray i).next =
        some i := by
      rw [added_self]
      rfl
    have htick : (((start fun _ => 0).added .zero i).added .zero i).step n .tasklet = none := by
      rw [step, call, mp1RtcTasklet]
      change ((Loop.iterate taskletPass n (some i, _)).map _).map _ = _
      rw [iterate_taskletPass_of_loop hloop]
      rfl
    rw [Transition.run_cons, step_add_zero n rfl hi, Option.bind_some, Transition.run_cons,
      step_add_zero n rfl (mp1Malloc_added rfl hi), Option.bind_some, Transition.run_cons,
      htick] at hn
    cases hn

end Fish

end MpOS
