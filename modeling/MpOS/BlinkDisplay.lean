import MpOS.BlinkList

/-!
# The characters of the blink list

A node shows one of its two characters, by the low bit of its status. The tasklet and
`mp1_ioctl_add` put the character of the bit they leave. `mp1_ioctl_sync` ends in `cmovl`
after `testb`, whose condition never holds, so it puts the character of a node that is off
whatever the bit it has copied (`syncChar_eq`). Where the locations on the list are
distinct and not zero, the screen agrees with the list exactly as long as no such character
is wrong (`shown_iff`).
-/

namespace MpOS

/-- The character a node stands for. -/
def BlinkStruct.shownChar (node : BlinkStruct) : Byte :=
  if node.status &&& 1 = 0 then node.offChar else node.onChar

namespace Fish

/-- The screen shows the character of every node on the list. -/
def Shown (s : Fish) : Prop :=
  ∀ l, s.Lists l → ∀ i ∈ l,
    s.vmem (2 * (s.blinkArray i).location.toNat) = (s.blinkArray i).shownChar

/-- The locations on the list are distinct and not zero. -/
def Distinct (s : Fish) : Prop :=
  ∀ l, s.Lists l → (l.map fun i => (s.blinkArray i).location).Nodup ∧
    ∀ i ∈ l, (s.blinkArray i).location ≠ 0

/-- A sync that finds both nodes finds the first off, or the second with one character. -/
def SyncsOff (s : Fish) (e : Event) : Prop :=
  ∀ arg, e = .sync arg → ∀ l, s.Lists l → ∀ i ∈ l, ∀ j ∈ l,
    (s.blinkArray i).location = (arg >>> 16).toUInt16 →
    (s.blinkArray j).location = (arg &&& 0xFFFF).toUInt16 →
    (s.blinkArray i).status &&& 1 = 0 ∨ (s.blinkArray j).onChar = (s.blinkArray j).offChar

variable {s t : Fish} {i j : Slot} {l : List Slot}

/-! ## Status bits and cells -/

theorem and_one_toNat (w : UInt16) : (w &&& 1).toNat = w.toNat % 2 := by
  rw [UInt16.toNat_and]
  exact Nat.and_two_pow_sub_one_eq_mod _ 1

theorem xor_one_and_one (w : UInt16) : (w ^^^ 1) &&& 1 = 0 ↔ w &&& 1 ≠ 0 := by
  rw [ne_eq, ← UInt16.toNat_inj, ← UInt16.toNat_inj, and_one_toNat, and_one_toNat,
    UInt16.toNat_xor, Nat.xor_mod_two_eq, UInt16.toNat_zero, UInt16.toNat_one]
  omega

/-- `cmovl` does not move. -/
theorem syncChar_eq (node : BlinkStruct) : syncChar node = node.offChar := by
  have hbit : (node.status.toUInt8 &&& 1).toNat = node.status.toUInt8.toNat % 2 := by
    rw [UInt8.toNat_and]
    exact Nat.and_two_pow_sub_one_eq_mod _ 1
  have hsign : ¬node.status.toUInt8 &&& 1 ≥ 128 := by
    rw [ge_iff_le, UInt8.le_iff_toNat_le, hbit]
    change ¬128 ≤ node.status.toUInt8.toNat % 2
    omega
  simp only [syncChar, hsign]
  rfl

/-- Nodes of different locations have different cells. -/
theorem cell_ne {w w' : UInt16} (h : w ≠ w') : 2 * w.toNat ≠ 2 * w'.toNat := by
  intro heq
  exact h (UInt16.toNat_inj.1 (by omega))

/-! ## What each operation does to the screen -/

/-- The screen shows the characters of these nodes. -/
def Shows (s : Fish) (l : List Slot) : Prop :=
  ∀ i ∈ l, s.vmem (2 * (s.blinkArray i).location.toNat) = (s.blinkArray i).shownChar

theorem shown_iff_shows (hl : s.Lists l) : s.Shown ↔ s.Shows l := by
  refine ⟨fun h => h l hl, fun h l' hl' => ?_⟩
  obtain rfl := Chain.unique hl hl'
  exact h

/-- A listed node is the only one of its location. -/
theorem Distinct.eq (h : s.Distinct) (hl : s.Lists l) (hi : i ∈ l) (hj : j ∈ l)
    (hloc : (s.blinkArray i).location = (s.blinkArray j).location) : i = j :=
  List.inj_on_of_nodup_map (h l hl).1 hi hj hloc

theorem shows_added {user : BlinkStruct} (hs : s.Shows l) (hi : i ∉ l)
    (hloc : ∀ j ∈ l, (s.blinkArray j).location ≠ user.location) :
    (s.added user i).Shows (i :: l) := by
  intro j hj
  rcases List.mem_cons.1 hj with rfl | hjl
  · rw [added_self, BlinkStruct.shownChar, if_neg (show ¬(1 : UInt16) &&& 1 = 0 by decide)]
    exact poke_self _ user.onChar _
  · have hji : j ≠ i := by
      rintro rfl
      exact hi hjl
    rw [added_of_ne user hji, ← hs j hjl]
    exact poke_of_ne _ _ (cell_ne (hloc j hjl))

/-- The other nodes' links are all that a removal changes in them. -/
theorem removed_of_ne (l₁ : List Slot) (hj : j ≠ i) :
    ∃ next, (s.removed l₁ i).blinkArray j = { s.blinkArray j with next := next } := by
  rw [removed, mp1Free_of_ne hj]
  cases (l₁.map some).getLastD none with
  | none => exact ⟨_, rfl⟩
  | some k =>
    rcases Decidable.em (j = k) with rfl | hk
    · exact ⟨_, setNode_self s j _⟩
    · exact ⟨_, setNode_of_ne s hk _⟩

theorem shows_removed {l₁ : List Slot} (hs : s.Shows l) (hi : i ∉ l) :
    (s.removed l₁ i).Shows l := by
  intro j hj
  have hji : j ≠ i := by
    rintro rfl
    exact hi hj
  obtain ⟨next, hnext⟩ := removed_of_ne l₁ hji (s := s)
  have hvmem : (s.removed l₁ i).vmem = s.vmem := by
    rw [removed]
    cases (l₁.map some).getLastD none with
    | none => rfl
    | some k => rfl
  rw [hnext, hvmem]
  exact hs j hj

/-- The tasklet's work on a node leaves the character of the bit it leaves. -/
theorem shows_tick (hs : s.Shows l) (hi : i ∈ l)
    (hloc : ∀ j ∈ l, j ≠ i → (s.blinkArray j).location ≠ (s.blinkArray i).location) :
    (s.tick i).Shows l := by
  intro j hj
  rw [tick]
  simp only
  rcases Decidable.em (j = i) with rfl | hji
  · split
    · rw [setNode_self]
      exact hs j hj
    · split
      · rename_i hoff
        rw [setNode_self, BlinkStruct.shownChar, if_neg (mt (xor_one_and_one _).1 (not_not.2 hoff))]
        exact poke_self s _ _
      · rename_i hon
        rw [setNode_self, BlinkStruct.shownChar, if_pos ((xor_one_and_one _).2 hon)]
        exact poke_self s _ _
  · have hcell := cell_ne (hloc j hj hji)
    split
    · rw [setNode_of_ne s hji]
      exact hs j hj
    · split
      · rw [setNode_of_ne _ hji]
        exact (poke_of_ne s _ hcell).trans (hs j hj)
      · rw [setNode_of_ne _ hji]
        exact (poke_of_ne s _ hcell).trans (hs j hj)

/-- The node after `sync_copy_loop`. -/
theorem synced_self (s : Fish) (i j : Slot) : (s.synced i j).blinkArray j =
    { s.blinkArray j with
      onLength := (s.blinkArray i).onLength
      offLength := (s.blinkArray i).offLength
      countdown := (s.blinkArray i).countdown
      status := (s.blinkArray i).status } :=
  setNode_self s j _

theorem shows_synced_iff (hs : s.Shows l) (hj : j ∈ l)
    (hloc : ∀ k ∈ l, k ≠ j → (s.blinkArray k).location ≠ (s.blinkArray j).location) :
    (s.synced i j).Shows l ↔
      (s.blinkArray i).status &&& 1 = 0 ∨ (s.blinkArray j).onChar = (s.blinkArray j).offChar := by
  have hcell : (s.synced i j).vmem (2 * (s.blinkArray j).location.toNat) =
      (s.blinkArray j).offChar := (poke_self _ _ _).trans (syncChar_eq _)
  have hchar : ((s.synced i j).blinkArray j).shownChar =
      if (s.blinkArray i).status &&& 1 = 0 then (s.blinkArray j).offChar
      else (s.blinkArray j).onChar := by
    rw [synced_self]
    rfl
  have hkeeps := Keeps.synced s i j
  constructor
  · intro h
    have hshown := h j hj
    rw [hkeeps.location, hcell, hchar] at hshown
    by_cases hoff : (s.blinkArray i).status &&& 1 = 0
    · exact .inl hoff
    · rw [if_neg hoff] at hshown
      exact .inr hshown.symm
  · intro h k hk
    rw [hkeeps.location]
    rcases Decidable.em (k = j) with rfl | hkj
    · rw [hcell, hchar]
      rcases h with hoff | hsame
      · rw [if_pos hoff]
      · rw [hsame, ite_self]
    · have hnode : (s.synced i j).blinkArray k = s.blinkArray k := setNode_of_ne s hkj _
      rw [hnode, ← hs k hk]
      exact poke_of_ne _ _ (cell_ne (hloc k hk hkj))

/-! ## Runs -/

/-- Steps between states of distinct locations give no slot to a node of location 0. -/
theorem addsUsed_of_distinct {n : ℕ} {e : Event} (hs : s.Represents) (h : s.step n e = some t)
    (ht : t.Distinct) : s.AddsUsed e := by
  by_contra hadd
  obtain ⟨user, i, h0, hi, hstep⟩ := step_of_not_addsUsed n hadd
  obtain rfl := Option.some.inj (hstep.symm.trans h)
  obtain ⟨l, hl, -, hmem⟩ := hs
  refine (ht _ (lists_added user hl (notMem_of_mp1Malloc hmem hi))).2 i List.mem_cons_self ?_
  rw [added_self]
  exact h0

theorem represents_of_distinct {n : ℕ} (hn : 80 * 25 < n) {e : Event} (hs : s.Represents)
    (h : s.step n e = some t) (ht : t.Distinct) : t.Represents :=
  ((obeys_and_represents_iff hn s e hs).2 (addsUsed_of_distinct hs h ht)).2 t h

theorem shown_add {user : BlinkStruct} (hl : s.Lists l)
    (hmem : ∀ i, i ∈ l ↔ (s.blinkArray i).location ≠ 0) (hshown : s.Shown)
    (ht : (s.mp1IoctlAdd user).2.Distinct) : (s.mp1IoctlAdd user).2.Shown := by
  rcases add_cases s user with ⟨-, hcall⟩ | ⟨i, -, hi, hcall⟩
  · rw [hcall]
    exact hshown
  · rw [hcall] at ht ⊢
    have hil := notMem_of_mp1Malloc hmem hi
    have hlists := lists_added user hl hil
    refine (shown_iff_shows hlists).2
      (shows_added ((shown_iff_shows hl).1 hshown) hil fun j hj hloc => ?_)
    have hne : j ≠ i := by
      rintro rfl
      exact hil hj
    refine hne (ht.eq hlists (List.mem_cons_of_mem _ hj) List.mem_cons_self ?_)
    rw [added_self, added_of_ne user hne]
    exact hloc

theorem shown_remove {n : ℕ} (hn : 80 * 25 < n) (hl : s.Lists l) (hshown : s.Shown) {arg : Word}
    {ret : ℤ} (h : s.mp1IoctlRemove n arg = some (ret, t)) : t.Shown := by
  rcases remove_cases hn hl arg with ⟨-, hcall⟩ | ⟨l₁, i, l₂, rfl, -, hcall⟩
  · cases hcall.symm.trans h
    exact hshown
  · cases hcall.symm.trans h
    have hnodup := List.nodup_middle.1 (Chain.nodup hl)
    have hrest : s.Shows (l₁ ++ l₂) := fun j hj =>
      (shown_iff_shows hl).1 hshown j (by simp at hj ⊢; tauto)
    exact (shown_iff_shows (lists_removed hl)).2
      (shows_removed hrest (List.nodup_cons.1 hnodup).1)

theorem shown_sync_iff {n : ℕ} (hn : 80 * 25 < n) (hl : s.Lists l) (hd : s.Distinct)
    (hshown : s.Shown) {arg : Word} {ret : ℤ} (h : s.mp1IoctlSync n arg = some (ret, t)) :
    t.Shown ↔ s.SyncsOff (.sync arg) := by
  rcases sync_cases hn hl arg with ⟨hmiss, hcall⟩ | ⟨i, hi, j, hj, hiloc, hjloc, hcall⟩
  · cases hcall.symm.trans h
    refine iff_of_true hshown ?_
    intro arg' harg l' hl' i hi j hj hiloc hjloc
    cases harg
    obtain rfl := Chain.unique hl hl'
    exact absurd ⟨⟨i, hi, hiloc⟩, j, hj, hjloc⟩ hmiss
  · cases hcall.symm.trans h
    have hother : ∀ k ∈ l, k ≠ j → (s.blinkArray k).location ≠ (s.blinkArray j).location :=
      fun k hk hkj hloc => hkj (hd.eq hl hk hj hloc)
    rw [shown_iff_shows ((Keeps.synced s i j).lists hl),
      shows_synced_iff ((shown_iff_shows hl).1 hshown) hj hother]
    constructor
    · intro hoff arg' harg l' hl' i' hi' j' hj' hi'loc hj'loc
      cases harg
      obtain rfl := Chain.unique hl hl'
      obtain rfl := hd.eq hl hi hi' (hiloc.trans hi'loc.symm)
      obtain rfl := hd.eq hl hj hj' (hjloc.trans hj'loc.symm)
      exact hoff
    · intro hoff
      exact hoff arg rfl l hl i hi j hj hiloc hjloc

theorem shown_tasklet {n : ℕ} (hn : 80 * 25 < n) (hl : s.Lists l) (hd : s.Distinct)
    (hshown : s.Shown) (h : s.mp1RtcTasklet n = some t) : t.Shown := by
  have htick : ∀ t, ∀ i ∈ l, s.Keeps t ∧ t.Shows l → s.Keeps (t.tick i) ∧ (t.tick i).Shows l := by
    rintro t i hi ⟨hkeeps, hshows⟩
    refine ⟨hkeeps.trans (Keeps.tick t i), shows_tick hshows hi fun j hj hji hloc => ?_⟩
    rw [hkeeps.location, hkeeps.location] at hloc
    exact hji (hd.eq hl hj hi hloc)
  obtain ⟨t', ht', ⟨-, hshows⟩, hkeeps⟩ :=
    tasklet_spec hn hl _ htick ⟨.refl s, (shown_iff_shows hl).1 hshown⟩
  cases ht'.symm.trans h
  exact (shown_iff_shows (hkeeps.lists hl)).2 hshows

theorem syncsOff_of_ne {e : Event} (h : ∀ arg, e ≠ .sync arg) (s : Fish) : s.SyncsOff e :=
  fun arg harg => absurd harg (h arg)

/-- An exact condition on one event. -/
theorem shown_step_iff {n : ℕ} (hn : 80 * 25 < n) {e : Event} (hs : s.Represents)
    (hd : s.Distinct) (hshown : s.Shown) (h : s.step n e = some t) (ht : t.Distinct) :
    t.Shown ↔ s.SyncsOff e := by
  obtain ⟨l, hl, -, hmem⟩ := hs
  obtain ⟨⟨ret, t⟩, hcall, rfl⟩ := Option.map_eq_some_iff.1 h
  cases e with
  | add user =>
    refine iff_of_true ?_ (syncsOff_of_ne (fun _ h => by cases h) s)
    have hadd : (s.mp1IoctlAdd user).2 = t := congrArg Prod.snd (Option.some.inj hcall)
    rw [← hadd] at ht ⊢
    exact shown_add hl hmem hshown ht
  | remove arg =>
    refine iff_of_true ?_ (syncsOff_of_ne (fun _ h => by cases h) s)
    exact shown_remove hn hl hshown hcall
  | find location =>
    refine iff_of_true ?_ (syncsOff_of_ne (fun _ h => by cases h) s)
    obtain ⟨r, -, hr⟩ := Option.map_eq_some_iff.1 hcall
    cases hr
    exact hshown
  | sync arg => exact shown_sync_iff hn hl hd hshown hcall
  | tasklet =>
    refine iff_of_true ?_ (syncsOff_of_ne (fun _ h => by cases h) s)
    obtain ⟨r, hr, hrt⟩ := Option.map_eq_some_iff.1 hcall
    cases hrt
    exact shown_tasklet hn hl hd hshown hr

theorem shown_start (vmem : ℕ → Byte) : (start vmem).Shown := by
  have hnil : (start vmem).Lists [] := chain_nil.2 rfl
  exact (shown_iff_shows hnil).2 fun i hi => absurd hi List.not_mem_nil

/-! ## A node in row 1 -/

theorem Distinct.of_lists (hl : s.Lists l)
    (hnodup : (l.map fun i => (s.blinkArray i).location).Nodup)
    (hne : ∀ i ∈ l, (s.blinkArray i).location ≠ 0) : s.Distinct := by
  intro l' hl'
  obtain rfl := Chain.unique hl hl'
  exact ⟨hnodup, hne⟩

theorem Keeps.distinct (h : s.Keeps t) (hs : s.Represents) (hd : s.Distinct) : t.Distinct := by
  obtain ⟨l, hl, -, -⟩ := hs
  obtain ⟨hnodup, hne⟩ := hd l hl
  refine .of_lists (h.lists hl) ?_ fun i hi => ?_
  · simpa only [h.location] using hnodup
  · rw [h.location]
    exact hne i hi

theorem distinct_start (vmem : ℕ → Byte) : (start vmem).Distinct :=
  .of_lists (chain_nil.2 rfl) List.nodup_nil fun _ hi => absurd hi List.not_mem_nil

/-- `'I'` and `'M'` in the first cell of row 1. -/
def letters : BlinkStruct :=
  ⟨80, 73, 77, 7, 6, 0, 0, none⟩

/-- The node is put alone on the list. -/
theorem step_add_letters (n : ℕ) (vmem : ℕ → Byte) :
    ∃ i, step n (start vmem) (.add letters) = some ((start vmem).added letters i) ∧
      ((start vmem).added letters i).Lists [i] := by
  have hfree : (start vmem).mp1Malloc ≠ none := fun h => mp1Malloc_eq_none_iff.1 h 0 rfl
  rcases add_cases (start vmem) letters with ⟨hfail, -⟩ | ⟨i, -, -, hcall⟩
  · exact absurd ⟨by decide, hfree⟩ hfail
  · refine ⟨i, ?_, lists_added letters (chain_nil.2 rfl) List.not_mem_nil⟩
    rw [step, call, hcall]
    rfl

theorem represents_added_letters {vmem : ℕ → Byte} {n : ℕ} (hn : 80 * 25 < n)
    (h : step n (start vmem) (.add letters) = some t) : t.Represents :=
  ((obeys_and_represents_iff hn _ _ (represents_start vmem)).2 (by
    rintro user ⟨⟩ h0
    exact absurd h0 (by decide))).2 t h

theorem distinct_added_letters (vmem : ℕ → Byte)
    (hl : ((start vmem).added letters i).Lists [i]) :
    ((start vmem).added letters i).Distinct := by
  refine .of_lists hl (List.nodup_singleton _) fun j hj => ?_
  have h80 : (80 : UInt16) ≠ 0 := by decide
  rw [List.mem_singleton.1 hj, added_self]
  exact h80

/-- The states of a run that puts the node on the list and then keeps the list. -/
theorem allStates_distinct_letters {n : ℕ} (hn : 80 * 25 < n) (vmem : ℕ → Byte) {es : List Event}
    (hes : ∀ e ∈ es, ∀ s t, s.Represents → step n s e = some t → s.Keeps t) :
    Transition.AllStates (step n) Distinct (start vmem) (.add letters :: es) := by
  obtain ⟨i, hstep, hl⟩ := step_add_letters n vmem
  refine ⟨distinct_start vmem, fun s' hs' => ?_⟩
  have hrep := represents_added_letters hn hs'
  obtain rfl := Option.some.inj (hstep.symm.trans hs')
  have hall : Transition.AllStates (step n) (fun s => s.Represents ∧ s.Distinct)
      ((start vmem).added letters i) es :=
    Transition.AllEvents.allStates
      (C := fun s e => ∀ t, s.Represents → step n s e = some t → s.Keeps t)
      (.of_mem fun e he s => hes e he s) (fun s e t hs hkeeps hstep =>
        ⟨(hkeeps t hs.1 hstep).represents hs.1, (hkeeps t hs.1 hstep).distinct hs.1 hs.2⟩)
      ⟨hrep, distinct_added_letters vmem hl⟩
  exact hall.mono fun _ h => h.2

theorem keeps_of_step {n : ℕ} {e : Event}
    (he : ∀ (s : Fish) l, s.Lists l → ∃ ret t, s.call n e = some (ret, t) ∧ s.Keeps t) (s t : Fish)
    (hs : s.Represents) (h : step n s e = some t) : s.Keeps t := by
  obtain ⟨l, hl, -, -⟩ := hs
  obtain ⟨ret, t', ht', hkeeps⟩ := he s l hl
  rw [step, ht'] at h
  cases h
  exact hkeeps

/-! ## The screen agrees with the list -/

/-- In the runs through distinct locations that are not zero, the screen agrees with the list as
long as every sync copies from a node that is off, or to one with a single character. -/
theorem shown_iff {n : ℕ} (hn : 80 * 25 < n) (vmem : ℕ → Byte) (es : List Event)
    (hd : Transition.AllStates (step n) Distinct (start vmem) es) :
    Transition.AllStates (step n) Shown (start vmem) es ↔
      Transition.AllSteps (step n) (fun s e _ => s.SyncsOff e) (start vmem) es :=
  Transition.allStates_iff_allSteps_of
    (fun _ _ _ hs _ h ht => represents_of_distinct hn hs h ht)
    (fun _ _ _ hs hd hshown h ht => shown_step_iff hn hs hd hshown h ht)
    (represents_start vmem) (shown_start vmem) hd

/-- The node is put, and ticked until it is on again. -/
theorem shown_letters_tick :
    Transition.AllStates (step 2001) Shown (start fun _ => 0)
      (.add letters :: List.replicate 14 .tasklet) := by
  refine (shown_iff (by omega) (fun _ => 0) _ ?_).2 (Transition.AllEvents.allSteps
    (P := SyncsOff) (.of_mem fun e he s => syncsOff_of_ne (fun arg harg => ?_) s))
  · refine allStates_distinct_letters (by omega) _ fun e he => ?_
    obtain rfl := List.eq_of_mem_replicate he
    exact keeps_of_step fun _ _ hl => tasklet_keeps (by omega) hl
  · subst harg
    rcases List.mem_cons.1 he with h | h
    · exact absurd h (by simp)
    · exact absurd (List.eq_of_mem_replicate h) (by simp)

/-- The node is on, and a sync with itself puts `'M'`. -/
theorem not_shown_letters_sync :
    Transition.AllStates (step 2001) Distinct (start fun _ => 0) [.add letters, .sync 0x00500050] ∧
      ¬Transition.AllStates (step 2001) Shown (start fun _ => 0)
        [.add letters, .sync 0x00500050] := by
  refine ⟨allStates_distinct_letters (by omega) _ fun e he => ?_, fun h => ?_⟩
  · obtain rfl := List.mem_singleton.1 he
    exact keeps_of_step fun _ _ hl => sync_keeps (by omega) hl _
  obtain ⟨i, hstep, hl⟩ := step_add_letters 2001 fun _ => 0
  have hi : ((start fun _ => 0).added letters i).blinkArray i =
    { letters with status := 1, countdown := 7, next := none } := added_self letters
  rcases sync_cases (by omega : 80 * 25 < 2001) hl 0x00500050 with ⟨hmiss, -⟩ |
    ⟨j, hj, k, hk, -, -, hcall⟩
  · refine hmiss ⟨⟨i, List.mem_cons_self, ?_⟩, i, List.mem_cons_self, ?_⟩
    · rw [hi]
      decide
    · rw [hi]
      decide
  · rw [List.mem_singleton.1 hj, List.mem_singleton.1 hk] at hcall
    have hsync : step 2001 ((start fun _ => 0).added letters i) (.sync 0x00500050) =
        some (((start fun _ => 0).added letters i).synced i i) := by
      rw [step, call, hcall]
      rfl
    have hshown := ((h.2 _ hstep).2 _ hsync).head
    rw [shown_iff_shows ((Keeps.synced _ i i).lists hl),
      shows_synced_iff ((shown_iff_shows hl).1 (h.2 _ hstep).head) List.mem_cons_self
        fun k hk hki => absurd (List.mem_singleton.1 hk) hki, hi] at hshown
    exact absurd hshown (by decide)

end Fish

end MpOS
