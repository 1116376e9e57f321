import MpOS.BlinkDisplay
import MpOS.Lib.SquareWave

/-!
# The phase of a blinking character

The tasklet counts a node's `countdown` down with `decw` and tests it as a signed number, so
a length lasts `span` ticks, and a length of zero one. Between the calls that name its
location a node is a square wave that starts with its rise (`wave_ticked`), and so its
character is known from the number of ticks alone (`blink_period`). A sync that puts a wrong
character is put right by the node's next toggle (`sync_heals`).
-/

namespace MpOS

/-- The ticks that a length lasts. -/
def span (length : UInt16) : ℕ :=
  if length.toNat ≤ 2 ^ 15 then max 1 length.toNat else 1

theorem span_pos (length : UInt16) : 0 < span length := by
  rw [span]
  split <;> omega

/-- A signed comparison with zero. -/
theorem toInt16_pos_iff (w : UInt16) : w.toInt16 > 0 ↔ 0 < w.toNat ∧ w.toNat < 2 ^ 15 := by
  have hlt := w.toNat_lt
  have hint : w.toInt16.toInt = if 2 * w.toNat < 2 ^ 16 then (w.toNat : ℤ) else w.toNat - 2 ^ 16 :=
    BitVec.toInt_eq_toNat_cond w.toBitVec
  rw [gt_iff_lt, Int16.lt_iff_toInt_lt, hint]
  change (0 : ℤ) < _ ↔ _
  split <;> omega

theorem toNat_decw (w : UInt16) :
    (w - 1).toNat = if w.toNat = 0 then 2 ^ 16 - 1 else w.toNat - 1 := by
  have hlt := w.toNat_lt
  rw [UInt16.toNat_sub, UInt16.toNat_one]
  split <;> omega

/-- `decw` and `jg` : the countdown goes on exactly while there is more than a tick left. -/
theorem decw_pos_iff (countdown : UInt16) : (countdown - 1).toInt16 > 0 ↔ 1 < span countdown := by
  rw [toInt16_pos_iff, toNat_decw, span]
  split <;> split <;> omega

theorem span_decw {countdown : UInt16} (h : 1 < span countdown) :
    span (countdown - 1) = span countdown - 1 := by
  rw [span] at h
  rw [span, span, toNat_decw]
  grind

namespace BlinkStruct

/-- A node after the tasklet's work. -/
def ticked (node : BlinkStruct) : BlinkStruct :=
  if (node.countdown - 1).toInt16 > 0 then { node with countdown := node.countdown - 1 }
  else if node.status &&& 1 = 0 then
    { node with countdown := node.onLength, status := node.status ^^^ 1 }
  else { node with countdown := node.offLength, status := node.status ^^^ 1 }

/-- The status bit, and the ticks to its toggle. -/
def wave (node : BlinkStruct) : SquareWave :=
  ⟨decide (node.status &&& 1 ≠ 0), span node.countdown⟩

/-- The tasklet's work on the wave of a node. -/
theorem wave_ticked (node : BlinkStruct) :
    node.ticked.wave = node.wave.tick (span node.onLength) (span node.offLength) := by
  by_cases h : 1 < span node.countdown
  · rw [SquareWave.tick_of_lt (w := node.wave) h, ticked, if_pos ((decw_pos_iff _).2 h), wave,
      span_decw h]
    rfl
  · rw [SquareWave.tick_of_le (w := node.wave) (Nat.not_lt.1 h), ticked,
      if_neg (mt (decw_pos_iff _).1 h)]
    have hxor := Fish.xor_one_and_one node.status
    by_cases hoff : node.status &&& 1 = 0
    · simp [wave, SquareWave.length, hxor, hoff]
    · simp [wave, SquareWave.length, hxor, hoff]

end BlinkStruct

/-- A node and the character in its cell. -/
structure Glyph where
  node : BlinkStruct
  cell : Byte

/-- A node's character is put when its status toggles. -/
def Glyph.tick (g : Glyph) : Glyph :=
  ⟨g.node.ticked, if 1 < span g.node.countdown then g.cell else g.node.ticked.shownChar⟩

/-! ## The square wave of a node -/

/-- Ticks change the phase of a node only. -/
theorem BlinkStruct.exists_ticked (node : BlinkStruct) :
    ∃ countdown status, node.ticked = { node with countdown := countdown, status := status } := by
  rw [ticked]
  split
  · exact ⟨_, _, rfl⟩
  · split
    · exact ⟨_, _, rfl⟩
    · exact ⟨_, _, rfl⟩

theorem BlinkStruct.shownChar_eq (node : BlinkStruct) :
    node.shownChar = if node.wave.up then node.onChar else node.offChar := by
  by_cases hoff : node.status &&& 1 = 0
  · simp [shownChar, wave, hoff]
  · simp [shownChar, wave, hoff]

namespace Glyph

theorem exists_tick (g : Glyph) : ∃ countdown status,
    g.tick.node = { g.node with countdown := countdown, status := status } :=
  g.node.exists_ticked

theorem exists_iterate (g : Glyph) (k : ℕ) : ∃ countdown status,
    (tick^[k] g).node = { g.node with countdown := countdown, status := status } := by
  induction k with
  | zero => exact ⟨_, _, rfl⟩
  | succ k ih =>
    obtain ⟨countdown, status, hk⟩ := ih
    obtain ⟨countdown', status', htick⟩ := (tick^[k] g).exists_tick
    refine ⟨countdown', status', ?_⟩
    rw [Function.iterate_succ_apply', htick, hk]

theorem location_tick (g : Glyph) : g.tick.node.location = g.node.location := by
  obtain ⟨countdown, status, h⟩ := g.exists_tick
  rw [h]

/-- A node is a square wave of its two lengths. -/
theorem wave_iterate (g : Glyph) (k : ℕ) : (tick^[k] g).node.wave =
    (SquareWave.tick (span g.node.onLength) (span g.node.offLength))^[k] g.node.wave := by
  induction k with
  | zero => rfl
  | succ k ih =>
    obtain ⟨countdown, status, hk⟩ := exists_iterate g k
    have hwave := (tick^[k] g).node.wave_ticked
    have hon : (tick^[k] g).node.onLength = g.node.onLength := by rw [hk]
    have hoff : (tick^[k] g).node.offLength = g.node.offLength := by rw [hk]
    rw [Function.iterate_succ_apply', Function.iterate_succ_apply', ← ih, ← hon, ← hoff]
    exact hwave

/-- The character of a node after some ticks. -/
theorem shownChar_iterate (g : Glyph) (k : ℕ) : (tick^[k] g).node.shownChar =
    if ((SquareWave.tick (span g.node.onLength) (span g.node.offLength))^[k] g.node.wave).up
    then g.node.onChar else g.node.offChar := by
  obtain ⟨countdown, status, hk⟩ := exists_iterate g k
  rw [BlinkStruct.shownChar_eq, wave_iterate, hk]

/-- A tick that does not toggle. -/
theorem tick_of_lt {g : Glyph} (h : 1 < span g.node.countdown) :
    g.tick.cell = g.cell ∧ g.tick.node.shownChar = g.node.shownChar ∧
      span g.tick.node.countdown = span g.node.countdown - 1 := by
  have hwave := g.node.wave_ticked
  rw [SquareWave.tick_of_lt (w := g.node.wave) h] at hwave
  obtain ⟨countdown, status, hticked⟩ := g.node.exists_ticked
  refine ⟨if_pos h, ?_, congrArg SquareWave.left hwave⟩
  change g.node.ticked.shownChar = _
  rw [BlinkStruct.shownChar_eq, hwave, BlinkStruct.shownChar_eq, hticked]

/-- Until its toggle a cell keeps what it shows. -/
theorem cell_iterate_of_lt {g : Glyph} {k : ℕ} (h : k < span g.node.countdown) :
    (tick^[k] g).cell = g.cell := by
  induction k generalizing g with
  | zero => rfl
  | succ k ih =>
    obtain ⟨hcell, -, hspan⟩ := tick_of_lt (by omega : 1 < span g.node.countdown)
    rw [Function.iterate_succ_apply, ih (by omega), hcell]

/-- The cell shows the character of the node. -/
def Agrees (g : Glyph) : Prop :=
  g.cell = g.node.shownChar

theorem Agrees.tick {g : Glyph} (h : g.Agrees) : g.tick.Agrees := by
  by_cases hlt : 1 < span g.node.countdown
  · obtain ⟨hcell, hchar, -⟩ := tick_of_lt hlt
    exact hcell.trans (h.trans hchar.symm)
  · exact if_neg hlt

theorem Agrees.iterate {g : Glyph} (h : g.Agrees) (k : ℕ) : (Glyph.tick^[k] g).Agrees := by
  induction k generalizing g with
  | zero => exact h
  | succ k ih => exact ih h.tick

/-- From its toggle on a cell shows the character of the node. -/
theorem agrees_iterate {g : Glyph} {k : ℕ} (h : span g.node.countdown ≤ k) :
    (Glyph.tick^[k] g).Agrees := by
  induction k generalizing g with
  | zero => exact absurd (span_pos g.node.countdown) (by omega)
  | succ k ih =>
    rw [Function.iterate_succ_apply]
    by_cases hlt : 1 < span g.node.countdown
    · obtain ⟨-, -, hspan⟩ := tick_of_lt hlt
      exact ih (by omega)
    · have htick : g.tick.Agrees := if_neg hlt
      exact htick.iterate k

end Glyph

namespace Fish

/-- A slot's node without its link, and what the screen shows in its cell. -/
def glyph (s : Fish) (i : Slot) : Glyph :=
  ⟨{ s.blinkArray i with next := none }, s.vmem (2 * (s.blinkArray i).location.toNat)⟩

/-- The list is sound, and the slot's node is the only one of its location. -/
structure Sole (s : Fish) (i : Slot) : Prop where
  represents : s.Represents
  used : (s.blinkArray i).location ≠ 0
  only : ∀ j, j ≠ i → (s.blinkArray j).location ≠ (s.blinkArray i).location

/-- The tick of the tasklet, among the events of a run. -/
def Event.isTick : Event → Bool
  | .tasklet => true
  | _ => false

/-- No node is put to the location or taken from it, and no sync writes to it. -/
def Event.Spares (location : UInt16) : Event → Prop
  | .add user => user.location ≠ location
  | .remove arg => arg.toUInt16 ≠ location
  | .sync arg => (arg &&& 0xFFFF).toUInt16 ≠ location
  | _ => True

variable {s t : Fish} {i j : Slot} {l : List Slot} {n : ℕ} {e : Event}

/-! ## The tasklet -/

/-- The tasklet works on the nodes of the list in turn. -/
theorem iterate_taskletPass_eq {p : Option Slot} (h : s.Chain p l) (hn : l.length < n) :
    Loop.iterate taskletPass n (p, s) = some (l.foldl tick s) := by
  induction l generalizing s p n with
  | nil =>
    obtain rfl := chain_nil.1 h
    obtain ⟨n, rfl⟩ := Nat.exists_eq_add_one_of_ne_zero (Nat.pos_iff_ne_zero.1 hn)
    exact Loop.iterate_of_inr rfl n
  | cons i l ih =>
    obtain ⟨rfl, ht⟩ := chain_cons.1 h
    rw [List.length_cons] at hn
    obtain ⟨n, rfl⟩ := Nat.exists_eq_add_one_of_ne_zero (by omega : n ≠ 0)
    have hkeeps := Keeps.tick s i
    have ht' : (s.tick i).Chain ((s.tick i).blinkArray i).next l := by
      rw [hkeeps.next]
      exact hkeeps.chain ht
    have hpass : taskletPass (some i, s) = .inl (((s.tick i).blinkArray i).next, s.tick i) := rfl
    rw [Loop.iterate_of_inl hpass, ih ht' (Nat.lt_of_succ_lt_succ hn), List.foldl_cons]

theorem mp1RtcTasklet_eq (hn : 80 * 25 < n) (hl : s.Lists l) :
    s.mp1RtcTasklet n = some (l.foldl tick s) :=
  iterate_taskletPass_eq hl (Nat.lt_of_le_of_lt (length_lists_le hl) hn)

theorem glyph_congr (hnode : { t.blinkArray i with next := none } =
      { s.blinkArray i with next := none })
    (hvmem : t.vmem (2 * (s.blinkArray i).location.toNat) =
      s.vmem (2 * (s.blinkArray i).location.toNat)) : t.glyph i = s.glyph i := by
  have hlocation := congrArg BlinkStruct.location hnode
  change (t.blinkArray i).location = (s.blinkArray i).location at hlocation
  rw [glyph, glyph, hnode, hlocation, hvmem]

theorem tick_self (s : Fish) (i : Slot) :
    (s.tick i).blinkArray i = (s.blinkArray i).ticked := by
  by_cases hgo : ((s.blinkArray i).countdown - 1).toInt16 > 0
  · simp only [tick, BlinkStruct.ticked, if_pos hgo, setNode_self]
  · by_cases hoff : (s.blinkArray i).status &&& 1 = 0
    · simp only [tick, BlinkStruct.ticked, if_neg hgo, if_pos hoff, setNode_self]
    · simp only [tick, BlinkStruct.ticked, if_neg hgo, if_neg hoff, setNode_self]

/-- The character is put with the toggle. -/
theorem vmem_tick_self (s : Fish) (i : Slot) :
    (s.tick i).vmem (2 * (s.blinkArray i).location.toNat) =
      if 1 < span (s.blinkArray i).countdown then s.vmem (2 * (s.blinkArray i).location.toNat)
      else (s.blinkArray i).ticked.shownChar := by
  have hgo_iff := decw_pos_iff (s.blinkArray i).countdown
  have hxor := xor_one_and_one (s.blinkArray i).status
  by_cases hgo : ((s.blinkArray i).countdown - 1).toInt16 > 0
  · simp only [tick, if_pos hgo, if_pos (hgo_iff.1 hgo)]
    rfl
  · rw [if_neg (mt hgo_iff.2 hgo), BlinkStruct.shownChar]
    by_cases hoff : (s.blinkArray i).status &&& 1 = 0
    · have hon := mt hxor.1 (not_not.2 hoff)
      simp only [tick, BlinkStruct.ticked, if_neg hgo, if_pos hoff, if_neg hon]
      exact poke_self s _ _
    · simp only [tick, BlinkStruct.ticked, if_neg hgo, if_neg hoff, if_pos (hxor.2 hoff)]
      exact poke_self s _ _

/-- The tasklet's work on a slot, as its glyph sees it. -/
theorem glyph_tick (s : Fish) (i : Slot) : (s.tick i).glyph i = (s.glyph i).tick := by
  have hlink : ({ s.blinkArray i with next := none } : BlinkStruct).ticked =
      { (s.blinkArray i).ticked with next := none } := by
    simp only [BlinkStruct.ticked, apply_ite fun node : BlinkStruct => { node with next := none }]
  rw [glyph, (Keeps.tick s i).location, vmem_tick_self, tick_self, Glyph.tick]
  simp only [glyph, hlink]
  rfl

theorem glyph_tick_of_ne (hij : i ≠ j)
    (hloc : (s.blinkArray i).location ≠ (s.blinkArray j).location) :
    (s.tick j).glyph i = s.glyph i := by
  have hcell := cell_ne hloc
  rw [tick]
  simp only
  split
  · exact glyph_congr (by rw [setNode_of_ne s hij]) rfl
  · split
    · exact glyph_congr (by rw [setNode_of_ne _ hij]; rfl) (poke_of_ne s _ hcell)
    · exact glyph_congr (by rw [setNode_of_ne _ hij]; rfl) (poke_of_ne s _ hcell)

/-- The work on nodes of other locations. -/
theorem glyph_foldl_of_notMem (hi : i ∉ l)
    (hloc : ∀ j ∈ l, (s.blinkArray i).location ≠ (s.blinkArray j).location) :
    (l.foldl tick s).glyph i = s.glyph i := by
  induction l generalizing s with
  | nil => rfl
  | cons j l ih =>
    rw [List.mem_cons, not_or] at hi
    have hkeeps := Keeps.tick s j
    have hrest : ∀ k ∈ l,
        ((s.tick j).blinkArray i).location ≠ ((s.tick j).blinkArray k).location := by
      intro k hk
      rw [hkeeps.location, hkeeps.location]
      exact hloc k (List.mem_cons_of_mem _ hk)
    rw [List.foldl_cons, ih hi.2 hrest, glyph_tick_of_ne hi.1 (hloc j List.mem_cons_self)]

theorem keeps_foldl (s : Fish) (l : List Slot) : s.Keeps (l.foldl tick s) := by
  induction l generalizing s with
  | nil => exact .refl s
  | cons i l ih => exact (Keeps.tick s i).trans (ih _)

/-- The tasklet works on a node that is alone in its cell once. -/
theorem glyph_foldl (hnodup : l.Nodup) (hi : i ∈ l)
    (hloc : ∀ j, j ≠ i → (s.blinkArray j).location ≠ (s.blinkArray i).location) :
    (l.foldl tick s).glyph i = (s.glyph i).tick := by
  obtain ⟨l₁, l₂, rfl⟩ := List.append_of_mem hi
  have hnotMem := (List.nodup_cons.1 (List.nodup_middle.1 hnodup)).1
  rw [List.mem_append, not_or] at hnotMem
  have hother : ∀ t : Fish, s.Keeps t → ∀ l' : List Slot, i ∉ l' →
      ∀ j ∈ l', (t.blinkArray i).location ≠ (t.blinkArray j).location := by
    intro t hkeeps l' hl' j hj
    rw [hkeeps.location, hkeeps.location]
    refine (hloc j ?_).symm
    rintro rfl
    exact hl' hj
  have hfirst := keeps_foldl s l₁
  have hthen := hfirst.trans (Keeps.tick _ i)
  rw [List.foldl_append, List.foldl_cons,
    glyph_foldl_of_notMem hnotMem.2 (hother _ hthen l₂ hnotMem.2), glyph_tick,
    glyph_foldl_of_notMem hnotMem.1 (hother s (.refl s) l₁ hnotMem.1)]

/-! ## Runs that spare a location -/

theorem Sole.keeps (hs : s.Sole i) (h : s.Keeps t) : t.Sole i where
  represents := h.represents hs.represents
  used := by
    rw [h.location]
    exact hs.used
  only j hj := by
    rw [h.location, h.location]
    exact hs.only j hj

theorem vmem_removed (s : Fish) (l₁ : List Slot) (i : Slot) : (s.removed l₁ i).vmem = s.vmem := by
  rw [removed]
  cases (l₁.map some).getLastD none with
  | none => rfl
  | some k => rfl

/-- A node put to another location. -/
theorem Sole.added {user : BlinkStruct} (hs : s.Sole i) (hj : s.mp1Malloc = some j)
    (ht : (s.added user j).Represents) (hspare : user.location ≠ (s.blinkArray i).location) :
    (s.added user j).Sole i ∧ (s.added user j).glyph i = s.glyph i := by
  have hij : i ≠ j := by
    rintro rfl
    exact hs.used (location_of_mp1Malloc hj)
  have hnode := added_of_ne (s := s) user hij
  refine ⟨⟨ht, by rw [hnode]; exact hs.used, fun k hk => ?_⟩,
    glyph_congr (by rw [hnode]) (poke_of_ne _ _ (cell_ne hspare.symm))⟩
  rw [hnode]
  rcases Decidable.em (k = j) with rfl | hkj
  · rw [added_self]
    exact hspare
  · rw [added_of_ne user hkj]
    exact hs.only k hk

/-- A node taken from another location. -/
theorem Sole.removed {l₁ : List Slot} (hs : s.Sole i) (ht : (s.removed l₁ j).Represents)
    (hspare : (s.blinkArray j).location ≠ (s.blinkArray i).location) :
    (s.removed l₁ j).Sole i ∧ (s.removed l₁ j).glyph i = s.glyph i := by
  have hij : i ≠ j := by
    rintro rfl
    exact hspare rfl
  obtain ⟨next, hnode⟩ := removed_of_ne (s := s) l₁ hij
  refine ⟨⟨ht, by rw [hnode]; exact hs.used, fun k hk => ?_⟩,
    glyph_congr (by rw [hnode]) (by rw [vmem_removed])⟩
  rw [hnode]
  rcases Decidable.em (k = j) with rfl | hkj
  · rw [Fish.removed, mp1Free_self]
    exact hs.used.symm
  · obtain ⟨next', hnode'⟩ := removed_of_ne (s := s) l₁ hkj
    rw [hnode']
    exact hs.only k hk

/-- A sync of another node. -/
theorem Sole.synced {k : Slot} (hs : s.Sole i) (hik : i ≠ k) :
    (s.synced j k).Sole i ∧ (s.synced j k).glyph i = s.glyph i := by
  have hnode : (s.synced j k).blinkArray i = s.blinkArray i := setNode_of_ne s hik _
  exact ⟨hs.keeps (Keeps.synced s j k),
    glyph_congr (by rw [hnode]) (poke_of_ne _ _ (cell_ne (hs.only k hik.symm).symm))⟩

/-- What a step does : it leaves the state, or changes it in one of four ways. -/
theorem step_cases (hn : 80 * 25 < n) (hl : s.Lists l) (h : s.step n e = some t) :
    (e.isTick = false ∧ t = s) ∨
    (∃ user i, e = .add user ∧ user.location < 80 * 25 ∧ s.mp1Malloc = some i ∧
      t = s.added user i) ∨
    (∃ arg l₁ i, e = .remove arg ∧ (s.blinkArray i).location = arg.toUInt16 ∧
      t = s.removed l₁ i) ∨
    (∃ arg i, ∃ j ∈ l, e = .sync arg ∧ (s.blinkArray i).location = (arg >>> 16).toUInt16 ∧
      (s.blinkArray j).location = (arg &&& 0xFFFF).toUInt16 ∧ t = s.synced i j) ∨
    (e = .tasklet ∧ t = l.foldl tick s) := by
  obtain ⟨⟨ret, t⟩, hcall, rfl⟩ := Option.map_eq_some_iff.1 h
  cases e with
  | add user =>
    have hret : s.mp1IoctlAdd user = (ret, t) := Option.some.inj hcall
    rcases add_cases s user with ⟨-, hfail⟩ | ⟨i, hlt, hi, hadded⟩
    · cases hfail.symm.trans hret
      exact .inl ⟨rfl, rfl⟩
    · cases hadded.symm.trans hret
      exact .inr (.inl ⟨user, i, rfl, hlt, hi, rfl⟩)
  | remove arg =>
    rcases remove_cases hn hl arg with ⟨-, hmiss⟩ | ⟨l₁, i, l₂, -, hi, hremoved⟩
    · cases hmiss.symm.trans hcall
      exact .inl ⟨rfl, rfl⟩
    · cases hremoved.symm.trans hcall
      exact .inr (.inr (.inl ⟨arg, l₁, i, rfl, hi, rfl⟩))
  | find location =>
    obtain ⟨r, -, hr⟩ := Option.map_eq_some_iff.1 hcall
    cases hr
    exact .inl ⟨rfl, rfl⟩
  | sync arg =>
    rcases sync_cases hn hl arg with ⟨-, hmiss⟩ | ⟨i, -, j, hj, hi, hjloc, hsync⟩
    · cases hmiss.symm.trans hcall
      exact .inl ⟨rfl, rfl⟩
    · cases hsync.symm.trans hcall
      exact .inr (.inr (.inr (.inl ⟨arg, i, j, hj, rfl, hi, hjloc, rfl⟩)))
  | tasklet =>
    obtain ⟨r, hr, hrt⟩ := Option.map_eq_some_iff.1 hcall
    cases hrt
    cases (mp1RtcTasklet_eq hn hl).symm.trans hr
    exact .inr (.inr (.inr (.inr ⟨rfl, rfl⟩)))

/-- An event that spares the location ticks its node, or leaves it. -/
theorem Sole.glyph_step (hn : 80 * 25 < n) (hs : s.Sole i) (hadd : s.AddsUsed e)
    (hspare : e.Spares (s.blinkArray i).location) (h : s.step n e = some t) :
    t.Sole i ∧ t.glyph i = if e.isTick then (s.glyph i).tick else s.glyph i := by
  have ht : t.Represents := ((obeys_and_represents_iff hn s e hs.represents).2 hadd).2 t h
  obtain ⟨l, hl, hnodup, hmem⟩ := hs.represents
  rcases step_cases hn hl h with ⟨he, rfl⟩ | ⟨user, j, rfl, -, hj, rfl⟩ |
    ⟨arg, l₁, j, rfl, hj, rfl⟩ | ⟨arg, j, k, -, rfl, -, hk, rfl⟩ | ⟨rfl, rfl⟩
  · rw [he]
    exact ⟨hs, rfl⟩
  · exact hs.added hj ht hspare
  · refine hs.removed ht ?_
    rw [hj]
    exact hspare
  · refine hs.synced ?_
    rintro rfl
    exact hspare hk.symm
  · exact ⟨hs.keeps (keeps_foldl s l), glyph_foldl hnodup ((hmem i).2 hs.used) hs.only⟩

/-- A run that spares the location ticks its node once for each of its ticks. -/
theorem Sole.glyph_run {es : List Event} (hn : 80 * 25 < n) (hs : s.Sole i)
    (hadd : Transition.AllEvents (step n) AddsUsed s es)
    (hspare : ∀ e ∈ es, e.Spares (s.blinkArray i).location)
    (hrun : Transition.run (step n) s es = some t) :
    t.Sole i ∧ t.glyph i = Glyph.tick^[es.countP Event.isTick] (s.glyph i) := by
  induction es generalizing s with
  | nil =>
    obtain rfl := Option.some.inj hrun
    exact ⟨hs, rfl⟩
  | cons e es ih =>
    rw [Transition.run_cons, Option.bind_eq_some_iff] at hrun
    obtain ⟨s₁, he, hrun⟩ := hrun
    rw [List.forall_mem_cons] at hspare
    obtain ⟨hs₁, hglyph⟩ := hs.glyph_step hn hadd.1 hspare.1 he
    have hlocation : (s₁.blinkArray i).location = (s.blinkArray i).location := by
      have hnode := congrArg (fun g => g.node.location) hglyph
      simp only [apply_ite (fun g : Glyph => g.node.location), Glyph.location_tick,
        ite_self] at hnode
      exact hnode
    obtain ⟨ht, htglyph⟩ := ih hs₁ (hadd.2 s₁ he) (hlocation ▸ hspare.2) hrun
    refine ⟨ht, ?_⟩
    rw [htglyph, hglyph, List.countP_cons]
    split
    · rw [Function.iterate_succ_apply]
    · rfl

theorem Sole.vmem_run {es : List Event} (hn : 80 * 25 < n) (hs : s.Sole i)
    (hadd : Transition.AllEvents (step n) AddsUsed s es)
    (hspare : ∀ e ∈ es, e.Spares (s.blinkArray i).location)
    (hrun : Transition.run (step n) s es = some t) :
    t.vmem (2 * (s.blinkArray i).location.toNat) =
      (Glyph.tick^[es.countP Event.isTick] (s.glyph i)).cell := by
  obtain ⟨-, hglyph⟩ := hs.glyph_run hn hadd hspare hrun
  obtain ⟨countdown, status, hnode⟩ :=
    (s.glyph i).exists_iterate (es.countP Event.isTick)
  rw [← hglyph] at hnode ⊢
  have hlocation : (t.glyph i).node.location = (s.glyph i).node.location := by rw [hnode]
  exact congrArg (fun location : UInt16 => t.vmem (2 * location.toNat)) hlocation.symm

theorem exists_step (hn : 80 * 25 < n) (hs : s.Represents) (hadd : s.AddsUsed e) :
    ∃ t, s.step n e = some t ∧ t.Represents := by
  obtain ⟨hobeys, hrep⟩ := (obeys_and_represents_iff hn s e hs).2 hadd
  obtain ⟨l, hl, -, -⟩ := hs
  obtain ⟨ret, t, hcall, -⟩ := hobeys l hl
  have hstep : s.step n e = some t := by
    rw [Fish.step, hcall]
    rfl
  exact ⟨t, hstep, hrep t hstep⟩

/-- A run that puts no node to location 0 is not held up. -/
theorem exists_run {es : List Event} (hn : 80 * 25 < n) (hs : s.Represents)
    (hadd : Transition.AllEvents (step n) AddsUsed s es) :
    ∃ t, Transition.run (step n) s es = some t := by
  induction es generalizing s with
  | nil => exact ⟨s, rfl⟩
  | cons e es ih =>
    obtain ⟨t, hstep, ht⟩ := exists_step hn hs hadd.1
    obtain ⟨u, hu⟩ := ih ht (hadd.2 t hstep)
    exact ⟨u, by rw [Transition.run_cons, hstep, Option.bind_some, hu]⟩

theorem call_add {ret : ℤ} {user : BlinkStruct} {s' : Fish}
    (hcall : s.call n (.add user) = some (ret, s')) (hret : ret = 0) :
    ∃ i, s.mp1Malloc = some i ∧ s' = s.added user i := by
  have hadd : s.mp1IoctlAdd user = (ret, s') := Option.some.inj hcall
  rcases add_cases s user with ⟨-, hfail⟩ | ⟨i, -, hi, hadded⟩
  · cases hfail.symm.trans hadd
    exact absurd hret (by decide)
  · cases hadded.symm.trans hadd
    exact ⟨i, hi, rfl⟩

/-- A node that is put to an empty location. -/
theorem sole_added {user : BlinkStruct} (hi : s.mp1Malloc = some i)
    (hfree : ∀ j, (s.blinkArray j).location ≠ user.location)
    (ht : (s.added user i).Represents) : (s.added user i).Sole i where
  represents := ht
  used := by
    rw [added_self]
    exact fun h0 => hfree i ((location_of_mp1Malloc hi).trans h0.symm)
  only j hj := by
    rw [added_self, added_of_ne user hj]
    exact hfree j

/-- What `mp1_ioctl_add` makes of the user's structure, and the character it puts. -/
def newGlyph (user : BlinkStruct) : Glyph :=
  ⟨{ user with status := 1, countdown := user.onLength, next := none }, user.onChar⟩

theorem glyph_added (s : Fish) (user : BlinkStruct) (i : Slot) :
    (s.added user i).glyph i = newGlyph user := by
  rw [glyph, added_self]
  exact congrArg _ (poke_self _ user.onChar _)

/-- The wave of a new node starts with its rise. -/
theorem wave_new (user : BlinkStruct) : (newGlyph user).node.wave = ⟨true, span user.onLength⟩ := by
  have hbit : decide ((1 : UInt16) &&& 1 ≠ 0) = true := by decide
  exact congrArg (SquareWave.mk · (span user.onLength)) hbit

theorem cell_iterate_new (user : BlinkStruct) (k : ℕ) : (Glyph.tick^[k] (newGlyph user)).cell =
    if k % (span user.onLength + span user.offLength) < span user.onLength then user.onChar
    else user.offChar := by
  have hagrees : (newGlyph user).Agrees := by
    rw [Glyph.Agrees, BlinkStruct.shownChar_eq, wave_new]
    rfl
  rw [hagrees.iterate, Glyph.shownChar_iterate, wave_new]
  simp only [newGlyph, SquareWave.up_iterate_tick (span_pos _) (span_pos _)]

/-- A character that is put to an empty location blinks from then on, whatever else happens, until
a call names its location : after some ticks it is on exactly if their number is below the on
length modulo the period. -/
theorem blink_period (hn : 80 * 25 < n) (vmem : ℕ → Byte) {es₁ es₂ : List Event}
    {user : BlinkStruct} {s s' : Fish} (hrun : Transition.run (step n) (start vmem) es₁ = some s)
    (hcall : s.call n (.add user) = some (0, s'))
    (hfree : ∀ i, (s.blinkArray i).location ≠ user.location)
    (hadd : Transition.AllEvents (step n) AddsUsed (start vmem) (es₁ ++ .add user :: es₂))
    (hspare : ∀ e ∈ es₂, e.Spares user.location) :
    ∃ t, Transition.run (step n) s' es₂ = some t ∧ t.vmem (2 * user.location.toNat) =
      if es₂.countP Event.isTick % (span user.onLength + span user.offLength) <
        span user.onLength then user.onChar else user.offChar := by
  obtain ⟨hadd₁, hadd'⟩ := (Transition.allEvents_append hrun).1 hadd
  have hs : s.Represents := hadd₁.invariant
    (fun s e s' hs he h => ((obeys_and_represents_iff hn s e hs).2 he).2 s' h)
    (represents_start vmem) hrun
  have hstep : s.step n (.add user) = some s' := by
    rw [step, hcall]
    rfl
  have hs' := ((obeys_and_represents_iff hn s _ hs).2 hadd'.1).2 s' hstep
  obtain ⟨i, hi, rfl⟩ := call_add hcall rfl
  have hsole := sole_added hi hfree hs'
  obtain ⟨t, ht⟩ := exists_run hn hs' (hadd'.2 _ hstep)
  have hnode := added_self (s := s) (i := i) user
  have hspare' : ∀ e ∈ es₂, e.Spares ((s.added user i).blinkArray i).location := by
    rw [hnode]
    exact hspare
  have hvmem := hsole.vmem_run hn (hadd'.2 _ hstep) hspare' ht
  rw [hnode, glyph_added, cell_iterate_new] at hvmem
  exact ⟨t, ht, hvmem⟩

theorem spares_replicate (location : UInt16) (k : ℕ) :
    ∀ e ∈ List.replicate k Event.tasklet, e.Spares location := by
  intro e he
  rw [List.eq_of_mem_replicate he]
  trivial

theorem allEvents_replicate (k : ℕ) (s : Fish) :
    Transition.AllEvents (step n) AddsUsed s (List.replicate k .tasklet) := by
  refine allEvents_addsUsed (fun e he user huser => ?_) s
  rw [List.eq_of_mem_replicate he] at huser
  cases huser

theorem exists_added (user : BlinkStruct) (hlt : user.location < 80 * 25)
    (hj : (s.blinkArray j).location = 0) :
    ∃ i, s.mp1Malloc = some i ∧ s.mp1IoctlAdd user = (0, s.added user i) := by
  rcases add_cases s user with ⟨hfail, -⟩ | ⟨i, -, hi, hadded⟩
  · exact absurd ⟨hlt, fun h => mp1Malloc_eq_none_iff.1 h j hj⟩ hfail
  · exact ⟨i, hi, hadded⟩

theorem addsUsed_letters (s : Fish) : s.AddsUsed (.add letters) := by
  rintro user ⟨⟩ h0
  exact absurd h0 (by decide)

/-- `'M'` stands for the letters after eight ticks. -/
theorem blink_period_letters : ∃ s' t, (start fun _ => 0).call 2001 (.add letters) = some (0, s') ∧
    Transition.run (step 2001) s' (List.replicate 8 .tasklet) = some t ∧ t.vmem 160 = 77 := by
  have h80 : (0 : UInt16) ≠ 80 := by decide
  have hrun : Transition.run (step 2001) (start fun _ => 0) [] = some (start fun _ => 0) := rfl
  obtain ⟨i, -, hcall⟩ := exists_added (s := start fun _ => 0) (j := 0) letters (by decide) rfl
  obtain ⟨t, ht, hvmem⟩ := blink_period (by omega) _ hrun (congrArg some hcall) (fun _ => h80)
    ⟨addsUsed_letters _, fun _ _ => allEvents_replicate 8 _⟩ (spares_replicate _ _)
  exact ⟨_, t, congrArg some hcall, ht, hvmem⟩

/-- `mp1_ioctl_sync` finds the nodes that are alone in their locations. -/
theorem step_sync (hn : 80 * 25 < n) {arg : Word} {s' : Fish} (hi : s.Sole i) (hj : s.Sole j)
    (hfirst : (s.blinkArray i).location = (arg >>> 16).toUInt16)
    (hsecond : (s.blinkArray j).location = (arg &&& 0xFFFF).toUInt16)
    (hstep : s.step n (.sync arg) = some s') : s' = s.synced i j := by
  have honly : ∀ {i k : Slot}, s.Sole i →
      (s.blinkArray k).location = (s.blinkArray i).location → k = i := by
    intro i k hi hk
    by_contra hne
    exact hi.only k hne hk
  obtain ⟨l, hl, -, hmem⟩ := hi.represents
  obtain ⟨⟨ret, s'⟩, hcall, rfl⟩ := Option.map_eq_some_iff.1 hstep
  rcases sync_cases hn hl arg with ⟨hmiss, -⟩ | ⟨i', -, j', -, hi', hj', hsync⟩
  · exact absurd ⟨⟨i, (hmem i).2 hi.used, hfirst⟩, j, (hmem j).2 hj.used, hsecond⟩ hmiss
  · cases hsync.symm.trans hcall
    rw [honly hi (hi'.trans hfirst.symm), honly hj (hj'.trans hsecond.symm)]

theorem glyph_synced (s : Fish) (i j : Slot) : (s.synced i j).glyph j =
    ⟨{ s.blinkArray j with
        onLength := (s.blinkArray i).onLength
        offLength := (s.blinkArray i).offLength
        countdown := (s.blinkArray i).countdown
        status := (s.blinkArray i).status
        next := none }, (s.blinkArray j).offChar⟩ := by
  rw [glyph, synced_self]
  exact congrArg _ ((poke_self _ _ _).trans (syncChar_eq _))

/-- `mp1_ioctl_sync` of two nodes. A character that it puts wrong is put right by the toggle, and
from then on the second node blinks with the first, whatever else happens, until a call names one
of their locations. -/
theorem sync_heals (hn : 80 * 25 < n) {es : List Event} {arg : Word} {s s' : Fish}
    (hi : s.Sole i) (hj : s.Sole j) (hij : i ≠ j)
    (hfirst : (s.blinkArray i).location = (arg >>> 16).toUInt16)
    (hsecond : (s.blinkArray j).location = (arg &&& 0xFFFF).toUInt16)
    (hstep : s.step n (.sync arg) = some s')
    (hadd : Transition.AllEvents (step n) AddsUsed s' es)
    (hspare : ∀ e ∈ es, e.Spares (s.blinkArray i).location ∧ e.Spares (s.blinkArray j).location) :
    ∃ t, Transition.run (step n) s' es = some t ∧
      (t.blinkArray j).wave = (t.blinkArray i).wave ∧
      t.vmem (2 * (s.blinkArray j).location.toNat) =
        if es.countP Event.isTick < span (s.blinkArray i).countdown then (s.blinkArray j).offChar
        else if (t.blinkArray i).wave.up then (s.blinkArray j).onChar
        else (s.blinkArray j).offChar := by
  obtain rfl := step_sync hn hi hj hfirst hsecond hstep
  have hkeeps := Keeps.synced s i j
  obtain ⟨hi', higlyph⟩ := hi.synced (j := i) hij
  have hj' := hj.keeps hkeeps
  obtain ⟨t, ht⟩ := exists_run hn hi'.represents hadd
  have hispare : ∀ e ∈ es, e.Spares ((s.synced i j).blinkArray i).location := by
    rw [hkeeps.location]
    exact fun e he => (hspare e he).1
  have hjspare : ∀ e ∈ es, e.Spares ((s.synced i j).blinkArray j).location := by
    rw [hkeeps.location]
    exact fun e he => (hspare e he).2
  obtain ⟨-, hirun⟩ := hi'.glyph_run hn hadd hispare ht
  obtain ⟨-, hjrun⟩ := hj'.glyph_run hn hadd hjspare ht
  have hwave : (t.glyph j).node.wave = (t.glyph i).node.wave := by
    rw [hirun, hjrun, higlyph, glyph_synced, Glyph.wave_iterate, Glyph.wave_iterate]
    rfl
  have hvmem := hj'.vmem_run hn hadd hjspare ht
  rw [hkeeps.location, ← hjrun] at hvmem
  refine ⟨t, ht, hwave, ?_⟩
  rw [hvmem]
  by_cases hlt : es.countP Event.isTick < span (s.blinkArray i).countdown
  · rw [if_pos hlt, hjrun, glyph_synced]
    exact Glyph.cell_iterate_of_lt hlt
  · have hagrees : (t.glyph j).Agrees := by
      rw [hjrun, glyph_synced]
      exact Glyph.agrees_iterate (Nat.not_lt.1 hlt)
    obtain ⟨countdown, status, hnode⟩ :=
      ((s.synced i j).glyph j).exists_iterate (es.countP Event.isTick)
    rw [← hjrun, glyph_synced] at hnode
    have hon : (t.glyph j).node.onChar = (s.blinkArray j).onChar := by rw [hnode]
    have hoff : (t.glyph j).node.offChar = (s.blinkArray j).offChar := by rw [hnode]
    rw [if_neg hlt, hagrees, BlinkStruct.shownChar_eq, hwave, hon, hoff]
    rfl

/-- `'F'` and `'P'` in the second cell of row 1. -/
def others : BlinkStruct :=
  ⟨81, 70, 80, 3, 4, 0, 0, none⟩

/-- The two are put on the list. -/
theorem exists_sole_letters : ∃ s i j, Sole s i ∧ Sole s j ∧ i ≠ j ∧
    (s.blinkArray i).location = 80 ∧ (s.blinkArray i).countdown = 7 ∧
    s.blinkArray j = { others with status := 1, countdown := 3, next := some i } := by
  obtain ⟨i, hi, hcall⟩ := exists_added (s := start fun _ => 0) (j := 0) letters (by decide) rfl
  have hone : ((start fun _ => 0).added letters i).Represents :=
    ((obeys_and_represents_iff (n := 2001) (by omega) _ _ (represents_start _)).2
      (addsUsed_letters _)).2 _ (by rw [step, call, hcall]; rfl)
  have hnode : ((start fun _ => 0).added letters i).blinkArray i =
    { letters with status := 1, countdown := 7, next := none } := added_self letters
  have hzero : ∀ k, k ≠ i → ((start fun _ => 0).added letters i).blinkArray k = .zero :=
    fun k hk => added_of_ne letters hk
  have hsole : ((start fun _ => 0).added letters i).Sole i := by
    refine sole_added hi (fun k => ?_) hone
    have h80 : (0 : UInt16) ≠ 80 := by decide
    exact h80
  generalize hs : (start fun _ => 0).added letters i = s at hone hnode hzero hsole
  obtain ⟨k, hk⟩ := exists_ne i
  obtain ⟨j, hj, hcall'⟩ := exists_added (s := s) (j := k) others (by decide)
    (congrArg BlinkStruct.location (hzero k hk))
  have hadd : s.AddsUsed (.add others) := by
    rintro user ⟨⟩ h0
    exact absurd h0 (by decide)
  have htwo : (s.added others j).Represents :=
    ((obeys_and_represents_iff (n := 2001) (by omega) _ _ hone).2 hadd).2 _
      (by rw [step, call, hcall']; rfl)
  have hfree : ∀ k, (s.blinkArray k).location ≠ others.location := by
    intro k
    rcases Decidable.em (k = i) with rfl | hk
    · rw [hnode]
      decide
    · rw [hzero k hk]
      decide
  have hij : i ≠ j := by
    rintro rfl
    exact hsole.used (location_of_mp1Malloc hj)
  have hspare : others.location ≠ (s.blinkArray i).location := (hfree i).symm
  refine ⟨s.added others j, i, j, (hsole.added hj htwo hspare).1, sole_added hj hfree htwo, hij,
    ?_, ?_, ?_⟩
  · rw [added_of_ne others hij, hnode]
    rfl
  · rw [added_of_ne others hij, hnode]
  · rw [added_self, ← hs]
    rfl

/-- `sync` puts `'P'` for `'F'`, and after thirteen ticks the two are on together. -/
theorem sync_heals_letters : ∃ (s s' t : Fish) (i j : Slot),
    s.step 2001 (.sync 0x00500051) = some s' ∧
      Transition.run (step 2001) s' (List.replicate 13 .tasklet) = some t ∧
      (t.blinkArray j).wave = (t.blinkArray i).wave ∧
      t.vmem 162 = if (t.blinkArray i).wave.up then 70 else 80 := by
  obtain ⟨s, i, j, hi, hj, hij, hiloc, hspan, hnode⟩ := exists_sole_letters
  have hjloc : (s.blinkArray j).location = 81 := by
    rw [hnode]
    rfl
  have hadd : s.AddsUsed (.sync 0x00500051) := fun user h => by cases h
  obtain ⟨s', hstep, -⟩ := exists_step (n := 2001) (by omega) hi.represents hadd
  have hspare : ∀ e ∈ List.replicate 13 Event.tasklet,
      e.Spares (s.blinkArray i).location ∧ e.Spares (s.blinkArray j).location :=
    fun e he => ⟨spares_replicate _ 13 e he, spares_replicate _ 13 e he⟩
  obtain ⟨t, ht, hwave, hvmem⟩ := sync_heals (by omega) hi hj hij (by rw [hiloc]; decide)
    (by rw [hjloc]; decide) hstep (allEvents_replicate 13 s') hspare
  refine ⟨s, s', t, i, j, hstep, ht, hwave, ?_⟩
  rw [hjloc, hspan, hnode] at hvmem
  exact hvmem

end Fish

end MpOS
