import MpOS.Frame

/-!
# Modifier keys

The decoder of `getScancode` against a record of the keys that are held down. The cascade
tests a shift or Caps Lock code only in some values of `key_status`, and what no
branch takes goes on to the key map. So the low bit of `key_status` forgets that there
are two shift keys, Caps Lock is dropped while shift is down and toggles on every
repeat, and a repeated press of left shift is the code of a character.

`modifiers_iff` says which codes go wrong, and that no others do.
-/

namespace MpOS

open Transition

/-- `LEFT_SHIFT_PRESS`. -/
def leftShiftPress : Byte :=
  0x2A

/-- `RIGHT_SHIFT_PRESS`. -/
def rightShiftPress : Byte :=
  0x36

/-- `LEFT_SHIFT_RELEASE`. -/
def leftShiftRelease : Byte :=
  0xAA

/-- `RIGHT_SHIFT_RELEASE`. -/
def rightShiftRelease : Byte :=
  0xB6

/-- The code of a release of Caps Lock, which the decoder has no name for. -/
def capsLockRelease : Byte :=
  0xBA

/-- A code of a shift, Caps Lock, Ctrl or Alt key. -/
def IsModifier (code : Byte) : Prop :=
  code ∈ [leftShiftPress, rightShiftPress, leftShiftRelease, rightShiftRelease, capsLockPress,
    capsLockRelease, ctrlPress, ctrlRelease, leftAltPress, leftAltRelease]

instance (code : Byte) : Decidable (IsModifier code) :=
  inferInstanceAs (Decidable (_ ∈ _))

/-! ## The keys that are held -/

/-- The keys that are held down, and whether Caps Lock was pressed an odd number of times. -/
structure Held where
  leftShift : Bool
  rightShift : Bool
  capsLock : Bool
  ctrl : Bool
  alt : Bool
  capsOn : Bool

namespace Held

/-- No key is held. -/
def none : Held :=
  ⟨false, false, false, false, false, false⟩

/-- A shift key is held. -/
def shift (h : Held) : Bool :=
  h.leftShift || h.rightShift

/-- Whether a key is held after a code. -/
def after (press release code : Byte) (held : Bool) : Bool :=
  if code = press then true else if code = release then false else held

/-- The keys after a code. A press of Caps Lock while it is held is a repeat. -/
def record (code : Byte) (h : Held) : Held where
  leftShift := after leftShiftPress leftShiftRelease code h.leftShift
  rightShift := after rightShiftPress rightShiftRelease code h.rightShift
  capsLock := after capsLockPress capsLockRelease code h.capsLock
  ctrl := after ctrlPress ctrlRelease code h.ctrl
  alt := after leftAltPress leftAltRelease code h.alt
  capsOn := if code = capsLockPress ∧ h.capsLock = false then !h.capsOn else h.capsOn

/-- The codes the decoder is right about : left shift while no shift is held, a release of one
shift key while the other is not held, and Caps Lock pressed anew without shift, or
repeated with it. -/
def Plain (h : Held) (code : Byte) : Prop :=
  (code = leftShiftPress → h.shift = false) ∧ (code = leftShiftRelease → h.rightShift = false) ∧
    (code = rightShiftRelease → h.leftShift = false) ∧
      (code = capsLockPress → h.shift = h.capsLock)

instance (h : Held) (code : Byte) : Decidable (h.Plain code) :=
  inferInstanceAs (Decidable (_ ∧ _))

end Held

/-! ## The decoder -/

/-- `key_status`, `key_flag` and `terminal_flag`. -/
structure Decoder where
  keyStatus : ℕ
  keyFlag : ℕ
  terminalFlag : ℕ
  deriving DecidableEq

/-- What the branches of `getScancode` do to the decoder. -/
def Decoder.next (code : Byte) (d : Decoder) : Decoder :=
  if d.keyStatus = 0 ∧ shiftPress code then { d with keyStatus := 1 }
  else if d.keyStatus = 1 ∧ shiftRelease code then { d with keyStatus := 0 }
  else if d.keyStatus = 0 ∧ code = capsLockPress then { d with keyStatus := 2 }
  else if d.keyStatus = 2 ∧ code = capsLockPress then { d with keyStatus := 0 }
  else if d.keyStatus = 2 ∧ shiftPress code then { d with keyStatus := 3 }
  else if d.keyStatus = 3 ∧ shiftRelease code then { d with keyStatus := 2 }
  else if code = ctrlPress then { d with keyFlag := 1 }
  else if code = ctrlRelease then { d with keyFlag := 0 }
  else if code = leftAltPress then { d with terminalFlag := 1 }
  else if code = leftAltRelease then { d with terminalFlag := 0 }
  else d

/-- The decoder that knows which keys are held : bit 0 of `key_status` is shift, bit 1 is Caps
Lock. -/
def Held.decoder (h : Held) : Decoder :=
  ⟨h.shift.toNat + 2 * h.capsOn.toNat, h.ctrl.toNat, h.alt.toNat⟩

namespace Kernel

/-- The decoder of the keyboard. -/
def decoder (k : Kernel) : Decoder :=
  ⟨k.keyboard.keyStatus, k.keyboard.keyFlag, k.keyboard.terminalFlag⟩

theorem decoder_of_keyboard {k k' : Kernel} (h : k'.keyboard = k.keyboard) :
    k'.decoder = k.decoder := by
  rw [decoder, decoder, h]

theorem decoder_switchVid (target : Terminal) (k : Kernel) :
    (k.switchVid target).decoder = k.decoder := by
  unfold switchVid
  split_ifs <;> rfl

theorem decoder_deleteKey (k : Kernel) : k.deleteKey.decoder = k.decoder := by
  have h := decoder_of_keyboard (onlyScreen_deleteChar k).keyboard
  unfold deleteKey
  split_ifs
  · exact h
  · exact h
  · exact h
  · rfl

theorem decoder_getScancode (code : Byte) (k : Kernel) :
    (k.getScancode code).2.decoder = k.decoder.next code := by
  have hclear := decoder_of_keyboard (onlyScreen_keyClearScreen k).keyboard
  unfold getScancode Decoder.next
  simp only [apply_ite Prod.snd, apply_ite decoder, decoder_switchVid, decoder_deleteKey, hclear,
    ite_self]
  rfl

theorem decoder_storeKey (c : Byte) (k : Kernel) : (k.storeKey c).decoder = k.decoder := by
  have h := decoder_of_keyboard (onlyScreen_putcKeyboard c k).keyboard
  unfold storeKey
  split_ifs
  · exact h
  · exact h
  · exact h
  · rfl

theorem decoder_interruptKeyboard (code : Byte) (k : Kernel) :
    (k.interruptKeyboard code).decoder = k.decoder.next code := by
  have hchar : (k.getchar code).2.decoder = k.decoder.next code := decoder_getScancode code k
  have hflag : ∀ (k : Kernel) (t : Terminal) (n : ℕ),
      (k.setFlagKeyboard t n).decoder = k.decoder := fun _ _ _ => rfl
  rw [interruptKeyboard_eq, ← hchar]
  simp only [finishKey, apply_ite decoder, hflag, decoder_storeKey, ite_self]

end Kernel

namespace Kernel

theorem length_keyPos : keyPos.length = 4 :=
  rfl

/-- Of the modifiers' codes only the press of left shift has a character in the key map. -/
theorem keyPos_modifier {code : Byte} (hm : IsModifier code) (hne : code ≠ leftShiftPress)
    (row : ℕ) : (keyPos.getD row []).getD code.toNat 0 = 0 := by
  have hcol : ∀ row : Fin 4, (keyPos.getD row []).getD code.toNat 0 = 0 := by
    simp only [IsModifier, List.mem_cons, List.not_mem_nil, or_false] at hm
    rcases hm with rfl | rfl | rfl | rfl | rfl | rfl | rfl | rfl | rfl | rfl
    · exact absurd rfl hne
    all_goals decide
  rcases Nat.lt_or_ge row 4 with hlt | hge
  · exact hcol ⟨row, hlt⟩
  · rw [List.getD_eq_default keyPos _ hge]
    rfl

theorem keyPos_leftShift {row : ℕ} (hrow : row = 1 ∨ row = 3) :
    (keyPos.getD row []).getD leftShiftPress.toNat 0 = 124 := by
  rcases hrow with rfl | rfl <;> decide

/-- It is looked up where the decoder has no branch for it. -/
theorem getScancode_leftShift (k : Kernel) : k.getScancode leftShiftPress =
    if k.keyboard.keyStatus = 0 then (0, k.setKeyStatus 1)
    else if k.keyboard.keyStatus = 2 then (0, k.setKeyStatus 3)
    else (leftShiftPress, k) := by
  have hshift : shiftPress leftShiftPress := Or.inl rfl
  have hrelease : ¬shiftRelease leftShiftPress := by decide
  have hcode : leftShiftPress ≠ capsLockPress ∧ leftShiftPress ≠ ctrlPress ∧
      leftShiftPress ≠ ctrlRelease ∧ leftShiftPress ≠ leftAltPress ∧
      leftShiftPress ≠ leftAltRelease ∧ leftShiftPress ≠ f1Press ∧ leftShiftPress ≠ f2Press ∧
      leftShiftPress ≠ f3Press ∧ leftShiftPress ≠ lPress ∧ leftShiftPress ≠ deletePress := by
    decide
  have hkey : leftShiftPress < keyPressBoundary := by decide
  simp only [getScancode, hshift, hrelease, hcode, hkey, and_true, and_false, if_false, if_true]

theorem getchar_eq {k k' : Kernel} {code c : Byte} (h : k.getScancode code = (c, k')) :
    (k.getchar code).1 = (keyPos.getD k'.keyboard.keyStatus []).getD c.toNat 0 := by
  rw [getchar, h]

theorem getScancode_passes (k : Kernel) (code : Byte) :
    (∃ k', k.getScancode code = (0, k')) ∨ k.getScancode code = (code, k) := by
  have h := k.getScancode_cases code
  generalize k.getScancode code = r at h ⊢
  cases h with
  | key _ _ => exact Or.inr rfl
  | _ => exact Or.inl ⟨_, rfl⟩

/-- A modifier's code types no character, but for a repeat of left shift. -/
theorem getchar_modifier (k : Kernel) {code : Byte} (hm : IsModifier code) :
    (k.getchar code).1 = 0 ↔
      ¬(code = leftShiftPress ∧ (k.keyboard.keyStatus = 1 ∨ k.keyboard.keyStatus = 3)) := by
  rcases eq_or_ne code leftShiftPress with rfl | hne
  · have hscan := k.getScancode_leftShift
    split_ifs at hscan with h₀ h₂
    · exact iff_of_true ((getchar_eq hscan).trans (keyPos_zero _)) (by omega)
    · exact iff_of_true ((getchar_eq hscan).trans (keyPos_zero _)) (by omega)
    · rw [getchar_eq hscan]
      by_cases hodd : k.keyboard.keyStatus = 1 ∨ k.keyboard.keyStatus = 3
      · rw [keyPos_leftShift hodd]
        exact iff_of_false (by decide) fun h => h ⟨rfl, hodd⟩
      · rw [List.getD_eq_default keyPos _ (by rw [length_keyPos]; omega)]
        exact iff_of_true rfl fun h => hodd h.2
  · refine iff_of_true ?_ fun h => hne h.1
    rcases k.getScancode_passes code with ⟨k', hscan⟩ | hscan
    · exact (getchar_eq hscan).trans (keyPos_zero _)
    · exact (getchar_eq hscan).trans (keyPos_modifier hm hne _)

end Kernel

/-! ## Runs -/

/-- A code from the port. -/
def keyStep (k : Kernel) (code : Byte) : Option Kernel :=
  some (k.interruptKeyboard code)

/-- The keys that are held, along a run. -/
def recordKey (_ : Kernel) (code : Byte) (h : Held) : Held :=
  h.record code

/-- The decoder knows which keys are held. -/
def Tracks (s : Kernel × Held) : Prop :=
  s.1.decoder = s.2.decoder

/-- A modifier's code types no character. -/
def Silent (s : Kernel × Held) (code : Byte) : Prop :=
  IsModifier code → (s.1.getchar code).1 = 0

namespace Held

theorem not_modifier_iff {code : Byte} : ¬IsModifier code ↔
    code ≠ leftShiftPress ∧ code ≠ rightShiftPress ∧ code ≠ leftShiftRelease ∧
      code ≠ rightShiftRelease ∧ code ≠ capsLockPress ∧ code ≠ capsLockRelease ∧
      code ≠ ctrlPress ∧ code ≠ ctrlRelease ∧ code ≠ leftAltPress ∧ code ≠ leftAltRelease := by
  simp only [IsModifier, List.mem_cons, List.not_mem_nil, or_false, not_or, ne_eq]

/-- Other codes change nothing. -/
theorem record_of_not_modifier {code : Byte} (hm : ¬IsModifier code) (h : Held) :
    h.record code = h ∧ h.decoder.next code = h.decoder ∧ h.Plain code := by
  have hne := not_modifier_iff.1 hm
  have hpress : ¬shiftPress code := fun hc => hc.elim hne.1 hne.2.1
  have hrelease : ¬shiftRelease code := fun hc => hc.elim hne.2.2.1 hne.2.2.2.1
  refine ⟨?_, ?_, ?_⟩
  · simp only [record, after, hne, false_and, if_false]
  · simp only [Decoder.next, hpress, hrelease, hne, and_false, if_false]
  · simp only [Plain, hne, false_implies, and_self]

/-- A modifier's code keeps the decoder right, and has no character, exactly if it is plain. -/
theorem next_iff {code : Byte} (hm : IsModifier code) (h : Held) :
    ¬(code = leftShiftPress ∧ (h.decoder.keyStatus = 1 ∨ h.decoder.keyStatus = 3)) ∧
      h.decoder.next code = (h.record code).decoder ↔ h.Plain code := by
  obtain ⟨left, right, caps, ctrl, alt, on⟩ := h
  simp only [IsModifier, List.mem_cons, List.not_mem_nil, or_false] at hm
  rcases hm with rfl | rfl | rfl | rfl | rfl | rfl | rfl | rfl | rfl | rfl
  all_goals
    revert left right caps ctrl alt on
    decide

end Held

/-- One code. -/
theorem tracks_step {s : Kernel × Held} (h : Tracks s) (code : Byte) :
    Silent s code ∧ Tracks (s.1.interruptKeyboard code, s.2.record code) ↔ s.2.Plain code := by
  obtain ⟨k, held⟩ := s
  have hstatus : k.keyboard.keyStatus = held.decoder.keyStatus := congrArg Decoder.keyStatus h
  have hd : k.decoder = held.decoder := h
  rw [Tracks, Kernel.decoder_interruptKeyboard, hd, Silent]
  by_cases hm : IsModifier code
  · rw [forall_prop_of_true hm, k.getchar_modifier hm, hstatus]
    exact Held.next_iff hm held
  · obtain ⟨hrecord, hnext, hplain⟩ := Held.record_of_not_modifier hm held
    rw [forall_prop_of_false hm, hrecord, hnext]
    exact iff_of_true ⟨trivial, rfl⟩ hplain

theorem tracks_keyboardInit (k : Kernel) : Tracks (k.keyboardInit, .none) := by
  have hfd : ∀ (k : Kernel) (fd : ℕ) (e : Fd), (k.setCurFd fd e).decoder = k.decoder := by
    intro k fd e
    unfold Kernel.setCurFd Kernel.setFd
    split <;> rfl
  unfold Tracks Kernel.keyboardInit
  simp only [hfd]
  rfl

theorem allStates_tracks_iff (k : Kernel) (codes : List Byte) :
    AllStates (track keyStep recordKey) Tracks (k.keyboardInit, .none) codes ∧
        AllEvents (track keyStep recordKey) Silent (k.keyboardInit, .none) codes ↔
      AllEvents (track keyStep recordKey) (fun s code => s.2.Plain code) (k.keyboardInit, .none)
        codes := by
  refine allStates_and_allEvents_iff (fun s code h => ?_) (tracks_keyboardInit k)
  rw [← tracks_step h]
  refine and_congr_right fun _ => ?_
  simp only [track, keyStep, recordKey, Option.map_some, Option.some.injEq, forall_eq']

/-- From `keyboard_init` on the decoder is right in every state, and the modifiers pressed and
released type no character, exactly if all codes of the run are plain. In a state as
such all modifiers but left shift type no character, and it does where the decoder
takes shift to be held. -/
theorem modifiers_iff (k : Kernel) (codes : List Byte) :
    (AllStates (track keyStep recordKey) Tracks (k.keyboardInit, .none) codes ∧
        AllEvents (track keyStep recordKey) Silent (k.keyboardInit, .none) codes ↔
      AllEvents (track keyStep recordKey) (fun s code => s.2.Plain code)
        (k.keyboardInit, .none) codes) ∧
    ∀ (k' : Kernel) (code : Byte), IsModifier code → ((k'.getchar code).1 = 0 ↔
      ¬(code = leftShiftPress ∧ (k'.keyboard.keyStatus = 1 ∨ k'.keyboard.keyStatus = 3))) :=
  ⟨allStates_tracks_iff k codes, fun k' _ hm => k'.getchar_modifier hm⟩

/-- Both shift keys with one released, Caps Lock repeated, Caps Lock under shift, and left shift
repeated. -/
theorem not_modifiers : ¬∃ codes ∈ [[leftShiftPress, rightShiftPress, leftShiftRelease],
    [capsLockPress, capsLockPress], [rightShiftPress, capsLockPress],
    [leftShiftPress, leftShiftPress]],
      AllStates (track keyStep recordKey) Tracks (Kernel.zero.keyboardInit, .none) codes ∧
        AllEvents (track keyStep recordKey) Silent (Kernel.zero.keyboardInit, .none) codes := by
  rintro ⟨codes, hcodes, hall⟩
  have hplain := (allStates_tracks_iff Kernel.zero codes).1 hall
  simp only [List.mem_cons, List.not_mem_nil, or_false] at hcodes
  rcases hcodes with rfl | rfl | rfl | rfl
  · exact absurd ((hplain.2 _ rfl).2 _ rfl).1 (by decide)
  · exact absurd (hplain.2 _ rfl).1 (by decide)
  · exact absurd (hplain.2 _ rfl).1 (by decide)
  · exact absurd (hplain.2 _ rfl).1 (by decide)

end MpOS
