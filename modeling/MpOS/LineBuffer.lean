import MpOS.DescriptorTable

/-!
# Line buffers

The keyboard handler, the backspace path and the reader each treat the three line
buffers in three written-out branches. `Lines` is what the branches have in common :
every buffer holds a list of characters, padded with zeros, and its counter is the
length of the list. A key event changes the list of the visible terminal as `typed`
says, a read empties it, and nothing else touches the buffers.

Nothing bounds the lists. The handler stores before it looks at the counters, and what
it then does is raise the flag of the visible terminal, whichever buffer is full.
-/

namespace MpOS

open ZeroBuffer

namespace Kernel

/-- `terminal1_buffer`, `terminal2_buffer` and `terminal3_buffer`, by terminal. -/
def lineBuffer (k : Kernel) (t : Terminal) : ℕ → Byte :=
  if t = 0 then k.keyboard.terminal1Buffer
  else if t = 1 then k.keyboard.terminal2Buffer
  else k.keyboard.terminal3Buffer

/-- The line buffers hold the lists. -/
structure Lines (k : Kernel) (l : Terminal → List Byte) : Prop where
  holds : ∀ t, Holds (k.lineBuffer t) bufferSize (l t)
  counter : ∀ t, k.counter t = (l t).length
  nul : ∀ t, 0 ∉ l t

/-- The buffers, the counters and the flags are as before. -/
structure SameLines (k k' : Kernel) : Prop where
  lineBuffer : k'.lineBuffer = k.lineBuffer
  counter : k'.counter = k.counter
  flagKeyboard : k'.keyboard.flagKeyboard = k.keyboard.flagKeyboard

theorem SameLines.of_eq {k k' : Kernel} (h : k'.keyboard = k.keyboard) : SameLines k k' := by
  constructor
  · funext t
    simp only [Kernel.lineBuffer, h]
  · funext t
    simp only [Kernel.counter, h]
  · rw [h]

theorem SameLines.lines {k k' : Kernel} (h : SameLines k k') {l : Terminal → List Byte}
    (hl : k.Lines l) : k'.Lines l where
  holds t := by
    rw [h.lineBuffer]
    exact hl.holds t
  counter t := by
    rw [h.counter]
    exact hl.counter t
  nul := hl.nul

/-! ## The three branches -/

theorem terminal_cases (t : Terminal) : t = 0 ∨ t = 1 ∨ t = 2 := by
  revert t
  decide

/-- What one branch does to its line. -/
theorem lineBuffer_storeKey (k : Kernel) (c : Byte) :
    (k.storeKey c).lineBuffer = Function.update k.lineBuffer k.screen.visibleScreen
        (Function.update (k.lineBuffer k.screen.visibleScreen)
          (k.counter k.screen.visibleScreen) c) ∧
      (k.storeKey c).counter = Function.update k.counter k.screen.visibleScreen
        (k.counter k.screen.visibleScreen + 1) ∧
      (k.storeKey c).keyboard.flagKeyboard = k.keyboard.flagKeyboard := by
  have hk := (onlyScreen_putcKeyboard c k).keyboard
  refine ⟨?_, ?_, ?_⟩
  · funext t
    rcases terminal_cases k.screen.visibleScreen with hv | hv | hv <;>
      rcases terminal_cases t with rfl | rfl | rfl <;>
        simp [storeKey, hv, lineBuffer, counter, setLine1, setLine2, setLine3, hk]
  · funext t
    rcases terminal_cases k.screen.visibleScreen with hv | hv | hv <;>
      rcases terminal_cases t with rfl | rfl | rfl <;>
        simp [storeKey, hv, counter, setLine1, setLine2, setLine3, hk]
  · rcases terminal_cases k.screen.visibleScreen with hv | hv | hv <;>
      simp [storeKey, hv, setLine1, setLine2, setLine3, hk]

theorem lineBuffer_deleteKey (k : Kernel) (hc : 0 < k.counter k.screen.visibleScreen) :
    k.deleteKey.lineBuffer = Function.update k.lineBuffer k.screen.visibleScreen
        (Function.update (k.lineBuffer k.screen.visibleScreen)
          (k.counter k.screen.visibleScreen - 1) 0) ∧
      k.deleteKey.counter = Function.update k.counter k.screen.visibleScreen
        (k.counter k.screen.visibleScreen - 1) := by
  have hk := (onlyScreen_deleteChar k).keyboard
  refine ⟨?_, ?_⟩
  · funext t
    rcases terminal_cases k.screen.visibleScreen with hv | hv | hv <;>
      rcases terminal_cases t with rfl | rfl | rfl <;>
        simp_all [deleteKey, lineBuffer, counter, setLine1, setLine2, setLine3]
  · funext t
    rcases terminal_cases k.screen.visibleScreen with hv | hv | hv <;>
      rcases terminal_cases t with rfl | rfl | rfl <;>
        simp_all [deleteKey, counter, setLine1, setLine2, setLine3]

theorem flagKeyboard_deleteKey (k : Kernel) :
    k.deleteKey.keyboard.flagKeyboard = k.keyboard.flagKeyboard := by
  have hk := (onlyScreen_deleteChar k).keyboard
  unfold deleteKey
  split_ifs <;> simp [setLine1, setLine2, setLine3, hk]

theorem deleteKey_of_empty (k : Kernel) (hc : k.counter k.screen.visibleScreen = 0) :
    k.deleteKey = k := by
  unfold deleteKey
  rcases terminal_cases k.screen.visibleScreen with hv | hv | hv <;> simp_all [counter]

/-- The reader's branch, where it has its terminal and the flag is up. -/
theorem keyboardRead_eq {k : Kernel} {fd : ℕ} (hf : (k.curFd fd).flags ≠ 0) {r : ReadResult}
    (h : k.keyboardRead fd = some r) :
    (k.proc.pcb k.cur.curPid).screenIdx = k.screen.visibleScreen.word ∧
      k.keyboard.flagKeyboard k.screen.visibleScreen ≠ 0 ∧
      ∃ n : ℕ, strlen bufferSize (k.lineBuffer k.screen.visibleScreen) = some n ∧
        r.ret = n ∧ r.stored = copyLine (k.lineBuffer k.screen.visibleScreen) n ∧
        r.kernel.lineBuffer = Function.update k.lineBuffer k.screen.visibleScreen
          (zeroLine (k.lineBuffer k.screen.visibleScreen)) ∧
        r.kernel.counter = Function.update k.counter k.screen.visibleScreen 0 ∧
        r.kernel.keyboard.flagKeyboard =
          Function.update k.keyboard.flagKeyboard k.screen.visibleScreen 0 ∧
        r.kernel.screen = k.screen := by
  simp only [Kernel.keyboardRead, if_neg hf] at h
  split at h
  · simp at h
  · rename_i hwait
    simp only [not_or, not_not, ne_eq] at hwait
    refine ⟨hwait.1, hwait.2, ?_⟩
    simp only [setFlagKeyboard] at h
    rcases terminal_cases k.screen.visibleScreen with hv | hv | hv
    all_goals
      simp only [hv, if_true, Fin.reduceEq, if_false] at h ⊢
      obtain ⟨n, hn, rfl⟩ := Option.map_eq_some_iff.1 h
      refine ⟨n, hn, rfl, rfl, ?_, ?_, ?_, rfl⟩
      · funext t
        rcases terminal_cases t with rfl | rfl | rfl <;> rfl
      · funext t
        rcases terminal_cases t with rfl | rfl | rfl <;> rfl
      · rfl

/-- The reader goes on where it has its terminal, the flag is up and the line ends. -/
theorem isSome_keyboardRead {k : Kernel} {fd : ℕ}
    (hidx : (k.proc.pcb k.cur.curPid).screenIdx = k.screen.visibleScreen.word)
    (hflag : k.keyboard.flagKeyboard k.screen.visibleScreen ≠ 0)
    (hlen : (strlen bufferSize (k.lineBuffer k.screen.visibleScreen)).isSome) :
    (k.keyboardRead fd).isSome := by
  have hwait : ¬((k.proc.pcb k.cur.curPid).screenIdx ≠ k.screen.visibleScreen.word ∨
      k.keyboard.flagKeyboard k.screen.visibleScreen = 0) := by
    simp only [not_or, not_not]
    exact ⟨hidx, hflag⟩
  simp only [Kernel.keyboardRead, if_neg hwait, setFlagKeyboard]
  split
  · rfl
  · rcases terminal_cases k.screen.visibleScreen with hv | hv | hv
    all_goals
      simp only [hv, if_true, Fin.reduceEq, if_false, Option.isSome_map] at hlen ⊢
      exact hlen

/-! ## The lists -/

variable {k : Kernel} {l : Terminal → List Byte}

theorem Lines.update (h : k.Lines l) {k' : Kernel} {t : Terminal} {buf : ℕ → Byte} {n : ℕ}
    {line : List Byte} (hbuf : k'.lineBuffer = Function.update k.lineBuffer t buf)
    (hn : k'.counter = Function.update k.counter t n) (hholds : Holds buf bufferSize line)
    (hlen : n = line.length) (hnul : 0 ∉ line) : k'.Lines (Function.update l t line) := by
  refine ⟨fun t' => ?_, fun t' => ?_, fun t' => ?_⟩ <;> rcases eq_or_ne t' t with rfl | hne
  · simpa [hbuf] using hholds
  · simpa [hbuf, hne] using h.holds t'
  · simpa [hn] using hlen
  · simpa [hn, hne] using h.counter t'
  · simpa using hnul
  · simpa [hne] using h.nul t'

theorem Lines.storeKey (h : k.Lines l) {c : Byte} (hc : c ≠ 0) :
    (k.storeKey c).Lines
      (Function.update l k.screen.visibleScreen (l k.screen.visibleScreen ++ [c])) := by
  obtain ⟨hbuf, hn, -⟩ := k.lineBuffer_storeKey c
  have hlen := h.counter k.screen.visibleScreen
  refine h.update hbuf hn ?_ (by simp [hlen]) ?_
  · rw [hlen]
    exact (h.holds _).push c
  · simpa using ⟨h.nul _, hc.symm⟩

theorem Lines.deleteKey (h : k.Lines l) :
    k.deleteKey.Lines
      (Function.update l k.screen.visibleScreen (l k.screen.visibleScreen).dropLast) := by
  have hlen := h.counter k.screen.visibleScreen
  rcases Nat.eq_zero_or_pos (k.counter k.screen.visibleScreen) with h0 | hpos
  · have hnil : l k.screen.visibleScreen = [] := List.length_eq_zero_iff.1 (hlen.symm.trans h0)
    rw [deleteKey_of_empty k h0, hnil, List.dropLast_nil, ← hnil, Function.update_eq_self]
    exact h
  · obtain ⟨hbuf, hn⟩ := k.lineBuffer_deleteKey hpos
    refine h.update hbuf hn ?_ (by simp [hlen]) ?_
    · rw [hlen]
      exact (h.holds _).pop
    · exact fun hmem => h.nul _ ((List.dropLast_sublist _).subset hmem)

/-- A read returns the line of the visible terminal and empties it. -/
theorem Lines.keyboardRead (h : k.Lines l) {fd : ℕ} (hf : (k.curFd fd).flags ≠ 0) {r : ReadResult}
    (hr : k.keyboardRead fd = some r) :
    r.ret = (l k.screen.visibleScreen).length ∧ r.stored = l k.screen.visibleScreen ++ [0] ∧
      r.kernel.Lines (Function.update l k.screen.visibleScreen []) := by
  obtain ⟨-, -, n, hlen, hret, hstored, hbuf, hn, -, -⟩ := keyboardRead_eq hf hr
  have hhold := h.holds k.screen.visibleScreen
  obtain ⟨hlt, rfl⟩ := (hhold.strlen_eq_some_iff (h.nul _)).1 hlen
  refine ⟨hret, ?_, h.update hbuf hn (holds_nil fun i hi => ?_) rfl (by simp)⟩
  · rw [hstored, copyLine, hhold.map_range hlt.le]
  · exact if_pos hi

/-! ## A key event -/

/-- The character a code types, 0 if none. -/
def keyChar (k : Kernel) (code : Byte) : Byte :=
  (k.getchar code).1

/-- The terminal that is visible once a code is handled. -/
def shown (k : Kernel) (code : Byte) : Terminal :=
  (k.altTarget code).getD k.screen.visibleScreen

/-- The lines after a code : a character is added to the visible terminal's, and backspace
removes its last. -/
def typed (k : Kernel) (code : Byte) (l : Terminal → List Byte) : Terminal → List Byte :=
  let t := k.screen.visibleScreen
  if code = deletePress then Function.update l t (l t).dropLast
  else if k.keyChar code = 0 then l
  else Function.update l t (l t ++ [k.keyChar code])

/-- A key event changes the length of a line by one at most. -/
theorem length_typed (k : Kernel) (code : Byte) (l : Terminal → List Byte) (t : Terminal) :
    (l t).length ≤ (k.typed code l t).length + 1 ∧
      (k.typed code l t).length ≤ (l t).length + 1 := by
  unfold typed
  rcases eq_or_ne t k.screen.visibleScreen with rfl | hne
  · split_ifs <;> simp <;> omega
  · split_ifs <;> simp [hne]

/-- Backspace goes to the delete branch, and no other code touches the lines in `getchar`. -/
theorem getchar_lines (k : Kernel) (code : Byte) :
    (k.getchar code).2.screen.visibleScreen = k.shown code ∧
      (k.keyChar code ≠ 0 → k.altTarget code = none) ∧
      (code = deletePress → k.keyChar code = 0 ∧ (k.getchar code).2 = k.deleteKey) ∧
      (code ≠ deletePress → SameLines k (k.getchar code).2) := by
  have h := k.getScancode_cases code
  unfold keyChar shown getchar
  generalize k.getScancode code = r at h ⊢
  cases h with
  | switchVid t hne ht =>
    have hv : (k.switchVid t).screen.visibleScreen = t ∧ (k.switchVid t).keyboard = k.keyboard := by
      unfold switchVid
      split_ifs with h₁ h₂
      · omega
      · exact ⟨h₂.symm, rfl⟩
      · exact ⟨rfl, rfl⟩
    refine ⟨by rw [ht, hv.1, Option.getD_some], fun h0 => absurd (keyPos_zero _) h0,
      fun h => absurd h hne, fun _ => .of_eq hv.2⟩
  | decoder _ _ _ hne hn =>
    exact ⟨by rw [hn]; rfl, fun _ => hn, fun h => absurd h hne, fun _ => ⟨rfl, rfl, rfl⟩⟩
  | clear hne hn =>
    have hs := onlyScreen_keyClearScreen k
    exact ⟨by rw [hn]; exact hs.visibleScreen, fun _ => hn, fun h => absurd h hne,
      fun _ => .of_eq hs.keyboard⟩
  | delete heq hn =>
    exact ⟨by rw [hn]; exact (onlyDevices_deleteKey k).visibleScreen, fun _ => hn,
      fun _ => ⟨keyPos_zero _, rfl⟩, fun h => absurd heq h⟩
  | key hne hn =>
    exact ⟨by rw [hn]; rfl, fun _ => hn, fun h => absurd h hne, fun _ => ⟨rfl, rfl, rfl⟩⟩
  | ignored hne hn =>
    exact ⟨by rw [hn]; rfl, fun _ => hn, fun h => absurd h hne, fun _ => ⟨rfl, rfl, rfl⟩⟩

theorem Lines.getchar (h : k.Lines l) (code : Byte) :
    (k.getchar code).2.Lines (if code = deletePress then k.typed code l else l) := by
  obtain ⟨-, -, hdel, hkeep⟩ := k.getchar_lines code
  by_cases hc : code = deletePress
  · rw [if_pos hc, (hdel hc).2, typed, if_pos hc]
    exact h.deleteKey
  · rw [if_neg hc]
    exact (hkeep hc).lines h

/-- The lines after the part of a key event that follows `getchar`, and the flags. -/
theorem Lines.finishKey (h : k.Lines l) (c : Byte) :
    let l' := if c = 0 then l else
      Function.update l k.screen.visibleScreen (l k.screen.visibleScreen ++ [c])
    (k.finishKey c).Lines l' ∧
      (k.finishKey c).keyboard.flagKeyboard =
        if c = 10 ∨ ∃ t, termbufSize ≤ (l' t).length then
          Function.update k.keyboard.flagKeyboard k.screen.visibleScreen 1
        else k.keyboard.flagKeyboard := by
  intro l'
  have hstore : (if c = 0 then k else k.storeKey c).Lines l' ∧
      (if c = 0 then k else k.storeKey c).keyboard.flagKeyboard = k.keyboard.flagKeyboard ∧
      (if c = 0 then k else k.storeKey c).screen.visibleScreen = k.screen.visibleScreen := by
    by_cases hc : c = 0
    · simpa only [l', if_pos hc, and_true] using h
    · simp only [l', if_neg hc]
      exact ⟨h.storeKey hc, (k.lineBuffer_storeKey c).2.2, (onlyDevices_storeKey c k).visibleScreen⟩
  simp only [Kernel.finishKey]
  generalize (if c = 0 then k else k.storeKey c) = k₁ at hstore ⊢
  obtain ⟨hlines, hflag, hvis⟩ := hstore
  have hfull : (c = 10 ∨ k₁.keyboard.counter1 ≥ termbufSize ∨ k₁.keyboard.counter2 ≥ termbufSize ∨
      k₁.keyboard.counter3 ≥ termbufSize) ↔ c = 10 ∨ ∃ t, termbufSize ≤ (l' t).length := by
    refine or_congr_right ?_
    simp only [← hlines.counter]
    constructor
    · rintro (h1 | h2 | h3)
      · exact ⟨0, h1⟩
      · exact ⟨1, h2⟩
      · exact ⟨2, h3⟩
    · rintro ⟨t, ht⟩
      rcases terminal_cases t with rfl | rfl | rfl
      · exact Or.inl ht
      · exact Or.inr (Or.inl ht)
      · exact Or.inr (Or.inr ht)
  simp only [hfull]
  split_ifs
  · exact ⟨⟨hlines.holds, hlines.counter, hlines.nul⟩, by rw [setFlagKeyboard, hflag, hvis]⟩
  · exact ⟨hlines, hflag⟩

theorem flagKeyboard_getchar (k : Kernel) (code : Byte) :
    (k.getchar code).2.keyboard.flagKeyboard = k.keyboard.flagKeyboard := by
  obtain ⟨-, -, hdel, hkeep⟩ := k.getchar_lines code
  by_cases hc : code = deletePress
  · rw [(hdel hc).2, flagKeyboard_deleteKey]
  · exact (hkeep hc).flagKeyboard

/-- A key event does to the lines what `typed` says, and raises the flag of the terminal it
leaves visible if it types a newline or finds any line full. -/
theorem Lines.interruptKeyboard (h : k.Lines l) (code : Byte) :
    (k.interruptKeyboard code).Lines (k.typed code l) ∧
      (k.interruptKeyboard code).keyboard.flagKeyboard =
        if k.keyChar code = 10 ∨ ∃ t, termbufSize ≤ (k.typed code l t).length then
          Function.update k.keyboard.flagKeyboard (k.shown code) 1
        else k.keyboard.flagKeyboard := by
  obtain ⟨hvis, halt, hdel, -⟩ := k.getchar_lines code
  obtain ⟨hlines, hflags⟩ := (h.getchar code).finishKey (k.keyChar code)
  have hl : (if k.keyChar code = 0 then (if code = deletePress then k.typed code l else l) else
      Function.update (if code = deletePress then k.typed code l else l)
        (k.getchar code).2.screen.visibleScreen
        ((if code = deletePress then k.typed code l else l)
          (k.getchar code).2.screen.visibleScreen ++ [k.keyChar code])) = k.typed code l := by
    by_cases hc : code = deletePress
    · rw [if_pos (hdel hc).1, if_pos hc]
    · by_cases h0 : k.keyChar code = 0
      · rw [if_pos h0, if_neg hc, typed, if_neg hc, if_pos h0]
      · rw [if_neg h0, if_neg hc, hvis, shown, halt h0, Option.getD_none, typed, if_neg hc,
          if_neg h0]
  rw [hl] at hlines hflags
  rw [interruptKeyboard_eq]
  refine ⟨hlines, hflags.trans ?_⟩
  rw [hvis, flagKeyboard_getchar]

/-! ## Ready lines -/

/-- The pending contents of a line buffer. -/
def line (k : Kernel) (t : Terminal) : List Byte :=
  (List.range (k.counter t)).map (k.lineBuffer t)

end Kernel

/-- A line with a newline, or with no room for more. -/
def LineReady (line : List Byte) : Prop :=
  10 ∈ line ∨ 127 ≤ line.length

instance (line : List Byte) : Decidable (LineReady line) :=
  inferInstanceAs (Decidable (_ ∨ _))

/-- A character makes no line less ready. -/
theorem LineReady.typed {l : Terminal → List Byte} {t : Terminal} (h : LineReady (l t))
    (k : Kernel) {code : Byte} (hc : code ≠ deletePress) : LineReady (k.typed code l t) := by
  rw [Kernel.typed, if_neg hc]
  split_ifs with h0
  · exact h
  · rcases eq_or_ne t k.screen.visibleScreen with rfl | hne
    · rw [Function.update_self]
      rcases h with hmem | hlen
      · exact Or.inl (List.mem_append_left _ hmem)
      · exact Or.inr (by rw [List.length_append]; omega)
    · rw [Function.update_of_ne hne]
      exact h

namespace Kernel

variable {k : Kernel} {l : Terminal → List Byte}

end Kernel

end MpOS
