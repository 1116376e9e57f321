import MpOS.Video
import MpOS.Lib.ZeroBuffer

/-!
# Keyboard (`keyboard.c`, `interrupt_handler.c`)

A key event is one scancode. `getScancode` runs the decoder's cascade on it, which
also switches terminals, clears the screen and deletes characters. A code that
no branch takes is looked up in the key map. `interruptKeyboard` echoes the character
and stores it in the line buffer of the visible terminal. `keyboardRead` hands the
visible terminal's buffer to the reader.
-/

namespace MpOS

/-- The bytes of some ASCII characters. -/
def ascii (cs : List Char) : List Byte :=
  cs.map fun c => UInt8.ofNat c.toNat

/-- `key_pos`, one row for each `key_status`. The rest of each row is zero. -/
def keyPos : List (List Byte) :=
  [ -- no caps, no shift
    [0, 0] ++ ascii ['1', '2', '3', '4', '5', '6', '7', '8', '9', '0', '-', '='] ++ [0] ++
    [0] ++ ascii ['q', 'w', 'e', 'r', 't', 'y', 'u', 'i', 'o', 'p', '[', ']', '\n'] ++
    [0] ++ ascii ['a', 's', 'd', 'f', 'g', 'h', 'j', 'k', 'l', ';'] ++ [39, 96, 92] ++
    [92] ++ ascii ['z', 'x', 'c', 'v', 'b', 'n', 'm', ',', '.', '/'] ++ [0, 42] ++ [0, 32],
    -- no caps, shift
    [0, 0] ++ ascii ['!', '@', '#', '$', '%', '^', '&', '*', '(', ')', '_', '+'] ++ [0] ++
    [0] ++ ascii ['Q', 'W', 'E', 'R', 'T', 'Y', 'U', 'I', 'O', 'P'] ++ [123, 125, 10] ++
    [0] ++ ascii ['A', 'S', 'D', 'F', 'G', 'H', 'J', 'K', 'L', ':'] ++ [34, 126, 124] ++
    [92] ++ ascii ['Z', 'X', 'C', 'V', 'B', 'N', 'M', '<', '>', '?'] ++ [0, 42] ++ [0, 32] ++
    List.replicate 13 0 ++ [0, 0, 0, 45],
    -- caps, no shift
    [0, 0] ++ ascii ['1', '2', '3', '4', '5', '6', '7', '8', '9', '0', '-', '='] ++ [0] ++
    [0] ++ ascii ['Q', 'W', 'E', 'R', 'T', 'Y', 'U', 'I', 'O', 'P', '[', ']', '\n'] ++
    [0] ++ ascii ['A', 'S', 'D', 'F', 'G', 'H', 'J', 'K', 'L', ';'] ++ [39, 96, 92] ++
    [92] ++ ascii ['Z', 'X', 'C', 'V', 'B', 'N', 'M', ',', '.', '/'] ++ [0, 42] ++ [0, 32],
    -- caps, shift
    [0, 0] ++ ascii ['!', '@', '#', '$', '%', '^', '&', '*', '(', ')', '_', '+'] ++ [0] ++
    [0] ++ ascii ['q', 'w', 'e', 'r', 't', 'y', 'u', 'i', 'o', 'p'] ++ [123, 125, 10] ++
    [0] ++ ascii ['a', 's', 'd', 'f', 'g', 'h', 'j', 'k', 'l', ':'] ++ [34, 126, 124] ++
    [92] ++ ascii ['z', 'x', 'c', 'v', 'b', 'n', 'm', '<', '>', '?'] ++ [0, 42] ++ [0, 32] ++
    List.replicate 13 0 ++ [0, 0, 0, 45] ]

/-- `LEFT_SHIFT_PRESS` or `RIGHT_SHIFT_PRESS`. -/
def shiftPress (code : Byte) : Prop :=
  code = 0x2A ∨ code = 0x36

/-- `LEFT_SHIFT_RELEASE` or `RIGHT_SHIFT_RELEASE`. -/
def shiftRelease (code : Byte) : Prop :=
  code = 0xAA ∨ code = 0xB6

instance (code : Byte) : Decidable (shiftPress code) :=
  inferInstanceAs (Decidable (_ ∨ _))

instance (code : Byte) : Decidable (shiftRelease code) :=
  inferInstanceAs (Decidable (_ ∨ _))

/-- `CAPS_LOCK_PRESS`. -/
def capsLockPress : Byte :=
  0x3A

/-- `CTRL_PRESS`. -/
def ctrlPress : Byte :=
  0x1D

/-- `CTRL_RELEASE`. -/
def ctrlRelease : Byte :=
  0x9D

/-- `LEFT_ALT_PRESS`. -/
def leftAltPress : Byte :=
  0x38

/-- `LEFT_ALT_RELEASE`. -/
def leftAltRelease : Byte :=
  0xB8

/-- `F1_PRESS`. -/
def f1Press : Byte :=
  0x3B

/-- `F2_PRESS`. -/
def f2Press : Byte :=
  0x3C

/-- `F3_PRESS`. -/
def f3Press : Byte :=
  0x3D

/-- `L_PRESS`. -/
def lPress : Byte :=
  0x26

/-- `DELETE_PRESS`. -/
def deletePress : Byte :=
  0x0E

/-- `KEY_PRESS_BOUNDARY`. -/
def keyPressBoundary : Byte :=
  0x80

/-- `BUFFER_SIZE`. -/
def bufferSize : ℕ :=
  128

/-- `TERMBUF_SIZE`. -/
def termbufSize : ℕ :=
  127

namespace Kernel

/-- Set `key_status`. -/
def setKeyStatus (k : Kernel) (n : ℕ) : Kernel :=
  { k with keyboard := { k.keyboard with keyStatus := n } }

/-- Set `key_flag`. -/
def setKeyFlag (k : Kernel) (n : ℕ) : Kernel :=
  { k with keyboard := { k.keyboard with keyFlag := n } }

/-- Set `terminal_flag`. -/
def setTerminalFlag (k : Kernel) (n : ℕ) : Kernel :=
  { k with keyboard := { k.keyboard with terminalFlag := n } }

/-- Set `flag_keyboard[t]`. -/
def setFlagKeyboard (k : Kernel) (t : Terminal) (n : ℕ) : Kernel :=
  { k with keyboard := { k.keyboard with
      flagKeyboard := Function.update k.keyboard.flagKeyboard t n } }

/-- Set `terminal1_buffer` and `counter1`. -/
def setLine1 (k : Kernel) (buf : ℕ → Byte) (n : ℕ) : Kernel :=
  { k with keyboard := { k.keyboard with terminal1Buffer := buf, counter1 := n } }

/-- Set `terminal2_buffer` and `counter2`. -/
def setLine2 (k : Kernel) (buf : ℕ → Byte) (n : ℕ) : Kernel :=
  { k with keyboard := { k.keyboard with terminal2Buffer := buf, counter2 := n } }

/-- Set `terminal3_buffer` and `counter3`. -/
def setLine3 (k : Kernel) (buf : ℕ → Byte) (n : ℕ) : Kernel :=
  { k with keyboard := { k.keyboard with terminal3Buffer := buf, counter3 := n } }

/-- The `DELETE_PRESS` branch of `getScancode`. -/
def deleteKey (k : Kernel) : Kernel :=
  if k.screen.visibleScreen = 0 ∧ k.keyboard.counter1 > 0 then
    let k := k.deleteChar
    let n := k.keyboard.counter1 - 1
    k.setLine1 (Function.update k.keyboard.terminal1Buffer n 0) n
  else if k.screen.visibleScreen = 1 ∧ k.keyboard.counter2 > 0 then
    let k := k.deleteChar
    let n := k.keyboard.counter2 - 1
    k.setLine2 (Function.update k.keyboard.terminal2Buffer n 0) n
  else if k.screen.visibleScreen = 2 ∧ k.keyboard.counter3 > 0 then
    let k := k.deleteChar
    let n := k.keyboard.counter3 - 1
    k.setLine3 (Function.update k.keyboard.terminal3Buffer n 0) n
  else k

/-- `getScancode`, from the first nonzero code its loop reads from the port. -/
def getScancode (code : Byte) (k : Kernel) : Byte × Kernel :=
  if k.keyboard.keyStatus = 0 ∧ shiftPress code then (0, k.setKeyStatus 1)
  else if k.keyboard.keyStatus = 1 ∧ shiftRelease code then (0, k.setKeyStatus 0)
  else if k.keyboard.keyStatus = 0 ∧ code = capsLockPress then (0, k.setKeyStatus 2)
  else if k.keyboard.keyStatus = 2 ∧ code = capsLockPress then (0, k.setKeyStatus 0)
  else if k.keyboard.keyStatus = 2 ∧ shiftPress code then (0, k.setKeyStatus 3)
  else if k.keyboard.keyStatus = 3 ∧ shiftRelease code then (0, k.setKeyStatus 2)
  else if code = ctrlPress then (0, k.setKeyFlag 1)
  else if code = ctrlRelease then (0, k.setKeyFlag 0)
  else if code = leftAltPress then (0, k.setTerminalFlag 1)
  else if code = leftAltRelease then (0, k.setTerminalFlag 0)
  else if k.keyboard.terminalFlag = 1 ∧ code = f1Press then (0, k.switchVid 0)
  else if k.keyboard.terminalFlag = 1 ∧ code = f2Press then (0, k.switchVid 1)
  else if k.keyboard.terminalFlag = 1 ∧ code = f3Press then (0, k.switchVid 2)
  else if k.keyboard.keyFlag = 1 ∧ code = lPress then (0, k.keyClearScreen)
  else if code = deletePress then (0, k.deleteKey)
  else if code < keyPressBoundary then (code, k)
  else (0, k)

/-- The terminal Alt with a function key selects. -/
def altTarget (k : Kernel) (code : Byte) : Option Terminal :=
  if k.keyboard.terminalFlag = 1 ∧ code = f1Press then some 0
  else if k.keyboard.terminalFlag = 1 ∧ code = f2Press then some 1
  else if k.keyboard.terminalFlag = 1 ∧ code = f3Press then some 2
  else none

/-- What `getScancode` can do with a code : switch terminals, update the decoder, clear the
screen, delete a character, pass the code on, or ignore it. -/
inductive ScancodeStep (k : Kernel) (code : Byte) : Byte × Kernel → Prop
  | switchVid (t : Terminal) : code ≠ deletePress → k.altTarget code = some t →
      ScancodeStep k code (0, k.switchVid t)
  | decoder (status flag tflag : ℕ) : code ≠ deletePress → k.altTarget code = none →
      ScancodeStep k code (0, { k with keyboard := { k.keyboard with
        keyStatus := status, keyFlag := flag, terminalFlag := tflag } })
  | clear : code ≠ deletePress → k.altTarget code = none → ScancodeStep k code (0, k.keyClearScreen)
  | delete : code = deletePress → k.altTarget code = none → ScancodeStep k code (0, k.deleteKey)
  | key : code ≠ deletePress → k.altTarget code = none → ScancodeStep k code (code, k)
  | ignored : code ≠ deletePress → k.altTarget code = none → ScancodeStep k code (0, k)

/-- The codes the decoder looks at are neither those of the function keys nor backspace. -/
theorem ScancodeStep.decoder_of {k : Kernel} {code : Byte} (status flag tflag : ℕ)
    (h : shiftPress code ∨ shiftRelease code ∨ code = capsLockPress ∨ code = ctrlPress ∨
      code = ctrlRelease ∨ code = leftAltPress ∨ code = leftAltRelease) :
    ScancodeStep k code (0, { k with keyboard := { k.keyboard with
      keyStatus := status, keyFlag := flag, terminalFlag := tflag } }) := by
  have hne : code ≠ deletePress ∧ code ≠ f1Press ∧ code ≠ f2Press ∧ code ≠ f3Press := by
    rcases h with (rfl | rfl) | (rfl | rfl) | rfl | rfl | rfl | rfl | rfl <;> decide
  obtain ⟨hd, h1, h2, h3⟩ := hne
  exact .decoder _ _ _ hd (by simp [altTarget, h1, h2, h3])

theorem getScancode_cases (k : Kernel) (code : Byte) :
    ScancodeStep k code (k.getScancode code) := by
  unfold getScancode
  refine iteInduction (fun h => .decoder_of _ _ _ (.inl h.2)) fun _ => ?_
  refine iteInduction (fun h => .decoder_of _ _ _ (.inr (.inl h.2))) fun _ => ?_
  refine iteInduction (fun h => .decoder_of _ _ _ (by simp [h.2])) fun _ => ?_
  refine iteInduction (fun h => .decoder_of _ _ _ (by simp [h.2])) fun _ => ?_
  refine iteInduction (fun h => .decoder_of _ _ _ (.inl h.2)) fun _ => ?_
  refine iteInduction (fun h => .decoder_of _ _ _ (.inr (.inl h.2))) fun _ => ?_
  refine iteInduction (fun h => .decoder_of _ _ _ (by simp [h])) fun _ => ?_
  refine iteInduction (fun h => .decoder_of _ _ _ (by simp [h])) fun _ => ?_
  refine iteInduction (fun h => .decoder_of _ _ _ (by simp [h])) fun _ => ?_
  refine iteInduction (fun h => .decoder_of _ _ _ (by simp [h])) fun _ => ?_
  refine iteInduction (fun h => ?_) fun h1 => ?_
  · exact .switchVid 0 (h.2 ▸ by decide) (by rw [altTarget, if_pos h])
  refine iteInduction (fun h => ?_) fun h2 => ?_
  · exact .switchVid 1 (h.2 ▸ by decide) (by rw [altTarget, if_neg h1, if_pos h])
  refine iteInduction (fun h => ?_) fun h3 => ?_
  · exact .switchVid 2 (h.2 ▸ by decide) (by rw [altTarget, if_neg h1, if_neg h2, if_pos h])
  have hnone : k.altTarget code = none := by rw [altTarget, if_neg h1, if_neg h2, if_neg h3]
  refine iteInduction (fun h => .clear (h.2 ▸ by decide) hnone) fun _ => ?_
  refine iteInduction (fun h => .delete h hnone) fun h => ?_
  exact iteInduction (fun _ => .key h hnone) fun _ => .ignored h hnone

/-- `getchar`. A code that changes `key_status` returns 0, and column 0 of every row is 0. -/
def getchar (code : Byte) (k : Kernel) : Byte × Kernel :=
  let (scancode, k) := k.getScancode code
  ((keyPos.getD k.keyboard.keyStatus []).getD scancode.toNat 0, k)

/-- The echo and the store of a character by `interrupt_keyboard`. -/
def storeKey (scancode : Byte) (k : Kernel) : Kernel :=
  if k.screen.visibleScreen = 0 then
    let k := k.putcKeyboard scancode
    k.setLine1 (Function.update k.keyboard.terminal1Buffer k.keyboard.counter1 scancode)
      (k.keyboard.counter1 + 1)
  else if k.screen.visibleScreen = 1 then
    let k := k.putcKeyboard scancode
    k.setLine2 (Function.update k.keyboard.terminal2Buffer k.keyboard.counter2 scancode)
      (k.keyboard.counter2 + 1)
  else if k.screen.visibleScreen = 2 then
    let k := k.putcKeyboard scancode
    k.setLine3 (Function.update k.keyboard.terminal3Buffer k.keyboard.counter3 scancode)
      (k.keyboard.counter3 + 1)
  else k

/-- `interrupt_keyboard`. -/
def interruptKeyboard (code : Byte) (k : Kernel) : Kernel :=
  let (scancode, k) := k.getchar code
  let k := if scancode = 0 then k else k.storeKey scancode
  if scancode = 10 ∨ k.keyboard.counter1 ≥ termbufSize ∨ k.keyboard.counter2 ≥ termbufSize ∨
      k.keyboard.counter3 ≥ termbufSize then
    k.setFlagKeyboard k.screen.visibleScreen 1
  else k

/-- `keyboard_init`. -/
def keyboardInit (k : Kernel) : Kernel :=
  let k := { k with keyboard := { k.keyboard with
    keyStatus := 0
    keyFlag := 0
    flagKeyboard := fun _ => 0
    counter1 := 0
    counter2 := 0
    counter3 := 0
    terminalFlag := 0 } }
  (k.setCurFd 0 ⟨some .keyboard, 0, 0, 1⟩).setCurFd 1 ⟨some .keyboard, 0, 0, 1⟩

/-- The three line buffers zeroed. -/
def clearLines (k : Kernel) : Kernel :=
  let zero (buf : ℕ → Byte) (i : ℕ) := if i < bufferSize then 0 else buf i
  { k with keyboard := { k.keyboard with
      terminal1Buffer := zero k.keyboard.terminal1Buffer
      terminal2Buffer := zero k.keyboard.terminal2Buffer
      terminal3Buffer := zero k.keyboard.terminal3Buffer } }

/-- `keyboard_open`. -/
def keyboardOpen (fd : ℕ) (k : Kernel) : ℤ × Kernel :=
  let k := { k with keyboard := { k.keyboard with counter1 := 0, counter2 := 0, counter3 := 0 } }
  (0, k.clearLines.setCurFd fd ⟨some .keyboard, 0, 0, 1⟩)

/-- `keyboard_close`. -/
def keyboardClose (fd : ℕ) (k : Kernel) : ℤ × Kernel :=
  if (k.curFd fd).flags = 0 then (-1, k)
  else (0, k.clearLines.setCurFd fd ⟨none, 0, 0, 0⟩)

/-- What a read leaves behind : its return value, the bytes it stored from the start of
the caller's buffer, and the kernel. -/
structure ReadResult where
  ret : ℤ
  stored : List Byte
  kernel : Kernel

/-- The copy of a line buffer of `n` characters to the reader, with its terminator. -/
def copyLine (buf : ℕ → Byte) (n : ℕ) : List Byte :=
  (List.range n).map buf ++ [0]

/-- A line buffer zeroed by its reader. -/
def zeroLine (buf : ℕ → Byte) (i : ℕ) : Byte :=
  if i < 128 then 0 else buf i

/-- `keyboard_read`. `none` while it waits for its terminal to be visible and for the
terminal's flag, and where `strlen` would run off the end of the buffer. -/
def keyboardRead (fd : ℕ) (k : Kernel) : Option ReadResult :=
  if (k.curFd fd).flags = 0 then some ⟨-1, [], k⟩
  else
    let currentPcb := k.proc.pcb k.cur.curPid
    if currentPcb.screenIdx ≠ k.screen.visibleScreen.word ∨
        k.keyboard.flagKeyboard k.screen.visibleScreen = 0 then none
    else
      let k := k.setFlagKeyboard k.screen.visibleScreen 0
      if k.screen.visibleScreen = 0 then
        (ZeroBuffer.strlen bufferSize k.keyboard.terminal1Buffer).map fun n : ℕ =>
          ⟨n, copyLine k.keyboard.terminal1Buffer n,
            k.setLine1 (zeroLine k.keyboard.terminal1Buffer) 0⟩
      else if k.screen.visibleScreen = 1 then
        (ZeroBuffer.strlen bufferSize k.keyboard.terminal2Buffer).map fun n : ℕ =>
          ⟨n, copyLine k.keyboard.terminal2Buffer n,
            k.setLine2 (zeroLine k.keyboard.terminal2Buffer) 0⟩
      else
        (ZeroBuffer.strlen bufferSize k.keyboard.terminal3Buffer).map fun n : ℕ =>
          ⟨n, copyLine k.keyboard.terminal3Buffer n,
            k.setLine3 (zeroLine k.keyboard.terminal3Buffer) 0⟩

/-- `keyboard_write`, with the number of characters it wrote. -/
def keyboardWrite (buf : ℕ → Byte) (nbytes : ℤ) (k : Kernel) : ℤ × Kernel :=
  (nbytes.toNat, (List.range nbytes.toNat).foldl (fun k i => k.putc (buf i)) k)

end Kernel

/-- Column 0 of the key map is 0 in every row. -/
theorem keyPos_zero (row : ℕ) : (keyPos.getD row []).getD 0 0 = 0 := by
  match row with
  | 0 | 1 | 2 | 3 => decide
  | n + 4 => rfl

end MpOS
