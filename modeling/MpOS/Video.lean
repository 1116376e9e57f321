import MpOS.Paging

/-!
# Text output (`lib.c`, `vidctl.c`)

`putc` writes for the scheduled terminal through virtual page 184 or, when that
terminal is hidden, through its backing page. `putc_keyboard` and `delete_char`
write for the visible terminal through virtual page 188. `switch_vid` saves the
text page to the backing page of the terminal that was visible and loads the new
one's.
-/

namespace MpOS

/-- `NUM_COLS`. -/
def numCols : ℕ :=
  80

/-- `NUM_ROWS`. -/
def numRows : ℕ :=
  25

/-- `ATTRIB`. -/
def attrib : Byte :=
  0x7

/-- `SCREEN_SIZE`. -/
def screenSize : ℕ :=
  1920

/-- `video_mem`. -/
def videoMem : ℕ :=
  0xB8000

/-- `key_video_mem`, and `KEY_VID` in `vidctl.c`. -/
def keyVideoMem : ℕ :=
  0xBC000

/-- `BUFFER_1`. -/
def buffer1 : ℕ :=
  0xB9000

namespace Kernel

/-- The page `putc` and `scroll_screen` write to. -/
def outputMem (k : Kernel) : ℕ :=
  if k.proc.scheduleIndex = k.screen.visibleScreen then videoMem
  else videoMem + 0x1000 * (k.proc.scheduleIndex + 1)

/-- Store a character and the attribute byte in cell `n` of the page at `base`. -/
def storeCell (k : Kernel) (base n : ℕ) (c : Byte) : Kernel :=
  (k.store (base + 2 * n) c).store (base + 2 * n + 1) attrib

/-- Copy the cell one row below cell `n` of `src` to cell `n` of `dest`. -/
def scrollCell (k : Kernel) (dest src n : ℕ) : Kernel :=
  let k := k.store (dest + 2 * n) (k.load (src + 2 * (n + numCols)))
  k.store (dest + 2 * n + 1) (k.load (src + 2 * (n + numCols) + 1))

/-- The loops of the two scroll routines : every row is copied to the one above it, and the
last row is blanked. -/
def scrollPage (k : Kernel) (dest src : ℕ) : Kernel :=
  let k := (List.range (numRows - 1)).foldl (fun k i =>
    (List.range numCols).foldl (fun k j => k.scrollCell dest src (i * numCols + j)) k) k
  (List.range numCols).foldl (fun k i => k.storeCell dest (screenSize + i) 0) k

/-- `scroll_screen`. -/
def scrollScreen (k : Kernel) : Kernel :=
  k.scrollPage k.outputMem videoMem

/-- `key_scroll_screen`. -/
def keyScrollScreen (k : Kernel) : Kernel :=
  k.scrollPage keyVideoMem keyVideoMem

/-- Set a terminal's cursor. -/
def setCursor (k : Kernel) (t : Terminal) (x y : ℕ) : Kernel :=
  { k with screen := { k.screen with
      screenX := Function.update k.screen.screenX t x
      screenY := Function.update k.screen.screenY t y } }

/-- The end of `putc` and `putc_keyboard` : scroll when the cursor has left the last row. -/
def wrapCursor (t : Terminal) (scroll : Kernel → Kernel) (k : Kernel) : Kernel :=
  let k :=
    if k.screen.screenY t = numRows then
      let k := scroll k
      k.setCursor t (k.screen.screenX t) (k.screen.screenY t - 1)
    else k
  k.setCursor t (k.screen.screenX t % numCols) (k.screen.screenY t)

/-- `putc` and `putc_keyboard`, on the cursor of a terminal, a page and a scroll routine. -/
def putChar (t : Terminal) (mem : ℕ) (scroll : Kernel → Kernel) (c : Byte) (k : Kernel) : Kernel :=
  if c = 0 then k
  else
    let x := k.screen.screenX t
    let y := k.screen.screenY t
    if c = 10 ∨ c = 13 then (k.setCursor t 0 (y + 1)).wrapCursor t scroll
    else
      ((k.storeCell mem (numCols * y + x) c).setCursor t (x + 1) (y + (x + 1) / numCols)).wrapCursor
        t scroll

/-- `putc`. -/
def putc (c : Byte) (k : Kernel) : Kernel :=
  k.putChar k.proc.scheduleIndex k.outputMem scrollScreen c

/-- `putc_keyboard`. -/
def putcKeyboard (c : Byte) (k : Kernel) : Kernel :=
  k.putChar k.screen.visibleScreen keyVideoMem keyScrollScreen c

/-- `key_clear_screen`. -/
def keyClearScreen (k : Kernel) : Kernel :=
  let k := (List.range numRows).foldl (fun k i =>
    (List.range numCols).foldl (fun k j => k.storeCell keyVideoMem (i * numCols + j) 0) k) k
  k.setCursor k.screen.visibleScreen 0 0

/-- `clear_screen`. -/
def clearScreen (k : Kernel) : Kernel :=
  let k := (List.range numRows).foldl (fun k i =>
    (List.range numCols).foldl (fun k j => k.storeCell videoMem (i * numCols + j) 0) k) k
  k.setCursor k.proc.scheduleIndex 0 0

/-- `counter1`, `counter2` and `counter3`, by terminal. -/
def counter (k : Kernel) (t : Terminal) : ℕ :=
  if t = 0 then k.keyboard.counter1
  else if t = 1 then k.keyboard.counter2
  else k.keyboard.counter3

/-- `delete_char`. The character store goes to the cell before the cursor, the attribute
store to the cell at the cursor. -/
def deleteChar (k : Kernel) : Kernel :=
  let t := k.screen.visibleScreen
  let x := k.screen.screenX t
  let y := k.screen.screenY t
  if x = 0 ∧ y = 0 then k
  else if k.counter t = 0 then k
  else
    let k := k.store (keyVideoMem + 2 * (numCols * y + x - 1)) 32
    let k := k.store (keyVideoMem + 2 * (numCols * y + x) + 1) attrib
    if x = 0 then k.setCursor t (numCols - 1) (y - 1)
    else k.setCursor t (x - 1) y

/-- The entry `switch_vid` and `context_switch` store in `pte_vid[0]` for the scheduled
terminal : the text page if it is visible, else its backing page. -/
def vidEntry (k : Kernel) : Word :=
  if k.screen.visibleScreen ≠ k.proc.scheduleIndex then
    (pageKb + (videoOffset + fourKb * (k.proc.scheduleIndex.word + 1))) ||| 5
  else (pageKb + videoOffset) ||| 5

/-- `switch_vid`. Its callers pass 0, 1 and 2, so the range check never fails, and none of
them reads its result. -/
def switchVid (target : Terminal) (k : Kernel) : Kernel :=
  if (target : ℤ) < -1 ∨ (target : ℤ) > 2 then k
  else if target = k.screen.visibleScreen then k
  else
    let write := buffer1 + 0x1000 * target
    let save := buffer1 + 0x1000 * k.screen.visibleScreen
    let k := k.memcpy save keyVideoMem 4000
    let k := k.memcpy keyVideoMem write 4000
    let k := { k with screen := { k.screen with visibleScreen := target } }
    k.setPteVid 0 k.vidEntry

end Kernel

end MpOS
