import MpOS.State

/-!
# Page tables (`paging.c`)

The text page of the hardware is physical page 184 (`0xB8000`), and the backing
page of terminal `t` is physical page `185 + t`. The kernel reaches the backing
pages through the virtual pages of the same number, the text page through virtual
page 188 (`0xBC000`), and the page of the scheduled terminal through virtual page
184, which `map_screen_buffer` remaps.
-/

namespace MpOS

/-- `PAGE_MB`. -/
def pageMb : Word :=
  0x82

/-- `PAGE_KB`. -/
def pageKb : Word :=
  0x2

/-- `FOURMB`. -/
def fourMb : Word :=
  0x400000

/-- `FOURKB`. -/
def fourKb : Word :=
  0x1000

/-- `START_ADDRESS`. -/
def startAddress : Word :=
  0x00800087

/-- `EXEC` : the page directory entry of the program page. -/
def exec : ℕ :=
  32

/-- `VID` : the page directory entry of `pte_vid`. -/
def vid : ℕ :=
  64

/-- `VIDEO_MEMORY` : the page table entry of the text page. -/
def videoMemory : ℕ :=
  184

/-- `VIDEO_OFFSET`, and `VID_MEMORY` in the other files. -/
def videoOffset : Word :=
  0xB8000

namespace Kernel

/-! ## Address translation -/

/-- The physical address a virtual address below 4MB is mapped to. -/
def phys (k : Kernel) (a : ℕ) : ℕ :=
  (k.paging.pte (a / 4096)).toNat / 4096 * 4096 + a % 4096

/-- Load a byte. -/
def load (k : Kernel) (a : ℕ) : Byte :=
  k.screen.ram (k.phys a)

/-- Store a byte. -/
def store (k : Kernel) (a : ℕ) (b : Byte) : Kernel :=
  { k with screen := { k.screen with ram := Function.update k.screen.ram (k.phys a) b } }

/-- `memcpy` between two ranges that each lie within one page. -/
def memcpy (k : Kernel) (dest src n : ℕ) : Kernel :=
  { k with screen := { k.screen with
      ram := fun a =>
        if k.phys dest ≤ a ∧ a < k.phys dest + n then k.screen.ram (k.phys src + (a - k.phys dest))
        else k.screen.ram a } }

/-- The size of a program page. -/
def pageSize : ℕ :=
  0x400000

/-- The address of the program page, where user code has its data and its stack. -/
def programPage : ℕ :=
  0x8000000

/-- Store bytes from address `buf` on, as far as they lie in the program page. -/
def storeUser (k : Kernel) (buf : Word) (bytes : List Byte) : Kernel :=
  { k with screen := { k.screen with
      frame := fun e =>
        if e = k.paging.pdt exec then
          fun i => if i < pageSize
            then bytes.getD (UInt32.ofNat (programPage + i) - buf).toNat (k.screen.frame e i)
            else k.screen.frame e i
        else k.screen.frame e } }

/-- Set a page directory entry. -/
def setPdt (k : Kernel) (i : ℕ) (e : Word) : Kernel :=
  { k with paging := { k.paging with pdt := Function.update k.paging.pdt i e } }

/-- Set a page table entry. -/
def setPte (k : Kernel) (i : ℕ) (e : Word) : Kernel :=
  { k with paging := { k.paging with pte := Function.update k.paging.pte i e } }

/-- Set an entry of the user video page table. -/
def setPteVid (k : Kernel) (i : ℕ) (e : Word) : Kernel :=
  { k with paging := { k.paging with pteVid := Function.update k.paging.pteVid i e } }

/-! ## `paging.c` -/

/-- `init_paging`. -/
def initPaging (k : Kernel) : Kernel :=
  let pdt := fun i : ℕ => pageMb + fourMb * UInt32.ofNat i
  let pte := fun i : ℕ => pageKb + fourKb * UInt32.ofNat i
  { k with paging := { k.paging with
      pdt := fun i =>
        if i = 0 then k.paging.pteAddr ||| 1
        else if i = 1 then pdt 1 ||| 1
        else if i = exec then startAddress
        else if i = vid then k.paging.pteVidAddr
        else pdt i
      pte := fun i =>
        if i = videoMemory + 4 then (pte i - 0x4000) ||| 1
        else if videoMemory ≤ i ∧ i ≤ videoMemory + 3 then pte i ||| 1
        else pte i } }

/-- `map_page_exec`. -/
def mapPageExec (k : Kernel) (idx : Word) : Kernel :=
  k.setPdt exec (startAddress + fourMb * idx)

/-- `map_vid`, with the pointer it stores at `*screen_start`. -/
def mapVid (k : Kernel) : Kernel × Word :=
  ((k.setPdt vid (k.paging.pteVidAddr ||| 7)).setPteVid 0 ((pageKb + videoOffset) ||| 5),
    fourMb * UInt32.ofNat vid)

/-- `clear_vid`. -/
def clearVid (k : Kernel) : Kernel :=
  k.setPteVid 0 0

/-- `map_screen_buffer`. -/
def mapScreenBuffer (k : Kernel) (idx : Word) : Kernel :=
  if idx > 3 then k
  else k.setPte videoMemory ((videoOffset + fourKb * idx) ||| 3)

/-! ## What the page tables leave alone -/

variable (k : Kernel) (i : ℕ) (e idx : Word)

@[simp] theorem storeUser_nil (buf : Word) : k.storeUser buf [] = k := by
  simp [storeUser]

@[simp] theorem setPdt_proc : (k.setPdt i e).proc = k.proc :=
  rfl

@[simp] theorem setPteVid_proc : (k.setPteVid i e).proc = k.proc :=
  rfl

@[simp] theorem setPteVid_screen : (k.setPteVid i e).screen = k.screen :=
  rfl

@[simp] theorem setPteVid_keyboard : (k.setPteVid i e).keyboard = k.keyboard :=
  rfl

@[simp] theorem setPteVid_pdt : (k.setPteVid i e).paging.pdt = k.paging.pdt :=
  rfl

@[simp] theorem setPteVid_pte : (k.setPteVid i e).paging.pte = k.paging.pte :=
  rfl

@[simp] theorem mapPageExec_proc : (k.mapPageExec idx).proc = k.proc :=
  rfl

@[simp] theorem mapPageExec_screen : (k.mapPageExec idx).screen = k.screen :=
  rfl

@[simp] theorem mapPageExec_keyboard : (k.mapPageExec idx).keyboard = k.keyboard :=
  rfl

@[simp] theorem mapPageExec_pte : (k.mapPageExec idx).paging.pte = k.paging.pte :=
  rfl

@[simp] theorem mapPageExec_pteVid : (k.mapPageExec idx).paging.pteVid = k.paging.pteVid :=
  rfl

@[simp] theorem mapPageExec_pdt_exec :
    (k.mapPageExec idx).paging.pdt exec = startAddress + fourMb * idx := by
  simp [mapPageExec, setPdt]

@[simp] theorem mapScreenBuffer_proc : (k.mapScreenBuffer idx).proc = k.proc := by
  unfold mapScreenBuffer
  split_ifs <;> rfl

@[simp] theorem mapScreenBuffer_screen : (k.mapScreenBuffer idx).screen = k.screen := by
  unfold mapScreenBuffer
  split_ifs <;> rfl

@[simp] theorem mapScreenBuffer_keyboard : (k.mapScreenBuffer idx).keyboard = k.keyboard := by
  unfold mapScreenBuffer
  split_ifs <;> rfl

@[simp] theorem mapScreenBuffer_pdt : (k.mapScreenBuffer idx).paging.pdt = k.paging.pdt := by
  unfold mapScreenBuffer
  split_ifs <;> rfl

@[simp] theorem mapScreenBuffer_pteVid :
    (k.mapScreenBuffer idx).paging.pteVid = k.paging.pteVid := by
  unfold mapScreenBuffer
  split_ifs <;> rfl

end Kernel

end MpOS
