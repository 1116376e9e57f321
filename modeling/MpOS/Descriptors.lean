import MpOS.Filesys
import MpOS.Keyboard

/-!
# Descriptor calls (`filesys.c`, `_rtc.c`, `syscall.c`)

`open`, `read`, `write` and `close` go through the descriptor table of the scheduled
terminal and dispatch through the entry's operation table. A call through a null
table pointer has no meaning and is `none`.
-/

namespace MpOS

namespace Kernel

/-! ## `_rtc.c` -/

/-- `MAXIMUM_RATE`. -/
def maximumRate : ℤ :=
  15

/-- `MAX_FREQ`. -/
def maxFreq : ℤ :=
  1024

/-- Set `rate`, a `char`. -/
def setRate (k : Kernel) (rate : ℤ) : Kernel :=
  { k with rtc := { k.rtc with rate := UInt8.ofNat (rate % 256).toNat } }

/-- `interrupt_rtc`. -/
def interruptRtc (k : Kernel) : Kernel :=
  { k with rtc := { rate := k.rtc.rate &&& 0x0F, flagRtc := 1 } }

/-- `rtc_init`. -/
def rtcInit (k : Kernel) : Kernel :=
  { k with rtc := { k.rtc with flagRtc := 0 } }

/-- The halving loop of `rtc_write` : `frequency`, `power_value` and `is_power_of_two` after
it. A positive `int32_t` is halved at most 30 times. -/
def halve : (fuel : ℕ) → (frequency powerValue : ℤ) → (isPowerOfTwo : Bool) → ℤ × ℤ × Bool
  | 0, f, p, b => (f, p, b)
  | n + 1, f, p, b =>
    if f % 2 = 0 ∧ f > 1 then halve n (f / 2) (p + 1) (b || f / 2 == 1) else (f, p, b)

/-- `rtc_write`. -/
def rtcWrite (buf : ℕ → Byte) (nbytes : ℤ) (k : Kernel) : ℤ × Kernel :=
  if nbytes ≠ 4 then (-1, k)
  else
    let (frequency, powerValue, isPowerOfTwo) := halve 31 (toInt (wordAt buf 0)) 0 false
    if !isPowerOfTwo ∨ frequency > maxFreq ∨ frequency = 0 then (-1, k.setRate 0)
    else (0, k.setRate (maximumRate - powerValue + 1))

/-- `rtc_read`, once the interrupt it waits for has come. -/
def rtcRead (k : Kernel) : ReadResult :=
  ⟨0, [], { k with rtc := { k.rtc with flagRtc := 0 } }.interruptRtc⟩

/-! ## The drivers' `open` and `close` -/

/-- Install an entry of the current descriptor table. -/
def openFd (ops : Fileops) (fd : ℕ) (inode : Word) (k : Kernel) : Kernel :=
  k.setCurFd fd ⟨some ops, inode, 0, 1⟩

/-- Clear an open entry of the current descriptor table. -/
def closeFd (inode : Word) (fd : ℕ) (k : Kernel) : ℤ × Kernel :=
  if (k.curFd fd).flags = 0 then (-1, k) else (0, k.setCurFd fd ⟨none, inode, 0, 0⟩)

/-- `rtc_open`. -/
def rtcOpen (fd : ℕ) (_inode : Word) (k : Kernel) : ℤ × Kernel :=
  (0, (k.setRate maximumRate).rtcInit.openFd .rtc fd 0)

/-- `rtc_close`. -/
def rtcClose (fd : ℕ) (k : Kernel) : ℤ × Kernel :=
  k.closeFd 0 fd

/-- `file_open`. -/
def fileOpen (fd : ℕ) (inode : Word) (k : Kernel) : ℤ × Kernel :=
  if fd < 2 ∨ fd > 7 then (-1, k) else (0, k.openFd .fileop fd inode)

/-- `file_close`. -/
def fileClose (fd : ℕ) (k : Kernel) : ℤ × Kernel :=
  k.closeFd 0xFFFFFFFF fd

/-- `directory_open`. -/
def directoryOpen (fd : ℕ) (_inode : Word) (k : Kernel) : ℤ × Kernel :=
  if fd < 2 ∨ fd > 7 then (-1, k) else (0, k.openFd .directory fd 0)

/-- `directory_close`. -/
def directoryClose (fd : ℕ) (k : Kernel) : ℤ × Kernel :=
  k.closeFd 0xFFFFFFFF fd

/-! ## The drivers' `read` -/

/-- `file_read`. -/
def fileRead (img : Image) (fd : ℕ) (nbytes : ℤ) (k : Kernel) : ReadResult :=
  let e := k.curFd fd
  if e.flags = 0 then ⟨-1, [], k⟩
  else
    let r := img.readData e.inode e.filePosition (toWord nbytes)
    ⟨r.1, r.2, k.setCurFd fd { e with filePosition := e.filePosition + toWord r.1 }⟩

/-- `directory_read`. -/
def directoryRead (img : Image) (fd : ℕ) (k : Kernel) : ReadResult :=
  if fd < 2 ∨ fd > 7 then ⟨-1, [], k⟩
  else
    let e := k.curFd fd
    match img.readDentryByIndex e.filePosition with
    | none => ⟨0, [], k⟩
    | some dent =>
      let buf := (List.range 32).map dent.name
      ⟨(buf.takeWhile (· ≠ 0)).length, buf ++ [0],
        k.setCurFd fd { e with filePosition := e.filePosition + 1 }⟩

/-! ## Dispatch through a table -/

/-- `table_pointer->open`. -/
def opsOpen (ops : Fileops) (fd : ℕ) (inode : Word) (k : Kernel) : ℤ × Kernel :=
  match ops with
  | .fileop => k.fileOpen fd inode
  | .directory => k.directoryOpen fd inode
  | .rtc => k.rtcOpen fd inode
  | .keyboard => k.keyboardOpen fd

/-- `table_pointer->close`. -/
def opsClose (ops : Fileops) (fd : ℕ) (k : Kernel) : ℤ × Kernel :=
  match ops with
  | .fileop => k.fileClose fd
  | .directory => k.directoryClose fd
  | .rtc => k.rtcClose fd
  | .keyboard => k.keyboardClose fd

/-- `table_pointer->read`. -/
def opsRead (img : Image) (ops : Fileops) (fd : ℕ) (nbytes : ℤ) (k : Kernel) : Option ReadResult :=
  match ops with
  | .fileop => some (k.fileRead img fd nbytes)
  | .directory => some (k.directoryRead img fd)
  | .rtc => some k.rtcRead
  | .keyboard => k.keyboardRead fd

/-- `table_pointer->write`. `file_write` and `directory_write` return -1. -/
def opsWrite (ops : Fileops) (buf : ℕ → Byte) (nbytes : ℤ) (k : Kernel) : ℤ × Kernel :=
  match ops with
  | .fileop => (-1, k)
  | .directory => (-1, k)
  | .rtc => k.rtcWrite buf nbytes
  | .keyboard => k.keyboardWrite buf nbytes

/-! ## The system calls -/

/-- `MAX_FD`. -/
def maxFd : ℤ :=
  7

/-- `MIN_FD`. -/
def minFd : ℤ :=
  2

/-- `get_avail_fd`. `none` is its failure. -/
def getAvailFd (k : Kernel) : Option ℕ :=
  [2, 3, 4, 5, 6, 7].find? fun i => (k.curFd i).flags = 0

/-- `set_fileop_ptr`. A type above 2 leaves the entry as it is. -/
def setFileopPtr (fd : ℕ) (type : Word) (k : Kernel) : Kernel :=
  let e := k.curFd fd
  if type = 0 then k.setCurFd fd { e with tablePointer := some .rtc }
  else if type = 1 then k.setCurFd fd { e with tablePointer := some .directory }
  else if type = 2 then k.setCurFd fd { e with tablePointer := some .fileop }
  else k

/-- `open`. -/
def sysOpen (img : Image) (filename : ℕ → Byte) (k : Kernel) : Option (ℤ × Kernel) :=
  match k.getAvailFd with
  | none => some (-1, k)
  | some fd =>
    match img.readDentryByName filename with
    | none => some (-1, k)
    | some entry =>
      let k := k.setFileopPtr fd entry.type
      (k.curFd fd).tablePointer.map fun ops => (fd, (k.opsOpen ops fd entry.inode).2)

/-- `write`. `buf` is `none` for a null pointer. -/
def sysWrite (fd : ℤ) (buf : Option (ℕ → Byte)) (nbytes : ℤ) (k : Kernel) : Option (ℤ × Kernel) :=
  if fd < 0 ∨ fd > maxFd then some (-1, k)
  else match buf with
  | none => some (-1, k)
  | some buf =>
    if (k.curFd fd.toNat).flags = 0 then some (-1, k)
    else if fd = 0 then some (-1, k)
    else (k.curFd fd.toNat).tablePointer.map fun ops => k.opsWrite ops buf nbytes

/-- The stores of a read at `buf`, which nothing has looked at. Those outside the program page
are not followed. -/
def ReadResult.storeAt (buf : Word) (r : ReadResult) : ReadResult :=
  { r with kernel := r.kernel.storeUser buf r.stored }

/-- The bytes at `buf` lie in the program page. -/
def InPage (buf : Word) (bytes : List Byte) : Prop :=
  bytes = [] ∨ programPage ≤ buf.toNat ∧ buf.toNat + bytes.length ≤ programPage + pageSize

instance (buf : Word) (bytes : List Byte) : Decidable (InPage buf bytes) :=
  inferInstanceAs (Decidable (_ ∨ _))

/-- `read`. -/
def sysRead (img : Image) (fd : ℤ) (buf : Word) (nbytes : ℤ) (k : Kernel) : Option ReadResult :=
  if fd < 0 ∨ fd > maxFd then some ⟨-1, [], k⟩
  else if buf = 0 then some ⟨-1, [], k⟩
  else if (k.curFd fd.toNat).flags = 0 then some ⟨-1, [], k⟩
  else if fd = 1 then some ⟨-1, [], k⟩
  else ((k.curFd fd.toNat).tablePointer.bind fun ops => k.opsRead img ops fd.toNat nbytes).map
    (ReadResult.storeAt buf)

/-- `close`. -/
def sysClose (fd : ℤ) (k : Kernel) : Option (ℤ × Kernel) :=
  if fd < minFd ∨ fd > maxFd then some (-1, k)
  else if (k.curFd fd.toNat).flags = 0 then some (-1, k)
  else (k.curFd fd.toNat).tablePointer.map fun ops => (0, (k.opsClose ops fd.toNat).2)

end Kernel

end MpOS
