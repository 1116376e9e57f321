import MpOS.State
import MpOS.Lib.Loop
import MpOS.Lib.TextLines
import MpOS.Lib.ZeroBuffer

/-!
# `grep` (`ece391grep.c`, `ece391support.c`)

`do_one_file` searches a file line by line through a buffer of 1024 bytes and one more for
a terminator. A line that the buffer ends in is moved to its front and the rest is
refilled. Whether the buffer ends in a line is decided by the byte behind what was read.

The loops over the buffer have `loopPasses` passes, which is more than it has bytes. The
loop over the reads is cut off after a number of passes.
-/

namespace MpOS

namespace Grep

/-- `BUFSIZE`. -/
def bufSize : ℕ :=
  1024

/-- The passes that are allowed for a loop over the buffer. -/
def loopPasses : ℕ :=
  bufSize + 2

/-- The calls that `do_one_file` makes on a file, with what they do to the state of the kernel. A
read returns its return value and the bytes it stores. -/
structure Calls (σ : Type*) where
  openFile : (filename : CString) → σ → ℤ × σ
  read : (fd : ℤ) → (nbytes : ℕ) → σ → ℤ × List Byte × σ
  close : (fd : ℤ) → σ → ℤ × σ

/-! ## `ece391support.c` -/

/-- A pass of `ece391_strcpy` within a buffer, from the index `src` to the front. -/
def strcpyPass (src : ℕ) (p : ℕ × (ℕ → Byte)) : (ℕ × (ℕ → Byte)) ⊕ (ℕ → Byte) :=
  let c := p.2 (src + p.1)
  let data := Function.update p.2 p.1 c
  if c ≠ 0 then .inl (p.1 + 1, data) else .inr data

/-- `ece391_strcpy` within a buffer, from the index `src` to the front. -/
def strcpy (data : ℕ → Byte) (src : ℕ) : Option (ℕ → Byte) :=
  Loop.iterate (strcpyPass src) loopPasses (0, data)

/-- `ece391_fdputs`, from a buffer of `n` bytes : the bytes it writes. -/
def fdputs (n : ℕ) (s : ℕ → Byte) : Option (List Byte) :=
  (ZeroBuffer.strlen n s).map (ZeroBuffer.string s)

/-- `ece391_strncmp`, from an index on with `n` bytes left to compare. -/
def strncmp (s1 s2 : ℕ → Byte) : (n i : ℕ) → ℤ
  | 0, _ => 0
  | n + 1, i =>
    if s1 i = s2 i then
      if s1 i = 0 then 0 else strncmp s1 s2 n (i + 1)
    else ((s1 i).toNat : ℤ) - (s2 i).toNat

/-! ## The loop over the lines -/

/-- The loop for `line_end`, with `n` bytes left. -/
def lineEnd (data : ℕ → Byte) : (n i : ℕ) → ℕ
  | 0, i => i
  | n + 1, i => if data i ≠ 10 then lineEnd data n (i + 1) else i

/-- The test of the loop for `check`. `s` is a `char` pointer, and `data` an array of `uint8_t`. -/
def matchesAt (s : CString) (data : ℕ → Byte) (check : ℕ) : Bool :=
  (s.mem 0).toInt8.toInt = ((data check).toNat : ℤ) ∧
    strncmp (fun i => data (check + i)) s.mem s.strlen 0 = 0

/-- What the loop for `check` puts. -/
def search (s fname : CString) (data : ℕ → Byte) (lineStart lineEnd : ℕ) : Option (List Byte) :=
  if (List.range' lineStart (lineEnd - lineStart)).any (matchesAt s data) then
    (fdputs loopPasses fun i => data (lineStart + i)).map fun line =>
      fname.chars ++ [58] ++ line ++ [10]
  else some []

/-- What the loops work on. -/
structure Scan where
  last : ℕ
  lineStart : ℕ
  data : ℕ → Byte
  out : List Byte

/-- A pass of the loop over the lines in the buffer. -/
def linePass (s fname : CString) (cnt : ℤ) (b : Scan) : Scan ⊕ Option Scan :=
  let lineEnd := lineEnd b.data (b.last - b.lineStart) b.lineStart
  let data := Function.update b.data lineEnd 0
  if b.data lineEnd ≠ 10 ∧ cnt ≠ 0 ∧ b.lineStart ≠ 0 then
    .inr ((strcpy data b.lineStart).map fun data =>
      { b with last := b.last - b.lineStart, data := data })
  else
    match search s fname data b.lineStart lineEnd with
    | none => .inr none
    | some text =>
      let b := { b with lineStart := lineEnd + 1, data := data, out := b.out ++ text }
      if b.lineStart ≥ b.last then .inr (some { b with last := 0 }) else .inl b

/-- The loop over the lines in the buffer. -/
def lineLoop (s fname : CString) (cnt : ℤ) (b : Scan) : Option Scan :=
  (Loop.iterate (linePass s fname cnt) loopPasses { b with lineStart := 0 }).join

/-! ## The loop over the reads -/

/-- The buffer with what a read has stored behind `last`. -/
def stored (data : ℕ → Byte) (last : ℕ) (bytes : List Byte) (i : ℕ) : Byte :=
  if last ≤ i then bytes.getD (i - last) (data i) else data i

/-- `"file open failed\n"`. -/
def openFailed : List Byte :=
  "file open failed\n".toList.map Char.toUInt8

/-- `"file read failed\n"`. -/
def readFailed : List Byte :=
  "file read failed\n".toList.map Char.toUInt8

/-- `"file close failed\n"`. -/
def closeFailed : List Byte :=
  "file close failed\n".toList.map Char.toUInt8

/-- What `do_one_file` returns, and puts. -/
structure Result (σ : Type*) where
  ret : ℤ
  out : List Byte
  state : σ

section Calls

variable {σ : Type*} (calls : Calls σ) (s fname : CString)

/-- The end of `do_one_file`. -/
def finish (fd : ℤ) (out : List Byte) (st : σ) : Result σ :=
  let r := calls.close fd st
  if r.1 = -1 then ⟨-1, out ++ closeFailed, r.2⟩ else ⟨0, out, r.2⟩

/-- A pass of the loop over the reads. -/
def readPass (fd : ℤ) (p : Scan × σ) : (Scan × σ) ⊕ Option (Result σ) :=
  let r := calls.read fd (bufSize - p.1.last) p.2
  let cnt := r.1
  let st := r.2.2
  if cnt = -1 then .inr (some ⟨-1, p.1.out ++ readFailed, st⟩)
  else
    let b := { p.1 with
      last := p.1.last + cnt.toNat
      data := stored p.1.data p.1.last r.2.1 }
    match lineLoop s fname cnt b with
    | none => .inr none
    | some b => if cnt = 0 then .inr (some (finish calls fd b.out st)) else .inl (b, st)

/-- `do_one_file`, with what its buffer holds at first. -/
def doOneFile (passes : ℕ) (data : ℕ → Byte) (st : σ) : Option (Result σ) :=
  let r := calls.openFile fname st
  if r.1 = -1 then some ⟨-1, openFailed, r.2⟩
  else (Loop.iterate (readPass calls s fname r.1) passes (⟨0, 0, data, []⟩, r.2)).join

end Calls

end Grep

end MpOS
