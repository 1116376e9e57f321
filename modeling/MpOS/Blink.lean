import Mathlib.Data.Fintype.Basic
import MpOS.State
import MpOS.Lib.Loop
import MpOS.Lib.LinkPath
import MpOS.Lib.Transition

/-!
# Blinking characters (`blink.S`, `fish.c`)

The nodes of the blink list are slots of `blink_array`. Whether a slot is free is not
stored : `mp1_malloc` takes a slot of location 0 for free, and `mp1_free` zeroes one.

The walks over the list (the tasklet's, `mp1_find_helper`'s and the search for the
predecessor in `mp1_ioctl_remove`) are cut off after a number of passes, and an operation
whose walk is cut off is `none`.
-/

namespace MpOS

/-- An index into `blink_array`. -/
abbrev Slot :=
  Fin (80 * 25)

/-- `struct mp1_blink_struct`. -/
structure BlinkStruct where
  location : UInt16
  onChar : Byte
  offChar : Byte
  onLength : UInt16
  offLength : UInt16
  countdown : UInt16
  status : UInt16
  next : Option Slot

/-- A zeroed slot. -/
def BlinkStruct.zero : BlinkStruct :=
  ⟨0, 0, 0, 0, 0, 0, 0, none⟩

/-- The blink list's memory, and the screen from `vmem_base_addr` on. -/
structure Fish where
  blinkArray : Slot → BlinkStruct
  mp1ListHead : Option Slot
  vmem : ℕ → Byte

namespace Fish

/-- Store a node. -/
def setNode (s : Fish) (i : Slot) (node : BlinkStruct) : Fish :=
  { s with blinkArray := Function.update s.blinkArray i node }

theorem setNode_self (s : Fish) (i : Slot) (node : BlinkStruct) :
    (s.setNode i node).blinkArray i = node := by
  simp [setNode]

theorem setNode_of_ne (s : Fish) {i j : Slot} (hj : j ≠ i) (node : BlinkStruct) :
    (s.setNode i node).blinkArray j = s.blinkArray j := by
  simp [setNode, hj]

/-- `mp1_poke`. -/
def poke (s : Fish) (c : Byte) (offset : ℕ) : Fish :=
  { s with vmem := Function.update s.vmem offset c }

theorem poke_self (s : Fish) (c : Byte) (offset : ℕ) : (s.poke c offset).vmem offset = c := by
  simp [poke]

theorem poke_of_ne (s : Fish) (c : Byte) {offset n : ℕ} (hn : n ≠ offset) :
    (s.poke c offset).vmem n = s.vmem n := by
  simp [poke, hn]

/-- `mp1_malloc`. -/
def mp1Malloc (s : Fish) : Option Slot :=
  (List.finRange (80 * 25)).find? fun i => (s.blinkArray i).location = 0

/-- `mp1_free`. -/
def mp1Free (s : Fish) (i : Slot) : Fish :=
  s.setNode i .zero

/-- The tasklet's work on a node. -/
def tick (s : Fish) (i : Slot) : Fish :=
  let node := s.blinkArray i
  let countdown := node.countdown - 1
  if countdown.toInt16 > 0 then s.setNode i { node with countdown := countdown }
  else
    let offset := 2 * node.location.toNat
    if node.status &&& 1 = 0 then
      (s.poke node.onChar offset).setNode i
        { node with countdown := node.onLength, status := node.status ^^^ 1 }
    else
      (s.poke node.offChar offset).setNode i
        { node with countdown := node.offLength, status := node.status ^^^ 1 }

/-- A pass of the tasklet's loop. -/
def taskletPass (p : Option Slot × Fish) : (Option Slot × Fish) ⊕ Fish :=
  match p.1 with
  | none => .inr p.2
  | some i =>
    let s := p.2.tick i
    .inl ((s.blinkArray i).next, s)

/-- `mp1_rtc_tasklet`. -/
def mp1RtcTasklet (passes : ℕ) (s : Fish) : Option Fish :=
  Loop.iterate taskletPass passes (s.mp1ListHead, s)

/-- A pass of the loop of `mp1_find_helper`. -/
def findPass (s : Fish) (location : UInt16) (p : Option Slot) : Option Slot ⊕ Option Slot :=
  match p with
  | none => .inr none
  | some i =>
    if (s.blinkArray i).location = location then .inr (some i) else .inl (s.blinkArray i).next

/-- `mp1_find_helper`. -/
def mp1FindHelper (passes : ℕ) (s : Fish) (location : UInt16) : Option (Option Slot) :=
  Loop.iterate (s.findPass location) passes s.mp1ListHead

/-- `mp1_ioctl_add`, with the structure it copies from the user. -/
def mp1IoctlAdd (s : Fish) (user : BlinkStruct) : ℤ × Fish :=
  if user.location ≥ 80 * 25 then (-1, s)
  else
    let temp := { user with status := 1, countdown := user.onLength }
    match s.mp1Malloc with
    | none => (-1, s)
    | some i =>
      let s := s.setNode i { temp with next := s.mp1ListHead }
      (0, { s with mp1ListHead := some i }.poke temp.onChar (2 * temp.location.toNat))

/-- The link at a place : the list head, or a node's `next`. -/
def link (s : Fish) : Option Slot → Option Slot
  | none => s.mp1ListHead
  | some i => (s.blinkArray i).next

/-- Store to the link at a place. -/
def setLink (s : Fish) (place next : Option Slot) : Fish :=
  match place with
  | none => { s with mp1ListHead := next }
  | some i => s.setNode i { s.blinkArray i with next := next }

/-- A pass of `remove_find_prev`. There is no link behind a null pointer. -/
def findPrevPass (s : Fish) (i : Slot) (place : Option Slot) :
    Option Slot ⊕ Option (Option Slot) :=
  if s.link place = some i then .inr (some place)
  else
    match s.link place with
    | none => .inr none
    | some j => .inl (some j)

/-- `mp1_ioctl_remove`. -/
def mp1IoctlRemove (passes : ℕ) (s : Fish) (arg : Word) : Option (ℤ × Fish) := do
  match ← s.mp1FindHelper passes arg.toUInt16 with
  | none => some (-1, s)
  | some i => do
    let place ← (← Loop.iterate (s.findPrevPass i) passes none)
    some (0, (s.setLink place (s.blinkArray i).next).mp1Free i)

/-- The character `mp1_ioctl_sync` puts. `testb` sets the sign flag from the bit it tests and
clears the overflow flag, and `cmovl` moves if the two differ. -/
def syncChar (node : BlinkStruct) : Byte :=
  let ecx := node.offChar
  let ebx := node.onChar
  let signFlag := node.status.toUInt8 &&& 1 ≥ 128
  let overflowFlag := False
  if signFlag ↔ overflowFlag then ecx else ebx

/-- `sync_copy_loop` and `sync_display`, from the node `esi` to the node `edi`. -/
def synced (s : Fish) (esi edi : Slot) : Fish :=
  let source := s.blinkArray esi
  let node := { s.blinkArray edi with
    onLength := source.onLength
    offLength := source.offLength
    countdown := source.countdown
    status := source.status }
  (s.setNode edi node).poke (syncChar node) (2 * node.location.toNat)

/-- `mp1_ioctl_sync`. -/
def mp1IoctlSync (passes : ℕ) (s : Fish) (arg : Word) : Option (ℤ × Fish) := do
  match ← s.mp1FindHelper passes (arg >>> 16).toUInt16 with
  | none => some (-1, s)
  | some esi => do
    match ← s.mp1FindHelper passes (arg &&& 0xFFFF).toUInt16 with
    | none => some (-1, s)
    | some edi => some (0, s.synced esi edi)

/-- `mp1_ioctl_find` : what it returns, and the structure it copies to the user. -/
def mp1IoctlFind (passes : ℕ) (s : Fish) (location : UInt16) :
    Option (ℤ × Option BlinkStruct) := do
  match ← s.mp1FindHelper passes location with
  | none => some (-1, none)
  | some i => some (0, some (s.blinkArray i))

/-! ## Runs -/

/-- A call of `mp1_ioctl` or a tick. -/
inductive Event
  | add (user : BlinkStruct)
  | remove (arg : Word)
  | find (location : UInt16)
  | sync (arg : Word)
  | tasklet

/-- What an event returns, and the state it leaves. -/
def call (passes : ℕ) (s : Fish) : Event → Option (ℤ × Fish)
  | .add user => some (s.mp1IoctlAdd user)
  | .remove arg => s.mp1IoctlRemove passes arg
  | .find location => (s.mp1IoctlFind passes location).map fun r => (r.1, s)
  | .sync arg => s.mp1IoctlSync passes arg
  | .tasklet => (s.mp1RtcTasklet passes).map fun s => (0, s)

/-- A step of a run. -/
def step (passes : ℕ) (s : Fish) (e : Event) : Option Fish :=
  (s.call passes e).map Prod.snd

/-- The empty list and the zeroed pool. -/
def start (vmem : ℕ → Byte) : Fish :=
  ⟨fun _ => .zero, none, vmem⟩

end Fish

end MpOS
