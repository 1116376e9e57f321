import MpOS.Arguments
import MpOS.Context
import MpOS.Lookup

/-!
# What `execute` accepts

`execute` looks up the first word of the command and reads four bytes of the file it finds
into `magic`. It does not look at the type of the entry, nor at what `read_data` returns.
So the header may be that of whatever file has the inode number of a device, of bytes
behind the end of a short file, or what the stack held before (`startsExecutables_iff`).
-/

namespace MpOS

open ZeroBuffer

/-- The magic constants. -/
def elfMagic : List Byte :=
  [0x7F, 0x45, 0x4C, 0x46]

namespace Image

variable {img : Image} {inode : Word}

/-! ## Headers and programs -/

/-- `read_data` stores nothing from the start of the file : its inode is rejected, or its first
block number. -/
def Unreadable (img : Image) (inode : Word) : Prop :=
  img.Rejected inode ∨ img.Blocked inode 0

instance (img : Image) (inode : Word) : Decidable (img.Unreadable inode) :=
  inferInstanceAs (Decidable (_ > _ ∨ _ > _))

theorem readData_of_unreadable (h : img.Unreadable inode) (n : Word) :
    (img.readData inode 0 n).2 = [] := by
  have hr := img.readData_result inode 0 n
  generalize img.readData inode 0 n = r at hr
  cases hr with
  | rejected _ => rfl
  | nothing _ _ => rfl
  | stopped J hrej hJ _ hall _ => exact absurd h (not_or.2 ⟨hrej, hall 0 (Nat.zero_le _) hJ⟩)
  | complete E hrej _ hE hall => exact absurd h (not_or.2 ⟨hrej, hall 0 (Nat.zero_le _) hE⟩)

/-- The header is the start of the first block, however short the file, -/
theorem readData_header (h : ¬img.Unreadable inode) (hlen : img.length inode ≠ 0) :
    (img.readData inode 0 4).2 = img.slice inode 0 4 := by
  obtain ⟨hrej, hblock⟩ := not_or.1 h
  have hpos : 0 < (img.length inode).toNat := by
    rw [Nat.pos_iff_ne_zero, ne_eq, ← UInt32.toNat_zero, UInt32.toNat_inj]
    exact hlen
  have hend : (img.endBlock inode 0 4).toNat = 0 := by
    have h4 : ((0 : Word).toNat + (4 : Word).toNat) % 2 ^ 32 = 4 := rfl
    rw [toNat_endBlock, h4, lastBlock]
    split_ifs
    · omega
    · omega
  rw [readData_eq_complete hrej hend (Nat.zero_le _) fun j _ hj => by
    rw [Nat.le_zero.1 hj]
    exact hblock]
  exact @slice_append_lastCopy img inode 0 4 0 (Nat.zero_le _) (by decide) (by decide)

/-- and of an empty file with a block it is far more than four bytes. -/
theorem length_header_of_empty (h : ¬img.Unreadable inode) (hlen : img.length inode = 0) :
    4 < (img.readData inode 0 4).2.length := by
  obtain ⟨hrej, hblock⟩ := not_or.1 h
  have hend : (img.endBlock inode 0 4).toNat = 0xFFFFF := by
    rw [toNat_endBlock, hlen]
    rfl
  have hr := img.readData_result inode 0 4
  generalize img.readData inode 0 4 = r at hr
  cases hr with
  | rejected hrej' => exact absurd hrej' hrej
  | nothing _ hno =>
    rcases hno with hb | hlt
    · exact absurd hb hblock
    · exact absurd hlt (Nat.not_lt_zero _)
  | stopped J _ hJ _ _ _ =>
    have hJ' : 0 < J := hJ
    rw [length_slice, UInt32.toNat_zero]
    omega
  | complete E _ hE _ _ =>
    rw [List.length_append, length_slice, UInt32.toNat_zero, hE, hend]
    omega

/-- The part of a program that `read_data` delivers fits the program page. -/
def FitsPage (img : Image) (inode : Word) : Prop :=
  (img.length inode).toNat ≤ Kernel.programRoom ∨ ∃ J, 4096 * J ≤ Kernel.programRoom ∧
    4096 * J < (img.length inode).toNat ∧ img.Blocked inode (UInt32.ofNat J)

theorem length_program_le_iff (h : ¬img.Unreadable inode) (hlen : img.length inode ≠ 0) :
    (img.readData inode 0 (img.length inode)).2.length ≤ Kernel.programRoom ↔
      img.FitsPage inode := by
  obtain ⟨hrej, hblock⟩ := not_or.1 h
  have hpos : 0 < (img.length inode).toNat := by
    rw [Nat.pos_iff_ne_zero, ne_eq, ← UInt32.toNat_zero, UInt32.toNat_inj]
    exact hlen
  have hmax := (img.length inode).toNat_lt
  have hend : (img.endBlock inode 0 (img.length inode)).toNat =
      ((img.length inode).toNat - 1) / 4096 := by
    rw [toNat_endBlock_of_le hpos (Nat.zero_add _).le, UInt32.toNat_zero, Nat.zero_add]
  rcases img.exists_blocked inode 0 (((img.length inode).toNat - 1) / 4096) with
    hall | ⟨J, -, hJ, hb, hbefore⟩
  · -- all blocks are in range, and the whole file is read
    have hnone : ¬∃ J, 4096 * J ≤ Kernel.programRoom ∧ 4096 * J < (img.length inode).toNat ∧
        img.Blocked inode (UInt32.ofNat J) :=
      fun ⟨J, _, hlt, hb⟩ => hall J (Nat.zero_le _) (by omega) hb
    rw [FitsPage, or_iff_left hnone, readData_eq_complete hrej hend (Nat.zero_le _) hall]
    simp only [List.length_append, length_slice, memcpy, List.length_map, List.length_range,
      UInt32.toNat_zero, Nat.sub_zero]
    rw [UInt32.toNat_sub_of_le, toNat_word (by omega)]
    · omega
    · rw [UInt32.le_iff_toNat_le, toNat_word (by omega)]
      omega
  · -- the file is read up to its first block out of range
    have hJpos : J ≠ 0 := by
      rintro rfl
      exact hblock hb
    have hread := @readData_eq_stopped img inode 0 (img.length inode) J hrej (Nat.zero_le _)
      (hend ▸ hJ) hbefore hb
    rw [hread, length_slice, UInt32.toNat_zero, Nat.sub_zero]
    constructor
    · exact fun hle => Or.inr ⟨J, hle, by omega, hb⟩
    · rintro (hle | ⟨J', hle, -, hb'⟩)
      · omega
      · have hJJ' : J ≤ J' := Nat.le_of_not_lt fun hlt => hbefore J' (Nat.zero_le _) hlt hb'
        omega

end Image

/-! ## Outcomes -/

namespace Kernel

theorem magicOk_of_length {l : List Byte} (h : l.length = 4) (magic : ℕ → Byte) :
    magicOk magic l = true ↔ l = elfMagic := by
  match l, h with
  | [a, b, c, d], _ => simp [magicOk, elfMagic, and_assoc]

theorem magicOk_nil (magic : ℕ → Byte) :
    magicOk magic [] = true ↔ (List.range 4).map magic = elfMagic := by
  simp [magicOk, elfMagic, List.range_succ, and_assoc]

variable {img : Image} {frame : ExecFrame} {command : CString} {k : Kernel}

/-- `execute` starts a process exactly if there is a program of the name and a free PCB. -/
theorem execute_iret_iff : (∃ pid target k', k.execute img frame command =
    some (.iret pid target, k')) ↔ Executable img frame command ∧ k.getAvailPcb ≠ none := by
  constructor
  · rintro ⟨pid, target, k', h⟩
    refine ⟨executable_of_iret h, ?_⟩
    rcases execute_cases h with hfail | ⟨_, _, _, -, hs⟩ | ⟨_, _, _, _, hfault, -, -⟩
    · simp at hfail
    · rw [hs.avail]
      simp
    · simp at hfault
  · rintro ⟨hx, hp⟩
    rcases execute_of_executable hx k with ⟨-, hnone⟩ | ⟨pid, target, k', h, -⟩
    · exact absurd hnone hp
    · exact ⟨pid, target, k', h⟩

/-! ## Executables -/

end Kernel

/-- The first word of a command. -/
def CString.word (command : CString) : CString :=
  ⟨firstWord command.chars, zero_not_mem_firstWord command⟩

theorem commandName_eq_word (command : CString) :
    Kernel.commandName command = command.word.mem :=
  commandName_eq command

namespace Image

/-- A regular file that starts with the magic constants. -/
structure IsExecutable (img : Image) (d : Dentry) : Prop where
  type : d.type = 2
  inode : d.inode < img.fsInodes
  block : img.dblock d.inode 0 < img.fsDblocks
  magic : elfMagic <+: img.contents d.inode

/-- No name of a file is empty, and no two are the same. -/
structure DistinctNames (img : Image) : Prop where
  ne_nil : ∀ i < img.fsEntries.toNat, (img.dentry (UInt32.ofNat i)).nameChars ≠ []
  inj : ∀ i < img.fsEntries.toNat, ∀ j < img.fsEntries.toNat,
    (img.dentry (UInt32.ofNat i)).nameChars = (img.dentry (UInt32.ofNat j)).nameChars → i = j

variable {img : Image} {d : Dentry}

theorem IsExecutable.readable (h : img.IsExecutable d) : ¬img.Unreadable d.inode :=
  not_or.2 ⟨not_gt_sub_one h.inode, not_gt_sub_one h.block⟩

theorem isExecutable_iff : img.IsExecutable d ↔ d.type = 2 ∧ d.inode < img.fsInodes ∧
    img.dblock d.inode 0 < img.fsDblocks ∧ 4 ≤ (img.length d.inode).toNat ∧
      img.slice d.inode 0 4 = elfMagic := by
  have hmagic : elfMagic <+: img.contents d.inode ↔
      4 ≤ (img.length d.inode).toNat ∧ img.slice d.inode 0 4 = elfMagic := by
    have h4 : elfMagic.length = 4 := rfl
    constructor
    · intro h
      have hle := h.length_le
      rw [length_contents] at hle
      refine ⟨hle, ?_⟩
      rw [slice_eq_take_drop (by omega), List.drop_zero, ← h4]
      exact (List.prefix_iff_eq_take.1 h).symm
    · rintro ⟨hle, hslice⟩
      rw [slice_eq_take_drop (by omega), List.drop_zero] at hslice
      rw [← hslice]
      exact List.take_prefix _ _
  constructor
  · exact fun h => ⟨h.type, h.inode, h.block, hmagic.1 h.magic⟩
  · rintro ⟨ht, hi, hb, hm⟩
    exact ⟨ht, hi, hb, hmagic.2 hm⟩

end Image

namespace Kernel

/-- The first word names an executable and a PCB is free. -/
def Startable (img : Image) (command : CString) (k : Kernel) : Prop :=
  firstWord command.chars ≠ [] ∧
    (∃ i < img.fsEntries.toNat, (img.dentry (UInt32.ofNat i)).nameChars = firstWord command.chars ∧
      img.IsExecutable (img.dentry (UInt32.ofNat i))) ∧
    ∃ pid < 8, (k.proc.pcb pid).use = 0

/-- `execute` starts a process if the first word names an executable and a PCB is free, and
returns -1 if not. -/
structure StartsExecutables (img : Image) (frame : ExecFrame) (command : CString) (k : Kernel) :
    Prop where
  starts : Startable img command k →
    ∃ pid target k', k.execute img frame command = some (.iret pid target, k')
  fails : ¬Startable img command k → ∃ k', k.execute img frame command = some (.fail, k')

/-- What `execute` takes for a header is one. If nothing of the file can be read, the bytes on the
stack are no header by chance where a PCB is free. Else the file is not empty, and where a PCB is
free and its first block starts with the magic constants it is a regular file of four bytes at
least, in the tables of the image, that fits the program page as far as it is read. -/
def Genuine (img : Image) (frame : ExecFrame) (k : Kernel) (d : Dentry) : Prop :=
  if img.Unreadable d.inode then
    (∃ pid < 8, (k.proc.pcb pid).use = 0) → (List.range 4).map frame.magic ≠ elfMagic
  else
    img.length d.inode ≠ 0 ∧ ((∃ pid < 8, (k.proc.pcb pid).use = 0) →
      img.slice d.inode 0 4 = elfMagic →
        d.type = 2 ∧ d.inode < img.fsInodes ∧ img.dblock d.inode 0 < img.fsDblocks ∧
          4 ≤ (img.length d.inode).toNat ∧ img.FitsPage d.inode)

theorem exists_free_iff (k : Kernel) :
    (∃ pid < 8, (k.proc.pcb pid).use = 0) ↔ k.getAvailPcb ≠ none := by
  simp only [ne_eq, getAvailPcb_eq_none_iff, not_forall, not_not, exists_prop]

variable {img : Image} {frame : ExecFrame} {command : CString} {k : Kernel}

/-- Where the lookup finds an entry. -/
theorem startsExecutables_of_found {d : Dentry}
    (hname : nameStores command.chars ≤ fnameSize)
    (hd : img.readDentryByName (commandName command) = some d)
    (hs : Startable img command k ↔ img.IsExecutable d ∧ k.getAvailPcb ≠ none) :
    StartsExecutables img frame command k ↔ Genuine img frame k d := by
  have hfail : (∃ k', k.execute img frame command = some (.fail, k')) ↔
      (img.readData d.inode 0 4).2.length ≤ 4 ∧
        (magicOk frame.magic (img.readData d.inode 0 4).2 = true → k.getAvailPcb = none) := by
    rw [execute_fail_iff]
    simp [FitsFrame, Refused, hname, hd]
  have hiret : (∃ pid target k', k.execute img frame command = some (.iret pid target, k')) ↔
      ((img.readData d.inode 0 4).2.length ≤ 4 ∧
        magicOk frame.magic (img.readData d.inode 0 4).2 = true ∧
        (img.readData d.inode 0 (img.length d.inode)).2.length ≤ programRoom) ∧
      k.getAvailPcb ≠ none := by
    rw [execute_iret_iff, Executable]
    simp [hname, hd]
  have hdef : StartsExecutables img frame command k ↔
      (Startable img command k →
        ∃ pid target k', k.execute img frame command = some (.iret pid target, k')) ∧
      (¬Startable img command k → ∃ k', k.execute img frame command = some (.fail, k')) :=
    ⟨fun h => ⟨h.starts, h.fails⟩, fun h => ⟨h.1, h.2⟩⟩
  rw [hdef, hfail, hiret, hs, Genuine, exists_free_iff]
  by_cases hread : img.Unreadable d.inode
  · -- the bytes compared are those of the stack
    have hno : ¬img.IsExecutable d := fun h => h.readable hread
    have hmagic := magicOk_nil frame.magic
    rw [if_pos hread, img.readData_of_unreadable hread]
    simp only [hno, false_and, not_false_eq_true, false_implies, true_implies, true_and, hmagic,
      List.length_nil, Nat.zero_le]
    exact ⟨fun h hp hm => hp (h hm), fun h hm => not_not.1 fun hp => h hp hm⟩
  rw [if_neg hread]
  by_cases hlen : img.length d.inode = 0
  · -- more than four bytes are read
    have hno : ¬img.IsExecutable d := by
      rw [Image.isExecutable_iff, hlen]
      exact fun h => absurd h.2.2.2.1 (by decide)
    have hlong := Nat.not_le.2 (img.length_header_of_empty hread hlen)
    simp [hno, hlen, hlong]
  · have hheader := img.readData_header hread hlen
    have hslice : (img.slice d.inode 0 4).length = 4 := Image.length_slice 0 4
    have hmagic := magicOk_of_length hslice frame.magic
    rw [hheader, hmagic, hslice, Image.isExecutable_iff, img.length_program_le_iff hread hlen]
    by_cases hp : k.getAvailPcb = none
    · simp [hp, hlen]
    by_cases hm : img.slice d.inode 0 4 = elfMagic
    · simp only [hp, hm, hlen, le_refl, ne_eq, not_false_eq_true, and_true, true_and, true_implies,
        not_true_eq_false, imp_false, not_not]
      exact ⟨fun h => ⟨h.2.1, h.2.2.1, h.2.2.2.1, h.2.2.2.2, h.1 h.2⟩,
        fun h => ⟨fun _ => h.2.2.2.2, h.1, h.2.1, h.2.2.1, h.2.2.2.1⟩⟩
    · simp [hm, hlen]

/-- `execute` is right about a command exactly if the first word fits `fname`, and what it takes
for the header of the file of that name is one. -/
theorem startsExecutables_iff (hi : img.DistinctNames) (frame : ExecFrame) (command : CString)
    (k : Kernel) : StartsExecutables img frame command k ↔
      nameStores command.chars ≤ fnameSize ∧ ∀ i < img.fsEntries.toNat,
        (img.dentry (UInt32.ofNat i)).nameChars = firstWord command.chars →
          Genuine img frame k (img.dentry (UInt32.ofNat i)) := by
  by_cases hex : ∃ i < img.fsEntries.toNat,
      (img.dentry (UInt32.ofNat i)).nameChars = firstWord command.chars
  · obtain ⟨i, hfirst⟩ := Image.exists_firstNamed hex
    have huniq : ∀ j < img.fsEntries.toNat,
        (img.dentry (UInt32.ofNat j)).nameChars = firstWord command.chars → j = i :=
      fun j hj hname => hi.inj j hj i hfirst.lt (hname.trans hfirst.named.symm)
    have hne : firstWord command.chars ≠ [] := hfirst.named ▸ hi.ne_nil i hfirst.lt
    have hd := Image.FirstNamed.readDentryByName command.word.at_mem hfirst
    rw [← commandName_eq_word] at hd
    have hs : Startable img command k ↔
        img.IsExecutable (img.dentry (UInt32.ofNat i)) ∧ k.getAvailPcb ≠ none := by
      rw [Startable, exists_free_iff, and_iff_right hne]
      refine and_congr_left fun _ => ⟨?_, fun h => ⟨i, hfirst.lt, hfirst.named, h⟩⟩
      rintro ⟨j, hj, hname, h⟩
      rwa [← huniq j hj hname]
    -- the names of files are short
    have hlen : (firstWord command.chars).length ≤ 32 :=
      hfirst.named ▸ Image.length_nameChars_le _
    have hshort : nameStores command.chars ≤ fnameSize :=
      nameStores_le (Nat.lt_of_le_of_lt hlen (by decide))
    rw [startsExecutables_of_found hshort hd hs, and_iff_right hshort]
    constructor
    · intro h j hj hname
      rwa [huniq j hj hname]
    · exact fun h => h i hfirst.lt hfirst.named
  · -- no file of the name
    have hno : ¬Startable img command k :=
      fun h => hex ⟨h.2.1.choose, h.2.1.choose_spec.1, h.2.1.choose_spec.2.1⟩
    have hd : img.readDentryByName (commandName command) = none := by
      rw [commandName_eq_word]
      exact Image.readDentryByName_eq_none command.word.at_mem fun i hi h => hex ⟨i, hi, h⟩
    rw [and_iff_left fun i hi hname => absurd ⟨i, hi, hname⟩ hex]
    constructor
    · exact fun h => (execute_fail_iff.1 (h.fails hno)).1.1
    · intro hlen
      refine ⟨fun h => absurd h hno, fun _ => execute_fail_iff.2 ⟨⟨hlen, ?_⟩, ?_⟩⟩
      · simp [hd]
      · simp [Refused, hd]

theorem shellImage_distinctNames : shellImage.DistinctNames :=
  ⟨by decide, by decide⟩

theorem startsExecutables_shell :
    StartsExecutables shellImage ⟨0, 0, fun _ => 0⟩ shellCommand Machine.first.kernel := by
  refine (startsExecutables_iff shellImage_distinctNames _ _ _).2 ⟨by decide, fun i hi _ => ?_⟩
  obtain rfl : i = 0 := Nat.lt_one_iff.1 hi
  rw [Genuine, if_neg (by decide)]
  exact ⟨by decide, fun _ _ => ⟨rfl, by decide, by decide, by decide, Or.inl (by decide)⟩⟩

/-- An image whose directory entry has the inode number of a file with the magic constants. -/
def dotImage : Image where
  mem a := (([(0, 1), (4, 1), (8, 1), (64, 46), (96, 1), (4096, 4), (8192, 0x7F), (8193, 0x45),
    (8194, 0x4C), (8195, 0x46)] : List (Word × Byte)).lookup a).getD 0

/-- The command `.`. -/
def dotCommand : CString :=
  ⟨[46], by decide⟩

/-- The directory is executed. -/
theorem not_startsExecutables : dotImage.DistinctNames ∧
    ¬StartsExecutables dotImage ⟨0, 0, fun _ => 0⟩ dotCommand Machine.first.kernel := by
  refine ⟨⟨by decide, by decide⟩, fun h => ?_⟩
  have hno : ¬Startable dotImage dotCommand Machine.first.kernel := by
    rintro ⟨-, ⟨i, hi, -, hx⟩, -⟩
    obtain rfl : i = 0 := Nat.lt_one_iff.1 hi
    exact absurd hx.type (by decide)
  have hnone := (execute_fail_iff.1 (h.fails hno)).2 (dotImage.dentry 0) rfl (by decide)
  exact absurd hnone (by decide)

end Kernel

end MpOS
