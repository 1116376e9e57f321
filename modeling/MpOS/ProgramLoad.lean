import MpOS.Executables
import MpOS.Streaming

/-!
# Loading a program

`execute` maps the page of the new process, reads the file to `TARGET_MEM` in that page,
and takes the entry point from the memory there. It compares the length of the file with
nothing. A file may be longer than what is left of the page, and the entry point of a file
without a whole header is what the memory held before (`loads_iff`).
-/

namespace MpOS

namespace Kernel

/-! ## What a load does -/

/-- The file is in the page of the new process, within it, and nowhere else, and the entry point
is that of its header. -/
structure Loads (img : Image) (d : Dentry) (k k' : Kernel) (pid target : Word) : Prop where
  page : k'.paging.pdt exec = startAddress + fourMb * pid
  inside : targetMem + (img.contents d.inode).length ≤ pageSize
  program : ∀ i < (img.contents d.inode).length,
    k'.screen.frame (k'.paging.pdt exec) (targetMem + i) = (img.contents d.inode).getD i 0
  rest : ∀ i, i < targetMem ∨ targetMem + (img.contents d.inode).length ≤ i →
    k'.screen.frame (k'.paging.pdt exec) i = k.screen.frame (k'.paging.pdt exec) i
  frames : ∀ e ≠ k'.paging.pdt exec, k'.screen.frame e = k.screen.frame e
  ram : k'.screen.ram = k.screen.ram
  header : 28 ≤ (img.contents d.inode).length
  entry : target = wordAt (fun i => (img.contents d.inode).getD i 0) 24

variable {img : Image} {frame : ExecFrame} {command : CString} {k : Kernel} {d : Dentry}
  {pid : Word}

/-- The kernel once the program is in memory and the registers are saved. -/
def loaded (frame : ExecFrame) (command : CString) (pid : Word) (program : List Byte)
    (k : Kernel) : Kernel :=
  (((k.setInterruptFlag false).startProcess command pid).loadProgram program).saveFrame frame pid

/-- A name that is found is shorter than `fname`. -/
theorem nameStores_of_found (hd : img.readDentryByName (commandName command) = some d) :
    nameStores command.chars ≤ fnameSize := by
  rw [commandName_eq_word] at hd
  refine nameStores_le ?_
  by_contra hlong
  have hno : img.readDentryByName command.word.mem = none := by
    refine Image.readDentryByName_eq_none command.word.at_mem fun i _ hname => hlong ?_
    have hlen := Image.length_nameChars_le (img.dentry (UInt32.ofNat i))
    rw [hname] at hlen
    exact Nat.lt_of_le_of_lt hlen (by decide)
  rw [hno] at hd
  exact absurd hd (by simp)

theorem execute_eq_iret (hd : img.readDentryByName (commandName command) = some d)
    (hheader : (img.readData d.inode 0 4).2.length ≤ 4)
    (hmagic : magicOk frame.magic (img.readData d.inode 0 4).2 = true)
    (hp : k.getAvailPcb = some pid)
    (hroom : (img.readData d.inode 0 (img.length d.inode)).2.length ≤ programRoom) :
    let k₁ := k.loaded frame command pid (img.readData d.inode 0 (img.length d.inode)).2
    k.execute img frame command = some
      (.iret pid (wordAt (k₁.screen.frame (k₁.paging.pdt exec)) entryMem),
        k₁.setInterruptFlag true) := by
  have havail : (k.setInterruptFlag false).getAvailPcb = some pid := hp
  simp only [execute, Nat.not_lt.2 (nameStores_of_found hd), hd, Nat.not_lt.2 hheader,
    if_false, hmagic, Bool.not_true, Bool.false_eq_true, havail, Nat.not_lt.2 hroom]
  rfl

/-- The program page is mapped before the copy, which goes to no other. -/
theorem loaded_spec (frame : ExecFrame) (command : CString) (pid : Word) (program : List Byte)
    (k : Kernel) :
    (k.loaded frame command pid program).paging.pdt exec = startAddress + fourMb * pid ∧
      (k.loaded frame command pid program).screen.ram = k.screen.ram ∧
      ∀ e i, (k.loaded frame command pid program).screen.frame e i =
        if e = startAddress + fourMb * pid ∧ targetMem ≤ i then
          program.getD (i - targetMem) (k.screen.frame e i)
        else k.screen.frame e i := by
  have hstart := startProcess_eq frame.magic command pid (k.setInterruptFlag false)
  have hpage : ((k.setInterruptFlag false).startProcess command pid).paging.pdt exec =
      startAddress + fourMb * pid := by
    rw [hstart]
    exact mapPageExec_pdt_exec _ _
  have hscreen : ((k.setInterruptFlag false).startProcess command pid).screen = k.screen := by
    rw [hstart]
    rfl
  refine ⟨hpage, ?_, fun e i => ?_⟩
  · simp only [loaded, loadProgram, saveFrame, modifyPcb, hscreen]
  · simp only [loaded, loadProgram, saveFrame, modifyPcb, hpage, hscreen]
    by_cases he : e = startAddress + fourMb * pid
    · simp only [he, if_true, true_and]
    · simp only [he, if_false, false_and]

/-- A file in the tables of the image is read as a whole. -/
theorem readData_program (hi : img.InodeOk d.inode) (hlen : img.length d.inode ≠ 0) :
    (img.readData d.inode 0 (img.length d.inode)).2 = img.contents d.inode := by
  have hpos : 0 < (img.length d.inode).toNat := by
    rw [Nat.pos_iff_ne_zero, ne_eq, ← UInt32.toNat_zero, UInt32.toNat_inj]
    exact hlen
  have hread := hi.readData_of_le hpos (Nat.zero_add _).le
  rw [UInt32.ofNat_toNat] at hread
  have htake : (img.contents d.inode).take (img.length d.inode).toNat = img.contents d.inode := by
    rw [← img.length_contents d.inode, List.take_length]
  rw [List.drop_zero, htake] at hread
  exact congrArg Prod.snd hread

/-- Bytes of the file in memory. -/
theorem getD_of_lt {l : List Byte} {i : ℕ} (h : i < l.length) (a b : Byte) :
    l.getD i a = l.getD i b := by
  rw [List.getD_eq_getElem _ _ h, List.getD_eq_getElem _ _ h]

/-- A program that fits the page and has a whole header is loaded as it should be. -/
theorem loads_loaded {program : List Byte} (hp : program = img.contents d.inode)
    (hheader : 28 ≤ program.length) (hroom : program.length ≤ programRoom) :
    let k₁ := k.loaded frame command pid program
    Loads img d k (k₁.setInterruptFlag true) pid
      (wordAt (k₁.screen.frame (k₁.paging.pdt exec)) entryMem) := by
  intro k₁
  obtain ⟨hpage, hram, hframe⟩ := k.loaded_spec frame command pid program
  subst hp
  have hbyte : ∀ i < (img.contents d.inode).length,
      k₁.screen.frame (k₁.paging.pdt exec) (targetMem + i) = (img.contents d.inode).getD i 0 := by
    intro i hi
    rw [hpage, hframe, if_pos ⟨rfl, Nat.le_add_right _ _⟩, Nat.add_sub_cancel_left]
    exact getD_of_lt hi _ _
  refine ⟨hpage, ?_, hbyte, fun i hi => ?_, fun e he => funext fun i => ?_, hram, hheader, ?_⟩
  · rw [programRoom] at hroom
    rw [targetMem, pageSize]
    omega
  · show k₁.screen.frame (k₁.paging.pdt exec) i = k.screen.frame (k₁.paging.pdt exec) i
    rw [hpage, hframe]
    rcases hi with hlt | hge
    · exact if_neg fun h => absurd h.2 (Nat.not_le.2 hlt)
    · rw [if_pos ⟨rfl, (Nat.le_add_right _ _).trans hge⟩]
      exact List.getD_eq_default _ _ (by omega)
  · have hne : e ≠ startAddress + fourMb * pid := fun heq => he (heq.trans hpage.symm)
    exact (hframe e i).trans (if_neg fun h => hne h.1)
  · have hentry : ∀ i < 4, k₁.screen.frame (k₁.paging.pdt exec) (entryMem + i) =
        (img.contents d.inode).getD (24 + i) 0 := by
      intro i hi
      have haddr : entryMem + i = targetMem + (24 + i) := by
        rw [entryMem, targetMem]
        omega
      rw [haddr]
      exact hbyte _ (by omega)
    have h0 := hentry 0 (by decide)
    rw [Nat.add_zero, Nat.add_zero] at h0
    rw [wordAt, wordAt, h0, hentry 1 (by decide), hentry 2 (by decide), hentry 3 (by decide)]

/-- For every file that `execute` accepts : it is loaded as it should be exactly if its header is
whole and it fits into the page behind `TARGET_MEM`. -/
theorem loads_iff (hi : ∀ inode < img.fsInodes, img.InodeOk inode)
    (hd : img.readDentryByName (commandName command) = some d) (hfile : d.inode < img.fsInodes)
    (hmagic : magicOk frame.magic (img.readData d.inode 0 4).2 = true)
    (hp : k.getAvailPcb = some pid) :
    (∃ target k', k.execute img frame command = some (.iret pid target, k') ∧
        Loads img d k k' pid target) ↔
      28 ≤ (img.length d.inode).toNat ∧ (img.length d.inode).toNat ≤ programRoom := by
  have hinode := hi d.inode hfile
  have hcontents := img.length_contents d.inode
  constructor
  · rintro ⟨target, k', -, hloads⟩
    have hinside := hloads.inside
    have hheader := hloads.header
    rw [hcontents] at hheader hinside
    rw [targetMem, pageSize] at hinside
    exact ⟨hheader, by rw [programRoom]; omega⟩
  · rintro ⟨hheader, hroom⟩
    have hlen : img.length d.inode ≠ 0 := by
      intro h0
      rw [h0] at hheader
      exact absurd hheader (by decide)
    have hread : ¬img.Unreadable d.inode := by
      refine not_or.2 ⟨hinode.not_rejected, ?_⟩
      exact hinode.not_blocked (by omega : 4096 * 0 < _)
    have hprogram := readData_program hinode hlen
    rw [← hcontents] at hheader hroom
    have hexec := execute_eq_iret hd (by rw [img.readData_header hread hlen, Image.length_slice])
      hmagic hp (by rw [hprogram]; exact hroom)
    exact ⟨_, _, hexec, loads_loaded hprogram (by rw [hprogram]; exact hheader)
      (by rw [hprogram]; exact hroom)⟩

/-- An image whose one file is a header with the entry point `0x08048000`, named `shell`. -/
def headerImage : Image where
  mem a := (([(0, 1), (4, 1), (8, 1), (64, 115), (65, 104), (66, 101), (67, 108), (68, 108),
    (96, 2), (4096, 28), (8192, 0x7F), (8193, 0x45), (8194, 0x4C), (8195, 0x46), (8217, 0x80),
    (8218, 0x04), (8219, 0x08)] : List (Word × Byte)).lookup a).getD 0

theorem headerImage_wellFormed : headerImage.WellFormed :=
  wellFormed_of_one_block (by decide) (by decide)

theorem loads_header : ∃ target k',
    Machine.first.kernel.execute headerImage ⟨0, 0, fun _ => 0⟩ shellCommand =
        some (.iret 0 target, k') ∧
      Loads headerImage (headerImage.dentry 0) Machine.first.kernel k' 0 target :=
  (loads_iff (fun _ hlt => headerImage_wellFormed.inodeOk_of_lt hlt) rfl (by decide) rfl rfl).2
    (by decide)

/-- The kernel booted over program pages that are not zero. -/
def bootedStale : Kernel :=
  { zero with screen := { zero.screen with frame := fun _ _ => 1 } }.boot

/-- A file of four bytes has no entry point, and what lies behind it in memory is taken for one. -/
theorem not_loads : (∃ k', bootedStale.execute shellImage ⟨0, 0, fun _ => 0⟩ shellCommand =
      some (.iret 0 0x01010101, k')) ∧
    ¬∃ target k', bootedStale.execute shellImage ⟨0, 0, fun _ => 0⟩ shellCommand =
        some (.iret 0 target, k') ∧
      Loads shellImage (shellImage.dentry 0) bootedStale k' 0 target := by
  refine ⟨⟨_, rfl⟩, ?_⟩
  rintro ⟨target, k', -, hloads⟩
  have hheader := hloads.header
  rw [Image.length_contents] at hheader
  exact absurd hheader (by decide)

end Kernel

end MpOS
