import MpOS.Faults
import MpOS.Isolation
import MpOS.Lib.PageWalk

/-!
# Address spaces

What the processor makes of the page tables. After boot the kernel writes four entries
only : the program page, the entry of `pte_vid` in the directory, virtual page 184 and
`pte_vid[0]` (`Remap`). So in every state of a run from boot the tables have one of few
shapes (`Mapped`), and the address spaces of user code and of the kernel can be read
off : user code reaches the 4MB of its own process and at most one text page
(`user_spans`), the kernel its own 4MB, the text pages and the program page
(`supervisor_spans`). Two processes share nothing but text pages (`user_disjoint`).
-/

namespace MpOS

open PageWalk

namespace Kernel

/-- The page tables as the processor finds them. -/
def tables (k : Kernel) : Tables where
  directory := k.paging.pdt
  table n :=
    if n = k.paging.pteAddr.toNat / 4096 then k.paging.pte
    else if n = k.paging.pteVidAddr.toNat / 4096 then k.paging.pteVid
    else fun i => wordAt k.screen.ram (n * 4096 + 4 * i)

/-- Where the linker may put the two page tables (`paging.h`). -/
structure Linked (k : Kernel) : Prop where
  pte : k.paging.pteAddr.toNat % 4096 = 0
  pteVid : k.paging.pteVidAddr.toNat % 4096 = 0
  ne : k.paging.pteAddr ≠ k.paging.pteVidAddr

/-- The root of the walk is `pdt`. -/
theorem tables_directory (k : Kernel) : k.tables.directory = k.paging.pdt :=
  rfl

/-- The directory's first entry leads to `pte`. -/
theorem tables_pte (k : Kernel) :
    k.tables.table (k.paging.pteAddr.toNat / 4096) = k.paging.pte := by
  simp only [tables, if_true]

/-- The entry of the user video page leads to `pte_vid`. -/
theorem tables_pteVid {k : Kernel} (h : k.Linked) :
    k.tables.table (k.paging.pteVidAddr.toNat / 4096) = k.paging.pteVid := by
  have hne : k.paging.pteVidAddr.toNat / 4096 ≠ k.paging.pteAddr.toNat / 4096 := by
    intro heq
    have hpte := h.pte
    have hvid := h.pteVid
    exact h.ne (UInt32.toNat_inj.1 (by omega))
  simp only [tables, if_neg hne, if_true]

end Kernel

/-! ## What is written after boot -/

/-- The entries of `map_screen_buffer`. -/
def screenEntry (idx : Word) : Word :=
  (videoOffset + fourKb * idx) ||| 3

/-- The entries that map a text page for user code. -/
def userScreenEntry (idx : Word) : Word :=
  (pageKb + (videoOffset + fourKb * idx)) ||| 5

/-- The writes to the page tables. -/
inductive Remap (g : Paging) : Paging → Prop
  | program (idx : Word) :
      Remap g { g with pdt := Function.update g.pdt exec (startAddress + fourMb * idx) }
  | screen (idx : Word) : idx ≤ 3 →
      Remap g { g with pte := Function.update g.pte videoMemory (screenEntry idx) }
  | vidTable : Remap g { g with pdt := Function.update g.pdt vid (g.pteVidAddr ||| 7) }
  | vidPage (idx : Word) : idx ≤ 3 →
      Remap g { g with pteVid := Function.update g.pteVid 0 (userScreenEntry idx) }
  | clearVid : Remap g { g with pteVid := Function.update g.pteVid 0 0 }

/-- The shape of the page tables from boot on. -/
structure Mapped (g : Paging) : Prop where
  low : g.pdt 0 = g.pteAddr ||| 1
  kernel : g.pdt 1 = 0x400083
  program : ∃ idx, g.pdt exec = startAddress + fourMb * idx
  vidTable : g.pdt vid = g.pteVidAddr ∨ g.pdt vid = g.pteVidAddr ||| 7
  pdt : ∀ i < 1024, i ≠ 0 → i ≠ 1 → i ≠ exec → i ≠ vid → ¬Present (g.pdt i)
  screen : ∃ idx ≤ 3, g.pte videoMemory = screenEntry idx
  backing : ∀ i < 1024, videoMemory < i → i ≤ videoMemory + 3 →
    g.pte i = (pageKb + fourKb * UInt32.ofNat i) ||| 1
  text : g.pte (videoMemory + 4) = 0xB8003
  pte : ∀ i < 1024, i < videoMemory ∨ videoMemory + 4 < i → ¬Present (g.pte i)
  vidPage : g.pteVid 0 = 0 ∨ ∃ idx ≤ 3, g.pteVid 0 = userScreenEntry idx
  pteVid : ∀ i ≠ 0, g.pteVid i = 0

/-- The layout outlasts a store the kernel makes into its tables. -/
theorem Mapped.remap {g g' : Paging} (h : Mapped g) (hs : Remap g g') : Mapped g' := by
  have hne : exec ≠ vid ∧ 0 ≠ exec ∧ 1 ≠ exec ∧ 0 ≠ vid ∧ 1 ≠ vid := by decide
  obtain ⟨hexec, h0e, h1e, h0v, h1v⟩ := hne
  cases hs with
  | program idx =>
    refine { h with low := ?_, kernel := ?_, program := ⟨idx, ?_⟩, vidTable := ?_, pdt := ?_ }
    · simp only [Function.update_of_ne h0e, h.low]
    · simp only [Function.update_of_ne h1e, h.kernel]
    · simp only [Function.update_self]
    · simp only [Function.update_of_ne hexec.symm]
      exact h.vidTable
    · intro i hi h0 h1 he hv
      simp only [Function.update_of_ne he]
      exact h.pdt i hi h0 h1 he hv
  | screen idx hidx =>
    refine { h with screen := ⟨idx, hidx, ?_⟩, backing := ?_, text := ?_, pte := ?_ }
    · simp only [Function.update_self]
    · intro i hi hlo hhi
      simp only [Function.update_of_ne (ne_of_gt hlo)]
      exact h.backing i hi hlo hhi
    · have hne : videoMemory + 4 ≠ videoMemory := by omega
      simp only [Function.update_of_ne hne, h.text]
    · intro i hi hout
      have hne : i ≠ videoMemory := by
        rintro rfl
        omega
      simp only [Function.update_of_ne hne]
      exact h.pte i hi hout
  | vidTable =>
    refine { h with low := ?_, kernel := ?_, program := ?_, vidTable := Or.inr ?_, pdt := ?_ }
    · simp only [Function.update_of_ne h0v, h.low]
    · simp only [Function.update_of_ne h1v, h.kernel]
    · simp only [Function.update_of_ne hexec]
      exact h.program
    · simp only [Function.update_self]
    · intro i hi h0 h1 he hv
      simp only [Function.update_of_ne hv]
      exact h.pdt i hi h0 h1 he hv
  | vidPage idx hidx =>
    refine { h with vidPage := Or.inr ⟨idx, hidx, ?_⟩, pteVid := ?_ }
    · simp only [Function.update_self]
    · intro i hi
      simp only [Function.update_of_ne hi, h.pteVid i hi]
  | clearVid =>
    refine { h with vidPage := Or.inl ?_, pteVid := ?_ }
    · simp only [Function.update_self]
    · intro i hi
      simp only [Function.update_of_ne hi, h.pteVid i hi]

/-- Any number of writes. -/
def Remaps : Paging → Paging → Prop :=
  Relation.ReflTransGen Remap

namespace Remaps

variable {g g' g'' : Paging}

theorem of_eq (h : g' = g) : Remaps g g' := by
  rw [h]
  exact .refl

theorem trans (h : Remaps g g') (h' : Remaps g' g'') : Remaps g g'' :=
  Relation.ReflTransGen.trans h h'

/-- It outlasts any number of them. -/
theorem mapped (h : Remaps g g') (hg : Mapped g) : Mapped g' := by
  induction h with
  | refl => exact hg
  | tail _ hs ih => exact ih.remap hs

/-- The page tables stay where they are. -/
theorem addr_eq (h : Remaps g g') :
    g'.pteAddr = g.pteAddr ∧ g'.pteVidAddr = g.pteVidAddr := by
  induction h with
  | refl => exact ⟨rfl, rfl⟩
  | tail _ hs ih =>
    cases hs with
    | program idx => exact ih
    | screen _ _ => exact ih
    | vidTable => exact ih
    | vidPage _ _ => exact ih
    | clearVid => exact ih

end Remaps

namespace Kernel

variable (k : Kernel)

/-- `execute` and the exits set the program page. -/
theorem remaps_mapPageExec (idx : Word) : Remaps k.paging (k.mapPageExec idx).paging :=
  .single (.program idx)

theorem remaps_clearVid : Remaps k.paging k.clearVid.paging :=
  .single .clearVid

/-- A switch sets the screen buffers. -/
theorem remaps_mapScreenBuffer (idx : Word) :
    Remaps k.paging (k.mapScreenBuffer idx).paging := by
  unfold mapScreenBuffer
  split_ifs with h
  · exact .refl
  · exact .single (.screen idx (UInt32.not_lt.1 h))

/-- The user video page shows the display or one of the three buffers. -/
theorem vidEntry_eq : ∃ idx ≤ 3, k.vidEntry = userScreenEntry idx := by
  have hword : ∀ t : Terminal, t.word + 1 ≤ 3 := by decide
  unfold vidEntry
  split_ifs
  · exact ⟨_, hword _, rfl⟩
  · exact ⟨0, by decide, by decide⟩

theorem remaps_vidEntry : Remaps k.paging (k.setPteVid 0 k.vidEntry).paging := by
  obtain ⟨idx, hidx, he⟩ := k.vidEntry_eq
  rw [he]
  exact .single (.vidPage idx hidx)

/-- `vidmap` sets the user video page. -/
theorem remaps_vidmap (screenStart : Word) :
    Remaps k.paging (k.vidmap screenStart).2.2.paging := by
  have he : (pageKb + videoOffset) ||| 5 = userScreenEntry 0 := by decide
  unfold vidmap
  split_ifs
  · exact .refl
  · exact .refl
  · simp only [mapVid, he]
    exact .tail (.single .vidTable) (.vidPage 0 (by decide))

/-- A screen switch sets it again. -/
theorem remaps_switchVid (target : Terminal) :
    Remaps k.paging (k.switchVid target).paging := by
  unfold switchVid
  split_ifs
  · exact .refl
  · exact .refl
  · extract_lets write save k₁ k₂ s₂ k₃
    exact k₃.remaps_vidEntry

theorem remaps_interruptKeyboard (code : Byte) :
    Remaps k.paging (k.interruptKeyboard code).paging := by
  have h := (onlyDevices_interruptKeyboard code k).paging
  cases ht : k.altTarget code with
  | none =>
    rw [ht] at h
    exact .of_eq h
  | some t =>
    rw [ht] at h
    exact (k.remaps_switchVid t).trans (.of_eq h)

/-- The scheduler sets the program page of the next process. -/
theorem remaps_contextSwitch (frame : SwitchFrame) :
    Remaps k.paging (k.contextSwitch frame).paging := by
  unfold contextSwitch
  extract_lets next k₁ p₁ k₂ pid k₃ k₄ k₅
  have h₃ : Remaps k₂.paging k₃.paging := by
    simp only [k₃]
    split_ifs
    · exact k₂.remaps_mapScreenBuffer _
    · exact k₂.remaps_mapScreenBuffer _
  have h₅ : Remaps k₄.paging k₅.paging := by
    simp only [k₅]
    generalize (if pid = noPid then frame.stackWord else (k₄.proc.pcb pid).vidSet) = vidSet
    split_ifs
    · exact k₄.remaps_vidEntry
    · exact k₄.remaps_clearVid
  have hall : Remaps k.paging k₅.paging := h₃.trans h₅
  split_ifs
  · exact hall.trans (k₅.remaps_mapPageExec _)
  · exact hall

variable {k}

/-- `halt` sets the parent's program page and clears the user video page. -/
theorem remaps_halt {k' : Kernel} {status : Byte} {frame : Frame}
    (h : k.halt status = some (frame, k')) : Remaps k.paging k'.paging := by
  simp only [halt] at h
  obtain ⟨k₁, hclose, h⟩ := Option.map_eq_some_iff.1 h
  obtain ⟨-, rfl⟩ := Prod.mk.inj h
  have hclear : Remaps k.paging k₁.paging :=
    (k.remaps_clearVid).trans (.of_eq (onlyFds_closeAll hclose).paging)
  exact hclear.trans (k₁.remaps_mapPageExec _)

/-- The same after an exception. -/
theorem remaps_haltException {k' : Kernel} {frame : Frame}
    (h : k.haltException = some (frame, k')) : Remaps k.paging k'.paging := by
  simp only [haltException] at h
  obtain ⟨k₁, hclose, h⟩ := Option.map_eq_some_iff.1 h
  obtain ⟨-, rfl⟩ := Prod.mk.inj h
  have hmap : Remaps k.paging (k.mapPageExec (k.proc.pcb k.cur.curPid).parentPid).clearVid.paging :=
    (k.remaps_mapPageExec _).trans (remaps_clearVid _)
  exact hmap.trans (.of_eq (onlyFds_closeAll hclose).paging)

end Kernel

namespace Machine

/-- Every step is a sequence of such writes. -/
theorem step_remaps {img : Image} {m m' : Machine} {e : Event} (h : m.step img e = some m') :
    Remaps m.kernel.paging m'.kernel.paging := by
  cases step_cases h with
  | fail _ => exact .refl
  | @start frame command pid target k hexec hs =>
    exact (m.kernel.remaps_mapPageExec pid).trans (.of_eq hs.paging)
  | exit hcall hm' =>
    obtain ⟨frame, k, hk, -, hres⟩ := exit_eq_some hm'
    rw [resume_kernel hres]
    cases hcall with
    | halt status => exact Kernel.remaps_halt hk
    | haltException => exact Kernel.remaps_haltException hk
  | fdCall _ hcall => exact .of_eq hcall.fdSteps.onlyFds.paging
  | vidmap _ => exact m.kernel.remaps_vidmap _
  | switch frame =>
    exact (m.kernel.remaps_contextSwitch frame).trans (.of_eq (Kernel.interruptPit_paging _ _))
  | quiet hq =>
    cases hq with
    | interruptKeyboard code => exact m.kernel.remaps_interruptKeyboard code
    | interruptRtc => exact .refl
    | switchVid target => exact m.kernel.remaps_switchVid target

end Machine

/-! ## Boot -/

namespace Kernel

variable (k : Kernel)

theorem paging_setCurFd (fd : ℕ) (e : Fd) : (k.setCurFd fd e).paging = k.paging :=
  (onlyFds_setCurFd k fd e).paging

theorem boot_paging : k.boot.paging = k.initPaging.paging := by
  have hinit : (k.initFilesys.setEsp0 0x800000).keyboardInit.processInit.paging = k.paging := by
    rw [processInit_frame Kernel.paging (fun _ _ _ => rfl), keyboardInit, paging_setCurFd,
      paging_setCurFd]
    rfl
  have hboot : k.boot.paging =
      (k.initFilesys.setEsp0 0x800000).keyboardInit.processInit.initPaging.paging :=
    rfl
  rw [hboot, initPaging, initPaging, hinit]

/-- An entry of the loop of `init_paging` is not in use. -/
theorem not_present_pdt {i : ℕ} (hi : i < 1024) :
    ¬Present (pageMb + fourMb * UInt32.ofNat i) := by
  have h : (pageMb + fourMb * UInt32.ofNat i).toNat = 0x82 + 0x400000 * i := by
    simp [pageMb, fourMb, UInt32.toNat_add, UInt32.toNat_mul]
    omega
  rw [Present, h, Nat.testBit_eq_decide_div_mod_eq]
  simp
  omega

theorem not_present_pte {i : ℕ} (hi : i < 1024) :
    ¬Present (pageKb + fourKb * UInt32.ofNat i) := by
  have h : (pageKb + fourKb * UInt32.ofNat i).toNat = 0x2 + 0x1000 * i := by
    simp [pageKb, fourKb, UInt32.toNat_add, UInt32.toNat_mul]
    omega
  rw [Present, h, Nat.testBit_eq_decide_div_mod_eq]
  simp
  omega

/-- `init_paging` lays out the tables. -/
theorem mapped_boot (hk : k.Bss) : Mapped k.boot.paging := by
  have hkernel : (pageMb + fourMb * UInt32.ofNat 1) ||| 1 = 0x400083 := by decide
  have hscreen : (pageKb + fourKb * UInt32.ofNat 184) ||| 1 = screenEntry 0 := by decide
  have htext : (pageKb + fourKb * UInt32.ofNat 188 - 0x4000) ||| 1 = 0xB8003 := by decide
  rw [boot_paging]
  refine ⟨rfl, hkernel, ⟨0, rfl⟩, Or.inl rfl, ?_, ⟨0, by decide, hscreen⟩, ?_, htext, ?_,
    Or.inl (congrFun hk.pteVid 0), fun i _ => congrFun hk.pteVid i⟩
  · intro i hi h0 h1 he hv
    simp only [initPaging, if_neg h0, if_neg h1, if_neg he, if_neg hv]
    exact not_present_pdt hi
  · intro i hi hlo hhi
    simp only [initPaging, if_neg (show i ≠ videoMemory + 4 by omega),
      if_pos (show videoMemory ≤ i ∧ i ≤ videoMemory + 3 by omega)]
  · intro i hi hout
    simp only [initPaging, if_neg (show i ≠ videoMemory + 4 by omega),
      if_neg (show ¬(videoMemory ≤ i ∧ i ≤ videoMemory + 3) by omega)]
    exact not_present_pte hi

end Kernel

namespace Machine

/-- In every reachable state the tables are laid out so. -/
theorem Reachable.mapped {img : Image} {m : Machine} (h : m.Reachable img) :
    Mapped m.kernel.paging := by
  have hboot : ∀ m : Machine, m.Booted → Mapped m.kernel.paging := by
    rintro m ⟨k, hk, rfl⟩
    exact k.mapped_boot hk
  exact Transition.Reachable.invariant hboot
    (fun _ _ _ hm _ hstep => (step_remaps hstep).mapped hm) h

end Machine

/-! ## The entries in use -/

/-- An entry with the lowest three flags lets every access pass. -/
theorem allows_of_mod {e : Word} (h : e.toNat % 8 = 7) (a : Access) : Allows a e := by
  have hseven : ∀ i < 3, Nat.testBit 7 i = true := by decide
  have hbit : ∀ i < 3, e.toNat.testBit i = true := by
    intro i hi
    have hmod : (e.toNat % 2 ^ 3).testBit i = e.toNat.testBit i := by
      rw [Nat.testBit_mod_two_pow, decide_eq_true hi, Bool.true_and]
    rw [← hmod, show e.toNat % 2 ^ 3 = 7 from h]
    exact hseven i hi
  cases a with
  | user write => exact ⟨hbit 0 (by decide), hbit 2 (by decide), fun _ => hbit 1 (by decide)⟩
  | supervisor => exact hbit 0 (by decide)

/-- The flags of the program page's entry. -/
theorem programEntry_toNat (idx : Word) :
    (startAddress + fourMb * idx).toNat % 0x400000 = 0x87 := by
  simp [startAddress, fourMb, UInt32.toNat_add, UInt32.toNat_mul]

/-- The entries the user video page may have. -/
theorem userScreenEntry_toNat {idx : Word} (h : idx ≤ 3) :
    (userScreenEntry idx).toNat = 0xB8007 + 0x1000 * idx.toNat := by
  have hword : ∀ i < 4, (userScreenEntry (UInt32.ofNat i)).toNat = 0xB8007 + 0x1000 * i := by
    decide
  have hidx := hword idx.toNat (Nat.lt_succ_of_le (UInt32.le_iff_toNat_le.1 h))
  rwa [UInt32.ofNat_toNat] at hidx

namespace Kernel

/-- The pages of `pte_vid` in use. -/
def videoRegions (k : Kernel) : List Region :=
  if Present (k.paging.pdt vid) ∧ Present (k.paging.pteVid 0) then
    [⟨0x10000000, 0x1000, pageOf (k.paging.pteVid 0)⟩]
  else []

/-- The program page. -/
def programRegion (k : Kernel) : Region :=
  ⟨0x8000000, 0x400000, (k.paging.pdt exec).toNat / 0x400000 * 0x400000⟩

/-- What the kernel sees below 4MB : the page of the scheduled terminal, the backing pages and
the text page. -/
def textRegions (k : Kernel) : List Region :=
  [⟨0xB8000, 0x1000, pageOf (k.paging.pte videoMemory)⟩, ⟨0xB9000, 0x3000, 0xB9000⟩,
    ⟨0xBC000, 0x1000, 0xB8000⟩]

/-- The 4MB of the kernel. -/
def kernelRegion : Region :=
  ⟨0x400000, 0x400000, 0x400000⟩

section Walks

variable {k : Kernel} {a : Access} {va : Word}

/-- Everyone may use the program page. -/
theorem walk_exec (hm : Mapped k.paging) (hva : va.toNat / 0x400000 = exec) (pa : ℕ) :
    k.tables.walk a va = some pa ↔ k.programRegion.Maps va.toNat pa := by
  obtain ⟨idx, hidx⟩ := hm.program
  have hmod := programEntry_toNat idx
  rw [← hidx] at hmod
  have hlarge : Large (k.paging.pdt exec) := by
    have hbit : ((k.paging.pdt exec).toNat % 2 ^ 22).testBit 7 =
        (k.paging.pdt exec).toNat.testBit 7 := by
      rw [Nat.testBit_mod_two_pow, decide_eq_true (by omega), Bool.true_and]
    rw [Large, ← hbit, show (k.paging.pdt exec).toNat % 2 ^ 22 = 0x87 from hmod]
    decide
  have hstart : exec * 0x400000 = 0x8000000 := by decide
  have hall : (k.paging.pdt exec).toNat % 8 = 7 := by omega
  have hwalk := Tables.walk_large_iff (T := k.tables) hva (allows_of_mod hall a) hlarge pa
  rw [hstart] at hwalk
  exact hwalk

/-- And the video page, if it is there. -/
theorem walk_vid (hm : Mapped k.paging) (hl : k.Linked) (hva : va.toNat / 0x400000 = vid)
    (pa : ℕ) :
    k.tables.walk a va = some pa ↔ ∃ r ∈ k.videoRegions, r.Maps va.toNat pa := by
  have hzero : ¬Present 0 := by decide
  rcases hm.vidTable with habs | hpres
  · have hnot : ¬Present (k.paging.pdt vid) := by
      have hmod := hl.pteVid
      rw [habs, Present, Nat.testBit_zero]
      simp only [decide_eq_true_eq]
      omega
    rw [Tables.walk_of_not_allows (T := k.tables) hva fun h => hnot h.present, videoRegions,
      if_neg fun h => hnot h.1]
    simp
  · have hflags := toNat_or hl.pteVid (show (7 : Word).toNat < 4096 by decide)
    have hseven : (7 : Word).toNat = 7 := rfl
    have hmod := hl.pteVid
    have hsmall : ¬Large (k.paging.pdt vid) := by
      rw [hpres, Large, testBit_or hl.pteVid (by decide) (by decide)]
      decide
    have hall : (k.paging.pdt vid).toNat % 8 = 7 := by
      rw [hpres, hflags, hseven]
      omega
    have htable : k.tables.table ((k.paging.pdt vid).toNat / 4096) = k.paging.pteVid := by
      rw [hpres, page_or hl.pteVid (by decide), tables_pteVid hl]
    have hpdt : Present (k.paging.pdt vid) := (allows_of_mod hall a).present
    have hstart : vid * 0x400000 = 0x10000000 := by decide
    have hwalk := Tables.walk_small_iff (T := k.tables) hva (allows_of_mod hall a) hsmall pa
    rw [tables_directory, htable, hstart] at hwalk
    rw [hwalk, videoRegions]
    constructor
    · rintro ⟨j, -, hallow, hmaps⟩
      have hj : j = 0 := by
        by_contra hj
        rw [hm.pteVid j hj] at hallow
        exact hzero hallow.present
      subst hj
      rw [if_pos ⟨hpdt, hallow.present⟩]
      exact ⟨_, List.mem_singleton_self _, hmaps⟩
    · rintro ⟨r, hr, hmaps⟩
      split_ifs at hr with hp
      · obtain rfl := List.mem_singleton.1 hr
        rcases hm.vidPage with h0 | ⟨idx, hidx, he⟩
        · rw [h0] at hp
          exact absurd hp.2 hzero
        · have hval := userScreenEntry_toNat hidx
          rw [← he] at hval
          exact ⟨0, by decide, allows_of_mod (by omega) a, hmaps⟩
      · exact absurd hr List.not_mem_nil

/-- Where the regions of user code lie. -/
theorem videoRegions_spec (hm : Mapped k.paging) {r : Region} (hr : r ∈ k.videoRegions) :
    r.start = 0x10000000 ∧ r.size = 0x1000 ∧ ∃ idx < 4, r.target = 0xB8000 + 0x1000 * idx := by
  unfold videoRegions at hr
  split_ifs at hr with hp
  · obtain rfl := List.mem_singleton.1 hr
    refine ⟨rfl, rfl, ?_⟩
    rcases hm.vidPage with h0 | ⟨idx, hidx, he⟩
    · rw [h0] at hp
      exact absurd hp.2 (by decide)
    · refine ⟨idx.toNat, Nat.lt_succ_of_le (UInt32.le_iff_toNat_le.1 hidx), ?_⟩
      simp only [pageOf, he, userScreenEntry_toNat hidx]
      omega
  · exact absurd hr List.not_mem_nil

/-- User code may not use the first 8MB. -/
theorem walk_user_low (hm : Mapped k.paging) (hl : k.Linked) (write : Bool)
    (hva : va.toNat / 0x400000 < 2) : k.tables.walk (.user write) va = none := by
  have hcase : va.toNat / 0x400000 = 0 ∨ va.toNat / 0x400000 = 1 := by omega
  rcases hcase with h0 | h1
  · refine Tables.walk_of_not_allows h0 fun h => ?_
    have huser := h.2.1
    rw [tables_directory, hm.low, User, testBit_or hl.pte (by decide) (by decide)] at huser
    exact absurd huser (by decide)
  · refine Tables.walk_of_not_allows h1 fun h => ?_
    have huser := h.2.1
    rw [tables_directory, hm.kernel] at huser
    exact absurd huser (by decide)

/-- Nobody finds anything elsewhere. -/
theorem walk_of_unmapped (hm : Mapped k.paging) {i : ℕ} (hva : va.toNat / 0x400000 = i)
    (h0 : i ≠ 0) (h1 : i ≠ 1) (he : i ≠ exec) (hv : i ≠ vid) : k.tables.walk a va = none :=
  Tables.walk_of_not_allows hva fun h =>
    hm.pdt i (by have := va.toNat_lt; omega) h0 h1 he hv h.present

theorem index_programRegion {pa : ℕ} (h : k.programRegion.Maps va.toNat pa) :
    va.toNat / 0x400000 = exec := by
  obtain ⟨hlo, hhi, -⟩ := h
  simp only [programRegion] at hlo hhi
  unfold exec
  omega

theorem index_videoRegions (hm : Mapped k.paging) {pa : ℕ}
    (h : ∃ r ∈ k.videoRegions, r.Maps va.toNat pa) : va.toNat / 0x400000 = vid := by
  obtain ⟨r, hr, hlo, hhi, -⟩ := h
  obtain ⟨hstart, hsize, -⟩ := videoRegions_spec hm hr
  rw [hstart] at hlo hhi
  rw [hsize] at hhi
  unfold vid
  omega

/-- The address space of user code. -/
theorem spans_user (hm : Mapped k.paging) (hl : k.Linked) (write : Bool) :
    Spans (k.tables.walk (.user write)) (k.programRegion :: k.videoRegions) := by
  intro va pa
  simp only [List.mem_cons, exists_eq_or_imp]
  have hprogram := @index_programRegion k va pa
  have hvideo := @index_videoRegions k va hm pa
  have hne : exec ≠ vid := by decide
  rcases eq_or_ne (va.toNat / 0x400000) exec with he | he
  · rw [walk_exec hm he, or_iff_left fun h => hne (he.symm.trans (hvideo h))]
  rcases eq_or_ne (va.toNat / 0x400000) vid with hv | hv
  · rw [walk_vid hm hl hv, or_iff_right fun h => hne ((hprogram h).symm.trans hv)]
  have hnone : k.tables.walk (.user write) va = none := by
    by_cases hlow : va.toNat / 0x400000 < 2
    · exact walk_user_low hm hl write hlow
    · exact walk_of_unmapped hm rfl (by omega) (by omega) he hv
  rw [hnone]
  exact iff_of_false (by simp) fun h => h.elim (he ∘ hprogram) (hv ∘ hvideo)

/-! ### The kernel -/

theorem videoMemory_eq : videoMemory = 184 :=
  rfl

/-- The entries of the backing pages. -/
theorem backing_toNat (hm : Mapped k.paging) {i : ℕ} (hlo : 184 < i) (hhi : i < 188) :
    (k.paging.pte i).toNat = i * 4096 + 3 := by
  rw [hm.backing i (by omega) hlo (by rw [videoMemory_eq]; omega)]
  have hcase : i = 185 ∨ i = 186 ∨ i = 187 := by omega
  rcases hcase with rfl | rfl | rfl
  · decide
  · decide
  · decide

/-- The entries of the first page table that are in use. -/
theorem present_pte_iff (hm : Mapped k.paging) {j : ℕ} (hj : j < 1024) :
    Present (k.paging.pte j) ↔ 184 ≤ j ∧ j ≤ 188 := by
  constructor
  · intro h
    by_contra hout
    refine hm.pte j hj ?_ h
    rw [videoMemory_eq]
    omega
  · rintro ⟨hlo, hhi⟩
    rcases eq_or_lt_of_le hlo with rfl | hlo
    · obtain ⟨idx, hidx, he⟩ := hm.screen
      have hall : ∀ i < 4, Present (screenEntry (UInt32.ofNat i)) := by decide
      have hlt := hall idx.toNat (Nat.lt_succ_of_le (UInt32.le_iff_toNat_le.1 hidx))
      rwa [UInt32.ofNat_toNat, ← he, videoMemory_eq] at hlt
    · rcases eq_or_lt_of_le hhi with rfl | hhi
      · have htext := hm.text
        rw [videoMemory_eq] at htext
        rw [htext]
        decide
      · rw [Present, backing_toNat hm hlo hhi, Nat.testBit_zero]
        simp only [decide_eq_true_eq]
        omega

theorem text_toNat (hm : Mapped k.paging) :
    (k.paging.pte 188).toNat / 4096 * 4096 = 0xB8000 := by
  have h := hm.text
  rw [videoMemory_eq] at h
  rw [h]
  decide

/-- Of the first four megabytes the supervisor sees the text pages. -/
theorem walk_supervisor_low (hm : Mapped k.paging) (hl : k.Linked)
    (hva : va.toNat / 0x400000 = 0) (pa : ℕ) :
    k.tables.walk .supervisor va = some pa ↔ ∃ r ∈ k.textRegions, r.Maps va.toNat pa := by
  have hpres : Present (k.paging.pdt 0) := by
    rw [hm.low, Present, testBit_or hl.pte (by decide) (by decide)]
    decide
  have hsmall : ¬Large (k.paging.pdt 0) := by
    rw [hm.low, Large, testBit_or hl.pte (by decide) (by decide)]
    decide
  have htable : k.tables.table ((k.paging.pdt 0).toNat / 4096) = k.paging.pte := by
    rw [hm.low, page_or hl.pte (by decide), tables_pte]
  have htext := text_toNat hm
  have hwalk := Tables.walk_small_iff (T := k.tables) (a := .supervisor) hva hpres hsmall pa
  rw [tables_directory, htable, zero_mul] at hwalk
  simp only [hwalk, textRegions, videoMemory_eq, pageOf, List.mem_cons, List.not_mem_nil, or_false,
    exists_eq_or_imp, exists_eq_left, Region.maps_mk, zero_add]
  clear hwalk
  constructor
  · rintro ⟨j, hj, hallow, hlo, hhi, hpa⟩
    obtain ⟨hjlo, hjhi⟩ := (present_pte_iff hm hj).1 hallow
    rcases eq_or_lt_of_le hjlo with rfl | hjlo
    · exact Or.inl ⟨hlo, hhi, hpa⟩
    rcases eq_or_lt_of_le hjhi with rfl | hjhi
    · rw [htext] at hpa
      exact Or.inr (Or.inr ⟨hlo, hhi, hpa⟩)
    · have hval := backing_toNat hm hjlo hjhi
      exact Or.inr (Or.inl ⟨by omega, by omega, by omega⟩)
  · rintro (⟨hlo, hhi, hpa⟩ | ⟨hlo, hhi, hpa⟩ | ⟨hlo, hhi, hpa⟩)
    · exact ⟨184, by omega, (present_pte_iff hm (by omega)).2 (by omega), hlo, hhi, hpa⟩
    · have hj : va.toNat / 4096 < 1024 := by omega
      have hval := backing_toNat hm (i := va.toNat / 4096) (by omega) (by omega)
      exact ⟨_, hj, (present_pte_iff hm hj).2 (by omega), by omega, by omega, by omega⟩
    · refine ⟨188, by omega, (present_pte_iff hm (by omega)).2 (by omega), hlo, hhi, ?_⟩
      rw [htext]
      exact hpa

/-- The kernel's own page, for the supervisor. -/
theorem walk_kernel (hm : Mapped k.paging) (hva : va.toNat / 0x400000 = 1) (pa : ℕ) :
    k.tables.walk .supervisor va = some pa ↔ kernelRegion.Maps va.toNat pa := by
  have hpres : Present (k.paging.pdt 1) := by
    rw [hm.kernel]
    decide
  have hlarge : Large (k.paging.pdt 1) := by
    rw [hm.kernel]
    decide
  have hwalk := Tables.walk_large_iff (T := k.tables) (a := .supervisor) hva hpres hlarge pa
  rw [tables_directory, hm.kernel, one_mul,
    show (0x400083 : Word).toNat / 0x400000 * 0x400000 = 0x400000 by decide] at hwalk
  exact hwalk

/-- The address space of the kernel. -/
theorem spans_supervisor (hm : Mapped k.paging) (hl : k.Linked) :
    Spans (k.tables.walk .supervisor)
      (kernelRegion :: k.programRegion :: (k.textRegions ++ k.videoRegions)) := by
  intro va pa
  simp only [List.mem_cons, List.mem_append, or_and_right, exists_or, exists_eq_left]
  have hkernel : kernelRegion.Maps va.toNat pa → va.toNat / 0x400000 = 1 := by
    rintro ⟨hlo, hhi, -⟩
    simp only [kernelRegion] at hlo hhi
    omega
  have hprogram := @index_programRegion k va pa
  have htext : (∃ r ∈ k.textRegions, r.Maps va.toNat pa) → va.toNat / 0x400000 = 0 := by
    simp only [textRegions, List.mem_cons, List.not_mem_nil, or_false, exists_eq_or_imp,
      exists_eq_left, Region.maps_mk]
    omega
  have hvideo := @index_videoRegions k va hm pa
  -- an address lies in the regions of its own directory entry only
  have apart : ∀ {Q : Prop} {i j : ℕ}, (Q → va.toNat / 0x400000 = j) →
      va.toNat / 0x400000 = i → i ≠ j → ¬Q :=
    fun hq hi hij h => hij (hi.symm.trans (hq h))
  rcases eq_or_ne (va.toNat / 0x400000) 0 with h0 | h0
  · rw [walk_supervisor_low hm hl h0, or_iff_right (apart hkernel h0 (by decide)),
      or_iff_right (apart hprogram h0 (by decide)), or_iff_left (apart hvideo h0 (by decide))]
  rcases eq_or_ne (va.toNat / 0x400000) 1 with h1 | h1
  · rw [walk_kernel hm h1, or_iff_left]
    rintro (h | h | h)
    · exact apart hprogram h1 (by decide) h
    · exact apart htext h1 (by decide) h
    · exact apart hvideo h1 (by decide) h
  rcases eq_or_ne (va.toNat / 0x400000) exec with he | he
  · rw [walk_exec hm he, or_iff_right (apart hkernel he (by decide)), or_iff_left]
    rintro (h | h)
    · exact apart htext he (by decide) h
    · exact apart hvideo he (by decide) h
  rcases eq_or_ne (va.toNat / 0x400000) vid with hv | hv
  · rw [walk_vid hm hl hv, or_iff_right (apart hkernel hv (by decide)),
      or_iff_right (apart hprogram hv (by decide)), or_iff_right (apart htext hv (by decide))]
  rw [walk_of_unmapped hm rfl h0 h1 he hv]
  refine iff_of_false (by simp) ?_
  rintro (h | h | h | h)
  · exact h1 (hkernel h)
  · exact he (hprogram h)
  · exact h0 (htext h)
  · exact hv (hvideo h)

/-- No region the supervisor sees starts below the display. -/
theorem regions_start (hm : Mapped k.paging) {r : Region}
    (hr : r ∈ kernelRegion :: k.programRegion :: (k.textRegions ++ k.videoRegions)) :
    0xB8000 ≤ r.start := by
  simp only [List.mem_cons, List.mem_append, textRegions, List.not_mem_nil, or_false] at hr
  rcases hr with rfl | rfl | (rfl | rfl | rfl) | hr
  · simp only [kernelRegion]
    omega
  · simp only [programRegion]
    omega
  · exact le_rfl
  · simp only
    omega
  · simp only
    omega
  · rw [(videoRegions_spec hm hr).1]
    omega

/-- Where the kernel finds a byte below 4MB, it is the one at `phys`. -/
theorem walk_supervisor_phys (hm : Mapped k.paging) (hl : k.Linked) (hlo : 0xB8000 ≤ va.toNat)
    (hhi : va.toNat < 0xBD000) : k.tables.walk .supervisor va = some (k.phys va.toNat) := by
  have hindex : va.toNat / 0x400000 = 0 := by omega
  have htext := text_toNat hm
  refine (walk_supervisor_low hm hl hindex _).2 ?_
  simp only [textRegions, List.mem_cons, List.not_mem_nil, or_false, exists_eq_or_imp,
    exists_eq_left, Region.maps_mk, phys, pageOf, videoMemory_eq]
  by_cases h184 : va.toNat / 4096 = 184
  · have hmod : va.toNat % 4096 = va.toNat - 0xB8000 := by omega
    exact Or.inl ⟨by omega, by omega, by rw [h184, hmod]⟩
  by_cases h188 : va.toNat / 4096 = 188
  · have hmod : va.toNat % 4096 = va.toNat - 0xBC000 := by omega
    exact Or.inr (Or.inr ⟨by omega, by omega, by rw [h188, htext, hmod]⟩)
  have hval := backing_toNat hm (i := va.toNat / 4096) (by omega) (by omega)
  clear htext
  exact Or.inr (Or.inl ⟨by omega, by omega, by omega⟩)

end Walks

end Kernel

/-! ## A linked kernel -/

namespace Machine

/-- A kernel in zero memory with its page tables in its own 4MB. -/
def linked : Machine :=
  ⟨Kernel.boot { Kernel.zero with
    paging := { Kernel.zero.paging with pteAddr := 0x410000, pteVidAddr := 0x411000 } },
    fun _ => []⟩

theorem linked_booted : linked.Booted :=
  ⟨_, ⟨rfl, fun _ => rfl, rfl, rfl, rfl, rfl, rfl, rfl⟩, rfl⟩

/-- No step moves the tables. -/
theorem linked_step {img : Image} {m m' : Machine} {e : Event} (h : m.kernel.Linked)
    (hstep : m.step img e = some m') : m'.kernel.Linked := by
  obtain ⟨hpte, hvid⟩ := (step_remaps hstep).addr_eq
  refine ⟨?_, ?_, ?_⟩
  · rw [hpte]
    exact h.pte
  · rw [hvid]
    exact h.pteVid
  · rw [hpte, hvid]
    exact h.ne

theorem exists_linked_shell : ∃ m : Machine,
    m.RegularReachable Kernel.shellImage ∧ m.kernel.Linked ∧ m.running = some 0 ∧
      m.live = [0] := by
  have hx := Kernel.shell_executable ⟨0, 0, fun _ => 0⟩
  obtain ⟨k, hs, hstep⟩ := step_execute hx linked (by rfl)
  have hlinked : linked.kernel.Linked := ⟨by decide, by decide, by decide⟩
  have hboot : linked.RegularReachable Kernel.shellImage := .init linked_booted
  exact ⟨_, hboot.next (regular_execute hx) hstep, linked_step hlinked hstep,
    running_enter _ _ hs.scheduleIndex, rfl⟩

/-- The shell maps the screen and starts a process, which finds it mapped. -/
theorem exists_linked_video : ∃ m m' : Machine, ∃ q : Word,
    (m.RegularReachable Kernel.shellImage ∧ m.kernel.Linked ∧ m.running = some 0 ∧
      m.kernel.videoRegions = [⟨0x10000000, 0x1000, 0xB8000⟩]) ∧
    (m'.RegularReachable Kernel.shellImage ∧ m'.kernel.Linked ∧ m'.running = some q ∧ 0 ≠ q ∧
      m'.kernel.videoRegions = [⟨0x10000000, 0x1000, 0xB8000⟩]) := by
  obtain ⟨m, hm, hl, hrun, hlive⟩ := exists_linked_shell
  have h₁ : m.step Kernel.shellImage (.vidmap 0x8048000) =
      some (m.withKernel (m.kernel.vidmap 0x8048000).2.2) := by
    show m.userCall _ = _
    rw [userCall, if_neg (by simp [hrun])]
    rfl
  have hm₁ := hm.next (e := .vidmap 0x8048000) ⟨trivial, trivial⟩ h₁
  have hl₁ := linked_step hl h₁
  have hrun₁ : (m.withKernel (m.kernel.vidmap 0x8048000).2.2).running = some 0 :=
    (running_withKernel (Kernel.sameContext_vidmap _ _).scheduleIndex).trans hrun
  have hregions : (m.kernel.vidmap 0x8048000).2.2.videoRegions =
      [⟨0x10000000, 0x1000, 0xB8000⟩] := by
    have hpdt : (m.kernel.vidmap 0x8048000).2.2.paging.pdt vid =
        m.kernel.paging.pteVidAddr ||| 7 := by
      rw [Kernel.vidmap, if_neg (by decide), if_neg (by decide)]
      simp [Kernel.mapVid, Kernel.setPdt, Kernel.setPteVid, Kernel.modifyPcb]
    have hpte := (Kernel.vidmap_of_le (show ¬(0x8048000 : Word) < 0x800000 by decide) m.kernel).1
    have hpage : pageOf ((pageKb + videoOffset) ||| 5) = 0xB8000 := by decide
    rw [Kernel.videoRegions, hpdt, hpte, hpage, if_pos]
    rw [Present, testBit_or hl.pteVid (by decide) (by decide)]
    decide
  generalize (m.kernel.vidmap 0x8048000).2.2 = k at hm₁ hl₁ hrun₁ hregions
  have hc₁ : (m.withKernel k).Coherent := hm₁.reachable.coherent
  have havail : k.getAvailPcb ≠ none := by
    intro hnone
    have hlen : (m.withKernel k).live.length = 8 := hc₁.getAvailPcb_eq_none_iff.1 hnone
    rw [live_withKernel, hlive] at hlen
    exact absurd hlen (by decide)
  obtain ⟨q, hq⟩ := Option.ne_none_iff_exists'.1 havail
  have hx := Kernel.shell_executable ⟨0, 0, fun _ => 0⟩
  obtain ⟨k', hs, h₂⟩ := step_execute hx (m.withKernel k) hq
  refine ⟨m.withKernel k, _, q, ⟨hm₁, hl₁, hrun₁, hregions⟩, hm₁.next (regular_execute hx) h₂,
    linked_step hl₁ h₂, running_enter _ _ hs.scheduleIndex, ?_, ?_⟩
  · rintro rfl
    have huse : (k.proc.pcb 0).use = 1 := (hc₁.installed hrun₁).use
    rw [(Kernel.getAvailPcb_eq_some hq).2] at huse
    exact absurd huse (by decide)
  · show k'.videoRegions = _
    have hvid : k'.paging.pdt vid = k.paging.pdt vid := by
      have hne : vid ≠ exec := by decide
      rw [hs.paging]
      simp only [Kernel.mapPageExec, Kernel.setPdt, Function.update_of_ne hne, withKernel]
    have hpte : k'.paging.pteVid = k.paging.pteVid := by
      rw [hs.paging]
      rfl
    rw [← hregions, Kernel.videoRegions, Kernel.videoRegions, hvid, hpte]

end Machine

/-! ## The address spaces of a run -/

namespace Machine

variable {img : Image} {m : Machine} {p : Word}

/-- The 4MB of a process in physical memory. -/
theorem frame_toNat (hp : p < 8) :
    (0x00800087 + 0x400000 * p).toNat / 0x400000 * 0x400000 = 0x800000 + 0x400000 * p.toNat := by
  obtain ⟨i, hi, rfl⟩ := exists_ofNat hp
  revert i
  decide

/-- The program region of the process that runs. -/
theorem programRegion_running (h : m.Reachable img) (hp : m.running = some p) :
    m.kernel.programRegion = ⟨0x8000000, 0x400000, 0x800000 + 0x400000 * p.toNat⟩ := by
  have hi := h.coherent.installed hp
  rw [Kernel.programRegion, hi.program, frame_toNat hi.lt]

/-- Of all addresses, user code of process `p` reaches those of its own 4MB, and those of one
text page if the video page is mapped. -/
theorem user_spans (h : m.RegularReachable img) (hl : m.kernel.Linked) (hp : m.running = some p)
    (write : Bool) :
    p < 8 ∧
      Spans (m.kernel.tables.walk (.user write))
        (⟨0x8000000, 0x400000, 0x800000 + 0x400000 * p.toNat⟩ :: m.kernel.videoRegions) ∧
      ∀ r ∈ m.kernel.videoRegions, r.start = 0x10000000 ∧ r.size = 0x1000 ∧
        ∃ idx < 4, r.target = 0xB8000 + 0x1000 * idx := by
  have hm := h.reachable
  have hspans := Kernel.spans_user hm.mapped hl write
  rw [programRegion_running hm hp] at hspans
  exact ⟨(hm.coherent.installed hp).lt, hspans, fun r hr => Kernel.videoRegions_spec hm.mapped hr⟩

theorem user_spans_shell : ∃ m : Machine, m.running = some 0 ∧
    Spans (m.kernel.tables.walk (.user true))
      (⟨0x8000000, 0x400000, 0x800000⟩ :: m.kernel.videoRegions) := by
  obtain ⟨m, h, hl, hp, -⟩ := exists_linked_shell
  exact ⟨m, hp, (user_spans h hl hp true).2.1⟩

/-- What user code of a process reaches in physical memory. -/
theorem user_reach (h : m.Reachable img) (hl : m.kernel.Linked) (hp : m.running = some p)
    {write : Bool} {va : Word} {pa : ℕ}
    (hw : m.kernel.tables.walk (.user write) va = some pa) :
    (0x800000 + 0x400000 * p.toNat ≤ pa ∧ pa < 0xC00000 + 0x400000 * p.toNat) ∨
      (0xB8000 ≤ pa ∧ pa < 0xBC000) := by
  obtain ⟨r, hr, hlo, hhi, hpa⟩ := (Kernel.spans_user h.mapped hl write va pa).1 hw
  rcases List.mem_cons.1 hr with rfl | hr
  · rw [programRegion_running h hp] at hlo hhi hpa
    simp only at hlo hhi hpa
    exact Or.inl (by omega)
  · obtain ⟨hstart, hsize, idx, hidx, htarget⟩ := Kernel.videoRegions_spec h.mapped hr
    exact Or.inr (by omega)

/-- Two processes share nothing but text pages, at any two moments. -/
theorem user_disjoint {img' : Image} {m' : Machine} {q : Word} (h : m.RegularReachable img)
    (hl : m.kernel.Linked) (hp : m.running = some p) (h' : m'.RegularReachable img')
    (hl' : m'.kernel.Linked) (hq : m'.running = some q) (hne : p ≠ q) {write write' : Bool}
    {va va' : Word} {pa : ℕ} (hw : m.kernel.tables.walk (.user write) va = some pa)
    (hw' : m'.kernel.tables.walk (.user write') va' = some pa) :
    0xB8000 ≤ pa ∧ pa < 0xBC000 := by
  have hpq : p.toNat ≠ q.toNat := fun heq => hne (UInt32.toNat_inj.1 heq)
  rcases user_reach h.reachable hl hp hw with hown | htext
  · rcases user_reach h'.reachable hl' hq hw' with hown' | htext'
    · omega
    · exact htext'
  · exact htext

theorem user_disjoint_video : ∃ m m' : Machine, ∃ q pa, 0 ≠ q ∧ m.running = some 0 ∧
    m'.running = some q ∧ m.kernel.tables.walk (.user true) 0x10000000 = some pa ∧
    m'.kernel.tables.walk (.user true) 0x10000000 = some pa ∧ 0xB8000 ≤ pa ∧ pa < 0xBC000 := by
  obtain ⟨m, m', q, ⟨h, hl, hp, hv⟩, h', hl', hq, hne, hv'⟩ := exists_linked_video
  have hmaps : (Region.mk 0x10000000 0x1000 0xB8000).Maps (0x10000000 : Word).toNat 0xB8000 :=
    ⟨by decide, by decide, by decide⟩
  have hw := (Kernel.spans_user h.reachable.mapped hl true 0x10000000 0xB8000).2
    ⟨_, List.mem_cons_of_mem _ (by rw [hv]; exact List.mem_singleton_self _), hmaps⟩
  have hw' := (Kernel.spans_user h'.reachable.mapped hl' true 0x10000000 0xB8000).2
    ⟨_, List.mem_cons_of_mem _ (by rw [hv']; exact List.mem_singleton_self _), hmaps⟩
  exact ⟨m, m', q, _, hne, hp, hq, hw, hw', user_disjoint h hl hp h' hl' hq hne hw hw'⟩

/-- The kernel sees its own 4MB, the text pages, the program page and the video page in every
state, faults on every address below them, and reaches through virtual pages 184 to 188
what `phys` says. -/
theorem supervisor_spans (h : m.RegularReachable img) (hl : m.kernel.Linked) :
    Spans (m.kernel.tables.walk .supervisor)
        (Kernel.kernelRegion :: m.kernel.programRegion ::
          (m.kernel.textRegions ++ m.kernel.videoRegions)) ∧
      ∀ va : Word, va.toNat < 0xBD000 → m.kernel.tables.walk .supervisor va =
        if va.toNat < 0xB8000 then none else some (m.kernel.phys va.toNat) := by
  have hm := h.reachable.mapped
  have hspans := Kernel.spans_supervisor hm hl
  refine ⟨hspans, fun va hva => ?_⟩
  split_ifs with hlow
  · refine (hspans.eq_none_iff va).2 ?_
    intro r hr
    have hstart : 0xB8000 ≤ r.start := Kernel.regions_start hm hr
    omega
  · exact Kernel.walk_supervisor_phys hm hl (by omega) hva

/-- The shell has mapped the screen. -/
theorem supervisor_spans_video : ∃ m : Machine, m.running = some 0 ∧
    m.kernel.tables.walk .supervisor 0x10000000 = some 0xB8000 ∧
    m.kernel.tables.walk .supervisor 0x1000 = none ∧
    m.kernel.tables.walk .supervisor 0xB8005 = some (m.kernel.phys 0xB8005) := by
  obtain ⟨m, -, -, ⟨h, hl, hp, hv⟩, -⟩ := exists_linked_video
  obtain ⟨hspans, hlow⟩ := supervisor_spans h hl
  have hmaps : (Region.mk 0x10000000 0x1000 0xB8000).Maps (0x10000000 : Word).toNat 0xB8000 :=
    ⟨by decide, by decide, by decide⟩
  refine ⟨m, hp, (hspans 0x10000000 0xB8000).2 ⟨_, ?_, hmaps⟩, hlow 0x1000 (by decide),
    hlow 0xB8005 (by decide)⟩
  rw [hv]
  simp

end Machine

end MpOS
