import MpOS.Nesting
import MpOS.Streaming

/-!
# Dispatch through operation tables

`open`, `read`, `write` and `close` jump through the table pointer of a descriptor.
`set_fileop_ptr` leaves that pointer alone for a type above 2, and a free entry has
none, so `open` then jumps through a null pointer. In a run that opens no such file
every jump goes through one of the four tables (`allEvents_dispatches_iff`).
-/

namespace MpOS

open Transition

namespace Kernel

variable {k : Kernel} {img : Image} {p : Word} {opens : Opens}

/-- The table pointer a call jumps through, `none` if it returns before. -/
def jump (img : Image) (k : Kernel) : Event → Option (Option Fileops)
  | .open filename =>
    match k.getAvailFd, img.readDentryByName filename.mem with
    | some fd, some entry => some ((k.setFileopPtr fd entry.type).curFd fd).tablePointer
    | _, _ => none
  | .write fd buf _ =>
    if fd < 0 ∨ fd > maxFd ∨ buf.isNone ∨ (k.curFd fd.toNat).flags = 0 ∨ fd = 0 then none
    else some (k.curFd fd.toNat).tablePointer
  | .read fd buf _ =>
    if fd < 0 ∨ fd > maxFd ∨ buf = 0 ∨ (k.curFd fd.toNat).flags = 0 ∨ fd = 1 then none
    else some (k.curFd fd.toNat).tablePointer
  | .close fd =>
    if fd < minFd ∨ fd > maxFd ∨ (k.curFd fd.toNat).flags = 0 then none
    else some (k.curFd fd.toNat).tablePointer
  | _ => none

/-- `open` has no meaning exactly where it jumps through a null pointer. -/
theorem sysOpen_eq_none_iff (filename : CString) :
    k.sysOpen img filename.mem = none ↔ k.jump img (.open filename) = some none := by
  rw [sysOpen, jump]
  cases k.getAvailFd with
  | none => simp
  | some fd =>
    cases img.readDentryByName filename.mem with
    | none => simp
    | some entry => simp

/-- Under the law only `open` can jump through a null pointer. -/
theorem jump_ne_of_law (hc : k.cur.curFdPtr = .fdTable p) (hl : TableLaw (k.table p) opens)
    {e : Event} (he : ∀ filename, e ≠ .open filename) : k.jump img e ≠ some none := by
  have hops : ∀ fd : ℤ, 0 ≤ fd → fd ≤ 7 → (k.curFd fd.toNat).flags ≠ 0 →
      some (k.curFd fd.toNat).tablePointer ≠ some none := by
    intro fd h0 h7 hf
    rw [curFd_eq hc] at hf ⊢
    rw [ne_eq, Option.some.injEq]
    rcases Nat.lt_or_ge fd.toNat 2 with hlt | hge
    · rw [(hl.std _ hlt).tablePointer]
      simp
    · obtain ⟨ops, hops⟩ := hl.exists_ops hge (by omega) hf
      simp [hops]
  cases e with
  | «open» filename => exact absurd rfl (he filename)
  | read fd buf nbytes =>
    rw [jump]
    split_ifs with h
    · simp
    · simp only [not_or, maxFd] at h
      exact hops fd (by omega) (by omega) h.2.2.2.1
  | write fd buf nbytes =>
    rw [jump]
    split_ifs with h
    · simp
    · simp only [not_or, maxFd] at h
      exact hops fd (by omega) (by omega) h.2.2.2.1
  | close fd =>
    rw [jump]
    split_ifs with h
    · simp
    · simp only [not_or, minFd, maxFd] at h
      exact hops fd (by omega) (by omega) h.2.2
  | _ => simp [jump]

theorem typeOps_ne_none_iff {type : Word} : typeOps type ≠ none ↔ type ≤ 2 := by
  have hcases : type ≤ 2 ↔ type = 0 ∨ type = 1 ∨ type = 2 := by
    simp only [← UInt32.toNat_inj, UInt32.le_iff_toNat_le, UInt32.reduceToNat]
    omega
  rw [hcases, typeOps]
  split_ifs <;> simp_all

/-- Under the law `open` jumps through the table of the file's type, if it has one. -/
theorem jump_open_ne_iff (hc : k.cur.curFdPtr = .fdTable p) (hl : TableLaw (k.table p) opens)
    (filename : CString) :
    k.jump img (.open filename) ≠ some none ↔ (k.getAvailFd ≠ none → ∀ dent,
      img.readDentryByName filename.mem = some dent → dent.type ≤ 2) := by
  rw [jump]
  cases hfd : k.getAvailFd with
  | none => simp
  | some fd =>
    obtain ⟨h2, h7, hfree, -⟩ := getAvailFd_eq_some hc hfd
    cases img.readDentryByName filename.mem with
    | none => simp
    | some dent =>
      simp only [ne_eq, Option.some.injEq, reduceCtorEq, not_false_eq_true, forall_const,
        forall_eq']
      rw [← typeOps_ne_none_iff]
      cases hops : typeOps dent.type with
      | none =>
        have hnone : opens fd = none := by
          by_contra ho
          exact (hl.flags_ne_zero_iff h2 h7).2 ho hfree
        simp [setFileopPtr_of_none fd hops, curFd_eq hc, (hl.closed fd h2 h7 hnone).tablePointer]
      | some ops =>
        have hc' : (k.setFileopPtr fd dent.type).cur.curFdPtr = .fdTable p := by
          rw [setFileopPtr_eq fd hops, cur_setCurFd, hc]
        rw [curFd_eq hc', setFileopPtr_eq fd hops, table_setCurFd hc, Function.update_self]

/-- A call of `open` succeeds, or it returns -1 with nothing changed. -/
theorem sysOpen_returns (hc : k.cur.curFdPtr = .fdTable p) {filename : CString}
    (h : k.jump img (.open filename) ≠ some none) :
    ∃ r, k.sysOpen img filename.mem = some r ∧ (2 ≤ r.1 ∧ r.1 ≤ 7 ∨ r = (-1, k)) := by
  rw [ne_eq, ← sysOpen_eq_none_iff] at h
  obtain ⟨r, hr⟩ := Option.ne_none_iff_exists'.1 h
  refine ⟨r, hr, ?_⟩
  cases hfd : k.getAvailFd with
  | none =>
    rw [sysOpen_fail (Or.inl hfd)] at hr
    exact Or.inr (Option.some.inj hr).symm
  | some fd =>
    obtain ⟨h2, h7, -⟩ := getAvailFd_eq_some hc hfd
    cases hd : img.readDentryByName filename.mem with
    | none =>
      rw [sysOpen_fail (Or.inr hd)] at hr
      exact Or.inr (Option.some.inj hr).symm
    | some dent =>
      simp only [sysOpen, hfd, hd] at hr
      obtain ⟨ops, -, rfl⟩ := Option.map_eq_some_iff.1 hr
      exact Or.inl ⟨by simp only; omega, by simp only; omega⟩

end Kernel

namespace Machine

variable {img : Image}

/-- A call of the running process jumps through one of the four tables if it jumps at all, and an
`open` that does not succeed returns -1 and changes nothing. -/
def Dispatches (img : Image) (m : Machine) (e : Event) : Prop :=
  m.running ≠ none → m.kernel.jump img e ≠ some none ∧
    ∀ filename, e = .open filename → ∃ r, m.kernel.sysOpen img filename.mem = some r ∧
      (2 ≤ r.1 ∧ r.1 ≤ 7 ∨ r = (-1, m.kernel))

/-- An `open` with a free entry names no file of a type above 2. -/
def OpensTyped (img : Image) (m : Machine) (e : Event) : Prop :=
  m.running ≠ none → ∀ filename, e = .open filename → m.kernel.getAvailFd ≠ none →
    ∀ dent, img.readDentryByName filename.mem = some dent → dent.type ≤ 2

/-- With lawful tables the two say the same, whatever code it is that makes the call. -/
theorem dispatches_iff {m : Machine} {chain : Terminal → List Word} {opens : Word → Opens}
    (h : m.Nested chain opens) (e : Event) : Dispatches img m e ↔ OpensTyped img m e := by
  refine forall_congr' fun hr => ?_
  obtain ⟨hptr, hlaw⟩ := h.toTabled.current (h.curPid_ne hr)
  constructor
  · rintro ⟨hjump, -⟩ filename rfl
    exact (Kernel.jump_open_ne_iff hptr hlaw filename).1 hjump
  · intro htyped
    have hjump : m.kernel.jump img e ≠ some none := by
      by_cases he : ∃ filename, e = .open filename
      · obtain ⟨filename, rfl⟩ := he
        exact (Kernel.jump_open_ne_iff hptr hlaw filename).2 (htyped filename rfl)
      · exact Kernel.jump_ne_of_law hptr hlaw fun filename h => he ⟨filename, h⟩
    refine ⟨hjump, ?_⟩
    rintro filename rfl
    exact Kernel.sysOpen_returns hptr hjump

/-- In a run from boot whose reads store in their callers' own pages every jump goes through one of
the four tables exactly when no `open` that has a free entry names a file of a type above 2. -/
theorem allEvents_dispatches_iff {m : Machine} (h : m.Booted) {es : List Event}
    (hown : AllEvents (faultStep img) (OwnReads img) m es) :
    AllEvents (faultStep img) (Dispatches img) m es ↔
      AllEvents (faultStep img) (OpensTyped img) m es := by
  have hinv : ∀ (m : Machine) (e : Event) (m' : Machine),
      (∃ chain opens, m.Nested chain opens) → OwnReads img m e → OpensTyped img m e →
      m.faultStep img e = some m' → ∃ chain opens, m'.Nested chain opens :=
    fun _ _ _ ⟨_, _, hn⟩ _ _ hstep => hn.faultStep hstep
  exact allEvents_iff hinv (fun _ e ⟨_, _, hn⟩ _ => dispatches_iff hn e) hown
    ⟨_, _, nested_boot h fun _ _ => none⟩

/-- Where every file has one of the three types, every run meets the condition. -/
theorem opensTyped_of_typed (hi : img.Typed) (m : Machine) (e : Event) : OpensTyped img m e := by
  intro _ filename _ _ dent hd
  obtain ⟨ops, hops⟩ := hi.typeOps hd
  exact Kernel.typeOps_ne_none_iff.1 (by simp [hops])

theorem allEvents_dispatches_first :
    AllEvents (faultStep Kernel.shellImage) (Dispatches Kernel.shellImage) first
      [.execute ⟨0, 0, fun _ => 0⟩ Kernel.shellCommand, .open Kernel.shellCommand,
        .read 2 0x8048000 4, .close 2] :=
  (allEvents_dispatches_iff first_booted (by decide)).2
    (.of_mem fun e _ m => opensTyped_of_typed shellImage_typed m e)

end Machine

namespace Kernel

/-- An image with a program named `shell` and a file named `a` of type 3. -/
def typeImage : Image where
  mem a := (([(0, 2), (4, 1), (8, 1), (64, 115), (65, 104), (66, 101), (67, 108), (68, 108),
    (96, 2), (128, 97), (160, 3), (4096, 4), (8192, 0x7F), (8193, 0x45), (8194, 0x4C),
    (8195, 0x46)] : List (Word × Byte)).lookup a).getD 0

theorem type_executable (frame : ExecFrame) : Executable typeImage frame shellCommand :=
  ⟨by decide, typeImage.dentry 0, by rfl, by decide, by rfl, by decide⟩

theorem lookup_type : typeImage.readDentryByName (CString.mk [97] (by decide)).mem =
    some (typeImage.dentry 1) := by
  rfl

end Kernel

namespace Machine

/-- `open` on the file of type 3 jumps through a null pointer. -/
theorem not_dispatches_type : ∃ m : Machine, m.Reachable Kernel.typeImage ∧ m.running = some 0 ∧
    m.kernel.jump Kernel.typeImage (.open (CString.mk [97] (by decide))) = some none := by
  obtain ⟨m, hm, hrun, hptr, havail⟩ := exists_first (Kernel.type_executable ⟨0, 0, fun _ => 0⟩)
  obtain ⟨opens, ho⟩ := hm.exists_opens
  have hlaw := ho.lawful.law 0 (ho.lawful.coherent.running_mem hrun)
  refine ⟨m, hm, hrun, ?_⟩
  by_contra hjump
  have htype := (Kernel.jump_open_ne_iff hptr hlaw _).1 hjump (by simp [havail]) _
    Kernel.lookup_type
  exact absurd htype (by decide)

end Machine

end MpOS
