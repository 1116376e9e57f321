import Mathlib

/-!
# Two-level page tables of 32-bit processors

A page directory of 1024 entries, each of which maps a 4MB page or points at a page
table of 1024 entries for 4KB pages. `walk` is the translation a processor makes :
every entry on the way has to be present, and user code needs the user bit in both,
and the write bit in both to store. The supervisor is not held to the write bit.

An address space is described by the ranges it is made of (`Spans`).
-/

namespace PageWalk

/-! ## Entries -/

/-- The entry is in use. -/
def Present (e : UInt32) : Prop :=
  e.toNat.testBit 0

/-- User code may store. -/
def Writable (e : UInt32) : Prop :=
  e.toNat.testBit 1

/-- User code may look. -/
def User (e : UInt32) : Prop :=
  e.toNat.testBit 2

/-- A directory entry maps a 4MB page. -/
def Large (e : UInt32) : Prop :=
  e.toNat.testBit 7

instance (e : UInt32) : Decidable (Present e) :=
  inferInstanceAs (Decidable (_ = _))

instance (e : UInt32) : Decidable (Writable e) :=
  inferInstanceAs (Decidable (_ = _))

instance (e : UInt32) : Decidable (User e) :=
  inferInstanceAs (Decidable (_ = _))

instance (e : UInt32) : Decidable (Large e) :=
  inferInstanceAs (Decidable (_ = _))

/-- The flags of an entry whose page is 4KB aligned are those that were added to it. -/
theorem toNat_or {a c : UInt32} (ha : a.toNat % 4096 = 0) (hc : c.toNat < 4096) :
    (a ||| c).toNat = a.toNat + c.toNat := by
  have h : a.toNat = 2 ^ 12 * (a.toNat / 4096) := by omega
  rw [UInt32.toNat_or, h, Nat.two_pow_add_eq_or_of_lt hc]

theorem testBit_or {a c : UInt32} (ha : a.toNat % 4096 = 0) (hc : c.toNat < 4096) {i : ℕ}
    (hi : i < 12) : (a ||| c).toNat.testBit i = c.toNat.testBit i := by
  have h : a.toNat = 2 ^ 12 * (a.toNat / 4096) := by omega
  rw [toNat_or ha hc, h, Nat.testBit_two_pow_mul_add _ hc, if_pos hi]

theorem page_or {a c : UInt32} (ha : a.toNat % 4096 = 0) (hc : c.toNat < 4096) :
    (a ||| c).toNat / 4096 = a.toNat / 4096 := by
  rw [toNat_or ha hc]
  omega

/-! ## Translation -/

/-- Who looks at an address, and whether it is to store there. -/
inductive Access
  | user (write : Bool)
  | supervisor

/-- What an entry demands of an access. -/
def Allows : Access → UInt32 → Prop
  | .user write, e => Present e ∧ User e ∧ (write → Writable e)
  | .supervisor, e => Present e

instance : (a : Access) → (e : UInt32) → Decidable (Allows a e)
  | .user write, e => inferInstanceAs (Decidable (Present e ∧ User e ∧ (write → Writable e)))
  | .supervisor, e => inferInstanceAs (Decidable (Present e))

theorem Allows.present {a : Access} {e : UInt32} (h : Allows a e) : Present e := by
  cases a with
  | user write => exact h.1
  | supervisor => exact h

/-- A page directory, and the page table in every page of physical memory. -/
structure Tables where
  directory : ℕ → UInt32
  table : ℕ → ℕ → UInt32

namespace Tables

variable (T : Tables)

/-- The directory entry of an address. -/
def pde (va : UInt32) : UInt32 :=
  T.directory (va.toNat / 0x400000)

/-- The table entry of an address, where the directory entry points at a table. -/
def pte (va : UInt32) : UInt32 :=
  T.table ((T.pde va).toNat / 4096) (va.toNat / 4096 % 1024)

/-- The physical address an access reaches. `none` is a page fault. -/
def walk (a : Access) (va : UInt32) : Option ℕ :=
  if Allows a (T.pde va) then
    if Large (T.pde va) then
      some ((T.pde va).toNat / 0x400000 * 0x400000 + va.toNat % 0x400000)
    else if Allows a (T.pte va) then
      some ((T.pte va).toNat / 4096 * 4096 + va.toNat % 4096)
    else none
  else none

end Tables

/-! ## Address spaces -/

/-- A range of virtual addresses, and the physical address of its first byte. -/
structure Region where
  start : ℕ
  size : ℕ
  target : ℕ

/-- The physical address of a byte of the range. -/
def Region.Maps (r : Region) (va pa : ℕ) : Prop :=
  r.start ≤ va ∧ va < r.start + r.size ∧ pa = r.target + (va - r.start)

theorem Region.maps_mk {start size target va pa : ℕ} :
    (Region.mk start size target).Maps va pa ↔
      start ≤ va ∧ va < start + size ∧ pa = target + (va - start) :=
  Iff.rfl

/-- The address space is made of the regions : an address outside of them faults. -/
def Spans (f : UInt32 → Option ℕ) (rs : List Region) : Prop :=
  ∀ va pa, f va = some pa ↔ ∃ r ∈ rs, r.Maps va.toNat pa

theorem Spans.eq_none_iff {f : UInt32 → Option ℕ} {rs : List Region} (h : Spans f rs)
    (va : UInt32) :
    f va = none ↔ ∀ r ∈ rs, ¬(r.start ≤ va.toNat ∧ va.toNat < r.start + r.size) := by
  constructor
  · rintro hnone r hr ⟨hlo, hhi⟩
    have hsome := (h va _).2 ⟨r, hr, hlo, hhi, rfl⟩
    rw [hnone] at hsome
    simp at hsome
  · intro hout
    by_contra hne
    obtain ⟨pa, hpa⟩ := Option.ne_none_iff_exists'.1 hne
    obtain ⟨r, hr, hlo, hhi, -⟩ := (h va pa).1 hpa
    exact hout r hr ⟨hlo, hhi⟩

/-! ## One directory entry -/

namespace Tables

variable {T : Tables} {a : Access} {va : UInt32} {i : ℕ}

/-- An entry the access may not use maps nothing. -/
theorem walk_of_not_allows (hva : va.toNat / 0x400000 = i) (h : ¬Allows a (T.directory i)) :
    T.walk a va = none := by
  rw [walk, pde, hva, if_neg h]

/-- A 4MB page. -/
theorem walk_large_iff (hva : va.toNat / 0x400000 = i) (h : Allows a (T.directory i))
    (hl : Large (T.directory i)) (pa : ℕ) :
    T.walk a va = some pa ↔
      (Region.mk (i * 0x400000) 0x400000 ((T.directory i).toNat / 0x400000 * 0x400000)).Maps
        va.toNat pa := by
  rw [walk, pde, hva, if_pos h, if_pos hl, Option.some.injEq, Region.maps_mk]
  constructor
  · rintro rfl
    omega
  · rintro ⟨hlo, hhi, rfl⟩
    omega

/-- The 4KB pages of a page table. -/
theorem walk_small_iff (hva : va.toNat / 0x400000 = i) (h : Allows a (T.directory i))
    (hl : ¬Large (T.directory i)) (pa : ℕ) :
    T.walk a va = some pa ↔
      ∃ j < 1024, Allows a (T.table ((T.directory i).toNat / 4096) j) ∧
        (Region.mk (i * 0x400000 + j * 4096) 4096
          ((T.table ((T.directory i).toNat / 4096) j).toNat / 4096 * 4096)).Maps va.toNat pa := by
  rw [walk, pte, pde, hva, if_pos h, if_neg hl]
  simp only [Region.maps_mk]
  constructor
  · intro hw
    split_ifs at hw with hpte
    have hpa := Option.some.inj hw
    exact ⟨va.toNat / 4096 % 1024, by omega, hpte, by omega, by omega, by omega⟩
  · rintro ⟨j, hj, hpte, hlo, hhi, rfl⟩
    have hidx : va.toNat / 4096 % 1024 = j := by omega
    rw [hidx, if_pos hpte, Option.some.injEq]
    omega

end Tables

end PageWalk
