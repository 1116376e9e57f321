import MpOS.Filesys

/-!
# Lookups by name

`read_dentry_by_name` compares a string with the name field of each directory entry. The
comparison stops at a difference, at a NUL in both, or at the end of the field, where
the string has to end too. `readDentryByNameInto` is the call with its destination and
with the subscripts at which it reads the string, and `readDentryByName` its outcome
(`readDentryByNameInto_eq`).
-/

namespace MpOS

/-! ## Strings in memory -/

/-- The string lies at the start of a memory, its terminator included. -/
def CString.At (s : CString) (mem : ℕ → Byte) : Prop :=
  ∀ j ≤ s.strlen, mem j = s.mem j

namespace CString.At

variable {s : CString} {mem : ℕ → Byte}

/-- Up to its terminator a string has no other zero. -/
theorem eq_zero_iff (h : s.At mem) {j : ℕ} (hj : j ≤ s.strlen) : mem j = 0 ↔ j = s.strlen := by
  rw [h j hj, s.mem_eq_zero_iff]
  exact ⟨fun hlen => Nat.le_antisymm hj hlen, fun hlen => hlen.ge⟩

/-- A byte that is not zero lies before the terminator. -/
theorem lt_strlen (h : s.At mem) {j : ℕ} (hj : j ≤ s.strlen) (h0 : mem j ≠ 0) : j < s.strlen :=
  Nat.lt_of_le_of_ne hj fun hlen => h0 ((h.eq_zero_iff hj).2 hlen)

end CString.At

/-- A string stands in its own memory. -/
theorem CString.at_mem (s : CString) : s.At s.mem :=
  fun _ _ => rfl

namespace Image

/-! ## One comparison -/

/-- `matchName` with the subscripts at which it reads `fname`. -/
def matchNameTraced (fname name : ℕ → Byte) : (n j : ℕ) → Bool × List ℕ
  | 0, j => (fname j == 0, [j])
  | n + 1, j =>
    if fname j = name j ∧ fname j = 0 then (true, [j])
    else if fname j ≠ name j then (false, [j])
    else
      let r := matchNameTraced fname name n (j + 1)
      (r.1, j :: r.2)

/-- Recording the reads changes no answer. -/
theorem fst_matchNameTraced (fname name : ℕ → Byte) (n j : ℕ) :
    (matchNameTraced fname name n j).1 = matchName fname name n j := by
  induction n generalizing j with
  | zero => rfl
  | succ n ih =>
    rw [matchNameTraced, matchName]
    split_ifs
    · rfl
    · rfl
    · exact ih (j + 1)

variable {s : CString} {fname : ℕ → Byte}

/-- The comparison goes on only where the string does. -/
theorem le_strlen_of_mem_matchNameTraced (h : s.At fname) (name : ℕ → Byte) (n : ℕ) {j : ℕ}
    (hj : j ≤ s.strlen) : ∀ i ∈ (matchNameTraced fname name n j).2, i ≤ s.strlen := by
  induction n generalizing j with
  | zero =>
    intro i hi
    rw [matchNameTraced, List.mem_singleton] at hi
    exact hi ▸ hj
  | succ n ih =>
    intro i hi
    rw [matchNameTraced] at hi
    split_ifs at hi with hend hne
    · exact List.mem_singleton.1 hi ▸ hj
    · exact List.mem_singleton.1 hi ▸ hj
    · have heq : fname j = name j := not_not.1 hne
      have h0 : fname j ≠ 0 := fun h0 => hend ⟨heq, h0⟩
      rcases List.mem_cons.1 hi with rfl | hi
      · exact hj
      · exact ih (h.lt_strlen hj h0) i hi

/-- So it does not matter what lies behind the string. -/
theorem matchName_congr (h : s.At fname) (name : ℕ → Byte) (n : ℕ) {j : ℕ} (hj : j ≤ s.strlen) :
    matchName fname name n j = matchName s.mem name n j := by
  induction n generalizing j with
  | zero => rw [matchName, matchName, h j hj]
  | succ n ih =>
    rw [matchName, matchName, h j hj]
    split_ifs with hend hne
    · rfl
    · rfl
    · have heq : s.mem j = name j := not_not.1 hne
      exact ih (h.lt_strlen hj fun h0 => hend ⟨heq, h j hj ▸ h0⟩)

/-- An entry matches a string exactly if that is its name. -/
theorem matchName_iff_nameChars (h : s.At fname) (d : Dentry) :
    matchName fname d.name nameLen 0 = true ↔ d.nameChars = s.chars := by
  rw [matchName_congr h _ _ (Nat.zero_le _), matchName_iff, List.drop_zero, Dentry.nameChars,
    List.range_eq_range', eq_comm]

/-- A name field has 32 bytes. -/
theorem length_nameChars_le (d : Dentry) : d.nameChars.length ≤ 32 := by
  have hle := (List.takeWhile_sublist (· ≠ 0) (l := (List.range nameLen).map d.name)).length_le
  rwa [List.length_map, List.length_range] at hle

/-! ## The search -/

/-- `memcpy(dentry, ptr + i, DENTRYSIZE)`. -/
def copyDentry (dest src : Dentry) : Dentry :=
  ⟨fun j => if j < dentrySize.toNat then src.bytes j else dest.bytes j⟩

/-- What a lookup by name leaves : its return value, its destination, and the subscripts at
which it read the name. -/
structure LookupResult where
  ret : ℤ
  dest : Option Dentry
  reads : List ℕ

/-- The outer loop of `read_dentry_by_name` from entry `i` on, with `n` entries left. -/
def lookupLoop (img : Image) (fname : ℕ → Byte) (dest : Dentry) : (n i : ℕ) → LookupResult
  | 0, _ => ⟨-1, some dest, []⟩
  | n + 1, i =>
    let found := matchNameTraced fname (img.dentry (UInt32.ofNat i)).name nameLen 0
    if found.1 then ⟨0, some (copyDentry dest (img.dentry (UInt32.ofNat i))), found.2⟩
    else
      let r := lookupLoop img fname dest n (i + 1)
      { r with reads := found.2 ++ r.reads }

/-- `read_dentry_by_name` with its destination, `none` for a null pointer. -/
def readDentryByNameInto (img : Image) (fname : ℕ → Byte) : Option Dentry → LookupResult
  | none => ⟨-1, none, []⟩
  | some dest => img.lookupLoop fname dest img.fsEntries.toNat 0

variable (img : Image) (dest : Dentry)

/-- The loop ends at the first entry that matches. -/
theorem lookupLoop_eq (fname : ℕ → Byte) (n i : ℕ) :
    ((img.lookupLoop fname dest n i).ret, (img.lookupLoop fname dest n i).dest) =
      match (List.range' i n).find? fun i =>
        matchName fname (img.dentry (UInt32.ofNat i)).name nameLen 0 with
      | none => (-1, some dest)
      | some i => (0, some (copyDentry dest (img.dentry (UInt32.ofNat i)))) := by
  induction n generalizing i with
  | zero => rfl
  | succ n ih =>
    rw [List.range'_succ, List.find?_cons, lookupLoop]
    simp only [fst_matchNameTraced]
    cases hm : matchName fname (img.dentry (UInt32.ofNat i)).name nameLen 0 with
    | true => simp
    | false => simpa using ih (i + 1)

/-- The traced routine returns and stores what the lookup finds. -/
theorem readDentryByNameInto_eq (fname : ℕ → Byte) :
    ((img.readDentryByNameInto fname (some dest)).ret,
        (img.readDentryByNameInto fname (some dest)).dest) =
      match img.readDentryByName fname with
      | none => (-1, some dest)
      | some d => (0, some (copyDentry dest d)) := by
  rw [readDentryByNameInto, lookupLoop_eq, readDentryByName, List.range_eq_range']
  cases (List.range' 0 img.fsEntries.toNat).find? fun i =>
    matchName fname (img.dentry (UInt32.ofNat i)).name nameLen 0 with
  | none => rfl
  | some i => rfl

variable {img dest}

/-- No comparison reads past the terminator. -/
theorem le_strlen_of_mem_lookupLoop (h : s.At fname) (n i : ℕ) :
    ∀ j ∈ (img.lookupLoop fname dest n i).reads, j ≤ s.strlen := by
  induction n generalizing i with
  | zero => exact fun j hj => absurd hj List.not_mem_nil
  | succ n ih =>
    intro j hj
    rw [lookupLoop] at hj
    have hfirst := le_strlen_of_mem_matchNameTraced h (img.dentry (UInt32.ofNat i)).name nameLen
      (Nat.zero_le _)
    split_ifs at hj
    · exact hfirst j hj
    · rcases List.mem_append.1 hj with hj | hj
      · exact hfirst j hj
      · exact ih (i + 1) j hj

/-! ## The entry found -/

/-- The least index of an entry with the name. -/
structure FirstNamed (img : Image) (name : List Byte) (i : ℕ) : Prop where
  lt : i < img.fsEntries.toNat
  named : (img.dentry (UInt32.ofNat i)).nameChars = name
  least : ∀ j < i, (img.dentry (UInt32.ofNat j)).nameChars ≠ name

/-- If some entry has the name, there is a first. -/
theorem exists_firstNamed {name : List Byte}
    (h : ∃ i < img.fsEntries.toNat, (img.dentry (UInt32.ofNat i)).nameChars = name) :
    ∃ i, img.FirstNamed name i := by
  obtain ⟨hlt, hnamed⟩ := Nat.find_spec h
  exact ⟨Nat.find h, hlt, hnamed,
    fun j hj hname => Nat.find_min h hj ⟨hj.trans hlt, hname⟩⟩

/-- The lookup finds the first entry of the name. -/
theorem FirstNamed.readDentryByName (h : s.At fname) {i : ℕ} (hi : img.FirstNamed s.chars i) :
    img.readDentryByName fname = some (img.dentry (UInt32.ofNat i)) := by
  have hfind : ((List.range img.fsEntries.toNat).find? fun i =>
      matchName fname (img.dentry (UInt32.ofNat i)).name nameLen 0) = some i := by
    rw [List.find?_range_eq_some]
    refine ⟨(matchName_iff_nameChars h _).2 hi.named, List.mem_range.2 hi.lt, fun j hj => ?_⟩
    rw [Bool.not_eq_true', ← Bool.not_eq_true, matchName_iff_nameChars h]
    exact hi.least j hj
  rw [Image.readDentryByName, hfind, Option.map_some]

/-- With no such entry it finds nothing. -/
theorem readDentryByName_eq_none (h : s.At fname)
    (hno : ∀ i < img.fsEntries.toNat, (img.dentry (UInt32.ofNat i)).nameChars ≠ s.chars) :
    img.readDentryByName fname = none := by
  rw [readDentryByName, Option.map_eq_none_iff, List.find?_eq_none]
  intro i hi
  rw [matchName_iff_nameChars h]
  exact hno i (List.mem_range.1 hi)

/-- A lookup finds the first entry that has the string for its name, and copies the entry. Without
one it fails and leaves its destination. It does not read behind the string. -/
theorem readDentryByNameInto_spec (img : Image) {s : CString} {fname : ℕ → Byte} (h : s.At fname)
    (dest : Dentry) :
    ((img.readDentryByNameInto fname (some dest)).ret = 0 ↔
        ∃ i < img.fsEntries.toNat, (img.dentry (UInt32.ofNat i)).nameChars = s.chars) ∧
      (∀ i < img.fsEntries.toNat, (img.dentry (UInt32.ofNat i)).nameChars = s.chars →
        (∀ j < i, (img.dentry (UInt32.ofNat j)).nameChars ≠ s.chars) →
        ∃ d, (img.readDentryByNameInto fname (some dest)).dest = some d ∧
          (∀ b < 64, d.bytes b = (img.dentry (UInt32.ofNat i)).bytes b) ∧
          ∀ b, 64 ≤ b → d.bytes b = dest.bytes b) ∧
      ((¬∃ i < img.fsEntries.toNat, (img.dentry (UInt32.ofNat i)).nameChars = s.chars) →
        (img.readDentryByNameInto fname (some dest)).ret = -1 ∧
          (img.readDentryByNameInto fname (some dest)).dest = some dest) ∧
      (33 ≤ s.strlen → (img.readDentryByNameInto fname (some dest)).ret = -1) ∧
      ∀ j ∈ (img.readDentryByNameInto fname (some dest)).reads, j ≤ s.strlen := by
  have hres := img.readDentryByNameInto_eq dest fname
  have hsize : dentrySize.toNat = 64 := rfl
  have hfail : (¬∃ i < img.fsEntries.toNat, (img.dentry (UInt32.ofNat i)).nameChars = s.chars) →
      (img.readDentryByNameInto fname (some dest)).ret = -1 ∧
        (img.readDentryByNameInto fname (some dest)).dest = some dest := by
    intro hno
    rw [readDentryByName_eq_none h fun i hi hname => hno ⟨i, hi, hname⟩] at hres
    exact Prod.mk.inj hres
  refine ⟨⟨fun hret => ?_, fun hex => ?_⟩, fun i hi hname hleast => ?_, hfail, fun hlong => ?_, ?_⟩
  · by_contra hno
    rw [(hfail hno).1] at hret
    exact absurd hret (by decide)
  · obtain ⟨i, hi⟩ := exists_firstNamed hex
    rw [hi.readDentryByName h] at hres
    exact (Prod.mk.inj hres).1
  · rw [FirstNamed.readDentryByName h ⟨hi, hname, hleast⟩] at hres
    refine ⟨_, (Prod.mk.inj hres).2, fun b hb => if_pos (hsize ▸ hb), fun b hb => if_neg ?_⟩
    rw [hsize]
    omega
  · refine (hfail fun ⟨i, _, hname⟩ => ?_).1
    have hle := length_nameChars_le (img.dentry (UInt32.ofNat i))
    rw [hname] at hle
    exact absurd (hlong.trans hle) (by decide)
  · exact le_strlen_of_mem_lookupLoop h _ _

/-- An image with one entry, of name "a". -/
def nameImage : Image where
  mem a := if a = 0 then 1 else if a = 64 then 97 else 0

theorem readDentryByNameInto_nameImage :
    (nameImage.readDentryByNameInto (CString.mk [97] (by decide)).mem (some ⟨fun _ => 0⟩)).ret =
      0 :=
  (readDentryByNameInto_spec nameImage (CString.mk [97] (by decide)).at_mem ⟨fun _ => 0⟩).1.2
    ⟨0, by decide, by decide⟩

end Image

end MpOS
