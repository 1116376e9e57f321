import MpOS.NumberFormat
import MpOS.State

/-!
# `printf` (`lib.c`)

The scanner steps over the format in three places : after a literal character, after `%`
and after each `#`. In the last two it looks at what comes next without asking whether
the format ends there. So a format that ends inside a directive is read past its
terminator, and these are the only ones (`scansFormat_iff`).
-/

open ZeroBuffer

namespace MpOS

/-- `puts`, from a buffer of `n` bytes : the characters it puts. -/
def puts (n : ℕ) (s : ℕ → Byte) : Option (List Byte) :=
  (strlen n s).map (string s)

theorem puts_eq {s : ℕ → Byte} {w : List Byte} {n : ℕ} (h0 : 0 ∉ w) (hn : w.length < n)
    (h : Holds s (w.length + 1) w) : puts n s = some w :=
  h.map_string_strlen h0 hn

namespace Printf

/-! ## The conversions -/

/-- `%x` and `%#x`. -/
def convX (alternate : Bool) (value : Word) (convBuf : ℕ → Byte) : Option (List Byte) :=
  if alternate = false then do
    let convBuf ← itoa 33 value convBuf 16
    puts 64 convBuf
  else do
    let digits ← itoa 33 value (fun i => convBuf (8 + i)) 16
    let startingIndex ← strlen 56 digits
    let convBuf := fun i => if i < 8 then convBuf i else digits (i - 8)
    let convBuf := (List.range' startingIndex (8 - startingIndex)).foldl
      (fun convBuf i => Function.update convBuf i 48) convBuf
    puts (64 - startingIndex) fun i => convBuf (startingIndex + i)

/-- `%u`. -/
def convU (value : Word) (convBuf : ℕ → Byte) : Option (List Byte) := do
  let convBuf ← itoa 33 value convBuf 10
  puts 36 convBuf

/-- `%d`. -/
def convD (value : Word) (convBuf : ℕ → Byte) : Option (List Byte) :=
  if toInt value < 0 then do
    let digits ← itoa 33 (-value) (fun i => convBuf (1 + i)) 10
    puts 36 fun i => if i = 0 then 45 else digits (i - 1)
  else do
    let convBuf ← itoa 33 value convBuf 10
    puts 36 convBuf

/-! ## The scanner -/

/-- Where the scanner is : at the test of its loop, or at `format_char_switch`. -/
inductive Label
  | format
  | formatChar (alternate : Bool)

/-- The scanner's pointers, into the format and into the arguments, and the characters put. -/
structure Scan where
  label : Label
  buf : ℕ
  esp : ℕ
  out : List Byte

/-- What the scanner is called with : the arguments, the strings at addresses, and what its
conversion buffers hold. -/
structure Frame where
  args : ℕ → Word
  strings : Word → CString
  convBuf : ℕ → Byte

/-- Put characters and take an argument. -/
def Scan.take (s : Scan) (text : List Byte) : Scan :=
  { s with esp := s.esp + 1, out := s.out ++ text }

/-- The cases of the inner `switch` but `'#'`. -/
def convert (f : Frame) (c : Byte) (alternate : Bool) (s : Scan) : Option Scan :=
  if c = 37 then some { s with out := s.out ++ [37] }
  else if c = 120 then (convX alternate (f.args s.esp) f.convBuf).map s.take
  else if c = 117 then (convU (f.args s.esp) f.convBuf).map s.take
  else if c = 100 then (convD (f.args s.esp) f.convBuf).map s.take
  else if c = 99 then some (s.take [(f.args s.esp).toUInt8])
  else if c = 115 then some (s.take (f.strings (f.args s.esp)).chars)
  else some s

/-- A pass of the scanner. It looks at one byte of the format. -/
def pass (fmt : CString) (f : Frame) (s : Scan) : Scan ⊕ Option Scan :=
  match load (fmt.strlen + 1) fmt.mem s.buf with
  | none => .inr none
  | some c =>
    match s.label with
    | .format =>
      if c = 0 then .inr (some s)
      else if c = 37 then .inl { s with label := .formatChar false, buf := s.buf + 1 }
      else .inl { s with buf := s.buf + 1, out := s.out ++ [c] }
    | .formatChar alternate =>
      if c = 35 then .inl { s with label := .formatChar true, buf := s.buf + 1 }
      else
        match convert f c alternate s with
        | none => .inr none
        | some s => .inl { s with label := .format, buf := s.buf + 1 }

end Printf

/-- `printf` : the scanner where it returns. It is `none` where it reads outside the format or a
conversion buffer. -/
def printf (passes : ℕ) (fmt : CString) (f : Printf.Frame) : Option (Option Printf.Scan) :=
  Loop.iterate (Printf.pass fmt f) passes ⟨.format, 0, 0, []⟩

namespace Printf

/-! ## What the conversions put -/

theorem convU_eq (value : Word) (convBuf : ℕ → Byte) :
    convU value convBuf = some (numeral 10 value.toNat) := by
  have hlen := length_numeral_lt value (by decide : 2 ≤ 10)
  rw [convU, itoa_spec value (by decide) (by decide)]
  exact puts_eq (zero_notMem_numeral value (by decide) (by decide)) (hlen.trans (by decide))
    (holds_fill_zero _ _)

theorem convD_eq (value : Word) (convBuf : ℕ → Byte) :
    convD value convBuf = some (if toInt value < 0 then 45 :: numeral 10 (-value).toNat
      else numeral 10 value.toNat) := by
  rw [convD]
  split
  · have hlen := length_numeral_lt (-value) (by decide : 2 ≤ 10)
    have hnul := zero_notMem_numeral (-value) (by decide : 2 ≤ 10) (by decide)
    rw [itoa_spec (-value) (by decide) (by decide)]
    refine puts_eq ?_ (Nat.succ_lt_succ (hlen.trans (by decide))) fun i hi => ?_
    · rw [List.mem_cons, not_or]
      exact ⟨by decide, hnul⟩
    · cases i with
      | zero => rfl
      | succ i =>
        rw [if_neg (Nat.succ_ne_zero i), Nat.add_sub_cancel, List.getD_cons_succ]
        exact holds_fill_zero _ _ i (Nat.lt_of_succ_lt_succ hi)
  · exact convU_eq value convBuf

/-- A loop that stores one character into consecutive cells. -/
theorem foldl_update_range' (s : ℕ → Byte) (c : Byte) (a n i : ℕ) :
    (List.range' a n).foldl (fun s i => Function.update s i c) s i =
      if a ≤ i ∧ i < a + n then c else s i := by
  induction n generalizing s a with
  | zero => rw [if_neg (by omega)]; rfl
  | succ n ih =>
    rw [List.range'_succ, List.foldl_cons, ih]
    by_cases hi : i = a
    · subst hi
      rw [if_neg (by omega), if_pos (by omega), Function.update_self]
    · rw [Function.update_of_ne hi]
      congr 1
      rw [eq_iff_iff]
      omega

theorem convX_eq (alternate : Bool) (value : Word) (convBuf : ℕ → Byte) :
    convX alternate value convBuf = some (if alternate = false then numeral 16 value.toNat
      else List.replicate (8 - (numeral 16 value.toNat).length) 48 ++ numeral 16 value.toNat) := by
  have hlen : (numeral 16 value.toNat).length ≤ 8 :=
    length_numeral_le (by decide) (by decide) value.toNat_lt
  have hnul := zero_notMem_numeral value (by decide : 2 ≤ 16) (by decide)
  rw [convX]
  split
  · rw [itoa_spec value (by decide) (by decide)]
    exact puts_eq hnul (Nat.lt_of_le_of_lt hlen (by decide)) (holds_fill_zero _ _)
  · have hstart : strlen 56 (fill (fun i => convBuf (8 + i)) (numeral 16 value.toNat ++ [0])) =
        some (numeral 16 value.toNat).length := (holds_fill_zero _ _).strlen_eq hnul (by omega)
    rw [itoa_spec value (by decide) (by decide)]
    change (strlen 56 (fill _ (numeral 16 value.toNat ++ [0]))).bind _ = _
    rw [hstart, Option.bind_some]
    refine puts_eq ?_ ?_ fun i hi => ?_
    · rw [List.mem_append, not_or]
      exact ⟨fun h => absurd (List.eq_of_mem_replicate h) (by decide), hnul⟩
    · rw [List.length_append, List.length_replicate]
      omega
    · rw [List.length_append, List.length_replicate] at hi
      rw [foldl_update_range']
      by_cases hpad : i < 8 - (numeral 16 value.toNat).length
      · rw [if_pos (by omega), List.getD_append _ _ _ _ (by rwa [List.length_replicate]),
          List.getD_replicate _ hpad]
      · rw [if_neg (by omega), if_neg (by omega), List.getD_append_right _ _ _ _ (by
          rw [List.length_replicate]; omega), List.length_replicate]
        have hoff : (numeral 16 value.toNat).length + i - 8 =
          i - (8 - (numeral 16 value.toNat).length) := by omega
        rw [hoff]
        exact holds_fill_zero _ (numeral 16 value.toNat) _ (by omega)

/-! ## Formats -/

/-- Where a character of a format stands : after a `%` and its flags, or not. -/
inductive Place
  | text
  | directive
  deriving DecidableEq

/-- The place after a character. -/
def Place.next : Place → Byte → Place
  | .text, c => if c = 37 then .directive else .text
  | .directive, c => if c = 35 then .directive else .text

/-- The characters that take an argument in a directive : `x`, `u`, `d`, `c` and `s`. -/
def takers : List Byte :=
  [120, 117, 100, 99, 115]

/-- The arguments that a format takes from a place on. -/
def conversions : Place → List Byte → ℕ
  | _, [] => 0
  | place, c :: cs =>
    (if place = .directive ∧ c ∈ takers then 1 else 0) + conversions (place.next c) cs

/-- The place of the scanner. -/
def Label.place : Label → Place
  | .format => .text
  | .formatChar _ => .directive

/-- Every case of the inner `switch` comes back, with an argument taken if it is a conversion. -/
theorem convert_spec (f : Frame) (c : Byte) (alternate : Bool) (s : Scan) :
    ∃ text, convert f c alternate s =
      some { s with esp := s.esp + (if c ∈ takers then 1 else 0), out := s.out ++ text } := by
  have hx := convX_eq alternate (f.args s.esp) f.convBuf
  have hu := convU_eq (f.args s.esp) f.convBuf
  have hd := convD_eq (f.args s.esp) f.convBuf
  rw [convert, hx, hu, hd]
  by_cases h37 : c = 37
  · subst h37
    exact ⟨_, rfl⟩
  rw [if_neg h37]
  by_cases h120 : c = 120
  · subst h120
    exact ⟨_, rfl⟩
  rw [if_neg h120]
  by_cases h117 : c = 117
  · subst h117
    exact ⟨_, rfl⟩
  rw [if_neg h117]
  by_cases h100 : c = 100
  · subst h100
    exact ⟨_, rfl⟩
  rw [if_neg h100]
  by_cases h99 : c = 99
  · subst h99
    exact ⟨_, rfl⟩
  rw [if_neg h99]
  by_cases h115 : c = 115
  · subst h115
    exact ⟨_, rfl⟩
  rw [if_neg h115, if_neg (by simp [takers, *])]
  exact ⟨[], by rw [List.append_nil, Nat.add_zero]⟩

section Scan

variable {fmt : CString} {f : Frame} {s : Scan}

/-- A pass over a character of the format goes on, with the character's argument taken. -/
theorem pass_char (hbuf : s.buf < fmt.strlen) : ∃ s', pass fmt f s = .inl s' ∧
    s'.buf = s.buf + 1 ∧ s'.label.place = s.label.place.next (fmt.mem s.buf) ∧
    s'.esp = s.esp +
      (if s.label.place = .directive ∧ fmt.mem s.buf ∈ takers then 1 else 0) := by
  have hc : fmt.mem s.buf ≠ 0 := by
    rw [CString.mem, List.getD_eq_getElem _ _ hbuf]
    exact fun h => fmt.nul (h ▸ List.getElem_mem hbuf)
  obtain ⟨label, buf, esp, out⟩ := s
  simp only at hbuf hc ⊢
  cases label with
  | format =>
    rw [pass, load_of_lt (by simp only; omega)]
    simp only [if_neg hc, Label.place, Place.next]
    split
    · exact ⟨_, rfl, rfl, rfl, rfl⟩
    · exact ⟨_, rfl, rfl, rfl, rfl⟩
  | formatChar alternate =>
    rw [pass, load_of_lt (by simp only; omega)]
    simp only [Label.place, Place.next, true_and]
    split
    · rename_i h35
      refine ⟨_, rfl, rfl, rfl, ?_⟩
      rw [h35]
      rfl
    · obtain ⟨text, htext⟩ :=
        convert_spec f (fmt.mem buf) alternate ⟨.formatChar alternate, buf, esp, out⟩
      rw [htext]
      exact ⟨_, rfl, rfl, rfl, rfl⟩

/-- At the terminator the scanner returns if it stands in the text, and steps over it if not. -/
theorem pass_nul (hbuf : s.buf = fmt.strlen) :
    (s.label.place = .text → pass fmt f s = .inr (some s)) ∧
    (s.label.place = .directive → ∃ s', pass fmt f s = .inl s' ∧ s'.buf = fmt.strlen + 1) := by
  have hc : fmt.mem s.buf = 0 := by
    rw [hbuf]
    exact List.getD_eq_default _ _ (Nat.le_refl _)
  obtain ⟨label, buf, esp, out⟩ := s
  simp only at hbuf hc ⊢
  subst hbuf
  cases label with
  | format =>
    refine ⟨fun _ => ?_, fun h => absurd h (by decide)⟩
    rw [pass, load_of_lt (Nat.lt_succ_self _)]
    simp only [hc, if_pos]
  | formatChar alternate =>
    refine ⟨fun h => absurd h (by simp [Label.place]), fun _ => ?_⟩
    obtain ⟨text, htext⟩ := convert_spec f 0 alternate ⟨.formatChar alternate, fmt.strlen, esp, out⟩
    rw [pass, load_of_lt (Nat.lt_succ_self _)]
    simp only [hc, htext]
    exact ⟨_, rfl, rfl⟩

/-- Beyond the terminator it reads outside the format. -/
theorem pass_outside (hbuf : s.buf = fmt.strlen + 1) : pass fmt f s = .inr none := by
  rw [pass, load, if_neg (by omega)]

/-- A run of the scanner over what is left of the format. -/
theorem iterate_pass (l : List Byte) (hl : fmt.chars.drop s.buf = l) (hbuf : s.buf ≤ fmt.strlen) :
    ∃ r, Loop.iterate (pass fmt f) (l.length + 2) s = some r ∧
      (l.foldl Place.next s.label.place = .text → ∃ s', r = some s' ∧ s'.buf = fmt.strlen ∧
        s'.esp = s.esp + conversions s.label.place l) ∧
      (l.foldl Place.next s.label.place = .directive → r = none) := by
  induction l generalizing s with
  | nil =>
    have hend : s.buf = fmt.strlen :=
      Nat.le_antisymm hbuf (List.drop_eq_nil_iff.1 hl)
    obtain ⟨htext, hdirective⟩ := pass_nul (f := f) hend
    cases hplace : s.label.place with
    | text =>
      refine ⟨_, Loop.iterate_of_inr (htext hplace) _, fun _ => ⟨s, rfl, hend, rfl⟩, fun h => ?_⟩
      cases h
    | directive =>
      obtain ⟨s', hs', hbuf'⟩ := hdirective hplace
      refine ⟨none, ?_, fun h => ?_, fun _ => rfl⟩
      · rw [List.length_nil, Loop.iterate_of_inl hs', Loop.iterate_of_inr (pass_outside hbuf')]
      · cases h
  | cons c l ih =>
    have hlt : s.buf < fmt.strlen := by
      by_contra hge
      rw [List.drop_eq_nil_of_le (Nat.not_lt.1 hge)] at hl
      cases hl
    rw [List.drop_eq_getElem_cons hlt, List.cons.injEq] at hl
    have hc : fmt.mem s.buf = c := by rw [CString.mem, List.getD_eq_getElem _ _ hlt, hl.1]
    obtain ⟨s', hs', hbuf', hplace, hesp⟩ := pass_char (f := f) hlt
    rw [hc] at hplace hesp
    obtain ⟨r, hr, htext, hdirective⟩ := ih (by rw [hbuf', hl.2]) (by omega)
    rw [hplace] at htext hdirective
    refine ⟨r, by rw [List.length_cons, Loop.iterate_of_inl hs', hr], fun h => ?_, hdirective⟩
    obtain ⟨s'', rfl, hbuf'', hesp''⟩ := htext h
    refine ⟨s'', rfl, hbuf'', ?_⟩
    rw [hesp'', hesp, conversions, Nat.add_assoc]

end Scan

/-- The scanner returns, with the length of the format and the arguments of its directives. -/
def ScansFormat (fmt : CString) (r : Option (Option Scan)) : Prop :=
  ∃ s, r = some (some s) ∧ s.buf = fmt.strlen ∧ s.esp = conversions .text fmt.chars

/-- The scanner stays inside the formats that do not end inside a directive. -/
theorem scansFormat_iff (fmt : CString) (f : Frame) :
    (∃ passes, ScansFormat fmt (printf passes fmt f)) ↔
      fmt.chars.foldl Place.next .text = .text := by
  obtain ⟨r, hr, htext, hdirective⟩ :=
    iterate_pass (f := f) (s := ⟨.format, 0, 0, []⟩) fmt.chars List.drop_zero (Nat.zero_le _)
  constructor
  · rintro ⟨passes, s, hs, -⟩
    cases hplace : fmt.chars.foldl Place.next .text with
    | text => rfl
    | directive =>
      have hnone := Loop.iterate_unique hs hr
      rw [hdirective hplace] at hnone
      cases hnone
  · intro h
    obtain ⟨s, rfl, hbuf, hesp⟩ := htext h
    exact ⟨_, s, hr, hbuf, by rw [hesp, Nat.zero_add]; rfl⟩

/-- The format `"%"`. -/
def percent : CString :=
  ⟨[37], by decide⟩

theorem not_scansFormat_percent :
    ¬∃ passes, ScansFormat percent
      (printf passes percent ⟨fun _ => 0, fun _ => percent, fun _ => 0⟩) := by
  rintro ⟨passes, s, hs, -⟩
  have hnone : printf 3 percent ⟨fun _ => 0, fun _ => percent, fun _ => 0⟩ = some none := by rfl
  cases Loop.iterate_unique hs hnone

end Printf

end MpOS
