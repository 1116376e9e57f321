import MpOS.GrepLines
import Mathlib.Data.List.DropRight

/-!
# The search of `grep`

The byte behind the buffer is uninitialised until a full buffer ends in a part of a line. If
it holds a newline, the first such line is cut in two, at a multiple of 1024. A string
that starts with a byte from 128 on is never found. Otherwise `do_one_file` puts the lines
that contain the string, wherever the buffers end (`putsMatches_iff`).
-/

open ZeroBuffer TextLines

namespace MpOS

namespace Grep

variable {data : ℕ → Byte} {l : List Byte}

/-! ## The loop over the reads -/

/-- What is taken for granted of the calls on an open file : `read` returns the number of bytes
asked for except at the end of the file, and `close` succeeds. -/
structure Reads {σ : Type*} (calls : Calls σ) (fd : ℤ) (left : σ → List Byte → Prop) : Prop where
  read_ret : ∀ st t n, left st t → (calls.read fd n st).1 = (min n t.length : ℕ)
  read_bytes : ∀ st t n, left st t → (calls.read fd n st).2.1 = t.take n
  read_left : ∀ st t n, left st t → left (calls.read fd n st).2.2 (t.drop n)
  closed : ∀ st t, left st t → (calls.close fd st).1 ≠ -1

/-- Every line is shorter than the buffer. -/
def Short (t : List Byte) : Prop :=
  ∀ l, l <:+: t → 10 ∉ l → l.length < bufSize

/-- What is left of a file of short lines has short lines. -/
theorem Short.of_suffix {t t' : List Byte} (h : Short t) (ht : t' <:+ t) : Short t' :=
  fun l hl => h l (hl.trans ht.isInfix)

/-- A read appends to the text the buffer holds. -/
theorem window_stored (h : Window data 0 l) (bytes : List Byte) :
    Window (stored data l.length bytes) 0 (l ++ bytes) := by
  refine window_append.2 ⟨h.congr fun j _ hj => if_neg (by omega), ?_⟩
  rw [Nat.zero_add]
  refine window_of_forall fun j hj => ?_
  rw [stored, if_pos (Nat.le_add_right _ _), Nat.add_sub_cancel_left,
    List.getD_eq_getElem _ _ hj]

/-- Past the bytes read the buffer is as it was. -/
theorem stored_of_le (data : ℕ → Byte) {last i : ℕ} (bytes : List Byte)
    (hi : last + bytes.length ≤ i) : stored data last bytes i = data i := by
  rw [stored]
  split
  · exact List.getD_eq_default _ _ (by omega)
  · rfl

/-- What the buffer holds after a read. -/
def filled (b : Scan) (p bytes : List Byte) : Scan :=
  ⟨(p ++ bytes).length, 0, stored b.data p.length bytes, b.out⟩

/-- The buffer holds the start of a line. -/
structure Pending (b : Scan) (p : List Byte) : Prop where
  window : Window b.data 0 p
  last_eq : b.last = p.length
  line : 10 ∉ p
  lt : p.length < bufSize

section Reads

variable {s : CString} (fname : CString) {b : Scan} {σ : Type*} {calls : Calls σ} {fd : ℤ}
  {left : σ → List Byte → Prop} {p rest : List Byte} {st : σ}

/-- A pass of the loop over the reads. -/
theorem readPass_spec (hreads : Reads calls fd left) (hs : s.chars ≠ []) (h : Pending b p)
    (hleft : left st rest) (hnul : 0 ∉ p ++ rest) {bytes q : List Byte}
    (hbytes : rest.take (bufSize - p.length) = bytes) (hsplit : p ++ bytes = q ++ l)
    (hq : Complete 10 q) (hl : 10 ∉ l) :
    ∃ b' st', left st' (rest.drop (bufSize - p.length)) ∧
      readPass calls s fname fd (b, st) = (if rest = [] then
        .inr (some ⟨0, b'.out, (calls.close fd st').2⟩) else .inl (b', st')) ∧
      Scanned s fname bytes.length (filled b p bytes) b' q l := by
  obtain ⟨hp, hlast, -, hlt⟩ := h
  have hret := hreads.read_ret st rest (bufSize - p.length) hleft
  have hread := hreads.read_bytes st rest (bufSize - p.length) hleft
  have hleft' := hreads.read_left st rest (bufSize - p.length) hleft
  rw [← List.length_take, hbytes] at hret
  rw [hbytes] at hread
  have hwindow := window_stored hp bytes
  rw [hsplit] at hwindow
  have hlen : bytes.length = min (bufSize - p.length) rest.length := by
    rw [← hbytes, List.length_take]
  have hsize : (q ++ l).length ≤ bufSize := by
    rw [← hsplit, List.length_append]
    omega
  have hnul' : 0 ∉ q ++ l := by
    rw [← hsplit, ← hbytes]
    intro h0
    refine hnul ?_
    rw [List.mem_append] at h0 ⊢
    exact h0.imp_right List.mem_of_mem_take
  obtain ⟨b', hloop, hscanned⟩ := lineLoop_spec fname bytes.length hs hq (b := filled b p bytes)
    hwindow (congrArg List.length hsplit) (by rwa [filled, hsplit]) hl hnul'
  refine ⟨b', _, hleft', ?_, hscanned⟩
  have hloop' : lineLoop s fname bytes.length
      { b with last := p.length + bytes.length, data := stored b.data p.length bytes } =
        some b' := by
    rw [← hloop, filled, List.length_append]
    rfl
  have hcnt : (bytes.length : ℤ) ≠ -1 := by omega
  have hzero : (bytes.length : ℤ) = 0 ↔ rest = [] := by
    rw [Int.natCast_eq_zero, ← List.length_eq_zero_iff]
    omega
  rw [readPass]
  simp only [hlast, hret, hread, Int.toNat_natCast]
  rw [if_neg hcnt, hloop']
  simp only [hzero]
  rw [finish, if_neg (hreads.closed _ _ hleft')]

/-- The loop over the reads ends, and has put a text. -/
def Ends (calls : Calls σ) (s fname : CString) (fd : ℤ) (x : Scan × σ) (text : List Byte) : Prop :=
  ∃ n st', Loop.iterate (readPass calls s fname fd) n x = some (some ⟨0, x.1.out ++ text, st'⟩)

/-- One read of the loop, then the rest of the run. -/
theorem Ends.of_inl {x y : Scan × σ} {text text' : List Byte} (h : Ends calls s fname fd y text')
    (hpass : readPass calls s fname fd x = .inl y) (hout : y.1.out = x.1.out ++ text) :
    Ends calls s fname fd x (text ++ text') := by
  obtain ⟨n, st', hiter⟩ := h
  refine ⟨n + 1, st', ?_⟩
  rw [Loop.iterate_of_inl hpass, hiter, hout, List.append_assoc]

/-- The last pass. -/
theorem ends_nil (hreads : Reads calls fd left) (hs : s.chars ≠ []) (h : Pending b p)
    (hleft : left st []) (hnul : 0 ∉ p) : Ends calls s fname fd (b, st) (lines s fname p) := by
  obtain ⟨b', st', -, hpass, hscanned⟩ := readPass_spec fname hreads hs h hleft
    (by rwa [List.append_nil]) List.take_nil (q := []) (List.append_nil p) .nil h.line
  rw [if_pos rfl] at hpass
  obtain ⟨-, hout⟩ := hscanned.finished fun h => h.2.2.1 rfl
  refine ⟨1, (calls.close fd st').2, ?_⟩
  rw [Loop.iterate_of_inr hpass, hout]
  rfl

/-- A pass in which something is read. A last line that is not carried on is the end of the file,
unless the byte behind the buffer is a newline. -/
theorem readPass_cons (hreads : Reads calls fd left) (hs : s.chars ≠ []) (h : Pending b p)
    (hleft : left st rest) (hnul : 0 ∉ p ++ rest) (hshort : Short (p ++ rest)) (hrest : rest ≠ [])
    {bytes q : List Byte} (hbytes : rest.take (bufSize - p.length) = bytes)
    (hsplit : p ++ bytes = q ++ l) (hq : Complete 10 q) (hl : 10 ∉ l) :
    ∃ b' st', left st' (rest.drop (bufSize - p.length)) ∧
      readPass calls s fname fd (b, st) = .inl (b', st') ∧
      (Pending b' l ∧ b'.out = b.out ++ lines s fname q ∧
          ((q ++ l).length = bufSize → b.data bufSize ≠ 10) ∨
        Pending b' [] ∧ b'.out = b.out ++ lines s fname (q ++ l) ∧
          (l = [] ∨ rest.drop (bufSize - p.length) = [] ∨ b.data bufSize = 10)) ∧
      b'.data bufSize = sentinel b.data (q ++ l).length l := by
  obtain ⟨b', st', hleft', hpass, hscanned⟩ :=
    readPass_spec fname hreads hs h hleft hnul hbytes hsplit hq hl
  rw [if_neg hrest] at hpass
  have hlen : bytes.length = min (bufSize - p.length) rest.length := by
    rw [← hbytes, List.length_take]
  have htext : p ++ rest = q ++ l ++ rest.drop (bufSize - p.length) := by
    rw [← hsplit, ← hbytes, List.append_assoc, List.take_append_drop]
  have hlt : l.length < bufSize := by
    refine hshort l ?_ hl
    rw [htext]
    exact ⟨q, _, rfl⟩
  have hsize := congrArg List.length hsplit
  rw [List.length_append] at hsize
  have hpos : 0 < rest.length := List.length_pos_iff.2 hrest
  have hplt := h.lt
  have hstored : stored b.data p.length bytes bufSize = b.data bufSize :=
    stored_of_le b.data bytes (by omega)
  refine ⟨b', st', hleft', hpass, ?_, ?_⟩
  · by_cases hcarries : Carries (filled b p bytes).data bytes.length (filled b p bytes).lineStart
        (filled b p bytes).last q l
    · obtain ⟨hlast, hwindow, hout⟩ := hscanned.carried hcarries
      refine .inl ⟨⟨hwindow, hlast, hl, hlt⟩, hout, fun hfull => ?_⟩
      have hnewline := hcarries.2.1
      rw [filled, hsplit, hfull] at hnewline
      exact ne_of_eq_of_ne hstored.symm hnewline
    · obtain ⟨hlast, hout⟩ := hscanned.finished hcarries
      refine .inr ⟨⟨trivial, hlast, List.not_mem_nil, by decide⟩, hout, ?_⟩
      by_contra hcut
      rw [not_or, not_or] at hcut
      obtain ⟨hne, hdrop, hnewline⟩ := hcut
      rw [List.drop_eq_nil_iff, not_le] at hdrop
      have hfull : (p ++ bytes).length = bufSize := by
        rw [List.length_append]
        omega
      refine hcarries ⟨hne, ?_, by omega, .inr fun hq => ?_⟩
      · rw [filled, hfull]
        exact ne_of_eq_of_ne hstored hnewline
      · rw [hsplit, hq, List.nil_append] at hfull
        exact absurd hfull hlt.ne
  · rw [hscanned.sentinel_eq, sentinel, sentinel, filled, hsplit]
    simp only [hstored]

/-- After whole lines the rest is searched on its own. -/
theorem lines_append (hs : s.chars ≠ []) {q : List Byte} (hq : Complete 10 q) (t : List Byte) :
    lines s fname (q ++ t) = lines s fname q ++ lines s fname t :=
  collect_append (lineText_nil hs fname) hq t

theorem lines_nil (hs : s.chars ≠ []) : lines s fname [] = [] :=
  (collect_line List.not_mem_nil).trans (lineText_nil hs fname)

/-- If the byte behind the buffer is not a newline, the lines of the rest are put. -/
theorem ends_lines (hreads : Reads calls fd left) (hs : s.chars ≠ []) (h : Pending b p)
    (hleft : left st rest) (hnul : 0 ∉ p ++ rest) (hshort : Short (p ++ rest))
    (hsentinel : b.data bufSize ≠ 10) :
    Ends calls s fname fd (b, st) (lines s fname (p ++ rest)) := by
  induction hn : rest.length using Nat.strong_induction_on generalizing b p st rest with
  | _ n ih =>
    by_cases hrest : rest = []
    · subst hrest
      rw [List.append_nil] at hnul ⊢
      exact ends_nil fname hreads hs h hleft hnul
    · obtain ⟨q, l, hsplit, hq, hl⟩ := exists_complete 10 (p ++ rest.take (bufSize - p.length))
      obtain ⟨b', st', hleft', hpass, hcases, hdata⟩ :=
        readPass_cons fname hreads hs h hleft hnul hshort hrest rfl hsplit hq hl
      have htext : p ++ rest = q ++ (l ++ rest.drop (bufSize - p.length)) := by
        rw [← List.append_assoc, ← hsplit, List.append_assoc, List.take_append_drop]
      have hsuffix : l ++ rest.drop (bufSize - p.length) <:+ p ++ rest := ⟨q, htext.symm⟩
      have hlt : (rest.drop (bufSize - p.length)).length < n := by
        have hpos := List.length_pos_iff.2 hrest
        have hplt := h.lt
        rw [List.length_drop]
        omega
      have hsentinel' : b'.data bufSize ≠ 10 := by
        rw [hdata, sentinel]
        split
        · decide
        · exact hsentinel
      rcases hcases with ⟨hpending, hout, -⟩ | ⟨hpending, hout, hlast⟩
      · have hends := ih _ hlt hpending hleft' (fun h0 => hnul (hsuffix.mem h0))
          (hshort.of_suffix hsuffix) hsentinel' rfl
        rw [htext, lines_append fname hs hq]
        exact hends.of_inl fname hpass hout
      · have hdrop := (List.suffix_append l (rest.drop (bufSize - p.length))).trans hsuffix
        have hends := ih _ hlt hpending hleft' (fun h0 => hnul (hdrop.mem h0))
          (hshort.of_suffix hdrop) hsentinel' rfl
        have hlines : lines s fname (p ++ rest) =
            lines s fname (q ++ l) ++ lines s fname (rest.drop (bufSize - p.length)) := by
          rcases hlast.imp_right (Or.resolve_right · hsentinel) with rfl | hdone
          · rw [htext, lines_append fname hs hq, List.append_nil, List.nil_append]
          · rw [htext, hdone, lines_nil fname hs, List.append_nil, List.append_nil]
        rw [hlines]
        exact hends.of_inl fname hpass hout

/-- If the rest fits into the buffer, its lines are put. -/
theorem ends_last (hreads : Reads calls fd left) (hs : s.chars ≠ []) (h : Pending b p)
    (hleft : left st rest) (hnul : 0 ∉ p ++ rest) (hshort : Short (p ++ rest))
    (hfits : (p ++ rest).length ≤ bufSize) :
    Ends calls s fname fd (b, st) (lines s fname (p ++ rest)) := by
  by_cases hrest : rest = []
  · subst hrest
    rw [List.append_nil] at hnul ⊢
    exact ends_nil fname hreads hs h hleft hnul
  · rw [List.length_append] at hfits
    have hle : rest.length ≤ bufSize - p.length := by omega
    obtain ⟨q, l, hsplit, hq, hl⟩ := exists_complete 10 (p ++ rest)
    obtain ⟨b', st', hleft', hpass, hcases, -⟩ := readPass_cons fname hreads hs h hleft hnul hshort
      hrest (List.take_of_length_le hle) hsplit hq hl
    rw [List.drop_of_length_le hle] at hleft'
    rw [hsplit] at hnul ⊢
    rcases hcases with ⟨hpending, hout, -⟩ | ⟨hpending, hout, -⟩
    · have hlnul : 0 ∉ l := fun h0 => hnul (List.mem_append_right q h0)
      have hends := ends_nil fname hreads hs hpending hleft' hlnul
      rw [lines_append fname hs hq]
      exact hends.of_inl fname hpass hout
    · have hends := ends_nil fname hreads hs hpending hleft' List.not_mem_nil
      have hlines := hends.of_inl fname hpass hout
      rwa [lines_nil fname hs, List.append_nil] at hlines

/-- The text is cut where the first buffer ends that does not end in a newline. -/
def firstCut (t : List Byte) : Option (List Byte × List Byte) :=
  if t.length ≤ bufSize then none
  else if (t.take bufSize).getLast? = some 10 then
    (firstCut (t.drop bufSize)).map fun p => (t.take bufSize ++ p.1, p.2)
  else some (t.take bufSize, t.drop bufSize)
termination_by t.length
decreasing_by
  rw [List.length_drop, bufSize]
  rw [bufSize] at *
  omega

/-- What is put if the byte behind the buffer is a newline. -/
def cutLines (s fname : CString) (t : List Byte) : List Byte :=
  match firstCut t with
  | none => lines s fname t
  | some (x, y) => lines s fname x ++ lines s fname y

/-- A text that fits the buffer is searched whole. -/
theorem cutLines_of_le {t : List Byte} (h : t.length ≤ bufSize) :
    cutLines s fname t = lines s fname t := by
  rw [cutLines, firstCut, if_pos h]

/-- A buffer that ends with a line is no cut. -/
theorem cutLines_of_newline (hs : s.chars ≠ []) {t : List Byte} (h : bufSize < t.length)
    (hlast : (t.take bufSize).getLast? = some 10) :
    cutLines s fname t = lines s fname (t.take bufSize) ++ cutLines s fname (t.drop bufSize) := by
  have hcomplete := complete_of_getLast? hlast
  rw [cutLines, firstCut, if_neg (not_le.2 h), if_pos hlast, cutLines]
  cases firstCut (t.drop bufSize) with
  | none =>
    rw [← lines_append fname hs hcomplete, List.take_append_drop]
    rfl
  | some p =>
    rw [← List.append_assoc, ← lines_append fname hs hcomplete]
    rfl

/-- A buffer that ends within a line is searched apart from what follows. -/
theorem cutLines_of_ne {t : List Byte} (h : bufSize < t.length)
    (hlast : (t.take bufSize).getLast? ≠ some 10) :
    cutLines s fname t = lines s fname (t.take bufSize) ++ lines s fname (t.drop bufSize) := by
  rw [cutLines, firstCut, if_neg (not_le.2 h), if_neg hlast]

/-- If the byte behind the buffer is a newline, the text is cut once. -/
theorem ends_cutLines (hreads : Reads calls fd left) (hs : s.chars ≠ []) (h : Pending b [])
    (hleft : left st rest) (hnul : 0 ∉ rest) (hshort : Short rest)
    (hsentinel : b.data bufSize = 10) :
    Ends calls s fname fd (b, st) (cutLines s fname rest) := by
  induction hn : rest.length using Nat.strong_induction_on generalizing b st rest with
  | _ n ih =>
    rcases Nat.lt_or_ge bufSize rest.length with hlt | hle
    · -- the buffer is full, and nothing is carried on
      have hrest : rest ≠ [] := fun hnil => by simp [hnil] at hlt
      obtain ⟨q, l, hsplit, hq, hl⟩ := exists_complete 10 (rest.take bufSize)
      have hfull : (q ++ l).length = bufSize := by
        rw [← hsplit, List.length_take_of_le hlt.le]
      obtain ⟨b', st', hleft', hpass, hcases, hdata⟩ :=
        readPass_cons fname hreads hs h hleft hnul hshort hrest rfl hsplit hq hl
      obtain ⟨-, -, hne⟩ | ⟨hpending, hout, -⟩ := hcases
      · exact absurd hsentinel (hne hfull)
      have hnul' : 0 ∉ rest.drop bufSize := fun h0 => hnul (List.mem_of_mem_drop h0)
      have hshort' : Short (rest.drop bufSize) := hshort.of_suffix (List.drop_suffix _ _)
      have hnewline : (rest.take bufSize).getLast? = some 10 ↔ l = [] := by
        rw [hsplit]
        refine hq.getLast?_append_iff hl fun hnil => ?_
        rw [hnil] at hfull
        exact absurd hfull (by decide)
      rw [sentinel, hsentinel] at hdata
      rw [← hsplit] at hout
      by_cases hlast : (rest.take bufSize).getLast? = some 10
      · have hlt' : (rest.drop bufSize).length < n := by
          have hpos : 0 < bufSize := by decide
          rw [List.length_drop]
          omega
        rw [if_neg fun h => h.1 (hnewline.1 hlast)] at hdata
        have hends := ih _ hlt' hpending hleft' hnul' hshort' hdata rfl
        rw [cutLines_of_newline fname hs hlt hlast]
        exact hends.of_inl fname hpass hout
      · rw [if_pos ⟨mt hnewline.2 hlast, hfull⟩] at hdata
        have hends := ends_lines fname hreads hs hpending hleft' hnul' hshort'
          (ne_of_eq_of_ne hdata (by decide))
        rw [cutLines_of_ne fname hlt hlast]
        exact hends.of_inl fname hpass hout
    · -- this is the last part of the file
      rw [cutLines_of_le fname hle]
      exact ends_last fname hreads hs h hleft hnul hshort hle

end Reads

/-! ## Which lines are put -/

/-- The lines of a text that contain the string, each behind the name of the file. -/
def matchingLines (s fname : CString) (t : List Byte) : List Byte :=
  ((t.splitOn 10).filter (s.chars <:+: ·)).flatMap fun l => fname.chars ++ [58] ++ l ++ [10]

/-- The line that a cut falls in. -/
def cutLine (x y : List Byte) : List Byte :=
  x.rtakeWhile (· ≠ 10) ++ y.takeWhile (· ≠ 10)

/-- The first buffer that does not end in a newline ends inside a line that contains the string. -/
def CutsMatch (s : CString) (t : List Byte) : Prop :=
  ∃ x y, firstCut t = some (x, y) ∧ y.head? ≠ some 10 ∧ s.chars <:+: cutLine x y

section Text

variable {s : CString} (fname : CString) {l' : List Byte}

/-- A line that is put in two parts. -/
theorem lineText_append_iff (hs : s.chars ≠ []) (hl : l ≠ []) :
    lineText s fname l ++ lineText s fname l' = lineText s fname (l ++ l') ↔
      (l' ≠ [] → ¬Found s (l ++ l')) := by
  by_cases hl' : l' = []
  · subst hl'
    rw [lineText_nil hs, List.append_nil, List.append_nil]
    exact iff_of_true rfl fun h => absurd rfl h
  · rw [imp_iff_right hl']
    by_cases hfound : Found s (l ++ l')
    · -- the parts have the wrong length
      refine iff_of_false (fun heq => ?_) (not_not.2 hfound)
      have hlen := congrArg List.length heq
      have hpos := List.length_pos_iff.2 hl
      have hpos' := List.length_pos_iff.2 hl'
      rw [lineText, lineText, lineText, if_pos hfound] at hlen
      split at hlen <;> split at hlen <;>
        simp only [List.length_append, List.length_cons, List.length_nil] at hlen <;> omega
    · have hleft : ¬Found s l := fun h => hfound ⟨h.1, h.2.trans (List.prefix_append l l').isInfix⟩
      have hright : ¬Found s l' := fun h =>
        hfound ⟨h.1, h.2.trans (List.suffix_append l l').isInfix⟩
      rw [lineText, lineText, lineText, if_neg hleft, if_neg hright, if_neg hfound]
      exact iff_of_true rfl hfound

/-- The two parts of the text at its first cut. -/
theorem firstCut_eq_some {t x y : List Byte} (h : firstCut t = some (x, y)) :
    t = x ++ y ∧ x ≠ [] ∧ x.getLast? ≠ some 10 ∧ y ≠ [] := by
  fun_induction firstCut t generalizing x y with
  | case1 t hle => cases h
  | case2 t hlt hlast ih =>
    obtain ⟨p, hp, hxy⟩ := Option.map_eq_some_iff.1 h
    obtain ⟨rfl, rfl⟩ := Prod.mk.inj hxy
    obtain ⟨hsplit, hx, hlast', hy⟩ := ih hp
    refine ⟨?_, List.append_ne_nil_of_right_ne_nil _ hx, ?_, hy⟩
    · rw [List.append_assoc, ← hsplit, List.take_append_drop]
    · rwa [List.getLast?_append_of_ne_nil _ hx]
  | case3 t hlt hlast =>
    obtain ⟨rfl, rfl⟩ := Prod.mk.inj (Option.some.inj h)
    rw [not_le] at hlt
    refine ⟨(List.take_append_drop bufSize t).symm, ?_, hlast, ?_⟩
    · refine List.length_pos_iff.1 ?_
      rw [List.length_take_of_le hlt.le]
      decide
    · rwa [Ne, List.drop_eq_nil_iff, not_le]

/-- The first line of a text. -/
theorem takeWhile_line {r : List Byte} (hl : 10 ∉ l) (hr : r = [] ∨ r.head? = some 10) :
    (l ++ r).takeWhile (· ≠ 10) = l := by
  have hne : ∀ c ∈ l, decide (c ≠ 10) = true := fun c hc =>
    decide_eq_true fun h => hl (h ▸ hc)
  have hstop : r.takeWhile (· ≠ 10) = [] := by
    cases r with
    | nil => rfl
    | cons c r =>
      have hc : c = 10 := hr.elim (fun h => absurd h (List.cons_ne_nil c r)) Option.some.inj
      rw [List.takeWhile_cons_of_neg (by simp [hc])]
  rw [List.takeWhile_append_of_pos hne, hstop, List.append_nil]

/-- The last one, after whole lines. -/
theorem rtakeWhile_line {q : List Byte} (hq : Complete 10 q) (hl : 10 ∉ l) :
    (q ++ l).rtakeWhile (· ≠ 10) = l := by
  have hend : q.reverse = [] ∨ q.reverse.head? = some 10 := by
    by_cases hq0 : q = []
    · exact .inl (List.reverse_eq_nil_iff.2 hq0)
    · exact .inr (List.head?_reverse.trans (hq.getLast?_eq hq0))
  have hrev : 10 ∉ l.reverse := mt List.mem_reverse.1 hl
  rw [List.rtakeWhile, List.reverse_append, takeWhile_line hrev hend, List.reverse_reverse]

/-- A cut is seen if it goes through a line that contains the string. -/
theorem cutLines_eq_iff (hs : s.chars ≠ []) (h128 : s.mem 0 < 128) (t : List Byte) :
    cutLines s fname t = lines s fname t ↔ ¬CutsMatch s t := by
  rw [cutLines, CutsMatch]
  cases hcut : firstCut t with
  | none => simp
  | some p =>
    obtain ⟨x, y⟩ := p
    obtain ⟨rfl, hx, hlast, hy⟩ := firstCut_eq_some hcut
    obtain ⟨q, l, rfl, hq, hl⟩ := exists_complete 10 x
    obtain ⟨l', r, rfl, hl', hr⟩ := exists_first 10 y
    have hl0 : l ≠ [] := mt (hq.getLast?_append_iff hl hx).2 hlast
    have hhead : (l' ++ r).head? = some 10 ↔ l' = [] := by
      cases l' with
      | nil =>
        obtain ⟨t, rfl⟩ := hr.resolve_left hy
        exact iff_of_true rfl rfl
      | cons c l' =>
        refine iff_of_false (fun h => hl' ?_) (List.cons_ne_nil c l')
        rw [← Option.some.inj h]
        exact List.mem_cons_self
    have hline : cutLine (q ++ l) (l' ++ r) = l ++ l' := by
      rw [cutLine, rtakeWhile_line hq hl, takeWhile_line hl' (hr.imp_right ?_)]
      rintro ⟨t, rfl⟩
      rfl
    simp only [lines]
    rw [collect_cut_iff (lineText_nil hs fname) hq hl hl' hr, lineText_append_iff fname hs hl0]
    constructor
    · rintro hfound ⟨x, y, hxy, hne, hinfix⟩
      obtain ⟨rfl, rfl⟩ := Prod.mk.inj (Option.some.inj hxy)
      rw [hline] at hinfix
      exact hfound (mt hhead.2 hne) ⟨h128, hinfix⟩
    · intro hcuts hne hfound
      refine hcuts ⟨q ++ l, l' ++ r, rfl, mt hhead.1 hne, ?_⟩
      rw [hline]
      exact hfound.2

/-- With no cut the lines put are those that contain the pattern. -/
theorem lines_eq_matchingLines (h128 : s.mem 0 < 128) (t : List Byte) :
    lines s fname t = matchingLines s fname t := by
  rw [lines, collect, matchingLines]
  induction t.splitOn 10 with
  | nil => rfl
  | cons l ls ih =>
    rw [List.flatMap_cons, ih, lineText, List.filter_cons]
    by_cases hfound : s.chars <:+: l
    · rw [if_pos ⟨h128, hfound⟩, if_pos (decide_eq_true hfound), List.flatMap_cons]
    · rw [if_neg fun h => hfound h.2, if_neg (by simpa using hfound), List.nil_append]

/-- None is put exactly when none contains it. -/
theorem matchingLines_eq_nil_iff {t : List Byte} :
    matchingLines s fname t = [] ↔ ∀ l ∈ t.splitOn 10, ¬s.chars <:+: l := by
  rw [matchingLines, List.flatMap_eq_nil_iff]
  simp

/-- A string that starts with a byte from 128 on is not found. -/
theorem lines_of_not_lt (h128 : ¬s.mem 0 < 128) (t : List Byte) : lines s fname t = [] :=
  List.flatMap_eq_nil_iff.2 fun _ _ => if_neg fun h => h128 h.1

/-- Nor is it found in a text that is cut. -/
theorem cutLines_of_not_lt (h128 : ¬s.mem 0 < 128) (t : List Byte) : cutLines s fname t = [] := by
  rw [cutLines]
  cases firstCut t with
  | none => exact lines_of_not_lt fname h128 t
  | some p =>
    obtain ⟨x, y⟩ := p
    exact List.append_eq_nil_iff.2
      ⟨lines_of_not_lt fname h128 x, lines_of_not_lt fname h128 y⟩

/-- What is put for a text, with the byte `c` behind the buffer. -/
def putText (s fname : CString) (c : Byte) (t : List Byte) : List Byte :=
  if c = 10 then cutLines s fname t else lines s fname t

/-- What is put is right when the cut splits no match. -/
theorem putText_eq_iff (hs : s.chars ≠ []) (c : Byte) (t : List Byte) :
    putText s fname c t = matchingLines s fname t ↔
      if s.mem 0 < 128 then ¬(c = 10 ∧ CutsMatch s t)
      else ∀ l ∈ t.splitOn 10, ¬s.chars <:+: l := by
  split
  · rename_i h128
    rw [putText, ← lines_eq_matchingLines fname h128]
    split
    · rename_i hc
      rw [cutLines_eq_iff fname hs h128, and_iff_right hc]
    · rename_i hc
      exact iff_of_true rfl fun h => hc h.1
  · rename_i h128
    rw [← matchingLines_eq_nil_iff fname, eq_comm, putText]
    split
    · rw [cutLines_of_not_lt fname h128]
    · rw [lines_of_not_lt fname h128]

end Text

/-! ## `do_one_file` -/

section Calls

variable {σ : Type*} {calls : Calls σ} {s fname : CString} {st : σ} {file : List Byte}
  {left : σ → List Byte → Prop}

/-- The file can be opened and read. -/
structure Serves (calls : Calls σ) (fname : CString) (st : σ) (file : List Byte)
    (left : σ → List Byte → Prop) : Prop where
  opened : (calls.openFile fname st).1 ≠ -1
  left_open : left (calls.openFile fname st).2 file
  reads : Reads calls (calls.openFile fname st).1 left

/-- `do_one_file` puts the lines of the file that contain the string, and nothing else. -/
def PutsMatches (calls : Calls σ) (s fname : CString) (data : ℕ → Byte) (st : σ)
    (file : List Byte) : Prop :=
  ∃ passes st', doOneFile calls s fname passes data st =
    some ⟨0, matchingLines s fname file, st'⟩

theorem short_of_splitOn (h : ∀ l ∈ file.splitOn 10, l.length < bufSize) : Short file := by
  intro l hinfix hl
  obtain ⟨l', hl', hinfix'⟩ := exists_line_of_infix hl hinfix
  exact Nat.lt_of_le_of_lt hinfix'.length_le (h l' hl')

/-- What `do_one_file` puts. -/
theorem doOneFile_spec (hs : s.chars ≠ []) (h : Serves calls fname st file left) (hnul : 0 ∉ file)
    (hshort : ∀ l ∈ file.splitOn 10, l.length < bufSize) (data : ℕ → Byte) :
    ∃ passes st', doOneFile calls s fname passes data st =
      some ⟨0, putText s fname (data bufSize) file, st'⟩ := by
  have hpending : Pending ⟨0, 0, data, []⟩ [] :=
    ⟨trivial, rfl, List.not_mem_nil, by decide⟩
  have hends : Ends calls s fname (calls.openFile fname st).1
      (⟨0, 0, data, []⟩, (calls.openFile fname st).2) (putText s fname (data bufSize) file) := by
    rw [putText]
    split
    · rename_i hc
      exact ends_cutLines fname h.reads hs hpending h.left_open hnul (short_of_splitOn hshort) hc
    · rename_i hc
      exact ends_lines fname h.reads hs hpending h.left_open hnul (short_of_splitOn hshort) hc
  obtain ⟨n, st', hiter⟩ := hends
  refine ⟨n, st', ?_⟩
  rw [doOneFile, if_neg h.opened, hiter]
  rfl

/-- More passes do not change the result. -/
theorem doOneFile_unique {data : ℕ → Byte} {m n : ℕ} {r r' : Result σ}
    (h : doOneFile calls s fname m data st = some r)
    (h' : doOneFile calls s fname n data st = some r') : r = r' := by
  rw [doOneFile] at h h'
  split at h
  · rename_i hfailed
    rw [if_pos hfailed] at h'
    exact Option.some.inj (h.symm.trans h')
  · rename_i hopened
    rw [if_neg hopened] at h'
    exact Option.some.inj (Loop.iterate_unique (Option.join_eq_some_iff.1 h)
      (Option.join_eq_some_iff.1 h'))

/-- With reads as served, the output is that text. -/
theorem putsMatches_iff_putText (hs : s.chars ≠ []) (h : Serves calls fname st file left)
    (hnul : 0 ∉ file) (hshort : ∀ l ∈ file.splitOn 10, l.length < bufSize) (data : ℕ → Byte) :
    PutsMatches calls s fname data st file ↔
      putText s fname (data bufSize) file = matchingLines s fname file := by
  obtain ⟨passes, st', hspec⟩ := doOneFile_spec hs h hnul hshort data
  constructor
  · rintro ⟨passes', st'', hputs⟩
    exact congrArg Result.out (doOneFile_unique hspec hputs)
  · intro heq
    exact ⟨passes, st', heq ▸ hspec⟩

/-- The lines that contain the string are put if it starts with a byte below 128 and no such line
is cut. If it starts with another byte, they are put if there are none. -/
theorem putsMatches_iff (hs : s.chars ≠ []) (h : Serves calls fname st file left)
    (hnul : 0 ∉ file) (hshort : ∀ l ∈ file.splitOn 10, l.length < bufSize) (data : ℕ → Byte) :
    PutsMatches calls s fname data st file ↔
      if s.mem 0 < 128 then ¬(data bufSize = 10 ∧ CutsMatch s file)
      else ∀ l ∈ file.splitOn 10, ¬s.chars <:+: l :=
  (putsMatches_iff_putText hs h hnul hshort data).trans (putText_eq_iff fname hs _ file)

end Calls

/-! ## Two files -/

/-- The calls on a file whose state is what is left of it. -/
def fileCalls (file : List Byte) : Calls (List Byte) where
  openFile _ _ := (2, file)
  read _ nbytes t := ((min nbytes t.length : ℕ), t.take nbytes, t.drop nbytes)
  close _ t := (0, t)

/-- Reads that take bytes off a list serve the file in it. -/
theorem serves_fileCalls (file : List Byte) (fname : CString) :
    Serves (fileCalls file) fname [] file Eq where
  opened := (by decide : (2 : ℤ) ≠ -1)
  left_open := rfl
  reads :=
    { read_ret := by
        rintro st t n rfl
        rfl
      read_bytes := by
        rintro st t n rfl
        rfl
      read_left := by
        rintro st t n rfl
        rfl
      closed := by
        rintro st t rfl
        exact (by decide : (0 : ℤ) ≠ -1) }

/-- `"bc"`. -/
def bc : CString :=
  ⟨[98, 99], by decide⟩

/-- `"f"`. -/
def fileName : CString :=
  ⟨[102], by decide⟩

/-- `"abc\nab\n"`. -/
def twoLines : List Byte :=
  [97, 98, 99, 10, 97, 98, 10]

/-- A line of 1022 bytes, and `"bc"` with its bytes in two buffers. -/
def straddling : List Byte :=
  List.replicate 1022 97 ++ 10 :: [98, 99]

/-- A file that fits into the buffer is not cut. -/
theorem not_cutsMatch_of_le {s : CString} {t : List Byte} (h : t.length ≤ bufSize) :
    ¬CutsMatch s t := by
  rintro ⟨x, y, hcut, -⟩
  rw [firstCut, if_pos h] at hcut
  cases hcut

theorem putsMatches_twoLines :
    PutsMatches (fileCalls twoLines) bc fileName (fun _ => 10) [] twoLines := by
  refine (putsMatches_iff (by decide) (serves_fileCalls twoLines fileName) (by decide)
    (by decide) _).2 ?_
  rw [if_pos (by decide)]
  exact fun h => not_cutsMatch_of_le (by decide) h.2

theorem straddling_splitOn : straddling.splitOn 10 = [List.replicate 1022 97, [98, 99]] := by
  have hl : (10 : Byte) ∉ List.replicate 1022 97 := fun h =>
    absurd (List.eq_of_mem_replicate h) (by decide)
  rw [straddling, List.splitOn_append_cons_self_of_not_mem hl,
    List.splitOn_eq_singleton (by decide)]

theorem firstCut_straddling :
    firstCut straddling = some (List.replicate 1022 97 ++ [10] ++ [98], [99]) := by
  have hsplit : straddling = List.replicate 1022 97 ++ [10] ++ [98] ++ [99] := by
    rw [straddling, List.append_assoc, List.append_assoc]
    rfl
  have hfull : (List.replicate 1022 97 ++ [10] ++ [98] : List Byte).length = bufSize := by
    rw [List.length_append, List.length_append, List.length_replicate]
    rfl
  have hlong : ¬straddling.length ≤ bufSize := by
    rw [hsplit, List.length_append, hfull]
    decide
  rw [firstCut, if_neg hlong, hsplit, List.take_left' hfull, List.drop_left' hfull, if_neg]
  rw [List.getLast?_concat]
  decide

theorem cutsMatch_straddling : CutsMatch bc straddling := by
  have hl : (10 : Byte) ∉ List.replicate 1022 97 := fun h =>
    absurd (List.eq_of_mem_replicate h) (by decide)
  refine ⟨_, _, firstCut_straddling, by decide, ?_⟩
  rw [cutLine, rtakeWhile_line (complete_line hl) (by decide)]
  decide

/-- The lines of the file are short, and the second one is not put. -/
theorem not_putsMatches_straddling :
    Serves (fileCalls straddling) fileName [] straddling Eq ∧ 0 ∉ straddling ∧
      (∀ l ∈ straddling.splitOn 10, l.length < bufSize) ∧
      ¬PutsMatches (fileCalls straddling) bc fileName (fun _ => 10) [] straddling := by
  have hserves := serves_fileCalls straddling fileName
  have hnul : 0 ∉ straddling := by
    rw [straddling, List.mem_append, not_or]
    exact ⟨fun h => absurd (List.eq_of_mem_replicate h) (by decide), by decide⟩
  have hshort : ∀ l ∈ straddling.splitOn 10, l.length < bufSize := by
    rw [straddling_splitOn, List.forall_mem_cons, List.forall_mem_singleton, List.length_replicate]
    decide
  refine ⟨hserves, hnul, hshort, fun hputs => ?_⟩
  have htext := (putsMatches_iff_putText (by decide) hserves hnul hshort _).1 hputs
  have hcut := (putText_eq_iff fileName (by decide) 10 straddling).1 htext
  rw [if_pos (by decide)] at hcut
  exact hcut ⟨rfl, cutsMatch_straddling⟩

end Grep

end MpOS
