import MpOS.ExitStatus
import MpOS.Grep

/-!
# The lines in the buffer of `grep`

The loop over the lines puts the complete lines that the buffer holds, and then a last line.
It carries the last line on if it is not the only one, there is more to read and the byte
behind it is not a newline (`Carries`, `lineLoop_spec`).

The test `s[0] == data[check]` compares a `char` with a `uint8_t`, so a string that starts
with a byte from 128 on is never found (`Found`).
-/

open ZeroBuffer TextLines

namespace MpOS

namespace Grep

variable {data : ℕ → Byte} {i : ℕ} {l l' : List Byte}

/-! ## The loops over a line -/

/-- The loop for `line_end` stops at a newline. -/
theorem lineEnd_newline (h : Window data i (l ++ 10 :: l')) (hl : 10 ∉ l) :
    lineEnd data (l ++ 10 :: l').length i = i + l.length := by
  induction l generalizing i with
  | nil => exact if_neg (not_not.2 h.1)
  | cons c l ih =>
    rw [List.mem_cons, not_or] at hl
    have hc : data i ≠ 10 := h.1 ▸ Ne.symm hl.1
    rw [List.cons_append, List.length_cons, lineEnd, if_pos hc, ih h.2 hl.2, List.length_cons]
    omega

/-- Without a newline it stops at the end. -/
theorem lineEnd_last (h : Window data i l) (hl : 10 ∉ l) :
    lineEnd data l.length i = i + l.length := by
  induction l generalizing i with
  | nil => rfl
  | cons c l ih =>
    rw [List.mem_cons, not_or] at hl
    have hc : data i ≠ 10 := h.1 ▸ Ne.symm hl.1
    rw [List.length_cons, lineEnd, if_pos hc, ih h.2 hl.2]
    omega

/-- `ece391_strncmp` over a whole string finds whether a line starts with it. -/
theorem strncmp_eq_zero_iff {s1 s2 : ℕ → Byte} {j : ℕ} {t : List Byte} (h : Window s1 j l)
    (hend : s1 (j + l.length) = 0) (ht : Window s2 j t) (hnul : 0 ∉ t) :
    strncmp s1 s2 t.length j = 0 ↔ t <+: l := by
  induction t generalizing l j with
  | nil => exact iff_of_true rfl List.nil_prefix
  | cons c t ih =>
    rw [List.mem_cons, not_or] at hnul
    rw [List.length_cons, strncmp, ht.1]
    cases l with
    | nil =>
      have hne : s1 j ≠ c := fun heq => hnul.1 (hend.symm.trans heq)
      have hzero : s1 j = 0 := hend
      rw [if_neg hne, hzero]
      refine iff_of_false (fun h0 => hne ?_) (by simp)
      rw [hzero, ← UInt8.toNat_inj]
      omega
    | cons d l =>
      rw [List.length_cons] at hend
      rw [h.1, List.cons_prefix_cons]
      by_cases hdc : d = c
      · subst hdc
        have hd : d ≠ 0 := Ne.symm hnul.1
        rw [if_pos rfl, if_neg hd, ih h.2 (by rwa [Nat.add_assoc, Nat.add_comm 1]) ht.2 hnul.2]
        exact (and_iff_right rfl).symm
      · rw [if_neg hdc]
        refine iff_of_false (fun h0 => hdc ?_) fun h => hdc h.1.symm
        rw [← UInt8.toNat_inj]
        omega

theorem window_mem (s : CString) : Window s.mem 0 s.chars :=
  window_of_forall fun j hj => by
    rw [Nat.zero_add, CString.mem, List.getD_eq_getElem _ _ hj]

/-- What the search finds in a line. -/
def Found (s : CString) (l : List Byte) : Prop :=
  s.mem 0 < 128 ∧ s.chars <:+: l

instance (s : CString) (l : List Byte) : Decidable (Found s l) :=
  inferInstanceAs (Decidable (_ ∧ _))

theorem not_found_nil {s : CString} (hs : s.chars ≠ []) : ¬Found s [] :=
  fun h => hs (List.infix_nil.1 h.2)

/-- A line in the buffer, terminated. -/
structure Terminated (data : ℕ → Byte) (i : ℕ) (l : List Byte) : Prop where
  window : Window data i l
  nul : data (i + l.length) = 0

theorem Terminated.drop (h : Terminated data i l) {k : ℕ} (hk : k ≤ l.length) :
    Terminated data (i + k) (l.drop k) := by
  have hlen : (l.take k).length = k := List.length_take_of_le hk
  have hsplit := h.window
  rw [← List.take_append_drop k l, window_append, hlen] at hsplit
  refine ⟨hsplit.2, ?_⟩
  have hend : i + k + (l.drop k).length = i + l.length := by
    rw [List.length_drop]
    omega
  rw [hend, h.nul]

theorem Terminated.holds (h : Terminated data i l) :
    Holds (fun j => data (i + j)) (l.length + 1) l := by
  intro j hj
  rcases Nat.eq_or_lt_of_le (Nat.le_of_lt_succ hj) with rfl | hlt
  · rw [List.getD_eq_default _ _ (Nat.le_refl _)]
    exact h.nul
  · rw [List.getD_eq_getElem _ _ hlt]
    exact h.window.getElem hlt

/-- The test at an index of the line. -/
theorem matchesAt_iff {s : CString} (hs : s.chars ≠ []) (h : Terminated data i l) :
    matchesAt s data i = true ↔ s.mem 0 < 128 ∧ s.chars <+: l := by
  have hwindow : Window (fun j => data (i + j)) 0 l := window_shift.2 h.window
  have hcmp := strncmp_eq_zero_iff hwindow (by simpa using h.nul) (window_mem s) s.nul
  rw [matchesAt, decide_eq_true_eq, CString.strlen, hcmp]
  refine and_congr_left fun hprefix => ?_
  have hfirst : data i = s.mem 0 := by
    obtain ⟨c, t, hct⟩ := List.exists_cons_of_ne_nil hs
    obtain ⟨u, rfl⟩ := hprefix
    have hw := h.window
    rw [hct] at hw
    rw [hw.1, CString.mem, hct]
    rfl
  rw [hfirst, Machine.toInt8_eq_toNat_iff]

theorem any_matchesAt_iff {s : CString} (hs : s.chars ≠ []) (h : Terminated data i l) :
    (List.range' i l.length).any (matchesAt s data) = true ↔ Found s l := by
  rw [List.any_eq_true, Found, List.infix_iff_prefix_suffix]
  constructor
  · rintro ⟨check, hcheck, hmatch⟩
    obtain ⟨k, hk, rfl⟩ := List.mem_range'.1 hcheck
    rw [Nat.one_mul] at hmatch
    obtain ⟨h128, hprefix⟩ := (matchesAt_iff hs (h.drop hk.le)).1 hmatch
    exact ⟨h128, l.drop k, hprefix, List.drop_suffix k l⟩
  · rintro ⟨h128, t, hprefix, hsuffix⟩
    have hne : t ≠ [] := fun ht => hs (List.prefix_nil.1 (ht ▸ hprefix))
    have hpos := List.length_pos_iff.2 hne
    have hle := hsuffix.length_le
    have hdrop : t = l.drop (l.length - t.length) := List.suffix_iff_eq_drop.1 hsuffix
    refine ⟨i + (l.length - t.length), List.mem_range'.2 ⟨l.length - t.length, by omega, by omega⟩,
      (matchesAt_iff hs (h.drop (by omega))).2 ⟨h128, hdrop ▸ hprefix⟩⟩

/-- What is put for a line. -/
def lineText (s fname : CString) (l : List Byte) : List Byte :=
  if Found s l then fname.chars ++ [58] ++ l ++ [10] else []

theorem lineText_nil {s : CString} (hs : s.chars ≠ []) (fname : CString) :
    lineText s fname [] = [] :=
  if_neg (not_found_nil hs)

theorem search_eq {s : CString} (hs : s.chars ≠ []) (fname : CString) (h : Terminated data i l)
    (hnul : 0 ∉ l) (hlen : l.length ≤ bufSize) :
    search s fname data i (i + l.length) = some (lineText s fname l) := by
  have hputs : fdputs loopPasses (fun j => data (i + j)) = some l :=
    h.holds.map_string_strlen hnul (Nat.lt_of_le_of_lt hlen (by decide))
  rw [search, Nat.add_sub_cancel_left, hputs, lineText]
  by_cases hfound : Found s l
  · rw [if_pos ((any_matchesAt_iff hs h).2 hfound), if_pos hfound]
    rfl
  · rw [if_neg (mt (any_matchesAt_iff hs h).1 hfound), if_neg hfound]

/-! ## Moving a line to the front -/

theorem iterate_strcpyPass (i : ℕ) {src : ℕ} (hsrc : 0 < src) {n : ℕ}
    (h : Terminated data (src + i) l) (hnul : 0 ∉ l) (hn : l.length < n) :
    ∃ data', Loop.iterate (strcpyPass src) n (i, data) = some data' ∧ Window data' i l ∧
      ∀ j, j < i ∨ i + l.length < j → data' j = data j := by
  induction l generalizing i n data with
  | nil =>
    obtain ⟨n, rfl⟩ := Nat.exists_eq_add_one_of_ne_zero (Nat.pos_iff_ne_zero.1 hn)
    have hzero : data (src + i) = 0 := h.nul
    have hpass : strcpyPass src (i, data) = .inr (Function.update data i 0) := by
      simp [strcpyPass, hzero]
    refine ⟨_, Loop.iterate_of_inr hpass n, trivial, fun j hj => Function.update_of_ne ?_ _ _⟩
    rw [List.length_nil] at hj
    omega
  | cons c l ih =>
    rw [List.length_cons] at hn
    rw [List.mem_cons, not_or] at hnul
    obtain ⟨n, rfl⟩ := Nat.exists_eq_add_one_of_ne_zero (by omega : n ≠ 0)
    have hc : data (src + i) = c := h.window.1
    have hpass : strcpyPass src (i, data) = .inl (i + 1, Function.update data i c) := by
      simp [strcpyPass, hc, Ne.symm hnul.1]
    have hnext : Terminated (Function.update data i c) (src + (i + 1)) l := by
      refine ⟨h.window.2.congr fun j hj _ => Function.update_of_ne (by omega) _ _, ?_⟩
      have hend := h.nul
      rw [List.length_cons] at hend
      rw [Function.update_of_ne (by omega), ← hend]
      congr 1
      omega
    have hlen : l.length < n := by omega
    obtain ⟨data', hiter, hwindow, hrest⟩ := ih (i + 1) hnext hnul.2 hlen
    refine ⟨data', by rw [Loop.iterate_of_inl hpass, hiter], ⟨?_, hwindow⟩, fun j hj => ?_⟩
    · rw [hrest i (.inl (Nat.lt_succ_self i)), Function.update_self]
    · rw [List.length_cons] at hj
      rw [hrest j (by omega), Function.update_of_ne (by omega)]

theorem strcpy_spec {src : ℕ} (hsrc : 0 < src) (h : Terminated data src l) (hnul : 0 ∉ l)
    (hlen : l.length ≤ bufSize) :
    ∃ data', strcpy data src = some data' ∧ Window data' 0 l ∧
      ∀ j, l.length < j → data' j = data j := by
  have hpasses : l.length < loopPasses := Nat.lt_of_le_of_lt hlen (by decide)
  obtain ⟨data', hiter, hwindow, hrest⟩ := iterate_strcpyPass 0 hsrc h hnul hpasses
  exact ⟨data', hiter, hwindow, fun j hj => hrest j (.inr (by omega))⟩

/-! ## The loop over the lines -/

/-- The lines that are put for a text. -/
def lines (s fname : CString) (t : List Byte) : List Byte :=
  collect 10 (lineText s fname) t

/-- The byte behind a full buffer after it has been read as far as a last line. -/
def sentinel (data : ℕ → Byte) (last : ℕ) (l : List Byte) : Byte :=
  if l ≠ [] ∧ last = bufSize then 0 else data bufSize

/-- The last line is taken for a part of a line. -/
def Carries (data : ℕ → Byte) (cnt : ℤ) (lineStart last : ℕ) (p l : List Byte) : Prop :=
  l ≠ [] ∧ data last ≠ 10 ∧ cnt ≠ 0 ∧ (lineStart ≠ 0 ∨ p ≠ [])

/-- The loop over the lines has put the complete lines `p`, and the last line `l` if it does not
carry it on. -/
structure Scanned (s fname : CString) (cnt : ℤ) (b b' : Scan) (p l : List Byte) : Prop where
  carried : Carries b.data cnt b.lineStart b.last p l →
    b'.last = l.length ∧ Window b'.data 0 l ∧ b'.out = b.out ++ lines s fname p
  finished : ¬Carries b.data cnt b.lineStart b.last p l →
    b'.last = 0 ∧ b'.out = b.out ++ lines s fname (p ++ l)
  sentinel_eq : b'.data bufSize = sentinel b.data b.last l

variable {s : CString} (fname : CString) (cnt : ℤ) {b : Scan}

/-- A pass has put a line, and gone on behind its newline. -/
structure Passed (s fname : CString) (b b' : Scan) (l : List Byte) : Prop where
  last : b'.last = b.last
  lineStart : b'.lineStart = b.lineStart + l.length + 1
  out : b'.out = b.out ++ lineText s fname l
  data : ∀ i, b.lineStart + l.length < i → b'.data i = b.data i

/-- A pass over a line with its newline. -/
theorem linePass_newline (hs : s.chars ≠ []) (h : Window b.data b.lineStart (l ++ 10 :: l'))
    (hlast : b.last = b.lineStart + (l ++ 10 :: l').length) (hsize : b.last ≤ bufSize)
    (hl : 10 ∉ l) (hnul : 0 ∉ l) :
    ∃ b', linePass s fname cnt b =
        (if l' = [] then .inr (some { b' with last := 0 }) else .inl b') ∧
      Passed s fname b b' l := by
  have hend : lineEnd b.data (b.last - b.lineStart) b.lineStart = b.lineStart + l.length := by
    rw [hlast, Nat.add_sub_cancel_left, lineEnd_newline h hl]
  obtain ⟨hwindow, hnewline, -⟩ := window_append.1 h
  have hterm : Terminated (Function.update b.data (b.lineStart + l.length) 0) b.lineStart l :=
    ⟨hwindow.update (Nat.le_refl _) 0, Function.update_self ..⟩
  rw [List.length_append, List.length_cons] at hlast
  have hsearch := search_eq hs fname hterm hnul (by omega)
  refine ⟨⟨b.last, b.lineStart + l.length + 1,
    Function.update b.data (b.lineStart + l.length) 0, b.out ++ lineText s fname l⟩, ?_,
    ⟨rfl, rfl, rfl, fun i hi => Function.update_of_ne (by omega) _ _⟩⟩
  rw [linePass]
  simp only [hend, hnewline, hsearch]
  rw [if_neg (fun h => h.1 rfl)]
  cases l' with
  | nil =>
    rw [List.length_nil] at hlast
    rw [if_pos (by omega), if_pos rfl]
  | cons c l' =>
    rw [List.length_cons] at hlast
    rw [if_neg (by omega), if_neg (List.cons_ne_nil c l')]

/-- What the loop does behind a line is what it does from the line on. -/
theorem Passed.scanned {b₁ b' : Scan} {m p : List Byte} (h : Passed s fname b b₁ m) (hm : 10 ∉ m)
    (hlast : b.lineStart + m.length < b.last) (hsize : b.last ≤ bufSize)
    (h' : Scanned s fname cnt b₁ b' p l) : Scanned s fname cnt b b' (m ++ 10 :: p) l := by
  have hcarries : Carries b₁.data cnt b₁.lineStart b₁.last p l ↔
      Carries b.data cnt b.lineStart b.last (m ++ 10 :: p) l := by
    have hdata : b₁.data b₁.last = b.data b.last := by
      rw [h.last]
      exact h.data b.last hlast
    have hstart := h.lineStart
    rw [Carries, Carries, hdata, or_iff_left_of_imp fun _ => by omega]
    simp [hstart]
  obtain ⟨hcarried, hfinished, hsentinel⟩ := h'
  rw [hcarries, h.out, List.append_assoc] at hcarried hfinished
  refine ⟨fun hc => ?_, fun hc => ?_, ?_⟩
  · obtain ⟨hl', hw', hout'⟩ := hcarried hc
    exact ⟨hl', hw', by rw [hout', lines, lines, collect_cons hm]⟩
  · obtain ⟨hl', hout'⟩ := hfinished hc
    refine ⟨hl', ?_⟩
    rw [hout', List.append_assoc, List.cons_append, lines, lines, collect_cons hm]
  · rw [hsentinel, sentinel, sentinel, h.data bufSize (Nat.lt_of_lt_of_le hlast hsize), h.last]

/-- A pass over the last line. -/
theorem linePass_last (hs : s.chars ≠ []) (h : Window b.data b.lineStart l)
    (hlast : b.last = b.lineStart + l.length) (hsize : b.last ≤ bufSize) (hl : 10 ∉ l)
    (hnul : 0 ∉ l) (hne : b.lineStart = 0 ∨ l ≠ []) :
    ∃ b', linePass s fname cnt b = .inr (some b') ∧ Scanned s fname cnt b b' [] l := by
  have hend : lineEnd b.data (b.last - b.lineStart) b.lineStart = b.last := by
    rw [hlast, Nat.add_sub_cancel_left, lineEnd_last h hl]
  have hterm : Terminated (Function.update b.data b.last 0) b.lineStart l := by
    refine ⟨h.update hlast.ge 0, ?_⟩
    rw [← hlast]
    exact Function.update_self ..
  have hcarries : Carries b.data cnt b.lineStart b.last [] l ↔
      b.data b.last ≠ 10 ∧ cnt ≠ 0 ∧ b.lineStart ≠ 0 := by
    rw [Carries, or_iff_left (not_not.2 rfl)]
    exact and_iff_right_of_imp fun h => hne.resolve_left h.2.2
  have hsentinel : Function.update b.data b.last 0 bufSize = sentinel b.data b.last l := by
    rw [sentinel]
    by_cases hfull : b.last = bufSize
    · have hl0 : l ≠ [] := hne.elim (fun h0 hnil => by
        rw [hlast, h0, hnil] at hfull
        exact absurd hfull (by decide)) id
      rw [if_pos ⟨hl0, hfull⟩, hfull, Function.update_self]
    · rw [if_neg fun h => hfull h.2, Function.update_of_ne (Ne.symm hfull)]
  rw [linePass]
  simp only [hend]
  split
  · rename_i hcarry
    have hpos : 0 < b.lineStart := Nat.pos_of_ne_zero hcarry.2.2
    obtain ⟨data', hcopy, hwindow, hrest⟩ := strcpy_spec hpos hterm hnul (by omega)
    rw [hcopy]
    refine ⟨_, rfl, fun _ => ⟨?_, hwindow, ?_⟩, fun h => absurd (hcarries.2 hcarry) h, ?_⟩
    · change b.last - b.lineStart = l.length
      omega
    · rw [lines, collect_line List.not_mem_nil, lineText_nil hs, List.append_nil]
    · rw [← hsentinel]
      exact hrest bufSize (by omega)
  · rename_i hfinish
    have hsearch := search_eq hs fname hterm hnul (by omega)
    rw [← hlast] at hsearch
    rw [hsearch]
    simp only
    rw [if_pos (by omega)]
    refine ⟨_, rfl, fun h => absurd (hcarries.1 h) hfinish, fun _ => ⟨rfl, ?_⟩, hsentinel⟩
    rw [List.nil_append, lines, collect_line hl]

/-- The loop over the lines, from a line on. -/
theorem iterate_linePass (hs : s.chars ≠ []) {p : List Byte} (hp : Complete 10 p) {n : ℕ}
    (h : Window b.data b.lineStart (p ++ l)) (hlast : b.last = b.lineStart + (p ++ l).length)
    (hsize : b.last ≤ bufSize) (hl : 10 ∉ l) (hnul : 0 ∉ p ++ l)
    (hne : b.lineStart = 0 ∨ p ++ l ≠ []) (hn : p.length < n) :
    ∃ b', Loop.iterate (linePass s fname cnt) n b = some (some b') ∧
      Scanned s fname cnt b b' p l := by
  induction hp generalizing b n with
  | nil =>
    obtain ⟨n, rfl⟩ := Nat.exists_eq_add_one_of_ne_zero (Nat.pos_iff_ne_zero.1 hn)
    obtain ⟨b', hpass, hscanned⟩ := linePass_last fname cnt hs h hlast hsize hl hnul hne
    exact ⟨b', Loop.iterate_of_inr hpass n, hscanned⟩
  | @cons m p hm hp ih =>
    obtain ⟨n, rfl⟩ := Nat.exists_eq_add_one_of_ne_zero (by omega : n ≠ 0)
    rw [List.append_assoc, List.cons_append] at h hlast hnul
    have hmnul : 0 ∉ m := fun h0 => hnul (List.mem_append_left _ h0)
    obtain ⟨b₁, hpass, hpassed⟩ := linePass_newline fname cnt hs h hlast hsize hm hmnul
    obtain ⟨-, -, hwindow⟩ := window_append.1 h
    have hlen := hlast
    rw [List.length_append, List.length_cons] at hlen
    have hend : b.lineStart + m.length < b.last := by omega
    by_cases hrest : p ++ l = []
    · obtain ⟨rfl, rfl⟩ := List.append_eq_nil_iff.1 hrest
      rw [if_pos hrest] at hpass
      refine ⟨_, Loop.iterate_of_inr hpass n, fun h => absurd rfl h.1, fun _ => ⟨rfl, ?_⟩, ?_⟩
      · rw [List.append_nil, lines, collect_cons hm, collect_line List.not_mem_nil,
          lineText_nil hs, List.append_nil]
        exact hpassed.out
      · rw [sentinel, if_neg fun h => h.1 rfl]
        exact hpassed.data bufSize (Nat.lt_of_lt_of_le hend hsize)
    · rw [if_neg hrest] at hpass
      rw [List.length_append, List.length_cons] at hn
      have hstart := hpassed.lineStart
      have hlast₁ := hpassed.last
      have hlast' : b₁.last = b₁.lineStart + (p ++ l).length := by omega
      have hwindow₁ : Window b₁.data b₁.lineStart (p ++ l) := by
        rw [hstart]
        exact hwindow.congr fun i hi _ => hpassed.data i (by omega)
      have hnul₁ : 0 ∉ p ++ l := fun h0 =>
        hnul (List.mem_append_right _ (List.mem_cons_of_mem _ h0))
      obtain ⟨b', hiter, hscanned⟩ := ih hwindow₁ hlast' (hlast₁ ▸ hsize) hnul₁ (.inr hrest)
        (by omega : p.length < n)
      exact ⟨b', by rw [Loop.iterate_of_inl hpass, hiter],
        hpassed.scanned fname cnt hm hend hsize hscanned⟩

theorem lineLoop_spec (hs : s.chars ≠ []) {p : List Byte} (hp : Complete 10 p)
    (h : Window b.data 0 (p ++ l)) (hlast : b.last = (p ++ l).length) (hsize : b.last ≤ bufSize)
    (hl : 10 ∉ l) (hnul : 0 ∉ p ++ l) :
    ∃ b', lineLoop s fname cnt b = some b' ∧
      Scanned s fname cnt { b with lineStart := 0 } b' p l := by
  have hlen : p.length < loopPasses := by
    rw [List.length_append] at hlast
    have hpasses : loopPasses = bufSize + 2 := rfl
    omega
  have hlast₀ : b.last = 0 + (p ++ l).length := by rw [hlast, Nat.zero_add]
  obtain ⟨b', hiter, hscanned⟩ := iterate_linePass fname cnt hs hp
    (b := { b with lineStart := 0 }) h hlast₀ hsize hl hnul (.inl rfl) hlen
  exact ⟨b', by rw [lineLoop, hiter]; rfl, hscanned⟩

end Grep

end MpOS
