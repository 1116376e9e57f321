import MpOS.BlinkPhase

/-!
# The frames of the fish (`fish.c`)

`add_frames` reads two text files side by side, byte by byte, and gives `mp1_ioctl` a node
for each place where one of them has a character : the nodes show the one file while they
are on and the other while they are off. A row ends when both files are at a line's end, and
a file whose line or whose text is over has spaces there (`addFrames_text`).

`add_frames` looks at nothing but what its reads deliver (`addFrames_congr`).
-/

namespace MpOS

namespace Fish

/-- A file of `add_frames` : what its reads go on from, and its variables `c0` and `eof0`. -/
structure Reader (σ : Type) where
  rest : σ
  c : Byte
  eof : Bool

/-- A `read` of one byte : what it returns, what it stores, and what the next one goes on from. -/
abbrev ReadByte (σ : Type) :=
  σ → ℤ × List Byte × σ

variable {σ τ : Type} (read : ReadByte σ)

namespace Reader

/-- `ece391_read` of a byte, unless the line is over. -/
def next (f : Reader σ) : Reader σ :=
  if f.c ≠ 10 then
    let (numBytes, stored, rest) := read f.rest
    if numBytes = 0 then ⟨rest, 10, true⟩ else ⟨rest, stored.headD f.c, f.eof⟩
  else f

/-- The variables between two rows. The descriptor is closed, which nothing here sees. -/
def turn (f : Reader σ) : Reader σ :=
  if f.eof then { f with c := 10 } else { f with c := 48 }

end Reader

/-- The variables of `add_frames`, and the nodes it has given to `mp1_ioctl`. -/
structure Frames (σ : Type) where
  f0 : Reader σ
  f1 : Reader σ
  row : ℕ
  col : ℕ
  nodes : List BlinkStruct

/-- `blink_struct` for a character of each file. The fields that `mp1_ioctl_add` sets itself are
zeroed here. -/
def frameNode (onChar offChar : Byte) (row col : ℕ) : BlinkStruct :=
  { BlinkStruct.zero with
    onLength := 15
    offLength := 15
    onChar := onChar
    offChar := offChar
    location := UInt16.ofNat (row * 80 + col + 40) }

/-- A pass of the inner loop. -/
def colPass (s : Frames σ) : Frames σ ⊕ Frames σ :=
  let f0 := s.f0.next read
  let f1 := s.f1.next read
  if f0.c = 10 ∧ f1.c = 10 then .inr { s with f0 := f0, f1 := f1 }
  else
    let nodes :=
      if (f0.c ≠ 32 ∧ f0.c ≠ 10) ∨ (f1.c ≠ 32 ∧ f1.c ≠ 10) then
        s.nodes ++ [frameNode (if f0.c = 10 then 32 else f0.c) (if f1.c = 10 then 32 else f1.c)
          s.row s.col]
      else s.nodes
    .inl { s with f0 := f0, f1 := f1, col := s.col + 1, nodes := nodes }

/-- A pass of the outer loop, whose inner loop is cut off after some passes. -/
def rowPass (passes : ℕ) (s : Frames σ) : Frames σ ⊕ Option (Frames σ) :=
  if ¬(s.f0.eof = false ∨ s.f1.eof = false) then .inr (some s)
  else
    match Loop.iterate (colPass read) passes { s with col := 0 } with
    | none => .inr none
    | some s => .inl { s with f0 := s.f0.turn, f1 := s.f1.turn, row := s.row + 1 }

/-- `add_frames` of two open files : the nodes it gives to `mp1_ioctl`. -/
def addFrames (passes : ℕ) (file0 file1 : σ) : Option (List BlinkStruct) :=
  let s : Frames σ := ⟨⟨file0, 48, false⟩, ⟨file1, 48, false⟩, 0, 0, []⟩
  ((Loop.iterate (rowPass read passes) passes s).bind id).map Frames.nodes

/-- The `read` of a text. -/
def readText : ReadByte (List Byte)
  | [] => (0, [], [])
  | b :: rest => (1, [b], rest)

/-! ## Reads that deliver the same -/

variable {read} {read' : ReadByte τ} {R : σ → τ → Prop}

/-- Two files whose reads go on from related states. -/
structure Reader.Same (R : σ → τ → Prop) (f : Reader σ) (g : Reader τ) : Prop where
  rest : R f.rest g.rest
  c : f.c = g.c
  eof : f.eof = g.eof

structure Frames.Same (R : σ → τ → Prop) (s : Frames σ) (t : Frames τ) : Prop where
  f0 : s.f0.Same R t.f0
  f1 : s.f1.Same R t.f1
  row : s.row = t.row
  col : s.col = t.col
  nodes : s.nodes = t.nodes

/-- The reads deliver the same, and go on from related states. -/
def SameReads (read : ReadByte σ) (read' : ReadByte τ) (R : σ → τ → Prop) : Prop :=
  ∀ a b, R a b → (read a).1 = (read' b).1 ∧ (read a).2.1 = (read' b).2.1 ∧
    R (read a).2.2 (read' b).2.2

/-- The next byte from either source. -/
theorem Reader.Same.next (hread : SameReads read read' R) {f : Reader σ} {g : Reader τ}
    (h : f.Same R g) : (f.next read).Same R (g.next read') := by
  obtain ⟨hret, hstored, hrest⟩ := hread _ _ h.rest
  rw [Reader.next, Reader.next, h.c, h.eof]
  simp only [hret, hstored]
  split_ifs
  · exact ⟨hrest, rfl, rfl⟩
  · exact ⟨hrest, rfl, rfl⟩
  · exact h

/-- A source that starts over does so for both. -/
theorem Reader.Same.turn {f : Reader σ} {g : Reader τ} (h : f.Same R g) :
    f.turn.Same R g.turn := by
  rw [Reader.turn, Reader.turn, h.eof]
  split_ifs
  · exact ⟨h.rest, rfl, rfl⟩
  · exact ⟨h.rest, rfl, rfl⟩

/-- The inner loop takes the same steps. -/
theorem Frames.Same.colPass (hread : SameReads read read' R) {s : Frames σ} {t : Frames τ}
    (h : s.Same R t) :
    Sum.LiftRel (Frames.Same R) (Frames.Same R) (Fish.colPass read s) (Fish.colPass read' t) := by
  obtain ⟨f0, f1, row, col, nodes⟩ := s
  obtain ⟨g0, g1, row', col', nodes'⟩ := t
  obtain ⟨h0, h1, hrow, hcol, hnodes⟩ := h
  obtain rfl : row = row' := hrow
  obtain rfl : col = col' := hcol
  obtain rfl : nodes = nodes' := hnodes
  have h0' := h0.next hread
  have h1' := h1.next hread
  simp only [Fish.colPass] at h0' h1' ⊢
  rw [h0'.c, h1'.c]
  by_cases hend : (g0.next read').c = 10 ∧ (g1.next read').c = 10
  · rw [if_pos hend, if_pos hend]
    exact .inr ⟨h0', h1', rfl, rfl, rfl⟩
  · rw [if_neg hend, if_neg hend]
    exact .inl ⟨h0', h1', rfl, rfl, rfl⟩

/-- So does the outer one. -/
theorem Frames.Same.rowPass (hread : SameReads read read' R) (passes : ℕ) {s : Frames σ}
    {t : Frames τ} (h : s.Same R t) :
    Sum.LiftRel (Frames.Same R) (Option.Rel (Frames.Same R)) (Fish.rowPass read passes s)
      (Fish.rowPass read' passes t) := by
  obtain ⟨f0, f1, row, col, nodes⟩ := s
  obtain ⟨g0, g1, row', col', nodes'⟩ := t
  obtain ⟨h0, h1, hrow, hcol, hnodes⟩ := h
  obtain rfl : row = row' := hrow
  obtain rfl : col = col' := hcol
  obtain rfl : nodes = nodes' := hnodes
  have hcols := Loop.iterate_rel (fun _ _ h => Frames.Same.colPass hread h)
    (⟨h0, h1, rfl, rfl, rfl⟩ : Frames.Same R ⟨f0, f1, row, 0, nodes⟩ ⟨g0, g1, row, 0, nodes⟩)
    passes
  have he0 : f0.eof = g0.eof := h0.eof
  have he1 : f1.eof = g1.eof := h1.eof
  simp only [Fish.rowPass, he0, he1]
  split_ifs
  · revert hcols
    generalize Loop.iterate (Fish.colPass read) passes _ = x
    generalize Loop.iterate (Fish.colPass read') passes _ = y
    intro hcols
    match x, y, hcols with
    | none, none, .none => exact .inr .none
    | some a, some b, .some hend =>
      exact .inl ⟨hend.f0.turn, hend.f1.turn, congrArg (· + 1) hend.row, hend.col, hend.nodes⟩
  · exact .inr (.some ⟨h0, h1, rfl, rfl, rfl⟩)

/-- `add_frames` looks at nothing but what its reads deliver. -/
theorem addFrames_congr (hread : SameReads read read' R) {a0 a1 : σ} {b0 b1 : τ} (h0 : R a0 b0)
    (h1 : R a1 b1) (passes : ℕ) : addFrames read passes a0 a1 = addFrames read' passes b0 b1 := by
  have hrows := Loop.iterate_rel (fun _ _ h => Frames.Same.rowPass hread passes h)
    (⟨⟨h0, rfl, rfl⟩, ⟨h1, rfl, rfl⟩, rfl, rfl, rfl⟩ : Frames.Same R
      ⟨⟨a0, 48, false⟩, ⟨a1, 48, false⟩, 0, 0, []⟩ ⟨⟨b0, 48, false⟩, ⟨b1, 48, false⟩, 0, 0, []⟩)
    passes
  rw [addFrames, addFrames]
  revert hrows
  generalize Loop.iterate (rowPass read passes) passes _ = x
  generalize Loop.iterate (rowPass read' passes) passes _ = y
  intro hrows
  match x, y, hrows with
  | none, none, .none => rfl
  | some none, some none, .some .none => rfl
  | some (some _), some (some _), .some (.some hend) => exact congrArg some hend.nodes

/-! ## The pictures -/

/-- The character at a place of a row. -/
def charIn (line : List Byte) (col : ℕ) : Byte :=
  line.getD col 32

/-- The nodes of a row. -/
def rowNodes (line0 line1 : List Byte) (row col : ℕ) : List BlinkStruct :=
  (List.range (max line0.length line1.length)).flatMap fun k =>
    if charIn line0 k = 32 ∧ charIn line1 k = 32 then []
    else [frameNode (charIn line0 k) (charIn line1 k) row (col + k)]

/-- The nodes of two pictures. -/
def pictureNodes (lines0 lines1 : List (List Byte)) (row : ℕ) : List BlinkStruct :=
  (List.range (max lines0.length lines1.length)).flatMap fun k =>
    rowNodes (lines0.getD k []) (lines1.getD k []) (row + k) 0

namespace Reader

/-- The rest of the line. -/
def line (f : Reader (List Byte)) : List Byte :=
  if f.c = 10 then [] else f.rest.takeWhile (· ≠ 10)

/-- The file behind the line. -/
def finish (f : Reader (List Byte)) : Reader (List Byte) :=
  if f.c = 10 then f
  else
    match f.rest.dropWhile (· ≠ 10) with
    | [] => ⟨[], 10, true⟩
    | _ :: rest => ⟨rest, 10, f.eof⟩

/-- The lines that are left, at the start of a row. -/
def lines (f : Reader (List Byte)) : List (List Byte) :=
  if f.eof then [] else f.rest.splitOn 10

variable {f : Reader (List Byte)} {b : Byte} {l : List Byte}

/-- At the end of its line a reader has the newline. -/
theorem next_of_line_nil (h : f.line = []) : f.next readText = f.finish ∧ f.finish.c = 10 := by
  by_cases hc : f.c = 10
  · rw [next, if_neg (not_not.2 hc), finish, if_pos hc]
    exact ⟨rfl, hc⟩
  · rw [line, if_neg hc] at h
    rw [next, if_pos hc, finish, if_neg hc]
    cases hrest : f.rest with
    | nil => exact ⟨rfl, rfl⟩
    | cons b rest =>
      rw [hrest] at h
      by_cases hb : b = 10
      · subst hb
        exact ⟨rfl, rfl⟩
      · rw [List.takeWhile_cons_of_pos (by simpa using hb)] at h
        exact absurd h (List.cons_ne_nil _ _)

/-- Before it, the next character. -/
theorem next_of_line_cons (h : f.line = b :: l) :
    (f.next readText).c = b ∧ b ≠ 10 ∧ (f.next readText).line = l ∧
      (f.next readText).finish = f.finish := by
  by_cases hc : f.c = 10
  · rw [line, if_pos hc] at h
    exact absurd h.symm (List.cons_ne_nil _ _)
  · rw [line, if_neg hc] at h
    cases hrest : f.rest with
    | nil =>
      rw [hrest] at h
      exact absurd h.symm (List.cons_ne_nil _ _)
    | cons a rest =>
      rw [hrest] at h
      by_cases ha : a = 10
      · rw [List.takeWhile_cons_of_neg (by simpa using ha)] at h
        exact absurd h.symm (List.cons_ne_nil _ _)
      · rw [List.takeWhile_cons_of_pos (by simpa using ha)] at h
        obtain ⟨rfl, rfl⟩ := List.cons.inj h
        have hnext : f.next readText = ⟨rest, a, f.eof⟩ := by
          rw [next, if_pos hc, hrest]
          rfl
        have hdrop : f.rest.dropWhile (· ≠ 10) = rest.dropWhile (· ≠ 10) := by
          rw [hrest, List.dropWhile_cons_of_pos (by simpa using ha)]
        refine ⟨by rw [hnext], ha, ?_, ?_⟩
        · rw [hnext, line, if_neg ha]
        · rw [hnext, finish, if_neg ha, finish, if_neg hc, hdrop]

/-- A pass's look at a file. -/
theorem next_spec (f : Reader (List Byte)) :
    (f.next readText).line = f.line.tail ∧ (f.next readText).finish = f.finish ∧
      ((f.next readText).c = 10 ↔ f.line = []) ∧
      (if (f.next readText).c = 10 then 32 else (f.next readText).c) = charIn f.line 0 := by
  cases h : f.line with
  | nil =>
    obtain ⟨hnext, hc⟩ := next_of_line_nil h
    have hfinish : f.finish.finish = f.finish := by rw [finish, if_pos hc]
    rw [hnext, line, if_pos hc, hfinish]
    exact ⟨rfl, rfl, iff_of_true hc rfl, if_pos hc⟩
  | cons b l =>
    obtain ⟨hc, hb, hline, hfinish⟩ := next_of_line_cons h
    rw [hc]
    exact ⟨hline, hfinish, iff_of_false hb (List.cons_ne_nil b l), if_neg hb⟩

/-- A file at the start of a row. -/
def Starts (f : Reader (List Byte)) : Prop :=
  f.c = if f.eof then 10 else 48

/-- The lines of a text, from the front. -/
theorem splitOn_eq (t : List Byte) : t.splitOn 10 = t.takeWhile (· ≠ 10) ::
    (match t.dropWhile (· ≠ 10) with
      | [] => []
      | _ :: rest => rest.splitOn 10) := by
  induction t with
  | nil => rfl
  | cons b t ih =>
    rw [List.splitOn_cons_eq_if_modifyHead]
    by_cases hb : b = 10
    · subst hb
      rfl
    · rw [List.takeWhile_cons_of_pos (by simpa using hb),
        List.dropWhile_cons_of_pos (by simpa using hb), if_neg (by simpa using hb), ih]
      rfl

/-- At the start of a line the reader's line is the first that is left. -/
theorem Starts.line (h : f.Starts) : f.line = f.lines.headD [] := by
  rw [Starts] at h
  rw [Reader.line, lines]
  cases heof : f.eof with
  | true =>
    rw [heof] at h
    exact if_pos h
  | false =>
    rw [heof] at h
    have hc : f.c ≠ 10 := by
      rw [h]
      decide
    rw [if_neg hc, splitOn_eq]
    rfl

/-- The next row starts with the next line. -/
theorem Starts.turn (h : f.Starts) : f.finish.turn.Starts ∧ f.finish.turn.lines = f.lines.tail := by
  rw [Starts] at h
  cases heof : f.eof with
  | true =>
    rw [heof] at h
    have hc : f.c = 10 := h
    have hfinish : f.finish = f := by rw [finish, if_pos hc]
    rw [hfinish, Reader.turn, heof]
    simp [Starts, lines, heof]
  | false =>
    rw [heof] at h
    have hc : f.c ≠ 10 := by
      rw [h]
      decide
    have hlines : f.lines = f.rest.splitOn 10 := by rw [lines, heof]; rfl
    rw [hlines, splitOn_eq, finish, if_neg hc]
    cases f.rest.dropWhile (· ≠ 10) with
    | nil => simp [Reader.turn, Starts, lines]
    | cons a rest => simp [Reader.turn, Starts, lines, heof]

theorem Starts.length_line_lt {n : ℕ} (h : f.Starts) (hpos : 0 < n)
    (hlen : ∀ l ∈ f.lines, l.length < n) : f.line.length < n := by
  rw [h.line]
  cases hl : f.lines with
  | nil => exact hpos
  | cons l ls => exact hlen l (by rw [hl]; exact List.mem_cons_self)

/-- No line is left exactly at the end of the file. -/
theorem lines_eq_nil_iff (f : Reader (List Byte)) : f.lines = [] ↔ f.eof = true := by
  rw [lines]
  cases f.eof with
  | true => simp
  | false => simp [List.splitOn_ne_nil]

end Reader

/-! ## The loops -/

theorem rowNodes_nil (row col : ℕ) : rowNodes [] [] row col = [] :=
  rfl

theorem charIn_succ (l : List Byte) (k : ℕ) : charIn l (k + 1) = charIn l.tail k := by
  cases l with
  | nil => rfl
  | cons b l => rfl

/-- The nodes of a row, from the left. -/
theorem rowNodes_succ {l0 l1 : List Byte} (h : ¬(l0 = [] ∧ l1 = [])) (row col : ℕ) :
    rowNodes l0 l1 row col = (if charIn l0 0 = 32 ∧ charIn l1 0 = 32 then []
      else [frameNode (charIn l0 0) (charIn l1 0) row col]) ++
        rowNodes l0.tail l1.tail row (col + 1) := by
  have hlen : max l0.length l1.length = max l0.tail.length l1.tail.length + 1 := by
    rw [List.length_tail, List.length_tail]
    have hne : ¬(l0.length = 0 ∧ l1.length = 0) := by
      rwa [List.length_eq_zero_iff, List.length_eq_zero_iff]
    omega
  rw [rowNodes, hlen, List.range_succ_eq_map, List.flatMap_cons, List.flatMap_map, rowNodes]
  simp only [charIn_succ, Nat.add_zero, Nat.succ_eq_add_one, Nat.add_assoc, Nat.add_comm 1]

/-- With both lines at their ends the inner loop stops. -/
theorem colPass_of_nil {s : Frames (List Byte)} (h : s.f0.line = [] ∧ s.f1.line = []) :
    colPass readText s = .inr { s with f0 := s.f0.finish, f1 := s.f1.finish } := by
  obtain ⟨h0, hc0⟩ := Reader.next_of_line_nil h.1
  obtain ⟨h1, hc1⟩ := Reader.next_of_line_nil h.2
  rw [colPass, h0, h1]
  exact if_pos ⟨hc0, hc1⟩

/-- Otherwise it makes a node, unless both characters are blank. -/
theorem colPass_of_ne {s : Frames (List Byte)} (h : ¬(s.f0.line = [] ∧ s.f1.line = [])) :
    colPass readText s = .inl { s with
      f0 := s.f0.next readText
      f1 := s.f1.next readText
      col := s.col + 1
      nodes := s.nodes ++ if charIn s.f0.line 0 = 32 ∧ charIn s.f1.line 0 = 32 then []
        else [frameNode (charIn s.f0.line 0) (charIn s.f1.line 0) s.row s.col] } := by
  obtain ⟨-, -, hend0, hchar0⟩ := s.f0.next_spec
  obtain ⟨-, -, hend1, hchar1⟩ := s.f1.next_spec
  rw [colPass]
  simp only
  rw [if_neg (by rwa [hend0, hend1]), ← hchar0, ← hchar1]
  have hspace : ∀ c : Byte, (if c = 10 then 32 else c) = 32 ↔ ¬(c ≠ 32 ∧ c ≠ 10) := by
    intro c
    split_ifs with hc
    · simp [hc]
    · simp [hc]
  have hskip := and_congr (hspace (s.f0.next readText).c) (hspace (s.f1.next readText).c)
  by_cases hput : ((s.f0.next readText).c ≠ 32 ∧ (s.f0.next readText).c ≠ 10) ∨
      ((s.f1.next readText).c ≠ 32 ∧ (s.f1.next readText).c ≠ 10)
  · rw [if_pos hput, if_neg (mt hskip.1 fun hnot => hput.elim hnot.1 hnot.2)]
  · rw [if_neg hput, if_pos (hskip.2 (not_or.1 hput)), List.append_nil]

/-- The inner loop reads a line of each file. -/
theorem iterate_colPass {s : Frames (List Byte)} {n m : ℕ}
    (hm : m = max s.f0.line.length s.f1.line.length) (hn : m < n) :
    ∃ col, Loop.iterate (colPass readText) n s = some { s with
      f0 := s.f0.finish
      f1 := s.f1.finish
      col := col
      nodes := s.nodes ++ rowNodes s.f0.line s.f1.line s.row s.col } := by
  induction m generalizing s n with
  | zero =>
    obtain ⟨n, rfl⟩ := Nat.exists_eq_add_one_of_ne_zero (Nat.pos_iff_ne_zero.1 hn)
    have h0 : s.f0.line = [] := List.length_eq_zero_iff.1 (by omega)
    have h1 : s.f1.line = [] := List.length_eq_zero_iff.1 (by omega)
    refine ⟨s.col, ?_⟩
    rw [Loop.iterate_of_inr (colPass_of_nil ⟨h0, h1⟩), h0, h1, rowNodes_nil, List.append_nil]
  | succ m ih =>
    obtain ⟨n, rfl⟩ := Nat.exists_eq_add_one_of_ne_zero (by omega : n ≠ 0)
    have hne : ¬(s.f0.line = [] ∧ s.f1.line = []) := by
      rintro ⟨h0, h1⟩
      rw [h0, h1] at hm
      exact absurd hm (Nat.succ_ne_zero m)
    obtain ⟨hline0, hfinish0, -, -⟩ := s.f0.next_spec
    obtain ⟨hline1, hfinish1, -, -⟩ := s.f1.next_spec
    rw [Loop.iterate_of_inl (colPass_of_ne hne)]
    obtain ⟨col, hiter⟩ := @ih { s with
      f0 := s.f0.next readText
      f1 := s.f1.next readText
      col := s.col + 1
      nodes := s.nodes ++ if charIn s.f0.line 0 = 32 ∧ charIn s.f1.line 0 = 32 then []
        else [frameNode (charIn s.f0.line 0) (charIn s.f1.line 0) s.row s.col] } n (by
          simp only [hline0, hline1, List.length_tail]
          omega) (by omega)
    refine ⟨col, ?_⟩
    rw [hiter, rowNodes_succ hne]
    simp only [hline0, hline1, hfinish0, hfinish1, List.append_assoc]

/-- The nodes of a picture, from the top. -/
theorem pictureNodes_succ {lines0 lines1 : List (List Byte)} (h : ¬(lines0 = [] ∧ lines1 = []))
    (row : ℕ) : pictureNodes lines0 lines1 row =
      rowNodes (lines0.headD []) (lines1.headD []) row 0 ++
        pictureNodes lines0.tail lines1.tail (row + 1) := by
  have hlen : max lines0.length lines1.length =
      max lines0.tail.length lines1.tail.length + 1 := by
    rw [List.length_tail, List.length_tail]
    have hne : ¬(lines0.length = 0 ∧ lines1.length = 0) := by
      rwa [List.length_eq_zero_iff, List.length_eq_zero_iff]
    omega
  have hhead : ∀ l : List (List Byte), l.getD 0 [] = l.headD [] := fun l => by cases l <;> rfl
  have htail : ∀ (l : List (List Byte)) k, l.getD (k + 1) [] = l.tail.getD k [] :=
    fun l k => by cases l <;> rfl
  rw [pictureNodes, hlen, List.range_succ_eq_map, List.flatMap_cons, List.flatMap_map, pictureNodes,
    hhead, hhead]
  simp only [htail, Nat.add_zero, Nat.succ_eq_add_one, Nat.add_assoc, Nat.add_comm 1]

/-- The outer loop reads the lines of both files. -/
theorem iterate_rowPass {passes : ℕ} {s : Frames (List Byte)} {n m : ℕ} (h0 : s.f0.Starts)
    (h1 : s.f1.Starts) (hm : m = max s.f0.lines.length s.f1.lines.length) (hn : m < n)
    (hpos : 0 < passes)
    (hlen0 : ∀ l ∈ s.f0.lines, l.length < passes) (hlen1 : ∀ l ∈ s.f1.lines, l.length < passes) :
    ∃ t, Loop.iterate (rowPass readText passes) n s = some (some t) ∧
      t.nodes = s.nodes ++ pictureNodes s.f0.lines s.f1.lines s.row := by
  induction m generalizing s n with
  | zero =>
    obtain ⟨n, rfl⟩ := Nat.exists_eq_add_one_of_ne_zero (Nat.pos_iff_ne_zero.1 hn)
    have hnil0 : s.f0.lines = [] := List.length_eq_zero_iff.1 (by omega)
    have hnil1 : s.f1.lines = [] := List.length_eq_zero_iff.1 (by omega)
    have hpass : rowPass readText passes s = .inr (some s) := by
      rw [rowPass, (Reader.lines_eq_nil_iff _).1 hnil0, (Reader.lines_eq_nil_iff _).1 hnil1]
      rfl
    refine ⟨s, Loop.iterate_of_inr hpass n, ?_⟩
    rw [hnil0, hnil1]
    exact (List.append_nil _).symm
  | succ m ih =>
    obtain ⟨n, rfl⟩ := Nat.exists_eq_add_one_of_ne_zero (by omega : n ≠ 0)
    have hne : ¬(s.f0.lines = [] ∧ s.f1.lines = []) := by
      rintro ⟨hnil0, hnil1⟩
      rw [hnil0, hnil1] at hm
      exact absurd hm (Nat.succ_ne_zero m)
    have hopen : s.f0.eof = false ∨ s.f1.eof = false := by
      rw [Reader.lines_eq_nil_iff, Reader.lines_eq_nil_iff] at hne
      cases h : s.f0.eof <;> simp_all
    have hline0 := h0.length_line_lt hpos hlen0
    have hline1 := h1.length_line_lt hpos hlen1
    obtain ⟨col, hiter⟩ := @iterate_colPass { s with col := 0 } passes _ rfl
      (Nat.max_lt.2 ⟨hline0, hline1⟩)
    obtain ⟨hstart0, hlines0⟩ := h0.turn
    obtain ⟨hstart1, hlines1⟩ := h1.turn
    have hpass : rowPass readText passes s = .inl { s with
        f0 := s.f0.finish.turn
        f1 := s.f1.finish.turn
        row := s.row + 1
        col := col
        nodes := s.nodes ++ rowNodes s.f0.line s.f1.line s.row 0 } := by
      rw [rowPass, if_neg (not_not.2 hopen), hiter]
    obtain ⟨t, ht, hnodes⟩ := @ih { s with
        f0 := s.f0.finish.turn
        f1 := s.f1.finish.turn
        row := s.row + 1
        col := col
        nodes := s.nodes ++ rowNodes s.f0.line s.f1.line s.row 0 } n hstart0 hstart1
      (by simp only [hlines0, hlines1, List.length_tail]; omega) (by omega)
      (fun l hl => hlen0 l (List.mem_of_mem_tail (hlines0 ▸ hl)))
      (fun l hl => hlen1 l (List.mem_of_mem_tail (hlines1 ▸ hl)))
    refine ⟨t, by rw [Loop.iterate_of_inl hpass, ht], ?_⟩
    rw [hnodes, pictureNodes_succ hne, ← h0.line, ← h1.line]
    simp only [hlines0, hlines1, List.append_assoc]

theorem length_splitOn_le (t : List Byte) :
    (t.splitOn 10).length ≤ t.length + 1 ∧ ∀ l ∈ t.splitOn 10, l.length ≤ t.length := by
  induction t with
  | nil => simp
  | cons b t ih =>
    obtain ⟨hlen, hlines⟩ := ih
    rw [List.splitOn_cons_eq_if_modifyHead]
    split
    · refine ⟨Nat.succ_le_succ hlen, fun l hl => ?_⟩
      rcases List.mem_cons.1 hl with rfl | hl
      · exact Nat.zero_le _
      · exact (hlines l hl).trans (Nat.le_succ _)
    · cases hs : t.splitOn 10 with
      | nil => exact absurd hs (List.splitOn_ne_nil _ _)
      | cons l ls =>
        rw [hs] at hlen hlines
        refine ⟨hlen.trans (Nat.le_succ _), fun l' hl' => ?_⟩
        rcases List.mem_cons.1 hl' with rfl | hl'
        · exact Nat.succ_le_succ (hlines l List.mem_cons_self)
        · exact (hlines l' (List.mem_cons_of_mem _ hl')).trans (Nat.le_succ _)

/-- `add_frames` of two texts comes to an end, and gives `mp1_ioctl` the nodes of the two
pictures. -/
theorem addFrames_text {passes : ℕ} {file0 file1 : List Byte} (h0 : file0.length + 2 ≤ passes)
    (h1 : file1.length + 2 ≤ passes) : addFrames readText passes file0 file1 =
      some (pictureNodes (file0.splitOn 10) (file1.splitOn 10) 0) := by
  obtain ⟨hcount0, hlen0⟩ := length_splitOn_le file0
  obtain ⟨hcount1, hlen1⟩ := length_splitOn_le file1
  obtain ⟨t, ht, hnodes⟩ := @iterate_rowPass passes
    ⟨⟨file0, 48, false⟩, ⟨file1, 48, false⟩, 0, 0, []⟩ passes _ rfl rfl rfl
    (Nat.max_lt.2 ⟨Nat.lt_of_le_of_lt hcount0 (by omega), Nat.lt_of_le_of_lt hcount1 (by omega)⟩)
    (by omega) (fun l hl => Nat.lt_of_le_of_lt (hlen0 l hl) (by omega))
    (fun l hl => Nat.lt_of_le_of_lt (hlen1 l hl) (by omega))
  rw [addFrames, ht]
  exact congrArg some hnodes

/-! ## The cells of the pictures -/

/-- The character at a place of a text, a space where it has none. -/
def charAt (file : List Byte) (row col : ℕ) : Byte :=
  charIn ((file.splitOn 10).getD row []) col

/-- One of the texts has a character at the place. -/
def Inked (file0 file1 : List Byte) (row col : ℕ) : Prop :=
  charAt file0 row col ≠ 32 ∨ charAt file1 row col ≠ 32

/-- No two places share a cell, behind the screen or on it : only the last row goes on behind
column 80. -/
def Fits (file0 file1 : List Byte) : Prop :=
  ∀ row col, Inked file0 file1 row col → row * 80 + col + 40 < 2 ^ 16 ∧
    (80 ≤ col → ∀ row' col', row < row' → ¬Inked file0 file1 row' col')

theorem lt_of_charIn_ne {l : List Byte} {k : ℕ} (h : charIn l k ≠ 32) : k < l.length := by
  by_contra hge
  exact h (List.getD_eq_default _ _ (Nat.not_lt.1 hge))

theorem lt_of_charAt_ne {file : List Byte} {row col : ℕ} (h : charAt file row col ≠ 32) :
    row < (file.splitOn 10).length := by
  by_contra hge
  rw [charAt, List.getD_eq_default _ _ (Nat.not_lt.1 hge)] at h
  exact h rfl

/-- A row has a node in each column where either frame shows a character. -/
theorem mem_rowNodes {l0 l1 : List Byte} {row col : ℕ} {node : BlinkStruct} :
    node ∈ rowNodes l0 l1 row col ↔ ∃ k, (charIn l0 k ≠ 32 ∨ charIn l1 k ≠ 32) ∧
      node = frameNode (charIn l0 k) (charIn l1 k) row (col + k) := by
  rw [rowNodes, List.mem_flatMap]
  constructor
  · rintro ⟨k, -, hk⟩
    split at hk
    · exact absurd hk List.not_mem_nil
    · rename_i hink
      exact ⟨k, not_and_or.1 hink, List.mem_singleton.1 hk⟩
  · rintro ⟨k, hink, rfl⟩
    have hlt : k < max l0.length l1.length :=
      lt_max_iff.2 (hink.imp lt_of_charIn_ne lt_of_charIn_ne)
    refine ⟨k, List.mem_range.2 hlt, ?_⟩
    rw [if_neg (not_and_or.2 hink)]
    exact List.mem_singleton_self _

/-- The nodes of the pictures are those of the places with a character. -/
theorem mem_pictureNodes {file0 file1 : List Byte} {node : BlinkStruct} :
    node ∈ pictureNodes (file0.splitOn 10) (file1.splitOn 10) 0 ↔
      ∃ row col, Inked file0 file1 row col ∧
        node = frameNode (charAt file0 row col) (charAt file1 row col) row col := by
  rw [pictureNodes, List.mem_flatMap]
  simp only [mem_rowNodes, Nat.zero_add, List.mem_range]
  constructor
  · rintro ⟨row, -, col, hink, rfl⟩
    exact ⟨row, col, hink, rfl⟩
  · rintro ⟨row, col, hink, rfl⟩
    exact ⟨row, lt_max_iff.2 (hink.imp lt_of_charAt_ne lt_of_charAt_ne), col, hink, rfl⟩

/-- A node's cell is computed in 16 bits, and fits. -/
theorem location_frameNode {row col : ℕ} (a b : Byte) (h : row * 80 + col + 40 < 2 ^ 16) :
    (frameNode a b row col).location.toNat = row * 80 + col + 40 :=
  UInt16.toNat_ofNat_of_lt' h

/-- Different places have different locations. -/
theorem pairwise_pictureNodes {file0 file1 : List Byte} (hfits : Fits file0 file1) :
    (pictureNodes (file0.splitOn 10) (file1.splitOn 10) 0).Pairwise
      fun a b => a.location ≠ b.location := by
  have hplace : ∀ row col row' col', Inked file0 file1 row col → Inked file0 file1 row' col' →
      row < row' ∨ row = row' ∧ col < col' →
      (frameNode (charAt file0 row col) (charAt file1 row col) row col).location ≠
        (frameNode (charAt file0 row' col') (charAt file1 row' col') row' col').location := by
    intro row col row' col' hink hink' hlt heq
    obtain ⟨hcell, hlast⟩ := hfits row col hink
    have hcell' := (hfits row' col' hink').1
    rw [← UInt16.toNat_inj, location_frameNode _ _ hcell, location_frameNode _ _ hcell'] at heq
    have hcol : row < row' → col < 80 := fun hrow =>
      Nat.lt_of_not_le fun h80 => hlast h80 row' col' hrow hink'
    omega
  rw [pictureNodes]
  simp only [Nat.zero_add]
  refine List.pairwise_flatMap.2 ⟨fun row _ => List.pairwise_flatMap.2 ⟨fun col _ => ?_,
    List.pairwise_lt_range.imp fun {col col'} hlt x hx y hy => ?_⟩,
    List.pairwise_lt_range.imp fun {row row'} hlt x hx y hy => ?_⟩
  · split
    · exact .nil
    · exact List.pairwise_singleton _ _
  · split at hx
    · exact absurd hx List.not_mem_nil
    · rename_i hink
      split at hy
      · exact absurd hy List.not_mem_nil
      · rename_i hink'
        obtain rfl := List.mem_singleton.1 hx
        obtain rfl := List.mem_singleton.1 hy
        rw [Nat.zero_add, Nat.zero_add]
        exact hplace row col row col' (not_and_or.1 hink) (not_and_or.1 hink') (.inr ⟨rfl, hlt⟩)
  · obtain ⟨col, hink, rfl⟩ := mem_rowNodes.1 hx
    obtain ⟨col', hink', rfl⟩ := mem_rowNodes.1 hy
    rw [Nat.zero_add, Nat.zero_add]
    exact hplace row col row' col' hink hink' (.inl hlt)

/-- The nodes that `mp1_ioctl_add` takes. -/
def onScreen (nodes : List BlinkStruct) : List BlinkStruct :=
  nodes.filter (·.location < 80 * 25)

/-- Nodes of different locations on the screen are no more than it has cells. -/
theorem length_onScreen_le {nodes : List BlinkStruct}
    (hdistinct : nodes.Pairwise fun a b => a.location ≠ b.location) :
    (onScreen nodes).length ≤ 80 * 25 := by
  have hnodup : ((onScreen nodes).map fun node => node.location.toNat).Nodup :=
    List.pairwise_map.2 ((hdistinct.filter _).imp fun h heq => h (UInt16.toNat_inj.1 heq))
  have hsub : ((onScreen nodes).map fun node => node.location.toNat) ⊆ List.range (80 * 25) := by
    intro m hm
    obtain ⟨node, hnode, rfl⟩ := List.mem_map.1 hm
    exact List.mem_range.2
      (UInt16.lt_iff_toNat_lt.1 (of_decide_eq_true (List.mem_filter.1 hnode).2))
  have hlen := (hnodup.subperm hsub).length_le
  rwa [List.length_map, List.length_range] at hlen

/-! ## The screen -/

variable {s t : Fish} {i : Slot} {n : ℕ}

/-- `mp1_ioctl_add` of a node behind the screen fails. -/
theorem step_add_of_le {node : BlinkStruct} (h : 80 * 25 ≤ node.location) :
    s.step n (.add node) = some s := by
  rw [step, call, mp1IoctlAdd, if_pos h]
  rfl

/-- Nodes of different locations on the screen are all put on the list. -/
theorem run_adds {nodes : List BlinkStruct} {l : List Slot} (hn : 80 * 25 < n) (hl : s.Lists l)
    (hs : s.Represents) (hroom : l.length + (onScreen nodes).length ≤ 80 * 25)
    (hused : ∀ node ∈ nodes, node.location ≠ 0)
    (hdistinct : nodes.Pairwise fun a b => a.location ≠ b.location)
    (hfree : ∀ node ∈ nodes, ∀ i, (s.blinkArray i).location ≠ node.location) :
    ∃ t, Transition.run (step n) s (nodes.map .add) = some t ∧ t.Represents ∧
      ∀ node ∈ nodes, node.location < 80 * 25 → ∃ i, t.Sole i ∧ t.glyph i = newGlyph node := by
  induction nodes generalizing s l with
  | nil => exact ⟨s, rfl, hs, fun node hnode => absurd hnode List.not_mem_nil⟩
  | cons node nodes ih =>
    obtain ⟨h0, hused⟩ := List.forall_mem_cons.1 hused
    obtain ⟨hne, hdistinct⟩ := List.pairwise_cons.1 hdistinct
    obtain ⟨hfree₀, hfree⟩ := List.forall_mem_cons.1 hfree
    rcases UInt16.lt_or_le node.location (80 * 25) with hlt | hge
    · have hroom' : l.length + ((onScreen nodes).length + 1) ≤ 80 * 25 := by
        rwa [onScreen, List.filter_cons_of_pos (by simpa using hlt)] at hroom
      have hmem : ∀ i, i ∈ l ↔ (s.blinkArray i).location ≠ 0 := by
        obtain ⟨l', hl', -, hmem⟩ := hs
        obtain rfl := Chain.unique hl hl'
        exact hmem
      obtain ⟨j, hj⟩ : ∃ j, (s.blinkArray j).location = 0 := by
        by_contra hfull
        have hnone := mp1Malloc_eq_none_iff.2 fun i h => hfull ⟨i, h⟩
        exact (mp1Malloc_eq_none_iff_length hl hmem).1 hnone (by omega)
      obtain ⟨i, hi, hcall⟩ := exists_added node hlt hj
      have hstep : s.step n (.add node) = some (s.added node i) := by
        rw [step, call, hcall]
        rfl
      have hrep := represents_added hl hmem hi h0
      have hlists := lists_added node hl (notMem_of_mp1Malloc hmem hi)
      have hnext : ∀ node' ∈ nodes, ∀ k,
          ((s.added node i).blinkArray k).location ≠ node'.location := by
        intro node' hnode' k
        rcases Decidable.em (k = i) with rfl | hk
        · rw [added_self]
          exact hne node' hnode'
        · rw [added_of_ne node hk]
          exact hfree node' hnode' k
      obtain ⟨t, ht, htrep, hall⟩ := ih hlists hrep (by rw [List.length_cons]; omega) hused
        hdistinct hnext
      refine ⟨t, by rw [List.map_cons, Transition.run_cons, hstep, Option.bind_some, ht], htrep,
        List.forall_mem_cons.2 ⟨fun _ => ⟨i, ?_⟩, hall⟩⟩
      have hsole := sole_added hi hfree₀ hrep
      have hadd : Transition.AllEvents (step n) AddsUsed (s.added node i) (nodes.map .add) := by
        refine allEvents_addsUsed (fun e he user huser => ?_) _
        obtain ⟨node', hnode', rfl⟩ := List.mem_map.1 he
        cases huser
        exact hused _ hnode'
      have hspare : ∀ e ∈ nodes.map Event.add,
          e.Spares ((s.added node i).blinkArray i).location := by
        intro e he
        obtain ⟨node', hnode', rfl⟩ := List.mem_map.1 he
        exact (hnext node' hnode' i).symm
      have hticks : (nodes.map Event.add).countP Event.isTick = 0 := by
        rw [List.countP_map]
        exact List.countP_eq_zero.2 fun _ _ => by simp [Event.isTick]
      obtain ⟨htsole, hglyph⟩ := hsole.glyph_run hn hadd hspare ht
      rw [hticks, glyph_added] at hglyph
      exact ⟨htsole, hglyph⟩
    · have hnot := UInt16.not_lt.2 hge
      have hroom' : l.length + (onScreen nodes).length ≤ 80 * 25 := by
        rwa [onScreen, List.filter_cons_of_neg (by simpa using hge)] at hroom
      obtain ⟨t, ht, htrep, hall⟩ := ih hl hs hroom' hused hdistinct hfree
      have hstep : s.step n (.add node) = some s := step_add_of_le hge
      exact ⟨t, by rw [List.map_cons, Transition.run_cons, hstep, Option.bind_some, ht], htrep,
        List.forall_mem_cons.2 ⟨fun hlt => absurd hlt hnot, hall⟩⟩

/-- No node on the list has this byte of the screen. -/
def Clear (s : Fish) (offset : ℕ) : Prop :=
  ∀ i, (s.blinkArray i).location ≠ 0 → offset ≠ 2 * (s.blinkArray i).location.toNat

/-- The event puts no node to this byte of the screen. -/
def Event.Misses (offset : ℕ) (e : Event) : Prop :=
  ∀ user, e = .add user → user.location < 80 * 25 → offset ≠ 2 * user.location.toNat

/-- A cell with no node stays so. -/
theorem Clear.keeps {offset : ℕ} (hs : s.Clear offset) (h : s.Keeps t) : t.Clear offset := by
  intro i hi
  rw [h.location] at hi ⊢
  exact hs i hi

/-- A tick writes the cell of its node only. -/
theorem vmem_tick_of_ne {offset : ℕ} (h : offset ≠ 2 * (s.blinkArray i).location.toNat) :
    (s.tick i).vmem offset = s.vmem offset := by
  rw [tick]
  simp only
  split
  · rfl
  · split
    · exact poke_of_ne s _ h
    · exact poke_of_ne s _ h

theorem vmem_foldl_of_ne {offset : ℕ} {l : List Slot}
    (h : ∀ i ∈ l, offset ≠ 2 * (s.blinkArray i).location.toNat) :
    (l.foldl tick s).vmem offset = s.vmem offset := by
  induction l generalizing s with
  | nil => rfl
  | cons i l ih =>
    obtain ⟨hi, hl⟩ := List.forall_mem_cons.1 h
    have hrest : ∀ j ∈ l, offset ≠ 2 * ((s.tick i).blinkArray j).location.toNat := by
      intro j hj
      rw [(Keeps.tick s i).location]
      exact hl j hj
    rw [List.foldl_cons, ih hrest, vmem_tick_of_ne hi]

/-- The screen changes in the cells of the nodes only. -/
theorem Clear.step {offset : ℕ} {e : Event} (hn : 80 * 25 < n) (hs : s.Represents)
    (hclear : s.Clear offset) (hmiss : e.Misses offset) (h : s.step n e = some t) :
    t.Clear offset ∧ t.vmem offset = s.vmem offset := by
  obtain ⟨l, hl, -, hmem⟩ := hs
  have hcells : ∀ i ∈ l, offset ≠ 2 * (s.blinkArray i).location.toNat :=
    fun i hi => hclear i ((hmem i).1 hi)
  rcases step_cases hn hl h with ⟨-, rfl⟩ | ⟨user, j, rfl, hlt, -, rfl⟩ | ⟨arg, l₁, j, -, -, rfl⟩ |
    ⟨arg, j, k, hk, -, -, -, rfl⟩ | ⟨-, rfl⟩
  · exact ⟨hclear, rfl⟩
  · refine ⟨fun k hk => ?_, poke_of_ne _ _ (hmiss user rfl hlt)⟩
    rcases Decidable.em (k = j) with rfl | hkj
    · rw [added_self]
      exact hmiss user rfl hlt
    · rw [added_of_ne user hkj] at hk ⊢
      exact hclear k hk
  · refine ⟨fun k hk => ?_, by rw [vmem_removed]⟩
    rcases Decidable.em (k = j) with rfl | hkj
    · rw [removed, mp1Free_self] at hk
      exact absurd rfl hk
    · obtain ⟨next, hnode⟩ := removed_of_ne (s := s) l₁ hkj
      rw [hnode] at hk ⊢
      exact hclear k hk
  · exact ⟨hclear.keeps (Keeps.synced s j k), poke_of_ne _ _ (hcells k hk)⟩
  · exact ⟨hclear.keeps (keeps_foldl s l), vmem_foldl_of_ne hcells⟩

/-- A cell that no node has keeps what it shows. -/
theorem Clear.run {offset : ℕ} {es : List Event} (hn : 80 * 25 < n) (hs : s.Represents)
    (hadd : Transition.AllEvents (Fish.step n) AddsUsed s es) (hclear : s.Clear offset)
    (hmiss : ∀ e ∈ es, e.Misses offset) (hrun : Transition.run (Fish.step n) s es = some t) :
    t.vmem offset = s.vmem offset := by
  induction es generalizing s with
  | nil =>
    obtain rfl := Option.some.inj hrun
    rfl
  | cons e es ih =>
    rw [Transition.run_cons, Option.bind_eq_some_iff] at hrun
    obtain ⟨s₁, he, hrun⟩ := hrun
    obtain ⟨hmiss₀, hmiss⟩ := List.forall_mem_cons.1 hmiss
    obtain ⟨hclear₁, hvmem⟩ := hclear.step hn hs hmiss₀ he
    have hs₁ := ((obeys_and_represents_iff hn s e hs).2 hadd.1).2 s₁ he
    rw [ih hs₁ (hadd.2 s₁ he) hclear₁ hmiss hrun, hvmem]

section Pictures

variable {file0 file1 : List Byte}

/-- No node of a picture that fits is at location 0. -/
theorem location_ne_zero (hfits : Fits file0 file1) : ∀ node ∈
    pictureNodes (file0.splitOn 10) (file1.splitOn 10) 0, node.location ≠ 0 := by
  intro node hnode h
  obtain ⟨row, col, hink, rfl⟩ := mem_pictureNodes.1 hnode
  have hlocation := location_frameNode (charAt file0 row col) (charAt file1 row col)
    (hfits row col hink).1
  rw [h] at hlocation
  exact absurd hlocation.symm (Nat.succ_ne_zero _)

/-- The nodes of the pictures get on the empty list. -/
theorem run_pictureNodes (hn : 80 * 25 < n) (vmem : ℕ → Byte) (hfits : Fits file0 file1) :
    ∃ s, Transition.run (step n) (start vmem)
        ((pictureNodes (file0.splitOn 10) (file1.splitOn 10) 0).map .add) = some s ∧
      s.Represents ∧ ∀ node ∈ pictureNodes (file0.splitOn 10) (file1.splitOn 10) 0,
        node.location < 80 * 25 → ∃ i, s.Sole i ∧ s.glyph i = newGlyph node := by
  have hused := location_ne_zero hfits
  have hdistinct := pairwise_pictureNodes hfits
  exact run_adds hn (chain_nil.2 rfl) (represents_start vmem)
    (by simpa using length_onScreen_le hdistinct) hused hdistinct
    fun node hnode _ h => hused node hnode h.symm

/-- The rest of the screen stays as it was. -/
theorem vmem_of_not_inked (hn : 80 * 25 < n) {vmem : ℕ → Byte} {k offset : ℕ}
    (hfits : Fits file0 file1)
    (hrun : Transition.run (step n) (start vmem)
      ((pictureNodes (file0.splitOn 10) (file1.splitOn 10) 0).map .add ++
        List.replicate k .tasklet) = some t)
    (hoff : ∀ row col, Inked file0 file1 row col → row * 80 + col + 40 < 80 * 25 →
      offset ≠ 2 * (row * 80 + col + 40)) :
    t.vmem offset = vmem offset := by
  have hevents : ∀ e ∈ (pictureNodes (file0.splitOn 10) (file1.splitOn 10) 0).map Event.add ++
      List.replicate k .tasklet, ∀ user, e = .add user →
        user ∈ pictureNodes (file0.splitOn 10) (file1.splitOn 10) 0 := by
    intro e he user huser
    rcases List.mem_append.1 he with he | he
    · obtain ⟨node, hnode, rfl⟩ := List.mem_map.1 he
      cases huser
      exact hnode
    · rw [List.eq_of_mem_replicate he] at huser
      cases huser
  have hadd := allEvents_addsUsed (n := n)
    (fun e he user huser => location_ne_zero hfits user (hevents e he user huser)) (start vmem)
  have hclear : (start vmem).Clear offset := fun i hi => absurd rfl hi
  refine hclear.run hn (represents_start vmem) hadd (fun e he user huser hlt => ?_) hrun
  obtain ⟨row, col, hink, rfl⟩ := mem_pictureNodes.1 (hevents e he user huser)
  have hlocation := location_frameNode (charAt file0 row col) (charAt file1 row col)
    (hfits row col hink).1
  rw [hlocation]
  refine hoff row col hink ?_
  rw [← hlocation]
  exact UInt16.lt_iff_toNat_lt.1 hlt

/-- The nodes of the pictures blink together. -/
theorem vmem_of_inked (hn : 80 * 25 < n) {vmem : ℕ → Byte} (hfits : Fits file0 file1) (k : ℕ) :
    ∃ t, Transition.run (step n) (start vmem)
        ((pictureNodes (file0.splitOn 10) (file1.splitOn 10) 0).map .add ++
          List.replicate k .tasklet) = some t ∧
      ∀ row col, Inked file0 file1 row col → row * 80 + col + 40 < 80 * 25 →
        t.vmem (2 * (row * 80 + col + 40)) =
          if k % 30 < 15 then charAt file0 row col else charAt file1 row col := by
  obtain ⟨s, hrun, hs, hall⟩ := run_pictureNodes hn vmem hfits
  obtain ⟨t, ht⟩ := exists_run hn hs (allEvents_replicate k s)
  refine ⟨t, ?_, fun row col hink hcell => ?_⟩
  · rw [Transition.run_append, hrun]
    exact ht
  have hlocation := location_frameNode (charAt file0 row col) (charAt file1 row col)
    (hfits row col hink).1
  obtain ⟨i, hsole, hglyph⟩ := hall _ (mem_pictureNodes.2 ⟨row, col, hink, rfl⟩)
    (UInt16.lt_iff_toNat_lt.2 (by rw [hlocation]; exact hcell))
  have hvmem := hsole.vmem_run hn (allEvents_replicate k s) (spares_replicate _ k) ht
  have hnode : (s.glyph i).node.location =
      (frameNode (charAt file0 row col) (charAt file1 row col) row col).location := by
    rw [hglyph]
    rfl
  have hcellAt : (s.blinkArray i).location.toNat = row * 80 + col + 40 :=
    (congrArg UInt16.toNat hnode).trans hlocation
  have hticks : (List.replicate k Event.tasklet).countP Event.isTick = k := by
    rw [List.countP_replicate]
    rfl
  have hspan : span 15 = 15 := by decide
  rw [hcellAt, hglyph, hticks, cell_iterate_new] at hvmem
  simpa only [frameNode, hspan] using hvmem

end Pictures

end Fish

end MpOS
