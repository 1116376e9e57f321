import MpOS.Process
import MpOS.BlockWalk

/-!
# Commands and their arguments (`syscall.c`)

`execute` copies the first word of a command to `fname`, and the command to the new
process's `user_buf`. `getargs` clears `arg_retrieved`, parses the caller's `user_buf`
into it, and copies it to the caller. Here these are written with the sizes of the
three buffers : an access outside of one is `none`.
-/

namespace MpOS

open ZeroBuffer

/-! ## The name of a program -/

/-- `parseName` within `fname`. -/
def parseNameIn : (command : List Byte) → (i : ℕ) → (fname : ℕ → Byte) → Option (ℕ → Byte)
  | [], _, fname => some fname
  | c :: cs, i, fname =>
    if c = 32 ∨ c = 10 then store fnameSize fname i 0
    else (store fnameSize fname i c).bind (parseNameIn cs (i + 1))

/-- `commandName` within `fname`. -/
def commandNameIn (command : CString) : Option (ℕ → Byte) :=
  if command.mem 0 ≠ 32 ∧ command.mem 0 ≠ 10 ∧ command.mem 0 ≠ 0 then
    parseNameIn command.chars 0 fun _ => 0
  else some fun _ => 0

theorem firstWord_cons (c : Byte) (cs : List Byte) :
    firstWord (c :: cs) = if c = 32 ∨ c = 10 then [] else c :: firstWord cs := by
  rw [firstWord, List.takeWhile_cons]
  split_ifs with h₁ h₂ h₂
  · simp only [decide_eq_true_eq] at h₁
    tauto
  · rfl
  · rfl
  · simp only [decide_eq_true_eq] at h₁
    tauto

/-- The parse stores the first word, and a NUL if something follows it. -/
theorem parseName_eq (cs : List Byte) (w : List Byte) :
    Kernel.parseName cs w.length (fill (fun _ => 0) w) =
      fill (fun _ => 0) (w ++ firstWord cs) := by
  induction cs generalizing w with
  | nil => rw [Kernel.parseName, firstWord, List.takeWhile_nil, List.append_nil]
  | cons c cs ih =>
    rw [Kernel.parseName, firstWord_cons]
    split_ifs with h
    · rw [List.append_nil]
      funext i
      rcases eq_or_ne i w.length with rfl | hne
      · rw [Function.update_self, fill_of_le (Nat.le_refl _)]
      · rw [Function.update_of_ne hne]
    · have hlen : w.length + 1 = (w ++ [c]).length := by simp
      rw [update_fill, hlen, ih, List.append_assoc, List.singleton_append]

/-- It stays within `fname` exactly if the word fits with the NUL that is stored behind it, if
one is. -/
theorem parseNameIn_eq (cs : List Byte) {i : ℕ} (hi : i ≤ fnameSize) (fname : ℕ → Byte) :
    parseNameIn cs i fname =
      if i + (firstWord cs).length < fnameSize ∨ firstWord cs = cs ∧ i + cs.length = fnameSize then
        some (Kernel.parseName cs i fname)
      else none := by
  induction cs generalizing i fname with
  | nil =>
    rw [parseNameIn, Kernel.parseName, if_pos]
    exact (Nat.lt_or_eq_of_le hi).imp_right fun h => ⟨rfl, h⟩
  | cons c cs ih =>
    rw [parseNameIn, Kernel.parseName, firstWord_cons]
    by_cases hc : c = 32 ∨ c = 10
    · simp [hc, store]
    · simp only [if_neg hc, store, List.length_cons, List.cons.injEq, true_and]
      rcases Nat.lt_or_eq_of_le hi with hlt | rfl
      · rw [if_pos hlt, Option.bind_some, ih (Nat.succ_le_of_lt hlt)]
        refine if_congr (or_congr ?_ (and_congr_right fun _ => ?_)) rfl rfl
        · omega
        · omega
      · rw [if_neg (Nat.lt_irrefl _), Option.bind_none, if_neg]
        rintro (h | ⟨-, h⟩) <;> omega

theorem firstWord_eq_nil {command : CString}
    (h : ¬(command.mem 0 ≠ 32 ∧ command.mem 0 ≠ 10 ∧ command.mem 0 ≠ 0)) :
    firstWord command.chars = [] := by
  by_cases h0 : command.mem 0 = 0
  · rw [command.mem_eq_zero_iff, Nat.le_zero, List.length_eq_zero_iff] at h0
    rw [h0]
    rfl
  · have hcons := command.drop_eq_cons h0
    rw [List.drop_zero] at hcons
    rw [hcons, firstWord_cons, if_pos]
    tauto

/-- The stores of `execute` that its model stops at are those outside of `fname`. -/
theorem isSome_commandNameIn_iff (command : CString) :
    (commandNameIn command).isSome ↔ nameStores command.chars ≤ fnameSize := by
  have hle : (firstWord command.chars).length ≤ command.chars.length :=
    (List.takeWhile_sublist _).length_le
  unfold commandNameIn
  split_ifs with h
  · have hself : firstWord command.chars = command.chars ↔
        (firstWord command.chars).length = command.chars.length :=
      ⟨congrArg _, (List.takeWhile_prefix _).eq_of_length⟩
    rw [parseNameIn_eq _ (Nat.zero_le _), Option.isSome_ite, hself, nameStores]
    omega
  · refine iff_of_true rfl (nameStores_le ?_)
    rw [firstWord_eq_nil h]
    decide

/-- `fname` holds the first word of the command. -/
theorem commandName_eq (command : CString) :
    Kernel.commandName command = fill (fun _ => 0) (firstWord command.chars) := by
  unfold Kernel.commandName
  split_ifs with h
  · exact parseName_eq command.chars []
  · rw [firstWord_eq_nil h]
    rfl

theorem zero_not_mem_firstWord (command : CString) : 0 ∉ firstWord command.chars :=
  fun h => command.nul ((List.takeWhile_sublist _).subset h)

/-- The parse of a command stays within `fname` and leaves it terminated. -/
def NameKept (command : CString) : Prop :=
  commandNameIn command = some (Kernel.commandName command) ∧
    (strlen fnameSize (Kernel.commandName command)).isSome

/-- It does exactly for first words of 127 characters at most. -/
theorem nameKept_iff (command : CString) :
    NameKept command ↔ (firstWord command.chars).length ≤ 127 := by
  have hstr : (strlen fnameSize (Kernel.commandName command)).isSome ↔
      (firstWord command.chars).length < fnameSize := by
    rw [commandName_eq, (holds_fill (fun _ _ => rfl) _).isSome_strlen_iff
      (zero_not_mem_firstWord command)]
  have hsize : fnameSize = 128 := rfl
  rw [NameKept, hstr, and_iff_right_of_imp]
  · omega
  · intro hlt
    unfold commandNameIn Kernel.commandName
    split_ifs
    · rw [parseNameIn_eq _ (Nat.zero_le _), if_pos (Or.inl (by rwa [Nat.zero_add]))]
    · rfl

/-! ## `getargs` -/

/-- The first loop of `getargs`, which clears `arg_retrieved`. -/
def clearArgs (arg : ℕ → Byte) (i : ℕ) : Byte :=
  if i < Kernel.usrBufSize then 0 else arg i

/-- The loop that finds the space before the arguments, from index `i` on with `n` characters
left : the index behind it. -/
def skipWord (userBuf : ℕ → Byte) : (n i : ℕ) → Option ℕ
  | 0, i => some i
  | n + 1, i =>
    (load Kernel.usrBufSize userBuf i).bind fun c =>
      if c = 32 then
        (load Kernel.usrBufSize userBuf (i + 1)).bind fun d =>
          if d ≠ 32 then some (i + 1) else skipWord userBuf n (i + 1)
      else skipWord userBuf n (i + 1)

/-- The loop that copies the arguments from index `i` on to `arg_retrieved`, with `n` rounds
left. -/
def parseArgs (userBuf : ℕ → Byte) : (n i j : ℕ) → (arg : ℕ → Byte) → Option (ℕ → Byte)
  | 0, _, _, arg => some arg
  | n + 1, i, j, arg =>
    (load Kernel.usrBufSize userBuf i).bind fun c =>
      if c = 0 then some arg
      else (store Kernel.usrBufSize arg j c).bind (parseArgs userBuf n (i + 1) (j + 1))

/-- `getargs` up to the end of its parse : `user_buf`, and `arg_retrieved` unless it returns -1
before. -/
def parsePhase (buf : Word) (nbytes : ℤ) (userBuf arg : ℕ → Byte) :
    Option ((ℕ → Byte) × Option (ℕ → Byte)) :=
  (strlen Kernel.usrBufSize userBuf).bind fun size =>
    (store Kernel.usrBufSize userBuf size 0).bind fun userBuf =>
      if buf = 0 ∨ nbytes = 0 then some (userBuf, none)
      else (skipWord userBuf size 0).bind fun i =>
        (parseArgs userBuf size i 0 arg).map fun arg => (userBuf, some arg)

/-- `strncpy` from `arg_retrieved`, from index `i` on with `n` bytes left to store : what it
stores. -/
def strncpyArgs (arg : ℕ → Byte) : (n i : ℕ) → Option (List Byte)
  | 0, i => (load Kernel.usrBufSize arg i).map fun _ => []
  | n + 1, i =>
    (load Kernel.usrBufSize arg i).bind fun c =>
      if c = 0 then some (List.replicate (n + 1) 0)
      else (strncpyArgs arg n (i + 1)).map fun cs => c :: cs

/-- `getargs` from its last check on : its return value and the bytes it stores. -/
def copyPhase (nbytes : ℤ) (arg : ℕ → Byte) : Option (ℤ × List Byte) :=
  if arg 0 = 0 then some (-1, [])
  else (strncpyArgs arg (toWord nbytes).toNat 0).map fun stored => (0, stored)

/-! ## What it does -/

/-- The arguments of a command : what follows its first space that is not followed by another. -/
def argsOf : List Byte → List Byte
  | [] => []
  | c :: cs => if c = 32 ∧ cs.head? ≠ some 32 then cs else argsOf cs

/-- What `getargs` returns and stores for arguments. -/
def argsResult (nbytes : ℤ) (args : List Byte) : ℤ × List Byte :=
  if args = [] then (-1, [])
  else (0, (List.range (toWord nbytes).toNat).map fun i => args.getD i 0)

theorem argsOf_suffix : ∀ l : List Byte, argsOf l <:+ l
  | [] => List.suffix_refl _
  | c :: cs => by
    rw [argsOf]
    split_ifs
    · exact List.suffix_cons c cs
    · exact (argsOf_suffix cs).trans (List.suffix_cons c cs)

section Phases

variable {userBuf arg : ℕ → Byte} {len : ℕ}

/-- The loop finds the arguments. -/
theorem skipWord_eq (h : strlen Kernel.usrBufSize userBuf = some len) {n i : ℕ} (hi : i + n = len) :
    skipWord userBuf n i = some (len - (argsOf ((string userBuf len).drop i)).length) := by
  obtain ⟨hlt, hzero, -⟩ := strlen_eq_some_iff.1 h
  induction n generalizing i with
  | zero =>
    rw [Nat.add_zero] at hi
    rw [skipWord, hi, drop_string_self, argsOf, List.length_nil, Nat.sub_zero]
  | succ n ih =>
    have hhead : ((string userBuf len).drop (i + 1)).head? ≠ some 32 ↔ userBuf (i + 1) ≠ 32 := by
      rcases Nat.eq_or_lt_of_le (by omega : i + 1 ≤ len) with heq | hlt'
      · rw [heq, drop_string_self, hzero]
        exact iff_of_true (by simp) (by decide)
      · rw [drop_string _ hlt']
        simp
    rw [skipWord, load_of_lt (by omega), Option.bind_some, load_of_lt (by omega), Option.bind_some,
      drop_string _ (by omega : i < len), argsOf]
    by_cases hc : userBuf i = 32
    · by_cases hd : userBuf (i + 1) = 32
      · rw [if_pos hc, if_neg (not_not.2 hd), if_neg fun h => hhead.1 h.2 hd, ih (by omega)]
      · rw [if_pos hc, if_pos hd, if_pos ⟨hc, hhead.2 hd⟩, List.length_drop, length_string]
        exact congrArg some (by omega)
    · rw [if_neg hc, if_neg fun h => hc h.1, ih (by omega)]

/-- The loop stores the rest of the string. -/
theorem parseArgs_eq (h : strlen Kernel.usrBufSize userBuf = some len) {n i : ℕ} (w : List Byte)
    (hi : i ≤ len) (hn : len - i ≤ n) (hw : w.length ≤ i) :
    parseArgs userBuf n i w.length (fill arg w) =
      some (fill arg (w ++ (string userBuf len).drop i)) := by
  obtain ⟨hlt, hzero, hne⟩ := strlen_eq_some_iff.1 h
  induction n generalizing i w with
  | zero =>
    obtain rfl : i = len := by omega
    rw [parseArgs, drop_string_self, List.append_nil]
  | succ n ih =>
    rw [parseArgs, load_of_lt (by omega), Option.bind_some]
    rcases Nat.eq_or_lt_of_le hi with rfl | hlt'
    · rw [if_pos hzero, drop_string_self, List.append_nil]
    · have hlen : w.length + 1 = (w ++ [userBuf i]).length := by simp
      rw [if_neg (hne i hlt'), store_of_lt (by omega), Option.bind_some, update_fill, hlen,
        ih _ (by omega) (by omega) (by simp; omega), drop_string _ hlt', List.append_assoc,
        List.singleton_append]

/-- Where `user_buf` is terminated the parse stores the caller's arguments over what
`arg_retrieved` holds. -/
theorem parsePhase_eq (h : strlen Kernel.usrBufSize userBuf = some len) (buf : Word) (nbytes : ℤ) :
    parsePhase buf nbytes userBuf arg =
      some (userBuf, if buf = 0 ∨ nbytes = 0 then none
        else some (fill arg (argsOf (string userBuf len)))) := by
  obtain ⟨hlt, hzero, -⟩ := strlen_eq_some_iff.1 h
  have hsuffix := argsOf_suffix (string userBuf len)
  have hle := hsuffix.length_le
  have hstore : Function.update userBuf len 0 = userBuf := by
    rw [← hzero, Function.update_eq_self]
  rw [length_string] at hle
  rw [parsePhase, h, Option.bind_some, store_of_lt hlt, Option.bind_some, hstore]
  split_ifs
  · rfl
  · have hskip := skipWord_eq h (Nat.zero_add len)
    have hcopy := @parseArgs_eq userBuf arg len h len
      (len - (argsOf (string userBuf len)).length) [] (by omega) (by omega) (Nat.zero_le _)
    have hdrop := List.suffix_iff_eq_drop.1 hsuffix
    rw [length_string] at hdrop
    rw [List.drop_zero] at hskip
    rw [List.nil_append, ← hdrop, List.length_nil, fill_nil] at hcopy
    rw [hskip, Option.bind_some, hcopy, Option.map_some]

/-- Where it is not, `strlen` runs out of it. -/
theorem isSome_parsePhase_iff (buf : Word) (nbytes : ℤ) :
    (parsePhase buf nbytes userBuf arg).isSome ↔ (strlen Kernel.usrBufSize userBuf).isSome := by
  cases h : strlen Kernel.usrBufSize userBuf with
  | none => simp [parsePhase, h]
  | some len => simp [parsePhase_eq h]

/-- `strncpy` stores the string and pads it with zeros. -/
theorem strncpyArgs_eq (h : strlen Kernel.usrBufSize arg = some len) {n i : ℕ} (hi : i ≤ len) :
    strncpyArgs arg n i = some ((List.range' i n).map fun j => (string arg len).getD j 0) := by
  obtain ⟨hlt, hzero, hne⟩ := strlen_eq_some_iff.1 h
  induction n generalizing i with
  | zero =>
    rw [strncpyArgs, load_of_lt (by omega)]
    rfl
  | succ n ih =>
    rw [strncpyArgs, load_of_lt (by omega), Option.bind_some]
    rcases Nat.eq_or_lt_of_le hi with rfl | hlt'
    · have hpad : (List.range' i (n + 1)).map (fun j => (string arg i).getD j 0) =
          List.replicate (n + 1) 0 := by
        refine List.eq_replicate_iff.2 ⟨by simp, fun b hb => ?_⟩
        obtain ⟨j, hj, rfl⟩ := List.mem_map.1 hb
        rw [List.mem_range'_1] at hj
        exact List.getD_eq_default _ _ (by rw [length_string]; omega)
      rw [if_pos hzero, hpad]
    · have hget : (string arg len).getD i 0 = arg i := by
        rw [List.getD_eq_getElem _ _ (by rwa [length_string])]
        simp [string]
      rw [if_neg (hne i hlt'), ih (by omega), Option.map_some, List.range'_succ, List.map_cons,
        hget]

/-- Where `arg_retrieved` is terminated the copy delivers what it holds. -/
theorem copyPhase_eq (h : strlen Kernel.usrBufSize arg = some len) (nbytes : ℤ) :
    copyPhase nbytes arg = some (argsResult nbytes (string arg len)) := by
  obtain ⟨-, hzero, hne⟩ := strlen_eq_some_iff.1 h
  rw [copyPhase, argsResult]
  rcases Nat.eq_zero_or_pos len with rfl | hpos
  · rw [if_pos hzero]
    rfl
  · have hnil : string arg len ≠ [] := by
      rw [← List.length_pos_iff, length_string]
      exact hpos
    rw [if_neg (hne 0 hpos), if_neg hnil, strncpyArgs_eq h (Nat.zero_le _), Option.map_some,
      List.range_eq_range']

end Phases

end MpOS
