import MpOS.CommandBuffers

/-!
# Calls of `getargs` that interleave

`arg_retrieved` is one buffer for all terminals, and `context_switch` can come between the
phases of a call. A process gets its own arguments in every run in which, whenever it
copies, no other process has parsed since `arg_retrieved` was last cleared, and
it has itself unless it has no arguments. Then it gets the same whatever the commands of
the other processes are (`noninterference`).
-/

namespace MpOS

open Transition ZeroBuffer

namespace Kernel

/-- The kernel with other contents of the `user_buf`s. -/
def withUserBufs (k : Kernel) (u : Word → ℕ → Byte) : Kernel :=
  { k with proc := { k.proc with pcb := fun p => { k.proc.pcb p with userBuf := u p } } }

variable (k : Kernel) (u : Word → ℕ → Byte)

/-- The argument buffers are no part of a context. -/
theorem sameContext_withUserBufs : k.SameContext (k.withUserBufs u) :=
  ⟨rfl, rfl, rfl, rfl, rfl, fun _ => rfl⟩

/-- Nor does the map of the screen buffers depend on them. -/
theorem mapScreenBuffer_withUserBufs (idx : Word) :
    (k.withUserBufs u).mapScreenBuffer idx = (k.mapScreenBuffer idx).withUserBufs u := by
  unfold mapScreenBuffer
  split_ifs <;> rfl

/-- The scheduler does not look at them. -/
theorem contextSwitch_withUserBufs (frame : SwitchFrame) :
    (k.withUserBufs u).contextSwitch frame = (k.contextSwitch frame).withUserBufs u := by
  unfold contextSwitch
  extract_lets next k₁ p₁ k₂ pid k₃ k₄ k₅ next' k₁' p₁' k₂' pid' k₃' k₄' k₅'
  have h₂ : k₂ = k₂'.withUserBufs u := rfl
  have h₃ : k₃ = k₃'.withUserBufs u := by
    simp only [k₃, k₃', h₂, mapScreenBuffer_withUserBufs]
    split_ifs <;> first | rfl | contradiction
  have h₄ : k₄ = k₄'.withUserBufs u := by
    simp only [k₄, h₃]
    rfl
  have h₅ : k₅ = k₅'.withUserBufs u := by
    have hvid : (if pid = noPid then frame.stackWord else (k₄.proc.pcb pid).vidSet) =
        if pid' = noPid then frame.stackWord else (k₄'.proc.pcb pid').vidSet := by
      rw [h₄]
      rfl
    by_cases hset : (if pid' = noPid then frame.stackWord else (k₄'.proc.pcb pid').vidSet) ≠ 0
    · have hk : k₅ = k₄.setPteVid 0 k₄.vidEntry := if_pos (hvid ▸ hset)
      have hk' : k₅' = k₄'.setPteVid 0 k₄'.vidEntry := if_pos hset
      rw [hk, hk', h₄]
      rfl
    · have hk : k₅ = k₄.setPteVid 0 0 := if_neg (hvid ▸ hset)
      have hk' : k₅' = k₄'.setPteVid 0 0 := if_neg hset
      rw [hk, hk', h₄]
      rfl
  rw [h₅]
  clear_value k₅'
  by_cases hcur : k₅'.cur.curPid ≠ noPid
  · have hcur' : (k₅'.withUserBufs u).cur.curPid ≠ noPid := hcur
    rw [if_pos hcur, if_pos hcur']
    rfl
  · have hcur' : ¬(k₅'.withUserBufs u).cur.curPid ≠ noPid := hcur
    rw [if_neg hcur, if_neg hcur']

/-- The handler never looks at the arguments it switches between. -/
theorem interruptPit_withUserBufs (frame : SwitchFrame) :
    (k.withUserBufs u).interruptPit frame = (k.interruptPit frame).withUserBufs u := by
  have hflag : ∀ k₁ : Kernel,
      (k₁.withUserBufs u).setInterruptFlag ((k₁.withUserBufs u).cur.curPid ≠ noPid) =
        (k₁.setInterruptFlag (k₁.cur.curPid ≠ noPid)).withUserBufs u := fun _ => rfl
  rw [interruptPit, contextSwitch_withUserBufs]
  exact hflag _

end Kernel

/-- The arguments in a `user_buf`. -/
def bufArgs (userBuf : ℕ → Byte) : List Byte :=
  argsOf ((strlen Kernel.usrBufSize userBuf).elim [] (string userBuf))

/-- `parse_args` reads a terminated buffer as the string it holds. -/
theorem bufArgs_eq {userBuf : ℕ → Byte} {len : ℕ}
    (h : strlen Kernel.usrBufSize userBuf = some len) :
    bufArgs userBuf = argsOf (string userBuf len) := by
  rw [bufArgs, h, Option.elim_some]

/-- They are a string that fits `arg_retrieved`. -/
theorem bufArgs_fits (userBuf : ℕ → Byte) :
    (bufArgs userBuf).length < Kernel.usrBufSize ∧ 0 ∉ bufArgs userBuf := by
  cases h : strlen Kernel.usrBufSize userBuf with
  | none =>
    have hnil : bufArgs userBuf = [] := by
      rw [bufArgs, h]
      rfl
    rw [hnil]
    exact ⟨by decide, List.not_mem_nil⟩
  | some len =>
    obtain ⟨hlt, -, hne⟩ := strlen_eq_some_iff.1 h
    have hsuffix := argsOf_suffix (string userBuf len)
    have hle := hsuffix.length_le
    rw [length_string] at hle
    rw [bufArgs_eq h]
    refine ⟨Nat.lt_of_le_of_lt hle hlt, fun h0 => ?_⟩
    obtain ⟨j, hj, hz⟩ := List.mem_map.1 (hsuffix.subset h0)
    exact hne j (List.mem_range.1 hj) hz

/-- Where `arg_retrieved` holds them the copy delivers them. -/
theorem copyPhase_of_holds {userBuf arg : ℕ → Byte}
    (h : Holds arg Kernel.usrBufSize (bufArgs userBuf)) (nbytes : ℤ) :
    copyPhase nbytes arg = some (argsResult nbytes (bufArgs userBuf)) := by
  obtain ⟨hfits, hzero⟩ := bufArgs_fits userBuf
  rw [copyPhase_eq ((h.strlen_eq_some_iff hzero).2 ⟨hfits, rfl⟩), string, h.map_range hfits.le]

/-- A command that fits `user_buf` leaves its arguments there. -/
theorem bufArgs_strncpy (dest : ℕ → Byte) {command : CString} (h : command.strlen ≤ 1023) :
    bufArgs (Kernel.strncpy dest command Kernel.usrBufSize) = argsOf command.chars := by
  have hsize : Kernel.usrBufSize = 1024 := rfl
  have hholds : Holds (Kernel.strncpy dest command Kernel.usrBufSize) Kernel.usrBufSize
      command.chars := fun i hi => if_pos hi
  have hlen : command.chars.length < Kernel.usrBufSize := by
    rw [CString.strlen] at h
    omega
  rw [bufArgs_eq ((hholds.strlen_eq_some_iff command.nul).2 ⟨hlen, rfl⟩), string,
    hholds.map_range hlen.le]

/-- A process holds the arguments of the command that started it. -/
theorem Kernel.Starts.bufArgs_eq {k k' : Kernel} {frame : ExecFrame} {command : CString}
    {pid : Word} (hs : k.Starts frame command pid k') (h : command.strlen ≤ 1023) :
    bufArgs (k'.proc.pcb pid).userBuf = argsOf command.chars := by
  rw [hs.pcb_self]
  exact bufArgs_strncpy _ h

/-! ## What a call should deliver -/

/-- What the next phase of a call delivers if it finds the process's own arguments. -/
def Pending.delivers : Pending → List Byte → List (ℤ × List Byte)
  | .idle, _ => []
  | .cleared buf nbytes, _ => if buf = 0 ∨ nbytes = 0 then [(-1, [])] else []
  | .parsed nbytes, args => [argsResult nbytes args]

/-- A call whose next phase is the copy. -/
def Pending.isParsed : Pending → Bool
  | .parsed _ => true
  | _ => false

/-- The events of an interleaving of calls. -/
def ArgEvent.isCall : ArgEvent → Bool
  | .sys (.contextSwitch _) => true
  | .sys _ => false
  | .getargs _ _ => true
  | .advance => true

namespace ArgMachine

/-- The machine with other contents of the `user_buf`s. -/
def withUserBufs (s : ArgMachine) (u : Word → ℕ → Byte) : ArgMachine :=
  { s with machine := s.machine.withKernel (s.machine.kernel.withUserBufs u) }

variable (img : Image) (p : Word) (s : ArgMachine)

/-- The arguments of a process. -/
def ownArgs : List Byte :=
  bufArgs (s.machine.kernel.proc.pcb p).userBuf

/-- What an event delivers to a process : the return value of its call and the bytes stored. -/
def delivered : ArgEvent → List (ℤ × List Byte)
  | .advance => if s.machine.running = some p then (s.advance.bind Prod.fst).toList else []
  | _ => []

/-- What it should deliver. -/
def ownDelivered : ArgEvent → List (ℤ × List Byte)
  | .advance => if s.machine.running = some p then (s.pending p).delivers (s.ownArgs p) else []
  | _ => []

/-- Record the processes that have parsed since `arg_retrieved` was last cleared. -/
def recordParse (e : ArgEvent) (parsers : List Word) : List Word :=
  match e with
  | .sys _ => parsers
  | .getargs _ _ => []
  | .advance =>
    match s.phase with
    | .cleared buf nbytes =>
      if buf = 0 ∨ nbytes = 0 then parsers else s.machine.running.toList ++ parsers
    | _ => parsers

/-- A copy by the process finds what the process parsed : since the last clear no other process
has parsed, and the process itself has unless it has no arguments. -/
def Undisturbed (x : ArgMachine × List Word) : ArgEvent → Prop
  | .advance => x.1.machine.running = some p → (x.1.pending p).isParsed →
    (∀ q ∈ x.2, q = p) ∧ (p ∈ x.2 ∨ x.1.ownArgs p = [])
  | _ => True

instance (x : ArgMachine × List Word) : ∀ e, Decidable (Undisturbed p x e)
  | .advance =>
    have : Decidable (∀ q ∈ x.2, q = p) := List.decidableBAll _ _
    inferInstanceAs (Decidable (_ → _ → _))
  | .sys _ => isTrue trivial
  | .getargs _ _ => isTrue trivial

/-! ## One run -/

/-- `arg_retrieved` holds the process's arguments if it alone has parsed since the last
clear. -/
structure Owns (x : ArgMachine × List Word) : Prop where
  terminated : x.1.Terminated
  holds : (x.1.pending = fun _ => .idle) ∨ ((∀ q ∈ x.2, q = p) →
    Holds x.1.argRetrieved Kernel.usrBufSize (if x.2 = [] then [] else x.1.ownArgs p))

variable {img p s}

/-- The phase of the running process. -/
theorem phase_eq (h : s.machine.running = some p) : s.phase = s.pending p := by
  rw [phase, h]

/-- A call moves its caller's phase only. -/
theorem setPhase_pending (h : s.machine.running = some p) (next : Pending) :
    (s.setPhase next).pending = Function.update s.pending p next := by
  simp only [setPhase, h]

/-- The parse of a terminated buffer gives the arguments of its string. -/
theorem ownArgs_eq (h : s.Terminated) (hp : s.machine.running = some p) {len : ℕ}
    (hlen : strlen Kernel.usrBufSize s.userBuf = some len) :
    argsOf (string s.userBuf len) = s.ownArgs p := by
  rw [← bufArgs_eq hlen, userBuf_eq h.coherent hp, ownArgs]

/-- A call of `getargs` starts no process, so there is nothing to fit. -/
theorem commandFits_of_isCall {e : ArgEvent} (he : e.isCall) : s.CommandFits img e := by
  cases e with
  | sys e =>
    cases e with
    | contextSwitch frame => trivial
    | _ => exact absurd he Bool.false_ne_true
  | getargs buf nbytes => trivial
  | advance => trivial

/-- A switch runs the handler and leaves phases and buffers alone. -/
theorem step_contextSwitch (frame : Kernel.SwitchFrame) :
    s.step img (.sys (.contextSwitch frame)) =
      some { s with machine := s.machine.withKernel (s.machine.kernel.interruptPit frame) } := by
  simp only [step]
  rw [if_neg fun h => h.2 rfl]
  rfl

/-- A phase of a call keeps the invariant. -/
theorem Owns.advance {x : ArgMachine × List Word} (h : Owns p x) {q : Word}
    (hq : x.1.machine.running = some q) {r : Option (ℤ × List Byte) × ArgMachine}
    (hr : x.1.advance = some r) : Owns p (r.2, recordParse x.1 .advance x.2) := by
  obtain ⟨s, parsers⟩ := x
  have hbusy : s.pending ≠ fun _ => .idle := by
    intro hidle
    have hphase : s.phase = .idle := by rw [phase_eq hq, hidle]
    simp [ArgMachine.advance, hphase] at hr
  have hholds := h.holds.resolve_left hbusy
  refine ⟨h.terminated.advance hr, Or.inr fun hall => ?_⟩
  cases hphase : s.phase with
  | idle => simp [ArgMachine.advance, hphase] at hr
  | cleared buf nbytes =>
    obtain ⟨len, hlen, heq⟩ := h.terminated.advance_cleared hphase
    obtain rfl := Option.some.inj (heq.symm.trans hr)
    by_cases hbuf : buf = 0 ∨ nbytes = 0
    · simp only [recordParse, hphase, if_pos hbuf] at hall ⊢
      simpa [ownArgs] using hholds hall
    · simp only [recordParse, hphase, if_neg hbuf, hq, Option.toList_some] at hall ⊢
      -- the process that parses is `p`
      obtain ⟨rfl, hparsers⟩ := List.forall_mem_cons.1 hall
      have hle : (if parsers = [] then [] else s.ownArgs q).length ≤ (s.ownArgs q).length := by
        split_ifs
        · exact Nat.zero_le _
        · exact Nat.le_refl _
      have hfill := Holds.fill (hholds hparsers) hle
      rw [← ownArgs_eq h.terminated hq hlen] at hfill
      simpa [ownArgs, ArgMachine.setArgs, ownArgs_eq h.terminated hq hlen] using hfill
  | parsed nbytes =>
    obtain ⟨len, -, heq⟩ := h.terminated.advance_parsed hphase
    obtain rfl := Option.some.inj (heq.symm.trans hr)
    simp only [recordParse, hphase] at hall ⊢
    simpa [ownArgs] using hholds hall

/-- Every step of an interleaving keeps the invariant. -/
theorem owns_step {x x' : ArgMachine × List Word} (h : Owns p x) {e : ArgEvent} (he : e.isCall)
    (hstep : track (step img) recordParse x e = some x') : Owns p x' := by
  obtain ⟨s, parsers⟩ := x
  obtain ⟨s', parsers'⟩ := x'
  obtain ⟨hs, hparsers⟩ := track_eq_some_iff.1 hstep
  simp only at hs hparsers
  subst hparsers
  cases e with
  | sys e =>
    cases e with
    | contextSwitch frame =>
      have hterm := terminated_step h.terminated (commandFits_of_isCall he) hs
      obtain rfl := Option.some.inj ((step_contextSwitch frame).symm.trans hs)
      refine ⟨hterm, ?_⟩
      simpa [ownArgs, recordParse, Machine.withKernel, Kernel.interruptPit_pcb] using h.holds
    | _ => exact absurd he Bool.false_ne_true
  | getargs buf nbytes =>
    refine ⟨terminated_step h.terminated (commandFits_of_isCall he) hs, Or.inr fun _ => ?_⟩
    simp only [step] at hs
    split_ifs at hs
    obtain rfl := Option.some.inj hs
    refine holds_nil fun i hi => ?_
    rw [setPhase_argRetrieved]
    exact if_pos hi
  | advance =>
    obtain ⟨r, hr, rfl⟩ := Option.map_eq_some_iff.1 hs
    have hbusy : s.phase ≠ .idle := by
      intro hidle
      simp [ArgMachine.advance, hidle] at hr
    obtain ⟨q, hq⟩ := exists_running hbusy
    exact h.advance hq hr

/-- An event that finds `arg_retrieved` undisturbed delivers what it should. -/
theorem Owns.delivered_eq {x : ArgMachine × List Word} (h : Owns p x) {e : ArgEvent}
    (hu : Undisturbed p x e) : x.1.delivered p e = x.1.ownDelivered p e := by
  obtain ⟨s, parsers⟩ := x
  cases e with
  | sys e => rfl
  | getargs buf nbytes => rfl
  | advance =>
    simp only [delivered, ownDelivered]
    by_cases hrun : s.machine.running = some p
    swap
    · rw [if_neg hrun, if_neg hrun]
    rw [if_pos hrun, if_pos hrun]
    have hphase := phase_eq hrun
    cases hp : s.pending p with
    | idle =>
      rw [hp] at hphase
      simp [ArgMachine.advance, hphase, Pending.delivers]
    | cleared buf nbytes =>
      rw [hp] at hphase
      obtain ⟨len, -, heq⟩ := h.terminated.advance_cleared hphase
      rw [heq, Pending.delivers]
      split_ifs
      · rfl
      · rfl
    | parsed nbytes =>
      rw [hp] at hphase
      have hparsed : (s.pending p).isParsed := by
        rw [hp]
        rfl
      obtain ⟨hall, hown⟩ := hu hrun hparsed
      have hbusy : s.pending ≠ fun _ => .idle := by
        intro hidle
        rw [hidle] at hp
        exact Pending.noConfusion hp
      have hholds : Holds s.argRetrieved Kernel.usrBufSize (s.ownArgs p) := by
        have h' := h.holds.resolve_left hbusy hall
        simp only at h'
        split_ifs at h' with hnil
        · rw [hnil] at hown
          rwa [hown.resolve_left List.not_mem_nil]
        · exact h'
      have hcopy : copyPhase nbytes s.argRetrieved = some (argsResult nbytes (s.ownArgs p)) :=
        copyPhase_of_holds hholds nbytes
      simp only [ArgMachine.advance, hphase, hcopy, Pending.delivers]
      rfl

/-! ## Two runs -/

/-- Two states that differ only in `arg_retrieved` and in the commands of other processes. -/
structure Alike (p : Word) (u : Word → ℕ → Byte) (s t : ArgMachine) : Prop where
  machine : t.machine = s.machine.withKernel (s.machine.kernel.withUserBufs u)
  pending : t.pending = s.pending
  own : u p = (s.machine.kernel.proc.pcb p).userBuf

namespace Alike

variable {u : Word → ℕ → Byte} {t : ArgMachine}

/-- Machines alike to a process run the same process. -/
theorem running (h : Alike p u s t) : t.machine.running = s.machine.running := by
  rw [h.machine]
  rfl

/-- The same call is under way in both. -/
theorem phase (h : Alike p u s t) : t.phase = s.phase := by
  rw [ArgMachine.phase, ArgMachine.phase, h.running, h.pending]

/-- The process's own arguments are the same in both. -/
theorem ownArgs (h : Alike p u s t) : t.ownArgs p = s.ownArgs p := by
  rw [ArgMachine.ownArgs, ArgMachine.ownArgs, h.machine, ← h.own]
  rfl

/-- The shared buffer may differ, it is what the two disagree on. -/
theorem setArgs (h : Alike p u s t) (a b : ℕ → Byte) : Alike p u (s.setArgs a) (t.setArgs b) :=
  ⟨h.machine, h.pending, h.own⟩

/-- The phase moves in both at once. -/
theorem setPhase (h : Alike p u s t) (next : Pending) :
    Alike p u (s.setPhase next) (t.setPhase next) := by
  refine ⟨?_, ?_, ?_⟩
  · rw [setPhase_machine, setPhase_machine, h.machine]
  · cases hr : s.machine.running with
    | none => simp only [ArgMachine.setPhase, h.running, hr, h.pending]
    | some q =>
      rw [setPhase_pending hr, setPhase_pending (h.running.trans hr), h.pending]
  · rw [setPhase_machine]
    exact h.own

/-- What the process's events should deliver is the same. -/
theorem ownDelivered (h : Alike p u s t) (e : ArgEvent) :
    t.ownDelivered p e = s.ownDelivered p e := by
  cases e with
  | sys e => rfl
  | getargs buf nbytes => rfl
  | advance =>
    simp only [ArgMachine.ownDelivered]
    rw [h.running, h.pending, h.ownArgs]

/-- The same parses are recorded. -/
theorem recordParse (h : Alike p u s t) (e : ArgEvent) (parsers : List Word) :
    t.recordParse e parsers = s.recordParse e parsers := by
  cases e with
  | sys e => rfl
  | getargs buf nbytes => rfl
  | advance =>
    simp only [ArgMachine.recordParse]
    rw [h.phase, h.running]

/-- What disturbs the process in one disturbs it in the other. -/
theorem undisturbed (h : Alike p u s t) {e : ArgEvent} {parsers : List Word}
    (hu : Undisturbed p (s, parsers) e) : Undisturbed p (t, parsers) e := by
  cases e with
  | sys e => trivial
  | getargs buf nbytes => trivial
  | advance =>
    intro hrun hpend
    simp only at hrun hpend
    rw [h.running] at hrun
    rw [h.pending] at hpend
    obtain ⟨hall, hown⟩ := hu hrun hpend
    exact ⟨hall, hown.imp_right fun hnil => h.ownArgs.trans hnil⟩

/-- Every step of an interleaving leaves the two states alike. -/
theorem step (h : Alike p u s t) (hs : s.Terminated) (ht : t.Terminated) {e : ArgEvent}
    (he : e.isCall) : Option.Rel (Alike p u) (s.step img e) (t.step img e) := by
  cases e with
  | sys e =>
    cases e with
    | contextSwitch frame =>
      rw [step_contextSwitch, step_contextSwitch]
      refine .some ⟨?_, h.pending, ?_⟩
      · rw [h.machine]
        simp only [Machine.withKernel, Kernel.interruptPit_withUserBufs]
      · simp only [Machine.withKernel, Kernel.interruptPit_pcb]
        exact h.own
    | _ => exact absurd he Bool.false_ne_true
  | getargs buf nbytes =>
    simp only [ArgMachine.step, h.running, h.phase]
    split_ifs
    · exact .none
    · exact .some ((h.setArgs _ _).setPhase _)
  | advance =>
    simp only [ArgMachine.step]
    cases hphase : s.phase with
    | idle =>
      have hphase' := h.phase.trans hphase
      simp only [ArgMachine.advance, hphase, hphase', Option.map_none]
      exact .none
    | cleared buf nbytes =>
      obtain ⟨len, -, heq⟩ := hs.advance_cleared hphase
      obtain ⟨len', -, heq'⟩ := ht.advance_cleared (h.phase.trans hphase)
      rw [heq, heq', Option.map_some, Option.map_some]
      split_ifs
      · exact .some (h.setPhase _)
      · exact .some ((h.setArgs _ _).setPhase _)
    | parsed nbytes =>
      obtain ⟨len, -, heq⟩ := hs.advance_parsed hphase
      obtain ⟨len', -, heq'⟩ := ht.advance_parsed (h.phase.trans hphase)
      rw [heq, heq', Option.map_some, Option.map_some]
      exact .some (h.setPhase _)

end Alike

/-- The states of two runs of one interleaving, with the processes that have parsed. -/
structure Paired (p : Word) (u : Word → ℕ → Byte) (x y : ArgMachine × List Word) : Prop where
  alike : Alike p u x.1 y.1
  parsers : y.2 = x.2
  fst : Owns p x
  snd : Owns p y

namespace Paired

variable {u : Word → ℕ → Byte} {x y : ArgMachine × List Word}

theorem step (h : Paired p u x y) {e : ArgEvent} (he : e.isCall) :
    Option.Rel (Paired p u) (track (step img) recordParse x e)
      (track (step img) recordParse y e) := by
  have hrel := @Alike.step img p x.1 u y.1 h.alike h.fst.terminated h.snd.terminated e he
  have hx : ∀ x', track (ArgMachine.step img) ArgMachine.recordParse x e = some x' → Owns p x' :=
    fun x' => owns_step h.fst he
  have hy : ∀ y', track (ArgMachine.step img) ArgMachine.recordParse y e = some y' → Owns p y' :=
    fun y' => owns_step h.snd he
  have hparsers : y.1.recordParse e y.2 = x.1.recordParse e x.2 := by
    rw [h.alike.recordParse, h.parsers]
  unfold track at hx hy ⊢
  cases hs : x.1.step img e with
  | none =>
    cases ht : y.1.step img e with
    | none => exact .none
    | some t' =>
      rw [hs, ht] at hrel
      cases hrel
  | some s' =>
    cases ht : y.1.step img e with
    | none =>
      rw [hs, ht] at hrel
      cases hrel
    | some t' =>
      rw [hs, ht] at hrel
      cases hrel with
      | some halike =>
        exact .some ⟨halike, hparsers, hx _ (by rw [hs, Option.map_some]),
          hy _ (by rw [ht, Option.map_some])⟩

/-- The process gets the same in both. -/
theorem delivered (h : Paired p u x y) {e : ArgEvent} (hu : Undisturbed p x e) :
    x.1.delivered p e = y.1.delivered p e := by
  have hu' : Undisturbed p (y.1, y.2) e := by
    rw [h.parsers]
    exact h.alike.undisturbed hu
  rw [h.fst.delivered_eq hu, h.snd.delivered_eq hu', h.alike.ownDelivered]

end Paired

/-- The states at the end of the runs from boot whose reads store in their callers' own pages and
whose commands fit the buffers. -/
def Fitted (img : Image) (s : ArgMachine) : Prop :=
  ∃ s₀ es, s₀.Booted ∧ AllEvents (step img) (OwnReads img) s₀ es ∧
    AllEvents (step img) (CommandFits img) s₀ es ∧ run (step img) s₀ es = some s

theorem Fitted.terminated (h : s.Fitted img) : s.Terminated := by
  obtain ⟨s₀, es, hboot, -, hfits, hrun⟩ := h
  exact hfits.invariant (fun _ _ _ h hc hstep => terminated_step h hc hstep)
    (terminated_boot hboot) hrun

/-- Terminated buffers may be exchanged for others. -/
theorem Terminated.withUserBufs (h : s.Terminated) {u : Word → ℕ → Byte}
    (hu : ∀ q ∈ s.machine.live, (strlen Kernel.usrBufSize (u q)).isSome) :
    (s.withUserBufs u).Terminated :=
  ⟨h.coherent.stay (Kernel.sameContext_withUserBufs _ _), hu, h.args⟩

/-- From a state with no call pending, an interleaving of calls in which the copies of a process
find `arg_retrieved` undisturbed delivers the process its own arguments, and the same whatever
commands the other processes hold. -/
theorem noninterference (hs : s.Fitted img) (hidle : s.pending = fun _ => .idle)
    {u : Word → ℕ → Byte}
    (hu : ∀ q ∈ s.machine.live, (strlen Kernel.usrBufSize (u q)).isSome)
    (hown : u p = (s.machine.kernel.proc.pcb p).userBuf) {es : List ArgEvent}
    (hcalls : ∀ e ∈ es, e.isCall)
    (hc : AllEvents (track (step img) recordParse) (Undisturbed p) (s, []) es) :
    AllEvents (step img) (fun s e => s.delivered p e = s.ownDelivered p e) s es ∧
      outputs (step img) (delivered p) s es =
        outputs (step img) (delivered p) (s.withUserBufs u) es := by
  have hc' := hc.and_mem hcalls
  have howns : Owns p (s, []) := ⟨hs.terminated, Or.inl hidle⟩
  have howns' : Owns p (s.withUserBufs u, []) := ⟨hs.terminated.withUserBufs hu, Or.inl hidle⟩
  have hpaired : Paired p u (s, []) (s.withUserBufs u, []) :=
    ⟨⟨rfl, rfl, hown⟩, rfl, howns, howns'⟩
  constructor
  · exact allEvents_track.1 (hc'.imp (fun _ _ _ h hc hstep => owns_step h hc.1 hstep)
      (fun _ _ h hc => h.delivered_eq hc.2) howns)
  · rw [← outputs_track (delivered p) s [] es, ← outputs_track (delivered p) _ [] es]
    exact outputs_eq (fun _ _ _ h hc => h.step hc.1) (fun _ _ _ h hc => h.delivered hc.2)
      hpaired hc'

/-! ## Two terminals -/

/-- Steps of the machine leave a call as far as it is, or end it. -/
theorem setMachine_pending (e : Event) (m : Machine) :
    (s.setMachine e m).pending p = s.pending p ∨ (s.setMachine e m).pending p = .idle := by
  unfold setMachine
  split
  · cases hr : s.machine.running with
    | none =>
      left
      simp only [setPhase, hr]
    | some q =>
      simp only [setPhase_pending hr]
      rcases eq_or_ne p q with rfl | hne
      · exact Or.inr (Function.update_self _ _ _)
      · exact Or.inl (Function.update_of_ne hne _ _)
  · exact Or.inl rfl

/-- System events start no call of `getargs`. -/
theorem idle_sys (h : s.pending = fun _ => .idle) {e : Event} {s' : ArgMachine}
    (hstep : s.step img (.sys e) = some s') : s'.pending = fun _ => .idle := by
  obtain ⟨m, -, rfl⟩ := sys_eq_some hstep
  funext q
  rcases setMachine_pending (p := q) (s := s) e m with hq | hq
  · rw [hq, h]
  · exact hq

/-- So a run of them leaves every process idle. -/
theorem idle_run (h : s.pending = fun _ => .idle) {es : List Event} {s' : ArgMachine}
    (hrun : run (step img) s (es.map .sys) = some s') : s'.pending = fun _ => .idle := by
  induction es generalizing s with
  | nil =>
    obtain rfl := Option.some.inj hrun
    exact h
  | cons e es ih =>
    rw [List.map_cons, run_cons, Option.bind_eq_some_iff] at hrun
    obtain ⟨s₁, h₁, hrun⟩ := hrun
    exact ih (idle_sys h h₁) hrun

/-- The command `shell` with a letter for its argument. -/
def shellWith (c : Byte) (h : c ≠ 0) : CString :=
  ⟨[115, 104, 101, 108, 108, 32, c], by simp [h.symm]⟩

/-- The PIT's interrupt, with a frame at address zero. -/
def switch : Event :=
  .contextSwitch ⟨0, 0, 0⟩

/-- The shells of two terminals start process 1 with the argument `a` and process 3 with `b`. -/
def starts : List Event :=
  [.execute ⟨0, 0, fun _ => 0⟩ Kernel.shellCommand,
    .execute ⟨1, 1, fun _ => 0⟩ (shellWith 97 (by decide)), switch,
    .execute ⟨2, 2, fun _ => 0⟩ Kernel.shellCommand,
    .execute ⟨3, 3, fun _ => 0⟩ (shellWith 98 (by decide)), switch, switch]

def twoTerminals : ArgMachine :=
  (run (step Kernel.shellImage) first (starts.map .sys)).getD first

theorem run_starts :
    run (step Kernel.shellImage) first (starts.map .sys) = some twoTerminals := by
  have hsome : (run (step Kernel.shellImage) first (starts.map .sys)).isSome := by decide +kernel
  obtain ⟨s, hs⟩ := Option.isSome_iff_exists.1 hsome
  rw [twoTerminals, hs, Option.getD_some]

theorem fitted_twoTerminals : twoTerminals.Fitted Kernel.shellImage :=
  ⟨first, starts.map .sys, first_booted,
    .of_mem (by simp [starts, switch, OwnReads, Machine.OwnReads]),
    ⟨fun _ => ⟨by decide, fun _ => by decide⟩, fun _ _ =>
      ⟨fun _ => ⟨by decide, fun _ => by decide⟩, fun _ _ =>
        ⟨trivial, fun _ _ =>
          ⟨fun _ => ⟨by decide, fun _ => by decide⟩, fun _ _ =>
            ⟨fun _ => ⟨by decide, fun _ => by decide⟩, fun _ _ =>
              ⟨trivial, fun _ _ => ⟨trivial, fun _ _ => trivial⟩⟩⟩⟩⟩⟩⟩, run_starts⟩

theorem idle_twoTerminals : twoTerminals.pending = fun _ => .idle :=
  idle_run rfl run_starts

/-- The contents of the `user_buf`s with that of process 3 replaced. -/
def userBufsWith (buf : ℕ → Byte) : Word → ℕ → Byte :=
  Function.update (fun q => (twoTerminals.machine.kernel.proc.pcb q).userBuf) 3 buf

theorem isSome_userBufsWith {buf : ℕ → Byte} (h : (strlen Kernel.usrBufSize buf).isSome) :
    ∀ q ∈ twoTerminals.machine.live, (strlen Kernel.usrBufSize (userBufsWith buf q)).isSome := by
  intro q hq
  rcases eq_or_ne q 3 with rfl | hne
  · rwa [userBufsWith, Function.update_self]
  · rw [userBufsWith, Function.update_of_ne hne]
    exact fitted_twoTerminals.terminated.userBuf q hq

/-- The buffer of process 1 stays as it was. -/
theorem userBufsWith_one (buf : ℕ → Byte) :
    userBufsWith buf 1 = (twoTerminals.machine.kernel.proc.pcb 1).userBuf := by
  rw [userBufsWith, Function.update_of_ne (by decide)]

/-- Process 3 clears and parses before the call of process 1, and copies in between. -/
def undisturbedCalls : List ArgEvent :=
  [.sys switch, .getargs 0x8000000 2, .advance, .sys switch, .sys switch, .getargs 0x8000000 2,
    .advance, .sys switch, .advance, .sys switch, .sys switch, .advance]

theorem noninterference_twoTerminals :
    AllEvents (step Kernel.shellImage) (fun s e => s.delivered 1 e = s.ownDelivered 1 e)
        twoTerminals undisturbedCalls ∧
      outputs (step Kernel.shellImage) (delivered 1) twoTerminals undisturbedCalls =
        outputs (step Kernel.shellImage) (delivered 1)
          (twoTerminals.withUserBufs (userBufsWith fun _ => 0)) undisturbedCalls :=
  noninterference fitted_twoTerminals idle_twoTerminals
    (isSome_userBufsWith (isSome_strlen_iff.2 ⟨0, by decide, rfl⟩)) (userBufsWith_one _)
    (by decide) (by decide +kernel)

/-- Process 3 parses between the parse and the copy of process 1. -/
def disturbedCalls : List ArgEvent :=
  [.getargs 0x8000000 2, .advance, .sys switch, .getargs 0x8000000 2, .advance, .sys switch,
    .sys switch, .advance]

/-- Process 1 gets `b`, and `a` only if that is the argument of process 3. -/
theorem outputs_disturbedCalls :
    outputs (step Kernel.shellImage) (delivered 1) twoTerminals disturbedCalls = [(0, [98, 0])] ∧
      outputs (step Kernel.shellImage) (delivered 1)
        (twoTerminals.withUserBufs (userBufsWith (shellWith 97 (by decide)).mem))
        disturbedCalls = [(0, [97, 0])] := by
  decide +kernel

theorem not_noninterference :
    ¬∀ (img : Image) (s : ArgMachine) (p : Word) (u : Word → ℕ → Byte) (es : List ArgEvent),
      s.Fitted img → (s.pending = fun _ => .idle) →
      (∀ q ∈ s.machine.live, (strlen Kernel.usrBufSize (u q)).isSome) →
      u p = (s.machine.kernel.proc.pcb p).userBuf → (∀ e ∈ es, e.isCall) →
      AllEvents (step img) (fun s e => s.delivered p e = s.ownDelivered p e) s es ∧
        outputs (step img) (delivered p) s es =
          outputs (step img) (delivered p) (s.withUserBufs u) es := by
  intro h
  have hout := (h Kernel.shellImage twoTerminals 1
    (userBufsWith (shellWith 97 (by decide)).mem) disturbedCalls fitted_twoTerminals
    idle_twoTerminals (isSome_userBufsWith (isSome_strlen_iff.2 ⟨7, by decide, rfl⟩))
    (userBufsWith_one _) (by decide)).2
  rw [outputs_disturbedCalls.1, outputs_disturbedCalls.2] at hout
  revert hout
  decide

end ArgMachine

end MpOS
