import MpOS.DescriptorTable

/-!
# Exit status

The return value of the parent's `execute` travels through `ret_status`. `halt`
stores its argument there as an `int8_t`, so a status from 128 on arrives negative,
and 255 as the -1 that the callers of `execute` read as a missing program.
`halt_exception` jumps before its store, so after an exception the parent receives
the status of the last `halt`, whichever process that was. `reachable_retStatus`
bounds what `ret_status` can hold, which leaves `EXCEPTION_RET` out.
-/

namespace MpOS

namespace Machine

/-- The value of a byte as an `int8_t`. -/
theorem toInt8_eq (s : Byte) :
    s.toInt8.toInt = if s < 128 then (s.toNat : ℤ) else (s.toNat : ℤ) - 256 := by
  have h : s.toInt8.toInt = s.toBitVec.toInt := rfl
  have hlt := s.toNat_lt
  rw [h, BitVec.toInt_eq_toNat_cond]
  simp only [UInt8.lt_iff_toNat_lt, UInt8.toNat_toBitVec, UInt8.reduceToNat]
  split_ifs <;> omega

/-- The status is delivered as it is exactly when it is below 128. -/
theorem toInt8_eq_toNat_iff (s : Byte) : s.toInt8.toInt = s.toNat ↔ s < 128 := by
  rw [toInt8_eq]
  split_ifs with h
  · exact iff_of_true rfl h
  · refine iff_of_false (fun heq => ?_) h
    omega

/-! ## `ret_status` along a run -/

/-- `halt` is the one step that stores a status. -/
theorem step_retStatus_of_ne {img : Image} {m m' : Machine} {e : Event}
    (hstep : m.step img e = some m') (he : ∀ status, e ≠ .halt status) :
    m'.kernel.proc.retStatus = m.kernel.proc.retStatus := by
  cases step_context hstep with
  | start hs => exact hs.retStatus
  | exit hx hr hexit hm' =>
    rw [resume_kernel hm']
    cases hx with
    | halt h => exact absurd rfl (he _)
    | haltException h => exact h
  | switch frame => rw [withKernel, Kernel.interruptPit_proc]
  | stay hk => exact hk.retStatus

/-- `halt` stores its status, sign-extended. -/
theorem retStatus_of_halt {img : Image} {m m' : Machine} {status : Byte}
    (hstep : m.step img (.halt status) = some m') :
    m'.kernel.proc.retStatus = status.toInt8.toInt := by
  obtain ⟨frame, k, hk, hr, hm'⟩ := exit_eq_some hstep
  rw [resume_kernel hm']
  exact (Kernel.halt_exits hk).2

/-- `ret_status` holds the value of an `int8_t`. -/
def StatusFits (m : Machine) : Prop :=
  -128 ≤ m.kernel.proc.retStatus ∧ m.kernel.proc.retStatus ≤ 127

theorem processInit_retStatus (k : Kernel) : k.processInit.proc.retStatus = k.proc.retStatus :=
  Kernel.processInit_frame (fun k => k.proc.retStatus) (fun _ _ _ => rfl) k

theorem boot_retStatus (k : Kernel) : k.boot.proc.retStatus = k.proc.retStatus := by
  have hset : ∀ (k : Kernel) (fd : ℕ) (e : Fd),
      (k.setCurFd fd e).proc.retStatus = k.proc.retStatus := fun k fd e =>
    (Kernel.onlyFds_setCurFd k fd e).context.retStatus
  simp only [Kernel.boot, Kernel.setInterruptFlag, Kernel.initScheduler, Kernel.initPaging,
    processInit_retStatus,
    Kernel.keyboardInit, hset, Kernel.setEsp0, Kernel.initFilesys]

theorem statusFits_boot {m : Machine} (h : m.Booted) : m.StatusFits := by
  obtain ⟨k, hk, rfl⟩ := h
  have h0 : k.boot.proc.retStatus = 0 := (boot_retStatus k).trans hk.retStatus
  rw [StatusFits, h0]
  decide

/-- `ret_status` stays within a signed byte. -/
theorem statusFits_step {img : Image} {m m' : Machine} {e : Event} (h : m.StatusFits)
    (hstep : m.step img e = some m') : m'.StatusFits := by
  unfold StatusFits
  by_cases he : ∀ status, e ≠ .halt status
  · rw [step_retStatus_of_ne hstep he]
    exact h
  · simp only [not_forall, not_not] at he
    obtain ⟨status, rfl⟩ := he
    rw [retStatus_of_halt hstep]
    exact ⟨Int8.le_toInt _, Int8.toInt_le _⟩

/-- So it does in every reachable state. -/
theorem Reachable.statusFits {img : Image} {m : Machine} (h : m.Reachable img) : m.StatusFits :=
  Transition.Reachable.invariant (fun _ => statusFits_boot)
    (fun _ _ _ hs _ => statusFits_step hs) h

/-! ## Delivery -/

/-- The parent's `execute` returns the status of a `halt`, and 256 after an exception. -/
def Delivers (_ : Machine) (e : Event) (m' : Machine) : Prop :=
  match e with
  | .halt status => m'.kernel.execRet = status.toNat
  | .haltException => m'.kernel.execRet = Kernel.exceptionRet
  | _ => True

/-- The exits whose status arrives. -/
def Deliverable (e : Event) : Prop :=
  match e with
  | .halt status => status < 128
  | .haltException => False
  | _ => True

/-- The status arrives at exactly the exits `Deliverable` lists. -/
theorem delivers_iff {img : Image} {m m' : Machine} {e : Event} (h : m.Reachable img)
    (hstep : m.step img e = some m') : Delivers m e m' ↔ Deliverable e := by
  cases e with
  | halt status =>
    show m'.kernel.proc.retStatus = status.toNat ↔ status < 128
    rw [retStatus_of_halt hstep, toInt8_eq_toNat_iff]
  | haltException =>
    have hb := h.statusFits
    refine iff_of_false (fun heq => ?_) id
    change m'.kernel.proc.retStatus = 256 at heq
    rw [step_retStatus_of_ne hstep (by simp)] at heq
    exact absurd hb.2 (by omega)
  | _ => exact Iff.rfl

/-- Along every run whose reads store in their callers' pages the parents receive the statuses of
their children exactly when every child ends by a `halt` with a status below 128. -/
theorem allSteps_delivers_iff {img : Image} {m : Machine} (h : m.Reachable img) {es : List Event}
    (hown : Transition.AllEvents (step img) (OwnReads img) m es) :
    Transition.AllSteps (step img) Delivers m es ↔
      Transition.AllSteps (step img) (fun _ e _ => Deliverable e) m es :=
  Transition.allSteps_congr (fun _ _ _ hs => Transition.Reachable.step hs)
    (fun _ _ _ hs hstep => delivers_iff hs hstep) hown h

theorem allSteps_delivers_first :
    Transition.AllSteps (step Kernel.shellImage) Delivers first
      [.execute ⟨0, 0, fun _ => 0⟩ Kernel.shellCommand, .halt 7] :=
  (allSteps_delivers_iff (.init first_booted) (allEvents_ownReads (by decide))).2 fun _ _ =>
    ⟨trivial, fun _ _ => ⟨(by decide : (7 : Byte) < 128), trivial⟩⟩

/-- A program that halts with 255, and one that raises an exception. -/
theorem not_allSteps_delivers :
    ¬Transition.AllSteps (step Kernel.shellImage) Delivers first
        [.execute ⟨0, 0, fun _ => 0⟩ Kernel.shellCommand,
          .execute ⟨0, 0, fun _ => 0⟩ Kernel.shellCommand, .halt 255] ∧
      ¬Transition.AllSteps (step Kernel.shellImage) Delivers first
        [.execute ⟨0, 0, fun _ => 0⟩ Kernel.shellCommand,
          .execute ⟨0, 0, fun _ => 0⟩ Kernel.shellCommand, .haltException] := by
  obtain ⟨m₁, h₁, hm₁, -⟩ := exists_first_shell ⟨0, 0, fun _ => 0⟩
  obtain ⟨m₂, h₂, hrun⟩ := exists_second_shell h₁
  have hm₂ : m₂.Reachable Kernel.shellImage :=
    .step (e := .execute ⟨0, 0, fun _ => 0⟩ Kernel.shellCommand) hm₁ trivial h₂
  obtain ⟨hhalt, m₄, h₄⟩ := hm₂.exit_enabled (by simp [hrun])
  obtain ⟨m₃, h₃⟩ := hhalt 255
  refine ⟨fun h => ?_, fun h => ?_⟩
  · have hd : Delivers m₂ (.halt 255) m₃ := (((h m₁ h₁).2 m₂ h₂).2 m₃ h₃).1
    have hlt : (255 : Byte) < 128 := (delivers_iff hm₂ h₃).1 hd
    exact absurd hlt (by decide)
  · have hd : Delivers m₂ .haltException m₄ := (((h m₁ h₁).2 m₂ h₂).2 m₄ h₄).1
    exact (delivers_iff hm₂ h₄).1 hd

end Machine

end MpOS
