import MpOS.Context
import MpOS.Lib.LinkPath

/-!
# Process chains

From the current process of a terminal the parent pids lead through the PCBs of its
ancestors to `-1`. `Chained` says how the kernel's variables hold three such chains :
they are disjoint and made of the PCBs in use, and each PCB on a chain holds the
context of the one below it. It speaks of nothing but the kernel, so its rules hold
whatever code issues `execute`, the exits and `context_switch`.
-/

namespace MpOS

namespace Kernel

/-- The kernel stack of a terminal's current process. -/
def kernelStack (k : Kernel) (t : Terminal) : Word :=
  if t = k.proc.scheduleIndex then k.proc.tssEsp0 else (k.proc.processArray t).curEsp0

/-- The PCB of a process on terminal `t` is in use and holds the context of its parent. -/
structure Saved (k : Kernel) (t : Terminal) (p : Word) : Prop where
  lt : p < 8
  use : (k.proc.pcb p).use = 1
  screenIdx : (k.proc.pcb p).screenIdx = t.word
  parentFd : (k.proc.pcb p).parentPid ≠ noPid →
    (k.proc.pcb p).parentFd = .fdTable (k.proc.pcb p).parentPid
  parentEsp0 : (k.proc.pcb p).parentPid ≠ noPid →
    (k.proc.pcb p).parentEsp0 = getEsp0 (k.proc.pcb p).parentPid

/-- The parent pids form disjoint chains of the PCBs in use, and the copies of the contexts
agree along them. -/
structure Chained (k : Kernel) (chain : Terminal → List Word) : Prop where
  path : ∀ t, LinkPath (fun p => (k.proc.pcb p).parentPid) noPid
    (k.proc.processArray t).curPid (chain t)
  disjoint : ∀ t t', t ≠ t' → ∀ p ∈ chain t, p ∉ chain t'
  free : ∀ p < 8, (∀ t, p ∉ chain t) → (k.proc.pcb p).use = 0
  saved : ∀ t, ∀ p ∈ chain t, k.Saved t p
  curFdPtr : ∀ t, (k.proc.processArray t).curPid ≠ noPid →
    (k.proc.processArray t).curFdPtr = .fdTable (k.proc.processArray t).curPid
  esp0 : ∀ t, (k.proc.processArray t).curPid ≠ noPid →
    k.kernelStack t = getEsp0 (k.proc.processArray t).curPid
  program : k.cur.curPid ≠ noPid → k.paging.pdt exec = startAddress + fourMb * k.cur.curPid

variable {k k' : Kernel} {t : Terminal} {p : Word}

theorem kernelStack_self (ht : k.proc.scheduleIndex = t) : k.kernelStack t = k.proc.tssEsp0 := by
  rw [kernelStack, if_pos ht.symm]

theorem kernelStack_of_ne (ht : t ≠ k.proc.scheduleIndex) :
    k.kernelStack t = (k.proc.processArray t).curEsp0 := by
  rw [kernelStack, if_neg ht]

theorem Saved.congr (hl : (k'.proc.pcb p).link = (k.proc.pcb p).link) (h : k.Saved t p) :
    k'.Saved t p := by
  simp only [Pcb.link, PcbLink.mk.injEq] at hl
  obtain ⟨huse, hpid, hesp0, -, -, hfd, hidx⟩ := hl
  refine ⟨h.lt, ?_, ?_, ?_, ?_⟩
  · rw [huse, h.use]
  · rw [hidx, h.screenIdx]
  · rw [hpid, hfd]
    exact h.parentFd
  · rw [hpid, hesp0]
    exact h.parentEsp0

namespace Chained

variable {chain : Terminal → List Word}

/-- A free PCB is on no chain. -/
theorem not_mem_of_use_eq_zero (h : k.Chained chain) (hp : (k.proc.pcb p).use = 0)
    (t : Terminal) : p ∉ chain t := by
  intro hmem
  rw [(h.saved t p hmem).use] at hp
  exact absurd hp (by decide)

/-- The current process is the head of its chain. -/
theorem eq_cons (h : k.Chained chain) (hp : k.cur.curPid ≠ noPid) :
    ∃ rest, chain k.proc.scheduleIndex = k.cur.curPid :: rest ∧
      LinkPath (fun p => (k.proc.pcb p).parentPid) noPid
        (k.proc.pcb k.cur.curPid).parentPid rest :=
  (h.path k.proc.scheduleIndex).eq_cons hp

/-! ## Each kind of step keeps it -/

theorem stay (h : k.Chained chain) (hk : k.SameContext k') : k'.Chained chain := by
  have hpid : ∀ p, (k'.proc.pcb p).parentPid = (k.proc.pcb p).parentPid := fun p =>
    congrArg PcbLink.parentPid (hk.link p)
  have hstack : ∀ t, k'.kernelStack t = k.kernelStack t := by
    intro t
    unfold kernelStack
    rw [hk.scheduleIndex, hk.tssEsp0, hk.processArray]
  refine ⟨fun t => ?_, h.disjoint, fun p hp hfree => ?_, fun t p hp => ?_, ?_, fun t => ?_, ?_⟩
  · have hpath := (h.path t).congr fun p _ => hpid p
    rwa [← hk.processArray] at hpath
  · exact (congrArg PcbLink.use (hk.link p)).trans (h.free p hp hfree)
  · exact (h.saved t p hp).congr (hk.link _)
  · simpa only [hk.processArray] using h.curFdPtr
  · rw [hstack]
    simpa only [hk.processArray] using h.esp0 t
  · simpa only [hk.cur, hk.pdt] using h.program

/-- The PCB of a new process holds the context of its parent. -/
theorem saved_start (h : k.Chained chain) {frame : ExecFrame} {command : CString}
    (hs : k.Starts frame command p k') : k'.Saved k.proc.scheduleIndex p := by
  have hfd := h.curFdPtr k.proc.scheduleIndex
  have hesp0 := h.esp0 k.proc.scheduleIndex
  rw [kernelStack_self rfl] at hesp0
  refine ⟨(getAvailPcb_eq_some hs.avail).1, ?_, ?_, ?_, ?_⟩ <;> rw [hs.pcb_self]
  · rfl
  · rfl
  · exact hfd
  · exact hesp0

/-- A new process heads the chain of its terminal. -/
theorem start (h : k.Chained chain) {frame : ExecFrame} {command : CString}
    (hs : k.Starts frame command p k') : k'.Chained
      (Function.update chain k.proc.scheduleIndex (p :: chain k.proc.scheduleIndex)) := by
  obtain ⟨hlt, hfree⟩ := getAvailPcb_eq_some hs.avail
  have hnot := h.not_mem_of_use_eq_zero hfree
  have hne : ∀ t, ∀ q ∈ chain t, q ≠ p := by
    rintro t q hq rfl
    exact hnot t hq
  have hmem : ∀ t q, q ∈ Function.update chain k.proc.scheduleIndex
      (p :: chain k.proc.scheduleIndex) t ↔ t = k.proc.scheduleIndex ∧ q = p ∨ q ∈ chain t := by
    intro t q
    rcases eq_or_ne t k.proc.scheduleIndex with rfl | ht
    · simp
    · simp [ht]
  have hcur := hs.processArray_self
  have hentry : ∀ t, t ≠ k.proc.scheduleIndex → k'.proc.processArray t = k.proc.processArray t :=
    fun t ht => hs.processArray_of_ne ht
  -- the chains of the old processes do not go through the new one
  have hpath : ∀ t, LinkPath (fun p => (k'.proc.pcb p).parentPid) noPid
      (k.proc.processArray t).curPid (chain t) := fun t =>
    (h.path t).congr fun q hq => by rw [hs.pcb_of_ne (hne t q hq)]
  refine ⟨fun t => ?_, fun t t' htt q hq => ?_, fun q hq hfree' => ?_, fun t q hq => ?_,
    fun t hp => ?_, fun t hp => ?_, fun _ => ?_⟩
  · rcases eq_or_ne t k.proc.scheduleIndex with rfl | ht
    · rw [Function.update_self, hcur]
      refine .cons (ne_noPid hlt) ?_
      show LinkPath _ _ (k'.proc.pcb p).parentPid _
      rw [hs.pcb_self]
      exact hpath k.proc.scheduleIndex
    · rw [Function.update_of_ne ht, hentry t ht]
      exact hpath t
  · rw [hmem] at hq ⊢
    rcases hq with ⟨rfl, rfl⟩ | hq
    · exact not_or_intro (fun h' => htt h'.1.symm) (hnot t')
    · exact not_or_intro (fun h' => hne t q hq h'.2) (h.disjoint t t' htt q hq)
  · have hqp : q ≠ p := by
      rintro rfl
      exact hfree' k.proc.scheduleIndex ((hmem _ _).2 (Or.inl ⟨rfl, rfl⟩))
    rw [hs.pcb_of_ne hqp]
    exact h.free q hq fun t ht => hfree' t ((hmem _ _).2 (Or.inr ht))
  · rcases (hmem t q).1 hq with ⟨rfl, rfl⟩ | hq
    · exact h.saved_start hs
    · exact (h.saved t q hq).congr (by rw [hs.pcb_of_ne (hne t q hq)])
  · rcases eq_or_ne t k.proc.scheduleIndex with rfl | ht
    · rw [hcur]
    · rw [hentry t ht] at hp ⊢
      exact h.curFdPtr t hp
  · rcases eq_or_ne t k.proc.scheduleIndex with rfl | ht
    · rw [hcur, kernelStack_self hs.scheduleIndex]
      exact hs.tssEsp0
    · rw [hentry t ht] at hp ⊢
      rw [kernelStack_of_ne (hs.scheduleIndex ▸ ht), ← h.esp0 t hp, kernelStack_of_ne ht]
      exact congrArg SwitchTable.curEsp0 (hentry t ht)
  · rw [hs.pdt_exec, hs.cur_eq]

/-- The process that ends is taken off the chain of its terminal. -/
theorem exit (h : k.Chained chain) (hp : k.cur.curPid ≠ noPid) {frame : Frame}
    (hx : k.Exits frame k') : k'.Chained
      (Function.update chain k.proc.scheduleIndex (chain k.proc.scheduleIndex).tail) := by
  obtain ⟨rest, hchain, hrest⟩ := h.eq_cons hp
  rw [hchain, List.tail_cons]
  have htop : k.cur.curPid ∈ chain k.proc.scheduleIndex := by
    rw [hchain]
    exact List.mem_cons_self
  have hcur := hx.processArray_self
  have hentry : ∀ t, t ≠ k.proc.scheduleIndex → k'.proc.processArray t = k.proc.processArray t :=
    fun t ht => hx.processArray_of_ne ht
  have hsaved := h.saved _ _ htop
  -- it is nowhere else
  have hmem : ∀ t q, q ∈ Function.update chain k.proc.scheduleIndex rest t ↔
      q ∈ chain t ∧ q ≠ k.cur.curPid := by
    intro t q
    rcases eq_or_ne t k.proc.scheduleIndex with rfl | ht
    · have hnodup := (h.path k.proc.scheduleIndex).nodup
      rw [hchain, List.nodup_cons] at hnodup
      rw [Function.update_self, hchain, List.mem_cons]
      constructor
      · exact fun hq => ⟨Or.inr hq, fun heq => hnodup.1 (heq ▸ hq)⟩
      · exact fun hq => hq.1.resolve_left hq.2
    · rw [Function.update_of_ne ht]
      refine ⟨fun hq => ⟨hq, ?_⟩, fun hq => hq.1⟩
      rintro rfl
      exact h.disjoint _ _ ht.symm _ htop hq
  refine ⟨fun t => ?_, fun t t' htt q hq => ?_, fun q hq hfree => ?_, fun t q hq => ?_,
    fun t hp => ?_, fun t hp => ?_, fun _ => ?_⟩
  · rcases eq_or_ne t k.proc.scheduleIndex with rfl | ht
    · rw [Function.update_self, hcur]
      exact hrest.congr fun q _ => hx.parentPid q
    · rw [Function.update_of_ne ht, hentry t ht]
      exact (h.path t).congr fun q _ => hx.parentPid q
  · intro hq'
    exact h.disjoint t t' htt q ((hmem t q).1 hq).1 ((hmem t' q).1 hq').1
  · rcases eq_or_ne q k.cur.curPid with rfl | hne
    · exact hx.use_self
    · refine (congrArg PcbLink.use (hx.link_of_ne hne)).trans (h.free q hq fun t ht => ?_)
      exact hfree t ((hmem t q).2 ⟨ht, hne⟩)
  · obtain ⟨hq, hne⟩ := (hmem t q).1 hq
    exact (h.saved t q hq).congr (hx.link_of_ne hne)
  · rcases eq_or_ne t k.proc.scheduleIndex with rfl | ht
    · rw [hcur] at hp ⊢
      exact hsaved.parentFd hp
    · rw [hentry t ht] at hp ⊢
      exact h.curFdPtr t hp
  · rcases eq_or_ne t k.proc.scheduleIndex with rfl | ht
    · rw [hcur] at hp ⊢
      exact (kernelStack_self hx.scheduleIndex).trans (hx.tssEsp0.trans (hsaved.parentEsp0 hp))
    · rw [hentry t ht] at hp ⊢
      rw [kernelStack_of_ne (hx.scheduleIndex ▸ ht), ← h.esp0 t hp, kernelStack_of_ne ht]
      exact congrArg SwitchTable.curEsp0 (hentry t ht)
  · rw [hx.pdt, hx.cur_eq]

theorem switch (h : k.Chained chain) (frame : SwitchFrame) :
    (k.interruptPit frame).Chained chain := by
  have hproc := interruptPit_proc frame k
  have hpdt := contextSwitch_pdt frame k
  have hcur := interruptPit_cur frame k
  rw [← interruptPit_paging] at hpdt
  generalize k.interruptPit frame = k' at hproc hpdt hcur ⊢
  have hne := next_terminal_ne k.proc.scheduleIndex
  have hpcb : k'.proc.pcb = k.proc.pcb := by rw [hproc]
  have hself : k'.proc.processArray k.proc.scheduleIndex = _ :=
    (congrFun (congrArg Processes.processArray hproc) _).trans (Function.update_self _ _ _)
  have hother : ∀ t, t ≠ k.proc.scheduleIndex →
      k'.proc.processArray t = k.proc.processArray t :=
    fun t ht => (congrFun (congrArg Processes.processArray hproc) t).trans
      (Function.update_of_ne ht _ _)
  have hentry : ∀ t, (k'.proc.processArray t).curPid = (k.proc.processArray t).curPid ∧
      (k'.proc.processArray t).curFdPtr = (k.proc.processArray t).curFdPtr := by
    intro t
    rcases eq_or_ne t k.proc.scheduleIndex with rfl | ht
    · rw [hself]
      exact ⟨rfl, rfl⟩
    · rw [hother t ht]
      exact ⟨rfl, rfl⟩
  have hterm : k'.proc.scheduleIndex = k.proc.scheduleIndex + 1 :=
    congrArg Processes.scheduleIndex hproc
  -- the kernel stacks change places, none of them is lost
  have hstack : ∀ t, k'.kernelStack t = k.kernelStack t := by
    intro t
    rcases eq_or_ne t (k.proc.scheduleIndex + 1) with rfl | ht
    · rw [kernelStack_self hterm, kernelStack_of_ne hne]
      exact congrArg Processes.tssEsp0 hproc
    · rw [kernelStack_of_ne (hterm ▸ ht)]
      rcases eq_or_ne t k.proc.scheduleIndex with rfl | ht'
      · rw [kernelStack_self rfl]
        exact congrArg SwitchTable.curEsp0 hself
      · rw [kernelStack_of_ne ht']
        exact congrArg SwitchTable.curEsp0 (hother t ht')
  refine ⟨fun t => ?_, h.disjoint, fun q hq hfree => ?_, fun t q hq => ?_, fun t hp => ?_,
    fun t hp => ?_, fun hp => ?_⟩
  · have hpath := h.path t
    rwa [← hpcb, ← (hentry t).1] at hpath
  · exact (congrArg (fun f => (f q).use) hpcb).trans (h.free q hq hfree)
  · exact (h.saved t q hq).congr (congrArg (fun f => (f q).link) hpcb)
  · have hfd := h.curFdPtr t
    rw [← (hentry t).1, ← (hentry t).2] at hfd
    exact hfd hp
  · have hesp0 := h.esp0 t
    rw [← (hentry t).1, ← hstack] at hesp0
    exact hesp0 hp
  · rw [hcur] at hp ⊢
    rw [hpdt, if_pos hp]

end Chained

/-! ## Boot -/

/-- The loop of `process_init` frees the PCBs it visits and no visited PCB is taken again. -/
theorem use_foldl_free (p : Word) (l : List Word) (k : Kernel)
    (h : p ∈ l ∨ (k.proc.pcb p).use = 0) :
    ((l.foldl (fun k i => k.modifyPcb i fun p => { p with use := 0 }) k).proc.pcb p).use = 0 := by
  induction l generalizing k with
  | nil => exact h.resolve_left List.not_mem_nil
  | cons i l ih =>
    refine ih _ ?_
    rcases eq_or_ne p i with rfl | hne
    · exact Or.inr (by simp [modifyPcb])
    · simpa [hne, modifyPcb] using h

theorem boot_use (k : Kernel) (hp : p < 8) : (k.boot.proc.pcb p).use = 0 :=
  use_foldl_free p _ _ (Or.inl ((mem_pcbs p).2 hp))

/-- Before the boot loop every terminal is without a process. -/
theorem chained_boot (k : Kernel) : k.boot.Chained fun _ => [] := by
  have hcur : ∀ t, (k.boot.proc.processArray t).curPid = noPid := fun _ => rfl
  refine ⟨fun t => ?_, fun t t' _ q hq => ?_, fun p hp _ => ?_, fun t c hc => ?_,
    fun t hp => ?_, fun t hp => ?_, fun hp => ?_⟩
  · exact .nil
  · exact absurd hq List.not_mem_nil
  · exact boot_use k hp
  · exact absurd hc List.not_mem_nil
  · exact absurd (hcur t) hp
  · exact absurd (hcur t) hp
  · exact absurd (hcur _) hp

/-! ## The PCBs in use -/

/-- The processes of the three terminals. -/
def members (chain : Terminal → List Word) : List Word :=
  chain 0 ++ chain 1 ++ chain 2

theorem mem_members {chain : Terminal → List Word} : p ∈ members chain ↔ ∃ t, p ∈ chain t := by
  simp only [members, List.mem_append]
  constructor
  · rintro ((h | h) | h)
    · exact ⟨0, h⟩
    · exact ⟨1, h⟩
    · exact ⟨2, h⟩
  · rintro ⟨t, h⟩
    match t with
    | 0 => exact Or.inl (Or.inl h)
    | 1 => exact Or.inl (Or.inr h)
    | 2 => exact Or.inr h

namespace Chained

variable {chain : Terminal → List Word}

theorem nodup_members (h : k.Chained chain) : (members chain).Nodup := by
  have hn := fun t => (h.path t).nodup
  refine List.nodup_append'.2 ⟨List.nodup_append'.2 ⟨hn 0, hn 1, ?_⟩, hn 2, ?_⟩
  · exact fun p hp => h.disjoint 0 1 (by decide) p hp
  · intro p hp
    rcases List.mem_append.1 hp with hp | hp
    · exact h.disjoint 0 2 (by decide) p hp
    · exact h.disjoint 1 2 (by decide) p hp

/-- The PCBs in use are those on the chains. -/
theorem use_eq_one_iff (h : k.Chained chain) (hp : p < 8) :
    (k.proc.pcb p).use = 1 ↔ p ∈ members chain := by
  rw [mem_members]
  refine ⟨fun huse => ?_, fun ⟨t, ht⟩ => (h.saved t p ht).use⟩
  by_contra hno
  rw [h.free p hp fun t ht => hno ⟨t, ht⟩] at huse
  exact absurd huse (by decide)

/-- The PCBs run out when eight processes are live. -/
theorem getAvailPcb_eq_none_iff (h : k.Chained chain) :
    k.getAvailPcb = none ↔ (members chain).length = 8 := by
  have hsub : members chain ⊆ [0, 1, 2, 3, 4, 5, 6, 7] := by
    intro p hp
    obtain ⟨t, ht⟩ := mem_members.1 hp
    exact (mem_pcbs p).2 (h.saved t p ht).lt
  have hperm := h.nodup_members.subperm hsub
  rw [Kernel.getAvailPcb_eq_none_iff]
  constructor
  · intro hall
    have hsup : ([0, 1, 2, 3, 4, 5, 6, 7] : List Word) ⊆ members chain := by
      intro p hp
      have hlt := (mem_pcbs p).1 hp
      rw [mem_members]
      by_contra hno
      exact hall p hlt (h.free p hlt fun t ht => hno ⟨t, ht⟩)
    have hsup' : ([0, 1, 2, 3, 4, 5, 6, 7] : List Word).Subperm (members chain) :=
      List.Nodup.subperm (by decide) hsup
    exact Nat.le_antisymm hperm.length_le hsup'.length_le
  · intro hlen p hp
    have hmem : p ∈ members chain :=
      (hperm.perm_of_length_le (by simp [hlen])).mem_iff.2 ((mem_pcbs p).2 hp)
    rw [(h.use_eq_one_iff hp).2 hmem]
    decide

end Chained

end Kernel

end MpOS
