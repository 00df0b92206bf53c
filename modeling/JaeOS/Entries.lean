import JaeOS.Services

/-!
# The handlers as moves

What an entry into the nucleus does to the view is read off the core and the machine as they are
when the handler starts: at most one move for a system call or a trap, one signal for every
completed operation of an interrupt, and one `V` on the pseudo-clock for every process that waits
for the tick.
-/

open LinkRing LinkForest Transition

namespace JaeOS

variable [Platform] {k s s' : Kernel} {κ : Core} {v v' : View} {c p : Pcb} {a : ℕ}
  {act : Option Act} {acts : List Act} {F : Fault → Prop} {e : Excp}

/-! ### System calls -/

def syscallAct (κ : Core) (c : Pcb) (st : State) : Option Act :=
  if isService st then
    if isUserMode st then trapAct κ c .pgmtp
    else serviceAct κ c st.a1 st.a2 st.a3 st.a4
  else trapAct κ c .sys

omit [Platform] in
theorem serviceEnd_quiet : Quiet F serviceEnd := by
  refine (silent_gets _).quiet.bind fun o => ?_
  cases o with
  | none => exact quiet_leave _
  | some p => exact silent_chargeKernel.quiet.bind fun _ => quiet_leave _

theorem passUp_quiet : Quiet F (passUp p e) :=
  silent_chargeKernel.quiet.bind fun _ => (silent_setArea _ _).quiet.bind fun _ =>
    (silent_gets _).quiet.bind fun _ => quiet_leave _

theorem syscallEnter_run (hc : s.currentProcess = some c) :
    ∃ s', syscallEnter.run s = .ok c s' ∧ s'.core = s.core ∧ s'.hw.oldArea = s.hw.oldArea ∧
      s'.pS c = s.hw.oldArea .sysbk := by
  unfold syscallEnter
  simp only [disableInterrupts, getSTATUS, setSTATUS, setFlag, current, setPs,
    startKernel, getTODLO,
    Program.run_bind_bind, Program.run_gets_bind, Program.run_modify_bind, hc, Program.need_some,
    Program.run_pure_bind, Program.run_pure]
  refine ⟨_, rfl, ?_, rfl, Function.update_self ..⟩
  simp only [Kernel.core, hc]

theorem syscallHandler_performs {st : State} (h : Rep s.core v) (hc : s.currentProcess = some c)
    (hst : s.hw.oldArea .sysbk = st) (ht : Tame v (syscallAct s.core c st)) (hF : ∀ e, F e) :
    Program.Triple (fun t => t = s) syscallHandler (fun _ t => Does (syscallAct s.core c st) v t)
      (fun _ t => Does (syscallAct s.core c st) v t) F := by
  rintro t rfl
  obtain ⟨s', hrun, hcore, hold, hps⟩ := syscallEnter_run hc
  rw [hst] at hps
  rw [syscallHandler, Program.run_bind_ok hrun, Program.run_gets_bind, hold, hst]
  unfold syscallAct at ht ⊢
  rw [← hcore] at h ht ⊢
  have hc' : s'.core.currentProcess = some c := by
    rw [hcore]
    exact hc
  by_cases hserv : isService st
  · simp only [if_pos hserv] at ht ⊢
    rw [Program.run_gets_bind, hps]
    by_cases huser : isUserMode st
    · simp only [if_pos huser] at ht ⊢
      exact Performs.after (silent_gets _) (fun _ => Performs.after (silent_setOldArea _ _) fun _ =>
        Performs.after (silent_setOldArea _ _) fun _ => Performs.after silent_chargeKernel fun _ =>
        trapHandler_performs h hc' ht) s' rfl
    · simp only [if_neg huser] at ht ⊢
      exact ((service_performs h hc' ht hF).before fun _ => serviceEnd_quiet) s' rfl
  · simp only [if_neg hserv] at ht ⊢
    unfold passUpSyscall
    rw [Program.run_gets_bind]
    have hact : trapAct s'.core c .sys =
        if s'.tags c .sys = false then some (.terminate c) else none := by
      rw [trapAct, core_tags]
      cases s'.tags c .sys <;> rfl
    rw [hact] at ht ⊢
    refine Performs.guard h hc' ht (Quiet.performs ?_ h) s' rfl
    exact (silent_setArea _ _).quiet.bind fun _ => (silent_setArea _ _).quiet.bind fun _ =>
      (silent_setArea _ _).quiet.bind fun _ => passUp_quiet

/-! ### Interrupts -/

def pendingLine (cause : Word) : Option Word :=
  [intTimer, intDisk, intTape, intUnused, intPrinter, intTerminal].find? (Platform.causeIpGet cause)

def pendingDevice (hw : Hw) (il : Word) : Word := findDnum (hw.bitmap il)

def receptionDone (r : DevReg) : Bool := r.recvStatus &&& 0x000000FF = Platform.devTrcvSCharrecv

def transmissionDone (r : DevReg) : Bool :=
  r.transmStatus &&& 0x000000FF = Platform.devTtrsSChartrsm

/-- The semaphores of the sub-devices whose operation an interrupt on the line `il` reports. -/
def lineCompletions (hw : Hw) (il : Word) : List ℕ :=
  let dnum := pendingDevice hw il
  if il = intTimer then []
  else if il = intTerminal then
    let r := hw.devreg (regIndex il dnum)
    (if receptionDone r then [semIndex il devPerInt dnum] else []) ++
      (if transmissionDone r then [semIndex il 0 dnum] else [])
  else [semIndex il 0 dnum]

def completions (hw : Hw) : List ℕ :=
  match pendingLine hw.cause with
  | none => []
  | some il => lineCompletions hw il

omit [Platform] in
theorem findDnumLoop_le (b mask i : Word) {n : ℕ} (h : i.toNat + n ≤ 8) :
    (findDnumLoop b n mask i).toNat ≤ 8 := by
  induction n generalizing mask i with
  | zero => exact h
  | succ n ih =>
      have hi : (i + 1).toNat = i.toNat + 1 := by
        have h1 : (1 : Word).toNat = 1 := rfl
        rw [BitVec.toNat_add, h1]
        omega
      rw [findDnumLoop]
      split
      · exact ih _ _ (by omega)
      · omega

omit [Platform] in
theorem pendingDevice_le (hw : Hw) (il : Word) : (pendingDevice hw il).toNat ≤ 8 :=
  findDnumLoop_le _ _ _ (by decide)

omit [Platform] in
/-- The devices of the lines 3 to 7 have their semaphores in `device_sem`. -/
theorem semIndex_lt {il term dnum : Word} (hil : (extIlIndex il * devPerInt).toNat ≤ 32)
    (hterm : term.toNat ≤ 8) (hd : dnum.toNat ≤ 8) : semIndex il term dnum < maxDevices := by
  simp only [semIndex, BitVec.toNat_add, maxDevices]
  omega

theorem pendingLine_le {cause il : Word} (h : pendingLine cause = some il) (hil : il ≠ intTimer) :
    (extIlIndex il * devPerInt).toNat ≤ 32 := by
  have hmem := List.mem_of_find?_eq_some h
  simp only [List.mem_cons, List.not_mem_nil, or_false] at hmem
  rcases hmem with rfl | rfl | rfl | rfl | rfl | rfl
  · exact absurd rfl hil
  all_goals decide

theorem completions_lt {hw : Hw} {i : ℕ} (h : i ∈ completions hw) : i < maxDevices := by
  unfold completions at h
  cases hline : pendingLine hw.cause with
  | none =>
      rw [hline] at h
      cases h
  | some il =>
      rw [hline] at h
      unfold lineCompletions at h
      have hd := pendingDevice_le hw il
      dsimp only at h
      split at h
      · cases h
      · next hil =>
        have hbase := pendingLine_le hline hil
        split at h
        · rcases List.mem_append.mp h with h | h
          · split at h
            · exact List.mem_singleton.mp h ▸ semIndex_lt hbase (by decide) hd
            · cases h
          · split at h
            · exact List.mem_singleton.mp h ▸ semIndex_lt hbase (by decide) hd
            · cases h
        · exact List.mem_singleton.mp h ▸ semIndex_lt hbase (by decide) hd

theorem isDeviceSem_semAddr {i : ℕ} (hi : i < maxDevices) : isDeviceSem (semAddr i) = true := by
  have hi : i < 49 := hi
  simp [isDeviceSem, semAddr]
  omega

def interruptActs (hw : Hw) (acts : List Act) : Prop :=
  ∃ n, acts = (completions hw).map (fun i => .signal (semAddr i)) ++
    List.replicate n (.verhogen (semAddr clockSem) 1)

/-- The kernel represents what one of the sequences in `L` has made of the view. -/
def Follows (L : List Act → Prop) (v : View) (s : Kernel) : Prop :=
  ∃ acts v', L acts ∧ Steps Move acts v v' ∧ Rep s.core v'

theorem Follows.congr {L : List Act → Prop} (h : Follows L v s) (hs : s'.core = s.core) :
    Follows L v s' := by
  obtain ⟨acts, v', hl, hsteps, hrep⟩ := h
  exact ⟨acts, v', hl, hsteps, hs ▸ hrep⟩

omit [Platform] in
theorem headBlocked_ok (h : Rep s.core v) (a : ℕ) :
    (onLinks (headBlocked a)).run s = .ok (v.queue a).head? s := by
  obtain ⟨ds, fs, hl⟩ := h.lists.asl
  have hrun := onLinks_run (k := s) (v := v) (hl.headBlocked_run (χ := Ctl) a)
  have hself : s.withLists s.core.links v = s := h.withLists
  rwa [hself] at hrun

/-- The signal wakes the oldest waiter; if there is none although the value says so, the handler
writes through `NULL`. -/
theorem signalDevice_run {status : Word} (h : Rep s.core v) (ha : a ≠ 0)
    (hF : v.value a < 1 → v.queue a = [] → F .null) :
    Program.Triple (fun t => t = s) (signalDevice a status)
      (fun _ t => (∃ v', Move (.signal a) v v' ∧ Rep t.core v') ∧ t.hw = s.hw)
      (fun _ _ => False) F := by
  rintro t rfl
  have hvalue : t.ints a = v.value a := congrFun h.value a
  rw [signalDevice, Program.run_gets_bind, hvalue]
  by_cases hi : v.value a < 1
  · rw [if_pos hi]
    rw [Program.run_bind_ok (headBlocked_ok h a)]
    cases hq : v.queue a with
    | nil => exact hF hi hq
    | cons p l =>
        simp only [List.head?_cons, Program.need_some, Program.run_pure_bind, setPs,
          Program.run_modify_bind]
        rw [semaphoreOperation_pos ha Int.one_pos]
        obtain ⟨m, q, hrun, hrep⟩ := verhogen_ok (a := a) (w := 1)
          (s := { t with pS := Function.update t.pS p { t.pS p with a1 := status } }) h
        rw [hrun]
        exact ⟨⟨_, .signal hi (by simp [hq]), hrep⟩, rfl⟩
  · rw [if_neg hi]
    exact ⟨⟨v, .noSignal (by omega), h⟩, rfl⟩

theorem tickLoop_run {n : ℕ} (h : Rep s.core v) (hF : F .loop) :
    Program.Triple (fun t => t = s) (tickLoop n)
      (fun _ t => Follows (fun acts => ∃ j, acts =
        List.replicate j (.verhogen (semAddr clockSem) 1)) v t) (fun _ _ => False) F := by
  induction n generalizing s v with
  | zero =>
      rintro t rfl
      exact hF
  | succ n ih =>
      rintro t rfl
      rw [tickLoop, Program.run_gets_bind]
      by_cases hi : t.ints (semAddr clockSem) < 0
      · rw [if_pos hi]
        obtain ⟨m, q, hrun, hrep⟩ := verhogen_ok (a := semAddr clockSem) (w := 1) h
        have hop : (semaphoreOperation (semAddr clockSem) 1).run t = _ :=
          (semaphoreOperation_pos (semAddr_ne_zero _) Int.one_pos).trans hrun
        rw [Program.run_bind_ok hop]
        refine (ih hrep).conseq (fun _ ht => ht) (fun _ u hu => ?_) (fun _ _ hu => hu) _ rfl
        obtain ⟨acts, v', ⟨j, rfl⟩, hsteps, hrep'⟩ := hu
        exact ⟨_, v', ⟨j + 1, rfl⟩, .cons (.verhogen Int.one_pos) hsteps, hrep'⟩
      · rw [if_neg hi]
        exact ⟨[], v, ⟨0, rfl⟩, .nil v, h⟩

theorem timerHandler_run (h : Rep s.core v) (hF : F .loop) :
    Program.Triple (fun t => t = s) timerHandler
      (fun _ t => Follows (fun acts => ∃ j, acts =
        List.replicate j (.verhogen (semAddr clockSem) 1)) v t) (fun _ _ => False) F := by
  rintro t rfl
  rw [timerHandler, Program.run_gets_bind]
  by_cases hflag : t.pseudoclockflag = true
  · rw [if_pos hflag, Program.run_gets_bind]
    refine Program.Triple.bind (tickLoop_run h hF) (fun _ => ?_) t rfl
    intro u hu
    exact hu.congr rfl
  · rw [if_neg hflag]
    exact ⟨[], v, ⟨0, rfl⟩, .nil v, h⟩

section Addresses

variable {α : Type} {P : Kernel → Prop} {Q : α → Kernel → Prop} {E : Ctl → Kernel → Prop}
  {il term dnum status : Word}

theorem deviceSemAt_bind {f : ℕ → KM α} (hb : semIndex il term dnum < maxDevices ∨ F .bounds)
    (hf : Program.Triple P (f (semAddr (semIndex il term dnum))) Q E F) :
    Program.Triple P (deviceSemAt il term dnum >>= f) Q E F := by
  intro s hs
  unfold deviceSemAt
  by_cases hi : semIndex il term dnum < maxDevices
  · simp only [if_pos hi, Program.run_pure_bind]
    exact hf s hs
  · simp only [if_neg hi, Program.run_fail_bind]
    exact hb.resolve_left hi

omit [Platform] in
theorem devRegAddr_bind {f : ℕ → KM α} (hb : regIndex il dnum < 40 ∨ F .bounds)
    (hf : Program.Triple P (f (regIndex il dnum)) Q E F) :
    Program.Triple P (devRegAddr il dnum >>= f) Q E F := by
  intro s hs
  unfold devRegAddr
  by_cases hi : regIndex il dnum < 40
  · simp only [if_pos hi, Program.run_pure_bind]
    exact hf s hs
  · simp only [if_neg hi, Program.run_fail_bind]
    exact hb.resolve_left hi

end Addresses

/-- What an interrupt on the line `il` relies on if it is not to fault: the register and the
semaphore are there, and a semaphore below 1 has a waiter. -/
structure Served (F : Fault → Prop) (v : View) (il term dnum : Word) : Prop where
  register : regIndex il dnum < 40 ∨ F .bounds
  index : semIndex il term dnum < maxDevices ∨ F .bounds
  waiter : v.value (semAddr (semIndex il term dnum)) < 1 →
    v.queue (semAddr (semIndex il term dnum)) = [] → F .null

theorem devHandler_run {il : Word} (h : Rep s.core v)
    (hF : Served F v il 0 (pendingDevice s.hw il)) :
    Program.Triple (fun t => t = s) (devHandler il)
      (fun _ t => ∃ v', Move (.signal (semAddr (semIndex il 0 (pendingDevice s.hw il)))) v v' ∧
        Rep t.core v') (fun _ _ => False) F := by
  rintro t rfl
  unfold devHandler
  rw [Program.run_gets_bind]
  refine devRegAddr_bind (P := fun u => u = t) hF.register (deviceSemAt_bind hF.index ?_) t rfl
  rintro _ rfl
  rw [Program.run_gets_bind]
  refine Program.Triple.bind (signalDevice_run h (semAddr_ne_zero _) hF.waiter) (fun _ => ?_) _ rfl
  rintro u ⟨⟨v', hmove, hrep⟩, -⟩
  exact ⟨v', hmove, hrep⟩

theorem terminalReceive_run {dnum : Word} (h : Rep s.core v)
    (hF : receptionDone (s.hw.devreg (regIndex intTerminal dnum)) →
      Served F v intTerminal devPerInt dnum) :
    Program.Triple (fun t => t = s) (terminalReceive (regIndex intTerminal dnum) dnum)
      (fun _ t => (∃ v', Steps Move
          ((if receptionDone (s.hw.devreg (regIndex intTerminal dnum)) then
            [semIndex intTerminal devPerInt dnum] else []).map fun i => .signal (semAddr i)) v v' ∧
          Rep t.core v') ∧
        transmissionDone (t.hw.devreg (regIndex intTerminal dnum)) =
          transmissionDone (s.hw.devreg (regIndex intTerminal dnum)))
      (fun _ _ => False) F := by
  rintro t rfl
  unfold terminalReceive
  rw [Program.run_gets_bind]
  by_cases hdone : receptionDone (t.hw.devreg (regIndex intTerminal dnum))
  · have hstatus : (t.hw.devreg (regIndex intTerminal dnum)).recvStatus &&& 0x000000FF =
        Platform.devTrcvSCharrecv := by simpa [receptionDone] using hdone
    rw [if_pos hstatus, if_pos hdone]
    have hserved := hF hdone
    refine deviceSemAt_bind (P := fun u => u = t) hserved.index
      (Program.Triple.bind (signalDevice_run h (semAddr_ne_zero _) hserved.waiter) fun _ =>
        ?_) t rfl
    rintro u ⟨⟨v', hmove, hrep⟩, hhw⟩
    refine ⟨⟨v', .single hmove, hrep⟩, ?_⟩
    simp only [hhw, Function.update_self]
    rfl
  · have hstatus : ¬ (t.hw.devreg (regIndex intTerminal dnum)).recvStatus &&& 0x000000FF =
        Platform.devTrcvSCharrecv := by simpa [receptionDone] using hdone
    rw [if_neg hstatus, if_neg hdone]
    exact ⟨⟨v, .nil v, h⟩, rfl⟩

theorem terminalTransmit_run {dnum : Word} (h : Rep s.core v)
    (hF : transmissionDone (s.hw.devreg (regIndex intTerminal dnum)) →
      Served F v intTerminal 0 dnum) :
    Program.Triple (fun t => t = s) (terminalTransmit (regIndex intTerminal dnum) dnum)
      (fun _ t => ∃ v', Steps Move
          ((if transmissionDone (s.hw.devreg (regIndex intTerminal dnum)) then
            [semIndex intTerminal 0 dnum] else []).map fun i => .signal (semAddr i)) v v' ∧
          Rep t.core v')
      (fun _ _ => False) F := by
  rintro t rfl
  unfold terminalTransmit
  rw [Program.run_gets_bind]
  by_cases hdone : transmissionDone (t.hw.devreg (regIndex intTerminal dnum))
  · have hstatus : (t.hw.devreg (regIndex intTerminal dnum)).transmStatus &&& 0x000000FF =
        Platform.devTtrsSChartrsm := by simpa [transmissionDone] using hdone
    rw [if_pos hstatus, if_pos hdone]
    have hserved := hF hdone
    refine deviceSemAt_bind (P := fun u => u = t) hserved.index
      (Program.Triple.bind (signalDevice_run h (semAddr_ne_zero _) hserved.waiter) fun _ =>
        ?_) t rfl
    rintro u ⟨⟨v', hmove, hrep⟩, -⟩
    exact ⟨v', .single hmove, hrep⟩
  · have hstatus : ¬ (t.hw.devreg (regIndex intTerminal dnum)).transmStatus &&& 0x000000FF =
        Platform.devTtrsSChartrsm := by simpa [transmissionDone] using hdone
    rw [if_neg hstatus, if_neg hdone]
    exact ⟨v, .nil v, h⟩

omit [Platform] in
theorem semIndex_term_ne (il dnum : Word) : semIndex il 0 dnum ≠ semIndex il devPerInt dnum := by
  have h0 : (0 : Word).toNat = 0 := rfl
  have h8 : (8 : Word).toNat = 8 := rfl
  simp only [semIndex, BitVec.toNat_add, devPerInt, h0, h8]
  omega

theorem semAddr_injective : Function.Injective semAddr := by
  intro i j hij
  simp only [semAddr] at hij
  omega

/-- A signal leaves the other semaphores alone. -/
theorem signal_frame {b : ℕ} (h : Move (.signal a) v v') (hb : b ≠ a) :
    v'.value b = v.value b ∧ v'.queue b = v.queue b := by
  cases h with
  | noSignal => exact ⟨rfl, rfl⟩
  | signal =>
      constructor
      · rw [View.verhogen, wakeAll_value]
        exact Function.update_of_ne hb ..
      · rw [View.verhogen, wakeAll_queue_of_ne hb]
        rfl

theorem signals_frame {l : List ℕ} {j : ℕ}
    (h : Steps Move (l.map fun i => .signal (semAddr i)) v v') (hj : j ∉ l) :
    v'.value (semAddr j) = v.value (semAddr j) ∧ v'.queue (semAddr j) = v.queue (semAddr j) := by
  induction l generalizing v with
  | nil =>
      rw [steps_nil.mp h]
      exact ⟨rfl, rfl⟩
  | cons i l ih =>
      obtain ⟨u, hmove, hsteps⟩ := steps_cons.mp h
      obtain ⟨hji, hjl⟩ := List.ne_and_not_mem_of_not_mem_cons hj
      obtain ⟨hv, hq⟩ := ih hsteps hjl
      obtain ⟨hv', hq'⟩ := signal_frame hmove fun he => hji (semAddr_injective he)
      exact ⟨hv.trans hv', hq.trans hq'⟩

theorem terminalHandler_run (h : Rep s.core v)
    (hreg : regIndex intTerminal (pendingDevice s.hw intTerminal) < 40 ∨ F .bounds)
    (hrecv : receptionDone (s.hw.devreg (regIndex intTerminal (pendingDevice s.hw intTerminal))) →
      Served F v intTerminal devPerInt (pendingDevice s.hw intTerminal))
    (htransm : transmissionDone
        (s.hw.devreg (regIndex intTerminal (pendingDevice s.hw intTerminal))) →
      Served F v intTerminal 0 (pendingDevice s.hw intTerminal)) :
    Program.Triple (fun t => t = s) terminalHandler
      (fun _ t => ∃ v', Steps Move
        ((lineCompletions s.hw intTerminal).map fun i => .signal (semAddr i)) v v' ∧ Rep t.core v')
      (fun _ _ => False) F := by
  rintro t rfl
  unfold terminalHandler
  rw [Program.run_gets_bind]
  refine devRegAddr_bind (P := fun u => u = t) hreg
    (Program.Triple.bind (terminalReceive_run h hrecv) fun _ => ?_) t rfl
  rintro u ⟨⟨v₁, hsteps₁, hrep₁⟩, hdone⟩
  refine (terminalTransmit_run hrep₁ fun ht => ?_).conseq (fun _ hu => hu) (fun _ w hw => ?_)
    (fun _ _ hf => hf) u rfl
  · rw [hdone] at ht
    have hserved := htransm ht
    have hframe :=
      signals_frame (j := semIndex intTerminal 0 (pendingDevice t.hw intTerminal)) hsteps₁
      (by
        split
        · simpa using semIndex_term_ne _ _
        · exact List.not_mem_nil)
    refine ⟨hserved.register, hserved.index, ?_⟩
    rw [hframe.1, hframe.2]
    exact hserved.waiter
  · obtain ⟨v', hsteps, hrep⟩ := hw
    rw [hdone] at hsteps
    refine ⟨v', ?_, hrep⟩
    have hline : lineCompletions t.hw intTerminal =
        (if receptionDone (t.hw.devreg (regIndex intTerminal (findDnum (t.hw.bitmap intTerminal))))
          then
          [semIndex intTerminal devPerInt (findDnum (t.hw.bitmap intTerminal))] else []) ++
        (if transmissionDone
          (t.hw.devreg (regIndex intTerminal (findDnum (t.hw.bitmap intTerminal))))
          then [semIndex intTerminal 0 (findDnum (t.hw.bitmap intTerminal))] else []) := rfl
    rw [hline, List.map_append]
    exact hsteps₁.append hsteps

structure ServedLine (F : Fault → Prop) (v : View) (hw : Hw) (il : Word) : Prop where
  timer : il = intTimer → F .loop
  register : il ≠ intTimer → regIndex il (pendingDevice hw il) < 40 ∨ F .bounds
  index : ∀ i ∈ lineCompletions hw il, i < maxDevices ∨ F .bounds
  waiter : ∀ i ∈ lineCompletions hw il,
    v.value (semAddr i) < 1 → v.queue (semAddr i) = [] → F .null

theorem serveLine_eq (cause : Word) :
    serveLine cause = match pendingLine cause with
      | none => pure ()
      | some il =>
        if il = intTimer then timerHandler
        else if il = intTerminal then terminalHandler
        else devHandler il := by
  unfold serveLine pendingLine
  simp only [List.find?_cons, List.find?_nil]
  cases Platform.causeIpGet cause intTimer
  · cases Platform.causeIpGet cause intDisk
    · cases Platform.causeIpGet cause intTape
      · cases Platform.causeIpGet cause intUnused
        · cases Platform.causeIpGet cause intPrinter
          · cases Platform.causeIpGet cause intTerminal <;> rfl
          · rfl
        · rfl
      · rfl
    · rfl
  · rfl

theorem serveLine_run (h : Rep s.core v)
    (hF : ∀ il, pendingLine s.hw.cause = some il → ServedLine F v s.hw il) :
    Program.Triple (fun t => t = s) (serveLine s.hw.cause)
      (fun _ t => Follows (interruptActs s.hw) v t) (fun _ _ => False) F := by
  rintro t rfl
  rw [serveLine_eq]
  unfold interruptActs completions
  cases hline : pendingLine t.hw.cause with
  | none => exact ⟨[], v, ⟨0, rfl⟩, .nil v, h⟩
  | some il =>
      have hserved := hF il hline
      simp only
      by_cases htimer : il = intTimer
      · subst htimer
        rw [if_pos rfl]
        refine (timerHandler_run h (hserved.timer rfl)).conseq (fun _ hu => hu) (fun _ u hu => ?_)
          (fun _ _ hf => hf) t rfl
        obtain ⟨acts, v', ⟨n, rfl⟩, hsteps, hrep⟩ := hu
        exact ⟨_, v', ⟨n, rfl⟩, hsteps, hrep⟩
      · rw [if_neg htimer]
        by_cases hterm : il = intTerminal
        · subst hterm
          rw [if_pos rfl]
          have hreg := hserved.register htimer
          refine (terminalHandler_run h hreg (fun hd => ⟨hreg, ?_, ?_⟩) fun hd =>
            ⟨hreg, ?_, ?_⟩).conseq
            (fun _ hu => hu) (fun _ u hu => ?_) (fun _ _ hf => hf) t rfl
          · exact hserved.index _
              (List.mem_append_left _ (by rw [if_pos hd]; exact List.mem_cons_self))
          · exact hserved.waiter _
              (List.mem_append_left _ (by rw [if_pos hd]; exact List.mem_cons_self))
          · exact hserved.index _
              (List.mem_append_right _ (by rw [if_pos hd]; exact List.mem_cons_self))
          · exact hserved.waiter _
              (List.mem_append_right _ (by rw [if_pos hd]; exact List.mem_cons_self))
          · obtain ⟨v', hsteps, hrep⟩ := hu
            exact ⟨_, v', ⟨0, (List.append_nil _).symm⟩, hsteps, hrep⟩
        · rw [if_neg hterm]
          have hone : lineCompletions t.hw il = [semIndex il 0 (pendingDevice t.hw il)] := by
            rw [lineCompletions, if_neg htimer, if_neg hterm]
          have hmem : semIndex il 0 (pendingDevice t.hw il) ∈ lineCompletions t.hw il := by
            simp [hone]
          refine (devHandler_run h ⟨hserved.register htimer, hserved.index _ hmem,
            hserved.waiter _ hmem⟩).conseq (fun _ hu => hu) (fun _ u hu => ?_)
              (fun _ _ hf => hf) t rfl
          obtain ⟨v', hmove, hrep⟩ := hu
          rw [hone]
          exact ⟨_, v', ⟨0, rfl⟩, .single hmove, hrep⟩

omit [Platform] in
theorem saveInterrupted_run (s : Kernel) :
    ∃ t, saveInterrupted.run s = .ok () t ∧ t.core = s.core ∧ t.hw = s.hw := by
  rw [saveInterrupted, Program.run_gets_bind]
  cases s.currentProcess with
  | none => exact ⟨s, rfl, rfl, rfl⟩
  | some p => exact ⟨_, rfl, rfl, rfl⟩

/-- `interrupt_handler` up to the tests on the cause changes neither the core nor the devices. -/
theorem interruptEnter_run (s : Kernel) :
    ∃ t, interruptEnter.run s = .ok s.hw.cause t ∧ t.core = s.core ∧ t.hw.cause = s.hw.cause ∧
      t.hw.bitmap = s.hw.bitmap ∧ t.hw.devreg = s.hw.devreg := by
  obtain ⟨t, hrun, hcore, hhw⟩ := saveInterrupted_run
    { s with
      flag := .loadnext
      kernelStart := s.hw.tod s.hw.reads
      hw := { s.hw with
        status := Platform.statusAllIntDisable s.hw.status
        reads := s.hw.reads + 1 } }
  refine ⟨t, ?_, hcore, by rw [hhw], by rw [hhw], by rw [hhw]⟩
  simp only [interruptEnter, disableInterrupts, startKernel, getSTATUS, setSTATUS,
    getTODLO, setFlag,
    Program.run_bind_bind, Program.run_gets_bind, Program.run_modify_bind, Program.run_pure_bind]
  rw [Program.run_bind_ok hrun]
  rfl

theorem interruptBody_run (h : Rep s.core v)
    (hF : ∀ il, pendingLine s.hw.cause = some il → ServedLine F v s.hw il) :
    Program.Triple (fun t => t = s) interruptBody
      (fun _ t => Follows (interruptActs s.hw) v t) (fun _ _ => False) F := by
  rintro t rfl
  obtain ⟨u, hstart, hcore, hcause, hbitmap, hdevreg⟩ := interruptEnter_run t
  have hline : ∀ il, lineCompletions u.hw il = lineCompletions t.hw il := by
    intro il
    unfold lineCompletions pendingDevice
    rw [hbitmap, hdevreg]
  have hacts : interruptActs u.hw = interruptActs t.hw := by
    unfold interruptActs completions
    simp only [hcause, hline]
  rw [interruptBody, Program.run_bind_ok hstart, ← hcause, ← hacts]
  refine Program.Triple.bind (serveLine_run (h.congr hcore) fun il hil => ?_) (fun _ => ?_) u rfl
  · rw [hcause] at hil
    obtain ⟨h₁, h₂, h₃, h₄⟩ := hF il hil
    refine ⟨h₁, ?_, ?_, ?_⟩
    · rw [pendingDevice, hbitmap]
      exact h₂
    · rw [hline]
      exact h₃
    · rw [hline]
      exact h₄
  · intro w hw
    rw [Program.run_gets_bind]
    cases w.currentProcess with
    | none => exact hw
    | some p => exact hw.congr rfl

theorem interruptHandler_run (h : Rep s.core v)
    (hF : ∀ il, pendingLine s.hw.cause = some il → ServedLine F v s.hw il) :
    Program.Triple (fun t => t = s) interruptHandler (fun _ _ => False)
      (fun ctl t => ctl = .scheduler ∧ Follows (interruptActs s.hw) v t) F :=
  Program.Triple.bind ((interruptBody_run h hF).conseq (fun _ h => h) (fun _ _ h => h)
    fun _ _ h => h.elim) fun _ _ hu => ⟨rfl, hu.congr rfl⟩

/-! ### The scheduler -/

/-- The moves of `scheduler`: the running process, if its time is up, goes to the end of the ready
queue, and the first process in the queue is loaded. -/
def dispatchActs (κ : Core) (flag : Flag) : List Act :=
  if flag = .loadcurrent then []
  else if κ.currentProcess.isSome then [.requeue, .load]
  else if κ.readyqueue.isSome then [.load]
  else []

theorem loadCurrent_quiet (hF : F .null) : Quiet F loadCurrent :=
  (quiet_current hF).bind fun _ => (silent_setPs _).quiet.bind fun _ =>
    (silent_gets _).quiet.bind fun _ => quiet_leave _

theorem deadlockDetection_quiet : Quiet F deadlockDetection := by
  refine (silent_gets _).quiet.bind fun _ => (silent_gets _).quiet.bind fun _ => ?_
  refine (quiet_leave _).ite ((quiet_leave _).ite (Quiet.ite ?_ (silent_pure ()).quiet))
  exact (silent_setTIMER _).quiet.bind fun _ => (silent_gets _).quiet.bind fun _ =>
    (silent_setSTATUS _).quiet.bind fun _ => quiet_leave _

omit [Platform] in
theorem armTimer_silent : Silent armTimer := by
  refine (silent_gets _).bind fun _ => silent_getTODLO.bind fun _ => Silent.ite ?_ ?_
  · exact silent_getTODLO.bind fun _ => (silent_setTIMER _).bind fun _ =>
      Silent.bind (fun _ => ⟨_, _, rfl, rfl⟩) fun _ => silent_getTODLO.bind fun _ =>
      fun _ => ⟨_, _, rfl, rfl⟩
  · exact silent_setTIMER _

omit [Platform] in
theorem toReady_place {x : Pcb} :
    (v.toReady p).place x = if x = p then .ready else v.place x := Function.update_apply ..

theorem requeueCurrent_run (h : Rep s.core v) :
    ∃ t v', requeueCurrent.run s = .ok () t ∧
      Steps Move (if s.currentProcess.isSome then [.requeue] else []) v v' ∧ Rep t.core v' ∧
      t.currentProcess = none ∧ v'.ready = v.ready ++ s.currentProcess.toList := by
  rw [requeueCurrent, Program.run_gets_bind]
  cases hc : s.currentProcess with
  | none => exact ⟨s, v, rfl, .nil v, h, hc, (List.append_nil _).symm⟩
  | some c =>
      have hoff := h.current_off hc
      obtain ⟨hl, hr⟩ := h.lists.toReady h.ready hoff
      have hplace : ∀ x, (v.toReady c).place x = if x = c then .ready else v.place x := fun x =>
        toReady_place
      refine ⟨_, v.toReady c, rfl, .single (.requeue hoff), ?_, rfl, rfl⟩
      exact
        { lists := hl
          ready := hr
          tree := ⟨h.tree.rep, h.tree.nodup⟩
          value := h.value
          request := h.request
          alive := h.alive
          soft := h.soft
          alive_tree := fun x hx => by
            have hx := h.alive_tree x hx
            unfold Alive at hx ⊢
            rw [hplace]
            split
            · exact ⟨Place.noConfusion, Place.noConfusion⟩
            · exact hx
          current := fun d hd => nomatch hd
          mem_tree := fun x => by
            change x ∈ v.tree.nodes ↔ _
            rw [h.mem_tree, hplace]
            split
            · next hx => simp [hx, hoff]
            · rfl
          not_gone := fun x => by
            rw [hplace]
            split
            · exact Place.noConfusion
            · exact h.not_gone x
          off := fun x => by
            rw [hplace]
            have hx := h.off x
            rw [core_currentProcess, hc] at hx
            split
            · exact ⟨fun hp => (nomatch hp), fun hp => (nomatch hp)⟩
            · next hxc =>
              exact ⟨fun hp => absurd (Option.some.inj (hx.mp hp)).symm hxc,
                fun hp => (nomatch hp)⟩ }

structure Loaded (κ κ' : Core) (link : Pcb → Option Pcb) (tail : Option Pcb) (p : Pcb) : Prop where
  links : κ'.links = { κ.links with pList := link }
  resWait : κ'.resWait = κ.resWait
  ints : κ'.ints = κ.ints
  processCount : κ'.processCount = κ.processCount
  softBlockCount : κ'.softBlockCount = κ.softBlockCount
  readyqueue : κ'.readyqueue = tail
  currentProcess : κ'.currentProcess = some p

omit [Platform] in
theorem Rep.load {κ' : Core} {link : Pcb → Option Pcb} {tail : Option Pcb} {l : List Pcb}
    (h : Rep κ v) (hc : κ.currentProcess = none) (hr : v.ready = p :: l) (hring : Ring link tail l)
    (hframe : ∀ x ∉ p :: l, link x = κ.links.pList x) (hκ : Loaded κ κ' link tail p) :
    Rep κ' (v.load p l) := by
  have hready : v.place p = .ready := (h.ready.mem p).mp (by simp [hr])
  have hpl : p ∉ l := by
    have hnd := h.ready.ring.nodup
    rw [hr] at hnd
    exact (List.nodup_cons.mp hnd).1
  have hplace : ∀ x, (v.load p l).place x = if x = p then .off else v.place x := fun x =>
    Function.update_apply ..
  have hl₀ : Lists { κ.links with pList := link } v := by
    refine h.lists.congr rfl rfl rfl rfl rfl rfl rfl fun x hx _ => hframe x fun hm => hx ?_
    exact (h.ready.mem x).mp (hr ▸ hm)
  have hl : Lists { κ.links with pList := link } (v.load p l) := by
    refine ⟨hl₀.free_ring, hl₀.asl, fun x => ?_, fun x b => ?_, hl₀.null, fun x hx => ?_,
      fun x b hx => ?_⟩
    · rw [hplace]
      split
      · next hxp => simp [View.load, h.lists.mem_free, hxp, hready]
      · exact h.lists.mem_free x
    · rw [hplace]
      split
      · next hxp => simp [View.load, h.lists.mem_queue, hxp, hready]
      · exact h.lists.mem_queue x b
    · rw [hplace] at hx
      split at hx
      · next hxp => exact h.lists.cursem x (Or.inl (hxp ▸ hready))
      · exact h.lists.cursem x hx
    · rw [hplace] at hx
      split at hx
      · cases hx
      · exact h.lists.request_neg x b hx
  have hready' : ReadyRing { κ.links with pList := link } tail (v.load p l) := by
    refine ⟨hring, fun x => ?_⟩
    rw [hplace]
    split
    · next hxp => simpa [View.load, hxp] using hpl
    · next hxp => rw [← h.ready.mem x, hr, List.mem_cons, or_iff_right hxp]; rfl
  have hmem : ∀ x, x ∈ v.tree.nodes ↔ (v.load p l).place x ≠ .free := by
    intro x
    rw [h.mem_tree, hplace]
    split
    · next hxp => simp [hxp, hready]
    · rfl
  have hgone : ∀ x, (v.load p l).place x ≠ .gone := by
    intro x
    rw [hplace]
    split
    · exact Place.noConfusion
    · exact h.not_gone x
  have hoff : ∀ x, (v.load p l).place x = .off ↔ κ'.currentProcess = some x := by
    intro x
    rw [hplace, hκ.currentProcess]
    split
    · next hxp => simp [hxp]
    · next hxp =>
      have hx := h.no_current hc x
      simp only [hx, Option.some.injEq, false_iff]
      exact Ne.symm hxp
  exact
    { lists := hκ.links.symm ▸ hl
      ready := hκ.links.symm ▸ hκ.readyqueue.symm ▸ hready'
      tree := hκ.links.symm ▸ ⟨h.tree.rep, h.tree.nodup⟩
      value := hκ.ints.trans h.value
      request := hκ.resWait.trans h.request
      alive := hκ.processCount.trans h.alive
      soft := hκ.softBlockCount.trans h.soft
      alive_tree := fun x hx => ⟨(hmem x).mp hx, hgone x⟩
      current := fun d hd => by
        have hplace := (hoff d).mpr hd
        exact ⟨hplace, (hmem d).mpr (by simp [hplace])⟩
      mem_tree := hmem
      not_gone := hgone
      off := hoff }

omit [Platform] in
theorem dispatchActs_of_ready (h : Rep κ v) (hr : v.ready ++ κ.currentProcess.toList ≠ []) :
    dispatchActs κ .loadnext =
      (if κ.currentProcess.isSome then [.requeue] else []) ++ [.load] := by
  rw [dispatchActs, if_neg (fun hf => nomatch hf)]
  cases hc : κ.currentProcess with
  | some c => rfl
  | none =>
      have hq : κ.readyqueue ≠ none := fun hn => hr (by simp [hc, h.ready.ring.tail_none_iff.mp hn])
      simp [Option.isSome_iff_ne_none.mpr hq]

omit [Platform] in
theorem dispatchActs_of_idle (h : Rep κ v) (hr : v.ready ++ κ.currentProcess.toList = []) :
    κ.currentProcess = none ∧ dispatchActs κ .loadnext = [] := by
  obtain ⟨hready, hcur⟩ := List.append_eq_nil_iff.mp hr
  have hc : κ.currentProcess = none := Option.toList_eq_nil_iff.mp hcur
  have hq : κ.readyqueue = none := h.ready.ring.tail_none_iff.mpr hready
  exact ⟨hc, by simp [dispatchActs, hc, hq]⟩

theorem loadnext_run (h : Rep κ v) (hF : F .null) :
    Program.Triple (fun t => t.core = κ) loadnext
      (fun _ t => ∃ v', Steps Move (dispatchActs κ .loadnext) v v' ∧ Rep t.core v')
      (fun _ t => ∃ v', Steps Move (dispatchActs κ .loadnext) v v' ∧ Rep t.core v') F := by
  rintro t rfl
  obtain ⟨t₁, v₁, hrun₁, hsteps₁, hrep₁, hnone, hready₁⟩ := requeueCurrent_run h
  obtain ⟨_, t₂, hrun₂, hcore₂⟩ := armTimer_silent t₁
  have hrep₂ : Rep t₂.core v₁ := hrep₁.congr hcore₂
  have hcur₂ : t₂.core.currentProcess = none := by
    rw [hcore₂]
    exact hnone
  have hrest : Quiet F (do
      let now ← getTODLO
      Program.modify fun k => { k with startTOD := now }
      loadCurrent : KM Unit) :=
    silent_getTODLO.quiet.bind fun _ => Quiet.bind (Silent.quiet fun _ => ⟨_, _, rfl, rfl⟩) fun _ =>
      loadCurrent_quiet hF
  rw [loadnext, Program.run_bind_ok hrun₁, Program.run_bind_ok hrun₂, Program.run_gets_bind]
  have hring : Ring t₂.toLinks.pList t₂.readyqueue v₁.ready := hrep₂.ready.ring
  cases hr : v₁.ready with
  | nil =>
      rw [hr] at hring hready₁
      obtain ⟨hc, hacts⟩ := dispatchActs_of_idle h hready₁.symm
      rw [core_currentProcess] at hc
      rw [hc] at hsteps₁
      obtain rfl := steps_nil.mp hsteps₁
      have hremove : (onLinks (removeProcQ t₂.readyqueue)).run t₂ = .ok (none, t₂.readyqueue) t₂ :=
        onLinks_ok (removeProcQ_nil hring)
      rw [Program.run_bind_ok hremove, hacts]
      have hquiet := Quiet.bind (F := F) deadlockDetection_quiet fun _ => hrest
      refine (hquiet t₂.core).conseq (fun (u : Kernel) (hu : u.core = t₂.core) => hu)
        (fun _ u hu => ⟨v₁, .nil v₁, hrep₂.congr hu⟩) (fun _ u hu => ⟨v₁, .nil v₁, hrep₂.congr hu⟩)
        { t₂ with readyqueue := t₂.readyqueue, currentProcess := none } ?_
      simp only [Kernel.core, ← hcur₂]
  | cons p l =>
      rw [hr] at hring
      have hacts := dispatchActs_of_ready h (by
        rw [core_currentProcess, ← hready₁, hr]
        exact List.cons_ne_nil p l)
      obtain ⟨link, tail, hremove, hring', hframe⟩ := removeProcQ_run (χ := Ctl) hring
      rw [Program.run_bind_ok (onLinks_ok hremove), hacts]
      let κ : Core := { t₂.core with
        links := { t₂.core.links with pList := link }, readyqueue := tail, currentProcess :=
          some p }
      have hload : Rep κ (v₁.load p l) :=
        hrep₂.load hcur₂ hr hring' hframe ⟨rfl, rfl, rfl, rfl, rfl, rfl, rfl⟩
      have hsteps := hsteps₁.append (.single (.load hr))
      have hdone := (hrest κ).conseq (fun (w : Kernel) (hw : w.core = κ) => hw)
        (fun _ (w : Kernel) hw => (⟨_, hsteps, hload.congr hw⟩ : ∃ v', Steps Move _ v v' ∧
          Rep w.core v'))
        fun _ (w : Kernel) hw => (⟨_, hsteps, hload.congr hw⟩ : ∃ v', Steps Move _ v v' ∧
          Rep w.core v')
      simp only [Program.run_modify_bind, reduceCtorEq, if_false]
      exact hdone { t₂.setLinks { t₂.toLinks with pList := link } with
        readyqueue := tail, currentProcess := some p } rfl

theorem scheduler_run (h : Rep s.core v) (hF : F .null) :
    Program.Triple (fun t => t = s) scheduler
      (fun _ t => ∃ v', Steps Move (dispatchActs s.core s.flag) v v' ∧ Rep t.core v')
      (fun _ t => ∃ v', Steps Move (dispatchActs s.core s.flag) v v' ∧ Rep t.core v') F := by
  rintro t rfl
  have hnext (hflag : t.flag ≠ .loadcurrent) : Program.Triple (fun w => w.core = t.core) loadnext
      (fun _ w => ∃ v', Steps Move (dispatchActs t.core t.flag) v v' ∧ Rep w.core v')
      (fun _ w => ∃ v', Steps Move (dispatchActs t.core t.flag) v v' ∧ Rep w.core v') F := by
    have hne : ¬ Flag.loadnext = .loadcurrent := Flag.noConfusion
    have hacts : dispatchActs t.core t.flag = dispatchActs t.core .loadnext := by
      rw [dispatchActs, dispatchActs, if_neg hflag, if_neg hne]
    rw [hacts]
    exact loadnext_run h hF
  unfold scheduler
  simp only [getSTATUS, setSTATUS, Program.run_gets_bind, Program.run_modify_bind]
  cases hflag : t.flag with
  | start =>
      simp only [setTIMER, getTODLO, Program.run_bind_bind, Program.run_modify_bind,
        Program.run_gets_bind, Program.run_pure_bind]
      rw [← hflag]
      exact hnext (by rw [hflag]; exact Flag.noConfusion) _ rfl
  | reset =>
      simp only [getTODLO, Program.run_bind_bind, Program.run_modify_bind, Program.run_gets_bind,
        Program.run_pure_bind]
      rw [← hflag]
      exact hnext (by rw [hflag]; exact Flag.noConfusion) _ rfl
  | loadnext =>
      dsimp only
      rw [← hflag]
      exact hnext (by rw [hflag]; exact Flag.noConfusion) _ rfl
  | loadcurrent =>
      exact ((loadCurrent_quiet hF t.core).conseq (fun _ hu => hu)
        (fun _ u hu => ⟨v, .nil v, h.congr hu⟩) fun _ u hu => ⟨v, .nil v, h.congr hu⟩) _ rfl

end JaeOS
