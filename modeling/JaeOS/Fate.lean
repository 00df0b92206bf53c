import JaeOS.Census
import JaeOS.Devices
import JaeOS.EvaluationOrder
import JaeOS.Resumption
import JaeOS.Supply

/-!
# How an entry into the nucleus ends

An entry gives control to somebody, it panics, or it does what C leaves undefined: it goes through
`NULL`, leaves an array, or never ends. Which of the three is read off the state at the entry.
-/

open LinkRing LinkForest Transition

namespace JaeOS

inductive Fate where
  | goes
  | panics
  | crashes
  deriving Repr, DecidableEq

def Ctl.fate : Ctl → Fate
  | .panic => .panics
  | _ => .goes

section Outcomes

variable {α β : Type} {x : KM α} {f : α → KM β} {s t : Kernel} {r : α} {ctl : Ctl} {e : Fault}

def fate (x : KM α) (s : Kernel) : Fate :=
  match x.run s with
  | .ok _ _ => .goes
  | .exit ctl _ => ctl.fate
  | .fault _ => .crashes

theorem fate_ok (h : x.run s = .ok r t) : fate x s = .goes := by
  rw [fate, h]

theorem fate_exit (h : x.run s = .exit ctl t) : fate x s = ctl.fate := by
  rw [fate, h]

theorem fate_fault (h : x.run s = .fault e) : fate x s = .crashes := by
  rw [fate, h]

theorem fate_bind_ok (h : x.run s = .ok r t) : fate (x >>= f) s = fate (f r) t := by
  rw [fate, Program.run_bind_ok h, ← fate]

/-- What follows goes on whatever `x` returns. -/
theorem fate_bind (h : ∀ r t, x.run s = .ok r t → fate (f r) t = .goes) :
    fate (x >>= f) s = fate x s := by
  cases hrun : x.run s with
  | ok r t => rw [fate_bind_ok hrun, h r t hrun, fate_ok hrun]
  | exit ctl t => rw [fate_exit (Program.run_bind_exit hrun f), fate_exit hrun]
  | fault e => rw [fate_fault (Program.run_bind_fault hrun f), fate_fault hrun]

theorem fate_ite {b : Prop} [Decidable b] {y : KM α} :
    fate (if b then x else y) s = if b then fate x s else fate y s := by
  split <;> rfl

theorem fate_goes {P : Kernel → Prop} {Q : α → Kernel → Prop} {E : Ctl → Kernel → Prop}
    (h : Program.Triple P x Q E fun _ => False) (hs : P s) (hE : ∀ ctl t, E ctl t → ctl ≠ .panic) :
    fate x s = .goes := by
  cases hrun : x.run s with
  | ok r t => exact fate_ok hrun
  | exit ctl t =>
      rw [fate_exit hrun]
      have hctl := hE ctl t (h.of_exit hs hrun)
      cases ctl <;> first | rfl | exact absurd rfl hctl
  | fault e => exact (h.not_fault hs hrun).elim

end Outcomes

section Nucleus

variable [Platform]

/-! ### Services -/

/-- When there is a PCB, `CREATEPROCESS` goes through `NULL` if that is the state it is given, and
never ends if `pid_generator` finds no power of ten. -/
def createFate (k : Kernel) (statep : Word) : Fate :=
  if k.pcbFree ≠ none ∧ (statep = 0 ∨ pidPow k.counter 33 10 = none) then .crashes else .goes

def terminateFate (k : Kernel) (c : Pcb) (pid : Word) : Fate :=
  if terminated k.core c pid = none then .panics else .goes

def semFate (a : ℕ) : Fate := if a = 0 then .panics else .goes

/-- `IODEVOP` crashes if there is no such device, or if it blocks its caller and the compiler reads
`current_process` after the call. -/
def ioFate (k : Kernel) (intlNo dnum : Word) : Fate :=
  let i := semIndex intlNo (termRead intlNo dnum) dnum
  if i < maxDevices ∧ regIndex intlNo dnum < 40 ∧
      (Platform.leftFirst = true ∨ 0 ≤ Platform.wrap (k.ints (semAddr i) + -1)) then .goes
  else .crashes

def cputimeFate (global user : Word) : Fate := if global = 0 ∨ user = 0 then .crashes else .goes

def serviceFate (k : Kernel) (c : Pcb) (sys a2 a3 a4 : Word) : Fate :=
  if sys = 1 then createFate k a2
  else if sys = 2 then terminateFate k c a2
  else if sys = 3 then semFate a2.toNat
  else if sys = 8 then cputimeFate a2 a3
  else if sys = 10 then ioFate k a3 a4
  else .goes

/-- The memory of the model has a word at every address, `NULL` included. What a service is to read
or write through its arguments must be there. -/
def PointersGiven (sys a2 a3 : Word) : Prop :=
  (sys = 1 → a2 ≠ 0) ∧ (sys = 8 → a2 ≠ 0 ∧ a3 ≠ 0)

instance {sys a2 a3 : Word} : Decidable (PointersGiven sys a2 a3) :=
  inferInstanceAs (Decidable (_ ∧ _))

variable {s : Kernel} {v : View} {c p : Pcb} {a : ℕ} {w : ℤ} {u : Word} {e : Excp} {st : State}

theorem terminateProcess_fate (h : Rep s.core v) (hc : s.currentProcess = some c)
    (ht : Tame v ((terminated s.core c u).map .terminate)) :
    fate (terminateProcess u) s = terminateFate s c u := by
  have hrun := terminateProcess_run u h.toWellFormed hc
  unfold terminateFate
  cases hterm : terminated s.core c u with
  | none =>
      rw [hterm] at hrun
      rw [if_pos rfl]
      exact fate_exit hrun
  | some t =>
      rw [hterm] at hrun ht
      obtain ⟨ks, k₀, hp, -, -, ⟨e, -, x, hx, hready⟩ | ⟨m', q, hok, -, -⟩⟩ := hrun
      · exact absurd hready (ht t rfl ks hp x hx)
      · rw [if_neg (Option.some_ne_none t)]
        exact fate_ok hok

theorem terminateCurrent_fate (h : Rep s.core v) (hc : s.currentProcess = some c) (ht : v.Idle c) :
    fate terminateCurrent s = .goes := by
  have hself : terminated s.core c (s.pid c) = some c := if_pos (Or.inr rfl)
  have hkill := terminateProcess_fate (u := s.pid c) h hc (by
    rw [hself]
    rintro t ⟨⟩
    exact ht)
  rw [terminateFate, hself, if_neg (Option.some_ne_none c)] at hkill
  have hrun :
      fate terminateCurrent s =
      fate (terminateProcess (s.pid c) >>= fun _ => (callScheduler : KM Unit)) s := by
    rw [fate, terminateCurrent, Program.run_bind_ok (current_ok hc), Program.run_gets_bind, ← fate]
  rw [hrun, ← hkill]
  exact fate_bind fun _ _ _ => rfl

theorem semaphoreOperation_fate (h : Rep s.core v) (hc : s.currentProcess = some c)
    (ht : Tame v (semAct c a w)) : fate (semaphoreOperation a w) s = semFate a := by
  unfold semFate
  by_cases ha : a = 0
  · rw [if_pos ha, ha]
    exact fate_exit semaphoreOperation_null
  rw [if_neg ha]
  rw [semAct, if_neg ha] at ht
  rcases Int.lt_trichotomy w 0 with hw | rfl | hw
  · have hself : s.withLists s.core.links v = s := h.withLists
    rw [fate, semaphoreOperation_neg ha hw, ← fate]
    by_cases hi : 0 ≤ v.credit a w
    · have hrun := passeren_pass (k := s) (m := s.core.links) hi
      rw [hself] at hrun
      exact fate_ok hrun
    · obtain ⟨m, hrun, -⟩ :=
        passeren_block (k := s) h.lists hc (h.current_off hc) ha hw (Int.not_le.mp hi)
      rw [hself] at hrun
      exact fate_ok hrun
  · rw [if_pos rfl] at ht
    have hself : terminated s.core c (s.pid c) = some c := if_pos (Or.inr rfl)
    have hkill := terminateProcess_fate (u := s.pid c) h hc (by rw [hself]; exact ht)
    rw [terminateFate, hself, if_neg (Option.some_ne_none c)] at hkill
    rw [fate, semaphoreOperation_zero ha hc, ← fate]
    exact hkill
  · obtain ⟨m, t, hrun, -⟩ := verhogen_ok (a := a) (w := w) h
    rw [fate, semaphoreOperation_pos ha hw, ← fate]
    exact fate_ok hrun

theorem assignA1_fate {x : KM Word} (hc : s.currentProcess = some c)
    (hx : ∀ r t, x.run s = .ok r t → t.currentProcess = some c) :
    fate (assignA1 x) s = fate x s := by
  unfold assignA1
  split
  · rw [fate_bind_ok (current_ok hc)]
    exact fate_bind fun _ _ _ => rfl
  · apply fate_bind
    intro r t hrun
    rw [fate_bind_ok (current_ok (hx r t hrun))]
    rfl

theorem createProcess_fate (h : Rep s.core v) (hc : s.currentProcess = some c) (hu : u ≠ 0) :
    fate (createProcess u) s = createFate s u := by
  have hring : Ring s.pList s.pcbFree v.free := h.lists.free_ring
  unfold createFate
  cases hf : v.free with
  | nil =>
      rw [hf] at hring
      rw [if_neg fun hn => hn.1 (hring.tail_none_iff.mpr rfl)]
      exact fate_ok (createProcess_full h hf)
  | cons p l =>
      have hsome : s.pcbFree ≠ none := fun hn => by
        have hnil := hring.tail_none_iff.mp hn
        rw [hf] at hnil
        cases hnil
      obtain ⟨link, tail, hrun, -, -⟩ := Lists.allocate (μ := s.toMem) Platform.tmpAddr h.lists hf
      rw [fate, createProcess, Program.run_bind_ok (onMem_run hrun)]
      simp only [Program.run_modify_bind, Program.run_gets_bind, setPs, current, assignPid,
        pidGenerator, Kernel.setMem, Kernel.setLinks, hc, Program.need_some, Program.run_bind_bind,
        Program.run_pure_bind]
      cases hpow : pidPow s.counter 33 10 with
      | none =>
          rw [if_pos ⟨hsome, Or.inr rfl⟩]
          simp only [Program.need_none, Program.run_fail_bind]
      | some pow =>
          rw [if_neg fun hn => hn.2.elim hu (Option.some_ne_none pow)]
          simp only [Program.need_some, Program.run_pure_bind, Program.run_modify_bind]
          rfl

omit [Platform] in
theorem setPs_fate {r : Word} (hc : s.currentProcess = some c) :
    fate (do let p ← current; setPs p fun s => { s with a1 := r } : KM Unit) s = .goes := by
  rw [fate_bind_ok (current_ok hc)]
  rfl

/-- The assignment of the status is what makes a difference between the two orders of evaluation. -/
theorem assignIo_fate {cmd intlNo dnum : Word} (h : Rep s.core v) (hc : s.currentProcess = some c) :
    fate (assignA1 (ioDevop cmd intlNo dnum)) s = ioFate s intlNo dnum := by
  unfold ioFate
  dsimp only
  by_cases hi : semIndex intlNo (termRead intlNo dnum) dnum < maxDevices
  · simp only [hi, true_and]
    have hself : s.enable.withLists s.core.links v = s.enable := Rep.withLists (k := s.enable) h
    have hvalue : v.credit (semAddr (semIndex intlNo (termRead intlNo dnum) dnum)) (-1) =
        Platform.wrap (s.ints (semAddr (semIndex intlNo (termRead intlNo dnum) dnum)) + -1) := by
      rw [View.credit, ← h.value]
      rfl
    -- `P` returns, and keeps the caller just if the value does not become negative
    obtain ⟨t, hrun, hcur⟩ : ∃ t,
        (passeren (semAddr (semIndex intlNo (termRead intlNo dnum) dnum)) (-1)).run s.enable =
        .ok () t ∧
        t.currentProcess = if 0 ≤ v.credit (semAddr (semIndex intlNo (termRead intlNo dnum) dnum))
          (-1)
          then some c else none := by
      by_cases hpass : 0 ≤ v.credit (semAddr (semIndex intlNo (termRead intlNo dnum) dnum)) (-1)
      · have hrun := passeren_pass (k := s.enable) (m := s.core.links) hpass
        rw [hself] at hrun
        exact ⟨_, hrun, by rw [if_pos hpass]; exact hc⟩
      · obtain ⟨m, hrun, -⟩ := passeren_block (k := s.enable) h.lists hc (h.current_off hc)
          (semAddr_ne_zero _) (by decide) (Int.not_le.mp hpass)
        rw [hself] at hrun
        exact ⟨_, hrun, by rw [if_neg hpass]; rfl⟩
    have hio : ∀ {β : Type} (f : Word → KM β), fate (ioDevop cmd intlNo dnum >>= f) s =
        fate (ioCommand cmd intlNo dnum >>= f) t := by
      intro β f
      rw [fate, Program.run_bind, ioDevop_eq hi, Program.run_bind_ok hrun, ← Program.run_bind,
        ← fate]
    rw [← hvalue]
    by_cases hr : regIndex intlNo dnum < 40
    · simp only [hr, true_and]
      obtain ⟨u, hcmd, -⟩ := ioCommand_run (s := t) cmd hr
      have hcuru := ioCommand_current hr hcmd
      unfold assignA1
      cases hleft : Platform.leftFirst with
      | true =>
          rw [if_pos rfl, if_pos (Or.inl rfl), fate_bind_ok (current_ok hc), hio, fate_bind_ok hcmd]
          rfl
      | false =>
          rw [if_neg Bool.false_ne_true, hio, fate_bind_ok hcmd]
          by_cases hpass : 0 ≤ v.credit (semAddr (semIndex intlNo (termRead intlNo dnum) dnum)) (-1)
          · rw [if_pos (Or.inr hpass)]
            apply setPs_fate (c := c)
            rw [hcuru, hcur, if_pos hpass]
          · rw [if_neg (by simp [hpass])]
            rw [if_neg hpass] at hcur
            rw [fate, current, Program.run_bind_bind, Program.run_gets_bind, hcuru, hcur]
            rfl
    · rw [if_neg fun hn => hr hn.1]
      have hcmd : ∀ {β : Type} (f : Word → KM β), fate (ioCommand cmd intlNo dnum >>= f) t =
          .crashes := by
        intro β f
        rw [fate, Program.run_bind, ioCommand, devRegAddr, if_neg hr]
        rfl
      unfold assignA1
      split
      · rw [fate_bind_ok (current_ok hc), hio, hcmd]
      · rw [hio, hcmd]
  · rw [if_neg fun hn => hi hn.1]
    have hio : ∀ {β : Type} (f : Word → KM β), fate (ioDevop cmd intlNo dnum >>= f) s =
        .crashes := by
      intro β f
      have hstart : ioEnable.run s = .ok () s.enable := rfl
      rw [fate, ioDevop, Program.run_bind_bind, Program.run_bind_ok hstart, ioWait,
        Program.run_bind_bind,
        Program.run_bind_bind, deviceSemAt, if_neg hi]
      rfl
    unfold assignA1
    split
    · rw [fate_bind_ok (current_ok hc), hio]
    · rw [hio]

theorem specify_fate {pc sp flags : Word} (h : Rep s.core v) (hc : s.currentProcess = some c)
    (ht : Tame v (specifyAct s.core c e)) : fate (specify e pc sp flags) s = .goes := by
  rw [fate, specify, Program.run_bind_ok (current_ok hc), Program.run_gets_bind]
  cases htag : s.tags c e with
  | true =>
      have hact : specifyAct s.core c e = some (.terminate c) := if_pos htag
      rw [hact] at ht
      rw [if_pos rfl, ← fate, fate_bind fun r t hrun => absurd hrun terminateCurrent_ends]
      exact terminateCurrent_fate h hc (ht c rfl)
  | false => rfl

theorem service_fate {sys a2 a3 a4 : Word} (h : Rep s.core v) (hc : s.currentProcess = some c)
    (hsys : 1 ≤ sys ∧ sys ≤ 11) (hgiven : PointersGiven sys a2 a3)
    (ht : Tame v (serviceAct s.core c sys a2 a3 a4)) :
    fate (service sys a2 a3 a4) s = serviceFate s c sys a2 a3 a4 := by
  unfold service serviceFate
  unfold serviceAct at ht
  by_cases h1 : sys = 1
  · rw [if_pos h1, if_pos h1, assignA1_fate hc, createProcess_fate h hc (hgiven.1 h1)]
    intro r t hrun
    have hends := (createProcess_ends (u := a2) h hc).of_run rfl hrun
    have hcur : t.face.currentProcess = s.face.currentProcess := by
      generalize t.face = g at hends
      cases hends <;> rfl
    exact hcur.trans hc
  rw [if_neg h1] at ht ⊢
  rw [if_neg h1]
  by_cases h2 : sys = 2
  · rw [if_pos h2] at ht ⊢
    rw [if_pos h2, terminateProcess_fate h hc ht]
  rw [if_neg h2] at ht ⊢
  rw [if_neg h2]
  by_cases h3 : sys = 3
  · rw [if_pos h3] at ht ⊢
    rw [if_pos h3, semaphoreOperation_fate h hc ht]
  rw [if_neg h3] at ht ⊢
  rw [if_neg h3]
  by_cases h4 : sys = 4
  · subst h4
    exact specify_fate h hc ht
  rw [if_neg h4] at ht ⊢
  by_cases h5 : sys = 5
  · subst h5
    exact specify_fate h hc ht
  rw [if_neg h5] at ht ⊢
  by_cases h6 : sys = 6
  · subst h6
    exact specify_fate h hc ht
  rw [if_neg h6] at ht ⊢
  by_cases h7 : sys = 7
  · subst h7
    have hvia : ∀ e, fate (exitVia e a3) s = .goes := fun e => fate_exit (exitVia_run hc)
    rw [if_pos rfl, if_neg (by decide), if_neg (by decide), exitTrap, fate_ite, fate_ite, fate_ite,
      hvia, hvia, hvia]
    split <;> first | rfl | split <;> first | rfl | split <;> rfl
  rw [if_neg h7]
  by_cases h8 : sys = 8
  · subst h8
    have hneg : ¬ (a2 = 0 ∨ a3 = 0) := not_or.mpr (hgiven.2 rfl)
    rw [if_pos rfl, if_pos rfl, cputimeFate, if_neg hneg, getCputime, fate_bind_ok (current_ok hc)]
    rfl
  rw [if_neg h8, if_neg h8]
  by_cases h9 : sys = 9
  · subst h9
    rw [if_pos rfl, if_neg (by decide), waitClock, semaphoreOperation_fate h hc]
    · exact if_neg (semAddr_ne_zero _)
    · rw [semAct, if_neg (semAddr_ne_zero _)]
      rintro t ⟨⟩
  rw [if_neg h9]
  by_cases h10 : sys = 10
  · rw [if_pos h10, if_pos h10]
    exact assignIo_fate h hc
  rw [if_neg h10, if_neg h10]
  by_cases h11 : sys = 11
  · rw [if_pos h11]
    have hpid : getpid.run s = .ok (s.pid c) s := by
      rw [getpid, Program.run_bind_ok (current_ok hc)]
      rfl
    rw [assignA1_fate hc, fate_ok hpid]
    intro r t hrun
    rw [hpid] at hrun
    cases hrun
    exact hc
  · exfalso
    bv_omega

/-! ### System calls and traps -/

/-- What is left of a service requested in user mode, of a breakpoint or of another number, kills
the process or is passed up. -/
def callFate (k : Kernel) (c : Pcb) (st : State) : Fate :=
  if isService st ∧ ¬ isUserMode st then serviceFate k c st.a1 st.a2 st.a3 st.a4 else .goes

theorem trapHandler_fate {ve : Vec} (h : Rep s.core v) (hc : s.currentProcess = some c)
    (ht : Tame v (trapAct s.core c e)) : fate (trapHandler e ve) s = .goes := by
  have hcur : current.run s.start = .ok c s.start := current_ok hc
  rw [fate, trapHandler, start_run, Program.run_bind_ok hcur, Program.run_gets_bind]
  cases htag : s.start.tags c e with
  | true => rfl
  | false =>
      have hact : trapAct s.core c e = some (.terminate c) := if_neg (Bool.eq_false_iff.mp htag)
      rw [hact] at ht
      rw [if_pos rfl, ← fate, fate_bind fun r t hrun => absurd hrun terminateCurrent_ends]
      exact terminateCurrent_fate (s := s.start) h hc (ht c rfl)

omit [Platform] in
theorem serviceEnd_fate : fate serviceEnd s = .goes := by
  obtain ⟨t, hrun, -⟩ := serviceEnd_run s
  exact fate_exit hrun

theorem syscallHandler_fate (h : Rep s.core v) (hc : s.currentProcess = some c)
    (hst : s.hw.oldArea .sysbk = st)
    (hgiven : isService st = true → isUserMode st = false → PointersGiven st.a1 st.a2 st.a3)
    (ht : Tame v (syscallAct s.core c st)) :
    fate syscallHandler s = callFate s c st := by
  have hst' : (s.trap c).hw.oldArea .sysbk = st := hst
  have hps : (s.trap c).pS c = st := (Function.update_self ..).trans hst
  rw [fate, syscallHandler, Program.run_bind_ok (syscallEnter_ok hc), Program.run_gets_bind,
    hst', ← fate]
  unfold callFate
  unfold syscallAct at ht
  by_cases hserv : isService st
  · rw [if_pos hserv] at ht ⊢
    rw [fate, Program.run_gets_bind, hps, ← fate]
    by_cases huser : isUserMode st
    · rw [if_pos huser] at ht ⊢
      rw [if_neg fun hn => hn.2 huser]
      have hrun : (reflectSyscall c).run (s.trap c) = pgmtrapHandler.run
          (((s.trap c).withOldArea .pgmtrap fun _ => reservedState st).charge c) := by
        simp only [reflectSyscall, Program.run_gets_bind, hps, run_setOldArea_bind,
          withOldArea_withOldArea, run_chargeKernel_bind]
        rfl
      rw [fate, hrun, ← fate]
      exact trapHandler_fate
        (s := ((s.trap c).withOldArea .pgmtrap fun _ => reservedState st).charge c)
        h hc ht
    · rw [if_neg huser] at ht ⊢
      rw [if_pos ⟨hserv, huser⟩, fate_bind fun _ _ _ => serviceEnd_fate]
      have hnum : 1 ≤ st.a1 ∧ st.a1 ≤ 11 := by
        simp only [isService, Bool.and_eq_true, decide_eq_true_eq] at hserv
        exact ⟨hserv.1.2, hserv.2⟩
      exact service_fate (s := s.trap c) h hc hnum (hgiven hserv (Bool.eq_false_iff.mpr huser)) ht
  · rw [if_neg hserv] at ht ⊢
    rw [if_neg fun hn => hserv hn.1, fate, passUpSyscall, Program.run_gets_bind]
    cases htag : (s.trap c).tags c .sys with
    | true => rfl
    | false =>
        have hact : trapAct s.core c .sys = some (.terminate c) :=
          if_neg (Bool.eq_false_iff.mp htag)
        rw [hact] at ht
        rw [if_pos rfl, ← fate, fate_bind fun r t hrun => absurd hrun terminateCurrent_ends]
        exact terminateCurrent_fate (s := s.trap c) h hc (ht c rfl)

/-! ### Interrupts -/

/-- An interrupt crashes if no device has its bit set on a line whose next registers are beyond the
last, or if nobody waits for what has been completed although the integer says so. -/
def interruptFate (k : Kernel) (hw : Hw) : Fate :=
  match pendingLine hw.cause with
  | none => .goes
  | some il =>
    if il = intTimer then .goes
    else if regIndex il (pendingDevice hw il) < 40 ∧ ∀ i ∈ lineCompletions hw il,
        k.ints (semAddr i) < 1 → waiting k.toLinks (semAddr i) ≠ [] then .goes
    else .crashes

/-- The loop of `timer_handler` counts up to 0. -/
theorem tickLoop_fate {n : ℕ} (h : Rep s.core v) (hlow : -2 ^ 31 ≤ s.ints (semAddr clockSem))
    (hn : (-s.ints (semAddr clockSem)).toNat < n) : fate (tickLoop n) s = .goes := by
  induction n generalizing s v with
  | zero => exact absurd hn (Nat.not_lt_zero _)
  | succ n ih =>
      rw [fate, tickLoop, Program.run_gets_bind, ← fate]
      by_cases hi : s.ints (semAddr clockSem) < 0
      · rw [if_pos hi]
        obtain ⟨m, q, hrun, hrep⟩ := verhogen_ok (a := semAddr clockSem) (w := 1) h
        have hop : (semaphoreOperation (semAddr clockSem) 1).run s = _ :=
          (semaphoreOperation_pos (semAddr_ne_zero _) Int.one_pos).trans hrun
        have hvalue : ((s.setReady q).withLists m (v.verhogen (semAddr clockSem) 1)).ints
            (semAddr clockSem) = s.ints (semAddr clockSem) + 1 := by
          rw [withLists_ints, verhogen_value, View.credit, ← h.value]
          exact Platform.wrap_eq _ (by change _ ≤ s.ints _ + 1; omega)
            (by change s.ints _ + 1 < _; omega)
        rw [fate_bind_ok hop]
        exact ih hrep (by rw [hvalue]; omega) (by rw [hvalue]; omega)
      · rw [if_neg hi]
        rfl

theorem timerHandler_fate (h : Rep s.core v) (hlow : -2 ^ 31 ≤ s.ints (semAddr clockSem)) :
    fate timerHandler s = .goes := by
  rw [fate, timerHandler, Program.run_gets_bind, ← fate]
  split
  · rw [fate, Program.run_gets_bind, ← fate, ← tickLoop_fate h hlow (Nat.lt_succ_self _)]
    exact fate_bind fun _ _ _ => rfl
  · rfl

/-- A signal finds a waiter, unless the integer says that there is none. -/
theorem signals_found {l : List ℕ} {v' : View} (hl : l.Nodup)
    (h : Steps Move (l.map fun i => .signal (semAddr i)) v v') :
    ∀ i ∈ l, v.value (semAddr i) < 1 → v.queue (semAddr i) ≠ [] := by
  induction l generalizing v with
  | nil =>
      intro i hi
      cases hi
  | cons j l ih =>
      obtain ⟨u, hmove, hsteps⟩ := steps_cons.mp h
      obtain ⟨hjl, hnd⟩ := List.nodup_cons.mp hl
      intro i hi hlow
      rcases List.mem_cons.mp hi with rfl | hil
      · cases hmove with
        | noSignal hone => omega
        | signal hone hq => exact hq
      · have hne : semAddr i ≠ semAddr j := fun he => hjl (semAddr_injective he ▸ hil)
        obtain ⟨hvalue, hqueue⟩ := signal_frame hmove hne
        rw [← hqueue]
        exact ih hnd hsteps i hil (by rw [hvalue]; exact hlow)

omit [Platform] in
theorem devRegAddr_beyond {α : Type} {il dnum : Word} {f : ℕ → KM α}
    (hr : ¬ regIndex il dnum < 40) :
    (devRegAddr il dnum >>= f).run s = .fault .bounds := by
  unfold devRegAddr
  simp only [if_neg hr, Program.run_fail_bind]

theorem devHandler_beyond {il : Word} (hr : ¬ regIndex il (pendingDevice s.hw il) < 40) :
    (devHandler il).run s = .fault .bounds := by
  rw [devHandler, Program.run_gets_bind]
  exact devRegAddr_beyond hr

theorem terminalHandler_beyond
    (hr : ¬ regIndex intTerminal (pendingDevice s.hw intTerminal) < 40) :
    terminalHandler.run s = .fault .bounds := by
  rw [terminalHandler, Program.run_gets_bind]
  exact devRegAddr_beyond hr

theorem serveLine_fate (h : Rep s.core v) (hlow : -2 ^ 31 ≤ s.ints (semAddr clockSem)) :
    fate (serveLine s.hw.cause) s = interruptFate s s.hw := by
  have hwaiting : waiting s.toLinks = v.queue := h.waiting_eq
  have hints : s.ints = v.value := h.value
  unfold interruptFate
  rw [hwaiting, hints]
  have heq := serveLine_eq s.hw.cause
  have hmoves := serveLine_run (F := fun _ => True) h (fun il _ =>
    ⟨fun _ => trivial, fun _ => Or.inr trivial, fun _ _ => Or.inr trivial, fun _ _ _ _ => trivial⟩)
  cases hline : pendingLine s.hw.cause with
  | none =>
      rw [hline] at heq
      rw [heq]
      rfl
  | some il =>
      rw [hline] at heq
      dsimp only at heq ⊢
      by_cases htimer : il = intTimer
      · rw [if_pos htimer] at heq ⊢
        rw [heq]
        exact timerHandler_fate h hlow
      · rw [if_neg htimer] at heq ⊢
        split
        · next hserved =>
          have hF : ∀ jl, pendingLine s.hw.cause = some jl →
              ServedLine (fun _ => False) v s.hw jl := by
            intro jl hjl
            obtain rfl : il = jl := Option.some.inj (hline.symm.trans hjl)
            refine ⟨fun he => absurd he htimer, fun _ => Or.inl hserved.1, fun i hi => Or.inl ?_,
              ?_⟩
            · have hmem : i ∈ completions s.hw := by
                rw [completions, hline]
                exact hi
              exact completions_lt hmem
            · exact fun i hi hone hq => hserved.2 i hi hone hq
          exact fate_goes (serveLine_run h hF) rfl fun _ _ hf => hf.elim
        · next hserved =>
          cases hrun : (serveLine s.hw.cause).run s with
          | fault e => exact fate_fault hrun
          | exit ctl t => exact (hmoves.of_exit rfl hrun).elim
          | ok r t =>
              exfalso
              apply hserved
              constructor
              · by_contra hreg
                rw [heq] at hrun
                by_cases hterm : il = intTerminal
                · rw [if_pos hterm, terminalHandler_beyond (hterm ▸ hreg)] at hrun
                  cases hrun
                · rw [if_neg hterm, devHandler_beyond hreg] at hrun
                  cases hrun
              · obtain ⟨acts, v', ⟨n, rfl⟩, hsteps, -⟩ := hmoves.of_run rfl hrun
                obtain ⟨u, hsignals, -⟩ := steps_append.mp hsteps
                have hfound := signals_found (completions_nodup s.hw) hsignals
                intro i hi
                apply hfound i
                rw [completions, hline]
                exact hi

theorem interruptHandler_fate (h : Rep s.core v) (hlow : -2 ^ 31 ≤ s.ints (semAddr clockSem)) :
    fate interruptHandler s = interruptFate s s.hw := by
  obtain ⟨t, hrun, hcore, hcause, hbitmap, hdevreg⟩ := interruptEnter_run s
  have hline : ∀ il, lineCompletions t.hw il = lineCompletions s.hw il := by
    intro il
    unfold lineCompletions pendingDevice
    rw [hbitmap, hdevreg]
  have hsame : interruptFate t t.hw = interruptFate s s.hw := by
    unfold interruptFate pendingDevice
    simp only [hcause, hline, hbitmap, show t.ints = s.ints from congrArg Core.ints hcore,
      show t.toLinks = s.toLinks from congrArg Core.links hcore]
  have hserve := serveLine_fate (h.congr hcore)
    (show -2 ^ 31 ≤ t.ints
      (semAddr clockSem) by rw [show t.ints = s.ints from congrArg Core.ints hcore]; exact hlow)
  rw [hsame, hcause] at hserve
  rw [← hserve, fate, interruptHandler, interruptBody, Program.run_bind_bind,
    Program.run_bind_ok hrun,
    Program.run_bind_bind, ← fate]
  apply fate_bind
  intro r u _
  rw [fate, Program.run_bind_bind, Program.run_gets_bind]
  cases u.currentProcess <;> rfl

/-! ### The scheduler -/

omit [Platform] in
/-- When nobody can run, the counters say that nobody is alive or that somebody waits. -/
theorem Rep.verdict (h : Rep s.core v) (hcount : Counted v) (hcur : s.currentProcess = none)
    (hready : s.readyqueue = none) :
    verdict s.processCount s.softBlockCount = some .halt ∨
      verdict s.processCount s.softBlockCount = some .wait := by
  have halive : s.processCount = v.tree.nodes.length := h.alive.trans hcount.alive
  have hsoft : s.softBlockCount = blockedCount v.place := h.soft.trans hcount.soft
  unfold JaeOS.verdict
  by_cases hnone : v.tree.nodes = []
  · left
    rw [if_pos (by rw [halive, hnone]; rfl)]
  · right
    obtain ⟨p, hp⟩ := List.exists_mem_of_ne_nil _ hnone
    have hblocked := (h.idle hcur hready p).resolve_left ((h.mem_tree p).mp hp)
    have hpos := blockedCount_pos hblocked
    have hlen := List.length_pos_of_mem hp
    rw [if_neg (by omega), if_neg (by omega), if_pos (by omega)]

theorem loadnext_fate (h : Rep s.core v) (hcount : Counted v) : fate loadnext s = .goes := by
  by_cases hr : v.ready ++ s.core.currentProcess.toList = []
  · obtain ⟨hcur, -⟩ := dispatchActs_of_idle h hr
    have hready : s.readyqueue = none :=
      h.ready.ring.tail_none_iff.mpr (List.append_eq_nil_iff.mp hr).1
    rcases h.verdict hcount hcur hready with hv | hv
    · obtain ⟨t, hrun⟩ := loadnext_idle hcur hready hv
      exact fate_exit hrun
    · obtain ⟨t, hrun⟩ := loadnext_idle hcur hready hv
      exact fate_exit hrun
  · obtain ⟨s₁, v₁, hrun₁, -, hrep₁, -, hready₁⟩ := requeueCurrent_run h
    obtain ⟨_, s₂, hrun₂, hcore₂⟩ := armTimer_silent s₁
    have hrep₂ : Rep s₂.core v₁ := hrep₁.congr hcore₂
    have hring : Ring s₂.toLinks.pList s₂.readyqueue v₁.ready := hrep₂.ready.ring
    obtain ⟨p, l, hpl⟩ := List.exists_cons_of_ne_nil (hready₁ ▸ hr)
    rw [hpl] at hring
    obtain ⟨link, tail, hremove, -⟩ := removeProcQ_run (χ := Ctl) hring
    rw [fate, loadnext, Program.run_bind_ok hrun₁, Program.run_bind_ok hrun₂, Program.run_gets_bind,
      Program.run_bind_ok (onLinks_ok hremove)]
    simp only [Program.run_modify_bind, reduceCtorEq, if_false]
    obtain ⟨t, hrun, -⟩ := startCurrent_run (p := p) (s := { s₂.setLinks
      { s₂.toLinks with pList := link } with readyqueue := tail, currentProcess := some p }) rfl
    rw [hrun]
    rfl

theorem scheduler_fate (h : Rep s.core v) (hcount : Counted v)
    (hgo : s.flag = .loadcurrent → s.currentProcess ≠ none) : fate scheduler s = .goes := by
  have hnext : ∀ t : Kernel, t.core = s.core → fate loadnext t = .goes := fun t ht =>
    loadnext_fate (h.congr ht) hcount
  cases hflag : s.flag with
  | loadcurrent =>
      obtain ⟨c, hc⟩ := Option.ne_none_iff_exists'.mp (hgo hflag)
      obtain ⟨t, hrun⟩ := scheduler_loadcurrent hflag hc
      exact fate_exit hrun
  | start =>
      unfold scheduler
      simp only [fate, getSTATUS, setSTATUS, setTIMER, getTODLO, Program.run_bind_bind,
        Program.run_gets_bind, Program.run_modify_bind, Program.run_pure_bind, hflag]
      exact hnext _ rfl
  | reset =>
      unfold scheduler
      simp only [fate, getSTATUS, setSTATUS, getTODLO, Program.run_bind_bind, Program.run_gets_bind,
        Program.run_modify_bind, Program.run_pure_bind, hflag]
      exact hnext _ rfl
  | loadnext =>
      unfold scheduler
      simp only [fate, getSTATUS, setSTATUS, Program.run_gets_bind, Program.run_modify_bind, hflag]
      exact hnext _ rfl

/-! ### Who is running -/

section Manned

variable {f g : Face} {ctl : Ctl} {o : Option Ctl}

/-- A process is running if one has been loaded, or if the scheduler is to go on with it. -/
def Manned (ctl : Ctl) (f : Face) : Prop :=
  (∀ st, ctl = .ldst st → f.currentProcess ≠ none) ∧
    (ctl = .scheduler → f.flag = .loadcurrent → f.currentProcess ≠ none)

omit [Platform] in
theorem manned_ldst {st : State} (hc : f.currentProcess = some c) : Manned (.ldst st) f :=
  ⟨fun _ _ hn => Option.some_ne_none c (hc.symm.trans hn), fun he => Ctl.noConfusion he⟩

omit [Platform] in
theorem manned_scheduler (h : Resumable f.flag f.currentProcess) : Manned .scheduler f := by
  refine ⟨fun _ he => Ctl.noConfusion he, fun _ hflag => ?_⟩
  rcases h with ⟨-, hc⟩ | hnext | hreset
  · exact hc
  · exact Flag.noConfusion (hflag.symm.trans hnext)
  · exact Flag.noConfusion (hflag.symm.trans hreset)

theorem Serves.loads (h : Serves v f c st (some ctl) g) (hctl : ctl ≠ .scheduler)
    (hpanic : ctl ≠ .panic) :
    g.currentProcess = f.currentProcess := by
  cases h with
  | panic => exact absurd rfl hpanic
  | ioPanic => exact absurd rfl hpanic
  | operate hsys h => exact absurd h.exit.1 hpanic
  | respecify => exact absurd rfl hctl
  | exitTrap => rfl
  | clock hsys h => exact absurd h.exit.1 hpanic

theorem Traps.manned (h : Traps f c e st ctl g) (hc : f.currentProcess = some c) :
    Manned ctl g := by
  cases h with
  | panic => exact ⟨fun _ he => Ctl.noConfusion he, fun he => Ctl.noConfusion he⟩
  | die => exact manned_scheduler (Or.inr (Or.inl rfl))
  | pass => exact manned_ldst (c := c) hc

theorem Calls.manned (h : Calls v f c st ctl g) (hc : f.currentProcess = some c) :
    Manned ctl g := by
  by_cases hctl : ctl = .scheduler
  · subst hctl
    exact manned_scheduler (h.resumable hc)
  refine ⟨?_, fun he => absurd he hctl⟩
  rintro state rfl
  cases h with
  | ended hserv huser h =>
      rw [h.loads hctl Ctl.noConfusion, show (f.trap c).currentProcess = some c from hc]
      exact Option.some_ne_none c
  | reflect hserv huser h => exact (h.manned hc).1 state rfl
  | pass =>
      rw [show ((f.trap c).passUpSyscall c st).currentProcess = some c from hc]
      exact Option.some_ne_none c

theorem Loads.manned (h : Loads v f ctl g) : Manned ctl g := by
  cases h with
  | load hr => exact manned_ldst rfl
  | wait => exact ⟨fun _ he => Ctl.noConfusion he, fun he => Ctl.noConfusion he⟩
  | halt => exact ⟨fun _ he => Ctl.noConfusion he, fun he => Ctl.noConfusion he⟩
  | panic => exact ⟨fun _ he => Ctl.noConfusion he, fun he => Ctl.noConfusion he⟩

theorem Event.Ends.manned {ev : Event} (h : ev.Ends v f ctl g) : Manned ctl g := by
  cases ev with
  | dispatch =>
      cases h with
      | resume hflag hc => exact manned_ldst hc
      | next hflag h => exact h.manned
  | syscall hw =>
      obtain ⟨c, hc, h⟩ := h
      exact h.manned hc
  | pgmtrap hw =>
      obtain ⟨c, hc, h⟩ := h
      exact h.manned hc
  | tlb hw =>
      obtain ⟨c, hc, h⟩ := h
      exact h.manned hc
  | interrupt hw =>
      obtain ⟨rfl, hm⟩ := id h
      exact manned_scheduler (Event.Ends.resumable h Event.noConfusion)

end Manned

/-! ### Runs -/

section Runs

variable {B : Kernel → Prop} {x : Sys} {ev : Event}

theorem boot_manned {k : Kernel} (hk : AtBoot k) (hboot : Sys.boot k = some x) :
    Manned x.ctl x.kernel.face := by
  obtain ⟨pow, -, hface⟩ := main_face hk hboot
  rw [(main_run hk hboot).1, hface]
  exact ⟨fun _ he => Ctl.noConfusion he, fun _ hflag => Flag.noConfusion hflag⟩

theorem nucleus_manned (h : Reach (nucleus B) SparesReady x) : Manned x.ctl x.kernel.face := by
  induction h with
  | init h =>
      obtain ⟨k, -, hk, hboot⟩ := h
      exact boot_manned hk hboot
  | step hreach _ hstep _ =>
      obtain ⟨v, hrep⟩ := nucleus_rep hreach
      exact (Sys.step_ends hrep hstep).manned

omit [Platform] in
/-- System calls and traps come from a process that has been loaded. -/
theorem enabled_ldst {ctl : Ctl} (h : ev.enabled ctl = true) (hd : ev ≠ .dispatch)
    (hi : ∀ hw, ev ≠ .interrupt hw) : ∃ st, ctl = .ldst st := by
  cases ctl with
  | ldst st => exact ⟨st, rfl⟩
  | wait | halt | panic | scheduler =>
      cases ev with
      | dispatch => exact absurd rfl hd
      | interrupt hw => exact absurd rfl (hi hw)
      | syscall hw => cases h
      | pgmtrap hw => cases h
      | tlb hw => cases h

/-- No entry returns to where it came from. -/
theorem Event.never_returns (h : Rep x.kernel.core v) (r : Unit) (k : Kernel) :
    ev.program.run (x.kernel.enter ev) ≠ .ok r k := by
  have htrap : ∀ {t : Kernel} {e : Excp} {ve : Vec}, Rep t.core v →
      (trapHandler e ve).run t ≠ .ok r k := by
    intro t e ve ht hrun
    cases hc : t.currentProcess with
    | none =>
        rw [trapHandler_idle hc] at hrun
        cases hrun
    | some c => exact (trapHandler_ends ve ht hc).of_run rfl hrun
  intro hrun
  cases ev with
  | dispatch => exact (scheduler_ends h).of_run rfl hrun
  | syscall hw =>
      cases hc : x.kernel.currentProcess with
      | none =>
          rw [Event.program, syscallHandler_idle (k := x.kernel.enter (.syscall hw)) hc] at hrun
          cases hrun
      | some c =>
          exact (syscallHandler_ends (s := x.kernel.enter (.syscall hw)) h hc rfl).of_run rfl hrun
  | pgmtrap hw => exact htrap (t := x.kernel.enter (.pgmtrap hw)) h hrun
  | tlb hw => exact htrap (t := x.kernel.enter (.tlb hw)) h hrun
  | interrupt hw =>
      exact (interruptHandler_ends (s := x.kernel.enter (.interrupt hw)) h).of_run rfl hrun

/-- An entry that does nothing undefined is a step. -/
theorem Sys.step_exists (h : Rep x.kernel.core v) (henabled : ev.enabled x.ctl = true)
    (hfate : JaeOS.fate ev.program (x.kernel.enter ev) ≠ .crashes) : ∃ x', x.step ev = some x' := by
  cases hrun : ev.program.run (x.kernel.enter ev) with
  | ok r k => exact absurd hrun (Event.never_returns h r k)
  | exit ctl k =>
      exact ⟨⟨k, ctl, ev.issue x.kernel x.issued⟩, by rw [Sys.step, if_pos henabled, hrun]⟩
  | fault e => exact absurd (fate_fault hrun) hfate

def Event.fate (k : Kernel) : Event → Fate
  | .syscall hw =>
    match k.currentProcess with
    | some c => callFate k c (hw.oldArea .sysbk)
    | none => .crashes
  | .interrupt hw => interruptFate k hw
  | _ => .goes

def Event.Pointed : Event → Prop
  | .syscall hw => isService (hw.oldArea .sysbk) = true → isUserMode (hw.oldArea .sysbk) = false →
      PointersGiven (hw.oldArea .sysbk).a1 (hw.oldArea .sysbk).a2 (hw.oldArea .sysbk).a3
  | _ => True

instance : Decidable ev.Pointed :=
  Event.casesOn (motive := fun ev => Decidable ev.Pointed) ev
    (inferInstanceAs (Decidable True))
    (fun hw => inferInstanceAs (Decidable (isService (hw.oldArea .sysbk) = true →
      isUserMode (hw.oldArea .sysbk) = false → PointersGiven _ _ _)))
    (fun _ => inferInstanceAs (Decidable True))
    (fun _ => inferInstanceAs (Decidable True))
    (fun _ => inferInstanceAs (Decidable True))

/-- In a run that kills no process with a ready descendant, an entry of a process, the scheduler or
an interrupt crashes or panics exactly as its state foretells. -/
theorem entry_fate (h : Reach (nucleus B) SparesReady x) (henabled : ev.enabled x.ctl = true)
    (hspares : SparesReady x ev) (hgiven : ev.Pointed)
    (hint : -2 ^ 31 ≤ x.kernel.ints (semAddr clockSem)) :
    fate ev.program (x.kernel.enter ev) = ev.fate x.kernel := by
  obtain ⟨v, hrep, hcount⟩ := nucleus_view (fun k _ => counted_boot (bootInts k.ints) k.resWait)
    (fun _ _ _ hc hm => Counted.move hc hm) h
  obtain ⟨hloaded, hgo⟩ := nucleus_manned h
  have htame := hspares.tame hrep
  have hcurrent : ev ≠ .dispatch → (∀ hw, ev ≠ .interrupt hw) →
      ∃ c, x.kernel.currentProcess = some c := by
    intro hd hi
    obtain ⟨st, hst⟩ := enabled_ldst henabled hd hi
    exact Option.ne_none_iff_exists'.mp (hloaded st hst)
  cases ev with
  | dispatch =>
      apply scheduler_fate hrep hcount
      apply hgo
      cases hc : x.ctl with
      | scheduler => rfl
      | ldst st | wait | halt | panic =>
          rw [hc] at henabled
          cases henabled
  | syscall hw =>
      obtain ⟨c, hc⟩ := hcurrent Event.noConfusion fun _ => Event.noConfusion
      have hact : Event.act x.kernel (.syscall hw) = syscallAct x.kernel.core c
          (hw.oldArea .sysbk) := by
        rw [Event.act, hc]
        rfl
      rw [hact] at htame
      rw [Event.fate, hc]
      exact syscallHandler_fate (s := x.kernel.enter (.syscall hw)) hrep hc rfl hgiven htame
  | pgmtrap hw =>
      obtain ⟨c, hc⟩ := hcurrent Event.noConfusion fun _ => Event.noConfusion
      have hact : Event.act x.kernel (.pgmtrap hw) = trapAct x.kernel.core c .pgmtp := by
        rw [Event.act, hc]
        rfl
      rw [hact] at htame
      exact trapHandler_fate (s := x.kernel.enter (.pgmtrap hw)) hrep hc htame
  | tlb hw =>
      obtain ⟨c, hc⟩ := hcurrent Event.noConfusion fun _ => Event.noConfusion
      have hact : Event.act x.kernel (.tlb hw) = trapAct x.kernel.core c .tlb := by
        rw [Event.act, hc]
        rfl
      rw [hact] at htame
      exact trapHandler_fate (s := x.kernel.enter (.tlb hw)) hrep hc htame
  | interrupt hw => exact interruptHandler_fate (s := x.kernel.enter (.interrupt hw)) hrep hint

end Runs

/-! ### Devices that exist -/

section Devices

variable {s s' : Sys} {hw : Hw}

omit [Platform] in
/-- A sub-device whose register exists is not the clock. -/
theorem semIndex_lt_clock {il term dnum : Word} (hterm : term = 0 ∨ term = devPerInt)
    (hreg : regIndex il dnum < 40) (hi : semIndex il term dnum < maxDevices) :
    semIndex il term dnum < clockSem := by
  have hunits : term.toNat = 0 ∨ term.toNat = 8 := by
    rcases hterm with rfl | rfl
    · exact Or.inl rfl
    · exact Or.inr rfl
  simp only [semIndex, regIndex, maxDevices, clockSem, BitVec.toNat_add] at hreg hi ⊢
  omega

/-- An `IODEVOP` ends as its device and the order of evaluation tell. -/
theorem ioRequest_fate {i : ℕ} (h : Rep s.kernel.core v) (hs : SparesReady s (.syscall hw))
    (hc : s.kernel.currentProcess = some c) (hi : ioRequest (hw.oldArea .sysbk) = some i) :
    fate syscallHandler (s.kernel.enter (.syscall hw)) =
      ioFate s.kernel (hw.oldArea .sysbk).a3 (hw.oldArea .sysbk).a4 := by
  have htame := hs.tame h
  rw [Event.act, hc, Option.bind_some] at htame
  unfold ioRequest at hi
  split at hi
  · next hio =>
    obtain ⟨hserv, huser, hsys⟩ := hio
    have hgiven : PointersGiven (hw.oldArea .sysbk).a1 (hw.oldArea .sysbk).a2
        (hw.oldArea .sysbk).a3 := by
      rw [hsys]
      exact ⟨fun hone => absurd hone (by decide), fun height => absurd height (by decide)⟩
    have harea : (s.kernel.enter (.syscall hw)).hw.oldArea .sysbk = hw.oldArea .sysbk := rfl
    have hfate := syscallHandler_fate (s := s.kernel.enter (.syscall hw)) h hc
      harea (fun _ _ => hgiven) htame
    rw [callFate, if_pos ⟨hserv, huser⟩, hsys] at hfate
    exact hfate
  · cases hi

/-- The device that a process names exists, if the handler ends, and the request is served. -/
theorem ioRequest_goes {i : ℕ} (h : Rep s.kernel.core v) (hs : SparesReady s (.syscall hw))
    (hc : s.kernel.currentProcess = some c) (hi : ioRequest (hw.oldArea .sysbk) = some i)
    (hstep : s.step (.syscall hw) = some s') : i < clockSem ∧ s'.ctl ≠ .panic := by
  obtain ⟨-, hrun, -⟩ := Sys.step_eq hstep
  have hgoes := ioRequest_fate h hs hc hi
  rw [fate_exit (x := syscallHandler) hrun] at hgoes
  unfold ioFate at hgoes
  dsimp only at hgoes
  split at hgoes
  · next hok =>
    constructor
    · unfold ioRequest at hi
      split at hi
      · obtain rfl := Option.some.inj hi
        apply semIndex_lt_clock _ hok.2.1 hok.1
        unfold termRead
        split
        · exact Or.inr rfl
        · exact Or.inl rfl
      · cases hi
    · intro hpanic
      rw [hpanic] at hgoes
      cases hgoes
  · cases hctl : s'.ctl <;> rw [hctl] at hgoes <;> cases hgoes

end Devices

end Nucleus

section Board

attribute [local instance] uarm

/-- A `SEMOP` on `NULL` panics, an `IODEVOP` for a tenth terminal goes beyond the device
registers. -/
theorem entry_fate_first : ∃ s : Sys,
    fate (call 3).program (s.kernel.enter (call 3)) = .panics ∧
      fate (call 10 1 7 9).program (s.kernel.enter (call 10 1 7 9)) = .crashes := by
  obtain ⟨s, hs, hQ⟩ := nucleus_run (B := fun _ => True) (C := SparesReady) trivial atBoot_zero
    [.dispatch]
    (fun s => (call 3).enabled s.ctl = true ∧ (call 10 1 7 9).enabled s.ctl = true ∧
      SparesReady s (call 3) ∧ SparesReady s (call 10 1 7 9) ∧
      s.kernel.ints (semAddr clockSem) = 0 ∧
      (call 3).fate s.kernel = .panics ∧ (call 10 1 7 9).fate s.kernel = .crashes)
    (by decide +kernel)
  obtain ⟨hsem, hio, hspares, hspares', hzero, hpanics, hcrashes⟩ := of_decide_eq_true hQ
  have hint : -2 ^ 31 ≤ s.kernel.ints (semAddr clockSem) := by
    rw [hzero]
    decide
  exact ⟨s, (entry_fate hs hsem hspares (by decide) hint).trans hpanics,
    (entry_fate hs hio hspares' (by decide) hint).trans hcrashes⟩

end Board

end JaeOS
