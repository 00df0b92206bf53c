import JaeOS.Effects
import JaeOS.System

/-!
# What an entry into the nucleus leaves

Every way out of the handlers of traps, system calls and interrupts and of the scheduler, with the
face it leaves.
-/

open LinkRing Transition

namespace JaeOS

variable [Platform] {s t : Kernel} {v : View} {f : Face} {c p : Pcb} {a : ℕ} {w : ℤ} {u : Word}
  {ctl : Ctl} {o : Option Ctl} {st : State} {e : Excp} {α : Type}

/-! ### Traps and system calls -/

inductive Traps (f : Face) (c : Pcb) (e : Excp) (st : State) : Ctl → Face → Prop where
  | panic (ht : f.tags c e = false) : Traps f c e st .panic f.start
  | die (ht : f.tags c e = false) : Traps f c e st .scheduler f.start.drop
  | pass (ht : f.tags c e = true) :
      Traps f c e st (.ldst ((f.start.passUp c e st).handler c e)) (f.start.passUp c e st)

def Kernel.withOldArea (k : Kernel) (ve : Vec) (g : State → State) : Kernel :=
  { k with
    hw := { k.hw with oldArea := Function.update k.hw.oldArea ve (g (k.hw.oldArea ve)) } }

def Kernel.charge (k : Kernel) (p : Pcb) : Kernel :=
  { k with
    kernelTime :=
      Function.update k.kernelTime p (k.kernelTime p + (k.hw.tod k.hw.reads - k.kernelStart))
    hw := { k.hw with reads := k.hw.reads + 1 } }

section Straight

variable {α : Type} {ve : Vec} {g g' : State → State} {x : Unit → KM α}

omit [Platform] in
theorem run_setOldArea_bind :
    (setOldArea ve g >>= x).run s = (x ()).run (s.withOldArea ve g) := rfl

omit [Platform] in
theorem withOldArea_withOldArea :
    (s.withOldArea ve g).withOldArea ve g' = s.withOldArea ve fun r => g' (g r) := by
  simp only [Kernel.withOldArea, Function.update_self, Function.update_idem]

omit [Platform] in
theorem run_chargeKernel_bind :
    (chargeKernel p >>= x).run s = (x ()).run (s.charge p) := rfl

end Straight

def Kernel.start (k : Kernel) : Kernel :=
  { k with
    kernelStart := k.hw.tod k.hw.reads
    hw := { k.hw with
      status := Platform.statusAllIntDisable k.hw.status
      reads := k.hw.reads + 1 } }

def Kernel.trap (k : Kernel) (c : Pcb) : Kernel :=
  { k.start with
    flag := .loadcurrent
    pS := Function.update k.pS c (k.hw.oldArea .sysbk) }

theorem start_run (x : KM Unit) :
    (disableInterrupts >>= fun _ => startKernel >>= fun _ => x).run s = x.run s.start := rfl

theorem trapHandler_ends (ve : Vec) (h : Rep s.core v) (hc : s.currentProcess = some c) :
    Program.Triple (fun t => t = s) (trapHandler e ve) (fun _ _ => False)
      (fun ctl t => Traps s.face c e (s.hw.oldArea ve) ctl t.face) (fun _ => True) := by
  rintro s rfl
  have hcur : current.run s.start = .ok c s.start := current_ok hc
  rw [trapHandler, start_run, Program.run_bind_ok hcur, Program.run_gets_bind]
  cases ht : s.start.tags c e with
  | false =>
      simp only [if_true]
      cases hrun : terminateCurrent.run s.start with
      | ok r t => exact absurd hrun terminateCurrent_ends
      | exit ctl t =>
          rw [Program.run_bind_exit hrun]
          rcases terminateCurrent_exit (s := s.start) h hc hrun with ⟨rfl, hf⟩ | ⟨rfl, hf⟩
          · dsimp only
            rw [hf]
            exact .panic ht
          · dsimp only
            rw [hf]
            exact .die ht
      | fault e =>
          rw [Program.run_bind_fault hrun]
          trivial
  | true =>
      simp only [Bool.true_eq_false, if_false, Program.run_gets_bind, run_setArea_bind]
      exact .pass ht

theorem syscallEnter_ok (hc : s.currentProcess = some c) :
    syscallEnter.run s = .ok c (s.trap c) := by
  unfold syscallEnter
  simp only [disableInterrupts, getSTATUS, setSTATUS, setFlag, Program.run_bind_bind,
    Program.run_gets_bind, Program.run_modify_bind]
  apply (Program.run_bind_ok (current_ok _) _).trans
  · rfl
  · exact hc

omit [Platform] in
theorem serviceEnd_run (s : Kernel) :
    ∃ t, serviceEnd.run s = .exit .scheduler t ∧ t.face = s.face.finish ∧ t.core = s.core := by
  unfold serviceEnd Face.finish
  rw [Program.run_gets_bind]
  cases hc : s.currentProcess with
  | none => exact ⟨s, rfl, by rw [show s.face.currentProcess = none from hc], rfl⟩
  | some p =>
      refine ⟨_, rfl, ?_, rfl⟩
      rw [show s.face.currentProcess = some p from hc]
      rfl

/-- The state in which a service requested in user mode is trapped again. -/
def reservedState (st : State) : State :=
  { st with cp15Cause := Platform.causeExccodeSet st.cp15Cause Platform.excReservedinstr }

inductive Calls (v : View) (f : Face) (c : Pcb) (st : State) : Ctl → Face → Prop where
  | panic (hserv : isService st = false) (ht : f.tags c .sys = false) :
      Calls v f c st .panic (f.trap c)
  | served {g : Face} (hserv : isService st = true) (huser : isUserMode st = false)
      (h : Serves v (f.trap c) c st none g) : Calls v f c st .scheduler g.finish
  | ended {ctl : Ctl} {g : Face} (hserv : isService st = true) (huser : isUserMode st = false)
      (h : Serves v (f.trap c) c st (some ctl) g) : Calls v f c st ctl g
  | reflect {ctl : Ctl} {g : Face} (hserv : isService st = true) (huser : isUserMode st = true)
      (h : Traps (f.reflect c (reservedState st)) c .pgmtp (reservedState st) ctl g) :
      Calls v f c st ctl g
  | die (hserv : isService st = false) (ht : f.tags c .sys = false) :
      Calls v f c st .scheduler (f.trap c).drop
  | pass (hserv : isService st = false) (ht : f.tags c .sys = true) :
      Calls v f c st (.ldst (((f.trap c).passUpSyscall c st).handler c .sys))
        ((f.trap c).passUpSyscall c st)

theorem reflectSyscall_ends (h : Rep s.core v) (hc : s.currentProcess = some c)
    (hst : s.hw.oldArea .sysbk = st) :
    Program.Triple (fun t => t = s.trap c) (reflectSyscall c) (fun _ _ => False)
      (fun ctl t => Traps (s.face.reflect c (reservedState st)) c .pgmtp
        (reservedState st) ctl t.face)
      (fun _ => True) := by
  rintro _ rfl
  have hps : (s.trap c).pS c = st := (Function.update_self ..).trans hst
  have hrun : (reflectSyscall c).run (s.trap c) = pgmtrapHandler.run
      (((s.trap c).withOldArea .pgmtrap fun _ => reservedState st).charge c) := by
    simp only [reflectSyscall, Program.run_gets_bind, hps, run_setOldArea_bind,
      withOldArea_withOldArea, run_chargeKernel_bind]
    rfl
  rw [hrun]
  have hends := trapHandler_ends (e := .pgmtp) .pgmtrap
    (s := ((s.trap c).withOldArea .pgmtrap fun _ => reservedState st).charge c) h hc _ rfl
  have hold : (((s.trap c).withOldArea .pgmtrap fun _ => reservedState st).charge c).hw.oldArea
      .pgmtrap = reservedState st := by
    simp only [Kernel.charge, Kernel.withOldArea, Function.update_self]
  rw [hold] at hends
  exact hends

theorem syscallHandler_ends (h : Rep s.core v) (hc : s.currentProcess = some c)
    (hst : s.hw.oldArea .sysbk = st) :
    Program.Triple (fun t => t = s) syscallHandler (fun _ _ => False)
      (fun ctl t => Calls v s.face c st ctl t.face) (fun _ => True) := by
  rintro s rfl
  have hst' : (s.trap c).hw.oldArea .sysbk = st := hst
  have hps : (s.trap c).pS c = st := (Function.update_self ..).trans hst
  rw [syscallHandler, Program.run_bind_ok (syscallEnter_ok hc), Program.run_gets_bind, hst']
  cases hserv : isService st with
  | true =>
      simp only [if_true, Program.run_gets_bind, hps]
      cases huser : isUserMode st with
      | true =>
          simp only [if_true]
          exact (reflectSyscall_ends h hc hst).conseq (fun _ ht => ht) (fun _ _ ht => ht)
            (fun _ _ ht => .reflect hserv huser ht) (s.trap c) rfl
      | false =>
          simp only [Bool.false_eq_true, if_false]
          have hserve := service_ends (s := s.trap c) st h hc (s.trap c) rfl
          cases hrun : (service st.a1 st.a2 st.a3 st.a4).run (s.trap c) with
          | ok r t =>
              rw [hrun] at hserve
              rw [Program.run_bind_ok hrun]
              obtain ⟨t', ht', hf, -⟩ := serviceEnd_run t
              rw [ht']
              dsimp only
              rw [hf]
              exact .served hserv huser hserve
          | exit ctl t =>
              rw [hrun] at hserve
              rw [Program.run_bind_exit hrun]
              exact .ended hserv huser hserve
          | fault e =>
              rw [Program.run_bind_fault hrun]
              trivial
  | false =>
      simp only [Bool.false_eq_true, if_false]
      rw [passUpSyscall, Program.run_gets_bind]
      cases ht : (s.trap c).tags c .sys with
      | false =>
          simp only [if_true]
          cases hrun : terminateCurrent.run (s.trap c) with
          | ok r t => exact absurd hrun terminateCurrent_ends
          | exit ctl t =>
              rw [Program.run_bind_exit hrun]
              rcases terminateCurrent_exit (s := s.trap c) h hc hrun with ⟨rfl, hf⟩ | ⟨rfl, hf⟩
              · dsimp only
                rw [hf]
                exact .panic hserv ht
              · dsimp only
                rw [hf]
                exact .die hserv ht
          | fault e =>
              rw [Program.run_bind_fault hrun]
              trivial
      | true =>
          simp only [Bool.true_eq_false, if_false, run_setArea_bind]
          have hf : ((((s.trap c).withArea c (.old .sys) fun r => copyState r st).withArea c
              (.new .sys) fun r =>
              { r with a1 := st.a1, a2 := st.a2, a3 := st.a3, a4 := st.a4 }).withArea
              c (.new .sys) fun r =>
                { r with a1 := r.a1 &&& 0x0FFFFFFF ||| (st.cpsr &&& 0x0000000F) <<< 28 }).face.leave
                  c
                .sys = (s.face.trap c).passUpSyscall c st := by
            simp only [withArea_face, Face.setArea_setArea]
            rfl
          have hpass := Calls.pass (v := v) (f := s.face) (c := c) hserv ht
          rw [← hf] at hpass
          exact hpass

/-! ### Interrupts -/

namespace Face

/-- What serving an interrupt line leaves alone: of the saved states, all but `a1`. -/
def still (f : Face) : Face :=
  { f with
    flag := .start
    pS := fun p => { f.pS p with a1 := 0 }
    hw := { f.hw with devreg := fun _ => ⟨0, 0, 0, 0⟩, timer := 0 } }

def interrupt (f : Face) : Face :=
  match f.currentProcess with
  | some c =>
    ({ f.start with flag := .loadnext } : Face).setPs c fun _ =>
      { f.hw.oldArea .int with pc := (f.hw.oldArea .int).pc - 4 }
  | none => { f.start with flag := .loadnext }

end Face

/-- `x` serves a line: it leaves alone what `still` shows, and dispatch is to go on with the next
process. -/
def ServesLine (x : KM α) : Prop :=
  Program.Maintains
    (fun q (s : Kernel) => s.face.still = q ∧ (s.flag = .loadnext ∨ s.flag = .reset))
      (fun _ => True) x

section ServesLine

variable {β : Type} {x : KM α} {g : α → KM β}

omit [Platform] in
theorem ServesLine.bind (hx : ServesLine x) (hg : ∀ r, ServesLine (g r)) : ServesLine (x >>= g) :=
  Program.Maintains.bind hx hg

omit [Platform] in
theorem ServesLine.ite {b : Prop} [Decidable b] {y : KM α} (hx : ServesLine x) (hy : ServesLine y) :
    ServesLine (if b then x else y) := Program.Maintains.ite hx hy

omit [Platform] in
theorem servesLine_gets (g : Kernel → α) : ServesLine (Program.gets g) := .gets g

omit [Platform] in
theorem servesLine_modify {g : Kernel → Kernel} (h : ∀ s, (g s).face.still = s.face.still)
    (hf : ∀ s, (g s).flag = s.flag ∨ (g s).flag = .reset) : ServesLine (Program.modify g) := by
  apply Program.Maintains.modify
  rintro q s ⟨hq, hs⟩
  refine ⟨(h s).trans hq, ?_⟩
  rcases hf s with hf | hf
  · rwa [hf]
  · exact Or.inr hf

omit [Platform] in
theorem Keeps.servesLine (h : Keeps Kernel.face x) : ServesLine x :=
  Program.Maintains.of_component
    (fun q f => Face.still f = q ∧ (f.flag = .loadnext ∨ f.flag = .reset)) h

theorem semaphoreOperation_servesLine : ServesLine (semaphoreOperation a 1) := by
  intro q s hs
  by_cases ha : a = 0
  · rw [ha, semaphoreOperation_null]
    exact hs
  · rw [semaphoreOperation_pos ha Int.one_pos]
    exact verhogen_calm.face.servesLine q s hs

omit [Platform] in
theorem setDevreg_servesLine (i : ℕ) (g : DevReg → DevReg) : ServesLine (setDevreg i g) :=
  servesLine_modify (fun _ => rfl) fun _ => Or.inl rfl

omit [Platform] in
theorem answer_still (f : Face) (p : Pcb) (u : Word) : (f.answer p u).still = f.still := by
  have hpS : ∀ x, ({ Function.update f.pS p { f.pS p with a1 := u } x with a1 := 0 } : State) =
      { f.pS x with a1 := 0 } := by
    intro x
    by_cases hx : x = p
    · rw [hx, Function.update_self]
    · rw [Function.update_of_ne hx]
  unfold Face.still Face.answer Face.setPs
  simp only [hpS]

omit [Platform] in
theorem answer_servesLine (p : Pcb) (u : Word) : ServesLine (setPs p fun r => { r with a1 := u }) :=
  servesLine_modify (fun s => answer_still s.face p u) fun _ => Or.inl rfl

omit [Platform] in
theorem devRegAddr_servesLine (il dnum : Word) : ServesLine (devRegAddr il dnum) :=
  ServesLine.ite (keeps_pure _).servesLine (keeps_fail _).servesLine

theorem deviceSemAt_servesLine (il term dnum : Word) : ServesLine (deviceSemAt il term dnum) :=
  ServesLine.ite (keeps_pure _).servesLine (keeps_fail _).servesLine

theorem signalDevice_servesLine : ServesLine (signalDevice a u) := by
  apply (servesLine_gets _).bind
  intro semVal
  apply ServesLine.ite _ (keeps_pure ()).servesLine
  apply (onLinks_face _).servesLine.bind
  intro o
  apply (keeps_need _ _).servesLine.bind
  intro tmp
  exact (answer_servesLine tmp u).bind fun _ => semaphoreOperation_servesLine

theorem devHandler_servesLine : ServesLine (devHandler u) := by
  apply (servesLine_gets _).bind
  intro bitmap
  apply (devRegAddr_servesLine _ _).bind
  intro devreg
  apply (deviceSemAt_servesLine _ _ _).bind
  intro semaddr
  apply (servesLine_gets _).bind
  intro status
  exact signalDevice_servesLine.bind fun _ => setDevreg_servesLine _ _

theorem tickLoop_servesLine (n : ℕ) : ServesLine (tickLoop n) := by
  induction n with
  | zero => exact (keeps_fail _).servesLine
  | succ n ih =>
      unfold tickLoop
      apply (servesLine_gets _).bind
      intro i
      exact ServesLine.ite (semaphoreOperation_servesLine.bind fun _ => ih)
        (keeps_pure ()).servesLine

theorem timerHandler_servesLine : ServesLine timerHandler := by
  have htimer : ServesLine (setTIMER schedBogusSlice) :=
    servesLine_modify (fun _ => rfl) fun _ => Or.inl rfl
  have hreset : ServesLine (setFlag .reset) := servesLine_modify (fun _ => rfl) fun _ => Or.inr rfl
  apply (servesLine_gets _).bind
  intro armed
  apply ServesLine.ite _ htimer
  apply (servesLine_gets _).bind
  intro i
  exact (tickLoop_servesLine _).bind fun _ => hreset.bind fun _ => htimer

theorem terminalReceive_servesLine (devreg : ℕ) (dnum : Word) :
    ServesLine (terminalReceive devreg dnum) := by
  apply (servesLine_gets _).bind
  intro status
  apply ServesLine.ite _ (keeps_pure ()).servesLine
  exact (deviceSemAt_servesLine _ _ _).bind fun _ => signalDevice_servesLine.bind fun _ =>
    setDevreg_servesLine _ _

theorem terminalTransmit_servesLine (devreg : ℕ) (dnum : Word) :
    ServesLine (terminalTransmit devreg dnum) := by
  apply (servesLine_gets _).bind
  intro status
  apply ServesLine.ite _ (keeps_pure ()).servesLine
  exact (deviceSemAt_servesLine _ _ _).bind fun _ => signalDevice_servesLine.bind fun _ =>
    setDevreg_servesLine _ _

theorem terminalHandler_servesLine : ServesLine terminalHandler := by
  apply (servesLine_gets _).bind
  intro bitmap
  apply (devRegAddr_servesLine _ _).bind
  intro devreg
  exact (terminalReceive_servesLine _ _).bind fun _ => terminalTransmit_servesLine _ _

theorem serveLine_servesLine (cause : Word) : ServesLine (serveLine cause) := by
  rw [serveLine_eq]
  cases pendingLine cause with
  | none => exact (keeps_pure ()).servesLine
  | some il =>
      apply ServesLine.ite timerHandler_servesLine
      exact ServesLine.ite terminalHandler_servesLine devHandler_servesLine

end ServesLine

theorem interruptEnter_face (s : Kernel) :
    ∃ t, interruptEnter.run s = .ok s.hw.cause t ∧ t.face = s.face.interrupt ∧ t.core = s.core := by
  let k : Kernel := { s.start with flag := .loadnext }
  have hstart : interruptEnter.run s = (do saveInterrupted; pure s.hw.cause : KM Word).run k := rfl
  rw [hstart, saveInterrupted, Program.run_bind_bind, Program.run_gets_bind]
  cases hc : k.currentProcess with
  | none =>
      have hf : s.face.interrupt = k.face := by
        rw [Face.interrupt, show s.face.currentProcess = none from hc]
        rfl
      exact ⟨k, rfl, hf.symm, rfl⟩
  | some c =>
      have hf : s.face.interrupt = k.face.setPs c fun _ =>
          { s.hw.oldArea .int with pc := (s.hw.oldArea .int).pc - 4 } := by
        rw [Face.interrupt, show s.face.currentProcess = some c from hc]
        rfl
      refine ⟨{ k with pS := _ }, ?_, hf.symm, rfl⟩
      simp only [Program.run_bind_bind, Program.run_gets_bind, setPs, Program.run_modify_bind,
        copyState_eq, Function.update_self, Function.update_idem]
      rfl

theorem interruptHandler_ends (h : Rep s.core v) :
    Program.Triple (fun t => t = s) interruptHandler (fun _ _ => False)
      (fun ctl t => ctl = .scheduler ∧ ∃ g : Face, g.still = s.face.interrupt.still ∧
        (g.flag = .loadnext ∨ g.flag = .reset) ∧ t.face = g.finish.enable) (fun _ => True) := by
  rintro s rfl
  obtain ⟨t, hstart, hface, hcore⟩ := interruptEnter_face s
  have hflag : t.flag = .loadnext := by
    rw [show t.flag = s.face.interrupt.flag from congrArg Face.flag hface, Face.interrupt]
    split <;> rfl
  have hserve := serveLine_servesLine s.hw.cause t.face.still t ⟨rfl, Or.inl hflag⟩
  have hbody := interruptBody_run (F := fun _ => True) h (fun _ _ =>
    ⟨fun _ => trivial, fun _ => Or.inr trivial, fun _ _ => Or.inr trivial, fun _ _ _ _ => trivial⟩)
      s rfl
  rw [interruptBody, Program.run_bind_ok hstart] at hbody
  rw [interruptHandler, interruptBody, Program.run_bind_bind, Program.run_bind_ok hstart]
  cases hrun : (serveLine s.hw.cause).run t with
  | ok r u =>
      rw [hrun] at hserve
      obtain ⟨hstill, hflag⟩ := hserve
      rw [Program.run_bind_bind, Program.run_bind_ok hrun, Program.run_bind_bind,
        Program.run_gets_bind]
      cases hc : u.currentProcess with
      | none =>
          refine ⟨rfl, u.face, hstill.trans (congrArg Face.still hface), hflag, ?_⟩
          rw [Face.finish, show u.face.currentProcess = none from hc]
          rfl
      | some p =>
          refine ⟨rfl, u.face, hstill.trans (congrArg Face.still hface), hflag, ?_⟩
          rw [Face.finish, show u.face.currentProcess = some p from hc]
          rfl
  | exit ctl u =>
      rw [Program.run_bind_exit hrun] at hbody
      exact hbody.elim
  | fault e =>
      simp only [Program.run_bind, hrun]

/-! ### The scheduler -/

namespace Face

variable (f : Face) (p : Pcb)

def requeue : Face :=
  match f.currentProcess with
  | some c =>
    { f with
      globalTime := Function.update f.globalTime c (f.globalTime c + (f.now - f.startTOD))
      currentProcess := none
      hw := { f.hw with reads := f.hw.reads + 1 } }
  | none => f

def arm : Face :=
  if f.now - f.pseudoStart > schedPseudoClock - schedTimeSlice then
    { f with
      pseudoclockflag := true
      pseudoStart := f.hw.tod (f.hw.reads + 2)
      hw := { f.hw with
        timer := schedPseudoClock - (f.hw.tod (f.hw.reads + 1) - f.pseudoStart)
        reads := f.hw.reads + 3 } }
  else { f with hw := { f.hw with timer := schedTimeSlice, reads := f.hw.reads + 1 } }

def restart : Face :=
  { f with
    pseudoclockflag := false
    pseudoStart := f.now
    hw := { f.hw with reads := f.hw.reads + 1 } }

def disable : Face :=
  { f with hw := { f.hw with status := Platform.statusAllIntDisable f.hw.status } }

def schedule : Face :=
  match f.flag with
  | .start =>
      ({ f.disable with hw := { f.disable.hw with timer := schedTimeSlice } } : Face).restart
  | .reset => f.disable.restart
  | _ => f.disable

def prepare : Face := f.requeue.arm

def resume : Face := f.setPs p fun s => { s with cpsr := Platform.statusAllIntEnable s.cpsr }

def load : Face :=
  ({ f with
    currentProcess := some p
    startTOD := f.now
    hw := { f.hw with reads := f.hw.reads + 1 } } : Face).resume p

def idle : Face := ({ f with hw := { f.hw with timer := schedTimeSlice } } : Face).enable

end Face

inductive Loads (v : View) (f : Face) : Ctl → Face → Prop where
  | load {p : Pcb} {l : List Pcb} (hr : v.ready ++ f.currentProcess.toList = p :: l) :
      Loads v f (.ldst ((f.prepare.load p).pS p)) (f.prepare.load p)
  | wait (hr : v.ready ++ f.currentProcess.toList = []) (hsoft : 0 < v.soft)
      (halive : 0 < v.alive) :
      Loads v f .wait f.prepare.idle
  | halt (hr : v.ready ++ f.currentProcess.toList = []) (halive : v.alive = 0) :
      Loads v f .halt f.prepare
  | panic (hr : v.ready ++ f.currentProcess.toList = []) (hsoft : v.soft = 0)
      (halive : 0 < v.alive) :
      Loads v f .panic f.prepare

inductive Dispatches (v : View) (f : Face) : Ctl → Face → Prop where
  | resume {c : Pcb} (hflag : f.flag = .loadcurrent) (hc : f.currentProcess = some c) :
      Dispatches v f (.ldst ((f.disable.resume c).pS c)) (f.disable.resume c)
  | next {ctl : Ctl} {g : Face} (hflag : f.flag ≠ .loadcurrent) (h : Loads v f.schedule ctl g) :
      Dispatches v f ctl g

omit [Platform] in
theorem armTimer_face (s : Kernel) :
    ∃ t, armTimer.run s = .ok () t ∧ t.face = s.face.arm ∧ t.core = s.core := by
  rw [armTimer, Program.run_gets_bind]
  simp only [getTODLO, Program.run_bind_bind, Program.run_gets_bind, Program.run_modify_bind,
    Program.run_pure_bind, Program.run_ite, Face.arm]
  by_cases he : s.hw.tod s.hw.reads - s.pseudoStart > schedPseudoClock - schedTimeSlice
  · refine ⟨_, if_pos he, ?_, rfl⟩
    exact (if_pos he).symm
  · refine ⟨_, if_neg he, ?_, rfl⟩
    exact (if_neg he).symm

omit [Platform] in
theorem requeueCurrent_face {r : Unit} (hrun : requeueCurrent.run s = .ok r t) :
    t.face = s.face.requeue := by
  rw [requeueCurrent, Program.run_gets_bind] at hrun
  unfold Face.requeue
  cases hc : s.currentProcess with
  | none =>
      rw [hc] at hrun
      cases hrun
      rw [show s.face.currentProcess = none from hc]
  | some c =>
      rw [hc] at hrun
      cases hrun
      rw [show s.face.currentProcess = some c from hc]
      rfl

omit [Platform] in
theorem requeue_currentProcess (f : Face) : f.requeue.currentProcess = none := by
  unfold Face.requeue
  split
  · rfl
  · next hc => exact hc

omit [Platform] in
theorem prepare_currentProcess (f : Face) : f.prepare.currentProcess = none := by
  rw [← requeue_currentProcess f]
  unfold Face.prepare Face.arm
  split <;> rfl

theorem loadCurrent_run (hc : s.currentProcess = some p) :
    ∃ t, loadCurrent.run s = .exit (.ldst ((s.face.resume p).pS p)) t ∧
      t.face = s.face.resume p := by
  rw [loadCurrent, Program.run_bind_ok (current_ok hc)]
  exact ⟨_, rfl, rfl⟩

/-- The end of `loadnext`, with `p` taken from the ready queue. -/
theorem startCurrent_run (hc : s.currentProcess = some p) :
    ∃ t, (do
      let now ← getTODLO
      Program.modify fun k => { k with startTOD := now }
      loadCurrent : KM Unit).run s = .exit (.ldst ((s.face.load p).pS p)) t ∧
      t.face = s.face.load p := by
  let s₁ : Kernel :=
    { s with startTOD := s.hw.tod s.hw.reads, hw := { s.hw with reads := s.hw.reads + 1 } }
  have hf : s.face.load p = s₁.face.resume p := by
    unfold Face.load
    rw [← hc]
    rfl
  rw [hf]
  exact loadCurrent_run (s := s₁) hc

theorem startCurrent_idle (hc : s.currentProcess = none) :
    ∃ e, (do
      let now ← getTODLO
      Program.modify fun k => { k with startTOD := now }
      loadCurrent : KM Unit).run s = .fault e := by
  refine ⟨.null, ?_⟩
  simp only [getTODLO, Program.run_bind_bind, Program.run_gets_bind, Program.run_modify_bind,
    Program.run_pure_bind, loadCurrent, current, hc, Program.need_none, Program.run_fail_bind]

theorem deadlockDetection_ends (ha : s.processCount = v.alive) (hs : s.softBlockCount = v.soft)
    (hr : v.ready ++ f.currentProcess.toList = []) (hf : s.face = f.prepare) :
    Program.Triple (fun t => t = s) deadlockDetection (fun _ t => t = s)
      (fun ctl t => Loads v f ctl t.face) (fun _ => True) := by
  rintro s rfl
  rw [deadlockDetection, Program.run_gets_bind, Program.run_gets_bind, ha, hs]
  by_cases h₀ : v.alive = 0
  · rw [if_pos h₀]
    have hhalt := Loads.halt hr h₀
    rw [← hf] at hhalt
    exact hhalt
  rw [if_neg h₀]
  by_cases h₁ : v.soft = 0 ∧ v.alive > 0
  · rw [if_pos h₁]
    have hpanic := Loads.panic hr h₁.1 h₁.2
    rw [← hf] at hpanic
    exact hpanic
  rw [if_neg h₁]
  by_cases h₂ : v.soft > 0 ∧ v.alive > 0
  · rw [if_pos h₂]
    have hwait := Loads.wait hr h₂.1 h₂.2
    rw [← hf] at hwait
    exact hwait
  · rw [if_neg h₂]
    rfl

theorem loadnext_ends (h : Rep s.core v) :
    Program.Triple (fun t => t = s) loadnext (fun _ _ => False)
      (fun ctl t => Loads v s.face ctl t.face) (fun _ => True) := by
  rintro s rfl
  obtain ⟨s₁, v₁, hrun₁, hsteps₁, hrep₁, hnone, hready₁⟩ := requeueCurrent_run h
  obtain ⟨s₂, hrun₂, hface₂, hcore₂⟩ := armTimer_face s₁
  have hrep₂ : Rep s₂.core v₁ := hrep₁.congr hcore₂
  have hface : s₂.face = s.face.prepare := by
    rw [hface₂, requeueCurrent_face hrun₁]
    rfl
  have hring : Ring s₂.toLinks.pList s₂.readyqueue v₁.ready := hrep₂.ready.ring
  rw [loadnext, Program.run_bind_ok hrun₁, Program.run_bind_ok hrun₂, Program.run_gets_bind]
  cases hr : v₁.ready with
  | nil =>
      rw [hr] at hring hready₁
      have hc : s.currentProcess = none := by
        cases hc : s.currentProcess with
        | none => rfl
        | some c =>
            rw [hc] at hready₁
            cases List.append_eq_nil_iff.mp hready₁.symm with
            | intro _ hcontra => cases hcontra
      rw [hc] at hsteps₁
      obtain rfl := steps_nil.mp hsteps₁
      have hremove : (onLinks (removeProcQ s₂.readyqueue)).run s₂ = .ok (none, s₂.readyqueue) s₂ :=
        onLinks_ok (removeProcQ_nil hring)
      rw [Program.run_bind_ok hremove, Program.run_modify_bind, if_pos rfl]
      let s₃ : Kernel := { s₂ with currentProcess := none }
      have hface₃ : s₃.face = s.face.prepare := by
        rw [← hface]
        exact congrArg (fun o => ({ s₂.face with currentProcess := o } : Face))
          (hcore₂ ▸ hnone : s₂.core.currentProcess = none).symm
      have hdetect := deadlockDetection_ends (s := s₃) hrep₂.alive hrep₂.soft hready₁.symm hface₃
        s₃ rfl
      cases hrun : deadlockDetection.run s₃ with
      | ok r t =>
          rw [hrun] at hdetect
          obtain rfl : t = s₃ := hdetect
          obtain ⟨e, hfault⟩ := startCurrent_idle (s := s₃) rfl
          rw [Program.run_bind_ok hrun, hfault]
          trivial
      | exit ctl t =>
          rw [hrun] at hdetect
          rw [Program.run_bind_exit hrun]
          exact hdetect
      | fault e =>
          rw [Program.run_bind_fault hrun]
          trivial
  | cons p l =>
      rw [hr] at hring hready₁
      obtain ⟨link, tail, hremove, -⟩ := removeProcQ_run (χ := Ctl) hring
      rw [Program.run_bind_ok (onLinks_ok hremove)]
      simp only [Program.run_modify_bind, reduceCtorEq, if_false]
      obtain ⟨t, hrun, hf⟩ := startCurrent_run (p := p) (s := { s₂.setLinks
        { s₂.toLinks with pList := link } with readyqueue := tail, currentProcess := some p }) rfl
      have hload : t.face = s.face.prepare.load p := by
        rw [hf, ← hface]
        rfl
      rw [hrun]
      have hpS : (({ s₂.setLinks { s₂.toLinks with pList := link } with
          readyqueue := tail, currentProcess := some p } : Kernel).face.load p) =
          s.face.prepare.load p := hf.symm.trans hload
      rw [hpS]
      dsimp only
      rw [hload]
      exact .load hready₁.symm

theorem scheduler_ends (h : Rep s.core v) :
    Program.Triple (fun t => t = s) scheduler (fun _ _ => False)
      (fun ctl t => Dispatches v s.face ctl t.face) (fun _ => True) := by
  rintro s rfl
  have hnext : ∀ s₁ : Kernel, s₁.core = s.core → s₁.face = s.face.schedule →
      s.flag ≠ .loadcurrent → Program.Triple (fun t => t = s₁) loadnext (fun _ _ => False)
      (fun ctl t => Dispatches v s.face ctl t.face) (fun _ => True) := by
    intro s₁ hcore hface hflag
    apply (loadnext_ends (h.congr hcore)).conseq (fun _ ht => ht) (fun _ _ ht => ht)
    intro ctl t ht
    rw [hface] at ht
    exact .next hflag ht
  have hcurrent : ∀ s₁ : Kernel, s₁.face = s.face.disable → s.flag = .loadcurrent →
      Program.Triple (fun t => t = s₁) loadCurrent (fun _ _ => False)
        (fun ctl t => Dispatches v s.face ctl t.face) (fun _ => True) := by
    rintro s₁ hface hflag t rfl
    have hcur : t.currentProcess = s.currentProcess := congrArg Face.currentProcess hface
    cases hc : t.currentProcess with
    | none =>
        simp only [loadCurrent, current, Program.run_bind_bind, Program.run_gets_bind, hc,
          Program.need_none, Program.run_fail_bind]
    | some c =>
        obtain ⟨u, hrun, hf⟩ := loadCurrent_run hc
        rw [hrun]
        dsimp only
        rw [hf, hface]
        exact .resume hflag (hcur.symm.trans hc)
  unfold scheduler
  simp only [getSTATUS, setSTATUS, Program.run_gets_bind, Program.run_modify_bind]
  cases hflag : s.flag with
  | start =>
      simp only [setTIMER, getTODLO, Program.run_bind_bind, Program.run_modify_bind,
        Program.run_gets_bind, Program.run_pure_bind]
      apply hnext _ _ _ _ _ rfl
      · rfl
      · rw [Face.schedule, show s.face.flag = .start from hflag]
        dsimp only
        rw [← hflag]
        rfl
      · rw [hflag]
        exact Flag.noConfusion
  | reset =>
      simp only [getTODLO, Program.run_bind_bind, Program.run_modify_bind, Program.run_gets_bind,
        Program.run_pure_bind]
      apply hnext _ _ _ _ _ rfl
      · rfl
      · rw [Face.schedule, show s.face.flag = .reset from hflag]
        dsimp only
        rw [← hflag]
        rfl
      · rw [hflag]
        exact Flag.noConfusion
  | loadnext =>
      apply hnext _ _ _ _ _ rfl
      · rfl
      · rw [Face.schedule, show s.face.flag = .loadnext from hflag]
        dsimp only
        rw [← hflag]
        rfl
      · rw [hflag]
        exact Flag.noConfusion
  | loadcurrent =>
      apply hcurrent _ _ hflag _ rfl
      rw [← hflag]
      rfl

/-! ### Steps of the system -/

def Face.enter (f : Face) (hw : Hw) : Face := { f with hw := hw }

def Event.Ends (v : View) (f : Face) (ctl : Ctl) (g : Face) : Event → Prop
  | .dispatch => Dispatches v f ctl g
  | .syscall hw => ∃ c, f.currentProcess = some c ∧
      Calls v (f.enter hw) c (hw.oldArea .sysbk) ctl g
  | .pgmtrap hw => ∃ c, f.currentProcess = some c ∧
      Traps (f.enter hw) c .pgmtp (hw.oldArea .pgmtrap) ctl g
  | .tlb hw => ∃ c, f.currentProcess = some c ∧ Traps (f.enter hw) c .tlb (hw.oldArea .tlb) ctl g
  | .interrupt hw => ctl = .scheduler ∧ ∃ m : Face, m.still = (f.enter hw).interrupt.still ∧
      (m.flag = .loadnext ∨ m.flag = .reset) ∧ g = m.finish.enable

theorem trap_ends {ve : Vec} (h : Rep s.core v) (hrun : (trapHandler e ve).run s = .exit ctl t) :
    ∃ c, s.currentProcess = some c ∧ Traps s.face c e (s.hw.oldArea ve) ctl t.face := by
  cases hc : s.currentProcess with
  | none =>
      rw [trapHandler_idle hc] at hrun
      cases hrun
  | some c => exact ⟨c, rfl, (trapHandler_ends ve h hc).of_exit rfl hrun⟩

theorem Event.ends {k k' : Kernel} {e : Event} (h : Rep k.core v)
    (hrun : e.program.run (k.enter e) = .exit ctl k') : e.Ends v k.face ctl k'.face := by
  cases e with
  | dispatch => exact (scheduler_ends h).of_exit rfl hrun
  | syscall hw =>
      cases hc : k.currentProcess with
      | none =>
          have hidle := syscallHandler_idle (k := k.enter (.syscall hw)) hc
          rw [Event.program, hidle] at hrun
          cases hrun
      | some c =>
          exact ⟨c, hc, (syscallHandler_ends (s := k.enter (.syscall hw)) h hc rfl).of_exit rfl
            hrun⟩
  | pgmtrap hw => exact trap_ends (s := k.enter (.pgmtrap hw)) h hrun
  | tlb hw => exact trap_ends (s := k.enter (.tlb hw)) h hrun
  | interrupt hw => exact (interruptHandler_ends (s := k.enter (.interrupt hw)) h).of_exit rfl hrun

theorem Sys.step_ends {s s' : Sys} {e : Event} (h : Rep s.kernel.core v)
    (hstep : s.step e = some s') : e.Ends v s.kernel.face s'.ctl s'.kernel.face :=
  Event.ends h (Sys.step_eq hstep).2.1

/-! ### What only processes change -/

/-- The part of a face that belongs to single processes and that neither the scheduler nor an
interrupt touches. -/
def Face.files (f : Face) : (Pcb → Word) × Word × (Pcb → Excp → Bool) × (Pcb → Area → State) :=
  (f.pid, f.counter, f.tags, f.oldnewAreas)

section Files

variable {g : Face}

theorem Operates.files (h : Operates v f c a w o g) : g.files = f.files := by
  cases h <;> rfl

omit [Platform] in
theorem finish_files (f : Face) : f.finish.files = f.files := by
  unfold Face.finish
  split <;> rfl

theorem schedule_files (f : Face) : f.schedule.files = f.files := by
  unfold Face.schedule
  split <;> rfl

omit [Platform] in
theorem prepare_files (f : Face) : f.prepare.files = f.files := by
  have hrequeue : f.requeue.files = f.files := by
    unfold Face.requeue
    split <;> rfl
  rw [← hrequeue]
  unfold Face.prepare Face.arm
  split <;> rfl

theorem Loads.files (h : Loads v f ctl g) : g.files = f.files := by
  rw [← prepare_files f]
  cases h <;> rfl

theorem Dispatches.files (h : Dispatches v f ctl g) : g.files = f.files := by
  cases h with
  | resume => rfl
  | next hflag h => exact h.files.trans (schedule_files f)

theorem interrupt_files (f : Face) : f.interrupt.files = f.files := by
  unfold Face.interrupt
  split <;> rfl

/-- An interrupt and the scheduler leave the files alone. -/
theorem Event.Ends.files {e : Event} (h : e.Ends v f ctl g)
    (he : e = .dispatch ∨ ∃ hw, e = .interrupt hw) : g.files = f.files := by
  rcases he with rfl | ⟨hw, rfl⟩
  · exact Dispatches.files h
  · obtain ⟨-, m, hm, -, rfl⟩ := h
    calc m.finish.enable.files = m.files := finish_files m
      _ = m.still.files := rfl
      _ = (f.enter hw).interrupt.files := by rw [hm]; rfl
      _ = f.files := interrupt_files (f.enter hw)

end Files

/-! ### Boot -/

def Face.boot (f : Face) (pow : Word) : Face :=
  { f with
    currentProcess := none
    flag := .start
    pS := Function.update f.pS 0 (firstState .zero)
    pid := Function.update f.pid 0 (Platform.tmpAddrMain * pow + f.counter)
    kernelTime := Function.update f.kernelTime 0 0
    globalTime := Function.update f.globalTime 0 0
    tags := Function.update f.tags 0 fun _ => false
    pseudoclockflag := false
    kernelStart := 0
    counter := f.counter + 1
    hw := { f.hw with newArea := fun v => bootArea v (f.hw.newArea v) } }

theorem main_face {k : Kernel} {s : Sys} (hk : AtBoot k) (hboot : Sys.boot k = some s) :
    ∃ pow, pidPow k.counter 33 10 = some pow ∧ s.kernel.face = k.face.boot pow := by
  obtain ⟨link, tail, hmain, -⟩ := main_eq hk
  rw [Sys.boot, hmain] at hboot
  simp only [startFirst, addProcessCount, assignPid, pidGenerator, setPs, insertReady, setFlag,
    callScheduler, Kernel.setMem, Kernel.setLinks, Program.run_bind_bind, Program.run_modify_bind,
    Program.run_gets_bind] at hboot
  cases hpow : pidPow k.counter 33 10 with
  | none =>
      rw [show k.cleared.counter = k.counter from rfl, hpow] at hboot
      cases hboot
  | some pow =>
      rw [show k.cleared.counter = k.counter from rfl, hpow] at hboot
      simp only [Program.need_some, Program.run_pure_bind, Program.run_modify_bind,
        Program.run_leave] at hboot
      obtain rfl := Option.some.inj hboot
      refine ⟨pow, rfl, ?_⟩
      apply Face.ext
      · rfl
      · rfl
      · exact (Function.update_idem ..).trans
          (congrArg (fun s => Function.update k.pS 0 (firstState s))
            (show Function.update k.pS 0 State.zero 0 = .zero from Function.update_self ..))
      · exact (Function.update_idem ..).trans
          (congrArg (fun i => Function.update k.pid 0 (i * pow + k.counter))
            (show Function.update k.pid 0 Platform.tmpAddrMain 0 = _ from Function.update_self ..))
      all_goals rfl

/-! ### Processes that are alive -/

/-- A process that is alive after a move was so before, or has just been made. -/
theorem Move.alive {act : Act} {v' : View} (hm : Move act v v') (hv : Orderly v)
    (hp : v'.place p ≠ .free) : v.place p ≠ .free ∨ act = .create ∧ ∃ l, v.free = p :: l := by
  have hwake : ∀ a w, (v.verhogen a w).place p ≠ .free → v.place p ≠ .free := by
    intro a w
    rw [verhogen_place]
    split
    · next hm =>
      rw [hv.woken_blocked hm]
      exact fun _ => Place.noConfusion
    · exact id
  cases hm with
  | full => exact Or.inl hp
  | @create _ d q l hd hf =>
      rw [create_place] at hp
      split at hp
      · next hq => exact Or.inr ⟨rfl, l, hq ▸ hf⟩
      · exact Or.inl hp
  | terminate =>
      change (v.killAll _).place p ≠ .free at hp
      rw [killAll_place] at hp
      split at hp
      · exact absurd rfl hp
      · exact Or.inl hp
  | pass => exact Or.inl hp
  | @block _ a w d hw hi ha hd =>
      left
      change Function.update v.place d (.blocked a) p ≠ .free at hp
      rw [Function.update_apply] at hp
      split at hp
      · next hpd =>
        rw [hpd, hd]
        exact Place.noConfusion
      · exact hp
  | verhogen => exact Or.inl (hwake _ _ hp)
  | noSignal => exact Or.inl hp
  | signal => exact Or.inl (hwake _ _ hp)
  | @requeue _ d hd =>
      left
      rw [toReady_place] at hp
      split at hp
      · next hpd =>
        rw [hpd, hd]
        exact Place.noConfusion
      · exact hp
  | @load _ q l hr =>
      left
      change Function.update v.place q .off p ≠ .free at hp
      rw [Function.update_apply] at hp
      split at hp
      · next hpq =>
        rw [hpq, (hv.mem_ready q).mp (by simp [hr])]
        exact Place.noConfusion
      · exact hp

theorem Steps.alive {acts : List Act} {v' : View} (h : Steps OrderlyMove acts v v')
    (hacts : ∀ act ∈ acts, act ≠ .create) (hp : v'.place p ≠ .free) : v.place p ≠ .free := by
  induction h with
  | nil => exact hp
  | cons hm hs ih =>
      have hnext := ih (fun act ha => hacts act (List.mem_cons_of_mem _ ha)) hp
      rcases hm.2.alive hm.1 hnext with hv | ⟨hact, -⟩
      · exact hv
      · exact absurd hact (hacts _ List.mem_cons_self)

/-- The only processes that are new after a step are those that it makes. -/
theorem Sys.step_alive {s s' : Sys} {e : Event} (h : Rep s.kernel.core v) (hs : SparesReady s e)
    (hstep : s.step e = some s') : ∃ v', Rep s'.kernel.core v' ∧ ∀ p, v'.place p ≠ .free →
      v.place p ≠ .free ∨ e.act s.kernel = some .create ∧ ∃ l, v.free = p :: l := by
  obtain ⟨acts, v', hacts, hsteps, hrep'⟩ := Sys.step_refines h hs hstep
  refine ⟨v', hrep', fun p hp => ?_⟩
  rcases Event.acts_cases hacts with rfl | hinternal
  · cases hact : e.act s.kernel with
    | none =>
        rw [hact] at hsteps
        obtain rfl := steps_nil.mp hsteps
        exact Or.inl hp
    | some act =>
        rw [hact] at hsteps
        rcases (steps_single.mp hsteps).alive h.orderly hp with hv | ⟨rfl, hl⟩
        · exact Or.inl hv
        · exact Or.inr ⟨rfl, hl⟩
  · left
    apply Steps.alive (steps_orderly hsteps (Event.acts_light hacts) h.orderly) _ hp
    rintro act hact rfl
    exact hinternal _ hact

end JaeOS
