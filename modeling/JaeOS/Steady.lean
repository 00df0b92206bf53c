import JaeOS.Outcomes

/-!
# What the handlers leave to the scheduler

No handler but the scheduler touches the variables of the pseudo-clock and `startTOD`, or makes a
process wait that is not the running one, whatever the lists look like; every one reads the clock
before it does anything else, and only `create_process` counts. The scheduler makes nobody wait and
does not count.
-/

namespace JaeOS

variable {α β : Type}

structure Face.Onward (f g : Face) : Prop where
  pseudoStart : g.pseudoStart = f.pseudoStart
  pseudoclockflag : g.pseudoclockflag = f.pseudoclockflag
  startTOD : g.startTOD = f.startTOD
  tod : g.hw.tod = f.hw.tod
  reads : f.hw.reads ≤ g.hw.reads

theorem Face.Onward.refl (f : Face) : f.Onward f := ⟨rfl, rfl, rfl, rfl, le_rfl⟩

theorem Face.Onward.trans {f g h : Face} (hf : f.Onward g) (hg : g.Onward h) : f.Onward h where
  pseudoStart := hg.pseudoStart.trans hf.pseudoStart
  pseudoclockflag := hg.pseudoclockflag.trans hf.pseudoclockflag
  startTOD := hg.startTOD.trans hf.startTOD
  tod := hg.tod.trans hf.tod
  reads := hf.reads.trans hg.reads

/-- What is left to the scheduler is as it was, but for the readings of the clock. A process that
was not running, other than the one in `o`, has not begun to wait. Under `c` the counter is as it
was. -/
structure Kernel.Onward (c : Prop) (o : Option Pcb) (s t : Kernel) : Prop where
  onward : s.face.Onward t.face
  runs : t.currentProcess = s.currentProcess ∨ t.currentProcess = none
  waits : ∀ q, some q ≠ o → s.currentProcess ≠ some q →
    t.pCursem q = s.pCursem q ∨ t.pCursem q = none
  counter : c → t.counter = s.counter

namespace Kernel.Onward

variable {c : Prop} {o : Option Pcb} {s t u : Kernel}

theorem refl (s : Kernel) : s.Onward c o s where
  onward := Face.Onward.refl _
  runs := Or.inl rfl
  waits := fun _ _ _ => Or.inl rfl
  counter := fun _ => rfl

/-- A process that was not running is not running later, either. -/
theorem idle (h : s.Onward c o t) {q : Pcb} (hq : s.currentProcess ≠ some q) :
    t.currentProcess ≠ some q := by
  rcases h.runs with hrun | hrun
  · rwa [hrun]
  · rw [hrun]
    exact (Option.some_ne_none q).symm

theorem trans (h : s.Onward c o t) (h' : t.Onward c o u) : s.Onward c o u where
  onward := h.onward.trans h'.onward
  runs := by
    rcases h'.runs with hrun | hrun
    · rw [hrun]
      exact h.runs
    · exact Or.inr hrun
  waits := by
    intro q ho hq
    rcases h'.waits q ho (h.idle hq) with hcur | hcur
    · rw [hcur]
      exact h.waits q ho hq
    · exact Or.inr hcur
  counter := fun hc => (h'.counter hc).trans (h.counter hc)

/-- Only the running process is exempt, and it is running already. -/
theorem of_running {p : Pcb} (hp : s.currentProcess = some p) (h : s.Onward c (some p) t) :
    s.Onward c o t where
  onward := h.onward
  runs := h.runs
  waits := fun q _ hq => h.waits q (fun he => hq (hp.trans he.symm)) hq
  counter := h.counter

theorem of_calmer (h : s.Calmer t) : s.Onward c o t where
  onward := by
    rw [h.1]
    exact Face.Onward.refl _
  runs := Or.inl (congrArg Face.currentProcess h.1)
  waits := fun q _ _ => h.2 q
  counter := fun _ => congrArg Face.counter h.1

end Kernel.Onward

def Steady (c : Prop) (o : Option Pcb) (x : KM α) : Prop :=
  Program.Maintains (Kernel.Onward c o) (fun _ => True) x

section Rules

variable {c : Prop} {o : Option Pcb} {x : KM α} {g : α → KM β}

theorem Steady.bind (hx : Steady c o x) (hg : ∀ r, Steady c o (g r)) : Steady c o (x >>= g) :=
  Program.Maintains.bind hx hg

theorem Steady.ite {b : Prop} [Decidable b] {y : KM α} (hx : Steady c o x) (hy : Steady c o y) :
    Steady c o (if b then x else y) := Program.Maintains.ite hx hy

theorem steady_gets (f : Kernel → α) : Steady c o (Program.gets f) := .gets f

theorem steady_pure (r : α) : Steady c o (pure r : KM α) := .pure r

theorem steady_leave (ctl : Ctl) : Steady c o (Program.leave ctl : KM α) := .leave ctl

theorem steady_fail (e : Fault) : Steady c o (Program.fail e : KM α) := .fail trivial

theorem steady_need (e : Fault) (r : Option α) : Steady c o (Program.need e r) := .need r trivial

theorem steady_modify {f : Kernel → Kernel} (h : ∀ s : Kernel, s.Onward c o (f s)) :
    Steady c o (Program.modify f) := .modify fun _ s hs => hs.trans (h s)

theorem Calm.steady (h : Calm x) : Steady c o x :=
  Program.Maintains.of_rel h (fun _ => ⟨rfl, fun _ => Or.inl rfl⟩) fun _ _ _ hs hst =>
    hs.trans (.of_calmer hst)

theorem steady_current : Steady c o current := (steady_gets _).bind fun _ => steady_need _ _

/-- Where the running process is known it may start to wait. -/
theorem Steady.current {g : Pcb → KM β} (hg : ∀ p, Steady c (some p) (g p)) :
    Steady c o (current >>= g) := by
  intro k s hs
  cases hc : s.currentProcess with
  | none =>
      simp only [JaeOS.current, Program.run_bind_bind, Program.run_gets_bind, hc, Program.need_none,
        Program.run_fail_bind]
  | some p =>
      have hrest := hg p s s (Kernel.Onward.refl s)
      rw [Program.run_bind_ok (current_ok hc)]
      cases hr : (g p).run s with
      | ok r t =>
          rw [hr] at hrest
          exact hs.trans (.of_running hc hrest)
      | exit ctl t =>
          rw [hr] at hrest
          exact hs.trans (.of_running hc hrest)
      | fault e => trivial

/-- The counter survives. -/
theorem Steady.counter (h : Steady True none x) : Keeps Kernel.counter x :=
  Program.Maintains.of_rel h Kernel.Onward.refl fun _ _ _ hs hst => (hst.counter trivial).trans hs

theorem Steady.exit {s t : Kernel} {ctl : Ctl} (h : Steady c o x) (hrun : x.run s = .exit ctl t) :
    s.Onward c o t := (h s).of_exit (Kernel.Onward.refl s) hrun

/-! ### Writing -/

/-- What a statement of a handler does not write. -/
structure Aside where
  pseudoStart : Word
  pseudoclockflag : Bool
  startTOD : Word
  tod : ℕ → Word
  reads : ℕ
  currentProcess : Option Pcb
  pCursem : Pcb → Option Semd
  counter : Word

def Kernel.aside (k : Kernel) : Aside where
  pseudoStart := k.pseudoStart
  pseudoclockflag := k.pseudoclockflag
  startTOD := k.startTOD
  tod := k.hw.tod
  reads := k.hw.reads
  currentProcess := k.currentProcess
  pCursem := k.pCursem
  counter := k.counter

theorem Kernel.Onward.of_aside {s t : Kernel} (h : t.aside = s.aside) : s.Onward c o t where
  onward :=
    { pseudoStart := (congrArg Aside.pseudoStart h :)
      pseudoclockflag := (congrArg Aside.pseudoclockflag h :)
      startTOD := (congrArg Aside.startTOD h :)
      tod := (congrArg Aside.tod h :)
      reads := (congrArg Aside.reads h :).ge }
  runs := Or.inl (congrArg Aside.currentProcess h)
  waits := fun q _ _ => Or.inl (congrFun (congrArg Aside.pCursem h) q)
  counter := fun _ => congrArg Aside.counter h

theorem steady_write {f : Kernel → Kernel} (h : ∀ s, (f s).aside = s.aside) :
    Steady c o (Program.modify f) :=
  steady_modify fun s => .of_aside (h s)

end Rules

section Handlers

variable {c : Prop} {o : Option Pcb} {p : Pcb} {e : Excp} {a n : ℕ} {w : ℤ} {u : Word} {st : State}
    {ve : Vec}

theorem setPs_steady (g : State → State) : Steady c o (setPs p g) :=
  steady_write fun _ => rfl

theorem setArea_steady (r : Area) (g : State → State) : Steady c o (setArea p r g) :=
  steady_write fun _ => rfl

theorem setDevreg_steady (g : DevReg → DevReg) : Steady c o (setDevreg a g) :=
  steady_write fun _ => rfl

theorem setFlag_steady (l : Flag) : Steady c o (setFlag l) := steady_write fun _ => rfl

theorem setCurrent_steady : Steady c o (setCurrent none) := by
  apply steady_modify
  intro s
  exact ⟨⟨rfl, rfl, rfl, rfl, le_rfl⟩, Or.inr rfl, fun _ _ _ => Or.inl rfl, fun _ => rfl⟩

theorem setOldArea_steady (v : Vec) (g : State → State) : Steady c o (setOldArea v g) :=
  steady_write fun _ => rfl

theorem setSTATUS_steady : Steady c o (setSTATUS u) := steady_write fun _ => rfl

theorem getTODLO_steady : Steady c o getTODLO := by
  apply (steady_gets _).bind
  intro now
  apply Steady.bind _ fun _ => steady_pure now
  apply steady_modify
  intro s
  have honward :
      s.face.Onward ({ s with hw := { s.hw with reads := s.hw.reads + 1 } } : Kernel).face :=
    ⟨rfl, rfl, rfl, rfl, Nat.le_succ _⟩
  exact ⟨honward, Or.inl rfl, fun _ _ _ => Or.inl rfl, fun _ => rfl⟩

theorem chargeKernel_steady : Steady c o (chargeKernel p) :=
  getTODLO_steady.bind fun _ => (steady_gets _).bind fun _ => steady_write fun _ => rfl

variable [Platform]

omit [Platform] in
theorem assignPid_steady (hc : ¬ c) : Steady c o (assignPid p) := by
  apply (steady_gets _).bind
  intro pid
  apply (steady_gets _).bind
  intro counter
  apply Steady.bind ((steady_need _ _).bind fun _ => steady_pure _)
  intro pid
  apply steady_modify
  intro s
  exact ⟨⟨rfl, rfl, rfl, rfl, le_rfl⟩, Or.inl rfl, fun _ _ _ => Or.inl rfl, fun h => absurd h hc⟩

omit [Platform] in
theorem allocPcb_steady (tmp : Word) : Steady c o (onMem (allocPcb tmp)) := by
  have hcur : ∀ q, Program.Maintains
      (fun (k : Kernel) (m : Mem maxproc) => m.pCursem q = k.pCursem q ∨ m.pCursem q = none)
      (fun _ => True) (allocPcb tmp : Program (Mem maxproc) Ctl Fault _) := by
    intro q
    apply (Program.Maintains.gets _).bind
    intro c
    apply Program.Maintains.ite (.pure _)
    apply (clistHead_maintains fun _ => trivial).bind
    intro p
    apply (clistDequeue_maintains fun _ => trivial).bind
    intro c'
    apply Program.Maintains.bind
    · exact .modify fun _ m hm => hm
    intro _
    apply Program.Maintains.bind _ fun _ => .pure _
    apply Program.Maintains.modify
    intro k m hm
    change Function.update m.pCursem p none q = k.pCursem q ∨
      Function.update m.pCursem p none q = none
    by_cases hq : q = p
    · right
      rw [hq]
      exact Function.update_self ..
    · rwa [Function.update_of_ne hq]
  have hwaits : Program.Maintains
      (fun (k s : Kernel) => ∀ q, s.pCursem q = k.pCursem q ∨ s.pCursem q = none)
      (fun _ => True) (onMem (allocPcb tmp)) :=
    .all (fun q => Program.Maintains.zoom_get (fun _ _ => rfl) (hcur q)) fun _ => trivial
  have haside : Program.Maintains
      (fun (k s : Kernel) => { s.aside with pCursem := k.pCursem } = k.aside)
      (fun _ => True) (onMem (allocPcb tmp)) := by
    apply Program.Maintains.zoom
    · exact fun _ _ _ h => h
    · exact fun _ => trivial
  apply Program.Maintains.of_rel (haside.and hwaits)
  · exact fun _ => ⟨rfl, fun _ => Or.inl rfl⟩
  · intro k s t hs ht
    have hrest : ({ t with pCursem := s.pCursem } : Kernel).aside = s.aside := ht.1
    have hsteady : s.Onward c o { t with pCursem := s.pCursem } := .of_aside hrest
    exact hs.trans ⟨hsteady.onward, hsteady.runs, fun q _ _ => ht.2 q, hsteady.counter⟩

theorem createProcess_steady (hc : ¬ c) : Steady c o (createProcess u) := by
  apply (allocPcb_steady _).bind
  intro r
  cases r with
  | none => exact steady_pure _
  | some child =>
      apply Steady.bind
      · exact steady_write fun _ => rfl
      intro _
      apply (steady_gets _).bind
      intro state
      apply (setPs_steady _).bind
      intro _
      apply steady_current.bind
      intro parent
      apply Steady.bind
      · exact steady_write fun _ => rfl
      intro _
      exact (assignPid_steady hc).bind fun _ => insertReady_calm.steady.bind fun _ =>
        addProcessCount_calm.steady.bind fun _ => steady_gets _

theorem terminateProcess_steady : Steady c o (terminateProcess u) := by
  apply steady_current.bind
  intro p
  apply (steady_gets _).bind
  intro pid
  apply Steady.ite
  · exact terminateChildrenLoop_calm.steady.bind fun _ => discard_calm.steady.bind fun _ =>
      setCurrent_steady.bind fun _ => setFlag_steady _
  · apply lookforProgenyLoop_calm.steady.bind
    intro found
    exact Steady.ite (steady_leave _) (steady_pure ())

theorem terminateCurrent_steady : Steady c o terminateCurrent :=
  steady_current.bind fun _ => (steady_gets _).bind fun _ =>
    terminateProcess_steady.bind fun _ => steady_leave _

omit [Platform] in
theorem insertBlocked_steady : Steady c (some p) (onLinks (insertBlocked a p)) := by
  have hwaits : Program.Maintains
      (fun (k s : Kernel) => ∀ q : {q // q ≠ p}, s.pCursem q.1 = k.pCursem q.1) (fun _ => True)
      (onLinks (insertBlocked a p)) := by
    apply Program.Maintains.all _ fun _ => trivial
    intro q
    exact Program.Maintains.of_component (fun (k : Kernel) c => c = k.pCursem q.1)
      (Program.Maintains.zoom_get (fun _ _ => rfl) (insertBlocked_others a q.2))
  have hface : Program.Maintains (fun (k s : Kernel) => s.face = k.face) (fun _ => True)
      (onLinks (insertBlocked a p)) :=
    Program.Maintains.of_component (fun (k : Kernel) f => f = k.face) (onLinks_face _)
  apply Program.Maintains.of_rel (hface.and hwaits)
  · exact fun _ => ⟨rfl, fun _ => rfl⟩
  · intro k s t hs ht
    refine hs.trans ⟨?_, Or.inl (congrArg Face.currentProcess ht.1), ?_,
      fun _ => congrArg Face.counter ht.1⟩
    · rw [ht.1]
      exact Face.Onward.refl _
    · exact fun q hq _ => Or.inl (ht.2 ⟨q, fun he => hq (congrArg some he)⟩)

/-- A `P` makes nobody wait but the running process. -/
theorem passeren_steady : Steady c o (passeren a w) := by
  apply (steady_gets _).bind
  intro i
  apply setInt_calm.steady.bind
  intro _
  apply (steady_gets _).bind
  intro j
  apply Steady.ite _ (steady_pure ())
  apply Steady.current
  intro p
  apply Steady.bind
  · exact steady_write fun _ => rfl
  intro _
  apply getTODLO_steady.bind
  intro now
  apply (steady_gets _).bind
  intro start
  apply Steady.bind
  · exact steady_write fun _ => rfl
  intro _
  apply getTODLO_steady.bind
  intro now
  apply (steady_gets _).bind
  intro start
  apply Steady.bind
  · exact steady_write fun _ => rfl
  intro _
  apply insertBlocked_steady.bind
  intro full
  have hrest : Steady c (some p) (do
      addSoftBlockCount 1
      setFlag .loadnext
      setCurrent none : KM Unit) :=
    addSoftBlockCount_calm.steady.bind fun _ => (setFlag_steady _).bind fun _ => setCurrent_steady
  exact Steady.ite ((steady_leave _).bind fun _ => hrest) hrest

theorem semaphoreOperation_steady : Steady c o (semaphoreOperation a w) := by
  have hrest : Steady c o (if w = 0 then do
      let p ← current
      terminateProcess (← Program.gets fun k => k.pid p)
    else if w < 0 then passeren a w else verhogen a w : KM Unit) := by
    apply Steady.ite
    · exact steady_current.bind fun _ => (steady_gets _).bind fun _ => terminateProcess_steady
    · exact Steady.ite passeren_steady verhogen_calm.steady
  exact Steady.ite ((steady_leave _).bind fun _ => hrest) hrest

omit [Platform] in
theorem setArea_bind_steady {r : Area} {g : State → State} {y : Unit → KM α}
    (hy : ∀ r, Steady c o (y r)) :
    Steady c o (setArea p r g >>= y) := (setArea_steady r g).bind hy

theorem specify_steady (pc sp flags : Word) : Steady c o (specify e pc sp flags) := by
  apply steady_current.bind
  intro p
  apply (steady_gets _).bind
  intro tag
  have hrest : Steady c o (do
      Program.modify fun k =>
        { k with tags := Function.update k.tags p (Function.update (k.tags p) e true) }
      let processor ← Program.gets fun k => k.hw.processor
      setArea p (.old e) fun _ => processor
      let state ← Program.gets fun k => k.pS p
      setArea p (.new e) fun s => copyState s state
      setArea p (.new e) fun s => { s with pc := pc, sp := sp }
      let flags := flags &&& 0x80000007
      setArea p (.new e) fun s => { s with cpsr := s.cpsr &&& 0x7FFFFFF8 ||| flags }
      let asid ← Program.gets fun k => k.hw.entryHi
      setArea p (.new e) fun s => { s with cp15EntryHi := Platform.setEntryHi asid } :
      KM Unit) := by
    apply Steady.bind
    · exact steady_write fun _ => rfl
    intro _
    apply (steady_gets _).bind
    intro processor
    apply setArea_bind_steady
    intro _
    apply (steady_gets _).bind
    intro state
    apply setArea_bind_steady
    intro _
    apply setArea_bind_steady
    intro _
    apply setArea_bind_steady
    intro _
    exact (steady_gets _).bind fun _ => setArea_steady _ _
  exact Steady.ite (terminateCurrent_steady.bind fun _ => hrest) hrest

omit [Platform] in
theorem exitVia_steady : Steady c o (exitVia e u) := by
  apply steady_current.bind
  intro p
  apply setArea_bind_steady
  intro _
  exact (steady_gets _).bind fun _ => steady_leave _

omit [Platform] in
theorem exitTrap_steady (excptype : Word) : Steady c o (exitTrap excptype u) :=
  Steady.ite exitVia_steady (Steady.ite exitVia_steady (Steady.ite exitVia_steady (steady_pure ())))

omit [Platform] in
theorem getCputime_steady (global user : Word) : Steady c o (getCputime global user) := by
  apply steady_current.bind
  intro p
  apply Steady.bind
  · exact steady_write fun _ => rfl
  intro _
  exact steady_write fun _ => rfl

theorem ioWait_steady (intlNo dnum : Word) : Steady c o (ioWait intlNo dnum) :=
  Steady.bind (Steady.ite (steady_pure _) (steady_fail _)) fun _ => semaphoreOperation_steady

omit [Platform] in
theorem ioCommand_steady (command intlNo dnum : Word) :
    Steady c o (ioCommand command intlNo dnum) := by
  apply Steady.bind (Steady.ite (steady_pure _) (steady_fail _))
  intro devreg
  have hwrite : ∀ (g : DevReg → DevReg) (r : Kernel → Word), Steady c o (do
      setDevreg devreg g
      Program.gets r : KM Word) := fun g r => (setDevreg_steady g).bind fun _ => steady_gets r
  exact Steady.ite (Steady.ite (hwrite _ _) (hwrite _ _)) (hwrite _ _)

theorem ioDevop_steady (command intlNo dnum : Word) : Steady c o (ioDevop command intlNo dnum) := by
  have henable : Steady c o ioEnable := (steady_gets _).bind fun _ => setSTATUS_steady
  exact henable.bind fun _ => (ioWait_steady _ _).bind fun _ => ioCommand_steady _ _ _

theorem assignA1_steady {x : KM Word} (hx : Steady c o x) : Steady c o (assignA1 x) := by
  apply Steady.ite
  · exact steady_current.bind fun _ => hx.bind fun _ => setPs_steady _
  · exact hx.bind fun _ => steady_current.bind fun _ => setPs_steady _

/-- Of the services only `CREATEPROCESS` counts. -/
theorem service_steady (sys a2 a3 a4 : Word) (hc : c → sys ≠ 1) :
    Steady c o (service sys a2 a3 a4) := by
  have hgetpid : Steady c o getpid := steady_current.bind fun _ => steady_gets _
  unfold service
  split
  · next hsys => exact assignA1_steady (createProcess_steady fun h => hc h hsys)
  apply Steady.ite terminateProcess_steady
  apply Steady.ite semaphoreOperation_steady
  apply Steady.ite (specify_steady a2 a3 a4)
  apply Steady.ite (specify_steady a2 a3 a4)
  apply Steady.ite (specify_steady a2 a3 a4)
  apply Steady.ite (exitTrap_steady a2)
  apply Steady.ite (getCputime_steady a2 a3)
  apply Steady.ite semaphoreOperation_steady
  apply Steady.ite (assignA1_steady (ioDevop_steady a2 a3 a4))
  exact Steady.ite (assignA1_steady hgetpid) (steady_leave _)

omit [Platform] in
theorem serviceEnd_steady : Steady c o serviceEnd := by
  apply (steady_gets _).bind
  intro o
  cases o with
  | none => exact (steady_pure ()).bind fun _ => steady_leave _
  | some p => exact chargeKernel_steady.bind fun _ => steady_leave _

theorem passUp_steady : Steady c o (passUp p e) :=
  chargeKernel_steady.bind fun _ => (setArea_steady _ _).bind fun _ =>
    (steady_gets _).bind fun _ => steady_leave _

theorem disableInterrupts_steady : Steady c o disableInterrupts :=
  (steady_gets _).bind fun _ => setSTATUS_steady

omit [Platform] in
theorem startKernel_steady : Steady c o startKernel :=
  getTODLO_steady.bind fun _ => steady_write fun _ => rfl

def trapRest (e : Excp) (v : Vec) : KM Unit := do
  let p ← current
  if (← Program.gets fun k => k.tags p e) = false then
    terminateCurrent
  let state ← Program.gets fun k => k.hw.oldArea v
  setArea p (.old e) fun s => copyState s state
  setArea p (.new e) fun s => { s with a1 := state.cp15Cause }
  passUp p e

theorem trapRest_steady : Steady c o (trapRest e ve) := by
  apply steady_current.bind
  intro p
  apply (steady_gets _).bind
  intro tag
  have hrest : Steady c o (do
      let state ← Program.gets fun k => k.hw.oldArea ve
      setArea p (.old e) fun s => copyState s state
      setArea p (.new e) fun s => { s with a1 := state.cp15Cause }
      passUp p e : KM Unit) :=
    (steady_gets _).bind fun _ => setArea_bind_steady fun _ => setArea_bind_steady fun _ =>
      passUp_steady
  exact Steady.ite (terminateCurrent_steady.bind fun _ => hrest) hrest

theorem trapHandler_steady : Steady c o (trapHandler e ve) :=
  disableInterrupts_steady.bind fun _ => startKernel_steady.bind fun _ => trapRest_steady

theorem reflectSyscall_steady : Steady c o (reflectSyscall p) := by
  apply (steady_gets _).bind
  intro state
  apply (setOldArea_steady _ _).bind
  intro _
  apply (setOldArea_steady _ _).bind
  intro _
  exact chargeKernel_steady.bind fun _ => trapHandler_steady

theorem passUpSyscall_steady : Steady c o (passUpSyscall p st) := by
  apply (steady_gets _).bind
  intro tag
  have hrest : Steady c o (do
      setArea p (.old .sys) fun s => copyState s st
      setArea p (.new .sys) fun s =>
        { s with a1 := st.a1, a2 := st.a2, a3 := st.a3, a4 := st.a4 }
      let tmp := (st.cpsr &&& 0x0000000F) <<< 28
      setArea p (.new .sys) fun s => { s with a1 := s.a1 &&& 0x0FFFFFFF ||| tmp }
      passUp p .sys : KM Unit) :=
    setArea_bind_steady fun _ => setArea_bind_steady fun _ => setArea_bind_steady fun _ =>
      passUp_steady
  exact Steady.ite (terminateCurrent_steady.bind fun _ => hrest) hrest

def callRest (p : Pcb) : KM Unit := do
  let state ← Program.gets fun k => k.hw.oldArea .sysbk
  if isService state then
    if isUserMode (← Program.gets fun k => k.pS p) then
      reflectSyscall p
    else
      service state.a1 state.a2 state.a3 state.a4
      serviceEnd
  else
    passUpSyscall p state

theorem callRest_steady (hc : ¬ c) : Steady c o (callRest p) := by
  apply (steady_gets _).bind
  intro state
  apply Steady.ite _ passUpSyscall_steady
  apply (steady_gets _).bind
  intro own
  apply Steady.ite reflectSyscall_steady
  exact (service_steady _ _ _ _ fun h => absurd h hc).bind fun _ => serviceEnd_steady

/-! ### Interrupts -/

theorem signalDevice_steady : Steady c o (signalDevice a u) := by
  apply (steady_gets _).bind
  intro i
  apply Steady.ite _ (steady_pure ())
  apply (headBlocked_cursem a).calm.steady.bind
  intro r
  apply (steady_need _ r).bind
  intro tmp
  exact (setPs_steady _).bind fun _ => semaphoreOperation_steady

theorem tickLoop_steady : Steady c o (tickLoop n) := by
  induction n with
  | zero => exact steady_fail _
  | succ n ih =>
      apply (steady_gets _).bind
      intro i
      exact Steady.ite (semaphoreOperation_steady.bind fun _ => ih) (steady_pure ())

theorem timerHandler_steady : Steady c o timerHandler := by
  have htimer : Steady c o (setTIMER schedBogusSlice) := steady_write fun _ => rfl
  apply (steady_gets _).bind
  intro armed
  apply Steady.ite _ htimer
  exact (steady_gets _).bind fun _ => tickLoop_steady.bind fun _ => (setFlag_steady _).bind fun _ =>
    htimer

theorem devHandler_steady : Steady c o (devHandler u) := by
  apply (steady_gets _).bind
  intro bitmap
  apply Steady.bind (Steady.ite (steady_pure _) (steady_fail _))
  intro devreg
  apply Steady.bind (Steady.ite (steady_pure _) (steady_fail _))
  intro semaddr
  exact (steady_gets _).bind fun _ => signalDevice_steady.bind fun _ => setDevreg_steady _

/-- Either branch of `terminal_handler`. -/
theorem terminalBranch_steady {term dnum status : Word} {b : Prop} [Decidable b]
    (g : DevReg → DevReg) :
    Steady c o (if b then do
      signalDevice (← deviceSemAt intTerminal term dnum) status
      setDevreg n g
    else pure () : KM Unit) := by
  apply Steady.ite _ (steady_pure ())
  apply Steady.bind (Steady.ite (steady_pure _) (steady_fail _))
  intro semaddr
  exact signalDevice_steady.bind fun _ => setDevreg_steady _

theorem terminalHandler_steady : Steady c o terminalHandler := by
  apply (steady_gets _).bind
  intro bitmap
  apply Steady.bind (Steady.ite (steady_pure _) (steady_fail _))
  intro devreg
  apply Steady.bind ((steady_gets _).bind fun _ => terminalBranch_steady _)
  exact fun _ => (steady_gets _).bind fun _ => terminalBranch_steady _

theorem serveLine_steady (cause : Word) : Steady c o (serveLine cause) := by
  rw [serveLine_eq]
  cases pendingLine cause with
  | none => exact steady_pure ()
  | some il =>
      exact Steady.ite timerHandler_steady (Steady.ite terminalHandler_steady devHandler_steady)

end Handlers

section Entries

variable [Platform] {c : Prop} {o : Option Pcb} {s t : Kernel} {ctl : Ctl}

theorem interrupt_onward (f : Face) : f.start.Onward f.interrupt := by
  unfold Face.interrupt
  split <;> exact ⟨rfl, rfl, rfl, rfl, le_rfl⟩

theorem interruptHandler_steady (hrun : interruptHandler.run s = .exit ctl t) :
    s.start.Onward c o t := by
  obtain ⟨u, henter, hface, hcore⟩ := interruptEnter_face s
  have hstart : s.start.Onward c o u := by
    constructor
    · rw [hface]
      exact interrupt_onward s.face
    · exact Or.inl (congrArg Core.currentProcess hcore)
    · exact fun q _ _ => Or.inl (congrArg (fun κ : Core => κ.links.pCursem q) hcore)
    · intro _
      have hcounter : u.counter = s.face.interrupt.counter := congrArg Face.counter hface
      rw [hcounter, Face.interrupt]
      split <;> rfl
  rw [interruptHandler, interruptBody, Program.run_bind_bind, Program.run_bind_ok henter] at hrun
  apply hstart.trans
  apply Steady.exit _ hrun
  apply Steady.bind
  · apply (serveLine_steady _).bind
    intro _
    apply (steady_gets _).bind
    intro r
    cases r with
    | none => exact steady_pure ()
    | some p => exact chargeKernel_steady
  · intro _
    exact (steady_gets _).bind fun _ => setSTATUS_steady.bind fun _ => steady_leave _

theorem trapHandler_start {e : Excp} {ve : Vec} (hrun : (trapHandler e ve).run s = .exit ctl t) :
    s.start.Onward c o t := by
  have hstart : (trapHandler e ve).run s = (trapRest e ve).run s.start := rfl
  rw [hstart] at hrun
  exact trapRest_steady.exit hrun

theorem syscallHandler_steady (hc : ¬ c) (hrun : syscallHandler.run s = .exit ctl t) :
    s.start.Onward c o t := by
  cases hp : s.currentProcess with
  | none =>
      rw [syscallHandler_idle hp] at hrun
      cases hrun
  | some p =>
      have hstart : syscallHandler.run s = (callRest p).run (s.trap p) := by
        rw [syscallHandler, Program.run_bind_ok (syscallEnter_ok hp)]
        rfl
      have htrap : s.start.Onward c o (s.trap p) := .of_aside rfl
      rw [hstart] at hrun
      exact htrap.trans ((callRest_steady hc).exit hrun)

/-- Every entry but the scheduler's reads the clock at once, and then leaves the scheduler what is
the scheduler's. -/
theorem Event.steady {k k' : Kernel} {e : Event} (he : e ≠ .dispatch)
    (hc : c → ∀ hw, e ≠ .syscall hw)
    (hrun : e.program.run (k.enter e) = .exit ctl k') : (k.enter e).start.Onward c o k' := by
  cases e with
  | dispatch => exact absurd rfl he
  | syscall hw => exact syscallHandler_steady (fun h => hc h hw rfl) hrun
  | pgmtrap hw => exact trapHandler_start hrun
  | tlb hw => exact trapHandler_start hrun
  | interrupt hw => exact interruptHandler_steady hrun

def Event.hw : Event → Option Hw
  | .dispatch => none
  | .syscall hw => some hw
  | .pgmtrap hw => some hw
  | .tlb hw => some hw
  | .interrupt hw => some hw

theorem Event.onward {k k' : Kernel} {e : Event} {hw : Hw} (he : e.hw = some hw)
    (hrun : e.program.run (k.enter e) = .exit ctl k') : (k.face.enter hw).start.Onward k'.face := by
  have hne : e ≠ .dispatch := by
    rintro rfl
    cases he
  have hstart : (k.enter e).start.face = (k.face.enter hw).start := by
    cases e <;> cases he <;> rfl
  have hsteady : (k.enter e).start.Onward False none k' := Event.steady hne False.elim hrun
  rw [← hstart]
  exact hsteady.onward

end Entries

/-! ### The scheduler -/

section Scheduler

def Kernel.unscheduled (k : Kernel) : (Pcb → Option Semd) × Word := (k.pCursem, k.counter)

theorem removeProcQ_unscheduled (q : Option Pcb) :
    Keeps Kernel.unscheduled (onLinks (removeProcQ q)) := by
  have hcur : Keeps (fun k => k.pCursem) (onLinks (removeProcQ q)) :=
    Program.Maintains.zoom_get (fun _ _ => rfl) (removeProcQ_cursem q)
  have hcounter : Keeps Kernel.counter (onLinks (removeProcQ q)) :=
    (onLinks_face _).weaken Face.counter
  exact Program.Maintains.of_rel
    ((Program.Maintains.of_component (fun (k : Kernel) c => c = k.pCursem) hcur).and
      (Program.Maintains.of_component (fun (k : Kernel) n => n = k.counter) hcounter))
    (fun _ => ⟨rfl, rfl⟩) fun _ _ _ hs ht => (Prod.ext ht.1 ht.2).trans hs

theorem getTODLO_unscheduled : Keeps Kernel.unscheduled getTODLO := fun _ _ h => h

theorem requeueCurrent_unscheduled : Keeps Kernel.unscheduled requeueCurrent := by
  apply (keeps_gets _).bind
  intro r
  cases r with
  | none => exact keeps_pure ()
  | some p => exact fun _ _ h => h

variable [Platform]

theorem loadCurrent_unscheduled : Keeps Kernel.unscheduled loadCurrent :=
  keeps_current.bind fun _ => fun _ _ h => h

omit [Platform] in
theorem armTimer_unscheduled : Keeps Kernel.unscheduled armTimer := by
  apply (keeps_gets _).bind
  intro start
  apply getTODLO_unscheduled.bind
  intro now
  apply Keeps.ite
  · exact fun _ _ h => h
  · exact keeps_modify fun _ => rfl

theorem deadlockDetection_unscheduled : Keeps Kernel.unscheduled deadlockDetection := by
  have hwait : Keeps Kernel.unscheduled (do
      setTIMER schedTimeSlice
      setSTATUS (Platform.statusAllIntEnable (← getSTATUS))
      WAIT : KM Unit) := fun _ _ h => h
  exact (keeps_gets _).bind fun _ => (keeps_gets _).bind fun _ =>
    Keeps.ite (keeps_leave _) (Keeps.ite (keeps_leave _) (Keeps.ite hwait (keeps_pure ())))

theorem loadnext_unscheduled : Keeps Kernel.unscheduled loadnext := by
  apply requeueCurrent_unscheduled.bind
  intro _
  apply armTimer_unscheduled.bind
  intro _
  apply (keeps_gets _).bind
  intro q
  apply (removeProcQ_unscheduled q).bind
  intro r
  apply Keeps.bind
  · exact keeps_modify fun _ => rfl
  intro _
  have hrest : Keeps Kernel.unscheduled (do
      let now ← getTODLO
      Program.modify fun k => { k with startTOD := now }
      loadCurrent : KM Unit) := by
    apply getTODLO_unscheduled.bind
    intro now
    apply Keeps.bind
    · exact keeps_modify fun _ => rfl
    · exact fun _ => loadCurrent_unscheduled
  exact Keeps.ite (deadlockDetection_unscheduled.bind fun _ => hrest) hrest

theorem scheduler_unscheduled : Keeps Kernel.unscheduled scheduler := by
  have hstart : ∀ now, Keeps Kernel.unscheduled (do
      Program.modify fun k => { k with pseudoclockflag := false, pseudoStart := now }
      loadnext : KM Unit) := by
    intro now
    apply Keeps.bind
    · exact keeps_modify fun _ => rfl
    · exact fun _ => loadnext_unscheduled
  apply (keeps_gets _).bind
  intro status
  apply Keeps.bind
  · exact keeps_modify fun _ => rfl
  intro _
  apply (keeps_gets _).bind
  intro flag
  cases flag with
  | start =>
      apply Keeps.bind
      · exact keeps_modify fun _ => rfl
      · exact fun _ => getTODLO_unscheduled.bind hstart
  | reset => exact getTODLO_unscheduled.bind hstart
  | loadnext => exact loadnext_unscheduled
  | loadcurrent => exact loadCurrent_unscheduled

end Scheduler

end JaeOS
