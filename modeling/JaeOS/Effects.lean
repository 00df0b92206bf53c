import JaeOS.Entries
import JaeOS.Faces

/-!
# What a service does to the face

The few moves of a face, and every way out of the services of `syscall.c` with the face it leaves.
`Operates` is about `semaphore_operation`, `Serves` about the `switch` of `syscall_handler`: `none`
stands for a return.
-/

open LinkRing

namespace JaeOS

def Excp.code : Excp → Word
  | .sys => 0
  | .tlb => 1
  | .pgmtp => 2

/-! ### Moves of a face -/

def transmits (intlNo dnum : Word) : Bool := intlNo = intTerminal && termRead intlNo dnum = 0

namespace Face

variable (f : Face) (p c : Pcb) (v : Word) (e : Excp)

def setPs (g : State → State) : Face := { f with pS := Function.update f.pS p (g (f.pS p)) }

def setArea (a : Area) (g : State → State) : Face :=
  { f with
    oldnewAreas := Function.update f.oldnewAreas p
      (Function.update (f.oldnewAreas p) a (g (f.oldnewAreas p a))) }

@[simp] theorem setArea_setArea (a : Area) (g g' : State → State) :
    (f.setArea p a g).setArea p a g' = f.setArea p a fun s => g' (g s) := by
  simp only [setArea, Function.update_self, Function.update_idem]

def answer : Face := f.setPs p fun s => { s with a1 := v }

def now : Word := f.hw.tod f.hw.reads

def charge : Face :=
  { f with
    kernelTime := Function.update f.kernelTime p (f.kernelTime p + (f.now - f.kernelStart))
    hw := { f.hw with reads := f.hw.reads + 1 } }

def suspend : Face :=
  { f with
    flag := .loadnext
    currentProcess := none
    kernelTime := Function.update f.kernelTime p (f.kernelTime p + (f.now - f.kernelStart))
    globalTime := Function.update f.globalTime p
      (f.globalTime p + (f.hw.tod (f.hw.reads + 1) - f.startTOD))
    hw := { f.hw with reads := f.hw.reads + 2 } }

def drop : Face := { f with flag := .loadnext, currentProcess := none }

def create (state : State) (pid : Word) : Face :=
  { f with
    pS := Function.update f.pS p state
    pid := Function.update f.pid p pid
    kernelTime := Function.update f.kernelTime p 0
    globalTime := Function.update f.globalTime p 0
    tags := Function.update f.tags p fun _ => false
    counter := f.counter + 1 }

def cputime (global user : Word) : Face :=
  { f with
    hw := { f.hw with
      words := Function.update (Function.update f.hw.words global (f.globalTime c)) user
        (f.globalTime c - f.kernelTime c) } }

def finish : Face :=
  match f.currentProcess with
  | some p => f.charge p
  | none => f

variable {f c} in
theorem finish_some (hc : f.currentProcess = some c) : f.finish = f.charge c := by
  rw [finish, hc]

variable {f} in
theorem finish_none (hc : f.currentProcess = none) : f.finish = f := by
  rw [finish, hc]

def command (cmd intlNo dnum : Word) : Face :=
  { f with
    hw := { f.hw with
      devreg := Function.update f.hw.devreg (regIndex intlNo dnum)
        (if transmits intlNo dnum then
          { f.hw.devreg (regIndex intlNo dnum) with transmCommand := cmd }
        else { f.hw.devreg (regIndex intlNo dnum) with recvCommand := cmd }) } }

def ioStatus (intlNo dnum : Word) : Word :=
  if transmits intlNo dnum then (f.hw.devreg (regIndex intlNo dnum)).transmStatus
  else (f.hw.devreg (regIndex intlNo dnum)).recvStatus

variable [Platform]

def enable : Face :=
  { f with hw := { f.hw with status := Platform.statusAllIntEnable f.hw.status } }

def start : Face :=
  { f with
    kernelStart := f.now
    hw := { f.hw with
      status := Platform.statusAllIntDisable f.hw.status
      reads := f.hw.reads + 1 } }

def trap : Face :=
  { f.start with
    flag := .loadcurrent
    pS := Function.update f.pS c (f.hw.oldArea .sysbk) }

def specify (pc sp flags : Word) : Face :=
  { (f.setArea c (.old e) fun _ => f.hw.processor).setArea c (.new e) fun _ =>
      { f.pS c with
        pc := pc
        sp := sp
        cpsr := (f.pS c).cpsr &&& 0x7FFFFFF8 ||| flags &&& 0x80000007
        cp15EntryHi := Platform.setEntryHi f.hw.entryHi } with
    tags := Function.update f.tags c (Function.update (f.tags c) e true) }

def leave : Face :=
  (f.charge c).setArea c (.new e) fun s => { s with cpsr := Platform.statusAllIntEnable s.cpsr }

def passUp (st : State) : Face :=
  (((f.setArea c (.old e) fun _ => st).setArea c (.new e) fun s => { s with a1 := st.cp15Cause })
    ).leave c e

def passUpSyscall (st : State) : Face :=
  ((f.setArea c (.old .sys) fun _ => st).setArea c (.new .sys) fun s =>
    { s with
      a1 := st.a1 &&& 0x0FFFFFFF ||| (st.cpsr &&& 0x0000000F) <<< 28
      a2 := st.a2
      a3 := st.a3
      a4 := st.a4 }).leave c .sys

def handler : State := f.oldnewAreas c (.new e)

/-- A service requested in user mode, as a program trap in the state `st`. -/
def reflect (st : State) : Face :=
  ({ f.trap c with
    hw := { (f.trap c).hw with oldArea := Function.update f.hw.oldArea .pgmtrap st } } :
      Face).charge c

end Face

/-! ### Termination and semaphores -/

variable [Platform] {s t : Kernel} {v : View} {f : Face} {c p : Pcb} {a : ℕ} {w : ℤ} {u : Word}
  {ctl : Ctl} {o : Option Ctl} {st : State} {e : Excp}

omit [Platform] in
theorem current_ok (hc : s.currentProcess = some c) : current.run s = .ok c s := by
  rw [current, Program.run_gets_bind, hc]
  rfl

theorem terminateProcess_face (hc : s.currentProcess = some c)
    (hrun : (terminateProcess u).run s = .ok () t) :
    t.face = if u = 0 ∨ u = s.pid c then s.face.drop else s.face := by
  rw [terminateProcess, Program.run_bind_ok (current_ok hc), Program.run_gets_bind] at hrun
  split
  · next hu =>
    rw [if_pos hu] at hrun
    obtain ⟨_, s₁, h₁, hrun⟩ := Program.ok_of_bind hrun
    obtain ⟨_, s₂, h₂, hrun⟩ := Program.ok_of_bind hrun
    have hf : s₂.face = s.face :=
      (discard_calm.face.ok h₂).trans (terminateChildrenLoop_calm.face.ok h₁)
    cases hrun
    rw [← hf]
    rfl
  · next hu =>
    rw [if_neg hu] at hrun
    obtain ⟨found, s₁, h₁, hrun⟩ := Program.ok_of_bind hrun
    rw [Program.run_ite] at hrun
    split at hrun
    · cases hrun
    · cases hrun
      exact lookforProgenyLoop_calm.face.ok h₁

theorem terminateProcess_exit (h : Rep s.core v) (hc : s.currentProcess = some c)
    (hrun : (terminateProcess u).run s = .exit ctl t) : ctl = .panic ∧ t = s := by
  have hkill := terminateProcess_run u h.toWellFormed hc
  cases ht : terminated s.core c u with
  | none =>
      rw [ht, hrun] at hkill
      cases hkill
      exact ⟨rfl, rfl⟩
  | some q =>
      rw [ht, hrun] at hkill
      obtain ⟨ks, k₀, -, -, -, ⟨e, he, -⟩ | ⟨m, r, he, -⟩⟩ := hkill
      · cases he
      · cases he

/-- The running process terminates itself for a fault of its own. -/
theorem terminateCurrent_exit (h : Rep s.core v) (hc : s.currentProcess = some c)
    (hrun : terminateCurrent.run s = .exit ctl t) :
    ctl = .panic ∧ t.face = s.face ∨ ctl = .scheduler ∧ t.face = s.face.drop := by
  rw [terminateCurrent, Program.run_bind_ok (current_ok hc), Program.run_gets_bind] at hrun
  rcases Program.exit_of_bind hrun with hrun | ⟨_, s₁, h₁, hrun⟩
  · obtain ⟨rfl, rfl⟩ := terminateProcess_exit h hc hrun
    exact Or.inl ⟨rfl, rfl⟩
  · cases hrun
    have hf := terminateProcess_face hc h₁
    rw [if_pos (Or.inr rfl)] at hf
    exact Or.inr ⟨rfl, hf⟩

inductive Operates (v : View) (f : Face) (c : Pcb) (a : ℕ) (w : ℤ) : Option Ctl → Face → Prop where
  | panic : Operates v f c a w (some .panic) f
  | die (ha : a ≠ 0) (hw : w = 0) : Operates v f c a w none f.drop
  | pass (ha : a ≠ 0) (hw : w < 0) (hi : 0 ≤ v.credit a w) : Operates v f c a w none f
  | block (ha : a ≠ 0) (hw : w < 0) (hi : v.credit a w < 0) : Operates v f c a w none (f.suspend c)
  | verhogen (ha : a ≠ 0) (hw : 0 < w) : Operates v f c a w none f

theorem Operates.exit {g : Face} (h : Operates v f c a w (some ctl) g) : ctl = .panic ∧ g = f := by
  cases h
  exact ⟨rfl, rfl⟩

theorem Operates.devreg {o : Option Ctl} {g : Face} (h : Operates v f c a w o g) :
    g.hw.devreg = f.hw.devreg := by
  cases h <;> rfl

theorem semaphoreOperation_ends (h : Rep s.core v) (hc : s.currentProcess = some c) :
    Program.Triple (fun t => t = s) (semaphoreOperation a w)
      (fun _ t => Operates v s.face c a w none t.face)
      (fun ctl t => Operates v s.face c a w (some ctl) t.face) (fun _ => True) := by
  rintro s rfl
  by_cases ha : a = 0
  · subst ha
    rw [semaphoreOperation_null]
    exact .panic
  rcases Int.lt_trichotomy w 0 with hw | rfl | hw
  · have hself : s.withLists s.core.links v = s := h.withLists
    rw [semaphoreOperation_neg ha hw]
    by_cases hi : 0 ≤ v.credit a w
    · have hrun := passeren_pass (k := s) (m := s.core.links) hi
      rw [hself] at hrun
      rw [hrun]
      exact .pass ha hw hi
    · obtain ⟨m, hrun, -⟩ :=
        passeren_block (k := s) h.lists hc (h.current_off hc) ha hw (Int.not_le.mp hi)
      rw [hself] at hrun
      rw [hrun]
      exact .block ha hw (Int.not_le.mp hi)
  · rw [semaphoreOperation_zero ha hc]
    cases hrun : (terminateProcess (s.pid c)).run s with
    | ok r t' =>
        have hf := terminateProcess_face hc hrun
        rw [if_pos (Or.inr rfl)] at hf
        dsimp only
        rw [hf]
        exact .die ha rfl
    | exit ctl t' =>
        obtain ⟨rfl, rfl⟩ := terminateProcess_exit h hc hrun
        exact .panic
    | fault e => trivial
  · obtain ⟨m, q, hrun, -⟩ := verhogen_ok (a := a) (w := w) h
    rw [semaphoreOperation_pos ha hw, hrun]
    exact .verhogen ha hw

inductive Creates (v : View) (f : Face) (statep : Word) : Word → Face → Prop where
  | full (hf : v.free = []) : Creates v f statep (-1) f
  | create {p : Pcb} {l : List Pcb} {pow : Word} (hf : v.free = p :: l)
      (hpow : pidPow f.counter 33 10 = some pow) :
      Creates v f statep (Platform.tmpAddr * pow + f.counter)
        (f.create p (f.hw.stateAt statep) (Platform.tmpAddr * pow + f.counter))

theorem Creates.of_eq {r : Word} {g : Face} {l : List Pcb} {pow : Word} (hf : v.free = p :: l)
    (hpow : pidPow f.counter 33 10 = some pow) (hr : r = Platform.tmpAddr * pow + f.counter)
    (hg : g = f.create p (f.hw.stateAt u) (Platform.tmpAddr * pow + f.counter)) :
    Creates v f u r g := by
  subst hr hg
  exact .create hf hpow

theorem createProcess_ends (h : Rep s.core v) (hc : s.currentProcess = some c) :
    Program.Triple (fun t => t = s) (createProcess u) (fun r t => Creates v s.face u r t.face)
      (fun _ _ => False) (fun _ => True) := by
  rintro s rfl
  cases hf : v.free with
  | nil =>
      rw [createProcess_full h hf]
      exact .full hf
  | cons p l =>
      obtain ⟨link, tail, hrun, -, -⟩ := Lists.allocate (μ := s.toMem) Platform.tmpAddr h.lists hf
      rw [createProcess, Program.run_bind_ok (onMem_run hrun)]
      simp only [Program.run_modify_bind, Program.run_gets_bind, setPs, current, assignPid,
        pidGenerator, Kernel.setMem, Kernel.setLinks, hc, Program.need_some, Program.run_bind_bind,
        Program.run_pure_bind]
      cases hpow : pidPow s.counter 33 10 with
      | none =>
          simp only [Program.need_none, Program.run_fail_bind]
      | some pow =>
          simp only [Program.need_some, Program.run_pure_bind, Program.run_modify_bind]
          apply Creates.of_eq hf hpow
          · exact (Function.update_self ..).trans
              (congrArg (· * pow + s.counter) (Function.update_self ..))
          · apply Face.ext
            · exact hc.symm
            · rfl
            · exact Function.update_idem ..
            · exact (Function.update_idem ..).trans
                (congrArg (fun i => Function.update s.pid p (i * pow + s.counter))
                  (Function.update_self ..))
            · exact Function.update_idem ..
            · exact Function.update_idem ..
            all_goals rfl

/-- The value of a function after which the same process runs. -/
theorem assignA1_run {x : KM Word} (hx : x.run s = .ok u t) (hc : s.currentProcess = some c)
    (ht : t.currentProcess = some c) :
    (assignA1 x).run s = (setPs c fun r => { r with a1 := u }).run t := by
  unfold assignA1
  split
  · rw [Program.run_bind_ok (current_ok hc), Program.run_bind_ok hx]
  · rw [Program.run_bind_ok hx, Program.run_bind_ok (current_ok ht)]

/-- The value a function returns goes to the process that was running when it was called, unless
the operands are evaluated from the right and nobody runs any more. -/
theorem assignA1_ends {x : KM Word} (Q : Word → Face → Prop) (E : Ctl → Kernel → Prop)
    (hc : s.currentProcess = some c)
    (hx : Program.Triple (fun t => t = s) x (fun r t => Q r t.face) E (fun _ => True))
    (hQ : ∀ r f, Q r f → f.currentProcess = some c ∨ f.currentProcess = none) :
    Program.Triple (fun t => t = s) (assignA1 x) (fun _ t => ∃ r f, Q r f ∧ t.face = f.answer c r)
      E (fun _ => True) := by
  rintro s rfl
  have hxs := hx s rfl
  have hcur := current_ok hc
  by_cases hl : Platform.leftFirst = true
  · rw [assignA1, if_pos hl, Program.run_bind_ok hcur]
    cases hrun : x.run s with
    | ok r t =>
        rw [hrun] at hxs
        rw [Program.run_bind_ok hrun]
        exact ⟨r, t.face, hxs, rfl⟩
    | exit ctl t =>
        rw [hrun] at hxs
        rw [Program.run_bind_exit hrun]
        exact hxs
    | fault e =>
        rw [Program.run_bind_fault hrun]
        trivial
  · rw [assignA1, if_neg hl]
    cases hrun : x.run s with
    | ok r t =>
        rw [hrun] at hxs
        rw [Program.run_bind_ok hrun]
        rcases hQ r t.face hxs with ht | ht
        · rw [Program.run_bind_ok (current_ok ht)]
          exact ⟨r, t.face, hxs, rfl⟩
        · have hnull : current.run t = .fault .null := by
            rw [current, Program.run_gets_bind, show t.currentProcess = none from ht]
            rfl
          rw [Program.run_bind_fault hnull]
          trivial
    | exit ctl t =>
        rw [hrun] at hxs
        rw [Program.run_bind_exit hrun]
        exact hxs
    | fault e =>
        rw [Program.run_bind_fault hrun]
        trivial

inductive Requests (v : View) (f : Face) (c : Pcb) (cmd intlNo dnum : Word) : Word → Face →
    Prop where
  | issue {g : Face} (hi : semIndex intlNo (termRead intlNo dnum) dnum < maxDevices)
      (hr : regIndex intlNo dnum < 40)
      (h : Operates v f.enable c (semAddr (semIndex intlNo (termRead intlNo dnum) dnum))
        (-1) none g) :
      Requests v f c cmd intlNo dnum (g.ioStatus intlNo dnum) (g.command cmd intlNo dnum)

omit [Platform] in
theorem setDevreg_status {i : ℕ} {g : DevReg → DevReg} {status : DevReg → Word}
    (hg : ∀ r, status (g r) = status r) :
    (do setDevreg i g; Program.gets fun k => status (k.hw.devreg i) : KM Word).run s =
      .ok (status (s.hw.devreg i))
        { s with
          hw := { s.hw with devreg := Function.update s.hw.devreg i (g (s.hw.devreg i)) } } := by
  simp only [setDevreg, Program.run_modify_bind, Program.run_gets, Function.update_self, hg]

omit [Platform] in
theorem ioCommand_run (cmd : Word) {intlNo dnum : Word} (hr : regIndex intlNo dnum < 40) :
    ∃ t, (ioCommand cmd intlNo dnum).run s = .ok (s.face.ioStatus intlNo dnum) t ∧
      t.face = s.face.command cmd intlNo dnum := by
  unfold ioCommand devRegAddr Face.ioStatus Face.command
  simp only [if_pos hr, Program.run_pure_bind]
  by_cases hterm : intlNo = intTerminal
  · by_cases hread : termRead intlNo dnum = 0
    · have ht : transmits intlNo dnum = true :=
        Bool.and_eq_true_iff.mpr ⟨decide_eq_true hterm, decide_eq_true hread⟩
      rw [if_pos hterm, if_neg (not_not.mpr hread), if_pos ht, if_pos ht]
      exact ⟨_, setDevreg_status fun _ => rfl, rfl⟩
    · have ht : ¬ transmits intlNo dnum = true := fun ht =>
        hread (of_decide_eq_true (Bool.and_eq_true_iff.mp ht).2)
      rw [if_pos hterm, if_pos hread, if_neg ht, if_neg ht]
      exact ⟨_, setDevreg_status fun _ => rfl, rfl⟩
  · have ht : ¬ transmits intlNo dnum = true := fun ht =>
      hterm (of_decide_eq_true (Bool.and_eq_true_iff.mp ht).1)
    rw [if_neg hterm, if_neg ht, if_neg ht]
    exact ⟨_, setDevreg_status fun _ => rfl, rfl⟩

theorem ioDevop_ends {cmd intlNo dnum : Word} (h : Rep s.core v) (hc : s.currentProcess = some c) :
    Program.Triple (fun t => t = s) (ioDevop cmd intlNo dnum)
      (fun r t => Requests v s.face c cmd intlNo dnum r t.face)
      (fun ctl t => ctl = .panic ∧ t.face = s.face.enable) (fun _ => True) := by
  rintro s rfl
  obtain ⟨s₁, hs₁, hrep, hcur, hface⟩ : ∃ s₁, ioEnable.run s = .ok () s₁ ∧ Rep s₁.core v ∧
      s₁.currentProcess = some c ∧ s₁.face = s.face.enable := ⟨_, rfl, h, hc, rfl⟩
  rw [ioDevop, Program.run_bind_ok hs₁, ioWait, Program.run_bind_bind, deviceSemAt]
  by_cases hi : semIndex intlNo (termRead intlNo dnum) dnum < maxDevices
  · have hop := semaphoreOperation_ends (a := semAddr (semIndex intlNo (termRead intlNo dnum) dnum))
      (w := -1) hrep hcur s₁ rfl
    simp only [if_pos hi, Program.run_pure_bind]
    rw [hface] at hop
    cases hrun : (semaphoreOperation (semAddr (semIndex intlNo (termRead intlNo dnum) dnum))
        (-1)).run s₁ with
    | ok r s₂ =>
        rw [hrun] at hop
        rw [Program.run_bind_ok hrun]
        by_cases hr : regIndex intlNo dnum < 40
        · obtain ⟨t, ht, htf⟩ := ioCommand_run (s := s₂) cmd hr
          rw [ht]
          dsimp only
          rw [htf]
          exact .issue hi hr hop
        · rw [ioCommand, devRegAddr, if_neg hr]
          trivial
    | exit ctl s₂ =>
        rw [hrun] at hop
        rw [Program.run_bind_exit hrun]
        exact hop.exit
    | fault e =>
        rw [Program.run_bind_fault hrun]
        trivial
  · simp only [if_neg hi, Program.run_fail_bind]

def Kernel.withArea (k : Kernel) (p : Pcb) (b : Area) (g : State → State) : Kernel :=
  { k with
    oldnewAreas := Function.update k.oldnewAreas p
      (Function.update (k.oldnewAreas p) b (g (k.oldnewAreas p b))) }

section WithArea

variable {α : Type} {b : Area} {g : State → State}

omit [Platform] in
@[simp] theorem run_setArea (k : Kernel) : (setArea p b g).run k = .ok () (k.withArea p b g) := rfl

omit [Platform] in
@[simp] theorem run_setArea_bind (k : Kernel) (x : Unit → KM α) :
    (setArea p b g >>= x).run k = (x ()).run (k.withArea p b g) := rfl

omit [Platform] in
@[simp] theorem withArea_face (k : Kernel) : (k.withArea p b g).face = k.face.setArea p b g := rfl

omit [Platform] in
@[simp] theorem withArea_pS (k : Kernel) : (k.withArea p b g).pS = k.pS := rfl

omit [Platform] in
@[simp] theorem withArea_hw (k : Kernel) : (k.withArea p b g).hw = k.hw := rfl

end WithArea

theorem specify_ends {pc sp flags : Word} (h : Rep s.core v) (hc : s.currentProcess = some c) :
    Program.Triple (fun t => t = s) (specify e pc sp flags)
      (fun _ t => s.tags c e = false ∧ t.face = s.face.specify c e pc sp flags)
      (fun ctl t => ctl = .panic ∧ t.face = s.face ∨
        ctl = .scheduler ∧ s.tags c e = true ∧ t.face = s.face.drop)
      (fun _ => True) := by
  rintro s rfl
  rw [specify, Program.run_bind_ok (current_ok hc), Program.run_gets_bind]
  cases ht : s.tags c e with
  | true =>
      simp only [if_true]
      cases hrun : terminateCurrent.run s with
      | ok r t => exact absurd hrun terminateCurrent_ends
      | exit ctl t =>
          rw [Program.run_bind_exit hrun]
          rcases terminateCurrent_exit h hc hrun with ⟨rfl, hf⟩ | ⟨rfl, hf⟩
          · exact Or.inl ⟨rfl, hf⟩
          · exact Or.inr ⟨rfl, trivial, hf⟩
      | fault e =>
          rw [Program.run_bind_fault hrun]
          trivial
  | false =>
      simp only [Bool.false_eq_true, if_false, Program.run_modify_bind, Program.run_gets_bind,
        run_setArea_bind, run_setArea, withArea_face, withArea_pS, withArea_hw,
        Face.setArea_setArea]
      exact ⟨trivial, rfl⟩

/-! ### Services -/

/-- The ways out of the `switch` for the arguments in `st`. -/
inductive Serves (v : View) (f : Face) (c : Pcb) (st : State) : Option Ctl → Face → Prop where
  | panic (hsys : st.a1 ≠ 1) : Serves v f c st (some .panic) f
  | ioPanic (hsys : st.a1 = 10) : Serves v f c st (some .panic) f.enable
  | create {r : Word} {g : Face} (hsys : st.a1 = 1) (h : Creates v f st.a2 r g) :
      Serves v f c st none (g.answer c r)
  | terminate (hsys : st.a1 = 2) :
      Serves v f c st none (if st.a2 = 0 ∨ st.a2 = f.pid c then f.drop else f)
  | operate {o : Option Ctl} {g : Face} (hsys : st.a1 = 3)
      (h : Operates v f c st.a2.toNat st.a3.toInt o g) : Serves v f c st o g
  | specify (e : Excp) (hsys : st.a1 = 4 + e.code) (ht : f.tags c e = false) :
      Serves v f c st none (f.specify c e st.a2 st.a3 st.a4)
  | respecify (e : Excp) (hsys : st.a1 = 4 + e.code) (ht : f.tags c e = true) :
      Serves v f c st (some .scheduler) f.drop
  | exitTrap (e : Excp) (hsys : st.a1 = 7) (he : st.a2 = e.code) :
      Serves v f c st (some (.ldst { f.oldnewAreas c (.old e) with a1 := st.a3 }))
        (f.setArea c (.old e) fun s => { s with a1 := st.a3 })
  | noTrap (hsys : st.a1 = 7) (he : ∀ e : Excp, st.a2 ≠ e.code) : Serves v f c st none f
  | cputime (hsys : st.a1 = 8) : Serves v f c st none (f.cputime c st.a2 st.a3)
  | clock {o : Option Ctl} {g : Face} (hsys : st.a1 = 9)
      (h : Operates v f c (semAddr clockSem) (-1) o g) : Serves v f c st o g
  | io {r : Word} {g : Face} (hsys : st.a1 = 10) (h : Requests v f c st.a2 st.a3 st.a4 r g) :
      Serves v f c st none (g.answer c r)
  | getpid (hsys : st.a1 = 11) : Serves v f c st none (f.answer c (f.pid c))

theorem Operates.current {g : Face} (h : Operates v f c a w none g)
    (hc : f.currentProcess = some c) : g.currentProcess = some c ∨ g.currentProcess = none := by
  cases h with
  | die => exact Or.inr rfl
  | pass => exact Or.inl hc
  | block => exact Or.inr rfl
  | verhogen => exact Or.inl hc

omit [Platform] in
theorem exitVia_run (hc : s.currentProcess = some c) :
    (exitVia e u).run s = .exit (.ldst { s.oldnewAreas c (.old e) with a1 := u })
      (s.withArea c (.old e) fun r => { r with a1 := u }) := by
  rw [exitVia, Program.run_bind_ok (current_ok hc), run_setArea_bind, Program.run_gets_bind, LDST,
    Program.run_leave]
  simp only [Kernel.withArea, Function.update_self]

theorem specify_serves (h : Rep s.core v) (hc : s.currentProcess = some c) (e : Excp)
    (hsys : st.a1 = 4 + e.code) :
    Program.Triple (fun t => t = s) (specify e st.a2 st.a3 st.a4)
      (fun _ t => Serves v s.face c st none t.face)
      (fun ctl t => Serves v s.face c st (some ctl) t.face) (fun _ => True) := by
  apply (specify_ends h hc).conseq (fun _ ht => ht)
  · rintro _ t ⟨htag, hf⟩
    rw [hf]
    exact .specify e hsys htag
  · rintro ctl t (⟨rfl, hf⟩ | ⟨rfl, htag, hf⟩)
    · rw [hf]
      apply Serves.panic
      rw [hsys]
      cases e <;> decide
    · rw [hf]
      exact .respecify e hsys htag

theorem semaphoreOperation_serves (h : Rep s.core v) (hc : s.currentProcess = some c)
    (hop : ∀ o g, Operates v s.face c a w o g → Serves v s.face c st o g) :
    Program.Triple (fun t => t = s) (semaphoreOperation a w)
      (fun _ t => Serves v s.face c st none t.face)
      (fun ctl t => Serves v s.face c st (some ctl) t.face) (fun _ => True) :=
  (semaphoreOperation_ends h hc).conseq (fun _ ht => ht) (fun _ t => hop none t.face)
    fun ctl t => hop (some ctl) t.face

theorem exitTrap_serves (hc : s.currentProcess = some c) (hsys : st.a1 = 7) :
    Program.Triple (fun t => t = s) (exitTrap st.a2 st.a3)
      (fun _ t => Serves v s.face c st none t.face)
      (fun ctl t => Serves v s.face c st (some ctl) t.face) (fun _ => True) := by
  have hvia : ∀ e : Excp, st.a2 = e.code → Program.Triple (fun t => t = s) (exitVia e st.a3)
      (fun _ t => Serves v s.face c st none t.face)
      (fun ctl t => Serves v s.face c st (some ctl) t.face) (fun _ => True) := by
    rintro e he s rfl
    rw [exitVia_run hc]
    exact .exitTrap e hsys he
  apply Program.Triple.ite (hvia .sys)
  intro h₀
  apply Program.Triple.ite (hvia .tlb)
  intro h₁
  apply Program.Triple.ite (hvia .pgmtp)
  intro h₂
  apply Program.Triple.pure
  rintro s rfl
  apply Serves.noTrap hsys
  intro e
  cases e with
  | sys => exact h₀
  | tlb => exact h₁
  | pgmtp => exact h₂

theorem service_ends (st : State) (h : Rep s.core v) (hc : s.currentProcess = some c) :
    Program.Triple (fun t => t = s) (service st.a1 st.a2 st.a3 st.a4)
      (fun _ t => Serves v s.face c st none t.face)
      (fun ctl t => Serves v s.face c st (some ctl) t.face) (fun _ => True) := by
  unfold service
  apply Program.Triple.ite
  · intro hsys
    apply (assignA1_ends (Creates v s.face st.a2) (fun _ _ => False) hc
      (createProcess_ends h hc) ?_).conseq (fun _ ht => ht)
    · rintro _ t ⟨r, g, hg, hf⟩
      rw [hf]
      exact .create hsys hg
    · rintro ctl t ⟨⟩
    · rintro r g hg
      cases hg <;> exact Or.inl hc
  intro h₁
  apply Program.Triple.ite
  · rintro hsys s rfl
    cases hrun : (terminateProcess st.a2).run s with
    | ok r t =>
        dsimp only
        rw [terminateProcess_face hc hrun]
        exact .terminate hsys
    | exit ctl t =>
        obtain ⟨rfl, rfl⟩ := terminateProcess_exit h hc hrun
        exact .panic h₁
    | fault e => trivial
  intro _
  apply Program.Triple.ite
  · exact fun hsys => semaphoreOperation_serves h hc fun _ _ => .operate hsys
  intro _
  apply Program.Triple.ite
  · exact fun hsys => specify_serves h hc .sys hsys
  intro _
  apply Program.Triple.ite
  · exact fun hsys => specify_serves h hc .tlb hsys
  intro _
  apply Program.Triple.ite
  · exact fun hsys => specify_serves h hc .pgmtp hsys
  intro _
  apply Program.Triple.ite
  · exact exitTrap_serves hc
  intro _
  apply Program.Triple.ite
  · rintro hsys s rfl
    rw [getCputime, Program.run_bind_ok (current_ok hc)]
    exact .cputime hsys
  intro _
  apply Program.Triple.ite
  · exact fun hsys => semaphoreOperation_serves h hc fun _ _ => .clock hsys
  intro _
  apply Program.Triple.ite
  · intro hsys
    apply (assignA1_ends (Requests v s.face c st.a2 st.a3 st.a4)
      (fun ctl t => ctl = .panic ∧ t.face = s.face.enable) hc (ioDevop_ends h hc) ?_).conseq
      (fun _ ht => ht)
    · rintro _ t ⟨r, g, hg, hf⟩
      rw [hf]
      exact .io hsys hg
    · rintro ctl t ⟨rfl, hf⟩
      rw [hf]
      exact .ioPanic hsys
    · rintro r _ ⟨hi, hr, hop⟩
      exact hop.current hc
  intro _
  apply Program.Triple.ite
  · intro hsys
    have hpid : Program.Triple (fun t => t = s) getpid
        (fun r t => r = s.pid c ∧ t.face = s.face) (fun _ _ => False) (fun _ => True) := by
      rintro s rfl
      rw [getpid, Program.run_bind_ok (current_ok hc)]
      exact ⟨rfl, rfl⟩
    apply (assignA1_ends (fun r g => r = s.pid c ∧ g = s.face) (fun _ _ => False) hc hpid
      ?_).conseq (fun _ ht => ht)
    · rintro _ t ⟨r, g, ⟨rfl, rfl⟩, hf⟩
      rw [hf]
      exact .getpid hsys
    · rintro ctl t ⟨⟩
    · rintro r _ ⟨-, rfl⟩
      exact Or.inl hc
  intro _
  exact Program.Triple.leave fun t ht => ht ▸ .panic h₁

end JaeOS
