import JaeOS.Bystanders
import JaeOS.EvaluationOrder

/-!
# Interrupts inside the nucleus

`interrupt_handler` turns interrupts on before it calls `scheduler()`, which turns them off, and
`io_devop` turns them on before its `P`. From there the code goes statement by statement, and before
every one of them an interrupt may be taken. Its handler ends in `scheduler()`: the code it has
interrupted only goes on if a process was running, in whose saved state it then is, and when this
process is loaded.
-/

open LinkRing Transition

namespace JaeOS

/-- The arguments of `io_devop`, and the process that was running when it was called. -/
structure IoCall where
  caller : Pcb
  command : Word
  intlNo : Word
  dnum : Word
  deriving DecidableEq

/-- The statements of a kernel-mode `IODEVOP` from `io_devop`'s `P` on: those of the `P`, the two
accesses to the device, and what `syscall_handler` does with the result. -/
inductive Stmt where
  | add
  | test
  | resWait
  | kernelTime
  | globalTime
  | insert
  | count
  | flag
  | clear
  | command
  | status
  | answer (statusWord : Word)
  | charge
  deriving DecidableEq

inductive Point where
  | scheduler
  | io (r : IoCall) (x : Stmt)
  deriving DecidableEq

variable [Platform]

namespace IoCall

variable (r : IoCall)

def semaddr : ℕ := semAddr (semIndex r.intlNo (termRead r.intlNo r.dnum) r.dnum)

def write (d : DevReg) : DevReg :=
  if transmits r.intlNo r.dnum then { d with transmCommand := r.command }
  else { d with recvCommand := r.command }

def read (d : DevReg) : Word := if transmits r.intlNo r.dnum then d.transmStatus else d.recvStatus

def target : KM Pcb := if Platform.leftFirst then pure r.caller else current

/-- Execute a statement, and find the next; after the last one `scheduler()` is called. -/
def exec : Stmt → KM (Option Stmt)
  | .add => do
    let semaddr ← deviceSemAt r.intlNo (termRead r.intlNo r.dnum) r.dnum
    setInt semaddr (Platform.wrap ((← Program.gets fun k => k.ints semaddr) + -1))
    pure (some .test)
  | .test => do
    if (← Program.gets fun k => k.ints r.semaddr) < 0 then
      pure (some .resWait)
    else
      pure (some .command)
  | .resWait => do
    let p ← current
    Program.modify fun k => { k with resWait := Function.update k.resWait p (-1) }
    pure (some .kernelTime)
  | .kernelTime => do
    let p ← current
    let now ← getTODLO
    addKernelTime p (now - (← Program.gets fun k => k.kernelStart))
    pure (some .globalTime)
  | .globalTime => do
    let p ← current
    let now ← getTODLO
    addGlobalTime p (now - (← Program.gets fun k => k.startTOD))
    pure (some .insert)
  | .insert => do
    let p ← current
    if ← onLinks (insertBlocked r.semaddr p) then
      PANIC
    pure (some .count)
  | .count => do
    addSoftBlockCount 1
    pure (some .flag)
  | .flag => do
    setFlag .loadnext
    pure (some .clear)
  | .clear => do
    setCurrent none
    pure (some .command)
  | .command => do
    let devreg ← devRegAddr r.intlNo r.dnum
    setDevreg devreg r.write
    pure (some .status)
  | .status => do
    let devreg ← devRegAddr r.intlNo r.dnum
    let statusWord ← Program.gets fun k => r.read (k.hw.devreg devreg)
    pure (some (.answer statusWord))
  | .answer statusWord => do
    let p ← r.target
    setPs p fun s => { s with a1 := statusWord }
    pure (some .charge)
  | .charge => do
    match ← Program.gets fun k => k.currentProcess with
    | some p => chargeKernel p
    | none => pure ()
    pure none

def run : ℕ → Stmt → KM Unit
  | 0, _ => Program.fail .loop
  | n + 1, x => do
    match ← r.exec x with
    | some y => run n y
    | none => callScheduler

def wait : ℕ → Stmt → KM Unit
  | 0, _ => Program.fail .loop
  | n + 1, x => do
    if x = .command then
      pure ()
    else
      match ← r.exec x with
      | some y => wait n y
      | none => callScheduler

end IoCall

/-- `syscall_handler` up to `io_devop`'s `P`: interrupts are on. -/
def ioEnter : KM IoCall := do
  let p ← syscallEnter
  let state ← Program.gets fun k => k.hw.oldArea .sysbk
  ioEnable
  pure ⟨p, state.a2, state.a3, state.a4⟩

variable {r : IoCall} {x y : Stmt} {k k' : Kernel} {c : Pcb} {n : ℕ} {u : Word}

theorem wait_step (hx : x ≠ .command) (hrun : (r.exec x).run k = .ok (some y) k') :
    (r.wait (n + 1) x).run k = (r.wait n y).run k' := by
  rw [IoCall.wait, if_neg hx, Program.run_bind_ok hrun]

theorem run_step (hrun : (r.exec x).run k = .ok (some y) k') :
    (r.run (n + 1) x).run k = (r.run n y).run k' := by
  rw [IoCall.run, Program.run_bind_ok hrun]

/-! ### The statements of `P` -/

def Kernel.take (k : Kernel) (r : IoCall) : Kernel :=
  { k with ints := Function.update k.ints r.semaddr (Platform.wrap (k.ints r.semaddr + -1)) }

def Kernel.ask (k : Kernel) (c : Pcb) : Kernel :=
  { k with resWait := Function.update k.resWait c (-1) }

def Kernel.bill (k : Kernel) (c : Pcb) : Kernel :=
  { k with
    globalTime :=
      Function.update k.globalTime c (k.globalTime c + (k.hw.tod k.hw.reads - k.startTOD))
    hw := { k.hw with reads := k.hw.reads + 1 } }

def Kernel.await (k : Kernel) (c : Pcb) : Kernel := ((k.ask c).charge c).bill c

theorem exec_add (hi : semIndex r.intlNo (termRead r.intlNo r.dnum) r.dnum < maxDevices) :
    (r.exec .add).run k = .ok (some .test) (k.take r) := by
  simp only [IoCall.exec, deviceSemAt, if_pos hi, Program.run_pure_bind]
  rfl

theorem exec_test_neg (hneg : k.ints r.semaddr < 0) :
    (r.exec .test).run k = .ok (some .resWait) k := by
  rw [IoCall.exec, Program.run_gets_bind, if_pos hneg]
  rfl

theorem exec_test_nonneg (hneg : ¬ k.ints r.semaddr < 0) :
    (r.exec .test).run k = .ok (some .command) k := by
  rw [IoCall.exec, Program.run_gets_bind, if_neg hneg]
  rfl

/-- A statement about the running process. -/
theorem exec_current {f : Pcb → KM (Option Stmt)} (hexec : r.exec x = current >>= f)
    (hc : k.currentProcess = some c) : (r.exec x).run k = (f c).run k := by
  rw [hexec, Program.run_bind_ok (current_ok hc)]

theorem exec_resWait (hc : k.currentProcess = some c) :
    (r.exec .resWait).run k = .ok (some .kernelTime) (k.ask c) :=
  (exec_current (r := r) (x := .resWait) rfl hc).trans rfl

theorem exec_kernelTime (hc : k.currentProcess = some c) :
    (r.exec .kernelTime).run k = .ok (some .globalTime) (k.charge c) :=
  (exec_current (r := r) (x := .kernelTime) rfl hc).trans rfl

theorem exec_globalTime (hc : k.currentProcess = some c) :
    (r.exec .globalTime).run k = .ok (some .insert) (k.bill c) :=
  (exec_current (r := r) (x := .globalTime) rfl hc).trans rfl

theorem wait_await (hc : k.currentProcess = some c) :
    (r.wait (n + 3) .resWait).run k = (r.wait n .insert).run (k.await c) := by
  rw [wait_step (by decide) (exec_resWait hc),
    wait_step (by decide) (exec_kernelTime (k := k.ask c) hc),
    wait_step (by decide) (exec_globalTime (k := (k.ask c).charge c) hc), Kernel.await]

theorem passeren_await (hneg : Platform.wrap (k.ints r.semaddr + -1) < 0)
    (hc : k.currentProcess = some c) :
    (passeren r.semaddr (-1)).run k = (do
      if ← onLinks (insertBlocked r.semaddr c) then
        PANIC
      addSoftBlockCount 1
      setFlag .loadnext
      setCurrent none : KM Unit).run ((k.take r).await c) := by
  have htest : (k.take r).ints r.semaddr < 0 := by
    rwa [show (k.take r).ints r.semaddr = Platform.wrap
      (k.ints r.semaddr + -1) from Function.update_self ..]
  have hcur : current.run (k.take r) = .ok c (k.take r) := current_ok hc
  rw [passeren, Program.run_gets_bind, setInt, Program.run_modify_bind, Program.run_gets_bind]
  change (if (k.take r).ints r.semaddr < 0 then _ else _ : KM Unit).run (k.take r) = _
  rw [if_pos htest, Program.run_bind_ok hcur]
  rfl

/-- The statements of `P` are those of `passeren`. -/
theorem wait_passeren (hi : semIndex r.intlNo (termRead r.intlNo r.dnum) r.dnum < maxDevices)
    (hc : k.currentProcess = some c) :
    (r.wait 10 .add).run k = (passeren r.semaddr (-1)).run k := by
  have htest : (k.take r).ints r.semaddr = Platform.wrap (k.ints r.semaddr + -1) :=
    Function.update_self ..
  rw [wait_step (by decide) (exec_add hi)]
  by_cases hneg : Platform.wrap (k.ints r.semaddr + -1) < 0
  · rw [passeren_await hneg hc, wait_step (by decide) (exec_test_neg (by rwa [htest])),
      wait_await (k := k.take r) hc]
    have hinsert : (r.exec .insert).run ((k.take r).await c) = (do
        if ← onLinks (insertBlocked r.semaddr c) then
          PANIC
        pure (some Stmt.count) : KM (Option Stmt)).run ((k.take r).await c) :=
      exec_current (r := r) (x := .insert) rfl hc
    cases hrun : (onLinks (insertBlocked r.semaddr c)).run ((k.take r).await c) with
    | ok full t =>
        rw [Program.run_bind_ok hrun] at hinsert ⊢
        cases full with
        | true =>
            rw [IoCall.wait, if_neg (by decide), Program.run_bind_exit hinsert]
            rfl
        | false =>
            rw [wait_step (by decide) hinsert]
            rfl
    | exit ctl t =>
        rw [Program.run_bind_exit hrun] at hinsert ⊢
        rw [IoCall.wait, if_neg (by decide), Program.run_bind_exit hinsert]
    | fault e =>
        rw [Program.run_bind_fault hrun] at hinsert ⊢
        rw [IoCall.wait, if_neg (by decide), Program.run_bind_fault hinsert]
  · rw [passeren_enough (not_lt.mp hneg), wait_step (by decide) (exec_test_nonneg (by rwa [htest]))]
    rfl

/-! ### An `IODEVOP` that no interrupt interrupts -/

def IoCall.finish (r : IoCall) : KM Unit := do
  let statusWord ← ioCommand r.command r.intlNo r.dnum
  let p ← r.target
  setPs p fun s => { s with a1 := statusWord }
  serviceEnd

omit [Platform] in
theorem ioCommand_eq : ioCommand r.command r.intlNo r.dnum = (do
    let devreg ← devRegAddr r.intlNo r.dnum
    setDevreg devreg r.write
    Program.gets fun k => r.read (k.hw.devreg devreg) : KM Word) := by
  have hwrite : r.write = fun d => r.write d := rfl
  unfold ioCommand
  rw [hwrite]
  unfold IoCall.write IoCall.read
  by_cases hterm : r.intlNo = intTerminal
  · by_cases hread : termRead r.intlNo r.dnum = 0
    · have ht : transmits r.intlNo r.dnum = true :=
        Bool.and_eq_true_iff.mpr ⟨decide_eq_true hterm, decide_eq_true hread⟩
      simp only [if_pos hterm, if_neg (not_not.mpr hread), if_pos ht]
    · have ht : ¬ transmits r.intlNo r.dnum = true := by
        intro ht
        exact hread (of_decide_eq_true (Bool.and_eq_true_iff.mp ht).2)
      simp only [if_pos hterm, if_pos hread, if_neg ht]
  · have ht : ¬ transmits r.intlNo r.dnum = true := by
      intro ht
      exact hterm (of_decide_eq_true (Bool.and_eq_true_iff.mp ht).1)
    simp only [if_neg hterm, if_neg ht]

def Kernel.command (k : Kernel) (r : IoCall) : Kernel :=
  { k with
    hw := { k.hw with
      devreg := Function.update k.hw.devreg (regIndex r.intlNo r.dnum)
        (r.write (k.hw.devreg (regIndex r.intlNo r.dnum))) } }

def Kernel.answer (k : Kernel) (p : Pcb) (u : Word) : Kernel :=
  { k with pS := Function.update k.pS p { k.pS p with a1 := u } }

theorem exec_command (hr : regIndex r.intlNo r.dnum < 40) :
    (r.exec .command).run k = .ok (some .status) (k.command r) := by
  simp only [IoCall.exec, devRegAddr, if_pos hr, Program.run_pure_bind]
  rfl

theorem exec_status (hr : regIndex r.intlNo r.dnum < 40) : (r.exec .status).run k =
    .ok (some (.answer (r.read (k.hw.devreg (regIndex r.intlNo r.dnum))))) k := by
  simp only [IoCall.exec, devRegAddr, if_pos hr, Program.run_pure_bind]
  rfl

theorem run_charge : (r.run (n + 1) .charge).run k = serviceEnd.run k := by
  rw [IoCall.run, IoCall.exec, serviceEnd]
  simp only [Program.run_bind_bind, Program.run_gets_bind]
  cases k.currentProcess <;> rfl

omit [Platform] in
theorem current_none (hc : k.currentProcess = none) : current.run k = .fault .null := by
  rw [current, Program.run_gets_bind, hc]
  rfl

theorem target_run : (∃ p, r.target.run k = .ok p k ∧ (p = r.caller ∨ k.currentProcess = some p)) ∨
    r.target.run k = .fault .null := by
  unfold IoCall.target
  by_cases hl : Platform.leftFirst = true
  · rw [if_pos hl]
    exact Or.inl ⟨r.caller, rfl, Or.inl rfl⟩
  · rw [if_neg hl]
    cases hc : k.currentProcess with
    | none => exact Or.inr (current_none hc)
    | some p => exact Or.inl ⟨p, current_ok hc, Or.inr rfl⟩

theorem exec_answer : (r.exec (.answer u)).run k = (r.target >>= fun p => do
    setPs p fun s => { s with a1 := u }
    pure (some Stmt.charge)).run k := rfl

theorem run_answer : (r.run (n + 2) (.answer u)).run k = (do
    let p ← r.target
    setPs p fun s => { s with a1 := u }
    serviceEnd : KM Unit).run k := by
  rcases target_run (r := r) (k := k) with ⟨p, hp, -⟩ | hp
  · have hexec : (r.exec (.answer u)).run k = .ok (some .charge) (k.answer p u) := by
      rw [exec_answer, Program.run_bind_ok hp]
      rfl
    rw [run_step hexec, run_charge, Program.run_bind_ok hp]
    rfl
  · have hexec : (r.exec (.answer u)).run k = .fault .null := by
      rw [exec_answer, Program.run_bind_fault hp]
    rw [IoCall.run, Program.run_bind_fault hexec, Program.run_bind_fault hp]

theorem run_command (n : ℕ) : (r.run (n + 4) .command).run k = r.finish.run k := by
  rw [IoCall.finish, ioCommand_eq]
  by_cases hr : regIndex r.intlNo r.dnum < 40
  · rw [run_step (exec_command hr), run_step (exec_status hr), run_answer]
    simp only [devRegAddr, if_pos hr, Program.run_bind_bind, Program.run_pure_bind, setDevreg,
      Program.run_modify_bind, Program.run_gets_bind]
    rfl
  · have hfail : devRegAddr r.intlNo r.dnum = Program.fail .bounds := if_neg hr
    simp only [IoCall.run, IoCall.exec, hfail, Program.run_bind_bind, Program.run_fail_bind]

theorem run_of_wait (h : (r.wait n x).run k = .ok () k') :
    (r.run (n + 4) x).run k = r.finish.run k' := by
  induction n generalizing x k with
  | zero => cases h
  | succ n ih =>
      rw [IoCall.wait] at h
      by_cases hx : x = .command
      · rw [if_pos hx] at h
        cases h
        rw [hx]
        exact run_command (n + 1)
      · rw [if_neg hx] at h
        obtain ⟨next, t, hexec, h⟩ := Program.ok_of_bind h
        cases next with
        | none => cases h
        | some y =>
            rw [Nat.add_right_comm, run_step hexec]
            exact ih h

def IoCall.of (c : Pcb) (st : State) : IoCall := ⟨c, st.a2, st.a3, st.a4⟩

theorem ioEnter_run (hc : k.currentProcess = some c) :
    ioEnter.run k = .ok (IoCall.of c (k.hw.oldArea .sysbk)) (k.trap c).enable := by
  rw [ioEnter, Program.run_bind_ok (syscallEnter_ok hc)]
  rfl

theorem ioEnter_eq (h : ioEnter.run k = .ok r k') :
    ∃ c, k.currentProcess = some c ∧ r = IoCall.of c (k.hw.oldArea .sysbk) ∧
    k' = (k.trap c).enable := by
  cases hc : k.currentProcess with
  | none =>
      have hidle : syscallEnter.run k = .fault .null := by
        unfold syscallEnter
        simp only [disableInterrupts, getSTATUS, setSTATUS, setFlag, current, Program.run_bind_bind,
          Program.run_gets_bind, Program.run_modify_bind, hc, Program.need_none,
          Program.run_fail_bind]
      rw [ioEnter, Program.run_bind_fault hidle] at h
      cases h
  | some c =>
      rw [ioEnter_run hc] at h
      cases h
      exact ⟨c, rfl, rfl, rfl⟩

/-- `io_devop` goes on as `ioCommand` does in `k'`. -/
theorem assign_finish {st : State} (hc : k.currentProcess = some c)
    (hdevop : (ioDevop st.a2 st.a3 st.a4).run k = (ioCommand st.a2 st.a3 st.a4).run k') :
    (assignA1 (ioDevop st.a2 st.a3 st.a4) >>= fun _ => serviceEnd).run k =
    (IoCall.of c st).finish.run k' := by
  have hcur : current.run k = .ok c k := current_ok hc
  have hfinish : (IoCall.of c st).finish = (ioCommand st.a2 st.a3 st.a4 >>= fun u => do
      let p ← (IoCall.of c st).target
      setPs p fun s => { s with a1 := u }
      serviceEnd) := rfl
  rw [hfinish]
  by_cases hl : Platform.leftFirst = true
  · have htarget : (IoCall.of c st).target = pure c := if_pos hl
    rw [assignA1, if_pos hl, htarget, Program.run_bind_bind, Program.run_bind_ok hcur,
      Program.run_bind_bind]
    rw [Program.run_bind, Program.run_bind, hdevop]
    rfl
  · have htarget : (IoCall.of c st).target = current := if_neg hl
    rw [assignA1, if_neg hl, htarget, Program.run_bind_bind]
    rw [Program.run_bind, Program.run_bind, hdevop]
    simp only [Program.run_bind_bind]

/-- Where no interrupt is taken the statements make up the handler. -/
theorem io_uninterrupted {v : View} {i : ℕ} (h : Rep k.core v) (hc : k.currentProcess = some c)
    (hio : ioRequest (k.hw.oldArea .sysbk) = some i) (hi : i < maxDevices) :
    syscallHandler.run k = (ioEnter >>= fun r => r.run 14 .add).run k := by
  obtain ⟨hhandler, rfl⟩ := syscallHandler_io hc hio
  rw [Program.run_bind_ok (ioEnter_run hc), hhandler]
  obtain ⟨k₁, hpass⟩ := passeren_ordered (k := (k.trap c).enable) (w := -1) h hc
    (semAddr_ne_zero _ : (IoCall.of c (k.hw.oldArea .sysbk)).semaddr ≠ 0) (by decide)
  have hwait :=
    wait_passeren (r := IoCall.of c (k.hw.oldArea .sysbk)) (k := (k.trap c).enable) hi hc
  rw [run_of_wait (hwait.trans hpass)]
  exact assign_finish (k := k.trap c) hc ((ioDevop_eq hi).trans (Program.run_bind_ok hpass _))

end JaeOS
