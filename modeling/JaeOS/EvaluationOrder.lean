import JaeOS.Board
import JaeOS.Outcomes

/-!
# The order of evaluation

`current_process->p_s.a1 = io_devop(...)` may read `current_process` before the call or after it.
When the `P` of `io_devop` blocks the caller nobody runs after the call, and only the first order
finds the caller.
-/

open LinkRing Transition

namespace JaeOS

/-- The same platform with a compiler that reads `current_process` before the call, or after it. -/
@[reducible] def Platform.reading (P : Platform) (leftFirst : Bool) : Platform :=
  { P with leftFirst := leftFirst }

section Calls

variable [Platform] {k k' : Kernel} {v : View} {c : Pcb} {a i : ℕ} {w : ℤ}
    {command intlNo dnum : Word}

/-- There is enough: nothing but the integer changes. -/
theorem passeren_enough (hi : 0 ≤ Platform.wrap (k.ints a + w)) :
    (passeren a w).run k =
      .ok () { k with ints := Function.update k.ints a (Platform.wrap (k.ints a + w)) } := by
  have hneg : ¬ Function.update k.ints a (Platform.wrap (k.ints a + w)) a < 0 := by
    rw [Function.update_self]
    omega
  rw [passeren, Program.run_gets_bind, setInt, Program.run_modify_bind, Program.run_gets_bind,
    if_neg hneg]
  rfl

/-- There is not: when `P` returns, nobody runs. -/
theorem passeren_leaves (hi : Platform.wrap (k.ints a + w) < 0) (hc : k.currentProcess = some c)
    (hrun : (passeren a w).run k = .ok () k') : k'.currentProcess = none := by
  have hneg : Function.update k.ints a (Platform.wrap (k.ints a + w)) a < 0 := by
    rwa [Function.update_self]
  rw [passeren, Program.run_gets_bind, setInt, Program.run_modify_bind, Program.run_gets_bind,
    if_pos hneg] at hrun
  simp only [current, getTODLO, addKernelTime, addGlobalTime, Program.run_bind_bind,
    Program.run_gets_bind, Program.run_modify_bind, Program.run_pure_bind, hc,
    Program.need_some] at hrun
  obtain ⟨full, t, -, hrun⟩ := Program.ok_of_bind hrun
  cases full with
  | true => cases hrun
  | false =>
      cases hrun
      rfl

def Kernel.enable (k : Kernel) : Kernel :=
  { k with hw := { k.hw with status := Platform.statusAllIntEnable k.hw.status } }

theorem ioDevop_eq (hi : semIndex intlNo (termRead intlNo dnum) dnum < maxDevices) :
    (ioDevop command intlNo dnum).run k =
      (passeren (semAddr (semIndex intlNo (termRead intlNo dnum) dnum)) (-1) >>= fun _ =>
        ioCommand command intlNo dnum).run k.enable := by
  have hstart : ioEnable.run k = .ok () k.enable := rfl
  rw [ioDevop, Program.run_bind_ok hstart, ioWait, Program.run_bind_bind, deviceSemAt]
  simp only [if_pos hi, Program.run_pure_bind]
  rw [Program.run_bind, Program.run_bind, semaphoreOperation_neg (semAddr_ne_zero _) (by decide)]

omit [Platform] in
theorem ioCommand_current (hr : regIndex intlNo dnum < 40) {status : Word}
    (hrun : (ioCommand command intlNo dnum).run k = .ok status k') :
    k'.currentProcess = k.currentProcess := by
  obtain ⟨t, ht, hf⟩ := ioCommand_run (s := k) command hr
  rw [ht] at hrun
  obtain ⟨-, rfl⟩ := Outcome.ok.inj hrun
  exact congrArg Face.currentProcess hf

theorem ioDevop_enough (hi : semIndex intlNo (termRead intlNo dnum) dnum < maxDevices)
    (hr : regIndex intlNo dnum < 40)
    (hfree : 0 ≤ Platform.wrap
      (k.ints (semAddr (semIndex intlNo (termRead intlNo dnum) dnum)) + -1)) :
    ∃ status k', (ioDevop command intlNo dnum).run k = .ok status k' ∧
      k'.currentProcess = k.currentProcess := by
  obtain ⟨k₁, hpass, hk₁⟩ : ∃ k₁, (passeren (semAddr (semIndex intlNo (termRead intlNo dnum) dnum))
      (-1)).run k.enable = .ok () k₁ ∧ k₁.currentProcess = k.currentProcess :=
    ⟨_, passeren_enough hfree, rfl⟩
  obtain ⟨t, ht, -⟩ := ioCommand_run (s := k₁) command hr
  have hrun : (ioDevop command intlNo dnum).run k = (ioCommand command intlNo dnum).run k₁ :=
    (ioDevop_eq hi).trans (Program.run_bind_ok hpass _)
  exact ⟨_, t, hrun.trans ht, (ioCommand_current hr ht).trans hk₁⟩

theorem ioDevop_leaves (hi : semIndex intlNo (termRead intlNo dnum) dnum < maxDevices)
    (hr : regIndex intlNo dnum < 40)
    (hnone : Platform.wrap (k.ints (semAddr (semIndex intlNo (termRead intlNo dnum) dnum)) + -1) <
      0)
    (hc : k.currentProcess = some c) {status : Word}
    (hrun : (ioDevop command intlNo dnum).run k = .ok status k') : k'.currentProcess = none := by
  rw [ioDevop_eq hi] at hrun
  obtain ⟨_, t, hpass, hrun⟩ := Program.ok_of_bind hrun
  rw [ioCommand_current hr hrun]
  exact passeren_leaves (k := k.enable) hnone hc hpass

/-! ### The system call -/

/-- What the caller `c` of `IODEVOP` expects: `io_devop` returns, and what it returns is in the
saved state of `c` when the handler calls the scheduler. -/
def IoAnswered (k : Kernel) (c : Pcb) : Prop :=
  ∃ status k' t, (ioDevop (k.hw.oldArea .sysbk).a2 (k.hw.oldArea .sysbk).a3
      (k.hw.oldArea .sysbk).a4).run (k.trap c) = .ok status k' ∧
    syscallHandler.run k = .exit .scheduler t ∧
    t.pS = Function.update k'.pS c { k'.pS c with a1 := status }

theorem syscallHandler_io (hc : k.currentProcess = some c)
    (hio : ioRequest (k.hw.oldArea .sysbk) = some i) :
    syscallHandler.run k =
      (assignA1 (ioDevop (k.hw.oldArea .sysbk).a2 (k.hw.oldArea .sysbk).a3
        (k.hw.oldArea .sysbk).a4) >>= fun _ => serviceEnd).run (k.trap c) ∧
    semIndex (k.hw.oldArea .sysbk).a3 (termRead (k.hw.oldArea .sysbk).a3 (k.hw.oldArea .sysbk).a4)
      (k.hw.oldArea .sysbk).a4 = i := by
  unfold ioRequest at hio
  split at hio
  · next hreq =>
    obtain ⟨hserv, huser, hsys⟩ := hreq
    refine ⟨?_, Option.some.inj hio⟩
    have hps : (k.trap c).pS c = k.hw.oldArea .sysbk := Function.update_self ..
    have hold : (k.trap c).hw.oldArea .sysbk = k.hw.oldArea .sysbk := rfl
    rw [syscallHandler, Program.run_bind_ok (syscallEnter_ok hc), Program.run_gets_bind, hold,
      if_pos hserv, Program.run_gets_bind, hps, if_neg huser]
    have hservice : service (k.hw.oldArea .sysbk).a1 (k.hw.oldArea .sysbk).a2
        (k.hw.oldArea .sysbk).a3
        (k.hw.oldArea .sysbk).a4 = assignA1
          (ioDevop (k.hw.oldArea .sysbk).a2 (k.hw.oldArea .sysbk).a3
          (k.hw.oldArea .sysbk).a4) := by
      rw [hsys]
      rfl
    rw [hservice]
  · cases hio

omit [Platform] in
theorem finish_pS (f : Face) : f.finish.pS = f.pS := by
  unfold Face.finish
  split <;> rfl

/-- The assignment when the caller has been found. -/
theorem ioAnswered_of_run {status : Word} (hc : k.currentProcess = some c)
    (hio : ioRequest (k.hw.oldArea .sysbk) = some i)
    (hrun : (ioDevop (k.hw.oldArea .sysbk).a2 (k.hw.oldArea .sysbk).a3
      (k.hw.oldArea .sysbk).a4).run (k.trap c) = .ok status k')
    (hfound : Platform.leftFirst = true ∨ k'.currentProcess = some c) : IoAnswered k c := by
  obtain ⟨hhandler, -⟩ := syscallHandler_io hc hio
  have hassign : (assignA1 (ioDevop (k.hw.oldArea .sysbk).a2 (k.hw.oldArea .sysbk).a3
      (k.hw.oldArea .sysbk).a4)).run (k.trap c) =
        (setPs c fun r => { r with a1 := status }).run k' := by
    have hcur : current.run (k.trap c) = .ok c (k.trap c) := current_ok hc
    rcases hfound with hl | hc'
    · rw [assignA1, if_pos hl, Program.run_bind_ok hcur, Program.run_bind_ok hrun]
    · exact assignA1_run hrun hc hc'
  obtain ⟨t, ht, hface, -⟩ := serviceEnd_run
    { k' with pS := Function.update k'.pS c { k'.pS c with a1 := status } }
  refine ⟨status, k', t, hrun, ?_, ?_⟩
  · rw [hhandler, Program.run_bind_ok (hassign.trans rfl)]
    exact ht
  · have hpS := congrArg Face.pS hface
    rw [finish_pS] at hpS
    exact hpS

/-- A caller that does not block is answered whatever the order. -/
theorem ioAnswered_of_enough (hc : k.currentProcess = some c)
    (hio : ioRequest (k.hw.oldArea .sysbk) = some i) (hi : i < maxDevices)
    (hr : regIndex (k.hw.oldArea .sysbk).a3 (k.hw.oldArea .sysbk).a4 < 40)
    (hfree : 0 ≤ Platform.wrap (k.ints (semAddr i) + -1)) : IoAnswered k c := by
  obtain ⟨-, rfl⟩ := syscallHandler_io hc hio
  have hresult : ∃ status k', (ioDevop (k.hw.oldArea .sysbk).a2 (k.hw.oldArea .sysbk).a3
      (k.hw.oldArea .sysbk).a4).run (k.trap c) = .ok status k' ∧
      k'.currentProcess = k.currentProcess :=
    ioDevop_enough hi hr hfree
  obtain ⟨status, k', hrun, hcur⟩ := hresult
  exact ioAnswered_of_run hc hio hrun (Or.inr (hcur.trans hc))

/-- A caller that blocks is not found any more when the call comes first. -/
theorem not_ioAnswered (hright : Platform.leftFirst = false) (hc : k.currentProcess = some c)
    (hio : ioRequest (k.hw.oldArea .sysbk) = some i) (hi : i < maxDevices)
    (hr : regIndex (k.hw.oldArea .sysbk).a3 (k.hw.oldArea .sysbk).a4 < 40)
    (hnone : Platform.wrap (k.ints (semAddr i) + -1) < 0) : ¬ IoAnswered k c := by
  intro hanswered
  obtain ⟨status, k', t, hrun, hexit, -⟩ := hanswered
  obtain ⟨hhandler, rfl⟩ := syscallHandler_io hc hio
  have hidle := ioDevop_leaves (k := k.trap c) hi hr hnone hc hrun
  have hnull : current.run k' = .fault .null := by
    rw [current, Program.run_gets_bind, hidle]
    rfl
  have hfault : (assignA1 (ioDevop (k.hw.oldArea .sysbk).a2 (k.hw.oldArea .sysbk).a3
      (k.hw.oldArea .sysbk).a4)).run (k.trap c) = .fault .null := by
    rw [assignA1, hright, if_neg Bool.false_ne_true, Program.run_bind_ok hrun,
      Program.run_bind_fault hnull]
  rw [hhandler, Program.run_bind_fault hfault] at hexit
  cases hexit

/-- On tables in order `P` returns, whether or not it blocks. -/
theorem passeren_ordered (h : Rep k.core v) (hc : k.currentProcess = some c) (ha : a ≠ 0)
    (hw : w < 0) :
    ∃ k', (passeren a w).run k = .ok () k' := by
  by_cases hfree : 0 ≤ Platform.wrap (k.ints a + w)
  · exact ⟨_, passeren_enough hfree⟩
  · have hvalue : k.ints = v.value := h.value
    have hnone : v.credit a w < 0 := by
      rw [View.credit, ← hvalue]
      exact not_le.mp hfree
    obtain ⟨m, hrun, -⟩ := passeren_block (k := k) h.lists hc (h.current_off hc) ha hw hnone
    have hself : k.withLists k.core.links v = k := h.withLists
    rw [hself] at hrun
    exact ⟨_, hrun⟩

end Calls

/-- `IODEVOP` answers its caller under both orders exactly if its `P` does not block. -/
theorem io_answered_iff {k : Kernel} {c : Pcb} {i : ℕ} (P : Platform)
    (hc : k.currentProcess = some c)
    (hio : ioRequest (k.hw.oldArea .sysbk) = some i) (hi : i < maxDevices)
    (hr : regIndex (k.hw.oldArea .sysbk).a3 (k.hw.oldArea .sysbk).a4 < 40) :
    (∀ leftFirst, @IoAnswered (P.reading leftFirst) k c) ↔
      0 ≤ Platform.wrap (k.ints (semAddr i) - 1) := by
  constructor
  · intro hall
    by_contra hneg
    exact @not_ioAnswered (P.reading false) k c i rfl hc hio hi hr (not_le.mp hneg) (hall false)
  · intro hfree leftFirst
    exact @ioAnswered_of_enough (P.reading leftFirst) k c i hc hio hi hr hfree

section Board

@[reducible] def rightBoard : Platform := uarm.reading false

attribute [local instance] rightBoard

def printerRequest : Hw := { Hw.rest with
  oldArea := fun _ => { State.zero with a1 := 10, a2 := 2, a3 := 6, cpsr := 0x1F, cp15Cause := 8 } }

/-- The printer's semaphore has a unit to spare. -/
theorem io_answered_spare : ∃ (s : Sys) (hw : Hw), s.kernel.currentProcess = some 0 ∧
    ∀ leftFirst, @IoAnswered (uarm.reading leftFirst) { s.kernel with hw := hw } 0 := by
  obtain ⟨s, -, hQ⟩ := nucleus_run (B := fun _ => True) (C := SparesReady) trivial atBoot_zero
    [.dispatch, call 3 0x7060 1, .dispatch]
    (fun s => s.kernel.currentProcess = some 0 ∧ s.kernel.ints (semAddr 24) = 1) (by decide +kernel)
  obtain ⟨hc, hvalue⟩ := of_decide_eq_true hQ
  have hfree : 0 ≤ Platform.wrap (s.kernel.ints (semAddr 24) - 1) := by
    rw [hvalue]
    decide
  have hio : @ioRequest uarm (printerRequest.oldArea .sysbk) = some 24 := by decide
  have hr : regIndex (printerRequest.oldArea .sysbk).a3 (printerRequest.oldArea .sysbk).a4 <
      40 := by decide
  exact ⟨s, printerRequest, hc,
    (io_answered_iff (k := { s.kernel with hw := printerRequest }) uarm hc
    hio (by decide) hr).mpr hfree⟩

/-- The first process waits for the printer: its status would be stored through a null pointer. -/
theorem io_unanswered : ¬ ∀ s, Reach (nucleus fun _ => True) SparesReady s → ∀ hw c i,
    s.kernel.currentProcess = some c → ioRequest (hw.oldArea .sysbk) = some i → i < maxDevices →
      regIndex (hw.oldArea .sysbk).a3 (hw.oldArea .sysbk).a4 < 40 →
        ∀ leftFirst, @IoAnswered (uarm.reading leftFirst) { s.kernel with hw := hw } c := by
  intro hall
  obtain ⟨s, hs, hQ⟩ := nucleus_run (B := fun _ => True) (C := SparesReady) trivial atBoot_zero
    [.dispatch] (fun s => s.kernel.currentProcess = some 0 ∧
      (Event.syscall printerRequest).enabled s.ctl ∧ (s.step (.syscall printerRequest)).isNone)
    (by decide +kernel)
  obtain ⟨hc, henabled, hnone⟩ := of_decide_eq_true hQ
  obtain ⟨status, k', t, -, hexit, -⟩ := hall s hs printerRequest 0 24 hc (by decide) (by decide)
    (by decide) false
  simp only [Sys.step, if_pos henabled, Event.program, Kernel.enter, hexit] at hnone
  cases hnone

end Board

end JaeOS
