import JaeOS.Commands
import JaeOS.Devices
import JaeOS.Fate

/-!
# Commands to the sub-devices

`io_devop` writes its command whether or not somebody waits for the sub-device already; that the
semaphore is negative just says so. If its callers see to it that nobody does, as with a mutex of
their own, every command has the register to itself, and who gave it is woken with its status.
-/

open LinkRing LinkForest Transition

namespace JaeOS

/-! ### Completed commands -/

section Answers

variable [Platform] {s t : Kernel} {v v' : View} {hw : Hw} {a i : ℕ} {u il : Word}
    {issued : ℕ → List Pcb}

/-- The process at the head of the queue of the sub-device `i` has been given its status and is
ready. -/
def Answered (v v' : View) (hw : Hw) (t : Kernel) (i : ℕ) : Prop :=
  ∃ c, (v.queue (semAddr i)).head? = some c ∧ (t.pS c).a1 = deviceStatus hw i ∧ c ∈ v'.ready

theorem signalDevice_answers (h : Rep s.core v) (ha : a ≠ 0) (hlow : v.value a < 1) :
    Program.Triple (fun t => t = s) (signalDevice a u)
      (fun _ t => ∃ c l, v.queue a = c :: l ∧ t.pS = (s.face.answer c u).pS ∧
        Rep t.core (v.verhogen a 1) ∧ t.hw = s.hw)
      (fun _ _ => False) (fun _ => True) := by
  rintro s rfl
  have hvalue : s.ints a = v.value a := congrFun h.value a
  rw [signalDevice, Program.run_gets_bind, hvalue, if_pos hlow,
    Program.run_bind_ok (headBlocked_ok h a)]
  cases hq : v.queue a with
  | nil => trivial
  | cons c l =>
      simp only [List.head?_cons, Program.need_some, Program.run_pure_bind, setPs,
        Program.run_modify_bind]
      rw [semaphoreOperation_pos ha Int.one_pos]
      obtain ⟨m, q, hrun, hrep⟩ := verhogen_ok (a := a) (w := 1)
        (s := { s with pS := Function.update s.pS c { s.pS c with a1 := u } }) h
      rw [hrun]
      exact ⟨c, l, rfl, rfl, hrep, rfl⟩

structure Woken (s t : Kernel) (v v' : View) (i : ℕ) (u : Word) : Prop where
  rep : Rep t.core v'
  metered : ∃ issued, AllMetered True v' issued
  answer : ∃ c, (v.queue (semAddr i)).head? = some c ∧ (t.pS c).a1 = u ∧ c ∈ v'.ready
  ready : ∀ p ∈ v.ready, p ∈ v'.ready ∧ t.pS p = s.pS p
  queue : ∀ j < clockSem, j ≠ i → v'.queue (semAddr j) = v.queue (semAddr j)

theorem signalDevice_wakes (h : Rep s.core v) (hm : AllMetered True v issued) (hi : i < clockSem) :
    Program.Triple (fun t => t = s) (signalDevice (semAddr i) u)
      (fun _ t => t.hw = s.hw ∧ ∃ v', Woken s t v v' i u) (fun _ _ => False) (fun _ => True) := by
  have hvalue := (hm i hi).value
  have hlow : v.value (semAddr i) < 1 := by omega
  apply (signalDevice_answers h (semAddr_ne_zero i) hlow).conseq (fun _ ht => ht) _ fun _ _ hf => hf
  rintro _ t ⟨c, l, hq, hpS, hrep, hhw⟩
  have hmove : OrderlyMove (.signal (semAddr i)) v (v.verhogen (semAddr i) 1) :=
    ⟨h.orderly, .signal hlow (by rw [hq]; exact List.cons_ne_nil c l)⟩
  have hready : (v.verhogen (semAddr i) 1).ready = v.ready ++ [c] := by
    obtain ⟨d, hd, hready⟩ := ((hm i hi).signal hmove.1 hmove.2).2.2 trivial
    rw [hq] at hd
    rw [hready, (List.cons.inj hd).1]
  have hblocked : v.place c = .blocked (semAddr i) :=
    (h.orderly.mem_queue c (semAddr i)).mp (by rw [hq]; exact List.mem_cons_self)
  refine ⟨hhw, _, hrep, ⟨_, signals_metered (List.nodup_singleton i) hm (.single hmove)⟩,
    ⟨c, by rw [hq, List.head?_cons], ?_, by simp [hready]⟩, fun p hp => ?_, fun j hj hji => ?_⟩
  · rw [hpS, show (s.face.answer c u).pS c = { s.pS c with a1 := u } from Function.update_self ..]
  · have hpc : p ≠ c := by
      rintro rfl
      rw [(h.orderly.mem_ready p).mp hp] at hblocked
      cases hblocked
    rw [hpS, hready]
    exact ⟨List.mem_append_left _ hp, Function.update_of_ne hpc ..⟩
  · have hsame := semaphore_frame (b := semAddr j) hmove
      (fun he => hji (semAddr_injective (Option.some.inj he)).symm) (fun t ht => by cases ht)
    exact hsame.queue

/-- The devices of a line other than that of the terminals. -/
theorem devHandler_answers (h : Rep s.core v) (hm : AllMetered True v issued) (hlow : 3 ≤ il.toNat)
    (hhigh : il.toNat ≤ 6) (hd : (pendingDevice s.hw il).toNat < 8) :
    Program.Triple (fun t => t = s) (devHandler il)
      (fun _ t => ∃ v', Rep t.core v' ∧
        Answered v v' s.hw t (semIndex il 0 (pendingDevice s.hw il)))
      (fun _ _ => False) (fun _ => True) := by
  rintro s rfl
  obtain ⟨hreg, hsem⟩ := line_register hlow hhigh hd
  have hindex : semIndex il 0 (pendingDevice s.hw il) < maxDevices := by
    rw [hsem, maxDevices]
    omega
  have hstatus : deviceStatus s.hw (semIndex il 0 (pendingDevice s.hw il)) =
      (s.hw.devreg (regIndex il (pendingDevice s.hw il))).recvStatus := by
    have hplain : ¬ 32 ≤ regIndex il (pendingDevice s.hw il) := Nat.not_le.mpr hreg
    have hcommand : commandRegister (regIndex il (pendingDevice s.hw il)) =
        (regIndex il (pendingDevice s.hw il), false) := by
      rw [commandRegister, if_pos (hreg.trans (by decide)), decide_eq_false hplain]
    rw [hsem, deviceStatus, hcommand]
    rfl
  unfold devHandler
  rw [Program.run_gets_bind]
  refine devRegAddr_bind (P := fun u => u = s) (Or.inl (hreg.trans (by decide)))
    (deviceSemAt_bind (Or.inl hindex) ?_) s rfl
  rintro s rfl
  rw [Program.run_gets_bind]
  have hi : semIndex il 0 (pendingDevice s.hw il) < clockSem := by
    rw [hsem]
    exact hreg.trans (by decide)
  refine Program.Triple.bind (signalDevice_wakes h hm hi) (fun _ => ?_) _ rfl
  rintro t ⟨-, v', hwoken⟩
  refine ⟨v', hwoken.rep, ?_⟩
  rw [Answered, hstatus]
  exact hwoken.answer

/-- What is reported in one branch of `terminal_handler`: the sub-device `i`, if its operation is
`done`. -/
def reported (done : Bool) (i : ℕ) : List ℕ := if done then [i] else []

theorem terminalReceive_answers {dnum : Word} (h : Rep s.core v) (hm : AllMetered True v issued)
    (hd : dnum.toNat < 8) :
    Program.Triple (fun t => t = s) (terminalReceive (regIndex intTerminal dnum) dnum)
      (fun _ t => ∃ v', Rep t.core v' ∧ (∃ issued, AllMetered True v' issued) ∧
        v'.queue (semAddr (32 + dnum.toNat)) = v.queue (semAddr (32 + dnum.toNat)) ∧
        (t.hw.devreg (regIndex intTerminal dnum)).transmStatus =
          (s.hw.devreg (regIndex intTerminal dnum)).transmStatus ∧
        ∀ i ∈ reported (receptionDone (s.hw.devreg (regIndex intTerminal dnum))) (40 + dnum.toNat),
          Answered v v' s.hw t i)
      (fun _ _ => False) (fun _ => True) := by
  rintro s rfl
  obtain ⟨hreg, -, hsem⟩ := terminal_register hd
  unfold terminalReceive
  rw [Program.run_gets_bind]
  by_cases hdone : receptionDone (s.hw.devreg (regIndex intTerminal dnum))
  · have hcode : (s.hw.devreg (regIndex intTerminal dnum)).recvStatus &&& 0x000000FF =
        Platform.devTrcvSCharrecv := by simpa [receptionDone] using hdone
    have hindex : semIndex intTerminal devPerInt dnum < maxDevices := by
      rw [hsem]
      exact (Nat.add_lt_add_left hd 40).trans (by decide)
    rw [if_pos hcode, hdone]
    have hi : semIndex intTerminal devPerInt dnum < clockSem := by
      rw [hsem]
      exact Nat.add_lt_add_left hd 40
    refine deviceSemAt_bind (P := fun u => u = s) (Or.inl hindex)
      (Program.Triple.bind (signalDevice_wakes h hm hi) fun _ => ?_) s rfl
    rintro t ⟨hhw, v', hwoken⟩
    refine ⟨v', hwoken.rep, hwoken.metered, hwoken.queue _ ?_ ?_, ?_, fun i hmem => ?_⟩
    · exact (Nat.add_lt_add_left hd 32).trans (by decide)
    · rw [hsem]
      omega
    · simp only [hhw, Function.update_self]
    · obtain rfl := List.mem_singleton.mp hmem
      have hstatus : deviceStatus s.hw (40 + dnum.toNat) =
          (s.hw.devreg (regIndex intTerminal dnum)).recvStatus := by
        have hcommand : commandRegister (40 + dnum.toNat) = (32 + dnum.toNat, false) := by
          rw [commandRegister, if_neg (by omega)]
          congr 1
          omega
        rw [deviceStatus, hcommand, hreg]
        rfl
      rw [Answered, hstatus, ← hsem]
      exact hwoken.answer
  · have hcode : ¬ (s.hw.devreg (regIndex intTerminal dnum)).recvStatus &&& 0x000000FF =
        Platform.devTrcvSCharrecv := by simpa [receptionDone] using hdone
    rw [if_neg hcode, Bool.eq_false_iff.mpr hdone]
    exact ⟨v, h, ⟨issued, hm⟩, rfl, rfl, fun i hmem => absurd hmem List.not_mem_nil⟩

theorem terminalTransmit_answers {dnum : Word} (h : Rep s.core v) (hm : AllMetered True v issued)
    (hd : dnum.toNat < 8) :
    Program.Triple (fun t => t = s) (terminalTransmit (regIndex intTerminal dnum) dnum)
      (fun _ t => ∃ v', Rep t.core v' ∧ (∀ p ∈ v.ready, p ∈ v'.ready ∧ t.pS p = s.pS p) ∧
        ∀ i ∈ reported (transmissionDone (s.hw.devreg (regIndex intTerminal dnum))) (32 +
          dnum.toNat),
          Answered v v' s.hw t i)
      (fun _ _ => False) (fun _ => True) := by
  rintro s rfl
  obtain ⟨hreg, hsem, -⟩ := terminal_register hd
  unfold terminalTransmit
  rw [Program.run_gets_bind]
  by_cases hdone : transmissionDone (s.hw.devreg (regIndex intTerminal dnum))
  · have hcode : (s.hw.devreg (regIndex intTerminal dnum)).transmStatus &&& 0x000000FF =
        Platform.devTtrsSChartrsm := by simpa [transmissionDone] using hdone
    have hindex : semIndex intTerminal 0 dnum < maxDevices := by
      rw [hsem]
      exact (Nat.add_lt_add_left hd 32).trans (by decide)
    rw [if_pos hcode, hdone]
    have hi : semIndex intTerminal 0 dnum < clockSem := by
      rw [hsem]
      exact (Nat.add_lt_add_left hd 32).trans (by decide)
    refine deviceSemAt_bind (P := fun u => u = s) (Or.inl hindex)
      (Program.Triple.bind (signalDevice_wakes h hm hi) fun _ => ?_) s rfl
    rintro t ⟨-, v', hwoken⟩
    refine ⟨v', hwoken.rep, hwoken.ready, fun i hmem => ?_⟩
    obtain rfl := List.mem_singleton.mp hmem
    have hstatus : deviceStatus s.hw (32 + dnum.toNat) =
        (s.hw.devreg (regIndex intTerminal dnum)).transmStatus := by
      have hcommand : commandRegister (32 + dnum.toNat) = (32 + dnum.toNat, true) := by
        rw [commandRegister, if_pos (by omega), decide_eq_true (Nat.le_add_right _ _)]
      rw [deviceStatus, hcommand, hreg]
      rfl
    rw [Answered, hstatus, ← hsem]
    exact hwoken.answer
  · have hcode : ¬ (s.hw.devreg (regIndex intTerminal dnum)).transmStatus &&& 0x000000FF =
        Platform.devTtrsSChartrsm := by simpa [transmissionDone] using hdone
    rw [if_neg hcode, Bool.eq_false_iff.mpr hdone]
    exact ⟨v, h, fun p hp => ⟨hp, rfl⟩, fun i hmem => absurd hmem List.not_mem_nil⟩

/-- A terminal may report a reception and a transmission at once. -/
theorem terminalHandler_answers (h : Rep s.core v) (hm : AllMetered True v issued)
    (hd : (pendingDevice s.hw intTerminal).toNat < 8) :
    Program.Triple (fun t => t = s) terminalHandler
      (fun _ t => ∃ v', Rep t.core v' ∧ ∀ i ∈ lineCompletions s.hw intTerminal,
        Answered v v' s.hw t i)
      (fun _ _ => False) (fun _ => True) := by
  rintro s rfl
  obtain ⟨hreg, htransm, hrecv⟩ := terminal_register hd
  have hline : lineCompletions s.hw intTerminal =
      reported (receptionDone (s.hw.devreg (regIndex intTerminal (pendingDevice s.hw intTerminal))))
          (40 + (pendingDevice s.hw intTerminal).toNat) ++
        reported (transmissionDone
            (s.hw.devreg (regIndex intTerminal (pendingDevice s.hw intTerminal))))
          (32 + (pendingDevice s.hw intTerminal).toNat) := by
    rw [← hrecv, ← htransm]
    rfl
  unfold terminalHandler
  rw [Program.run_gets_bind, hline]
  refine devRegAddr_bind (P := fun u => u = s) (Or.inl ?_)
    (Program.Triple.bind (terminalReceive_answers h hm hd) fun _ => ?_) s rfl
  · change regIndex intTerminal (pendingDevice s.hw intTerminal) < 40
    rw [hreg]
    exact Nat.add_lt_add_left hd 32
  rintro t ⟨v₁, hrep₁, ⟨issued₁, hm₁⟩, hqueue, hstatus, hanswered⟩
  apply (terminalTransmit_answers hrep₁ hm₁ hd).conseq (fun _ hu => hu) _ (fun _ _ hf => hf) t rfl
  rintro _ u ⟨v₂, hrep₂, hready, hanswered₂⟩
  refine ⟨v₂, hrep₂, fun i hi => ?_⟩
  rcases List.mem_append.mp hi with hi | hi
  · obtain ⟨c, hc, ha1, hcr⟩ := hanswered i hi
    obtain ⟨hcr₂, hpS⟩ := hready c hcr
    exact ⟨c, hc, by rw [hpS, ha1], hcr₂⟩
  · have hdone :
        transmissionDone (t.hw.devreg (regIndex intTerminal (pendingDevice s.hw intTerminal))) =
        transmissionDone (s.hw.devreg (regIndex intTerminal (pendingDevice s.hw intTerminal))) := by
      rw [transmissionDone, hstatus]
      rfl
    obtain ⟨c, hc, ha1, hcr⟩ := hanswered₂ i (hdone ▸ hi)
    have hidx : i = 32 + (pendingDevice s.hw intTerminal).toNat := by
      unfold reported at hi
      split at hi
      · exact List.mem_singleton.mp hi
      · cases hi
    have hsame : deviceStatus t.hw i = deviceStatus s.hw i := by
      have hcommand : commandRegister i = (regIndex intTerminal (pendingDevice s.hw intTerminal),
          true) := by
        rw [hidx, commandRegister, if_pos (by omega), decide_eq_true (Nat.le_add_right _ _), hreg]
      rw [deviceStatus, deviceStatus, hcommand]
      exact hstatus
    refine ⟨c, ?_, ha1.trans hsame, hcr⟩
    rw [hidx, ← hqueue, ← hidx]
    exact hc

theorem serveLine_answers (h : Rep s.core v) (hm : AllMetered True v issued)
    (hreal : Genuine s.hw) :
    Program.Triple (fun t => t = s) (serveLine s.hw.cause)
      (fun _ t => ∃ v', Rep t.core v' ∧ ∀ i ∈ completions s.hw, Answered v v' s.hw t i)
      (fun _ _ => False) (fun _ => True) := by
  have hrun := serveLine_run (F := fun _ => True) h (fun _ _ =>
    ⟨fun _ => trivial, fun _ => Or.inr trivial, fun _ _ => Or.inr trivial, fun _ _ _ _ => trivial⟩)
  rintro s rfl
  rw [serveLine_eq] at hrun ⊢
  unfold completions
  cases hline : pendingLine s.hw.cause with
  | none => exact ⟨v, h, fun i hi => absurd hi List.not_mem_nil⟩
  | some il =>
      simp only [hline] at hrun ⊢
      by_cases htimer : il = intTimer
      · rw [if_pos htimer] at hrun ⊢
        apply hrun.conseq (fun _ hu => hu) _ (fun _ _ hf => hf) s rfl
        rintro _ t ⟨acts, v', -, -, hrep⟩
        have hnone : lineCompletions s.hw il = [] := if_pos htimer
        rw [hnone]
        exact ⟨v', hrep, fun i hi => absurd hi List.not_mem_nil⟩
      · have hd := hreal il hline htimer
        rw [if_neg htimer]
        by_cases hterm : il = intTerminal
        · subst hterm
          rw [if_pos rfl]
          exact terminalHandler_answers h hm hd s rfl
        · rw [if_neg hterm]
          obtain ⟨hlow, hhigh⟩ := (pendingLine_cases hline htimer).resolve_left hterm
          have hone : lineCompletions s.hw il = [semIndex il 0 (pendingDevice s.hw il)] := by
            rw [lineCompletions, if_neg htimer, if_neg hterm]
          apply (devHandler_answers h hm hlow hhigh hd).conseq (fun _ hu => hu) _
            (fun _ _ hf => hf) s rfl
          rintro _ t ⟨v', hrep, hanswered⟩
          refine ⟨v', hrep, fun i hi => ?_⟩
          rw [hone] at hi
          obtain rfl := List.mem_singleton.mp hi
          exact hanswered

/-- Every sub-device whose command an interrupt completes has a waiter, and the oldest one is woken
with the status. -/
theorem interruptHandler_answers {ctl : Ctl} (h : Rep s.core v) (hm : AllMetered True v issued)
    (hreal : Genuine s.hw) (hrun : interruptHandler.run s = .exit ctl t)
    (hi : i ∈ completions s.hw) :
    ∃ c, (v.queue (semAddr i)).head? = some c ∧ (t.pS c).a1 = deviceStatus s.hw i ∧
    c ∈ readyList t := by
  obtain ⟨u, hstart, hcore, hcause, hbitmap, hdevreg⟩ := interruptEnter_run s
  have hline : ∀ il, lineCompletions u.hw il = lineCompletions s.hw il := by
    intro il
    unfold lineCompletions pendingDevice
    rw [hbitmap, hdevreg]
  have hdone : completions u.hw = completions s.hw := by
    unfold completions
    simp only [hcause, hline]
  have hreal' : Genuine u.hw := by
    intro il hil
    rw [hcause] at hil
    rw [pendingDevice, hbitmap]
    exact hreal il hil
  have hserve := serveLine_answers (s := u) (h.congr hcore) hm hreal' u rfl
  rw [interruptHandler, interruptBody, Program.run_bind_bind, Program.run_bind_ok hstart,
    ← hcause] at hrun
  cases hbody : (serveLine u.hw.cause).run u with
  | ok r w =>
      rw [hbody] at hserve
      obtain ⟨v', hrep, hanswered⟩ := hserve
      obtain ⟨c, hc, ha1, hready⟩ := hanswered i (hdone ▸ hi)
      rw [Program.run_bind_bind, Program.run_bind_ok hbody, Program.run_bind_bind,
        Program.run_gets_bind] at hrun
      have hend : t.pS = w.pS ∧ t.core = w.core := by
        cases hcur : w.currentProcess with
        | none =>
            rw [hcur] at hrun
            cases hrun
            exact ⟨rfl, rfl⟩
        | some p =>
            rw [hcur] at hrun
            cases hrun
            exact ⟨rfl, rfl⟩
      refine ⟨c, hc, ?_, ?_⟩
      · rw [hend.1, ha1, deviceStatus, deviceStatus, hdevreg]
      · rw [(hrep.congr hend.2).readyList_eq]
        exact hready
  | exit ctl w =>
      rw [hbody] at hserve
      exact hserve.elim
  | fault e =>
      rw [Program.run_bind_bind, Program.run_bind_fault hbody] at hrun
      cases hrun

end Answers

/-! ### Runs -/

section Runs

variable [Platform] {B : Kernel → Prop} {s s' : Sys} {e : Event} {v : View} {i : ℕ} {hw : Hw}

/-- An `IODEVOP` names a device and finds its semaphore at 0; interrupts on the lines of devices
come from devices. -/
def Serial (s : Sys) : Event → Prop
  | .syscall hw => ∀ i ∈ ioRequest (hw.oldArea .sysbk), s.kernel.ints (semAddr i) = 0 ∧
      Addressed (hw.oldArea .sysbk).a3 (hw.oldArea .sysbk).a4
  | .interrupt hw => Genuine hw
  | _ => True

instance : Decidable (Serial s e) :=
  Event.casesOn (motive := fun e => Decidable (Serial s e)) e
    (inferInstanceAs (Decidable True))
    (fun hw => inferInstanceAs (Decidable (∀ i ∈ ioRequest (hw.oldArea .sysbk),
      s.kernel.ints (semAddr i) = 0 ∧ Addressed (hw.oldArea .sysbk).a3 (hw.oldArea .sysbk).a4)))
    (fun _ => inferInstanceAs (Decidable True))
    (fun _ => inferInstanceAs (Decidable True))
    (fun hw => inferInstanceAs (Decidable (Genuine hw)))

/-- The callers of `IODEVOP` take turns, and no process is killed that waits for a sub-device or has
a ready descendant. -/
structure TakesTurns (s : Sys) (e : Event) : Prop where
  ready : SparesReady s e
  user : UserSem e
  waiters : SparesWaiters s e
  serial : Serial s e

instance : Decidable (TakesTurns s e) :=
  decidable_of_iff (SparesReady s e ∧ UserSem e ∧ SparesWaiters s e ∧ Serial s e)
    ⟨fun h => ⟨h.1, h.2.1, h.2.2.1, h.2.2.2⟩, fun h => ⟨h.ready, h.user, h.waiters, h.serial⟩⟩

theorem TakesTurns.sparesDevices (h : TakesTurns s e) : SparesDevices s e where
  ready := h.ready
  user := h.user
  fits := by
    have hserial := h.serial
    cases e with
    | syscall hw =>
        intro i hi
        rw [(hserial i hi).1]
        decide
    | dispatch => trivial
    | pgmtrap hw => trivial
    | tlb hw => trivial
    | interrupt hw => trivial
  survivor t ht i hi hq := by
    obtain ⟨p, hp⟩ := List.exists_mem_of_ne_nil _ hq
    exact ⟨p, hp, h.waiters t ht i hi p hp⟩

/-- No sub-device has two commands that are not completed. -/
theorem outstanding_le_one (h : Reach (nucleus B) TakesTurns s) :
    ∀ i < clockSem, (s.issued i).length ≤ 1 := by
  induction h with
  | init h =>
      obtain ⟨k, -, hk, hstart⟩ := h
      obtain ⟨-, -, hissued⟩ := main_run hk hstart
      intro i hi
      rw [hissued]
      exact Nat.zero_le 1
  | @step s s' e h hc hs ih =>
      obtain ⟨v, hrep, hm⟩ :=
        nucleus_metered (B := B) True (fun _ _ hc => TakesTurns.sparesDevices hc)
        (fun _ _ _ hc => hc.waiters) h
      obtain ⟨-, -, hissued⟩ := Sys.step_eq hs
      rw [hissued]
      intro i hi
      have hle := ih i hi
      cases e with
      | dispatch => exact hle
      | pgmtrap hw => exact hle
      | tlb hw => exact hle
      | interrupt hw =>
          rw [Event.issue]
          dsimp only
          split
          · rw [List.length_tail]
            omega
          · exact hle
      | syscall hw =>
          cases hcur : s.kernel.currentProcess with
          | none =>
              rw [Event.issue, hcur]
              exact hle
          | some c =>
              cases hj : ioRequest (hw.oldArea .sysbk) with
              | none =>
                  rw [Event.issue, hcur, hj]
                  exact hle
              | some j =>
                  rw [Event.issue, hcur, hj]
                  dsimp only
                  by_cases hij : i = j
                  · subst hij
                    have hvalue := (hm i hi).value
                    rw [← show s.kernel.ints = v.value from hrep.value,
                      (hc.serial i hj).1] at hvalue
                    rw [Function.update_self, List.length_append, List.length_singleton]
                    omega
                  · rw [Function.update_of_ne hij]
                    exact hle

/-! ### Commands that are given -/

def Event.completed : Event → List ℕ
  | .interrupt hw => completions hw
  | _ => []

/-- No command is overwritten that is not completed. -/
def KeepsCommands (s : Sys) (e : Event) (s' : Sys) : Prop :=
  ∀ i, s.issued i ≠ [] → i ∉ e.completed →
    deviceCommand s'.kernel.hw i = deviceCommand (s.kernel.enter e).hw i

/-- An entry that is no `IODEVOP` writes acknowledgements only. -/
theorem Sys.step_commands (h : Rep s.kernel.core v) (hreal : ∀ hw, e = .interrupt hw → Genuine hw)
    (hio : ∀ hw, e = .syscall hw → ioRequest (hw.oldArea .sysbk) = none)
    (hstep : s.step e = some s') :
    SameCommands e.completed (s.kernel.enter e).hw s'.kernel.hw := by
  have hends := Sys.step_ends h hstep
  cases e with
  | dispatch => exact .of_devreg (Dispatches.devreg hends)
  | syscall hw =>
      obtain ⟨c, -, hcalls⟩ := hends
      exact .of_devreg (hcalls.devreg (hio hw rfl))
  | pgmtrap hw =>
      obtain ⟨c, -, htraps⟩ := hends
      exact .of_devreg htraps.devreg
  | tlb hw =>
      obtain ⟨c, -, htraps⟩ := hends
      exact .of_devreg htraps.devreg
  | interrupt hw =>
      exact interruptHandler_commands (s := s.kernel.enter (.interrupt hw)) h (hreal hw rfl)
        (Sys.step_eq hstep).2.1

/-- An `IODEVOP` writes its command into the register of its sub-device, and into no other one. -/
theorem Sys.step_gives (h : Rep s.kernel.core v) (hs : SparesReady s (.syscall hw))
    (hi : ioRequest (hw.oldArea .sysbk) = some i)
    (hnamed : Addressed (hw.oldArea .sysbk).a3 (hw.oldArea .sysbk).a4)
    (hstep : s.step (.syscall hw) = some s') (j : ℕ) :
    deviceCommand s'.kernel.hw j = if j = i then (hw.oldArea .sysbk).a2
    else deviceCommand hw j := by
  obtain ⟨c, hc, hcalls⟩ := Sys.step_ends h hstep
  have hpanic := (ioRequest_goes h hs hc hi hstep).2
  unfold ioRequest at hi
  split at hi
  · next hio =>
    obtain ⟨hserv, huser, hten⟩ := hio
    have hreg := hnamed.register.2
    rw [Option.some.inj hi] at hreg
    have hhw : s'.kernel.hw = s'.kernel.face.hw := rfl
    rw [hhw]
    generalize s'.ctl = ctl at hcalls hpanic
    generalize s'.kernel.face = g at hcalls
    cases hcalls with
    | panic hserv' => rw [hserv] at hserv'; cases hserv'
    | served hserv' huser' hserves =>
        rcases hserves.command hten with hp | ⟨-, u, m, hm, rfl⟩
        · cases hp
        · apply deviceCommand_write hreg.symm
          rw [finish_devreg]
          have hdevreg : m.hw.devreg = hw.devreg := hm
          rw [← hdevreg]
          exact command_devreg m _ _ _
    | ended hserv' huser' hserves =>
        rcases hserves.command hten with hp | ⟨hnone, -⟩
        · exact absurd (Option.some.inj hp) hpanic
        · cases hnone
    | reflect hserv' huser' => exact absurd huser' huser
    | die hserv' => rw [hserv] at hserv'; cases hserv'
    | pass hserv' => rw [hserv] at hserv'; cases hserv'
  · cases hi

/-- With the callers taking turns, an `IODEVOP` finds no command to its sub-device. -/
theorem TakesTurns.idle (hm : AllMetered True v s.issued) (hrep : Rep s.kernel.core v)
    (hc : TakesTurns s (.syscall hw)) (hi : ioRequest (hw.oldArea .sysbk) = some i) :
    i < clockSem ∧ s.issued i = [] := by
  obtain ⟨hzero, hnamed⟩ := hc.serial i hi
  have hlt : i < clockSem := by
    unfold ioRequest at hi
    split at hi
    · exact Option.some.inj hi ▸ hnamed.register.1
    · cases hi
  refine ⟨hlt, ?_⟩
  have hvalue := (hm i hlt).value
  rw [← show s.kernel.ints = v.value from hrep.value, hzero] at hvalue
  exact List.length_eq_zero_iff.mp (by omega)

/-- It can be served if the compiler reads `current_process` before the call. -/
theorem ioRequest_step (h : Rep s.kernel.core v)
    (henabled : (Event.syscall hw).enabled s.ctl = true)
    (hs : SparesReady s (.syscall hw)) (hc : s.kernel.currentProcess = some c)
    (hi : ioRequest (hw.oldArea .sysbk) = some i)
    (hnamed : Addressed (hw.oldArea .sysbk).a3 (hw.oldArea .sysbk).a4)
    (hleft : Platform.leftFirst = true) : ∃ s', s.step (.syscall hw) = some s' := by
  apply Sys.step_exists h henabled
  have hfate := ioRequest_fate h hs hc hi
  have hindex : semIndex (hw.oldArea .sysbk).a3
      (termRead (hw.oldArea .sysbk).a3 (hw.oldArea .sysbk).a4) (hw.oldArea .sysbk).a4 <
      maxDevices :=
    hnamed.register.1.trans (by decide)
  rw [ioFate, if_pos ⟨hindex, hnamed.devreg_lt, Or.inl hleft⟩] at hfate
  rw [Event.program, hfate]
  exact Fate.noConfusion

/-- An interrupt that reports commands that have been given ends. -/
theorem completion_step (h : Rep s.kernel.core v) (hm : AllMetered True v s.issued)
    (henabled : (Event.interrupt hw).enabled s.ctl = true) (hreal : Genuine hw)
    (hsol : Solicited s hw)
    (hi : i ∈ completions hw) : ∃ s', s.step (.interrupt hw) = some s' := by
  have hserved : ∀ il, pendingLine hw.cause = some il → ServedLine (fun _ => False) v hw il := by
    intro il hil
    have hmem : ∀ j ∈ lineCompletions hw il, j ∈ completions hw := by
      intro j hj
      rwa [completions, hil]
    have hdevice : il ≠ intTimer := by
      rintro rfl
      rw [completions, hil] at hi
      cases hi
    refine ⟨hdevice, fun _ => Or.inl ?_, fun j hj => Or.inl ?_, fun j hj _ hq => ?_⟩
    · have hd := hreal il hil hdevice
      rcases pendingLine_cases hil hdevice with rfl | ⟨hlow, hhigh⟩
      · rw [(terminal_register hd).1]
        exact Nat.add_lt_add_left hd 32
      · exact (line_register hlow hhigh hd).1.trans (by decide)
    · exact (hsol j (hmem j hj)).1.trans (by decide)
    · obtain ⟨hlt, hissued⟩ := hsol j (hmem j hj)
      exact (hm j hlt).waiter hissued hq
  have hrun := interruptHandler_run (s := s.kernel.enter (.interrupt hw)) h hserved
  apply Sys.step_exists h henabled
  intro hcrash
  unfold fate at hcrash
  cases hend : interruptHandler.run (s.kernel.enter (.interrupt hw)) with
  | ok r t => exact hrun.of_run rfl hend
  | exit ctl t =>
      rw [Event.program, hend] at hcrash
      cases ctl <;> cases hcrash
  | fault e => exact hrun.not_fault rfl hend

/-- In every run in which the callers take turns: a command stays in its register until the
interrupt that reports its completion; an `IODEVOP` finds no such command in the register of its
sub-device and writes that register only; the interrupt wakes the process that gave the command,
with its status. -/
theorem commands_exclusive (h : Reach (nucleus B) TakesTurns s) :
    (∀ e s', TakesTurns s e → s.step e = some s' → KeepsCommands s e s') ∧
    (∀ hw i c, ioRequest (hw.oldArea .sysbk) = some i → TakesTurns s (.syscall hw) →
      (Event.syscall hw).enabled s.ctl = true → s.kernel.currentProcess = some c →
      (Platform.leftFirst = true → ∃ s', s.step (.syscall hw) = some s') ∧
      ∀ s', s.step (.syscall hw) = some s' → s.issued i = [] ∧ s'.issued i = [c] ∧
        ∀ j, deviceCommand s'.kernel.hw j =
          if j = i then (hw.oldArea .sysbk).a2 else deviceCommand hw j) ∧
    ∀ hw i, TakesTurns s (.interrupt hw) → (Event.interrupt hw).enabled s.ctl = true →
      Solicited s hw → i ∈ completions hw →
      ∃ s' c, s.step (.interrupt hw) = some s' ∧ s.issued i = [c] ∧ c ∈ readyList s'.kernel ∧
        (s'.kernel.pS c).a1 = deviceStatus hw i := by
  obtain ⟨v, hrep, hm⟩ := nucleus_metered (B := B) True (fun _ _ hc => TakesTurns.sparesDevices hc)
    (fun _ _ _ hc => hc.waiters) h
  refine ⟨?_, ?_, ?_⟩
  · intro e s' hc hstep i hissued hdone
    by_cases hio : ∃ hw j, e = .syscall hw ∧ ioRequest (hw.oldArea .sysbk) = some j
    · obtain ⟨hw, j, rfl, hj⟩ := hio
      have hne : i ≠ j := fun he => hissued (he ▸ (hc.idle hm hrep hj).2)
      rw [Sys.step_gives hrep hc.ready hj (hc.serial j hj).2 hstep i, if_neg hne]
      rfl
    · apply Sys.step_commands hrep _ _ hstep i hdone
      · rintro hw rfl
        exact hc.serial
      · rintro hw rfl
        cases hj : ioRequest (hw.oldArea .sysbk) with
        | none => rfl
        | some j => exact absurd ⟨hw, j, rfl, hj⟩ hio
  · intro hw i c hi hc henabled hcur
    have hnamed := (hc.serial i hi).2
    refine ⟨ioRequest_step hrep henabled hc.ready hcur hi hnamed, fun s' hstep => ?_⟩
    have hidle := (hc.idle hm hrep hi).2
    refine ⟨hidle, ?_, Sys.step_gives hrep hc.ready hi hnamed hstep⟩
    rw [(Sys.step_eq hstep).2.2, Event.issue, hcur, hi]
    dsimp only
    rw [Function.update_self, hidle, List.nil_append]
  · intro hw i hc henabled hsol hi
    obtain ⟨s', hstep⟩ := completion_step hrep hm henabled hc.serial hsol hi
    obtain ⟨-, hrun, -⟩ := Sys.step_eq hstep
    obtain ⟨c, hhead, ha1, hready⟩ := interruptHandler_answers (s := s.kernel.enter (.interrupt hw))
      hrep hm hc.serial hrun hi
    have hlt := completions_lt_clock hc.serial hi
    have hle := outstanding_le_one h i hlt
    rw [(hm i hlt).queue trivial] at hhead
    obtain ⟨l, hl⟩ := List.head?_eq_some_iff.mp hhead
    rw [hl, List.length_cons] at hle
    refine ⟨s', c, hstep, ?_, hready, ha1⟩
    rw [hl, List.length_eq_zero_iff.mp (Nat.le_zero.mp (Nat.le_of_succ_le_succ hle))]

end Runs

/-! ### Runs on the board -/

section Board

attribute [local instance] uarm

/-- Two processes give the disk commands one after the other: 1 and then 2. -/
theorem commands_overlap : ¬ ∀ s e s', Reach (nucleus fun _ => True) SparesDevices s →
    SparesDevices s e → s.step e = some s' → KeepsCommands s e s' := by
  intro hall
  let hw : Hw := { Hw.rest with
    devreg := fun _ => ⟨0, 1, 0, 0⟩
    oldArea :=
      fun _ => { State.zero with a1 := 10, a2 := 2, a3 := 3, cpsr := 0x1F, cp15Cause := 8 } }
  obtain ⟨s, hs, hQ⟩ := nucleus_run (B := fun _ => True) (C := SparesDevices) trivial atBoot_zero
    [.dispatch, call 1, .dispatch, completion intTimer 0, .dispatch, call 10 1 intDisk 0, .dispatch]
    (fun s => decide (SparesDevices s (.syscall hw) ∧ s.issued 0 = [1]) &&
      (s.step (.syscall hw)).any fun s' => decide (deviceCommand s'.kernel.hw 0 = 2))
        (by decide +kernel)
  obtain ⟨hbefore, hafter⟩ := Bool.and_eq_true_iff.mp hQ
  obtain ⟨hspares, hissued⟩ := of_decide_eq_true hbefore
  obtain ⟨s', hstep, hcommand⟩ := (Option.any_eq_true _ _).mp hafter
  have hsame := hall s _ s' hs hspares hstep 0 (by rw [hissued]; exact List.cons_ne_nil _ _)
    List.not_mem_nil
  have hone : deviceCommand (s.kernel.enter (.syscall hw)).hw 0 = 1 := rfl
  rw [of_decide_eq_true hcommand, hone] at hsame
  cases hsame

/-- A process gives the disk the command 7, waits for it and is woken with the status. -/
theorem commands_exclusive_disk : ∃ s s' u u' : Sys,
    deviceCommand s'.kernel.hw 0 = 7 ∧ s'.issued 0 = [0] ∧
    KeepsCommands s (call 10 7 intDisk 0) s' ∧
      u.issued 0 = [0] ∧ u.step (completion intDisk 0) = some u' ∧ 0 ∈ readyList u'.kernel ∧
      (u'.kernel.pS 0).a1 = 0 := by
  obtain ⟨s, hs, hQ⟩ := nucleus_run (B := fun _ => True) (C := TakesTurns) trivial atBoot_zero
    [.dispatch]
    (fun s => TakesTurns s (call 10 7 intDisk 0) ∧ (call 10 7 intDisk 0).enabled s.ctl = true ∧
      s.kernel.currentProcess = some 0) (by decide +kernel)
  obtain ⟨hturn, henabled, hcur⟩ := of_decide_eq_true hQ
  obtain ⟨hexists, hgives⟩ := (commands_exclusive hs).2.1 _ 0 0 (by decide) hturn henabled hcur
  obtain ⟨s', hstep⟩ := hexists rfl
  obtain ⟨-, hissued, hcommand⟩ := hgives s' hstep
  obtain ⟨u, hu, hQ'⟩ := nucleus_run (B := fun _ => True) (C := TakesTurns) trivial atBoot_zero
    [.dispatch, call 10 7 intDisk 0, .dispatch]
    (fun s => TakesTurns s (completion intDisk 0) ∧ (completion intDisk 0).enabled s.ctl = true ∧
      s.issued 0 = [0]) (by decide +kernel)
  obtain ⟨hturn', henabled', hissued'⟩ := of_decide_eq_true hQ'
  have hdone : ∀ i ∈ completions { Hw.rest with
      cause := 1 <<< (24 + intDisk.toNat), bitmap := fun _ => 1 <<< (0 : Word).toNat,
      devreg := fun _ => ⟨0, 0, 5, 0⟩ }, i = 0 := by decide
  have hsol : Solicited u { Hw.rest with
      cause := 1 <<< (24 + intDisk.toNat), bitmap := fun _ => 1 <<< (0 : Word).toNat,
      devreg := fun _ => ⟨0, 0, 5, 0⟩ } := by
    intro i hi
    rw [hdone i hi, hissued']
    exact ⟨by decide, List.cons_ne_nil _ _⟩
  obtain ⟨u', c, hstep', hc, hready, ha1⟩ :=
    (commands_exclusive hu).2.2 _ 0 hturn' henabled' hsol (by decide)
  obtain rfl : c = 0 := by
    rw [hissued'] at hc
    exact (List.cons.inj hc).1.symm
  exact ⟨s, s', u, u', hcommand 0, hissued, (commands_exclusive hs).1 _ s' hturn hstep,
    hissued', hstep', hready, ha1⟩

end Board

end JaeOS
