import JaeOS.Outcomes

/-!
# The registers of the devices

Where the commands of the sub-devices go, and which entries into the nucleus write one: an `IODEVOP`
to its own sub-device, and an interrupt, as an acknowledgement, to those whose operations it
reports.
-/

open LinkRing LinkForest Transition

namespace JaeOS

/-- The register block of the sub-device `i`, and whether its command goes to the transmitter. -/
def commandRegister (i : ℕ) : ℕ × Bool := if i < 40 then (i, decide (32 ≤ i)) else (i - 8, false)

theorem commandRegister_injective : Function.Injective commandRegister := by
  intro i j hij
  unfold commandRegister at hij
  split at hij <;> split at hij <;>
    simp only [Prod.mk.injEq, decide_eq_decide, decide_eq_false_iff_not,
      eq_comm (a := false)] at hij <;>
    omega

def deviceStatus (hw : Hw) (i : ℕ) : Word :=
  if (commandRegister i).2 then (hw.devreg (commandRegister i).1).transmStatus
  else (hw.devreg (commandRegister i).1).recvStatus

def DevReg.command (r : DevReg) (transm : Bool) : Word :=
  if transm then r.transmCommand else r.recvCommand

def DevReg.withCommand (r : DevReg) (transm : Bool) (cmd : Word) : DevReg :=
  if transm then { r with transmCommand := cmd } else { r with recvCommand := cmd }

def deviceCommand (hw : Hw) (i : ℕ) : Word :=
  (hw.devreg (commandRegister i).1).command (commandRegister i).2

section Write

variable {hw hw' hw'' : Hw} {i j n : ℕ} {cmd : Word} {transm transm' : Bool} {l l' : List ℕ}

@[simp] theorem DevReg.withCommand_command (r : DevReg) :
    (r.withCommand transm cmd).command transm = cmd := by
  cases transm <;> rfl

theorem DevReg.withCommand_other (r : DevReg) (h : transm' ≠ transm) :
    (r.withCommand transm cmd).command transm' = r.command transm' := by
  cases transm <;> cases transm' <;> first | rfl | exact absurd rfl h

theorem deviceCommand_congr (h : hw'.devreg = hw.devreg) :
    deviceCommand hw' j = deviceCommand hw j := by
  rw [deviceCommand, deviceCommand, h]

/-- A command to one sub-device is none to another one. -/
theorem deviceCommand_write (hi : commandRegister i = (n, transm))
    (h : hw'.devreg = Function.update hw.devreg n ((hw.devreg n).withCommand transm cmd)) :
    deviceCommand hw' j = if j = i then cmd else deviceCommand hw j := by
  rw [deviceCommand, deviceCommand, h]
  by_cases hj : j = i
  · rw [if_pos hj, hj, hi, Function.update_self, DevReg.withCommand_command]
  · rw [if_neg hj]
    by_cases hn : (commandRegister j).1 = n
    · have htransm : (commandRegister j).2 ≠ transm := fun ht =>
        hj (commandRegister_injective ((Prod.ext hn ht).trans hi.symm))
      rw [hn, Function.update_self, DevReg.withCommand_other _ htransm]
    · rw [Function.update_of_ne hn]

def SameCommands (l : List ℕ) (hw hw' : Hw) : Prop :=
  ∀ j ∉ l, deviceCommand hw' j = deviceCommand hw j

theorem SameCommands.of_devreg (h : hw'.devreg = hw.devreg) : SameCommands l hw hw' :=
  fun _ _ => deviceCommand_congr h

theorem SameCommands.write (hi : commandRegister i = (n, transm))
    (h : hw'.devreg = Function.update hw.devreg n ((hw.devreg n).withCommand transm cmd)) :
    SameCommands [i] hw hw' := by
  intro j hj
  rw [deviceCommand_write hi h, if_neg fun he => hj (List.mem_singleton.mpr he)]

theorem SameCommands.append (h : SameCommands l hw hw') (h' : SameCommands l' hw' hw'') :
    SameCommands (l ++ l') hw hw'' := by
  intro j hj
  rw [List.mem_append, not_or] at hj
  exact (h' j hj.2).trans (h j hj.1)

end Write

/-- The arguments of an `IODEVOP` name a device of one of the lines 3 to 7; bit 31 stands for the
receiver of a terminal. -/
def Addressed (intlNo dnum : Word) : Prop :=
  3 ≤ intlNo.toNat ∧ intlNo.toNat ≤ 7 ∧
    (dnum.toNat < 8 ∨ intlNo = intTerminal ∧ 2 ^ 31 ≤ dnum.toNat ∧ dnum.toNat < 2 ^ 31 + 8)

instance {intlNo dnum : Word} : Decidable (Addressed intlNo dnum) :=
  inferInstanceAs (Decidable (_ ∧ _ ∧ _))

/-- The command of an `IODEVOP` goes to the register of the sub-device on whose semaphore it
waits. -/
theorem Addressed.register {intlNo dnum : Word} (h : Addressed intlNo dnum) :
    semIndex intlNo (termRead intlNo dnum) dnum < clockSem ∧
      (regIndex intlNo dnum, transmits intlNo dnum) =
        commandRegister (semIndex intlNo (termRead intlNo dnum) dnum) := by
  obtain ⟨hlow, hhigh, hd⟩ := h
  have hlines : ∀ line : Fin 5, ∀ d : Fin 8,
      semIndex (.ofNat 32 (3 + line)) (termRead (.ofNat 32 (3 + line)) (.ofNat 32 d))
        (.ofNat 32 d) <
          clockSem ∧
        (regIndex (.ofNat 32 (3 + line)) (.ofNat 32 d), transmits (.ofNat 32 (3 + line))
          (.ofNat 32 d)) =
          commandRegister (semIndex (.ofNat 32 (3 + line))
            (termRead (.ofNat 32 (3 + line)) (.ofNat 32 d)) (.ofNat 32 d)) := by
    decide +kernel
  have hreceivers : ∀ d : Fin 8,
      semIndex intTerminal (termRead intTerminal (.ofNat 32 (2 ^ 31 + d)))
        (.ofNat 32 (2 ^ 31 + d)) <
          clockSem ∧
        (regIndex intTerminal (.ofNat 32 (2 ^ 31 + d)),
          transmits intTerminal (.ofNat 32 (2 ^ 31 + d))) =
          commandRegister (semIndex intTerminal
            (termRead intTerminal (.ofNat 32 (2 ^ 31 + d))) (.ofNat 32 (2 ^ 31 + d))) := by
    decide +kernel
  rcases hd with hd | ⟨rfl, hd₁, hd₂⟩
  · have hline := hlines ⟨intlNo.toNat - 3, by omega⟩ ⟨dnum.toNat, hd⟩
    have hl : BitVec.ofNat 32 (3 + (intlNo.toNat - 3)) = intlNo := by
      rw [Nat.add_sub_cancel' hlow, BitVec.ofNat_toNat, BitVec.setWidth_eq]
    have hdn : BitVec.ofNat 32 dnum.toNat = dnum := by rw [BitVec.ofNat_toNat, BitVec.setWidth_eq]
    simpa only [hl, hdn] using hline
  · have hline := hreceivers ⟨dnum.toNat - 2 ^ 31, by omega⟩
    have hdn : BitVec.ofNat 32 (2 ^ 31 + (dnum.toNat - 2 ^ 31)) = dnum := by
      rw [Nat.add_sub_cancel' hd₁, BitVec.ofNat_toNat, BitVec.setWidth_eq]
    simpa only [hdn] using hline

theorem Addressed.devreg_lt {intlNo dnum : Word} (h : Addressed intlNo dnum) :
    regIndex intlNo dnum < 40 := by
  obtain ⟨hlt, hreg⟩ := h.register
  have hindex : regIndex intlNo dnum =
      (commandRegister (semIndex intlNo (termRead intlNo dnum) dnum)).1 := congrArg Prod.fst hreg
  rw [hindex, commandRegister]
  rw [clockSem] at hlt
  split <;> dsimp only <;> omega

def Genuine [Platform] (hw : Hw) : Prop :=
  ∀ il ∈ pendingLine hw.cause, il ≠ intTimer → (pendingDevice hw il).toNat < 8

instance [Platform] {hw : Hw} : Decidable (Genuine hw) :=
  Option.decidableForallMem (pendingLine hw.cause)

section Lines

variable [Platform] {hw : Hw} {il : Word}

/-- The line of devices that is served is one of 3 to 7. -/
theorem pendingLine_cases {cause : Word} (h : pendingLine cause = some il) (hil : il ≠ intTimer) :
    il = intTerminal ∨ 3 ≤ il.toNat ∧ il.toNat ≤ 6 := by
  have hmem := List.mem_of_find?_eq_some h
  simp only [List.mem_cons, List.not_mem_nil, or_false] at hmem
  rcases hmem with rfl | rfl | rfl | rfl | rfl | rfl
  · exact absurd rfl hil
  · exact Or.inr (by decide)
  · exact Or.inr (by decide)
  · exact Or.inr (by decide)
  · exact Or.inr (by decide)
  · exact Or.inl rfl

omit [Platform] in
theorem line_register {dnum : Word} (hlow : 3 ≤ il.toNat) (hhigh : il.toNat ≤ 6)
    (hd : dnum.toNat < 8) :
    regIndex il dnum < 32 ∧ semIndex il 0 dnum = regIndex il dnum := by
  have hindex : (extIlIndex il * devPerInt).toNat = 8 * (il.toNat - 3) := by
    have h3 : (3 : Word).toNat = 3 := rfl
    have h8 : (8 : Word).toNat = 8 := rfl
    rw [extIlIndex, devPerInt, BitVec.toNat_mul, BitVec.toNat_sub, h3, h8]
    omega
  have h0 : (0 : Word).toNat = 0 := rfl
  simp only [semIndex, regIndex, BitVec.toNat_add, hindex, h0]
  omega

omit [Platform] in
theorem terminal_register {dnum : Word} (hd : dnum.toNat < 8) :
    regIndex intTerminal dnum = 32 + dnum.toNat ∧ semIndex intTerminal 0 dnum = 32 + dnum.toNat ∧
      semIndex intTerminal devPerInt dnum = 40 + dnum.toNat := by
  have hindex : (extIlIndex intTerminal * devPerInt).toNat = 32 := rfl
  have h0 : (0 : Word).toNat = 0 := rfl
  have h8 : (8 : Word).toNat = 8 := rfl
  simp only [semIndex, regIndex, BitVec.toNat_add, hindex, h0, devPerInt, h8]
  omega

theorem completions_lt_clock {i : ℕ} (hreal : Genuine hw) (hi : i ∈ completions hw) :
    i < clockSem := by
  unfold completions at hi
  cases hline : pendingLine hw.cause with
  | none =>
      rw [hline] at hi
      cases hi
  | some il =>
      rw [hline] at hi
      dsimp only at hi
      unfold lineCompletions at hi
      by_cases htimer : il = intTimer
      · rw [if_pos htimer] at hi
        cases hi
      · have hd := hreal il hline htimer
        rw [if_neg htimer] at hi
        by_cases hterm : il = intTerminal
        · subst hterm
          obtain ⟨-, htransm, hrecv⟩ := terminal_register hd
          rw [if_pos rfl] at hi
          dsimp only at hi
          have hcases : i = 40 + (pendingDevice hw intTerminal).toNat ∨
              i = 32 + (pendingDevice hw intTerminal).toNat := by
            rw [← hrecv, ← htransm]
            rcases List.mem_append.mp hi with hi | hi
            · split at hi
              · exact Or.inl (List.mem_singleton.mp hi)
              · cases hi
            · split at hi
              · exact Or.inr (List.mem_singleton.mp hi)
              · cases hi
          rw [clockSem]
          omega
        · obtain ⟨hlow, hhigh⟩ := (pendingLine_cases hline htimer).resolve_left hterm
          obtain ⟨hreg, hsem⟩ := line_register hlow hhigh hd
          rw [if_neg hterm] at hi
          rw [List.mem_singleton.mp hi, hsem]
          exact hreg.trans (by decide)

end Lines

/-! ### Interrupts -/

section Interrupts

variable [Platform] {s t : Kernel} {a : ℕ} {u il dnum : Word} {ctl : Ctl}

theorem semaphoreOperation_one_face : Keeps Kernel.face (semaphoreOperation a 1) := by
  intro f s hs
  by_cases ha : a = 0
  · rw [ha, semaphoreOperation_null]
    exact hs
  · rw [semaphoreOperation_pos ha Int.one_pos]
    exact verhogen_calm.face f s hs

theorem tickLoop_face (n : ℕ) : Keeps Kernel.face (tickLoop n) := by
  induction n with
  | zero => exact keeps_fail _
  | succ n ih =>
      exact (keeps_gets _).bind fun _ =>
        Keeps.ite (semaphoreOperation_one_face.bind fun _ => ih) (keeps_pure ())

theorem timerHandler_devreg : Keeps (fun k => k.hw.devreg) timerHandler := by
  have htimer : Keeps (fun k => k.hw.devreg) (setTIMER schedBogusSlice) := keeps_modify fun _ => rfl
  have hreset : Keeps (fun k => k.hw.devreg) (setFlag .reset) := keeps_modify fun _ => rfl
  apply (keeps_gets _).bind
  intro armed
  apply Keeps.ite _ htimer
  exact (keeps_gets _).bind fun _ => ((tickLoop_face _).weaken fun f => f.hw.devreg).bind fun _ =>
    hreset.bind fun _ => htimer

/-- A signal writes the status into the state of the process that it wakes. -/
theorem signalDevice_devreg : Keeps (fun k => k.hw.devreg) (signalDevice a u) := by
  apply (keeps_gets _).bind
  intro semVal
  apply Keeps.ite _ (keeps_pure ())
  apply ((onLinks_face _).weaken fun f => f.hw.devreg).bind
  intro o
  apply (keeps_need _ _).bind
  intro tmp
  exact Keeps.bind (keeps_modify fun _ => rfl) fun _ =>
    semaphoreOperation_one_face.weaken fun f => f.hw.devreg

/-- A signal, and the acknowledgement of the operation of the sub-device `i`. -/
theorem signalDevice_commands {i n : ℕ} {transm : Bool} {ack : DevReg → DevReg}
    (hi : commandRegister i = (n, transm))
    (hack : ∀ r, ack r = r.withCommand transm Platform.devCAck) :
    Program.Triple (fun t => t = s) (signalDevice a u >>= fun _ => setDevreg n ack)
      (fun _ t => SameCommands [i] s.hw t.hw ∧
        ∀ m, (t.hw.devreg m).transmStatus = (s.hw.devreg m).transmStatus)
      (fun _ _ => True) (fun _ => True) := by
  have hsignal : Program.Triple (fun t => t = s) (signalDevice a u)
      (fun _ t => t.hw.devreg = s.hw.devreg) (fun _ _ => True) (fun _ => True) :=
    (signalDevice_devreg s.hw.devreg).conseq (fun t ht => ht ▸ rfl) (fun _ _ ht => ht) fun _ _ _ =>
      trivial
  apply hsignal.bind
  intro _
  apply Program.Triple.modify
  intro t ht
  constructor
  · have hwrite : Function.update t.hw.devreg n (ack (t.hw.devreg n)) =
        Function.update s.hw.devreg n ((s.hw.devreg n).withCommand transm Platform.devCAck) := by
      rw [ht, hack]
    exact SameCommands.write hi hwrite
  · intro m
    dsimp only
    rw [ht, Function.update_apply]
    split
    · next hm =>
      rw [hm, hack]
      cases transm <;> rfl
    · rfl

theorem devHandler_commands (hlow : 3 ≤ il.toNat) (hhigh : il.toNat ≤ 6)
    (hd : (pendingDevice s.hw il).toNat < 8) :
    Program.Triple (fun t => t = s) (devHandler il)
      (fun _ t => SameCommands [semIndex il 0 (pendingDevice s.hw il)] s.hw t.hw)
      (fun _ _ => True) (fun _ => True) := by
  rintro s rfl
  obtain ⟨hreg, hsem⟩ := line_register hlow hhigh hd
  have hcommand : commandRegister (semIndex il 0 (pendingDevice s.hw il)) =
      (regIndex il (pendingDevice s.hw il), false) := by
    rw [hsem, commandRegister, if_pos (hreg.trans (by decide)),
      decide_eq_false (Nat.not_le.mpr hreg)]
  unfold devHandler
  rw [Program.run_gets_bind]
  refine devRegAddr_bind (P := fun u => u = s) (Or.inr trivial)
    (deviceSemAt_bind (Or.inr trivial) ?_)
    s rfl
  rintro s rfl
  rw [Program.run_gets_bind]
  apply (signalDevice_commands hcommand fun _ => rfl).conseq (fun _ ht => ht) _
    (fun _ _ ht => ht) s rfl
  exact fun _ t ht => ht.1

theorem terminalReceive_commands (hd : dnum.toNat < 8) :
    Program.Triple (fun t => t = s) (terminalReceive (regIndex intTerminal dnum) dnum)
      (fun _ t => SameCommands
          (if receptionDone (s.hw.devreg (regIndex intTerminal dnum)) then
            [semIndex intTerminal devPerInt dnum] else []) s.hw t.hw ∧
        ∀ m, (t.hw.devreg m).transmStatus = (s.hw.devreg m).transmStatus)
      (fun _ _ => True) (fun _ => True) := by
  rintro s rfl
  obtain ⟨hreg, -, hsem⟩ := terminal_register hd
  have hcommand : commandRegister (semIndex intTerminal devPerInt dnum) =
      (regIndex intTerminal dnum, false) := by
    rw [hsem, hreg, commandRegister, if_neg (by omega)]
    congr 1
    omega
  unfold terminalReceive
  rw [Program.run_gets_bind]
  by_cases hdone : receptionDone (s.hw.devreg (regIndex intTerminal dnum)) = true
  · rw [if_pos (of_decide_eq_true hdone), if_pos hdone]
    exact deviceSemAt_bind (P := fun u => u = s) (Or.inr trivial)
      (signalDevice_commands hcommand fun _ => rfl) s rfl
  · rw [if_neg fun hcode => hdone (decide_eq_true hcode)]
    exact ⟨.of_devreg rfl, fun _ => rfl⟩

theorem terminalTransmit_commands (hd : dnum.toNat < 8) :
    Program.Triple (fun t => t = s) (terminalTransmit (regIndex intTerminal dnum) dnum)
      (fun _ t => SameCommands
        (if transmissionDone (s.hw.devreg (regIndex intTerminal dnum)) then
          [semIndex intTerminal 0 dnum] else []) s.hw t.hw)
      (fun _ _ => True) (fun _ => True) := by
  rintro s rfl
  obtain ⟨hreg, hsem, -⟩ := terminal_register hd
  have hcommand : commandRegister (semIndex intTerminal 0 dnum) =
      (regIndex intTerminal dnum, true) := by
    rw [hsem, hreg, commandRegister, if_pos (by omega), decide_eq_true (Nat.le_add_right _ _)]
  unfold terminalTransmit
  rw [Program.run_gets_bind]
  by_cases hdone : transmissionDone (s.hw.devreg (regIndex intTerminal dnum)) = true
  · rw [if_pos (of_decide_eq_true hdone), if_pos hdone]
    refine deviceSemAt_bind (P := fun u => u = s) (Or.inr trivial) ?_ s rfl
    apply (signalDevice_commands hcommand fun _ => rfl).conseq (fun _ ht => ht) _ fun _ _ ht => ht
    exact fun _ t ht => ht.1
  · rw [if_neg fun hcode => hdone (decide_eq_true hcode)]
    exact .of_devreg rfl

theorem terminalHandler_commands (hd : (pendingDevice s.hw intTerminal).toNat < 8) :
    Program.Triple (fun t => t = s) terminalHandler
      (fun _ t => SameCommands (lineCompletions s.hw intTerminal) s.hw t.hw) (fun _ _ => True)
      (fun _ => True) := by
  rintro s rfl
  unfold terminalHandler
  rw [Program.run_gets_bind]
  refine devRegAddr_bind (P := fun u => u = s) (Or.inr trivial)
    (Program.Triple.bind (terminalReceive_commands hd) fun _ => ?_) s rfl
  rintro t ⟨hsame, hstatus⟩
  apply (terminalTransmit_commands hd).conseq (fun _ hu => hu) _ (fun _ _ hf => hf) t rfl
  intro _ t' hsame'
  unfold transmissionDone at hsame'
  rw [hstatus] at hsame'
  exact hsame.append hsame'

theorem serveLine_commands (hreal : Genuine s.hw) :
    Program.Triple (fun t => t = s) (serveLine s.hw.cause)
      (fun _ t => SameCommands (completions s.hw) s.hw t.hw) (fun _ _ => True) (fun _ => True) := by
  rw [serveLine_eq]
  unfold completions
  cases hline : pendingLine s.hw.cause with
  | none => exact Program.Triple.pure fun t ht => ht ▸ .of_devreg rfl
  | some il =>
      dsimp only
      have hdevice := hreal il hline
      apply Program.Triple.ite
      · intro htimer
        exact (timerHandler_devreg s.hw.devreg).conseq (fun t ht => ht ▸ rfl)
          (fun _ t ht => .of_devreg ht) fun _ _ _ => trivial
      intro htimer
      apply Program.Triple.ite
      · rintro rfl
        exact terminalHandler_commands (hdevice htimer)
      intro hterm
      obtain ⟨hlow, hhigh⟩ := (pendingLine_cases hline htimer).resolve_left hterm
      have hone : lineCompletions s.hw il = [semIndex il 0 (pendingDevice s.hw il)] := by
        rw [lineCompletions, if_neg htimer, if_neg hterm]
      rw [hone]
      exact devHandler_commands hlow hhigh (hdevice htimer)

/-- An interrupt acknowledges the operations that it reports, and gives no other commands. -/
theorem interruptHandler_commands {v : View} (h : Rep s.core v) (hreal : Genuine s.hw)
    (hrun : interruptHandler.run s = .exit ctl t) : SameCommands (completions s.hw) s.hw t.hw := by
  obtain ⟨u, hstart, hcore, hcause, hbitmap, hdevreg⟩ := interruptEnter_run s
  have hline : ∀ il, lineCompletions u.hw il = lineCompletions s.hw il := by
    intro il
    unfold lineCompletions pendingDevice
    rw [hbitmap, hdevreg]
  have hdone : completions u.hw = completions s.hw := by
    unfold completions
    simp only [hcause, hline]
  have hreal' : Genuine u.hw := by
    intro il hil
    rw [hcause] at hil
    rw [pendingDevice, hbitmap]
    exact hreal il hil
  have hserve := serveLine_commands hreal' u rfl
  have hmoves := serveLine_run (F := fun _ => True) (h.congr hcore) (fun _ _ =>
    ⟨fun _ => trivial, fun _ => Or.inr trivial, fun _ _ => Or.inr trivial, fun _ _ _ _ => trivial⟩)
      u rfl
  rw [interruptHandler, interruptBody, Program.run_bind_bind, Program.run_bind_ok hstart,
    ← hcause] at hrun
  cases hbody : (serveLine u.hw.cause).run u with
  | ok r w =>
      rw [hbody] at hserve
      rw [Program.run_bind_bind, Program.run_bind_ok hbody, Program.run_bind_bind,
        Program.run_gets_bind] at hrun
      have hend : t.hw.devreg = w.hw.devreg := by
        cases hcur : w.currentProcess with
        | none =>
            rw [hcur] at hrun
            cases hrun
            rfl
        | some p =>
            rw [hcur] at hrun
            cases hrun
            rfl
      intro j hj
      rw [deviceCommand_congr hend, hserve j (hdone ▸ hj), deviceCommand_congr hdevreg]
  | exit ctl w =>
      rw [hbody] at hmoves
      exact hmoves.elim
  | fault e =>
      rw [Program.run_bind_bind, Program.run_bind_fault hbody] at hrun
      cases hrun

end Interrupts

/-! ### Services -/

section Services

variable [Platform] {v : View} {f g : Face} {c : Pcb} {a : ℕ} {w : ℤ} {o : Option Ctl} {ctl : Ctl}
    {u : Word}
  {st : State} {e : Excp}

theorem Creates.devreg {r : Word} (h : Creates v f u r g) : g.hw.devreg = f.hw.devreg := by
  cases h <;> rfl

/-- An `IODEVOP` that is served gives its command. -/
theorem Serves.command (h : Serves v f c st o g) (hten : st.a1 = 10) :
    o = some .panic ∨ o = none ∧ ∃ (u : Word) (m : Face), m.hw.devreg = f.hw.devreg ∧
      g = (m.command st.a2 st.a3 st.a4).answer c u := by
  have hcode : ∀ x : Excp, st.a1 ≠ 4 + x.code := by
    rw [hten]
    intro x
    cases x <;> decide
  have hne : ∀ n : Word, (10 : Word) ≠ n → st.a1 ≠ n := fun n hn hs => hn (hten.symm.trans hs)
  cases h with
  | panic => exact Or.inl rfl
  | ioPanic => exact Or.inl rfl
  | create hs => exact absurd hs (hne 1 (by decide))
  | terminate hs => exact absurd hs (hne 2 (by decide))
  | operate hs => exact absurd hs (hne 3 (by decide))
  | specify x hs => exact absurd hs (hcode x)
  | respecify x hs => exact absurd hs (hcode x)
  | exitTrap x hs => exact absurd hs (hne 7 (by decide))
  | noTrap hs => exact absurd hs (hne 7 (by decide))
  | cputime hs => exact absurd hs (hne 8 (by decide))
  | clock hs => exact absurd hs (hne 9 (by decide))
  | io hs h =>
      cases h with
      | issue hi hr hop => exact Or.inr ⟨rfl, _, _, hop.devreg, rfl⟩
  | getpid hs => exact absurd hs (hne 11 (by decide))

omit [Platform] in
theorem command_devreg (m : Face) (cmd intlNo dnum : Word) :
    (m.command cmd intlNo dnum).hw.devreg = Function.update m.hw.devreg (regIndex intlNo dnum)
      ((m.hw.devreg (regIndex intlNo dnum)).withCommand (transmits intlNo dnum) cmd) := rfl

/-- The other services do not touch the devices. -/
theorem Serves.devreg (h : Serves v f c st o g) (hten : st.a1 ≠ 10) :
    g.hw.devreg = f.hw.devreg := by
  cases h with
  | panic => rfl
  | ioPanic => rfl
  | create hs h => exact h.devreg
  | terminate => split <;> rfl
  | operate hs h => exact h.devreg
  | specify => rfl
  | respecify => rfl
  | exitTrap => rfl
  | noTrap => rfl
  | cputime => rfl
  | clock hs h => exact h.devreg
  | io hs => exact absurd hs hten
  | getpid => rfl

omit [Platform] in
theorem finish_devreg (f : Face) : f.finish.hw.devreg = f.hw.devreg := by
  unfold Face.finish
  split <;> rfl

theorem Traps.devreg (h : Traps f c e st ctl g) : g.hw.devreg = f.hw.devreg := by
  cases h <;> rfl

/-- Neither does a system call that is no `IODEVOP`. -/
theorem Calls.devreg (h : Calls v f c st ctl g) (hio : ioRequest st = none) :
    g.hw.devreg = f.hw.devreg := by
  have hten : isService st = true → isUserMode st = false → st.a1 ≠ 10 := by
    intro hserv huser hten
    rw [ioRequest, if_pos ⟨hserv, by rw [huser]; exact Bool.false_ne_true, hten⟩] at hio
    cases hio
  cases h with
  | panic => rfl
  | served hserv huser h => exact (finish_devreg _).trans (h.devreg (hten hserv huser))
  | ended hserv huser h => exact h.devreg (hten hserv huser)
  | reflect hserv huser h => exact h.devreg
  | die => rfl
  | pass => rfl

theorem Dispatches.devreg (h : Dispatches v f ctl g) : g.hw.devreg = f.hw.devreg := by
  have hschedule : f.schedule.hw.devreg = f.hw.devreg := by
    unfold Face.schedule
    split <;> rfl
  have hprepare : f.schedule.prepare.hw.devreg = f.hw.devreg := by
    have hrequeue : f.schedule.requeue.hw.devreg = f.schedule.hw.devreg := by
      unfold Face.requeue
      split <;> rfl
    rw [← hschedule, ← hrequeue]
    unfold Face.prepare Face.arm
    split <;> rfl
  cases h with
  | resume => rfl
  | next hflag h => cases h <;> exact hprepare

end Services

end JaeOS
