import JaeOS.Board
import JaeOS.Outcomes

/-!
# Passing up and returning

The state in which a process has taken an exception stays in its area, whatever the process and the
others do, until the next exception of the same kind is passed up to it. `EXITTRAP` loads it.
-/

open LinkRing LinkForest Transition

namespace JaeOS

/-- `p` handles exceptions of the kind `x` itself, and the last of them was taken in the state `st`;
`a1` may have been replaced since. -/
def Face.Holds (f : Face) (p : Pcb) (x : Excp) (st : State) : Prop :=
  f.tags p x = true ∧ ∃ u, f.oldnewAreas p (.old x) = { st with a1 := u }

section Holds

variable {f g : Face} {p q c : Pcb} {x e : Excp} {st : State}

theorem Face.Holds.congr (h : f.Holds p x st) (ha : g.oldnewAreas = f.oldnewAreas)
    (ht : g.tags = f.tags) : g.Holds p x st := by
  unfold Face.Holds
  rw [ha, ht]
  exact h

theorem Face.Holds.of_files (h : f.Holds p x st) (hg : g.files = f.files) : g.Holds p x st :=
  h.congr (congrArg (fun q => q.2.2.2) hg) (congrArg (fun q => q.2.2.1) hg)

/-- Another area is written. -/
theorem Face.Holds.setArea {a : Area} {w : State → State} (h : f.Holds p x st)
    (ha : c = p → a ≠ .old x) : (f.setArea c a w).Holds p x st := by
  obtain ⟨ht, u, hu⟩ := h
  refine ⟨ht, u, ?_⟩
  change Function.update f.oldnewAreas c _ p (.old x) = _
  by_cases hc : p = c
  · subst hc
    rw [Function.update_self, Function.update_of_ne (ha rfl).symm]
    exact hu
  · rw [Function.update_of_ne hc]
    exact hu

/-- The register `a1` in an area is replaced. -/
theorem Face.Holds.replace {a : Area} {u : Word} (h : f.Holds p x st) :
    (f.setArea c a fun s => { s with a1 := u }).Holds p x st := by
  by_cases ha : c = p → a ≠ .old x
  · exact h.setArea ha
  · push Not at ha
    obtain ⟨rfl, rfl⟩ := ha
    obtain ⟨ht, w, hw⟩ := h
    refine ⟨ht, u, ?_⟩
    change Function.update f.oldnewAreas c _ c (.old x) = _
    rw [Function.update_self, Function.update_self, hw]

theorem Face.Holds.setTags {t : Excp → Bool} (h : f.Holds p x st) (ht : p = c → t x = true) :
    ({ f with tags := Function.update f.tags c t } : Face).Holds p x st := by
  refine ⟨?_, h.2⟩
  change Function.update f.tags c t p x = true
  by_cases hc : p = c
  · rw [hc, Function.update_self]
    exact ht hc
  · rw [Function.update_of_ne hc]
    exact h.1

end Holds

section Frames

variable [Platform] {f g : Face} {v : View} {p c : Pcb} {x e : Excp} {st s : State} {a : ℕ} {w : ℤ}
  {ctl : Ctl} {u r : Word}

theorem Face.Holds.leave (h : f.Holds p x st) : (f.leave c e).Holds p x st :=
  Face.Holds.setArea (f := f.charge c) (h.congr rfl rfl) fun _ => Area.noConfusion

/-- A new process has a PCB of its own. -/
theorem Creates.holds (h : Creates v f u r g) (hf : f.Holds p x st) (hp : p ∉ v.free) :
    g.Holds p x st := by
  cases h with
  | full => exact hf
  | create hfree =>
      apply Face.Holds.congr (hf.setTags (t := fun _ => false) fun hpq => ?_) rfl rfl
      rw [hpq, hfree] at hp
      exact absurd List.mem_cons_self hp

theorem Face.Holds.specify {pc sp flags : Word} (h : f.Holds p x st) (ht : f.tags c e = false) :
    (f.specify c e pc sp flags).Holds p x st := by
  have hne : c = p → Area.old e ≠ .old x := by
    rintro rfl he
    rw [Area.old.inj he, h.1] at ht
    cases ht
  have hareas := (h.setArea (w := fun _ => f.hw.processor) hne).setArea (c := c) (a := .new e)
    (w := fun _ => { f.pS c with
      pc := pc
      sp := sp
      cpsr := (f.pS c).cpsr &&& 0x7FFFFFF8 ||| flags &&& 0x80000007
      cp15EntryHi := Platform.setEntryHi f.hw.entryHi }) fun _ => Area.noConfusion
  apply hareas.setTags
  rintro rfl
  rw [Function.update_apply]
  split
  · rfl
  · exact h.1

theorem Serves.holds {o : Option Ctl} (h : Serves v f c s o g) (hf : f.Holds p x st)
    (hp : p ∉ v.free) : g.Holds p x st := by
  cases h with
  | panic => exact hf
  | ioPanic => exact hf.congr rfl rfl
  | create hsys h => exact (h.holds hf hp).congr rfl rfl
  | terminate hsys =>
      split
      · exact hf.congr rfl rfl
      · exact hf
  | operate hsys h => exact hf.of_files h.files
  | specify e hsys ht => exact hf.specify ht
  | respecify e hsys ht => exact hf.congr rfl rfl
  | exitTrap e hsys he => exact hf.replace
  | noTrap => exact hf
  | cputime => exact hf.congr rfl rfl
  | clock hsys h => exact hf.of_files h.files
  | io hsys h =>
      obtain ⟨hi, hr, h⟩ := h
      exact (hf.of_files (f := f) h.files).congr rfl rfl
  | getpid => exact hf.congr rfl rfl

theorem Face.Holds.trap (h : f.Holds p x st) : (f.trap c).Holds p x st := h.congr rfl rfl

/-- An exception is passed up, of another kind or to another process. -/
theorem Face.Holds.passUp (h : f.Holds p x st) (hne : c = p → e ≠ x) :
    (f.passUp c e s).Holds p x st := by
  apply Face.Holds.leave
  exact (h.setArea fun hc he => hne hc (Area.old.inj he)).setArea fun _ => Area.noConfusion

theorem Face.Holds.passUpSyscall (h : f.Holds p x st) (hne : c = p → Excp.sys ≠ x) :
    (f.passUpSyscall c s).Holds p x st := by
  apply Face.Holds.leave
  exact (h.setArea fun hc he => hne hc (Area.old.inj he)).setArea fun _ => Area.noConfusion

theorem Traps.holds (h : Traps f c e s ctl g) (hf : f.Holds p x st)
    (hne : f.tags c e = true → c = p → e ≠ x) : g.Holds p x st := by
  cases h with
  | panic => exact hf.congr rfl rfl
  | die => exact hf.congr rfl rfl
  | pass ht => exact Face.Holds.passUp (f := f.start) (hf.congr rfl rfl) (hne ht)

theorem passUp_holds (ht : f.tags c e = true) : (f.passUp c e s).Holds c e s := by
  apply Face.Holds.leave
  apply Face.Holds.setArea _ fun _ => Area.noConfusion
  refine ⟨ht, s.a1, ?_⟩
  change Function.update f.oldnewAreas c _ c (.old e) = s
  rw [Function.update_self, Function.update_self]

theorem passUpSyscall_holds (ht : f.tags c .sys = true) : (f.passUpSyscall c s).Holds c .sys s := by
  apply Face.Holds.leave
  apply Face.Holds.setArea _ fun _ => Area.noConfusion
  refine ⟨ht, s.a1, ?_⟩
  change Function.update f.oldnewAreas c _ c (.old .sys) = s
  rw [Function.update_self, Function.update_self]

theorem Traps.passes (h : Traps f c e s ctl g) (ht : f.tags c e = true) : g.Holds c e s := by
  cases h with
  | panic hf =>
      rw [ht] at hf
      cases hf
  | die hf =>
      rw [ht] at hf
      cases hf
  | pass => exact passUp_holds (f := f.start) ht

end Frames

/-! ### Exceptions that are passed up -/

section Runs

variable [Platform] {f g : Face} {v : View} {p c : Pcb} {x : Excp} {st : State} {e : Event}
  {ctl : Ctl} {k : Kernel} {s s' s₀ s₁ s₂ : Sys} {B : Kernel → Prop} {hw : Hw}

/-- The kind of an exception that its process may handle, and the state it was taken in. A service
requested in user mode is a program trap. -/
def Event.excp : Event → Option (Excp × State)
  | .syscall hw =>
    if isService (hw.oldArea .sysbk) then
      if isUserMode (hw.oldArea .sysbk) then some (.pgmtp, reservedState (hw.oldArea .sysbk))
        else none
    else some (.sys, hw.oldArea .sysbk)
  | .pgmtrap hw => some (.pgmtp, hw.oldArea .pgmtrap)
  | .tlb hw => some (.tlb, hw.oldArea .tlb)
  | _ => none

def PassesUp (k : Kernel) (e : Event) (p : Pcb) (x : Excp) : Prop :=
  k.currentProcess = some p ∧ e.excp.map Prod.fst = some x ∧ k.tags p x = true

instance : Decidable (PassesUp k e p x) := inferInstanceAs (Decidable (_ ∧ _))

/-- `p` is alive and no exception of the kind `x` is passed up to it. -/
structure Undisturbed (p : Pcb) (x : Excp) (s : Sys) (e : Event) : Prop where
  spares : SparesReady s e
  alive : p ∉ freeList s.kernel
  quiet : ¬ PassesUp s.kernel e p x

instance : Decidable (Undisturbed p x s e) :=
  decidable_of_iff (SparesReady s e ∧ p ∉ freeList s.kernel ∧ ¬ PassesUp s.kernel e p x)
    ⟨fun h => ⟨h.1, h.2.1, h.2.2⟩, fun h => ⟨h.1, h.2, h.3⟩⟩

theorem Calls.holds (h : Calls v f c (hw.oldArea .sysbk) ctl g) (hf : f.Holds p x st)
    (hp : p ∉ v.free) (hquiet : c = p → (Event.syscall hw).excp.map Prod.fst ≠ some x) :
    g.Holds p x st := by
  cases h with
  | panic => exact hf.trap
  | served hserv huser h => exact (h.holds hf.trap hp).of_files (finish_files _)
  | ended hserv huser h => exact h.holds hf.trap hp
  | reflect hserv huser h =>
      apply h.holds (hf.congr rfl rfl)
      rintro - hc rfl
      apply hquiet hc
      rw [Event.excp, if_pos hserv, if_pos huser]
      rfl
  | die hserv ht => exact hf.congr rfl rfl
  | pass hserv ht =>
      apply hf.trap.passUpSyscall
      rintro hc rfl
      apply hquiet hc
      rw [Event.excp, hserv]
      rfl

theorem Event.Ends.holds (h : e.Ends v f ctl g) (hf : f.Holds p x st) (hp : p ∉ v.free)
    (hquiet : f.currentProcess = some p → e.excp.map Prod.fst ≠ some x) : g.Holds p x st := by
  cases e with
  | dispatch => exact hf.of_files (h.files (Or.inl rfl))
  | syscall hw =>
      obtain ⟨c, hc, h⟩ := h
      exact h.holds (hf.congr rfl rfl) hp fun hcp => hquiet (hcp ▸ hc)
  | pgmtrap hw =>
      obtain ⟨c, hc, h⟩ := h
      apply h.holds (hf.congr rfl rfl)
      rintro - rfl rfl
      exact hquiet hc rfl
  | tlb hw =>
      obtain ⟨c, hc, h⟩ := h
      apply h.holds (hf.congr rfl rfl)
      rintro - rfl rfl
      exact hquiet hc rfl
  | interrupt hw => exact hf.of_files (h.files (Or.inr ⟨hw, rfl⟩))

theorem Calls.passes (h : Calls v f p (hw.oldArea .sysbk) ctl g)
    (hst : (Event.syscall hw).excp = some (x, st)) (ht : f.tags p x = true) : g.Holds p x st := by
  rw [Event.excp] at hst
  by_cases hserv : isService (hw.oldArea .sysbk) = true
  · rw [if_pos hserv] at hst
    by_cases huser : isUserMode (hw.oldArea .sysbk) = true
    · rw [if_pos huser] at hst
      cases hst
      cases h with
      | reflect _ _ h => exact h.passes ht
      | panic hs => exact absurd hserv (Bool.eq_false_iff.mp hs)
      | served _ hu => exact absurd huser (Bool.eq_false_iff.mp hu)
      | ended _ hu => exact absurd huser (Bool.eq_false_iff.mp hu)
      | die hs => exact absurd hserv (Bool.eq_false_iff.mp hs)
      | pass hs => exact absurd hserv (Bool.eq_false_iff.mp hs)
    · rw [if_neg huser] at hst
      cases hst
  · rw [if_neg hserv] at hst
    cases hst
    cases h with
    | pass => exact passUpSyscall_holds (f := f.trap p) ht
    | panic _ hf => exact absurd ht (Bool.eq_false_iff.mp hf)
    | die _ hf => exact absurd ht (Bool.eq_false_iff.mp hf)
    | served hs => exact absurd hs hserv
    | ended hs => exact absurd hs hserv
    | reflect hs => exact absurd hs hserv

/-- What has been passed up is in the area of the process. -/
theorem PassesUp.holds (h : e.Ends v k.face ctl g) (hup : PassesUp k e p x)
    (hst : e.excp = some (x, st)) : g.Holds p x st := by
  obtain ⟨hcur, -, ht⟩ := hup
  cases e with
  | dispatch => cases hst
  | interrupt hw => cases hst
  | syscall hw =>
      obtain ⟨c, hc, h⟩ := h
      obtain rfl : p = c := Option.some.inj (hcur.symm.trans hc)
      exact h.passes hst ht
  | pgmtrap hw =>
      obtain ⟨c, hc, h⟩ := h
      obtain rfl : p = c := Option.some.inj (hcur.symm.trans hc)
      cases hst
      exact h.passes ht
  | tlb hw =>
      obtain ⟨c, hc, h⟩ := h
      obtain rfl : p = c := Option.some.inj (hcur.symm.trans hc)
      cases hst
      exact h.passes ht

theorem PassesUp.victim (hup : PassesUp k e p x) : e.victim k = none := by
  obtain ⟨hcur, hx, ht⟩ := hup
  have hnone : trapAct k.core p x = none := if_pos ht
  have hact : e.act k = none := by
    cases e with
    | dispatch => rfl
    | interrupt hw => rfl
    | syscall hw =>
        rw [Event.act, hcur, Option.bind_some, syscallAct]
        rw [Event.excp] at hx
        by_cases hserv : isService (hw.oldArea .sysbk) = true
        · rw [if_pos hserv] at hx ⊢
          by_cases huser : isUserMode (hw.oldArea .sysbk) = true
          · rw [if_pos huser] at hx ⊢
            cases hx
            exact hnone
          · rw [if_neg huser] at hx
            cases hx
        · rw [if_neg hserv] at hx ⊢
          cases hx
          exact hnone
    | pgmtrap hw =>
        cases hx
        rw [Event.act, hcur, Option.bind_some]
        exact hnone
    | tlb hw =>
        cases hx
        rw [Event.act, hcur, Option.bind_some]
        exact hnone
  rw [Event.victim, hact]

/-! ### `EXITTRAP` -/

def exitCall (st : State) (x : Excp) : Prop :=
  isService st ∧ ¬ isUserMode st ∧ st.a1 = 7 ∧ st.a2 = x.code

/-- `EXITTRAP` loads the old area, with `a1` replaced. -/
theorem exitCall_run (hc : k.currentProcess = some p) (hst : k.hw.oldArea .sysbk = st)
    (hcall : exitCall st x) : ∃ k',
      syscallHandler.run k = .exit (.ldst { k.oldnewAreas p (.old x) with a1 := st.a3 }) k' := by
  obtain ⟨hserv, huser, hsys, hx⟩ := hcall
  have hst' : (k.trap p).hw.oldArea .sysbk = st := hst
  have hps : (k.trap p).pS p = st := (Function.update_self ..).trans hst
  have hserve : (service st.a1 st.a2 st.a3 st.a4).run (k.trap p) =
      (exitVia x st.a3).run (k.trap p) := by
    rw [hsys, hx]
    cases x with
    | sys => rfl
    | tlb => rfl
    | pgmtp => rfl
  have hvia := exitVia_run (s := k.trap p) (e := x) (u := st.a3) hc
  refine ⟨(k.trap p).withArea p (.old x) fun r => { r with a1 := st.a3 }, ?_⟩
  rw [syscallHandler, Program.run_bind_ok (syscallEnter_ok hc), Program.run_gets_bind, hst',
    if_pos hserv, Program.run_gets_bind, hps, if_neg huser]
  exact Program.run_bind_exit (hserve.trans hvia) _

def onward (s₁ : Sys) : Transition.System Sys Event where
  init s := s = s₁
  step s e s' := s.step e = some s'

/-- What an undisturbed run preserves. -/
theorem Undisturbed.step (hc : Undisturbed p x s e) (hstep : s.step e = some s')
    (h : ∃ v, Rep s.kernel.core v ∧ s.kernel.face.Holds p x st) :
    ∃ v, Rep s'.kernel.core v ∧ s'.kernel.face.Holds p x st := by
  obtain ⟨v, hrep, hholds⟩ := h
  obtain ⟨-, v', -, -, hrep'⟩ := Sys.step_refines hrep hc.spares hstep
  have halive : p ∉ v.free := by
    rw [← hrep.freeList_eq]
    exact hc.alive
  refine ⟨v', hrep', (Sys.step_ends hrep hstep).holds hholds halive ?_⟩
  exact fun hcur hexcp => hc.quiet ⟨hcur, hexcp, hholds.1⟩

/-- A process that has an exception of the kind `x` passed up in the state `st` and then no other
while it lives returns by `EXITTRAP` to just that state, with `a1` replaced. -/
theorem exit_trap_restores (h : Reach (nucleus B) SparesReady s₀) (hup : PassesUp s₀.kernel e p x)
    (hst : e.excp = some (x, st)) (hstep : s₀.step e = some s₁)
    (hrun : Reach (onward s₁) (Undisturbed p x) s₂)
    (henabled : (Event.syscall hw).enabled s₂.ctl = true) (hc : s₂.kernel.currentProcess = some p)
    (hcall : exitCall (hw.oldArea .sysbk) x) :
    ∃ s₃, s₂.step (.syscall hw) = some s₃ ∧
      s₃.ctl = .ldst { st with a1 := (hw.oldArea .sysbk).a3 } := by
  obtain ⟨v₀, hrep₀⟩ := nucleus_rep h
  have hspares : SparesReady s₀ e := by
    intro t ht
    rw [hup.victim] at ht
    cases ht
  obtain ⟨-, v₁, -, -, hrep₁⟩ := Sys.step_refines hrep₀ hspares hstep
  obtain ⟨v, hrep, hholds⟩ := hrun.invariant
    (I := fun s => ∃ v, Rep s.kernel.core v ∧ s.kernel.face.Holds p x st)
    (fun s hs => hs ▸ ⟨v₁, hrep₁, hup.holds (Sys.step_ends hrep₀ hstep) hst⟩)
    fun _ _ _ hI hC hs => hC.step hs hI
  obtain ⟨-, u, harea⟩ := hholds
  obtain ⟨k, hk⟩ := exitCall_run (k := s₂.kernel.enter (.syscall hw)) hc rfl hcall
  have hs₃ : s₂.step (.syscall hw) = some ⟨k, .ldst { s₂.kernel.oldnewAreas p (.old x) with
      a1 := (hw.oldArea .sysbk).a3 }, Event.issue s₂.kernel s₂.issued (.syscall hw)⟩ := by
    rw [Sys.step, if_pos henabled, Event.program, hk]
    rfl
  refine ⟨_, hs₃, ?_⟩
  rw [show s₂.kernel.oldnewAreas p (.old x) = { st with a1 := u } from harea]

end Runs

section Board

attribute [local instance] uarm

def breakpointState : State :=
  { State.zero with a1 := 99, pc := 0x1234, cpsr := 0x1F, cp15Cause := 9 }

/-- A process handles its breakpoint, asks for its `pid` and returns. -/
theorem exit_trap_restores_breakpoint :
    ∃ s s' : Sys, s.step (call 7 0 42) = some s' ∧
    s'.ctl = .ldst { breakpointState with a1 := 42 } := by
  obtain ⟨s₀, h₀, hQ⟩ := nucleus_run (B := fun _ => True) (C := SparesReady) trivial atBoot_zero
    [.dispatch, call 4 0x8100 0x9000, .dispatch]
    (fun s => PassesUp s.kernel (.syscall { Hw.rest with oldArea := fun _ => breakpointState }) 0
      .sys ∧
      (s.step (.syscall { Hw.rest with oldArea := fun _ => breakpointState })).any fun s₁ =>
        (follow Sys.step (Undisturbed 0 .sys) [call 11, .dispatch] s₁).any fun s₂ =>
          (call 7 0 42).enabled s₂.ctl ∧ s₂.kernel.currentProcess = some 0)
    (by decide +kernel)
  obtain ⟨hup, hQ⟩ := of_decide_eq_true hQ
  obtain ⟨s₁, hstep, hQ⟩ := (Option.any_eq_true _ _).mp hQ
  obtain ⟨s₂, hrun, hQ⟩ := (Option.any_eq_true _ _).mp hQ
  obtain ⟨henabled, hcur⟩ := of_decide_eq_true hQ
  have hreach : Reach (onward s₁) (Undisturbed 0 .sys) s₂ :=
    Reach.follow (fun _ _ _ hs => hs) (.init rfl) hrun
  obtain ⟨s₃, hs₃, hctl⟩ := exit_trap_restores h₀ hup rfl hstep hreach henabled hcur
    (by unfold exitCall; decide)
  exact ⟨s₂, s₃, hs₃, hctl⟩

end Board

end JaeOS
