import JaeOS.Board
import JaeOS.Outcomes

/-!
# What a call of the scheduler finds

`flag` and `current_process` are set far apart. Whenever a handler calls the scheduler the two
agree: either the flag says to go on with the process that is running, and one is, or it does not.
After a service that has blocked or killed its caller the flag is `LOADNEXT` and nobody is running,
after any other the caller is resumed.
-/

open LinkRing LinkForest Transition

namespace JaeOS

def Resumable (flag : Flag) (current : Option Pcb) : Prop :=
  flag = .loadcurrent ∧ current ≠ none ∨ flag = .loadnext ∨ flag = .reset

section Flags

variable [Platform] {f g : Face} {v : View} {c : Pcb} {a : ℕ} {w : ℤ} {st : State} {ctl : Ctl}
  {e : Excp} {r : Word}

def Face.Keeping (f : Face) (c : Pcb) : Prop :=
  f.flag = .loadcurrent ∧ f.currentProcess = some c ∨ f.flag = .loadnext ∧ f.currentProcess = none

omit [Platform] in
theorem Face.Keeping.resumable (h : f.Keeping c) : Resumable f.flag f.currentProcess := by
  rcases h with ⟨hflag, hc⟩ | ⟨hflag, -⟩
  · apply Or.inl
    rw [hc]
    exact ⟨hflag, Option.some_ne_none c⟩
  · exact Or.inr (Or.inl hflag)

theorem Operates.keeping (h : Operates v f c a w none g) (hf : f.Keeping c) : g.Keeping c := by
  cases h with
  | die => exact Or.inr ⟨rfl, rfl⟩
  | pass => exact hf
  | block => exact Or.inr ⟨rfl, rfl⟩
  | verhogen => exact hf

theorem Creates.keeping {u : Word} (h : Creates v f u r g) (hf : f.Keeping c) : g.Keeping c := by
  cases h with
  | full => exact hf
  | create => exact hf

theorem Serves.keeping (h : Serves v f c st none g) (hf : f.Keeping c) : g.Keeping c := by
  cases h with
  | create hsys h => exact h.keeping hf
  | terminate hsys =>
      split
      · exact Or.inr ⟨rfl, rfl⟩
      · exact hf
  | operate hsys h => exact h.keeping hf
  | specify e hsys ht => exact hf
  | noTrap => exact hf
  | cputime => exact hf
  | clock hsys h => exact h.keeping hf
  | io hsys h =>
      obtain ⟨hi, hr, h⟩ := h
      exact h.keeping hf
  | getpid => exact hf

omit [Platform] in
theorem Face.Keeping.finish (h : f.Keeping c) : f.finish.Keeping c := by
  unfold Face.finish
  split
  · exact h
  · exact h

theorem trap_keeping (hc : f.currentProcess = some c) : (f.trap c).Keeping c := Or.inl ⟨rfl, hc⟩

/-- The second call of `SPECSYSVEC` and its like is the only service that itself calls the
scheduler. -/
theorem Serves.scheduler (h : Serves v f c st (some .scheduler) g) : g = f.drop := by
  cases h with
  | respecify => rfl
  | operate hsys h => cases h
  | clock hsys h => cases h

theorem Traps.scheduler (h : Traps f c e st .scheduler g) : g = f.start.drop := by
  cases h
  rfl

theorem Calls.resumable (h : Calls v f c st .scheduler g) (hc : f.currentProcess = some c) :
    Resumable g.flag g.currentProcess := by
  cases h with
  | served hserv huser h => exact (h.keeping (trap_keeping hc)).finish.resumable
  | ended hserv huser h =>
      obtain rfl := h.scheduler
      exact Or.inr (Or.inl rfl)
  | reflect hserv huser h =>
      obtain rfl := h.scheduler
      exact Or.inr (Or.inl rfl)
  | die => exact Or.inr (Or.inl rfl)

/-- Whatever made a process enter the nucleus, the scheduler can do what the flag says. -/
theorem Event.Ends.resumable {e : Event} (h : e.Ends v f .scheduler g) (he : e ≠ .dispatch) :
    Resumable g.flag g.currentProcess := by
  cases e with
  | dispatch => exact absurd rfl he
  | syscall hw =>
      obtain ⟨c, hc, h⟩ := h
      exact h.resumable hc
  | pgmtrap hw =>
      obtain ⟨c, -, h⟩ := h
      obtain rfl := h.scheduler
      exact Or.inr (Or.inl rfl)
  | tlb hw =>
      obtain ⟨c, -, h⟩ := h
      obtain rfl := h.scheduler
      exact Or.inr (Or.inl rfl)
  | interrupt hw =>
      obtain ⟨-, m, -, hflag, rfl⟩ := h
      apply Or.inr
      rw [show m.finish.enable.flag = m.flag by unfold Face.finish Face.enable; split <;> rfl]
      exact hflag

end Flags

/-! ### Callers that are blocked or dead -/

def Stopped (k : Kernel) (c : Pcb) : Prop := c ∈ freeList k ∨ ∃ a, c ∈ waiting k.toLinks a

/-- The free list and the queues are in order, and `c` is in none of them just if it is running. -/
def Stands (c : Pcb) (κ : Core) : Prop :=
  ∃ v, Lists κ.links v ∧
    if κ.currentProcess = some c then v.place c = .off
    else v.place c = .free ∨ ∃ a, v.place c = .blocked a

theorem Stands.stopped {k : Kernel} {c : Pcb} (h : Stands c k.core) :
    Stopped k c ↔ k.currentProcess ≠ some c := by
  obtain ⟨v, hl, hplace⟩ := h
  have hfree : freeList k = v.free :=
    Ring.members_eq hl.free_ring (queue_length_le (m := k.toLinks) hl.free_ring)
  have hqueue : waiting k.toLinks = v.queue := hl.asl.waiting_eq
  unfold Stopped
  simp only [hfree, hqueue, hl.mem_free, hl.mem_queue]
  rw [core_currentProcess] at hplace
  by_cases hc : k.currentProcess = some c
  · rw [if_pos hc] at hplace
    simp [hplace, hc]
  · rw [if_neg hc] at hplace
    exact iff_of_true hplace hc

section Callers

variable [Platform] {s : Kernel} {κ : Core} {v v' : View} {c : Pcb} {act : Option Act} {u : Word}
  {st : State} {α : Type}

/-- No move of a process, nor a wakeup, puts the running process into the ready queue. -/
theorem Move.not_ready {act : Act} (hm : Move act v v') (hv : Orderly v) (hc : v.place c = .off)
    (hact : act ≠ .requeue) : v'.place c ≠ .ready := by
  have hwake : ∀ a w, (v.verhogen a w).place c ≠ .ready := by
    intro a w
    rw [verhogen_place, if_neg]
    · simp [hc]
    · intro hm
      rw [hv.woken_blocked hm] at hc
      cases hc
  cases hm with
  | full => simp [hc]
  | @create _ d p l hd hf =>
      have hp : v.place p = .free := (hv.mem_free p).mp (by simp [hf])
      rw [create_place, if_neg]
      · simp [hc]
      · rintro rfl
        rw [hp] at hc
        cases hc
  | terminate =>
      change (v.killAll _).place c ≠ .ready
      rw [killAll_place]
      split
      · exact Place.noConfusion
      · simp [hc]
  | pass => simp [View.setValue, hc]
  | @block _ a w d hw hi ha hd =>
      change Function.update v.place d (.blocked a) c ≠ .ready
      rw [Function.update_apply]
      split
      · exact Place.noConfusion
      · simp [hc]
  | verhogen => exact hwake _ _
  | noSignal => simp [hc]
  | signal => exact hwake _ _
  | requeue => exact absurd rfl hact
  | @load _ p l hr =>
      change Function.update v.place p .off c ≠ .ready
      rw [Function.update_apply]
      split
      · exact Place.noConfusion
      · simp [hc]

omit [Platform] in
theorem Rep.stands (h : Rep s.core v) (hr : v.place c ≠ .ready) : Stands c s.core := by
  refine ⟨v, h.lists, ?_⟩
  split
  · next hcur => exact h.current_off hcur
  · next hcur =>
    cases hp : v.place c with
    | free => exact Or.inl rfl
    | ready => exact absurd hp hr
    | blocked a => exact Or.inr ⟨a, rfl⟩
    | off => exact absurd ((h.off c).mp hp) hcur
    | gone => exact absurd hp (h.not_gone c)

theorem Does.stands (h : Rep κ v) (hc : κ.currentProcess = some c) (hact : act ≠ some .requeue)
    (hd : Does act v s) : Stands c s.core := by
  obtain ⟨v', hsteps, hrep⟩ := hd
  apply hrep.stands
  cases act with
  | none =>
      obtain rfl := steps_nil.mp hsteps
      simp [h.current_off hc]
  | some act =>
      apply (steps_single.mp hsteps).not_ready h.orderly (h.current_off hc)
      exact fun he => hact (congrArg some he)

def Settles (κ : Core) (c : Pcb) (x : KM α) : Prop :=
  Program.Triple (fun s => s.core = κ) x (fun _ s => Stands c s.core)
    (fun ctl s => ctl = .scheduler → Stands c s.core) (fun _ => True)

/-- What does not kill a process with a ready descendant. -/
theorem Performs.settles {x : KM α} (h : Rep κ v) (hc : κ.currentProcess = some c)
    (hact : act ≠ some .requeue) (hx : Performs (fun _ => True) κ x act v) : Settles κ c x :=
  hx.conseq (fun _ hs => hs) (fun _ _ hd => hd.stands h hc hact) fun _ _ hd _ => hd.stands h hc hact

theorem Quiet.settles {x : KM α} (h : Rep κ v) (hc : κ.currentProcess = some c)
    (hx : Quiet (fun _ => True) x) : Settles κ c x :=
  (hx.performs h).settles h hc (Option.some_ne_none _).symm

omit [Platform] in
theorem Settles.bind {β : Type} {x : KM α} {f : α → KM β} (hx : Settles κ c x)
    (hf : ∀ r, Quiet (fun _ => True) (f r)) : Settles κ c (x >>= f) := by
  apply Program.Triple.bind hx
  intro r s hs
  have hq := hf r s.core s rfl
  cases hrun : (f r).run s with
  | ok b t =>
      rw [hrun] at hq
      dsimp only at hq ⊢
      rwa [hq]
  | exit ctl t =>
      rw [hrun] at hq
      dsimp only at hq ⊢
      rw [hq]
      exact fun _ => hs
  | fault e => trivial

theorem terminateProcess_settles (h : Rep κ v) (hc : κ.currentProcess = some c) :
    Settles κ c (terminateProcess u) := by
  rintro s rfl
  have hkill := terminateProcess_run u h.toWellFormed hc
  cases ht : terminated s.core c u with
  | none =>
      rw [ht] at hkill
      rw [hkill]
      exact fun hctl => Ctl.noConfusion hctl
  | some t =>
      rw [ht] at hkill
      obtain ⟨ks, k₀, hp, hck, hcur, ⟨e, he, -⟩ | ⟨m, q, he, hrem, -⟩⟩ := hkill
      · rw [he]
        trivial
      · rw [he]
        refine ⟨_, hrem.lists, ?_⟩
        have hoff : v.place c = .off := h.current_off hc
        have hmem : c ∈ ks.postorder ++ [t] ↔ c = t := by
          rw [List.mem_append, Forest.mem_postorder, List.mem_singleton, or_iff_right hck]
        rw [killAll_place]
        change if k₀.currentProcess = some c then _ else _
        rw [hcur]
        by_cases htc : t = c
        · rw [if_pos htc, if_neg (Option.some_ne_none c).symm, if_pos (hmem.mpr htc.symm)]
          exact Or.inl rfl
        · rw [if_neg htc, if_pos rfl, if_neg fun hm => htc (hmem.mp hm).symm]
          exact hoff

/-- A branch that kills the process, with no way on to `f`, and one that does not. -/
theorem Settles.guard {f : Unit → KM α} {x : KM α} {b : Prop} [Decidable b] (h : Rep κ v)
    (hc : κ.currentProcess = some c) (hx : ¬ b → Settles κ c x) :
    Settles κ c (if b then terminateCurrent >>= f else x) := by
  apply Program.Triple.ite _ hx
  rintro - s rfl
  have hkill := (terminateProcess_settles (u := s.pid c) h hc).bind
    fun _ => quiet_leave (α := Unit) .scheduler
  have hends := hkill s rfl
  have hrun :
      terminateCurrent.run s = (terminateProcess (s.pid c) >>= fun _ => callScheduler).run s := by
    rw [terminateCurrent, Program.run_bind_ok (current_ok hc), Program.run_gets_bind]
  cases ht : terminateCurrent.run s with
  | ok r t => exact absurd ht terminateCurrent_ends
  | exit ctl t =>
      rw [Program.run_bind_exit ht]
      rw [hrun] at ht
      exact hkill.of_exit rfl ht
  | fault e =>
      rw [Program.run_bind_fault ht]
      trivial

theorem semaphoreOperation_settles {a : ℕ} (h : Rep κ v) (hc : κ.currentProcess = some c) :
    Settles κ c (semaphoreOperation a 0) := by
  rintro s rfl
  by_cases ha : a = 0
  · rw [ha, semaphoreOperation_null]
    exact fun hctl => Ctl.noConfusion hctl
  · rw [semaphoreOperation_zero ha hc]
    exact terminateProcess_settles h hc s rfl

theorem specify_settles {e : Excp} {pc sp flags : Word} (h : Rep κ v)
    (hc : κ.currentProcess = some c) : Settles κ c (specify e pc sp flags) := by
  by_cases ht : κ.tags c e = true
  · rintro s rfl
    rw [specify, Program.run_bind_ok (current_ok hc), Program.run_gets_bind]
    exact Settles.guard h hc (fun hn => absurd ht hn) s rfl
  · have hact : specifyAct κ c e = none := if_neg ht
    have htame : Tame v (specifyAct κ c e) := by
      rw [hact]
      exact fun t ht => absurd ht.symm (Option.some_ne_none _)
    have hperf : Performs (fun _ => True) κ (specify e pc sp flags) (specifyAct κ c e) v :=
      specify_performs h hc htame
    rw [hact] at hperf
    exact hperf.settles h hc (Option.some_ne_none _).symm

theorem trapHandler_settles {e : Excp} {ve : Vec} (h : Rep κ v) (hc : κ.currentProcess = some c) :
    Settles κ c (trapHandler e ve) := by
  rintro s rfl
  have hcur : current.run s.start = .ok c s.start := current_ok hc
  rw [trapHandler, start_run, Program.run_bind_ok hcur, Program.run_gets_bind]
  refine Settles.guard (κ := s.start.core) h hc (fun _ => Quiet.settles h hc ?_) s.start rfl
  exact (silent_gets _).quiet.bind fun _ => (silent_setArea _ _).quiet.bind fun _ =>
    (silent_setArea _ _).quiet.bind fun _ => passUp_quiet

/-- The services that kill: `TERMINATEPROCESS`, a `SEMOP` of weight 0 and a second handler. -/
theorem serviceAct_terminate {sys a2 a3 a4 : Word} {t : Pcb}
    (h : serviceAct κ c sys a2 a3 a4 = some (.terminate t)) :
    sys = 2 ∨ sys = 3 ∧ a3.toInt = 0 ∨ ∃ e : Excp, sys = 4 + e.code := by
  unfold serviceAct at h
  split at h
  · cases h
  split at h
  · next hsys => exact Or.inl hsys
  split at h
  · next hsys =>
    unfold semAct at h
    split at h
    · cases h
    split at h
    · next hw => exact Or.inr (Or.inl ⟨hsys, hw⟩)
    split at h <;> cases h
  split at h
  · next hsys => exact Or.inr (Or.inr ⟨.sys, hsys⟩)
  split at h
  · next hsys => exact Or.inr (Or.inr ⟨.tlb, hsys⟩)
  split at h
  · next hsys => exact Or.inr (Or.inr ⟨.pgmtp, hsys⟩)
  split at h
  · cases h
  split at h <;> cases h

theorem service_settles (h : Rep κ v) (hc : κ.currentProcess = some c) (hserv : isService st)
    (huser : ¬ isUserMode st) : Settles κ c (service st.a1 st.a2 st.a3 st.a4) := by
  by_cases hkill : ∃ t, serviceAct κ c st.a1 st.a2 st.a3 st.a4 = some (.terminate t)
  · obtain ⟨t, hact⟩ := hkill
    rcases serviceAct_terminate hact with hsys | ⟨hsys, hw⟩ | ⟨e, hsys⟩
    · rw [hsys]
      exact terminateProcess_settles h hc
    · rw [hsys]
      change Settles κ c (semaphoreOperation st.a2.toNat st.a3.toInt)
      rw [hw]
      exact semaphoreOperation_settles h hc
    · rw [hsys]
      cases e with
      | sys => exact specify_settles h hc
      | tlb => exact specify_settles h hc
      | pgmtp => exact specify_settles h hc
  · apply (service_performs h hc (fun t ht => absurd ⟨t, ht⟩ hkill) fun _ => trivial).settles h hc
    intro hact
    cases serviceAct_asked hserv huser hact

theorem syscallHandler_settles (h : Rep s.core v) (hc : s.currentProcess = some c)
    (hst : s.hw.oldArea .sysbk = st) :
    Program.Triple (fun t => t = s) syscallHandler (fun _ t => Stands c t.core)
      (fun ctl t => ctl = .scheduler → Stands c t.core) (fun _ => True) := by
  rintro s rfl
  have hst' : (s.trap c).hw.oldArea .sysbk = st := hst
  have hps : (s.trap c).pS c = st := (Function.update_self ..).trans hst
  have hquiet : ∀ x : KM Unit, Quiet (fun _ => True) x → Settles (s.trap c).core c x := fun _ =>
    Quiet.settles h hc
  rw [syscallHandler, Program.run_bind_ok (syscallEnter_ok hc), Program.run_gets_bind, hst']
  cases hserv : isService st with
  | true =>
      simp only [if_true, Program.run_gets_bind, hps]
      cases huser : isUserMode st with
      | true =>
          simp only [if_true, reflectSyscall, Program.run_gets_bind, hps, run_setOldArea_bind,
            run_chargeKernel_bind]
          exact trapHandler_settles (κ := (s.trap c).core) h hc _ rfl
      | false =>
          simp only [Bool.false_eq_true, if_false]
          have hserve := service_settles (κ := (s.trap c).core) h hc hserv
            (Bool.eq_false_iff.mp huser)
          exact (hserve.bind fun _ => serviceEnd_quiet) (s.trap c) rfl
  | false =>
      simp only [Bool.false_eq_true, if_false]
      rw [passUpSyscall, Program.run_gets_bind]
      refine Settles.guard (κ := (s.trap c).core) h hc (fun _ => hquiet _ ?_) (s.trap c) rfl
      exact (silent_setArea _ _).quiet.bind fun _ => (silent_setArea _ _).quiet.bind fun _ =>
        (silent_setArea _ _).quiet.bind fun _ => passUp_quiet

end Callers

/-! ### Dispatch -/

section Dispatch

variable [Platform] {k k' : Kernel} {v : View} {c : Pcb} {e : Event}

theorem Rep.running (h : Rep k.core v) (hrun : syscallHandler.run k = .exit .scheduler k')
    (hc : k.currentProcess = some c) : Stopped k' c ↔ k'.currentProcess ≠ some c :=
  ((syscallHandler_settles h hc rfl).of_exit rfl hrun rfl).stopped

theorem Calls.keeping {f g : Face} {st : State} (h : Calls v f c st .scheduler g)
    (hc : f.currentProcess = some c) : g.Keeping c := by
  cases h with
  | served hserv huser h => exact (h.keeping (trap_keeping hc)).finish
  | ended hserv huser h =>
      obtain rfl := h.scheduler
      exact Or.inr ⟨rfl, rfl⟩
  | reflect hserv huser h =>
      obtain rfl := h.scheduler
      exact Or.inr ⟨rfl, rfl⟩
  | die => exact Or.inr ⟨rfl, rfl⟩

theorem Traps.flag {f g : Face} {x : Excp} {st : State} (h : Traps f c x st .scheduler g) :
    g.flag = .loadnext := by
  cases h
  rfl

/-- Only a system call lets its caller go on. -/
theorem Event.Ends.loadcurrent {f g : Face} (h : e.Ends v f .scheduler g) (he : e ≠ .dispatch)
    (hflag : g.flag = .loadcurrent) : ∃ hw c, e = .syscall hw ∧ f.currentProcess = some c ∧
      g.currentProcess = some c := by
  cases e with
  | dispatch => exact absurd rfl he
  | syscall hw =>
      obtain ⟨c, hc, h⟩ := h
      rcases h.keeping hc with ⟨-, hcur⟩ | ⟨hnext, -⟩
      · exact ⟨hw, c, rfl, hc, hcur⟩
      · rw [hflag] at hnext
        cases hnext
  | pgmtrap hw =>
      obtain ⟨c, -, h⟩ := h
      rw [h.flag] at hflag
      cases hflag
  | tlb hw =>
      obtain ⟨c, -, h⟩ := h
      rw [h.flag] at hflag
      cases hflag
  | interrupt hw =>
      obtain ⟨-, m, -, hm, rfl⟩ := h
      rw [show m.finish.enable.flag = m.flag by unfold Face.finish Face.enable; split <;>
        rfl] at hflag
      rw [hflag] at hm
      rcases hm with hm | hm <;> cases hm

theorem scheduler_loadcurrent (hflag : k.flag = .loadcurrent) (hc : k.currentProcess = some c) :
    ∃ k', scheduler.run k = .exit (.ldst (k'.pS c)) k' := by
  simp only [scheduler, getSTATUS, setSTATUS, Program.run_gets_bind, Program.run_modify_bind, hflag]
  obtain ⟨k', hrun, hf⟩ := loadCurrent_run (p := c) (s := { k with
    hw := { k.hw with status := Platform.statusAllIntDisable k.hw.status } }) hc
  rw [← hf] at hrun
  rw [← hflag]
  exact ⟨k', hrun⟩

/-- The flag and the running process when a handler calls the scheduler in `k'`, after the entry `e`
from `k`: a system call has stopped its caller, or the scheduler is to go on with it. -/
structure Consistent (k k' : Kernel) (e : Event) : Prop where
  resumable : Resumable k'.flag k'.currentProcess
  stopped : ∀ hw c, e = .syscall hw → k.currentProcess = some c → Stopped k' c →
    k'.flag = .loadnext ∧ k'.currentProcess = none
  served : ∀ hw c, e = .syscall hw → k.currentProcess = some c → ¬ Stopped k' c →
    k'.flag = .loadcurrent ∧ k'.currentProcess = some c
  resumes : k'.flag = .loadcurrent →
    ∃ c k'', k'.currentProcess = some c ∧ ¬ Stopped k' c ∧
      scheduler.run k' = .exit (.ldst (k''.pS c)) k''

/-- Every call of the scheduler by a handler finds `flag` and `current_process` in agreement. -/
theorem dispatch_consistent (h : Rep k.core v) (he : e ≠ .dispatch)
    (hrun : e.program.run (k.enter e) = .exit .scheduler k') : Consistent k k' e := by
  have hends := Event.ends h hrun
  have hcaller : ∀ hw c, e = .syscall hw → k.currentProcess = some c →
      k'.face.Keeping c ∧ (Stopped k' c ↔ k'.currentProcess ≠ some c) := by
    rintro hw c rfl hc
    obtain ⟨d, hd, hcall⟩ := hends
    obtain rfl : d = c := Option.some.inj (hd.symm.trans hc)
    exact ⟨hcall.keeping hc, Rep.running (k := k.enter (.syscall hw)) h hrun hc⟩
  constructor
  · exact hends.resumable he
  · intro hw c hsys hc hs
    obtain ⟨⟨-, hcur⟩ | hnext, hstop⟩ := hcaller hw c hsys hc
    · exact absurd hcur (hstop.mp hs)
    · exact hnext
  · intro hw c hsys hc hs
    obtain ⟨hgo | ⟨-, hcur⟩, hstop⟩ := hcaller hw c hsys hc
    · exact hgo
    · apply absurd (hstop.mpr _) hs
      rw [show k'.currentProcess = none from hcur]
      exact (Option.some_ne_none c).symm
  · intro hflag
    obtain ⟨hw, c, hsys, hc, hcur⟩ := hends.loadcurrent he hflag
    obtain ⟨k'', hrun'⟩ := scheduler_loadcurrent hflag hcur
    exact ⟨c, k'', hcur, fun hs => (hcaller hw c hsys hc).2.mp hs hcur, hrun'⟩

end Dispatch

section Board

attribute [local instance] uarm

/-- A process asks for its `pid`. -/
theorem dispatch_consistent_getpid : ∃ k k', k'.flag = .loadcurrent ∧
    Consistent k k' (call 11) := by
  obtain ⟨s, hs, hQ⟩ := nucleus_run (B := fun _ => True) (C := SparesReady) trivial atBoot_zero
    [.dispatch]
    (fun s => (s.step (call 11)).any fun s' => s'.ctl = .scheduler ∧ s'.kernel.flag = .loadcurrent)
    (by decide +kernel)
  obtain ⟨s', hstep, hQ⟩ := (Option.any_eq_true _ _).mp hQ
  obtain ⟨hctl, hflag⟩ := of_decide_eq_true hQ
  obtain ⟨v, hrep⟩ := nucleus_rep hs
  have hrun := (Sys.step_eq hstep).2.1
  rw [hctl] at hrun
  exact ⟨s.kernel, s'.kernel, hflag, dispatch_consistent hrep Event.noConfusion hrun⟩

end Board

end JaeOS
