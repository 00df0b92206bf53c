import JaeOS.Accounting
import JaeOS.Contexts
import JaeOS.Registrations

/-!
# Where processes go on

Whoever the scheduler loads goes on where it stopped, over whole runs: after an interrupt with the
instruction that was interrupted, after a system call with the result of the service in `a1`, after
a completed operation with the status of its device, and a new process in the state that its parent
has given it.
-/

open LinkRing LinkForest Transition

namespace JaeOS

section Continuations

variable [Platform]

/-- What a service leaves in `a1` of its caller `c`, who calls it in the state `st`, by the faces
before and after it: the pid of the process it has made, the status of the device, or the caller's
pid. -/
def Face.result (free : List Pcb) (f g : Face) (c : Pcb) (st : State) : Word :=
  if st.a1 = 1 then (free.head?.map g.pid).getD (-1)
  else if st.a1 = 10 then f.ioStatus st.a3 st.a4
  else if st.a1 = 11 then f.pid c
  else st.a1

/-- The state in which the running process `c`, which was to go on in `st`, goes on after the
entry. -/
def Event.next (k k' : Kernel) (c : Pcb) (st : State) : Event → State
  | .syscall hw => { hw.oldArea .sysbk with
      a1 := Face.result (freeList k) (k.face.enter hw) k'.face c (hw.oldArea .sysbk) }
  | .interrupt hw => { hw.oldArea .int with pc := (hw.oldArea .int).pc - 4 }
  | _ => st

def Event.newborn : Event → State
  | .syscall hw => hw.stateAt (hw.oldArea .sysbk).a2
  | _ => .zero

def noteStates (s : Sys) (e : Event) (s' : Sys) (next : Pcb → State) : Pcb → State := fun q =>
  if q ∈ freeList s.kernel then e.newborn
  else if s.kernel.currentProcess = some q then e.next s.kernel s'.kernel q (next q)
  else (next q).answered (e.status s.kernel q)

def continuations (B : Kernel → Prop) : System (Sys × (Pcb → State)) Event :=
  (nucleus B).ghost (fun s => s.kernel.pS) noteStates

section Services

variable {v : View} {f g : Face} {c q : Pcb} {st : State} {ctl : Ctl} {a : ℕ} {w : ℤ}
    {u r : Word} {hw : Hw}
  {x : Excp}

omit [Platform] in
theorem result_other (hone : st.a1 ≠ 1) (hten : st.a1 ≠ 10) (heleven : st.a1 ≠ 11)
    (free : List Pcb) :
    Face.result free f g c st = st.a1 := by
  rw [Face.result, if_neg hone, if_neg hten, if_neg heleven]

omit [Platform] in
theorem answer_state (hst : f.pS c = st) (u : Word) :
    (f.answer c u).pS c = { st with a1 := u } := by
  rw [← hst]
  exact Function.update_self ..

/-- `CREATEPROCESS` returns the pid that the new process has. -/
theorem Creates.result (h : Creates v f u r g) :
    (v.free.head?.map (g.answer c r).pid).getD (-1) = r := by
  cases h with
  | full hf =>
      rw [hf]
      rfl
  | @create p l pow hf hpow =>
      rw [hf]
      exact Function.update_self ..

theorem Creates.state (h : Creates v f u r g) (hc : c ∉ v.free) : g.pS c = f.pS c := by
  cases h with
  | full => rfl
  | @create p l pow hf hpow =>
      apply Function.update_of_ne
      rintro rfl
      exact hc (by rw [hf]; exact List.mem_cons_self)

/-- A service that returns leaves its result in the state of its caller. -/
theorem Serves.result (h : Serves v f c st none g) (hst : f.pS c = st) (hc : c ∉ v.free) :
    g.pS c = { st with a1 := Face.result v.free f g c st } := by
  have hsame (hstate : g.pS c = st) (hn : st.a1 ≠ 1 ∧ st.a1 ≠ 10 ∧ st.a1 ≠ 11) :
      g.pS c = { st with a1 := Face.result v.free f g c st } := by
    rw [result_other hn.1 hn.2.1 hn.2.2, hstate]
  have hcode {n : Word} (hs : st.a1 = n) (hn : n ≠ 1 ∧ n ≠ 10 ∧ n ≠ 11) :
      st.a1 ≠ 1 ∧ st.a1 ≠ 10 ∧ st.a1 ≠ 11 := hs ▸ hn
  cases h with
  | create hs h => rw [answer_state ((h.state hc).trans hst), Face.result, if_pos hs, h.result]
  | terminate hs =>
      refine hsame ?_ (hcode hs (by decide))
      split
      · exact hst
      · exact hst
  | operate hs h => exact hsame ((congrFun h.states c).trans hst) (hcode hs (by decide))
  | specify x hs =>
      exact hsame hst ⟨code_other hs (by decide), code_other hs (by decide),
        code_other hs (by decide)⟩
  | noTrap hs => exact hsame hst (hcode hs (by decide))
  | cputime hs => exact hsame hst (hcode hs (by decide))
  | clock hs h => exact hsame ((congrFun h.states c).trans hst) (hcode hs (by decide))
  | io hs h =>
      obtain ⟨hi, hr, hop⟩ := h
      have hten : st.a1 ≠ 1 := fun hone => absurd (hone.symm.trans hs) (by decide)
      have hdev := hop.devreg
      refine (answer_state ((congrFun hop.states c).trans hst) _).trans ?_
      rw [Face.result, if_neg hten, if_pos hs]
      refine congrArg (fun u => { st with a1 := u }) ?_
      unfold Face.ioStatus
      rw [hdev]
      rfl
  | getpid hs =>
      have hn : st.a1 ≠ 1 ∧ st.a1 ≠ 10 := by
        rw [hs]
        decide
      rw [answer_state hst, Face.result, if_neg hn.1, if_neg hn.2, if_pos hs]

/-- Who goes on by the scheduler after a system call has the result of a service. -/
theorem Calls.result (h : Calls v (f.enter hw) c (hw.oldArea .sysbk) ctl g)
    (hcur : f.currentProcess = some c)
    (hc : c ∉ v.free) (hserv : isService (hw.oldArea .sysbk))
    (huser : ¬ isUserMode (hw.oldArea .sysbk))
    (hctl : g.currentProcess = some c → ctl = .scheduler) :
    g.pS c = { hw.oldArea .sysbk with
      a1 := Face.result v.free (f.enter hw) g c (hw.oldArea .sysbk) } := by
  have htrap : ((f.enter hw).trap c).pS c = hw.oldArea .sysbk := Function.update_self ..
  -- the services that do not return load somebody or stop, but for those that kill
  have hended {o : Ctl} (h : Serves v ((f.enter hw).trap c) c (hw.oldArea .sysbk) (some o) g)
      (hgo : g.currentProcess = some c → o = .scheduler) :
      g.pS c = { hw.oldArea .sysbk with
        a1 := Face.result v.free (f.enter hw) g c (hw.oldArea .sysbk) } := by
    cases h with
    | panic => exact absurd (hgo hcur) Ctl.noConfusion
    | ioPanic => exact absurd (hgo hcur) Ctl.noConfusion
    | operate hs h =>
        obtain ⟨rfl, rfl⟩ := h.exit
        exact absurd (hgo hcur) Ctl.noConfusion
    | respecify x hs =>
        rw [result_other (code_other hs (by decide)) (code_other hs (by decide))
          (code_other hs (by decide))]
        exact htrap
    | exitTrap => exact absurd (hgo hcur) Ctl.noConfusion
    | clock hs h =>
        obtain ⟨rfl, rfl⟩ := h.exit
        exact absurd (hgo hcur) Ctl.noConfusion
  cases h with
  | panic hs => exact absurd hserv (Bool.eq_false_iff.mp hs)
  | @served m _ _ h =>
      have hresult := h.result htrap hc
      have hpid : m.finish.pid = m.pid := by
        unfold Face.finish
        split <;> rfl
      rw [finish_states, hresult]
      unfold Face.result
      rw [hpid]
      rfl
  | ended _ _ h => exact hended h hctl
  | reflect _ hu => exact absurd hu huser
  | die hs => exact absurd hserv (Bool.eq_false_iff.mp hs)
  | pass hs => exact absurd hserv (Bool.eq_false_iff.mp hs)

/-- Who takes an exception is dead, or goes on in its own handler. -/
theorem Event.Ends.excepted {e : Event} (h : e.Ends v f ctl g) (he : e.excp = some (x, st))
    (hcur : f.currentProcess = some c) (ht : f.tags c x = true) :
    g.currentProcess = some c ∧ ctl ≠ .scheduler := by
  have hpass {f' : Face} {st : State} (h : Traps f' c x st ctl g)
      (hcur' : f'.currentProcess = some c)
      (ht' : f'.tags c x = true) : g.currentProcess = some c ∧ ctl ≠ .scheduler := by
    cases h with
    | panic hn => exact absurd ht' (Bool.eq_false_iff.mp hn)
    | die hn => exact absurd ht' (Bool.eq_false_iff.mp hn)
    | pass => exact ⟨hcur', Ctl.noConfusion⟩
  cases e with
  | dispatch => cases he
  | interrupt hw => cases he
  | pgmtrap hw =>
      cases he
      obtain ⟨d, hd, h⟩ := h
      obtain rfl := Option.some.inj (hcur.symm.trans hd)
      exact hpass h hcur ht
  | tlb hw =>
      cases he
      obtain ⟨d, hd, h⟩ := h
      obtain rfl := Option.some.inj (hcur.symm.trans hd)
      exact hpass h hcur ht
  | syscall hw =>
      obtain ⟨d, hd, h⟩ := h
      obtain rfl := Option.some.inj (hcur.symm.trans hd)
      rw [Event.excp] at he
      cases h with
      | panic hserv hn =>
          rw [hserv] at he
          cases he
          exact absurd ht (Bool.eq_false_iff.mp hn)
      | served hserv huser =>
          rw [hserv, huser] at he
          cases he
      | ended hserv huser =>
          rw [hserv, huser] at he
          cases he
      | reflect hserv huser h =>
          rw [hserv, huser] at he
          cases he
          exact hpass h hcur ht
      | die hserv hn =>
          rw [hserv] at he
          cases he
          exact absurd ht (Bool.eq_false_iff.mp hn)
      | pass => exact ⟨hcur, Ctl.noConfusion⟩

/-- A new process starts in the state that it has been given. -/
theorem Serves.newborn_state {k : Option Ctl} {l : List Pcb} (h : Serves v f c st k g)
    (hone : st.a1 = 1)
    (hfree : v.free = q :: l) (hqc : q ≠ c) : g.pS q = f.hw.stateAt st.a2 := by
  have hother {n : Word} (hs : st.a1 = n) (hn : n ≠ 1) : g.pS q = f.hw.stateAt st.a2 :=
    absurd (hs.symm.trans hone) hn
  cases h with
  | panic hs => exact absurd hone hs
  | ioPanic hs => exact hother hs (by decide)
  | create hs h =>
      refine (Function.update_of_ne hqc ..).trans ?_
      cases h with
      | full hf =>
          rw [hf] at hfree
          cases hfree
      | @create p l' pow hf hpow =>
          rw [hf] at hfree
          obtain ⟨rfl, -⟩ := List.cons.inj hfree
          exact Function.update_self ..
  | terminate hs => exact hother hs (by decide)
  | operate hs => exact hother hs (by decide)
  | specify e hs => exact hother hs Excp.code_ne
  | respecify e hs => exact hother hs Excp.code_ne
  | exitTrap e hs => exact hother hs (by decide)
  | noTrap hs => exact hother hs (by decide)
  | cputime hs => exact hother hs (by decide)
  | clock hs => exact hother hs (by decide)
  | io hs => exact hother hs (by decide)
  | getpid hs => exact hother hs (by decide)

theorem Event.Ends.newborn_state {e : Event} {l : List Pcb} (h : e.Ends v f ctl g) (hev : e.creates)
    (hfree : v.free = q :: l) (hq : f.currentProcess ≠ some q) : g.pS q = e.newborn := by
  cases e with
  | syscall hw =>
      obtain ⟨c, hcur, h⟩ := h
      obtain ⟨hserv, huser, hone⟩ := hev
      have hqc : q ≠ c := fun he => hq (he ▸ hcur)
      cases h with
      | panic hs => exact absurd hserv (Bool.eq_false_iff.mp hs)
      | served _ _ h =>
          rw [finish_states]
          exact h.newborn_state hone hfree hqc
      | ended _ _ h => exact h.newborn_state hone hfree hqc
      | reflect _ hu => exact absurd hu huser
      | die hs => exact absurd hserv (Bool.eq_false_iff.mp hs)
      | pass hs => exact absurd hserv (Bool.eq_false_iff.mp hs)
  | dispatch => cases hev
  | pgmtrap hw => cases hev
  | tlb hw => cases hev
  | interrupt hw => cases hev

theorem Dispatches.ctl_ne (h : Dispatches v f ctl g) : ctl ≠ .scheduler := by
  cases h with
  | resume => exact Ctl.noConfusion
  | next _ h => cases h <;> exact Ctl.noConfusion

/-- Only who waits is given a status. -/
theorem statusFor_none {value : ℕ → ℤ} {queue : ℕ → List Pcb} (l : List (ℕ × Word))
    (hq : ∀ a, q ∉ queue a) :
    statusFor value queue l q = none := by
  have hfind : (l.find? fun x => value (semAddr x.1) < 1 ∧ (queue (semAddr x.1)).head? = some q) =
      none := by
    rw [List.find?_eq_none]
    intro x _ hx
    exact hq _ (List.mem_of_head? (of_decide_eq_true hx).2)
  rw [statusFor, hfind]
  rfl

end Services

section Runs

variable {B : Kernel → Prop} {s s' : Sys} {e : Event} {x : Sys × (Pcb → State)} {next : Pcb → State}
    {q c : Pcb}
  {st : State} {v : View} {kind : Excp}

/-- Who is alive and not on the processor has the state saved in which it is to go on. -/
def Continues (s : Sys) (next : Pcb → State) : Prop := ∀ q, s.kernel.Lives q →
  (s.kernel.currentProcess = some q → s.ctl = .scheduler) → s.kernel.pS q = next q

/-- The scheduler runs when a handler has called it. -/
theorem Sys.dispatch_ctl (h : s.step .dispatch = some s') : s.ctl = .scheduler := by
  have henabled := (Sys.step_eq h).1
  revert henabled
  cases s.ctl with
  | scheduler => exact fun _ => rfl
  | ldst st => exact fun he => absurd he Bool.false_ne_true
  | wait => exact fun he => absurd he Bool.false_ne_true
  | halt => exact fun he => absurd he Bool.false_ne_true
  | panic => exact fun he => absurd he Bool.false_ne_true

/-- Whose exception is not a service does not come back to the scheduler. -/
theorem Sys.step_excepted (h : Rep s.kernel.core v) (hs : SparesReady s e)
    (hstep : s.step e = some s')
    (he : e.excp = some (kind, st)) (hcur : s.kernel.currentProcess = some c)
    (hlives : s'.kernel.Lives c)
    (hctl : s'.kernel.currentProcess = some c → s'.ctl = .scheduler) : False := by
  cases ht : s.kernel.tags c kind with
  | true =>
      obtain ⟨hcur', hne⟩ := (Sys.step_ends h hstep).excepted he hcur ht
      exact hne (hctl hcur')
  | false =>
      exact Sys.step_kills h hs hstep (Event.act_unhandled he hcur ht) List.mem_cons_self hlives

/-- Where the running process goes on. -/
theorem Continues.running (h : Continues s next) (hrep : Rep s.kernel.core v) (hs : SparesReady s e)
    (hstep : s.step e = some s') (hcur : s.kernel.currentProcess = some q)
    (hlives : s'.kernel.Lives q)
    (hctl : s'.kernel.currentProcess = some q → s'.ctl = .scheduler) :
    s'.kernel.pS q = e.next s.kernel s'.kernel q (next q) := by
  have hends := Sys.step_ends hrep hstep
  have halive : s.kernel.Lives q := hrep.running_alive hcur
  have hfree : q ∉ v.free := by
    rw [← hrep.freeList_eq]
    exact halive
  obtain ⟨-, hrun, -⟩ := Sys.step_eq hstep
  cases e with
  | dispatch =>
      have hstate : s'.kernel.face.pS q = s.kernel.face.pS q :=
        Dispatches.states hends fun hc => Dispatches.ctl_ne hends (hctl hc)
      exact hstate.trans (h q halive fun _ => Sys.dispatch_ctl hstep)
  | syscall hw =>
      by_cases hserv : isService (hw.oldArea .sysbk) = true
      · by_cases huser : isUserMode (hw.oldArea .sysbk) = true
        · exact (Sys.step_excepted hrep hs hstep (by rw [Event.excp, if_pos hserv, if_pos huser])
            hcur hlives
            hctl).elim
        · obtain ⟨c, hc, hcalls⟩ := hends
          obtain rfl := Option.some.inj (hcur.symm.trans hc)
          have hresult := hcalls.result hcur hfree hserv huser hctl
          rw [← hrep.freeList_eq] at hresult
          exact hresult
      · exact (Sys.step_excepted hrep hs hstep (by rw [Event.excp, if_neg hserv]) hcur hlives
          hctl).elim
  | pgmtrap hw => exact (Sys.step_excepted hrep hs hstep rfl hcur hlives hctl).elim
  | tlb hw => exact (Sys.step_excepted hrep hs hstep rfl hcur hlives hctl).elim
  | interrupt hw =>
      obtain ⟨v', -, -, hstates, -⟩ :=
        interruptHandler_states (s := s.kernel.enter (.interrupt hw)) hrep hrun
      have hqueue : ∀ a, q ∉ v.queue a := by
        intro a ha
        rw [hrep.orderly.mem_queue, (hrep.off q).mpr hcur] at ha
        cases ha
      have hint : (s.kernel.enter (.interrupt hw)).face.interrupt.pS q =
          { hw.oldArea .int with pc := (hw.oldArea .int).pc - 4 } := by
        have hface : (s.kernel.enter (.interrupt hw)).face.currentProcess = some q := hcur
        rw [Face.interrupt, hface]
        exact Function.update_self ..
      rw [hstates q, statusFor_none _ hqueue, hint]
      rfl

/-- Where the other processes go on. -/
theorem Continues.others (h : Continues s next) (hrep : Rep s.kernel.core v) (hs : SparesReady s e)
    (hstep : s.step e = some s') (hcur : s.kernel.currentProcess ≠ some q)
    (halive : s.kernel.Lives q)
    (hlives : s'.kernel.Lives q) (hctl : s'.kernel.currentProcess = some q → s'.ctl = .scheduler) :
    s'.kernel.pS q = (next q).answered (e.status s.kernel q) := by
  have hold : s.kernel.pS q = next q := h q halive fun hc => absurd hc hcur
  rw [← hold]
  by_cases he : e = .dispatch
  · subst he
    have hends : Dispatches v s.kernel.face s'.ctl s'.kernel.face := Sys.step_ends hrep hstep
    exact hends.states fun hc => hends.ctl_ne (hctl hc)
  · have hplace : v.place q ≠ .free := (hrep.mem_tree q).mp (hrep.lives_iff.mp halive)
    have hkilled : ∀ t ∈ e.victim s.kernel, q ∉ killed s.kernel t := by
      intro t ht hq
      unfold Event.victim at ht
      split at ht
      · next t' hact =>
        obtain rfl := Option.some.inj ht
        exact Sys.step_kills hrep hs hstep hact hq hlives
      · cases ht
    obtain ⟨-, -, -, -, hrecord⟩ := Sys.step_spares hrep hs he hstep hplace hcur hkilled
    exact congrArg Record.state hrecord

theorem Continues.step (h : Continues s next) (hrep : Rep s.kernel.core v) (hs : SparesReady s e)
    (hstep : s.step e = some s') : Continues s' (noteStates s e s' next) := by
  intro q hlives hctl
  obtain ⟨v', hrep', hborn⟩ := Sys.step_alive hrep hs hstep
  unfold noteStates
  by_cases hnew : q ∈ freeList s.kernel
  · rw [if_pos hnew]
    have hplace' : v'.place q ≠ .free := (hrep'.mem_tree q).mp (hrep'.lives_iff.mp hlives)
    rcases hborn q hplace' with hold | ⟨hact, l, hfree⟩
    · exact absurd (hrep.mem_freeList.mp hnew) hold
    · exact (Sys.step_ends hrep hstep).newborn_state (Event.act_create hact) hfree fun hc =>
        hrep.running_alive hc hnew
  · rw [if_neg hnew]
    split
    · next hcur => exact h.running hrep hs hstep hcur hlives hctl
    · next hcur => exact h.others hrep hs hstep hcur hnew hlives hctl

theorem nucleus_continues (h : Reach (continuations B) (fun x e => SparesReady x.1 e) x) :
    Continues x.1 x.2 := by
  induction h with
  | @init x hinit =>
      obtain ⟨-, hghost⟩ := hinit
      rw [hghost]
      exact fun q _ _ => rfl
  | step h hs hstep ih =>
      obtain ⟨hstep, hghost⟩ := hstep
      obtain ⟨v, hrep⟩ := nucleus_rep h.of_ghost
      rw [hghost]
      exact ih.step hrep hs hstep

/-- Whoever the scheduler loads is alive and goes on where it is to go on. -/
theorem services_returned (h : Reach (continuations B) (fun x e => SparesReady x.1 e) x)
    (hstep : x.1.step .dispatch = some s') (hctl : s'.ctl = .ldst st) :
    ∃ q, s'.kernel.currentProcess = some q ∧ x.1.kernel.Lives q ∧ st = (x.2 q).enabled := by
  obtain ⟨v, hrep⟩ := nucleus_rep h.of_ghost
  have hends : Dispatches v x.1.kernel.face s'.ctl s'.kernel.face := Sys.step_ends hrep hstep
  rw [hctl] at hends
  obtain ⟨q, hcur, hfrom, hst⟩ := hends.loaded
  have hlives : x.1.kernel.Lives q := by
    rcases hfrom with hc | hready
    · exact hrep.running_alive hc
    · rw [hrep.lives_iff, hrep.mem_tree, (hrep.ready.mem q).mp hready]
      exact Place.noConfusion
  refine ⟨q, hcur, hlives, ?_⟩
  rw [← nucleus_continues h q hlives fun _ => Sys.dispatch_ctl hstep]
  exact hst

end Runs

end Continuations

section Board

attribute [local instance] uarm

def toldState : State :=
  { State.zero with a1 := 5, a2 := 0x4102, a3 := intTerminal, cpsr := 0x1F, cp15Cause := 8 }

/-- The first process gives a command to a terminal and goes on, when it is done, with its
status. -/
theorem services_returned_status : ∃ (x : Sys × (Pcb → State))
    (s' : Sys), x.1.step .dispatch = some s' ∧
    s'.ctl = .ldst toldState ∧ ∃ q, s'.kernel.currentProcess = some q ∧
    toldState = (x.2 q).enabled := by
  obtain ⟨x, hx, hQ⟩ := ghost_run (fun s => s.kernel.pS) noteStates (B := fun _ => True)
    (D := fun x e => SparesReady x.1 e) (k := Kernel.zero) trivial atBoot_zero
    [.dispatch, call 10 0x4102 intTerminal, .dispatch, completion intTerminal 0]
    (fun x => (x.1.step .dispatch).any fun s' => s'.ctl = .ldst toldState) (by decide +kernel)
  obtain ⟨s', hstep, hctl⟩ := (Option.any_eq_true _ _).mp hQ
  have hloaded : s'.ctl = .ldst toldState := of_decide_eq_true hctl
  obtain ⟨q, hcur, -, hgo⟩ := services_returned hx hstep hloaded
  exact ⟨x, s', hstep, hloaded, q, hcur, hgo⟩

end Board

end JaeOS
