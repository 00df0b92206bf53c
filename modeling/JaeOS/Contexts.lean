import JaeOS.Board
import JaeOS.Interleaving
import JaeOS.Resumption

/-!
# Saved states and interrupts

`interrupt_handler` stores the interrupted state in the `p_s` of `current_process`, whoever has been
interrupted. If that is the nucleus itself, on its way to the scheduler or in `io_devop`, while a
process is running, the state that the process had is lost, and what is loaded for it later is a
state of the nucleus. As long as the nucleus is only interrupted while nobody is running, whoever is
loaded goes on in a state of its own.
-/

open LinkRing LinkForest Transition

namespace JaeOS

/-- The state that a process had when it last entered the nucleus. Its register `a1` may be replaced
if that was a system call. -/
structure Saved where
  state : State
  called : Bool

def Saved.Shows (o : Saved) (st : State) : Prop :=
  ∃ u, st = { o.state with a1 := u } ∧ (o.called = false → u = o.state.a1)

theorem Saved.shows_state (o : Saved) : o.Shows o.state := ⟨o.state.a1, rfl, fun _ => rfl⟩

theorem Saved.Shows.answer {o : Saved} {st : State} {u : Word} (h : o.Shows st)
    (hc : o.called = true) :
    o.Shows { st with a1 := u } := by
  obtain ⟨w, rfl, -⟩ := h
  refine ⟨u, rfl, fun hn => ?_⟩
  rw [hc] at hn
  cases hn

def Event.saved (e : Event) (o : Saved) : Saved :=
  match e with
  | .dispatch => o
  | .syscall hw => ⟨hw.oldArea .sysbk, true⟩
  | .pgmtrap hw => ⟨hw.oldArea .pgmtrap, false⟩
  | .tlb hw => ⟨hw.oldArea .tlb, false⟩
  | .interrupt hw => ⟨{ hw.oldArea .int with pc := (hw.oldArea .int).pc - 4 }, false⟩

/-- `own p` is the state that `p` had at its last entry, or that it was created in. -/
def Machine.saved (m : Machine) (i : Input) (m' : Machine) (own : Pcb → Saved) : Pcb → Saved :=
  match i, m.phase with
  | .entry e, .ctl _ => fun p =>
    if m.kernel.currentProcess = some p then e.saved (own p)
    else if p ∈ freeList m.kernel then ⟨m'.kernel.pS p, false⟩
    else own p
  | _, _ => own

section Runs

variable [Platform]

def contexts (B : Kernel → Prop) : Transition.System (Machine × (Pcb → Saved)) Input :=
  (nested B).ghost (fun m p => ⟨m.kernel.pS p, false⟩) Machine.saved

/-- Whoever the scheduler is about to load goes on in the state it had when it last entered the
nucleus, with interrupts enabled. -/
def LoadsOwn (x : Machine × (Pcb → Saved)) : Prop :=
  (x.1.phase = .ctl .scheduler ∨ x.1.phase = .code .scheduler) →
    ∀ st k, scheduler.run x.1.kernel = .exit (.ldst st) k →
      ∃ p s, k.currentProcess = some p ∧ x.1.context p = none ∧ (x.2 p).Shows s ∧
        st = { s with cpsr := Platform.statusAllIntEnable s.cpsr }

/-- Nobody is killed who has a ready descendant, and the nucleus is interrupted only while nobody is
running. -/
def Machine.Careful (m : Machine) : Input → Prop
  | .go _ => True
  | .entry e => SparesReady ⟨m.kernel, .scheduler, fun _ => []⟩ e ∧
      (m.phase.point = none ∨ m.kernel.currentProcess = none)

instance {m : Machine} : (i : Input) → Decidable (m.Careful i)
  | .go _ => inferInstanceAs (Decidable True)
  | .entry _ => inferInstanceAs (Decidable (_ ∧ _))

/-! ### Places -/

section Places

variable {v v' : View} {p : Pcb} {a : ℕ} {act : Act} {acts : List Act} {s s' : Sys} {e : Event}

/-- Only `P` blocks, and only who is running. -/
theorem Move.blocked (hm : Move act v v') (hp : v'.place p = .blocked a) :
    v.place p = .blocked a ∨ v.place p = .off ∧ ∃ w, act = .passeren a w := by
  have hwake : ∀ b w, (v.verhogen b w).place p = .blocked a → v.place p = .blocked a := by
    intro b w
    rw [verhogen_place]
    split
    · exact fun h => Place.noConfusion h
    · exact id
  cases hm with
  | full => exact Or.inl hp
  | create hd hf =>
      rw [create_place] at hp
      split at hp
      · cases hp
      · exact Or.inl hp
  | terminate ht hready =>
      change (v.killAll _).place p = .blocked a at hp
      rw [killAll_place] at hp
      split at hp
      · cases hp
      · exact Or.inl hp
  | pass => exact Or.inl hp
  | @block _ b w d hw hi hb hd =>
      change Function.update v.place d (.blocked b) p = .blocked a at hp
      rw [Function.update_apply] at hp
      split at hp
      · next hpd =>
        rw [hpd, Place.blocked.inj hp]
        exact Or.inr ⟨hd, w, rfl⟩
      · exact Or.inl hp
  | verhogen => exact Or.inl (hwake _ _ hp)
  | noSignal => exact Or.inl hp
  | signal => exact Or.inl (hwake _ _ hp)
  | requeue hd =>
      rw [toReady_place] at hp
      split at hp
      · cases hp
      · exact Or.inl hp
  | @load _ q l hr =>
      change Function.update v.place q .off p = .blocked a at hp
      rw [Function.update_apply] at hp
      split at hp
      · cases hp
      · exact Or.inl hp

theorem Steps.blocked (h : Steps Move acts v v') (hacts : ∀ act ∈ acts, ∀ w, act ≠ .passeren a w)
    (hp : v'.place p = .blocked a) : v.place p = .blocked a := by
  induction h with
  | nil => exact hp
  | cons hm hs ih =>
      rcases hm.blocked (ih (fun act ha => hacts act (List.mem_cons_of_mem _ ha)) hp) with hv | ⟨-,
        w, hact⟩
      · exact hv
      · exact absurd hact (hacts _ List.mem_cons_self w)

theorem Sys.step_of_run {c ctl : Ctl} {k k' : Kernel} (henabled : e.enabled c = true)
    (hrun : e.program.run (k.enter e) = .exit ctl k') :
    Sys.step ⟨k, c, fun _ => []⟩ e = some ⟨k', ctl, e.issue k fun _ => []⟩ := by
  rw [Sys.step, if_pos henabled, hrun]

/-- After an entry, whoever is alive was so before or is new, and whoever is blocked was blocked
before or has made a system call. -/
theorem Sys.step_places (h : Rep s.kernel.core v) (hs : SparesReady s e)
    (hstep : s.step e = some s') :
    ∃ v', Rep s'.kernel.core v' ∧
      (∀ p, v'.place p ≠ .free → v.place p ≠ .free ∨ e.act s.kernel = some .create) ∧
      ∀ p a, v'.place p = .blocked a → v.place p = .blocked a ∨
        s.kernel.currentProcess = some p ∧ ∃ hw, e = .syscall hw := by
  obtain ⟨acts, v', hacts, hsteps, hrep'⟩ := Sys.step_refines h hs hstep
  obtain ⟨v₁, hrep₁, halive⟩ := Sys.step_alive h hs hstep
  refine ⟨v', hrep', ?_, ?_⟩
  · intro p hp
    have hfree : v₁.place p ≠ .free := by
      rw [Ne, ← hrep'.lists.mem_free, ← hrep'.freeList_eq] at hp
      rwa [Ne, ← hrep₁.lists.mem_free, ← hrep₁.freeList_eq]
    rcases halive p hfree with hp | ⟨hact, -⟩
    · exact Or.inl hp
    · exact Or.inr hact
  intro p a hp
  rcases Event.acts_cases hacts with rfl | hinternal
  · cases hact : e.act s.kernel with
    | none =>
        rw [hact] at hsteps
        obtain rfl := steps_nil.mp hsteps
        exact Or.inl hp
    | some act =>
        rw [hact] at hsteps
        rcases (steps_single.mp hsteps).blocked hp with hv | ⟨hoff, w, rfl⟩
        · exact Or.inl hv
        · rcases Event.act_asked hact with ⟨t, ht⟩ | ⟨hw, c, rfl, -, -⟩
          · cases ht
          · exact Or.inr ⟨(h.off p).mp hoff, hw, rfl⟩
  · left
    apply Steps.blocked hsteps _ hp
    rintro act hact w rfl
    exact hinternal _ hact

theorem trap_act {c : Pcb} {k : Kernel} {hw : Hw} (he : e = .pgmtrap hw ∨ e = .tlb hw)
    (hc : k.currentProcess = some c) (hact : e.act k = some act) : act = .terminate c := by
  rcases he with rfl | rfl
  · rw [Event.act, hc] at hact
    exact trapAct_eq hact
  · rw [Event.act, hc] at hact
    exact trapAct_eq hact

/-- Who takes a trap goes on running or dies. -/
theorem Sys.step_trap {c : Pcb} {hw : Hw} (h : Rep s.kernel.core v) (hs : SparesReady s e)
    (hstep : s.step e = some s') (he : e = .pgmtrap hw ∨ e = .tlb hw)
    (hc : s.kernel.currentProcess = some c) :
    s'.kernel.currentProcess = some c ∨ c ∈ freeList s'.kernel := by
  obtain ⟨acts, v', hacts, hsteps, hrep'⟩ := Sys.step_refines h hs hstep
  have hacts : acts = (e.act s.kernel).toList := by
    rcases he with rfl | rfl
    · exact hacts
    · exact hacts
  rw [hrep'.freeList_eq, hrep'.lists.mem_free, ← core_currentProcess, ← hrep'.off]
  cases hact : e.act s.kernel with
  | none =>
      rw [hacts, hact] at hsteps
      obtain rfl := steps_nil.mp hsteps
      exact Or.inl (h.current_off hc)
  | some act =>
      obtain rfl := trap_act he hc hact
      rw [hacts, hact] at hsteps
      cases steps_single.mp hsteps with
      | @terminate _ _ ks ht hready =>
          right
          change (v.killAll (ks.postorder ++ [c])).place c = .free
          rw [killAll_place, if_pos (List.mem_append_right _ (List.mem_singleton_self c))]

end Places

/-! ### What handlers do to the saved states -/

section States

variable {f g : Face} {v : View} {c q : Pcb} {a : ℕ} {w : ℤ} {st : State} {e : Excp} {ctl : Ctl}
    {o : Option Ctl}
  {u r : Word}

theorem Operates.states (h : Operates v f c a w o g) : g.pS = f.pS := by
  cases h <;> rfl

theorem Traps.states (h : Traps f c e st ctl g) : g.pS = f.pS := by
  cases h <;> rfl

omit [Platform] in
theorem finish_states : f.finish.pS = f.pS := by
  unfold Face.finish
  split <;> rfl

/-- A service changes `a1` at most in the state of its caller. -/
theorem Serves.states (h : Serves v f c st o g) (hc : c ∉ v.free) :
    ∃ u, g.pS c = { f.pS c with a1 := u } := by
  have hsame : ∀ {g' : Face}, g'.pS = f.pS → ∃ u, g'.pS c = { f.pS c with a1 := u } := by
    intro g' hg
    exact ⟨(f.pS c).a1, congrFun hg c⟩
  have hanswer : ∀ {g' : Face} {r : Word}, g'.pS c = f.pS c →
      ∃ u, (g'.answer c r).pS c = { f.pS c with a1 := u } := by
    intro g' r hg
    refine ⟨r, (Function.update_self ..).trans ?_⟩
    rw [hg]
  cases h with
  | panic => exact hsame rfl
  | ioPanic => exact hsame rfl
  | create hsys h =>
      apply hanswer
      cases h with
      | full => rfl
      | create hf =>
          apply Function.update_of_ne
          rintro rfl
          rw [hf] at hc
          exact hc List.mem_cons_self
  | terminate =>
      split
      · exact hsame rfl
      · exact hsame rfl
  | operate hsys h => exact hsame h.states
  | specify => exact hsame rfl
  | respecify => exact hsame rfl
  | exitTrap => exact hsame rfl
  | noTrap => exact hsame rfl
  | cputime => exact hsame rfl
  | clock hsys h => exact hsame h.states
  | io hsys h =>
      obtain ⟨-, -, hop⟩ := h
      exact hanswer (congrFun hop.states c)
  | getpid => exact hanswer rfl

/-- The state in which a process makes a system call is kept but for `a1`. -/
theorem Calls.states (h : Calls v f c st ctl g) (hst : f.hw.oldArea .sysbk = st) (hc : c ∉ v.free) :
    ∃ u, g.pS c = { st with a1 := u } := by
  have htrap : (f.trap c).pS c = st := (Function.update_self ..).trans hst
  have hserves : ∀ {o : Option Ctl} {g' : Face}, Serves v (f.trap c) c st o g' →
      ∃ u, g'.pS c = { st with a1 := u } := by
    intro o g' h
    obtain ⟨u, hu⟩ := h.states hc
    exact ⟨u, by rw [hu, htrap]⟩
  cases h with
  | panic => exact ⟨st.a1, htrap⟩
  | served hserv huser h =>
      rw [finish_states]
      exact hserves h
  | ended hserv huser h => exact hserves h
  | reflect hserv huser h =>
      rw [h.states]
      exact ⟨st.a1, htrap⟩
  | die => exact ⟨st.a1, htrap⟩
  | pass => exact ⟨st.a1, htrap⟩

omit [Platform] in
theorem prepare_states : f.prepare.pS = f.pS := by
  have hrequeue : f.requeue.pS = f.pS := by
    unfold Face.requeue
    split <;> rfl
  rw [← hrequeue]
  unfold Face.prepare Face.arm
  split <;> rfl

theorem schedule_states : f.schedule.pS = f.pS := by
  unfold Face.schedule
  split <;> rfl

def State.enabled (st : State) : State := { st with cpsr := Platform.statusAllIntEnable st.cpsr }

/-- Who is loaded was running or ready. -/
theorem Dispatches.loaded (h : Dispatches v f (.ldst st) g) : ∃ p, g.currentProcess = some p ∧
    (f.currentProcess = some p ∨ p ∈ v.ready) ∧ st = (f.pS p).enabled := by
  cases h with
  | @resume c hflag hc => exact ⟨c, hc, Or.inl hc, Function.update_self ..⟩
  | next hflag h =>
      cases h with
      | @load p l hr =>
          have hp : p ∈ v.ready ++ f.currentProcess.toList := by
            rw [← schedule_currentProcess, hr]
            exact List.mem_cons_self
          have hstate : f.schedule.prepare.pS = f.pS := prepare_states.trans schedule_states
          refine ⟨p, rfl, ?_, ?_⟩
          · rw [List.mem_append, Option.mem_toList] at hp
            exact hp.symm
          · rw [← hstate]
            exact Function.update_self ..

/-- Only the state of who is loaded changes. -/
theorem Dispatches.states (h : Dispatches v f ctl g) (hq : g.currentProcess ≠ some q) :
    g.pS q = f.pS q := by
  cases h with
  | @resume c hflag hc =>
      apply Function.update_of_ne
      rintro rfl
      exact hq hc
  | next hflag h =>
      have hstate : f.schedule.prepare.pS q = f.pS q :=
        congrFun (prepare_states.trans schedule_states) q
      cases h with
      | @load p l hr =>
          apply (Function.update_of_ne _ ..).trans hstate
          rintro rfl
          exact hq rfl
      | wait => exact hstate
      | halt => exact hstate
      | panic => exact hstate

end States

/-! ### Kernels whose processes can go on -/

/-- Who is not running has kept its state, and whoever is blocked has made a system call. -/
structure Loose (k : Kernel) (own : Pcb → Saved) (v : View) : Prop where
  rep : Rep k.core v
  shows : ∀ p, v.place p ≠ .free → k.currentProcess ≠ some p → (own p).Shows (k.pS p)
  called : ∀ p a, v.place p = .blocked a → (own p).called = true

structure Kept (k : Kernel) (own : Pcb → Saved) (v : View) : Prop extends Loose k own v where
  running : ∀ p, k.currentProcess = some p → (own p).Shows (k.pS p)

structure PastP (r : IoCall) (k : Kernel) (own : Pcb → Saved) (v : View) :
    Prop extends Kept k own v where
  called_caller : (own r.caller).called = true
  caller : k.currentProcess = none ∨ k.currentProcess = some r.caller

section Invariant

variable {k k' : Kernel} {own own' : Pcb → Saved} {v v' : View} {r : IoCall} {p c : Pcb}
    {ctl c' : Ctl} {e : Event}
  {hw : Hw} {s s' : Sys}

omit [Platform] in
theorem Kept.alive (h : Kept k own v) (hp : v.place p ≠ .free) : (own p).Shows (k.pS p) := by
  by_cases hc : k.currentProcess = some p
  · exact h.running p hc
  · exact h.shows p hp hc

omit [Platform] in
theorem Loose.congr (h : Loose k own v) (hcore : k'.core = k.core) (hpS : k'.pS = k.pS) :
    Loose k' own v where
  rep := h.rep.congr hcore
  shows p hp hc := by
    rw [hpS]
    apply h.shows p hp
    rwa [← core_currentProcess, ← hcore]
  called := h.called

omit [Platform] in
theorem Kept.congr (h : Kept k own v) (hcore : k'.core = k.core) (hpS : k'.pS = k.pS) :
    Kept k' own v where
  toLoose := h.toLoose.congr hcore hpS
  running p hc := by
    rw [hpS]
    apply h.running p
    rwa [← core_currentProcess, ← hcore]

omit [Platform] in
theorem PastP.congr (h : PastP r k own v) (hcore : k'.core = k.core) (hpS : k'.pS = k.pS) :
    PastP r k' own v where
  toKept := h.toKept.congr hcore hpS
  called_caller := h.called_caller
  caller := by
    rw [← core_currentProcess, hcore]
    exact h.caller

omit [Platform] in
/-- The caller gets the result. -/
theorem PastP.answer {u : Word} (h : PastP r k own v) : PastP r (k.answer r.caller u) own v := by
  have hshows : ∀ p, (own p).Shows (k.pS p) → (own p).Shows ((k.answer r.caller u).pS p) := by
    intro p hp
    change (own p).Shows (Function.update k.pS r.caller { k.pS r.caller with a1 := u } p)
    by_cases hc : p = r.caller
    · subst hc
      rw [Function.update_self]
      exact hp.answer h.called_caller
    · rwa [Function.update_of_ne hc]
  exact ⟨⟨⟨h.rep.congr rfl, fun p hp hc => hshows p (h.shows p hp hc), h.called⟩,
    fun p hc => hshows p (h.running p hc)⟩, h.called_caller, h.caller⟩

theorem Kept.schedule (h : Kept k own v) (hrun : scheduler.run k = .exit ctl k') :
    ∃ v', Loose k' own v' := by
  have hstep := Sys.step_of_run (e := .dispatch) (c := .scheduler) rfl hrun
  have hspares : SparesReady ⟨k, .scheduler, fun _ => []⟩ .dispatch := by
    intro t ht
    cases ht
  obtain ⟨v', hrep', halive, hblocked⟩ := Sys.step_places h.rep hspares hstep
  have hends : Dispatches v k.face ctl k'.face := Sys.step_ends h.rep hstep
  refine ⟨v', hrep', ?_, ?_⟩
  · intro p hp hc
    have hstate : k'.pS p = k.pS p := hends.states hc
    rw [hstate]
    apply h.alive
    rcases halive p hp with hp | hact
    · exact hp
    · cases hact
  · intro p a hp
    rcases hblocked p a hp with hp | ⟨-, hw, he⟩
    · exact h.called p a hp
    · cases he

/-- A status is for who waits. -/
theorem statusFor_waits {value : ℕ → ℤ} {queue : ℕ → List Pcb} {l : List (ℕ × Word)} {u : Word}
    (h : statusFor value queue l p = some u) : ∃ a, p ∈ queue a := by
  obtain ⟨x, hx, -⟩ := Option.map_eq_some_iff.mp h
  have hfound := List.find?_some hx
  exact ⟨_, List.mem_of_mem_head? (of_decide_eq_true hfound).2⟩

/-- An interrupt that does not come from the nucleus itself while somebody is running. -/
theorem Loose.interrupt (h : Loose k own v)
    (hown : ∀ p, v.place p ≠ .free →
      own' p = if k.currentProcess = some p then (Event.interrupt hw).saved (own p) else own p)
    (hrun : interruptHandler.run { k with hw := hw } = .exit ctl k') :
    ctl = .scheduler ∧ ∃ v', Kept k' own' v' := by
  have hrep : Rep ({ k with hw := hw } : Kernel).core v := h.rep
  refine ⟨((interruptHandler_ends hrep).of_exit rfl hrun).1, ?_⟩
  obtain ⟨v', hrep', hwakes, hstates, -⟩ := interruptHandler_states hrep hrun
  have halive : ∀ p, v'.place p ≠ .free → v.place p ≠ .free := by
    intro p hp
    rcases hwakes.moved p with ⟨hplace, -⟩ | ⟨-, a, -, hblocked⟩
    · rwa [← hplace]
    · rw [hblocked]
      exact Place.noConfusion
  have hshows : ∀ p, v'.place p ≠ .free → (own' p).Shows (k'.pS p) := by
    intro p hp
    rw [hstates p, hown p (halive p hp)]
    by_cases hc : k.currentProcess = some p
    · have hoff : v.place p = .off := h.rep.current_off hc
      have hnone : statusFor v.value v.queue (reports hw) p = none := by
        rw [Option.eq_none_iff_forall_ne_some]
        intro u hu
        obtain ⟨a, ha⟩ := statusFor_waits hu
        rw [(h.rep.lists.mem_queue p a).mp ha] at hoff
        cases hoff
      have hstate : ({ k with hw := hw } : Kernel).face.interrupt.pS p =
          { hw.oldArea .int with pc := (hw.oldArea .int).pc - 4 } := by
        rw [Face.interrupt, show ({ k with hw := hw } : Kernel).face.currentProcess =
          some p from hc]
        exact Function.update_self ..
      rw [if_pos hc, hstate, hnone]
      exact Saved.shows_state _
    · have hstate : ({ k with hw := hw } : Kernel).face.interrupt.pS p = k.pS p :=
        congrArg Record.state (record_interrupt (f := ({ k with hw := hw } : Kernel).face) hc)
      have hkept := h.shows p (halive p hp) hc
      rw [if_neg hc, hstate]
      cases hstatus : statusFor v.value v.queue (reports hw) p with
      | none => exact hkept
      | some u =>
          obtain ⟨a, ha⟩ := statusFor_waits hstatus
          exact hkept.answer (h.called p a ((h.rep.lists.mem_queue p a).mp ha))
  refine ⟨v', ⟨hrep', fun p hp _ => hshows p hp, ?_⟩, ?_⟩
  · intro p a hp
    have hblocked := hwakes.blocked hp
    have hc : k.currentProcess ≠ some p := by
      intro hc
      rw [h.rep.current_off hc] at hblocked
      cases hblocked
    rw [hown p (by rw [hblocked]; exact Place.noConfusion), if_neg hc]
    exact h.called p a hblocked
  · intro p hc
    apply hshows p
    rw [hrep'.current_off hc]
    exact Place.noConfusion

/-- A process enters the nucleus by itself. -/
theorem Loose.entry (h : Loose k own v) (hs : SparesReady ⟨k, .scheduler, fun _ => []⟩ e)
    (he : ∀ hw, e ≠ .interrupt hw) (henabled : e.enabled c' = true) (hdispatch : e ≠ .dispatch)
    (hown : ∀ p, own' p = if k.currentProcess = some p then e.saved (own p)
      else if p ∈ freeList k then ⟨k'.pS p, false⟩ else own p)
    (hrun : e.program.run (k.enter e) = .exit ctl k') :
    ∃ v', Loose k' own' v' ∧ (ctl = .scheduler → Kept k' own' v') := by
  have hstep := Sys.step_of_run henabled hrun
  have hs : SparesReady ⟨k, c', fun _ => []⟩ e := hs
  have hends := Sys.step_ends h.rep hstep
  obtain ⟨v', hrep', -, hblocked⟩ := Sys.step_places h.rep hs hstep
  have hfree : ∀ p, p ∈ freeList k ↔ v.place p = .free := by
    intro p
    rw [h.rep.freeList_eq, h.rep.lists.mem_free]
  have hsame : ∀ p, v.place p ≠ .free → k.currentProcess ≠ some p → own' p = own p := by
    intro p hp hc
    rw [hown p, if_neg hc, if_neg fun hpf => hp ((hfree p).mp hpf)]
  have hother : ∀ p, v.place p ≠ .free → k.currentProcess ≠ some p → (own' p).Shows (k'.pS p) := by
    intro p hp hc
    have hmem : p ∉ v.free := fun hpf => hp ((h.rep.lists.mem_free p).mp hpf)
    have hne : ∀ {c}, k.currentProcess = some c → p ≠ c := by
      rintro c hcur rfl
      exact hc hcur
    have hstate : k'.pS p = k.pS p := by
      cases e with
      | dispatch => exact absurd rfl hdispatch
      | interrupt hw => exact absurd rfl (he hw)
      | syscall hw =>
          obtain ⟨c, hcur, hcalls⟩ := hends
          exact congrArg Record.state (hcalls.record hcur (hne hcur) hmem)
      | pgmtrap hw =>
          obtain ⟨c, hcur, htraps⟩ := hends
          exact congrArg Record.state (htraps.record (hne hcur))
      | tlb hw =>
          obtain ⟨c, hcur, htraps⟩ := hends
          exact congrArg Record.state (htraps.record (hne hcur))
    rw [hsame p hp hc, hstate]
    exact h.shows p hp hc
  have hself : ∀ p, k.currentProcess = some p → v'.place p ≠ .free →
      (k'.currentProcess = some p → ctl = .scheduler) → (own' p).Shows (k'.pS p) := by
    intro p hc hp hctl
    have htrap : ∀ hw, e = .pgmtrap hw ∨ e = .tlb hw → (own' p).Shows (k'.pS p) := by
      intro hw htrap
      exfalso
      rcases Sys.step_trap h.rep hs hstep htrap hc with hcur | hpf
      · obtain rfl := hctl hcur
        have hnone : k'.currentProcess = none := by
          rcases htrap with rfl | rfl
          · obtain ⟨d, -, htraps⟩ := hends
            exact congrArg Face.currentProcess htraps.scheduler
          · obtain ⟨d, -, htraps⟩ := hends
            exact congrArg Face.currentProcess htraps.scheduler
        rw [show k'.currentProcess = some p from hcur] at hnone
        cases hnone
      · rw [hrep'.freeList_eq, hrep'.lists.mem_free] at hpf
        exact hp hpf
    cases e with
    | dispatch => exact absurd rfl hdispatch
    | interrupt hw => exact absurd rfl (he hw)
    | pgmtrap hw => exact htrap hw (Or.inl rfl)
    | tlb hw => exact htrap hw (Or.inr rfl)
    | syscall hw =>
        obtain ⟨c, hcur, hcalls⟩ := hends
        obtain rfl : c = p := Option.some.inj (hcur.symm.trans hc)
        have hmem : c ∉ v.free := by
          rw [h.rep.lists.mem_free, h.rep.current_off hc]
          exact Place.noConfusion
        obtain ⟨u, hu⟩ := hcalls.states rfl hmem
        rw [hown c, if_pos hc]
        exact ⟨u, hu, fun hn => Bool.noConfusion hn⟩
  have hnew : ∀ p, v.place p = .free → (own' p).Shows (k'.pS p) := by
    intro p hp
    have hc : k.currentProcess ≠ some p := by
      intro hc
      rw [h.rep.current_off hc] at hp
      cases hp
    rw [hown p, if_neg hc, if_pos ((hfree p).mpr hp)]
    exact Saved.shows_state _
  have hshows : ∀ p, v'.place p ≠ .free → (k'.currentProcess = some p → ctl = .scheduler) →
      (own' p).Shows (k'.pS p) := by
    intro p hp hctl
    by_cases hc : k.currentProcess = some p
    · exact hself p hc hp hctl
    · by_cases hpf : v.place p = .free
      · exact hnew p hpf
      · exact hother p hpf hc
  have hcalled : ∀ p a, v'.place p = .blocked a → (own' p).called = true := by
    intro p a hp
    rcases hblocked p a hp with hpb | ⟨hc, hw, rfl⟩
    · have hc : k.currentProcess ≠ some p := by
        intro hc
        rw [h.rep.current_off hc] at hpb
        cases hpb
      rw [hsame p (by rw [hpb]; exact Place.noConfusion) hc]
      exact h.called p a hpb
    · rw [hown p, if_pos hc]
      rfl
  have hloose : Loose k' own' v' :=
    ⟨hrep', fun p hp hc => hshows p hp fun hc' => absurd hc' hc, hcalled⟩
  refine ⟨v', hloose, fun hctl => ⟨hloose, fun p hc => hshows p ?_ fun _ => hctl⟩⟩
  rw [hrep'.current_off hc]
  exact Place.noConfusion

/-- The caller of `io_devop`. -/
theorem Loose.request (h : Loose k own v) (hc : k.currentProcess = some c)
    (hown : ∀ p, v.place p ≠ .free →
      own' p = if k.currentProcess = some p then (Event.syscall hw).saved (own p) else own p) :
    Kept ((({ k with hw := hw } : Kernel).trap c).enable) own' v := by
  have hstate : ∀ p, (({ k with hw := hw } : Kernel).trap c).enable.pS p =
      if p = c then hw.oldArea .sysbk else k.pS p := by
    intro p
    exact Function.update_apply ..
  refine ⟨⟨h.rep.congr rfl, ?_, ?_⟩, ?_⟩
  · intro p hp hne
    have hne : k.currentProcess ≠ some p := hne
    have hpc : p ≠ c := by
      rintro rfl
      exact hne hc
    rw [hstate, if_neg hpc, hown p hp, if_neg hne]
    exact h.shows p hp hne
  · intro p a hp
    have hne : k.currentProcess ≠ some p := by
      intro hcur
      rw [h.rep.current_off hcur] at hp
      cases hp
    rw [hown p (by rw [hp]; exact Place.noConfusion), if_neg hne]
    exact h.called p a hp
  · intro p hp
    have hp : k.currentProcess = some p := hp
    obtain rfl : c = p := Option.some.inj (hc.symm.trans hp)
    rw [hstate, if_pos rfl, hown c (by rw [h.rep.current_off hc]; exact Place.noConfusion),
      if_pos hc]
    exact Saved.shows_state _

/-- The caller of a `P` that has made a system call goes on running or is blocked. -/
theorem Kept.passeren {a : ℕ} {w : ℤ} (h : Kept k own v) (hc : k.currentProcess = some c)
    (hcalled : (own c).called = true) (ha : a ≠ 0) (hw : w < 0)
    (hrun : (passeren a w).run k = .ok () k') :
    (k'.currentProcess = none ∨ k'.currentProcess = some c) ∧ ∃ v', Kept k' own v' := by
  rw [← semaphoreOperation_neg ha hw] at hrun
  have hact : semAct c a w = some (.passeren a w) := by
    rw [semAct, if_neg ha, if_neg hw.ne, if_pos hw]
  have htame : Tame v (semAct c a w) := by
    rw [hact]
    intro t ht
    cases ht
  have hdoes : Does (semAct c a w) v k' :=
    (semaphoreOperation_performs (F := fun _ => True) h.rep hc htame).of_run rfl hrun
  have hends := (semaphoreOperation_ends h.rep hc).of_run rfl hrun
  obtain ⟨v', hsteps, hrep'⟩ := hdoes
  rw [hact] at hsteps
  have hmove : Move (.passeren a w) v v' := steps_single.mp hsteps
  have hstates : k'.pS = k.pS := hends.states
  have hshows : ∀ p, v'.place p ≠ .free → (own p).Shows (k'.pS p) := by
    intro p hp
    rw [hstates]
    apply h.alive
    rcases hmove.alive h.rep.orderly hp with hp | ⟨hcreate, -⟩
    · exact hp
    · cases hcreate
  refine ⟨(hends.current hc).symm, v', ⟨hrep', fun p hp _ => hshows p hp, ?_⟩,
    fun p hp => hshows p ?_⟩
  · intro p b hp
    rcases hmove.blocked hp with hp | ⟨hoff, -⟩
    · exact h.called p b hp
    · obtain rfl : c = p := Option.some.inj (hc.symm.trans ((h.rep.off p).mp hoff))
      exact hcalled
  · rw [hrep'.current_off hp]
    exact Place.noConfusion

end Invariant

/-! ### `io_devop` -/

section Io

variable {k k' k₁ : Kernel} {own : Pcb → Saved} {v : View} {r : IoCall} {x y : Stmt} {c : Pcb}
    {ctl : Ctl} {n : ℕ}
  {o : Option Stmt} {hw : Hw}

/-- If the statements from `x` on are not interrupted, `io_devop` gets past its `P`. -/
def Leads (r : IoCall) (x : Stmt) (k : Kernel) (own : Pcb → Saved) : Prop :=
  ∀ n, Program.Triple (fun t => t = k) (r.wait n x) (fun _ k₁ => ∃ v, PastP r k₁ own v)
    (fun _ _ => False)
    (fun _ => True)

/-- More statements than it takes make no difference. -/
theorem wait_mono (m : ℕ) (h : ∀ e, (r.wait n x).run k ≠ .fault e) :
    (r.wait (n + m) x).run k = (r.wait n x).run k := by
  induction n generalizing x k with
  | zero => exact absurd rfl (h .loop)
  | succ n ih =>
      rw [Nat.add_right_comm, IoCall.wait, IoCall.wait]
      by_cases hx : x = .command
      · rw [if_pos hx, if_pos hx]
      · rw [IoCall.wait, if_neg hx] at h
        rw [if_neg hx, if_neg hx]
        cases hrun : (r.exec x).run k with
        | exit ctl t => rw [Program.run_bind_exit hrun, Program.run_bind_exit hrun]
        | fault e => rw [Program.run_bind_fault hrun, Program.run_bind_fault hrun]
        | ok o t =>
            rw [Program.run_bind_ok hrun] at h
            rw [Program.run_bind_ok hrun, Program.run_bind_ok hrun]
            cases o with
            | none => rfl
            | some y => exact ih h

theorem leads_add (h : Kept k own v) (hc : k.currentProcess = some c) (hr : r.caller = c)
    (hcalled : (own c).called = true) : Leads r .add k own := by
  rintro n k rfl
  by_cases hi : semIndex r.intlNo (termRead r.intlNo r.dnum) r.dnum < maxDevices
  · have ha : r.semaddr ≠ 0 := semAddr_ne_zero _
    obtain ⟨k₁, hpass⟩ := passeren_ordered (w := -1) h.rep hc ha (by decide)
    obtain ⟨hcur, v', hkept⟩ := h.passeren hc hcalled ha (by decide) hpass
    have hlate : PastP r k₁ own v' := by
      rw [← hr] at hcur hcalled
      exact ⟨hkept, hcalled, hcur⟩
    have hten : (r.wait 10 .add).run k = .ok () k₁ := (wait_passeren hi hc).trans hpass
    by_cases hfault : ∃ e, (r.wait n .add).run k = .fault e
    · obtain ⟨e, he⟩ := hfault
      rw [he]
      trivial
    · have hn : (r.wait n .add).run k = .ok () k₁ := by
        rw [← wait_mono 10 fun e he => hfault ⟨e, he⟩, Nat.add_comm, wait_mono n, hten]
        intro e he
        rw [hten] at he
        cases he
      rw [hn]
      exact ⟨v', hlate⟩
  · have hexec : (r.exec .add).run k = .fault .bounds := by
      simp only [IoCall.exec, deviceSemAt, if_neg hi, Program.run_fail_bind]
    cases n with
    | zero => trivial
    | succ n =>
        rw [IoCall.wait, if_neg (by decide), Program.run_bind_fault hexec]
        trivial

theorem Leads.next (h : Leads r x k own) (hx : x ≠ .command)
    (hrun : (r.exec x).run k = .ok (some y) k') :
    Leads r y k' own := by
  rintro n k' rfl
  have hnext := h (n + 1) k rfl
  rwa [wait_step hx hrun] at hnext

theorem Leads.past (h : Leads r .command k own) : ∃ v, PastP r k own v := h 1 k rfl

theorem Leads.not_exit (h : Leads r x k own) (hx : x ≠ .command) :
    (r.exec x).run k ≠ .exit ctl k' := by
  intro hrun
  have hexit := h 1 k rfl
  rw [IoCall.wait, if_neg hx, Program.run_bind_exit hrun] at hexit
  exact hexit

/-- After the `P` only the state of the caller changes. -/
theorem PastP.exec (h : PastP r k own v) (hx : x.early = false)
    (hrun : (r.exec x).run k = .ok o k') :
    PastP r k' own v := by
  have hreg : Keeps (fun k => (k.core, k.pS)) (devRegAddr r.intlNo r.dnum) :=
    Keeps.ite (keeps_pure _) (keeps_fail _)
  have hsame : Keeps (fun k => (k.core, k.pS)) (r.exec x) → PastP r k' own v := by
    intro hkeeps
    have hk := hkeeps.ok hrun
    exact h.congr (congrArg Prod.fst hk) (congrArg Prod.snd hk)
  cases x with
  | command =>
      exact hsame (hreg.bind fun _ => Keeps.bind (keeps_modify fun _ => rfl) fun _ => keeps_pure _)
  | status => exact hsame (hreg.bind fun _ => (keeps_gets _).bind fun _ => keeps_pure _)
  | charge =>
      apply hsame
      apply (keeps_gets _).bind
      intro c
      cases c with
      | some p =>
          have hcharge : Keeps (fun k => (k.core, k.pS)) (chargeKernel p) := by
            rintro q s rfl
            rfl
          exact hcharge.bind fun _ => keeps_pure _
      | none => exact keeps_pure _
  | answer u =>
      rcases target_run (r := r) (k := k) with ⟨p, hp, hcaller⟩ | hfault
      · obtain rfl : p = r.caller := by
          rcases hcaller with hcaller | hcur
          · exact hcaller
          · rcases h.caller with hnone | hsome
            · rw [hnone] at hcur
              cases hcur
            · exact Option.some.inj (hcur.symm.trans hsome)
        have hk : (r.exec (.answer u)).run k = .ok (some .charge) (k.answer r.caller u) := by
          rw [exec_answer, Program.run_bind_ok hp]
          rfl
        rw [hk] at hrun
        cases hrun
        exact h.answer
      · rw [exec_answer, Program.run_bind_fault hfault] at hrun
        cases hrun
  | _ => cases hx

end Io

/-! ### Runs -/

/-- What holds of a kernel and of the states saved where control is. -/
def Intact (k : Kernel) (own : Pcb → Saved) : Phase → Prop
  | .ctl .scheduler => ∃ v, Kept k own v
  | .ctl (.ldst _) => ∃ v, Loose k own v
  | .ctl .wait => ∃ v, Loose k own v
  | .ctl _ => True
  | .code .scheduler => ∃ v, Kept k own v
  | .code (.io r x) =>
    if x.early = true then k.currentProcess ≠ none ∧ Leads r x k own else ∃ v, PastP r k own v

structure Sound (x : Machine × (Pcb → Saved)) : Prop where
  context : ∀ p, x.1.context p = none
  intact : Intact x.1.kernel x.2 x.1.phase

section Steps

variable {B : Kernel → Prop} {x x' : Machine × (Pcb → Saved)} {i : Input} {e : Event} {hw : Hw}
  {k : Kernel} {own : Pcb → Saved} {m m' : Machine} {f : Stack}

omit [Platform] in
/-- Entries come from a process or from `WAIT`. -/
theorem Event.enabled_outside {c : Ctl} (h : e.enabled c = true) (he : e ≠ .dispatch) :
    (∃ st, c = .ldst st) ∨ c = .wait := by
  cases c with
  | ldst st => exact Or.inl ⟨st, rfl⟩
  | wait => exact Or.inr rfl
  | scheduler =>
      cases e with
      | dispatch => exact absurd rfl he
      | _ => cases h
  | halt => cases e <;> cases h
  | panic => cases e <;> cases h

/-- Outside `P` the processes that are not running have kept their states. -/
theorem Intact.loose {p : Phase} (h : Intact k own p)
    (hp : p.point = none ∨ k.currentProcess = none)
    (hc : ∀ c, p = .ctl c → e ≠ .dispatch ∧ e.enabled c = true) : ∃ v, Loose k own v := by
  cases p with
  | ctl c =>
      rcases Event.enabled_outside (hc c rfl).2 (hc c rfl).1 with ⟨st, rfl⟩ | rfl
      · exact h
      · exact h
  | code pt =>
      have hnone : k.currentProcess = none := hp.resolve_left (Option.some_ne_none pt)
      cases pt with
      | scheduler =>
          obtain ⟨v, hkept⟩ := h
          exact ⟨v, hkept.toLoose⟩
      | io r y =>
          change if y.early = true then _ else _ at h
          split at h
          · exact absurd hnone h.1
          · obtain ⟨v, hlate⟩ := h
            exact ⟨v, hlate.toLoose⟩

omit [Platform] in
theorem saves_none {pt : Option Point} (h : ∀ p, m.context p = none)
    (hpt : pt = none ∨ m.kernel.currentProcess = none) (p : Pcb) : m.saves pt p = none := by
  unfold Machine.saves
  split
  · next hc =>
    rcases hpt with hpt | hnone
    · exact hpt
    · rw [hnone] at hc
      cases hc
  split
  · rfl
  · exact h p

omit [Platform] in
/-- The state of the running process is stored, new processes have the state they are created in. -/
theorem saved_entry {c : Ctl} (h : m.phase = .ctl c) (p : Pcb) : m.saved (.entry e) m' own p =
    if m.kernel.currentProcess = some p then e.saved (own p)
    else if p ∈ freeList m.kernel then ⟨m'.kernel.pS p, false⟩
    else own p := by
  unfold Machine.saved
  rw [h]

omit [Platform] in
theorem saved_code {pt : Point} (h : m.phase = .code pt) : m.saved (.entry e) m' own = own := by
  unfold Machine.saved
  rw [h]

theorem Sound.interrupt (h : Sound x) (hi : x.1.Careful (.entry (.interrupt hw)))
    (hs : x.1.step (.entry (.interrupt hw)) = some x'.1)
    (hown : x'.2 = x.1.saved (.entry (.interrupt hw)) x'.1 x.2) :
    Sound x' := by
  obtain ⟨c, hrun, hphase, hcontext⟩ := Machine.step_interrupt hs
  obtain ⟨v, hloose⟩ :=
    h.intact.loose hi.2 fun _ hc => ⟨Event.noConfusion, Machine.step_enabled hs hc⟩
  have hown' : ∀ p, v.place p ≠ .free → x'.2 p =
      if x.1.kernel.currentProcess = some p then (Event.interrupt hw).saved (x.2 p) else x.2 p := by
    intro p hp
    rw [hown]
    cases hph : x.1.phase with
    | ctl c =>
        have hfree : p ∉ freeList x.1.kernel := by
          rwa [hloose.rep.freeList_eq, hloose.rep.lists.mem_free]
        rw [saved_entry hph, if_neg hfree]
    | code pt =>
        have hnone : x.1.kernel.currentProcess = none := by
          apply hi.2.resolve_left
          rw [hph]
          exact Option.some_ne_none pt
        rw [saved_code hph, hnone, if_neg (Option.some_ne_none p).symm]
  obtain ⟨rfl, hkept⟩ := hloose.interrupt hown' hrun
  constructor
  · intro p
    rw [hcontext]
    exact saves_none h.context hi.2 p
  · rw [hphase]
    exact hkept

theorem Sound.entry (h : Sound x) (he : ∀ hw, e ≠ .interrupt hw) (hi : x.1.Careful (.entry e))
    (hs : x.1.step (.entry e) = some x'.1) (hown : x'.2 = x.1.saved (.entry e) x'.1 x.2) :
    Sound x' := by
  obtain ⟨c, hp, hdispatch, henabled, hcontext, hrun⟩ := Machine.step_entry he hs
  obtain ⟨v, hloose⟩ := h.intact.loose hi.2 fun _ hc => ⟨hdispatch, Machine.step_enabled hs hc⟩
  constructor
  · intro p
    rw [hcontext]
    exact saves_none h.context (Or.inl rfl) p
  · rcases hrun with ⟨c', hrun, hphase⟩ | ⟨hw, r, rfl, -, hrun, hphase⟩
    · have hown' : ∀ p, x'.2 p = if x.1.kernel.currentProcess = some p then e.saved (x.2 p)
          else if p ∈ freeList x.1.kernel then ⟨x'.1.kernel.pS p, false⟩ else x.2 p := by
        intro p
        rw [hown, saved_entry hp]
      obtain ⟨v', hloose', hkept⟩ := hloose.entry hi.1 he henabled hdispatch hown' hrun
      rw [hphase]
      cases c' with
      | scheduler => exact ⟨v', hkept rfl⟩
      | ldst st => exact ⟨v', hloose'⟩
      | wait => exact ⟨v', hloose'⟩
      | halt => trivial
      | panic => trivial
    · obtain ⟨d, hc, rfl, hk⟩ := ioEnter_eq hrun
      have hc : x.1.kernel.currentProcess = some d := hc
      have hown' : ∀ p, v.place p ≠ .free → x'.2 p =
          if x.1.kernel.currentProcess = some p then (Event.syscall hw).saved (x.2 p)
          else x.2 p := by
        intro p hpf
        have hfree : p ∉ freeList x.1.kernel := by
          rwa [hloose.rep.freeList_eq, hloose.rep.lists.mem_free]
        rw [hown, saved_entry hp, if_neg hfree]
      have hcalled : (x'.2 d).called = true := by
        rw [hown, saved_entry hp, if_pos hc]
        rfl
      have hkept := hloose.request hc hown'
      have hsome : x'.1.kernel.currentProcess = some d := by rw [hk]; exact hc
      rw [hphase]
      refine ⟨?_, leads_add (hk ▸ hkept) hsome rfl hcalled⟩
      rw [hsome]
      exact Option.some_ne_none d

/-- The scheduler does not call itself. -/
theorem Dispatches.leaves {v : View} {f g : Face} {ctl : Ctl} (h : Dispatches v f ctl g) :
    ctl ≠ .scheduler := by
  cases h with
  | resume => exact Ctl.noConfusion
  | next hflag h => cases h <;> exact Ctl.noConfusion

theorem Intact.scheduler {p : Phase} (h : Intact k own p)
    (hp : p = .ctl .scheduler ∨ p = .code .scheduler) :
    ∃ v, Kept k own v := by
  rcases hp with rfl | rfl
  · exact h
  · exact h

theorem Sound.schedule (h : Sound x)
    (hp : x.1.phase = .ctl .scheduler ∨ x.1.phase = .code .scheduler)
    (hs : x.1.schedule f = some x'.1) (hown : x'.2 = x.2) : Sound x' := by
  obtain ⟨c, hrun, hcontext, hload⟩ := Machine.schedule_eq hs
  obtain ⟨v, hkept⟩ := h.intact.scheduler hp
  constructor
  · rw [hcontext]
    exact h.context
  · rcases hload with ⟨p, pt, -, hpt, -⟩ | ⟨-, hphase⟩
    · rw [h.context p] at hpt
      cases hpt
    · have hloose := hkept.schedule hrun
      have hends := (scheduler_ends hkept.rep).of_exit rfl hrun
      rw [hphase, hown]
      cases c with
      | scheduler => exact absurd rfl hends.leaves
      | ldst st => exact hloose
      | wait => exact hloose
      | halt => trivial
      | panic => trivial

theorem Sound.exec {r : IoCall} {y : Stmt} (h : Sound x) (hp : x.1.phase = .code (.io r y))
    (hs : x.1.exec r y = some x'.1) (hown : x'.2 = x.2) : Sound x' := by
  obtain ⟨hcontext, hrun⟩ := Machine.exec_eq hs
  have hintact : if y.early = true then x.1.kernel.currentProcess ≠ none ∧ Leads r y x.1.kernel x.2
      else ∃ v, PastP r x.1.kernel x.2 v := by
    have hintact := h.intact
    rwa [hp] at hintact
  constructor
  · rw [hcontext]
    exact h.context
  · rw [hown]
    split at hintact
    · next hearly =>
      obtain ⟨hcur, hleads⟩ := hintact
      have hy : y ≠ .command := by
        rintro rfl
        cases hearly
      rcases hrun with ⟨z, hrun, hphase⟩ | ⟨hrun, -⟩ | ⟨c, hrun, -⟩
      · have hnext := hleads.next hy hrun
        rw [hphase]
        change if z.early = true then _ else _
        split
        · next hz =>
          obtain ⟨-, hclear⟩ := (exec_next hrun).early hz
          rw [(exec_keepsCurrent hclear).ok hrun]
          exact ⟨hcur, hnext⟩
        · next hz =>
          obtain rfl : z = .command := (exec_next hrun).late hearly hz
          exact hnext.past
      · cases exec_next hrun
        cases hearly
      · exact absurd hrun (hleads.not_exit hy)
    · next hlate =>
      obtain ⟨v, hlate'⟩ := hintact
      have hy : y.early = false := Bool.eq_false_of_not_eq_true hlate
      rcases hrun with ⟨z, hrun, hphase⟩ | ⟨hrun, hphase⟩ | ⟨c, hrun, -⟩
      · have hnext := hlate'.exec hy hrun
        rw [hphase]
        change if z.early = true then _ else _
        rw [if_neg fun hz => hlate ((exec_next hrun).early hz).1]
        exact ⟨v, hnext⟩
      · rw [hphase]
        exact ⟨v, (hlate'.exec hy hrun).toKept⟩
      · obtain rfl := exec_exit hrun
        cases hy

theorem Sound.step (h : Sound x) (hi : x.1.Careful i) (hs : (contexts B).step x i x') :
    Sound x' := by
  obtain ⟨hs, hown⟩ := hs
  cases i with
  | entry e =>
      by_cases he : ∃ hw, e = .interrupt hw
      · obtain ⟨hw, rfl⟩ := he
        exact h.interrupt hi hs hown
      · exact h.entry (fun hw hhw => he ⟨hw, hhw⟩) hi hs hown
  | go f =>
      rcases Machine.step_go hs with ⟨hp, hsched⟩ | ⟨r, y, hp, hexec⟩
      · exact h.schedule hp hsched hown
      · exact h.exec hp hexec hown

theorem sound_init (h : (contexts B).init x) : Sound x := by
  obtain ⟨⟨k, s, -, hk, hboot, hm⟩, hown⟩ := h
  obtain ⟨hctl, hrep, -⟩ := main_run hk hboot
  constructor
  · intro p
    rw [congrArg Machine.context hm]
  · have hkernel : x.1.kernel = s.kernel := congrArg Machine.kernel hm
    have hphase : x.1.phase = .ctl .scheduler := by rw [congrArg Machine.phase hm, hctl]
    have hshows : ∀ p, (x.2 p).Shows (x.1.kernel.pS p) := by
      intro p
      rw [hown]
      exact Saved.shows_state _
    rw [hphase]
    refine ⟨_, ⟨hkernel ▸ hrep, fun p _ _ => hshows p, ?_⟩, fun p _ => hshows p⟩
    intro p a hp
    rw [boot_place] at hp
    split at hp
    · cases hp
    · cases hp

/-- As long as the nucleus is interrupted only while nobody is running, whoever is loaded goes on in
the state in which it last entered the nucleus. -/
theorem contexts_faithful (h : Reach (contexts B) (fun x i => x.1.Careful i) x) : LoadsOwn x := by
  have hsound : Sound x := h.invariant (fun _ => sound_init) fun _ _ _ ih hi hs => ih.step hi hs
  intro hp st k hrun
  obtain ⟨v, hkept⟩ := hsound.intact.scheduler hp
  obtain ⟨p, hcur, hfrom, rfl⟩ := ((scheduler_ends hkept.rep).of_exit rfl hrun).loaded
  refine ⟨p, _, hcur, hsound.context p, hkept.alive ?_, rfl⟩
  rcases hfrom with hc | hready
  · rw [hkept.rep.current_off hc]
    exact Place.noConfusion
  · rw [(hkept.rep.ready.mem p).mp hready]
    exact Place.noConfusion

end Steps

end Runs

section Board

attribute [local instance] uarm

/-- A computed run. -/
theorem contexts_run {C : Machine → Input → Prop} [∀ m i, Decidable (C m i)] (is : List Input)
    (Q : Machine × (Pcb → Saved) → Bool)
    (h : ((Sys.boot Kernel.zero).bind fun s => follow (stepGhost Machine.step Machine.saved)
      (fun x i => C x.1 i) is
      (⟨s.kernel, .ctl s.ctl, fun _ => none⟩, fun p => ⟨s.kernel.pS p, false⟩)).any Q = true) :
    ∃ x, Reach (contexts fun _ => True) (fun x i => C x.1 i) x ∧ Q x = true := by
  obtain ⟨x, hrun, hQ⟩ := (Option.any_eq_true _ _).mp h
  obtain ⟨s, hboot, his⟩ := Option.bind_eq_some_iff.mp hrun
  exact ⟨x, Reach.follow_ghost (fun _ _ _ hs => hs) ⟨_, s, trivial, atBoot_zero, hboot, rfl⟩ his,
    hQ⟩

def loaded (k : Kernel) : Option (State × Option Pcb) :=
  match scheduler.run k with
  | .exit (.ldst st) k' => some (st, k'.currentProcess)
  | _ => none

theorem loaded_eq {k : Kernel} {st : State} {o : Option Pcb} (h : loaded k = some (st, o)) :
    ∃ k', scheduler.run k = .exit (.ldst st) k' ∧ k'.currentProcess = o := by
  unfold loaded at h
  split at h
  · next st' k' hrun =>
    obtain ⟨rfl, rfl⟩ := Prod.mk.inj (Option.some.inj h)
    exact ⟨k', hrun, rfl⟩
  · cases h

def userState : State := { State.zero with pc := 0x8104, cpsr := 0x1F }

def nucleusState : State := { State.zero with pc := 0x9044, cpsr := 0x13 }

/-- The lines in `cause` are pending in the state `st`; the first device of each has completed its
operation. -/
def pending (cause : Word) (st : State) : Input :=
  .entry (.interrupt { Hw.rest with
    oldArea := fun _ => st, cause := cause, bitmap := fun _ => 1, devreg := fun _ => ⟨0, 0, 5, 0⟩ })

/-- The first process is interrupted by the timer, and goes on. -/
theorem contexts_faithful_tick : ∃ (x : Machine × (Pcb → Saved)) (st : State) (k : Kernel),
    scheduler.run x.1.kernel = .exit (.ldst st) k ∧ ∃ p s, k.currentProcess = some p ∧
    x.1.context p = none ∧
      (x.2 p).Shows s ∧ st = { s with cpsr := Platform.statusAllIntEnable s.cpsr } := by
  obtain ⟨x, hx, hQ⟩ := contexts_run (C := Machine.Careful) [.next, pending (1 <<< 26) userState]
    (fun x => decide (x.1.phase = .code .scheduler ∧ (loaded x.1.kernel).isSome))
      (by decide +kernel)
  obtain ⟨hp, hsome⟩ := of_decide_eq_true hQ
  obtain ⟨⟨st, o⟩, hload⟩ := Option.isSome_iff_exists.mp hsome
  obtain ⟨k, hrun, -⟩ := loaded_eq hload
  exact ⟨x, st, k, hrun, contexts_faithful hx (Or.inr hp) st k hrun⟩

/-- The first process makes a second one and waits for the disk. While the second is running the
timer and the disk interrupt it, one on top of the other; then the first is interrupted, too. -/
def nestedInputs : List Input :=
  [.next, .entry (call 1), .next, .entry (call 10 7 intDisk 0)] ++ List.replicate 14 .next ++
    [pending (1 <<< 26 ||| 1 <<< 27) userState, pending (1 <<< 27) nucleusState, .next,
      pending (1 <<< 26) userState]

/-- The second process is loaded with a state of the nucleus. -/
theorem contexts_not_faithful : ¬ ∀ x : Machine × (Pcb → Saved),
    Reach (contexts fun _ => True) (fun _ _ => True) x → LoadsOwn x := by
  intro hall
  obtain ⟨x, hx, hQ⟩ := contexts_run (C := fun _ _ => True) nestedInputs
    (fun x => decide (x.1.phase = .code .scheduler ∧ (x.2 1).state.pc = 0x8100 ∧
      loaded x.1.kernel = some ({ nucleusState with pc := 0x9040, cpsr := 0x13 }, some 1)))
        (by decide +kernel)
  obtain ⟨hp, hown, hload⟩ := of_decide_eq_true hQ
  obtain ⟨k, hrun, hcur⟩ := loaded_eq hload
  obtain ⟨p, s, hp', -, ⟨u, rfl, -⟩, hst⟩ := hall x hx (Or.inr hp) _ k hrun
  obtain rfl : p = 1 := Option.some.inj (hp'.symm.trans hcur)
  have hpc : (0x9040 : Word) = (x.2 1).state.pc := congrArg State.pc hst
  rw [hown] at hpc
  exact absurd hpc (by decide)

end Board

end JaeOS
