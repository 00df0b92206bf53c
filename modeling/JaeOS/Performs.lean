import JaeOS.Abstraction

/-!
# Programs that make a move

`Does` says that a kernel is what a move has made of a view. A program is silent if it returns and
leaves the core alone, quiet if it leaves the core alone whatever way it ends, and it performs a
move if, from a given core on, it ends in a kernel that the move leads to. Termination is a move
only if no descendant of its victim is ready.
-/

open LinkRing LinkForest Transition

namespace JaeOS

variable [Platform]

def View.Idle (v : View) (t : Pcb) : Prop :=
  ∀ ks, Forest.Has t ks v.tree → ∀ x ∈ ks.nodes, v.place x ≠ .ready

def Tame (v : View) (act : Option Act) : Prop := ∀ t, act = some (.terminate t) → v.Idle t

def Does (act : Option Act) (v : View) (s : Kernel) : Prop :=
  ∃ v', Steps Move act.toList v v' ∧ Rep s.core v'

variable {s s' : Kernel} {κ : Core} {v : View} {c p : Pcb} {act : Option Act} {α : Type}
  {F : Fault → Prop}

theorem Does.congr (h : Does act v s) (hs : s'.core = s.core) : Does act v s' := by
  obtain ⟨v', hsteps, hrep⟩ := h
  exact ⟨v', hsteps, hs ▸ hrep⟩

theorem Does.none (h : Rep s.core v) : Does none v s := ⟨v, .nil v, h⟩

theorem Does.single {b : Act} {v' : View} (hm : Move b v v') (h : Rep s.core v') :
    Does (some b) v s := ⟨v', .single hm, h⟩

/-! ### Programs that leave the core alone -/

def Silent (x : KM α) : Prop := ∀ s, ∃ r s', x.run s = .ok r s' ∧ s'.core = s.core

/-- Whatever way `x` ends, the core is what it was. -/
def Quiet (F : Fault → Prop) (x : KM α) : Prop :=
  Program.Maintains (fun κ (s : Kernel) => s.core = κ) F x

def Performs (F : Fault → Prop) (κ : Core) (x : KM α) (act : Option Act) (v : View) : Prop :=
  Program.Triple (fun s => s.core = κ) x (fun _ s => Does act v s) (fun _ s => Does act v s) F

section Rules

variable {β : Type} {x : KM α} {f : α → KM β}

omit [Platform] in
theorem silent_gets (g : Kernel → α) : Silent (Program.gets g) := fun s => ⟨g s, s, rfl, rfl⟩

omit [Platform] in
theorem silent_pure (r : α) : Silent (pure r : KM α) := fun s => ⟨r, s, rfl, rfl⟩

omit [Platform] in
theorem Silent.bind (hx : Silent x) (hf : ∀ r, Silent (f r)) : Silent (x >>= f) := by
  intro s
  obtain ⟨r, s', hrun, hcore⟩ := hx s
  obtain ⟨r', s'', hrun', hcore'⟩ := hf r s'
  exact ⟨r', s'', (Program.run_bind_ok hrun f).trans hrun', hcore'.trans hcore⟩

omit [Platform] in
theorem Silent.ite {b : Prop} [Decidable b] {y : KM α} (hx : Silent x) (hy : Silent y) :
    Silent (if b then x else y) := by
  split
  · exact hx
  · exact hy

omit [Platform] in
theorem Silent.quiet (hx : Silent x) : Quiet F x := by
  intro κ s hs
  obtain ⟨r, s', hrun, hcore⟩ := hx s
  rw [hrun]
  exact hcore.trans hs

omit [Platform] in
theorem quiet_leave (ctl : Ctl) : Quiet F (Program.leave ctl : KM α) := Program.Maintains.leave ctl

omit [Platform] in
theorem quiet_need {o : Option α} (hF : F .null) : Quiet F (Program.need .null o : KM α) :=
  Program.Maintains.need o hF

omit [Platform] in
theorem Quiet.bind (hx : Quiet F x) (hf : ∀ r, Quiet F (f r)) : Quiet F (x >>= f) :=
  Program.Maintains.bind hx hf

omit [Platform] in
theorem Quiet.ite {b : Prop} [Decidable b] {y : KM α} (hx : Quiet F x) (hy : Quiet F y) :
    Quiet F (if b then x else y) :=
  Program.Maintains.ite hx hy

omit [Platform] in
theorem quiet_current (hF : F .null) : Quiet F current :=
  (silent_gets _).quiet.bind fun _ => quiet_need hF

theorem Quiet.performs (hx : Quiet F x) (h : Rep κ v) : Performs F κ x none v :=
  (hx κ).conseq (fun _ hs => hs) (fun _ _ hs => Does.none (h.congr hs))
    fun _ _ hs => Does.none (h.congr hs)

theorem Performs.after (hx : Silent x) (hf : ∀ r, Performs F κ (f r) act v) :
    Performs F κ (x >>= f) act v := by
  intro s hs
  obtain ⟨r, s', hrun, hcore⟩ := hx s
  rw [Program.run_bind_ok hrun]
  exact hf r s' (hcore.trans hs)

theorem Performs.modify {κ' : Core} {g : Kernel → Kernel} {f : Unit → KM β}
    (hg : ∀ s, s.core = κ → (g s).core = κ') (hf : Performs F κ' (f ()) act v) :
    Performs F κ (Program.modify g >>= f) act v := fun s hs => hf (g s) (hg s hs)

/-- Reading the running process. -/
theorem Performs.after_current {f : Pcb → KM β} (hc : κ.currentProcess = some c)
    (hf : Performs F κ (f c) act v) : Performs F κ (current >>= f) act v := by
  intro s hs
  have hcur : s.currentProcess = some c := by
    rw [← hc, ← hs]
    rfl
  simp only [current, Program.run_bind_bind, Program.run_gets_bind, hcur, Program.need_some,
    Program.run_pure_bind]
  exact hf s hs

theorem Performs.before (hx : Performs F κ x act v) (hf : ∀ r, Quiet F (f r)) :
    Performs F κ (x >>= f) act v :=
  Program.Triple.bind hx fun r s hs =>
    (hf r s.core).conseq (fun (t : Kernel) (ht : t = s) => ht ▸ rfl) (fun _ _ ht => hs.congr ht)
      (fun _ _ ht => hs.congr ht) s rfl

end Rules

section Commands

variable (g : State → State) (b : Area) (u : Word)

omit [Platform] in
theorem silent_getTODLO : Silent getTODLO := fun _ => ⟨_, _, rfl, rfl⟩

omit [Platform] in
theorem silent_setSTATUS : Silent (setSTATUS u) := fun _ => ⟨_, _, rfl, rfl⟩

omit [Platform] in
theorem silent_setTIMER : Silent (setTIMER u) := fun _ => ⟨_, _, rfl, rfl⟩

omit [Platform] in
theorem silent_setPs : Silent (setPs p g) := fun _ => ⟨_, _, rfl, rfl⟩

omit [Platform] in
theorem silent_setArea : Silent (setArea p b g) := fun _ => ⟨_, _, rfl, rfl⟩

omit [Platform] in
theorem silent_setOldArea (ve : Vec) : Silent (setOldArea ve g) := fun _ => ⟨_, _, rfl, rfl⟩

omit [Platform] in
theorem silent_setDevreg (i : ℕ) (d : DevReg → DevReg) : Silent (setDevreg i d) :=
  fun _ => ⟨_, _, rfl, rfl⟩

omit [Platform] in
theorem silent_setFlag (fl : Flag) : Silent (setFlag fl) := fun _ => ⟨_, _, rfl, rfl⟩

omit [Platform] in
theorem silent_startKernel : Silent startKernel := fun _ => ⟨_, _, rfl, rfl⟩

omit [Platform] in
theorem silent_chargeKernel : Silent (chargeKernel p) := fun _ => ⟨_, _, rfl, rfl⟩

theorem silent_disableInterrupts : Silent disableInterrupts := fun _ => ⟨_, _, rfl, rfl⟩

theorem silent_ioEnable : Silent ioEnable := fun _ => ⟨_, _, rfl, rfl⟩

end Commands

end JaeOS
