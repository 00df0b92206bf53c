import JaeOS.Nesting

/-!
# Interleavings

Runs in which interrupts may be taken inside the nucleus, wherever its code has them enabled. A
handler that calls `scheduler()` never returns: of the code it has interrupted only the state
remains that it has put into the `p_s` of `current_process`, and if there is none, nothing. All
handlers start with the stack pointer at `RAM_TOP`, so that a handler overwrites the frames of the
code it has interrupted. When this code is resumed its local variables may have any value.
-/

open LinkRing Transition

namespace JaeOS

inductive Phase where
  | ctl (c : Ctl)
  | code (pt : Point)
  deriving DecidableEq

/-- `context p` is the point of the kernel code that `p_s` is a state of, if it is one. -/
structure Machine where
  kernel : Kernel
  phase : Phase
  context : Pcb → Option Point

def Phase.point : Phase → Option Point
  | .ctl _ => none
  | .code pt => some pt

def Ctl.phase : Ctl → Phase
  | .scheduler => .code .scheduler
  | c => .ctl c

/-- What a resumed `io_devop` finds on the stack for its arguments and for `status_word`. -/
structure Stack where
  call : IoCall
  statusWord : Word

def Stmt.resume (f : Stack) : Stmt → Stmt
  | .answer _ => .answer f.statusWord
  | x => x

/-- Where code that was interrupted at `pt` goes on. The call of `scheduler()` has no arguments. -/
def Point.resume (f : Stack) : Point → Point
  | .scheduler => .scheduler
  | .io _ x => .io f.call (x.resume f)

/-- An entry into the nucleus, or that its code goes on, with what is on the stack if it is
resumed. -/
inductive Input where
  | entry (e : Event)
  | go (f : Stack)

def Input.next : Input := .go ⟨⟨0, 0, 0, 0⟩, 0⟩

def Input.isGo : Input → Bool
  | .go _ => true
  | .entry _ => false

inductive Stmt.Next : Stmt → Option Stmt → Prop where
  | add : Next .add (some .test)
  | test : Next .test (some .resWait)
  | enough : Next .test (some .command)
  | resWait : Next .resWait (some .kernelTime)
  | kernelTime : Next .kernelTime (some .globalTime)
  | globalTime : Next .globalTime (some .insert)
  | insert : Next .insert (some .count)
  | count : Next .count (some .flag)
  | flag : Next .flag (some .clear)
  | clear : Next .clear (some .command)
  | command : Next .command (some .status)
  | status (u : Word) : Next .status (some (.answer u))
  | answer (u : Word) : Next (.answer u) (some .charge)
  | charge : Next .charge none

def Stmt.early : Stmt → Bool
  | .command => false
  | .status => false
  | .answer _ => false
  | .charge => false
  | _ => true

theorem Stmt.Next.early {y z : Stmt} (h : y.Next (some z)) (hz : z.early = true) :
    y.early = true ∧ y ≠ .clear := by
  cases h with
  | clear => cases hz
  | enough => cases hz
  | command => cases hz
  | status u => cases hz
  | answer u => cases hz
  | _ => exact ⟨rfl, by decide⟩

theorem Stmt.Next.late {y z : Stmt} (h : y.Next (some z)) (hy : y.early = true)
    (hz : ¬ z.early = true) :
    z = .command := by
  cases h with
  | enough => rfl
  | clear => rfl
  | command => cases hy
  | status u => cases hy
  | answer u => cases hy
  | _ => exact absurd rfl hz

def IoCall.Written (r : IoCall) (k : Kernel) : Prop :=
  let d := k.hw.devreg (regIndex r.intlNo r.dnum)
  (if transmits r.intlNo r.dnum then d.transmCommand else d.recvCommand) = r.command

instance {r : IoCall} {k : Kernel} : Decidable (r.Written k) :=
  inferInstanceAs (Decidable ((if transmits r.intlNo r.dnum then
    (k.hw.devreg (regIndex r.intlNo r.dnum)).transmCommand
    else (k.hw.devreg (regIndex r.intlNo r.dnum)).recvCommand) = r.command))

variable [Platform]

namespace Machine

variable (m : Machine)

/-- An entry from `pt`, or from a process, stores the state of the running process. A free PCB has
none. -/
def saves (pt : Option Point) (p : Pcb) : Option Point :=
  if m.kernel.currentProcess = some p then pt
  else if p ∈ freeList m.kernel then none
  else m.context p

def interrupt (hw : Hw) (pt : Option Point) : Option Machine :=
  match interruptHandler.run { m.kernel with hw := hw } with
  | .exit c k => some ⟨k, c.phase, m.saves pt⟩
  | _ => none

def handle (e : Event) : Option Machine :=
  match e.program.run (m.kernel.enter e) with
  | .exit c k => some ⟨k, .ctl c, m.saves none⟩
  | _ => none

def request (hw : Hw) : Option Machine :=
  match ioEnter.run { m.kernel with hw := hw } with
  | .ok r k => some ⟨k, .code (.io r .add), m.saves none⟩
  | _ => none

def enter : Event → Option Machine
  | .dispatch => none
  | .interrupt hw => m.interrupt hw none
  | .syscall hw =>
    if (ioRequest (hw.oldArea .sysbk)).isSome then m.request hw else m.handle (.syscall hw)
  | .pgmtrap hw => m.handle (.pgmtrap hw)
  | .tlb hw => m.handle (.tlb hw)

/-- `scheduler()`. Whoever is loaded goes on where its state is from. -/
def schedule (f : Stack) : Option Machine :=
  match scheduler.run m.kernel with
  | .exit c k =>
    match k.currentProcess.bind m.context with
    | some pt => some ⟨k, .code (pt.resume f), m.context⟩
    | none => some ⟨k, .ctl c, m.context⟩
  | _ => none

def exec (r : IoCall) (x : Stmt) : Option Machine :=
  match (r.exec x).run m.kernel with
  | .ok (some y) k => some ⟨k, .code (.io r y), m.context⟩
  | .ok none k => some ⟨k, .code .scheduler, m.context⟩
  | .exit c k => some ⟨k, .ctl c, m.context⟩
  | .fault _ => none

def step : Input → Option Machine
  | .entry e =>
    match m.phase with
    | .ctl c => if e.enabled c then m.enter e else none
    | .code pt =>
      match e with
      | .interrupt hw => m.interrupt hw (some pt)
      | _ => none
  | .go f =>
    match m.phase with
    | .ctl .scheduler => m.schedule f
    | .ctl _ => none
    | .code .scheduler => m.schedule f
    | .code (.io r x) => m.exec r x

end Machine

def nested (B : Kernel → Prop) : Transition.System Machine Input where
  init m := ∃ k s, B k ∧ AtBoot k ∧ Sys.boot k = some s ∧ m = ⟨s.kernel, .ctl s.ctl, fun _ => none⟩
  step m i m' := m.step i = some m'

/-! ### What a step is -/

section Steps

variable {m m' : Machine} {e : Event} {hw : Hw} {r : IoCall} {x : Stmt} {f : Stack}

namespace Machine

theorem interrupt_eq {pt : Option Point} (h : m.interrupt hw pt = some m') :
    ∃ c, interruptHandler.run { m.kernel with hw := hw } = .exit c m'.kernel ∧ m'.phase = c.phase ∧
      m'.context = m.saves pt := by
  unfold interrupt at h
  split at h
  · next c k hrun =>
    obtain rfl := Option.some.inj h
    exact ⟨c, hrun, rfl, rfl⟩
  · cases h

theorem handle_eq (h : m.handle e = some m') :
    ∃ c, e.program.run (m.kernel.enter e) = .exit c m'.kernel ∧ m'.phase = .ctl c ∧
      m'.context = m.saves none := by
  unfold handle at h
  split at h
  · next c k hrun =>
    obtain rfl := Option.some.inj h
    exact ⟨c, hrun, rfl, rfl⟩
  · cases h

theorem request_eq (h : m.request hw = some m') :
    ∃ r, ioEnter.run { m.kernel with hw := hw } = .ok r m'.kernel ∧ m'.phase = .code (.io r .add) ∧
      m'.context = m.saves none := by
  unfold request at h
  split at h
  · next r k hrun =>
    obtain rfl := Option.some.inj h
    exact ⟨r, hrun, rfl, rfl⟩
  · cases h

theorem step_enabled {c : Ctl} (h : m.step (.entry e) = some m') (hp : m.phase = .ctl c) :
    e.enabled c = true := by
  rw [step, hp] at h
  dsimp only at h
  split at h
  · next henabled => exact henabled
  · cases h

/-- Control comes from a process or from `WAIT`, or interrupts are on in the nucleus. -/
theorem step_interrupt (h : m.step (.entry (.interrupt hw)) = some m') :
    ∃ c, interruptHandler.run { m.kernel with hw := hw } = .exit c m'.kernel ∧ m'.phase = c.phase ∧
      m'.context = m.saves m.phase.point := by
  rw [step] at h
  cases hp : m.phase with
  | ctl c =>
      rw [hp] at h
      dsimp only at h
      split at h
      · exact interrupt_eq h
      · cases h
  | code pt =>
      rw [hp] at h
      exact interrupt_eq h

/-- A process enters the nucleus by itself. -/
theorem step_entry (he : ∀ hw, e ≠ .interrupt hw) (h : m.step (.entry e) = some m') :
    ∃ c, m.phase = .ctl c ∧ e ≠ .dispatch ∧ e.enabled c = true ∧ m'.context = m.saves none ∧
      ((∃ c', e.program.run (m.kernel.enter e) = .exit c' m'.kernel ∧ m'.phase = .ctl c') ∨
        ∃ hw r, e = .syscall hw ∧ (ioRequest (hw.oldArea .sysbk)).isSome ∧
          ioEnter.run { m.kernel with hw := hw } = .ok r m'.kernel ∧
          m'.phase = .code (.io r .add)) := by
  rw [step] at h
  cases hp : m.phase with
  | code pt =>
      rw [hp] at h
      cases e with
      | interrupt hw => exact absurd rfl (he hw)
      | dispatch => cases h
      | syscall hw => cases h
      | pgmtrap hw => cases h
      | tlb hw => cases h
  | ctl c =>
      rw [hp] at h
      dsimp only at h
      split at h
      · next henabled =>
        cases e with
        | interrupt hw => exact absurd rfl (he hw)
        | dispatch => cases h
        | syscall hw =>
            refine ⟨c, rfl, Event.noConfusion, henabled, ?_⟩
            rw [enter] at h
            split at h
            · next hio =>
              obtain ⟨r, hrun, hphase, hcontext⟩ := request_eq h
              exact ⟨hcontext, Or.inr ⟨hw, r, rfl, hio, hrun, hphase⟩⟩
            · obtain ⟨c', hrun, hphase, hcontext⟩ := handle_eq h
              exact ⟨hcontext, Or.inl ⟨c', hrun, hphase⟩⟩
        | pgmtrap hw =>
            obtain ⟨c', hrun, hphase, hcontext⟩ := handle_eq h
            exact ⟨c, rfl, Event.noConfusion, henabled, hcontext, Or.inl ⟨c', hrun, hphase⟩⟩
        | tlb hw =>
            obtain ⟨c', hrun, hphase, hcontext⟩ := handle_eq h
            exact ⟨c, rfl, Event.noConfusion, henabled, hcontext, Or.inl ⟨c', hrun, hphase⟩⟩
      · cases h

/-- The scheduler loads a process, at the point its state is from, or gives up. -/
theorem schedule_eq (h : m.schedule f = some m') :
    ∃ c, scheduler.run m.kernel = .exit c m'.kernel ∧ m'.context = m.context ∧
      ((∃ p pt, m'.kernel.currentProcess = some p ∧ m.context p = some pt ∧
          m'.phase = .code (pt.resume f)) ∨
        (∀ p, m'.kernel.currentProcess = some p → m.context p = none) ∧ m'.phase = .ctl c) := by
  unfold schedule at h
  split at h
  · next c k hrun =>
    refine ⟨c, ?_⟩
    split at h
    · next pt hpt =>
      obtain rfl := Option.some.inj h
      obtain ⟨p, hp, hcontext⟩ := Option.bind_eq_some_iff.mp hpt
      exact ⟨hrun, rfl, Or.inl ⟨p, pt, hp, hcontext, rfl⟩⟩
    · next hpt =>
      obtain rfl := Option.some.inj h
      refine ⟨hrun, rfl, Or.inr ⟨?_, rfl⟩⟩
      intro p hp
      have hp : k.currentProcess = some p := hp
      rwa [hp, Option.bind_some] at hpt
  · cases h

theorem exec_eq (h : m.exec r x = some m') :
    m'.context = m.context ∧
      ((∃ y, (r.exec x).run m.kernel = .ok (some y) m'.kernel ∧ m'.phase = .code (.io r y)) ∨
        (r.exec x).run m.kernel = .ok none m'.kernel ∧ m'.phase = .code .scheduler ∨
        ∃ c, (r.exec x).run m.kernel = .exit c m'.kernel ∧ m'.phase = .ctl c) := by
  unfold exec at h
  split at h
  · next y k hrun =>
    obtain rfl := Option.some.inj h
    exact ⟨rfl, Or.inl ⟨y, hrun, rfl⟩⟩
  · next k hrun =>
    obtain rfl := Option.some.inj h
    exact ⟨rfl, Or.inr (Or.inl ⟨hrun, rfl⟩)⟩
  · next c k hrun =>
    obtain rfl := Option.some.inj h
    exact ⟨rfl, Or.inr (Or.inr ⟨c, hrun, rfl⟩)⟩
  · cases h

theorem step_go (h : m.step (.go f) = some m') :
    ((m.phase = .ctl .scheduler ∨ m.phase = .code .scheduler) ∧ m.schedule f = some m') ∨
      ∃ r x, m.phase = .code (.io r x) ∧ m.exec r x = some m' := by
  rw [step] at h
  split at h
  · next hp => exact Or.inl ⟨Or.inl hp, h⟩
  · cases h
  · next hp => exact Or.inl ⟨Or.inr hp, h⟩
  · next r x hp => exact Or.inr ⟨r, x, hp, h⟩

end Machine

end Steps

/-! ### What a statement does -/

section Statements

variable {r : IoCall} {x : Stmt} {o : Option Stmt} {c : Ctl} {k k' : Kernel} {α : Type} {E : Prop}
  {z : KM α}

omit [Platform] in
theorem returns_current : Program.Returns (fun _ => True) E current := .bind .gets fun _ => .need

omit [Platform] in
theorem returns_getTODLO : Program.Returns (fun _ => True) E getTODLO :=
  .bind .gets fun _ => .bind .modify fun _ => .pure trivial

omit [Platform] in
theorem returns_devRegAddr {il dnum : Word} :
    Program.Returns (fun _ => True) E (devRegAddr il dnum) :=
  .ite (.pure trivial) .fail

theorem exec_returns : Program.Returns x.Next (x = .insert) (r.exec x) := by
  cases x with
  | add =>
      have hsem : Program.Returns (fun _ => True) (Stmt.add = .insert)
          (deviceSemAt r.intlNo (termRead r.intlNo r.dnum) r.dnum) := .ite (.pure trivial) .fail
      exact hsem.bind fun _ => .bind .gets fun _ => .bind .modify fun _ => .pure .add
  | test => exact .bind .gets fun _ => .ite (.pure .test) (.pure .enough)
  | resWait => exact returns_current.bind fun _ => .bind .modify fun _ => .pure .resWait
  | kernelTime =>
      exact returns_current.bind fun _ => returns_getTODLO.bind fun _ => .bind .gets fun _ =>
        .bind .modify fun _ => .pure .kernelTime
  | globalTime =>
      exact returns_current.bind fun _ => returns_getTODLO.bind fun _ => .bind .gets fun _ =>
        .bind .modify fun _ => .pure .globalTime
  | insert =>
      apply returns_current.bind
      intro p
      apply Program.Returns.bind
      · intro k _
        cases (onLinks (insertBlocked r.semaddr p)).run k with
        | ok full t => trivial
        | exit c t => rfl
        | fault e => trivial
      · intro full
        cases full with
        | true => exact .bind (.leave rfl) fun _ => .pure .insert
        | false => exact .pure .insert
  | count => exact .bind .modify fun _ => .pure .count
  | flag => exact .bind .modify fun _ => .pure .flag
  | clear => exact .bind .modify fun _ => .pure .clear
  | command => exact returns_devRegAddr.bind fun _ => .bind .modify fun _ => .pure .command
  | status => exact returns_devRegAddr.bind fun _ => .bind .gets fun u => .pure (.status u)
  | answer u =>
      have htarget : Program.Returns (fun _ => True) (Stmt.answer u = .insert) r.target :=
        .ite (.pure trivial) returns_current
      exact htarget.bind fun _ => .bind .modify fun _ => .pure (.answer u)
  | charge =>
      apply Program.Returns.bind .gets
      intro c
      cases c with
      | some p =>
          have hcharge : Program.Returns (fun _ => True) (Stmt.charge = .insert) (chargeKernel p) :=
            returns_getTODLO.bind fun _ => .bind .gets fun _ => .modify
          exact hcharge.bind fun _ => .pure .charge
      | none => exact .pure .charge

theorem exec_next (h : (r.exec x).run k = .ok o k') : x.Next o := exec_returns.of_run trivial h

/-- The nucleus gives up if there is no semaphore descriptor left. -/
theorem exec_exit (h : (r.exec x).run k = .exit c k') : x = .insert :=
  exec_returns.of_exit trivial h

theorem exec_clear (h : (r.exec .clear).run k = .ok o k') : k'.currentProcess = none := by
  have hrun : (r.exec .clear).run k = .ok (some .command) { k with currentProcess := none } := rfl
  rw [hrun] at h
  cases h
  rfl

abbrev KeepsCurrent (z : KM α) : Prop := Keeps (fun k => k.currentProcess) z

/-- Only the last assignment of `P` changes `current_process`. -/
theorem exec_keepsCurrent (hx : x ≠ .clear) : KeepsCurrent (r.exec x) := by
  have hmodify : ∀ {f : Kernel → Kernel} {a : Option Stmt},
      (∀ k, (f k).currentProcess = k.currentProcess) →
      KeepsCurrent (Program.modify f >>= fun _ => pure a) :=
      fun hf => (keeps_modify hf).bind fun _ => keeps_pure _
  have htime : KeepsCurrent getTODLO := fun _ _ h => h
  have hreg : KeepsCurrent (devRegAddr r.intlNo r.dnum) := Keeps.ite (keeps_pure _) (keeps_fail _)
  cases x with
  | add =>
      exact Keeps.bind (Keeps.ite (keeps_pure _) (keeps_fail _)) fun _ =>
        (keeps_gets _).bind fun _ =>
        hmodify fun _ => rfl
  | test => exact (keeps_gets _).bind fun _ => Keeps.ite (keeps_pure _) (keeps_pure _)
  | resWait => exact keeps_current.bind fun _ => hmodify fun _ => rfl
  | kernelTime =>
      exact keeps_current.bind fun _ => htime.bind fun _ => (keeps_gets _).bind fun _ =>
        hmodify fun _ => rfl
  | globalTime =>
      exact keeps_current.bind fun _ => htime.bind fun _ => (keeps_gets _).bind fun _ =>
        hmodify fun _ => rfl
  | insert =>
      apply keeps_current.bind
      intro p
      apply (keeps_onLinks (fun _ _ => rfl) _).bind
      intro full
      cases full with
      | true => exact (keeps_leave _).bind fun _ => keeps_pure _
      | false => exact keeps_pure _
  | count => exact hmodify fun _ => rfl
  | flag => exact hmodify fun _ => rfl
  | clear => exact absurd rfl hx
  | command => exact hreg.bind fun _ => hmodify fun _ => rfl
  | status => exact hreg.bind fun _ => (keeps_gets _).bind fun _ => keeps_pure _
  | answer u =>
      have htarget : KeepsCurrent r.target := Keeps.ite (keeps_pure _) keeps_current
      exact htarget.bind fun _ => hmodify fun _ => rfl
  | charge =>
      apply (keeps_gets _).bind
      intro c
      cases c with
      | some p =>
          have hcharge : KeepsCurrent (chargeKernel p) :=
            htime.bind fun _ => (keeps_gets _).bind fun _ => keeps_modify fun _ => rfl
          exact hcharge.bind fun _ => keeps_pure _
      | none => exact keeps_pure _

/-- After the statement `command` the register has the command. -/
theorem exec_written (h : (r.exec .command).run k = .ok o k') : r.Written k' := by
  by_cases hr : regIndex r.intlNo r.dnum < 40
  · rw [exec_command hr] at h
    obtain ⟨rfl, rfl⟩ : some .status = o ∧ k.command r = k' := by
      cases h
      exact ⟨rfl, rfl⟩
    have hreg : (k.command r).hw.devreg (regIndex r.intlNo r.dnum) =
        r.write (k.hw.devreg (regIndex r.intlNo r.dnum)) := Function.update_self ..
    unfold IoCall.Written IoCall.write at *
    rw [hreg]
    by_cases ht : transmits r.intlNo r.dnum = true
    · simp only [if_pos ht]
    · simp only [if_neg ht]
  · have hfail : (r.exec .command).run k = .fault .bounds := by
      simp only [IoCall.exec, devRegAddr, if_neg hr, Program.run_fail_bind]
    rw [hfail] at h
    cases h

end Statements

end JaeOS
