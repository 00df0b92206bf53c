import JaeOS.Board
import JaeOS.Clock
import JaeOS.Steady

/-!
# Runs with a clock

Every entry brings the times at which the machine reads its clock, and `getTODLO` shows their low
words. What the scheduler does with the clock and the timer is said here without looking at the
lists.
-/

open Transition

namespace JaeOS

/-! ### The scheduler -/

section Scheduling

variable [Platform] {s t : Kernel} {ctl : Ctl} {e : Event}

inductive Face.Leaves (f : Face) : Ctl → Face → Prop where
  | load (p : Pcb) : f.Leaves (.ldst ((f.prepare.load p).pS p)) (f.prepare.load p)
  | wait : f.Leaves .wait f.prepare.idle
  | halt : f.Leaves .halt f.prepare
  | panic : f.Leaves .panic f.prepare

omit [Platform] in
/-- An empty queue gives no process; what comes from another one is a process, if it comes. -/
theorem removeProcQ_cases (m : Links maxproc) (q : Option Pcb) :
    q = none ∧ (removeProcQ q : Program _ Ctl Fault _).run m = .ok (none, none) m ∨
      q ≠ none ∧ ((∃ p q' m', (removeProcQ q : Program _ Ctl Fault _).run m = .ok (some p, q') m') ∨
        ∃ e, (removeProcQ q : Program _ Ctl Fault _).run m = .fault e) := by
  cases q with
  | none => exact Or.inl ⟨rfl, rfl⟩
  | some t =>
      right
      refine ⟨(Option.some_ne_none t), ?_⟩
      cases hl : m.pList t with
      | none =>
          right
          simp only [removeProcQ, Program.run_gets_bind, clistEmpty, Option.isNone_some,
            Bool.false_eq_true, if_false, clistHead, Program.need_some, Program.run_bind_bind,
            Program.run_pure_bind, hl, Program.need_none, Program.run_fail_bind]
          exact ⟨.null, rfl⟩
      | some h =>
          left
          simp only [removeProcQ, Program.run_gets_bind, clistEmpty, Option.isNone_some,
            Bool.false_eq_true, if_false, clistHead, Program.need_some, Program.run_bind_bind,
            Program.run_pure_bind, hl, clistDequeue]
          by_cases htop : some t = some h
          · rw [if_pos htop]
            exact ⟨h, none, _, rfl⟩
          · rw [if_neg htop]
            exact ⟨h, some t, _, rfl⟩

def Kernel.Busy (k : Kernel) : Prop := k.currentProcess ≠ none ∨ k.readyqueue ≠ none

omit [Platform] in
theorem requeueCurrent_busy (s : Kernel) : ∃ t, requeueCurrent.run s = .ok () t ∧
    t.face = s.face.requeue ∧ (s.Busy ↔ t.readyqueue ≠ none) := by
  cases hc : s.currentProcess with
  | none =>
      have hrun : requeueCurrent.run s = .ok () s := by
        rw [requeueCurrent, Program.run_gets_bind, hc]
        rfl
      refine ⟨s, hrun, requeueCurrent_face hrun, ?_⟩
      rw [Kernel.Busy, hc]
      exact or_iff_right fun h => h rfl
  | some c =>
      have hrun : ∃ t, requeueCurrent.run s = .ok () t ∧
          t.readyqueue = (insertProcQ s.readyqueue c s.toLinks).1 := by
        rw [requeueCurrent, Program.run_gets_bind, hc]
        exact ⟨_, rfl, rfl⟩
      obtain ⟨t, hrun, hq⟩ := hrun
      refine ⟨t, hrun, requeueCurrent_face hrun, ?_⟩
      rw [Kernel.Busy, hc, hq]
      apply iff_of_true (Or.inl (Option.some_ne_none c))
      unfold insertProcQ clistEnqueue
      cases s.readyqueue <;> exact Option.some_ne_none c

theorem deadlockDetection_leaves {f : Face} (hf : s.face = f.prepare) :
    Program.Triple (fun t => t = s) deadlockDetection (fun _ t => t = s)
      (fun ctl t => f.Leaves ctl t.face ∧ ∀ st, ctl ≠ .ldst st) (fun _ => True) := by
  rintro s rfl
  rw [deadlockDetection, Program.run_gets_bind, Program.run_gets_bind]
  by_cases h₀ : s.processCount = 0
  · rw [if_pos h₀]
    have hhalt : f.Leaves .halt s.face := hf ▸ .halt
    exact ⟨hhalt, fun _ => Ctl.noConfusion⟩
  rw [if_neg h₀]
  by_cases h₁ : s.softBlockCount = 0 ∧ s.processCount > 0
  · rw [if_pos h₁]
    have hpanic : f.Leaves .panic s.face := hf ▸ .panic
    exact ⟨hpanic, fun _ => Ctl.noConfusion⟩
  rw [if_neg h₁]
  by_cases h₂ : s.softBlockCount > 0 ∧ s.processCount > 0
  · rw [if_pos h₂]
    have hwait : f.Leaves .wait s.face.idle := hf ▸ .wait
    exact ⟨hwait, fun _ => Ctl.noConfusion⟩
  · rw [if_neg h₂]
    rfl

theorem loadnext_leaves (hrun : loadnext.run s = .exit ctl t) :
    s.face.Leaves ctl t.face ∧ (ctl = .wait → ¬ s.Busy) ∧ ∀ st, ctl = .ldst st → s.Busy := by
  obtain ⟨s₁, hrun₁, hface₁, hbusy⟩ := requeueCurrent_busy s
  obtain ⟨s₂, hrun₂, hface₂, hcore₂⟩ := armTimer_face s₁
  have hface : s₂.face = s.face.prepare := by
    rw [hface₂, hface₁]
    rfl
  have hqueue : s₂.readyqueue = s₁.readyqueue := congrArg Core.readyqueue hcore₂
  rw [loadnext, Program.run_bind_ok hrun₁, Program.run_bind_ok hrun₂, Program.run_gets_bind] at hrun
  rcases removeProcQ_cases s₂.toLinks s₂.readyqueue with
    ⟨hq, hremove⟩ | ⟨hq, ⟨p, q', m', hremove⟩ | ⟨e, hremove⟩⟩
  · have hidle : ¬ s.Busy := by
      rw [hbusy, ← hqueue]
      exact not_not.mpr hq
    rw [Program.run_bind_ok (onLinks_ok hremove), Program.run_modify_bind, if_pos rfl] at hrun
    let s₃ : Kernel := { s₂ with readyqueue := none, currentProcess := none }
    have hface₃ : s₃.face = s.face.prepare := by
      have hnone : s₂.currentProcess = none :=
        (congrArg Face.currentProcess hface).trans (prepare_currentProcess s.face)
      rw [← hface]
      exact congrArg (fun o => ({ s₂.face with currentProcess := o } : Face)) hnone.symm
    have hdetect := deadlockDetection_leaves hface₃
    rcases Program.exit_of_bind hrun with hexit | ⟨r, u, hok, hrest⟩
    · obtain ⟨hleaves, hctl⟩ := hdetect.of_exit rfl hexit
      exact ⟨hleaves, fun _ => hidle, fun st hst => absurd hst (hctl st)⟩
    · obtain rfl : u = s₃ := hdetect.of_run rfl hok
      obtain ⟨e, hfault⟩ := startCurrent_idle (s := s₃) rfl
      rw [hfault] at hrest
      cases hrest
  · have hready : s.Busy := by
      rw [hbusy, ← hqueue]
      exact hq
    rw [Program.run_bind_ok (onLinks_ok hremove)] at hrun
    simp only [Program.run_modify_bind, reduceCtorEq, if_false] at hrun
    obtain ⟨u, hload, hf⟩ := startCurrent_run (p := p)
      (s := { s₂.setLinks m' with readyqueue := q', currentProcess := some p }) rfl
    have hfu : u.face = s.face.prepare.load p := by
      rw [hf, ← hface]
      rfl
    rw [hload] at hrun
    cases hrun
    rw [← hf, hfu]
    exact ⟨.load p, fun h => Ctl.noConfusion h, fun _ _ => hready⟩
  · have hfault : (onLinks (removeProcQ s₂.readyqueue)).run s₂ = .fault e := by
      simp only [onLinks, Program.zoom, hremove]
    rw [Program.run_bind_fault hfault] at hrun
    cases hrun

/-- `scheduler` up to its call of `loadnext`. -/
def callLoadnext : KM Unit := do
  setSTATUS (Platform.statusAllIntDisable (← getSTATUS))
  match ← Program.gets fun k => k.flag with
  | .start =>
    setTIMER schedTimeSlice
    let now ← getTODLO
    Program.modify fun k => { k with pseudoclockflag := false, pseudoStart := now }
  | .reset =>
    let now ← getTODLO
    Program.modify fun k => { k with pseudoclockflag := false, pseudoStart := now }
  | _ => pure ()

theorem callLoadnext_face (s : Kernel) : ∃ t, callLoadnext.run s = .ok () t ∧
    t.face = s.face.schedule ∧ t.core = s.core := by
  unfold callLoadnext
  simp only [getSTATUS, setSTATUS, setTIMER, getTODLO, Program.run_gets_bind,
    Program.run_modify_bind]
  unfold Face.schedule
  cases hflag : s.flag with
  | start =>
      refine ⟨_, rfl, ?_, rfl⟩
      rw [show s.face.flag = .start from hflag]
      dsimp only
      rw [← hflag]
      rfl
  | reset =>
      refine ⟨_, rfl, ?_, rfl⟩
      rw [show s.face.flag = .reset from hflag]
      dsimp only
      rw [← hflag]
      rfl
  | loadnext =>
      refine ⟨_, rfl, ?_, rfl⟩
      rw [show s.face.flag = .loadnext from hflag]
      dsimp only
      rw [← hflag]
      rfl
  | loadcurrent =>
      refine ⟨_, rfl, ?_, rfl⟩
      rw [show s.face.flag = .loadcurrent from hflag]
      dsimp only
      rw [← hflag]
      rfl

/-- Unless the current process goes on, the scheduler ends in `loadnext`. -/
theorem scheduler_loadnext (hflag : s.flag ≠ .loadcurrent) :
    scheduler.run s = (callLoadnext >>= fun _ => loadnext).run s := by
  unfold scheduler callLoadnext
  simp only [getSTATUS, setSTATUS, setTIMER, getTODLO, Program.run_bind_bind, Program.run_gets_bind,
    Program.run_modify_bind]
  cases hf : s.flag with
  | start => rfl
  | reset => rfl
  | loadnext => rfl
  | loadcurrent => exact absurd hf hflag

theorem scheduler_leaves (hflag : s.flag ≠ .loadcurrent) (hrun : scheduler.run s = .exit ctl t) :
    s.face.schedule.Leaves ctl t.face ∧ (ctl = .wait → ¬ s.Busy) ∧ ∀ st, ctl = .ldst st →
    s.Busy := by
  obtain ⟨u, hcall, hface, hcore⟩ := callLoadnext_face s
  rw [scheduler_loadnext hflag, Program.run_bind_ok hcall] at hrun
  have hbusy : u.Busy ↔ s.Busy := by
    unfold Kernel.Busy
    rw [show u.currentProcess = s.currentProcess from congrArg Core.currentProcess hcore,
      show u.readyqueue = s.readyqueue from congrArg Core.readyqueue hcore]
  rw [← hface, ← hbusy]
  exact loadnext_leaves hrun

theorem scheduler_resumes (hflag : s.flag = .loadcurrent) (hrun : scheduler.run s = .exit ctl t) :
    ∃ c, t.face = s.face.disable.resume c := by
  let u : Kernel :=
    { s with
      flag := .loadcurrent
      hw := { s.hw with status := Platform.statusAllIntDisable s.hw.status } }
  have hface : u.face = s.face.disable :=
    congrArg (fun l => ({ s.face.disable with flag := l } : Face)) hflag.symm
  have hload : scheduler.run s = loadCurrent.run u := by
    unfold scheduler
    simp only [getSTATUS, setSTATUS, Program.run_gets_bind, Program.run_modify_bind]
    rw [hflag]
  rw [hload] at hrun
  cases hc : u.currentProcess with
  | none =>
      rw [loadCurrent, current, Program.run_bind_bind, Program.run_gets_bind, hc] at hrun
      cases hrun
  | some c =>
      obtain ⟨r, hrun', hf⟩ := loadCurrent_run hc
      rw [hrun'] at hrun
      cases hrun
      exact ⟨c, hface ▸ hf⟩

end Scheduling

/-! ### The clock of a run -/

def tod (c : Clock) (i : ℕ) : Word := BitVec.ofNat 32 (c.time i)

def Event.clocked (c : Clock) : Event → Event
  | .dispatch => .dispatch
  | .syscall hw => .syscall { hw with tod := tod c }
  | .pgmtrap hw => .pgmtrap { hw with tod := tod c }
  | .tlb hw => .tlb { hw with tod := tod c }
  | .interrupt hw => .interrupt { hw with tod := tod c }

structure Timed where
  sys : Sys
  clock : Clock

namespace Timed

def now (x : Timed) : ℕ := x.clock.time (x.sys.kernel.hw.reads - 1)

variable [Platform]

/-- An entry comes with a clock that has not gone back; the scheduler goes on with the one it
has. -/
def step (x : Timed) (e : Event × Clock) : Option Timed :=
  match e.1.hw with
  | none => (x.sys.step e.1).map fun s => ⟨s, x.clock⟩
  | some hw =>
    if x.now ≤ e.2.time hw.reads then (x.sys.step (e.1.clocked e.2)).map fun s => ⟨s, e.2⟩ else none

def Faithful (x : Timed) : Prop := x.sys.kernel.hw.tod = tod x.clock

end Timed

section System

variable [Platform] {B : Kernel → Prop} {x y : Timed} {e : Event × Clock} {hw : Hw}

def clocked (B : Kernel → Prop) : Transition.System Timed (Event × Clock) where
  init x := ∃ k, B k ∧ AtBoot k ∧ k.hw.tod = tod x.clock ∧ Sys.boot k = some x.sys
  step x e y := x.step e = some y

omit [Platform] in
theorem Event.clocked_hw {e : Event} {c : Clock} (he : e.hw = some hw) :
    (e.clocked c).hw = some { hw with tod := tod c } := by
  cases e <;> cases he <;> rfl

/-- The scheduler's step. -/
theorem Timed.step_dispatch (he : e.1.hw = none) (hstep : x.step e = some y) :
    x.sys.step .dispatch = some y.sys ∧ y.clock = x.clock := by
  obtain ⟨ev, c⟩ := e
  cases ev with
  | dispatch =>
      obtain ⟨s, hs, rfl⟩ := Option.map_eq_some_iff.mp hstep
      exact ⟨hs, rfl⟩
  | syscall hw => cases he
  | pgmtrap hw => cases he
  | tlb hw => cases he
  | interrupt hw => cases he

theorem Timed.step_entry (he : e.1.hw = some hw) (hstep : x.step e = some y) :
    x.now ≤ e.2.time hw.reads ∧ x.sys.step (e.1.clocked e.2) = some y.sys ∧ y.clock = e.2 := by
  rw [Timed.step, he] at hstep
  dsimp only at hstep
  split at hstep
  · next hnow =>
    obtain ⟨s, hs, rfl⟩ := Option.map_eq_some_iff.mp hstep
    exact ⟨hnow, hs, rfl⟩
  · cases hstep

/-- The nucleus is not entered while the scheduler is still to run. -/
theorem Timed.entry_ctl (he : e.1.hw = some hw) (hstep : x.step e = some y) :
    x.sys.ctl ≠ .scheduler := by
  have henabled := (Sys.step_eq (Timed.step_entry he hstep).2.1).1
  intro hctl
  rw [hctl] at henabled
  obtain ⟨ev, c⟩ := e
  cases ev <;> cases he <;> cases henabled

/-- After an entry the clock is that of the entry, and has been read. -/
theorem Timed.entry_onward (he : e.1.hw = some hw) (hstep : x.step e = some y) :
    y.Faithful ∧ x.now ≤ y.now ∧ y.sys.kernel.pseudoStart = x.sys.kernel.pseudoStart ∧
      y.sys.kernel.pseudoclockflag = x.sys.kernel.pseudoclockflag := by
  obtain ⟨hnow, hsys, hclock⟩ := Timed.step_entry he hstep
  have honward := Event.onward (Event.clocked_hw he) (Sys.step_eq hsys).2.1
  have hreads : hw.reads + 1 ≤ y.sys.kernel.hw.reads := honward.reads
  refine ⟨?_, ?_, honward.pseudoStart, honward.pseudoclockflag⟩
  · rw [Timed.Faithful, hclock]
    exact honward.tod
  · apply hnow.trans
    rw [Timed.now, hclock]
    exact e.2.mono (Nat.le_sub_one_of_lt hreads)

def Face.Ahead (f g : Face) : Prop := g.hw.tod = f.hw.tod ∧ f.hw.reads ≤ g.hw.reads

omit [Platform] in
theorem Face.Ahead.trans {f g h : Face} (hf : f.Ahead g) (hg : g.Ahead h) : f.Ahead h :=
  ⟨hg.1.trans hf.1, hf.2.trans hg.2⟩

theorem schedule_ahead (f : Face) : f.Ahead f.schedule := by
  unfold Face.schedule
  split
  · exact ⟨rfl, Nat.le_succ _⟩
  · exact ⟨rfl, Nat.le_succ _⟩
  · exact ⟨rfl, le_rfl⟩

omit [Platform] in
theorem requeue_ahead (f : Face) : f.Ahead f.requeue := by
  unfold Face.requeue
  split
  · exact ⟨rfl, Nat.le_succ _⟩
  · exact ⟨rfl, le_rfl⟩

omit [Platform] in
theorem arm_ahead (f : Face) : f.Ahead f.arm := by
  unfold Face.arm
  split
  · exact ⟨rfl, Nat.le_add_right _ 3⟩
  · exact ⟨rfl, Nat.le_succ _⟩

theorem Face.Leaves.ahead {f g : Face} {ctl : Ctl} (h : f.Leaves ctl g) : f.Ahead g := by
  have hprepare : f.Ahead f.prepare := (requeue_ahead f).trans (arm_ahead _)
  cases h with
  | load p => exact hprepare.trans ⟨rfl, Nat.le_succ _⟩
  | wait => exact hprepare
  | halt => exact hprepare
  | panic => exact hprepare

/-- The scheduler reads the same clock on. -/
theorem Timed.dispatch_ahead (he : e.1.hw = none) (hstep : x.step e = some y) :
    x.sys.kernel.face.Ahead y.sys.kernel.face ∧ y.clock = x.clock := by
  obtain ⟨hsys, hclock⟩ := Timed.step_dispatch he hstep
  refine ⟨?_, hclock⟩
  have hrun : scheduler.run x.sys.kernel = .exit y.sys.ctl y.sys.kernel := (Sys.step_eq hsys).2.1
  by_cases hflag : x.sys.kernel.flag = .loadcurrent
  · obtain ⟨c, hf⟩ := scheduler_resumes hflag hrun
    rw [hf]
    exact ⟨rfl, le_rfl⟩
  · exact (schedule_ahead _).trans (scheduler_leaves hflag hrun).1.ahead

/-- The clock of the state stays the one that is read. -/
theorem Timed.Faithful.step (hx : x.Faithful) (hstep : x.step e = some y) : y.Faithful := by
  cases he : e.1.hw with
  | none =>
      obtain ⟨hahead, hclock⟩ := Timed.dispatch_ahead he hstep
      rw [Timed.Faithful, hclock]
      exact hahead.1.trans hx
  | some hw => exact (Timed.entry_onward he hstep).1

theorem clocked_boot (hinit : (clocked B).init x) :
    x.Faithful ∧ x.sys.ctl = .scheduler ∧ x.sys.kernel.flag = .start := by
  obtain ⟨k, -, hk, htod, hboot⟩ := hinit
  obtain ⟨pow, -, hface⟩ := main_face hk hboot
  have hx : x.sys.kernel.hw.tod = k.hw.tod := congrArg (fun f => f.hw.tod) hface
  exact ⟨hx.trans htod, (main_run hk hboot).1, congrArg Face.flag hface⟩

end System

/-! ### Computed runs -/

section Runs

theorem monotone_add (t : ℕ) : Monotone fun i => t + i := fun _ _ h => Nat.add_le_add_left h t

def microseconds (t : ℕ) : Clock := ⟨fun i => t + i, monotone_add t⟩

theorem tod_rest : Kernel.zero.hw.tod = tod (microseconds 0) := by
  funext i
  exact congrArg (BitVec.ofNat 32) (Nat.zero_add i).symm

variable [Platform] {B : Kernel → Prop} {γ : Type*} {start : Timed → γ}
  {next : Timed → Event × Clock → Timed → γ → γ}

def ghostStep (next : Timed → Event × Clock → Timed → γ → γ) (z : Timed × γ) (e : Event × Clock) :
    Option (Timed × γ) :=
  (z.1.step e).map fun y => (y, next z.1 e y z.2)

/-- A computed run with its ghost. -/
theorem clocked_run {C : Timed × γ → Event × Clock → Prop} [∀ z e, Decidable (C z e)] {k : Kernel}
    {c : Clock} (hB : B k) (hk : AtBoot k) (hc : k.hw.tod = tod c) (es : List (Event × Clock))
    (Q : Timed × γ → Bool)
    (h : ((Sys.boot k).bind fun s => follow (ghostStep next) C es (⟨s, c⟩, start ⟨s, c⟩)).any Q =
      true) :
    ∃ z, Reach ((clocked B).ghost start next) C z ∧ Q z = true := by
  obtain ⟨z, hrun, hQ⟩ := (Option.any_eq_true _ _).mp h
  obtain ⟨s, hboot, hes⟩ := Option.bind_eq_some_iff.mp hrun
  exact ⟨z, Reach.follow_ghost (fun _ _ _ hs => hs) ⟨k, hB, hk, hc, hboot⟩ hes, hQ⟩

end Runs

end JaeOS
