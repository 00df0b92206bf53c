import JaeOS.Timed

/-!
# The pseudo-clock

Every 100 ms a timer interrupt is to be a tick. `loadnext` programs the timer with a time slice, or,
close to the tick, with what is left of the 100 ms, and then writes down that the next timer
interrupt is the tick. What it programs and whether the tick comes in time depends on when it is
called.
-/

open Transition

namespace JaeOS

/-! ### The times of a run -/

/-- Times kept for the statements: of the reading that `pseudo_start` holds, of the last restart of
the pseudo-clock, and of the last reading before the timer was set. -/
structure Tick where
  start : ℕ
  reset : ℕ
  set : ℕ

def Flag.restarts : Flag → Bool
  | .start => true
  | .reset => true
  | _ => false

section Defs

variable [Platform] (k : Kernel)

def firstRead : ℕ := k.face.schedule.requeue.hw.reads

/-- The test of line 78: the tick is near. -/
def Near : Prop :=
  k.face.schedule.requeue.now - k.face.schedule.requeue.pseudoStart >
    schedPseudoClock - schedTimeSlice

instance : Decidable (Near k) := inferInstanceAs (Decidable (_ > _))

def Tick.restart (g : Tick) (c : Clock) : Tick :=
  if k.flag.restarts then
    { g with start := c.time k.hw.reads, reset := c.time k.hw.reads }
  else g

def Tick.arm (g : Tick) (c : Clock) (ctl : Ctl) : Tick :=
  if Near k then
    { g with
      start := c.time (firstRead k + 2)
      -- `deadlock_detection` sets the timer once more
      set := c.time (if ctl = .wait then firstRead k + 2 else firstRead k + 1) }
  else { g with set := c.time (firstRead k) }

end Defs

section Runs

variable [Platform] {B : Kernel → Prop}

def Tick.next (x : Timed) (e : Event × Clock) (y : Timed) (g : Tick) : Tick :=
  if e.1.hw = none ∧ x.sys.kernel.flag ≠ .loadcurrent then
    (g.restart x.sys.kernel x.clock).arm x.sys.kernel x.clock y.sys.ctl
  else g

def ticking (B : Kernel → Prop) : Transition.System (Timed × Tick) (Event × Clock) :=
  (clocked B).ghost (fun _ => ⟨0, 0, 0⟩) Tick.next

def AtLoadnext (x : Timed) : Prop := x.sys.ctl = .scheduler ∧ x.sys.kernel.flag ≠ .loadcurrent

structure Face.Ticks (f : Face) (g : Tick) (t : ℕ) : Prop where
  start : f.pseudoStart = BitVec.ofNat 32 g.start
  le : g.start ≤ t
  clear : f.pseudoclockflag = false → g.start = g.reset
  armed : f.pseudoclockflag = true → g.reset + 95000 < g.start

variable {x y : Timed} {g g' : Tick} {f : Face} {c : Clock} {k : Kernel} {e : Event × Clock}
    {t u : ℕ}
  {ctl : Ctl}

omit [Platform] in
theorem Face.Ticks.later (h : f.Ticks g t) (htu : t ≤ u) : f.Ticks g u :=
  ⟨h.start, h.le.trans htu, h.clear, h.armed⟩

omit [Platform] in
theorem Face.Ticks.reset_le (h : f.Ticks g t) : g.reset ≤ g.start := by
  cases hflag : f.pseudoclockflag with
  | false => exact (h.clear hflag).ge
  | true =>
      have harmed := h.armed hflag
      omega

omit [Platform] in
theorem requeue_ticks (h : f.Ticks g t) : f.requeue.Ticks g t := by
  unfold Face.requeue
  split
  · exact ⟨h.start, h.le, h.clear, h.armed⟩
  · exact h

/-- The times on line 78. -/
theorem restart_ticks (hc : k.hw.tod = tod c)
    (h : k.flag = .start ∨ k.face.Ticks g (c.time k.hw.reads)) :
    k.face.schedule.requeue.Ticks (g.restart k c) (c.time (firstRead k)) := by
  have hsched : k.face.schedule.Ticks (g.restart k c) (c.time k.hw.reads) := by
    have hnow : k.face.now = BitVec.ofNat 32 (c.time k.hw.reads) := congrFun hc _
    unfold Face.schedule Tick.restart
    cases hf : k.flag with
    | start =>
        rw [show k.face.flag = .start from hf, if_pos (show Flag.start.restarts = true from rfl)]
        exact ⟨hnow, le_rfl, fun _ => rfl, fun h => by cases h⟩
    | reset =>
        rw [show k.face.flag = .reset from hf, if_pos (show Flag.reset.restarts = true from rfl)]
        exact ⟨hnow, le_rfl, fun _ => rfl, fun h => by cases h⟩
    | loadnext =>
        rw [show k.face.flag = .loadnext from hf, if_neg (by decide)]
        have hticks := h.resolve_left (by rw [hf]; exact Flag.noConfusion)
        exact ⟨hticks.start, hticks.le, hticks.clear, hticks.armed⟩
    | loadcurrent =>
        rw [show k.face.flag = .loadcurrent from hf, if_neg (by decide)]
        have hticks := h.resolve_left (by rw [hf]; exact Flag.noConfusion)
        exact ⟨hticks.start, hticks.le, hticks.clear, hticks.armed⟩
  have hreads : k.hw.reads ≤ firstRead k :=
    ((schedule_ahead k.face).trans (requeue_ahead _)).2
  exact (requeue_ticks hsched).later (c.mono hreads)

omit [Platform] in
/-- The test of line 78 is made on what the register shows of the time gone by. -/
theorem near_iff (hc : f.hw.tod = tod c) (h : f.Ticks g (c.time f.hw.reads)) :
    f.now - f.pseudoStart > schedPseudoClock - schedTimeSlice ↔
      95000 < (BitVec.ofNat 32 (c.time f.hw.reads) - BitVec.ofNat 32 g.start).toNat := by
  rw [gt_iff_lt, BitVec.lt_def, h.start, Face.now, hc]
  rfl

/-- More than 95 ms have gone by. -/
theorem Near.elapsed (hc : k.face.schedule.requeue.hw.tod = tod c)
    (h : k.face.schedule.requeue.Ticks g (c.time (firstRead k))) (hnear : Near k) :
    g.start + 95000 < c.time (firstRead k) := by
  have hshown := (near_iff hc h).mp hnear
  have hle := Clock.elapsed_toNat_le (w := 32) h.le
  have hlt := hshown.trans_le hle
  omega

/-- The times when `loadnext` looks for a process. -/
theorem arm_ticks (hc : k.face.schedule.requeue.hw.tod = tod c)
    (h : k.face.schedule.requeue.Ticks g (c.time (firstRead k))) :
    k.face.schedule.prepare.Ticks (g.arm k c ctl)
      (c.time (k.face.schedule.prepare.hw.reads - 1)) := by
  have hprepare : k.face.schedule.prepare = k.face.schedule.requeue.arm := rfl
  unfold Tick.arm
  by_cases hnear : Near k
  · have harm : k.face.schedule.requeue.arm = _ := if_pos hnear
    rw [hprepare, harm, if_pos hnear]
    have helapsed := hnear.elapsed hc h
    have hreset := h.reset_le
    have hmono : c.time (firstRead k) ≤ c.time (firstRead k + 2) := c.mono (Nat.le_add_right _ 2)
    refine ⟨congrFun hc _, le_rfl, fun hclear => ?_, fun _ => ?_⟩
    · cases hclear
    · change g.reset + 95000 < c.time (firstRead k + 2)
      omega
  · have harm : k.face.schedule.requeue.arm = _ := if_neg hnear
    rw [hprepare, harm, if_neg hnear]
    exact ⟨h.start, h.le, h.clear, h.armed⟩

def Timely (x : Timed) (g : Tick) : Prop :=
  x.sys.ctl = .scheduler ∧ x.sys.kernel.flag = .start ∨ x.sys.kernel.face.Ticks g x.now

/-- The face on line 78, when the times are right. -/
theorem Timely.line78 (hx : x.Faithful) (h : Timely x g) :
    x.sys.kernel.face.schedule.requeue.hw.tod = tod x.clock ∧
      x.sys.kernel.face.schedule.requeue.Ticks (g.restart x.sys.kernel x.clock)
        (x.clock.time (firstRead x.sys.kernel)) := by
  refine ⟨((schedule_ahead _).trans (requeue_ahead _)).1.trans hx, restart_ticks hx ?_⟩
  rcases h with ⟨-, hflag⟩ | hticks
  · exact Or.inl hflag
  · exact Or.inr (hticks.later (x.clock.mono (Nat.sub_le _ 1)))

theorem Face.Leaves.ticks {f' : Face} (h : f.Leaves ctl f')
    (hticks : f.prepare.Ticks g (c.time (f.prepare.hw.reads - 1))) :
    f'.Ticks g (c.time (f'.hw.reads - 1)) := by
  cases h with
  | load p =>
      have hlater := hticks.later (c.mono (Nat.sub_le_sub_right (Nat.le_succ f.prepare.hw.reads) 1))
      exact ⟨hlater.start, hlater.le, hlater.clear, hlater.armed⟩
  | wait => exact ⟨hticks.start, hticks.le, hticks.clear, hticks.armed⟩
  | halt => exact hticks
  | panic => exact hticks

theorem Timely.step (hx : x.Faithful) (h : Timely x g) (hstep : x.step e = some y) :
    Timely y (Tick.next x e y g) := by
  cases he : e.1.hw with
  | some hw =>
      obtain ⟨-, hnow, hstart, hflag⟩ := Timed.entry_onward he hstep
      have hnext : Tick.next x e y g = g := if_neg fun h => by
        rw [he] at h
        cases h.1
      have hticks := (h.resolve_left fun h => Timed.entry_ctl he hstep h.1).later hnow
      rw [hnext]
      right
      exact ⟨hstart.trans hticks.start, hticks.le, fun hf => hticks.clear (hflag.symm.trans hf),
        fun hf => hticks.armed (hflag.symm.trans hf)⟩
  | none =>
      obtain ⟨hsys, hclock⟩ := Timed.step_dispatch he hstep
      have hrun : scheduler.run x.sys.kernel = .exit y.sys.ctl y.sys.kernel :=
        (Sys.step_eq hsys).2.1
      right
      by_cases hflag : x.sys.kernel.flag = .loadcurrent
      · obtain ⟨p, hf⟩ := scheduler_resumes hflag hrun
        have hnext : Tick.next x e y g = g := if_neg fun h => h.2 hflag
        have hticks := h.resolve_left fun h => by
          rw [hflag] at h
          cases h.2
        rw [hnext, Timed.now, hclock,
          show y.sys.kernel.hw.reads = x.sys.kernel.hw.reads from congrArg (fun f => f.hw.reads) hf,
            hf]
        exact ⟨hticks.start, hticks.le, hticks.clear, hticks.armed⟩
      · have hnext : Tick.next x e y g =
            (g.restart x.sys.kernel x.clock).arm x.sys.kernel x.clock y.sys.ctl :=
            if_pos ⟨he, hflag⟩
        obtain ⟨htod, hticks⟩ := h.line78 hx
        rw [hnext, Timed.now, hclock]
        exact (scheduler_leaves hflag hrun).1.ticks (arm_ticks htod hticks)

theorem ticking_timely {C : Timed × Tick → Event × Clock → Prop} {z : Timed × Tick}
    (h : Reach (ticking B) C z) : z.1.Faithful ∧ Timely z.1 z.2 := by
  apply h.invariant
  · rintro ⟨x, g⟩ ⟨hinit, -⟩
    obtain ⟨hx, hboot⟩ := clocked_boot hinit
    exact ⟨hx, Or.inl hboot⟩
  · intro z e z' hz _ hstep
    refine ⟨hz.1.step hstep.1, ?_⟩
    rw [hstep.2]
    exact hz.2.step hz.1 hstep.1

/-! ### The time slice -/

/-- The value that `loadnext`, when `scheduler` calls it in `k`, passes to `setTIMER`. -/
def timerSet (k : Kernel) : Option Word :=
  match (do callLoadnext; requeueCurrent; armTimer : KM Unit).run k with
  | .ok _ t => some t.hw.timer
  | _ => none

theorem timerSet_eq (k : Kernel) : timerSet k = some k.face.schedule.prepare.hw.timer := by
  obtain ⟨s₁, hrun₁, hface₁, -⟩ := callLoadnext_face k
  obtain ⟨s₂, hrun₂, hface₂, -⟩ := requeueCurrent_busy s₁
  obtain ⟨s₃, hrun₃, hface₃, -⟩ := armTimer_face s₂
  have htimer : s₃.hw.timer = k.face.schedule.prepare.hw.timer := by
    rw [← hface₁, Face.prepare, ← hface₂, ← hface₃]
    rfl
  rw [timerSet, Program.run_bind_ok hrun₁, Program.run_bind_ok hrun₂, hrun₃, ← htimer]

def SetsSlice (k : Kernel) : Prop := ∃ w, timerSet k = some w ∧ 1 ≤ w ∧ w ≤ schedTimeSlice

/-- `loadnext` finds on line 78 that the tick is near, and on line 80 that it should have been. -/
def Late (x : Timed) (g : Tick) : Prop :=
  Near x.sys.kernel ∧
    (g.restart x.sys.kernel x.clock).start + 100000 ≤ x.clock.time (firstRead x.sys.kernel + 1)

instance (x : Timed) (g : Tick) : Decidable (Late x g) := inferInstanceAs (Decidable (_ ∧ _))

theorem near_timer (hc : k.face.schedule.requeue.hw.tod = tod c)
    (h : k.face.schedule.requeue.Ticks g (c.time (firstRead k))) (hnear : Near k) :
    k.face.schedule.prepare.hw.timer =
      BitVec.ofNat 32 100000 - BitVec.ofNat 32 (c.time (firstRead k + 1) - g.start) := by
  have harm : k.face.schedule.requeue.arm = _ := if_pos hnear
  have hle : g.start ≤ c.time (firstRead k + 1) := h.le.trans (c.mono (Nat.le_succ _))
  rw [← Clock.ofNat_sub hle, ← h.start, Face.prepare, harm]
  exact congrArg (fun r => schedPseudoClock - (r - k.face.schedule.requeue.pseudoStart))
    (congrFun hc _)

omit [Platform] in
/-- What is left of the 100 ms is a time slice until they are over, and then not for an hour. -/
theorem remaining_slice (hd : u < 2 ^ 32) :
    (1 ≤ BitVec.ofNat 32 100000 - BitVec.ofNat 32 u ∧
      BitVec.ofNat 32 100000 - BitVec.ofNat 32 u ≤ schedTimeSlice) ↔ 95000 ≤ u ∧ u < 100000 := by
  have hone : (1 : Word).toNat = 1 := rfl
  have hslice : schedTimeSlice.toNat = 5000 := rfl
  rw [BitVec.le_def, BitVec.le_def, hone, hslice]
  by_cases hu : u ≤ 100000
  · rw [Clock.ofNat_sub hu, Clock.toNat_ofNat (by omega)]
    omega
  · have hwrap : (BitVec.ofNat 32 100000 - BitVec.ofNat 32 u).toNat = 2 ^ 32 + 100000 - u := by
      rw [BitVec.toNat_sub, Clock.toNat_ofNat hd, Clock.toNat_ofNat (by omega)]
      omega
    rw [hwrap]
    omega

/-- What `loadnext` programs is a time slice as long as it is not late, and only then, unless it is
called more than an hour after the pseudo-clock was started. -/
theorem timer_in_range {C : Timed × Tick → Event × Clock → Prop} (h : Reach (ticking B) C (x, g)) :
    (¬ Late x g → SetsSlice x.sys.kernel) ∧
      (x.clock.time (firstRead x.sys.kernel + 1) < (g.restart x.sys.kernel x.clock).start + 2 ^ 32 →
        SetsSlice x.sys.kernel → ¬ Late x g) := by
  obtain ⟨hx, htimely⟩ : x.Faithful ∧ Timely x g := ticking_timely h
  obtain ⟨htod, hticks⟩ := htimely.line78 hx
  by_cases hnear : Near x.sys.kernel
  · have helapsed := hnear.elapsed htod hticks
    have hmono : x.clock.time (firstRead x.sys.kernel) ≤ x.clock.time
        (firstRead x.sys.kernel + 1) :=
      x.clock.mono (Nat.le_succ _)
    have htimer := near_timer htod hticks hnear
    constructor
    · intro hlate
      have hearly : ¬ _ ≤ _ := fun hle => hlate ⟨hnear, hle⟩
      refine ⟨_, timerSet_eq _, ?_⟩
      rw [htimer]
      exact (remaining_slice (by omega)).mpr (by omega)
    · rintro hsoon ⟨w, hset, hslice⟩ ⟨-, hlate⟩
      obtain rfl := Option.some.inj ((timerSet_eq _).symm.trans hset)
      rw [htimer] at hslice
      have hbounds := (remaining_slice (by omega)).mp hslice
      omega
  · have harm : x.sys.kernel.face.schedule.requeue.arm = _ := if_neg hnear
    refine ⟨fun _ => ⟨schedTimeSlice, ?_, by decide, by decide⟩, fun _ _ hlate => hnear hlate.1⟩
    rw [timerSet_eq, Face.prepare, harm]

/-! ### The tick -/

def Tick.due (g : Tick) : ℕ := g.reset + 100000

def Tick.expiry (g : Tick) (k : Kernel) : ℕ := g.set + k.hw.timer.toNat

/-- Before the tick is due, the timer expires in time for it, and if it expires when the tick is
due, `timer_handler` will take that for the tick. -/
def Punctual (y : Timed) (g : Tick) : Prop :=
  y.now < g.due → g.expiry y.sys.kernel ≤ g.due ∧
    (g.expiry y.sys.kernel = g.due → y.sys.kernel.pseudoclockflag = true)

/-- `loadnext` gives up control, to a process or in `deadlock_detection`. -/
def GivesUp (B : Kernel → Prop) (z z' : Timed × Tick) : Prop :=
  (∃ c, (ticking B).step z (.dispatch, c) z') ∧ z.1.sys.kernel.flag ≠ .loadcurrent ∧
    ((∃ st, z'.1.sys.ctl = .ldst st) ∨ z'.1.sys.ctl = .wait)

/-- The timer is not programmed for the tick already, `loadnext` is not called just 95 ms after the
restart, and after that a process is ready. -/
def OnTrack (x : Timed) (g : Tick) : Prop :=
  (x.sys.kernel.flag.restarts = true ∨ x.sys.kernel.pseudoclockflag = false) ∧
    x.clock.time (firstRead x.sys.kernel) ≠ (g.restart x.sys.kernel x.clock).start + 95000 ∧
    (Near x.sys.kernel → x.sys.kernel.Busy)

theorem line78_flag (k : Kernel) :
    k.face.schedule.requeue.pseudoclockflag = (!k.flag.restarts && k.pseudoclockflag) := by
  have hrequeue : ∀ f : Face, f.requeue.pseudoclockflag = f.pseudoclockflag := by
    intro f
    unfold Face.requeue
    split <;> rfl
  rw [hrequeue, Face.schedule]
  cases hf : k.flag with
  | start => rw [show k.face.flag = .start from hf]; rfl
  | reset => rw [show k.face.flag = .reset from hf]; rfl
  | loadnext => rw [show k.face.flag = .loadnext from hf]; rfl
  | loadcurrent => rw [show k.face.flag = .loadcurrent from hf]; rfl

/-- The timer is not programmed for the tick on line 78. -/
theorem line78_unarmed : k.face.schedule.requeue.pseudoclockflag = false ↔
    k.flag.restarts = true ∨ k.pseudoclockflag = false := by
  rw [line78_flag, Bool.and_eq_false_iff, Bool.not_eq_false']

theorem Face.Leaves.gives {f' : Face} (h : f.Leaves ctl f')
    (hctl : (∃ st, ctl = .ldst st) ∨ ctl = .wait) :
    ctl ≠ .wait ∧ (∃ p, f' = f.prepare.load p) ∨ ctl = .wait ∧ f' = f.prepare.idle := by
  cases h with
  | load p => exact Or.inl ⟨Ctl.noConfusion, p, rfl⟩
  | wait => exact Or.inr ⟨rfl, rfl⟩
  | halt => rcases hctl with ⟨st, hst⟩ | hwait <;> contradiction
  | panic => rcases hctl with ⟨st, hst⟩ | hwait <;> contradiction

/-- With the tick near, the timer is programmed for it before a process is loaded. -/
theorem near_load (hc : k.face.schedule.requeue.hw.tod = tod c)
    (h : k.face.schedule.requeue.Ticks g (c.time (firstRead k))) (hnear : Near k) {p : Pcb}
    (hy : y.sys.kernel.face = k.face.schedule.prepare.load p) (hyc : y.clock = c)
    (hctl : y.sys.ctl ≠ .wait) :
    Punctual y (g.arm k c y.sys.ctl) ∧
      (y.now < g.due → k.face.schedule.requeue.pseudoclockflag = false) := by
  have helapsed := hnear.elapsed hc h
  have hprep : k.face.schedule.prepare = _ := if_pos hnear
  have harm :
      g.arm k c y.sys.ctl = ⟨c.time (firstRead k + 2), g.reset, c.time (firstRead k + 1)⟩ := by
    rw [Tick.arm, if_pos hnear, if_neg hctl]
  have hreads : y.sys.kernel.hw.reads = firstRead k + 4 := by
    rw [show y.sys.kernel.hw.reads = y.sys.kernel.face.hw.reads from rfl, hy, hprep]
    rfl
  have hflag : y.sys.kernel.pseudoclockflag = true := by
    rw [show y.sys.kernel.pseudoclockflag = y.sys.kernel.face.pseudoclockflag from rfl, hy, hprep]
    rfl
  have htimer : y.sys.kernel.hw.timer =
      BitVec.ofNat 32 100000 - BitVec.ofNat 32 (c.time (firstRead k + 1) - g.start) := by
    rw [← near_timer hc h hnear, show y.sys.kernel.hw.timer = y.sys.kernel.face.hw.timer from rfl,
      hy]
    rfl
  have hnow : y.now = c.time (firstRead k + 3) := by rw [Timed.now, hreads, hyc]; rfl
  have hmono : c.time (firstRead k) ≤ c.time (firstRead k + 1) := c.mono (Nat.le_succ _)
  have hmono₃ : c.time (firstRead k + 1) ≤ c.time (firstRead k + 3) := c.mono (Nat.le_add_right _ 2)
  have hclear : y.now < g.due → k.face.schedule.requeue.pseudoclockflag = false := by
    intro hdue
    rw [hnow, Tick.due] at hdue
    cases hf : k.face.schedule.requeue.pseudoclockflag with
    | false => rfl
    | true =>
        have harmed := h.armed hf
        omega
  refine ⟨fun hdue => ?_, hclear⟩
  rw [harm] at hdue ⊢
  have hstart := h.clear (hclear hdue)
  rw [hnow, Tick.due] at hdue
  dsimp only at hdue
  rw [Tick.expiry, Tick.due, htimer, Clock.ofNat_sub (by omega), Clock.toNat_ofNat (by omega)]
  exact ⟨by dsimp only; omega, fun _ => hflag⟩

/-- With the tick near and no process ready, `deadlock_detection` programs the timer again. -/
theorem near_wait (hc : k.face.schedule.requeue.hw.tod = tod c)
    (h : k.face.schedule.requeue.Ticks g (c.time (firstRead k))) (hnear : Near k)
    (hy : y.sys.kernel.face = k.face.schedule.prepare.idle) (hctl : y.sys.ctl = .wait)
    (hdue : y.now < (g.arm k c y.sys.ctl).due) :
    ¬ Punctual y (g.arm k c y.sys.ctl) := by
  have helapsed := hnear.elapsed hc h
  have hreset := h.reset_le
  have harm :
      g.arm k c y.sys.ctl = ⟨c.time (firstRead k + 2), g.reset, c.time (firstRead k + 2)⟩ := by
    rw [Tick.arm, if_pos hnear, if_pos hctl]
  have htimer : y.sys.kernel.hw.timer.toNat = 5000 := by
    rw [show y.sys.kernel.hw.timer = y.sys.kernel.face.hw.timer from rfl, hy]
    rfl
  have hmono : c.time (firstRead k) ≤ c.time (firstRead k + 2) := c.mono (Nat.le_add_right _ 2)
  intro hpunctual
  have hexpiry := (hpunctual hdue).1
  rw [harm, Tick.expiry, Tick.due, htimer] at hexpiry
  dsimp only at hexpiry
  omega

/-- Far from the tick a time slice is programmed. -/
theorem far_slice (hc : k.face.schedule.requeue.hw.tod = tod c)
    (h : k.face.schedule.requeue.Ticks g (c.time (firstRead k))) (hfar : ¬ Near k)
    (hy : (∃ p, y.sys.kernel.face = k.face.schedule.prepare.load p) ∨
      y.sys.kernel.face = k.face.schedule.prepare.idle) (hyc : y.clock = c) :
    Punctual y (g.arm k c y.sys.ctl) ↔ (y.now < g.due →
      k.face.schedule.requeue.pseudoclockflag = false ∧
      c.time (firstRead k) ≠ g.start + 95000) := by
  have hprep : k.face.schedule.prepare = _ := if_neg hfar
  have harm : g.arm k c y.sys.ctl = { g with set := c.time (firstRead k) } := if_neg hfar
  have htimer : y.sys.kernel.hw.timer.toNat = 5000 := by
    rw [show y.sys.kernel.hw.timer = y.sys.kernel.face.hw.timer from rfl]
    rcases hy with ⟨p, hy⟩ | hy
    · rw [hy, hprep]
      rfl
    · rw [hy]
      rfl
  have hflag : y.sys.kernel.pseudoclockflag = k.face.schedule.requeue.pseudoclockflag := by
    rw [show y.sys.kernel.pseudoclockflag = y.sys.kernel.face.pseudoclockflag from rfl]
    rcases hy with ⟨p, hy⟩ | hy <;> rw [hy, hprep] <;> rfl
  have hnow : c.time (firstRead k) ≤ y.now := by
    have hreads : firstRead k + 1 ≤ y.sys.kernel.face.hw.reads := by
      rcases hy with ⟨p, hy⟩ | hy
      · rw [hy, hprep]
        exact Nat.le_succ _
      · rw [hy, hprep]
        exact le_rfl
    rw [Timed.now, hyc]
    exact c.mono (Nat.le_sub_one_of_lt hreads)
  have hreset := h.reset_le
  have hle := h.le
  have hpunctual : Punctual y (g.arm k c y.sys.ctl) ↔ (y.now < g.reset + 100000 →
      c.time (firstRead k) + 5000 ≤ g.reset + 100000 ∧
        (c.time (firstRead k) + 5000 = g.reset + 100000 →
          k.face.schedule.requeue.pseudoclockflag = true)) := by
    rw [harm, Punctual, Tick.due, Tick.expiry, htimer, hflag]
  rw [hpunctual, Tick.due]
  apply imp_congr_right
  intro hdue
  cases hf : k.face.schedule.requeue.pseudoclockflag with
  | false =>
      have hstart := h.clear hf
      have hshown : (BitVec.ofNat 32 (c.time (firstRead k)) - BitVec.ofNat 32 g.start).toNat ≤
          95000 :=
        not_lt.mp ((near_iff hc h).not.mp hfar)
      have helapsed := Clock.elapsed_toNat (w := 32) hle (by omega)
      have hslice : c.time (firstRead k) ≤ g.start + 95000 := by omega
      constructor
      · rintro ⟨-, hexact⟩
        exact ⟨rfl, fun heq => Bool.false_ne_true (hexact (by omega))⟩
      · rintro ⟨-, hne⟩
        exact ⟨by omega, fun heq => absurd (by omega) hne⟩
  | true =>
      have harmed := h.armed hf
      constructor
      · rintro ⟨hexpiry, -⟩
        omega
      · rintro ⟨hclear, -⟩
        cases hclear

/-- The tick is kept by `loadnext` as long as the kernel is on track, and only then. -/
theorem tick_in_time {C : Timed × Tick → Event × Clock → Prop} (h : Reach (ticking B) C (x, g))
    (hgives : GivesUp B (x, g) (y, g')) :
    Punctual y g' ↔ (y.now < g'.due → OnTrack x g) := by
  obtain ⟨hx, htimely⟩ : x.Faithful ∧ Timely x g := ticking_timely h
  obtain ⟨htod, hticks⟩ := htimely.line78 hx
  obtain ⟨⟨c, hstep, hg⟩, hflag, hctl⟩ := hgives
  obtain ⟨hsys, hclock⟩ := Timed.step_dispatch rfl hstep
  obtain ⟨hleaves, hwait, hload⟩ := scheduler_leaves hflag (Sys.step_eq hsys).2.1
  have hnext : g' = (g.restart x.sys.kernel x.clock).arm x.sys.kernel x.clock y.sys.ctl :=
    hg.trans (if_pos ⟨rfl, hflag⟩)
  have hdue : g'.due = (g.restart x.sys.kernel x.clock).due := by
    rw [hnext]
    unfold Tick.arm
    split <;> rfl
  rw [hdue, OnTrack, ← line78_unarmed, hnext]
  rcases hleaves.gives hctl with ⟨hnowait, p, hy⟩ | ⟨hidle, hy⟩
  · have hbusy : x.sys.kernel.Busy := by
      obtain ⟨st, hst⟩ := hctl.resolve_right hnowait
      exact hload st hst
    by_cases hnear : Near x.sys.kernel
    · obtain ⟨hpunctual, hclear⟩ := near_load htod hticks hnear hy hclock hnowait
      have helapsed := hnear.elapsed htod hticks
      exact iff_of_true hpunctual fun hnow => ⟨hclear hnow, helapsed.ne', fun _ => hbusy⟩
    · rw [far_slice htod hticks hnear (Or.inl ⟨p, hy⟩) hclock]
      apply imp_congr_right
      intro _
      rw [and_iff_left fun h => absurd h hnear]
  · by_cases hnear : Near x.sys.kernel
    · have hdue' : ((g.restart x.sys.kernel x.clock).arm x.sys.kernel x.clock y.sys.ctl).due =
          (g.restart x.sys.kernel x.clock).due := by rw [← hnext, hdue]
      by_cases hnow : y.now < (g.restart x.sys.kernel x.clock).due
      · have hlost := near_wait htod hticks hnear hy hidle (hdue'.symm ▸ hnow)
        apply iff_of_false hlost
        exact fun htrack => hwait hidle ((htrack hnow).2.2 hnear)
      · exact iff_of_true (fun h => absurd (hdue' ▸ h) hnow) fun h => absurd h hnow
    · rw [far_slice htod hticks hnear (Or.inr hy) hclock]
      apply imp_congr_right
      intro _
      rw [and_iff_left fun h => absurd h hnear]

end Runs

/-! ### Two runs -/

section Board

/-- Entries come no later than `latency` after the timer expires. -/
def Prompt (latency : ℕ) (z : Timed × Tick) (e : Event × Clock) : Prop :=
  e.1.hw.all fun hw => e.2.time hw.reads ≤ z.2.expiry z.1.sys.kernel + latency

instance (latency : ℕ) (z : Timed × Tick) (e : Event × Clock) : Decidable (Prompt latency z e) :=
  inferInstanceAs (Decidable (_ = true))

attribute [local instance] uarm

/-- A computed run from the kernel of zeros. -/
theorem ticking_run (es : List (Event × Clock)) (Q : Timed × Tick → Bool)
    (h : ((Sys.boot Kernel.zero).bind fun s => follow (ghostStep Tick.next) (Prompt 10) es
      (⟨s, microseconds 0⟩, ⟨0, 0, 0⟩)).any Q = true) :
    ∃ z, Reach (ticking fun _ => True) (Prompt 10) z ∧ Q z = true :=
  clocked_run trivial atBoot_zero tod_rest es Q h

def timerInterrupt : Event := .interrupt { Hw.rest with cause := 1 <<< 26 }

def slices (ts : List ℕ) : List (Event × Clock) :=
  (.dispatch, microseconds 0) ::
    ts.flatMap fun t => [(timerInterrupt, microseconds t), (.dispatch, microseconds 0)]

/-- The first slice ends early, and then they last 5003 μs; the last one begins 94997 μs after the
restart. -/
def lateRun : List (Event × Clock) :=
  (slices ((List.range 20).map fun j => 4940 + 5003 * j)).dropLast

theorem slice_wraps : ¬ ∀ x g, Reach (ticking fun _ => True) (Prompt 10) (x, g) → AtLoadnext x →
    SetsSlice x.sys.kernel := by
  intro hall
  obtain ⟨⟨x, g⟩, hreach, hQ⟩ := ticking_run lateRun
    (fun z => z.1.sys.ctl = .scheduler ∧ z.1.sys.kernel.flag ≠ .loadcurrent ∧
      timerSet z.1.sys.kernel = some 0xFFFFFFFF)
    (by decide +kernel)
  obtain ⟨hctl, hflag, hset⟩ := of_decide_eq_true hQ
  obtain ⟨w, hw, -, hle⟩ := hall x g hreach ⟨hctl, hflag⟩
  obtain rfl := Option.some.inj (hset.symm.trans hw)
  exact absurd hle (by decide)

/-- The second slice is programmed in time. -/
theorem timer_in_range_second : ∃ x : Timed, x.sys.kernel.startTOD = 2 ∧
    SetsSlice x.sys.kernel := by
  obtain ⟨⟨x, g⟩, hreach, hQ⟩ := ticking_run (slices [5003]).dropLast
    (fun z => z.1.sys.kernel.startTOD = 2 ∧ ¬ Late z.1 z.2) (by decide +kernel)
  obtain ⟨hstart, hlate⟩ := of_decide_eq_true hQ
  exact ⟨x, hstart, (timer_in_range hreach).1 hlate⟩

/-- The timer is programmed for the tick 4939 μs before it is due; then the process waits for the
pseudo-clock. -/
def idleRun : List (Event × Clock) :=
  slices ((List.range 19).map fun j => 5003 + 5003 * j) ++ [(call 9, microseconds 96000)]

/-- `deadlock_detection` waits beyond the tick. -/
theorem tick_postponed : ¬ ∀ x g y g', Reach (ticking fun _ => True) (Prompt 10) (x, g) →
    GivesUp (fun _ => True) (x, g) (y, g') → Punctual y g' := by
  intro hall
  obtain ⟨⟨x, g⟩, hreach, hQ⟩ := ticking_run idleRun
    (fun z => z.1.sys.kernel.flag ≠ .loadcurrent ∧
      (ghostStep Tick.next z (.dispatch, microseconds 0)).any fun z' =>
        z'.1.sys.ctl = .wait ∧ z'.1.now < z'.2.due ∧ z'.2.due < z'.2.expiry z'.1.sys.kernel)
    (by decide +kernel)
  obtain ⟨hflag, hany⟩ := of_decide_eq_true hQ
  obtain ⟨⟨y, g'⟩, hstep, hQ'⟩ := (Option.any_eq_true _ _).mp hany
  obtain ⟨hwait, hnow, hexpiry⟩ := of_decide_eq_true hQ'
  obtain ⟨y', hy, hz⟩ := Option.map_eq_some_iff.mp hstep
  cases hz
  have hpunctual := hall x g y _ hreach ⟨⟨_, hy, rfl⟩, hflag, Or.inr hwait⟩
  exact absurd (hpunctual hnow).1 hexpiry.not_ge

/-- After the second slice the tick can still come in time. -/
theorem tick_in_time_second :
    ∃ y g, (y : Timed).sys.kernel.startTOD = 5007 ∧ y.now < g.due ∧ Punctual y g := by
  obtain ⟨⟨x, g⟩, hreach, hQ⟩ := ticking_run (slices [5003]).dropLast
    (fun z => z.1.sys.kernel.flag ≠ .loadcurrent ∧ z.1.sys.kernel.pseudoclockflag = false ∧
      z.1.clock.time (firstRead z.1.sys.kernel) ≠
        (z.2.restart z.1.sys.kernel z.1.clock).start + 95000 ∧ ¬ Near z.1.sys.kernel ∧
      (ghostStep Tick.next z (.dispatch, microseconds 0)).any fun z' =>
        z'.1.sys.ctl = .ldst (z'.1.sys.kernel.pS 0) ∧ z'.1.sys.kernel.startTOD = 5007 ∧
          z'.1.now < z'.2.due)
    (by decide +kernel)
  obtain ⟨hflag, hclear, hexact, hfar, hany⟩ := of_decide_eq_true hQ
  obtain ⟨⟨y, g'⟩, hstep, hQ'⟩ := (Option.any_eq_true _ _).mp hany
  obtain ⟨hload, hstart, hnow⟩ := of_decide_eq_true hQ'
  obtain ⟨y', hy, hz⟩ := Option.map_eq_some_iff.mp hstep
  cases hz
  have hgives : GivesUp (fun _ => True) (x, g) (y, _) := ⟨⟨_, hy, rfl⟩, hflag, Or.inl ⟨_, hload⟩⟩
  have htrack : OnTrack x g := ⟨Or.inr hclear, hexact, fun h => absurd h hfar⟩
  exact ⟨y, _, hstart, hnow, (tick_in_time hreach hgives).mpr fun _ => htrack⟩

end Board

end JaeOS
