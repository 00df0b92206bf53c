import JaeOS.Board
import JaeOS.Interleaving

/-!
# Requests that get lost

`io_devop` queues its caller before it writes the command. `P` sets `current_process` to `NULL`, so
that an interrupt taken between the two finds nobody in whose `p_s` the rest of `io_devop` could be
kept: the command is never written, and nobody will wake the caller. Before `P` has done so the rest
is kept, but with the caller in the queue it goes on only when somebody else's interrupt wakes it,
and whenever it goes on the handlers have overwritten its frames. No request is lost as long as no
interrupt is taken in `io_devop` before the command is written.
-/

open LinkRing Transition

namespace JaeOS

def Stmt.queued (c : Option Pcb) : Stmt → Bool
  | .count => true
  | .flag => true
  | .clear => true
  | .command => c.isNone
  | _ => false

def Machine.owing (m : Machine) : Option IoCall :=
  match m.phase with
  | .code (.io r y) => if y.queued m.kernel.currentProcess then some r else none
  | _ => none

def Stmt.unsent (x : Stmt) : Bool := x.early || x == .command

def Machine.sending (m : Machine) : Bool :=
  match m.phase with
  | .code (.io _ y) => y.unsent
  | _ => false

/-- No interrupt is taken in `io_devop` before the command is written. -/
def Uninterrupted (m : Machine) (i : Input) : Prop := m.sending = false ∨ i.isGo = true

instance {m : Machine} {i : Input} : Decidable (Uninterrupted m i) :=
  inferInstanceAs (Decidable (_ ∨ _))

/-- `l` are the requests whose callers have been put in a queue and whose commands have not been
written. -/
def Machine.unwritten (m : Machine) (i : Input) (m' : Machine) (l : List IoCall) : List IoCall :=
  match m.phase, i, m'.phase with
  | .code (.io r .insert), .go _, .code _ => r :: l
  | .code (.io r .command), .go _, .code _ => if r.Written m'.kernel then l.erase r else l
  | _, _, _ => l

section Runs

variable [Platform]

/-- Interleavings, with the requests whose commands have not been written. -/
def requests (B : Kernel → Prop) : Transition.System (Machine × List IoCall) Input :=
  (nested B).ghost (fun _ => []) Machine.unwritten

/-- Who is in a queue without a command is still in `io_devop`. -/
def NoneLost (x : Machine × List IoCall) : Prop := ∀ r ∈ x.2, ∃ y, x.1.phase = .code (.io r y)

structure Owes (x : Machine × List IoCall) : Prop where
  unwritten : x.2 = x.1.owing.toList
  running : ∀ r y, x.1.phase = .code (.io r y) → y.early = true → x.1.kernel.currentProcess ≠ none
  saved : ∀ p r y, x.1.context p = some (.io r y) → y.unsent = false

variable {B : Kernel → Prop} {x x' : Machine × List IoCall} {m m' : Machine} {i : Input} {e : Event}
  {hw : Hw} {f : Stack}

omit [Platform] in
theorem owing_scheduler (h : m.phase = .code .scheduler) : m.owing = none := by
  rw [Machine.owing, h]

omit [Platform] in
theorem owing_ctl {c : Ctl} (h : m.phase = .ctl c) : m.owing = none := by rw [Machine.owing, h]

omit [Platform] in
theorem owing_io {r : IoCall} {y : Stmt} (h : m.phase = .code (.io r y)) :
    m.owing = if y.queued m.kernel.currentProcess then some r else none := by rw [Machine.owing, h]

omit [Platform] in
theorem owing_some (h : m.owing ≠ none) : ∃ r y, m.phase = .code (.io r y) ∧ m.owing = some r := by
  cases hp : m.phase with
  | ctl c => exact absurd (owing_ctl hp) h
  | code pt =>
      cases pt with
      | scheduler => exact absurd (owing_scheduler hp) h
      | io r y =>
          refine ⟨r, y, rfl, ?_⟩
          rw [owing_io hp] at h ⊢
          split
          · rfl
          · next hy => exact absurd (if_neg hy) h

omit [Platform] in
theorem Stmt.queued_unsent {y : Stmt} {c : Option Pcb} (h : y.queued c = true) :
    y.unsent = true := by
  cases y with
  | count => rfl
  | flag => rfl
  | clear => rfl
  | command => rfl
  | _ => cases h

omit [Platform] in
theorem sending_io {r : IoCall} {y : Stmt} (h : m.phase = .code (.io r y)) :
    m.sending = y.unsent := by
  rw [Machine.sending, h]

omit [Platform] in
theorem owing_not_sending (h : m.sending = false) : m.owing = none := by
  by_contra howing
  obtain ⟨r, y, hp, hr⟩ := owing_some howing
  rw [owing_io hp] at hr
  split at hr
  · next hy =>
    rw [sending_io hp, Stmt.queued_unsent hy] at h
    cases h
  · cases hr

omit [Platform] in
theorem Owes.noneLost (h : Owes x) : NoneLost x := by
  intro r hr
  rw [h.unwritten, Option.mem_toList] at hr
  have hsome : x.1.owing ≠ none :=
    fun hnone => Option.some_ne_none r ((Option.mem_def.mp hr).symm.trans hnone)
  obtain ⟨r', y, hp, howing⟩ := owing_some hsome
  obtain rfl : r' = r := Option.some.inj (howing.symm.trans hr)
  exact ⟨y, hp⟩

omit [Platform] in
theorem unwritten_entry {l : List IoCall} : m.unwritten (.entry e) m' l = l := by
  unfold Machine.unwritten
  split
  · next h _ => cases h
  · next h _ => cases h
  · rfl

omit [Platform] in
theorem unwritten_scheduler {l : List IoCall}
    (h : m.phase = .ctl .scheduler ∨ m.phase = .code .scheduler) :
    m.unwritten i m' l = l := by
  unfold Machine.unwritten
  rcases h with h | h <;> rw [h]

omit [Platform] in
theorem unwritten_ctl {c : Ctl} {l : List IoCall} (h : m'.phase = .ctl c) :
    m.unwritten i m' l = l := by
  unfold Machine.unwritten
  rw [h]
  split
  · next hp => cases hp
  · next hp => cases hp
  · rfl

section Exec

variable {r : IoCall} {y : Stmt} {pt : Point} {l : List IoCall}

omit [Platform] in
theorem unwritten_insert (h : m.phase = .code (.io r .insert)) (h' : m'.phase = .code pt) :
    m.unwritten (.go f) m' l = r :: l := by
  unfold Machine.unwritten
  rw [h, h']

omit [Platform] in
theorem unwritten_command (h : m.phase = .code (.io r .command)) (h' : m'.phase = .code pt)
    (hw : r.Written m'.kernel) : m.unwritten (.go f) m' l = l.erase r := by
  unfold Machine.unwritten
  rw [h, h']
  exact if_pos hw

omit [Platform] in
theorem unwritten_other (h : m.phase = .code (.io r y)) (hi : y ≠ .insert) (hc : y ≠ .command) :
    m.unwritten (.go f) m' l = l := by
  unfold Machine.unwritten
  rw [h]
  split
  · next hp _ _ =>
    cases hp
    exact absurd rfl hi
  · next hp _ _ =>
    cases hp
    exact absurd rfl hc
  · rfl

end Exec

omit [Platform] in
theorem point_code {p : Phase} {pt : Point} (h : p.point = some pt) : p = .code pt := by
  cases p with
  | ctl c => cases h
  | code pt' => exact congrArg Phase.code (Option.some.inj h)

omit [Platform] in
/-- What an entry saves of the code it interrupts. -/
theorem Owes.saves {pt : Option Point} {p : Pcb} {r : IoCall} {y : Stmt} (h : Owes x)
    (hpt : pt = some (.io r y) → y.unsent = false)
    (hp : x.1.saves pt p = some (.io r y)) : y.unsent = false := by
  unfold Machine.saves at hp
  split at hp
  · exact hpt hp
  split at hp
  · cases hp
  · exact h.saved p r y hp

theorem interrupt_leaves (hs : m.step (.entry (.interrupt hw)) = some m') (r : IoCall) (y : Stmt) :
    m'.phase ≠ .code (.io r y) := by
  intro hp
  obtain ⟨c, -, hphase, -⟩ := Machine.step_interrupt hs
  rw [hphase] at hp
  cases c <;> cases hp

theorem Owes.interrupt (h : Owes x) (hi : x.1.sending = false)
    (hs : x.1.step (.entry (.interrupt hw)) = some x'.1) (hl : x'.2 = x.2) : Owes x' := by
  obtain ⟨c, -, hphase, hcontext⟩ := Machine.step_interrupt hs
  have howing : x'.1.owing = none := by
    cases c with
    | scheduler => exact owing_scheduler hphase
    | _ => exact owing_ctl hphase
  refine ⟨?_, fun r y hp => absurd hp (interrupt_leaves hs r y), ?_⟩
  · rw [hl, h.unwritten, owing_not_sending hi, howing]
  · intro p r y hp
    rw [hcontext] at hp
    apply h.saves _ hp
    intro hpt
    rwa [sending_io (point_code hpt)] at hi

theorem Owes.entry (h : Owes x) (he : ∀ hw, e ≠ .interrupt hw)
    (hs : x.1.step (.entry e) = some x'.1)
    (hl : x'.2 = x.2) : Owes x' := by
  obtain ⟨c, hctl, -, -, hcontext, hrun⟩ := Machine.step_entry he hs
  have hsaved : ∀ p r y, x'.1.context p = some (.io r y) → y.unsent = false := by
    intro p r y hp
    rw [hcontext] at hp
    apply h.saves _ hp
    intro hpt
    cases hpt
  have hempty : x'.2 = [] := by
    rw [hl, h.unwritten, owing_ctl hctl]
    rfl
  rcases hrun with ⟨c', -, hphase⟩ | ⟨hw, r, rfl, -, hrun, hphase⟩
  · refine ⟨?_, ?_, hsaved⟩
    · rw [hempty, owing_ctl hphase]
      rfl
    · intro r y hp
      rw [hphase] at hp
      cases hp
  · have hcur : x'.1.kernel.currentProcess ≠ none := by
      obtain ⟨c', hc, -, hk⟩ := ioEnter_eq hrun
      rw [hk]
      exact fun hnone => Option.some_ne_none c' (hc.symm.trans hnone)
    refine ⟨?_, fun _ _ _ _ => hcur, hsaved⟩
    rw [hempty, owing_io hphase]
    rfl

omit [Platform] in
/-- What is resumed after the write of the command stays there. -/
theorem Stmt.resume_sent {y : Stmt} (hy : y.unsent = false) : (y.resume f).unsent = false := by
  cases y with
  | answer u => rfl
  | _ => exact hy

theorem Owes.schedule (h : Owes x) (hp : x.1.phase = .ctl .scheduler ∨ x.1.phase = .code .scheduler)
    (hs : x.1.schedule f = some x'.1) (hl : x'.2 = x.2) : Owes x' := by
  obtain ⟨c, -, hcontext, hload⟩ := Machine.schedule_eq hs
  have hempty : x'.2 = [] := by
    rw [hl, h.unwritten]
    rcases hp with hp | hp
    · rw [owing_ctl hp]
      rfl
    · rw [owing_scheduler hp]
      rfl
  have hsaved : ∀ p r y, x'.1.context p = some (.io r y) → y.unsent = false := fun p r y hp =>
    h.saved p r y (hcontext ▸ hp)
  rcases hload with ⟨p, pt, hcur, hpt, hphase⟩ | ⟨-, hphase⟩
  · have hc : x'.1.kernel.currentProcess ≠ none := by
      rw [hcur]
      exact Option.some_ne_none p
    refine ⟨?_, fun _ _ _ _ => hc, hsaved⟩
    cases pt with
    | scheduler =>
        rw [hempty, owing_scheduler hphase]
        rfl
    | io r y =>
        have hsent : x'.1.sending = false := by
          rw [sending_io hphase]
          exact Stmt.resume_sent (h.saved p r y hpt)
        rw [hempty, owing_not_sending hsent]
        rfl
  · refine ⟨?_, ?_, hsaved⟩
    · rw [hempty, owing_ctl hphase]
      rfl
    · intro r y hp
      rw [hphase] at hp
      cases hp

theorem Owes.exec {r : IoCall} {y : Stmt} (h : Owes x) (hp : x.1.phase = .code (.io r y))
    (hs : x.1.exec r y = some x'.1) (hl : x'.2 = x.1.unwritten (.go f) x'.1 x.2) : Owes x' := by
  obtain ⟨hcontext, hrun⟩ := Machine.exec_eq hs
  have hsaved : ∀ p r y, x'.1.context p = some (.io r y) → y.unsent = false := fun p r y hp =>
    h.saved p r y (hcontext ▸ hp)
  rcases hrun with ⟨z, hrun, hphase⟩ | ⟨hrun, hphase⟩ | ⟨c, hrun, hphase⟩
  · have hcur : y ≠ .clear → x'.1.kernel.currentProcess = x.1.kernel.currentProcess := fun hy =>
      (exec_keepsCurrent hy).ok hrun
    have hrunning := h.running r y hp
    have hl₀ := h.unwritten
    rw [owing_io hp] at hl₀
    refine ⟨?_, ?_, hsaved⟩
    · rw [owing_io hphase]
      cases exec_next hrun with
      | insert =>
          rw [hl, unwritten_insert hp hphase, hl₀]
          rfl
      | enough =>
          have hsome : x.1.kernel.currentProcess.isNone = false := by
            rw [Option.isNone_eq_false_iff, Option.isSome_iff_ne_none]
            exact hrunning rfl
          rw [hl, unwritten_other hp (by decide) (by decide), hl₀, hcur (by decide), Stmt.queued,
            hsome]
          rfl
      | clear =>
          rw [hl, unwritten_other hp (by decide) (by decide), hl₀, exec_clear hrun]
          rfl
      | command =>
          rw [hl, unwritten_command hp hphase (exec_written hrun), hl₀]
          split
          · exact List.erase_cons_head r []
          · rfl
      | answer u =>
          rw [hl, unwritten_other hp (by simp) (by simp), hl₀]
          rfl
      | _ =>
          rw [hl, unwritten_other hp (by decide) (by decide), hl₀]
          rfl
    · intro r' y' hp' hy'
      rw [hphase] at hp'
      obtain ⟨rfl, rfl⟩ : r = r' ∧ z = y' := by
        cases hp'
        exact ⟨rfl, rfl⟩
      obtain ⟨hearly, hclear⟩ := (exec_next hrun).early hy'
      rw [hcur hclear]
      exact hrunning hearly
  · refine ⟨?_, ?_, hsaved⟩
    · cases exec_next hrun
      rw [owing_scheduler hphase, hl, unwritten_other hp (by decide) (by decide), h.unwritten,
        owing_io hp]
      rfl
    · intro r' y' hp' hy'
      rw [hphase] at hp'
      cases hp'
  · refine ⟨?_, ?_, hsaved⟩
    · obtain rfl := exec_exit hrun
      rw [owing_ctl hphase, hl, unwritten_ctl hphase, h.unwritten, owing_io hp]
      rfl
    · intro r' y' hp' hy'
      rw [hphase] at hp'
      cases hp'

theorem Owes.step (h : Owes x) (hi : Uninterrupted x.1 i) (hs : (requests B).step x i x') :
    Owes x' := by
  obtain ⟨hs, hl⟩ := hs
  cases i with
  | entry e =>
      have hidle : x.1.sending = false := hi.resolve_right Bool.false_ne_true
      rw [unwritten_entry] at hl
      by_cases he : ∃ hw, e = .interrupt hw
      · obtain ⟨hw, rfl⟩ := he
        exact h.interrupt hidle hs hl
      · exact h.entry (fun hw hhw => he ⟨hw, hhw⟩) hs hl
  | go f =>
      rcases Machine.step_go hs with ⟨hp, hsched⟩ | ⟨r, y, hp, hexec⟩
      · rw [unwritten_scheduler hp] at hl
        exact h.schedule hp hsched hl
      · exact h.exec hp hexec hl

theorem owes_init (h : (requests B).init x) : Owes x := by
  obtain ⟨⟨k, s, -, -, -, hm⟩, hl⟩ := h
  refine ⟨?_, ?_, ?_⟩
  · rw [hl, owing_ctl (congrArg Machine.phase hm)]
    rfl
  · intro r y hp hy
    rw [congrArg Machine.phase hm] at hp
    cases hp
  · intro p r y hp
    rw [congrArg Machine.context hm] at hp
    cases hp

/-- If no interrupt is taken in `io_devop` before the command is written, no request is lost; the
first interrupt that is taken when the caller is in the queue loses one. -/
theorem requests_written (h : Reach (requests B) (fun x i => Uninterrupted x.1 i) x) :
    NoneLost x ∧
      ∀ i x', (requests B).step x i x' → i.isGo = false → x.1.owing ≠ none → ¬ NoneLost x' := by
  have howes : Owes x := h.invariant (fun _ => owes_init) fun _ _ _ ih hi hs => ih.step hi hs
  refine ⟨howes.noneLost, ?_⟩
  rintro i x' ⟨hs, hl⟩ hi hsome hnone
  obtain ⟨r, y, hp, howing⟩ := owing_some hsome
  cases i with
  | go f => cases hi
  | entry e =>
      obtain ⟨hw, rfl⟩ : ∃ hw, e = .interrupt hw := by
        by_contra he
        obtain ⟨c, hc, -⟩ := Machine.step_entry (fun hw hhw => he ⟨hw, hhw⟩) hs
        rw [hp] at hc
        cases hc
      have hr : r ∈ x'.2 := by
        rw [hl, unwritten_entry, howes.unwritten, howing]
        exact List.mem_singleton_self r
      obtain ⟨y', hp'⟩ := hnone r hr
      exact interrupt_leaves hs r y' hp'

end Runs

section Board

attribute [local instance] uarm

/-- A computed run. -/
theorem requests_run {C : Machine → Input → Prop} [∀ m i, Decidable (C m i)] (is : List Input)
    (Q : Machine × List IoCall → Bool)
    (h : ((Sys.boot Kernel.zero).bind fun s => follow (stepGhost Machine.step Machine.unwritten)
      (fun x i => C x.1 i) is (⟨s.kernel, .ctl s.ctl, fun _ => none⟩, [])).any Q = true) :
    ∃ x, Reach (requests fun _ => True) (fun x i => C x.1 i) x ∧ Q x = true := by
  obtain ⟨x, hrun, hQ⟩ := (Option.any_eq_true _ _).mp h
  obtain ⟨s, hboot, his⟩ := Option.bind_eq_some_iff.mp hrun
  exact ⟨x, Reach.follow_ghost (fun _ _ _ hs => hs) ⟨_, s, trivial, atBoot_zero, hboot, rfl⟩ his,
    hQ⟩

def diskCall : IoCall := ⟨0, 7, intDisk, 0⟩

def diskInputs : List Input := [.next, .entry (call 10 7 intDisk 0)] ++ List.replicate 9 .next

def sliceInterrupt : Event := .interrupt { Hw.rest with cause := 1 <<< 26 }

/-- The call is queued and its command not written, but control is still in `io_devop`. -/
theorem requests_written_disk : ∃ x : Machine × List IoCall,
    x.2 = [diskCall] ∧ NoneLost x ∧
      ∀ i x', (requests fun _ => True).step x i x' → i.isGo = false → x.1.owing ≠ none →
        ¬ NoneLost x' := by
  obtain ⟨x, hx, hQ⟩ :=
    requests_run (C := Uninterrupted) diskInputs (fun x => decide (x.2 = [diskCall]))
    (by decide +kernel)
  exact ⟨x, of_decide_eq_true hQ, requests_written hx⟩

/-- A tick of the timer before the command is written. -/
theorem requests_unwritten : ¬ ∀ x : Machine × List IoCall,
    Reach (requests fun _ => True) (fun _ _ => True) x → NoneLost x := by
  intro hall
  obtain ⟨x, hx, hQ⟩ := requests_run (C := fun _ _ => True) (diskInputs ++ [.entry sliceInterrupt])
    (fun x => decide (x.2 = [diskCall] ∧ x.1.phase = .code .scheduler)) (by decide +kernel)
  obtain ⟨hl, hp⟩ := of_decide_eq_true hQ
  obtain ⟨y, hy⟩ := hall x hx diskCall (by rw [hl]; exact List.mem_singleton_self _)
  rw [hp] at hy
  cases hy

end Board

end JaeOS
