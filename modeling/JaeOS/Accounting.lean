import JaeOS.Bills
import JaeOS.Timeline

/-!
# CPU time

A ledger of the run, kept with the true times of the readings: the spans in which processes had the
processor, and the time that was charged for their entries. `global_time` and `kernel_time` are what
the ledger says.
-/

open Transition Span

namespace JaeOS

/-! ### The ledger of a run -/

/-- The ledger of the processes alive: `opened` is the time of the reading that `startTOD` holds,
`recent` what the running process has been charged since then. -/
structure Ledger where
  boot : ℕ
  opened : ℕ
  spans : List (Span Pcb)
  spent : Pcb → ℕ
  recent : ℕ

namespace Ledger

variable (g : Ledger)

def start (t : ℕ) : Ledger := ⟨t, t, [], fun _ => 0, 0⟩

def stop (o : Option Pcb) (t : ℕ) : Ledger :=
  match o with
  | some c => { g with spans := ⟨c, g.opened, t⟩ :: g.spans }
  | none => g

def charge (o : Option Pcb) (d : ℕ) : Ledger :=
  match o with
  | some c =>
    { g with
      spent := Function.update g.spent c (g.spent c + d)
      recent := g.recent + d }
  | none => g

def load (t : ℕ) : Ledger := { g with opened := t, recent := 0 }

def bury (k : Kernel) : Ledger :=
  { g with
    spans := g.spans.filter fun s => s.owner ∉ freeList k
    spent := fun p => if p ∈ freeList k then 0 else g.spent p }

/-- An entry of the process `o` with the readings from number `r` on charges it, and stops it if
nobody runs any more. -/
def enter (o : Option Pcb) (r : ℕ) (y : Timed) : Ledger :=
  let paid := g.charge o (charged y.clock r (y.sys.kernel.hw.reads - r))
  if y.sys.kernel.currentProcess = none then paid.stop o y.now else paid

/-- `loadnext` stops the running process with its first reading and loads the next with its last. -/
def switch [Platform] (x y : Timed) : Ledger :=
  (g.stop x.sys.kernel.currentProcess (x.clock.time x.sys.kernel.face.schedule.hw.reads)).load y.now

def next [Platform] (x : Timed) (e : Event × Clock) (y : Timed) (g : Ledger) : Ledger :=
  let g' : Ledger :=
    match e.1.hw with
    | none => if x.sys.kernel.flag = .loadcurrent then g else g.switch x y
    | some hw => g.enter x.sys.kernel.currentProcess hw.reads y
  g'.bury y.sys.kernel

end Ledger

def counting [Platform] (B : Kernel → Prop) :
    Transition.System (Timed × Ledger) (Event × Clock) :=
  (clocked B).ghost (fun x => .start (x.clock.time x.sys.kernel.hw.reads)) Ledger.next

def Spares [Platform] (z : Timed × Ledger) (e : Event × Clock) : Prop := SparesReady z.1.sys e.1

instance [Platform] {z : Timed × Ledger} {e : Event × Clock} : Decidable (Spares z e) :=
  inferInstanceAs (Decidable (SparesReady _ _))

section Invariant

variable [Platform] {k k' : Kernel} {g : Ledger} {now : ℕ} {v : View} {c p : Pcb} {x y : Timed}
  {e : Event × Clock} {hw : Hw}

/-- The accounts of the processes alive are what the ledger says, and the ledger is in order. -/
structure Balanced (k : Kernel) (g : Ledger) (now : ℕ) : Prop where
  idle : k.currentProcess = none → Within g.boot now g.spans
  busy : ∀ c, k.currentProcess = some c → Within g.boot g.opened g.spans ∧
    g.recent + g.opened ≤ now ∧ k.startTOD = BitVec.ofNat 32 g.opened ∧ g.recent ≤ g.spent c ∧
    g.spent c ≤ used g.spans c + g.recent
  owners : ∀ s ∈ g.spans, s.owner ∉ freeList k
  dead : ∀ p ∈ freeList k, g.spent p = 0
  account : ∀ p, p ∉ freeList k → k.kernelTime p = BitVec.ofNat 32 (g.spent p) ∧
    k.globalTime p = BitVec.ofNat 32 (used g.spans p)
  spent_le : ∀ p, p ∉ freeList k → k.currentProcess ≠ some p → g.spent p ≤ used g.spans p

omit [Platform] in
theorem bury_used (hp : p ∉ freeList k) : used (g.bury k).spans p = used g.spans p := by
  apply used_filter
  rintro s - rfl
  exact decide_eq_true hp

omit [Platform] in
theorem bury_spent (hp : p ∉ freeList k) : (g.bury k).spent p = g.spent p := if_neg hp

omit [Platform] in
theorem bury_within {hi : ℕ} (h : Within g.boot hi g.spans) : Within g.boot hi (g.bury k).spans :=
  h.filter _

omit [Platform] in
theorem bury_owners (g : Ledger) : ∀ s ∈ (g.bury k).spans, s.owner ∉ freeList k := fun _ hs =>
  of_decide_eq_true (List.mem_filter.mp hs).2

omit [Platform] in
theorem bury_dead (g : Ledger) : ∀ p ∈ freeList k, (g.bury k).spent p = 0 := fun _ hp => if_pos hp

/-- A process other than the one that runs has the account that it had, or has just been made. -/
theorem Balanced.unaffected (h : Balanced x.sys.kernel g now) (hrep : Rep x.sys.kernel.core v)
    (hc : x.sys.kernel.currentProcess = some c) (hp : p ≠ c)
    (hothers : (p ∉ v.free → k'.kernelTime p = x.sys.kernel.kernelTime p ∧
        k'.globalTime p = x.sys.kernel.globalTime p) ∧
      (e.1.act x.sys.kernel = some .create → ∀ l, v.free = p :: l →
        k'.kernelTime p = 0 ∧ k'.globalTime p = 0))
    (halive : v.place p ≠ .free ∨ e.1.act x.sys.kernel = some .create ∧ ∃ l, v.free = p :: l) :
    k'.kernelTime p = BitVec.ofNat 32 (g.spent p) ∧
      k'.globalTime p = BitVec.ofNat 32 (used g.spans p) ∧ g.spent p ≤ used g.spans p := by
  rcases halive with hold | ⟨hact, l, hl⟩
  · have hfree : p ∉ freeList x.sys.kernel := fun hf => hold (hrep.mem_freeList.mp hf)
    obtain ⟨hk, hg⟩ := hothers.1 fun hf => hold ((hrep.lists.mem_free p).mp hf)
    obtain ⟨hkernel, hglobal⟩ := h.account p hfree
    have hother : x.sys.kernel.currentProcess ≠ some p := by
      rw [hc]
      exact fun he => hp (Option.some.inj he).symm
    exact ⟨hk.trans hkernel, hg.trans hglobal, h.spent_le p hfree hother⟩
  · have hfree : p ∈ freeList x.sys.kernel :=
      hrep.mem_freeList.mpr ((hrep.lists.mem_free p).mp (by simp [hl]))
    have hspent := h.dead p hfree
    have hused : used g.spans p = 0 := used_eq_zero fun s hs hsp => h.owners s hs (hsp ▸ hfree)
    obtain ⟨hk, hg⟩ := hothers.2 hact l hl
    rw [hspent, hused]
    exact ⟨hk, hg, le_rfl⟩

structure Entered (x : Timed) (v : View) (c : Pcb) (e : Event × Clock) (hw : Hw) (y : Timed) :
    Prop where
  rep : Rep x.sys.kernel.core v
  run : x.sys.kernel.currentProcess = some c
  entry : e.1.hw = some hw
  now_le : x.now ≤ e.2.time hw.reads
  clock : y.clock = e.2
  onward : (x.sys.kernel.face.enter { hw with tod := tod e.2 }).start.Onward y.sys.kernel.face
  ends : (e.1.clocked e.2).Ends v x.sys.kernel.face y.sys.ctl y.sys.kernel.face
  alive : ∀ p, p ∉ freeList y.sys.kernel → v.place p ≠ .free ∨
    e.1.act x.sys.kernel = some .create ∧ ∃ l, v.free = p :: l
  running : y.sys.kernel.currentProcess = some c → c ∉ freeList y.sys.kernel

omit [Platform] in
theorem Rep.running_alive (h : Rep k.core v) (hc : k.currentProcess = some c) : c ∉ freeList k := by
  rw [h.mem_freeList, h.current_off hc]
  exact Place.noConfusion

theorem Event.clocked_act (k : Kernel) (e : Event) (q : Clock) : (e.clocked q).act k = e.act k := by
  cases e <;> rfl

theorem SparesReady.clocked {s : Sys} {e : Event} (h : SparesReady s e) (q : Clock) :
    SparesReady s (e.clocked q) := by
  intro t ht
  rw [Event.victim, Event.clocked_act] at ht
  exact h t ht

/-- A step with a clock is a step. -/
theorem Timed.step_sys (hstep : x.step e = some y) : x.sys.step (e.1.clocked e.2) = some y.sys := by
  cases he : e.1.hw with
  | none =>
      obtain ⟨ev, q⟩ := e
      cases ev <;> cases he
      exact (Timed.step_dispatch rfl hstep).1
  | some hw => exact (Timed.step_entry he hstep).2.1

theorem entered (hrep : Rep x.sys.kernel.core v) (hspares : Spares (x, g) e) (he : e.1.hw = some hw)
    (hstep : x.step e = some y) (hc : x.sys.kernel.currentProcess = some c) :
    Entered x v c e hw y := by
  obtain ⟨hnow, hsys, hclock⟩ := Timed.step_entry he hstep
  obtain ⟨v', hrep', halive⟩ := Sys.step_alive hrep (hspares.clocked e.2) hsys
  refine ⟨hrep, hc, he, hnow, hclock, Event.onward (Event.clocked_hw he) (Sys.step_eq hsys).2.1,
    Sys.step_ends hrep hsys, fun p hp => ?_, hrep'.running_alive⟩
  rw [← Event.clocked_act x.sys.kernel e.1 e.2]
  exact halive p fun hf => hp (hrep'.mem_freeList.mpr hf)

/-- The account of a process other than `c` after an entry of `c`. -/
theorem Entered.others (he : Entered x v c e hw y) (h : Balanced x.sys.kernel g x.now) (hp : p ≠ c)
    (halive : p ∉ freeList y.sys.kernel) :
    y.sys.kernel.kernelTime p = BitVec.ofNat 32 (g.spent p) ∧
      y.sys.kernel.globalTime p = BitVec.ofNat 32 (used g.spans p) ∧
      g.spent p ≤ used g.spans p := by
  have hothers := he.ends.others (Event.clocked_hw he.entry) he.run hp
  rw [Event.clocked_act] at hothers
  exact h.unaffected he.rep he.run hp hothers (he.alive p halive)

omit [Platform] in
theorem charge_spent_self (g : Ledger) (d : ℕ) : (g.charge (some c) d).spent c = g.spent c + d :=
  Function.update_self ..

omit [Platform] in
theorem charge_spent_of_ne (g : Ledger) (d : ℕ) (hp : p ≠ c) :
    (g.charge (some c) d).spent p = g.spent p :=
  Function.update_of_ne hp ..

/-- The process goes on, with `d` charged. -/
theorem Entered.goes (he : Entered x v c e hw y) (h : Balanced x.sys.kernel g x.now) {d : ℕ}
    (hnow : d + g.recent + g.opened ≤ y.now) (hc : y.sys.kernel.currentProcess = some c)
    (hk : y.sys.kernel.kernelTime c = BitVec.ofNat 32 (g.spent c + d))
    (hg : y.sys.kernel.globalTime c = BitVec.ofNat 32 (used g.spans c)) :
    Balanced y.sys.kernel ((g.charge (some c) d).bury y.sys.kernel) y.now := by
  obtain ⟨hwithin, -, hTOD, hle, hspent⟩ := h.busy c he.run
  have halive := he.running hc
  constructor
  · intro hnone
    rw [hc] at hnone
    cases hnone
  · intro c₁ hc₁
    obtain rfl := Option.some.inj (hc.symm.trans hc₁)
    rw [bury_spent halive, bury_used halive, charge_spent_self]
    refine ⟨bury_within (g := g.charge (some c) d) hwithin, ?_, he.onward.startTOD.trans hTOD, ?_,
      ?_⟩
    · change g.recent + d + g.opened ≤ y.now
      omega
    · change g.recent + d ≤ g.spent c + d
      omega
    · change g.spent c + d ≤ used g.spans c + (g.recent + d)
      omega
  · exact bury_owners _
  · exact bury_dead _
  · intro p hp
    rw [bury_spent hp, bury_used hp]
    by_cases hpc : p = c
    · subst hpc
      rw [charge_spent_self]
      exact ⟨hk, hg⟩
    · rw [charge_spent_of_ne g d hpc]
      obtain ⟨hk, hg, -⟩ := he.others h hpc hp
      exact ⟨hk, hg⟩
  · intro p hp hpc
    have hne : p ≠ c := fun he => hpc (he ▸ hc)
    rw [bury_spent hp, bury_used hp, charge_spent_of_ne g d hne]
    exact (he.others h hne hp).2.2

/-- The process has blocked, with `d` charged, or is dead. -/
theorem Entered.stops (he : Entered x v c e hw y) (h : Balanced x.sys.kernel g x.now) {d : ℕ}
    (hnow : d + g.recent + g.opened ≤ y.now) (hc : y.sys.kernel.currentProcess = none)
    (haccount : c ∉ freeList y.sys.kernel →
      y.sys.kernel.kernelTime c = BitVec.ofNat 32 (g.spent c + d) ∧
        y.sys.kernel.globalTime c = BitVec.ofNat 32 (y.now - g.opened + used g.spans c)) :
    Balanced y.sys.kernel (((g.charge (some c) d).stop (some c) y.now).bury y.sys.kernel)
      y.now := by
  obtain ⟨hwithin, -, -, -, hspent⟩ := h.busy c he.run
  let shut : Span Pcb := ⟨c, g.opened, y.now⟩
  have hself : used (shut :: g.spans) c = y.now - g.opened + used g.spans c :=
    used_cons_self g.spans shut
  have hother : ∀ p, p ≠ c → used (shut :: g.spans) p = used g.spans p := fun p hp =>
    used_cons_of_ne (s := shut) g.spans hp
  have hused : ∀ p, p ∉ freeList y.sys.kernel →
      used (((g.charge (some c) d).stop (some c) y.now).bury y.sys.kernel).spans p =
        used (shut :: g.spans) p := fun p hp => bury_used hp
  have hcharge : ∀ p, p ∉ freeList y.sys.kernel →
      (((g.charge (some c) d).stop (some c) y.now).bury y.sys.kernel).spent p =
        (g.charge (some c) d).spent p := fun p hp => bury_spent hp
  constructor
  · have hopen : g.opened ≤ y.now := by omega
    have hshut : Within g.boot y.now (shut :: g.spans) := .cons hopen le_rfl hwithin
    exact fun _ => bury_within (g := (g.charge (some c) d).stop (some c) y.now) hshut
  · intro c₁ hc₁
    rw [hc] at hc₁
    cases hc₁
  · exact bury_owners _
  · exact bury_dead _
  · intro p hp
    rw [hused p hp, hcharge p hp]
    by_cases hpc : p = c
    · subst hpc
      rw [charge_spent_self, hself]
      exact haccount hp
    · rw [charge_spent_of_ne g d hpc, hother p hpc]
      obtain ⟨hk, hg, -⟩ := he.others h hpc hp
      exact ⟨hk, hg⟩
  · intro p hp _
    rw [hused p hp, hcharge p hp]
    by_cases hpc : p = c
    · subst hpc
      rw [charge_spent_self, hself]
      omega
    · rw [charge_spent_of_ne g d hpc, hother p hpc]
      exact (he.others h hpc hp).2.2

/-- An entry of `c` keeps the accounts balanced. -/
theorem Entered.balanced (he : Entered x v c e hw y) (h : Balanced x.sys.kernel g x.now)
    (hkill : e.1.act x.sys.kernel = some (.terminate c) → c ∈ freeList y.sys.kernel) :
    Balanced y.sys.kernel (g.next x e y) y.now := by
  have hfree : c ∉ v.free := by
    rw [he.rep.lists.mem_free, he.rep.current_off he.run]
    exact Place.noConfusion
  have hpays := he.ends.pays (Event.clocked_hw he.entry) rfl he.run hfree
  obtain ⟨-, hrecent, hTOD, -, -⟩ := h.busy c he.run
  obtain ⟨hkernel, hglobal⟩ := h.account c (he.rep.running_alive he.run)
  have hreads : hw.reads + 1 ≤ y.sys.kernel.hw.reads := he.onward.reads
  have hcharged : charged e.2 hw.reads (y.sys.kernel.hw.reads - hw.reads) + e.2.time hw.reads ≤
      y.now := by
    rw [Timed.now, he.clock]
    exact (charged_le _ _ _).trans (e.2.mono (by omega))
  have hstart := he.now_le
  have hnext : g.next x e y = (g.enter (some c) hw.reads y).bury y.sys.kernel := by
    rw [Ledger.next, he.entry, he.run]
  rw [hnext, Ledger.enter, he.clock]
  have hnow : charged e.2 hw.reads (y.sys.kernel.hw.reads - hw.reads) + g.recent + g.opened ≤
      y.now := by
    omega
  cases hpays with
  | runs hc hk hg =>
      have hc' : y.sys.kernel.currentProcess ≠ none := by
        rw [show y.sys.kernel.currentProcess = some c from hc]
        exact Option.some_ne_none c
      rw [if_neg hc']
      apply he.goes h hnow hc
      · rw [BitVec.ofNat_add, ← hkernel]
        exact hk
      · exact hg.trans hglobal
  | suspends hc hr hk hg =>
      have hopen : g.opened ≤ y.now := by omega
      have hlast : e.2.time (y.sys.kernel.hw.reads - 1) = y.now := by rw [Timed.now, he.clock]
      rw [if_pos (show y.sys.kernel.currentProcess = none from hc)]
      apply he.stops h hnow hc
      intro _
      constructor
      · rw [BitVec.ofNat_add, ← hkernel]
        exact hk
      · rw [BitVec.ofNat_add, ← Clock.ofNat_sub hopen, ← hlast, ← hTOD, ← hglobal, add_comm]
        exact hg
  | drops hc hact =>
      rw [if_pos (show y.sys.kernel.currentProcess = none from hc)]
      rw [Event.clocked_act] at hact
      exact he.stops h hnow hc fun halive => absurd (hkill hact) halive

/-- Entries while nobody runs leave the accounts alone. -/
theorem Balanced.idle_entry (h : Balanced x.sys.kernel g x.now) (hrep : Rep x.sys.kernel.core v)
    (he : e.1.hw = some hw) (hstep : x.step e = some y) (hc : x.sys.kernel.currentProcess = none) :
    Balanced y.sys.kernel (g.next x e y) y.now := by
  obtain ⟨hnow, hsys, hclock⟩ := Timed.step_entry he hstep
  obtain ⟨-, hle, -⟩ := Timed.entry_onward he hstep
  have hact : (e.1.clocked e.2).act x.sys.kernel = none := by
    rw [Event.clocked_act]
    cases e.1 <;> simp only [Event.act, hc, Option.bind_none]
  have hspares' : SparesReady x.sys (e.1.clocked e.2) := by
    intro t ht
    rw [Event.victim, hact] at ht
    cases ht
  obtain ⟨v', hrep', halive⟩ := Sys.step_alive hrep hspares' hsys
  obtain ⟨hnone, hkernel, hglobal⟩ := (Sys.step_ends hrep hsys).idle (Event.clocked_hw he) hc
  have hnone' : y.sys.kernel.currentProcess = none := hnone
  have hold : ∀ p, p ∉ freeList y.sys.kernel → p ∉ freeList x.sys.kernel := by
    intro p hp hf
    rcases halive p fun hf' => hp (hrep'.mem_freeList.mpr hf') with hv | ⟨hcreate, -⟩
    · exact hv (hrep.mem_freeList.mp hf)
    · rw [hact] at hcreate
      cases hcreate
  have henter : g.enter none hw.reads y = g := if_pos hnone'
  have hnext : g.next x e y = g.bury y.sys.kernel := by
    rw [Ledger.next, he, hc]
    exact congrArg (fun g => g.bury y.sys.kernel) henter
  rw [hnext]
  constructor
  · exact fun _ => bury_within ((h.idle hc).mono hle)
  · intro c₁ hc₁
    rw [hnone'] at hc₁
    cases hc₁
  · exact bury_owners g
  · exact bury_dead g
  · intro p hp
    obtain ⟨hk, hg⟩ := h.account p (hold p hp)
    exact ⟨(congrFun hkernel p).trans (hk.trans (congrArg _ (bury_spent hp).symm)),
      (congrFun hglobal p).trans (hg.trans (congrArg _ (bury_used hp).symm))⟩
  · intro p hp _
    have hle := h.spent_le p (hold p hp) (by rw [hc]; exact (Option.some_ne_none p).symm)
    exact (bury_spent hp).le.trans (hle.trans (bury_used hp).ge)

/-! ### The scheduler -/

theorem schedule_bill (f : Face) : f.schedule.currentProcess = f.currentProcess ∧
    f.schedule.kernelTime = f.kernelTime ∧ f.schedule.globalTime = f.globalTime ∧
    f.schedule.startTOD = f.startTOD := by
  unfold Face.schedule
  split <;> exact ⟨rfl, rfl, rfl, rfl⟩

structure Switches (f g : Face) : Prop where
  kernel : g.kernelTime = f.kernelTime
  idle : f.currentProcess = none → g.globalTime = f.globalTime
  busy : ∀ c, f.currentProcess = some c →
    g.globalTime = Function.update f.globalTime c (f.globalTime c + (f.now - f.startTOD))
  reads : f.hw.reads + 1 ≤ g.hw.reads

omit [Platform] in
theorem prepare_switches (f : Face) : Switches f f.prepare := by
  have harm : ∀ f : Face, f.arm.kernelTime = f.kernelTime ∧ f.arm.globalTime = f.globalTime ∧
      f.hw.reads + 1 ≤ f.arm.hw.reads := by
    intro f
    unfold Face.arm
    split
    · exact ⟨rfl, rfl, Nat.add_le_add_left (by decide) _⟩
    · exact ⟨rfl, rfl, le_rfl⟩
  obtain ⟨hkernel, hglobal, hreads⟩ := harm f.requeue
  have hrequeue := (requeue_ahead f).2
  constructor
  · refine hkernel.trans ?_
    unfold Face.requeue
    split <;> rfl
  · intro hc
    refine hglobal.trans ?_
    rw [Face.requeue, hc]
  · intro c hc
    refine hglobal.trans ?_
    rw [Face.requeue, hc]
  · exact (Nat.succ_le_succ hrequeue).trans hreads

theorem Loads.switches {f m : Face} {ctl : Ctl} (h : Loads v f ctl m) :
    Switches f m ∧ (m.currentProcess = none ∨ m.startTOD = f.hw.tod (m.hw.reads - 1)) := by
  have hprepare := prepare_switches f
  have hnone := prepare_currentProcess f
  cases h with
  | load hr =>
      refine ⟨⟨hprepare.kernel, hprepare.idle, hprepare.busy, hprepare.reads.trans (Nat.le_succ _)⟩,
        ?_⟩
      right
      have htod : f.prepare.hw.tod = f.hw.tod := ((requeue_ahead f).trans (arm_ahead _)).1
      rw [← htod]
      rfl
  | wait =>
      exact ⟨⟨hprepare.kernel, hprepare.idle, hprepare.busy, hprepare.reads⟩, Or.inl hnone⟩
  | halt => exact ⟨hprepare, Or.inl hnone⟩
  | panic => exact ⟨hprepare, Or.inl hnone⟩

omit [Platform] in
theorem Balanced.mono {now' : ℕ} (h : Balanced k g now) (hle : now ≤ now') : Balanced k g now' where
  idle := fun hc => (h.idle hc).mono hle
  busy := fun c hc => by
    obtain ⟨hwithin, hrecent, hrest⟩ := h.busy c hc
    exact ⟨hwithin, hrecent.trans hle, hrest⟩
  owners := h.owners
  dead := h.dead
  account := h.account
  spent_le := h.spent_le

omit [Platform] in
/-- After the running process has been stopped at the time `t` all accounts are settled. -/
theorem Balanced.settle (h : Balanced k g now) {f m : Face} {t : ℕ} (hle : now ≤ t)
    (hcur : f.currentProcess = k.currentProcess) (hkernel : f.kernelTime = k.kernelTime)
    (hglobal : f.globalTime = k.globalTime) (hTOD : f.startTOD = k.startTOD)
    (hnow : f.now = BitVec.ofNat 32 t) (hm : Switches f m) :
    Within g.boot t (g.stop k.currentProcess t).spans ∧ ∀ p, p ∉ freeList k →
      m.kernelTime p = BitVec.ofNat 32 (g.spent p) ∧
      m.globalTime p = BitVec.ofNat 32 (used (g.stop k.currentProcess t).spans p) ∧
      g.spent p ≤ used (g.stop k.currentProcess t).spans p := by
  rw [hm.kernel, hkernel]
  cases hc : k.currentProcess with
  | none =>
      refine ⟨(h.idle hc).mono hle, fun p hp => ?_⟩
      obtain ⟨hk, hg⟩ := h.account p hp
      rw [hm.idle (hcur.trans hc), hglobal]
      refine ⟨hk, hg, h.spent_le p hp ?_⟩
      rw [hc]
      exact (Option.some_ne_none p).symm
  | some c =>
      obtain ⟨hwithin, hrecent, hstart, hspent, hle'⟩ := h.busy c hc
      let shut : Span Pcb := ⟨c, g.opened, t⟩
      have hopen : g.opened ≤ t := by omega
      have hself : used (shut :: g.spans) c = t - g.opened + used g.spans c :=
        used_cons_self g.spans shut
      refine ⟨.cons (s := shut) hopen le_rfl hwithin, fun p hp => ?_⟩
      obtain ⟨hk, hg⟩ := h.account p hp
      rw [hm.busy c (hcur.trans hc), hglobal, hTOD, hnow, hstart, Clock.ofNat_sub hopen]
      change _ ∧ _ = BitVec.ofNat 32 (used (shut :: g.spans) p) ∧ _ ≤ used (shut :: g.spans) p
      by_cases hpc : p = c
      · subst hpc
        rw [hself, Function.update_self, hg, BitVec.ofNat_add, add_comm]
        exact ⟨hk, rfl, by omega⟩
      · rw [Function.update_of_ne hpc, used_cons_of_ne (s := shut) g.spans hpc]
        refine ⟨hk, hg, h.spent_le p hp ?_⟩
        rw [hc]
        exact fun he => hpc (Option.some.inj he).symm

/-- The running process goes on. -/
theorem Balanced.resume (h : Balanced x.sys.kernel g x.now)
    (hends : Dispatches v x.sys.kernel.face y.sys.ctl y.sys.kernel.face)
    (hflag : x.sys.kernel.flag = .loadcurrent) (hclock : y.clock = x.clock)
    (hold : ∀ p, p ∉ freeList y.sys.kernel → p ∉ freeList x.sys.kernel) {v' : View}
    (hrep : Rep y.sys.kernel.core v') : Balanced y.sys.kernel (g.bury y.sys.kernel) y.now := by
  obtain ⟨c, hc, hface⟩ : ∃ c, x.sys.kernel.currentProcess = some c ∧
      y.sys.kernel.face = x.sys.kernel.face.disable.resume c := by
    generalize y.sys.kernel.face = m, y.sys.ctl = ctl at hends
    cases hends with
    | resume _ hc => exact ⟨_, hc, rfl⟩
    | next hne => exact absurd hflag hne
  have hc' : y.sys.kernel.currentProcess = some c := (congrArg Face.currentProcess hface).trans hc
  have hkernel : y.sys.kernel.kernelTime = x.sys.kernel.kernelTime := congrArg Face.kernelTime hface
  have hglobal : y.sys.kernel.globalTime = x.sys.kernel.globalTime := congrArg Face.globalTime hface
  have hTOD : y.sys.kernel.startTOD = x.sys.kernel.startTOD := congrArg Face.startTOD hface
  have hreads : y.sys.kernel.hw.reads = x.sys.kernel.hw.reads :=
    congrArg (fun f => f.hw.reads) hface
  have hnow : y.now = x.now := by rw [Timed.now, Timed.now, hclock, hreads]
  obtain ⟨hwithin, hrecent, hstart, hspent, hle⟩ := h.busy c hc
  have halive := hrep.running_alive hc'
  constructor
  · intro hnone
    rw [hc'] at hnone
    cases hnone
  · intro c₁ hc₁
    obtain rfl := Option.some.inj (hc'.symm.trans hc₁)
    rw [hnow, hTOD, bury_spent halive, bury_used halive]
    exact ⟨bury_within hwithin, hrecent, hstart, hspent, hle⟩
  · exact bury_owners g
  · exact bury_dead g
  · intro p hp
    rw [hkernel, hglobal, bury_spent hp, bury_used hp]
    exact h.account p (hold p hp)
  · intro p hp hpc
    rw [bury_spent hp, bury_used hp]
    exact h.spent_le p (hold p hp) (hc.symm ▸ hc' ▸ hpc)

/-- `loadnext`. -/
theorem Balanced.switch (h : Balanced x.sys.kernel g (x.clock.time x.sys.kernel.hw.reads))
    (hx : x.Faithful) (hends : Dispatches v x.sys.kernel.face y.sys.ctl y.sys.kernel.face)
    (hflag : x.sys.kernel.flag ≠ .loadcurrent) (hclock : y.clock = x.clock)
    (hold : ∀ p, p ∉ freeList y.sys.kernel → p ∉ freeList x.sys.kernel) {v' : View}
    (hrep : Rep y.sys.kernel.core v') :
    Balanced y.sys.kernel ((g.switch x y).bury y.sys.kernel) y.now := by
  obtain ⟨hswitch, hload⟩ : Switches x.sys.kernel.face.schedule y.sys.kernel.face ∧
      (y.sys.kernel.currentProcess = none ∨
        y.sys.kernel.startTOD = x.sys.kernel.face.schedule.hw.tod (y.sys.kernel.hw.reads - 1)) := by
    have hnext : Loads v x.sys.kernel.face.schedule y.sys.ctl y.sys.kernel.face := by
      generalize y.sys.kernel.face = m, y.sys.ctl = ctl at hends
      cases hends with
      | resume hresume => exact absurd hresume hflag
      | next _ h => exact h
    exact hnext.switches
  obtain ⟨hcur, hkernel, hglobal, hTOD⟩ := schedule_bill x.sys.kernel.face
  obtain ⟨htod, hreads⟩ := schedule_ahead x.sys.kernel.face
  have hread : ∀ i, x.sys.kernel.face.schedule.hw.tod i = BitVec.ofNat 32 (x.clock.time i) :=
    fun i => congrFun (htod.trans hx) i
  obtain ⟨hwithin, hsettled⟩ :=
    h.settle (x.clock.mono hreads) hcur hkernel hglobal hTOD (hread _) hswitch
  have hlast : y.now = x.clock.time (y.sys.kernel.hw.reads - 1) := by rw [Timed.now, hclock]
  have hle : x.clock.time x.sys.kernel.face.schedule.hw.reads ≤ y.now := by
    rw [hlast]
    exact x.clock.mono (Nat.le_sub_one_of_lt hswitch.reads)
  have hmid : Within (g.switch x y).boot y.now (g.switch x y).spans := by
    have hboot : ((g.switch x y).boot, (g.switch x y).spans) = (g.boot,
        (g.stop x.sys.kernel.currentProcess
          (x.clock.time x.sys.kernel.face.schedule.hw.reads)).spans) := by
      unfold Ledger.switch Ledger.stop
      split <;> rfl
    obtain ⟨hb, hs⟩ := Prod.mk.inj hboot
    rw [hb, hs]
    exact hwithin.mono hle
  have hspent : (g.switch x y).spent = g.spent := by
    unfold Ledger.switch Ledger.stop
    split <;> rfl
  constructor
  · exact fun _ => bury_within hmid
  · intro c hc
    have halive := hrep.running_alive hc
    have hstart := hload.resolve_left (by rw [hc]; exact Option.some_ne_none c)
    refine ⟨bury_within hmid, (Nat.zero_add y.now).le, ?_, Nat.zero_le _, ?_⟩
    · rw [hstart, hread, ← hlast]
      rfl
    · rw [bury_spent halive, bury_used halive, hspent]
      exact (hsettled c (hold c halive)).2.2
  · exact bury_owners _
  · exact bury_dead _
  · intro p hp
    obtain ⟨hk, hg, -⟩ := hsettled p (hold p hp)
    rw [bury_spent hp, bury_used hp, hspent]
    exact ⟨hk, hg⟩
  · intro p hp _
    rw [bury_spent hp, bury_used hp, hspent]
    exact (hsettled p (hold p hp)).2.2

/-- The scheduler keeps the accounts balanced. -/
theorem Balanced.dispatch (h : Balanced x.sys.kernel g x.now ∨ x.sys.kernel.flag = .start ∧
      Balanced x.sys.kernel g (x.clock.time x.sys.kernel.hw.reads))
    (hx : x.Faithful) (hrep : Rep x.sys.kernel.core v) (he : e.1.hw = none)
    (hstep : x.step e = some y) :
    Balanced y.sys.kernel (g.next x e y) y.now := by
  obtain ⟨hsys, hclock⟩ := Timed.step_dispatch he hstep
  have hspares : SparesReady x.sys .dispatch := by
    intro t ht
    cases ht
  obtain ⟨v', hrep', halive⟩ := Sys.step_alive hrep hspares hsys
  have hold : ∀ p, p ∉ freeList y.sys.kernel → p ∉ freeList x.sys.kernel := by
    intro p hp hf
    rcases halive p fun hf' => hp (hrep'.mem_freeList.mpr hf') with hv | ⟨hcreate, -⟩
    · exact hv (hrep.mem_freeList.mp hf)
    · cases hcreate
  have hends : Dispatches v x.sys.kernel.face y.sys.ctl y.sys.kernel.face := Sys.step_ends hrep hsys
  by_cases hflag : x.sys.kernel.flag = .loadcurrent
  · have hnext : g.next x e y = g.bury y.sys.kernel := by
      rw [Ledger.next, he]
      exact congrArg (fun g => Ledger.bury g y.sys.kernel) (if_pos hflag)
    have hbal := h.resolve_right fun h => by
      rw [hflag] at h
      cases h.1
    rw [hnext]
    exact hbal.resume hends hflag hclock hold hrep'
  · have hnext : g.next x e y = (g.switch x y).bury y.sys.kernel := by
      rw [Ledger.next, he]
      exact congrArg (fun g => Ledger.bury g y.sys.kernel) (if_neg hflag)
    have hbal : Balanced x.sys.kernel g (x.clock.time x.sys.kernel.hw.reads) := by
      rcases h with h | ⟨-, h⟩
      · exact h.mono (x.clock.mono (Nat.sub_le _ 1))
      · exact h
    rw [hnext]
    exact hbal.switch hx hends hflag hclock hold hrep'

/-! ### Runs -/

/-- A step that kills leaves its victim dead. -/
theorem Sys.step_terminates {s s' : Sys} {e : Event} (h : Rep s.kernel.core v)
    (hs : SparesReady s e)
    (hstep : s.step e = some s') (hact : e.act s.kernel = some (.terminate p)) :
    p ∈ freeList s'.kernel := by
  obtain ⟨acts, v', hacts, hsteps, hrep'⟩ := Sys.step_refines h hs hstep
  have hone : acts = [.terminate p] := by
    rcases Event.acts_cases hacts with hacts | hinternal
    · rw [hacts, hact]
      rfl
    · cases e with
      | dispatch => cases hact
      | interrupt hw => cases hact
      | syscall hw => exact hacts.trans (congrArg Option.toList hact)
      | pgmtrap hw => exact hacts.trans (congrArg Option.toList hact)
      | tlb hw => exact hacts.trans (congrArg Option.toList hact)
  rw [hone] at hsteps
  rw [hrep'.mem_freeList]
  cases steps_single.mp hsteps with
  | @terminate _ _ ks hp hready =>
      change (v.killAll (ks.postorder ++ [p])).place p = .free
      rw [killAll_place, if_pos (by simp)]

def Unopened (x : Timed) (g : Ledger) : Prop :=
  x.sys.ctl = .scheduler ∧ x.sys.kernel.flag = .start ∧
    g = .start (x.clock.time x.sys.kernel.hw.reads) ∧ Balanced x.sys.kernel g g.boot

theorem unopened_boot {B : Kernel → Prop} (hinit : (clocked B).init x) :
    Unopened x (.start (x.clock.time x.sys.kernel.hw.reads)) ∧ ∃ v, Rep x.sys.kernel.core v := by
  obtain ⟨-, hctl, hflag⟩ := clocked_boot hinit
  obtain ⟨k, -, hk, -, hboot⟩ := hinit
  obtain ⟨pow, -, hface⟩ := main_face hk hboot
  obtain ⟨-, hrep, -⟩ := main_run hk hboot
  have hcur : x.sys.kernel.currentProcess = none := congrArg Face.currentProcess hface
  have hkernel : x.sys.kernel.kernelTime = Function.update k.kernelTime 0 0 :=
    congrArg Face.kernelTime hface
  have hglobal : x.sys.kernel.globalTime = Function.update k.globalTime 0 0 :=
    congrArg Face.globalTime hface
  have hfirst : ∀ p, p ∉ freeList x.sys.kernel → p = 0 := by
    intro p hp
    by_contra hne
    apply hp
    rw [hrep.mem_freeList, boot_place, if_neg hne]
  refine ⟨⟨hctl, hflag, rfl, ?_⟩, _, hrep⟩
  constructor
  · exact fun _ => .nil le_rfl
  · intro c hc
    rw [hcur] at hc
    cases hc
  · exact fun s hs => absurd hs List.not_mem_nil
  · exact fun _ _ => rfl
  · intro p hp
    rw [hkernel, hglobal, hfirst p hp, Function.update_self, Function.update_self]
    exact ⟨rfl, rfl⟩
  · exact fun _ _ _ => Nat.zero_le _

/-- Every step keeps the accounts balanced. -/
theorem Balanced.step (h : Unopened x g ∨ Balanced x.sys.kernel g x.now) (hx : x.Faithful)
    (hrep : Rep x.sys.kernel.core v) (hspares : Spares (x, g) e) (hstep : x.step e = some y) :
    Balanced y.sys.kernel (g.next x e y) y.now := by
  cases he : e.1.hw with
  | none =>
      apply Balanced.dispatch _ hx hrep he hstep
      rcases h with ⟨-, hflag, hg, h⟩ | h
      · right
        rw [hg] at h ⊢
        exact ⟨hflag, h⟩
      · exact Or.inl h
  | some hw =>
      have hbal := h.resolve_left fun h => Timed.entry_ctl he hstep h.1
      cases hc : x.sys.kernel.currentProcess with
      | none => exact hbal.idle_entry hrep he hstep hc
      | some c =>
          apply (entered hrep hspares he hstep hc).balanced hbal
          intro hact
          rw [← Event.clocked_act x.sys.kernel e.1 e.2] at hact
          exact Sys.step_terminates hrep (hspares.clocked e.2) (Timed.step_sys hstep) hact

theorem counting_balanced {B : Kernel → Prop} {z : Timed × Ledger}
    (h : Reach (counting B) Spares z) : z.1.Faithful ∧ (∃ v, Rep z.1.sys.kernel.core v) ∧
      (Unopened z.1 z.2 ∨ Balanced z.1.sys.kernel z.2 z.1.now) := by
  apply h.invariant
  · rintro ⟨x, g⟩ ⟨hinit, hg⟩
    obtain ⟨hopen, hrep⟩ := unopened_boot hinit
    refine ⟨(clocked_boot hinit).1, hrep, Or.inl ?_⟩
    rw [hg]
    exact hopen
  · rintro ⟨x, g⟩ e ⟨y, g'⟩ ⟨hx, ⟨v, hrep⟩, h⟩ hspares hstep
    obtain ⟨-, v', -, -, hrep'⟩ :=
      Sys.step_refines hrep (hspares.clocked e.2) (Timed.step_sys hstep.1)
    refine ⟨hx.step hstep.1, ⟨v', hrep'⟩, Or.inr ?_⟩
    rw [hstep.2]
    exact Balanced.step h hx hrep hspares hstep.1

omit [Platform] in
theorem Balanced.within (h : Balanced k g now) : Within g.boot now g.spans := by
  cases hc : k.currentProcess with
  | none => exact h.idle hc
  | some c =>
      obtain ⟨hwithin, hrecent, -⟩ := h.busy c hc
      exact hwithin.mono (by omega)

omit [Platform] in
theorem Balanced.used_le (h : Balanced k g now) (p : Pcb) : used g.spans p + g.boot ≤ now :=
  (Nat.add_le_add_right (used_le_total g.spans p) _).trans h.within.total_le

omit [Platform] in
/-- What a process has been charged has gone by since the boot. -/
theorem Balanced.spent_elapsed (h : Balanced k g now) (hp : p ∉ freeList k) :
    g.spent p + g.boot ≤ now := by
  by_cases hc : k.currentProcess = some p
  · obtain ⟨hwithin, hrecent, -, -, hspent⟩ := h.busy p hc
    have hused := (Nat.add_le_add_right (used_le_total g.spans p) _).trans hwithin.total_le
    omega
  · have hused := h.used_le p
    have hle := h.spent_le p hp hc
    omega

omit [Platform] in
theorem Balanced.times (h : Balanced k g now) (hnow : now < g.boot + 2 ^ 32) (hp : p ∉ freeList k) :
    (k.kernelTime p).toNat = g.spent p ∧ (k.globalTime p).toNat = used g.spans p := by
  obtain ⟨hk, hg⟩ := h.account p hp
  have hspent := h.spent_elapsed hp
  have hused := h.used_le p
  rw [hk, hg]
  exact ⟨Clock.toNat_ofNat (by omega), Clock.toNat_ofNat (by omega)⟩

omit [Platform] in
/-- The accounts of all processes together are not more than the time that has gone by. -/
theorem Balanced.sum_le (h : Balanced k g now) :
    ∑ p with p ∉ freeList k, (k.globalTime p).toNat ≤ now - g.boot := by
  have htotal := h.within.total_le
  calc ∑ p with p ∉ freeList k, (k.globalTime p).toNat
      ≤ ∑ p with p ∉ freeList k, used g.spans p := by
        apply Finset.sum_le_sum
        intro p hp
        rw [(h.account p (Finset.mem_filter.mp hp).2).2]
        exact Clock.toNat_ofNat_le
    _ ≤ ∑ p, used g.spans p := Finset.sum_le_univ_sum_of_nonneg fun _ => Nat.zero_le _
    _ = total g.spans := sum_used g.spans
    _ ≤ now - g.boot := by omega

/-! ### CPU accounting -/

structure Accounted (k : Kernel) (g : Ledger) (now : ℕ) : Prop where
  global : ∀ p, p ∉ freeList k → (k.globalTime p).toNat = used g.spans p
  kernel : ∀ p, p ∉ freeList k → (k.kernelTime p).toNat = g.spent p
  kernel_le : ∀ p, p ∉ freeList k → k.currentProcess ≠ some p → k.kernelTime p ≤ k.globalTime p
  opened : ∀ c, k.currentProcess = some c → k.startTOD = BitVec.ofNat 32 g.opened
  forward : ∀ s ∈ g.spans, s.start ≤ s.stop
  apart : g.spans.Pairwise fun s t => t.stop ≤ s.start
  elapsed : ∑ p with p ∉ freeList k, (k.globalTime p).toNat ≤ now - g.boot

omit [Platform] in
theorem Balanced.accounted (h : Balanced k g now) (hnow : now < g.boot + 2 ^ 32) :
    Accounted k g now where
  global _ hp := (h.times hnow hp).2
  kernel _ hp := (h.times hnow hp).1
  kernel_le p hp hc := by
    obtain ⟨hk, hg⟩ := h.times hnow hp
    rw [BitVec.le_def, hk, hg]
    exact h.spent_le p hp hc
  opened c hc := (h.busy c hc).2.2.1
  forward _ hs := (h.within.start_le hs).1
  apart := h.within.pairwise
  elapsed := h.sum_le

/-- In every run that kills no process with a ready descendant the accounts are exact. -/
theorem cpu_time_accounted {B : Kernel → Prop} (h : Reach (counting B) Spares (x, g))
    (hnow : x.now < g.boot + 2 ^ 32) : Accounted x.sys.kernel g x.now := by
  obtain ⟨-, -, hopen | hbal⟩ := counting_balanced h
  · obtain ⟨-, -, hg, hbal⟩ := hopen
    have hexact := hbal.accounted (Nat.lt_add_of_pos_right (by decide))
    refine { hexact with elapsed := ?_ }
    exact hexact.elapsed.trans (by omega)
  · exact hbal.accounted hnow

/-! ### User time -/

def Ledger.user (g : Ledger) (c : Pcb) : ℕ := used g.spans c - (g.spent c - g.recent)

def cputimeCall (st : State) : Prop := isService st ∧ ¬ isUserMode st ∧ st.a1 = 8

/-- `GETCPUTIME` stores the difference of the two times that the caller has when it calls. -/
theorem cputimeCall_run {st : State} (hc : k.currentProcess = some c)
    (hst : k.hw.oldArea .sysbk = st)
    (hcall : cputimeCall st) : ∃ k', syscallHandler.run k = .exit .scheduler k' ∧
      k'.hw.words st.a3 = k.globalTime c - k.kernelTime c := by
  obtain ⟨hserv, huser, hsys⟩ := hcall
  have hst' : (k.trap c).hw.oldArea .sysbk = st := hst
  have hps : (k.trap c).pS c = st := (Function.update_self ..).trans hst
  obtain ⟨m, hrun, hwords⟩ : ∃ m, (service st.a1 st.a2 st.a3 st.a4).run (k.trap c) = .ok () m ∧
      m.hw.words st.a3 = k.globalTime c - k.kernelTime c := by
    have hserve : service st.a1 st.a2 st.a3 st.a4 = getCputime st.a2 st.a3 := by
      rw [hsys]
      rfl
    rw [hserve, getCputime, Program.run_bind_ok (current_ok (s := k.trap c) hc)]
    exact ⟨_, rfl, Function.update_self ..⟩
  obtain ⟨k', hend, hface, -⟩ := serviceEnd_run m
  refine ⟨k', ?_, ?_⟩
  · rw [syscallHandler, Program.run_bind_ok (syscallEnter_ok hc), Program.run_gets_bind, hst',
      if_pos hserv, Program.run_gets_bind, hps, if_neg huser, Program.run_bind, hrun]
    exact hend
  · have hfinish : m.face.finish.hw.words = m.hw.words := by
      unfold Face.finish
      split <;> rfl
    have hk' : k'.hw.words = m.hw.words := (congrArg (fun f => f.hw.words) hface).trans hfinish
    rw [hk', hwords]

/-- In every run that kills no process with a ready descendant, the difference that `GETCPUTIME`
stores is the user time if and only if the caller has been charged no more since it was loaded than
its user time was before. -/
theorem user_time_exact {B : Kernel → Prop} {q : Clock} (h : Reach (counting B) Spares (x, g))
    (hnow : x.now < g.boot + 2 ^ 32) (hcall : cputimeCall (hw.oldArea .sysbk))
    (hc : x.sys.kernel.currentProcess = some c) (hstep : x.step (.syscall hw, q) = some y) :
    y.sys.kernel.hw.words (hw.oldArea .sysbk).a3 =
        x.sys.kernel.globalTime c - x.sys.kernel.kernelTime c ∧
      (x.sys.kernel.kernelTime c ≤ x.sys.kernel.globalTime c ↔ g.recent ≤ g.user c) := by
  constructor
  · obtain ⟨-, hsys, -⟩ := Timed.step_entry rfl hstep
    have hrun := (Sys.step_eq hsys).2.1
    obtain ⟨k', hrun', hwords⟩ :=
      cputimeCall_run (k := x.sys.kernel.enter ((Event.syscall hw).clocked q)) hc rfl hcall
    have hk' : k' = y.sys.kernel := by
      have hsame := hrun'.symm.trans hrun
      injection hsame
    rw [← hk']
    exact hwords
  · obtain ⟨-, ⟨v, hrep⟩, hopen | hbal⟩ := counting_balanced h
    · have hentry : (Event.syscall hw, q).1.hw = some hw := rfl
      exact absurd hopen.1 (Timed.entry_ctl hentry hstep)
    · have hbal' : Balanced x.sys.kernel g x.now := hbal
      obtain ⟨hk, hg⟩ := hbal'.times hnow (hrep.running_alive hc)
      obtain ⟨-, -, -, hrecent, hspent⟩ := hbal'.busy c hc
      rw [BitVec.le_def, hk, hg, Ledger.user]
      omega

end Invariant

/-! ### Runs on the board -/

section Board

attribute [local instance] uarm

/-- A computed run with its ledger. -/
theorem counting_run (es : List (Event × Clock)) (Q : Timed × Ledger → Bool)
    (h : ((Sys.boot Kernel.zero).bind fun s => follow (ghostStep Ledger.next) Spares es
      (⟨s, microseconds 0⟩, .start s.kernel.hw.reads)).any Q = true) :
    ∃ z, Reach (counting fun _ => True) Spares z ∧ Q z = true := by
  apply clocked_run trivial atBoot_zero tod_rest es Q
  simpa [microseconds] using h

/-- The first process waits for the clock. -/
theorem cpu_time_accounted_blocked : ∃ k g t, k.currentProcess = none ∧ used g.spans 0 = 100 ∧
    Accounted k g t := by
  obtain ⟨⟨x, g⟩, hreach, hQ⟩ := counting_run
    [(.dispatch, microseconds 0), (call 9, microseconds 100)]
    (fun z => z.1.sys.kernel.currentProcess = none ∧ used z.2.spans 0 = 100 ∧
      z.1.now < z.2.boot + 2 ^ 32)
    (by decide +kernel)
  obtain ⟨hc, hused, hnow⟩ := of_decide_eq_true hQ
  exact ⟨_, g, x.now, hc, hused, cpu_time_accounted hreach hnow⟩

/-- The first process calls `GETPID` and has been charged for it when it calls `GETCPUTIME`. -/
def getpidRun : List (Event × Clock) :=
  [(.dispatch, microseconds 0), (call 11, microseconds 100), (.dispatch, microseconds 0)]

theorem user_time_wraps : ¬ ∀ x g c q y, Reach (counting fun _ => True) Spares (x, g) →
    x.now < g.boot + 2 ^ 32 → x.sys.kernel.currentProcess = some c →
    x.step (call 8 0x100 0x104, q) = some y →
    x.sys.kernel.kernelTime c ≤ x.sys.kernel.globalTime c := by
  intro hall
  obtain ⟨⟨x, g⟩, hreach, hQ⟩ := counting_run getpidRun
    (fun z => z.1.sys.kernel.currentProcess = some 0 ∧ z.1.now < z.2.boot + 2 ^ 32 ∧
      z.1.sys.kernel.kernelTime 0 = 1 ∧ z.1.sys.kernel.globalTime 0 = 0 ∧
      (z.1.step (call 8 0x100 0x104, microseconds 200)).isSome)
    (by decide +kernel)
  obtain ⟨hc, hnow, hkernel, hglobal, hstep⟩ := of_decide_eq_true hQ
  obtain ⟨y, hy⟩ := Option.isSome_iff_exists.mp hstep
  have hle := hall x g 0 _ y hreach hnow hc hy
  rw [hkernel, hglobal] at hle
  exact absurd hle (by decide)

/-- The same two calls in the second slice of the process. -/
theorem user_time_exact_second : ∃ x y : Timed, ∃ g : Ledger,
    x.step (call 8 0x100 0x104, microseconds 500) = some y ∧ g.recent = 1 ∧ g.user 0 = 99 ∧
      (x.sys.kernel.kernelTime 0 ≤ x.sys.kernel.globalTime 0 ↔ g.recent ≤ g.user 0) := by
  obtain ⟨⟨x, g⟩, hreach, hQ⟩ := counting_run
    [(.dispatch, microseconds 0), (completion intTimer 0, microseconds 100),
      (.dispatch, microseconds 200),
      (call 11, microseconds 300), (.dispatch, microseconds 400)]
    (fun z => z.1.sys.kernel.currentProcess = some 0 ∧ z.1.now < z.2.boot + 2 ^ 32 ∧
      z.2.recent = 1 ∧
      z.2.user 0 = 99 ∧ (z.1.step (call 8 0x100 0x104, microseconds 500)).isSome)
    (by decide +kernel)
  obtain ⟨hc, hnow, hrecent, huser, hstep⟩ := of_decide_eq_true hQ
  obtain ⟨y, hy⟩ := Option.isSome_iff_exists.mp hstep
  exact ⟨x, y, g, hy, hrecent, huser,
    (user_time_exact hreach hnow ⟨by decide, by decide, rfl⟩ hc hy).2⟩

end Board

end JaeOS
