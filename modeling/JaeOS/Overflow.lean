import JaeOS.Wakeups

/-!
# Overflow of semaphores

The integer of a semaphore and the requests of its waiters are 32-bit values, and so is the sum that
`V` compares with them; the weights of the callers are not checked. `P` keeps to the free units as
long as the numbers fit. A request large enough takes the integer below the range, and who asks next
finds it positive.
-/

open LinkRing LinkForest Transition

namespace JaeOS

def departed (k k' : Kernel) (a : ℕ) : List Pcb :=
  (waiting k.toLinks a).filter (· ∉ waiting k'.toLinks a)

/-- The additions of `semaphore_operation` and the negation in its loop have 32-bit results. When
the loop has woken the waiters of `l`, it compares as long as there is another one. -/
structure NoWrap (k : Kernel) (a : ℕ) (w : ℤ) : Prop where
  value : FitsInt (k.ints a + w)
  requests : 0 < w → ∀ l, l <+: waiting k.toLinks a → FitsInt (demand k.resWait l)
  sum : 0 < w → FitsInt (demand k.resWait (waiting k.toLinks a) + (k.ints a + w))
  negation : 0 < w → ∀ l, l <+: waiting k.toLinks a → l ≠ waiting k.toLinks a →
    FitsInt (-(demand k.resWait (waiting k.toLinks a) + (k.ints a + w) - demand k.resWait l))

section Demand

variable {r : Pcb → ℤ} {l l' : List Pcb}

theorem demand_of_initial (hneg : ∀ p ∈ l, r p < 0) (hl : l' <+: l) :
    0 ≤ demand r l' ∧ demand r l' ≤ demand r l := by
  obtain ⟨t, rfl⟩ := hl
  have ht : 0 ≤ demand r t := demand_nonneg fun p hp => hneg p (List.mem_append_right _ hp)
  have hl' : 0 ≤ demand r l' := demand_nonneg fun p hp => hneg p (List.mem_append_left _ hp)
  rw [demand_append]
  omega

theorem demand_lt_of_initial (hneg : ∀ p ∈ l, r p < 0) (hl : l' <+: l) (hne : l' ≠ l) :
    demand r l' < demand r l := by
  obtain ⟨t, rfl⟩ := hl
  cases t with
  | nil => exact absurd (List.append_nil l').symm hne
  | cons p t =>
      have hp := hneg p (by simp)
      have ht : 0 ≤ demand r t := demand_nonneg fun q hq => hneg q (by simp [hq])
      rw [demand_append, demand_cons]
      omega

end Demand

section Views

variable [Platform] {v v' u : View} {a b : ℕ} {w units : ℤ} {c p : Pcb} {l : List Pcb} {act : Act}
  {acts : List Act}

/-- The integer of the semaphore at `a` fits, and its free units are there. -/
structure Solvent (v : View) (a : ℕ) (units : ℤ) : Prop where
  value : FitsInt (v.value a)
  avail_le : v.avail a ≤ units
  avail_lt : isDeviceSem a = false → v.avail a < 2 ^ 31

theorem Solvent.congr (h : Solvent v a units) (hs : SameSemaphore v u a) : Solvent u a units := by
  have havail := hs.avail_eq
  constructor
  · rw [hs.value]
    exact h.value
  · rw [havail]
    exact h.avail_le
  · rw [havail]
    exact h.avail_lt

theorem Solvent.pass (h : Solvent v a units) (hw : w < 0) (hfits : FitsInt (v.value a + w)) :
    Solvent (v.setValue a (v.credit a w)) a (units + w) := by
  have havail := pass_avail hfits.exact
  have hle := h.avail_le
  constructor
  · have hvalue : (v.setValue a (v.credit a w)).value a = v.value a + w := by
      exact (Function.update_self ..).trans hfits.exact
    rwa [hvalue]
  · omega
  · intro ha
    have hlt := h.avail_lt ha
    omega

theorem Solvent.block (h : Solvent v a units) (hc : c ∉ v.queue a)
    (hfits : FitsInt (v.value a + w)) :
    Solvent ((v.setValue a (v.credit a w)).block c a w) a units := by
  have havail := block_avail hc hfits.exact
  constructor
  · have hvalue : ((v.setValue a (v.credit a w)).block c a w).value a = v.value a + w :=
      (Function.update_self ..).trans hfits.exact
    rwa [hvalue]
  · rw [havail]
    exact h.avail_le
  · rw [havail]
    exact h.avail_lt

theorem Solvent.verhogen (h : Solvent v a units) (hv : Orderly v) (hfits : FitsInt (v.value a + w))
    (hlt : v.avail a + w < 2 ^ 31) :
    Solvent (v.verhogen a w) a (units + w - demand v.request (v.woken a w)) := by
  obtain ⟨rest, hrest⟩ := woken_initial v a w
  have havail := verhogen_avail hrest.symm (hv.queue_nodup a) hfits.exact
  have hle := h.avail_le
  have hwoken := (demand_of_initial (hv.requests_neg a) ⟨rest, hrest⟩).1
  constructor
  · rw [verhogen_value, View.credit, hfits.exact]
    exact hfits
  · omega
  · intro _
    omega

/-- Killed waiters of a device semaphore take their requests with them, others give them back. -/
theorem Solvent.killAll (h : Solvent v a units) (hv : Orderly v) :
    Solvent (v.killAll l) a units := by
  have hneg := hv.requests_neg a
  have hrefunds := refunds_nonneg (l := l) hneg
  have hsplit := demand_split v l a
  have hrest : 0 ≤ demand v.request ((v.queue a).filter (· ∉ l)) :=
    demand_nonneg fun p hp => hneg p (List.mem_of_mem_filter hp)
  have havail : v.avail a = v.value a + demand v.request (v.queue a) := rfl
  have hle := h.avail_le
  obtain ⟨hlo, hhi⟩ := h.value
  by_cases ha : isDeviceSem a = true
  · have hvalue : (v.killAll l).value a = v.value a := killAll_value_device ha
    constructor
    · rw [hvalue]
      exact h.value
    · rw [View.avail, hvalue, killAll_request, killAll_queue hv.queues]
      omega
    · intro hb
      rw [ha] at hb
      cases hb
  · have hb : isDeviceSem a = false := Bool.eq_false_iff.mpr ha
    have hlt := h.avail_lt hb
    have hexact : ExactOn (v.value a) (v.value a + v.refunds l a) := exactOn_of_range hlo (by omega)
    have hvalue := killAll_value hv.queues hb hneg hexact
    have hkept := killAll_avail hv.queues hb hneg hexact
    constructor
    · rw [hvalue, FitsInt]
      omega
    · rw [hkept]
      exact hle
    · rw [hkept]
      exact h.avail_lt

/-! ### Moves of the nucleus itself -/

structure Relieved (v v' : View) (a : ℕ) (pre : List Pcb) : Prop where
  value : FitsInt (v.value a) → FitsInt (v'.value a)
  queue : v.queue a = pre ++ v'.queue a
  request : ∀ p ∈ v'.queue a, v'.request p = v.request p
  user : isDeviceSem a = false → SameSemaphore v v' a

theorem Relieved.of_same (h : SameSemaphore v v' a) : Relieved v v' a [] where
  value hv := by rwa [h.value]
  queue := by rw [h.queue, List.nil_append]
  request p hp := h.request p (by rwa [h.queue] at hp)
  user _ := h

theorem Relieved.trans {u' : View} {pre pre' : List Pcb} (h : Relieved v u a pre)
    (h' : Relieved u u' a pre') : Relieved v u' a (pre ++ pre') where
  value hv := h'.value (h.value hv)
  queue := by rw [h.queue, h'.queue, List.append_assoc]
  request p hp := by
    have hpu : p ∈ u.queue a := by
      rw [h'.queue]
      exact List.mem_append_right _ hp
    rw [h'.request p hp, h.request p hpu]
  user ha := by
    obtain ⟨hvalue, hqueue, hreq⟩ := h.user ha
    obtain ⟨hvalue', hqueue', hreq'⟩ := h'.user ha
    refine ⟨hvalue'.trans hvalue, hqueue'.trans hqueue, fun p hp => ?_⟩
    rw [hreq' p (by rwa [hqueue]), hreq p hp]

theorem relieved_verhogen (hfits : ∀ x, FitsInt (Platform.wrap x)) (hv : Orderly v)
    (ha : isDeviceSem a = true) : ∃ pre, Relieved v (v.verhogen a w) a pre := by
  obtain ⟨rest, hrest⟩ := woken_initial v a w
  have hqueue := verhogen_queue hrest.symm
  refine ⟨v.woken a w, fun _ => ?_, ?_, fun p hp => ?_, fun hb => ?_⟩
  · rw [verhogen_value]
    exact hfits _
  · rw [hqueue, hrest]
  · rw [hqueue] at hp
    have hnd := hv.queue_nodup a
    rw [← hrest] at hnd
    exact verhogen_request fun hw => (List.nodup_append'.mp hnd).2.2 hw hp
  · rw [ha] at hb
    cases hb

theorem relieved_move (hfits : ∀ x, FitsInt (Platform.wrap x)) (hact : act.internal)
    (hm : OrderlyMove act v v') : ∃ pre, Relieved v v' a pre := by
  by_cases htarget : act.target = some a
  · obtain ⟨hv, hmove⟩ := hm
    cases hmove with
    | full => cases hact
    | create => cases hact
    | terminate => cases hact
    | pass => cases hact
    | block => cases hact
    | @verhogen _ b w hw =>
        obtain rfl := Option.some.inj htarget
        obtain ⟨rfl, -⟩ := hact
        exact relieved_verhogen hfits hv (isDeviceSem_semAddr (by decide))
    | noSignal => exact ⟨[], .of_same (.refl v a)⟩
    | @signal _ b =>
        obtain rfl := Option.some.inj htarget
        obtain ⟨i, hi, rfl⟩ := hact
        exact relieved_verhogen hfits hv (isDeviceSem_semAddr hi)
    | requeue => cases htarget
    | load => cases htarget
  · refine ⟨[], .of_same (semaphore_frame hm htarget fun t ht => ?_)⟩
    rw [ht] at hact
    cases hact

theorem relieved_steps (hfits : ∀ x, FitsInt (Platform.wrap x)) (hacts : ∀ act ∈ acts, act.internal)
    (hsteps : Steps OrderlyMove acts v v') : ∃ pre, Relieved v v' a pre := by
  apply hsteps.invariant (I := fun u => ∃ pre, Relieved v u a pre) _ ⟨[], .of_same (.refl v a)⟩
  intro act hact t u ⟨pre, ht⟩ hm
  obtain ⟨pre', hu⟩ := relieved_move (a := a) hfits (hacts act hact) hm
  exact ⟨pre ++ pre', ht.trans hu⟩

theorem Solvent.relieved {pre : List Pcb} (h : Solvent v a units) (hr : Relieved v v' a pre) :
    Solvent v' a (units + (v'.value a - v.value a) - demand v.request pre) := by
  have hsplit : demand v.request (v.queue a) = demand v.request pre + demand v.request
      (v'.queue a) := by
    conv_lhs => rw [hr.queue]
    exact demand_append
  have hrest : demand v'.request (v'.queue a) = demand v.request (v'.queue a) :=
    demand_congr hr.request
  have havail : v.avail a = v.value a + demand v.request (v.queue a) := rfl
  have havail' : v'.avail a = v'.value a + demand v'.request (v'.queue a) := rfl
  have hle := h.avail_le
  constructor
  · exact hr.value h.value
  · omega
  · intro ha
    rw [(hr.user ha).avail_eq]
    exact h.avail_lt ha

end Views

/-! ### Runs -/

section Runs

variable [Platform] {B : Kernel → Prop} {s s' : Sys} {e : Event} {v v' : View} {a : ℕ} {w : ℤ}
    {x : Sys × ℤ}
  {act : Act}

/-- The units of `a` after an entry, computed exactly: `P` takes its weight if the caller goes on,
`V` adds its own, and the requests of those who are woken are granted. An interrupt adds single
units to integers below 1, which does not overflow. -/
def unitsAfter (a : ℕ) (s : Sys) (e : Event) (s' : Sys) (units : ℤ) : ℤ :=
  match e.act s.kernel with
  | some (.passeren b w) =>
    if b = a ∧ s'.kernel.currentProcess = s.kernel.currentProcess then units + w else units
  | some (.verhogen b w) =>
    if b = a then units + w - demand s.kernel.resWait (departed s.kernel s'.kernel a) else units
  | some _ => units
  | none =>
    units + (s'.kernel.ints a - s.kernel.ints a) -
      demand s.kernel.resWait (departed s.kernel s'.kernel a)

def counted (a : ℕ) (B : Kernel → Prop) : Transition.System (Sys × ℤ) Event :=
  (nucleus B).ghost (fun s => s.kernel.ints a) (unitsAfter a)

def StartsFree (a : ℕ) (k : Kernel) : Prop := 0 ≤ k.ints a ∧ k.ints a < 2 ^ 31

/-- `P` does not take the integer below the range, and `V` finds requests, and units with its own,
that are in it. -/
def Bounded (a : ℕ) (s : Sys) (e : Event) : Prop :=
  match e.act s.kernel with
  | some (.passeren b w) => b = a → -2 ^ 31 ≤ s.kernel.ints a + w
  | some (.verhogen b w) => b = a →
      demand s.kernel.resWait (waiting s.kernel.toLinks a) < 2 ^ 31 ∧ s.kernel.avail a + w < 2 ^ 31
  | _ => True

theorem Event.acts_of_act {acts : List Act} (hact : e.act s.kernel = some act)
    (hacts : e.acts s.kernel acts) : acts = [act] := by
  cases e with
  | dispatch => cases hact
  | interrupt hw => cases hact
  | syscall hw =>
      rw [Event.acts, hact] at hacts
      exact hacts
  | pgmtrap hw =>
      rw [Event.acts, hact] at hacts
      exact hacts
  | tlb hw =>
      rw [Event.acts, hact] at hacts
      exact hacts

theorem Event.acts_of_none {acts : List Act} (hact : e.act s.kernel = none)
    (hacts : e.acts s.kernel acts) : ∀ act ∈ acts, act.internal := by
  rcases Event.acts_cases hacts with rfl | hacts
  · rw [hact]
    intro act hm
    cases hm
  · exact hacts

omit [Platform] in
theorem departed_eq {pre : List Pcb} (h : Rep s.kernel.core v) (h' : Rep s'.kernel.core v')
    (hq : v.queue a = pre ++ v'.queue a) : departed s.kernel s'.kernel a = pre := by
  have hnd := h.orderly.queue_nodup a
  rw [hq] at hnd
  have hdisjoint := (List.nodup_append'.mp hnd).2.2
  rw [departed, h.waiting_eq, h'.waiting_eq, hq, List.filter_append]
  have hpre : pre.filter (· ∉ v'.queue a) = pre := by
    rw [List.filter_eq_self]
    intro p hp
    simpa using hdisjoint hp
  have hrest : (v'.queue a).filter (· ∉ v'.queue a) = [] := by
    rw [List.filter_eq_nil_iff]
    intro p hp
    simpa using hp
  rw [hpre, hrest, List.append_nil]

omit [Platform] in
theorem Rep.currentProcess_eq {k k' : Kernel} (h : Rep k.core v) (h' : Rep k'.core v')
    (hplace : v'.place = v.place) : k'.currentProcess = k.currentProcess := by
  have hiff : ∀ p, k'.currentProcess = some p ↔ k.currentProcess = some p := by
    intro p
    have hp := h.off p
    have hp' := h'.off p
    rw [hplace] at hp'
    exact hp'.symm.trans hp
  cases hc : k.currentProcess with
  | none =>
      rw [Option.eq_none_iff_forall_ne_some]
      intro p hp
      rw [(hiff p).mp hp] at hc
      cases hc
  | some c => exact (hiff c).mpr hc

omit [Platform] in
/-- The process that `P` blocks does not run any more. -/
theorem Rep.currentProcess_ne {k k' : Kernel} {c : Pcb} (h : Rep k.core v) (h' : Rep k'.core v')
    (hc : v.place c = .off) (hc' : v'.place c ≠ .off) : k'.currentProcess ≠ k.currentProcess := by
  intro hsame
  have hrunning : k.currentProcess = some c := (h.off c).mp hc
  rw [hrunning] at hsame
  exact hc' ((h'.off c).mpr hsame)

/-- One move of a process. -/
theorem solvent_move {units : ℤ} (h : Rep s.kernel.core v) (h' : Rep s'.kernel.core v')
    (hsolv : Solvent v a units) (hact : e.act s.kernel = some act) (hb : Bounded a s e)
    (hm : OrderlyMove act v v') : Solvent v' a (unitsAfter a s e s' units) := by
  have hvalue : s.kernel.ints = v.value := h.value
  have hreq : s.kernel.resWait = v.request := h.request
  have hother (htarget : act.target ≠ some a) (hkill : ∀ t, act ≠ .terminate t) :
      Solvent v' a units :=
    hsolv.congr (semaphore_frame hm htarget hkill)
  unfold Bounded at hb
  unfold unitsAfter
  rw [hact] at hb ⊢
  obtain ⟨hv, hmove⟩ := hm
  cases hmove with
  | full => exact hother (by rintro ⟨⟩) (by rintro _ ⟨⟩)
  | create => exact hother (by rintro ⟨⟩) (by rintro _ ⟨⟩)
  | terminate =>
      obtain ⟨hv', hle, hlt⟩ := hsolv.killAll (l := _) hv
      exact ⟨hv', hle, hlt⟩
  | @pass _ b w hw hi =>
      dsimp only at hb ⊢
      have hgoes := h.currentProcess_eq h' rfl
      by_cases hba : b = a
      · subst hba
        have hlow := hb rfl
        rw [hvalue] at hlow
        rw [if_pos ⟨rfl, hgoes⟩]
        apply hsolv.pass hw
        have hhigh := hsolv.value.2
        constructor <;> omega
      · rw [if_neg fun hc => hba hc.1]
        exact hother (fun he => hba (Option.some.inj he)) (by rintro _ ⟨⟩)
  | @block _ b w c hw hi ha hc =>
      dsimp only at hb ⊢
      have hstops := h.currentProcess_ne h' hc (by simp [View.block])
      rw [if_neg fun hcond => hstops hcond.2]
      by_cases hba : b = a
      · subst hba
        have hlow := hb rfl
        rw [hvalue] at hlow
        have hcq : c ∉ v.queue b := by simp [hv.mem_queue, hc]
        apply hsolv.block hcq
        have hhigh := hsolv.value.2
        constructor <;> omega
      · exact hother (fun he => hba (Option.some.inj he)) (by rintro _ ⟨⟩)
  | @verhogen _ b w hw =>
      dsimp only at hb ⊢
      by_cases hba : b = a
      · subst hba
        obtain ⟨hdemand, hunits⟩ := hb rfl
        rw [h.toWellFormed.avail_eq] at hunits
        obtain ⟨rest, hrest⟩ := woken_initial v b w
        have hdep : departed s.kernel s'.kernel b = v.woken b w := by
          apply departed_eq h h'
          rw [verhogen_queue hrest.symm, hrest]
        have hneg := demand_nonneg (hv.requests_neg b)
        have havail : v.avail b = v.value b + demand v.request (v.queue b) := rfl
        rw [if_pos rfl, hdep, hreq]
        apply hsolv.verhogen hv _ hunits
        have hlow := hsolv.value.1
        constructor <;> omega
      · rw [if_neg hba]
        exact hother (fun he => hba (Option.some.inj he)) (by rintro _ ⟨⟩)
  | noSignal => exact absurd hact Event.act_ne_signal
  | signal => exact absurd hact Event.act_ne_signal
  | requeue => exact hother (by rintro ⟨⟩) (by rintro _ ⟨⟩)
  | load => exact hother (by rintro ⟨⟩) (by rintro _ ⟨⟩)

theorem solvent_step {units : ℤ} (hfits : ∀ x, FitsInt (Platform.wrap x)) (h : Rep s.kernel.core v)
    (hsolv : Solvent v a units) (hs : SparesReady s e) (hb : Bounded a s e)
    (hstep : s.step e = some s') :
    ∃ v', Rep s'.kernel.core v' ∧ Solvent v' a (unitsAfter a s e s' units) := by
  obtain ⟨acts, v', hacts, hsteps, h'⟩ := Sys.step_refines h hs hstep
  have hsteps' := steps_orderly hsteps (Event.acts_light hacts) h.orderly
  refine ⟨v', h', ?_⟩
  cases hact : e.act s.kernel with
  | some act =>
      rw [Event.acts_of_act hact hacts] at hsteps'
      exact solvent_move h h' hsolv hact hb (steps_single.mp hsteps')
  | none =>
      obtain ⟨pre, hpre⟩ := relieved_steps (a := a) hfits (Event.acts_of_none hact hacts) hsteps'
      have hvalue : s.kernel.ints = v.value := h.value
      have hvalue' : s'.kernel.ints = v'.value := h'.value
      have hreq : s.kernel.resWait = v.request := h.request
      unfold unitsAfter
      rw [hact, departed_eq h h' hpre.queue, hvalue, hvalue', hreq]
      exact hsolv.relieved hpre

omit [Platform] in
theorem fitsInt_bmod (x : ℤ) : FitsInt (Int.bmod x (2 ^ 32)) := by
  have hlo := Int.le_bmod (x := x) (m := 2 ^ 32) (by decide)
  have hhi := Int.bmod_lt (x := x) (m := 2 ^ 32) (by decide)
  constructor <;> omega

/-- `main` clears `device_sem` and leaves the rest. -/
theorem StartsFree.fits {k : Kernel} (hk : StartsFree a k) : FitsInt (bootInts k.ints a) := by
  obtain ⟨hlo, hhi⟩ := hk
  unfold bootInts
  rw [foldl_update_semAddr]
  split
  · decide
  · constructor <;> omega

theorem solvent_run (hfits : ∀ x, FitsInt (Platform.wrap x))
    (h : Reach (counted a (StartsFree a)) (fun x e => SparesReady x.1 e ∧ Bounded a x.1 e) x) :
    ∃ v, Rep x.1.kernel.core v ∧ Solvent v a x.2 := by
  apply h.invariant
  · intro x ⟨⟨k, hk, hboot, hstart⟩, hunits⟩
    obtain ⟨-, hrep, -⟩ := main_run hboot hstart
    have hvalue : x.1.kernel.ints = bootInts k.ints := hrep.value
    have havail : (View.boot (bootInts k.ints) k.resWait).avail a = bootInts k.ints a := add_zero _
    have hfree := hk.fits
    refine ⟨_, hrep, hfree, ?_, fun _ => ?_⟩
    · rw [havail, hunits]
      exact (congrFun hvalue a).symm.le
    · rw [havail]
      exact hfree.2
  · intro x e y ⟨v, hrep, hsolv⟩ ⟨hs, hb⟩ ⟨hstep, hunits⟩
    rw [hunits]
    exact solvent_step hfits hrep hsolv hs hb hstep

/-- A request that is granted at once finds its units. -/
theorem passeren_covered {units : ℤ} (h : Rep s.kernel.core v) (hsolv : Solvent v a units)
    (hs : SparesReady s e) (hb : Bounded a s e) (hact : e.act s.kernel = some (.passeren a w))
    (hstep : s.step e = some s') (hgoes : s'.kernel.currentProcess = s.kernel.currentProcess) :
    -w ≤ units := by
  obtain ⟨acts, v', hacts, hsteps, h'⟩ := Sys.step_refines h hs hstep
  rw [Event.acts_of_act hact hacts] at hsteps
  have hvalue : s.kernel.ints = v.value := h.value
  rw [Bounded, hact, hvalue] at hb
  have hlow := hb rfl
  obtain hm := steps_single.mp hsteps
  cases hm with
  | pass hw hi =>
      have hcredit : v.credit a w = v.value a + w :=
        Platform.wrap_eq _ hlow (by have hhigh := hsolv.value.2; omega)
      have hdemand := demand_nonneg (h.orderly.requests_neg a)
      have havail : v.avail a = v.value a + demand v.request (v.queue a) := rfl
      have hle := hsolv.avail_le
      omega
  | block hw hi ha hc => exact absurd hgoes (h.currentProcess_ne h' hc (by simp [View.block]))

omit [Platform] in
/-- What `V` computes fits. -/
theorem verhogen_noWrap (h : Rep s.kernel.core v) (hlow : -2 ^ 31 ≤ s.kernel.ints a) (hw : 0 < w)
    (hdemand : demand s.kernel.resWait (waiting s.kernel.toLinks a) < 2 ^ 31)
    (hunits : s.kernel.avail a + w < 2 ^ 31) : NoWrap s.kernel a w := by
  have hreq : s.kernel.resWait = v.request := h.request
  have hneg : ∀ p ∈ waiting s.kernel.toLinks a, s.kernel.resWait p < 0 := by
    rw [h.waiting_eq, hreq]
    exact h.orderly.requests_neg a
  have hpos := demand_nonneg hneg
  have havail : s.kernel.avail a =
      s.kernel.ints a + demand s.kernel.resWait (waiting s.kernel.toLinks a) := rfl
  constructor
  · constructor <;> omega
  · intro _ l hl
    obtain ⟨hl0, hle⟩ := demand_of_initial hneg hl
    constructor <;> omega
  · intro _
    constructor <;> omega
  · intro _ l hl hne
    obtain ⟨hl0, -⟩ := demand_of_initial hneg hl
    have hlt := demand_lt_of_initial hneg hl hne
    constructor <;> omega

/-- As long as the numbers stay in the range, a `P` lets its caller go on only if its units are
free, and nothing that `P` and `V` compute overflows. -/
theorem requests_covered (hwrap : ∀ x, Platform.wrap x = Int.bmod x (2 ^ 32))
    (h : Reach (counted a (StartsFree a)) (fun x e => SparesReady x.1 e ∧ Bounded a x.1 e) x)
    (hs : SparesReady x.1 e) (hb : Bounded a x.1 e) (hstep : x.1.step e = some s') :
    (e.act x.1.kernel = some (.passeren a w) →
      (s'.kernel.currentProcess = x.1.kernel.currentProcess → -w ≤ x.2) ∧ NoWrap x.1.kernel a w) ∧
    (e.act x.1.kernel = some (.verhogen a w) → NoWrap x.1.kernel a w) := by
  have hfits : ∀ x, FitsInt (Platform.wrap x) := fun x => hwrap x ▸ fitsInt_bmod x
  obtain ⟨v, hrep, hsolv⟩ := solvent_run hfits h
  have hvalue : x.1.kernel.ints = v.value := hrep.value
  have hvalue_fits : FitsInt (x.1.kernel.ints a) := by
    rw [hvalue]
    exact hsolv.value
  obtain ⟨acts, v', hacts, hsteps, -⟩ := Sys.step_refines hrep hs hstep
  constructor
  · intro hact
    rw [Event.acts_of_act hact hacts] at hsteps
    have hm := steps_single.mp hsteps
    have hw : w < 0 := by
      cases hm with
      | pass hw => exact hw
      | block hw => exact hw
    refine ⟨passeren_covered hrep hsolv hs hb hact hstep, ?_⟩
    rw [Bounded, hact] at hb
    have hlow := hb rfl
    have hhigh := hvalue_fits.2
    constructor
    · constructor <;> omega
    · intro hpos
      omega
    · intro hpos
      omega
    · intro hpos
      omega
  · intro hact
    rw [Event.acts_of_act hact hacts] at hsteps
    have hm := steps_single.mp hsteps
    have hw : 0 < w := by
      cases hm with
      | verhogen hw => exact hw
    rw [Bounded, hact] at hb
    obtain ⟨hdemand, hunits⟩ := hb rfl
    exact verhogen_noWrap hrep hvalue_fits.1 hw hdemand hunits

end Runs

section Board

attribute [local instance] uarm

/-- A computed run with the units of the semaphore at `a`. -/
theorem counted_run {C : Sys → Event → Prop} [∀ s e, Decidable (C s e)] {a : ℕ} {k : Kernel}
    (hB : StartsFree a k) (hk : AtBoot k) (es : List Event) (Q : Sys × ℤ → Bool)
    (h : ((Sys.boot k).bind fun s => follow
      (fun x e => (x.1.step e).map fun s' => (s', unitsAfter a x.1 e s' x.2))
        (fun x e => C x.1 e) es
      (s, s.kernel.ints a)).any Q = true) :
    ∃ x, Reach (counted a (StartsFree a)) (fun x e => C x.1 e) x ∧ Q x = true := by
  obtain ⟨x, hrun, hQ⟩ := (Option.any_eq_true _ _).mp h
  obtain ⟨s, hboot, hes⟩ := Option.bind_eq_some_iff.mp hrun
  exact ⟨x, Reach.follow_ghost (fun _ _ _ hs => hs) ⟨k, hB, hk, hboot⟩ hes, hQ⟩

theorem Plain.bounded {s : Sys} {e : Event} (h : Plain s e) (a : ℕ) : Bounded a s e := by
  unfold Plain at h
  unfold Bounded
  cases hact : e.act s.kernel with
  | none => trivial
  | some act =>
      rw [hact] at h
      cases act with
      | passeren b w => exact fun hb => hb ▸ h.1
      | verhogen => cases h
      | create => trivial
      | terminate => trivial
      | signal => trivial
      | requeue => trivial
      | load => trivial

/-- The first process takes the only unit. -/
theorem requests_covered_first : ∃ (x : Sys × ℤ) (s' : Sys),
    x.1.step (call 3 0x5000 (-1)) = some s' ∧
    s'.kernel.currentProcess = x.1.kernel.currentProcess ∧ 1 ≤ x.2 ∧
    NoWrap x.1.kernel 0x5000 (-1) := by
  obtain ⟨x, hx, hQ⟩ := counted_run (C := Plain) (a := 0x5000)
    (k := { Kernel.zero with ints := fun _ => 1 }) ⟨by decide, by decide⟩ ⟨rfl, fun _ => rfl⟩
      [.dispatch]
    (fun x => (call 3 0x5000 (-1)).act x.1.kernel = some (.passeren 0x5000 (-1)) ∧
      Plain x.1 (call 3 0x5000 (-1)) ∧
      (x.1.step (call 3 0x5000 (-1))).any
        fun s' => s'.kernel.currentProcess = x.1.kernel.currentProcess)
    (by decide +kernel)
  obtain ⟨hact, hplain, hstep⟩ := of_decide_eq_true hQ
  obtain ⟨s', hstep, hgoes⟩ := (Option.any_eq_true _ _).mp hstep
  have hgoes := of_decide_eq_true hgoes
  obtain ⟨hcovered, hfits⟩ := (requests_covered (w := -1) (fun _ => rfl)
    (hx.mono fun _ _ hp => ⟨hp.keepsWaiters.ready, hp.bounded 0x5000⟩) hplain.keepsWaiters.ready
    (hplain.bounded 0x5000) hstep).1 hact
  exact ⟨x, s', hstep, hgoes, hcovered hgoes, hfits⟩

/-- After a request for all units an `int` can count, the request for one more unit finds a positive
integer. -/
theorem request_overflows : ¬ ∀ x, Reach (counted 0x5000 (StartsFree 0x5000)) (fun _ _ => True) x →
    ∀ e s' w, x.1.step e = some s' → e.act x.1.kernel = some (.passeren 0x5000 w) →
      s'.kernel.currentProcess = x.1.kernel.currentProcess → -w ≤ x.2 := by
  intro hall
  obtain ⟨x, hx, hQ⟩ := counted_run (C := fun _ _ => True) (a := 0x5000) (k := Kernel.zero)
    ⟨by decide, by decide⟩ atBoot_zero
    [.dispatch, call 1, .dispatch, call 3 0x5000 0x80000000, .dispatch]
    (fun x => (call 3 0x5000 (-1)).act x.1.kernel = some (.passeren 0x5000 (-1)) ∧ x.2 = 0 ∧
      (x.1.step (call 3 0x5000 (-1))).any
        fun s' => s'.kernel.currentProcess = x.1.kernel.currentProcess)
    (by decide +kernel)
  obtain ⟨hact, hunits, hstep⟩ := of_decide_eq_true hQ
  obtain ⟨s', hstep, hgoes⟩ := (Option.any_eq_true _ _).mp hstep
  have hle := hall x hx _ s' (-1) hstep hact (of_decide_eq_true hgoes)
  omega

end Board

end JaeOS
