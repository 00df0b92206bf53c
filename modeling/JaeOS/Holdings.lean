import JaeOS.Fcfs

/-!
# Who holds the units of a semaphore

The units of a semaphore outside `device_sem` over whole runs, process by process: those that have
been granted to a process and not been returned by it. Together with the free units and those that
died with their holders they are the units the semaphore started with. Where nobody returns what it
does not hold, a semaphore that starts with one unit has at most one holder.
-/

open LinkRing LinkForest Transition Fifo

namespace JaeOS

/-- What each process holds, and what those held who have died. -/
structure Holdings where
  held : Pcb → ℤ
  lost : ℤ

section Units

variable [Platform]

def Event.asks (a : ℕ) (k : Kernel) (e : Event) : ℤ :=
  match e.act k with
  | some (.passeren b w) => if b = a then -w else 0
  | _ => 0

/-- The units of `a` that a step grants to `p`: what it waited for, or what its `P` asks for. -/
def granted (a : ℕ) (x : Sys × Event × Sys) (p : Pcb) : ℤ :=
  (if p ∈ wokenFrom a x then -x.1.kernel.resWait p else 0) +
    if p ∈ admitted a x then x.2.1.asks a x.1.kernel else 0

def returned (a : ℕ) (x : Sys × Event × Sys) (p : Pcb) : ℤ :=
  if x.1.kernel.currentProcess = some p then supplied a x else 0

def Holdings.balance (h : Holdings) (a : ℕ) (x : Sys × Event × Sys) (p : Pcb) : ℤ :=
  h.held p + granted a x p - returned a x p

def noteUnits (a : ℕ) (s : Sys) (e : Event) (s' : Sys) (h : Holdings) : Holdings where
  held p := if p ∈ freeList s'.kernel then 0 else h.balance a (s, e, s') p
  lost := h.lost + ∑ p, if p ∈ freeList s'.kernel then h.balance a (s, e, s') p else 0

/-- Nobody returns more than it holds. -/
def Returns (a : ℕ) (x : Sys × Holdings) (e : Event) : Prop :=
  ∀ c ∈ x.1.kernel.currentProcess, e.supplies a x.1.kernel ≤ x.2.held c

instance {a : ℕ} {x : Sys × Holdings} {e : Event} : Decidable (Returns a x e) :=
  inferInstanceAs
    (Decidable (∀ c ∈ x.1.kernel.currentProcess, e.supplies a x.1.kernel ≤ x.2.held c))

section Steps

variable {v v' : View} {act : Act} {s s' : Sys} {e : Event} {a : ℕ} {p c : Pcb} {w : ℤ}

omit [Platform] in
/-- Nobody is woken in a view with the same queue. -/
theorem woken_nil (hv' : Orderly v') (hq : v'.queue a = v.queue a) :
    (v.queue a).filter (· ∈ v'.ready) = [] := (Rouses.of_queue hq).filter_eq hv'

/-- What a move that is not a `P` on `a` does to its free units. -/
theorem OrderlyMove.avail_eq (hm : OrderlyMove act v v') (hv' : Orderly v')
    (ha : isDeviceSem a = false)
    (hcomp : Computes act v) (hact : ∀ w, act ≠ .passeren a w) :
    v'.avail a = v.avail a + act.supply a - demand v.request
      ((v.queue a).filter (· ∈ v'.ready)) := by
  have hother (htarget : act.target ≠ some a) (hkill : ∀ t, act ≠ .terminate t) :
      v'.avail a = v.avail a + act.supply a - demand v.request
        ((v.queue a).filter (· ∈ v'.ready)) := by
    have hnone : act.supply a = 0 := by
      cases act with
      | verhogen b w => exact if_neg fun hb => htarget (congrArg some hb)
      | _ => rfl
    have hsame := semaphore_frame hm htarget hkill
    rw [woken_nil hv' hsame.queue, hsame.avail_eq, hnone, demand_nil]
    omega
  obtain ⟨hv, hmove⟩ := hm
  cases hmove with
  | full => exact hother (fun he => by cases he) (fun _ he => by cases he)
  | create => exact hother (fun he => by cases he) (fun _ he => by cases he)
  | @terminate _ t ks hks =>
      have hready : (v.terminate t ks).ready = v.ready.filter (· ∉ ks.postorder ++ [t]) :=
        killAll_ready_eq hv.ready_nodup
      have havail : (v.terminate t ks).avail a = v.avail a :=
        killAll_avail ⟨hv.mem_queue, hv.queue_nodup⟩ ha (hv.requests_neg a) (hcomp ks hks a ha)
      have hwoken : (v.queue a).filter (· ∈ (v.terminate t ks).ready) = [] := by
        refine List.filter_eq_nil_iff.mpr fun x hx => ?_
        rw [hready]
        simpa using fun hxr => absurd hxr (hv.not_ready hx)
      rw [hwoken, havail, demand_nil]
      simp [Act.supply]
  | @pass _ b w =>
      exact hother (fun he => hact w (by rw [Option.some.inj he])) fun _ he => by cases he
  | @block _ b w =>
      exact hother (fun he => hact w (by rw [Option.some.inj he])) fun _ he => by cases he
  | @verhogen _ b w hw =>
      by_cases hb : b = a
      · subst hb
        obtain ⟨rest, hrest⟩ := woken_initial v b w
        rw [(verhogen_rouses_self b w).filter_eq hv', verhogen_avail hrest.symm (hv.queue_nodup b)
          (hcomp ha).value]
        simp [Act.supply]
      · exact hother (fun he => hb (Option.some.inj he)) (fun _ he => by cases he)
  | noSignal =>
      rw [woken_nil hv' rfl, demand_nil]
      simp [Act.supply]
  | @signal _ b =>
      refine hother (fun he => ?_) (fun _ he => by cases he)
      obtain rfl := Option.some.inj he
      rw [show isDeviceSem b = true from hcomp] at ha
      cases ha
  | requeue => exact hother (fun he => by cases he) (fun _ he => by cases he)
  | load => exact hother (fun he => by cases he) (fun _ he => by cases he)

omit [Platform] in
theorem SameSemaphore.trans {u : View} (h : SameSemaphore v v' a) (hu : SameSemaphore v' u a) :
    SameSemaphore v u a where
  value := hu.value.trans h.value
  queue := hu.queue.trans h.queue
  request p hp := (hu.request p (h.queue ▸ hp)).trans (h.request p hp)

theorem supplies_idle (hc : s.kernel.currentProcess = none) : e.supplies a s.kernel = 0 := by
  unfold Event.supplies
  cases hact : e.act s.kernel with
  | none => rfl
  | some act =>
      obtain ⟨c, hsome⟩ := Event.act_current hact
      rw [hc] at hsome
      cases hsome

/-- What is returned in a step is what its `V` supplies. -/
theorem sum_returned : ∑ p, returned a (s, e, s') p = supplied a (s, e, s') := by
  unfold returned
  cases hc : s.kernel.currentProcess with
  | none =>
      have hidle : supplied a (s, e, s') = 0 := supplies_idle hc
      simp [hidle]
  | some c => simp

omit [Platform] in
theorem sum_ite_mem {l : List Pcb} (hl : l.Nodup) (f : Pcb → ℤ) :
    ∑ p, (if p ∈ l then f p else 0) = (l.map f).sum := by
  have hset : ∀ p, p ∈ l ↔ p ∈ l.toFinset := fun p => List.mem_toFinset.symm
  simp only [hset]
  rw [Finset.sum_ite_mem, Finset.univ_inter, List.sum_toFinset f hl]

/-- The free units of a semaphore change by what a step returns and grants. -/
theorem Sys.step_avail (h : Rep s.kernel.core v) (ha : isDeviceSem a = false) (hk : KeepsUnits s e)
    (hstep : s.step e = some s') :
    s'.kernel.avail a = s.kernel.avail a + supplied a (s, e, s') - ∑ p, granted a (s, e, s') p := by
  obtain ⟨acts, v', hacts, hsteps, hrep'⟩ :=
    nucleus_simulation (B := fun _ => True).step h hk.ready hstep
  have hnodup : (wokenFrom a (s, e, s')).Nodup := by
    unfold wokenFrom Sys.waiters
    rw [h.waiting_eq]
    exact (h.orderly.queue_nodup a).filter _
  have hwoken : wokenFrom a (s, e, s') = (v.queue a).filter (· ∈ v'.ready) := by
    unfold wokenFrom Sys.waiters Sys.ready
    rw [h.waiting_eq, hrep'.readyList_eq]
  have hreq : s.kernel.resWait = v.request := h.request
  have hdemand : ((wokenFrom a (s, e, s')).map fun p => -s.kernel.resWait p).sum =
      demand v.request ((v.queue a).filter (· ∈ v'.ready)) := by
    rw [hwoken, hreq]
    rfl
  unfold granted
  rw [Finset.sum_add_distrib, sum_ite_mem hnodup, hdemand, h.toWellFormed.avail_eq,
    hrep'.toWellFormed.avail_eq]
  -- nobody is admitted unless the entry is a `P` on `a`
  have hplain (hadm : admitted a (s, e, s') = [])
      (havail : v'.avail a = v.avail a + supplied a (s, e, s') -
        demand v.request ((v.queue a).filter (· ∈ v'.ready))) :
      v'.avail a = v.avail a + supplied a (s, e, s') -
        (demand v.request ((v.queue a).filter (· ∈ v'.ready)) +
          ∑ p, if p ∈ admitted a (s, e, s') then e.asks a s.kernel else 0) := by
    rw [hadm, havail]
    simp
  rcases Event.acts_split hacts with rfl | ⟨hnone, hinternal⟩
  · cases hact : e.act s.kernel with
    | none =>
        rw [hact] at hsteps
        obtain rfl := steps_nil.mp hsteps
        refine hplain (by simp [admitted, hact]) ?_
        rw [woken_nil hrep'.orderly rfl, demand_nil]
        simp [supplied, Event.supplies, hact]
    | some act =>
        rw [hact] at hsteps
        have hm := steps_single.mp hsteps
        have hcomp : Computes act v := hk.computes h hact
        have hsupply : supplied a (s, e, s') = act.supply a := by
          simp [supplied, Event.supplies, hact]
        by_cases hpass : ∃ w, act = .passeren a w
        · obtain ⟨w, rfl⟩ := hpass
          have hexact : Platform.wrap (v.value a + w) = v.value a + w := hcomp ha
          have hasks : e.asks a s.kernel = -w := by simp [Event.asks, hact]
          have hadm : admitted a (s, e, s') = s.kernel.currentProcess.toList.filter
              (· ∉ v'.queue a) := by
            unfold admitted Sys.waiters
            rw [hact, hrep'.waiting_eq]
            exact if_pos rfl
          obtain ⟨hv, hmove⟩ := hm
          cases hmove with
          | pass hw hi =>
              obtain ⟨c, hc⟩ := Event.act_current hact
              have hcq : c ∉ (v.setValue a (v.credit a w)).queue a := by
                change c ∉ v.queue a
                simp [hv.mem_queue, (h.off c).mpr hc]
              have hwoken : (v.queue a).filter (· ∈ (v.setValue a (v.credit a w)).ready) = [] :=
                woken_nil hrep'.orderly rfl
              have hone : admitted a (s, e, s') = [c] := by
                rw [hadm, hc]
                simpa using hcq
              rw [hsupply, hasks, hone, hwoken, pass_avail hexact]
              simp [Act.supply]
          | @block _ _ _ c hw hi ha0 hc =>
              have hcur : s.kernel.currentProcess = some c := (h.off c).mp hc
              have hcq : c ∉ v.queue a := by simp [hv.mem_queue, hc]
              have hqueue : ((v.setValue a (v.credit a w)).block c a w).queue a = v.queue a ++
                  [c] :=
                Function.update_self ..
              have hone : admitted a (s, e, s') = [] := by
                rw [hadm, hcur, hqueue]
                simp
              have hwoken : (v.queue a).filter
                  (· ∈ ((v.setValue a (v.credit a w)).block c a w).ready) = [] :=
                List.filter_eq_nil_iff.mpr fun x hx hxr => hv.not_ready hx (of_decide_eq_true hxr)
              rw [hsupply, hone, hwoken, block_avail hcq hexact]
              simp [Act.supply]
        · refine hplain ?_ ?_
          · unfold admitted
            rw [hact]
            cases act with
            | passeren b w => exact if_neg fun hb => hpass ⟨w, by rw [hb]⟩
            | _ => rfl
          · rw [hsupply]
            exact hm.avail_eq hrep'.orderly ha hcomp fun w hw => hpass ⟨w, hw⟩
  · have hsame : SameSemaphore v v' a :=
      hsteps.invariant (I := fun u => SameSemaphore v u a) (fun act hact t u ht hm =>
        ht.trans
          (semaphore_frame hm ((hinternal act hact).target_ne ha)
            (hinternal act hact).ne_terminate))
        (.refl v a)
    refine hplain (by simp [admitted, hnone]) ?_
    rw [woken_nil hrep'.orderly hsame.queue, demand_nil, hsame.avail_eq]
    simp [supplied, Event.supplies, hnone]

omit [Platform] in
theorem sum_if_add_if (q : Pcb → Prop) [DecidablePred q] (f : Pcb → ℤ) :
    (∑ p, if q p then 0 else f p) + (∑ p, if q p then f p else 0) = ∑ p, f p := by
  rw [← Finset.sum_add_distrib]
  refine Finset.sum_congr rfl fun p _ => ?_
  split <;> simp

/-- The units are all accounted for. -/
theorem noteUnits_sum {x : Holdings} (h : Rep s.kernel.core v) (ha : isDeviceSem a = false)
    (hk : KeepsUnits s e) (hstep : s.step e = some s') :
    s'.kernel.avail a + ∑ p, (noteUnits a s e s' x).held p + (noteUnits a s e s' x).lost =
      s.kernel.avail a + ∑ p, x.held p + x.lost := by
  have havail := Sys.step_avail h ha hk hstep
  have hsplit := sum_if_add_if (· ∈ freeList s'.kernel) (x.balance a (s, e, s'))
  have hbalance : ∑ p, x.balance a (s, e, s') p =
      ∑ p, x.held p + ∑ p, granted a (s, e, s') p - supplied a (s, e, s') := by
    rw [← sum_returned, ← Finset.sum_add_distrib, ← Finset.sum_sub_distrib]
    rfl
  simp only [noteUnits]
  omega

/-- What is granted is positive, as it was asked for. -/
theorem granted_nonneg (h : Rep s.kernel.core v) (hs : SparesReady s e)
    (hstep : s.step e = some s') :
    0 ≤ granted a (s, e, s') p := by
  refine add_nonneg ?_ ?_
  · split
    · next hp =>
      have hq : p ∈ v.queue a := by
        have hmem := List.mem_of_mem_filter hp
        unfold Sys.waiters at hmem
        rwa [h.waiting_eq] at hmem
      have hneg : v.request p < 0 := h.orderly.requests_neg a p hq
      have hreq : s.kernel.resWait p = v.request p := congrFun h.request p
      change 0 ≤ -s.kernel.resWait p
      omega
    · exact le_rfl
  · split
    · change 0 ≤ e.asks a s.kernel
      obtain ⟨acts, v', hacts, hsteps, -⟩ := nucleus_simulation (B := fun _ => True).step h hs hstep
      unfold Event.asks
      split
      · next b w hact =>
        rcases Event.acts_split hacts with rfl | ⟨hnone, -⟩
        · rw [hact] at hsteps
          obtain ⟨-, hmove⟩ := steps_single.mp hsteps
          split
          · cases hmove <;> omega
          · exact le_rfl
        · rw [hact] at hnone
          cases hnone
      · exact le_rfl
    · exact le_rfl

end Steps

section Runs

variable {a : ℕ} {n : ℤ} {x : Sys × Holdings}

/-- The nucleus with the holdings of the semaphore at `a`, which starts with `n` units. -/
def holders (a : ℕ) (n : ℤ) : System (Sys × Holdings) Event :=
  (nucleus fun k => k.ints a = n).ghost (fun _ => ⟨fun _ => 0, 0⟩) (noteUnits a)

theorem boot_avail {k : Kernel} (ha : isDeviceSem a = false) :
    (View.boot (bootInts k.ints) k.resWait).avail a = k.ints a := by
  rw [← bootInts_user k.ints ha]
  exact add_zero _

theorem holders_rep (h : Reach (holders a n) (fun x e => KeepsUnits x.1 e) x) :
    ∃ v, Rep x.1.kernel.core v :=
  nucleus_rep (h.of_ghost.mono fun _ _ hk => hk.ready)

/-- No step makes or loses a unit. -/
theorem holders_sum (ha : isDeviceSem a = false)
    (h : Reach (holders a n) (fun x e => KeepsUnits x.1 e) x) :
    x.1.kernel.avail a + ∑ p, x.2.held p + x.2.lost = n := by
  induction h with
  | @init x hinit =>
      obtain ⟨⟨k, hn, hk, hboot⟩, hghost⟩ := hinit
      have hrep : Rep x.1.kernel.core (View.boot (bootInts k.ints) k.resWait) :=
        (main_run hk hboot).2.1
      rw [hghost, hrep.toWellFormed.avail_eq, boot_avail ha, hn]
      simp
  | @step x y e h hk hs ih =>
      obtain ⟨hstep, hghost⟩ := hs
      obtain ⟨v, hrep⟩ := holders_rep h
      rw [hghost, noteUnits_sum hrep ha hk hstep]
      exact ih

/-- The free units are never negative. -/
theorem holders_avail (ha : isDeviceSem a = false) (hn : 0 ≤ n)
    (h : Reach (holders a n) (fun x e => KeepsUnits x.1 e) x) : 0 ≤ x.1.kernel.avail a := by
  obtain ⟨v, hrep, havail⟩ := nucleus_view_of (I := fun v => 0 ≤ v.avail a) (fun _ _ hk => hk.ready)
    (fun _ _ _ _ hrep hk hact => hk.computes hrep hact) (fun _ _ hact => hact.computes)
    (fun k hk => by rw [boot_avail ha, hk]; exact hn)
    (fun _ _ _ havail hcomp hm => hm.avail_nonneg ha hcomp havail) h.of_ghost
  rw [hrep.toWellFormed.avail_eq]
  exact havail

/-- The dead hold nothing. -/
theorem holders_dead (h : Reach (holders a n) (fun x e => KeepsUnits x.1 e) x) :
    ∀ p ∈ freeList x.1.kernel, x.2.held p = 0 := by
  cases h with
  | init hinit =>
      intro p _
      rw [hinit.2]
  | step h hk hs =>
      intro p hp
      rw [hs.2]
      exact if_pos hp

/-- Whatever the processes do, the free units, those that live processes hold and those lost with
their holders are those of the beginning; units are never granted that are not there. -/
theorem units_accounted (ha : isDeviceSem a = false)
    (h : Reach (holders a n) (fun x e => KeepsUnits x.1 e) x) :
    x.1.kernel.avail a + ∑ p, x.2.held p + x.2.lost = n ∧
      (∀ p ∈ freeList x.1.kernel, x.2.held p = 0) ∧ (0 ≤ n → 0 ≤ x.1.kernel.avail a) :=
  ⟨holders_sum ha h, holders_dead h, fun hn => holders_avail ha hn h⟩

/-- Nobody holds less than nothing if nobody returns more than it holds. -/
theorem held_nonneg (h : Reach (holders a n) (fun x e => KeepsUnits x.1 e ∧ Returns a x e) x) :
    (∀ p, 0 ≤ x.2.held p) ∧ 0 ≤ x.2.lost := by
  induction h with
  | @init x hinit =>
      obtain ⟨-, hghost⟩ := hinit
      rw [hghost]
      exact ⟨fun p => le_rfl, le_rfl⟩
  | @step x y e h hc hs ih =>
      obtain ⟨hstep, hghost⟩ := hs
      obtain ⟨hheld, hlost⟩ := ih
      obtain ⟨v, hrep⟩ := holders_rep (h.mono fun _ _ hc => hc.1)
      have hbalance : ∀ p, 0 ≤ x.2.balance a (x.1, e, y.1) p := by
        intro p
        have hgrant := granted_nonneg (p := p) (a := a) hrep hc.1.ready hstep
        have hown := hheld p
        unfold Holdings.balance returned
        split
        · next hcur =>
          have hreturn : supplied a (x.1, e, y.1) ≤ x.2.held p := hc.2 p hcur
          omega
        · omega
      rw [hghost]
      refine ⟨fun p => ?_, add_nonneg hlost (Finset.sum_nonneg fun p _ => ?_)⟩
      · change 0 ≤ if p ∈ freeList y.1.kernel then 0 else _
        split
        · exact le_rfl
        · exact hbalance p
      · split
        · exact hbalance p
        · exact le_rfl

/-- If nobody returns more than it holds, all together never hold more units than there were, and of
a single unit there is one holder at most. -/
theorem mutual_exclusion (ha : isDeviceSem a = false) (hn : 0 ≤ n)
    (h : Reach (holders a n) (fun x e => KeepsUnits x.1 e ∧ Returns a x e) x) :
    (∀ p, 0 ≤ x.2.held p) ∧ ∑ p, x.2.held p ≤ n ∧
      (n = 1 → ∀ p q, 0 < x.2.held p → 0 < x.2.held q → p = q) := by
  have hkeeps : Reach (holders a n) (fun x e => KeepsUnits x.1 e) x := h.mono fun _ _ hc => hc.1
  have hall := holders_sum ha hkeeps
  have havail := holders_avail ha hn hkeeps
  obtain ⟨hheld, hlost⟩ := held_nonneg h
  have hsum : ∑ p, x.2.held p ≤ n := by omega
  refine ⟨hheld, hsum, fun hone p q hp hq => ?_⟩
  by_contra hpq
  have htwo : x.2.held p + x.2.held q ≤ ∑ p, x.2.held p := by
    rw [← Finset.sum_pair hpq]
    exact Finset.sum_le_univ_sum_of_nonneg hheld
  omega

end Runs

end Units

section Board

attribute [local instance] uarm

def oneUnit : Kernel := { Kernel.zero with ints := Function.update (fun _ => 0) 0x5000 1 }

/-- One process holds the unit when another one asks for it; it returns the unit, and the other one
has it. -/
theorem holder_run : ∃ x : Sys × Holdings,
    Reach (holders 0x5000 1) (fun x e => KeepsUnits x.1 e ∧ Returns 0x5000 x e) x ∧
    x.2.held 1 = 1 := by
  obtain ⟨x, hx, hQ⟩ := ghost_run (fun _ => ⟨fun _ => 0, 0⟩) (noteUnits 0x5000)
    (B := fun k => k.ints 0x5000 = 1) (D := fun x e => Mild x.1 e ∧ Returns 0x5000 x e)
    (k := oneUnit) rfl ⟨rfl, fun _ => rfl⟩
    [.dispatch, call 1, .dispatch, call 3 0x5000 (-1), .dispatch, completion intTimer 0, .dispatch,
      call 3 0x5000 (-1), .dispatch, call 3 0x5000 1]
    (fun x => x.2.held 1 = 1) (by decide +kernel)
  exact ⟨x, hx.mono fun _ _ hc => ⟨hc.1.keepsWaiters.units, hc.2⟩, of_decide_eq_true hQ⟩

theorem units_accounted_two : ∃ x : Sys × Holdings, x.2.held 1 = 1 ∧
    x.1.kernel.avail 0x5000 + ∑ p, x.2.held p + x.2.lost = 1 := by
  obtain ⟨x, hx, hone⟩ := holder_run
  exact ⟨x, hone, (units_accounted (by decide) (hx.mono fun _ _ hc => hc.1)).1⟩

theorem mutual_exclusion_two : ∃ x : Sys × Holdings, x.2.held 1 = 1 ∧ ∀ q, 0 < x.2.held q →
    q = 1 := by
  obtain ⟨x, hx, hone⟩ := holder_run
  exact ⟨x, hone, fun q hq => (mutual_exclusion (by decide) (by decide) hx).2.2 rfl q 1 hq
    (by omega)⟩

end Board

end JaeOS
