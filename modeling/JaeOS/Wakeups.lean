import JaeOS.Conservation

/-!
# No process waits for units that are free

The first waiter of a semaphore outside `device_sem` asks for more than the free units. `P` and `V`
keep it so, since `V` wakes processes as long as the units last. Termination does not run that loop:
when it kills the first waiter, the next one may find enough units and stays blocked.
-/

open LinkRing LinkForest Transition

namespace JaeOS

def FitsInt (x : ℤ) : Prop := -2 ^ 31 ≤ x ∧ x < 2 ^ 31

instance {x : ℤ} : Decidable (FitsInt x) := inferInstanceAs (Decidable (_ ∧ _))

/-- No waiter of `a` can be served, and no unit has been granted that was not there. -/
structure Settled (v : View) (a : ℕ) : Prop where
  avail_nonneg : 0 ≤ v.avail a
  starved : ∀ p l, v.queue a = p :: l → v.avail a < -v.request p

section Views

variable [Platform] {v v' u : View} {a b : ℕ} {w : ℤ} {c p : Pcb} {l : List Pcb} {act : Act}

omit [Platform] in
theorem Settled.congr (h : Settled v b) (hs : SameSemaphore v u b) : Settled u b := by
  have havail := hs.avail_eq
  refine ⟨havail ▸ h.avail_nonneg, fun p l hp => ?_⟩
  rw [hs.queue] at hp
  rw [havail, hs.request p (hp ▸ List.mem_cons_self)]
  exact h.starved p l hp

omit [Platform] in
/-- Nobody waits, and nothing is owed. -/
theorem settled_of_empty (hq : v.queue a = []) (h0 : 0 ≤ v.value a) : Settled v a where
  avail_nonneg := by
    rw [View.avail, hq]
    simpa using h0
  starved p l hp := by
    rw [hq] at hp
    cases hp

/-- A `P` that goes on takes units that are there. -/
theorem pass_nonneg (hi : 0 ≤ v.credit a w) (hv : Orderly v)
    (hexact : Platform.wrap (v.value a + w) = v.value a + w) :
    0 ≤ (v.setValue a (v.credit a w)).avail a := by
  have hdemand := demand_nonneg (hv.requests_neg a)
  have hcredit : v.credit a w = v.value a + w := hexact
  rw [pass_avail hexact, View.avail]
  omega

theorem Settled.pass (h : Settled v a) (hw : w < 0) (hi : 0 ≤ v.credit a w) (hv : Orderly v)
    (hexact : Platform.wrap (v.value a + w) = v.value a + w) :
    Settled (v.setValue a (v.credit a w)) a := by
  refine ⟨pass_nonneg hi hv hexact, fun p l hp => ?_⟩
  have hlt : v.avail a < -v.request p := h.starved p l hp
  rw [pass_avail hexact]
  change v.avail a + w < -v.request p
  omega

/-- The caller that blocks asks for more than the free units if it is the first to wait. -/
theorem Settled.block (h : Settled v a) (hi : v.credit a w < 0) (hc : v.place c = .off)
    (hv : Orderly v) (hexact : Platform.wrap (v.value a + w) = v.value a + w) :
    Settled ((v.setValue a (v.credit a w)).block c a w) a := by
  have hcq : c ∉ v.queue a := by simp [hv.mem_queue, hc]
  have havail := block_avail hcq hexact
  have hcredit : v.credit a w = v.value a + w := hexact
  refine ⟨havail ▸ h.avail_nonneg, fun p l hp => ?_⟩
  have hqueue : ((v.setValue a (v.credit a w)).block c a w).queue a = v.queue a ++ [c] :=
    Function.update_self ..
  rw [hqueue] at hp
  rw [havail]
  cases hq : v.queue a with
  | nil =>
      rw [hq, List.nil_append] at hp
      obtain ⟨rfl, -⟩ := List.cons.inj hp
      have hreq : ((v.setValue a (v.credit a w)).block c a w).request c = w :=
        Function.update_self ..
      rw [hreq, View.avail, hq, demand_nil]
      omega
  | cons q r =>
      rw [hq, List.cons_append] at hp
      obtain ⟨rfl, -⟩ := List.cons.inj hp
      have hqc : q ≠ c := ne_of_mem_of_not_mem (hq ▸ List.mem_cons_self) hcq
      have hreq : ((v.setValue a (v.credit a w)).block c a w).request q = v.request q :=
        Function.update_of_ne hqc ..
      rw [hreq]
      exact h.starved q r hq

/-- The killed processes leave no one at the head of a queue who could be served. -/
def HeadSafe (v : View) (l : List Pcb) (a : ℕ) : Prop :=
  ∀ h ∈ (v.queue a).head?, h ∈ l → ∀ q ∈ ((v.queue a).filter (· ∉ l)).head?,
    v.avail a < -v.request q

theorem Settled.killAll (h : Settled v b) (hb : isDeviceSem b = false) (hv : Orderly v)
    (hexact : ExactOn (v.value b) (v.value b + v.refunds l b)) (hsafe : HeadSafe v l b) :
    Settled (v.killAll l) b := by
  have havail := killAll_avail hv.queues hb (hv.requests_neg b) hexact
  refine ⟨havail ▸ h.avail_nonneg, fun p r hp => ?_⟩
  rw [killAll_queue hv.queues] at hp
  rw [havail, killAll_request]
  cases hq : v.queue b with
  | nil =>
      rw [hq] at hp
      cases hp
  | cons q t =>
      by_cases hql : q ∈ l
      · refine hsafe q (by simp [hq]) hql p ?_
        rw [hp]
        rfl
      · rw [hq, List.filter_cons_of_pos (by simpa using hql)] at hp
        obtain ⟨rfl, -⟩ := List.cons.inj hp
        exact h.starved q t hq

def Computes (act : Act) (v : View) : Prop :=
  match act with
  | .passeren a w => isDeviceSem a = false → Platform.wrap (v.value a + w) = v.value a + w
  | .verhogen a w => isDeviceSem a = false → ExactV v a w
  | .terminate t => ∀ ks, Forest.Has t ks v.tree → ∀ a, isDeviceSem a = false →
      ExactOn (v.value a) (v.value a + v.refunds (ks.postorder ++ [t]) a)
  | .signal a => isDeviceSem a = true
  | _ => True

/-- Units are never granted that are not there, whoever is killed. -/
theorem OrderlyMove.avail_nonneg (hm : OrderlyMove act v v') (ha : isDeviceSem a = false)
    (hcomp : Computes act v) (h : 0 ≤ v.avail a) : 0 ≤ v'.avail a := by
  have hother (htarget : act.target ≠ some a) (hkill : ∀ t, act ≠ .terminate t) :
      0 ≤ v'.avail a := by
    rw [(semaphore_frame hm htarget hkill).avail_eq]
    exact h
  obtain ⟨hv, hmove⟩ := hm
  cases hmove with
  | @terminate _ t ks hks =>
      have havail : (v.terminate t ks).avail a = v.avail a :=
        killAll_avail hv.queues ha (hv.requests_neg a) (hcomp ks hks a ha)
      rw [havail]
      exact h
  | @pass _ b w hw hi =>
      by_cases hb : b = a
      · subst hb
        exact pass_nonneg hi hv (hcomp ha)
      · exact hother (fun he => hb (Option.some.inj he)) nofun
  | @block _ b w c hw hi hb hc =>
      by_cases hb : b = a
      · subst hb
        have hcq : c ∉ v.queue b := by simp [hv.mem_queue, hc]
        rw [block_avail hcq (hcomp ha)]
        exact h
      · exact hother (fun he => hb (Option.some.inj he)) nofun
  | @verhogen _ b w hw =>
      by_cases hb : b = a
      · subst hb
        exact (verhogen_stop (hv.requests_neg b) (hv.queue_nodup b) h hw (hcomp ha)).1
      · exact hother (fun he => hb (Option.some.inj he)) nofun
  | @signal _ b hi hq =>
      refine hother (fun he => ?_) nofun
      obtain rfl := Option.some.inj he
      rw [show isDeviceSem b = true from hcomp] at ha
      cases ha
  | full => exact hother nofun nofun
  | create => exact hother nofun nofun
  | noSignal => exact h
  | requeue => exact hother nofun nofun
  | load => exact hother nofun nofun

/-- What a move must not do: compute with numbers that do not fit, or kill a first waiter whose
successor could be served. -/
def Careful (act : Act) (v : View) : Prop :=
  match act with
  | .passeren a w => isDeviceSem a = false → Platform.wrap (v.value a + w) = v.value a + w
  | .verhogen a w => isDeviceSem a = false → ExactV v a w
  | .terminate t => ∀ ks, Forest.Has t ks v.tree → ∀ a, isDeviceSem a = false →
      ExactOn (v.value a) (v.value a + v.refunds (ks.postorder ++ [t]) a) ∧
        HeadSafe v (ks.postorder ++ [t]) a
  | .signal a => isDeviceSem a = true
  | _ => True

theorem settled_move (h : ∀ a, isDeviceSem a = false → Settled v a) (hcare : Careful act v)
    (hm : OrderlyMove act v v') : ∀ a, isDeviceSem a = false → Settled v' a := by
  intro b hb
  have hset := h b hb
  have hother (htarget : act.target ≠ some b) (hkill : ∀ t, act ≠ .terminate t) : Settled v' b :=
    hset.congr (semaphore_frame hm htarget hkill)
  obtain ⟨hv, hmove⟩ := hm
  cases hmove with
  | terminate hp =>
      obtain ⟨hexact, hsafe⟩ := hcare _ hp b hb
      obtain ⟨hpos, hstarved⟩ := hset.killAll hb hv hexact hsafe
      exact ⟨hpos, hstarved⟩
  | @pass _ a w hw hi =>
      by_cases hab : a = b
      · subst hab
        exact hset.pass hw hi hv (hcare hb)
      · exact hother (fun he => hab (Option.some.inj he)) nofun
  | @block _ a w c hw hi ha hc =>
      by_cases hab : a = b
      · subst hab
        exact hset.block hi hc hv (hcare hb)
      · exact hother (fun he => hab (Option.some.inj he)) nofun
  | @verhogen _ a w hw =>
      by_cases hab : a = b
      · subst hab
        obtain ⟨hpos, hstarved⟩ := verhogen_stop (hv.requests_neg a) (hv.queue_nodup a)
          hset.avail_nonneg hw (hcare hb)
        exact ⟨hpos, hstarved⟩
      · exact hother (fun he => hab (Option.some.inj he)) nofun
  | @signal _ a hi hq =>
      refine hother (fun he => ?_) nofun
      obtain rfl := Option.some.inj he
      rw [show isDeviceSem a = true from hcare] at hb
      cases hb
  | full => exact hother nofun nofun
  | create => exact hother nofun nofun
  | noSignal => exact hset
  | requeue => exact hother nofun nofun
  | load => exact hother nofun nofun

end Views

/-! ### Runs -/

section Runs

variable [Platform] {s : Sys} {e : Event} {v : View} {a : ℕ} {p t : Pcb} {l : List Pcb}

/-- The numbers that the entry computes for the semaphores outside `device_sem` are 32-bit
values. -/
def NoOverflow (s : Sys) (e : Event) : Prop :=
  match e.act s.kernel with
  | some (.passeren a w) => isDeviceSem a = false → FitsInt (s.kernel.ints a + w)
  | some (.verhogen a w) => isDeviceSem a = false →
      FitsInt (s.kernel.ints a + w) ∧ FitsInt (s.kernel.avail a + w) ∧
        FitsInt (demand s.kernel.resWait (waiting s.kernel.toLinks a))
  | some (.terminate t) => ∀ a, isDeviceSem a = false →
      FitsInt (s.kernel.ints a) ∧ FitsInt (s.kernel.ints a +
        demand s.kernel.resWait ((waiting s.kernel.toLinks a).filter (· ∈ killed s.kernel t)))
  | _ => True

/-- If the entry kills the first waiter of a semaphore outside `device_sem`, the first one that
survives asks for more than the free units. -/
def SparesHeads (s : Sys) (e : Event) : Prop :=
  ∀ t ∈ e.victim s.kernel, ∀ a, isDeviceSem a = false →
    ∀ h ∈ (waiting s.kernel.toLinks a).head?, h ∈ killed s.kernel t →
      ∀ q ∈ ((waiting s.kernel.toLinks a).filter (· ∉ killed s.kernel t)).head?,
        s.kernel.avail a < -s.kernel.resWait q

structure KeepsUnits (s : Sys) (e : Event) : Prop where
  ready : SparesReady s e
  fits : NoOverflow s e

structure KeepsWaiters (s : Sys) (e : Event) : Prop where
  ready : SparesReady s e
  fits : NoOverflow s e
  heads : SparesHeads s e

/-- The semaphores of the processes start with no less than nothing. -/
def UserUnits (k : Kernel) : Prop := ∀ a, isDeviceSem a = false → 0 ≤ k.ints a

theorem FitsInt.exact {x : ℤ} (h : FitsInt x) : Platform.wrap x = x := Platform.wrap_eq x h.1 h.2

/-- `main` clears `device_sem` only. -/
theorem bootInts_user (ints : ℕ → ℤ) (ha : isDeviceSem a = false) : bootInts ints a = ints a := by
  unfold bootInts
  rw [foldl_update_semAddr, if_neg fun hm => ?_]
  obtain ⟨i, hi, rfl⟩ := List.mem_map.mp hm
  rw [isDeviceSem_semAddr (List.mem_range.mp hi)] at ha
  cases ha

theorem KeepsWaiters.units (hk : KeepsWaiters s e) : KeepsUnits s e := ⟨hk.ready, hk.fits⟩

theorem KeepsUnits.computes {act : Act} (h : Rep s.kernel.core v) (hk : KeepsUnits s e)
    (hact : e.act s.kernel = some act) : Computes act v := by
  have hvalue : s.kernel.ints = v.value := h.value
  have hreq : s.kernel.resWait = v.request := h.request
  have hwait : waiting s.kernel.toLinks = v.queue := h.waiting_eq
  have havail := h.toWellFormed.avail_eq
  have hfits := hk.fits
  rw [NoOverflow, hact] at hfits
  cases act with
  | passeren a w =>
      intro ha
      have hx := (hfits ha).exact
      rwa [hvalue] at hx
  | verhogen a w =>
      intro ha
      obtain ⟨h₁, h₂, h₃⟩ := hfits ha
      rw [hvalue] at h₁
      rw [havail] at h₂
      rw [hreq, hwait] at h₃
      refine ⟨h₁.exact, exactOn_of_range (by omega) h₃.2, ?_⟩
      obtain ⟨hlo, hhi⟩ := h₂
      intro x hx hx'
      exact Platform.wrap_eq x (by omega) (by omega)
  | terminate t =>
      intro ks hks a ha
      obtain ⟨hlo, hhi⟩ := hfits a ha
      have hin : (waiting s.kernel.toLinks a).filter (· ∈ killed s.kernel t) =
          (v.queue a).filter (· ∈ ks.postorder ++ [t]) := by
        rw [hwait]
        exact List.filter_congr fun q _ => by simp only [mem_killed h.toWellFormed hks]
      rw [hin, hvalue, hreq] at hhi
      rw [hvalue] at hlo
      exact exactOn_of_range hlo.1 hhi.2
  | create => trivial
  | signal a => exact absurd hact Event.act_ne_signal
  | requeue => trivial
  | load => trivial

theorem KeepsWaiters.careful {act : Act} (h : Rep s.kernel.core v) (hk : KeepsWaiters s e)
    (hact : e.act s.kernel = some act) : Careful act v := by
  have hcomp := hk.units.computes h hact
  cases act with
  | terminate t =>
      intro ks hks a ha
      have hvictim : e.victim s.kernel = some t := by rw [Event.victim, hact]
      have hheads := hk.heads t hvictim a ha
      have hreq : s.kernel.resWait = v.request := h.request
      have hwait : waiting s.kernel.toLinks = v.queue := h.waiting_eq
      have havail := h.toWellFormed.avail_eq
      have hout : (waiting s.kernel.toLinks a).filter (· ∉ killed s.kernel t) =
          (v.queue a).filter (· ∉ ks.postorder ++ [t]) := by
        rw [hwait]
        exact List.filter_congr fun q _ => by simp only [mem_killed h.toWellFormed hks]
      refine ⟨hcomp ks hks a ha, fun x hx hxk q hq => ?_⟩
      rw [hout, hwait, havail, hreq] at hheads
      exact hheads x hx ((mem_killed h.toWellFormed hks).mpr hxk) q hq
  | passeren a w => exact hcomp
  | verhogen a w => exact hcomp
  | create => trivial
  | signal a => exact hcomp
  | requeue => trivial
  | load => trivial

theorem Act.internal.computes {act : Act} (h : act.internal) : Computes act v := by
  cases act with
  | signal b =>
      obtain ⟨i, hi, rfl⟩ := h
      exact isDeviceSem_semAddr hi
  | verhogen b w =>
      intro hb
      rw [h.1, isDeviceSem_semAddr (by decide)] at hb
      cases hb
  | requeue => trivial
  | load => trivial
  | create => cases h
  | terminate => cases h
  | passeren => cases h

theorem Act.internal.careful {act : Act} (h : act.internal) : Careful act v := by
  cases act with
  | signal b => exact h.computes (v := v)
  | verhogen b w => exact h.computes (v := v)
  | requeue => trivial
  | load => trivial
  | create => cases h
  | terminate => cases h
  | passeren => cases h

/-- If no first waiter dies while its successor could be served, no process waits for units that are
free. -/
theorem no_lost_wakeup (h : Reach (nucleus UserUnits) KeepsWaiters s) (ha : isDeviceSem a = false)
    (hq : waiting s.kernel.toLinks a = p :: l) : s.kernel.avail a < -s.kernel.resWait p := by
  have hinternal : ∀ act v, Act.internal act → Careful act v := fun act v hact => hact.careful
  have hboot : ∀ k, UserUnits k → ∀ a, isDeviceSem a = false →
      Settled (View.boot (bootInts k.ints) k.resWait) a := by
    intro k hk a ha
    refine settled_of_empty rfl ?_
    change 0 ≤ bootInts k.ints a
    rw [bootInts_user k.ints ha]
    exact hk a ha
  obtain ⟨v, hrep, hset⟩ := nucleus_view_of (I := fun v => ∀ a, isDeviceSem a = false → Settled v a)
    (fun _ _ hk => hk.ready) (fun _ _ _ _ hrep hk hact => hk.careful hrep hact) hinternal hboot
    (fun _ _ _ hI hcare hm => settled_move hI hcare hm) h
  have hreq : s.kernel.resWait = v.request := hrep.request
  rw [hrep.waiting_eq] at hq
  rw [hrep.toWellFormed.avail_eq, hreq]
  exact (hset a ha).starved p l hq

end Runs

section Board

attribute [local instance] uarm

def Plain (s : Sys) (e : Event) : Prop :=
  match e.act s.kernel with
  | some (.passeren a w) => FitsInt (s.kernel.ints a + w)
  | some .create => True
  | none => True
  | _ => False

instance {s : Sys} {e : Event} : Decidable (Plain s e) := by
  unfold Plain
  split <;> infer_instance

theorem Plain.keepsWaiters {s : Sys} {e : Event} (h : Plain s e) : KeepsWaiters s e := by
  have hvictim : e.victim s.kernel = none := by
    unfold Plain at h
    unfold Event.victim
    split at h <;> simp_all
  refine ⟨fun t ht => ?_, ?_, fun t ht => ?_⟩
  · rw [hvictim] at ht
    cases ht
  · unfold Plain at h
    unfold NoOverflow
    split at h <;> simp_all
  · rw [hvictim] at ht
    cases ht

/-- The first process waits for a unit that is not there. -/
theorem no_lost_wakeup_first : ∃ s : Sys, waiting s.kernel.toLinks 0x5000 = [0] ∧
    s.kernel.avail 0x5000 < -s.kernel.resWait 0 := by
  obtain ⟨s, hs, hwait⟩ := nucleus_run (B := UserUnits) (C := Plain) (fun _ _ => le_rfl)
    atBoot_zero [.dispatch, call 3 0x5000 (-1)] (fun s => waiting s.kernel.toLinks 0x5000 = [0])
    (by decide +kernel)
  have hq := of_decide_eq_true hwait
  exact ⟨s, hq, no_lost_wakeup (hs.mono fun _ _ hp => hp.keepsWaiters) (by decide) hq⟩

end Board

section Exact

attribute [local instance] exactBoard

/-- Of two units one process wants three and another one. When the first is killed the second could
be served, but it waits on. -/
theorem lost_wakeup :
    ¬ ∀ s, Reach (nucleus UserUnits) (fun _ _ => True) s → ∀ a, isDeviceSem a = false →
      ∀ p l, waiting s.kernel.toLinks a = p :: l → s.kernel.avail a < -s.kernel.resWait p := by
  intro hall
  obtain ⟨s, hs, hQ⟩ := nucleus_run (B := UserUnits) (C := fun _ _ => True) (fun _ _ => le_rfl)
    atBoot_zero [.dispatch, call 3 0x5000 2, .dispatch, call 1, .dispatch, call 1, .dispatch,
      completion intTimer 0, .dispatch, call 3 0x5000 (-3), .dispatch, call 3 0x5000 (-1),
      .dispatch, call 2 611841]
    (fun s => waiting s.kernel.toLinks 0x5000 = [2] ∧
      -s.kernel.resWait 2 ≤ s.kernel.avail 0x5000) (by decide +kernel)
  obtain ⟨hq, hle⟩ := of_decide_eq_true hQ
  exact absurd (hall s hs 0x5000 (by decide) 2 [] hq) (not_lt.mpr hle)

end Exact

end JaeOS
