import JaeOS.Orderly
import JaeOS.Termination

/-!
# The units of a semaphore

The integer of a semaphore is not the number of its free units: `P` takes the units of a process
that blocks at once. `avail` adds the pending requests again. `P` that passes takes its units from
it, `P` that blocks leaves it, `V` changes it by its weight and the requests it grants, and a
process that is killed gives its request back. Arithmetic is exact in the ranges that the lemmas
name.
-/

namespace JaeOS

def demand (request : Pcb → ℤ) (l : List Pcb) : ℤ := (l.map fun p => -request p).sum

namespace View

def avail (v : View) (a : ℕ) : ℤ := v.value a + demand v.request (v.queue a)

end View

section Demand

variable {r r' : Pcb → ℤ} {l l' : List Pcb} {p : Pcb}

@[simp] theorem demand_nil : demand r [] = 0 := rfl

@[simp] theorem demand_cons : demand r (p :: l) = -r p + demand r l := by
  simp [demand]

theorem demand_append : demand r (l ++ l') = demand r l + demand r l' := by
  simp [demand]

theorem demand_congr (h : ∀ p ∈ l, r' p = r p) : demand r' l = demand r l := by
  unfold demand
  congr 1
  exact List.map_congr_left fun p hp => by rw [h p hp]

theorem demand_nonneg (h : ∀ p ∈ l, r p < 0) : 0 ≤ demand r l := by
  induction l with
  | nil => exact le_rfl
  | cons p l ih =>
      have hp := h p List.mem_cons_self
      have hl := ih fun q hq => h q (List.mem_cons_of_mem p hq)
      rw [demand_cons]
      omega

/-- One unit each. -/
theorem demand_units (h : ∀ p ∈ l, r p = -1) : demand r l = l.length := by
  induction l with
  | nil => rfl
  | cons p l ih =>
      rw [demand_cons, h p List.mem_cons_self, ih fun q hq => h q (List.mem_cons_of_mem p hq),
        List.length_cons]
      omega

theorem demand_perm (h : l.Perm l') : demand r l = demand r l' := (h.map _).sum_eq

end Demand

variable [Platform]

def ExactOn (lo hi : ℤ) : Prop := ∀ x, lo ≤ x → x ≤ hi → Platform.wrap x = x

/-- 32-bit values are computed exactly. -/
theorem exactOn_of_range {lo hi : ℤ} (hlo : -2 ^ 31 ≤ lo) (hhi : hi < 2 ^ 31) : ExactOn lo hi :=
  fun x h₁ h₂ => Platform.wrap_eq x (by omega) (by omega)

theorem ExactOn.mono {lo hi lo' hi' : ℤ} (h : ExactOn lo hi) (hlo : lo ≤ lo') (hhi : hi' ≤ hi) :
    ExactOn lo' hi' := fun x h₁ h₂ => h x (hlo.trans h₁) (h₂.trans hhi)

section Sums

variable {r : Pcb → ℤ} {l : List Pcb} {s : ℤ}

theorem sumFrom_eq (hneg : ∀ p ∈ l, r p < 0) (hexact : ExactOn s (s + demand r l)) :
    l.foldl (fun s p => Platform.wrap (s - r p)) s = s + demand r l := by
  induction l generalizing s with
  | nil => simp
  | cons p l ih =>
      have hp := hneg p List.mem_cons_self
      have hl := demand_nonneg fun q hq => hneg q (List.mem_cons_of_mem p hq)
      rw [demand_cons] at hexact ⊢
      have hstep : Platform.wrap (s - r p) = s - r p := hexact _ (by omega) (by omega)
      rw [List.foldl_cons, hstep, ih (fun q hq => hneg q (List.mem_cons_of_mem p hq))
        (hexact.mono (by omega) (by omega))]
      omega

/-- The code's sum over a queue is the demand. -/
theorem sumOf_eq (hneg : ∀ p ∈ l, r p < 0) (hexact : ExactOn 0 (demand r l)) :
    sumOf r l = demand r l := by
  have hsum := sumFrom_eq (s := 0) hneg (by rwa [zero_add])
  rwa [zero_add] at hsum

/-- The loop of `V` stops where the units at hand run out: the first process that is not woken asks
for more than what is left. -/
theorem wakeups_stop (hneg : ∀ p ∈ l, r p < 0) (hs : 0 ≤ s) (hexact : ExactOn (-s) s) :
    ∃ rest, l = wakeups r s l ++ rest ∧ 0 ≤ s - demand r (wakeups r s l) ∧
      ∀ p l', rest = p :: l' → s - demand r (wakeups r s l) < -r p := by
  induction l generalizing s with
  | nil => exact ⟨[], rfl, by simpa [wakeups] using hs, fun p l' h => nomatch h⟩
  | cons p l ih =>
      have hp := hneg p List.mem_cons_self
      have hminus : Platform.wrap (-s) = -s := hexact _ (by omega) (by omega)
      rw [wakeups, hminus]
      by_cases hwake : r p ≥ -s ∧ s ≠ 0
      · rw [if_pos hwake]
        have hnext : Platform.wrap (s + r p) = s + r p := hexact _ (by omega) (by omega)
        rw [hnext]
        obtain ⟨rest, hl, hpos, hstop⟩ := ih (s := s + r p)
          (fun q hq => hneg q (List.mem_cons_of_mem p hq)) (by omega)
          (hexact.mono (by omega) (by omega))
        refine ⟨rest, congrArg (p :: ·) hl, ?_, fun q l' hq => ?_⟩
        · rw [demand_cons]
          omega
        · have hq := hstop q l' hq
          rw [demand_cons]
          omega
      · rw [if_neg hwake]
        refine ⟨p :: l, rfl, by simpa using hs, fun q l' hq => ?_⟩
        obtain ⟨rfl, -⟩ := List.cons.inj hq
        rw [demand_nil]
        omega

end Sums

variable {v : View} {a b : ℕ} {w : ℤ} {p c : Pcb} {l : List Pcb}

/-! ### `P` and `V` -/

theorem pass_avail (hexact : Platform.wrap (v.value a + w) = v.value a + w) :
    (v.setValue a (v.credit a w)).avail a = v.avail a + w := by
  simp only [View.avail, View.setValue, View.credit, Function.update_self, hexact]
  omega

theorem block_avail (hc : c ∉ v.queue a) (hexact : Platform.wrap (v.value a + w) = v.value a + w) :
    ((v.setValue a (v.credit a w)).block c a w).avail a = v.avail a := by
  have hsame : demand (Function.update v.request c w) (v.queue a) = demand v.request (v.queue a) :=
    demand_congr fun q hq => Function.update_of_ne (ne_of_mem_of_not_mem hq hc) ..
  simp only [View.avail, View.block, View.setValue, View.credit, Function.update_self, hexact,
    demand_append, hsame, demand_cons, demand_nil]
  omega

theorem verhogen_request (hl : p ∉ v.woken a w) : (v.verhogen a w).request p = v.request p := by
  rw [View.verhogen, wakeAll_request, if_neg hl]
  rfl

theorem verhogen_value : (v.verhogen a w).value a = v.credit a w := by
  rw [View.verhogen, wakeAll_value]
  exact Function.update_self ..

theorem verhogen_value_of_ne (hb : b ≠ a) : (v.verhogen a w).value b = v.value b := by
  rw [View.verhogen, wakeAll_value]
  exact Function.update_of_ne hb ..

theorem verhogen_queue_of_ne (hb : b ≠ a) : (v.verhogen a w).queue b = v.queue b :=
  wakeAll_queue_of_ne hb

theorem verhogen_queue {rest : List Pcb} (hq : v.queue a = v.woken a w ++ rest) :
    (v.verhogen a w).queue a = rest := wakeAll_queue hq

theorem verhogen_avail {rest : List Pcb} (hq : v.queue a = v.woken a w ++ rest)
    (hnd : (v.queue a).Nodup) (hexact : Platform.wrap (v.value a + w) = v.value a + w) :
    (v.verhogen a w).avail a = v.avail a + w - demand v.request (v.woken a w) := by
  rw [hq] at hnd
  have hrest : demand (v.verhogen a w).request rest = demand v.request rest :=
    demand_congr fun q hqr => verhogen_request fun hqw => (List.nodup_append'.mp hnd).2.2 hqw hqr
  rw [View.avail, View.avail, verhogen_value, verhogen_queue hq, hrest, View.credit, hexact]
  have hall : demand v.request (v.queue a) =
      demand v.request (v.woken a w) + demand v.request rest := by
    conv_lhs => rw [hq]
    exact demand_append
  omega

/-- With nothing lost to overflow `V` has all free units at hand. -/
theorem supply_eq (hneg : ∀ p ∈ v.queue a, v.request p < 0)
    (hvalue : Platform.wrap (v.value a + w) = v.value a + w)
    (hdemand : ExactOn 0 (demand v.request (v.queue a)))
    (hsum : Platform.wrap (v.avail a + w) = v.avail a + w) : v.supply a w = v.avail a + w := by
  have hcomm : demand v.request (v.queue a) + (v.value a + w) = v.avail a + w := by
    rw [View.avail]
    omega
  rw [View.supply, sumOf_eq hneg hdemand, View.credit, hvalue, hcomm, hsum]

theorem verhogen_ready : (v.verhogen a w).ready = v.ready ++ v.woken a w := wakeAll_ready

structure ExactV (v : View) (a : ℕ) (w : ℤ) : Prop where
  value : Platform.wrap (v.value a + w) = v.value a + w
  demand : ExactOn 0 (demand v.request (v.queue a))
  supply : ExactOn (-(v.avail a + w)) (v.avail a + w)

/-- `V` grants requests until the first one that the free units do not cover. -/
theorem verhogen_stop (hneg : ∀ p ∈ v.queue a, v.request p < 0) (hnd : (v.queue a).Nodup)
    (h0 : 0 ≤ v.avail a) (hw : 0 < w) (hexact : ExactV v a w) :
    0 ≤ (v.verhogen a w).avail a ∧ ∀ p l, (v.verhogen a w).queue a = p :: l →
      (v.verhogen a w).avail a < -(v.verhogen a w).request p := by
  have hsum := hexact.supply (v.avail a + w) (by omega) le_rfl
  have hsupply := supply_eq hneg hexact.value hexact.demand hsum
  obtain ⟨rest, hrest, hpos, hstop⟩ := wakeups_stop hneg (show 0 ≤ v.avail a + w by omega)
    hexact.supply
  have hwoken : wakeups v.request (v.avail a + w) (v.queue a) = v.woken a w := by
    rw [View.woken, hsupply]
  rw [hwoken] at hrest hpos hstop
  rw [verhogen_avail hrest hnd hexact.value, verhogen_queue hrest]
  refine ⟨hpos, fun p l hp => ?_⟩
  rw [hrest] at hnd
  have hpw : p ∉ v.woken a w := fun hm =>
    (List.nodup_append'.mp hnd).2.2 hm (hp ▸ List.mem_cons_self)
  rw [verhogen_request hpw]
  exact hstop p l hp

/-! ### Killed processes -/

structure View.Queues (v : View) : Prop where
  mem : ∀ p a, p ∈ v.queue a ↔ v.place p = .blocked a
  nodup : ∀ a, (v.queue a).Nodup

theorem kill_queue (h : v.Queues) (p : Pcb) (b : ℕ) : (v.kill p).queue b = (v.queue b).erase p := by
  unfold View.kill View.leave
  cases hp : v.place p with
  | blocked a =>
      have hrefund : (v.refund p a).queue = v.queue := by
        unfold View.refund
        split <;> rfl
      simp only [View.bury, View.toFree, View.unblock, hrefund, Function.update_apply]
      split
      · next hb => rw [hb]
      · next hb =>
        refine (List.erase_of_not_mem fun hm => hb ?_).symm
        rw [h.mem, hp] at hm
        exact (Place.blocked.inj hm).symm
  | _ =>
      refine (List.erase_of_not_mem fun hm => ?_).symm
      have hplace := (h.mem p b).mp hm
      rw [hp] at hplace
      cases hplace

theorem kill_request : (v.kill p).request = v.request := by
  unfold View.kill View.leave
  cases v.place p with
  | blocked a =>
      simp only [View.bury, View.toFree, View.unblock, View.refund]
      split <;> rfl
  | _ => rfl

theorem View.Queues.kill (h : v.Queues) (p : Pcb) : (v.kill p).Queues where
  mem q b := by
    rw [kill_queue h, (h.nodup b).mem_erase_iff, h.mem, kill_place]
    split
    · next hq => simp [hq]
    · next hq => simp [hq]
  nodup b := by
    rw [kill_queue h]
    exact (h.nodup b).erase p

/-- What a killed process gives back. -/
theorem kill_value (h : v.Queues) (hb : isDeviceSem b = false) :
    (v.kill p).value b = if p ∈ v.queue b then Platform.wrap (v.value b - v.request p)
      else v.value b := by
  have hmem := h.mem p b
  unfold View.kill View.leave
  cases hp : v.place p with
  | blocked a =>
      rw [hp, Place.blocked.injEq] at hmem
      simp only [View.bury, View.toFree, View.unblock, View.refund, hmem]
      by_cases hab : a = b
      · subst hab
        simp [hb, View.setValue]
      · rw [if_neg hab]
        split
        · rfl
        · exact Function.update_of_ne (Ne.symm hab) ..
  | _ =>
      have hout : p ∉ v.queue b := fun hm => by
        have hplace := hmem.mp hm
        rw [hp] at hplace
        cases hplace
      rw [if_neg hout]
      rfl

/-- The value of a device semaphore is left as it is. -/
theorem kill_value_device (hb : isDeviceSem b = true) : (v.kill p).value b = v.value b := by
  unfold View.kill View.leave
  cases hp : v.place p with
  | blocked a =>
      simp only [View.bury, View.toFree, View.unblock, View.refund]
      split
      · rfl
      · next ha =>
        have hab : b ≠ a := fun he => ha (he ▸ hb)
        exact Function.update_of_ne hab ..
  | _ => rfl

theorem killAll_request : (v.killAll l).request = v.request := by
  induction l generalizing v with
  | nil => rfl
  | cons p l ih => rw [killAll_cons, ih, kill_request]

theorem killAll_value_device (hb : isDeviceSem b = true) : (v.killAll l).value b = v.value b := by
  induction l generalizing v with
  | nil => rfl
  | cons p l ih => rw [killAll_cons, ih, kill_value_device hb]

/-- The survivors keep their order. -/
theorem killAll_queue (h : v.Queues) : (v.killAll l).queue b = (v.queue b).filter (· ∉ l) := by
  induction l generalizing v with
  | nil => simp
  | cons p l ih =>
      rw [killAll_cons, ih (h.kill p), kill_queue h, (h.nodup b).erase_eq_filter,
        List.filter_filter]
      refine List.filter_congr fun q _ => ?_
      by_cases hq : q = p
      · simp [hq]
      · simp [hq]

def View.refunds (v : View) (l : List Pcb) (b : ℕ) : ℤ :=
  demand v.request ((v.queue b).filter (· ∈ l))

omit [Platform] in
theorem refunds_nonneg (hneg : ∀ p ∈ v.queue b, v.request p < 0) : 0 ≤ v.refunds l b :=
  demand_nonneg fun p hp => hneg p (List.mem_of_mem_filter hp)

omit [Platform] in
/-- The demand of a queue is that of the killed and that of the others. -/
theorem demand_split (v : View) (l : List Pcb) (b : ℕ) :
    demand v.request (v.queue b) = v.refunds l b + demand v.request
      ((v.queue b).filter (· ∉ l)) := by
  have hperm := List.filter_append_perm (fun q => decide (q ∈ l)) (v.queue b)
  rw [← demand_perm hperm, demand_append, View.refunds]
  congr 3
  funext q
  simp

theorem kill_refunds (h : v.Queues) :
    v.refunds (p :: l) b = (if p ∈ v.queue b then -v.request p else 0) +
    (v.kill p).refunds l b := by
  have hnd := h.nodup b
  unfold View.refunds
  rw [kill_request, kill_queue h]
  by_cases hp : p ∈ v.queue b
  · rw [if_pos hp, ← demand_cons]
    refine demand_perm ?_
    have hperm := (List.perm_cons_erase hp).filter fun q => decide (q ∈ p :: l)
    refine hperm.trans ?_
    rw [List.filter_cons_of_pos (by simp)]
    refine List.Perm.cons p (List.Perm.of_eq (List.filter_congr fun q hq => ?_))
    have hqp : q ≠ p := ((hnd.mem_erase_iff).mp hq).1
    simp [hqp]
  · rw [if_neg hp, zero_add, List.erase_of_not_mem hp]
    congr 1
    refine List.filter_congr fun q hq => ?_
    have hqp : q ≠ p := ne_of_mem_of_not_mem hq hp
    simp [hqp]

theorem killAll_value (h : v.Queues) (hb : isDeviceSem b = false)
    (hneg : ∀ p ∈ v.queue b, v.request p < 0)
    (hexact : ExactOn (v.value b) (v.value b + v.refunds l b)) :
    (v.killAll l).value b = v.value b + v.refunds l b := by
  induction l generalizing v with
  | nil => simp [View.refunds]
  | cons p l ih =>
      have hneg' : ∀ q ∈ (v.kill p).queue b, (v.kill p).request q < 0 := by
        intro q hq
        rw [kill_queue h] at hq
        rw [kill_request]
        exact hneg q (List.mem_of_mem_erase hq)
      have hpos := refunds_nonneg (l := l) hneg'
      rw [kill_refunds h] at hexact ⊢
      have hvalue := kill_value (p := p) h hb
      by_cases hp : p ∈ v.queue b
      · have hpneg := hneg p hp
        rw [if_pos hp] at hexact hvalue ⊢
        have hstep : Platform.wrap (v.value b - v.request p) = v.value b - v.request p :=
          hexact _ (by omega) (by omega)
        rw [hstep] at hvalue
        rw [killAll_cons, ih (h.kill p) hneg' (hexact.mono (by omega) (by omega)), hvalue]
        omega
      · rw [if_neg hp] at hexact hvalue ⊢
        rw [killAll_cons, ih (h.kill p) hneg' (hexact.mono (by omega) (by omega)), hvalue]
        omega

/-- Killed processes give back what they have asked for. -/
theorem killAll_avail (h : v.Queues) (hb : isDeviceSem b = false)
    (hneg : ∀ p ∈ v.queue b, v.request p < 0)
    (hexact : ExactOn (v.value b) (v.value b + v.refunds l b)) :
    (v.killAll l).avail b = v.avail b := by
  rw [View.avail, View.avail, killAll_value h hb hneg hexact, killAll_request, killAll_queue h,
    demand_split v l b]
  omega

omit [Platform] in
theorem Orderly.queues (h : Orderly v) : v.Queues := ⟨h.mem_queue, h.queue_nodup⟩

omit [Platform] in
theorem Orderly.requests_neg (h : Orderly v) (b : ℕ) : ∀ p ∈ v.queue b, v.request p < 0 :=
  fun p hp => h.request_neg p b ((h.mem_queue p b).mp hp)

/-! ### Moves elsewhere -/

def Act.target : Act → Option ℕ
  | .passeren a _ => some a
  | .verhogen a _ => some a
  | .signal a => some a
  | _ => none

structure SameSemaphore (v u : View) (a : ℕ) : Prop where
  value : u.value a = v.value a
  queue : u.queue a = v.queue a
  request : ∀ p ∈ v.queue a, u.request p = v.request p

omit [Platform] in
theorem SameSemaphore.refl (v : View) (a : ℕ) : SameSemaphore v v a := ⟨rfl, rfl, fun _ _ => rfl⟩

omit [Platform] in
theorem SameSemaphore.avail_eq {u : View} (h : SameSemaphore v u a) : u.avail a = v.avail a := by
  rw [View.avail, View.avail, h.value, h.queue, demand_congr h.request]

/-- Other semaphores are not touched. -/
theorem verhogen_same (hv : Orderly v) (hb : b ≠ a) : SameSemaphore v (v.verhogen a w) b where
  value := verhogen_value_of_ne hb
  queue := verhogen_queue_of_ne hb
  request p hp := by
    apply verhogen_request
    intro hm
    have hplace := hv.woken_blocked hm
    rw [(hv.mem_queue p b).mp hp] at hplace
    exact hb (Place.blocked.inj hplace)

omit [Platform] in
theorem block_same (hv : Orderly v) (hc : v.place c = .off) (hb : b ≠ a) (i : ℤ) :
    SameSemaphore v ((v.setValue a i).block c a w) b where
  value := Function.update_of_ne hb ..
  queue := Function.update_of_ne hb ..
  request p hp := by
    have hcq : c ∉ v.queue b := by simp [hv.mem_queue, hc]
    exact Function.update_of_ne (ne_of_mem_of_not_mem hp hcq) ..

/-- A move leaves a semaphore alone if it operates on another and kills nobody. -/
theorem semaphore_frame {v' : View} {act : Act} (h : OrderlyMove act v v')
    (htarget : act.target ≠ some b) (hkill : ∀ t, act ≠ .terminate t) : SameSemaphore v v' b := by
  obtain ⟨hv, hm⟩ := h
  have hne : ∀ a, act.target = some a → b ≠ a := by
    rintro a ha rfl
    exact htarget ha
  cases hm with
  | full => exact .refl v b
  | @create _ _ p _ _ hf =>
      have hpf : v.place p = .free := (hv.mem_free p).mp (by simp [hf])
      refine ⟨rfl, rfl, fun q hq => Function.update_of_ne ?_ ..⟩
      rintro rfl
      rw [(hv.mem_queue q b).mp hq] at hpf
      cases hpf
  | terminate => exact absurd rfl (hkill _)
  | pass => exact ⟨Function.update_of_ne (hne _ rfl) .., rfl, fun _ _ => rfl⟩
  | block _ _ _ hc => exact block_same hv hc (hne _ rfl) _
  | verhogen => exact verhogen_same hv (hne _ rfl)
  | noSignal => exact .refl v b
  | signal => exact verhogen_same hv (hne _ rfl)
  | requeue => exact ⟨rfl, rfl, fun _ _ => rfl⟩
  | load => exact ⟨rfl, rfl, fun _ _ => rfl⟩

end JaeOS
