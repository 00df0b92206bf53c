import JaeOS.Board

/-!
# What the counters count

`process_count` is the number of processes in the tree and `soft_block_count` the number of blocked
ones, whatever they wait for. `deadlock_detection` therefore waits for an interrupt although none
can come when all processes wait on semaphores of their own.
-/

open LinkRing LinkForest Transition

namespace JaeOS

def Place.weight (pl : Place) : ℤ := if pl.isBlocked then 1 else 0

def blockedCount (place : Pcb → Place) : ℤ := ∑ p, (place p).weight

structure Counted (v : View) : Prop where
  alive : v.alive = v.tree.nodes.length
  soft : v.soft = blockedCount v.place

section Moves

variable {v v' : View} {p : Pcb} {a : ℕ} {l : List Pcb}

theorem blockedCount_update (place : Pcb → Place) (p : Pcb) (pl : Place) :
    blockedCount (Function.update place p pl) =
      blockedCount place - (place p).weight + pl.weight := by
  have hcomp : (fun x => (Function.update place p pl x).weight) =
      Function.update (fun x => (place x).weight) p pl.weight :=
    Function.comp_update Place.weight place p pl
  unfold blockedCount
  rw [hcomp, Finset.sum_update_of_mem (Finset.mem_univ p),
    ← Finset.add_sum_erase Finset.univ (fun x => (place x).weight) (Finset.mem_univ p),
    Finset.sdiff_singleton_eq_erase]
  omega

/-- A process that was not blocked and is not blocked now does not count. -/
theorem blockedCount_eq (place place' : Pcb → Place) (p : Pcb) (pl : Place)
    (h : ∀ x, place' x = if x = p then pl else place x) :
    blockedCount place' = blockedCount place - (place p).weight + pl.weight := by
  rw [← blockedCount_update]
  congr 1
  funext x
  rw [h, Function.update_apply]

theorem wake_excess (hp : v.place p = .blocked a) :
    (v.wake p a).soft - blockedCount (v.wake p a).place = v.soft - blockedCount v.place := by
  have hsoft : (v.wake p a).soft = v.soft - 1 := rfl
  rw [hsoft, blockedCount_eq v.place _ p .ready fun _ => wake_place, hp]
  have hb : (Place.blocked a).weight = 1 := rfl
  have hr : Place.ready.weight = 0 := rfl
  omega

theorem wakeAll_excess (hl : l.Nodup) (hb : ∀ x ∈ l, v.place x = .blocked a) :
    (v.wakeAll a l).soft - blockedCount (v.wakeAll a l).place = v.soft - blockedCount v.place := by
  induction l generalizing v with
  | nil => rfl
  | cons p l ih =>
      obtain ⟨hpl, hl⟩ := List.nodup_cons.mp hl
      rw [wakeAll_cons, ih hl fun x hx => ?_, wake_excess (hb p List.mem_cons_self)]
      rw [wake_place, if_neg (ne_of_mem_of_not_mem hx hpl)]
      exact hb x (List.mem_cons_of_mem p hx)

variable [Platform]

theorem kill_alive : (v.kill p).alive = v.alive - 1 := by
  unfold View.kill View.leave
  cases hp : v.place p with
  | blocked a =>
      simp only [View.bury, View.toFree, View.unblock, View.refund]
      split <;> rfl
  | _ => rfl

theorem kill_soft : (v.kill p).soft = v.soft - (v.place p).weight := by
  unfold View.kill View.leave
  cases hp : v.place p with
  | blocked a =>
      simp only [View.bury, View.toFree, View.unblock, View.refund, Place.weight, Place.isBlocked,
        if_true]
      split <;> rfl
  | _ => exact (sub_zero v.soft).symm

theorem kill_excess :
    (v.kill p).soft - blockedCount (v.kill p).place = v.soft - blockedCount v.place := by
  rw [kill_soft, blockedCount_eq v.place _ p .free fun _ => kill_place]
  have hf : Place.free.weight = 0 := rfl
  omega

theorem killAll_alive : (v.killAll l).alive = v.alive - l.length := by
  induction l generalizing v with
  | nil => simp
  | cons p l ih =>
      rw [killAll_cons, ih, kill_alive, List.length_cons]
      push_cast
      omega

theorem killAll_excess :
    (v.killAll l).soft - blockedCount (v.killAll l).place = v.soft - blockedCount v.place := by
  induction l generalizing v with
  | nil => rfl
  | cons p l ih => rw [killAll_cons, ih, kill_excess]

theorem Counted.verhogen {w : ℤ} (h : Counted v) (hv : Orderly v) : Counted (v.verhogen a w) := by
  have halive : (v.verhogen a w).alive = v.alive := wakeAll_alive
  have htree : (v.verhogen a w).tree = v.tree := wakeAll_tree
  refine ⟨by rw [halive, htree, h.alive], ?_⟩
  have hexcess := wakeAll_excess (v := v.setValue a (v.credit a w)) (hv.woken_nodup a w)
    fun _ hx => hv.woken_blocked hx
  have hsoft := h.soft
  simp only [View.verhogen, View.setValue] at hexcess ⊢
  omega

/-- Every move keeps the counters. -/
theorem Counted.move {act : Act} (h : Counted v) (hm : OrderlyMove act v v') : Counted v' := by
  obtain ⟨hv, hm⟩ := hm
  cases hm with
  | full => exact h
  | @create _ c p l hc hf =>
      have hp : v.place p = .free := (hv.mem_free p).mp (by simp [hf])
      obtain ⟨ks, hks⟩ := Forest.exists_has ((hv.mem_tree c).mpr (by simp [hc]))
      constructor
      · have hlen := (Forest.nodes_addChild_perm (c := p) hks hv.tree_nodup).length_eq
        have halive := h.alive
        simp only [View.create, hlen, List.length_cons]
        push_cast
        omega
      · have hsoft := h.soft
        rw [blockedCount_eq v.place _ p .ready fun _ => create_place, hp]
        change v.soft = _
        simpa [Place.weight, Place.isBlocked] using hsoft
  | @terminate _ p ks hp hready =>
      constructor
      · have hlen := (Forest.nodes_remove_perm hp hv.tree_nodup).length_eq
        have halive := h.alive
        change (v.killAll (ks.postorder ++ [p])).alive = ((v.tree.remove p).nodes.length : ℤ)
        rw [killAll_alive, List.length_append, Forest.postorder_length]
        simp only [List.length_append, List.length_cons, List.length_nil] at hlen ⊢
        push_cast
        omega
      · have hexcess := killAll_excess (v := v) (l := ks.postorder ++ [p])
        have hsoft := h.soft
        change (v.killAll (ks.postorder ++ [p])).soft =
          blockedCount (v.killAll (ks.postorder ++ [p])).place
        omega
  | pass => exact ⟨h.alive, h.soft⟩
  | @block _ a w c hw hi ha hc =>
      refine ⟨h.alive, ?_⟩
      have hsoft : v.soft = blockedCount v.place := h.soft
      have hplace : ∀ x, ((v.setValue a (v.credit a w)).block c a w).place x =
          if x = c then .blocked a else v.place x := fun x => Function.update_apply ..
      rw [blockedCount_eq v.place _ c (.blocked a) hplace, hc]
      simp only [Place.weight, Place.isBlocked, Bool.false_eq_true, if_false, if_true]
      change v.soft + 1 = _
      omega
  | verhogen => exact h.verhogen hv
  | noSignal => exact h
  | signal => exact h.verhogen hv
  | @requeue _ c hc =>
      refine ⟨h.alive, ?_⟩
      rw [blockedCount_eq v.place _ c .ready fun _ => toReady_place, hc]
      simpa [Place.weight, Place.isBlocked, View.toReady] using h.soft
  | @load _ p l hr =>
      refine ⟨h.alive, ?_⟩
      have hp : v.place p = .ready := (hv.mem_ready p).mp (by simp [hr])
      have hplace : ∀ x, (v.load p l).place x = if x = p then .off else v.place x := fun x =>
        Function.update_apply ..
      rw [blockedCount_eq v.place _ p .off hplace, hp]
      simpa [Place.weight, Place.isBlocked, View.load] using h.soft

omit [Platform] in
theorem counted_boot (value : ℕ → ℤ) (request : Pcb → ℤ) : Counted (View.boot value request) where
  alive := rfl
  soft := by
    have hplace : ∀ p, ((View.boot value request).place p).weight = 0 := by
      intro p
      rw [boot_place]
      split <;> rfl
    exact (Finset.sum_eq_zero fun p _ => hplace p).symm

end Moves

/-! ### `deadlock_detection` -/

def WaitsOnDevice [Platform] (k : Kernel) : Prop :=
  ∃ i < maxDevices, waiting k.toLinks (semAddr i) ≠ []

/-- The scheduler halts when no process is alive, waits when one is blocked on a device or on the
pseudo-clock, and panics otherwise. -/
structure DetectionExact [Platform] (k : Kernel) : Prop where
  halt : (∃ k', scheduler.run k = .exit .halt k') ↔ ∀ p, p ∈ freeList k
  panic : (∃ k', scheduler.run k = .exit .panic k') ↔
    (∃ p, p ∉ freeList k) ∧ ¬ WaitsOnDevice k
  wait : (∃ k', scheduler.run k = .exit .wait k') ↔ WaitsOnDevice k

section Detection

variable [Platform] {k : Kernel} {v : View} {B : Kernel → Prop} {s : Sys}

def verdict (processCount softBlockCount : ℤ) : Option Ctl :=
  if processCount = 0 then some .halt
  else if softBlockCount = 0 ∧ processCount > 0 then some .panic
  else if softBlockCount > 0 ∧ processCount > 0 then some .wait
  else none

theorem deadlockDetection_run {c : Ctl} (h : verdict k.processCount k.softBlockCount = some c) :
    ∃ k', deadlockDetection.run k = .exit c k' := by
  unfold verdict at h
  unfold deadlockDetection
  rw [Program.run_gets_bind, Program.run_gets_bind]
  split at h
  · next h₁ =>
    obtain rfl := Option.some.inj h
    rw [if_pos h₁]
    exact ⟨_, rfl⟩
  · next h₁ =>
    rw [if_neg h₁]
    split at h
    · next h₂ =>
      obtain rfl := Option.some.inj h
      rw [if_pos h₂]
      exact ⟨_, rfl⟩
    · next h₂ =>
      rw [if_neg h₂]
      split at h
      · next h₃ =>
        obtain rfl := Option.some.inj h
        rw [if_pos h₃]
        exact ⟨_, rfl⟩
      · cases h

/-- With no process to run the scheduler does what the counters say. -/
theorem loadnext_idle {c : Ctl} (hcur : k.currentProcess = none) (hready : k.readyqueue = none)
    (h : verdict k.processCount k.softBlockCount = some c) :
    ∃ k', loadnext.run k = .exit c k' := by
  obtain ⟨_, t, harm, hcore⟩ := armTimer_silent k
  have hq : t.readyqueue = none := (congrArg Core.readyqueue hcore).trans hready
  have hpc : t.processCount = k.processCount := congrArg Core.processCount hcore
  have hsb : t.softBlockCount = k.softBlockCount := congrArg Core.softBlockCount hcore
  have hrequeue : requeueCurrent.run k = .ok () k := by
    rw [requeueCurrent, Program.run_gets_bind, hcur]
    rfl
  have hremove : (onLinks (removeProcQ t.readyqueue)).run t = .ok (none, none) t := by
    rw [hq]
    exact onLinks_ok (removeProcQ_nil ring_nil)
  rw [loadnext, Program.run_bind_ok hrequeue, Program.run_bind_ok harm, Program.run_gets_bind,
    Program.run_bind_ok hremove]
  obtain ⟨k', hrun⟩ := deadlockDetection_run (c := c)
    (k := { t with readyqueue := none, currentProcess := none }) (by rw [← h, ← hpc, ← hsb])
  refine ⟨k', ?_⟩
  rw [Program.run_modify_bind]
  exact Program.run_bind_exit hrun _

theorem scheduler_idle {c : Ctl} (hflag : k.flag ≠ .loadcurrent) (hcur : k.currentProcess = none)
    (hready : k.readyqueue = none) (h : verdict k.processCount k.softBlockCount = some c) :
    ∃ k', scheduler.run k = .exit c k' := by
  have hidle : ∀ t : Kernel, t.core = k.core → ∃ k', loadnext.run t = .exit c k' := by
    intro t ht
    refine loadnext_idle ((congrArg Core.currentProcess ht).trans hcur)
      ((congrArg Core.readyqueue ht).trans hready) ?_
    rw [← h]
    exact congrArg₂ verdict (congrArg Core.processCount ht) (congrArg Core.softBlockCount ht)
  unfold scheduler
  simp only [getSTATUS, setSTATUS, Program.run_gets_bind, Program.run_modify_bind]
  cases hf : k.flag with
  | start =>
      simp only [setTIMER, getTODLO, Program.run_bind_bind, Program.run_modify_bind,
        Program.run_gets_bind, Program.run_pure_bind]
      exact hidle _ rfl
  | reset =>
      simp only [getTODLO, Program.run_bind_bind, Program.run_modify_bind, Program.run_gets_bind,
        Program.run_pure_bind]
      exact hidle _ rfl
  | loadnext => exact hidle _ rfl
  | loadcurrent => exact absurd hf hflag

omit [Platform] in
theorem Place.weight_nonneg (pl : Place) : 0 ≤ pl.weight := by
  unfold Place.weight
  split <;> decide

omit [Platform] in
theorem blockedCount_pos {place : Pcb → Place} {p : Pcb} (hp : (place p).isBlocked) :
    0 < blockedCount place := by
  refine Finset.sum_pos' (fun x _ => (place x).weight_nonneg) ⟨p, Finset.mem_univ p, ?_⟩
  rw [Place.weight, if_pos hp]
  exact Int.one_pos

omit [Platform] in
/-- With no process to run, every process alive is blocked. -/
theorem Rep.idle (h : Rep k.core v) (hcur : k.currentProcess = none) (hready : k.readyqueue = none)
    (p : Pcb) : v.place p = .free ∨ (v.place p).isBlocked := by
  have hr : v.ready = [] := h.ready.ring.tail_none_iff.mp hready
  cases hp : v.place p with
  | free => exact Or.inl rfl
  | ready =>
      have hm := (h.ready.mem p).mpr hp
      rw [hr] at hm
      cases hm
  | blocked a => exact Or.inr rfl
  | off => exact absurd hp (h.no_current hcur p)
  | gone => exact absurd hp (h.not_gone p)

theorem Rep.detection (h : Rep k.core v) (hc : Counted v) (hflag : k.flag ≠ .loadcurrent)
    (hcur : k.currentProcess = none) (hready : k.readyqueue = none) :
    DetectionExact k ↔ (∀ p, p ∈ freeList k) ∨ WaitsOnDevice k := by
  have hfree : ∀ p, p ∈ freeList k ↔ v.place p = .free := fun p => by
    rw [h.freeList_eq]
    exact h.lists.mem_free p
  have hpc : k.processCount = v.tree.nodes.length := h.alive.trans hc.alive
  have hsb : k.softBlockCount = blockedCount v.place := h.soft.trans hc.soft
  have hends := fun c => scheduler_idle (c := c) hflag hcur hready
  by_cases hall : ∀ p, p ∈ freeList k
  · have hnil : v.tree.nodes = [] := List.eq_nil_iff_forall_not_mem.mpr fun p hp =>
      (h.mem_tree p).mp hp ((hfree p).mp (hall p))
    obtain ⟨k', hrun⟩ := hends .halt (by rw [hpc, hnil]; rfl)
    have hdev : ¬ WaitsOnDevice k := by
      rintro ⟨i, -, hi⟩
      obtain ⟨p, hp⟩ := List.exists_mem_of_ne_nil _ hi
      rw [h.waiting_eq] at hp
      have hplace := (h.lists.mem_queue p _).mp hp
      rw [(hfree p).mp (hall p)] at hplace
      cases hplace
    refine ⟨fun _ => Or.inl hall, fun _ => ⟨?_, ?_, ?_⟩⟩
    · exact ⟨fun _ => hall, fun _ => ⟨k', hrun⟩⟩
    · simp only [hrun, Outcome.exit.injEq, reduceCtorEq, false_and, exists_false, false_iff,
        not_and]
      rintro ⟨p, hp⟩
      exact absurd (hall p) hp
    · simp [hrun, hdev]
  · obtain ⟨p, hp⟩ := not_forall.mp hall
    have hblocked := (h.idle hcur hready p).resolve_left fun hf => hp ((hfree p).mpr hf)
    have hpos : 0 < k.processCount := by
      have hmem := (h.mem_tree p).mpr fun hf => hp ((hfree p).mpr hf)
      have hlen := List.length_pos_of_mem hmem
      omega
    have hsoft : 0 < k.softBlockCount := hsb ▸ blockedCount_pos hblocked
    have hverdict : verdict k.processCount k.softBlockCount = some .wait := by
      rw [verdict, if_neg (by omega), if_neg (by omega), if_pos ⟨hsoft, hpos⟩]
    obtain ⟨k', hrun⟩ := hends .wait hverdict
    constructor
    · intro hexact
      exact Or.inr (hexact.wait.mp ⟨k', hrun⟩)
    · intro hdev
      have hdev := hdev.resolve_left hall
      refine ⟨?_, ?_, ?_⟩
      · simpa [hrun] using ⟨p, hp⟩
      · simp [hrun, hdev]
      · exact ⟨fun _ => hdev, fun _ => ⟨k', hrun⟩⟩

/-- In a run that kills no process with a ready descendant, whenever the scheduler finds no process
to run, the detection is exact if and only if no process is alive or one waits on `device_sem`. -/
theorem deadlock_detection_exact (h : Reach (nucleus B) SparesReady s)
    (hflag : s.kernel.flag ≠ .loadcurrent) (hcur : s.kernel.currentProcess = none)
    (hready : s.kernel.readyqueue = none) :
    DetectionExact s.kernel ↔
      (∀ p, p ∈ freeList s.kernel) ∨ WaitsOnDevice s.kernel := by
  obtain ⟨v, hrep, hcount⟩ := nucleus_view (fun k _ => counted_boot (bootInts k.ints) k.resWait)
    (fun _ _ _ hc hm => Counted.move hc hm) h
  exact hrep.detection hcount hflag hcur hready

end Detection

section Board

attribute [local instance] uarm

/-- The only process waits for the clock. -/
theorem deadlock_detection_exact_clock :
    ∃ s : Sys, WaitsOnDevice s.kernel ∧ DetectionExact s.kernel := by
  obtain ⟨s, hs, hQ⟩ := nucleus_run (B := fun _ => True) (C := SparesReady) trivial atBoot_zero
    [.dispatch, call 9]
    (fun s => s.kernel.flag ≠ .loadcurrent ∧ s.kernel.currentProcess = none ∧
      s.kernel.readyqueue = none ∧ waiting s.kernel.toLinks (semAddr clockSem) ≠ [])
    (by decide +kernel)
  obtain ⟨hflag, hcur, hready, hclock⟩ := of_decide_eq_true hQ
  have hdev : WaitsOnDevice s.kernel := ⟨clockSem, by decide, hclock⟩
  exact ⟨s, hdev, (deadlock_detection_exact hs hflag hcur hready).mpr (Or.inr hdev)⟩

/-- The only process waits on a semaphore of its own, and the scheduler waits with it. -/
theorem deadlock_not_detected :
    ¬ ∀ s, Reach (nucleus fun _ => True) (fun _ _ => True) s → s.kernel.flag ≠ .loadcurrent →
      s.kernel.currentProcess = none → s.kernel.readyqueue = none → DetectionExact s.kernel := by
  intro hall
  obtain ⟨s, hs, hQ⟩ := nucleus_run (B := fun _ => True) (C := fun _ _ => True) trivial atBoot_zero
    [.dispatch, call 3 0x5000 (-1)]
    (fun s => s.kernel.flag ≠ .loadcurrent ∧ s.kernel.currentProcess = none ∧
      s.kernel.readyqueue = none ∧ verdict s.kernel.processCount s.kernel.softBlockCount =
      some .wait ∧
      ∀ i ∈ List.range maxDevices, waiting s.kernel.toLinks (semAddr i) = [])
    (by decide +kernel)
  obtain ⟨hflag, hcur, hready, hwait, hdev⟩ := of_decide_eq_true hQ
  obtain ⟨i, hi, hwaits⟩ :=
    (hall s hs hflag hcur hready).wait.mp (scheduler_idle hflag hcur hready hwait)
  exact hwaits (hdev i (List.mem_range.mpr hi))

end Board

end JaeOS
