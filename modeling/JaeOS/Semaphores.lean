import JaeOS.View

/-!
# What `semaphore_operation` does

On well-formed lists `P` either takes its units or appends the caller to the queue, and `V` makes a
prefix of the queue ready: `wakeups` says which, with the sums as the code computes them.
-/

open LinkRing LinkForest

namespace JaeOS

variable [Platform]

def sumOf (request : Pcb → ℤ) (l : List Pcb) : ℤ :=
  l.foldl (fun s p => Platform.wrap (s - request p)) 0

/-- The waiters the loop of `semaphore_operation` wakes with `s` units at hand. -/
def wakeups (request : Pcb → ℤ) : ℤ → List Pcb → List Pcb
  | _, [] => []
  | s, p :: l =>
    if request p ≥ Platform.wrap (-s) ∧ s ≠ 0 then
      p :: wakeups request (Platform.wrap (s + request p)) l
    else []

namespace View

variable (v : View) (a : ℕ) (w : ℤ)

def credit : ℤ := Platform.wrap (v.value a + w)

def supply : ℤ := Platform.wrap (sumOf v.request (v.queue a) + v.credit a w)

def woken : List Pcb := wakeups v.request (v.supply a w) (v.queue a)

def wakeAll (l : List Pcb) : View := l.foldl (fun v p => v.wake p a) v

def verhogen : View := (v.setValue a (v.credit a w)).wakeAll a (v.woken a w)

end View

def Kernel.suspend (k : Kernel) (p : Pcb) : Kernel :=
  { k with
    flag := .loadnext
    currentProcess := none
    kernelTime :=
      Function.update k.kernelTime p (k.kernelTime p + (k.hw.tod k.hw.reads - k.kernelStart))
    globalTime :=
      Function.update k.globalTime p (k.globalTime p + (k.hw.tod (k.hw.reads + 1) - k.startTOD))
    hw := { k.hw with reads := k.hw.reads + 2 } }

variable {k : Kernel} {m : Links maxproc} {v : View} {p c : Pcb} {a : ℕ} {w : ℤ}

theorem Lists.refund (h : Lists m v) : Lists m (v.refund p a) := by
  unfold View.refund
  split
  · exact h
  · exact h.setValue _

@[simp] theorem refund_place : (v.refund p a).place = v.place := by
  unfold View.refund
  split <;> rfl

@[simp] theorem refund_queue : (v.refund p a).queue = v.queue := by
  unfold View.refund
  split <;> rfl

@[simp] theorem refund_ready : (v.refund p a).ready = v.ready := by
  unfold View.refund
  split <;> rfl

/-! ### Leaving a semaphore for good -/

theorem leaveSemaphore_run (h : Lists m v) (hf : v.place p ≠ .free) (hg : v.place p ≠ .gone) :
    ∃ m', (leaveSemaphore p).run (k.withLists m v) = .ok () (k.withLists m' (v.leave p)) ∧
      Lists m' (v.leave p) ∧ m'.family = m.family ∧
      ∀ x, (∀ b, v.place x ≠ .blocked b) → m'.pList x = m.pList x := by
  have hnone : v.place p = .ready ∨ v.place p = .off →
      (leaveSemaphore p).run (k.withLists m v) = .ok () (k.withLists m v) := by
    intro hp
    simp only [leaveSemaphore, Program.run_gets_bind, withLists_toLinks, h.cursem p hp,
      Program.run_pure]
  cases hp : v.place p with
  | free => exact absurd hp hf
  | gone => exact absurd hp hg
  | ready =>
      have hv : v.leave p = v := by simp only [View.leave, hp]
      rw [hv]
      exact ⟨m, hnone (Or.inl hp), h, rfl, fun _ _ => rfl⟩
  | off =>
      have hv : v.leave p = v := by simp only [View.leave, hp]
      rw [hv]
      exact ⟨m, hnone (Or.inr hp), h, rfl, fun _ _ => rfl⟩
  | blocked a =>
      have hv : v.leave p = (v.refund p a).unblock p a := by simp only [View.leave, hp]
      have hpa : p ∈ v.queue a := (h.mem_queue p a).mpr hp
      obtain ⟨ds, fs, hl⟩ := id h.asl
      obtain ⟨d, -, had, hd⟩ := hl.mem_of_nonempty hpa
      obtain ⟨m', hrun, hlists, hreleased⟩ := (h.refund (p := p) (a := a)).unblock
        (p := p) (a := a) (by rw [refund_place]; exact hp)
      rw [refund_queue] at hreleased
      rw [hv]
      refine ⟨m', ?_, hlists, hreleased.family,
        fun x hx => hreleased.pList x (h.not_mem_queue hx a)⟩
      unfold leaveSemaphore
      simp only [Program.run_gets_bind, withLists_toLinks, withLists_resWait, hd, had]
      unfold View.refund
      cases hdev : isDeviceSem a with
      | true =>
          simp only [Bool.not_true, Bool.false_eq_true, if_false, if_true]
          rw [Program.run_bind_ok (onLinks_run hrun)]
          rfl
      | false =>
          simp only [Bool.not_false, Bool.false_eq_true, if_true, if_false,
            Program.run_gets_bind, withLists_ints, run_setInt_bind]
          rw [Program.run_bind_ok (onLinks_run hrun)]
          rfl

/-! ### `P` -/

/-- There is enough: the caller goes on. -/
theorem passeren_pass (hi : 0 ≤ v.credit a w) :
    (passeren a w).run (k.withLists m v) = .ok ()
      (k.withLists m (v.setValue a (v.credit a w))) := by
  have hneg : ¬ (k.withLists m (v.setValue a (v.credit a w))).ints a < 0 := by
    simp only [withLists_ints, View.setValue, Function.update_self]
    omega
  change (if (k.withLists m (v.setValue a (v.credit a w))).ints a < 0 then _ else pure () :
    KM Unit).run _ = _
  rw [if_neg hneg]
  rfl

/-- There is not: the caller waits at the end of the queue. -/
theorem passeren_block (h : Lists m v) (hk : k.currentProcess = some c) (hc : v.place c = .off)
    (ha : a ≠ 0) (hw : w < 0) (hi : v.credit a w < 0) :
    ∃ m', (passeren a w).run (k.withLists m v) =
        .ok () ((k.suspend c).withLists m' ((v.setValue a (v.credit a w)).block c a w)) ∧
      Lists m' ((v.setValue a (v.credit a w)).block c a w) ∧ m'.family = m.family ∧
      ∀ x, v.place x = .ready → m'.pList x = m.pList x := by
  have hneg : (k.withLists m (v.setValue a (v.credit a w))).ints a < 0 := by
    simpa only [withLists_ints, View.setValue, Function.update_self] using hi
  obtain ⟨m', hrun, hlists, hfam, hlist⟩ := (h.setValue (v.credit a w)).block (p := c) hc ha hw
  refine ⟨m', ?_, hlists, hfam, hlist⟩
  change (if (k.withLists m (v.setValue a (v.credit a w))).ints a < 0 then _ else pure () :
    KM Unit).run _ = _
  rw [if_pos hneg]
  simp only [current, Program.run_bind_bind, Program.run_gets_bind, withLists_currentProcess, hk,
    Program.need_some, Program.run_pure_bind, Program.run_modify_bind, getTODLO, addKernelTime,
    addGlobalTime]
  exact Program.run_bind_ok (onLinks_run (k := { k.suspend c with
    flag := k.flag, currentProcess := some c }) (v := { v.setValue a (v.credit a w) with
      request := Function.update v.request c w }) hrun) _

/-! ### `V` -/

theorem sumRequests_run (h : Lists m v) {l : List Pcb} (hq : v.queue a = p :: l) :
    (sumRequests p).run (k.withLists m v) = .ok (sumOf v.request (p :: l)) (k.withLists m v) := by
  obtain ⟨ds, fs, hl⟩ := h.asl
  obtain ⟨d, hd, had⟩ := hl.covered a (by rw [hq]; exact List.cons_ne_nil p l)
  have hring : Ring m.pList (m.sProcq d) (p :: l) := by
    rw [← hq, ← had]
    exact hl.procq d hd
  have hcur : ∀ x ∈ p :: l, m.pCursem x = some d := by
    rw [← hq, ← had]
    exact hl.cursem d hd
  have hlen : (p :: l).length ≤ maxproc := by
    rw [← hq]
    exact hl.queue_length_le a
  have hheader : ∀ x ∈ p :: l, (queueOf (some x)).run (k.withLists m v) =
      .ok (m.sProcq d) (k.withLists m v) := by
    intro x hx
    simp [queueOf, hcur x hx]
  have hloop : (clistForeach maxproc (fun k : Kernel => k.pList) queueOf sumRequestsBody 0 (some p)
      none).run (k.withLists m v) =
        .ok (sumOf v.request (p :: l), some p, m.sProcq d) (k.withLists m v) :=
    clistForeach_all (fun s x => Platform.wrap (s - v.request x)) hring hlen
      (hheader p List.mem_cons_self) hheader (.of_forall fun _ _ _ _ => rfl)
  rw [sumRequests, Program.run_bind_ok hloop]
  rfl

omit [Platform] in
theorem wake_run (h : Lists m v) (hr : ReadyRing m k.readyqueue v) (hp : v.place p = .blocked a) :
    ∃ m' t, (wake p).run (k.withLists m v) =
        .ok () ((k.setReady t).withLists m' (v.wake p a)) ∧
      Lists m' (v.wake p a) ∧ ReadyRing m' t (v.wake p a) ∧
      Released m m' [p] (v.queue a ++ v.ready) := by
  obtain ⟨m₁, hrun, hlists, hreleased⟩ := h.unblock hp
  have hlist : ∀ x, (∀ b, v.place x ≠ .blocked b) → m₁.pList x = m.pList x := fun x hx =>
    hreleased.pList x (h.not_mem_queue hx a)
  have hgone : (v.unblock p a).place p = .gone := Function.update_self ..
  have hset := hlists.settle hgone
  let m₂ : Links maxproc := { m₁ with pCursem := Function.update m₁.pCursem p none }
  have hr₂ : ReadyRing m₂ k.readyqueue ((v.unblock p a).settle p) := by
    refine hr.congr rfl (fun x hx => hlist x fun b => ?_) fun x => ?_
    · simp [(hr.mem x).mp hx]
    · simp only [View.settle, View.unblock, Function.update_apply]
      split
      · next hxp => simp [hxp, hp]
      · rfl
  obtain ⟨hl₃, hr₃⟩ := hset.toReady hr₂ (Function.update_self ..)
  have hcursem : ∀ x, m₂.pCursem x = if x ∈ [p] then none else m.pCursem x := by
    intro x
    simp only [List.mem_singleton, m₂, Function.update_apply, hreleased.pCursem, List.not_mem_nil,
      if_false]
  have hframe : ∀ x ∉ v.queue a ++ v.ready, (insertProcQ k.readyqueue p m₂).2.pList x =
      m.pList x := by
    intro x hx
    have hxq : x ∉ v.queue a := fun hm => hx (List.mem_append_left _ hm)
    have hxp : x ≠ p := fun he => hxq (he ▸ (h.mem_queue p a).mpr hp)
    have hmoved := insertProcQ_pList hr₂.ring (fun hm => hx (List.mem_append_right _ hm)) hxp
    exact hmoved.trans (hreleased.pList x hxq)
  refine ⟨_, _, ?_, hl₃, hr₃, hreleased.family, hreleased.sSemAdd, hreleased.pcbFree,
    hcursem, hframe⟩
  unfold wake
  rw [Program.run_bind_ok (onLinks_run hrun)]
  rfl

theorem wakeups_congr {r r' : Pcb → ℤ} {s : ℤ} {l : List Pcb} (h : ∀ x ∈ l, r' x = r x) :
    wakeups r' s l = wakeups r s l := by
  induction l generalizing s with
  | nil => rfl
  | cons p l ih =>
      rw [wakeups, wakeups, h p List.mem_cons_self,
        ih fun x hx => h x (List.mem_cons_of_mem p hx)]

theorem wakeups_initial (r : Pcb → ℤ) (s : ℤ) (l : List Pcb) : wakeups r s l <+: l := by
  induction l generalizing s with
  | nil => exact List.prefix_refl []
  | cons p l ih =>
      rw [wakeups]
      split
      · exact List.cons_prefix_cons.mpr ⟨rfl, ih _⟩
      · exact List.nil_prefix

theorem wakeLoop_run {l : List Pcb} {n : ℕ} {s : ℤ} (h : Lists m v)
    (hr : ReadyRing m k.readyqueue v) (hq : v.queue a = l) (hn : l.length < n) :
    ∃ m' t, (wakeLoop n a s).run (k.withLists m v) =
        .ok () ((k.setReady t).withLists m'
          (v.wakeAll a (wakeups v.request s l))) ∧
      Lists m' (v.wakeAll a (wakeups v.request s l)) ∧
      ReadyRing m' t (v.wakeAll a (wakeups v.request s l)) ∧
      Released m m' (wakeups v.request s l) (v.queue a ++ v.ready) := by
  induction l generalizing k m v s n with
  | nil =>
      obtain ⟨n, rfl⟩ := Nat.exists_eq_add_one_of_ne_zero (Nat.ne_of_gt hn)
      obtain ⟨ds, fs, hl⟩ := id h.asl
      refine ⟨m, k.readyqueue, ?_, h, hr, .refl m _⟩
      have hhead := hl.headBlocked_run (χ := Ctl) a
      rw [hq] at hhead
      rw [wakeLoop, Program.run_bind_ok (onLinks_run hhead)]
      rfl
  | cons p l ih =>
      obtain ⟨n, rfl⟩ := Nat.exists_eq_add_one_of_ne_zero (Nat.ne_of_gt (Nat.zero_lt_of_lt hn))
      obtain ⟨ds, fs, hl⟩ := id h.asl
      have hhead := hl.headBlocked_run (χ := Ctl) a
      rw [hq] at hhead
      have hnd := hl.queue_nodup a
      rw [hq] at hnd
      have hpl : p ∉ l := (List.nodup_cons.mp hnd).1
      by_cases hs : v.request p ≥ Platform.wrap (-s) ∧ s ≠ 0
      · have hp : v.place p = .blocked a := (h.mem_queue p a).mp (by simp [hq])
        obtain ⟨m₁, t₁, hwake, hl₁, hr₁, hf₁⟩ := wake_run h hr hp
        have hq₁ : (v.wake p a).queue a = l := by
          simp [View.wake, View.toReady, View.settle, View.unblock, hq]
        have hreq : ∀ x ∈ l, (v.wake p a).request x = v.request x := fun x hx =>
          Function.update_of_ne (ne_of_mem_of_not_mem hx hpl) ..
        have hn' : l.length < n := by simpa using hn
        obtain ⟨m₂, t₂, hrun, hl₂, hr₂, hf₂⟩ :=
          ih (k := k.setReady t₁) (s := Platform.wrap (s + v.request p)) hl₁ hr₁ hq₁ hn'
        rw [wakeups_congr hreq] at hrun hl₂ hr₂ hf₂
        have hw : wakeups v.request s (p :: l) =
            p :: wakeups v.request (Platform.wrap (s + v.request p)) l := by
          rw [wakeups, if_pos hs]
        rw [hw]
        have hnear : ∀ x ∈ (v.wake p a).queue a ++ (v.wake p a).ready, x ∈ v.queue a ++
            v.ready := by
          intro x hx
          have hready : (v.wake p a).ready = v.ready ++ [p] := rfl
          rw [hq₁, hready] at hx
          rw [hq]
          simp only [List.mem_append, List.mem_cons, List.not_mem_nil, or_false] at hx ⊢
          tauto
        refine ⟨m₂, t₂, ?_, hl₂, hr₂, hf₁.trans hf₂ hnear⟩
        rw [wakeLoop, Program.run_bind_ok (onLinks_run hhead)]
        change (if v.request p ≥ Platform.wrap (-s) ∧ s ≠ 0 then _ else pure () : KM Unit).run _ = _
        rw [if_pos hs, Program.run_bind_ok hwake]
        exact hrun
      · have hw : wakeups v.request s (p :: l) = [] := by rw [wakeups, if_neg hs]
        rw [hw]
        refine ⟨m, k.readyqueue, ?_, h, hr, .refl m _⟩
        rw [wakeLoop, Program.run_bind_ok (onLinks_run hhead)]
        change (if v.request p ≥ Platform.wrap (-s) ∧ s ≠ 0 then _ else pure () : KM Unit).run _ = _
        rw [if_neg hs]
        rfl

/-- `V` up to its loop. -/
theorem verhogen_start (h : Lists m v) :
    (verhogen a w).run (k.withLists m v) =
      (wakeLoop (maxproc + 1) a (v.supply a w)).run
        (k.withLists m (v.setValue a (v.credit a w))) := by
  obtain ⟨ds, fs, hl⟩ := id h.asl
  have hhead := hl.headBlocked_run (χ := Ctl) a
  have hvalue : (v.setValue a (v.credit a w)).value a = v.credit a w := Function.update_self ..
  unfold verhogen
  simp only [Program.run_gets_bind, withLists_ints, run_setInt_bind]
  rw [← View.credit, Program.run_bind_ok (onLinks_run hhead)]
  cases hq : v.queue a with
  | nil =>
      have hsum : v.supply a w = Platform.wrap (0 + v.credit a w) := by rw [View.supply, hq]; rfl
      simp only [List.head?_nil, Program.run_pure_bind, Program.run_gets_bind, withLists_ints]
      rw [hvalue, ← hsum]
  | cons p l =>
      have hsum : v.supply a w = Platform.wrap
          (sumOf (v.setValue a (v.credit a w)).request (p :: l) + v.credit a w) := by
        rw [View.supply, hq]
        rfl
      simp only [List.head?_cons]
      rw [Program.run_bind_ok (sumRequests_run (h.setValue (v.credit a w)) hq)]
      simp only [Program.run_gets_bind, withLists_ints]
      rw [hvalue, ← hsum]

/-- `V` wakes the processes of `woken`, in queue order. -/
theorem verhogen_run (h : Lists m v) (hr : ReadyRing m k.readyqueue v) :
    ∃ m' t, (verhogen a w).run (k.withLists m v) =
        .ok () ((k.setReady t).withLists m' (v.verhogen a w)) ∧
      Lists m' (v.verhogen a w) ∧ ReadyRing m' t (v.verhogen a w) ∧
      Released m m' (v.woken a w) (v.queue a ++ v.ready) := by
  have hlen : (v.queue a).length < maxproc + 1 := by
    obtain ⟨ds, fs, hl⟩ := h.asl
    have := hl.queue_length_le a
    omega
  rw [verhogen_start h]
  exact wakeLoop_run (h.setValue _) (hr.setValue _) rfl hlen

/-! ### The view after `V` -/

section WakeAll

variable {l r : List Pcb} {x : Pcb} {b : ℕ}

omit [Platform] in
@[simp] theorem wakeAll_nil : v.wakeAll a [] = v := rfl

omit [Platform] in
@[simp] theorem wakeAll_cons : v.wakeAll a (p :: l) = (v.wake p a).wakeAll a l := rfl

omit [Platform] in
@[simp] theorem wake_place : (v.wake p a).place x = if x = p then .ready else v.place x := by
  by_cases hx : x = p
  · simp [hx, View.wake, View.toReady]
  · simp [hx, View.wake, View.toReady, View.settle, View.unblock]

omit [Platform] in
@[simp] theorem wake_request : (v.wake p a).request x = if x = p then 0 else v.request x :=
  Function.update_apply ..

omit [Platform] in
theorem wake_queue : (v.wake p a).queue b = if b = a then (v.queue a).erase p else v.queue b :=
  Function.update_apply ..

omit [Platform] in
theorem wakeAll_place : (v.wakeAll a l).place x = if x ∈ l then .ready else v.place x := by
  induction l generalizing v with
  | nil => simp
  | cons p l ih =>
      rw [wakeAll_cons, ih, wake_place]
      by_cases hxl : x ∈ l
      · simp [hxl]
      · simp [hxl]

omit [Platform] in
theorem wakeAll_request : (v.wakeAll a l).request x = if x ∈ l then 0 else v.request x := by
  induction l generalizing v with
  | nil => simp
  | cons p l ih =>
      rw [wakeAll_cons, ih, wake_request]
      by_cases hxl : x ∈ l
      · simp [hxl]
      · simp [hxl]

omit [Platform] in
theorem wakeAll_value : (v.wakeAll a l).value = v.value := by
  induction l generalizing v with
  | nil => rfl
  | cons p l ih => exact ih

omit [Platform] in
theorem wakeAll_free : (v.wakeAll a l).free = v.free := by
  induction l generalizing v with
  | nil => rfl
  | cons p l ih => exact ih

omit [Platform] in
theorem wakeAll_ready : (v.wakeAll a l).ready = v.ready ++ l := by
  induction l generalizing v with
  | nil => exact (List.append_nil _).symm
  | cons p l ih =>
      have hready : (v.wake p a).ready = v.ready ++ [p] := rfl
      rw [wakeAll_cons, ih, hready, List.append_assoc, List.singleton_append]

omit [Platform] in
theorem wakeAll_tree : (v.wakeAll a l).tree = v.tree := by
  induction l generalizing v with
  | nil => rfl
  | cons p l ih => exact ih

omit [Platform] in
theorem wakeAll_alive : (v.wakeAll a l).alive = v.alive := by
  induction l generalizing v with
  | nil => rfl
  | cons p l ih => exact ih

omit [Platform] in
theorem wakeAll_soft : (v.wakeAll a l).soft = v.soft - l.length := by
  induction l generalizing v with
  | nil => simp
  | cons p l ih =>
      have hsoft : (v.wake p a).soft = v.soft - 1 := rfl
      rw [wakeAll_cons, ih, hsoft, List.length_cons]
      omega

omit [Platform] in
theorem wakeAll_queue_of_ne (hb : b ≠ a) : (v.wakeAll a l).queue b = v.queue b := by
  induction l generalizing v with
  | nil => rfl
  | cons p l ih => rw [wakeAll_cons, ih, wake_queue, if_neg hb]

omit [Platform] in
/-- Waking the first waiters leaves the others in their order. -/
theorem wakeAll_queue (hq : v.queue a = l ++ r) : (v.wakeAll a l).queue a = r := by
  induction l generalizing v with
  | nil => exact hq
  | cons p l ih =>
      refine ih ?_
      rw [wake_queue, if_pos rfl, hq, List.cons_append, List.erase_cons_head]

theorem woken_initial (v : View) (a : ℕ) (w : ℤ) : v.woken a w <+: v.queue a :=
  wakeups_initial _ _ _

theorem verhogen_place (v : View) (a : ℕ) (w : ℤ) (x : Pcb) :
    (v.verhogen a w).place x = if x ∈ v.woken a w then .ready else v.place x := wakeAll_place

/-- A woken process has been waiting. -/
theorem Lists.woken_blocked (h : Lists m v) {x : Pcb} (hx : x ∈ v.woken a w) :
    v.place x = .blocked a := (h.mem_queue x a).mp ((woken_initial v a w).subset hx)

end WakeAll

/-! ### The three branches -/

theorem semaphoreOperation_neg (ha : a ≠ 0) (hw : w < 0) :
    (semaphoreOperation a w).run k = (passeren a w).run k := by
  have hw0 : ¬ w = 0 := by omega
  simp only [semaphoreOperation, if_neg ha, if_neg hw0, if_pos hw]

theorem semaphoreOperation_pos (ha : a ≠ 0) (hw : 0 < w) :
    (semaphoreOperation a w).run k = (verhogen a w).run k := by
  have hw0 : ¬ w = 0 := by omega
  have hwn : ¬ w < 0 := by omega
  simp only [semaphoreOperation, if_neg ha, if_neg hw0, if_neg hwn]

theorem semaphoreOperation_zero (ha : a ≠ 0) (hk : k.currentProcess = some c) :
    (semaphoreOperation a 0).run k = (terminateProcess (k.pid c)).run k := by
  simp only [semaphoreOperation, if_neg ha, if_true, current, Program.run_bind_bind,
    Program.run_gets_bind, hk, Program.need_some, Program.run_pure_bind]

theorem semaphoreOperation_null : (semaphoreOperation 0 w).run k = .exit .panic k := by
  simp only [semaphoreOperation, if_true, PANIC, Program.run_leave_bind]

end JaeOS
