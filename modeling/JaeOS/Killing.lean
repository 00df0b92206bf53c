import JaeOS.Census
import JaeOS.Conservation

/-!
# What a termination leaves

A termination frees its victim with all the progeny and nobody else: what is left of the tree, of
the lists, of the counters and of the semaphores is what there was without them.
-/

open LinkRing LinkForest Transition

namespace JaeOS

section Kills

variable [Platform] {v : View} {p : Pcb} {l : List Pcb}

theorem kill_free : (v.kill p).free = v.free ++ [p] := by
  unfold View.kill View.leave
  cases v.place p with
  | blocked a =>
      simp only [View.bury, View.toFree, View.unblock, View.refund]
      split <;> rfl
  | _ => rfl

/-- The killed are appended to the free list one by one. -/
theorem killAll_free : (v.killAll l).free = v.free ++ l := by
  induction l generalizing v with
  | nil => exact (List.append_nil v.free).symm
  | cons p l ih => rw [killAll_cons, ih, kill_free, List.append_assoc, List.singleton_append]

theorem killAll_ready_eq (h : v.ready.Nodup) :
    (v.killAll l).ready = v.ready.filter (· ∉ l) := by
  induction l generalizing v with
  | nil => simp
  | cons p l ih =>
      have hnodup : (v.kill p).ready.Nodup := by
        rw [kill_ready]
        exact h.erase p
      rw [killAll_cons, ih hnodup, kill_ready, h.erase_eq_filter, List.filter_filter]
      apply List.filter_congr
      intro q _
      by_cases hq : q = p
      · simp [hq]
      · simp [hq]

theorem killAll_soft (h : l.Nodup) :
    (v.killAll l).soft = v.soft - l.countP fun p => (v.place p).isBlocked := by
  induction l generalizing v with
  | nil => simp
  | cons p l ih =>
      obtain ⟨hpl, hl⟩ := List.nodup_cons.mp h
      have hcount : (l.countP fun q => ((v.kill p).place q).isBlocked) =
          l.countP fun q => (v.place q).isBlocked := by
        apply List.countP_congr
        intro q hq
        rw [kill_place, if_neg (ne_of_mem_of_not_mem hq hpl)]
      rw [killAll_cons, ih hl, hcount, kill_soft, List.countP_cons, Place.weight]
      split
      · push_cast
        omega
      · push_cast
        omega

end Kills

/-! ### `terminate_process` -/

def Waits (k : Kernel) (p : Pcb) : Prop := ∃ d ∈ descriptors k.toLinks, p ∈ procs k.toLinks d

instance (k : Kernel) (p : Pcb) : Decidable (Waits k p) :=
  inferInstanceAs (Decidable (∃ d ∈ descriptors k.toLinks, p ∈ procs k.toLinks d))

/-- `k'` is `k` without `t` and its progeny. -/
structure Exterminated [Platform] (k k' : Kernel) (t : Pcb) : Prop where
  free : ∃ l, l.Perm (killed k t) ∧ freeList k' = freeList k ++ l
  free_nodup : (freeList k').Nodup
  tree : ∀ v, WellFormed k.core v → Tree k'.toLinks (v.tree.remove t)
  processCount : k'.processCount = k.processCount - (killed k t).length
  softBlockCount : k'.softBlockCount = k.softBlockCount - (killed k t).countP (Waits k)
  value : ∀ a, isDeviceSem a = false → -2 ^ 31 ≤ k.ints a →
    k.ints a + demand k.resWait ((waiting k.toLinks a).filter (· ∈ killed k t)) < 2 ^ 31 →
    k'.ints a = k.ints a + demand k.resWait ((waiting k.toLinks a).filter (· ∈ killed k t))
  device : ∀ a, isDeviceSem a = true → k'.ints a = k.ints a
  queue : ∀ a, waiting k'.toLinks a = (waiting k.toLinks a).filter (· ∉ killed k t)
  ready : readyList k' = (readyList k).filter (· ∉ killed k t)

section Termination

variable [Platform] {k : Kernel} {v : View} {c t : Pcb} {ks : Forest Pcb} {pid : Word}

omit [Platform] in
theorem WellFormed.waits (h : WellFormed k.core v) {p : Pcb} :
    Waits k p ↔ (v.place p).isBlocked := by
  rw [← mem_queues h, List.mem_flatMap]
  rfl

omit [Platform] in
theorem killed_nodup (h : WellFormed k.core v) (ht : Forest.Has t ks v.tree) :
    (killed k t).Nodup := by
  rw [killed, h.progeny_eq ht]
  exact List.nodup_cons.mpr (ht.nodup h.tree.nodup)

omit [Platform] in
/-- The subtree of a process in the order in which it is killed. -/
theorem killed_perm (h : WellFormed k.core v) (ht : Forest.Has t ks v.tree) :
    (ks.postorder ++ [t]).Perm (killed k t) := by
  have hnodup := ht.nodup h.tree.nodup
  apply (List.perm_ext_iff_of_nodup _ (killed_nodup h ht)).mpr
  · exact fun q => (mem_killed h ht).symm
  · apply List.nodup_append'.mpr
    refine ⟨Forest.postorder_nodup hnodup.2, List.nodup_singleton t, ?_⟩
    rw [List.disjoint_singleton, Forest.mem_postorder]
    exact hnodup.1

/-- Termination returns, having killed the progeny of its victim and then the victim itself. -/
theorem terminateProcess_kills (h : WellFormed k.core v) (hc : k.currentProcess = some c)
    (ht : terminated k.core c pid = some t) (hready : ∀ q ∈ progeny k t, q ∉ readyList k) :
    ∃ ks k' q, Forest.Has t ks v.tree ∧ (terminateProcess pid).run k = .ok () k' ∧
      Removed k.toLinks k'.toLinks v v.tree ks t ∧
      ReadyRing k'.toLinks q (v.killAll (ks.postorder ++ [t])) ∧ ∃ k₀ : Kernel,
        k' = (k₀.setReady q).withLists k'.toLinks (v.killAll (ks.postorder ++ [t])) := by
  have hkill := terminateProcess_run pid h hc
  rw [ht] at hkill
  obtain ⟨ks, k₀, hp, -, -, hkilled⟩ := hkill
  have hidle : ∀ x ∈ ks.nodes, v.place x ≠ .ready := by
    intro x hx hplace
    apply hready x
    · rwa [h.progeny_eq hp]
    · rw [h.readyList_eq]
      exact (h.ready.mem x).mpr hplace
  rcases hkilled with ⟨e, -, x, hx, hplace⟩ | ⟨m, q, hrun, hrem, hring⟩
  · exact absurd hplace (hidle x hx)
  · exact ⟨ks, _, q, hp, hrun, hrem, hring hidle, k₀, rfl⟩

theorem terminateProcess_exterminates (h : WellFormed k.core v) (hc : k.currentProcess = some c)
    (ht : terminated k.core c pid = some t) (hready : ∀ q ∈ progeny k t, q ∉ readyList k) :
    ∃ k', (terminateProcess pid).run k = .ok () k' ∧ Exterminated k k' t := by
  obtain ⟨ks, k', q, hp, hrun, hrem, hring, k₀, hk⟩ := terminateProcess_kills h hc ht hready
  have hl : Lists k.toLinks v := h.lists
  have hmem : ∀ p, p ∈ ks.postorder ++ [t] ↔ p ∈ killed k t := fun p => (mem_killed h hp).symm
  have hperm := killed_perm h hp
  have hfree' : freeList k' = (v.killAll (ks.postorder ++ [t])).free :=
    Ring.members_eq hrem.lists.free_ring (queue_length_le (m := k'.toLinks) hrem.lists.free_ring)
  have hvalue : k'.ints = (v.killAll (ks.postorder ++ [t])).value := by
    rw [hk]
    rfl
  have hwait : ∀ a, (waiting k.toLinks a).filter (· ∈ killed k t) =
      (v.queue a).filter (· ∈ ks.postorder ++ [t]) := by
    intro a
    rw [h.waiting_eq]
    exact List.filter_congr fun p _ => by simp only [hmem]
  refine ⟨k', hrun, ⟨⟨_, hperm, ?_⟩, ?_, ?_, ?_, ?_, ?_, ?_, ?_, ?_⟩⟩
  · rw [hfree', killAll_free, h.freeList_eq]
  · rw [hfree']
    exact hrem.lists.free_ring.nodup
  · intro u hu
    obtain ⟨ls, k'', q', hls, hrun', hrem', -⟩ := terminateProcess_kills hu hc ht hready
    rw [hrun] at hrun'
    obtain ⟨-, rfl⟩ := Outcome.ok.inj hrun'
    exact hrem'.tree
  · have halive : k.processCount = v.alive := h.alive
    rw [hk, halive, ← hperm.length_eq]
    exact killAll_alive
  · have hsoft : k.softBlockCount = v.soft := h.soft
    have hcount : (killed k t).countP (Waits k) =
        (ks.postorder ++ [t]).countP fun p => (v.place p).isBlocked := by
      rw [← hperm.countP_eq]
      apply List.countP_congr
      intro p _
      rw [decide_eq_true_iff]
      exact h.waits
    rw [hk, hsoft, hcount]
    exact killAll_soft (hperm.nodup_iff.mpr (killed_nodup h hp))
  · intro a ha hlo hhi
    rw [hvalue]
    rw [hwait, show k.resWait = v.request from h.request, show k.ints = v.value from h.value] at *
    exact killAll_value hl.queues ha (hl.requests_neg a) (exactOn_of_range hlo hhi)
  · intro a ha
    rw [hvalue, killAll_value_device ha]
    exact congrFun h.value.symm a
  · intro a
    rw [h.waiting_eq, hrem.lists.asl.waiting_eq, killAll_queue hl.queues]
    exact List.filter_congr fun p _ => by simp only [hmem]
  · have hready' : readyList k' = (v.killAll (ks.postorder ++ [t])).ready := by
      have hq : k'.readyqueue = q := by
        rw [hk]
        rfl
      rw [← hq] at hring
      exact Ring.members_eq hring.ring (queue_length_le (m := k'.toLinks) hring.ring)
    rw [hready', killAll_ready_eq h.ready.ring.nodup, h.readyList_eq]
    exact List.filter_congr fun p _ => by simp only [hmem]

/-- Termination kills its victim and the progeny, none of which may be ready, and nobody else; with
no process to kill it panics and nothing has changed. -/
theorem termination_exact (pid : Word) (h : k.Sound) (hc : k.currentProcess = some c) :
    (∀ t, terminated k.core c pid = some t → (∀ q ∈ progeny k t, q ∉ readyList k) →
      ∃ k', (terminateProcess pid).run k = .ok () k' ∧ Exterminated k k' t) ∧
    (terminated k.core c pid = none → (terminateProcess pid).run k = .exit .panic k) := by
  obtain ⟨v, hv⟩ := h
  constructor
  · intro t ht hready
    exact terminateProcess_exterminates hv hc ht hready
  · intro ht
    have hkill := terminateProcess_run pid hv hc
    rw [ht] at hkill
    exact hkill

end Termination

section Board

attribute [local instance] uarm

/-- The first process kills itself and a child that waits. -/
theorem termination_exact_child :
    ∃ k k' : Kernel, progeny k 0 = [1] ∧ (terminateProcess 0).run k = .ok () k' ∧
      Exterminated k k' 0 := by
  obtain ⟨s, hs, hQ⟩ := nucleus_run (B := fun _ => True) (C := SparesReady) trivial atBoot_zero
    [.dispatch, call 1, .dispatch, call 3 0x5000 (-1), .dispatch, call 3 0x5000 1, .dispatch,
      call 3 0x6000 (-1), .dispatch]
    (fun s => s.kernel.currentProcess = some 0 ∧ progeny s.kernel 0 = [1] ∧
      readyList s.kernel = []) (by decide +kernel)
  obtain ⟨hcur, hchild, hready⟩ := of_decide_eq_true hQ
  obtain ⟨v, hrep⟩ := nucleus_rep hs
  have hidle : ∀ q ∈ progeny s.kernel 0, q ∉ readyList s.kernel := by
    intro q _
    rw [hready]
    exact List.not_mem_nil
  obtain ⟨k', hrun, hdone⟩ := (termination_exact 0 ⟨v, hrep.toWellFormed⟩ hcur).1 0
    (if_pos (Or.inl rfl)) hidle
  exact ⟨s.kernel, k', hchild, hrun, hdone⟩

end Board

end JaeOS
