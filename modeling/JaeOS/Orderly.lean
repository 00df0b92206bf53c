import JaeOS.Abstraction

/-!
# Views in order

What a represented view satisfies whatever the pointers are. The moves an interrupt or the scheduler
is made of keep it, so every single move of an entry into the nucleus starts from a view in order.
-/

open LinkRing LinkForest Transition

namespace JaeOS

/-- The lists and the tree agree with the places of the PCBs, and waiters ask for something. -/
structure Orderly (v : View) : Prop where
  mem_free : ∀ p, p ∈ v.free ↔ v.place p = .free
  mem_ready : ∀ p, p ∈ v.ready ↔ v.place p = .ready
  mem_queue : ∀ p a, p ∈ v.queue a ↔ v.place p = .blocked a
  mem_tree : ∀ p, p ∈ v.tree.nodes ↔ v.place p ≠ .free
  free_nodup : v.free.Nodup
  ready_nodup : v.ready.Nodup
  queue_nodup : ∀ a, (v.queue a).Nodup
  tree_nodup : v.tree.nodes.Nodup
  not_gone : ∀ p, v.place p ≠ .gone
  request_neg : ∀ p a, v.place p = .blocked a → v.request p < 0
  null : v.queue 0 = []

theorem Rep.orderly {κ : Core} {v : View} (h : Rep κ v) : Orderly v where
  mem_free := h.lists.mem_free
  mem_ready := h.ready.mem
  mem_queue := h.lists.mem_queue
  mem_tree := h.mem_tree
  free_nodup := h.lists.free_ring.nodup
  ready_nodup := h.ready.ring.nodup
  queue_nodup a := by
    obtain ⟨ds, fs, hl⟩ := h.lists.asl
    exact hl.queue_nodup a
  tree_nodup := h.tree.nodup
  not_gone := h.not_gone
  request_neg := h.lists.request_neg
  null := h.lists.null

namespace Orderly

variable {v : View} {p c x : Pcb} {a : ℕ} {l : List Pcb}

theorem setValue (h : Orderly v) (i : ℤ) : Orderly (v.setValue a i) :=
  ⟨h.mem_free, h.mem_ready, h.mem_queue, h.mem_tree, h.free_nodup, h.ready_nodup, h.queue_nodup,
    h.tree_nodup, h.not_gone, h.request_neg, h.null⟩

theorem wake (h : Orderly v) (hp : v.place p = .blocked a) : Orderly (v.wake p a) where
  mem_free x := by
    change x ∈ v.free ↔ _
    rw [h.mem_free, wake_place]
    split
    · next hx => simp [hx, hp]
    · rfl
  mem_ready x := by
    change x ∈ v.ready ++ [p] ↔ _
    rw [List.mem_append, h.mem_ready, List.mem_singleton, wake_place]
    split
    · next hx => simp [hx]
    · next hx => simp [hx]
  mem_queue x b := by
    rw [wake_queue, wake_place]
    by_cases hb : b = a
    · subst hb
      rw [if_pos rfl, (h.queue_nodup b).mem_erase_iff, h.mem_queue]
      split
      · next hx => simp [hx]
      · next hx => simp [hx]
    · rw [if_neg hb, h.mem_queue]
      split
      · next hx => simp [hx, hp, Ne.symm hb]
      · rfl
  mem_tree x := by
    change x ∈ v.tree.nodes ↔ _
    rw [h.mem_tree, wake_place]
    split
    · next hx => simp [hx, hp]
    · rfl
  free_nodup := h.free_nodup
  ready_nodup := by
    have hpr : p ∉ v.ready := by simp [h.mem_ready, hp]
    exact List.nodup_append'.mpr
      ⟨h.ready_nodup, List.nodup_singleton p, List.disjoint_singleton.mpr hpr⟩
  queue_nodup b := by
    rw [wake_queue]
    split
    · exact (h.queue_nodup a).erase p
    · exact h.queue_nodup b
  tree_nodup := h.tree_nodup
  not_gone x := by
    rw [wake_place]
    split
    · exact Place.noConfusion
    · exact h.not_gone x
  request_neg x b hx := by
    rw [wake_place] at hx
    rw [wake_request]
    split at hx
    · cases hx
    · next hxp =>
      rw [if_neg hxp]
      exact h.request_neg x b hx
  null := by
    rw [wake_queue]
    split
    · next ha => rw [← ha, h.null, List.erase_nil]
    · exact h.null

theorem wakeAll (h : Orderly v) (hl : l.Nodup) (hb : ∀ x ∈ l, v.place x = .blocked a) :
    Orderly (v.wakeAll a l) := by
  induction l generalizing v with
  | nil => exact h
  | cons p l ih =>
      obtain ⟨hpl, hl⟩ := List.nodup_cons.mp hl
      refine ih (h.wake (hb p List.mem_cons_self)) hl fun x hx => ?_
      rw [wake_place, if_neg (ne_of_mem_of_not_mem hx hpl)]
      exact hb x (List.mem_cons_of_mem p hx)

/-- A PCB joins or leaves the ready queue; the other lists stay. -/
theorem relocate (h : Orderly v) {pl : Place} (hp : v.place p = .off ∨ v.place p = .ready)
    (hpl : pl = .off ∨ pl = .ready) (hl : l.Nodup)
    (hready : ∀ x, x ∈ l ↔ Function.update v.place p pl x = .ready) :
    Orderly { v with ready := l, place := Function.update v.place p pl } := by
  have hplace : ∀ x, Function.update v.place p pl x = if x = p then pl else v.place x := fun x =>
    Function.update_apply ..
  have hother : ∀ x (q : Place), q ≠ .off → q ≠ .ready →
      (Function.update v.place p pl x = q ↔ v.place x = q) := by
    intro x q hoff hrdy
    rw [hplace]
    split
    · next hx =>
      subst hx
      rcases hp with hp | hp <;> rcases hpl with rfl | rfl <;>
        simp [hp, Ne.symm hoff, Ne.symm hrdy]
    · rfl
  exact
    { mem_free := fun x => (h.mem_free x).trans (hother x .free nofun nofun).symm
      mem_ready := hready
      mem_queue := fun x b => (h.mem_queue x b).trans (hother x (.blocked b) nofun nofun).symm
      mem_tree := fun x => (h.mem_tree x).trans (hother x .free nofun nofun).symm.not
      free_nodup := h.free_nodup
      ready_nodup := hl
      queue_nodup := h.queue_nodup
      tree_nodup := h.tree_nodup
      not_gone := fun x hx => h.not_gone x ((hother x .gone nofun nofun).mp hx)
      request_neg := fun x b hx =>
        h.request_neg x b ((hother x (.blocked b) nofun nofun).mp hx)
      null := h.null }

theorem toReady (h : Orderly v) (hc : v.place c = .off) : Orderly (v.toReady c) := by
  have hcr : c ∉ v.ready := by simp [h.mem_ready, hc]
  refine h.relocate (Or.inl hc) (Or.inr rfl) (List.nodup_append'.mpr
    ⟨h.ready_nodup, List.nodup_singleton c, List.disjoint_singleton.mpr hcr⟩) fun x => ?_
  rw [List.mem_append, h.mem_ready, List.mem_singleton, Function.update_apply]
  split
  · next hx => simp [hx]
  · next hx => simp [hx]

theorem load (h : Orderly v) (hr : v.ready = p :: l) : Orderly (v.load p l) := by
  have hp : v.place p = .ready := (h.mem_ready p).mp (by simp [hr])
  have hnd := h.ready_nodup
  rw [hr] at hnd
  obtain ⟨hpl, hl⟩ := List.nodup_cons.mp hnd
  refine h.relocate (Or.inr hp) (Or.inl rfl) hl fun x => ?_
  rw [Function.update_apply]
  split
  · next hx => simpa [hx] using hpl
  · next hx => rw [← h.mem_ready, hr, List.mem_cons, or_iff_right hx]

variable [Platform]

theorem woken_blocked (h : Orderly v) {w : ℤ} (hx : x ∈ v.woken a w) : v.place x = .blocked a :=
  (h.mem_queue x a).mp ((woken_initial v a w).subset hx)

theorem woken_nodup (h : Orderly v) (a : ℕ) (w : ℤ) : (v.woken a w).Nodup :=
  (woken_initial v a w).sublist.nodup (h.queue_nodup a)

theorem verhogen (h : Orderly v) (a : ℕ) (w : ℤ) : Orderly (v.verhogen a w) :=
  (h.setValue _).wakeAll (h.woken_nodup a w) fun _ hx => h.woken_blocked hx

end Orderly

def Act.light : Act → Bool
  | .verhogen _ _ => true
  | .signal _ => true
  | .requeue => true
  | .load => true
  | _ => false

section Moves

variable [Platform] {v v' : View} {act : Act} {acts : List Act}

theorem Move.orderly (h : Move act v v') (hl : act.light) (hv : Orderly v) : Orderly v' := by
  cases h with
  | full => cases hl
  | create => cases hl
  | terminate => cases hl
  | pass => cases hl
  | block => cases hl
  | verhogen => exact hv.verhogen _ _
  | noSignal => exact hv
  | signal => exact hv.verhogen _ _
  | requeue hc => exact hv.toReady hc
  | load hr => exact hv.load hr

def OrderlyMove (act : Act) (v v' : View) : Prop := Orderly v ∧ Move act v v'

theorem steps_orderly (h : Steps Move acts v v') (hl : acts.length ≤ 1 ∨ ∀ act ∈ acts, act.light)
    (hv : Orderly v) : Steps OrderlyMove acts v v' := by
  induction h with
  | nil => exact .nil _
  | cons hm hs ih =>
      refine .cons ⟨hv, hm⟩ ?_
      rcases hl with hl | hl
      · obtain rfl := List.length_eq_zero_iff.mp (by simpa using hl)
        cases hs
        exact .nil _
      · exact ih (Or.inr fun b hb => hl b (List.mem_cons_of_mem _ hb))
          (hm.orderly (hl _ List.mem_cons_self) hv)

end Moves

end JaeOS
