import JaeOS.Clist

/-!
# Disjoint lists in one memory

Any number of headers share the nodes of one link field. As long as no node is in two of the lists,
an operation of `clist.h` on one of them is the operation on finite sequences its name says, and the
other lists do not notice.
-/

open LinkRing

namespace JaeOS

variable {ι α γ σ χ : Type} [DecidableEq ι] [DecidableEq α]

structure Heap (ι α : Type) where
  tail : ι → Option α
  next : α → Option α

def Heap.clist (H : Heap ι α) (i : ι) : Clist α := ⟨H.next, H.tail i⟩

def Heap.store (H : Heap ι α) (i : ι) (c : Clist α) : Heap ι α :=
  ⟨Function.update H.tail i c.tail, c.link⟩

/-- The headers represent the sequences `ls`, no two of which share a node. -/
structure Heap.Holds (H : Heap ι α) (ls : ι → List α) : Prop where
  repr : ∀ i, (H.clist i).Repr (ls i)
  apart : ∀ i j x, x ∈ ls i → x ∈ ls j → i = j

variable {H : Heap ι α} {ls : ι → List α} {c : Clist α} {i j : ι} {l m : List α} {e x : α}
    {bound : ℕ}

omit [DecidableEq ι] [DecidableEq α] in
theorem Heap.Holds.length_le [Fintype α] (h : H.Holds ls) (i : ι) :
    (ls i).length ≤ Fintype.card α :=
  List.Nodup.length_le_card (h.repr i).nodup

omit [DecidableEq α] in
/-- An operation that writes links of the list `i` and of the free nodes `m` only. -/
theorem Heap.Holds.store (h : H.Holds ls) (hc : c.Repr l)
    (hframe : ∀ x, x ∉ ls i → x ∉ m → c.link x = H.next x) (hl : ∀ x ∈ l, x ∈ ls i ∨ x ∈ m)
    (hm : ∀ x ∈ m, ∀ j, x ∉ ls j) : (H.store i c).Holds (Function.update ls i l) where
  repr j := by
    by_cases hj : j = i
    · subst hj
      simp only [Heap.clist, Heap.store, Function.update_self]
      exact hc
    · simp only [Heap.clist, Heap.store, Function.update_of_ne hj]
      apply Ring.congr (h.repr j)
      intro x hx
      exact hframe x (fun hi => hj (h.apart j i x hx hi)) fun hxm => hm x hxm j hx
  apart j k x hj hk := by
    have hother : ∀ {j}, j ≠ i → x ∈ ls j → x ∉ l := by
      intro j hji hx hxl
      rcases hl x hxl with hi | hxm
      · exact hji (h.apart j i x hx hi)
      · exact hm x hxm j hx
    by_cases hji : j = i
    · subst hji
      rw [Function.update_self] at hj
      by_contra hne
      rw [Function.update_of_ne (Ne.symm hne)] at hk
      exact hother (Ne.symm hne) hk hj
    · rw [Function.update_of_ne hji] at hj
      by_cases hki : k = i
      · subst hki
        rw [Function.update_self] at hk
        exact absurd hk (hother hji hj)
      · rw [Function.update_of_ne hki] at hk
        exact h.apart j k x hj hk

omit [DecidableEq α] in
/-- What an operation has made of a list. -/
theorem Heap.Holds.moves (h : H.Holds ls) (hm : (H.clist i).Moves c (ls i) l)
    (hl : ∀ x ∈ l, x ∈ ls i) :
    (H.store i c).Holds (Function.update ls i l) :=
  h.store (m := []) hm.repr (fun x hx _ => hm.frame x hx) (fun x hx => Or.inl (hl x hx)) (by simp)

/-! ### The operations -/

inductive ListOp (ι α : Type) where
  | enqueue (i : ι) (elem : α)
  | push (i : ι) (elem : α)
  | dequeue (i : ι)
  | delete (i : ι) (elem : α)

namespace ListOp

def list : ListOp ι α → ι
  | .enqueue i _ | .push i _ | .dequeue i | .delete i _ => i

def inserted : ListOp ι α → List α
  | .enqueue _ elem | .push _ elem => [elem]
  | .dequeue _ | .delete _ _ => []

/-- The macro on the memory; only `clist_delete` has a value. -/
def run (bound : ℕ) : ListOp ι α → Program (Heap ι α) χ Fault (Option ℕ)
  | .enqueue i elem => do
    Program.modify fun H => H.store i (clistEnqueue elem (H.clist i))
    pure none
  | .push i elem => do
    Program.modify fun H => H.store i (clistPush elem (H.clist i))
    pure none
  | .dequeue i => do
    let c ← Program.gets fun H => H.clist i
    let c ← clistDequeue c
    Program.modify fun H => H.store i c
    pure none
  | .delete i elem => do
    let c ← Program.gets fun H => H.clist i
    let (retval, c) ← clistDelete bound elem c
    Program.modify fun H => H.store i c
    pure (some retval)

/-- An element that is added is in no list, and a list that is dequeued is not empty. -/
def Ready (ls : ι → List α) : ListOp ι α → Prop
  | .enqueue _ elem | .push _ elem => ∀ j, elem ∉ ls j
  | .dequeue i => ls i ≠ []
  | .delete _ _ => True

def act (l : List α) : ListOp ι α → List α × Option ℕ
  | .enqueue _ elem => (l ++ [elem], none)
  | .push _ elem => (elem :: l, none)
  | .dequeue _ => (l.tail, none)
  | .delete _ elem => (l.erase elem, some (if elem ∈ l then 0 else 1))

end ListOp

/-- An operation on one of the lists. -/
theorem Heap.Holds.run (h : H.Holds ls) (op : ListOp ι α) (hop : op.Ready ls)
    (hb : (ls op.list).length ≤ bound) :
    ∃ H', (op.run bound : Program (Heap ι α) χ Fault (Option ℕ)).run H =
        .ok (op.act (ls op.list)).2 H' ∧
      H'.Holds (Function.update ls op.list (op.act (ls op.list)).1) ∧
      ∀ x, x ∉ ls op.list → x ∉ op.inserted → H'.next x = H.next x := by
  cases op with
  | enqueue i e =>
      have hrepr := h.repr i
      have hframe : ∀ x, x ∉ ls i → x ∉ [e] → (clistEnqueue e (H.clist i)).link x = H.next x :=
        fun x hx hxe => clistEnqueue_link hrepr hx (by simpa using hxe)
      refine ⟨_, rfl, ?_, hframe⟩
      apply h.store (clistEnqueue_repr hrepr (hop i)) hframe
      · intro x hx
        exact List.mem_append.mp hx
      · intro x hx
        rw [List.mem_singleton.mp hx]
        exact hop
  | push i e =>
      have hrepr := h.repr i
      have hframe : ∀ x, x ∉ ls i → x ∉ [e] → (clistPush e (H.clist i)).link x = H.next x :=
        fun x hx hxe => clistPush_link hrepr hx (by simpa using hxe)
      refine ⟨_, rfl, ?_, hframe⟩
      apply h.store (clistPush_repr hrepr (hop i)) hframe
      · intro x hx
        rcases List.mem_cons.mp hx with rfl | hx
        · exact Or.inr List.mem_cons_self
        · exact Or.inl hx
      · intro x hx
        rw [List.mem_singleton.mp hx]
        exact hop
  | dequeue i =>
      obtain ⟨y, l, hl⟩ := List.exists_cons_of_ne_nil hop
      obtain ⟨c, hrun, hmoves⟩ := clistDequeue_cons (σ := Heap ι α) (χ := χ) (hl ▸ h.repr i)
      rw [← hl] at hmoves
      refine ⟨H.store i c, ?_, ?_, fun x hx _ => hmoves.frame x hx⟩
      · rw [ListOp.run, Program.run_gets_bind, Program.run_bind_ok (hrun H)]
        rfl
      · simp only [ListOp.act, ListOp.list]
        apply h.moves
        · rw [hl, List.tail_cons, ← hl]
          exact hmoves
        · intro x hx
          exact List.mem_of_mem_tail hx
  | delete i e =>
      obtain ⟨c, hrun, hmoves, -⟩ :=
        clistDelete_repr (σ := Heap ι α) (χ := χ) (e := e) (h.repr i) hb
      refine ⟨H.store i c, ?_, ?_, fun x hx _ => hmoves.frame x hx⟩
      · rw [ListOp.run, Program.run_gets_bind, Program.run_bind_ok (hrun H)]
        rfl
      · apply h.moves hmoves
        intro x hx
        exact List.mem_of_mem_erase hx

/-- Deleting a node that is not in the list changes no pointer. -/
theorem Heap.Holds.delete_absent (h : H.Holds ls) (hb : (ls i).length ≤ bound) (he : e ∉ ls i) :
    ((ListOp.delete i e).run bound : Program (Heap ι α) χ Fault (Option ℕ)).run H =
      .ok (some 1) H := by
  have hstore : H.store i (H.clist i) = H := by
    simp only [Heap.store, Heap.clist, Function.update_eq_self]
  rw [ListOp.run, Program.run_gets_bind, Program.run_bind_ok (clistDelete_absent (h.repr i) hb he)]
  simp only [Program.run_modify_bind, hstore]
  rfl

omit [DecidableEq ι] in
/-- A full `clist_foreach` over the list `i`, whose body leaves all lists alone. -/
theorem Heap.Holds.foreach {heap : σ → Heap ι α} {step : γ → α → Program σ χ Fault γ} {s : σ}
    (h : (heap s).Holds ls) (hb : (ls i).length ≤ bound)
    (hstep : ∀ v x s v' s', (step v x).run s = .ok v' s' → heap s' = heap s) (vars : γ)
    (scan tmp : Option α) :
    (clistForeach bound (fun s => (heap s).next) (fun _ => Program.gets fun s => (heap s).tail i)
      (fun v x _ => do
        let v ← step v x
        pure (.yield v)) vars scan tmp).run s =
      ((ls i).foldlM step vars >>= fun v => pure (v, if ls i = [] then scan else (ls i).head?,
        if ls i = [] then tmp else (heap s).tail i)).run s := by
  apply clistForeach_visits (P := fun s' => heap s' = heap s) (h.repr i) hb rfl
  · intro s' hs'
    rw [hs']
    rfl
  · intro s' hs' o
    rw [Program.run_gets, hs']
    rfl
  · intro s' hs' v x o
    rfl
  · intro s' hs' v x v' s'' hrun
    exact (hstep v x s' v' s'' hrun).trans hs'

/-- The macros of `clist.h` do on the lists of a memory what their names say, whatever other lists
the memory holds. -/
theorem clists_refine (h : H.Holds ls) (hb : ∀ i, (ls i).length ≤ bound) :
    (∀ op : ListOp ι α, op.Ready ls →
      ∃ H', (op.run bound : Program (Heap ι α) χ Fault (Option ℕ)).run H =
          .ok (op.act (ls op.list)).2 H' ∧
        H'.Holds (Function.update ls op.list (op.act (ls op.list)).1) ∧
        ∀ x, x ∉ ls op.list → x ∉ op.inserted → H'.next x = H.next x) ∧
    (∀ i, ∀ e ∉ ls i, ((ListOp.delete i e).run bound : Program (Heap ι α) χ Fault (Option ℕ)).run
      H =
      .ok (some 1) H) ∧
    ∀ i, (ls i).Nodup ∧ ∀ (heap : σ → Heap ι α) (step : γ → α → Program σ χ Fault γ) (s : σ),
      heap s = H → (∀ v x s v' s', (step v x).run s = .ok v' s' → heap s' = heap s) →
      ∀ vars scan tmp,
        (clistForeach bound (fun s => (heap s).next)
          (fun _ => Program.gets fun s => (heap s).tail i)
          (fun v x _ => do
            let v ← step v x
            pure (.yield v)) vars scan tmp).run s =
          ((ls i).foldlM step vars >>= fun v => pure (v, if ls i = [] then scan else (ls i).head?,
            if ls i = [] then tmp else H.tail i)).run s := by
  refine ⟨fun op hop => h.run op hop (hb _), fun i e he => h.delete_absent (hb i) he, fun i => ?_⟩
  constructor
  · exact (h.repr i).nodup
  · intro heap step s hs hstep vars scan tmp
    subst hs
    exact h.foreach (hb i) hstep vars scan tmp

def twoLists : Heap (Fin 2) (Fin 4) := ⟨![some 1, some 2], ![some 1, some 0, some 2, none]⟩

theorem twoLists_holds : twoLists.Holds ![[0, 1], [2]] where
  repr := Fin.forall_fin_two.mpr ⟨⟨by decide, rfl, rfl, rfl, rfl⟩, ⟨by decide, rfl, rfl, rfl⟩⟩
  apart := by decide

theorem clists_refine_two : ∃ H', ((ListOp.enqueue 0 3).run 4 :
    Program (Heap (Fin 2) (Fin 4)) Empty Fault (Option ℕ)).run twoLists = .ok none H' ∧
    H'.Holds (Function.update ![[0, 1], [2]] 0 [0, 1, 3]) := by
  have hb : ∀ i, ((![[0, 1], [2]] : Fin 2 → List (Fin 4)) i).length ≤ 4 := by decide
  obtain ⟨H', hrun, hholds, -⟩ := (clists_refine (σ := Unit) (γ := Unit) (χ := Empty) twoLists_holds
    hb).1 (.enqueue 0 3) (by unfold ListOp.Ready; decide)
  exact ⟨H', hrun, hholds⟩

end JaeOS
