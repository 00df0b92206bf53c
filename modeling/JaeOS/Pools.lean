import JaeOS.HeapLists
import JaeOS.PcbRep

/-!
# The PCB pool and the process queues refine a set and FIFO lists

The reference keeps the set of the free PCBs and a list for every queue. It leaves open which free
PCB is handed out.
-/

open LinkRing

namespace JaeOS

variable {ι : Type} [DecidableEq ι]

/-- The PCB table and the headers of any number of process queues. -/
structure Pool (ι : Type) where
  mem : Mem maxproc
  queue : ι → Option (Fin maxproc)

def Pool.links (s : Pool ι) : Links maxproc := s.mem.toLinks

def Pool.setLinks (s : Pool ι) (m : Links maxproc) : Pool ι :=
  { s with mem := { s.mem with toLinks := m } }

def Pool.setQueue (s : Pool ι) (i : ι) (q : Option (Fin maxproc)) : Pool ι :=
  { s with queue := Function.update s.queue i q }

def Pool.init (m : Mem maxproc) : Pool ι :=
  ⟨{ m with toLinks := initPcbs m.toLinks }, fun _ => none⟩

inductive PoolOp (ι : Type) where
  | allocPcb (tmpAddr : Word)
  | freePcb (p : Fin maxproc)
  | insertProcQ (i : ι) (p : Fin maxproc)
  | removeProcQ (i : ι)
  | outProcQ (i : ι) (p : Fin maxproc)
  | headProcQ (i : ι)

def onQueue (i : ι) (x : Option (Fin maxproc) →
    Program (Links maxproc) Empty Fault (Option (Fin maxproc) × Option (Fin maxproc))) :
    Program (Pool ι) Empty Fault (Option (Fin maxproc)) := do
  let q ← Program.gets fun s => s.queue i
  let (ret, q) ← Program.zoom Pool.links (fun m s => s.setLinks m) (x q)
  Program.modify fun s => s.setQueue i q
  pure ret

namespace PoolOp

def run : PoolOp ι → Program (Pool ι) Empty Fault (Option (Fin maxproc))
  | allocPcb tmpAddr => Program.zoom Pool.mem (fun m s => { s with mem := m })
      (JaeOS.allocPcb tmpAddr)
  | freePcb p => do
    Program.modify fun s => s.setLinks (JaeOS.freePcb p s.links)
    pure none
  | insertProcQ i p => onQueue i fun q => do
    let (q, m) ← Program.gets (JaeOS.insertProcQ q p)
    Program.modify fun _ => m
    pure (none, q)
  | removeProcQ i => onQueue i JaeOS.removeProcQ
  | outProcQ i p => onQueue i fun q => JaeOS.outProcQ q p
  | headProcQ i => onQueue i fun q => do pure (← JaeOS.headProcQ q, q)

end PoolOp

/-- The list of the free PCBs and the process queues: all are threaded through `p_list`. -/
def Pool.heap (s : Pool ι) : Heap (Option ι) (Fin maxproc) :=
  ⟨fun o => o.elim s.mem.pcbFree s.queue, s.mem.pList⟩

def Pool.Detached (s : Pool ι) (p : Fin maxproc) : Prop :=
  ∀ o, p ∉ members s.heap.next maxproc (s.heap.tail o)

/-- A PCB that is freed or inserted is allocated and in no queue. -/
def PoolOp.Allowed (s : Pool ι) : PoolOp ι → Prop
  | .freePcb p | .insertProcQ _ p => s.Detached p
  | _ => True

def runPool : List (PoolOp ι) → Program (Pool ι) Empty Fault (List (Option (Fin maxproc)))
  | [] => pure []
  | op :: ops => do
    let r ← op.run
    let rs ← runPool ops
    pure (r :: rs)

def LegalPool : List (PoolOp ι) → Pool ι → Prop
  | [], _ => True
  | op :: ops, s => op.Allowed s ∧ match op.run.run s with
    | .ok _ s' => LegalPool ops s'
    | _ => True

/-! ### The reference -/

structure RefPool (ι : Type) where
  free : Finset (Fin maxproc)
  queue : ι → List (Fin maxproc)

def RefPool.init : RefPool ι := ⟨Finset.univ, fun _ => []⟩

/-- The results the reference allows, and what they leave. -/
inductive RefPool.Step : RefPool ι → PoolOp ι → Option (Fin maxproc) → RefPool ι → Prop
  | exhausted (q : ι → List (Fin maxproc)) (tmpAddr : Word) :
      Step ⟨∅, q⟩ (.allocPcb tmpAddr) none ⟨∅, q⟩
  | allocPcb (r : RefPool ι) (tmpAddr : Word) (p : Fin maxproc) (hp : p ∈ r.free)
      (hq : ∀ i, p ∉ r.queue i) :
      Step r (.allocPcb tmpAddr) (some p) { r with free := r.free.erase p }
  | freePcb (r : RefPool ι) (p : Fin maxproc) :
      Step r (.freePcb p) none { r with free := insert p r.free }
  | insertProcQ (r : RefPool ι) (i : ι) (p : Fin maxproc) :
      Step r (.insertProcQ i p) none
        { r with queue := Function.update r.queue i (r.queue i ++ [p]) }
  | removeProcQ (r : RefPool ι) (i : ι) :
      Step r (.removeProcQ i) (r.queue i).head?
        { r with queue := Function.update r.queue i (r.queue i).tail }
  | outProcQ (r : RefPool ι) (i : ι) (p : Fin maxproc) (hp : p ∈ r.queue i) :
      Step r (.outProcQ i p) (some p)
        { r with queue := Function.update r.queue i ((r.queue i).erase p) }
  | absent (r : RefPool ι) (i : ι) (p : Fin maxproc) (hp : p ∉ r.queue i) :
      Step r (.outProcQ i p) none r
  | headProcQ (r : RefPool ι) (i : ι) : Step r (.headProcQ i) (r.queue i).head? r

inductive RefPool.Run : RefPool ι → List (PoolOp ι) → List (Option (Fin maxproc)) → RefPool ι → Prop
  | nil (r : RefPool ι) : Run r [] [] r
  | cons {r r' r'' : RefPool ι} {op : PoolOp ι} {x : Option (Fin maxproc)} {ops : List (PoolOp ι)}
      {xs : List (Option (Fin maxproc))} (h : r.Step op x r') (hs : Run r' ops xs r'') :
      Run r (op :: ops) (x :: xs) r''

/-! ### One operation -/

section Step

variable {s : Pool ι} {r : RefPool ι} {i : ι} {p : Fin maxproc} {l : List (Fin maxproc)}

def RefPool.lists (r : RefPool ι) (free : List (Fin maxproc)) (o : Option ι) : List (Fin maxproc) :=
  o.elim free r.queue

def Pool.Represents (s : Pool ι) (r : RefPool ι) : Prop :=
  ∃ free, s.heap.Holds (r.lists free) ∧ free.toFinset = r.free

theorem RefPool.lists_free (r : RefPool ι) (free : List (Fin maxproc)) (F : Finset (Fin maxproc)) :
    Function.update (r.lists free) none l = RefPool.lists { r with free := F } l := by
  funext o
  cases o with
  | none => rw [Function.update_self, RefPool.lists, Option.elim_none]
  | some i => rw [Function.update_of_ne (Option.some_ne_none i)]; rfl

theorem RefPool.lists_queue (r : RefPool ι) (free : List (Fin maxproc)) :
    Function.update (r.lists free) (some i) l =
      RefPool.lists { r with queue := Function.update r.queue i l } free := by
  funext o
  cases o with
  | none => rw [Function.update_of_ne (Option.some_ne_none i).symm]; rfl
  | some j => by_cases hj : j = i <;> simp [RefPool.lists, hj]

theorem Pool.store_free (s : Pool ι) (m : Mem maxproc) :
    s.heap.store none ⟨m.pList, m.pcbFree⟩ = Pool.heap { s with mem := m } := by
  simp only [Heap.store, Pool.heap, Heap.mk.injEq, and_true]
  funext o
  cases o with
  | none => rw [Function.update_self, Option.elim_none]
  | some j => rw [Function.update_of_ne (Option.some_ne_none j)]; rfl

theorem Pool.store_queue (s : Pool ι) (link : Fin maxproc → Option (Fin maxproc))
    (tail : Option (Fin maxproc)) :
    s.heap.store (some i) ⟨link, tail⟩ =
      Pool.heap ((s.setLinks { s.links with pList := link }).setQueue i tail) := by
  simp only [Heap.store, Pool.heap, Pool.setLinks, Pool.setQueue, Pool.links,
    Heap.mk.injEq, and_true]
  funext o
  cases o with
  | none => rw [Function.update_of_ne (Option.some_ne_none i).symm]; rfl
  | some j => by_cases hj : j = i <;> simp [hj]

theorem onQueue_run {x : Option (Fin maxproc) →
      Program (Links maxproc) Empty Fault (Option (Fin maxproc) × Option (Fin maxproc))}
    {ret q : Option (Fin maxproc)} {m : Links maxproc}
    (h : (x (s.queue i)).run s.links = .ok (ret, q) m) :
    (onQueue i x).run s = .ok ret ((s.setLinks m).setQueue i q) := by
  rw [onQueue, Program.run_gets_bind, Program.run_bind_ok (Program.run_zoom_ok h)]
  rfl

theorem Pool.setQueue_self : (s.setLinks s.links).setQueue i (s.queue i) = s := by
  rw [Pool.setQueue]
  simp only [Pool.setLinks, Pool.links, Function.update_eq_self]

omit [DecidableEq ι] in
theorem Pool.Represents.detached (h : s.Represents r) (hp : s.Detached p) :
    p ∉ r.free ∧ ∀ i, p ∉ r.queue i := by
  obtain ⟨free, hheld, hfree⟩ := h
  have hmem : ∀ o, members s.heap.next maxproc (s.heap.tail o) = r.lists free o := by
    intro o
    apply Ring.members_eq (hheld.repr o)
    exact (hheld.length_le o).trans_eq (Fintype.card_fin maxproc)
  constructor
  · intro hpf
    rw [← hfree, List.mem_toFinset] at hpf
    apply hp none
    rw [hmem]
    exact hpf
  · intro i hpi
    apply hp (some i)
    rw [hmem]
    exact hpi

/-- What is left when the queue `i` is rewritten. -/
theorem Pool.Represents.setQueue (h : s.Represents r) {c : Clist (Fin maxproc)}
    {m : List (Fin maxproc)}
    (hc : c.Repr l) (hframe : ∀ x, x ∉ r.queue i → x ∉ m → c.link x = s.links.pList x)
    (hl : ∀ x ∈ l, x ∈ r.queue i ∨ x ∈ m) (hm : ∀ x ∈ m, x ∉ r.free ∧ ∀ j, x ∉ r.queue j) :
    ((s.setLinks { s.links with pList := c.link }).setQueue i c.tail).Represents
      { r with queue := Function.update r.queue i l } := by
  obtain ⟨free, hheld, hfree⟩ := h
  refine ⟨free, ?_, hfree⟩
  rw [← Pool.store_queue, ← RefPool.lists_queue]
  apply hheld.store (i := some i) (c := ⟨c.link, c.tail⟩) hc hframe hl
  intro x hx o
  obtain ⟨hxf, hxq⟩ := hm x hx
  cases o with
  | none =>
      rw [← hfree, List.mem_toFinset] at hxf
      exact hxf
  | some j => exact hxq j

/-- One operation gives a result the reference allows and leaves what the reference has then. -/
theorem PoolOp.run_refines (h : s.Represents r) {op : PoolOp ι} (hop : op.Allowed s) :
    ∃ x s' r', op.run.run s = .ok x s' ∧ r.Step op x r' ∧ s'.Represents r' := by
  obtain ⟨free, hheld, hfree⟩ := id h
  have hpool : Ring s.mem.pList s.mem.pcbFree free := hheld.repr none
  have hqueue : ∀ i, Ring s.links.pList (s.queue i) (r.queue i) := fun i => hheld.repr (some i)
  cases op with
  | allocPcb tmpAddr =>
      cases free with
      | nil =>
          have hr : r = ⟨∅, r.queue⟩ := by
            obtain ⟨F, Q⟩ := r
            obtain rfl : ∅ = F := hfree
            rfl
          refine ⟨none, s, r, Program.run_zoom_ok (allocPcb_nil hpool tmpAddr), ?_, h⟩
          rw [hr]
          exact .exhausted r.queue tmpAddr
      | cons p l =>
          obtain ⟨link, tail, hrun, hring, hframe⟩ := allocPcb_run (χ := Empty) hpool tmpAddr
          have hpl := (List.nodup_cons.mp hpool.nodup).1
          refine ⟨some p, _, _, Program.run_zoom_ok hrun, .allocPcb r tmpAddr p ?_ ?_, l, ?_, ?_⟩
          · rw [← hfree]
            simp
          · intro i hi
            exact Option.some_ne_none i (hheld.apart (some i) none p hi List.mem_cons_self)
          · rw [← Pool.store_free, ← RefPool.lists_free]
            apply hheld.store (i := none) (c := ⟨Function.update link p none, tail⟩) (m := []) hring
            · intro x hx _
              have hxp : x ≠ p := fun he => hx (he ▸ List.mem_cons_self)
              exact (Function.update_of_ne hxp ..).trans (hframe x hx)
            · intro x hx
              exact Or.inl (List.mem_cons_of_mem p hx)
            · simp
          · rw [← hfree, List.toFinset_cons, Finset.erase_insert (by simpa using hpl)]
  | freePcb p =>
      obtain ⟨hpf, hpq⟩ := h.detached hop
      rw [← hfree, List.mem_toFinset] at hpf
      refine ⟨none, _, _, rfl, .freePcb r p, free ++ [p], ?_, ?_⟩
      · rw [← RefPool.lists_free]
        change (Pool.heap { s with mem := { s.mem with toLinks := JaeOS.freePcb p s.links } }).Holds
          _
        rw [← Pool.store_free]
        apply hheld.store (i := none) (m := [p]) (freePcb_ring hpool hpf)
        · intro x hx hxp
          exact freePcb_pList hpool hx (by simpa using hxp)
        · intro x hx
          exact List.mem_append.mp hx
        · intro x hx o
          rw [List.mem_singleton.mp hx]
          cases o with
          | none => exact hpf
          | some j => exact hpq j
      · rw [List.toFinset_append, hfree]
        ext x
        simp
  | insertProcQ i p =>
      obtain ⟨hpf, hpq⟩ := h.detached hop
      refine ⟨none, _, _, onQueue_run rfl, .insertProcQ r i p, ?_⟩
      apply h.setQueue (c := clistEnqueue p ⟨s.links.pList, s.queue i⟩) (m := [p])
        (insertProcQ_ring (hqueue i) (hpq i))
      · intro x hx hxp
        exact insertProcQ_pList (hqueue i) hx (by simpa using hxp)
      · intro x hx
        exact List.mem_append.mp hx
      · intro x hx
        rw [List.mem_singleton.mp hx]
        exact ⟨hpf, hpq⟩
  | removeProcQ i =>
      cases hq : r.queue i with
      | nil =>
          have hrun := onQueue_run (removeProcQ_nil (χ := Empty) (hq ▸ hqueue i))
          rw [Pool.setQueue_self] at hrun
          have hstep := RefPool.Step.removeProcQ r i
          rw [hq, List.tail_nil, ← hq, Function.update_eq_self, hq] at hstep
          exact ⟨none, s, r, hrun, hstep, h⟩
      | cons p l =>
          obtain ⟨link, tail, hrun, hring, hframe⟩ := removeProcQ_run (χ := Empty) (hq ▸ hqueue i)
          have hstep := RefPool.Step.removeProcQ r i
          rw [hq, List.tail_cons] at hstep
          refine ⟨some p, _, _, onQueue_run hrun, hstep, ?_⟩
          apply h.setQueue (c := ⟨link, tail⟩) (m := []) hring
          · intro x hx _
            exact hframe x (hq ▸ hx)
          · intro x hx
            rw [hq]
            exact Or.inl (List.mem_cons_of_mem p hx)
          · simp
  | outProcQ i p =>
      obtain ⟨c, -, hmoves, habsent, hrun⟩ := outProcQ_delete (χ := Empty) (hqueue i) p
      by_cases hp : p ∈ r.queue i
      · rw [if_pos hp] at hrun
        refine ⟨some p, _, _, onQueue_run hrun, .outProcQ r i p hp, ?_⟩
        apply h.setQueue (m := []) hmoves.repr
        · intro x hx _
          exact hmoves.frame x hx
        · intro x hx
          exact Or.inl (List.mem_of_mem_erase hx)
        · simp
      · have hself := onQueue_run (x := fun q => JaeOS.outProcQ q p) (outProcQ_absent (hqueue i) hp)
        rw [Pool.setQueue_self] at hself
        exact ⟨none, s, r, hself, .absent r i p hp, h⟩
  | headProcQ i =>
      have hhead : (do pure (← JaeOS.headProcQ (s.queue i), s.queue i) :
          Program (Links maxproc) Empty Fault _).run s.links =
          .ok ((r.queue i).head?, s.queue i) s.links := by
        rw [Program.run_bind_ok (headProcQ_run (hqueue i))]
        rfl
      have hrun := onQueue_run (x := fun q => do pure (← JaeOS.headProcQ q, q)) hhead
      rw [Pool.setQueue_self] at hrun
      exact ⟨_, s, r, hrun, .headProcQ r i, h⟩

end Step

/-! ### Sequences of operations -/

omit [DecidableEq ι] in
theorem Pool.init_represents (m : Mem maxproc) :
    (Pool.init m : Pool ι).Represents RefPool.init := by
  refine ⟨List.finRange maxproc, ⟨fun o => ?_, fun o o' x ho ho' => ?_⟩,
    List.toFinset_finRange maxproc⟩
  · cases o with
    | none => exact tableLink_ring
    | some i => exact ring_nil
  · cases o with
    | none =>
        cases o' with
        | none => rfl
        | some j => cases ho'
    | some i => cases ho

theorem runPool_refines (ops : List (PoolOp ι)) {s : Pool ι} {r : RefPool ι} (h : s.Represents r)
    (hlegal : LegalPool ops s) :
    ∃ xs s' r', (runPool ops).run s = .ok xs s' ∧ r.Run ops xs r' ∧ s'.Represents r' := by
  induction ops generalizing s r with
  | nil => exact ⟨[], s, r, rfl, .nil r, h⟩
  | cons op ops ih =>
      obtain ⟨hop, hrest⟩ := hlegal
      obtain ⟨x, s₁, r₁, hrun, hstep, hrep⟩ := PoolOp.run_refines h hop
      rw [hrun] at hrest
      obtain ⟨xs, s₂, r₂, hruns, hsteps, hrep'⟩ := ih hrep hrest
      refine ⟨x :: xs, s₂, r₂, ?_, .cons hstep hsteps, hrep'⟩
      rw [runPool, Program.run_bind_ok hrun, Program.run_bind_ok hruns]
      rfl

/-- After `initPcbs` every sequence of calls gives results that the reference allows, and leaves its
set of free PCBs and its queues behind the pointers. -/
theorem pool_refines (m : Mem maxproc) (ops : List (PoolOp ι))
    (hlegal : LegalPool ops (Pool.init m)) :
    ∃ xs s r, (runPool ops).run (Pool.init m) = .ok xs s ∧ RefPool.init.Run ops xs r ∧
      s.Represents r :=
  runPool_refines ops (Pool.init_represents m) hlegal

instance [Fintype ι] (s : Pool ι) (op : PoolOp ι) : Decidable (op.Allowed s) := by
  cases op
  case freePcb p => exact inferInstanceAs (Decidable (∀ o : Option ι, _))
  case insertProcQ i p => exact inferInstanceAs (Decidable (∀ o : Option ι, _))
  all_goals exact inferInstanceAs (Decidable True)

instance LegalPool.instDecidable [Fintype ι] :
    ∀ (ops : List (PoolOp ι)) s, Decidable (LegalPool ops s)
  | [], _ => inferInstanceAs (Decidable True)
  | op :: ops, s => by
    have hrest : Decidable (match op.run.run s with
        | .ok _ s' => LegalPool ops s'
        | _ => True) := by
      cases op.run.run s
      case ok x s' => exact LegalPool.instDecidable ops s'
      all_goals exact inferInstanceAs (Decidable True)
    exact inferInstanceAs (Decidable (op.Allowed s ∧ _))

/-- Two queues; a process goes through both and is freed. -/
theorem pool_refines_two :
    let ops : List (PoolOp (Fin 2)) :=
      [.allocPcb 0, .insertProcQ 0 0, .allocPcb 0, .insertProcQ 0 1,
      .headProcQ 0, .outProcQ 0 1, .insertProcQ 1 1, .removeProcQ 0, .outProcQ 1 0, .freePcb 0]
    ∃ xs s r, (runPool ops).run (Pool.init (Mem.zero maxproc)) = .ok xs s ∧
      RefPool.init.Run ops xs r ∧ s.Represents r := by
  intro ops
  exact pool_refines (Mem.zero maxproc) ops (by decide +kernel)

end JaeOS
