import JaeOS.FamilyTree
import JaeOS.HeapLists
import JaeOS.PcbRep

/-!
# The pointers of the process tree refine a family tree

`p_parent`, `p_children` and `p_siblings` are kept by `insertChild`, `removeChild` and `outChild`;
PCBs come from `allocPcb`.
-/

open LinkRing

namespace JaeOS

inductive TreeOp where
  | allocPcb (tmpAddr : Word)
  | insertChild (parent p : Fin maxproc)
  | removeChild (p : Fin maxproc)
  | outChild (p : Fin maxproc)

def onTables {α : Type} (x : Program (Links maxproc) Empty Fault α) :
    Program (Mem maxproc) Empty Fault α :=
  Program.zoom Mem.toLinks (fun l m => { m with toLinks := l }) x

namespace TreeOp

def run : TreeOp → Program (Mem maxproc) Empty Fault (Option (Fin maxproc))
  | allocPcb tmpAddr => JaeOS.allocPcb tmpAddr
  | insertChild parent p => onTables do
    Program.modify (JaeOS.insertChild parent p)
    pure none
  | removeChild p => onTables (JaeOS.removeChild p)
  | outChild p => onTables (JaeOS.outChild p)

def Allocated (m : Mem maxproc) (p : Fin maxproc) : Prop := p ∉ members m.pList maxproc m.pcbFree

instance (m : Mem maxproc) (p : Fin maxproc) : Decidable (Allocated m p) :=
  inferInstanceAs (Decidable (p ∉ members m.pList maxproc m.pcbFree))

/-- A process that gets a parent has none, and the parent is not in its subtree. -/
def Allowed (m : Mem maxproc) : TreeOp → Prop
  | insertChild parent p => Allocated m parent ∧ Allocated m p ∧ m.pParent p = none ∧
      ¬ Relation.ReflTransGen (fun c q => m.pParent c = some q) parent p
  | _ => True

end TreeOp

def runTree : List TreeOp → Program (Mem maxproc) Empty Fault (List (Option (Fin maxproc)))
  | [] => pure []
  | op :: ops => do
    let r ← op.run
    let rs ← runTree ops
    pure (r :: rs)

def LegalTree : List TreeOp → Mem maxproc → Prop
  | [], _ => True
  | op :: ops, m => op.Allowed m ∧ match op.run.run m with
    | .ok _ m' => LegalTree ops m'
    | _ => True

/-! ### The reference -/

structure RefTree where
  free : Finset (Fin maxproc)
  tree : FamilyTree (Fin maxproc)

def RefTree.init : RefTree := ⟨Finset.univ, .orphans⟩

/-- The results the reference allows, and what they leave. -/
inductive RefTree.Step : RefTree → TreeOp → Option (Fin maxproc) → RefTree → Prop
  | exhausted (t : FamilyTree (Fin maxproc)) (tmpAddr : Word) :
      Step ⟨∅, t⟩ (.allocPcb tmpAddr) none ⟨∅, t⟩
  | allocPcb (r : RefTree) (tmpAddr : Word) (p : Fin maxproc) (hp : p ∈ r.free) :
      Step r (.allocPcb tmpAddr) (some p) { r with free := r.free.erase p }
  | insertChild (r : RefTree) (q p : Fin maxproc) (hp : r.tree.parent p = none)
      (hq : ¬ r.tree.Under q p) :
      Step r (.insertChild q p) none { r with tree := r.tree.adopt q p hp hq }
  | removeChild (r : RefTree) (p c : Fin maxproc) (hc : (r.tree.children p).head? = some c) :
      Step r (.removeChild p) (some c) { r with tree := r.tree.detach c }
  | childless (r : RefTree) (p : Fin maxproc) (hp : r.tree.children p = []) :
      Step r (.removeChild p) none r
  | outChild (r : RefTree) (p q : Fin maxproc) (hp : r.tree.parent p = some q) :
      Step r (.outChild p) (some p) { r with tree := r.tree.detach p }
  | root (r : RefTree) (p : Fin maxproc) (hp : r.tree.parent p = none) : Step r (.outChild p) none r

inductive RefTree.Run : RefTree → List TreeOp → List (Option (Fin maxproc)) → RefTree → Prop
  | nil (r : RefTree) : Run r [] [] r
  | cons {r r' r'' : RefTree} {op : TreeOp} {x : Option (Fin maxproc)} {ops : List TreeOp}
      {xs : List (Option (Fin maxproc))} (h : r.Step op x r') (hs : Run r' ops xs r'') :
      Run r (op :: ops) (x :: xs) r''

/-! ### One operation -/

section Step

variable {m : Mem maxproc} {r : RefTree} {p : Fin maxproc}

def Links.offspring (m : Links maxproc) : Heap (Fin maxproc) (Fin maxproc) :=
  ⟨m.pChildren, m.pSiblings⟩

/-- The pointers represent the reference; a free PCB has no relatives. -/
structure Spells (m : Mem maxproc) (r : RefTree) (free : List (Fin maxproc)) : Prop where
  pool : Ring m.pList m.pcbFree free
  unused : free.toFinset = r.free
  parent : m.pParent = r.tree.parent
  children : m.offspring.Holds r.tree.children
  single : ∀ p ∈ free, r.tree.parent p = none ∧ r.tree.children p = []

variable {free : List (Fin maxproc)}

theorem Spells.allocated (h : Spells m r free) (hp : TreeOp.Allocated m p) : p ∉ free := by
  rwa [TreeOp.Allocated, Ring.members_eq h.pool (queue_length_le h.pool)] at hp

/-- What an operation has left that keeps to the tree. -/
theorem Spells.relink {t : FamilyTree (Fin maxproc)} {l : Links maxproc} (h : Spells m r free)
    (hlist : l.pList = m.pList) (hfree : l.pcbFree = m.pcbFree) (hparent : l.pParent = t.parent)
    (hchildren : l.offspring.Holds t.children)
    (hsingle : ∀ p ∈ free, t.parent p = none ∧ t.children p = []) :
    Spells { m with toLinks := l } { r with tree := t } free where
  pool := by
    rw [hlist, hfree]
    exact h.pool
  unused := h.unused
  parent := hparent
  children := hchildren
  single := hsingle

theorem Spells.alloc (h : Spells m r free) (tmpAddr : Word) :
    ∃ x m' r' free', (TreeOp.allocPcb tmpAddr).run.run m = .ok x m' ∧
      r.Step (.allocPcb tmpAddr) x r' ∧ Spells m' r' free' ∧ (x = none → m' = m) := by
  cases free with
  | nil =>
      have hr : r = ⟨∅, r.tree⟩ := by
        obtain ⟨F, t⟩ := r
        obtain rfl : ∅ = F := h.unused
        rfl
      refine ⟨none, m, r, [], allocPcb_nil h.pool tmpAddr, ?_, h, fun _ => rfl⟩
      rw [hr]
      exact .exhausted r.tree tmpAddr
  | cons p l =>
      obtain ⟨link, tail, hrun, hring, -⟩ := allocPcb_run (χ := Empty) h.pool tmpAddr
      have hpl := (List.nodup_cons.mp h.pool.nodup).1
      obtain ⟨hparent, hchildren⟩ := h.single p List.mem_cons_self
      refine ⟨some p, _, _, l, hrun, .allocPcb r tmpAddr p ?_, ⟨hring, ?_, ?_, ⟨?_, ?_⟩, ?_⟩,
        fun hx => absurd hx (Option.some_ne_none p)⟩
      · rw [← h.unused]
        simp
      · rw [← h.unused, List.toFinset_cons, Finset.erase_insert (by simpa using hpl)]
      · have hp : m.pParent p = none := by rw [h.parent, hparent]
        rw [← h.parent]
        exact Function.update_eq_self_iff.mpr hp.symm
      · intro q
        have hpq := FamilyTree.not_mem_children hparent q
        have hring' : Ring (Function.update m.pSiblings p none) (m.pChildren q)
            (r.tree.children q) :=
          Ring.update (h.children.repr q) hpq
        have htail : Function.update m.pChildren p none q = m.pChildren q := by
          by_cases hq : q = p
          · subst hq
            rw [hchildren] at hring'
            rw [Function.update_self, hring'.tail_none_iff.mpr rfl]
          · exact Function.update_of_ne hq ..
        rw [← htail] at hring'
        exact hring'
      · exact h.children.apart
      · intro q hq
        exact h.single q (List.mem_cons_of_mem p hq)

/-- A process leaves its parent, wherever it stands among its siblings. -/
theorem Spells.detach {c q : Fin maxproc} {link : Fin maxproc → Option (Fin maxproc)}
    {tail : Option (Fin maxproc)} (h : Spells m r free) (hc : r.tree.parent c = some q)
    (hring : Ring link tail ((r.tree.children q).erase c))
    (hframe : ∀ x ∉ r.tree.children q, link x = m.pSiblings x) :
    Spells { m with
      pParent := Function.update m.pParent c none
      pSiblings := link
      pChildren := Function.update m.pChildren q tail }
      { r with tree := r.tree.detach c } free := by
  apply h.relink (l := { m.toLinks with
    pParent := Function.update m.pParent c none
    pSiblings := link
    pChildren := Function.update m.pChildren q tail }) rfl rfl
  · rw [h.parent]
    rfl
  · rw [FamilyTree.detach_children hc]
    apply h.children.store (c := ⟨link, tail⟩) (m := []) hring
    · intro x hx _
      exact hframe x hx
    · intro x hx
      exact Or.inl (List.mem_of_mem_erase hx)
    · simp
  · intro p hp
    obtain ⟨hparent, hchildren⟩ := h.single p hp
    have hpc : p ≠ c := by
      intro hpc
      rw [hpc, hc] at hparent
      cases hparent
    constructor
    · exact (Function.update_of_ne hpc ..).trans hparent
    · have herase : (r.tree.children p).erase c = [] := by rw [hchildren, List.erase_nil]
      exact herase

theorem Spells.adopt {q p : Fin maxproc} (h : Spells m r free)
    (hallowed : (TreeOp.insertChild q p).Allowed m) :
    ∃ r', r.Step (.insertChild q p) none r' ∧
      Spells { m with toLinks := insertChild q p m.toLinks } r' free := by
  obtain ⟨hq, hp, hparent, hunder⟩ := hallowed
  have hqf := h.allocated hq
  have hpf := h.allocated hp
  rw [h.parent] at hparent hunder
  have hpq := FamilyTree.not_mem_children hparent
  have hring := h.children.repr q
  refine ⟨_, .insertChild r q p hparent hunder, h.relink rfl rfl ?_ ?_ ?_⟩
  · simp only [insertChild, h.parent]
    rfl
  · apply h.children.store (i := q) (m := [p]) (c := clistEnqueue p ⟨m.pSiblings, m.pChildren q⟩)
      (clistEnqueue_repr hring (hpq q))
    · intro x hx hxp
      exact clistEnqueue_link hring hx (by simpa using hxp)
    · intro x hx
      exact List.mem_append.mp hx
    · intro x hx
      rw [List.mem_singleton.mp hx]
      exact hpq
  · intro x hx
    obtain ⟨hxparent, hxchildren⟩ := h.single x hx
    have hxp : x ≠ p := fun he => hpf (he ▸ hx)
    have hxq : x ≠ q := fun he => hqf (he ▸ hx)
    constructor
    · exact (Function.update_of_ne hxp ..).trans hxparent
    · exact (Function.update_of_ne hxq ..).trans hxchildren

theorem onTables_run {x : Program (Links maxproc) Empty Fault (Option (Fin maxproc))}
    {ret : Option (Fin maxproc)} {l : Links maxproc} (h : x.run m.toLinks = .ok ret l) :
    (onTables x).run m = .ok ret { m with toLinks := l } :=
  Program.run_zoom_ok h

/-- An operation that only `allocPcb` may let touch the lists of `p_list`, and that changes nothing
when it gives NULL, unless it is `insertChild`, which has no value. -/
def TreeOp.Tidy (op : TreeOp) (x : Option (Fin maxproc)) (m m' : Mem maxproc) : Prop :=
  match op with
  | .allocPcb _ => x = none → m' = m
  | .insertChild _ _ => m'.pList = m.pList ∧ m'.pcbFree = m.pcbFree
  | .removeChild _ | .outChild _ => m'.pList = m.pList ∧ m'.pcbFree = m.pcbFree ∧
      (x = none → m' = m)

/-- One operation gives the result of the reference and leaves its tree behind the pointers. -/
theorem TreeOp.run_refines (h : Spells m r free) {op : TreeOp} (hop : op.Allowed m) :
    ∃ x m' r' free', op.run.run m = .ok x m' ∧ r.Step op x r' ∧ Spells m' r' free' ∧
      op.Tidy x m m' := by
  cases op with
  | allocPcb tmpAddr => exact h.alloc tmpAddr
  | insertChild q p =>
      obtain ⟨r', hstep, hrep⟩ := h.adopt hop
      exact ⟨none, _, r', free, rfl, hstep, hrep, rfl, rfl⟩
  | removeChild p =>
      have hring := h.children.repr p
      cases hc : r.tree.children p with
      | nil =>
          rw [hc] at hring
          exact ⟨none, m, r, free, onTables_run (removeChild_nil hring), .childless r p hc, h, rfl,
            rfl, fun _ => rfl⟩
      | cons c l =>
          rw [hc] at hring
          obtain ⟨link, tail, hrun, hring', hframe, -⟩ := removeChild_run (χ := Empty) hring
          have hparent : r.tree.parent c = some p := by
            rw [← r.tree.mem_children, hc]
            exact List.mem_cons_self
          refine ⟨some c, _, _, free, onTables_run hrun, .removeChild r p c (by rw [hc]; rfl), ?_,
            rfl, rfl, fun hx => absurd hx (Option.some_ne_none c)⟩
          apply h.detach hparent
          · rw [hc, List.erase_cons_head]
            exact hring'
          · rw [hc]
            exact hframe
  | outChild p =>
      cases hp : r.tree.parent p with
      | none =>
          have hparent : m.pParent p = none := by rw [h.parent, hp]
          exact ⟨none, m, r, free, onTables_run (outChild_root hparent), .root r p hp, h, rfl, rfl,
            fun _ => rfl⟩
      | some q =>
          have hparent : m.pParent p = some q := by rw [h.parent, hp]
          obtain ⟨link, tail, hrun, hring', hframe, -⟩ :=
            outChild_run (χ := Empty) hparent (h.children.repr q)
          exact ⟨some p, _, _, free, onTables_run hrun, .outChild r p q hp,
            h.detach hp hring' hframe,
            rfl, rfl, fun hx => absurd hx (Option.some_ne_none p)⟩

end Step

/-! ### Sequences of operations -/

def Mem.initPcbs (m : Mem maxproc) : Mem maxproc := { m with toLinks := JaeOS.initPcbs m.toLinks }

theorem initPcbs_spells {m : Mem maxproc}
    (hstatic : ∀ p, m.pParent p = none ∧ m.pChildren p = none) :
    Spells m.initPcbs RefTree.init (List.finRange maxproc) where
  pool := tableLink_ring
  unused := List.toFinset_finRange maxproc
  parent := funext fun p => (hstatic p).1
  children := by
    refine ⟨fun q => ?_, fun i j x hi _ => by cases hi⟩
    have htail : m.initPcbs.offspring.tail q = none := (hstatic q).2
    unfold Heap.clist
    rw [htail]
    exact ring_nil
  single _ _ := ⟨rfl, rfl⟩

theorem runTree_refines (ops : List TreeOp) {m : Mem maxproc} {r : RefTree}
    {free : List (Fin maxproc)}
    (h : Spells m r free) (hlegal : LegalTree ops m) :
    ∃ xs m' r' free', (runTree ops).run m = .ok xs m' ∧ r.Run ops xs r' ∧ Spells m' r' free' := by
  induction ops generalizing m r free with
  | nil => exact ⟨[], m, r, free, rfl, .nil r, h⟩
  | cons op ops ih =>
      obtain ⟨hop, hrest⟩ := hlegal
      obtain ⟨x, m₁, r₁, free₁, hrun, hstep, hrep, -⟩ := TreeOp.run_refines h hop
      rw [hrun] at hrest
      obtain ⟨xs, m₂, r₂, free₂, hruns, hsteps, hrep'⟩ := ih hrep hrest
      refine ⟨x :: xs, m₂, r₂, free₂, ?_, .cons hstep hsteps, hrep'⟩
      rw [runTree, Program.run_bind_ok hrun, Program.run_bind_ok hruns]
      rfl

/-- After `initPcbs` every sequence of calls gives the results of the reference and leaves a forest
behind the pointers, and so does every further call, which leaves the lists of `p_list` alone unless
it is `allocPcb`. -/
theorem tree_refines (m₀ : Mem maxproc) (hstatic : ∀ p, m₀.pParent p = none ∧ m₀.pChildren p = none)
    (ops : List TreeOp) (hlegal : LegalTree ops m₀.initPcbs) :
    ∃ xs m r, (runTree ops).run m₀.initPcbs = .ok xs m ∧ RefTree.init.Run ops xs r ∧
      m.pParent = r.tree.parent ∧
      (∀ q, Ring m.pSiblings (m.pChildren q) (r.tree.children q)) ∧
      (∀ c q, m.pParent c = some q ↔ c ∈ r.tree.children q) ∧
      (∀ x, ¬ Relation.TransGen (fun c q => m.pParent c = some q) x x) ∧
      ∀ op : TreeOp, op.Allowed m → ∃ x m' r', op.run.run m = .ok x m' ∧ r.Step op x r' ∧
        op.Tidy x m m' := by
  obtain ⟨xs, m, r, free, hrun, hsteps, hrep⟩ :=
    runTree_refines ops (initPcbs_spells hstatic) hlegal
  refine ⟨xs, m, r, hrun, hsteps, hrep.parent, hrep.children.repr, fun c q => ?_, ?_,
    fun op hop => ?_⟩
  · rw [hrep.parent, r.tree.mem_children]
  · rw [hrep.parent]
    exact r.tree.acyclic
  · obtain ⟨x, m', r', -, hrun', hstep, -, htidy⟩ := TreeOp.run_refines hrep hop
    exact ⟨x, m', r', hrun', hstep, htidy⟩

/-- A parent without a parent is in no other subtree. -/
theorem not_under_root {m : Mem maxproc} {q p : Fin maxproc} (hq : m.pParent q = none)
    (hqp : q ≠ p) :
    ¬ Relation.ReflTransGen (fun c q => m.pParent c = some q) q p := by
  intro h
  rcases Relation.ReflTransGen.cases_head h with rfl | ⟨c, hc, -⟩
  · exact hqp rfl
  · rw [hq] at hc
    cases hc

/-- Three processes; the younger child of the first leaves, and then the older. -/
theorem tree_refines_three :
    let ops : List TreeOp :=
      [.allocPcb 0, .allocPcb 0, .allocPcb 0, .insertChild 0 1, .insertChild 0 2,
      .outChild 2, .removeChild 0, .outChild 1]
    ∃ xs m r, (runTree ops).run (Mem.zero maxproc).initPcbs = .ok xs m ∧
      RefTree.init.Run ops xs r ∧ m.pParent = r.tree.parent := by
  intro ops
  have hlegal : LegalTree ops (Mem.zero maxproc).initPcbs :=
    And.intro trivial <| And.intro trivial <| And.intro trivial <|
      And.intro ⟨by decide +kernel, by decide +kernel, rfl, not_under_root rfl (by decide)⟩ <|
      And.intro ⟨by decide +kernel, by decide +kernel, rfl, not_under_root rfl (by decide)⟩ <|
      And.intro trivial <| And.intro trivial <| And.intro trivial trivial
  obtain ⟨xs, m, r, hrun, hsteps, hparent, -⟩ :=
    tree_refines (Mem.zero maxproc) (fun _ => ⟨rfl, rfl⟩) ops hlegal
  exact ⟨xs, m, r, hrun, hsteps, hparent⟩

end JaeOS
