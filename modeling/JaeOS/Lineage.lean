import JaeOS.Board
import JaeOS.Outcomes

/-!
# Ancestors

The tree of the processes over whole runs. A process is the child of the process that has made it as
long as it lives, everybody descends from the first process, and nobody is killed but by itself or
by an ancestor, together with everybody who descends from the victim.
-/

open LinkRing LinkForest Transition

namespace JaeOS

def Kernel.Lives (k : Kernel) (p : Pcb) : Prop := p ∉ freeList k

def noteMaker (s : Sys) (_ : Event) (s' : Sys) (maker : Pcb → Option Pcb) : Pcb → Option Pcb :=
  fun p =>
  if p ∈ freeList s.kernel ∧ p ∉ freeList s'.kernel then s.kernel.currentProcess else maker p

/-- `p` is `q`, or `q` made it, or one of those who made one another down to it. -/
def Issue (maker : Pcb → Option Pcb) : Pcb → Pcb → Prop :=
  Relation.ReflTransGen fun q p => maker p = some q

/-- The tree is what the creations so far have made of it. -/
structure Lineage (k : Kernel) (maker : Pcb → Option Pcb) : Prop where
  parent : ∀ p, k.Lives p → k.pParent p = maker p
  maker_lives : ∀ p q, k.Lives p → maker p = some q → k.Lives q
  first : ∀ p, k.Lives p → (maker p = none ↔ p = 0)
  descends : ∀ p, k.Lives p → p ∈ killed k 0

section Trees

variable [Platform] {κ κ' : Core} {v v' : View} {act : Act} {s s' : Sys} {e : Event} {c p t : Pcb}
  {f : Forest Pcb}

/-- What an entry does to the tree while `κ.currentProcess` runs: nothing, or it makes a child of
that process, or kills the process or a descendant of it. -/
inductive Grows (κ : Core) (f : Forest Pcb) : Option Pcb → Forest Pcb → Prop where
  | same : Grows κ f none f
  | birth {c p : Pcb} (hc : κ.currentProcess = some c) (hcf : c ∈ f.nodes) (hp : p ∉ f.nodes) :
      Grows κ f none (f.addChild c p)
  | death {c t : Pcb} {cs ts : Forest Pcb} (hc : κ.currentProcess = some c)
      (hcs : Forest.Has c cs f)
      (hts : Forest.Has t ts f) (hct : t = c ∨ t ∈ cs.nodes) : Grows κ f (some t) (f.remove t)

omit [Platform] in
theorem Rep.lives_iff {k : Kernel} (h : Rep k.core v) : k.Lives p ↔ p ∈ v.tree.nodes := by
  rw [Kernel.Lives, h.freeList_eq, h.lists.mem_free, h.mem_tree]

/-- A system call or a trap kills its process or a descendant of it. -/
theorem syscallAct_victim {st : State} (hact : syscallAct κ c st = some (.terminate t)) :
    t = c ∨ t ∈ descend κ.links.family maxproc maxproc c := by
  have hspecify : ∀ x, specifyAct κ c x = some (.terminate t) → t = c := fun x h =>
    Act.terminate.inj (specifyAct_eq h)
  unfold syscallAct at hact
  split at hact
  · split at hact
    · exact Or.inl (Act.terminate.inj (trapAct_eq hact))
    unfold serviceAct at hact
    split at hact
    · cases hact
    split at hact
    · obtain ⟨u, hu, he⟩ := Option.map_eq_some_iff.mp hact
      obtain rfl := Act.terminate.inj he
      unfold terminated at hu
      split at hu
      · exact Or.inl (Option.some.inj hu).symm
      · exact Or.inr (List.mem_of_find?_eq_some hu)
    split at hact
    · unfold semAct at hact
      split at hact
      · cases hact
      split at hact
      · exact Or.inl (Act.terminate.inj (Option.some.inj hact)).symm
      split at hact <;> cases hact
    split at hact
    · exact Or.inl (hspecify _ hact)
    split at hact
    · exact Or.inl (hspecify _ hact)
    split at hact
    · exact Or.inl (hspecify _ hact)
    split at hact
    · cases hact
    split at hact <;> cases hact
  · exact Or.inl (Act.terminate.inj (trapAct_eq hact))

theorem Event.act_victim (h : Rep s.kernel.core v) (hact : e.act s.kernel = some (.terminate t)) :
    ∃ c cs, s.kernel.currentProcess = some c ∧ Forest.Has c cs v.tree ∧ (t = c ∨ t ∈ cs.nodes) := by
  have hanc : ∀ c, s.kernel.currentProcess = some c →
      t = c ∨ t ∈ descend s.kernel.core.links.family maxproc maxproc c →
      ∃ c cs, s.kernel.currentProcess = some c ∧ Forest.Has c cs v.tree ∧
      (t = c ∨ t ∈ cs.nodes) := by
    intro c hc ht
    obtain ⟨cs, hcs⟩ := Forest.exists_has (h.current c hc).2
    refine ⟨c, cs, hc, hcs, ht.imp_right fun hmem => ?_⟩
    rw [← h.progeny_eq hcs]
    exact hmem
  cases e with
  | dispatch => cases hact
  | interrupt hw => cases hact
  | syscall hw =>
      obtain ⟨c, hc, hact⟩ := Option.bind_eq_some_iff.mp hact
      exact hanc c hc (syscallAct_victim hact)
  | pgmtrap hw =>
      obtain ⟨c, hc, hact⟩ := Option.bind_eq_some_iff.mp hact
      exact hanc c hc (Or.inl (Act.terminate.inj (trapAct_eq hact)))
  | tlb hw =>
      obtain ⟨c, hc, hact⟩ := Option.bind_eq_some_iff.mp hact
      exact hanc c hc (Or.inl (Act.terminate.inj (trapAct_eq hact)))

theorem Move.internal_tree (hm : Move act v v') (hact : act.internal) : v'.tree = v.tree := by
  cases hm with
  | full => rfl
  | create => cases hact
  | terminate => cases hact
  | pass => rfl
  | block => rfl
  | verhogen => exact wakeAll_tree
  | noSignal => rfl
  | signal => exact wakeAll_tree
  | requeue => rfl
  | load => rfl

/-- Every entry grows the tree in one of the three ways. -/
theorem Sys.step_grows (h : Rep s.kernel.core v) (hs : SparesReady s e)
    (hstep : s.step e = some s') :
    ∃ v', Rep s'.kernel.core v' ∧ Grows s.kernel.core v.tree (e.victim s.kernel) v'.tree := by
  obtain ⟨acts, v', hacts, hsteps, hrep'⟩ := Sys.step_refines h hs hstep
  refine ⟨v', hrep', ?_⟩
  have hown : acts = (e.act s.kernel).toList →
      Grows s.kernel.core v.tree (e.victim s.kernel) v'.tree := by
    rintro rfl
    unfold Event.victim
    cases hact : e.act s.kernel with
    | none =>
        rw [hact] at hsteps
        rw [steps_nil.mp hsteps]
        exact .same
    | some act =>
        rw [hact] at hsteps
        cases steps_single.mp hsteps with
        | full => exact .same
        | @create _ c p l hc hf =>
            have hp : v.place p = .free := (h.lists.mem_free p).mp (by simp [hf])
            exact .birth ((h.off c).mp hc) ((h.mem_tree c).mpr (by simp [hc]))
              fun hm => (h.mem_tree p).mp hm hp
        | terminate hp hready =>
            obtain ⟨c, cs, hc, hcs, hct⟩ := Event.act_victim h hact
            exact .death hc hcs hp hct
        | pass => exact .same
        | block => exact .same
        | verhogen =>
            rw [show (v.verhogen _ _).tree = v.tree from wakeAll_tree]
            exact .same
        | noSignal => exact .same
        | signal =>
            rw [show (v.verhogen _ _).tree = v.tree from wakeAll_tree]
            exact .same
        | requeue => exact .same
        | load => exact .same
  have hinner : (∀ act ∈ acts, act.internal) → v'.tree = v.tree := by
    intro hinternal
    apply hsteps.invariant (I := fun u => u.tree = v.tree) _ rfl
    intro act hact t u ht hm
    rw [hm.internal_tree (hinternal act hact), ht]
  rcases Event.acts_cases hacts with heq | hinternal
  · exact hown heq
  cases e with
  | dispatch =>
      rw [hinner hinternal]
      exact .same
  | interrupt hw =>
      rw [hinner hinternal]
      exact .same
  | syscall hw => exact hown hacts
  | pgmtrap hw => exact hown hacts
  | tlb hw => exact hown hacts

end Trees

section Runs

variable [Platform] {B : Kernel → Prop} {x : Sys × (Pcb → Option Pcb)} {s' : Sys} {e : Event}
    {v v' : View}
  {maker : Pcb → Option Pcb} {k k' : Kernel} {p t : Pcb} {f f' : Forest Pcb} {o : Option Pcb}

def SingleRooted (f : Forest Pcb) : Prop := f.roots = [0] ∨ f = .nil

omit [Platform] in
theorem SingleRooted.grows {κ : Core} (h : SingleRooted f) (hg : Grows κ f o f') :
    SingleRooted f' := by
  cases hg with
  | same => exact h
  | birth hc hcf hp =>
      rcases h with hroots | rfl
      · exact Or.inl (Forest.roots_addChild.trans hroots)
      · cases hcf
  | @death c t cs ts hc hcs hts hct =>
      rcases h with hroots | rfl
      · have hleft : (f.remove t).roots = [0].erase t := by rw [Forest.roots_remove, hroots]
        by_cases ht : t = 0
        · right
          rw [ht] at hleft ⊢
          cases hf : f.remove 0 with
          | nil => rfl
          | node a kids sibs =>
              rw [hf] at hleft
              cases hleft
        · left
          rw [hleft]
          exact List.erase_of_not_mem (by simpa using ht)
      · cases hts

structure Traced (k : Kernel) (maker : Pcb → Option Pcb) (v : View) : Prop where
  rep : Rep k.core v
  parent : ∀ p ∈ v.tree.nodes, k.pParent p = maker p
  rooted : SingleRooted v.tree

omit [Platform] in
theorem Traced.root (h : Traced k maker v) (hp : p ∈ v.tree.roots) : maker p = none ∧ p = 0 := by
  constructor
  · rw [← h.parent p (Forest.mem_nodes_of_roots hp)]
    exact h.rep.tree.rep.parent_of_root hp
  · rcases h.rooted with hroots | hnil
    · rw [hroots] at hp
      exact List.mem_singleton.mp hp
    · rw [hnil] at hp
      cases hp

omit [Platform] in
theorem Traced.inner (h : Traced k maker v) (hp : p ∈ v.tree.inner) :
    ∃ q ∈ v.tree.nodes, maker p = some q := by
  obtain ⟨q, qs, hq, -, hparent⟩ := h.rep.tree.rep.parent_of_inner hp
  refine ⟨q, hq.mem, ?_⟩
  rw [← h.parent p (Forest.mem_nodes_of_inner hp)]
  exact hparent

omit [Platform] in
theorem Traced.zero (h : Traced k maker v) (hp : p ∈ v.tree.nodes) :
    ∃ ks, v.tree = .node 0 ks .nil := by
  rcases h.rooted with hroots | hnil
  · cases hf : v.tree with
    | nil =>
        rw [hf] at hp
        cases hp
    | node a kids sibs =>
        rw [hf] at hroots
        obtain ⟨rfl, hsibs⟩ := List.cons.inj hroots
        cases sibs with
        | nil => exact ⟨kids, rfl⟩
        | node b l r => cases hsibs
  · rw [hnil] at hp
    cases hp

omit [Platform] in
theorem Traced.lineage (h : Traced k maker v) : Lineage k maker where
  parent p hp := h.parent p (h.rep.lives_iff.mp hp)
  maker_lives p q hp hq := by
    rcases Forest.mem_nodes_iff.mp (h.rep.lives_iff.mp hp) with hr | hi
    · rw [(h.root hr).1] at hq
      cases hq
    · obtain ⟨r, hr, hmaker⟩ := h.inner hi
      obtain rfl := Option.some.inj (hmaker.symm.trans hq)
      exact h.rep.lives_iff.mpr hr
  first p hp := by
    rcases Forest.mem_nodes_iff.mp (h.rep.lives_iff.mp hp) with hr | hi
    · exact iff_of_true (h.root hr).1 (h.root hr).2
    · obtain ⟨r, -, hmaker⟩ := h.inner hi
      obtain ⟨ks, htree⟩ := h.zero (h.rep.lives_iff.mp hp)
      rw [hmaker]
      simp only [reduceCtorEq, false_iff]
      rintro rfl
      have hroot : (0 : Pcb) ∈ v.tree.roots := by
        rw [htree]
        exact List.mem_cons_self
      exact Forest.inner_not_roots h.rep.tree.nodup hi hroot
  descends p hp := by
    have hmem := h.rep.lives_iff.mp hp
    obtain ⟨ks, htree⟩ := h.zero hmem
    have hhas : Forest.Has 0 ks v.tree := by
      rw [htree]
      exact .here _
    rw [htree, Forest.nodes, Forest.nodes, List.append_nil] at hmem
    rw [killed, h.rep.progeny_eq hhas]
    exact hmem

theorem Traced.step (h : Traced x.1.kernel x.2 v) (hs : SparesReady x.1 e)
    (hstep : x.1.step e = some s') :
    ∃ v', Traced s'.kernel (noteMaker x.1 e s' x.2) v' := by
  obtain ⟨v', hrep', hgrows⟩ := Sys.step_grows h.rep hs hstep
  refine ⟨v', hrep', fun p hp => ?_, h.rooted.grows hgrows⟩
  have hnew : ∀ p, p ∈ v'.tree.nodes → noteMaker x.1 e s' x.2 p =
      if p ∈ v.tree.nodes then x.2 p else x.1.kernel.currentProcess := by
    intro p hp
    have hlives := hrep'.lives_iff.mpr hp
    have hiff := h.rep.lives_iff (p := p)
    unfold noteMaker
    unfold Kernel.Lives at hlives hiff
    by_cases hmem : p ∈ v.tree.nodes
    · rw [if_pos hmem, if_neg fun hn => hiff.mpr hmem hn.1]
    · rw [if_neg hmem, if_pos ⟨by_contra fun hn => hmem (hiff.mp hn), hlives⟩]
  rw [hnew p hp]
  have htree := h.rep.tree.rep
  have htree' := hrep'.tree.rep
  generalize hf' : v'.tree = f' at hgrows htree' hp
  generalize e.victim x.1.kernel = o at hgrows
  cases hgrows with
  | same =>
      rw [if_pos hp, ← h.parent p hp]
      exact htree.parent_unique htree' hp
  | @birth c q hc hcf hq =>
      by_cases hmem : p ∈ v.tree.nodes
      · rw [if_pos hmem, ← h.parent p hmem]
        exact htree.parent_addChild htree' hmem
      · obtain ⟨cs, hcs⟩ := Forest.exists_has hcf
        have hpq := (Forest.nodes_addChild_perm (c := q) hcs h.rep.tree.nodup).mem_iff.mp hp
        obtain rfl := (List.mem_cons.mp hpq).resolve_right hmem
        rw [if_neg hmem]
        exact (htree'.parent_new hcf).trans hc.symm
  | death hc hcs hts hct =>
      have hmem : p ∈ v.tree.nodes := Forest.nodes_remove_sublist.subset hp
      rw [if_pos hmem, ← h.parent p hmem]
      exact htree.parent_remove htree' hp

theorem nucleus_traced (h : Reach ((nucleus B).ghost (fun _ _ => none) noteMaker)
    (fun x e => SparesReady x.1 e) x) : ∃ v, Traced x.1.kernel x.2 v := by
  induction h with
  | init h =>
      obtain ⟨⟨k, -, hk, hboot⟩, hnone⟩ := h
      have hrep := (main_run hk hboot).2.1
      refine ⟨_, hrep, fun p hp => ?_, Or.inl rfl⟩
      rw [hnone]
      apply hrep.tree.rep.parent_of_root (F := _)
      exact hp
  | @step x y e _ hc hstep ih =>
      obtain ⟨v, hv⟩ := ih
      rw [hstep.2]
      exact hv.step hc hstep.1

/-- In a run that kills no process with a ready descendant, every process alive is the child of the
process that has made it, which is alive as well, and descends from the first process. -/
theorem lineage_kept (h : Reach ((nucleus B).ghost (fun _ _ => none) noteMaker)
    (fun x e => SparesReady x.1 e) x) : Lineage x.1.kernel x.2 := by
  obtain ⟨v, hv⟩ := nucleus_traced h
  exact hv.lineage

omit [Platform] in
theorem Traced.issue_iff (h : Traced k maker v) (hp : p ∈ v.tree.nodes) {ks : Forest Pcb}
    (ht : Forest.Has t ks v.tree) : Issue maker t p ↔ p = t ∨ p ∈ ks.nodes := by
  constructor
  · intro hi
    apply h.rep.tree.rep.mem_of_descends h.rep.tree.nodup ht hp
    induction hi with
    | refl => exact .refl
    | @tail y z _ hz ih =>
        obtain ⟨q, hq, hmaker⟩ := h.inner ((Forest.mem_nodes_iff.mp hp).resolve_left fun hr => by
          rw [(h.root hr).1] at hz
          cases hz)
        obtain rfl := Option.some.inj (hmaker.symm.trans hz)
        exact .tail (ih hq) ((h.parent z hp).trans hz)
  · rintro (rfl | hk)
    · exact .refl
    · have hd := (h.rep.tree.rep.kids ht).descends hk
      clear hk
      induction hd with
      | refl => exact .refl
      | @tail y z _ hz ih =>
          have hy : y ∈ v.tree.nodes := by
            rcases Forest.mem_nodes_iff.mp hp with hr | hi
            · rw [h.rep.tree.rep.parent_of_root hr] at hz
              cases hz
            · obtain ⟨q, hq, hmaker⟩ := h.inner hi
              obtain rfl := Option.some.inj (hmaker.symm.trans ((h.parent z hp).symm.trans hz))
              exact hq
          exact .tail (ih hy) ((h.parent z hp).symm.trans hz)

/-- An entry kills exactly those who descend from its victim, which is the running process or
descends from it; without a victim it kills nobody. -/
theorem killed_by_ancestor (h : Reach ((nucleus B).ghost (fun _ _ => none) noteMaker)
    (fun x e => SparesReady x.1 e) x) (hs : SparesReady x.1 e) (hstep : x.1.step e = some s') :
    (∀ p, x.1.kernel.Lives p → (¬ s'.kernel.Lives p ↔ ∃ t ∈ e.victim x.1.kernel, Issue x.2 t p)) ∧
      ∀ t ∈ e.victim x.1.kernel, ∃ c, x.1.kernel.currentProcess = some c ∧ Issue x.2 c t := by
  obtain ⟨v, hv⟩ := nucleus_traced h
  obtain ⟨v', hrep', hgrows⟩ := Sys.step_grows hv.rep hs hstep
  have hnodup := hv.rep.tree.nodup
  generalize ho : e.victim x.1.kernel = o at hgrows
  generalize hf' : v'.tree = f' at hgrows
  have hdead : ∀ p, ¬ s'.kernel.Lives p ↔ p ∉ f'.nodes := fun p => by rw [hrep'.lives_iff, hf']
  cases hgrows with
  | same =>
      refine ⟨fun p hp => ?_, fun t ht => by cases ht⟩
      rw [hdead]
      simpa using hv.rep.lives_iff.mp hp
  | birth hc hcf hq =>
      obtain ⟨cs, hcs⟩ := Forest.exists_has hcf
      refine ⟨fun p hp => ?_, fun t ht => by cases ht⟩
      rw [hdead, (Forest.nodes_addChild_perm hcs hnodup).mem_iff, List.mem_cons]
      simpa using fun _ => hv.rep.lives_iff.mp hp
  | @death c t cs ts hc hcs hts hct =>
      refine ⟨fun p hp => ?_, fun u hu => ?_⟩
      · have hmem := hv.rep.lives_iff.mp hp
        rw [hdead, Forest.mem_nodes_remove hts hnodup]
        simp only [Option.mem_some_iff, exists_eq_left', hv.issue_iff hmem hts]
        tauto
      · obtain rfl := Option.mem_some_iff.mp hu
        exact ⟨c, hc, (hv.issue_iff hts.mem hcs).mpr hct⟩

end Runs

section Board

attribute [local instance] uarm

/-- Three generations. -/
theorem lineage_kept_three : ∃ x : Sys × (Pcb → Option Pcb),
    x.1.kernel.Lives 2 ∧ x.2 2 = some 1 ∧ x.1.kernel.pParent 2 = x.2 2 := by
  obtain ⟨x, hx, hQ⟩ := ghost_run (fun _ _ => none) noteMaker (B := fun _ => True)
    (D := fun x e => SparesReady x.1 e) trivial atBoot_zero
    [.dispatch, call 1, .dispatch, call 9, .dispatch, call 1]
    (fun x => 2 ∉ freeList x.1.kernel ∧ x.2 2 = some 1) (by decide +kernel)
  obtain ⟨hlives, hmaker⟩ := of_decide_eq_true hQ
  exact ⟨x, hlives, hmaker, (lineage_kept hx).parent 2 hlives⟩

/-- A process kills its child. -/
theorem killed_by_ancestor_child : ∃ (x : Sys × (Pcb → Option Pcb)) (s' : Sys),
    x.1.kernel.currentProcess = some 0 ∧ x.1.kernel.Lives 1 ∧ ¬ s'.kernel.Lives 1 ∧
    Issue x.2 0 1 := by
  obtain ⟨x, hx, hQ⟩ := ghost_run (fun _ _ => none) noteMaker (B := fun _ => True)
    (D := fun x e => SparesReady x.1 e) trivial atBoot_zero
    [.dispatch, call 1, .dispatch]
    (fun x => 1 ∉ freeList x.1.kernel ∧ x.1.kernel.currentProcess = some 0 ∧
      (call 2 611841).victim x.1.kernel = some 1 ∧ SparesReady x.1 (call 2 611841) ∧
      (x.1.step (call 2 611841)).isSome) (by decide +kernel)
  obtain ⟨hlives, hcur, hvictim, hs, hstep⟩ := of_decide_eq_true hQ
  obtain ⟨s', hstep⟩ := Option.isSome_iff_exists.mp hstep
  obtain ⟨hdies, hanc⟩ := killed_by_ancestor hx hs hstep
  obtain ⟨c, hc, hissue⟩ := hanc 1 hvictim
  obtain rfl : 0 = c := Option.some.inj (hcur.symm.trans hc)
  exact ⟨x, s', hcur, hlives, (hdies 1 hlives).mpr ⟨1, hvictim, .refl⟩, hissue⟩

end Board

end JaeOS
