import JaeOS.LinkRing

/-!
# Forests threaded through sibling rings

A node points to its parent and to the last of its children; the children of a node form a ring
through their sibling links. `Rep F par f` says that the pointers `F` spell out the forest `f`,
whose roots have the parent `par`. The rules below say which pointer writes cut the children off a
node, remove a leaf or add one, and `descend` reads the descendants of a node off the pointers.
-/

namespace LinkForest

open LinkRing

/-- A list of trees: a first root with its children, and the trees that follow. -/
inductive Forest (α : Type*) where
  | nil
  | node (a : α) (kids sibs : Forest α)

structure Family (α : Type*) where
  child : α → Option α
  sib : α → Option α
  parent : α → Option α

variable {α : Type*} {F F' : Family α} {par : Option α} {a c p x : α} {f g ks : Forest α}

namespace Forest

def roots : Forest α → List α
  | nil => []
  | node a _ sibs => a :: roots sibs

def nodes : Forest α → List α
  | nil => []
  | node a kids sibs => a :: (nodes kids ++ nodes sibs)

def inner : Forest α → List α
  | nil => []
  | node _ kids sibs => nodes kids ++ inner sibs

/-- The nodes, each after its descendants. -/
def postorder : Forest α → List α
  | nil => []
  | node a kids sibs => postorder kids ++ a :: postorder sibs

inductive Has (p : α) (ks : Forest α) : Forest α → Prop where
  | here (sibs : Forest α) : Has p ks (node p ks sibs)
  | inKids {a : α} {kids sibs : Forest α} (h : Has p ks kids) : Has p ks (node a kids sibs)
  | inSibs {a : α} {kids sibs : Forest α} (h : Has p ks sibs) : Has p ks (node a kids sibs)

theorem mem_nodes_of_roots (h : x ∈ f.roots) : x ∈ f.nodes := by
  induction f with
  | nil => cases h
  | node a kids sibs _ ih =>
      rcases List.mem_cons.mp h with rfl | h
      · exact List.mem_cons_self
      · exact List.mem_cons_of_mem a (List.mem_append_right _ (ih h))

theorem mem_nodes_of_inner (h : x ∈ f.inner) : x ∈ f.nodes := by
  induction f with
  | nil => cases h
  | node a kids sibs _ ih =>
      rcases List.mem_append.mp h with h | h
      · exact List.mem_cons_of_mem a (List.mem_append_left _ h)
      · exact List.mem_cons_of_mem a (List.mem_append_right _ (ih h))

theorem mem_nodes_iff : x ∈ f.nodes ↔ x ∈ f.roots ∨ x ∈ f.inner := by
  induction f with
  | nil => simp [nodes, roots, inner]
  | node a kids sibs _ ih =>
      simp only [nodes, roots, inner, List.mem_cons, List.mem_append, ih]
      tauto

theorem mem_postorder : x ∈ f.postorder ↔ x ∈ f.nodes := by
  induction f with
  | nil => rfl
  | node a kids sibs ihk ihs =>
      simp only [postorder, nodes, List.mem_append, List.mem_cons, ihk, ihs]
      tauto

theorem postorder_length : f.postorder.length = f.nodes.length := by
  induction f with
  | nil => rfl
  | node a kids sibs ihk ihs =>
      simp only [postorder, nodes, List.length_append, List.length_cons, ihk, ihs]
      omega

theorem roots_length_le : f.roots.length ≤ f.nodes.length := by
  induction f with
  | nil => exact Nat.le_refl 0
  | node a kids sibs _ ih =>
      simp only [roots, nodes, List.length_cons, List.length_append]
      omega

/-- The parts of a forest without repetitions share no node. -/
theorem nodup_node {kids sibs : Forest α} (h : (node a kids sibs).nodes.Nodup) :
    a ∉ kids.nodes ∧ a ∉ sibs.nodes ∧ kids.nodes.Nodup ∧ sibs.nodes.Nodup ∧
      kids.nodes.Disjoint sibs.nodes := by
  obtain ⟨ha, hks⟩ := List.nodup_cons.mp h
  obtain ⟨hk, hs, hd⟩ := List.nodup_append'.mp hks
  exact ⟨fun hm => ha (List.mem_append_left _ hm), fun hm => ha (List.mem_append_right _ hm),
    hk, hs, hd⟩

theorem inner_not_roots (hnd : f.nodes.Nodup) (h : x ∈ f.inner) : x ∉ f.roots := by
  induction f with
  | nil => cases h
  | node a kids sibs _ ih =>
      obtain ⟨hak, has, -, hs, hd⟩ := nodup_node hnd
      intro hr
      rcases List.mem_append.mp h with hk | hi
      · rcases List.mem_cons.mp hr with rfl | hr
        · exact hak hk
        · exact hd hk (mem_nodes_of_roots hr)
      · rcases List.mem_cons.mp hr with rfl | hr
        · exact has (mem_nodes_of_inner hi)
        · exact ih hs hi hr

theorem postorder_nodup (h : f.nodes.Nodup) : f.postorder.Nodup := by
  induction f with
  | nil => exact List.nodup_nil
  | node a kids sibs ihk ihs =>
      obtain ⟨hak, has, hk, hs, hd⟩ := nodup_node h
      refine List.nodup_append'.mpr ⟨ihk hk, List.nodup_cons.mpr ⟨?_, ihs hs⟩, ?_⟩
      · rwa [mem_postorder]
      · intro y hy hy'
        rw [mem_postorder] at hy
        rcases List.mem_cons.mp hy' with rfl | hy'
        · exact hak hy
        · exact hd hy (mem_postorder.mp hy')

theorem Has.mem (h : Has p ks f) : p ∈ f.nodes := by
  induction h with
  | here => exact List.mem_cons_self
  | inKids _ ih => exact List.mem_cons_of_mem _ (List.mem_append_left _ ih)
  | inSibs _ ih => exact List.mem_cons_of_mem _ (List.mem_append_right _ ih)

theorem exists_has (h : p ∈ f.nodes) : ∃ ks, Has p ks f := by
  induction f with
  | nil => cases h
  | node a kids sibs ihk ihs =>
      rcases List.mem_cons.mp h with rfl | h
      · exact ⟨kids, .here sibs⟩
      · rcases List.mem_append.mp h with h | h
        · obtain ⟨ks, hks⟩ := ihk h
          exact ⟨ks, .inKids hks⟩
        · obtain ⟨ks, hks⟩ := ihs h
          exact ⟨ks, .inSibs hks⟩

/-- Descendants are nodes, but no roots. -/
theorem Has.kids_inner (h : Has p ks f) (hx : x ∈ ks.nodes) : x ∈ f.inner := by
  induction h with
  | here => exact List.mem_append_left _ hx
  | inKids _ ih => exact List.mem_append_left _ (mem_nodes_of_inner ih)
  | inSibs _ ih => exact List.mem_append_right _ ih

theorem Has.kids_mem (h : Has p ks f) (hx : x ∈ ks.nodes) : x ∈ f.nodes :=
  mem_nodes_of_inner (h.kids_inner hx)

theorem Has.nodup (h : Has p ks f) (hnd : f.nodes.Nodup) : p ∉ ks.nodes ∧ ks.nodes.Nodup := by
  induction h with
  | here =>
      obtain ⟨hp, -, hk, -, -⟩ := nodup_node hnd
      exact ⟨hp, hk⟩
  | inKids _ ih => exact ih (nodup_node hnd).2.2.1
  | inSibs _ ih => exact ih (nodup_node hnd).2.2.2.1

/-- A node has one list of children. -/
theorem Has.unique {qs : Forest α} (h : Has p ks f) (hq : Has p qs f) (hnd : f.nodes.Nodup) :
    ks = qs := by
  induction h with
  | here sibs =>
      obtain ⟨hpk, hps, -, -, -⟩ := nodup_node hnd
      cases hq with
      | here => rfl
      | inKids hq => exact absurd hq.mem hpk
      | inSibs hq => exact absurd hq.mem hps
  | inKids h ih =>
      obtain ⟨hak, -, hk, -, hd⟩ := nodup_node hnd
      cases hq with
      | here => exact absurd h.mem hak
      | inKids hq => exact ih hq hk
      | inSibs hq => exact absurd hq.mem (hd h.mem)
  | inSibs h ih =>
      obtain ⟨-, has, -, hs, hd⟩ := nodup_node hnd
      cases hq with
      | here => exact absurd h.mem has
      | inKids hq => exact absurd h.mem (hd hq.mem)
      | inSibs hq => exact ih hq hs

theorem Has.kids_length (h : Has p ks f) : ks.nodes.length < f.nodes.length := by
  induction h with
  | here => simp only [nodes, List.length_cons, List.length_append]; omega
  | inKids _ ih => simp only [nodes, List.length_cons, List.length_append]; omega
  | inSibs _ ih => simp only [nodes, List.length_cons, List.length_append]; omega

theorem Has.trans {qs : Forest α} {q : α} (h : Has p ks f) (hq : Has q qs ks) : Has q qs f := by
  induction h with
  | here => exact .inKids hq
  | inKids _ ih => exact .inKids ih
  | inSibs _ ih => exact .inSibs ih

def snoc (c : α) : Forest α → Forest α
  | nil => node c nil nil
  | node a kids sibs => node a kids (snoc c sibs)

@[simp] theorem roots_snoc : (f.snoc c).roots = f.roots ++ [c] := by
  induction f with
  | nil => rfl
  | node a kids sibs _ ihs => rw [snoc, roots, ihs, roots, List.cons_append]

theorem nodes_snoc : (f.snoc c).nodes = f.nodes ++ [c] := by
  induction f with
  | nil => rfl
  | node a kids sibs _ ihs => simp [snoc, nodes, ihs]

variable [DecidableEq α]

def dropKids (p : α) : Forest α → Forest α
  | nil => nil
  | node a kids sibs =>
    if a = p then node a nil sibs else node a (dropKids p kids) (dropKids p sibs)

def remove (p : α) : Forest α → Forest α
  | nil => nil
  | node a kids sibs => if a = p then sibs else node a (remove p kids) (remove p sibs)

def addChild (p c : α) : Forest α → Forest α
  | nil => nil
  | node a kids sibs =>
    if a = p then node a (snoc c kids) sibs else node a (addChild p c kids) (addChild p c sibs)

theorem dropKids_of_notMem (h : p ∉ f.nodes) : f.dropKids p = f := by
  induction f with
  | nil => rfl
  | node a kids sibs ihk ihs =>
      simp only [nodes, List.mem_cons, List.mem_append, not_or] at h
      rw [dropKids, if_neg (Ne.symm h.1), ihk h.2.1, ihs h.2.2]

theorem remove_of_notMem (h : p ∉ f.nodes) : f.remove p = f := by
  induction f with
  | nil => rfl
  | node a kids sibs ihk ihs =>
      simp only [nodes, List.mem_cons, List.mem_append, not_or] at h
      rw [remove, if_neg (Ne.symm h.1), ihk h.2.1, ihs h.2.2]

theorem addChild_of_notMem (h : p ∉ f.nodes) : f.addChild p c = f := by
  induction f with
  | nil => rfl
  | node a kids sibs ihk ihs =>
      simp only [nodes, List.mem_cons, List.mem_append, not_or] at h
      rw [addChild, if_neg (Ne.symm h.1), ihk h.2.1, ihs h.2.2]

@[simp] theorem roots_dropKids : (f.dropKids p).roots = f.roots := by
  induction f with
  | nil => rfl
  | node a kids sibs _ ihs =>
      rw [dropKids]
      split
      · rfl
      · rw [roots, ihs, roots]

@[simp] theorem roots_addChild : (f.addChild p c).roots = f.roots := by
  induction f with
  | nil => rfl
  | node a kids sibs _ ihs =>
      rw [addChild]
      split
      · rfl
      · rw [roots, ihs, roots]

theorem roots_remove : (f.remove p).roots = f.roots.erase p := by
  induction f with
  | nil => rfl
  | node a kids sibs _ ihs =>
      by_cases hap : a = p
      · rw [remove, if_pos hap, roots, hap, List.erase_cons_head]
      · rw [remove, if_neg hap, roots, roots, ihs, List.erase_cons_tail (by simpa using hap)]

theorem nodes_remove_sublist : (f.remove p).nodes.Sublist f.nodes := by
  induction f with
  | nil => exact List.Sublist.slnil
  | node a kids sibs ihk ihs =>
      rw [remove]
      split
      · exact (List.sublist_append_right _ _).cons a
      · exact (ihk.append ihs).cons_cons a

/-- Removing `p` takes away `p` and its descendants. -/
theorem mem_nodes_remove (hp : Has p ks f) (hnd : f.nodes.Nodup) :
    x ∈ (f.remove p).nodes ↔ x ∈ f.nodes ∧ x ≠ p ∧ x ∉ ks.nodes := by
  induction hp with
  | here sibs =>
      obtain ⟨hpk, hps, -, -, hd⟩ := nodup_node hnd
      simp only [remove, if_true, nodes, List.mem_cons, List.mem_append]
      constructor
      · intro hx
        exact ⟨Or.inr (Or.inr hx), fun he => hps (he ▸ hx), fun hk => hd hk hx⟩
      · rintro ⟨rfl | hx | hx, hxp, hxk⟩
        · exact absurd rfl hxp
        · exact absurd hx hxk
        · exact hx
  | @inKids a kids sibs hp ih =>
      obtain ⟨hak, -, hk, -, hd⟩ := nodup_node hnd
      have hap : a ≠ p := fun he => hak (he ▸ hp.mem)
      have hps : p ∉ sibs.nodes := fun hm => hd hp.mem hm
      simp only [remove, if_neg hap, remove_of_notMem hps, nodes, List.mem_cons, List.mem_append,
        ih hk]
      have ha : a ∉ ks.nodes := fun hm => hak (hp.kids_mem hm)
      have hs : ∀ y ∈ sibs.nodes, y ≠ p ∧ y ∉ ks.nodes := fun y hy =>
        ⟨fun he => hps (he ▸ hy), fun hm => hd (hp.kids_mem hm) hy⟩
      constructor
      · rintro (rfl | hx | hx)
        · exact ⟨Or.inl rfl, hap, ha⟩
        · exact ⟨Or.inr (Or.inl hx.1), hx.2⟩
        · exact ⟨Or.inr (Or.inr hx), hs x hx⟩
      · rintro ⟨rfl | hx | hx, hxp⟩
        · exact Or.inl rfl
        · exact Or.inr (Or.inl ⟨hx, hxp⟩)
        · exact Or.inr (Or.inr hx)
  | @inSibs a kids sibs hp ih =>
      obtain ⟨-, has, -, hs, hd⟩ := nodup_node hnd
      have hap : a ≠ p := fun he => has (he ▸ hp.mem)
      have hpk : p ∉ kids.nodes := fun hm => hd hm hp.mem
      simp only [remove, if_neg hap, remove_of_notMem hpk, nodes, List.mem_cons, List.mem_append,
        ih hs]
      have ha : a ∉ ks.nodes := fun hm => has (hp.kids_mem hm)
      have hk : ∀ y ∈ kids.nodes, y ≠ p ∧ y ∉ ks.nodes := fun y hy =>
        ⟨fun he => hpk (he ▸ hy), fun hm => hd hy (hp.kids_mem hm)⟩
      constructor
      · rintro (rfl | hx | hx)
        · exact ⟨Or.inl rfl, hap, ha⟩
        · exact ⟨Or.inr (Or.inl hx), hk x hx⟩
        · exact ⟨Or.inr (Or.inr hx.1), hx.2⟩
      · rintro ⟨rfl | hx | hx, hxp⟩
        · exact Or.inl rfl
        · exact Or.inr (Or.inl hx)
        · exact Or.inr (Or.inr ⟨hx, hxp⟩)

/-- The nodes that stay and those that go. -/
theorem nodes_remove_perm (hp : Has p ks f) (hnd : f.nodes.Nodup) :
    f.nodes.Perm ((f.remove p).nodes ++ p :: ks.nodes) := by
  obtain ⟨hpk, hk⟩ := hp.nodup hnd
  have hstay : ∀ x ∈ (f.remove p).nodes, x ∉ p :: ks.nodes := fun x hx hm => by
    obtain ⟨-, hxp, hxk⟩ := (mem_nodes_remove hp hnd).mp hx
    exact (List.mem_cons.mp hm).elim hxp hxk
  have hnd' : ((f.remove p).nodes ++ p :: ks.nodes).Nodup :=
    List.nodup_append'.mpr ⟨nodes_remove_sublist.nodup hnd, List.nodup_cons.mpr ⟨hpk, hk⟩, hstay⟩
  rw [List.perm_ext_iff_of_nodup hnd hnd']
  intro x
  rw [List.mem_append, mem_nodes_remove hp hnd, List.mem_cons]
  constructor
  · intro hx
    by_cases hgo : x = p ∨ x ∈ ks.nodes
    · exact Or.inr hgo
    · exact Or.inl ⟨hx, not_or.mp hgo⟩
  · rintro (hx | rfl | hx)
    · exact hx.1
    · exact hp.mem
    · exact hp.kids_mem hx

theorem remove_dropKids : (f.dropKids p).remove p = f.remove p := by
  induction f with
  | nil => rfl
  | node a kids sibs ihk ihs =>
      by_cases hap : a = p
      · simp only [dropKids, remove, if_pos hap]
      · simp only [dropKids, remove, if_neg hap, ihk, ihs]

theorem nodes_dropKids_sublist : (f.dropKids p).nodes.Sublist f.nodes := by
  induction f with
  | nil => exact List.Sublist.slnil
  | node a kids sibs ihk ihs =>
      rw [dropKids]
      split
      · exact (List.sublist_append_right _ _).cons_cons a
      · exact (ihk.append ihs).cons_cons a

theorem Has.dropKids (h : Has p ks f) (hnd : f.nodes.Nodup) : Has p nil (f.dropKids p) := by
  induction h with
  | here sibs => rw [Forest.dropKids, if_pos rfl]; exact .here sibs
  | @inKids a kids sibs hp ih =>
      obtain ⟨hak, -, hk, -, -⟩ := nodup_node hnd
      have hap : a ≠ p := fun he => hak (he ▸ hp.mem)
      rw [Forest.dropKids, if_neg hap]
      exact .inKids (ih hk)
  | @inSibs a kids sibs hp ih =>
      obtain ⟨-, has, -, hs, -⟩ := nodup_node hnd
      have hap : a ≠ p := fun he => has (he ▸ hp.mem)
      rw [Forest.dropKids, if_neg hap]
      exact .inSibs (ih hs)

/-- Adding a child adds one node. -/
theorem nodes_addChild_perm (hp : Has p ks f) (hnd : f.nodes.Nodup) :
    (f.addChild p c).nodes.Perm (c :: f.nodes) := by
  induction hp with
  | here sibs =>
      rw [addChild, if_pos rfl, nodes, nodes_snoc, nodes]
      have hperm : (ks.nodes ++ [c] ++ sibs.nodes).Perm (c :: (ks.nodes ++ sibs.nodes)) := by
        rw [List.append_assoc]
        exact List.perm_middle
      exact (hperm.cons p).trans (List.Perm.swap c p _)
  | @inKids a kids sibs hp ih =>
      obtain ⟨hak, -, hk, -, hd⟩ := nodup_node hnd
      have hap : a ≠ p := fun he => hak (he ▸ hp.mem)
      rw [addChild, if_neg hap, addChild_of_notMem fun hm => hd hp.mem hm, nodes, nodes]
      exact (((ih hk).append_right sibs.nodes).cons a).trans (List.Perm.swap c a _)
  | @inSibs a kids sibs hp ih =>
      obtain ⟨-, has, -, hs, hd⟩ := nodup_node hnd
      have hap : a ≠ p := fun he => has (he ▸ hp.mem)
      rw [addChild, if_neg hap, addChild_of_notMem fun hm => hd hm hp.mem, nodes, nodes]
      have hperm := ((ih hs).append_left kids.nodes).trans List.perm_middle
      exact (hperm.cons a).trans (List.Perm.swap c a _)

end Forest

open Forest

/-! ### What the pointers spell out -/

def Rep (F : Family α) : Option α → Forest α → Prop
  | _, .nil => True
  | par, .node a kids sibs =>
    F.parent a = par ∧ (Ring F.sib (F.child a) kids.roots ∧ Rep F (some a) kids) ∧ Rep F par sibs

def Kids (F : Family α) (p : α) (f : Forest α) : Prop :=
  Ring F.sib (F.child p) f.roots ∧ Rep F (some p) f

/-- The sibling links of the roots do not matter to `Rep`. -/
theorem Rep.congr (h : Rep F par f) (hp : ∀ x ∈ f.nodes, F'.parent x = F.parent x)
    (hc : ∀ x ∈ f.nodes, F'.child x = F.child x) (hs : ∀ x ∈ f.inner, F'.sib x = F.sib x) :
    Rep F' par f := by
  induction f generalizing par with
  | nil => trivial
  | node a kids sibs ihk ihs =>
      obtain ⟨ha, ⟨hring, hk⟩, hsibs⟩ := h
      have hkids : ∀ x ∈ kids.nodes, x ∈ (node a kids sibs).nodes := fun x hx =>
        List.mem_cons_of_mem a (List.mem_append_left _ hx)
      have hsib : ∀ x ∈ sibs.nodes, x ∈ (node a kids sibs).nodes := fun x hx =>
        List.mem_cons_of_mem a (List.mem_append_right _ hx)
      refine ⟨?_, ⟨?_, ?_⟩, ?_⟩
      · rw [hp a List.mem_cons_self]
        exact ha
      · rw [hc a List.mem_cons_self]
        exact hring.congr fun x hx => hs x (List.mem_append_left _ (mem_nodes_of_roots hx))
      · exact ihk hk (fun x hx => hp x (hkids x hx)) (fun x hx => hc x (hkids x hx))
          fun x hx => hs x (List.mem_append_left _ (mem_nodes_of_inner hx))
      · exact ihs hsibs (fun x hx => hp x (hsib x hx)) (fun x hx => hc x (hsib x hx))
          fun x hx => hs x (List.mem_append_right _ hx)

theorem Kids.congr (h : Kids F p f) (hchild : F'.child p = F.child p)
    (hp : ∀ x ∈ f.nodes, F'.parent x = F.parent x) (hc : ∀ x ∈ f.nodes, F'.child x = F.child x)
    (hs : ∀ x ∈ f.nodes, F'.sib x = F.sib x) : Kids F' p f := by
  refine ⟨?_, h.2.congr hp hc fun x hx => hs x (mem_nodes_of_inner hx)⟩
  rw [hchild]
  exact h.1.congr fun x hx => hs x (mem_nodes_of_roots hx)

theorem Rep.kids (h : Rep F par f) (hp : Has p ks f) : Kids F p ks := by
  induction hp generalizing par with
  | here => exact h.2.1
  | inKids _ ih => exact ih h.2.1.2
  | inSibs _ ih => exact ih h.2.2

theorem Rep.parent_of_root (h : Rep F par f) (hx : x ∈ f.roots) : F.parent x = par := by
  induction f with
  | nil => cases hx
  | node a kids sibs _ ih =>
      rcases List.mem_cons.mp hx with rfl | hx
      · exact h.1
      · exact ih h.2.2 hx

/-- A node below the roots is a child of its parent. -/
theorem Rep.parent_of_inner (h : Rep F par f) (hx : x ∈ f.inner) :
    ∃ q qs, Has q qs f ∧ x ∈ qs.roots ∧ F.parent x = some q := by
  induction f generalizing par with
  | nil => cases hx
  | node a kids sibs ihk ihs =>
      rcases List.mem_append.mp hx with hx | hx
      · rcases mem_nodes_iff.mp hx with hr | hi
        · exact ⟨a, kids, .here sibs, hr, h.2.1.2.parent_of_root hr⟩
        · obtain ⟨q, qs, hq, hr, hp⟩ := ihk h.2.1.2 hi
          exact ⟨q, qs, .inKids hq, hr, hp⟩
      · obtain ⟨q, qs, hq, hr, hp⟩ := ihs h.2.2 hx
        exact ⟨q, qs, .inSibs hq, hr, hp⟩

/-! ### Pointer writes -/

/-- Taking the first child `c` off `p`. -/
theorem Kids.removeFirst {sibs : Forest α} (h : Kids F p (node c ks sibs))
    (hnd : (p :: (node c ks sibs).nodes).Nodup) (hparent : ∀ x ≠ c, F'.parent x = F.parent x)
    (hchild : ∀ x ≠ p, F'.child x = F.child x)
    (hsib : ∀ x ∉ c :: sibs.roots, F'.sib x = F.sib x)
    (hring : Ring F'.sib (F'.child p) sibs.roots) : Kids F' p sibs ∧ Kids F' c ks := by
  obtain ⟨hp, hnd⟩ := List.nodup_cons.mp hnd
  obtain ⟨hck, hcs, hk, hs, hd⟩ := nodup_node hnd
  have hne : ∀ x ∈ (node c ks sibs).nodes, x ≠ p := fun x hx he => hp (he ▸ hx)
  obtain ⟨-, -, hkids, hsibs⟩ := h
  refine ⟨⟨hring, hsibs.congr ?_ ?_ ?_⟩, Kids.congr hkids ?_ ?_ ?_ ?_⟩
  · intro x hx
    exact hparent x fun he => hcs (he ▸ hx)
  · intro x hx
    exact hchild x (hne x (List.mem_cons_of_mem c (List.mem_append_right _ hx)))
  · intro x hx
    refine hsib x fun hm => ?_
    rcases List.mem_cons.mp hm with rfl | hm
    · exact hcs (mem_nodes_of_inner hx)
    · exact inner_not_roots hs hx hm
  · exact hchild c (hne c List.mem_cons_self)
  · intro x hx
    exact hparent x fun he => hck (he ▸ hx)
  · intro x hx
    exact hchild x (hne x (List.mem_cons_of_mem c (List.mem_append_left _ hx)))
  · intro x hx
    refine hsib x fun hm => ?_
    rcases List.mem_cons.mp hm with rfl | hm
    · exact hck hx
    · exact hd hx (mem_nodes_of_roots hm)

theorem Rep.snoc (h : Rep F par f) (hc : F.parent c = par) (hkids : F.child c = none) :
    Rep F par (f.snoc c) := by
  induction f with
  | nil =>
      refine ⟨hc, ⟨?_, trivial⟩, trivial⟩
      rw [hkids]
      exact ring_nil
  | node a kids sibs _ ih => exact ⟨h.1, h.2.1, ih h.2.2⟩

variable [DecidableEq α]

/-- Cutting all children off `p` may change anything about its descendants. -/
theorem Rep.dropKids (h : Rep F par f) (hp : Has p ks f) (hnd : f.nodes.Nodup)
    (hchild : F'.child p = none) (hparent : ∀ x ∉ ks.nodes, F'.parent x = F.parent x)
    (hchild' : ∀ x ∉ ks.nodes, x ≠ p → F'.child x = F.child x)
    (hsib : ∀ x ∉ ks.nodes, F'.sib x = F.sib x) : Rep F' par (f.dropKids p) := by
  induction hp generalizing par with
  | here sibs =>
      obtain ⟨hpk, hps, -, -, hd⟩ := nodup_node hnd
      rw [Forest.dropKids, if_pos rfl]
      refine ⟨?_, ⟨?_, trivial⟩, h.2.2.congr ?_ ?_ ?_⟩
      · rw [hparent p hpk]
        exact h.1
      · rw [hchild]
        exact ring_nil
      · exact fun x hx => hparent x fun hm => hd hm hx
      · exact fun x hx => hchild' x (fun hm => hd hm hx) fun he => hps (he ▸ hx)
      · exact fun x hx => hsib x fun hm => hd hm (mem_nodes_of_inner hx)
  | @inKids a kids sibs hp ih =>
      obtain ⟨hak, -, hk, -, hd⟩ := nodup_node hnd
      have hap : a ≠ p := fun he => hak (he ▸ hp.mem)
      have haks : a ∉ ks.nodes := fun hm => hak (hp.kids_mem hm)
      rw [Forest.dropKids, if_neg hap, dropKids_of_notMem fun hm => hd hp.mem hm]
      refine ⟨?_, ⟨?_, ih h.2.1.2 hk⟩, h.2.2.congr ?_ ?_ ?_⟩
      · rw [hparent a haks]
        exact h.1
      · rw [hchild' a haks hap, roots_dropKids]
        exact h.2.1.1.congr fun x hx => hsib x fun hm => inner_not_roots hk (hp.kids_inner hm) hx
      · exact fun x hx => hparent x fun hm => hd (hp.kids_mem hm) hx
      · exact fun x hx => hchild' x (fun hm => hd (hp.kids_mem hm) hx)
          fun he => hd hp.mem (he ▸ hx)
      · exact fun x hx => hsib x fun hm => hd (hp.kids_mem hm) (mem_nodes_of_inner hx)
  | @inSibs a kids sibs hp ih =>
      obtain ⟨-, has, -, hs, hd⟩ := nodup_node hnd
      have hap : a ≠ p := fun he => has (he ▸ hp.mem)
      have haks : a ∉ ks.nodes := fun hm => has (hp.kids_mem hm)
      rw [Forest.dropKids, if_neg hap, dropKids_of_notMem fun hm => hd hm hp.mem]
      refine ⟨?_, Kids.congr h.2.1 ?_ ?_ ?_ ?_, ih h.2.2 hs⟩
      · rw [hparent a haks]
        exact h.1
      · exact hchild' a haks hap
      · exact fun x hx => hparent x fun hm => hd hx (hp.kids_mem hm)
      · exact fun x hx => hchild' x (fun hm => hd hx (hp.kids_mem hm))
          fun he => hd (he ▸ hx) hp.mem
      · exact fun x hx => hsib x fun hm => hd hx (hp.kids_mem hm)

/-- Removing a leaf among the roots, whose ring the forest does not describe. -/
theorem Rep.removeRoot (h : Rep F par f) (hp : Has p .nil f) (hroot : p ∈ f.roots)
    (hnd : f.nodes.Nodup) (hparent : ∀ x ≠ p, F'.parent x = F.parent x)
    (hchild : ∀ x ∈ f.nodes, F'.child x = F.child x)
    (hsib : ∀ x ∉ f.roots, F'.sib x = F.sib x) : Rep F' par (f.remove p) := by
  induction f generalizing F' with
  | nil => cases hroot
  | node a kids sibs _ ih =>
      obtain ⟨hak, has, hk, hs, hd⟩ := nodup_node hnd
      have hsub : ∀ x ∈ sibs.nodes, x ∈ (node a kids sibs).nodes := fun x hx =>
        List.mem_cons_of_mem a (List.mem_append_right _ hx)
      have hinner : ∀ x ∈ kids.nodes ++ sibs.inner, F'.sib x = F.sib x := fun x hx =>
        hsib x (inner_not_roots hnd hx)
      by_cases hap : a = p
      · rw [remove, if_pos hap]
        exact h.2.2.congr (fun x hx => hparent x fun he => has (hap ▸ he ▸ hx))
          (fun x hx => hchild x (hsub x hx))
          fun x hx => hinner x (List.mem_append_right _ hx)
      · have hps : p ∈ sibs.roots := (List.mem_cons.mp hroot).resolve_left (Ne.symm hap)
        have hpk : p ∉ kids.nodes := fun hm => hd hm (mem_nodes_of_roots hps)
        have hp' : Has p .nil sibs := by
          cases hp with
          | here => exact absurd rfl hap
          | inKids hm => exact absurd hm.mem hpk
          | inSibs hm => exact hm
        rw [remove, if_neg hap, remove_of_notMem hpk]
        refine ⟨?_, Kids.congr h.2.1 ?_ ?_ ?_ ?_, ?_⟩
        · rw [hparent a hap]
          exact h.1
        · exact hchild a List.mem_cons_self
        · exact fun x hx => hparent x fun he => hpk (he ▸ hx)
        · exact fun x hx => hchild x (List.mem_cons_of_mem a (List.mem_append_left _ hx))
        · exact fun x hx => hinner x (List.mem_append_left _ hx)
        · -- the roots' own ring is not part of this forest
          have hsibs : ∀ x ∈ sibs.nodes, x ∉ sibs.roots → F'.sib x = F.sib x := by
            intro x hx hxr
            refine hsib x fun hm => ?_
            rcases List.mem_cons.mp hm with rfl | hm
            · exact has hx
            · exact hxr hm
          let G : Family α := ⟨F'.child, fun x => if x ∈ sibs.nodes then F'.sib x else F.sib x,
            F'.parent⟩
          have hG : Rep G par (sibs.remove p) := by
            refine ih h.2.2 hp' hps hs hparent (fun x hx => hchild x (hsub x hx)) ?_
            intro x hx
            by_cases hm : x ∈ sibs.nodes
            · simp only [G, if_pos hm]
              exact hsibs x hm hx
            · simp only [G, if_neg hm]
          refine hG.congr (fun _ _ => rfl) (fun _ _ => rfl) fun x hx => ?_
          have hm : x ∈ sibs.nodes := nodes_remove_sublist.subset (mem_nodes_of_inner hx)
          simp only [G, if_pos hm]

/-- Removing a leaf `p` from the children of `q`. -/
theorem Rep.removeLeaf {q : α} {qs : Forest α} (h : Rep F par f) (hq : Has q qs f)
    (hp : Has p .nil qs) (hroot : p ∈ qs.roots) (hnd : f.nodes.Nodup)
    (hparent : ∀ x ≠ p, F'.parent x = F.parent x) (hchild : ∀ x ≠ q, F'.child x = F.child x)
    (hsib : ∀ x ∉ qs.roots, F'.sib x = F.sib x)
    (hring : Ring F'.sib (F'.child q) (qs.remove p).roots) : Rep F' par (f.remove p) := by
  have hpq : p ∈ qs.nodes := hp.mem
  induction hq generalizing par with
  | here sibs =>
      obtain ⟨hqk, hqs, hk, -, hd⟩ := nodup_node hnd
      have hne : q ≠ p := fun he => hqk (he ▸ hpq)
      rw [remove, if_neg hne, remove_of_notMem fun hm => hd hpq hm]
      refine ⟨?_, ⟨hring, ?_⟩, h.2.2.congr ?_ ?_ ?_⟩
      · rw [hparent q hne]
        exact h.1
      · exact h.2.1.2.removeRoot hp hroot hk hparent
          (fun x hx => hchild x fun he => hqk (he ▸ hx)) hsib
      · exact fun x hx => hparent x fun he => hd hpq (he ▸ hx)
      · exact fun x hx => hchild x fun he => hqs (he ▸ hx)
      · exact fun x hx => hsib x fun hm => hd (mem_nodes_of_roots hm) (mem_nodes_of_inner hx)
  | @inKids a kids sibs hq ih =>
      obtain ⟨hak, -, hk, -, hd⟩ := nodup_node hnd
      have hpk : p ∈ kids.nodes := hq.kids_mem hpq
      have hne : a ≠ p := fun he => hak (he ▸ hpk)
      have haq : a ≠ q := fun he => hak (he ▸ hq.mem)
      have hpi : p ∈ kids.inner := hq.kids_inner hpq
      rw [remove, if_neg hne, remove_of_notMem fun hm => hd hpk hm]
      refine ⟨?_, ⟨?_, ih h.2.1.2 hk⟩, h.2.2.congr ?_ ?_ ?_⟩
      · rw [hparent a hne]
        exact h.1
      · rw [hchild a haq, roots_remove, List.erase_of_not_mem (inner_not_roots hk hpi)]
        refine h.2.1.1.congr fun x hx => hsib x fun hm => ?_
        exact inner_not_roots hk (hq.kids_inner (mem_nodes_of_roots hm)) hx
      · exact fun x hx => hparent x fun he => hd hpk (he ▸ hx)
      · exact fun x hx => hchild x fun he => hd hq.mem (he ▸ hx)
      · exact fun x hx => hsib x fun hm =>
          hd (hq.kids_mem (mem_nodes_of_roots hm)) (mem_nodes_of_inner hx)
  | @inSibs a kids sibs hq ih =>
      obtain ⟨-, has, -, hs, hd⟩ := nodup_node hnd
      have hps : p ∈ sibs.nodes := hq.kids_mem hpq
      have hne : a ≠ p := fun he => has (he ▸ hps)
      have haq : a ≠ q := fun he => has (he ▸ hq.mem)
      rw [remove, if_neg hne, remove_of_notMem fun hm => hd hm hps]
      refine ⟨?_, Kids.congr h.2.1 ?_ ?_ ?_ ?_, ih h.2.2 hs⟩
      · rw [hparent a hne]
        exact h.1
      · exact hchild a haq
      · exact fun x hx => hparent x fun he => hd (he ▸ hx) hps
      · exact fun x hx => hchild x fun he => hd (he ▸ hx) hq.mem
      · exact fun x hx => hsib x fun hm => hd hx (hq.kids_mem (mem_nodes_of_roots hm))

/-- A new leaf `c` at the end of the children of `p`. -/
theorem Rep.addChild (h : Rep F par f) (hp : Has p ks f) (hnd : f.nodes.Nodup) (hc : c ∉ f.nodes)
    (hkids : F'.child c = none) (hpc : F'.parent c = some p)
    (hparent : ∀ x ≠ c, F'.parent x = F.parent x)
    (hchild : ∀ x ≠ c, x ≠ p → F'.child x = F.child x)
    (hsib : ∀ x ∉ ks.roots, x ≠ c → F'.sib x = F.sib x)
    (hring : Ring F'.sib (F'.child p) (ks.roots ++ [c])) : Rep F' par (f.addChild p c) := by
  induction hp generalizing par with
  | here sibs =>
      obtain ⟨hpk, hps, hk, -, hd⟩ := nodup_node hnd
      simp only [nodes, List.mem_cons, List.mem_append, not_or] at hc
      obtain ⟨hcp, hck, hcs⟩ := hc
      rw [Forest.addChild, if_pos rfl]
      refine ⟨?_, ⟨?_, ?_⟩, h.2.2.congr ?_ ?_ ?_⟩
      · rw [hparent p (Ne.symm hcp)]
        exact h.1
      · rw [roots_snoc]
        exact hring
      · refine Rep.snoc (h.2.1.2.congr ?_ ?_ ?_) hpc hkids
        · exact fun x hx => hparent x fun he => hck (he ▸ hx)
        · exact fun x hx => hchild x (fun he => hck (he ▸ hx)) fun he => hpk (he ▸ hx)
        · exact fun x hx => hsib x (inner_not_roots hk hx)
            fun he => hck (he ▸ mem_nodes_of_inner hx)
      · exact fun x hx => hparent x fun he => hcs (he ▸ hx)
      · exact fun x hx => hchild x (fun he => hcs (he ▸ hx)) fun he => hps (he ▸ hx)
      · exact fun x hx => hsib x (fun hm => hd (mem_nodes_of_roots hm) (mem_nodes_of_inner hx))
          fun he => hcs (he ▸ mem_nodes_of_inner hx)
  | @inKids a kids sibs hp ih =>
      obtain ⟨hak, -, hk, -, hd⟩ := nodup_node hnd
      simp only [nodes, List.mem_cons, List.mem_append, not_or] at hc
      obtain ⟨hca, hck, hcs⟩ := hc
      have hap : a ≠ p := fun he => hak (he ▸ hp.mem)
      rw [Forest.addChild, if_neg hap, addChild_of_notMem fun hm => hd hp.mem hm]
      refine ⟨?_, ⟨?_, ih h.2.1.2 hk hck⟩, h.2.2.congr ?_ ?_ ?_⟩
      · rw [hparent a (Ne.symm hca)]
        exact h.1
      · rw [hchild a (Ne.symm hca) hap, roots_addChild]
        refine h.2.1.1.congr fun x hx => hsib x (fun hm => ?_) fun he => ?_
        · exact inner_not_roots hk (hp.kids_inner (mem_nodes_of_roots hm)) hx
        · exact hck (he ▸ mem_nodes_of_roots hx)
      · exact fun x hx => hparent x fun he => hcs (he ▸ hx)
      · exact fun x hx => hchild x (fun he => hcs (he ▸ hx)) fun he => hd hp.mem (he ▸ hx)
      · exact fun x hx => hsib x
          (fun hm => hd (hp.kids_mem (mem_nodes_of_roots hm)) (mem_nodes_of_inner hx))
          fun he => hcs (he ▸ mem_nodes_of_inner hx)
  | @inSibs a kids sibs hp ih =>
      obtain ⟨-, has, -, hs, hd⟩ := nodup_node hnd
      simp only [nodes, List.mem_cons, List.mem_append, not_or] at hc
      obtain ⟨hca, hck, hcs⟩ := hc
      have hap : a ≠ p := fun he => has (he ▸ hp.mem)
      rw [Forest.addChild, if_neg hap, addChild_of_notMem fun hm => hd hm hp.mem]
      refine ⟨?_, Kids.congr h.2.1 ?_ ?_ ?_ ?_, ih h.2.2 hs hcs⟩
      · rw [hparent a (Ne.symm hca)]
        exact h.1
      · exact hchild a (Ne.symm hca) hap
      · exact fun x hx => hparent x fun he => hck (he ▸ hx)
      · exact fun x hx => hchild x (fun he => hck (he ▸ hx)) fun he => hd (he ▸ hx) hp.mem
      · exact fun x hx => hsib x (fun hm => hd hx (hp.kids_mem (mem_nodes_of_roots hm)))
          fun he => hck (he ▸ hx)

/-! ### Parents -/

omit [DecidableEq α] in
/-- Pointers that spell out the same forest agree on the parents. -/
theorem Rep.parent_unique (h : Rep F par f) (h' : Rep F' par f) (hx : x ∈ f.nodes) :
    F'.parent x = F.parent x := by
  induction f generalizing par with
  | nil => cases hx
  | node a kids sibs ihk ihs =>
      rcases List.mem_cons.mp hx with rfl | hx
      · rw [h.1, h'.1]
      rcases List.mem_append.mp hx with hx | hx
      · exact ihk h.2.1.2 h'.2.1.2 hx
      · exact ihs h.2.2 h'.2.2 hx

/-- The nodes that stay keep their parents. -/
theorem Rep.parent_remove (h : Rep F par f) (h' : Rep F' par (f.remove p))
    (hx : x ∈ (f.remove p).nodes) : F'.parent x = F.parent x := by
  induction f generalizing par with
  | nil => cases hx
  | node a kids sibs ihk ihs =>
      rw [remove] at h' hx
      by_cases hap : a = p
      · rw [if_pos hap] at h' hx
        exact h.2.2.parent_unique h' hx
      · rw [if_neg hap] at h' hx
        rcases List.mem_cons.mp hx with rfl | hx
        · rw [h.1, h'.1]
        rcases List.mem_append.mp hx with hx | hx
        · exact ihk h.2.1.2 h'.2.1.2 hx
        · exact ihs h.2.2 h'.2.2 hx

omit [DecidableEq α] in
theorem Rep.of_snoc (h : Rep F par (f.snoc c)) : Rep F par f := by
  induction f with
  | nil => trivial
  | node a kids sibs _ ih => exact ⟨h.1, h.2.1, ih h.2.2⟩

/-- A new leaf leaves the other parents alone. -/
theorem Rep.parent_addChild (h : Rep F par f) (h' : Rep F' par (f.addChild p c))
    (hx : x ∈ f.nodes) : F'.parent x = F.parent x := by
  induction f generalizing par with
  | nil => cases hx
  | node a kids sibs ihk ihs =>
      rw [Forest.addChild] at h'
      by_cases hap : a = p
      · rw [if_pos hap] at h'
        rcases List.mem_cons.mp hx with rfl | hx
        · rw [h.1, h'.1]
        rcases List.mem_append.mp hx with hx | hx
        · exact h.2.1.2.parent_unique (Rep.of_snoc h'.2.1.2) hx
        · exact h.2.2.parent_unique h'.2.2 hx
      · rw [if_neg hap] at h'
        rcases List.mem_cons.mp hx with rfl | hx
        · rw [h.1, h'.1]
        rcases List.mem_append.mp hx with hx | hx
        · exact ihk h.2.1.2 h'.2.1.2 hx
        · exact ihs h.2.2 h'.2.2 hx

omit [DecidableEq α] in
theorem Rep.parent_snoc (h : Rep F par (f.snoc c)) : F.parent c = par := by
  induction f with
  | nil => exact h.1
  | node a kids sibs _ ih => exact ih h.2.2

/-- The parent of a new leaf. -/
theorem Rep.parent_new (h : Rep F par (f.addChild p c)) (hp : p ∈ f.nodes) :
    F.parent c = some p := by
  induction f generalizing par with
  | nil => cases hp
  | node a kids sibs ihk ihs =>
      rw [Forest.addChild] at h
      by_cases hap : a = p
      · rw [if_pos hap] at h
        rw [h.2.1.2.parent_snoc, hap]
      · rw [if_neg hap] at h
        rcases List.mem_append.mp ((List.mem_cons.mp hp).resolve_left (Ne.symm hap)) with hp | hp
        · exact ihk h.2.1.2 hp
        · exact ihs h.2.2 hp

/-! ### Ancestors -/

def Descends (F : Family α) : α → α → Prop := Relation.ReflTransGen fun q p => F.parent p = some q

omit [DecidableEq α] in
/-- Every node descends from a root. -/
theorem Rep.exists_root (h : Rep F par f) (hx : x ∈ f.nodes) : ∃ r ∈ f.roots, Descends F r x := by
  induction f generalizing par with
  | nil => cases hx
  | node a kids sibs ihk ihs =>
      rcases List.mem_cons.mp hx with rfl | hx
      · exact ⟨x, List.mem_cons_self, .refl⟩
      rcases List.mem_append.mp hx with hx | hx
      · obtain ⟨r, hr, hd⟩ := ihk h.2.1.2 hx
        exact ⟨a, List.mem_cons_self, .head (h.2.1.2.parent_of_root hr) hd⟩
      · obtain ⟨r, hr, hd⟩ := ihs h.2.2 hx
        exact ⟨r, List.mem_cons_of_mem a hr, hd⟩

omit [DecidableEq α] in
theorem Kids.descends (h : Kids F p ks) (hx : x ∈ ks.nodes) : Descends F p x := by
  obtain ⟨r, hr, hd⟩ := h.2.exists_root hx
  exact .head (h.2.parent_of_root hr) hd

omit [DecidableEq α] in
/-- In a forest the descendants of `p` are the nodes below it. -/
theorem Rep.mem_of_descends (h : Rep F none f) (hnd : f.nodes.Nodup) (hp : Has p ks f)
    (hx : x ∈ f.nodes) (hd : Descends F p x) : x = p ∨ x ∈ ks.nodes := by
  induction hd with
  | refl => exact Or.inl rfl
  | @tail y z hd hz ih =>
      rcases mem_nodes_iff.mp hx with hr | hi
      · rw [h.parent_of_root hr] at hz
        cases hz
      obtain ⟨q, qs, hq, hzq, hparent⟩ := h.parent_of_inner hi
      obtain rfl : q = y := Option.some.inj (hparent.symm.trans hz)
      have hzn : z ∈ qs.nodes := mem_nodes_of_roots hzq
      right
      rcases ih hq.mem with rfl | hy
      · rwa [hp.unique hq hnd]
      · obtain ⟨ys, hys⟩ := exists_has hy
        rw [hq.unique (hp.trans hys) hnd] at hzn
        exact hys.kids_mem hzn

/-! ### Walking a forest -/

/-- The descendants of `p` in preorder, down to the given depth. -/
def descend (F : Family α) (width : ℕ) : ℕ → α → List α
  | 0, _ => []
  | n + 1, p => (members F.sib width (F.child p)).flatMap fun c => c :: descend F width n c

theorem descend_eq {width n : ℕ} (h : Kids F p ks) (hw : ks.nodes.length ≤ width)
    (hn : ks.nodes.length ≤ n) : descend F width n p = ks.nodes := by
  induction n generalizing p ks with
  | zero =>
      cases ks with
      | nil => rfl
      | node a kids sibs => simp [nodes] at hn
  | succ n ih =>
      rw [descend, h.1.members_eq (Nat.le_trans roots_length_le hw)]
      have hrep := h.2
      clear h
      induction ks with
      | nil => rfl
      | node a kids sibs _ ihs =>
          simp only [nodes, List.length_cons, List.length_append] at hw hn ⊢
          rw [roots, List.flatMap_cons, ih hrep.2.1 (by omega) (by omega),
            ihs (by omega) (by omega) hrep.2.2, List.cons_append]

end LinkForest
