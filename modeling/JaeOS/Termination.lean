import JaeOS.Semaphores

/-!
# What termination does

A process and its descendants are killed one by one, descendants first. Each leaves its semaphore,
if it waits on one, and becomes free. The lists of free and blocked processes survive this whatever
is killed; the ready queue survives if no descendant is in it, because `terminate_children` does not
take its victims out of that queue.
-/

open LinkRing LinkForest

namespace JaeOS

variable [Platform] {k : Kernel} {m : Links maxproc} {v : View} {p c t x : Pcb}
  {f ks : Forest Pcb} {pConst : Pcb} {l : List Pcb} {a : ℕ}

/-! ### The view of a killed process -/

@[simp] theorem leave_ready : (v.leave p).ready = v.ready := by
  unfold View.leave
  split
  · simp [View.unblock]
  · rfl

theorem leave_place_of_ne (hx : x ≠ p) : (v.leave p).place x = v.place x := by
  unfold View.leave
  split
  · simp [View.unblock, Function.update_of_ne hx]
  · rfl

theorem leave_place_self : (v.leave p).place p = v.place p ∨ (v.leave p).place p = .gone := by
  unfold View.leave
  split
  · exact Or.inr (Function.update_self ..)
  · exact Or.inl rfl

/-- After `leave` the process is in no semaphore queue. -/
theorem leave_not_blocked (b : ℕ) : (v.leave p).place p ≠ .blocked b := by
  unfold View.leave
  split
  · simp [View.unblock]
  · next h => exact h b

@[simp] theorem kill_place : (v.kill p).place x = if x = p then .free else v.place x := by
  by_cases hx : x = p
  · simp [hx, View.kill, View.bury, View.toFree]
  · simp [hx, View.kill, View.bury, View.toFree, leave_place_of_ne hx]

@[simp] theorem kill_ready : (v.kill p).ready = v.ready.erase p := by
  simp [View.kill, View.bury, View.toFree]

@[simp] theorem killAll_nil : v.killAll [] = v := rfl

@[simp] theorem killAll_cons : v.killAll (p :: l) = (v.kill p).killAll l := rfl

theorem killAll_append {l' : List Pcb} : v.killAll (l ++ l') = (v.killAll l).killAll l' :=
  List.foldl_append ..

theorem killAll_place : (v.killAll l).place x = if x ∈ l then .free else v.place x := by
  induction l generalizing v with
  | nil => simp
  | cons p l ih =>
      rw [killAll_cons, ih, kill_place]
      by_cases hxl : x ∈ l
      · simp [hxl]
      · simp [hxl]

theorem killAll_ready (h : ∀ x ∈ l, x ∉ v.ready) : (v.killAll l).ready = v.ready := by
  induction l generalizing v with
  | nil => rfl
  | cons p l ih =>
      have hp : (v.kill p).ready = v.ready := by
        rw [kill_ready, List.erase_of_not_mem (h p List.mem_cons_self)]
      rw [killAll_cons, ih, hp]
      intro x hx
      rw [hp]
      exact h x (List.mem_cons_of_mem p hx)

omit [Platform] in
theorem Lists.bury (h : Lists m v) (hf : v.place p ≠ .free) (hb : ∀ b, v.place p ≠ .blocked b) :
    Lists (freePcb p m) (v.bury p) := by
  have ht := h.toFree hf hb
  exact ⟨ht.free_ring, ht.asl, ht.mem_free, ht.mem_queue, ht.null, ht.cursem, ht.request_neg⟩

/-! ### One descendant -/

def Alive (v : View) (p : Pcb) : Prop := v.place p ≠ .free ∧ v.place p ≠ .gone

theorem Lists.leave_alive (ha : Alive v p) :
    (v.leave p).place p ≠ .free ∧ ∀ b, (v.leave p).place p ≠ .blocked b := by
  refine ⟨?_, leave_not_blocked⟩
  rcases leave_place_self (v := v) (p := p) with h | h
  · rw [h]
    exact ha.1
  · rw [h]
    exact Place.noConfusion

theorem terminateLeaf_run (h : Lists m v) (ha : Alive v p) :
    ∃ m', (terminateLeaf p).run (k.withLists m v) = .ok () (k.withLists m' (v.kill p)) ∧
      Lists m' (v.kill p) ∧ m'.family = m.family ∧
      ∀ x, v.place x = .ready → x ≠ p → m'.pList x = m.pList x := by
  obtain ⟨m₁, hrun, hl, hfam, hlist⟩ := leaveSemaphore_run (k := k) h ha.1 ha.2
  obtain ⟨hf, hb⟩ := Lists.leave_alive ha
  refine ⟨freePcb p m₁, ?_, hl.bury hf hb, hfam, fun x hx hxp => ?_⟩
  · rw [terminateLeaf, Program.run_bind_ok hrun]
    rfl
  · have hxf : x ∉ (v.leave p).free := fun hm => by
      have hplace := (hl.mem_free x).mp hm
      rw [leave_place_of_ne hxp, hx] at hplace
      cases hplace
    rw [freePcb_pList hl.free_ring hxf hxp]
    exact hlist x fun b => by simp [hx]

/-! ### All descendants -/

structure CutFrame (m m' : Links maxproc) (v : View) (p : Pcb) (ks : Forest Pcb) : Prop where
  child : m'.pChildren p = none
  parent_eq : ∀ x ∉ ks.nodes, m'.pParent x = m.pParent x
  child_eq : ∀ x ∉ ks.nodes, x ≠ p → m'.pChildren x = m.pChildren x
  sib_eq : ∀ x ∉ ks.nodes, m'.pSiblings x = m.pSiblings x
  linked : ∀ x, m.pSiblings x ≠ none → m'.pSiblings x ≠ none
  ready : ∀ x, v.place x = .ready → x ∉ ks.nodes → m'.pList x = m.pList x

/-- The loop kills the descendants of `p` in postorder and goes on with `p` itself. -/
theorem terminateChildrenLoop_run {n : ℕ} (h : Lists m v) (hk : Kids m.family p ks)
    (hnd : (p :: ks.nodes).Nodup) (ha : ∀ x ∈ ks.nodes, Alive v x) (hc : pConst ∉ ks.nodes)
    (hn : ks.nodes.length < n) :
    ∃ m', (terminateChildrenLoop n p pConst).run (k.withLists m v) =
        (if p ≠ pConst then terminateLeaf p else pure () : KM Unit).run
          (k.withLists m' (v.killAll ks.postorder)) ∧
      Lists m' (v.killAll ks.postorder) ∧ CutFrame m m' v p ks := by
  induction ks generalizing p m v n with
  | nil =>
      obtain ⟨n, rfl⟩ := Nat.exists_eq_add_one_of_ne_zero (Nat.ne_of_gt hn)
      refine ⟨m, ?_, h, ?_⟩
      · have hempty : emptyChild p (k.withLists m v).toLinks = true :=
          (emptyChild_iff hk).mpr rfl
        rw [terminateChildrenLoop, Program.run_gets_bind, if_pos hempty]
        rfl
      · exact { child := hk.1.tail_none_iff.mpr rfl
                parent_eq := fun _ _ => rfl
                child_eq := fun _ _ _ => rfl
                sib_eq := fun _ _ => rfl
                linked := fun _ hx => hx
                ready := fun _ _ _ => rfl }
  | node c cs sibs ihc ihs =>
      obtain ⟨n, rfl⟩ := Nat.exists_eq_add_one_of_ne_zero (Nat.ne_of_gt (Nat.zero_lt_of_lt hn))
      obtain ⟨hpn, hndk⟩ := List.nodup_cons.mp hnd
      obtain ⟨hcc, hcs, hndc, hnds, hdisj⟩ := Forest.nodup_node hndk
      have hmemc : ∀ x ∈ cs.nodes, x ∈ (Forest.node c cs sibs).nodes := fun x hx =>
        List.mem_cons_of_mem c (List.mem_append_left _ hx)
      have hmems : ∀ x ∈ sibs.nodes, x ∈ (Forest.node c cs sibs).nodes := fun x hx =>
        List.mem_cons_of_mem c (List.mem_append_right _ hx)
      have hpc : p ≠ c := fun he => hpn (he ▸ List.mem_cons_self)
      have hcC : c ≠ pConst := fun he => hc (he ▸ List.mem_cons_self)
      simp only [Forest.nodes, List.length_cons, List.length_append] at hn
      -- the first child is taken off `p`
      obtain ⟨link, tail, hrem, hring, hsib, hlinked⟩ := removeChild_run (χ := Ctl) hk.1
      let m₁ : Links maxproc :=
        { m with
          pParent := Function.update m.pParent c none
          pSiblings := link
          pChildren := Function.update m.pChildren p tail }
      have hl₁ : Lists m₁ v := h.congr rfl rfl rfl rfl rfl rfl rfl fun _ _ _ => rfl
      have hfirst : Kids m₁.family p sibs ∧ Kids m₁.family c cs :=
        hk.removeFirst hnd (fun x hx => Function.update_of_ne hx ..)
          (fun x hx => Function.update_of_ne hx ..) hsib
          (by
            have htail : m₁.family.child p = tail := Function.update_self ..
            rw [htail]
            exact hring)
      -- its descendants die, then the child itself
      obtain ⟨m₂, hrun₂, hl₂, hf₂⟩ := ihc (n := n) hl₁ hfirst.2 (List.nodup_cons.mpr ⟨hcc, hndc⟩)
        (fun x hx => ha x (hmemc x hx)) (fun hm => hc (hmemc _ hm)) (by omega)
      rw [if_pos hcC] at hrun₂
      have hac : Alive (v.killAll cs.postorder) c := by
        have hplace : (v.killAll cs.postorder).place c = v.place c := by
          rw [killAll_place, if_neg (fun hm => hcc (Forest.mem_postorder.mp hm))]
        unfold Alive
        rw [hplace]
        exact ha c List.mem_cons_self
      obtain ⟨m₃, hrun₃, hl₃, hfam₃, hready₃⟩ := terminateLeaf_run (k := k) hl₂ hac
      have hfam : m₃.pParent = m₂.pParent ∧ m₃.pChildren = m₂.pChildren ∧
          m₃.pSiblings = m₂.pSiblings := by
        simp only [Links.family, Family.mk.injEq] at hfam₃
        exact ⟨hfam₃.2.2, hfam₃.1, hfam₃.2.1⟩
      -- the other children
      have hkids₃ : Kids m₃.family p sibs := by
        rw [hfam₃]
        refine Kids.congr hfirst.1 ?_ (fun x hx => ?_) (fun x hx => ?_) fun x hx => ?_
        · exact hf₂.child_eq p (fun hm => hpn (hmemc p hm)) hpc
        · exact hf₂.parent_eq x fun hm => hdisj hm hx
        · exact hf₂.child_eq x (fun hm => hdisj hm hx) fun he => hcs (he ▸ hx)
        · exact hf₂.sib_eq x fun hm => hdisj hm hx
      have has : ∀ x ∈ sibs.nodes, Alive ((v.killAll cs.postorder).kill c) x := by
        intro x hx
        have hplace : ((v.killAll cs.postorder).kill c).place x = v.place x := by
          rw [kill_place, if_neg (ne_of_mem_of_not_mem hx hcs), killAll_place,
            if_neg (fun hm => hdisj (Forest.mem_postorder.mp hm) hx)]
        unfold Alive
        rw [hplace]
        exact ha x (hmems x hx)
      obtain ⟨m₄, hrun₄, hl₄, hf₄⟩ := ihs (n := n) hl₃ hkids₃
        (List.nodup_cons.mpr ⟨fun hm => hpn (hmems p hm), hnds⟩) has (fun hm => hc (hmems _ hm))
        (by omega)
      have hview : v.killAll (Forest.node c cs sibs).postorder =
          ((v.killAll cs.postorder).kill c).killAll sibs.postorder := by
        rw [Forest.postorder, killAll_append, killAll_cons]
      rw [hview]
      refine ⟨m₄, ?_, hl₄, ?_⟩
      · have hempty : ¬ emptyChild p (k.withLists m v).toLinks = true := fun he => by
          cases (emptyChild_iff hk).mp he
        rw [terminateChildrenLoop, Program.run_gets_bind, if_neg hempty,
          Program.run_bind_ok (onLinks_run hrem)]
        simp only [Program.need_some, Program.run_pure_bind]
        rw [Program.run_bind_ok (hrun₂.trans hrun₃)]
        exact hrun₄
      · have hout : ∀ x, x ∉ (Forest.node c cs sibs).nodes →
            x ≠ c ∧ x ∉ cs.nodes ∧ x ∉ sibs.nodes := fun x hx =>
          ⟨fun he => hx (he ▸ List.mem_cons_self), fun hm => hx (hmemc x hm),
            fun hm => hx (hmems x hm)⟩
        refine ⟨hf₄.child, fun x hx => ?_, fun x hx hxp => ?_, fun x hx => ?_, fun x hx => ?_,
          fun x hx hxn => ?_⟩
        · obtain ⟨hxc, hx₁, hx₂⟩ := hout x hx
          rw [hf₄.parent_eq x hx₂, hfam.1, hf₂.parent_eq x hx₁]
          exact Function.update_of_ne hxc ..
        · obtain ⟨hxc, hx₁, hx₂⟩ := hout x hx
          rw [hf₄.child_eq x hx₂ hxp, hfam.2.1, hf₂.child_eq x hx₁ hxc]
          exact Function.update_of_ne hxp ..
        · obtain ⟨hxc, hx₁, hx₂⟩ := hout x hx
          rw [hf₄.sib_eq x hx₂, hfam.2.2, hf₂.sib_eq x hx₁]
          refine hsib x fun hm => ?_
          rcases List.mem_cons.mp hm with rfl | hm
          · exact hxc rfl
          · exact hx₂ (Forest.mem_nodes_of_roots hm)
        · refine hf₄.linked x ?_
          rw [hfam.2.2]
          exact hf₂.linked x (hlinked x hx)
        · obtain ⟨hxc, hx₁, hx₂⟩ := hout x hxn
          have hplace : (v.killAll cs.postorder).place x = .ready := by
            rw [killAll_place, if_neg (fun hm => hx₁ (Forest.mem_postorder.mp hm)), hx]
          have hplace' : ((v.killAll cs.postorder).kill c).place x = .ready := by
            rw [kill_place, if_neg hxc, hplace]
          rw [hf₄.ready x hplace' hx₂, hready₃ x hplace hxc, hf₂.ready x hx hx₁]

/-! ### The tree -/

structure Tree (m : Links maxproc) (f : Forest Pcb) : Prop where
  rep : Rep m.family none f
  nodup : f.nodes.Nodup

omit [Platform] in
theorem Tree.length_le (h : Tree m f) : f.nodes.length ≤ maxproc := by
  have hcard := List.Nodup.length_le_card h.nodup
  simpa using hcard

omit [Platform] in
theorem Tree.kids_nodup (h : Tree m f) (hp : Forest.Has p ks f) : (p :: ks.nodes).Nodup :=
  List.nodup_cons.mpr (hp.nodup h.nodup)

/-- `terminate_children(p, p)`. -/
theorem terminateChildren_run (h : Lists m v) (ht : Tree m f) (hp : Forest.Has p ks f)
    (ha : ∀ x ∈ ks.nodes, Alive v x) :
    ∃ m', (terminateChildren p p).run (k.withLists m v) =
        .ok () (k.withLists m' (v.killAll ks.postorder)) ∧
      Lists m' (v.killAll ks.postorder) ∧ Tree m' (f.dropKids p) ∧ CutFrame m m' v p ks := by
  have hnd := ht.kids_nodup hp
  have hlen : ks.nodes.length < maxproc + 1 := by
    have := hp.kids_length
    have := ht.length_le
    omega
  obtain ⟨m', hrun, hl, hf⟩ := terminateChildrenLoop_run (k := k) h (ht.rep.kids hp) hnd ha
    (List.nodup_cons.mp hnd).1 hlen
  refine ⟨m', ?_, hl, ⟨?_, ?_⟩, hf⟩
  · rw [terminateChildren, hrun, if_neg (not_not_intro rfl)]
    rfl
  · exact ht.rep.dropKids hp ht.nodup hf.child hf.parent_eq hf.child_eq hf.sib_eq
  · exact ht.nodup.sublist Forest.nodes_dropKids_sublist

omit [Platform] in
/-- `outChild` takes a childless process out of the tree. -/
theorem outChild_tree (ht : Tree m f) (hp : Forest.Has p .nil f) :
    ∃ m' r, (outChild p : Program (Links maxproc) Ctl Fault _).run m = .ok r m' ∧
      Tree m' (f.remove p) ∧ (∀ v, Lists m v → Lists m' v) ∧ m'.pList = m.pList ∧
      ∀ x, m.pSiblings x ≠ none → m'.pSiblings x ≠ none := by
  have hnd : (f.remove p).nodes.Nodup := ht.nodup.sublist Forest.nodes_remove_sublist
  rcases Forest.mem_nodes_iff.mp hp.mem with hroot | hinner
  · have hnone : m.pParent p = none := ht.rep.parent_of_root hroot
    refine ⟨m, none, outChild_root hnone, ⟨?_, hnd⟩, fun _ h => h, rfl, fun _ h => h⟩
    exact ht.rep.removeRoot hp hroot ht.nodup (fun _ _ => rfl) (fun _ _ => rfl) fun _ _ => rfl
  · obtain ⟨q, qs, hq, hroot, hparent⟩ := ht.rep.parent_of_inner hinner
    obtain ⟨ks, hks⟩ := Forest.exists_has (Forest.mem_nodes_of_roots hroot)
    obtain rfl : ks = .nil := (hq.trans hks).unique hp ht.nodup
    obtain ⟨link, tail, hrun, hring, hsib, hlinked⟩ := outChild_run (χ := Ctl) (p := p) hparent
      (ht.rep.kids hq).1
    refine ⟨_, some p, hrun, ⟨?_, hnd⟩, fun v h => ?_, rfl, hlinked⟩
    · refine ht.rep.removeLeaf hq hks hroot ht.nodup (fun x hx => Function.update_of_ne hx ..)
        (fun x hx => Function.update_of_ne hx ..) hsib ?_
      have htail : Function.update m.pChildren q tail q = tail := Function.update_self ..
      rw [Forest.roots_remove]
      change Ring link (Function.update m.pChildren q tail q) _
      rw [htail]
      exact hring
    · exact h.congr rfl rfl rfl rfl rfl rfl rfl fun _ _ _ => rfl

/-! ### The killed process itself -/

omit [Platform] in
theorem bury_ready_ring {t' : Option Pcb} (h : Lists m v) (hf : v.place p ≠ .free)
    (hr : Ring m.pList t' (v.ready.erase p)) (hmem : ∀ x, x ∈ v.ready ↔ v.place x = .ready)
    (hnd : v.ready.Nodup) : ReadyRing (freePcb p m) t' (v.bury p) := by
  have hplace : ∀ x, (v.bury p).place x = if x = p then .free else v.place x := fun x =>
    Function.update_apply ..
  refine ⟨hr.congr fun x hx => freePcb_pList h.free_ring (fun hm => ?_) ?_, fun x => ?_⟩
  · have hready := (hmem x).mp (List.mem_of_mem_erase hx)
    rw [(h.mem_free x).mp hm] at hready
    cases hready
  · rintro rfl
    exact List.Nodup.not_mem_erase hnd hx
  · rw [hplace]
    simp only [View.bury, View.toFree]
    split
    · next hxp => simp [hxp, List.Nodup.not_mem_erase hnd]
    · next hxp => rw [List.mem_erase_of_ne hxp]; exact hmem x

omit [Platform] in
/-- A killed process leaves tree and ready queue and becomes free; if the ready queue is no ring
any more, the search in it may not end. -/
theorem discard_run (h : Lists m v) (hf : v.place p ≠ .free) (hb : ∀ b, v.place p ≠ .blocked b)
    (ht : Tree m f) (hp : Forest.Has p .nil f) :
    (∃ e, (discard p).run (k.withLists m v) = .fault e) ∨
    ∃ m' t', (discard p).run (k.withLists m v) = .ok () ((k.setReady t').withLists m' (v.bury p)) ∧
      Lists m' (v.bury p) ∧ Tree m' (f.remove p) ∧
      ∀ x, m.pSiblings x ≠ none → m'.pSiblings x ≠ none := by
  obtain ⟨m₁, r, hrun₁, ht₁, hl₁, -, hlinked⟩ := outChild_tree ht hp
  have hstart : (discard p).run (k.withLists m v) =
      (do
        let r ← onLinks (outProcQ k.readyqueue p)
        Program.modify fun k => { k with readyqueue := r.2 }
        Program.modify fun k => k.setLinks (freePcb p k.toLinks) : KM Unit).run
          (k.withLists m₁ { v with alive := v.alive - 1 }) := by
    rw [discard, run_addProcessCount_bind, Program.run_bind_ok (onLinks_run hrun₁)]
    simp only [Program.run_gets_bind, withLists_readyqueue, Int.sub_eq_add_neg]
  have hspec := outProcQ_relinks (χ := Ctl) m₁ k.readyqueue p m₁ rfl
  rw [hstart]
  cases hout : (outProcQ k.readyqueue p : Program (Links maxproc) Ctl Fault _).run m₁ with
  | exit c s => rw [hout] at hspec; exact hspec.elim
  | fault e =>
      refine Or.inl ⟨e, Program.run_bind_fault ?_ _⟩
      simp only [onLinks, Program.zoom, withLists_toLinks, hout]
  | ok r m₂ =>
      rw [hout] at hspec
      obtain ⟨link, rfl, hlink⟩ := hspec
      have hl := hl₁ v h
      -- the rings of free and of blocked processes hold no link to `p`
      have hl₂ : Lists { m₁ with pList := link } v := by
        have hring : ∀ (tl : Option Pcb) (l : List Pcb), Ring m₁.pList tl l → p ∉ l →
            ∀ x ∈ l, link x = m₁.pList x := by
          intro tl l hr hpl x hx
          refine hlink x fun he => hpl ?_
          obtain ⟨y, hy, hxy⟩ := hr.next_mem hx
          exact Option.some.inj (he.symm.trans hxy) ▸ hy
        obtain ⟨ds, fs, hasl⟩ := hl.asl
        refine ⟨?_, ⟨ds, fs, ?_⟩, hl.mem_free, hl.mem_queue, hl.null, hl.cursem, hl.request_neg⟩
        · exact hl.free_ring.congr (hring _ _ hl.free_ring fun hm => hf ((hl.mem_free p).mp hm))
        · refine hasl.congr rfl rfl rfl rfl rfl fun b x hx => ⟨?_, rfl⟩
          obtain ⟨d, hd, rfl⟩ := hasl.covered b (List.ne_nil_of_mem hx)
          exact hring _ _ (hasl.procq d hd) (hl.not_mem_queue hb _) x hx
      refine Or.inr ⟨_, r.2, ?_, hl₂.bury hf hb, ⟨ht₁.rep, ht₁.nodup⟩, hlinked⟩
      rw [Program.run_bind_ok (onLinks_run hout)]
      rfl

omit [Platform] in
theorem discard_total (h : Lists m v) (hr : ReadyRing m k.readyqueue v) (hf : v.place p ≠ .free)
    (hb : ∀ b, v.place p ≠ .blocked b) (ht : Tree m f) (hp : Forest.Has p .nil f) :
    ∃ m' t', (discard p).run (k.withLists m v) = .ok () ((k.setReady t').withLists m' (v.bury p)) ∧
      Lists m' (v.bury p) ∧ ReadyRing m' t' (v.bury p) ∧ Tree m' (f.remove p) ∧
      ∀ x, m.pSiblings x ≠ none → m'.pSiblings x ≠ none := by
  obtain ⟨m₁, r, hrun₁, ht₁, hl₁, hlist, hlinked⟩ := outChild_tree ht hp
  have hl := hl₁ v h
  have hring : Ring m₁.pList k.readyqueue v.ready := by
    rw [hlist]
    exact hr.ring
  have hstart : ∀ (q : Option Pcb × Option Pcb) (link : Pcb → Option Pcb),
      (outProcQ k.readyqueue p : Program (Links maxproc) Ctl Fault _).run m₁ =
        .ok q { m₁ with pList := link } →
      (discard p).run (k.withLists m v) = .ok () ((k.setReady q.2).withLists
        (freePcb p { m₁ with pList := link }) (v.bury p)) := by
    intro q link hout
    rw [discard, run_addProcessCount_bind, Program.run_bind_ok (onLinks_run hrun₁)]
    simp only [Program.run_gets_bind, withLists_readyqueue]
    rw [Program.run_bind_ok (onLinks_run hout)]
    rfl
  by_cases hpr : p ∈ v.ready
  · obtain ⟨link, tail, hout, hring', hframe⟩ := outProcQ_run (χ := Ctl) hring hpr
    have hl' : Lists { m₁ with pList := link } v := by
      refine hl.congr rfl rfl rfl rfl rfl rfl rfl fun x hx _ => hframe x fun hm => hx ?_
      exact (hr.mem x).mp hm
    exact ⟨_, tail, hstart _ _ hout, hl'.bury hf hb,
      bury_ready_ring hl' hf hring' hr.mem hr.ring.nodup, ⟨ht₁.rep, ht₁.nodup⟩, hlinked⟩
  · have hout := outProcQ_absent (χ := Ctl) hring hpr
    refine ⟨_, k.readyqueue, hstart _ _ hout, hl.bury hf hb, ?_, ⟨ht₁.rep, ht₁.nodup⟩, hlinked⟩
    refine bury_ready_ring hl hf ?_ hr.mem hr.ring.nodup
    rw [List.erase_of_not_mem hpr]
    exact hring

/-! ### A subtree -/

theorem ReadyRing.killAll {m' : Links maxproc} {t : Option Pcb} (hr : ReadyRing m t v)
    (hl : ∀ x ∈ l, v.place x ≠ .ready)
    (hlist : ∀ x, v.place x = .ready → x ∉ l → m'.pList x = m.pList x) :
    ReadyRing m' t (v.killAll l) := by
  have hnot : ∀ x ∈ l, x ∉ v.ready := fun x hx hm => hl x hx ((hr.mem x).mp hm)
  refine hr.congr (killAll_ready hnot) (fun x hx => ?_) fun x => ?_
  · exact hlist x ((hr.mem x).mp hx) fun hm => hnot x hm hx
  · rw [killAll_place]
    split
    · next hx => exact ⟨Place.noConfusion, fun h => absurd h (hl x hx)⟩
    · rfl

/-- What killing the progeny `ks` of `p` and taking `p` from its semaphore leaves for `discard`. -/
structure Orphaned (m m' : Links maxproc) (v : View) (f ks : Forest Pcb) (p : Pcb) : Prop where
  lists : Lists m' ((v.killAll ks.postorder).leave p)
  tree : Tree m' (f.dropKids p)
  not_free : ((v.killAll ks.postorder).leave p).place p ≠ .free
  linked : ∀ x, m.pSiblings x ≠ none → m'.pSiblings x ≠ none
  ready : ∀ t, ReadyRing m t v → (∀ x ∈ ks.nodes, v.place x ≠ .ready) →
    ReadyRing m' t ((v.killAll ks.postorder).leave p)

theorem terminateChildren_orphaned (h : Lists m v) (ht : Tree m f)
    (ha : ∀ x ∈ f.nodes, Alive v x) (hp : Forest.Has p ks f) (hb : ∀ a, v.place p ≠ .blocked a) :
    ∃ m', (terminateChildren p p).run (k.withLists m v) =
        .ok () (k.withLists m' ((v.killAll ks.postorder).leave p)) ∧ Orphaned m m' v f ks p := by
  obtain ⟨hpk, -⟩ := hp.nodup ht.nodup
  obtain ⟨m₁, hrun, hl, htree, hf⟩ := terminateChildren_run (k := k) h ht hp
    fun x hx => ha x (hp.kids_mem hx)
  have hplace : (v.killAll ks.postorder).place p = v.place p := by
    rw [killAll_place, if_neg (fun hm => hpk (Forest.mem_postorder.mp hm))]
  have hleave : (v.killAll ks.postorder).leave p = v.killAll ks.postorder := by
    unfold View.leave
    rw [hplace]
    split
    · next a hpa => exact absurd hpa (hb a)
    · rfl
  refine ⟨m₁, by rw [hleave, hrun], ⟨by rwa [hleave], htree, ?_, hf.linked, fun t hr hn => ?_⟩⟩
  · rw [hleave, hplace]
    exact (ha p hp.mem).1
  · rw [hleave]
    exact hr.killAll (fun x hx => hn x (Forest.mem_postorder.mp hx)) fun x hx hxn =>
      hf.ready x hx fun hm => hxn (Forest.mem_postorder.mpr hm)

/-- The search has found `p`: its progeny dies and it leaves its semaphore. -/
theorem terminateTree_orphaned (h : Lists m v) (ht : Tree m f) (ha : ∀ x ∈ f.nodes, Alive v x)
    (hp : Forest.Has p ks f) :
    ∃ m', (terminateTree p).run (k.withLists m v) =
        (discard p).run (k.withLists m' ((v.killAll ks.postorder).leave p)) ∧
      Orphaned m m' v f ks p := by
  obtain ⟨hpk, -⟩ := hp.nodup ht.nodup
  obtain ⟨m₁, hrun₁, hl₁, ht₁, hf₁⟩ := terminateChildren_run (k := k) h ht hp
    fun x hx => ha x (hp.kids_mem hx)
  have hplace : (v.killAll ks.postorder).place p = v.place p := by
    rw [killAll_place, if_neg (fun hm => hpk (Forest.mem_postorder.mp hm))]
  have hap : Alive (v.killAll ks.postorder) p := by
    unfold Alive
    rw [hplace]
    exact ha p hp.mem
  obtain ⟨m₂, hrun₂, hl₂, hfam₂, hlist₂⟩ := leaveSemaphore_run (k := k) hl₁ hap.1 hap.2
  have hsib : m₂.pSiblings = m₁.pSiblings := congrArg Family.sib hfam₂
  refine ⟨m₂, ?_, ⟨hl₂, ⟨hfam₂ ▸ ht₁.rep, ht₁.nodup⟩, (Lists.leave_alive hap).1, fun x hx => ?_,
    fun t hr hn => ?_⟩⟩
  · rw [terminateTree, Program.run_bind_ok hrun₁, Program.run_bind_ok hrun₂]
  · rw [hsib]
    exact hf₁.linked x hx
  · have hr₁ : ReadyRing m₁ t (v.killAll ks.postorder) :=
      hr.killAll (fun x hx => hn x (Forest.mem_postorder.mp hx)) fun x hx hxn =>
        hf₁.ready x hx fun hm => hxn (Forest.mem_postorder.mpr hm)
    refine hr₁.congr leave_ready (fun x hx => hlist₂ x fun b => ?_) fun x => ?_
    · rw [(hr₁.mem x).mp hx]
      exact Place.noConfusion
    · by_cases hxp : x = p
      · subst hxp
        unfold View.leave
        split
        · next b hb => simp [View.unblock, hb]
        · rfl
      · rw [leave_place_of_ne hxp]

/-- After `discard` the processes of the subtree are killed in postorder, `p` last. -/
structure Removed (m m' : Links maxproc) (v : View) (f ks : Forest Pcb) (p : Pcb) : Prop where
  lists : Lists m' (v.killAll (ks.postorder ++ [p]))
  tree : Tree m' (f.remove p)
  linked : ∀ x, m.pSiblings x ≠ none → m'.pSiblings x ≠ none

theorem killAll_concat : v.killAll (l ++ [p]) = ((v.killAll l).leave p).bury p := by
  rw [killAll_append]
  rfl

/-- How killing `p` with its progeny `ks` may end: if a descendant is ready the search in the ready
queue may not come to an end; otherwise the ready queue survives. -/
def TreeKilled (o : Outcome Kernel Ctl Fault Unit) (k : Kernel) (m : Links maxproc) (v : View)
    (f ks : Forest Pcb) (p : Pcb) : Prop :=
  (∃ e, o = .fault e ∧ ∃ x ∈ ks.nodes, v.place x = .ready) ∨
  ∃ m' t, o = .ok () ((k.setReady t).withLists m' (v.killAll (ks.postorder ++ [p]))) ∧
    Removed m m' v f ks p ∧
    ((∀ x ∈ ks.nodes, v.place x ≠ .ready) → ReadyRing m' t (v.killAll (ks.postorder ++ [p])))

theorem Orphaned.discard {m' : Links maxproc} (h : Orphaned m m' v f ks p)
    (hr : ReadyRing m k.readyqueue v) (hp : Forest.Has p ks f) (hnd : f.nodes.Nodup) :
    TreeKilled ((JaeOS.discard p).run (k.withLists m' ((v.killAll ks.postorder).leave p)))
      k m v f ks p := by
  rw [TreeKilled, killAll_concat]
  have hremoved : ∀ m'', Lists m'' (((v.killAll ks.postorder).leave p).bury p) →
      Tree m'' ((f.dropKids p).remove p) → (∀ x, m'.pSiblings x ≠ none → m''.pSiblings x ≠ none) →
      Removed m m'' v f ks p := by
    intro m'' hl ht hs
    rw [Forest.remove_dropKids] at ht
    exact ⟨killAll_concat ▸ hl, ht, fun x hx => hs x (h.linked x hx)⟩
  by_cases hn : ∀ x ∈ ks.nodes, v.place x ≠ .ready
  · obtain ⟨m'', t', hrun, hl, hr', ht, hs⟩ := discard_total h.lists (h.ready _ hr hn) h.not_free
      leave_not_blocked h.tree (hp.dropKids hnd)
    exact Or.inr ⟨m'', t', hrun, hremoved m'' hl ht hs, fun _ => hr'⟩
  · rcases discard_run (k := k) h.lists h.not_free leave_not_blocked h.tree (hp.dropKids hnd)
      with ⟨e, he⟩ | ⟨m'', t', hrun, hl, ht, hs⟩
    · push Not at hn
      exact Or.inl ⟨e, he, hn⟩
    · exact Or.inr ⟨m'', t', hrun, hremoved m'' hl ht hs, fun hn' => absurd hn' hn⟩

end JaeOS
