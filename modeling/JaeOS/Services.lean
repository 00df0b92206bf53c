import JaeOS.Performs

/-!
# The services as moves

Every service makes at most one move, which the core and the arguments determine before it starts.
-/

open LinkRing LinkForest Transition

namespace JaeOS

variable [Platform]

def terminated (κ : Core) (c : Pcb) (pid : Word) : Option Pcb :=
  if pid = 0 ∨ pid = κ.pid c then some c
  else (descend κ.links.family maxproc maxproc c).find? fun x => κ.pid x = pid

def semAct (c : Pcb) (a : ℕ) (w : ℤ) : Option Act :=
  if a = 0 then none
  else if w = 0 then some (.terminate c)
  else if w < 0 then some (.passeren a w)
  else some (.verhogen a w)

/-- A second handler for the same kind of exception is fatal, -/
def specifyAct (κ : Core) (c : Pcb) (e : Excp) : Option Act :=
  if κ.tags c e then some (.terminate c) else none

/-- and so is an exception without a handler. -/
def trapAct (κ : Core) (c : Pcb) (e : Excp) : Option Act :=
  if κ.tags c e then none else some (.terminate c)

def serviceAct (κ : Core) (c : Pcb) (sys a2 a3 a4 : Word) : Option Act :=
  if sys = 1 then some .create
  else if sys = 2 then (terminated κ c a2).map .terminate
  else if sys = 3 then semAct c a2.toNat a3.toInt
  else if sys = 4 then specifyAct κ c .sys
  else if sys = 5 then specifyAct κ c .tlb
  else if sys = 6 then specifyAct κ c .pgmtp
  else if sys = 9 then some (.passeren (semAddr (maxDevices - 1)) (-1))
  else if sys = 10 then some (.passeren (semAddr (semIndex a3 (termRead a3 a4) a4)) (-1))
  else none

variable {k k₀ s s' : Kernel} {κ : Core} {v : View} {c t p : Pcb} {ks : Forest Pcb} {pid : Word}
  {a : ℕ} {w : ℤ} {act : Option Act} {F : Fault → Prop} {e : Excp}

/-! ### Termination -/

theorem terminateProcess_run (pid : Word) (h : WellFormed k.core v)
    (hc : k.currentProcess = some c) :
    match terminated k.core c pid with
    | none => (terminateProcess pid).run k = .exit .panic k
    | some t => ∃ ks k₀, Forest.Has t ks v.tree ∧ c ∉ ks.nodes ∧
        (k₀.currentProcess = if t = c then none else some c) ∧
        TreeKilled ((terminateProcess pid).run k) k₀ k.toLinks v v.tree ks t := by
  obtain ⟨hoff, hmem⟩ := h.current c hc
  obtain ⟨cs, hcs⟩ := Forest.exists_has hmem
  have hl : Lists k.toLinks v := h.lists
  have hr : ReadyRing k.toLinks k.readyqueue v := h.ready
  have ht : Tree k.toLinks v.tree := h.tree
  have hk := h.withLists
  obtain ⟨hccs, -⟩ := hcs.nodup ht.nodup
  rw [terminated]
  by_cases hpid : pid = 0 ∨ pid = k.core.pid c
  · rw [if_pos hpid]
    have hkilled := terminateProcess_own hl hr ht h.alive_tree hc hoff hcs hpid
    rw [hk] at hkilled
    exact ⟨cs, _, hcs, hccs, (if_pos rfl).symm, hkilled⟩
  · rw [if_neg hpid]
    have hlen := hcs.kids_length
    have hle := ht.length_le
    have hdesc : descend k.core.links.family maxproc maxproc c = cs.nodes :=
      descend_eq (ht.rep.kids hcs) (by omega) (by omega)
    have hother := terminateProcess_other hl hr ht h.alive_tree hc hcs hpid
    rw [hk] at hother
    rw [hdesc]
    cases hfind : cs.nodes.find? (fun x => k.core.pid x = pid) with
    | none =>
        rw [show cs.nodes.find? (fun x => k.pid x = pid) = none from hfind] at hother
        exact hother
    | some t =>
        rw [show cs.nodes.find? (fun x => k.pid x = pid) = some t from hfind] at hother
        have htc : t ∈ cs.nodes := List.mem_of_find?_eq_some hfind
        obtain ⟨ts, hts⟩ := Forest.exists_has htc
        have hne : t ≠ c := ne_of_mem_of_not_mem htc hccs
        refine ⟨ts, k, hcs.trans hts, fun hm => hccs (hts.kids_mem hm), ?_,
          hother ts (hcs.trans hts)⟩
        rw [if_neg hne, hc]

/-- After a subtree has died the other processes are where they were. -/
theorem Rep.terminate {m' : Links maxproc} {q : Option Pcb} (h : Rep κ v)
    (hp : Forest.Has t ks v.tree) (hc : κ.currentProcess = some c) (hck : c ∉ ks.nodes)
    (hk₀ : k₀.currentProcess = if t = c then none else some c)
    (hrem : Removed κ.links m' v v.tree ks t)
    (hready : ReadyRing m' q (v.killAll (ks.postorder ++ [t]))) :
    Rep ((k₀.setReady q).withLists m' (v.killAll (ks.postorder ++ [t]))).core
      (v.terminate t ks) := by
  have hmem : ∀ x, x ∈ ks.postorder ++ [t] ↔ x = t ∨ x ∈ ks.nodes := by
    intro x
    rw [List.mem_append, List.mem_singleton, Forest.mem_postorder, or_comm]
  have hplace : ∀ x, (v.terminate t ks).place x = if x = t ∨ x ∈ ks.nodes then .free
      else v.place x := by
    intro x
    change (v.killAll (ks.postorder ++ [t])).place x = _
    rw [killAll_place]
    simp only [hmem]
  have hl : Lists m' (v.terminate t ks) := by
    obtain ⟨h₁, h₂, h₃, h₄, h₅, h₆, h₇⟩ := hrem.lists
    exact ⟨h₁, h₂, h₃, h₄, h₅, h₆, h₇⟩
  refine Rep.of_lists (v := v.terminate t ks) hl ⟨hready.ring, hready.mem⟩ hrem.tree
    (fun x => ?_) (fun x => ?_) fun x => ?_
  · rw [hplace]
    have hx := Forest.mem_nodes_remove (x := x) hp h.tree.nodup
    rw [View.terminate, hx, h.mem_tree]
    split
    · next hxt => simp only [ne_eq, not_true_eq_false, iff_false]; tauto
    · next hxt => tauto
  · rw [hplace]
    split
    · exact Place.noConfusion
    · exact h.not_gone x
  · rw [hplace, hk₀]
    have hx := h.off x
    rw [hc] at hx
    by_cases htc : t = c
    · subst htc
      rw [if_pos rfl]
      split
      · simp
      · next hxt =>
        rw [hx]
        simp only [Option.some.injEq, reduceCtorEq, iff_false]
        exact fun he => hxt (Or.inl he.symm)
    · rw [if_neg htc]
      split
      · next hxt =>
        simp only [reduceCtorEq, Option.some.injEq, false_iff]
        rintro rfl
        rcases hxt with hxt | hxt
        · exact htc hxt.symm
        · exact hck hxt
      · exact hx

theorem terminateProcess_performs (pid : Word) (h : Rep κ v) (hc : κ.currentProcess = some c)
    (ht : Tame v ((terminated κ c pid).map .terminate)) :
    Performs F κ (terminateProcess pid) ((terminated κ c pid).map .terminate) v := by
  rintro s rfl
  have hrun := terminateProcess_run pid h.toWellFormed hc
  cases hterm : terminated s.core c pid with
  | none =>
      rw [hterm] at hrun
      rw [hrun]
      exact Does.none h
  | some t =>
      rw [hterm] at hrun ht
      obtain ⟨ks, k₀, hp, hck, hk₀, hkilled⟩ := hrun
      have hidle : ∀ x ∈ ks.nodes, v.place x ≠ .ready := ht t rfl ks hp
      rcases hkilled with ⟨e, -, x, hx, hready⟩ | ⟨m', q, hok, hrem, hready⟩
      · exact absurd hready (hidle x hx)
      · rw [hok]
        exact Does.single (.terminate hp hidle)
          (h.terminate hp hc hck hk₀ hrem (hready hidle))

/-! ### Creation -/

omit [Platform] in
theorem take_place {l : List Pcb} {x : Pcb} :
    (v.take p l).place x = if x = p then .off else v.place x := Function.update_apply ..

omit [Platform] in
theorem create_place {l : List Pcb} {x : Pcb} :
    (v.create c p l).place x = if x = p then .ready else v.place x := by
  change Function.update (v.take p l).place p .ready x = _
  rw [Function.update_apply, take_place]
  split <;> rfl

omit [Platform] in
/-- The new PCB, its pointers reset, becomes the youngest child of `c`. -/
theorem Tree.insertChild {m m₁ : Links maxproc} {f : Forest Pcb} (h : Tree m f)
    (hp : Forest.Has c ks f) (hpf : p ∉ f.nodes)
    (hparent : m₁.pParent = Function.update m.pParent p none)
    (hchild : m₁.pChildren = Function.update m.pChildren p none)
    (hsib : m₁.pSiblings = Function.update m.pSiblings p none) :
    Tree (JaeOS.insertChild c p m₁) (f.addChild c p) := by
  have hpc : p ≠ c := fun he => hpf (he ▸ hp.mem)
  have hpk : p ∉ ks.nodes := fun hm => hpf (hp.kids_mem hm)
  have hkids₁ : Kids m₁.family c ks := by
    refine (h.rep.kids hp).congr ?_ (fun x hx => ?_) (fun x hx => ?_) fun x hx => ?_
    · simp only [Links.family, hchild, Function.update_of_ne hpc.symm]
    · simp only [Links.family, hparent, Function.update_of_ne (ne_of_mem_of_not_mem hx hpk)]
    · simp only [Links.family, hchild, Function.update_of_ne (ne_of_mem_of_not_mem hx hpk)]
    · simp only [Links.family, hsib, Function.update_of_ne (ne_of_mem_of_not_mem hx hpk)]
  refine ⟨h.rep.addChild hp h.nodup hpf ?_ ?_ (fun x hx => ?_) (fun x hx hxc => ?_)
    (fun x hx hxp => ?_) (insertChild_ring hkids₁.1 fun hm => hpk (Forest.mem_nodes_of_roots hm)),
    ?_⟩
  · simp only [Links.family, JaeOS.insertChild, Function.update_of_ne hpc, hchild,
      Function.update_self]
  · simp only [Links.family, JaeOS.insertChild, Function.update_self]
  · simp only [Links.family, JaeOS.insertChild, Function.update_of_ne hx, hparent]
  · simp only [Links.family, JaeOS.insertChild, Function.update_of_ne hxc, hchild,
      Function.update_of_ne hx]
  · have hlink := insertChild_pSiblings (p := p) hkids₁.1 hx hxp
    simp only [Links.family, hlink, hsib, Function.update_of_ne hxp]
  · exact (Forest.nodes_addChild_perm hp h.nodup).nodup_iff.mpr (List.nodup_cons.mpr ⟨hpf, h.nodup⟩)

structure Created (κ κ' : Core) (m : Links maxproc) (c p : Pcb) : Prop where
  links : κ'.links = (insertProcQ κ.readyqueue p (JaeOS.insertChild c p m)).2
  resWait : κ'.resWait = Function.update κ.resWait p 0
  ints : κ'.ints = κ.ints
  processCount : κ'.processCount = κ.processCount + 1
  softBlockCount : κ'.softBlockCount = κ.softBlockCount
  readyqueue : κ'.readyqueue = (insertProcQ κ.readyqueue p (JaeOS.insertChild c p m)).1
  currentProcess : κ'.currentProcess = κ.currentProcess

omit [Platform] in
theorem Rep.create {κ' : Core} {m : Links maxproc} {l : List Pcb} (h : Rep κ v)
    (hc : κ.currentProcess = some c) (hf : v.free = p :: l) (hl : Lists m (v.take p l))
    (hlist : ∀ x, v.place x ≠ .free → m.pList x = κ.links.pList x)
    (hparent : m.pParent = Function.update κ.links.pParent p none)
    (hchild : m.pChildren = Function.update κ.links.pChildren p none)
    (hsib : m.pSiblings = Function.update κ.links.pSiblings p none) (hκ : Created κ κ' m c p) :
    Rep κ' (v.create c p l) := by
  have hpf : v.place p = .free := (h.lists.mem_free p).mp (by simp [hf])
  have hoff := h.current_off hc
  have hcp : c ≠ p := by
    rintro rfl
    rw [hoff] at hpf
    cases hpf
  have hr : ReadyRing m κ.readyqueue (v.take p l) := by
    refine h.ready.congr rfl (fun x hx => hlist x ?_) fun x => ?_
    · rw [(h.ready.mem x).mp hx]
      exact Place.noConfusion
    · rw [take_place]
      split
      · next hxp => simp [hxp, hpf]
      · rfl
  have hl' : Lists (JaeOS.insertChild c p m) (v.take p l) :=
    hl.congr rfl rfl rfl rfl rfl rfl rfl fun _ _ _ => rfl
  have hr' : ReadyRing (JaeOS.insertChild c p m) κ.readyqueue (v.take p l) := ⟨hr.ring, hr.mem⟩
  obtain ⟨hl₂, hr₂⟩ := hl'.toReady hr' (Function.update_self ..)
  obtain ⟨ks, hks⟩ := Forest.exists_has ((h.mem_tree c).mpr (by simp [hoff]))
  have hptree : p ∉ v.tree.nodes := fun hm => (h.mem_tree p).mp hm hpf
  have htree := h.tree.insertChild hks hptree hparent hchild hsib
  have hmem : ∀ x, x ∈ (v.tree.addChild c p).nodes ↔ (v.create c p l).place x ≠ .free := by
    intro x
    rw [(Forest.nodes_addChild_perm hks h.tree.nodup).mem_iff, List.mem_cons, h.mem_tree,
      create_place]
    split
    · next hxp => simp [hxp]
    · next hxp => simp [hxp]
  have hgone : ∀ x, (v.create c p l).place x ≠ .gone := by
    intro x
    rw [create_place]
    split
    · exact Place.noConfusion
    · exact h.not_gone x
  have hcreated : ∀ x, (v.create c p l).place x = .off ↔ κ'.currentProcess = some x := by
    intro x
    rw [create_place, hκ.currentProcess, ← h.off]
    split
    · next hxp => simp [hxp, hpf]
    · rfl
  have hlinks := hκ.links.symm
  exact
    { lists := hlinks ▸ ⟨hl₂.free_ring, hl₂.asl, hl₂.mem_free, hl₂.mem_queue, hl₂.null, hl₂.cursem,
        hl₂.request_neg⟩
      ready := hlinks ▸ hκ.readyqueue ▸ ⟨hr₂.ring, hr₂.mem⟩
      tree := hlinks ▸ ⟨htree.rep, htree.nodup⟩
      value := hκ.ints.trans h.value
      request := hκ.resWait.trans (congrArg (Function.update · p 0) h.request)
      alive := hκ.processCount.trans (congrArg (· + 1) h.alive)
      soft := hκ.softBlockCount.trans h.soft
      alive_tree := fun x hx => ⟨(hmem x).mp hx, hgone x⟩
      current := fun d hd => by
        have hplace := (hcreated d).mpr hd
        exact ⟨hplace, (hmem d).mpr (by simp [hplace])⟩
      mem_tree := hmem
      not_gone := hgone
      off := hcreated }

/-- With no PCB left nothing happens. -/
theorem createProcess_full {statep : Word} (h : Rep s.core v) (hf : v.free = []) :
    (createProcess statep).run s = .ok (-1) s := by
  have hring : Ring s.pList s.pcbFree [] := hf ▸ h.lists.free_ring
  have halloc : (onMem (allocPcb Platform.tmpAddr)).run s = .ok none s :=
    onMem_run (allocPcb_nil hring _)
  rw [createProcess, Program.run_bind_ok halloc]
  rfl

theorem createProcess_performs {statep : Word} (h : Rep κ v) (hc : κ.currentProcess = some c)
    (hF : F .loop) : Performs F κ (createProcess statep) (some .create) v := by
  rintro s rfl
  cases hf : v.free with
  | nil =>
      rw [createProcess_full h hf]
      exact Does.single (.full hf) h
  | cons p l =>
      obtain ⟨link, tail, hrun, hl, hlist⟩ :=
        Lists.allocate (μ := s.toMem) Platform.tmpAddr h.lists hf
      have halloc := onMem_run hrun
      have hcur : s.currentProcess = some c := hc
      rw [createProcess, Program.run_bind_ok halloc]
      simp only [Program.run_modify_bind, Program.run_gets_bind, setPs, current, assignPid,
        pidGenerator, Kernel.setMem, Kernel.setLinks, hcur, Program.need_some,
        Program.run_bind_bind,
        Program.run_pure_bind]
      cases hpow : pidPow s.counter 33 10 with
      | none =>
          simp only [Program.need_none, Program.run_fail_bind]
          exact hF
      | some pow =>
          simp only [Program.need_some, Program.run_pure_bind, Program.run_modify_bind]
          exact Does.single (.create (h.current_off hc) hf)
            (h.create hc hf hl hlist rfl rfl rfl ⟨rfl, rfl, rfl, rfl, rfl, rfl, hc.symm⟩)

/-! ### Semaphores -/

omit [Platform] in
theorem Tree.congr {m m' : Links maxproc} {f : Forest Pcb} (h : Tree m f)
    (hfam : m'.family = m.family) : Tree m' f :=
  ⟨hfam ▸ h.rep, h.nodup⟩

theorem verhogen_ok (h : Rep s.core v) :
    ∃ m t, (verhogen a w).run s = .ok () ((s.setReady t).withLists m (v.verhogen a w)) ∧
      Rep ((s.setReady t).withLists m (v.verhogen a w)).core (v.verhogen a w) := by
  obtain ⟨m', t, hrun, hl, hr, hreleased⟩ := verhogen_run (k := s) (a := a) (w := w) h.lists h.ready
  have hself : s.withLists s.core.links v = s := h.withLists
  rw [hself] at hrun
  have htree : (v.verhogen a w).tree = v.tree := wakeAll_tree
  have hblocked : ∀ x ∈ v.woken a w, v.place x = .blocked a := fun x hx => h.lists.woken_blocked hx
  refine ⟨m', t, hrun, Rep.of_lists hl hr ?_ (fun x => ?_) (fun x => ?_) fun x => ?_⟩
  · rw [htree]
    exact h.tree.congr hreleased.family
  · rw [htree, h.mem_tree, verhogen_place]
    split
    · next hx => simp [hblocked x hx]
    · rfl
  · rw [verhogen_place]
    split
    · exact Place.noConfusion
    · exact h.not_gone x
  · rw [verhogen_place]
    have hoff := h.off x
    split
    · next hx =>
      rw [hblocked x hx] at hoff
      simpa using hoff
    · exact hoff

theorem verhogen_performs (h : Rep κ v) (hw : 0 < w) :
    Performs F κ (verhogen a w) (some (.verhogen a w)) v := by
  rintro s rfl
  obtain ⟨m, t, hrun, hrep⟩ := verhogen_ok (a := a) (w := w) h
  rw [hrun]
  exact Does.single (.verhogen hw) hrep

theorem passeren_performs (h : Rep κ v) (hc : κ.currentProcess = some c) (ha : a ≠ 0) (hw : w < 0) :
    Performs F κ (passeren a w) (some (.passeren a w)) v := by
  rintro s rfl
  have hself : s.withLists s.core.links v = s := h.withLists
  have hoff := h.current_off hc
  by_cases hi : 0 ≤ v.credit a w
  · have hrun := passeren_pass (k := s) (m := s.core.links) hi
    rw [hself] at hrun
    rw [hrun]
    refine Does.single (.pass hw hi) ?_
    exact
      { lists := h.lists.setValue _
        ready := h.ready.setValue _
        tree := h.tree
        value := rfl
        request := rfl
        alive := rfl
        soft := rfl
        alive_tree := h.alive_tree
        current := h.current
        mem_tree := h.mem_tree
        not_gone := h.not_gone
        off := h.off }
  · have hi : v.credit a w < 0 := by omega
    obtain ⟨m', hrun, hl, hfam, hlist⟩ := passeren_block (k := s) h.lists hc hoff ha hw hi
    rw [hself] at hrun
    rw [hrun]
    have hplace : ∀ x, ((v.setValue a (v.credit a w)).block c a w).place x =
        if x = c then .blocked a else v.place x := fun x => Function.update_apply ..
    have hr : ReadyRing m' s.readyqueue ((v.setValue a (v.credit a w)).block c a w) := by
      refine h.ready.congr rfl (fun x hx => hlist x ((h.ready.mem x).mp hx)) fun x => ?_
      rw [hplace]
      split
      · next hx => simp [hx, hoff]
      · rfl
    refine Does.single (.block hw hi ha hoff) (Rep.of_lists (k := s.suspend c) hl hr ?_
      (fun x => ?_) (fun x => ?_) fun x => ?_)
    · exact h.tree.congr hfam
    · rw [hplace]
      change x ∈ v.tree.nodes ↔ _
      rw [h.mem_tree]
      split
      · next hx => simp [hx, hoff]
      · rfl
    · rw [hplace]
      split
      · exact Place.noConfusion
      · exact h.not_gone x
    · rw [hplace]
      have hx := h.off x
      rw [hc] at hx
      split
      · simp [Kernel.suspend]
      · next hxc => simpa [Kernel.suspend, Ne.symm hxc] using hx

theorem semaphoreOperation_performs (h : Rep κ v) (hc : κ.currentProcess = some c)
    (ht : Tame v (semAct c a w)) : Performs F κ (semaphoreOperation a w) (semAct c a w) v := by
  rintro s rfl
  have hcur : s.currentProcess = some c := hc
  unfold semAct at ht ⊢
  by_cases ha : a = 0
  · rw [if_pos ha, ha, semaphoreOperation_null]
    exact Does.none h
  rw [if_neg ha] at ht ⊢
  by_cases hw0 : w = 0
  · subst hw0
    rw [if_pos rfl] at ht ⊢
    rw [semaphoreOperation_zero ha hcur]
    have hself : terminated s.core c (s.pid c) = some c := if_pos (Or.inr rfl)
    have hperf := terminateProcess_performs (F := F) (s.pid c) h hc
      (by rw [hself]; exact ht) s rfl
    rw [hself] at hperf
    exact hperf
  rw [if_neg hw0] at ht ⊢
  by_cases hwn : w < 0
  · rw [if_pos hwn, semaphoreOperation_neg ha hwn]
    exact passeren_performs h hc ha hwn s rfl
  · rw [if_neg hwn]
    have hwp : 0 < w := by omega
    rw [semaphoreOperation_pos ha hwp]
    exact verhogen_performs h hwp s rfl

/-! ### Exceptions -/

/-- A process that kills itself calls the scheduler. -/
theorem terminateCurrent_performs (h : Rep κ v) (hc : κ.currentProcess = some c)
    (ht : Tame v (some (.terminate c))) :
    Performs F κ terminateCurrent (some (.terminate c)) v := by
  refine Performs.after_current hc ?_
  rintro s rfl
  have hself : terminated s.core c (s.pid c) = some c := if_pos (Or.inr rfl)
  have hperf := terminateProcess_performs (F := F) (s.pid c) h hc (by rw [hself]; exact ht)
  rw [hself] at hperf
  exact (hperf.before fun _ => quiet_leave _) s rfl

/-- `if (…) { terminate_process(current_process->pid); scheduler(); }` does not return. -/
theorem terminateCurrent_ends {s s' : Kernel} {r : Unit} :
    terminateCurrent.run s ≠ .ok r s' := by
  intro hrun
  unfold terminateCurrent at hrun
  simp only [current, Program.run_bind_bind, Program.run_gets_bind] at hrun
  cases hc : s.currentProcess with
  | none =>
      rw [hc] at hrun
      cases hrun
  | some p =>
      simp only [hc, Program.need_some, Program.run_pure_bind, Program.run_gets_bind] at hrun
      cases hkill : (terminateProcess (s.pid p)).run s with
      | ok u t => rw [Program.run_bind_ok hkill] at hrun; cases hrun
      | exit ctl t => rw [Program.run_bind_exit hkill] at hrun; cases hrun
      | fault e => rw [Program.run_bind_fault hkill] at hrun; cases hrun

/-- A branch that kills the process, with no way on to `f`, and one that leaves the lists alone. -/
theorem Performs.guard {f : Unit → KM α} {x : KM α} {b : Prop} [Decidable b] (h : Rep κ v)
    (hc : κ.currentProcess = some c)
    (ht : Tame v (if b then some (.terminate c) else none)) (hx : Performs F κ x none v) :
    Performs F κ (if b then terminateCurrent >>= f else x)
      (if b then some (.terminate c) else none) v := by
  by_cases hb : b
  · simp only [if_pos hb] at ht ⊢
    intro s hs
    have hk := terminateCurrent_performs (F := F) h hc ht s hs
    cases hrun : terminateCurrent.run s with
    | ok r s' => exact absurd hrun terminateCurrent_ends
    | exit ctl s' => rw [hrun] at hk; rw [Program.run_bind_exit hrun]; exact hk
    | fault e => rw [hrun] at hk; rw [Program.run_bind_fault hrun]; exact hk
  · simp only [if_neg hb]
    exact hx

omit [Platform] in
/-- The tags are no part of the lists. -/
theorem Rep.setTags (h : Rep κ v) (tags : Pcb → Excp → Bool) : Rep { κ with tags := tags } v where
  lists := h.lists
  ready := h.ready
  tree := h.tree
  value := h.value
  request := h.request
  alive := h.alive
  soft := h.soft
  alive_tree := h.alive_tree
  current := h.current
  mem_tree := h.mem_tree
  not_gone := h.not_gone
  off := h.off

theorem specify_performs {pc sp flags : Word} (h : Rep κ v) (hc : κ.currentProcess = some c)
    (ht : Tame v (specifyAct κ c e)) :
    Performs F κ (specify e pc sp flags) (specifyAct κ c e) v := by
  refine Performs.after_current hc ?_
  intro s hs
  rw [Program.run_gets_bind]
  have htag : s.tags c e = κ.tags c e := congrArg (fun κ : Core => κ.tags c e) hs
  rw [htag]
  refine Performs.guard h hc ht (Performs.modify (fun s hs => ?_) (Quiet.performs
    (Silent.quiet ?_) (h.setTags (Function.update κ.tags c
      (Function.update (κ.tags c) e true))))) s hs
  · subst hs
    rfl
  · exact (silent_gets _).bind fun _ => (silent_setArea _ _).bind fun _ => (silent_gets _).bind
      fun _ => (silent_setArea _ _).bind fun _ => (silent_setArea _ _).bind fun _ =>
      (silent_setArea _ _).bind fun _ => (silent_gets _).bind fun _ => silent_setArea _ _

/-- An exception that the process may handle itself. -/
theorem trapHandler_performs {ve : Vec} (h : Rep κ v) (hc : κ.currentProcess = some c)
    (ht : Tame v (trapAct κ c e)) : Performs F κ (trapHandler e ve) (trapAct κ c e) v := by
  refine Performs.after silent_disableInterrupts fun _ => Performs.after silent_startKernel fun _ =>
    Performs.after_current hc ?_
  intro s hs
  rw [Program.run_gets_bind]
  have htag : s.tags c e = κ.tags c e := congrArg (fun κ : Core => κ.tags c e) hs
  have hact : trapAct κ c e = if s.tags c e = false then some (.terminate c) else none := by
    rw [trapAct, htag]
    cases κ.tags c e <;> rfl
  rw [hact] at ht ⊢
  refine Performs.guard h hc ht (Quiet.performs ?_ h) s hs
  refine (silent_gets _).quiet.bind fun _ => (silent_setArea _ _).quiet.bind fun _ =>
    (silent_setArea _ _).quiet.bind fun _ => ?_
  exact silent_chargeKernel.quiet.bind fun _ => (silent_setArea _ _).quiet.bind fun _ =>
    (silent_gets _).quiet.bind fun _ => quiet_leave _

/-! ### The other services -/

omit [Platform] in
theorem exitTrap_quiet {excptype retval : Word} (hF : F .null) :
    Quiet F (exitTrap excptype retval) := by
  have hexit : ∀ e, Quiet F (exitVia e retval) := fun e =>
    (quiet_current hF).bind fun _ => (silent_setArea _ _).quiet.bind fun _ =>
      (silent_gets _).quiet.bind fun _ => quiet_leave _
  exact (hexit _).ite ((hexit _).ite ((hexit _).ite (silent_pure ()).quiet))

omit [Platform] in
theorem getCputime_quiet {global user : Word} (hF : F .null) : Quiet F (getCputime global user) :=
  (quiet_current hF).bind fun _ => Silent.quiet fun _ => ⟨_, _, rfl, rfl⟩

omit [Platform] in
theorem getpid_quiet (hF : F .null) : Quiet F getpid :=
  (quiet_current hF).bind fun _ => (silent_gets _).quiet

omit [Platform] in
theorem ioCommand_quiet {command intlNo dnum : Word} (hF : F .bounds) :
    Quiet F (ioCommand command intlNo dnum) := by
  refine Quiet.bind ?_ fun i => ?_
  · exact Quiet.ite (silent_pure _).quiet fun _ => Program.Triple.fail hF
  · exact Quiet.ite (Quiet.ite ((silent_setDevreg _ _).quiet.bind fun _ => (silent_gets _).quiet)
      ((silent_setDevreg _ _).quiet.bind fun _ => (silent_gets _).quiet))
      ((silent_setDevreg _ _).quiet.bind fun _ => (silent_gets _).quiet)

theorem semAddr_ne_zero (i : ℕ) : semAddr i ≠ 0 := by
  have := Platform.deviceSem_pos
  unfold semAddr
  omega

theorem ioWait_performs {intlNo dnum : Word} (h : Rep κ v) (hc : κ.currentProcess = some c)
    (hF : F .bounds) :
    Performs F κ (ioWait intlNo dnum)
      (some (.passeren (semAddr (semIndex intlNo (termRead intlNo dnum) dnum)) (-1))) v := by
  have hact : semAct c (semAddr (semIndex intlNo (termRead intlNo dnum) dnum)) (-1) =
      some (.passeren (semAddr (semIndex intlNo (termRead intlNo dnum) dnum)) (-1)) := by
    rw [semAct, if_neg (semAddr_ne_zero _)]
    rfl
  intro s hs
  unfold ioWait deviceSemAt
  by_cases hi : semIndex intlNo (termRead intlNo dnum) dnum < maxDevices
  · simp only [if_pos hi, Program.run_pure_bind]
    rw [← hact]
    refine semaphoreOperation_performs h hc ?_ s hs
    rw [hact]
    rintro t ⟨⟩
  · simp only [if_neg hi, Program.run_fail_bind]
    exact hF

theorem ioDevop_performs {command intlNo dnum : Word} (h : Rep κ v)
    (hc : κ.currentProcess = some c) (hF : F .bounds) :
    Performs F κ (ioDevop command intlNo dnum)
      (some (.passeren (semAddr (semIndex intlNo (termRead intlNo dnum) dnum)) (-1))) v :=
  Performs.after silent_ioEnable fun _ =>
    (ioWait_performs h hc hF).before fun _ => ioCommand_quiet hF

theorem waitClock_performs (h : Rep κ v) (hc : κ.currentProcess = some c) :
    Performs F κ waitClock (some (.passeren (semAddr (maxDevices - 1)) (-1))) v := by
  have hact : semAct c (semAddr (maxDevices - 1)) (-1) =
      some (.passeren (semAddr (maxDevices - 1)) (-1)) := by
    rw [semAct, if_neg (semAddr_ne_zero _)]
    rfl
  rw [← hact]
  refine semaphoreOperation_performs h hc ?_
  rw [hact]
  rintro t ⟨⟩

theorem assignA1_performs {x : KM Word} (hx : Performs F κ x act v)
    (hc : κ.currentProcess = some c) (hF : F .null) : Performs F κ (assignA1 x) act v := by
  unfold assignA1
  split
  · exact Performs.after_current hc (hx.before fun _ => (silent_setPs _).quiet)
  · exact hx.before fun _ => (quiet_current hF).bind fun _ => (silent_setPs _).quiet

/-- The `switch` of `syscall_handler`. -/
theorem service_performs {sys a2 a3 a4 : Word} (h : Rep κ v) (hc : κ.currentProcess = some c)
    (ht : Tame v (serviceAct κ c sys a2 a3 a4)) (hF : ∀ e, F e) :
    Performs F κ (service sys a2 a3 a4) (serviceAct κ c sys a2 a3 a4) v := by
  unfold service
  unfold serviceAct at ht ⊢
  by_cases h1 : sys = 1
  · rw [if_pos h1, if_pos h1]
    exact assignA1_performs (createProcess_performs h hc (hF _)) hc (hF _)
  rw [if_neg h1] at ht ⊢
  rw [if_neg h1]
  by_cases h2 : sys = 2
  · rw [if_pos h2] at ht ⊢
    rw [if_pos h2]
    exact terminateProcess_performs _ h hc ht
  rw [if_neg h2] at ht ⊢
  rw [if_neg h2]
  by_cases h3 : sys = 3
  · rw [if_pos h3] at ht ⊢
    rw [if_pos h3]
    exact semaphoreOperation_performs h hc ht
  rw [if_neg h3] at ht ⊢
  rw [if_neg h3]
  by_cases h4 : sys = 4
  · rw [if_pos h4] at ht ⊢
    rw [if_pos h4]
    exact specify_performs h hc ht
  rw [if_neg h4] at ht ⊢
  rw [if_neg h4]
  by_cases h5 : sys = 5
  · rw [if_pos h5] at ht ⊢
    rw [if_pos h5]
    exact specify_performs h hc ht
  rw [if_neg h5] at ht ⊢
  rw [if_neg h5]
  by_cases h6 : sys = 6
  · rw [if_pos h6] at ht ⊢
    rw [if_pos h6]
    exact specify_performs h hc ht
  rw [if_neg h6] at ht ⊢
  rw [if_neg h6]
  by_cases h9 : sys = 9
  · subst h9
    exact waitClock_performs h hc
  by_cases h10 : sys = 10
  · subst h10
    exact assignA1_performs (ioDevop_performs h hc (hF _)) hc (hF _)
  rw [if_neg h9, if_neg h10, if_neg h9, if_neg h10]
  refine Quiet.performs ?_ h
  refine (exitTrap_quiet (hF _)).ite ((getCputime_quiet (hF _)).ite (Quiet.ite ?_ (quiet_leave _)))
  unfold assignA1
  exact ((quiet_current (hF _)).bind fun _ => (getpid_quiet (hF _)).bind fun _ =>
    (silent_setPs _).quiet).ite ((getpid_quiet (hF _)).bind fun _ =>
      (quiet_current (hF _)).bind fun _ => (silent_setPs _).quiet)

end JaeOS
