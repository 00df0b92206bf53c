import JaeOS.Outcomes
import JaeOS.TwinServices

/-!
# Handlers and the scheduler, run by twins

What the entries of the nucleus do to twins: they end the same way, and the kernels are twins again.
`EXITTRAP` must find an area that the running process has specified, and a process that is created
joins the PCBs that are the same on both sides.
-/

open Program LinkRing Transition

namespace JaeOS

variable {α β : Type} {L K : Set Pcb} {p c : Pcb} {V : α → Prop} {E : Kernel → Kernel → Prop}

/-! ### Handlers of processes -/

section Handlers

variable {e : Excp}

theorem withArea_withArea (k : Kernel) (b : Area) (g g' : State → State) :
    (k.withArea p b g).withArea p b g' = k.withArea p b fun s => g' (g s) := by
  simp only [Kernel.withArea, Function.update_self, Function.update_idem]

def Kernel.register (k : Kernel) (p : Pcb) (e : Excp) (u w : State) : Kernel :=
  (({ k with tags := Function.update k.tags p (Function.update (k.tags p) e true) } :
    Kernel).withArea p (.old e)
    fun _ => u).withArea p (.new e) fun _ => w

theorem register_twin {k : Kernel} {μ : Mem maxproc} (h : k.Agree L K μ) (hp : p ∈ L)
    (u w : State) :
    Twin L K (k.register p e u w) ((k.graft μ).register p e u w) := by
  refine ⟨((k.graft μ).register p e u w).toMem, rfl, ?_⟩
  refine { h with
    links := { h.links with }
    tags := eqOn_modify h.tags hp fun f => Function.update f e true
    oldnewAreas := fun q hq a htag => ?_ }
  simp only [Kernel.register, Kernel.withArea, Kernel.graft, Function.update_self,
    Function.update_idem,
    Function.update_apply] at htag ⊢
  by_cases hqp : q = p
  · subst hqp
    simp only [if_true, Function.update_apply] at htag ⊢
    split
    · rfl
    split
    · rfl
    · next hnew hold =>
      have hkind : a.kind ≠ e := by
        rintro rfl
        cases a with
        | old x => exact hold rfl
        | new x => exact hnew rfl
      rw [if_neg hkind] at htag
      exact h.oldnewAreas q hq a htag
  · rw [if_neg hqp] at htag
    rw [if_neg hqp, if_neg hqp]
    exact h.oldnewAreas q hq a htag

variable [Platform] {pc sp flags u : Word}

theorem specify_agrees : Agrees (Twin L K) (Twin L K) (fun _ => True) (specify e pc sp flags) := by
  unfold specify
  refine current_agrees.bind fun c hc => ?_
  refine (field_agrees fun k μ ha => congrFun (ha.tags hc) e).bind fun b _ => ?_
  refine Lockstep.ite Iff.rfl (fun _ => terminateCurrent_agrees.bind fun _ hf => hf.elim) fun _ =>
    ?_
  rintro k _ ⟨μ, rfl, ha⟩
  have hpS : (k.graft μ).pS c = k.pS c := (ha.pS hc).symm
  simp only [Program.run_modify_bind, Program.run_gets_bind, run_setArea_bind, run_setArea,
    withArea_pS, withArea_hw, withArea_withArea, copyState_eq, hpS]
  exact .ok ⟨trivial, trivial, register_twin ha hc _ _⟩

omit [Platform] in
/-- A process that returns from a handler has specified it. -/
theorem exitVia_agrees :
    Lockstep (fun k k' => Twin L K k k' ∧ ∀ c ∈ k.currentProcess, k.tags c e = true) (exitVia e u)
      (exitVia e u)
      (fun b b' k k' => b = b' ∧ True ∧ Twin L K k k') (Twin L K) := by
  rintro k k' ⟨⟨μ, rfl, ha⟩, htag⟩
  cases hc : k.currentProcess with
  | none =>
      have hc' : (k.graft μ).currentProcess = none := hc
      have hrun {s : Kernel} (hs : s.currentProcess = none) :
          (exitVia e u).run s = .fault .null := by
        simp only [exitVia, current, Program.run_bind_bind, Program.run_gets_bind, hs,
          Program.need_none, Program.run_fail_bind]
      rw [hrun hc, hrun hc']
      exact .fault Fault.null
  | some c =>
      have hcL : c ∈ L := ha.current c hc
      have harea : (k.graft μ).oldnewAreas c (.old e) = k.oldnewAreas c (.old e) :=
        (ha.oldnewAreas c hcL (.old e) (htag c hc)).symm
      rw [exitVia_run hc, exitVia_run (s := k.graft μ) hc, harea]
      exact .exit _ (withArea_twin ⟨μ, rfl, ha⟩ (.old e) _)

omit [Platform] in
theorem exitTrap_agrees {x : Word} :
    Lockstep (fun k k' => Twin L K k k' ∧ ∀ e : Excp, x = e.code →
      ∀ c ∈ k.currentProcess, k.tags c e = true)
      (exitTrap x u) (exitTrap x u) (fun b b' k k' => b = b' ∧ True ∧ Twin L K k k')
        (Twin L K) := by
  unfold exitTrap
  refine .ite Iff.rfl (fun hx => ?_) fun _ => ?_
  · exact exitVia_agrees.pre fun k k' hk => ⟨hk.1, hk.2 .sys hx⟩
  refine .ite Iff.rfl (fun hx => ?_) fun _ => ?_
  · exact exitVia_agrees.pre fun k k' hk => ⟨hk.1, hk.2 .tlb hx⟩
  refine .ite Iff.rfl (fun hx => ?_) fun _ => ?_
  · exact exitVia_agrees.pre fun k k' hk => ⟨hk.1, hk.2 .pgmtp hx⟩
  · exact .pure fun k k' hk => ⟨rfl, trivial, hk.1⟩

omit [Platform] in
theorem setSTATUS_agrees (w : Word) : Agrees (Twin L K) E (fun _ => True) (setSTATUS w) :=
  write_agrees (fun _ _ => rfl) fun _ _ hc => hc

omit [Platform] in
theorem setTIMER_agrees (w : Word) : Agrees (Twin L K) E (fun _ => True) (setTIMER w) :=
  write_agrees (fun _ _ => rfl) fun _ _ hc => hc

omit [Platform] in
theorem setDevreg_agrees (i : ℕ) (f : DevReg → DevReg) : Agrees (Twin L K) E (fun _ => True)
    (setDevreg i f) :=
  write_agrees (fun _ _ => rfl) fun _ _ hc => hc

omit [Platform] in
/-- A word of the machine is written that is the same on both sides. -/
theorem setHw_agrees {g : Kernel → Hw} (h : ∀ k μ, k.Agree L K μ → g (k.graft μ) = g k) :
    Agrees (Twin L K) E (fun _ => True)
      (Program.modify fun k : Kernel => { k with hw := g k } : KM Unit) := by
  refine .modify fun k k' hk => ?_
  obtain ⟨μ, rfl, ha⟩ := hk
  refine ⟨μ, ?_, { ha with links := { ha.links with } }⟩
  rw [h k μ ha]
  rfl

omit [Platform] in
theorem getCputime_agrees {global user : Word} : Agrees (Twin L K) E (fun _ => True)
    (getCputime global user) := by
  unfold getCputime
  refine current_agrees.bind fun c hc => ?_
  refine Agrees.bind (setHw_agrees fun k μ ha => ?_) fun _ _ => setHw_agrees fun k μ ha => ?_
  · change ({ k.hw with words := Function.update k.hw.words global (μ.globalTime c) } : Hw) = _
    rw [← ha.globalTime hc]
  · change ({ k.hw with
        words := Function.update k.hw.words user (μ.globalTime c - μ.kernelTime c) } : Hw) = _
    rw [← ha.globalTime hc, ← ha.kernelTime hc]

omit [Platform] in
theorem getpid_agrees : Agrees (Twin L K) E (fun _ => True) getpid := by
  unfold getpid
  exact current_agrees.bind fun c hc => field_agrees fun k μ ha => ha.pid hc

theorem waitClock_agrees :
    Lockstep (Lively L K) waitClock waitClock (fun b b' k k' => b = b' ∧ True ∧ Twin L K k k')
      (Twin L K) :=
  semaphoreOperation_agrees

omit [Platform] in
theorem devRegAddr_agrees (il dnum : Word) {R : Kernel → Kernel → Prop} :
    Agrees R E (fun _ => True) (devRegAddr il dnum) := by
  unfold devRegAddr
  exact Agrees.ite (fun _ => .pure trivial) fun _ => .fail

theorem deviceSemAt_agrees (il term dnum : Word) {R : Kernel → Kernel → Prop} :
    Agrees R E (fun _ => True) (deviceSemAt il term dnum) := by
  unfold deviceSemAt
  exact Agrees.ite (fun _ => .pure trivial) fun _ => .fail

omit [Platform] in
theorem ioCommand_agrees {cmd intlNo dnum : Word} :
    Agrees (Twin L K) E (fun _ => True) (ioCommand cmd intlNo dnum) := by
  unfold ioCommand
  refine (devRegAddr_agrees intlNo dnum).bind fun i _ => ?_
  refine Agrees.ite (fun _ => Agrees.ite (fun _ => ?_) fun _ => ?_) fun _ => ?_
  all_goals exact (setDevreg_agrees i _).bind fun _ _ => read_agrees fun _ _ => rfl

theorem ioDevop_agrees {cmd intlNo dnum : Word} :
    Lockstep (Lively L K) (ioDevop cmd intlNo dnum) (ioDevop cmd intlNo dnum)
      (fun b b' k k' => b = b' ∧ True ∧ Twin L K k k') (Twin L K) := by
  unfold ioDevop ioEnable ioWait
  have henable : Agrees (Twin L K) (Twin L K) (fun _ => True)
      (getSTATUS >>= fun w => setSTATUS (Platform.statusAllIntEnable w)) :=
    Agrees.bind (read_agrees fun _ _ => rfl) fun w _ => setSTATUS_agrees _
  refine (silent_ioEnable.lively henable).bind fun _ _ => ?_
  refine Lockstep.bind (Q := fun b b' k k' => b = b' ∧ True ∧ Twin L K k k') ?_ fun _ _ => ?_
  · exact (deviceSemAt_agrees intlNo _ dnum).bind fun i _ => semaphoreOperation_agrees
  · exact ioCommand_agrees.pre fun _ _ hk => hk.2.2

end Handlers

/-! ### Creation -/

section Creation

def joined : Option Pcb → Set Pcb → Set Pcb
  | none, A => A
  | some p, A => insert p A

theorem subset_joined (o : Option Pcb) (A : Set Pcb) : A ⊆ joined o A := by
  cases o with
  | none => exact Set.Subset.rfl
  | some p => exact Set.subset_insert p A

theorem eqOn_insert {f g : Pcb → β} (h : Set.EqOn f g L) (p : Pcb) (v : β) :
    Set.EqOn (Function.update f p v) (Function.update g p v) (insert p L) := by
  intro q hq
  by_cases hqp : q = p
  · rw [hqp, Function.update_self, Function.update_self]
  · rw [Function.update_of_ne hqp, Function.update_of_ne hqp]
    exact h (Set.mem_of_mem_insert_of_ne hq hqp)

theorem mem_insert_update {f : Pcb → Option Pcb} {A B : Set Pcb} (h : ∀ q ∈ A, ∀ r ∈ f q, r ∈ B)
    (p : Pcb) :
    ∀ q ∈ insert p A, ∀ r ∈ Function.update f p none q, r ∈ insert p B := by
  intro q hq r hr
  by_cases hqp : q = p
  · rw [hqp, Function.update_self] at hr
    cases hr
  · rw [Function.update_of_ne hqp] at hr
    exact Set.mem_insert_of_mem p (h q (Set.mem_of_mem_insert_of_ne hq hqp) r hr)

theorem resetPcb_twin {k : Kernel} {μ : Mem maxproc} (h : k.Agree L K μ) (tmp : Word) (p : Pcb) :
    Twin (insert p L) (insert p K) (k.setMem (resetPcb tmp p k.toMem))
      ((k.graft μ).setMem (resetPcb tmp p (k.graft μ).toMem)) := by
  refine ⟨resetPcb tmp p (k.graft μ).toMem, rfl, ?_⟩
  exact
    { links :=
        { pParent := eqOn_insert h.links.pParent p none
          pCursem := eqOn_insert h.links.pCursem p none
          pChildren := eqOn_insert h.links.pChildren p none
          pSiblings := eqOn_insert h.links.pSiblings p none
          sub := Set.insert_subset_insert h.links.sub
          parent_mem := mem_insert_update h.links.parent_mem p
          children_mem := mem_insert_update h.links.children_mem p
          siblings_mem := mem_insert_update h.links.siblings_mem p }
      pS := eqOn_insert h.pS p .zero
      pid := eqOn_insert h.pid p tmp
      resWait := eqOn_insert h.resWait p 0
      kernelTime := eqOn_insert h.kernelTime p 0
      globalTime := eqOn_insert h.globalTime p 0
      tags := eqOn_insert h.tags p _
      oldnewAreas := fun q hq a htag => by
        by_cases hqp : q = p
        · have hclear : Function.update k.tags p (fun _ => false) q a.kind = true := htag
          rw [hqp, Function.update_self] at hclear
          cases hclear
        · have hkeep : Function.update k.tags p (fun _ => false) q a.kind = true := htag
          rw [Function.update_of_ne hqp] at hkeep
          exact h.oldnewAreas q (Set.mem_of_mem_insert_of_ne hq hqp) a hkeep
      current := fun c hc => Set.mem_insert_of_mem p (h.current c hc) }

/-- The areas of the new PCB are those of its last owner, but no handler has been specified for
them. -/
theorem allocPcb_agrees (tmp : Word) :
    Lockstep (Twin L K) (onMem (allocPcb tmp)) (onMem (allocPcb tmp))
      (fun o o' k k' => o = o' ∧ Twin (joined o L) (joined o K) k k') E := by
  rintro k k' ⟨μ, rfl, ha⟩
  let R : Mem maxproc → Mem maxproc → Prop := fun m m' => m = k.toMem ∧ m' = (k.graft μ).toMem
  have hmem : Lockstep R (allocPcb tmp : Program (Mem maxproc) Ctl Fault _) (allocPcb tmp)
      (fun o o' m m' => o = o' ∧
        Twin (joined o L) (joined o K) (k.setMem m) ((k.graft μ).setMem m'))
      fun _ _ => False := by
    unfold allocPcb
    have hread : Agrees R (fun _ _ => False) (fun _ => True)
        (Program.gets (fun m => (⟨m.pList, m.pcbFree⟩ : Clist Pcb)) : Program
          (Mem maxproc) Ctl Fault _) := by
      refine .gets fun m m' hm => ?_
      obtain ⟨rfl, rfl⟩ := hm
      exact ⟨rfl, trivial⟩
    refine hread.bind fun c _ => .ite Iff.rfl (fun _ => .pure fun m m' hm => ?_) fun _ => ?_
    · obtain ⟨rfl, rfl⟩ := hm
      exact ⟨rfl, μ, rfl, ha⟩
    · refine (clistHead_self c).bind fun p _ => ?_
      refine (clistDequeue_self c).bind fun c' _ => ?_
      rintro m m' ⟨rfl, rfl⟩
      have ha' : Kernel.Agree L K { k with pList := c'.link, pcbFree := c'.tail } μ :=
        { ha with links := { ha.links with } }
      exact .ok ⟨rfl, resetPcb_twin ha' tmp p⟩
  exact hmem.zoom (S := fun s t => s = k ∧ t = k.graft μ)
    (fun s t hst => ⟨congrArg Kernel.toMem hst.1, congrArg Kernel.toMem hst.2⟩) _
    (fun o o' m m' s t hq hst => by rw [hst.1, hst.2]; exact hq) (fun _ _ _ _ he => he.elim) k _
      ⟨rfl, rfl⟩

theorem assignPid_agrees [Platform] (hp : p ∈ L) : Agrees (Twin L K) E (fun _ => True)
    (assignPid p) := by
  unfold assignPid pidGenerator
  refine (field_agrees fun k μ ha => ha.pid hp).bind fun x _ => ?_
  refine Agrees.bind (read_agrees fun _ _ => rfl) fun y _ => ?_
  refine Agrees.bind (V := fun _ => True) ?_ fun pid _ => ?_
  · exact Lockstep.need fun pow _ => Agrees.pure trivial
  · exact contents_agrees (fun μ => { μ with pid := Function.update μ.pid p pid }) (fun _ _ => rfl)
      fun _ _ ha => { ha with pid := eqOn_update ha.pid p pid }

theorem createProcess_agrees {statep : Word} [Platform] (o : Option Pcb) :
    Lockstep (fun k k' => Twin L K k k' ∧ ∃ v, Lists k.toLinks v ∧ v.free.head? = o)
      (createProcess statep)
      (createProcess statep) (fun b b' k k' => b = b' ∧ True ∧
        Twin (joined o L) (joined o K) k k') E := by
  have halloc : Triple (fun k : Kernel => ∃ v, Lists k.toLinks v ∧ v.free.head? = o)
      (onMem (allocPcb Platform.tmpAddr)) (fun r _ => r = o) (fun _ _ => True) fun _ => True := by
    rintro k ⟨v, hl, hf⟩
    cases hfree : v.free with
    | nil =>
        have hring : Ring k.pList k.pcbFree [] := hfree ▸ hl.free_ring
        rw [onMem_run (allocPcb_nil hring _), ← hf, hfree]
        rfl
    | cons p l =>
        obtain ⟨link, tail, hrun, -⟩ := Lists.allocate (μ := k.toMem) Platform.tmpAddr hl hfree
        rw [onMem_run hrun, ← hf, hfree]
        rfl
  unfold createProcess
  refine Lockstep.bind ((allocPcb_agrees Platform.tmpAddr).left halloc) fun r r' => ?_
  refine .pre (P := fun k k' => r = o ∧ r = r' ∧ Twin (joined r L) (joined r K) k k') ?_
    fun k k' h => ⟨h.2, h.1.1, h.1.2⟩
  refine .known fun ho => .known fun hr => ?_
  subst ho hr
  cases r with
  | none => exact .pure fun k k' hk => ⟨rfl, trivial, hk⟩
  | some child =>
      have hchild : child ∈ insert child L := Set.mem_insert child L
      refine Agrees.bind (contents_agrees (fun μ => { μ with
        kernelTime := Function.update μ.kernelTime child 0
        globalTime := Function.update μ.globalTime child 0 }) (fun _ _ => rfl)
        fun _ _ ha => { ha with
          kernelTime := eqOn_update ha.kernelTime child 0
          globalTime := eqOn_update ha.globalTime child 0 }) fun _ _ => ?_
      refine Agrees.bind (read_agrees fun _ _ => rfl) fun state _ => ?_
      refine (setPs_agrees hchild _).bind fun _ _ => ?_
      refine current_agrees.bind fun parent hparent => ?_
      refine Agrees.bind
        (contents_agrees (fun μ => { μ with toLinks := insertChild parent child μ.toLinks })
        (fun _ _ => rfl) fun _ _ ha => { ha with
          links := insertChild_twin ha.links hparent (Set.mem_insert child K) }) fun _ _ => ?_
      refine (assignPid_agrees hchild).bind fun _ _ => ?_
      refine insertReady_agrees.bind fun _ _ => ?_
      refine (addProcessCount_agrees 1).bind fun _ _ => ?_
      exact field_agrees fun k μ ha => ha.pid hchild

end Creation

/-! ### System calls and traps -/

section Entries

variable [Platform] {e : Excp} {w : Word}

omit [Platform] in
/-- Reading the running process changes nothing. -/
theorem current_lockstep {P : Kernel → Kernel → Prop} (hP : ∀ k k', P k k' → Twin L K k k') :
    Lockstep P current current (fun c c' k k' => c = c' ∧ c ∈ L ∧ P k k') E := by
  intro k k' hk
  obtain ⟨μ, rfl, ha⟩ := hP k k' hk
  cases hc : k.currentProcess with
  | none =>
      have hrun {s : Kernel} (hs : s.currentProcess = none) : current.run s = .fault .null := by
        rw [current, Program.run_gets_bind, hs]
        rfl
      rw [hrun hc, hrun (s := k.graft μ) hc]
      exact .fault Fault.null
  | some c =>
      rw [current_ok hc, current_ok (s := k.graft μ) hc]
      exact .ok ⟨rfl, ha.current c hc, hk⟩

theorem assignA1_agrees {P : Kernel → Kernel → Prop} {L' K' : Set Pcb} {x : KM Word}
    (hP : ∀ k k', P k k' → Twin L K k k') (hsub : L ⊆ L')
    (hx : Lockstep P x x (fun b b' k k' => b = b' ∧ True ∧ Twin L' K' k k') E) :
    Lockstep P (assignA1 x) (assignA1 x) (fun b b' k k' => b = b' ∧ True ∧ Twin L' K' k k') E := by
  unfold assignA1
  refine .ite Iff.rfl (fun _ => ?_) fun _ => ?_
  · refine Lockstep.bind (current_lockstep hP) fun c c' => .known fun hcc => .known fun hc => ?_
    subst hcc
    refine Lockstep.bind hx fun u u' => .known fun hu => ?_
    subst hu
    exact (setPs_agrees (hsub hc) _).pre fun _ _ hk => hk.2
  · refine Lockstep.bind hx fun u u' => .known fun hu => ?_
    subst hu
    refine .pre (P := Twin L' K') ?_ fun _ _ hk => hk.2
    exact current_agrees.bind fun c hc => setPs_agrees hc _

/-- The state in which a service is called: `EXITTRAP` is only asked for if a handler has been
specified, and `o` is the PCB that a new process gets. -/
structure Serving (L K : Set Pcb) (o : Option Pcb) (sys a2 : Word) (k k' : Kernel) : Prop where
  lively : Lively L K k k'
  exits : sys = 7 → ∀ e : Excp, a2 = e.code → ∀ c ∈ k.currentProcess, k.tags c e = true
  creates : sys = 1 → ∃ v, Lists k.toLinks v ∧ v.free.head? = o

theorem service_agrees {o : Option Pcb} {sys a2 a3 a4 : Word} (ho : sys ≠ 1 → o = none) :
    Lockstep (Serving L K o sys a2) (service sys a2 a3 a4) (service sys a2 a3 a4)
      (fun b b' k k' => b = b' ∧ True ∧ Twin (joined o L) (joined o K) k k')
        (Twin (joined o L) (joined o K)) := by
  have htwin : ∀ k k', Serving L K o sys a2 k k' → Twin L K k k' := fun _ _ hk => hk.lively.1
  unfold service
  refine .ite Iff.rfl (fun hsys => ?_) fun hsys => ?_
  · refine assignA1_agrees htwin (subset_joined o L) ?_
    exact (createProcess_agrees o).pre fun k k' hk => ⟨hk.lively.1, hk.creates hsys⟩
  obtain rfl := ho hsys
  have hl : ∀ k k', Serving L K none sys a2 k k' → Lively L K k k' := fun _ _ hk => hk.lively
  refine .ite Iff.rfl (fun _ => terminateProcess_agrees.pre htwin) fun _ => ?_
  refine .ite Iff.rfl (fun _ => semaphoreOperation_agrees.pre hl) fun _ => ?_
  refine .ite Iff.rfl (fun _ => specify_agrees.pre htwin) fun _ => ?_
  refine .ite Iff.rfl (fun _ => specify_agrees.pre htwin) fun _ => ?_
  refine .ite Iff.rfl (fun _ => specify_agrees.pre htwin) fun _ => ?_
  refine .ite Iff.rfl (fun hsys => exitTrap_agrees.pre fun k k' hk =>
    ⟨hk.lively.1, hk.exits hsys⟩) fun _ => ?_
  refine .ite Iff.rfl (fun _ => getCputime_agrees.pre htwin) fun _ => ?_
  refine .ite Iff.rfl (fun _ => waitClock_agrees.pre hl) fun _ => ?_
  refine .ite Iff.rfl (fun _ => ?_) fun _ => ?_
  · exact assignA1_agrees htwin Set.Subset.rfl (ioDevop_agrees.pre hl)
  refine .ite Iff.rfl (fun _ => ?_) fun _ => .leave htwin
  exact assignA1_agrees htwin Set.Subset.rfl (getpid_agrees.pre htwin)

omit [Platform] in
theorem chargeKernel_agrees (hp : p ∈ L) : Agrees (Twin L K) E (fun _ => True)
    (chargeKernel p) := by
  unfold chargeKernel
  refine getTODLO_agrees.bind fun now _ => ?_
  refine Agrees.bind (read_agrees fun _ _ => rfl) fun t _ => ?_
  exact addKernelTime_agrees hp _

omit [Platform] in
theorem serviceEnd_agrees {Q : Unit → Unit → Kernel → Kernel → Prop} :
    Lockstep (Twin L K) serviceEnd serviceEnd Q (Twin L K) := by
  unfold serviceEnd
  refine running_agrees.bind fun o ho => ?_
  cases o with
  | none => exact .leave fun _ _ hk => hk
  | some c => exact (chargeKernel_agrees (ho c rfl)).bind fun _ _ => .leave fun _ _ hk => hk

omit [Platform] in
/-- Code that leaves the tags alone, where a handler has been specified. -/
theorem Keeps.handled {x : KM α} (hx : Keeps (fun k : Kernel => k.tags) x)
    (h : Agrees (Twin L K) E V x) :
    Agrees (fun k k' => Twin L K k k' ∧ k.tags p e = true) E V x := by
  have hkeep : Agrees (fun k k' => Twin L K k k' ∧ k.tags p e = true) E (fun r => V r ∧ True) x :=
    h.keep fun k hk => ?_
  · exact hkeep.weaken fun _ ha => ha.1
  · cases hrun : x.run k with
    | ok r k' =>
        have htags : k'.tags = k.tags := hx.ok hrun
        dsimp only
        rw [htags]
        exact ⟨hk, trivial⟩
    | exit ctl k' => trivial
    | fault e => trivial

omit [Platform] in
theorem setArea_handled (a : Area) (F : State → State) :
    Agrees (fun k k' => Twin L K k k' ∧ k.tags p e = true) E (fun _ => True) (setArea p a F) :=
  Keeps.handled (keeps_modify fun _ => rfl) (setArea_agrees a F)

theorem passUp_agrees {Q : Unit → Unit → Kernel → Kernel → Prop} (hp : p ∈ L) :
    Lockstep (fun k k' => Twin L K k k' ∧ k.tags p e = true) (passUp p e) (passUp p e) Q
      (Twin L K) := by
  unfold passUp
  have hcharge : Keeps (fun k : Kernel => k.tags) (chargeKernel p) := by
    intro q k hk
    exact hk
  refine (hcharge.handled (chargeKernel_agrees hp)).bind fun _ _ => ?_
  refine (setArea_handled _ _).bind fun _ _ => ?_
  refine Lockstep.bind (Q := fun st st' k k' => st = st' ∧ Twin L K k k')
    (.gets fun k k' hk => ?_) fun st st' => ?_
  · obtain ⟨⟨μ, rfl, ha⟩, htag⟩ := hk
    exact ⟨ha.oldnewAreas p hp (.new e) htag, μ, rfl, ha⟩
  · refine .known fun hst => ?_
    subst hst
    exact .leave fun _ _ hk => hk

/-- The test whether the process has a handler; without one it dies. -/
theorem tagged_agrees {Q : Unit → Unit → Kernel → Kernel → Prop} {x : KM Unit} (hp : p ∈ L)
    (hx : Lockstep (fun k k' => Twin L K k k' ∧ k.tags p e = true) x x Q (Twin L K)) :
    Lockstep (Twin L K)
      (Program.gets (fun k : Kernel => k.tags p e) >>= fun b =>
        if b = false then terminateCurrent >>= fun _ => x else x)
      (Program.gets (fun k : Kernel => k.tags p e) >>= fun b =>
        if b = false then terminateCurrent >>= fun _ => x else x) Q (Twin L K) := by
  refine Lockstep.bind (Q := fun b b' k k' => b = b' ∧ Twin L K k k' ∧ k.tags p e = b)
    (.gets fun k k' hk => ?_)
    fun b b' => ?_
  · obtain ⟨μ, rfl, ha⟩ := hk
    exact ⟨congrFun (ha.tags hp) e, ⟨μ, rfl, ha⟩, rfl⟩
  · refine .known fun hb => ?_
    subst hb
    cases b with
    | false =>
        refine Lockstep.bind (terminateCurrent_agrees.pre fun _ _ hk => hk.1) fun _ _ => ?_
        exact .known fun _ => .known fun hf => hf.elim
    | true => exact hx

theorem disableInterrupts_agrees : Agrees (Twin L K) E (fun _ => True) disableInterrupts := by
  unfold disableInterrupts
  exact Agrees.bind (read_agrees fun _ _ => rfl) fun w _ => setSTATUS_agrees _

omit [Platform] in
theorem startKernel_agrees : Agrees (Twin L K) E (fun _ => True) startKernel := by
  unfold startKernel
  refine getTODLO_agrees.bind fun now _ => ?_
  exact write_agrees (fun _ _ => rfl) fun _ _ hc => hc

theorem trapHandler_agrees {ve : Vec} {Q : Unit → Unit → Kernel → Kernel → Prop} :
    Lockstep (Twin L K) (trapHandler e ve) (trapHandler e ve) Q (Twin L K) := by
  unfold trapHandler
  refine disableInterrupts_agrees.bind fun _ _ => ?_
  refine startKernel_agrees.bind fun _ _ => ?_
  refine current_agrees.bind fun c hc => ?_
  refine tagged_agrees hc ?_
  have hread : Agrees (fun k k' => Twin L K k k' ∧ k.tags c e = true) (Twin L K) (fun _ => True)
      (Program.gets fun k : Kernel => k.hw.oldArea ve : KM State) :=
    Keeps.handled (keeps_gets _) (read_agrees fun _ _ => rfl)
  refine hread.bind fun st _ => ?_
  refine (setArea_handled _ _).bind fun _ _ => ?_
  exact (setArea_handled _ _).bind fun _ _ => passUp_agrees hc

theorem reflectSyscall_agrees {Q : Unit → Unit → Kernel → Kernel → Prop} (hp : p ∈ L) :
    Lockstep (Twin L K) (reflectSyscall p) (reflectSyscall p) Q (Twin L K) := by
  unfold reflectSyscall pgmtrapHandler
  refine (field_agrees fun k μ ha => ha.pS hp).bind fun st _ => ?_
  refine Agrees.bind (write_agrees (fun _ _ => rfl) fun _ _ hc => hc) fun _ _ => ?_
  refine Agrees.bind (write_agrees (fun _ _ => rfl) fun _ _ hc => hc) fun _ _ => ?_
  exact (chargeKernel_agrees hp).bind fun _ _ => trapHandler_agrees

theorem passUpSyscall_agrees {Q : Unit → Unit → Kernel → Kernel → Prop} {st : State} (hp : p ∈ L) :
    Lockstep (Twin L K) (passUpSyscall p st) (passUpSyscall p st) Q (Twin L K) := by
  unfold passUpSyscall
  refine tagged_agrees hp ?_
  refine (setArea_handled _ _).bind fun _ _ => ?_
  refine (setArea_handled _ _).bind fun _ _ => ?_
  exact (setArea_handled _ _).bind fun _ _ => passUp_agrees hp

def serves (st : State) : Bool := isService st && !isUserMode st

def ExitsKnown (k : Kernel) (st : State) : Prop :=
  serves st = true → st.a1 = 7 → ∀ e : Excp, st.a2 = e.code →
    ∀ c ∈ k.currentProcess, k.tags c e = true

def View.taken (v : View) (st : State) : Option Pcb :=
  if serves st ∧ st.a1 = 1 then v.free.head? else none

theorem trap_twin {k k' : Kernel} (h : Twin L K k k') : Twin L K (k.trap c) (k'.trap c) := by
  obtain ⟨μ, rfl, ha⟩ := h
  refine ⟨{ μ with pS := Function.update μ.pS c (k.hw.oldArea .sysbk) }, rfl, ?_⟩
  exact { ha with links := { ha.links with }, pS := eqOn_update ha.pS c _ }

theorem syscallHandler_agrees {k k' : Kernel} {v : View} {Q : Unit → Unit → Kernel → Kernel → Prop}
    (h : Twin L K k k') (hv : Populates L k.core v) (hexit : ExitsKnown k (k.hw.oldArea .sysbk)) :
    (syscallHandler.run k).Matches Q (Twin (joined (v.taken (k.hw.oldArea .sysbk)) L)
      (joined (v.taken (k.hw.oldArea .sysbk)) K)) (syscallHandler.run k') := by
  have hcur : k'.currentProcess = k.currentProcess := by
    obtain ⟨μ, rfl, -⟩ := h
    rfl
  cases hc : k.currentProcess with
  | none =>
      rw [syscallHandler_idle hc, syscallHandler_idle (hcur.trans hc)]
      exact .fault Fault.null
  | some c =>
      have hcL : c ∈ L := by
        obtain ⟨μ, rfl, ha⟩ := h
        exact ha.current c hc
      have htrap : Twin L K (k.trap c) (k'.trap c) := trap_twin h
      have hst : (k'.trap c).hw.oldArea .sysbk = k.hw.oldArea .sysbk := by
        obtain ⟨μ, rfl, -⟩ := h
        rfl
      have hps : (k.trap c).pS c = k.hw.oldArea .sysbk := Function.update_self ..
      have hps' : (k'.trap c).pS c = k.hw.oldArea .sysbk := (Function.update_self ..).trans hst
      rw [syscallHandler, Program.run_bind_ok (syscallEnter_ok hc),
        Program.run_bind_ok (syscallEnter_ok (hcur.trans hc)), Program.run_gets_bind,
        Program.run_gets_bind, hst]
      have hst₀ : (k.trap c).hw.oldArea .sysbk = k.hw.oldArea .sysbk := rfl
      rw [hst₀]
      generalize k.hw.oldArea .sysbk = st at *
      cases hserv : isService st with
      | false =>
          have hnone : v.taken st = none := by simp [View.taken, serves, hserv]
          rw [hnone]
          exact passUpSyscall_agrees hcL _ _ htrap
      | true =>
          simp only [if_true, Program.run_gets_bind, hps, hps']
          cases huser : isUserMode st with
          | true =>
              have hnone : v.taken st = none := by simp [View.taken, serves, huser]
              rw [hnone]
              exact reflectSyscall_agrees hcL _ _ htrap
          | false =>
              have hserves : serves st = true := by simp [serves, hserv, huser]
              have hothers : st.a1 ≠ 1 → v.taken st = none := fun hne => if_neg fun hs => hne hs.2
              have hserving : Serving L K (v.taken st) st.a1 st.a2 (k.trap c) (k'.trap c) :=
                { lively := ⟨htrap, v, hv⟩
                  exits := hexit hserves
                  creates := fun hsys => ⟨v, hv.lists, (if_pos ⟨hserves, hsys⟩).symm⟩ }
              have hservice : Lockstep (Serving L K (v.taken st) st.a1 st.a2)
                  (service st.a1 st.a2 st.a3 st.a4 >>= fun _ => serviceEnd)
                  (service st.a1 st.a2 st.a3 st.a4 >>= fun _ => serviceEnd) Q
                  (Twin (joined (v.taken st) L) (joined (v.taken st) K)) :=
                Lockstep.bind (service_agrees hothers) fun _ _ =>
                  serviceEnd_agrees.pre fun _ _ hk => hk.2.2
              exact hservice _ _ hserving

end Entries

/-! ### Interrupts -/

section Interrupts

variable [Platform] {a : ℕ} {u : Word}

omit [Platform] in
theorem lively_read {f : Kernel → β} (h : ∀ k μ, f (k.graft μ) = f k) :
    Agrees (Lively L K) E (fun _ => True) (Program.gets f : KM β) :=
    (silent_gets f).lively (read_agrees h)

theorem semaphoreOperation_signals : Agrees (Lively L K) (Twin L K) (fun _ => True)
    (semaphoreOperation a 1) := by
  intro k k' hk
  by_cases ha : a = 0
  · subst ha
    rw [semaphoreOperation_null, semaphoreOperation_null]
    exact .exit Ctl.panic hk.1
  · rw [semaphoreOperation_pos ha Int.one_pos, semaphoreOperation_pos ha Int.one_pos]
    exact verhogen_agrees k k' hk

theorem signalDevice_agrees : Agrees (Lively L K) (Twin L K) (fun _ => True)
    (signalDevice a u) := by
  unfold signalDevice
  refine Agrees.bind (lively_read fun _ _ => rfl) fun i _ => ?_
  refine Agrees.ite (fun _ => ?_) fun _ => .pure trivial
  refine headBlocked_lively .fail fun q hq => ?_
  refine .pre (P := Lively L K) ?_ fun k k' hk => ⟨hk.1, hk.2.imp fun _ h => h.1⟩
  have hset : Agrees (Lively L K) (Twin L K) (fun _ => True)
      (setPs q fun s => { s with a1 := u }) :=
    (silent_setPs _).lively (setPs_agrees hq _)
  exact hset.bind fun _ _ => semaphoreOperation_signals

theorem devHandler_agrees : Agrees (Lively L K) (Twin L K) (fun _ => True) (devHandler u) := by
  unfold devHandler
  refine Agrees.bind (lively_read fun _ _ => rfl) fun b _ => ?_
  refine (devRegAddr_agrees u _).bind fun i _ => ?_
  refine (deviceSemAt_agrees u 0 _).bind fun d _ => ?_
  refine Agrees.bind (lively_read fun _ _ => rfl) fun status _ => ?_
  exact signalDevice_agrees.bind fun _ _ => (silent_setDevreg _ _).lively (setDevreg_agrees _ _)

theorem tickLoop_agrees {m : ℕ} : Agrees (Lively L K) (Twin L K) (fun _ => True) (tickLoop m) := by
  induction m with
  | zero => exact .fail
  | succ m ih =>
      unfold tickLoop
      refine Agrees.bind (lively_read fun _ _ => rfl) fun i _ => ?_
      refine Agrees.ite (fun _ => ?_) fun _ => .pure trivial
      exact semaphoreOperation_signals.bind fun _ _ => ih

theorem timerHandler_agrees : Agrees (Lively L K) (Twin L K) (fun _ => True) timerHandler := by
  have htimer : Agrees (Lively L K) (Twin L K) (fun _ => True) (setTIMER schedBogusSlice) :=
    (silent_setTIMER _).lively (setTIMER_agrees _)
  unfold timerHandler
  refine Agrees.bind (lively_read fun _ _ => rfl) fun b _ => ?_
  refine Agrees.ite (fun _ => ?_) fun _ => htimer
  refine Agrees.bind (lively_read fun _ _ => rfl) fun i _ => ?_
  refine tickLoop_agrees.bind fun _ _ => ?_
  exact Agrees.bind ((silent_setFlag _).lively (setFlag_agrees .reset)) fun _ _ => htimer

theorem terminalReceive_agrees {i : ℕ} : Agrees (Lively L K) (Twin L K) (fun _ => True)
    (terminalReceive i u) := by
  unfold terminalReceive
  refine Agrees.bind (lively_read fun _ _ => rfl) fun status _ => ?_
  refine Agrees.ite (fun _ => ?_) fun _ => .pure trivial
  refine (deviceSemAt_agrees intTerminal devPerInt u).bind fun d _ => ?_
  exact signalDevice_agrees.bind fun _ _ => (silent_setDevreg _ _).lively (setDevreg_agrees _ _)

theorem terminalTransmit_agrees {i : ℕ} : Agrees (Lively L K) (Twin L K) (fun _ => True)
    (terminalTransmit i u) := by
  unfold terminalTransmit
  refine Agrees.bind (lively_read fun _ _ => rfl) fun status _ => ?_
  refine Agrees.ite (fun _ => ?_) fun _ => .pure trivial
  refine (deviceSemAt_agrees intTerminal 0 u).bind fun d _ => ?_
  exact signalDevice_agrees.bind fun _ _ => (silent_setDevreg _ _).lively (setDevreg_agrees _ _)

theorem terminalHandler_agrees : Agrees (Lively L K) (Twin L K)
    (fun _ => True) terminalHandler := by
  unfold terminalHandler
  refine Agrees.bind (lively_read fun _ _ => rfl) fun b _ => ?_
  refine (devRegAddr_agrees intTerminal _).bind fun i _ => ?_
  exact terminalReceive_agrees.bind fun _ _ => terminalTransmit_agrees

theorem serveLine_agrees : Agrees (Lively L K) (Twin L K) (fun _ => True) (serveLine u) := by
  unfold serveLine
  refine Agrees.ite (fun _ => timerHandler_agrees) fun _ =>
    Agrees.ite (fun _ => devHandler_agrees) fun _ => ?_
  refine Agrees.ite (fun _ => devHandler_agrees) fun _ =>
    Agrees.ite (fun _ => devHandler_agrees) fun _ => ?_
  refine Agrees.ite (fun _ => devHandler_agrees) fun _ =>
    Agrees.ite (fun _ => terminalHandler_agrees) fun _ => ?_
  exact .pure trivial

omit [Platform] in
theorem saveInterrupted_agrees : Agrees (Twin L K) E (fun _ => True) saveInterrupted := by
  unfold saveInterrupted
  refine running_agrees.bind fun o ho => ?_
  cases o with
  | none => exact Agrees.pure trivial
  | some c =>
      refine Agrees.bind (read_agrees fun _ _ => rfl) fun st _ => ?_
      exact (setPs_agrees (ho c rfl) _).bind fun _ _ => setPs_agrees (ho c rfl) _

theorem interruptEnter_agrees : Agrees (Twin L K) E (fun _ => True) interruptEnter := by
  unfold interruptEnter
  refine disableInterrupts_agrees.bind fun _ _ => ?_
  refine startKernel_agrees.bind fun _ _ => ?_
  refine Agrees.bind (read_agrees fun _ _ => rfl) fun cause _ => ?_
  refine (setFlag_agrees .loadnext).bind fun _ _ => ?_
  exact saveInterrupted_agrees.bind fun _ _ => Agrees.pure trivial

theorem interruptHandler_agrees {Q : Unit → Unit → Kernel → Kernel → Prop} :
    Lockstep (Lively L K) interruptHandler interruptHandler Q (Twin L K) := by
  have henter : Silent interruptEnter := by
    intro s
    obtain ⟨t, hrun, hcore, -⟩ := interruptEnter_run s
    exact ⟨_, t, hrun, hcore⟩
  have hend : Lockstep (Twin L K)
      (getSTATUS >>= fun w => setSTATUS (Platform.statusAllIntEnable w) >>= fun _ =>
        (callScheduler : KM Unit))
      (getSTATUS >>= fun w => setSTATUS (Platform.statusAllIntEnable w) >>= fun _ => callScheduler)
        Q (Twin L K) :=
    Agrees.bind (read_agrees fun _ _ => rfl) fun w _ => (setSTATUS_agrees _).bind fun _ _ =>
      .leave fun _ _ hk => hk
  have hbody : Lockstep (Lively L K) interruptBody interruptBody (fun b b' k k' => b = b' ∧ True ∧
      Twin L K k k')
      (Twin L K) := by
    unfold interruptBody
    refine (henter.lively interruptEnter_agrees).bind fun cause _ => ?_
    refine serveLine_agrees.bind fun _ _ => ?_
    refine .pre (P := Twin L K) ?_ fun _ _ hk => hk.1
    refine running_agrees.bind fun o ho => ?_
    cases o with
    | none => exact .pure fun _ _ hk => ⟨rfl, trivial, hk⟩
    | some c => exact chargeKernel_agrees (ho c rfl)
  exact Lockstep.bind hbody fun _ _ => hend.pre fun _ _ hk => hk.2.2

end Interrupts

/-! ### The scheduler -/

def Housed (L K : Set Pcb) (k k' : Kernel) : Prop :=
  Twin L K k k' ∧ ∃ v, Rep k.core v ∧ ∀ x, v.place x ≠ .free → x ∈ L

section Dispatch

theorem Housed.lively {k k' : Kernel} (h : Housed L K k k') : Lively L K k k' := by
  obtain ⟨hk, v, hv, hmem⟩ := h
  exact ⟨hk, v, hv.lists, hv.ready, hv.value, hv.request, hv.alive, hv.soft, hmem⟩

theorem Silent.housed {x : KM α} (hx : Silent x) (h : Agrees (Twin L K) E V x) :
    Agrees (Housed L K) E V x :=
  hx.beside (A := fun κ => ∃ v, Rep κ v ∧ ∀ x, v.place x ≠ .free → x ∈ L) h

/-- The first process of the ready queue is in use. -/
theorem removeReady_lively {Q : α → α → Kernel → Kernel → Prop}
    {f g : Option Pcb × Option Pcb → KM α}
    (hf : ∀ r : Option Pcb × Option Pcb, (∀ q ∈ r.1, q ∈ L) → Lockstep (Twin L K) (f r) (g r) Q E) :
    Lockstep (Lively L K)
      (Program.gets (fun k : Kernel => k.readyqueue) >>= fun q => onLinks (removeProcQ q) >>= f)
      (Program.gets (fun k : Kernel => k.readyqueue) >>= fun q => onLinks (removeProcQ q) >>= g)
        Q E := by
  rintro k _ ⟨⟨μ, rfl, ha⟩, v, hv⟩
  have hring : Ring k.pList k.readyqueue v.ready := hv.ready.ring
  have hmem : Triple (fun s => s = k) (onLinks (removeProcQ k.readyqueue))
      (fun r _ => ∀ q ∈ r.1, q ∈ L)
      (fun _ _ => True) fun _ => True := by
    rintro s rfl
    cases hr : v.ready with
    | nil =>
        rw [onLinks_ok (removeProcQ_nil (hr ▸ hring))]
        exact nofun
    | cons p l =>
        obtain ⟨link, tail, hrun, -⟩ := removeProcQ_run (χ := Ctl) (hr ▸ hring)
        rw [onLinks_ok hrun]
        intro q hq
        obtain rfl := Option.some.inj hq
        refine hv.mem p ?_
        rw [(hv.ready.mem p).mp (hr ▸ List.mem_cons_self)]
        exact Place.noConfusion
  have hremove :=
    (onLinks_agrees (E := E) (removeProcQ_agrees (L := L) (K := K) k.readyqueue)).left hmem
  have hrest : Lockstep (fun s t => Twin L K s t ∧ s = k) (onLinks (removeProcQ k.readyqueue) >>= f)
      (onLinks (removeProcQ k.readyqueue) >>= g) Q E := by
    refine Lockstep.bind hremove fun r r' => ?_
    refine .pre (P := fun s t => r = r' ∧ (∀ q ∈ r.1, q ∈ L) ∧ Twin L K s t) ?_ fun s t h =>
      ⟨h.1.1, h.2, h.1.2.2⟩
    refine .known fun hr => .known fun hq => ?_
    subst hr
    exact hf r hq
  exact hrest k _ ⟨⟨μ, rfl, ha⟩, rfl⟩

variable [Platform]

theorem loadCurrent_agrees {Q : Unit → Unit → Kernel → Kernel → Prop} :
    Lockstep (Twin L K) loadCurrent loadCurrent Q (Twin L K) := by
  unfold loadCurrent
  refine current_agrees.bind fun c hc => ?_
  refine (setPs_agrees hc _).bind fun _ _ => ?_
  refine (field_agrees fun k μ ha => ha.pS hc).bind fun st _ => ?_
  exact .leave fun _ _ hk => hk

theorem deadlockDetection_agrees : Agrees (Twin L K) (Twin L K)
    (fun _ => True) deadlockDetection := by
  have hleave (ctl : Ctl) : Agrees (Twin L K) (Twin L K) (fun _ => True)
      (Program.leave ctl : KM Unit) :=
    .leave fun _ _ hk => hk
  unfold deadlockDetection
  refine Agrees.bind (read_agrees fun _ _ => rfl) fun n _ => ?_
  refine Agrees.bind (read_agrees fun _ _ => rfl) fun m _ => ?_
  refine Agrees.ite (fun _ => hleave .halt) fun _ => Agrees.ite (fun _ => hleave .panic) fun _ => ?_
  refine Agrees.ite (fun _ => ?_) fun _ => .pure trivial
  refine (setTIMER_agrees _).bind fun _ _ => ?_
  refine Agrees.bind (read_agrees fun _ _ => rfl) fun w _ => ?_
  exact (setSTATUS_agrees _).bind fun _ _ => hleave .wait

omit [Platform] in
theorem armTimer_agrees : Agrees (Twin L K) E (fun _ => True) armTimer := by
  unfold armTimer
  refine Agrees.bind (read_agrees fun _ _ => rfl) fun start _ => ?_
  refine getTODLO_agrees.bind fun now _ => ?_
  refine Agrees.ite (fun _ => ?_) fun _ => setTIMER_agrees _
  refine getTODLO_agrees.bind fun now _ => ?_
  refine (setTIMER_agrees _).bind fun _ _ => ?_
  refine Agrees.bind (write_agrees (fun _ _ => rfl) fun _ _ hc => hc) fun _ _ => ?_
  refine getTODLO_agrees.bind fun now _ => ?_
  exact write_agrees (fun _ _ => rfl) fun _ _ hc => hc

omit [Platform] in
theorem requeueCurrent_agrees : Agrees (Twin L K) E (fun _ => True) requeueCurrent := by
  unfold requeueCurrent
  refine running_agrees.bind fun o ho => ?_
  cases o with
  | none => exact Agrees.pure trivial
  | some c =>
      refine getTODLO_agrees.bind fun now _ => ?_
      refine Agrees.bind (read_agrees fun _ _ => rfl) fun start _ => ?_
      refine (addGlobalTime_agrees (ho c rfl) _).bind fun _ _ => ?_
      exact insertReady_agrees.bind fun _ _ => setCurrent_agrees

/-- The interrupted process is in use. -/
theorem requeueCurrent_housed :
    Lockstep (Housed L K) requeueCurrent requeueCurrent (fun _ _ => Housed L K) E := by
  have hrep : Triple (fun k : Kernel => ∃ v, Rep k.core v ∧ ∀ x, v.place x ≠ .free →
      x ∈ L) requeueCurrent
      (fun _ k => ∃ v, Rep k.core v ∧ ∀ x, v.place x ≠ .free → x ∈ L) (fun _ _ => True) fun _ =>
      True := by
    rintro k ⟨v, hv, hmem⟩
    obtain ⟨t, v', hrun, hsteps, hv', -⟩ := requeueCurrent_run hv
    rw [hrun]
    refine ⟨v', hv', fun x hx => hmem x ?_⟩
    split at hsteps
    · rcases (steps_single.mp hsteps).alive hv.orderly hx with h | ⟨hact, -⟩
      · exact h
      · cases hact
    · obtain rfl := steps_nil.mp hsteps
      exact hx
  exact (requeueCurrent_agrees.left hrep).conseq (fun _ _ hk => hk)
    (fun _ _ _ _ h => ⟨h.1.2.2, h.2⟩) fun _ _ he => he

theorem loadnext_agrees {Q : Unit → Unit → Kernel → Kernel → Prop} :
    Lockstep (Housed L K) loadnext loadnext Q (Twin L K) := by
  unfold loadnext
  refine Lockstep.bind requeueCurrent_housed fun _ _ => ?_
  refine .pre (P := Lively L K) ?_ fun _ _ hk => hk.lively
  refine (armTimer_silent.lively armTimer_agrees).bind fun _ _ => ?_
  refine removeReady_lively fun r hr => ?_
  obtain ⟨p, q⟩ := r
  have hset : Agrees (Twin L K) (Twin L K) (fun _ => True)
      (Program.modify fun k : Kernel => { k with readyqueue := q, currentProcess := p } :
        KM Unit) := by
    refine .modify fun k k' hk => ?_
    obtain ⟨μ, rfl, ha⟩ := hk
    exact ⟨μ, rfl, { ha with links := { ha.links with }, current := hr }⟩
  have hrest : Lockstep (Twin L K)
      (getTODLO >>= fun now => Program.modify (fun k : Kernel => { k with startTOD := now }) >>=
        fun _ => loadCurrent)
      (getTODLO >>= fun now => Program.modify (fun k : Kernel => { k with startTOD := now }) >>=
        fun _ => loadCurrent)
      Q (Twin L K) := by
    refine getTODLO_agrees.bind fun now _ => ?_
    exact Agrees.bind (write_agrees (fun _ _ => rfl) fun _ _ hc => hc) fun _ _ => loadCurrent_agrees
  refine hset.bind fun _ _ => ?_
  exact .ite Iff.rfl (fun _ => deadlockDetection_agrees.bind fun _ _ => hrest) fun _ => hrest

theorem scheduler_agrees {Q : Unit → Unit → Kernel → Kernel → Prop} :
    Lockstep (Housed L K) scheduler scheduler Q (Twin L K) := by
  have hread {β : Type} {f : Kernel → β} (h : ∀ k μ, f (k.graft μ) = f k) :
      Agrees (Housed L K) (Twin L K) (fun _ => True) (Program.gets f : KM β) :=
    (silent_gets f).housed (read_agrees h)
  have hrestart : Lockstep (Housed L K)
      (getTODLO >>= fun now =>
        Program.modify
          (fun k : Kernel => { k with pseudoclockflag := false, pseudoStart := now }) >>= fun _ =>
          loadnext)
      (getTODLO >>= fun now =>
        Program.modify
          (fun k : Kernel => { k with pseudoclockflag := false, pseudoStart := now }) >>= fun _ =>
          loadnext)
      Q (Twin L K) := by
    have htod : Agrees (Housed L K) (Twin L K) (fun _ => True) getTODLO :=
      silent_getTODLO.housed getTODLO_agrees
    refine htod.bind fun now _ => ?_
    have hset : Agrees (Housed L K) (Twin L K) (fun _ => True)
        (Program.modify fun k : Kernel => { k with pseudoclockflag := false, pseudoStart := now } :
          KM Unit) :=
      Silent.housed (fun _ => ⟨_, _, rfl, rfl⟩) (write_agrees (fun _ _ => rfl) fun _ _ hc => hc)
    exact hset.bind fun _ _ => loadnext_agrees
  unfold scheduler
  refine Agrees.bind (hread fun _ _ => rfl) fun w _ => ?_
  have hstatus : Agrees (Housed L K) (Twin L K) (fun _ => True)
      (setSTATUS (Platform.statusAllIntDisable w)) :=
    (silent_setSTATUS _).housed (setSTATUS_agrees _)
  refine hstatus.bind fun _ _ => ?_
  refine Agrees.bind (hread fun _ _ => rfl) fun flag _ => ?_
  cases flag with
  | start =>
      have htimer : Agrees (Housed L K) (Twin L K) (fun _ => True) (setTIMER schedTimeSlice) :=
        (silent_setTIMER _).housed (setTIMER_agrees _)
      exact htimer.bind fun _ _ => hrestart
  | reset => exact hrestart
  | loadnext => exact loadnext_agrees
  | loadcurrent => exact loadCurrent_agrees.pre fun _ _ hk => hk.1

end Dispatch

end JaeOS
