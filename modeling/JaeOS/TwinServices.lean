import JaeOS.Effects
import JaeOS.Twins

/-!
# System calls of twins

Two kernels are twins on a set `L` of PCBs if they differ in the contents of PCBs outside `L` only,
and in areas of exceptions for which no handler has been specified. Code that is started in `L` does
the same with both.
-/

open Program LinkRing

namespace JaeOS

def Area.kind : Area → Excp
  | .old e => e
  | .new e => e

def Kernel.graft (k : Kernel) (μ : Mem maxproc) : Kernel :=
  { k with
    pParent := μ.pParent
    pCursem := μ.pCursem
    pChildren := μ.pChildren
    pSiblings := μ.pSiblings
    pS := μ.pS
    pid := μ.pid
    resWait := μ.resWait
    kernelTime := μ.kernelTime
    globalTime := μ.globalTime
    oldnewAreas := μ.oldnewAreas
    tags := μ.tags }

/-- The contents of the PCBs of `L` are the same, except for areas that belong to no handler. -/
structure Kernel.Agree (L K : Set Pcb) (k : Kernel) (μ : Mem maxproc) : Prop where
  links : k.toLinks.Agree L K μ.toLinks
  pS : Set.EqOn k.pS μ.pS L
  pid : Set.EqOn k.pid μ.pid L
  resWait : Set.EqOn k.resWait μ.resWait L
  kernelTime : Set.EqOn k.kernelTime μ.kernelTime L
  globalTime : Set.EqOn k.globalTime μ.globalTime L
  tags : Set.EqOn k.tags μ.tags L
  oldnewAreas : ∀ p ∈ L, ∀ a : Area, k.tags p a.kind = true → k.oldnewAreas p a = μ.oldnewAreas p a
  current : ∀ c ∈ k.currentProcess, c ∈ L

/-- Two kernels that differ in the contents of PCBs outside `L`, and in areas that belong to no
handler. -/
def Twin (L K : Set Pcb) (k k' : Kernel) : Prop := ∃ μ, k' = k.graft μ ∧ k.Agree L K μ

variable {α β : Type} {L K : Set Pcb} {p c : Pcb} {V : α → Prop} {E : Kernel → Kernel → Prop}

theorem eqOn_modify {f g : Pcb → β} (h : Set.EqOn f g L) (hp : p ∈ L) (F : β → β) :
    Set.EqOn (Function.update f p (F (f p))) (Function.update g p (F (g p))) L := by
  rw [← h hp]
  exact eqOn_update h p _

/-! ### The parts of programs -/

/-- Code that only looks at what twins have in common. -/
theorem read_agrees {f : Kernel → α} (h : ∀ k μ, f (k.graft μ) = f k) :
    Agrees (Twin L K) E (fun _ => True) (Program.gets f : KM α) := by
  refine .gets fun k k' hk => ?_
  obtain ⟨μ, rfl, -⟩ := hk
  exact ⟨(h k μ).symm, trivial⟩

/-- A field of a PCB in `L`. -/
theorem field_agrees {f : Kernel → α} (h : ∀ k μ, k.Agree L K μ → f k = f (k.graft μ)) :
    Agrees (Twin L K) E (fun _ => True) (Program.gets f : KM α) := by
  refine .gets fun k k' hk => ?_
  obtain ⟨μ, rfl, ha⟩ := hk
  exact ⟨h k μ ha, trivial⟩

/-- Code that only writes what twins have in common. -/
theorem write_agrees {f : Kernel → Kernel} (h : ∀ k μ, f (k.graft μ) = (f k).graft μ)
    (hc : ∀ k, ∀ c ∈ (f k).currentProcess, c ∈ k.currentProcess) :
    Agrees (Twin L K) E (fun _ => True) (Program.modify f : KM Unit) := by
  refine .modify fun k k' hk => ?_
  obtain ⟨μ, rfl, ha⟩ := hk
  refine ⟨μ, h k μ, ?_⟩
  have hkeep : f k = (f k).graft k.toMem := h k k.toMem
  have hcur : ∀ c ∈ ((f k).graft k.toMem).currentProcess, c ∈ L :=
    fun c hm => ha.current c (hc k c (hkeep ▸ hm))
  rw [hkeep]
  exact { ha with links := { ha.links with }, current := hcur }

/-- Code that writes the contents of PCBs. -/
theorem contents_agrees {f : Kernel → Kernel} (g : Mem maxproc → Mem maxproc)
    (h : ∀ k μ, f (k.graft μ) = (f k).graft (g μ))
    (ha : ∀ k μ, k.Agree L K μ → (f k).Agree L K (g μ)) :
    Agrees (Twin L K) E (fun _ => True) (Program.modify f : KM Unit) := by
  refine .modify fun k k' hk => ?_
  obtain ⟨μ, rfl, hagree⟩ := hk
  exact ⟨g μ, h k μ, ha k μ hagree⟩

/-- A function of phase 1. -/
theorem onLinks_agrees {x : Program (Links maxproc) Ctl Fault α}
    (hx : Agrees (Links.Twin L K) (fun _ _ => False) V x) : Agrees (Twin L K) E V (onLinks x) := by
  refine hx.zoom (fun k k' hk => ?_) fun m m' k k' hm hk => ?_
  · obtain ⟨μ, rfl, ha⟩ := hk
    exact ⟨μ.toLinks, rfl, ha.links⟩
  · obtain ⟨μ, rfl, ha⟩ := hk
    obtain ⟨c, rfl, hc⟩ := hm
    exact ⟨{ μ with toLinks := c }, rfl, { ha with links := hc }⟩

theorem running_agrees : Agrees (Twin L K) E (fun o => ∀ c ∈ o, c ∈ L)
    (Program.gets fun k : Kernel => k.currentProcess : KM (Option Pcb)) := by
  refine .gets fun k k' hk => ?_
  obtain ⟨μ, rfl, ha⟩ := hk
  exact ⟨rfl, ha.current⟩

theorem current_agrees : Agrees (Twin L K) E (· ∈ L) current := by
  unfold current
  exact running_agrees.bind fun o ho => Agrees.need ho

theorem setPs_agrees (hp : p ∈ L) (F : State → State) : Agrees (Twin L K) E (fun _ => True)
    (setPs p F) :=
  contents_agrees (fun μ => { μ with pS := Function.update μ.pS p (F (μ.pS p)) }) (fun _ _ => rfl)
    fun _ _ ha => { ha with pS := eqOn_modify ha.pS hp F }

theorem withArea_twin {k k' : Kernel} (h : Twin L K k k') (a : Area) (F : State → State) :
    Twin L K (k.withArea p a F) (k'.withArea p a F) := by
  obtain ⟨μ, rfl, ha⟩ := h
  refine ⟨((k.graft μ).withArea p a F).toMem, rfl, ?_⟩
  refine { ha with links := { ha.links with }, oldnewAreas := fun q hq b htag => ?_ }
  have hold : k.oldnewAreas q b = μ.oldnewAreas q b := ha.oldnewAreas q hq b htag
  change Function.update k.oldnewAreas p _ q b = Function.update μ.oldnewAreas p _ q b
  by_cases hqp : q = p
  · subst hqp
    simp only [Function.update_self, Function.update_apply]
    split
    · next hba =>
      change F (k.oldnewAreas q a) = F (μ.oldnewAreas q a)
      rw [← hba, hold]
    · exact hold
  · rw [Function.update_of_ne hqp, Function.update_of_ne hqp, hold]

theorem setArea_agrees (a : Area) (F : State → State) : Agrees (Twin L K) E (fun _ => True)
    (setArea p a F) :=
  .modify fun _ _ hk => withArea_twin hk a F

theorem addKernelTime_agrees (hp : p ∈ L) (t : Word) : Agrees (Twin L K) E (fun _ => True)
    (addKernelTime p t) :=
  contents_agrees
    (fun μ => { μ with kernelTime := Function.update μ.kernelTime p (μ.kernelTime p + t) })
    (fun _ _ => rfl) fun _ _ ha => { ha with kernelTime := eqOn_modify ha.kernelTime hp (· + t) }

theorem addGlobalTime_agrees (hp : p ∈ L) (t : Word) : Agrees (Twin L K) E (fun _ => True)
    (addGlobalTime p t) :=
  contents_agrees
    (fun μ => { μ with globalTime := Function.update μ.globalTime p (μ.globalTime p + t) })
    (fun _ _ => rfl) fun _ _ ha => { ha with globalTime := eqOn_modify ha.globalTime hp (· + t) }

theorem setRequest_agrees (w : ℤ) : Agrees (Twin L K) E (fun _ => True)
    (Program.modify fun k : Kernel => { k with resWait := Function.update k.resWait p w } :
      KM Unit) :=
  contents_agrees (fun μ => { μ with resWait := Function.update μ.resWait p w }) (fun _ _ => rfl)
    fun _ _ ha => { ha with resWait := eqOn_update ha.resWait p w }

theorem getTODLO_agrees : Agrees (Twin L K) E (fun _ => True) getTODLO := by
  unfold getTODLO
  refine (read_agrees fun _ _ => rfl).bind fun t _ => ?_
  refine Agrees.bind (write_agrees (fun _ _ => rfl) fun _ _ hc => hc) fun _ _ => ?_
  exact Agrees.pure trivial

theorem setInt_agrees (a : ℕ) (i : ℤ) : Agrees (Twin L K) E (fun _ => True) (setInt a i) :=
  write_agrees (fun _ _ => rfl) fun _ _ hc => hc

theorem addSoftBlockCount_agrees (d : ℤ) : Agrees (Twin L K) E (fun _ => True)
    (addSoftBlockCount d) :=
  write_agrees (fun _ _ => rfl) fun _ _ hc => hc

theorem addProcessCount_agrees (d : ℤ) : Agrees (Twin L K) E (fun _ => True) (addProcessCount d) :=
  write_agrees (fun _ _ => rfl) fun _ _ hc => hc

theorem setFlag_agrees (f : Flag) : Agrees (Twin L K) E (fun _ => True) (setFlag f) :=
  write_agrees (fun _ _ => rfl) fun _ _ hc => hc

theorem insertReady_agrees : Agrees (Twin L K) E (fun _ => True) (insertReady p) :=
  write_agrees (fun _ _ => rfl) fun _ _ hc => hc

theorem setCurrent_agrees : Agrees (Twin L K) E (fun _ => True) (setCurrent none) :=
  write_agrees (fun _ _ => rfl) fun _ c hc => absurd hc (Option.not_mem_none c)

/-! ### Termination -/

section Termination

variable [Platform]

theorem leaveSemaphore_agrees (hp : p ∈ L) : Agrees (Twin L K) E (fun _ => True)
    (leaveSemaphore p) := by
  unfold leaveSemaphore
  refine (field_agrees fun k μ ha => ha.links.pCursem hp).bind fun o _ => ?_
  cases o with
  | none => exact Agrees.pure trivial
  | some d =>
      refine (field_agrees fun k μ ha => ha.resWait hp).bind fun weight _ => ?_
      refine (read_agrees fun _ _ => rfl).bind fun a _ => ?_
      have hrest : Agrees (Twin L K) E (fun _ => True)
          (onLinks (outBlocked p) >>= fun _ => addSoftBlockCount (-1)) :=
        (onLinks_agrees (outBlocked_agrees hp)).bind fun _ _ => addSoftBlockCount_agrees (-1)
      refine Agrees.ite (fun _ => ?_) fun _ => hrest
      refine (read_agrees fun _ _ => rfl).bind fun i _ => ?_
      exact (setInt_agrees a _).bind fun _ _ => hrest

omit [Platform] in
theorem free_agrees : Agrees (Twin L K) E (fun _ => True)
    (Program.modify fun k : Kernel => k.setLinks (freePcb p k.toLinks) : KM Unit) :=
  write_agrees (fun _ _ => rfl) fun _ _ hc => hc

theorem terminateLeaf_agrees (hp : p ∈ L) : Agrees (Twin L K) E (fun _ => True)
    (terminateLeaf p) := by
  unfold terminateLeaf
  refine (leaveSemaphore_agrees hp).bind fun _ _ => ?_
  exact (addProcessCount_agrees (-1)).bind fun _ _ => free_agrees

omit [Platform] in
theorem emptyChild_agrees (hp : p ∈ L) : Agrees (Twin L K) E (fun _ => True)
    (Program.gets fun k : Kernel => emptyChild p k.toLinks : KM Bool) :=
  field_agrees fun _ _ ha => congrArg Option.isNone (ha.links.pChildren hp)

theorem terminateChildrenLoop_agrees {m : ℕ} {q : Pcb} (hp : p ∈ L) :
    Agrees (Twin L K) E (fun _ => True) (terminateChildrenLoop m p q) := by
  induction m generalizing p with
  | zero => exact .fail
  | succ m ih =>
      unfold terminateChildrenLoop
      refine (emptyChild_agrees hp).bind fun b _ => ?_
      refine Agrees.ite (fun _ => ?_) fun _ => ?_
      · exact Agrees.ite (fun _ => terminateLeaf_agrees hp) fun _ => .pure trivial
      · refine (onLinks_agrees (removeChild_agrees hp)).bind fun o ho => ?_
        refine Lockstep.need fun x hx => ?_
        exact (ih (ho x hx)).bind fun _ _ => ih hp

omit [Platform] in
theorem discard_agrees (hp : p ∈ L) : Agrees (Twin L K) E (fun _ => True) (discard p) := by
  unfold discard
  refine (addProcessCount_agrees (-1)).bind fun _ _ => ?_
  refine (onLinks_agrees (outChild_agrees hp)).bind fun _ _ => ?_
  refine (read_agrees fun _ _ => rfl).bind fun q _ => ?_
  refine (onLinks_agrees (outProcQ_agrees q p)).bind fun r _ => ?_
  refine Agrees.bind (write_agrees (fun _ _ => rfl) fun _ _ hc => hc) fun _ _ => free_agrees

theorem terminateTree_agrees (hp : p ∈ L) : Agrees (Twin L K) E (fun _ => True)
    (terminateTree p) := by
  unfold terminateTree terminateChildren
  refine (terminateChildrenLoop_agrees hp).bind fun _ _ => ?_
  exact (leaveSemaphore_agrees hp).bind fun _ _ => discard_agrees hp

omit [Platform] in
/-- The search goes through children of `L`. -/
theorem searchChildren_agrees {search : Pcb → Bool → KM Bool} {b : Bool} (hp : p ∈ L)
    (hs : ∀ q ∈ L, ∀ b, Agrees (Twin L K) E (fun _ => True) (search q b)) :
    Agrees (Twin L K) E (fun _ => True) (searchChildren search p b) := by
  unfold searchChildren
  refine Agrees.bind (V := fun _ => True) ?_ fun r _ => Agrees.pure trivial
  refine clistForeach_agrees (G := K ∩ L) (fun k k' hk x hx => ?_)
    (fun o _ => .gets fun k k' hk => ?_)
    (fun found x hx tmp => ?_) nofun
  · obtain ⟨μ, rfl, ha⟩ := hk
    refine ⟨ha.links.pSiblings hx.2, fun y hy => ?_⟩
    have hyK : y ∈ K := ha.links.siblings_mem x hx.1 y hy
    exact ⟨hyK, ha.links.sub hyK⟩
  · obtain ⟨μ, rfl, ha⟩ := hk
    refine ⟨ha.links.pChildren hp, fun y hy => ?_⟩
    have hyK : y ∈ K := ha.links.children_mem p hp y hy
    exact ⟨hyK, ha.links.sub hyK⟩
  · refine Agrees.ite (fun _ => ?_) fun _ => .pure trivial
    refine (hs x hx.2 found).bind fun b _ => ?_
    exact Agrees.pure trivial

theorem lookforProgenyLoop_agrees {m : ℕ} {pid : Word} {b : Bool} (hp : p ∈ L) :
    Agrees (Twin L K) E (fun _ => True) (lookforProgenyLoop m p pid b) := by
  induction m generalizing p b with
  | zero => exact .fail
  | succ m ih =>
      unfold lookforProgenyLoop
      refine (field_agrees fun k μ ha => ha.pid hp).bind fun u _ => ?_
      refine Agrees.ite (fun _ => ?_) fun _ => searchChildren_agrees hp fun q hq b => ih hq
      exact (terminateTree_agrees hp).bind fun _ _ => Agrees.pure trivial

theorem terminateProcess_agrees {pid : Word} :
    Agrees (Twin L K) (Twin L K) (fun _ => True) (terminateProcess pid) := by
  unfold terminateProcess
  refine current_agrees.bind fun c hc => ?_
  refine (field_agrees fun k μ ha => ha.pid hc).bind fun u _ => ?_
  refine Agrees.ite (fun _ => ?_) fun _ => ?_
  · refine (terminateChildrenLoop_agrees hc).bind fun _ _ => ?_
    refine (discard_agrees hc).bind fun _ _ => ?_
    exact setCurrent_agrees.bind fun _ _ => setFlag_agrees .loadnext
  · refine (lookforProgenyLoop_agrees hc).bind fun b _ => ?_
    exact Agrees.ite (fun _ => .leave fun _ _ hk => hk) fun _ => .pure trivial

/-- It does not come back. -/
theorem terminateCurrent_agrees : Agrees (Twin L K) (Twin L K)
    (fun _ => False) terminateCurrent := by
  unfold terminateCurrent
  refine current_agrees.bind fun c hc => ?_
  refine (field_agrees fun k μ ha => ha.pid hc).bind fun u _ => ?_
  exact terminateProcess_agrees.bind fun _ _ => Agrees.leave fun _ _ hk => hk

end Termination

/-! ### Semaphores -/

structure Populates (L : Set Pcb) (κ : Core) (v : View) : Prop where
  lists : Lists κ.links v
  ready : ReadyRing κ.links κ.readyqueue v
  value : κ.ints = v.value
  request : κ.resWait = v.request
  alive : κ.processCount = v.alive
  soft : κ.softBlockCount = v.soft
  mem : ∀ x, v.place x ≠ .free → x ∈ L

def Lively (L K : Set Pcb) (k k' : Kernel) : Prop := Twin L K k k' ∧ ∃ v, Populates L k.core v

section Semaphores

variable {a : ℕ} {w : ℤ}

theorem Populates.withLists {k : Kernel} {v : View} (h : Populates L k.core v) :
    k.withLists k.toLinks v = k :=
  withLists_self h.value h.request h.alive h.soft

theorem Populates.queue_mem {κ : Core} {v : View} (h : Populates L κ v) (hp : p ∈ v.queue a) :
    p ∈ L := by
  refine h.mem p ?_
  rw [(h.lists.mem_queue p a).mp hp]
  exact Place.noConfusion

/-- Code that leaves the core alone, and what is known about the core. -/
theorem Silent.beside {x : KM α} {A : Core → Prop} (hx : Silent x) (h : Agrees (Twin L K) E V x) :
    Agrees (fun k k' => Twin L K k k' ∧ A k.core) E V x := by
  have hkeep : Agrees (fun k k' => Twin L K k k' ∧ A k.core) E (fun r => V r ∧ True) x :=
    h.keep fun k hk => ?_
  · exact hkeep.weaken fun _ ha => ha.1
  obtain ⟨r, k', hrun, hcore⟩ := hx k
  rw [hrun]
  exact ⟨hcore ▸ hk, trivial⟩

theorem Silent.lively {x : KM α} (hx : Silent x) (h : Agrees (Twin L K) E V x) :
    Agrees (Lively L K) E V x :=
  hx.beside (A := fun κ => ∃ v, Populates L κ v) h

theorem setInt_lively (i : ℤ) : Agrees (Lively L K) E (fun _ => True) (setInt a i) := by
  refine Agrees.weaken ((setInt_agrees a i).keep (B := fun _ => True) ?_) fun _ _ => trivial
  rintro k ⟨v, h⟩
  refine ⟨⟨v.setValue a i, h.lists.setValue i, h.ready.setValue i, ?_, h.request, h.alive, h.soft,
    h.mem⟩, trivial⟩
  exact congrArg (Function.update · a i) h.value

/-- The first waiter, if there is one. -/
theorem headBlocked_lively {Q : α → α → Kernel → Kernel → Prop} {f g : Option Pcb → KM α}
    (hnone : Lockstep (Lively L K) (f none) (g none) Q E)
    (hsome : ∀ q ∈ L, Lockstep (fun k k' => Twin L K k k' ∧ ∃ v, Populates L k.core v ∧
      q ∈ v.queue a)
      (f (some q)) (g (some q)) Q E) :
    Lockstep (Lively L K) (onLinks (headBlocked a) >>= f) (onLinks (headBlocked a) >>= g) Q E := by
  have hhead : Triple (fun k => ∃ v, Populates L k.core v) (onLinks (headBlocked a))
      (fun o k => ∃ v, Populates L k.core v ∧ o = (v.queue a).head?) (fun _ _ => True) fun _ =>
      True := by
    rintro k ⟨v, h⟩
    obtain ⟨ds, fs, hl⟩ := id h.lists.asl
    have hrun := onLinks_run (k := k) (v := v) (hl.headBlocked_run (χ := Ctl) a)
    have hself : k.withLists k.core.links v = k := h.withLists
    rw [hself] at hrun
    rw [hrun]
    exact ⟨v, h, rfl⟩
  refine Lockstep.bind ((onLinks_agrees (headBlocked_agrees a)).left hhead) fun o o' => ?_
  refine .pre (P := fun k k' => o = o' ∧ Twin L K k k' ∧ ∃ v, Populates L k.core v ∧
    o = (v.queue a).head?) ?_
    fun k k' h => ⟨h.1.1, h.1.2.2, h.2⟩
  refine .known fun ho => ?_
  subst ho
  cases o with
  | none => exact hnone.pre fun k k' hk => ⟨hk.1, hk.2.imp fun _ h => h.1⟩
  | some q =>
      rintro k k' ⟨hk, v, hv, hq⟩
      have hmem : q ∈ v.queue a := List.mem_of_mem_head? hq.symm
      exact hsome q (hv.queue_mem hmem) k k' ⟨hk, v, hv, hmem⟩

theorem wake_populates :
    Triple (fun k => ∃ v, Populates L k.core v ∧ p ∈ v.queue a) (wake p)
      (fun _ k => ∃ v, Populates L k.core v)
      (fun _ _ => True) fun _ => True := by
  rintro k ⟨v, h, hp⟩
  have hblocked : v.place p = .blocked a := (h.lists.mem_queue p a).mp hp
  obtain ⟨m', t, hrun, hl, hr, -⟩ := wake_run (k := k) h.lists h.ready hblocked
  have hself : k.withLists k.core.links v = k := h.withLists
  rw [hself] at hrun
  rw [hrun]
  refine ⟨v.wake p a, hl, hr, rfl, rfl, rfl, rfl, fun x hx => ?_⟩
  rw [wake_place] at hx
  split at hx
  · next hxp => exact hxp ▸ h.queue_mem hp
  · exact h.mem x hx

theorem wake_agrees (hp : p ∈ L) : Agrees (Twin L K) E (fun _ => True) (wake p) := by
  unfold wake
  refine (onLinks_agrees (outBlocked_agrees hp)).bind fun o _ => ?_
  refine Lockstep.need fun q _ => ?_
  refine Agrees.bind
    (contents_agrees (fun μ => { μ with pCursem := Function.update μ.pCursem q none })
    (fun _ _ => rfl) fun _ _ ha => { ha with links := ha.links.setCursem none }) fun _ _ => ?_
  refine (addSoftBlockCount_agrees (-1)).bind fun _ _ => ?_
  exact (setRequest_agrees 0).bind fun _ _ => insertReady_agrees

variable [Platform]

theorem wakeLoop_agrees {m : ℕ} {sum : ℤ} : Agrees (Lively L K) E (fun _ => True)
    (wakeLoop m a sum) := by
  induction m generalizing sum with
  | zero => exact .fail
  | succ m ih =>
      unfold wakeLoop
      refine headBlocked_lively (Agrees.pure trivial) fun q hq => ?_
      have hread : Agrees (fun k k' => Twin L K k k' ∧ ∃ v, Populates L k.core v ∧ q ∈ v.queue a) E
          (fun _ => True ∧ True) (Program.gets fun k : Kernel => k.resWait q : KM ℤ) :=
        (field_agrees fun k μ ha => ha.resWait hq).keep (Triple.gets fun _ h => ⟨h, trivial⟩)
      refine hread.bind fun r _ => ?_
      refine .ite Iff.rfl (fun _ => ?_) fun _ => ?_
      · refine Lockstep.bind ((wake_agrees hq).left wake_populates) fun _ _ => ?_
        exact ih.pre fun k k' h => ⟨h.1.2.2, h.2⟩
      · exact .pure fun k k' hk => ⟨rfl, trivial, hk.1, hk.2.imp fun _ h => h.1⟩

/-- The queue that `scan` heads. -/
theorem sumRequests_agrees :
    Agrees (fun k k' => Twin L K k k' ∧ ∃ v, Populates L k.core v ∧ p ∈ v.queue a) E (fun _ => True)
      (sumRequests p) := by
  rintro k k' ⟨hk, v, hv, hp⟩
  obtain ⟨ds, fs, hl⟩ := id hv.lists.asl
  obtain ⟨d, hd, had⟩ := hl.covered a (List.ne_nil_of_mem hp)
  have hring : Ring k.pList (k.sProcq d) (v.queue a) := had ▸ hl.procq d hd
  -- nothing is written, so the first run stays where it is
  have hsum : Agrees (fun s s' => Twin L K s s' ∧ s = k) E (fun _ => True) (sumRequests p) := by
    unfold sumRequests
    refine Agrees.bind (V := fun _ => True) ?_ fun r _ => Agrees.pure trivial
    refine clistForeach_agrees (G := {x | x ∈ v.queue a}) (fun s s' hs x hx => ?_) (fun o ho => ?_)
      (fun sum x hx tmp => ?_) fun x hx => Option.some.inj hx ▸ hp
    · obtain ⟨⟨μ, rfl, -⟩, rfl⟩ := hs
      obtain ⟨y, hy, hxy⟩ := hring.next_mem hx
      exact ⟨rfl, fun z hz => Option.some.inj (hxy.symm.trans hz) ▸ hy⟩
    · cases o with
      | none => exact .fail
      | some x =>
          have hx : x ∈ v.queue a := ho x rfl
          rintro s _ ⟨⟨μ, rfl, ha⟩, rfl⟩
          have hcur : s.pCursem x = some d := hl.cursem d hd x (had ▸ hx)
          have hcur' : μ.pCursem x = some d := (ha.links.pCursem (hv.queue_mem hx)).symm.trans hcur
          have hrun : (queueOf (some x)).run s = .ok (s.sProcq d) s := by simp [queueOf, hcur]
          have hrun' : (queueOf (some x)).run (s.graft μ) = .ok (s.sProcq d) (s.graft μ) := by
            simp [queueOf, Kernel.graft, hcur']
          rw [hrun, hrun']
          refine .ok ⟨rfl, fun y hy => ?_, ⟨μ, rfl, ha⟩, rfl⟩
          rw [Option.mem_def.mp hy] at hring
          exact hring.tail_mem
    · unfold sumRequestsBody
      have hread : Agrees (fun s s' => Twin L K s s' ∧ s = k) E (fun _ => True ∧ True)
          (Program.gets fun k : Kernel => k.resWait x : KM ℤ) :=
        (field_agrees fun k μ ha => ha.resWait (hv.queue_mem hx)).keep
          (Triple.gets fun _ h => ⟨h, trivial⟩)
      refine hread.bind fun r _ => ?_
      exact Agrees.pure trivial
  refine (hsum k k' ⟨hk, rfl⟩).imp (fun _ _ s s' h => ?_) fun _ _ he => he
  obtain ⟨hr, -, hs, rfl⟩ := h
  exact ⟨hr, trivial, hs, v, hv, hp⟩

theorem verhogen_agrees : Agrees (Lively L K) E (fun _ => True) (verhogen a w) := by
  have hread : Agrees (Lively L K) E (fun _ => True)
      (Program.gets fun k : Kernel => k.ints a : KM ℤ) :=
    (silent_gets _).lively (read_agrees fun _ _ => rfl)
  have hrest (sum : ℤ) : Agrees (Lively L K) E (fun _ => True)
      (Program.gets (fun k : Kernel => k.ints a) >>= fun i => wakeLoop (maxproc + 1) a
        (Platform.wrap (sum + i))) :=
    Agrees.bind hread fun _ _ => wakeLoop_agrees
  unfold verhogen
  refine Agrees.bind hread fun i _ => ?_
  refine (setInt_lively _).bind fun _ _ => ?_
  refine headBlocked_lively (hrest 0) fun q hq => ?_
  refine sumRequests_agrees.bind fun sum _ => ?_
  exact (hrest sum).pre fun k k' hk => ⟨hk.1, hk.2.imp fun _ h => h.1⟩

theorem passeren_agrees : Agrees (Twin L K) (Twin L K) (fun _ => True) (passeren a w) := by
  unfold passeren
  refine (read_agrees fun _ _ => rfl).bind fun i _ => ?_
  refine (setInt_agrees a _).bind fun _ _ => ?_
  refine (read_agrees fun _ _ => rfl).bind fun j _ => ?_
  refine Agrees.ite (fun _ => ?_) fun _ => .pure trivial
  refine current_agrees.bind fun c hc => ?_
  refine (setRequest_agrees w).bind fun _ _ => ?_
  refine getTODLO_agrees.bind fun now _ => ?_
  refine (read_agrees fun _ _ => rfl).bind fun t _ => ?_
  refine (addKernelTime_agrees hc _).bind fun _ _ => ?_
  refine getTODLO_agrees.bind fun now _ => ?_
  refine (read_agrees fun _ _ => rfl).bind fun t _ => ?_
  refine (addGlobalTime_agrees hc _).bind fun _ _ => ?_
  refine (onLinks_agrees (insertBlocked_agrees a c)).bind fun b _ => ?_
  have hrest : Agrees (Twin L K) (Twin L K) (fun _ => True)
      (addSoftBlockCount 1 >>= fun _ => setFlag .loadnext >>= fun _ => setCurrent none) :=
    (addSoftBlockCount_agrees 1).bind fun _ _ => (setFlag_agrees .loadnext).bind fun _ _ =>
      setCurrent_agrees
  refine Agrees.ite (fun _ => ?_) fun _ => hrest
  exact Agrees.bind (V := fun _ => True) (Agrees.leave fun _ _ hk => hk) fun _ _ => hrest

/-- The view is only needed for `V`. -/
theorem semaphoreOperation_agrees :
    Lockstep (Lively L K) (semaphoreOperation a w) (semaphoreOperation a w)
      (fun b b' k k' => b = b' ∧ True ∧ Twin L K k k') (Twin L K) := by
  have hpositive : Lockstep (Lively L K) (verhogen a w) (verhogen a w)
      (fun b b' k k' => b = b' ∧ True ∧ Twin L K k k') (Twin L K) :=
    verhogen_agrees.conseq (fun _ _ hk => hk)
      (fun _ _ _ _ h => ⟨h.1, trivial, h.2.2.1⟩) fun _ _ he => he
  by_cases ha : a = 0
  · subst ha
    rintro k k' ⟨hk, -⟩
    rw [semaphoreOperation_null, semaphoreOperation_null]
    exact .exit Ctl.panic hk
  unfold semaphoreOperation
  rw [if_neg ha]
  refine .ite Iff.rfl (fun _ => ?_) fun _ => .ite Iff.rfl (fun _ => ?_) fun _ => hpositive
  · refine .pre (P := Twin L K) ?_ fun _ _ hk => hk.1
    refine current_agrees.bind fun c hc => ?_
    exact (field_agrees fun k μ ha => ha.pid hc).bind fun u _ => terminateProcess_agrees
  · exact passeren_agrees.pre fun _ _ hk => hk.1

end Semaphores

end JaeOS
