import JaeOS.Counters
import JaeOS.Outcomes

/-!
# The counters as list lengths

The two counters agree with the lists that another module keeps: the PCBs that are not free, and the
processes in the queues of all semaphores. A process can therefore be made as long as fewer than
`MAXPROC` are alive.
-/

open LinkRing LinkForest Transition

namespace JaeOS

section Lengths

variable {k : Kernel} {v : View}

/-- Every PCB is free or in the tree. -/
theorem Counted.free_length (h : Counted v) (hv : Orderly v) :
    v.alive = maxproc - v.free.length := by
  have hnodup : (v.tree.nodes ++ v.free).Nodup := by
    apply List.nodup_append'.mpr
    refine ⟨hv.tree_nodup, hv.free_nodup, fun p hp hf => ?_⟩
    exact (hv.mem_tree p).mp hp ((hv.mem_free p).mp hf)
  have hall : (v.tree.nodes ++ v.free).toFinset = Finset.univ := by
    apply Finset.eq_univ_of_forall
    intro p
    by_cases hp : v.place p = .free
    · simp [hv.mem_free, hp]
    · simp [hv.mem_tree, hp]
  have hlen : (v.tree.nodes ++ v.free).length = maxproc := by
    rw [← List.toFinset_card_of_nodup hnodup, hall, Finset.card_univ, Fintype.card_fin]
  rw [List.length_append] at hlen
  rw [h.alive]
  omega

theorem blockedCount_card (place : Pcb → Place) :
    blockedCount place = (Finset.univ.filter fun p => (place p).isBlocked).card := by
  rw [Finset.card_filter]
  push_cast
  rfl

/-- The queues of different semaphores have no process in common. -/
theorem queues_nodup (h : WellFormed k.core v) :
    ((descriptors k.toLinks).flatMap (procs k.toLinks)).Nodup := by
  obtain ⟨ds, fs, hl⟩ := h.lists.asl
  have hds : descriptors k.toLinks = ds := hl.descriptors_eq
  have hprocs : ∀ d ∈ ds, procs k.toLinks d = v.queue (k.sSemAdd d) := fun d hd => hl.procs_eq hd
  rw [hds]
  apply List.nodup_flatMap.mpr
  constructor
  · intro d hd
    rw [hprocs d hd]
    exact hl.queue_nodup _
  · apply hl.sorted.imp_of_mem
    intro d e hd he hlt p hp hp'
    rw [hprocs d hd, h.lists.mem_queue] at hp
    rw [hprocs e he, h.lists.mem_queue, hp] at hp'
    exact absurd (Place.blocked.inj hp') (Nat.ne_of_lt hlt)

theorem mem_queues (h : WellFormed k.core v) {p : Pcb} :
    p ∈ (descriptors k.toLinks).flatMap (procs k.toLinks) ↔ (v.place p).isBlocked := by
  obtain ⟨ds, fs, hl⟩ := h.lists.asl
  have hds : descriptors k.toLinks = ds := hl.descriptors_eq
  have hprocs : ∀ d ∈ ds, procs k.toLinks d = v.queue (k.sSemAdd d) := fun d hd => hl.procs_eq hd
  rw [hds, List.mem_flatMap, Place.isBlocked_iff]
  constructor
  · rintro ⟨d, hd, hp⟩
    rw [hprocs d hd] at hp
    exact ⟨_, (h.lists.mem_queue p _).mp hp⟩
  · rintro ⟨a, ha⟩
    have hpa := (h.lists.mem_queue p a).mpr ha
    obtain ⟨d, hd, hda, -⟩ := hl.mem_of_nonempty hpa
    refine ⟨d, hd, ?_⟩
    rw [hprocs d hd, show k.sSemAdd d = a from hda]
    exact hpa

theorem blockedCount_queues (h : WellFormed k.core v) :
    blockedCount v.place =
      ((descriptors k.toLinks).map fun d => ((procs k.toLinks d).length : ℤ)).sum := by
  have hset : ((descriptors k.toLinks).flatMap (procs k.toLinks)).toFinset =
      Finset.univ.filter fun p => (v.place p).isBlocked := by
    ext p
    rw [List.mem_toFinset, mem_queues h, Finset.mem_filter, and_iff_right (Finset.mem_univ p)]
  rw [blockedCount_card, ← hset, List.toFinset_card_of_nodup (queues_nodup h), List.length_flatMap]
  push_cast
  rw [List.map_map]
  rfl

end Lengths

/-! ### `CREATEPROCESS` -/

section Creation

variable [Platform] {k k' : Kernel} {v : View} {c : Pcb} {st : State} {B : Kernel → Prop} {s : Sys}

def createCall (st : State) : Prop := isService st ∧ ¬ isUserMode st ∧ st.a1 = 1

/-- The caller is told `-1`; but for the times nothing else is different. -/
structure CreationFailed (k k' : Kernel) (c : Pcb) (st : State) : Prop where
  core : k'.core = k.core
  pS : k'.pS = Function.update k.pS c { st with a1 := -1 }
  globalTime : k'.globalTime = k.globalTime
  oldnewAreas : k'.oldnewAreas = k.oldnewAreas
  counter : k'.counter = k.counter
  devreg : k'.hw.devreg = k.hw.devreg
  words : k'.hw.words = k.hw.words

/-- With no PCB left the call fails. -/
theorem createCall_fails (h : Rep k.core v) (hf : v.free = []) (hc : k.currentProcess = some c)
    (hst : k.hw.oldArea .sysbk = st) (hcall : createCall st) :
    ∃ k', syscallHandler.run k = .exit .scheduler k' ∧ CreationFailed k k' c st := by
  obtain ⟨hserv, huser, hsys⟩ := hcall
  have hst' : (k.trap c).hw.oldArea .sysbk = st := hst
  have hps : (k.trap c).pS c = st := (Function.update_self ..).trans hst
  have hcreate : (createProcess st.a2).run (k.trap c) = .ok (-1) (k.trap c) :=
    createProcess_full (s := k.trap c) h hf
  have hassign := assignA1_run hcreate hc hc
  obtain ⟨k', hend, hface, hcore⟩ := serviceEnd_run
    { k.trap c with pS := Function.update (k.trap c).pS c { (k.trap c).pS c with a1 := -1 } }
  refine ⟨k', ?_, ?_⟩
  · rw [syscallHandler, Program.run_bind_ok (syscallEnter_ok hc), Program.run_gets_bind, hst',
      if_pos hserv, Program.run_gets_bind, hps, if_neg huser, hsys, service, if_pos rfl,
      Program.run_bind, hassign]
    exact hend
  · have hfinish : k'.face = ((k.face.trap c).answer c (-1)).charge c :=
      hface.trans (Face.finish_some hc)
    have hstate : (Function.update (k.trap c).pS c { (k.trap c).pS c with a1 := -1 } : Pcb →
        State) =
        Function.update k.pS c { st with a1 := -1 } := by
      rw [hps]
      exact Function.update_idem ..
    constructor
    · exact hcore
    · exact (congrArg Face.pS hfinish).trans hstate
    · exact congrArg Face.globalTime hfinish
    · exact congrArg Face.oldnewAreas hfinish
    · exact congrArg Face.counter hfinish
    · exact congrArg (fun f => f.hw.devreg) hfinish
    · exact congrArg (fun f => f.hw.words) hfinish

/-- With a PCB left the call does not fail. -/
theorem createCall_free (h : Rep k.core v) (hc : k.currentProcess = some c)
    (hst : k.hw.oldArea .sysbk = st) (hcall : createCall st)
    (hrun : syscallHandler.run k = .exit .scheduler k') (hcore : k'.core = k.core) :
    v.free = [] := by
  obtain ⟨hserv, huser, hsys⟩ := hcall
  have hact : syscallAct k.core c st = some .create := by
    rw [syscallAct, if_pos hserv, if_neg huser, serviceAct, if_pos hsys]
  have htame : Tame v (syscallAct k.core c st) := by
    rw [hact]
    rintro t ⟨⟩
  obtain ⟨v', hsteps, hrep⟩ :=
    (syscallHandler_performs (F := fun _ => True) h hc hst htame fun _ => trivial).of_exit rfl hrun
  rw [hact] at hsteps
  have halive : v'.alive = v.alive := by
    rw [← hrep.alive, hcore, h.alive]
  cases steps_single.mp hsteps with
  | full hf => exact hf
  | create =>
      have hmore : v.alive + 1 = v.alive := halive
      omega

/-- In a run that kills no process with a ready descendant both counters are what they count, and a
process cannot be made just if `MAXPROC` are alive. -/
theorem counters_exact (h : Reach (nucleus B) SparesReady s) :
    s.kernel.processCount = maxproc - (freeList s.kernel).length ∧
    s.kernel.softBlockCount = ((descriptors s.kernel.toLinks).map fun d =>
      ((procs s.kernel.toLinks d).length : ℤ)).sum ∧
    ∀ hw c, s.kernel.currentProcess = some c → createCall (hw.oldArea .sysbk) →
      ((∃ k', syscallHandler.run (s.kernel.enter (.syscall hw)) = .exit .scheduler k' ∧
          CreationFailed (s.kernel.enter (.syscall hw)) k' c (hw.oldArea .sysbk)) ↔
        s.kernel.processCount = maxproc) := by
  obtain ⟨v, hrep, hcount⟩ := nucleus_view (fun k _ => counted_boot (bootInts k.ints) k.resWait)
    (fun _ _ _ hc hm => Counted.move hc hm) h
  have hpc : s.kernel.processCount = maxproc - (freeList s.kernel).length := by
    rw [hrep.freeList_eq]
    exact hrep.alive.trans (hcount.free_length hrep.orderly)
  refine ⟨hpc, ?_, ?_⟩
  · exact (hrep.soft.trans hcount.soft).trans (blockedCount_queues hrep.toWellFormed)
  · intro hw c hc hcall
    have hfull : s.kernel.processCount = maxproc ↔ v.free = [] := by
      rw [hpc, hrep.freeList_eq, ← List.length_eq_zero_iff]
      omega
    rw [hfull]
    constructor
    · rintro ⟨k', hrun, hfailed⟩
      exact createCall_free (k := s.kernel.enter (.syscall hw)) hrep hc rfl hcall hrun hfailed.core
    · intro hf
      exact createCall_fails (k := s.kernel.enter (.syscall hw)) hrep hf hc rfl hcall

end Creation

section Board

attribute [local instance] uarm

/-- Two processes: one runs, the other waits. -/
theorem counters_exact_blocked :
    ∃ s : Sys, s.kernel.processCount = 2 ∧ s.kernel.softBlockCount = 1 ∧
      s.kernel.processCount = maxproc - (freeList s.kernel).length := by
  obtain ⟨s, hs, hQ⟩ := nucleus_run (B := fun _ => True) (C := SparesReady) trivial atBoot_zero
    [.dispatch, call 1, .dispatch, call 9, .dispatch]
    (fun s => s.kernel.processCount = 2 ∧ s.kernel.softBlockCount = 1) (by decide +kernel)
  obtain ⟨hpc, hsb⟩ := of_decide_eq_true hQ
  exact ⟨s, hpc, hsb, (counters_exact hs).1⟩

end Board

end JaeOS
