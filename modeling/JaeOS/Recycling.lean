import JaeOS.Board
import JaeOS.TwinHandlers

/-!
# Recycled PCBs

Two runs that start with the same lists, but with other contents in the PCBs on `pcbFree`, and take
the same entries. They cannot be told apart as long as processes only return from exceptions for
which they have specified a handler: `allocPcb` leaves `oldnew_areas` as the last owner of the PCB
left them, and `exit_trap` loads a state from there without a look at the tags.
-/

open Transition LinkForest

namespace JaeOS

/-- The PCB `p` holds the same on both sides; `p_list` belongs to the lists. -/
structure SameContents (m μ : Mem maxproc) (p : Pcb) : Prop where
  pParent : m.pParent p = μ.pParent p
  pCursem : m.pCursem p = μ.pCursem p
  pChildren : m.pChildren p = μ.pChildren p
  pSiblings : m.pSiblings p = μ.pSiblings p
  pS : m.pS p = μ.pS p
  pid : m.pid p = μ.pid p
  resWait : m.resWait p = μ.resWait p
  kernelTime : m.kernelTime p = μ.kernelTime p
  globalTime : m.globalTime p = μ.globalTime p
  oldnewAreas : m.oldnewAreas p = μ.oldnewAreas p
  tags : m.tags p = μ.tags p

def Kernel.SameButFree (k k' : Kernel) : Prop :=
  ∃ μ, k' = k.graft μ ∧ ∀ p ∉ freeList k, SameContents k.toMem μ p

/-- What can be seen of a state: who has control, with which registers, the memory and the devices,
and the states of the processes, where results are returned. -/
structure Sys.LooksLike (s t : Sys) : Prop where
  ctl : t.ctl = s.ctl
  hw : t.kernel.hw = s.kernel.hw
  pS : ∀ p ∉ freeList s.kernel, t.kernel.pS p = s.kernel.pS p

/-- `EXITTRAP` is only asked for by a process that has specified a handler for the exception it
names. -/
def ExitsSpecified [Platform] (s : Sys) : Event → Prop
  | .syscall hw => ExitsKnown s.kernel (hw.oldArea .sysbk)
  | _ => True

def Discreet [Platform] (s : Sys) (e : Event) : Prop := SparesReady s e ∧ ExitsSpecified s e

variable {k k' : Kernel} {v : View} {p c : Pcb} {L K : Set Pcb}

/-! ### The PCBs in use -/

def View.living (v : View) : Set Pcb := {p | v.place p ≠ .free}

def View.young (v : View) : Set Pcb := {p | p ∈ v.tree.inner}

namespace Rep

section Closed

theorem not_free_iff (h : Rep k.core v) : p ∉ freeList k ↔ p ∈ v.living := by
  rw [h.freeList_eq, h.lists.mem_free]
  exact Iff.rfl

theorem living_iff (h : Rep k.core v) : p ∈ v.living ↔ p ∈ v.tree.nodes := (h.mem_tree p).symm

theorem young_living (h : Rep k.core v) : v.young ⊆ v.living := fun _ hp =>
  h.living_iff.mpr (Forest.mem_nodes_of_inner hp)

/-- The pointers of the tree do not leave it. -/
theorem parent_living (h : Rep k.core v) : ∀ p ∈ v.living, ∀ q ∈ k.pParent p, q ∈ v.living := by
  intro p hp q hq
  rcases Forest.mem_nodes_iff.mp (h.living_iff.mp hp) with hroot | hinner
  · have hnone : k.pParent p = none := h.tree.rep.parent_of_root hroot
    rw [hnone] at hq
    cases hq
  · obtain ⟨r, rs, hr, -, hparent⟩ := h.tree.rep.parent_of_inner hinner
    obtain rfl : r = q := Option.some.inj (hparent.symm.trans hq)
    exact h.living_iff.mpr hr.mem

theorem children_young (h : Rep k.core v) : ∀ p ∈ v.living, ∀ q ∈ k.pChildren p, q ∈ v.young := by
  intro p hp q hq
  obtain ⟨ks, hks⟩ := Forest.exists_has (h.living_iff.mp hp)
  have hring : LinkRing.Ring k.pSiblings (k.pChildren p) ks.roots := (h.tree.rep.kids hks).1
  rw [Option.mem_def.mp hq] at hring
  exact hks.kids_inner (Forest.mem_nodes_of_roots hring.tail_mem)

theorem siblings_young (h : Rep k.core v) : ∀ p ∈ v.young, ∀ q ∈ k.pSiblings p, q ∈ v.young := by
  intro p hp q hq
  obtain ⟨r, rs, hr, hroot, -⟩ := h.tree.rep.parent_of_inner hp
  obtain ⟨y, hy, hnext⟩ := (h.tree.rep.kids hr).1.next_mem hroot
  obtain rfl : y = q := Option.some.inj (hnext.symm.trans hq)
  exact hr.kids_inner (Forest.mem_nodes_of_roots hy)

theorem current_living (h : Rep k.core v) : ∀ c ∈ k.currentProcess, c ∈ v.living := by
  intro c hc
  have hoff : v.place c = .off := (h.current c hc).1
  change v.place c ≠ .free
  rw [hoff]
  exact Place.noConfusion

end Closed

end Rep

/-- Twins stay twins on the PCBs that are in use. -/
theorem Twin.narrow (h : Twin L K k k') (hv : Rep k.core v) (hL : v.living ⊆ L) :
    Twin v.living v.young k k' := by
  obtain ⟨μ, rfl, ha⟩ := h
  exact ⟨μ, rfl,
    { links :=
        { pParent := ha.links.pParent.mono hL
          pCursem := ha.links.pCursem.mono hL
          pChildren := ha.links.pChildren.mono hL
          pSiblings := ha.links.pSiblings.mono hL
          sub := hv.young_living
          parent_mem := hv.parent_living
          children_mem := hv.children_young
          siblings_mem := hv.siblings_young }
      pS := ha.pS.mono hL
      pid := ha.pid.mono hL
      resWait := ha.resWait.mono hL
      kernelTime := ha.kernelTime.mono hL
      globalTime := ha.globalTime.mono hL
      tags := ha.tags.mono hL
      oldnewAreas := fun p hp => ha.oldnewAreas p (hL hp)
      current := hv.current_living }⟩

theorem Kernel.SameButFree.twin (h : k.SameButFree k') (hv : Rep k.core v) :
    Twin v.living v.young k k' := by
  obtain ⟨μ, rfl, hsame⟩ := h
  have hin : ∀ p ∈ v.living, SameContents k.toMem μ p :=
    fun p hp => hsame p (hv.not_free_iff.mpr hp)
  exact ⟨μ, rfl,
    { links :=
        { pParent := fun p hp => (hin p hp).pParent
          pCursem := fun p hp => (hin p hp).pCursem
          pChildren := fun p hp => (hin p hp).pChildren
          pSiblings := fun p hp => (hin p hp).pSiblings
          sub := hv.young_living
          parent_mem := hv.parent_living
          children_mem := hv.children_young
          siblings_mem := hv.siblings_young }
      pS := fun p hp => (hin p hp).pS
      pid := fun p hp => (hin p hp).pid
      resWait := fun p hp => (hin p hp).resWait
      kernelTime := fun p hp => (hin p hp).kernelTime
      globalTime := fun p hp => (hin p hp).globalTime
      tags := fun p hp => (hin p hp).tags
      oldnewAreas := fun p hp a _ => congrFun (hin p hp).oldnewAreas a
      current := hv.current_living }⟩

/-! ### One step -/

section Step

variable [Platform] {s s' t t' : Sys} {e : Event} {st : State} {κ : Core}

structure Sys.Twins (v : View) (s t : Sys) : Prop where
  rep : Rep s.kernel.core v
  twin : Twin v.living v.young s.kernel t.kernel
  ctl : t.ctl = s.ctl

omit [Platform] in
theorem Sys.Twins.looksLike (h : s.Twins v t) : s.LooksLike t := by
  obtain ⟨μ, hμ, ha⟩ := h.twin
  refine ⟨h.ctl, ?_, fun p hp => ?_⟩
  · rw [hμ]
    rfl
  · rw [hμ]
    exact (ha.pS (h.rep.not_free_iff.mp hp)).symm

def Event.taken (v : View) : Event → Option Pcb
  | .syscall hw => v.taken (hw.oldArea .sysbk)
  | _ => none

omit [Platform] in
theorem enter_twin (h : Twin L K k k') (e : Event) : Twin L K (k.enter e) (k'.enter e) := by
  obtain ⟨μ, rfl, ha⟩ := h
  cases e with
  | dispatch => exact ⟨μ, rfl, ha⟩
  | _ => exact ⟨μ, rfl, { ha with links := { ha.links with } }⟩

omit [Platform] in
theorem Rep.populates (h : Rep k.core v) (hL : v.living ⊆ L) : Populates L k.core v :=
  ⟨h.lists, h.ready, h.value, h.request, h.alive, h.soft, fun _ hx => hL hx⟩

/-- An entry does the same with both kernels. -/
theorem Sys.Twins.run_matches (h : s.Twins v t) (hexit : ExitsSpecified s e) :
    (e.program.run (s.kernel.enter e)).Matches (fun _ _ _ _ => True)
      (Twin (joined (e.taken v) v.living) (joined (e.taken v) v.young))
        (e.program.run (t.kernel.enter e)) := by
  have htwin : Twin v.living v.young (s.kernel.enter e) (t.kernel.enter e) := enter_twin h.twin e
  have hpop : Populates v.living s.kernel.core v := h.rep.populates subset_rfl
  cases e with
  | dispatch => exact scheduler_agrees _ _ ⟨htwin, v, h.rep, fun _ hx => hx⟩
  | syscall hw => exact syscallHandler_agrees htwin hpop hexit
  | pgmtrap hw => exact trapHandler_agrees _ _ htwin
  | tlb hw => exact trapHandler_agrees _ _ htwin
  | interrupt hw => exact interruptHandler_agrees _ _ ⟨htwin, v, hpop⟩

theorem syscallAct_create (h : syscallAct κ c st = some .create) : serves st = true ∧
    st.a1 = 1 := by
  have hsys : st.a1 = 1 := by
    cases syscallAct_asked h with
    | create hsys => exact hsys
  refine ⟨?_, hsys⟩
  unfold syscallAct at h
  split at h
  · next hserv =>
    split at h
    · cases trapAct_eq h
    · next huser => simp [serves, hserv, huser]
  · cases trapAct_eq h

/-- A new process has taken its PCB from the free ones. -/
theorem Event.taken_create {l : List Pcb} (h : e.act k = some .create) (hf : v.free = p :: l) :
    e.taken v = some p := by
  rcases Event.act_asked h with ⟨t, ht⟩ | ⟨hw, c, rfl, -, hact⟩
  · cases ht
  · change v.taken (hw.oldArea .sysbk) = some p
    rw [View.taken, if_pos (syscallAct_create hact), hf]
    rfl

/-- Either both runs take the step, or none does. -/
theorem Sys.Twins.step (h : s.Twins v t) (hc : Discreet s e) :
    s.step e = none ∧ t.step e = none ∨
      ∃ s' t' v', s.step e = some s' ∧ t.step e = some t' ∧ s'.Twins v' t' := by
  have hrun := h.run_matches hc.2
  by_cases henabled : e.enabled s.ctl = true
  · have henabled' : e.enabled t.ctl = true := by rwa [h.ctl]
    rw [Sys.step, Sys.step, if_pos henabled, if_pos henabled']
    have hstep : ∀ ctl k, e.program.run (s.kernel.enter e) = .exit ctl k →
        s.step e = some ⟨k, ctl, e.issue s.kernel s.issued⟩ := fun ctl k hk => by
      rw [Sys.step, if_pos henabled, hk]
    generalize e.program.run (s.kernel.enter e) = o at hrun hstep ⊢
    generalize e.program.run (t.kernel.enter e) = o' at hrun ⊢
    rcases hrun with _ | ⟨ctl, htwin⟩ | _
    · exact Or.inl ⟨rfl, rfl⟩
    · obtain ⟨v', hrep', halive⟩ := Sys.step_alive h.rep hc.1 (hstep ctl _ rfl)
      refine Or.inr ⟨_, _, v', rfl, rfl, hrep', htwin.narrow hrep' fun p hp => ?_, rfl⟩
      rcases halive p hp with hold | ⟨hact, l, hf⟩
      · exact subset_joined _ _ hold
      · rw [Event.taken_create hact hf]
        exact Set.mem_insert p _
    · exact Or.inl ⟨rfl, rfl⟩
  · have henabled' : ¬ e.enabled t.ctl = true := by rwa [h.ctl]
    rw [Sys.step, Sys.step, if_neg henabled, if_neg henabled']
    exact Or.inl ⟨rfl, rfl⟩

/-! ### Runs -/

theorem Sys.Twins.steps {es : List Event} (h : s.Twins v t)
    (hrun : Steps (fun e s s' => Discreet s e ∧ s.step e = some s') es s s') :
    ∃ t' v', Steps (fun e t t' => t.step e = some t') es t t' ∧ s'.Twins v' t' := by
  induction hrun generalizing t v with
  | nil => exact ⟨t, v, .nil t, h⟩
  | cons hs _ ih =>
      rcases h.step hs.1 with ⟨hnone, -⟩ | ⟨s₁, t₁, v₁, hs₁, ht₁, htwins⟩
      · rw [hs.2] at hnone
        cases hnone
      · obtain rfl := Option.some.inj (hs.2.symm.trans hs₁)
        obtain ⟨t', v', hrest, htwins'⟩ := ih htwins
        exact ⟨t', v', .cons ht₁ hrest, htwins'⟩

/-- What the PCBs on `pcbFree` held cannot be told from a run of discreet entries: the same entries
lead a second kernel to a state that looks the same, and it gets stuck where the first one does. -/
theorem recycled_unseen {es : List Event} (h : Rep s.kernel.core v)
    (hsame : s.kernel.SameButFree t.kernel)
    (hctl : t.ctl = s.ctl)
      (hrun : Steps (fun e s s' => Discreet s e ∧ s.step e = some s') es s s') :
    ∃ t', Steps (fun e t t' => t.step e = some t') es t t' ∧ s'.LooksLike t' ∧
      ∀ e, Discreet s' e → (s'.step e = none ↔ t'.step e = none) := by
  have hstart : s.Twins v t := ⟨h, hsame.twin h, hctl⟩
  obtain ⟨t', v', hrun', htwins⟩ := hstart.steps hrun
  refine ⟨t', hrun', htwins.looksLike, fun e hc => ?_⟩
  rcases htwins.step hc with ⟨hs, ht⟩ | ⟨s₁, t₁, v₁, hs, ht, -⟩
  · exact iff_of_true hs ht
  · rw [hs, ht]
    exact iff_of_false (Option.some_ne_none s₁) (Option.some_ne_none t₁)

end Step

section Board

attribute [local instance] uarm

instance : Fintype Excp where
  elems := {.sys, .tlb, .pgmtp}
  complete e := by cases e <;> decide

instance {k : Kernel} {st : State} : Decidable (ExitsKnown k st) :=
  inferInstanceAs (Decidable (serves st = true → st.a1 = 7 →
    ∀ e : Excp, st.a2 = e.code → ∀ c ∈ k.currentProcess, k.tags c e = true))

instance {s : Sys} : (e : Event) → Decidable (ExitsSpecified s e)
  | .dispatch => .isTrue trivial
  | .syscall hw => inferInstanceAs (Decidable (ExitsKnown s.kernel (hw.oldArea .sysbk)))
  | .pgmtrap _ => .isTrue trivial
  | .tlb _ => .isTrue trivial
  | .interrupt _ => .isTrue trivial

instance {s : Sys} {e : Event} : Decidable (Discreet s e) := inferInstanceAs (Decidable (_ ∧ _))

def Kernel.leftover (k : Kernel) (p : Pcb) (u : State) : Kernel :=
  k.graft { k.toMem with
    pS := Function.update k.pS p u
    oldnewAreas := Function.update k.oldnewAreas p fun _ => u
    tags := Function.update k.tags p fun _ => true }

theorem leftover_sameButFree {u : State} (hp : p ∈ freeList k) :
    k.SameButFree (k.leftover p u) := by
  refine ⟨_, rfl, fun q hq => ?_⟩
  have hne : q ≠ p := fun hqp => hq (hqp ▸ hp)
  exact
    { pParent := rfl
      pCursem := rfl
      pChildren := rfl
      pSiblings := rfl
      pS := (Function.update_of_ne hne _ _).symm
      pid := rfl
      resWait := rfl
      kernelTime := rfl
      globalTime := rfl
      oldnewAreas := (Function.update_of_ne hne _ _).symm
      tags := (Function.update_of_ne hne _ _).symm }

def strangeState : State := { State.zero with pc := 0x4444, cpsr := 0x1F }

def Sys.leftover (s : Sys) (p : Pcb) : Sys := { s with kernel := s.kernel.leftover p strangeState }

/-- After `main` all PCBs but the first one are free. -/
theorem boot_leftover {s : Sys} (hboot : Sys.boot Kernel.zero = some s)
    (hp : p ∈ (List.finRange maxproc).tail) :
    (∃ v, Rep s.kernel.core v) ∧ s.kernel.SameButFree (s.leftover p).kernel := by
  obtain ⟨-, hrep, -⟩ := main_run atBoot_zero hboot
  refine ⟨⟨_, hrep⟩, leftover_sameButFree ?_⟩
  rw [hrep.freeList_eq]
  exact hp

def secondRuns : List Event := [.dispatch, call 1, .dispatch, call 3 0x5000 (-1), .dispatch]

/-- The second process asks for its pid. -/
theorem recycled_unseen_pid : ∃ s t s' t' : Sys, t.kernel.tags 1 .sys = true ∧
    s.kernel.tags 1 .sys = false ∧
    s'.kernel.currentProcess = some 1 ∧
    Steps (fun e t t' => t.step e = some t') (secondRuns ++ [call 11]) t t' ∧
    s'.LooksLike t' := by
  have hrun : ((Sys.boot Kernel.zero).bind fun s =>
      if s.kernel.tags 1 .sys = false then follow Sys.step Discreet (secondRuns ++ [call 11]) s
        else none).any
        (fun s' => s'.kernel.currentProcess = some 1) = true := by decide +kernel
  obtain ⟨s', hes, hcur⟩ := (Option.any_eq_true _ _).mp hrun
  obtain ⟨s, hboot, hes⟩ := Option.bind_eq_some_iff.mp hes
  split at hes
  · next htag =>
    obtain ⟨⟨v, hrep⟩, hsame⟩ := boot_leftover (p := 1) hboot (by decide)
    obtain ⟨t', hrun', hlooks, -⟩ :=
      recycled_unseen (t := s.leftover 1) hrep hsame rfl (steps_follow.mpr hes)
    exact ⟨s, s.leftover 1, s', t', rfl, htag, of_decide_eq_true hcur, hrun', hlooks⟩
  · cases hes

/-- The same entries after `main` give control away differently, with something left in the free PCB
`p`. -/
theorem leftover_seen {C : Sys → Event → Prop} [∀ s e, Decidable (C s e)] {c d : Ctl}
    (es : List Event) (p : Pcb)
    (hp : p ∈ (List.finRange maxproc).tail) (hcd : d ≠ c)
    (hfirst : ((Sys.boot Kernel.zero).bind (follow Sys.step C es)).any (fun s' => s'.ctl = c) =
      true)
    (hsecond : ((Sys.boot Kernel.zero).bind fun s => follow Sys.step (fun _ _ => True) es
      (s.leftover p)).any
      (fun t' => t'.ctl = d) = true) :
    ¬ ∀ s t : Sys, Reach (nucleus fun _ => True) C s → s.kernel.SameButFree t.kernel →
    t.ctl = s.ctl →
      ∀ es s', Steps (fun e s s' => C s e ∧ s.step e = some s') es s s' →
        ∃ t', Steps (fun e t t' => t.step e = some t') es t t' ∧ t'.ctl = s'.ctl := by
  intro hall
  obtain ⟨s', hes, hs'⟩ := (Option.any_eq_true _ _).mp hfirst
  obtain ⟨s, hboot, hes⟩ := Option.bind_eq_some_iff.mp hes
  obtain ⟨t', hes', ht'⟩ := (Option.any_eq_true _ _).mp hsecond
  obtain ⟨s₁, hboot', hes'⟩ := Option.bind_eq_some_iff.mp hes'
  obtain rfl := Option.some.inj (hboot.symm.trans hboot')
  obtain ⟨-, hsame⟩ := boot_leftover hboot hp
  have hreach : Reach (nucleus fun _ => True) C s := .init ⟨_, trivial, atBoot_zero, hboot⟩
  obtain ⟨u, hu, hctl⟩ := hall s (s.leftover p) hreach hsame rfl es s' (steps_follow.mpr hes)
  have hfollow := steps_follow.mp (hu.imp fun _ _ _ h => (⟨trivial, h⟩ : True ∧ _))
  obtain rfl := Option.some.inj (hfollow.symm.trans hes')
  rw [of_decide_eq_true hs', of_decide_eq_true ht'] at hctl
  exact hcd hctl

/-- The second process returns from an exception it has no handler for, into the state that PCB 1
held. -/
theorem recycled_area_seen : ¬ ∀ s t : Sys, Reach (nucleus fun _ => True) SparesReady s →
    s.kernel.SameButFree t.kernel → t.ctl = s.ctl → ∀ es s',
      Steps (fun e s s' => SparesReady s e ∧ s.step e = some s') es s s' →
      ∃ t', Steps (fun e t t' => t.step e = some t') es t t' ∧ t'.ctl = s'.ctl :=
  leftover_seen (c := .ldst .zero) (d := .ldst strangeState) (secondRuns ++ [call 7]) 1 (by decide)
    (by decide)
    (by decide +kernel) (by decide +kernel)

/-- The first process kills itself, and its children are ready: with them the whole of `pcbFree`
gets into the ready queue, and the scheduler loads PCB 3, which no process has got. -/
theorem recycled_orphan_seen : ¬ ∀ s t : Sys, Reach (nucleus fun _ => True) ExitsSpecified s →
    s.kernel.SameButFree t.kernel → t.ctl = s.ctl → ∀ es s',
      Steps (fun e s s' => ExitsSpecified s e ∧ s.step e = some s') es s s' →
      ∃ t', Steps (fun e t t' => t.step e = some t') es t t' ∧ t'.ctl = s'.ctl :=
  leftover_seen (c := .ldst .zero) (d := .ldst strangeState)
    [.dispatch, call 1, .dispatch, call 1, .dispatch, call 2, .dispatch, call 3 0x5000 (-1),
      .dispatch] 3 (by decide)
    (by decide) (by decide +kernel) (by decide +kernel)

end Board

end JaeOS
