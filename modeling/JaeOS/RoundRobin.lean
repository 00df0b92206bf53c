import JaeOS.Board
import JaeOS.Killing

/-!
# Round robin

Which process the scheduler takes, over whole runs. A process that is ready is loaded after those,
at most, that were ahead of it in the ready queue, in the order of the queue, whoever is made,
woken, interrupted or killed meanwhile.
-/

open LinkRing LinkForest Transition Fifo

namespace JaeOS

/-- The scheduler is called to take the next process from the ready queue. -/
def switches : Sys × Event × Sys → Bool
  | (s, .dispatch, _) => s.kernel.flag ≠ .loadcurrent
  | _ => false

def taken (x : Sys × Event × Sys) : List Pcb :=
  if switches x then x.2.2.kernel.currentProcess.toList else []

def Sys.ready (s : Sys) : List Pcb := readyList s.kernel

section Steps

variable [Platform] {B : Kernel → Prop} {κ : Core} {v v' : View} {act : Act} {s s' t : Sys}
    {e : Event}
  {c p : Pcb} {flag : Flag} {tr : List (Sys × Event × Sys)}

/-- A move of the nucleus that loads nobody only adds to the ready queue. -/
theorem Move.ready_grows (hm : Move act v v') (hact : act.internal) (hload : act ≠ .load) :
    ∃ l, v'.ready = v.ready ++ l := by
  cases hm with
  | full => exact ⟨[], (List.append_nil _).symm⟩
  | create => cases hact
  | terminate => cases hact
  | pass => exact ⟨[], (List.append_nil _).symm⟩
  | block => exact ⟨[], (List.append_nil _).symm⟩
  | verhogen => exact ⟨_, verhogen_ready⟩
  | noSignal => exact ⟨[], (List.append_nil _).symm⟩
  | signal => exact ⟨_, verhogen_ready⟩
  | requeue => exact ⟨_, rfl⟩
  | load => exact absurd rfl hload

/-- A move that loads nobody lets nobody overtake a ready process. -/
theorem OrderlyMove.ready_waits (hm : OrderlyMove act v v') (hload : act ≠ .load) (hp : p ∈ v.ready)
    (hp' : p ∈ v'.ready) : KeepsTurn p [] v.ready v'.ready := by
  obtain ⟨hv, hmove⟩ := hm
  cases hmove with
  | full => exact .refl hp
  | create => exact .join hp
  | @terminate _ t ks =>
      have hready : (v.terminate t ks).ready = v.ready.filter (· ∉ ks.postorder ++ [t]) :=
        killAll_ready_eq hv.ready_nodup
      refine .leave ?_ hv.ready_nodup hp'
      rw [hready]
      exact List.filter_sublist
  | pass => exact .refl hp
  | block => exact .refl hp
  | verhogen =>
      rw [verhogen_ready]
      exact .join hp
  | noSignal => exact .refl hp
  | signal =>
      rw [verhogen_ready]
      exact .join hp
  | requeue => exact .join hp
  | load => exact absurd rfl hload

/-- A ready process that leaves the queue by another move dies. -/
theorem OrderlyMove.ready_dies (hm : OrderlyMove act v v') (hload : act ≠ .load) (hp : p ∈ v.ready)
    (hp' : p ∉ v'.ready) : v'.place p = .free := by
  obtain ⟨hv, hmove⟩ := hm
  cases hmove with
  | full => exact absurd hp hp'
  | create => exact absurd (List.mem_append_left _ hp) hp'
  | @terminate _ t ks =>
      have hready : (v.terminate t ks).ready = v.ready.filter (· ∉ ks.postorder ++ [t]) :=
        killAll_ready_eq hv.ready_nodup
      have hkilled : p ∈ ks.postorder ++ [t] := by
        by_contra hn
        rw [hready] at hp'
        exact hp' (List.mem_filter.mpr ⟨hp, decide_eq_true hn⟩)
      change (v.killAll (ks.postorder ++ [t])).place p = .free
      rw [killAll_place, if_pos hkilled]
  | pass => exact absurd hp hp'
  | block => exact absurd hp hp'
  | verhogen =>
      rw [verhogen_ready] at hp'
      exact absurd (List.mem_append_left _ hp) hp'
  | noSignal => exact absurd hp hp'
  | signal =>
      rw [verhogen_ready] at hp'
      exact absurd (List.mem_append_left _ hp) hp'
  | requeue => exact absurd (List.mem_append_left _ hp) hp'
  | load => exact absurd rfl hload

/-- Only a switch loads a process from the queue. -/
theorem Event.load_switches {acts : List Act} (h : e.acts s.kernel acts) (hm : .load ∈ acts) :
    switches (s, e, s') = true := by
  have hown : e.act s.kernel ≠ some .load := fun hact => by
    rcases Event.act_asked hact with ⟨t, ht⟩ | ⟨hw, c, -, -, hact⟩
    · cases ht
    · cases syscallAct_asked hact
  cases e with
  | dispatch =>
      obtain rfl := h
      refine decide_eq_true fun hflag => ?_
      rw [dispatchActs, if_pos hflag] at hm
      cases hm
  | syscall hw =>
      obtain rfl := h
      exact absurd (Option.mem_toList.mp hm) hown
  | pgmtrap hw =>
      obtain rfl := h
      exact absurd (Option.mem_toList.mp hm) hown
  | tlb hw =>
      obtain rfl := h
      exact absurd (Option.mem_toList.mp hm) hown
  | interrupt hw =>
      obtain ⟨n, rfl⟩ := h
      rcases List.mem_append.mp hm with hm | hm
      · obtain ⟨i, -, hi⟩ := List.mem_map.mp hm
        cases hi
      · cases List.eq_of_mem_replicate hm

/-- The scheduler puts the running process at the end and takes the first one. -/
theorem dispatch_takes (h : Rep κ v) (hflag : flag ≠ .loadcurrent) (hp : p ∈ v.ready)
    (hsteps : Steps Move (dispatchActs κ flag) v v') :
    ∃ x, v.ready ++ κ.currentProcess.toList = x :: v'.ready ∧ v'.place x = .off := by
  have hload : ∀ u, Move .load u v' → ∃ x, u.ready = x :: v'.ready ∧ v'.place x = .off := by
    intro u hm
    cases hm with
    | load hr => exact ⟨_, hr, Function.update_self ..⟩
  rw [dispatchActs, if_neg hflag] at hsteps
  cases hc : κ.currentProcess with
  | some c =>
      rw [hc, if_pos Option.isSome_some, steps_cons] at hsteps
      obtain ⟨u, hreq, hrest⟩ := hsteps
      cases hreq with
      | @requeue _ d hd =>
          obtain rfl := Option.some.inj (hc.symm.trans ((h.off d).mp hd))
          exact hload _ (steps_single.mp hrest)
  | none =>
      have hq : κ.readyqueue.isSome := by
        rw [Option.isSome_iff_ne_none]
        intro hn
        rw [h.ready.ring.tail_none_iff.mp hn] at hp
        cases hp
      rw [hc, if_neg (by simp), if_pos hq] at hsteps
      rw [Option.toList_none, List.append_nil]
      exact hload _ (steps_single.mp hsteps)

/-- A switch serves the first of the queue. -/
theorem dispatch_waits (h : Rep κ v) (hflag : flag ≠ .loadcurrent) (hp : p ∈ v.ready)
    (hsteps : Steps Move (dispatchActs κ flag) v v') :
    ∃ x, v'.place x = .off ∧ (p ∈ v'.ready → KeepsTurn p [x] v.ready v'.ready) ∧
      (p ∉ v'.ready → x = p) := by
  obtain ⟨x, hx, hoff⟩ := dispatch_takes h hflag hp hsteps
  refine ⟨x, hoff, fun hp' => ?_, fun hp' => ?_⟩
  · have hnodup : (v.ready ++ κ.currentProcess.toList).Nodup := by
      refine List.nodup_append'.mpr ⟨h.ready.ring.nodup, by cases κ.currentProcess <;> simp,
        fun y hy hy' => ?_⟩
      have hcur : κ.currentProcess = some y := Option.mem_toList.mp hy'
      have hready := (h.ready.mem y).mp hy
      rw [(h.off y).mpr hcur] at hready
      cases hready
    have hjoin : KeepsTurn p [] v.ready (v.ready ++ κ.currentProcess.toList) := .join hp
    rw [hx] at hjoin hnodup
    exact hjoin.trans (.serve (l := [x]) hnodup hp')
  · have hmem : p ∈ x :: v'.ready := hx ▸ List.mem_append_left _ hp
    exact ((List.mem_cons.mp hmem).resolve_right hp').symm

/-- What a step takes, if it is a switch and somebody is ready. -/
theorem Sys.step_takes (h : Rep s.kernel.core v) (hs : SparesReady s e) (hstep : s.step e = some s')
    (hp : p ∈ s.ready) : (taken (s, e, s')).length = (switches (s, e, s')).toNat ∧
      (p ∈ s'.ready → KeepsTurn p (taken (s, e, s')) s.ready s'.ready) ∧
      (p ∉ s'.ready → taken (s, e, s') = [p] ∨ p ∈ freeList s'.kernel) := by
  obtain ⟨acts, v', hacts, hsteps, hrep'⟩ := nucleus_simulation (B := fun _ => True).step h hs hstep
  have hmoves : Steps Move acts v v' := hsteps.imp fun _ _ _ hm => hm.2
  unfold Sys.ready at hp ⊢
  rw [h.readyList_eq] at hp ⊢
  rw [hrep'.readyList_eq, hrep'.mem_freeList]
  cases hsw : switches (s, e, s') with
  | true =>
      cases e with
      | dispatch =>
          have hflag : s.kernel.flag ≠ .loadcurrent := of_decide_eq_true hsw
          obtain rfl := hacts
          obtain ⟨x, hoff, hwaits, hleaves⟩ := dispatch_waits h hflag hp hmoves
          have hcur : s'.kernel.currentProcess = some x := (hrep'.off x).mp hoff
          rw [taken, if_pos hsw, hcur]
          exact ⟨rfl, hwaits, fun hp' => Or.inl (by rw [hleaves hp']; rfl)⟩
      | syscall hw => cases hsw
      | pgmtrap hw => cases hsw
      | tlb hw => cases hsw
      | interrupt hw => cases hsw
  | false =>
      rw [taken, if_neg (by simp [hsw])]
      have hload : .load ∉ acts := fun hm => by
        rw [Event.load_switches hacts hm] at hsw
        cases hsw
      refine ⟨rfl, ?_⟩
      rcases Event.acts_cases hacts with rfl | hinternal
      · cases hact : e.act s.kernel with
        | none =>
            rw [hact] at hmoves
            rw [steps_nil.mp hmoves]
            exact ⟨fun hp' => .refl hp, fun hp' => absurd hp hp'⟩
        | some act =>
            rw [hact] at hsteps hload
            have hmove := steps_single.mp hsteps
            have hother : act ≠ .load := fun he => hload (he ▸ List.mem_cons_self)
            exact ⟨hmove.ready_waits hother hp, fun hp' => Or.inr (hmove.ready_dies hother hp hp')⟩
      · have hturn : KeepsTurn p [] v.ready v'.ready := by
          refine hmoves.invariant (I := fun u => KeepsTurn p [] v.ready u.ready)
            (fun act hact t u ht hm => ?_)
            (.refl hp)
          obtain ⟨l, hl⟩ := hm.ready_grows (hinternal act hact) fun he => hload (he ▸ hact)
          rw [hl]
          exact ht.trans (.join ht.mem)
        exact ⟨fun _ => hturn, fun hp' => absurd hturn.mem hp'⟩

end Steps

section Runs

variable [Platform] {B : Kernel → Prop} {s t : Sys} {p : Pcb} {tr : List (Sys × Event × Sys)}

/-- While a process is in the ready queue, every switch takes one process, and those that are taken
were ahead of it, in their order. It leaves the queue when it is taken itself, or dead: so by the
time the scheduler has switched once more than there were processes ahead. -/
theorem turns_in_order (h : Reach (nucleus B) SparesReady s)
    (hrun : Stays (nucleus B) SparesReady Sys.ready p s tr t) :
    (tr.flatMap taken ++ ahead p t.ready).Sublist (ahead p s.ready) ∧
      (∀ x ∈ tr, (taken x).length = (switches x).toNat) ∧
      tr.countP switches + t.ready.idxOf p ≤ s.ready.idxOf p ∧
      ∀ e u, SparesReady t e → t.step e = some u →
        (taken (t, e, u)).length = (switches (t, e, u)).toNat ∧
          (p ∉ u.ready → taken (t, e, u) = [p] ∨ p ∈ freeList u.kernel) := by
  have htakes : ∀ t e u, Reach (nucleus B) SparesReady t → SparesReady t e →
      (nucleus B).step t e u →
      p ∈ t.ready → (taken (t, e, u)).length = (switches (t, e, u)).toNat ∧
        (p ∈ u.ready → KeepsTurn p (taken (t, e, u)) t.ready u.ready) ∧
        (p ∉ u.ready → taken (t, e, u) = [p] ∨ p ∈ freeList u.kernel) := by
    intro t e u ht hs hstep hp
    obtain ⟨v, hrep⟩ := nucleus_rep ht
    exact Sys.step_takes hrep hs hstep hp
  have hturn : KeepsTurn p (tr.flatMap taken) s.ready t.ready :=
    hrun.keepsTurn h fun t e u ht hs hstep hp hp' => (htakes t e u ht hs hstep hp).2.1 hp'
  have hcount : (tr.flatMap taken).length = tr.countP switches :=
    hrun.length_served h fun t e u ht hs hstep hp => (htakes t e u ht hs hstep hp).1
  refine ⟨hturn.order, ?_, ?_, ?_⟩
  · exact hrun.forall_mem (P := fun x => (taken x).length = (switches x).toNat) h
      fun t e u ht hs hstep hp _ => (htakes t e u ht hs hstep hp).1
  · rw [← hcount, Nat.add_comm]
    exact hturn.length_le
  · intro e u hs hstep
    obtain ⟨hone, -, hleaves⟩ := htakes t e u (hrun.reach h) hs hstep hrun.mem
    exact ⟨hone, hleaves⟩

end Runs

section Board

attribute [local instance] uarm

/-- Two processes are ahead of the third one; they are taken, and the first process comes after
it. -/
theorem turns_in_order_third : ∃ (s t : Sys) (tr : List (Sys × Event × Sys)),
    s.ready = [1, 2, 3] ∧ t.ready = [3, 0, 1] ∧ tr.flatMap taken = [1, 2] ∧
      (tr.flatMap taken ++ ahead 3 t.ready).Sublist (ahead 3 s.ready) := by
  obtain ⟨s, tr, t, hs, hrun, hQ⟩ := stays_run (B := fun _ => True) (C := SparesReady) Sys.ready 3
    trivial atBoot_zero [.dispatch, call 1, .dispatch, call 1, .dispatch, call 1, .dispatch]
    [completion intTimer 0, .dispatch, completion intTimer 0, .dispatch]
    (fun s tr t => s.ready = [1, 2, 3] ∧ t.ready = [3, 0, 1] ∧ tr.flatMap taken = [1, 2])
      (by decide +kernel)
  obtain ⟨hready, hready', htaken⟩ := of_decide_eq_true hQ
  exact ⟨s, t, tr, hready, hready', htaken, (turns_in_order hs hrun).1⟩

end Board

end JaeOS
