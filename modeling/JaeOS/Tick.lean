import JaeOS.Affordable
import JaeOS.Services

/-!
# The tick of the pseudo-clock

`timer_handler` does a `V` of one unit until the integer is 0. With killed waiters among those it
has counted, the first of them wake nobody; the last ones wake everybody.
-/

namespace JaeOS

variable {k k₁ k₂ : Kernel} {a : ℕ} {w w' : ℤ} {woken rest l l' : List Pcb}

/-! ### `V` after `V` -/

theorem Grants.refl (k : Kernel) (a : ℕ) (h : ∀ d, d ∈ descriptors k.toLinks →
    waiting k.toLinks (k.sSemAdd d) ≠ []) : Grants k k a 0 [] (waiting k.toLinks a) where
  split := rfl
  kernel := by simp
  ready := (List.append_nil _).symm
  queues := (Function.update_eq_self a _).symm
  links := .refl _ _
  used d := ⟨fun hd => ⟨hd, h d hd⟩, fun hd => hd.1⟩
  returned d := ⟨Or.inl, fun hd => hd.resolve_right fun hr => h d hr.1 hr.2⟩

theorem Grants.trans (h : Grants k k₁ a w l l') (h' : Grants k₁ k₂ a w' woken rest) :
    Grants k k₂ a (w + w') (l ++ woken) rest := by
  have hqueue : waiting k₁.toLinks a = l' := by rw [h.queues, Function.update_self]
  have hl' : l' = woken ++ rest := by rw [← hqueue, h'.split]
  have hempty : ∀ b, waiting k₁.toLinks b = [] → waiting k₂.toLinks b = [] := by
    intro b hb
    rw [h'.queues]
    by_cases hba : b = a
    · rw [hba, hqueue, hl', List.append_eq_nil_iff] at hb
      rw [hba, Function.update_self, hb.2]
    · rwa [Function.update_of_ne hba]
  have hfields := h'.kernel
  constructor
  · rw [h.split, hl', List.append_assoc]
  · obtain ⟨m₁, t₁, hk₁⟩ : ∃ m t, k₁ = { k with
        toLinks := m
        readyqueue := t
        ints := Function.update k.ints a (k.ints a + w)
        resWait := fun p => if p ∈ l then 0 else k.resWait p
        softBlockCount := k.softBlockCount - l.length } := ⟨_, _, h.kernel⟩
    have hints : Function.update k₁.ints a (k₁.ints a + w') =
        Function.update k.ints a (k.ints a + (w + w')) := by
      have hk₁ints : k₁.ints = Function.update k.ints a (k.ints a + w) := by rw [hk₁]
      rw [hk₁ints, Function.update_idem, Function.update_self, add_assoc]
    have hrequest : (fun p => if p ∈ woken then 0 else k₁.resWait p) =
        fun p => if p ∈ l ++ woken then 0 else k.resWait p := by
      funext p
      rw [hk₁]
      by_cases hp : p ∈ woken <;> simp [hp]
    have hsoft : k₁.softBlockCount - woken.length = k.softBlockCount - (l ++ woken).length := by
      rw [hk₁, List.length_append]
      push_cast
      omega
    rw [hints, hrequest, hsoft] at hfields
    rw [hk₁] at hfields
    exact hfields
  · rw [h'.ready, h.ready, List.append_assoc]
  · rw [h'.queues, h.queues, Function.update_idem]
  · apply h.links.trans h'.links
    intro x hx
    rw [hqueue, h.ready] at hx
    rw [h.split]
    simp only [List.mem_append] at hx ⊢
    tauto
  · intro d
    have hd := hempty (k.sSemAdd d)
    rw [h'.used, h.used, h.links.sSemAdd]
    tauto
  · intro d
    have hd := hempty (k.sSemAdd d)
    rw [h'.returned, h.returned, h.used, h.links.sSemAdd]
    tauto

/-! ### The loop of `timer_handler` -/

section Clock

variable [Platform] {v : View} {n : ℕ}

omit [Platform] in
theorem Kernel.Shows.length_waiting (h : k.Shows v) (a : ℕ) :
    (waiting k.toLinks a).length ≤ maxproc := by
  obtain ⟨ds, fs, hl⟩ := h.lists.asl
  rw [h.waiting_eq]
  exact hl.queue_length_le a

omit [Platform] in
theorem Kernel.Shows.waiting_nodup (h : k.Shows v) (a : ℕ) : (waiting k.toLinks a).Nodup := by
  obtain ⟨ds, fs, hl⟩ := h.lists.asl
  rw [h.waiting_eq]
  exact hl.queue_nodup a

omit [Platform] in
/-- A semaphore with a descriptor has waiters. -/
theorem Kernel.Shows.used (h : k.Shows v) (d : Semd) (hd : d ∈ descriptors k.toLinks) :
    waiting k.toLinks (k.sSemAdd d) ≠ [] := by
  obtain ⟨ds, fs, hl⟩ := h.lists.asl
  rw [hl.descriptors_eq] at hd
  rw [h.waiting_eq]
  exact hl.nonempty d hd

omit [Platform] in
/-- Where everybody waits for one unit, a `V` of one unit wakes the oldest waiter if there is a free
unit after it, and else nobody. -/
theorem affordable_unit {r : Pcb → ℤ} {units : ℤ} (hunits : ∀ p ∈ l, r p = -1)
    (h : Affordable r units l woken) :
    (units ≤ 0 → woken = []) ∧ (units = 1 → l ≠ [] → woken.length = 1) := by
  obtain ⟨hpre, hcost, hlongest⟩ := h
  have hdemand : ∀ {l' : List Pcb}, l' <+: l → demand r l' = l'.length := fun hl' =>
    demand_units fun p hp => hunits p (hl'.subset hp)
  have hwoken := hdemand hpre
  constructor
  · intro h0
    rcases hcost with hnil | hcost
    · exact hnil
    · exact List.length_eq_zero_iff.mp (by omega)
  · intro h1 hne
    obtain ⟨p, t, hp⟩ := List.exists_cons_of_ne_nil hne
    have hfirst : [p] <+: l := ⟨t, hp.symm⟩
    have hcost₁ := hdemand hfirst
    have hlonger := (hlongest [p] hfirst (by rw [hcost₁, h1]; rfl)).length_le
    rw [List.length_singleton] at hlonger
    rcases hcost with hnil | hcost
    · rw [hnil] at hlonger
      cases hlonger
    · omega

theorem tickLoop_serves (h : k.Shows v) (hvalue : k.ints (semAddr clockSem) = -n) (hn : n ≤ 2 ^ 31)
    (hunits : ∀ p ∈ waiting k.toLinks (semAddr clockSem), k.resWait p = -1)
    (hlen : (waiting k.toLinks (semAddr clockSem)).length ≤ n) :
    ∃ k' v', (tickLoop (n + 1)).run k = .ok () k' ∧ k'.Shows v' ∧
      Grants k k' (semAddr clockSem) n (waiting k.toLinks (semAddr clockSem)) [] := by
  induction n generalizing k v with
  | zero =>
      have hnil : waiting k.toLinks (semAddr clockSem) = [] :=
        List.length_eq_zero_iff.mp (Nat.le_zero.mp hlen)
      have hneg : ¬ k.ints (semAddr clockSem) < 0 := by omega
      have hrefl := Grants.refl k (semAddr clockSem) h.used
      rw [hnil] at hrefl ⊢
      refine ⟨k, v, ?_, h, hrefl⟩
      rw [tickLoop, Program.run_gets_bind, if_neg hneg]
      rfl
  | succ n ih =>
      have hneg : k.ints (semAddr clockSem) < 0 := by omega
      have hroom : (waiting k.toLinks (semAddr clockSem)).length ≤ 20 := h.length_waiting _
      have hdemand : demand k.resWait (waiting k.toLinks (semAddr clockSem)) =
          (waiting k.toLinks (semAddr clockSem)).length := demand_units hunits
      have hfits : v.Fits (semAddr clockSem) 1 := by
        have hv : v.value (semAddr clockSem) = -(n + 1 : ℕ) := by rw [← h.value, hvalue]
        have hd : demand v.request (v.queue (semAddr clockSem)) =
            (waiting k.toLinks (semAddr clockSem)).length := by
          rw [← h.request, ← h.waiting_eq, hdemand]
        have hq : v.queue (semAddr clockSem) ≠ [] →
            0 < (waiting k.toLinks (semAddr clockSem)).length := by
          intro hq
          rw [h.waiting_eq]
          exact List.length_pos_iff.mpr hq
        have havail : v.avail (semAddr clockSem) =
            v.value (semAddr clockSem) + demand v.request (v.queue (semAddr clockSem)) := rfl
        constructor
        · omega
        · omega
        · constructor
          · intro hne
            have hpos := hq hne
            omega
          · omega
      obtain ⟨k₁, rest, hrun, hgrants, hshows⟩ :=
        verhogen_grants h (semAddr_ne_zero clockSem) (by decide) hfits
      have hafford := h.woken_affordable hfits
      generalize v.woken (semAddr clockSem) 1 = woken at hafford hgrants
      obtain ⟨hnone, hone⟩ := affordable_unit hunits hafford
      have hsplit := congrArg List.length hgrants.split
      rw [List.length_append] at hsplit
      have havail : k.avail (semAddr clockSem) = -(n + 1 : ℕ) +
          (waiting k.toLinks (semAddr clockSem)).length := by
        rw [Kernel.avail, hvalue, hdemand]
      have hqueue : waiting k₁.toLinks (semAddr clockSem) = rest := by
        rw [hgrants.queues, Function.update_self]
      have hrest : rest.length ≤ n := by
        by_cases hfull : (waiting k.toLinks (semAddr clockSem)).length = n + 1
        · have hwoken := hone (by omega) (fun hnil => by rw [hnil] at hfull; cases hfull)
          omega
        · omega
      have hfields := hgrants.kernel
      have hvalue₁ : k₁.ints (semAddr clockSem) = -n := by
        rw [hfields]
        dsimp only
        rw [Function.update_self, hvalue]
        omega
      have hunits₁ : ∀ p ∈ waiting k₁.toLinks (semAddr clockSem), k₁.resWait p = -1 := by
        intro p hp
        rw [hqueue] at hp
        have hpw : p ∈ waiting k.toLinks (semAddr clockSem) := by
          rw [hgrants.split]
          exact List.mem_append_right _ hp
        have hnd := h.waiting_nodup (semAddr clockSem)
        rw [hgrants.split] at hnd
        have hnot : p ∉ woken := fun hm => (List.disjoint_of_nodup_append hnd) hm hp
        rw [hfields]
        dsimp only
        rw [if_neg hnot]
        exact hunits p hpw
      obtain ⟨k₂, v₂, hrun₂, hshows₂, hgrants₂⟩ :=
        ih hshows hvalue₁ (by omega) hunits₁ (hqueue ▸ hrest)
      have hall := hgrants.trans hgrants₂
      rw [hqueue, ← hgrants.split] at hall
      refine ⟨k₂, v₂, ?_, hshows₂, ?_⟩
      · rw [tickLoop, Program.run_gets_bind, if_pos hneg, Program.run_bind_ok hrun]
        exact hrun₂
      · have hw : (1 : ℤ) + n = (n + 1 : ℕ) := by omega
        rwa [hw] at hall

/-- A tick of the pseudo-clock wakes everybody who waits for it, in the order of the queue, and
leaves its semaphore at 0 and the other semaphores as they are. -/
theorem timerHandler_releases (h : k.Shows v) (hflag : k.pseudoclockflag = true)
    (hvalue : k.ints (semAddr clockSem) ≤ 0) (hint : -2 ^ 31 ≤ k.ints (semAddr clockSem))
    (hunits : ∀ p ∈ waiting k.toLinks (semAddr clockSem), k.resWait p = -1)
    (hlen : ((waiting k.toLinks (semAddr clockSem)).length : ℤ) ≤ -k.ints (semAddr clockSem)) :
    ∃ k', timerHandler.run k = .ok () k' ∧ k'.ints (semAddr clockSem) = 0 ∧
      waiting k'.toLinks (semAddr clockSem) = [] ∧
      readyList k' = readyList k ++ waiting k.toLinks (semAddr clockSem) ∧
      k'.softBlockCount = k.softBlockCount - (waiting k.toLinks (semAddr clockSem)).length ∧
      k'.flag = .reset ∧
      (∀ b ≠ semAddr clockSem, k'.ints b = k.ints b ∧ waiting k'.toLinks b = waiting k.toLinks b) ∧
      (∀ p ∉ waiting k.toLinks (semAddr clockSem), k'.resWait p = k.resWait p) := by
  obtain ⟨n, hn⟩ : ∃ n : ℕ, k.ints (semAddr clockSem) = -n :=
    ⟨(-k.ints (semAddr clockSem)).toNat, by omega⟩
  obtain ⟨k₁, v₁, hrun, hshows, hgrants⟩ := tickLoop_serves h hn (by omega) hunits (by omega)
  have hfuel : (-k.ints (semAddr clockSem)).toNat + 1 = n + 1 := by omega
  have hfields := hgrants.kernel
  have hints : k₁.ints = Function.update k.ints (semAddr clockSem) 0 := by
    rw [hfields, hn, neg_add_cancel]
  refine ⟨{ k₁ with flag := .reset, hw := { k₁.hw with timer := schedBogusSlice } }, ?_, ?_,
    ?_, ?_, ?_, rfl, fun b hb => ⟨?_, ?_⟩, fun p hp => ?_⟩
  · rw [timerHandler, Program.run_gets_bind, if_pos hflag, Program.run_gets_bind, hfuel,
      Program.run_bind_ok hrun]
    rfl
  · exact (congrFun hints _).trans (Function.update_self ..)
  · exact (congrFun hgrants.queues _).trans (Function.update_self ..)
  · exact hgrants.ready
  · exact congrArg Kernel.softBlockCount hfields
  · exact (congrFun hints b).trans (Function.update_of_ne hb ..)
  · exact (congrFun hgrants.queues b).trans (Function.update_of_ne hb ..)
  · have hrequest := congrFun (congrArg Mem.resWait (congrArg Kernel.toMem hfields)) p
    exact hrequest.trans (if_neg hp)

end Clock

section Board

attribute [local instance] uarm

/-- One of two waiters has been killed before the tick. -/
theorem timerHandler_releases_killed : ∃ k k' : Kernel, k.ints (semAddr clockSem) = -2 ∧
    waiting k.toLinks (semAddr clockSem) = [2] ∧ timerHandler.run k = .ok () k' ∧
    k'.ints (semAddr clockSem) = 0 ∧ waiting k'.toLinks (semAddr clockSem) = [] := by
  obtain ⟨s, hs, hQ⟩ := nucleus_run (B := fun _ => True) (C := SparesReady) trivial atBoot_zero
    [.dispatch, call 1, .dispatch, call 1, .dispatch, completion intTimer 0, .dispatch, call 9,
      .dispatch, call 9, .dispatch, call 2 611841, .dispatch]
    (fun s => s.kernel.ints (semAddr clockSem) = -2 ∧
      waiting s.kernel.toLinks (semAddr clockSem) = [2] ∧ s.kernel.resWait 2 = -1)
        (by decide +kernel)
  obtain ⟨hvalue, hwaiting, hunit⟩ := of_decide_eq_true hQ
  obtain ⟨v, hrep⟩ := nucleus_rep hs
  have hshows := hrep.toWellFormed.shows
  have htick : ({ s.kernel with pseudoclockflag := true } : Kernel).Shows v := by
    refine ⟨hshows.lists, hshows.ready, ?_⟩
    exact withLists_self hshows.value hshows.request hshows.alive hshows.soft
  have hunits : ∀ p ∈ waiting s.kernel.toLinks (semAddr clockSem), s.kernel.resWait p = -1 := by
    rw [hwaiting]
    intro p hp
    rw [List.mem_singleton.mp hp, hunit]
  obtain ⟨k, hk, hflag, hvalue', hwaiting', hunits'⟩ : ∃ k : Kernel, k.Shows v ∧
      k.pseudoclockflag = true ∧ k.ints (semAddr clockSem) = -2 ∧
      waiting k.toLinks (semAddr clockSem) = [2] ∧
      ∀ p ∈ waiting k.toLinks (semAddr clockSem), k.resWait p = -1 :=
    ⟨_, htick, rfl, hvalue, hwaiting, hunits⟩
  obtain ⟨k', hrun, hzero, hempty, -⟩ :=
    timerHandler_releases hk hflag (by omega) (by omega) hunits'
    (by rw [hwaiting', hvalue']; decide)
  exact ⟨k, k', hvalue', hwaiting', hrun, hzero, hempty⟩

end Board

end JaeOS
