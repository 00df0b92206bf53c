import JaeOS.Capacity
import JaeOS.Conservation

/-!
# `V` wakes whom the free units can serve

The loop of `V` serves the queue in order as long as the units last: it wakes the longest beginning
of the queue that asks for no more than there is.
-/

open LinkRing

namespace JaeOS

/-- The longest beginning of `l` that asks for no more than `units`; the empty one if there is
none. -/
def Affordable (request : Pcb → ℤ) (units : ℤ) (l pre : List Pcb) : Prop :=
  pre <+: l ∧ (pre = [] ∨ demand request pre ≤ units) ∧
    ∀ l', l' <+: l → demand request l' ≤ units → l' <+: pre

structure Kernel.Shows (k : Kernel) (v : View) : Prop where
  lists : Lists k.toLinks v
  ready : ReadyRing k.toLinks k.readyqueue v
  numbers : k.withLists k.toLinks v = k

/-- The additions of a `V` and the negation stay among the 32-bit integers. -/
structure View.Fits (v : View) (a : ℕ) (w : ℤ) : Prop where
  value : -2 ^ 31 ≤ v.value a + w ∧ v.value a + w < 2 ^ 31
  requests : demand v.request (v.queue a) < 2 ^ 31
  units : (v.queue a ≠ [] → -2 ^ 31 < v.avail a + w) ∧ v.avail a + w < 2 ^ 31

section Serving

variable [Platform] {v : View} {a : ℕ} {w s : ℤ} {r : Pcb → ℤ}
  {l : List Pcb}

theorem wakeups_affordable (hneg : ∀ p ∈ l, r p < 0) (hexact : ExactOn (-s) s)
    (hminus : s < 0 → Platform.wrap (-s) = -s ∨ l = []) : Affordable r s l (wakeups r s l) := by
  by_cases hs : 0 ≤ s
  · obtain ⟨rest, hl, hpos, hstop⟩ := wakeups_stop hneg hs hexact
    refine ⟨⟨rest, hl.symm⟩, Or.inr (by omega), fun l' hl' hle => ?_⟩
    rcases List.prefix_or_prefix_of_prefix hl' ⟨rest, hl.symm⟩ with h | ⟨t, ht⟩
    · exact h
    · cases t with
      | nil =>
          rw [List.append_nil] at ht
          exact ht ▸ List.prefix_rfl
      | cons p t =>
          -- one more than the loop has woken is already too many
          obtain ⟨u, hu⟩ := hl'
          have hboth : wakeups r s l ++ rest = (wakeups r s l ++ p :: t) ++ u := by
            rw [ht, hu]
            exact hl.symm
          have hrest : rest = p :: (t ++ u) := by
            rw [List.append_assoc] at hboth
            exact List.append_cancel_left hboth
          have hp := hstop p _ hrest
          have htneg : 0 ≤ demand r t := by
            apply demand_nonneg
            intro q hq
            apply hneg
            rw [hl, hrest]
            simp [hq]
          rw [← ht, demand_append, demand_cons] at hle
          omega
  · have hnone : wakeups r s l = [] := by
      cases l with
      | nil => rfl
      | cons p l =>
          have hp := hneg p List.mem_cons_self
          have hw := (hminus (by omega)).resolve_right (List.cons_ne_nil p l)
          rw [wakeups, if_neg]
          omega
    rw [hnone]
    refine ⟨List.nil_prefix, Or.inl rfl, fun l' hl' hle => ?_⟩
    have hnonneg : 0 ≤ demand r l' := demand_nonneg fun p hp => hneg p (hl'.subset hp)
    omega

theorem View.Fits.supply_eq (h : v.Fits a w) (hneg : ∀ p ∈ v.queue a, v.request p < 0) :
    v.supply a w = v.avail a + w := by
  have hnonneg := demand_nonneg hneg
  have havail : v.avail a = v.value a + demand v.request (v.queue a) := rfl
  have hvalue := h.value
  have hunits := h.units.2
  apply JaeOS.supply_eq hneg
  · exact Platform.wrap_eq _ (by omega) (by omega)
  · exact exactOn_of_range (by omega) h.requests
  · exact Platform.wrap_eq _ (by omega) (by omega)

/-- The processes `V` wakes. -/
theorem View.Fits.woken_affordable (h : v.Fits a w) (hneg : ∀ p ∈ v.queue a, v.request p < 0) :
    Affordable v.request (v.avail a + w) (v.queue a) (v.woken a w) := by
  have hunits := h.units
  rw [View.woken, h.supply_eq hneg]
  apply wakeups_affordable hneg
  · exact exactOn_of_range (by omega) (by omega)
  · intro hs
    by_cases hq : v.queue a = []
    · exact Or.inr hq
    · have hlow := hunits.1 hq
      exact Or.inl (Platform.wrap_eq _ (by omega) (by omega))

/-! ### Descriptors -/

section Descriptors

variable {m m' : Links maxproc} {q q' : ℕ → List Pcb} {ds fs ds' fs' : List Semd} {d : Semd}

omit [Platform] in
/-- A descriptor stays in use exactly as long as somebody waits for its semaphore. -/
theorem AslLists.mem_kept (h : AslLists m q ds fs) (h' : AslLists m' q' ds' fs')
    (hadd : m'.sSemAdd = m.sSemAdd) (hsub : ∀ b, ∀ p ∈ q' b, p ∈ q b)
    (hcur : ∀ b, ∀ p ∈ q' b, m'.pCursem p = m.pCursem p) :
    d ∈ ds' ↔ d ∈ ds ∧ q' (m.sSemAdd d) ≠ [] := by
  constructor
  · intro hd
    have hne := h'.nonempty d hd
    obtain ⟨p, hp⟩ := List.exists_mem_of_ne_nil _ hne
    obtain ⟨e, he, -, hpe⟩ := h.mem_of_nonempty (hsub _ p hp)
    have hpd := h'.cursem d hd p hp
    rw [hcur _ p hp, hpe] at hpd
    rw [hadd] at hne
    exact ⟨Option.some.inj hpd ▸ he, hne⟩
  · intro ⟨hd, hne⟩
    obtain ⟨p, hp⟩ := List.exists_mem_of_ne_nil _ hne
    obtain ⟨e, he, -, hpe⟩ := h'.mem_of_nonempty hp
    have hpd := h.cursem d hd p (hsub _ p hp)
    rw [hcur _ p hp, hpd] at hpe
    exact Option.some.inj hpe ▸ he

omit [Platform] in
theorem AslLists.mem_free_iff (h : AslLists m q ds fs) : d ∈ fs ↔ d ∉ ds := by
  constructor
  · intro hf hd
    exact h.disjoint hd hf
  · intro hd
    exact (h.all d).resolve_left hd

end Descriptors

/-! ### `V` -/

variable {k : Kernel}

omit [Platform] in
theorem Kernel.Shows.value (h : k.Shows v) : k.ints = v.value := by
  rw [← h.numbers]
  rfl

omit [Platform] in
theorem Kernel.Shows.request (h : k.Shows v) : k.resWait = v.request := by
  rw [← h.numbers]
  rfl

omit [Platform] in
theorem Kernel.Shows.alive (h : k.Shows v) : k.processCount = v.alive := by
  rw [← h.numbers]
  rfl

omit [Platform] in
theorem Kernel.Shows.soft (h : k.Shows v) : k.softBlockCount = v.soft := by
  rw [← h.numbers]
  rfl

omit [Platform] in
theorem Kernel.Shows.waiting_eq (h : k.Shows v) : waiting k.toLinks = v.queue :=
  h.lists.asl.waiting_eq

omit [Platform] in
theorem Kernel.Shows.readyList_eq (h : k.Shows v) : readyList k = v.ready :=
  Ring.members_eq h.ready.ring (queue_length_le (m := k.toLinks) h.ready.ring)

omit [Platform] in
theorem WellFormed.shows (h : WellFormed k.core v) : k.Shows v := ⟨h.lists, h.ready, h.withLists⟩

/-- The process queues, the integers and the descriptors after a `V` of `w` at `a` that has woken
`woken` and left `rest` waiting. -/
structure Grants (k k' : Kernel) (a : ℕ) (w : ℤ) (woken rest : List Pcb) : Prop where
  split : waiting k.toLinks a = woken ++ rest
  kernel : k' = { k with
    toLinks := k'.toLinks
    readyqueue := k'.readyqueue
    ints := Function.update k.ints a (k.ints a + w)
    resWait := fun p => if p ∈ woken then 0 else k.resWait p
    softBlockCount := k.softBlockCount - woken.length }
  ready : readyList k' = readyList k ++ woken
  queues : waiting k'.toLinks = Function.update (waiting k.toLinks) a rest
  links : Released k.toLinks k'.toLinks woken (waiting k.toLinks a ++ readyList k)
  used : ∀ d, d ∈ descriptors k'.toLinks ↔
    d ∈ descriptors k.toLinks ∧ waiting k'.toLinks (k.sSemAdd d) ≠ []
  returned : ∀ d, d ∈ freeDescriptors k'.toLinks ↔ d ∈ freeDescriptors k.toLinks ∨
    d ∈ descriptors k.toLinks ∧ waiting k'.toLinks (k.sSemAdd d) = []

theorem verhogen_queues {rest : List Pcb} (hq : v.queue a = v.woken a w ++ rest) :
    (v.verhogen a w).queue = Function.update v.queue a rest := by
  funext b
  by_cases hb : b = a
  · rw [hb, Function.update_self]
    exact verhogen_queue hq
  · rw [Function.update_of_ne hb]
    exact verhogen_queue_of_ne hb

omit [Platform] in
theorem Kernel.Shows.avail (h : k.Shows v) : k.avail a = v.avail a := by
  rw [Kernel.avail, h.value, h.request, h.waiting_eq]
  rfl

theorem Kernel.Shows.woken_affordable (h : k.Shows v) (hfits : v.Fits a w) :
    Affordable k.resWait (k.avail a + w) (waiting k.toLinks a) (v.woken a w) := by
  rw [h.request, h.avail, h.waiting_eq]
  exact hfits.woken_affordable (h.lists.requests_neg a)

theorem verhogen_grants (h : k.Shows v) (ha : a ≠ 0) (hw : 0 < w) (hfits : v.Fits a w) :
    ∃ k' rest, (semaphoreOperation a w).run k = .ok () k' ∧ Grants k k' a w (v.woken a w) rest ∧
      k'.Shows (v.verhogen a w) := by
  obtain ⟨m', t, hrun, hlists, hready, hreleased⟩ :=
    verhogen_run (k := k) (a := a) (w := w) h.lists h.ready
  rw [h.numbers] at hrun
  obtain ⟨rest, hrest⟩ := woken_initial v a w
  have hqueues := verhogen_queues hrest.symm
  have hvalue := hfits.value
  have hcredit : v.credit a w = k.ints a + w := by
    rw [h.value]
    exact Platform.wrap_eq _ hvalue.1 hvalue.2
  have hshows : ((k.setReady t).withLists m' (v.verhogen a w)).Shows (v.verhogen a w) :=
    ⟨hlists, hready, rfl⟩
  have hused : ∀ d, d ∈ descriptors m' ↔
      d ∈ descriptors k.toLinks ∧ (v.verhogen a w).queue (k.sSemAdd d) ≠ [] := by
    intro d
    obtain ⟨ds, fs, hl⟩ := h.lists.asl
    obtain ⟨ds', fs', hl'⟩ := hlists.asl
    have hsub : ∀ b, ∀ p ∈ (v.verhogen a w).queue b, p ∈ v.queue b := by
      intro b p hp
      rw [hqueues] at hp
      by_cases hb : b = a
      · rw [hb, Function.update_self] at hp
        rw [hb, ← hrest]
        exact List.mem_append_right _ hp
      · rwa [Function.update_of_ne hb] at hp
    rw [hl.descriptors_eq, hl'.descriptors_eq]
    apply hl.mem_kept hl' hreleased.sSemAdd hsub
    intro b p hp
    -- a process that still waits has not been woken
    rw [hreleased.pCursem, if_neg]
    intro hwoken
    have hplace := (hlists.mem_queue p b).mp hp
    rw [verhogen_place, if_pos hwoken] at hplace
    cases hplace
  refine ⟨_, rest, (semaphoreOperation_pos ha hw).trans hrun, ⟨?_, ?_, ?_, ?_, ?_, ?_, ?_⟩, hshows⟩
  · rw [h.waiting_eq, hrest]
  · have hints : (v.verhogen a w).value = Function.update k.ints a (k.ints a + w) := by
      rw [View.verhogen, wakeAll_value, View.setValue, hcredit, h.value]
    have hrequest : (v.verhogen a w).request = fun p => if p ∈ v.woken a w then 0
        else k.resWait p := by
      funext p
      rw [View.verhogen, wakeAll_request, h.request]
      rfl
    have halive : (v.verhogen a w).alive = k.processCount := by
      rw [View.verhogen, wakeAll_alive, h.alive]
      rfl
    have hsoft : (v.verhogen a w).soft = k.softBlockCount - (v.woken a w).length := by
      rw [View.verhogen, wakeAll_soft, h.soft]
      rfl
    rw [Kernel.withLists, hints, hrequest, halive, hsoft]
    rfl
  · rw [hshows.readyList_eq, h.readyList_eq, verhogen_ready]
  · rw [hshows.waiting_eq, h.waiting_eq, hqueues]
  · rw [h.waiting_eq, h.readyList_eq]
    exact hreleased
  · rw [hshows.waiting_eq]
    exact hused
  · intro d
    obtain ⟨ds, fs, hl⟩ := h.lists.asl
    obtain ⟨ds', fs', hl'⟩ := hlists.asl
    have hd := hused d
    rw [hl.descriptors_eq, hl'.descriptors_eq] at hd
    rw [hshows.waiting_eq, withLists_toLinks, hl'.freeDescriptors_eq, hl.freeDescriptors_eq,
      hl.descriptors_eq, hl'.mem_free_iff, hl.mem_free_iff, hd]
    tauto

/-- A `V` whose sums do not overflow wakes the longest beginning of its queue that the free units
can serve and changes nothing else; its descriptor becomes free if nobody is left. -/
theorem verhogen_serves (h : k.Shows v) (ha : a ≠ 0) (hw : 0 < w) (hfits : v.Fits a w) :
    ∃ k' woken rest, (semaphoreOperation a w).run k = .ok () k' ∧
      Affordable k.resWait (k.avail a + w) (waiting k.toLinks a) woken ∧
      Grants k k' a w woken rest ∧ ∃ v', k'.Shows v' := by
  obtain ⟨k', rest, hrun, hgrants, hshows⟩ := verhogen_grants h ha hw hfits
  exact ⟨k', v.woken a w, rest, hrun, h.woken_affordable hfits, hgrants, _, hshows⟩

end Serving

section Board

attribute [local instance] uarm

/-- Two processes wait for one unit and for three, and two units are given. -/
theorem verhogen_serves_one : ∃ (k k' : Kernel) (woken rest : List Pcb),
    waiting k.toLinks 0x5000 = [0, 1] ∧ (semaphoreOperation 0x5000 2).run k = .ok () k' ∧
    Affordable k.resWait (k.avail 0x5000 + 2) (waiting k.toLinks 0x5000) woken ∧
    Grants k k' 0x5000 2 woken rest := by
  obtain ⟨s, hs, hQ⟩ := nucleus_run (B := fun _ => True) (C := SparesReady) trivial atBoot_zero
    [.dispatch, call 1, .dispatch, call 3 0x5000 (-1), .dispatch, call 3 0x5000 (-3), .dispatch]
    (fun s => waiting s.kernel.toLinks 0x5000 = [0, 1] ∧ s.kernel.ints 0x5000 = -4 ∧
      s.kernel.resWait 0 = -1 ∧ s.kernel.resWait 1 = -3) (by decide +kernel)
  obtain ⟨hwaiting, hvalue, hfirst, hsecond⟩ := of_decide_eq_true hQ
  obtain ⟨v, hrep⟩ := nucleus_rep hs
  have hshows := hrep.toWellFormed.shows
  have hdemand : demand v.request (v.queue 0x5000) = 4 := by
    rw [← hshows.waiting_eq, ← hshows.request, hwaiting, demand_cons, demand_cons,
      demand_nil, hfirst,
      hsecond]
    rfl
  have hfits : v.Fits 0x5000 2 := by
    have hv : v.value 0x5000 = -4 := by rw [← hshows.value, hvalue]
    have ha : v.avail 0x5000 = 0 := by
      rw [View.avail, hv, hdemand]
      rfl
    constructor <;> omega
  obtain ⟨k', woken, rest, hrun, hafford, hgrants, -⟩ :=
    verhogen_serves hshows (by decide) (by decide) hfits
  exact ⟨s.kernel, k', woken, rest, hwaiting, hrun, hafford, hgrants⟩

end Board

end JaeOS
