import JaeOS.Board
import JaeOS.Supply

/-!
# No unit is lost

In every kernel whose tables are in order, `P` and `V` change the free units of their semaphore by
what they take and give, no other semaphore changes, and killing processes changes the units of no
semaphore outside `device_sem`. The free units therefore never fall below zero.
-/

open LinkRing LinkForest

namespace JaeOS

/-- The free units of the semaphore at `a`: its integer and the requests of its waiters. -/
def Kernel.avail (k : Kernel) (a : ℕ) : ℤ := k.ints a + demand k.resWait (waiting k.toLinks a)

def Kernel.Sound (k : Kernel) : Prop := ∃ v, WellFormed k.core v

def OthersKept (k k' : Kernel) (a : ℕ) : Prop :=
  ∀ b ≠ a, k'.ints b = k.ints b ∧ waiting k'.toLinks b = waiting k.toLinks b ∧
    ∀ p ∈ waiting k.toLinks b, k'.resWait p = k.resWait p

def PassedOrBlocked (k k' : Kernel) (c : Pcb) (a : ℕ) (w : ℤ) : Prop :=
  (k'.currentProcess = some c ∧ waiting k'.toLinks a = waiting k.toLinks a ∧
    k'.avail a = k.avail a + w) ∨
  (k'.currentProcess = none ∧ waiting k'.toLinks a = waiting k.toLinks a ++ [c] ∧
    k'.resWait c = w ∧ k'.avail a = k.avail a)

section Tables

variable {k : Kernel} {m : Links maxproc} {v u : View} {a : ℕ} {t : Option Pcb}

theorem Lists.queues (h : Lists m v) : v.Queues where
  mem := h.mem_queue
  nodup b := by
    obtain ⟨ds, fs, hl⟩ := h.asl
    exact hl.queue_nodup b

theorem Lists.requests_neg (h : Lists m v) (b : ℕ) : ∀ p ∈ v.queue b, v.request p < 0 :=
  fun p hp => h.request_neg p b ((h.mem_queue p b).mp hp)

theorem Lists.avail_eq (h : Lists m v) (k : Kernel) (a : ℕ) :
    (k.withLists m v).avail a = v.avail a := by
  rw [Kernel.avail, withLists_toLinks, h.asl.waiting_eq]
  rfl

theorem WellFormed.avail_eq (h : WellFormed k.core v) (a : ℕ) : k.avail a = v.avail a := by
  have hk := Lists.avail_eq (m := k.toLinks) h.lists k a
  rwa [h.withLists] at hk

theorem othersKept_of_views (h : WellFormed k.core v) (hu : Lists m u)
    (hsame : ∀ b ≠ a, u.value b = v.value b ∧ u.queue b = v.queue b ∧
      ∀ p ∈ v.queue b, u.request p = v.request p) (k₀ : Kernel) :
    OthersKept k (k₀.withLists m u) a := by
  intro b hb
  obtain ⟨hvalue, hqueue, hreq⟩ := hsame b hb
  refine ⟨?_, ?_, fun p hp => ?_⟩
  · exact hvalue.trans (congrFun h.value b).symm
  · rw [h.waiting_eq, withLists_toLinks, hu.asl.waiting_eq, hqueue]
  · rw [h.waiting_eq] at hp
    exact (hreq p hp).trans (congrFun h.request p).symm

end Tables

section Operations

variable [Platform] {k k' : Kernel} {v : View} {c : Pcb} {a : ℕ} {w : ℤ} {pid : Word}

/-- What `P` does on tables that are in order. -/
theorem passeren_conserves (hexact : ∀ x, Platform.wrap x = x) (h : WellFormed k.core v)
    (hc : k.currentProcess = some c) (ha : a ≠ 0) (hw : w < 0) :
    ∃ k', (semaphoreOperation a w).run k = .ok () k' ∧ PassedOrBlocked k k' c a w ∧
      OthersKept k k' a := by
  have hl : Lists k.toLinks v := h.lists
  have hself := h.withLists
  obtain ⟨hoff, -⟩ := h.current c hc
  have hcq : ∀ b, c ∉ v.queue b := fun b hb => by
    have hplace := (hl.mem_queue c b).mp hb
    rw [hoff] at hplace
    cases hplace
  rw [semaphoreOperation_neg ha hw]
  by_cases hi : 0 ≤ v.credit a w
  · have hrun := passeren_pass (k := k) (m := k.toLinks) hi
    rw [hself] at hrun
    have hu := hl.setValue (a := a) (v.credit a w)
    refine ⟨_, hrun, Or.inl ⟨hc, ?_, ?_⟩, othersKept_of_views h hu (fun b hb => ?_) k⟩
    · rw [withLists_toLinks]
    · rw [hu.avail_eq, h.avail_eq, pass_avail (hexact _)]
    · exact ⟨Function.update_of_ne hb .., rfl, fun _ _ => rfl⟩
  · obtain ⟨m', hrun, hu, -⟩ := passeren_block hl hc hoff ha hw (not_le.mp hi)
    rw [hself] at hrun
    refine ⟨_, hrun, Or.inr ⟨rfl, ?_, Function.update_self .., ?_⟩,
      othersKept_of_views h hu (fun b hb => ?_) _⟩
    · rw [withLists_toLinks, hu.asl.waiting_eq, h.waiting_eq]
      exact Function.update_self ..
    · rw [hu.avail_eq, h.avail_eq, block_avail (hcq a) (hexact _)]
    · refine ⟨Function.update_of_ne hb .., Function.update_of_ne hb .., fun p hp => ?_⟩
      exact Function.update_of_ne (ne_of_mem_of_not_mem hp (hcq b)) ..

/-- What `V` does: it wakes the first of the waiters. -/
theorem verhogen_conserves (hexact : ∀ x, Platform.wrap x = x) (h : WellFormed k.core v)
    (ha : a ≠ 0) (hw : 0 < w) :
    ∃ k' woken rest, (semaphoreOperation a w).run k = .ok () k' ∧
      waiting k.toLinks a = woken ++ rest ∧ waiting k'.toLinks a = rest ∧
      readyList k' = readyList k ++ woken ∧
      k'.avail a = k.avail a + w - demand k.resWait woken ∧ OthersKept k k' a ∧
      (0 ≤ k.avail a → 0 ≤ k'.avail a) := by
  have hl : Lists k.toLinks v := h.lists
  have hself := h.withLists
  obtain ⟨m', t, hrun, hu, hr, -⟩ := verhogen_run (k := k) (a := a) (w := w) hl h.ready
  rw [hself] at hrun
  obtain ⟨rest, hrest⟩ := woken_initial v a w
  have hreq : k.resWait = v.request := h.request
  refine ⟨_, v.woken a w, rest, (semaphoreOperation_pos ha hw).trans hrun, ?_, ?_, ?_, ?_,
    othersKept_of_views h hu (fun b hb => ?_) _, fun h0 => ?_⟩
  · rw [h.waiting_eq, hrest]
  · rw [withLists_toLinks, hu.asl.waiting_eq, verhogen_queue hrest.symm]
  · rw [h.readyList_eq, ← verhogen_ready]
    exact Ring.members_eq hr.ring (queue_length_le (m := m') hr.ring)
  · rw [hu.avail_eq, h.avail_eq, hreq,
      verhogen_avail hrest.symm (hl.queues.nodup a) (hexact _)]
  · refine ⟨verhogen_value_of_ne hb, verhogen_queue_of_ne hb, fun p hp => verhogen_request fun hm =>
      ?_⟩
    have hplace := hl.woken_blocked hm
    rw [(hl.mem_queue p b).mp hp] at hplace
    exact hb (Place.blocked.inj hplace)
  · rw [h.avail_eq] at h0
    rw [hu.avail_eq]
    exact (verhogen_stop (hl.requests_neg a) (hl.queues.nodup a) h0 hw
      ⟨hexact _, fun x _ _ => hexact x, fun x _ _ => hexact x⟩).1

/-- Termination, if it returns, leaves the units of the user semaphores. -/
theorem terminateProcess_conserves (hexact : ∀ x, Platform.wrap x = x) (h : WellFormed k.core v)
    (hc : k.currentProcess = some c) (ha : isDeviceSem a = false)
    (hrun : (terminateProcess pid).run k = .ok () k') : k'.avail a = k.avail a := by
  have hl : Lists k.toLinks v := h.lists
  have hkill := terminateProcess_run pid h hc
  cases hterm : terminated k.core c pid with
  | none =>
      rw [hterm, hrun] at hkill
      cases hkill
  | some t =>
      rw [hterm] at hkill
      obtain ⟨ks, k₀, -, -, -, hkilled⟩ := hkill
      rcases hkilled with ⟨e, hfault, -⟩ | ⟨m', q, hok, hrem, -⟩
      · rw [hrun] at hfault
        cases hfault
      · rw [hrun] at hok
        obtain ⟨-, rfl⟩ := Outcome.ok.inj hok
        rw [hrem.lists.avail_eq, h.avail_eq]
        exact killAll_avail hl.queues ha (hl.requests_neg a) fun x _ _ => hexact x

/-- The only other way out of termination, when there is no process to kill, leaves the kernel as it
was. -/
theorem terminateProcess_panic {ctl : Ctl} (h : WellFormed k.core v)
    (hc : k.currentProcess = some c)
    (hrun : (terminateProcess pid).run k = .exit ctl k') : k' = k := by
  have hkill := terminateProcess_run pid h hc
  cases hterm : terminated k.core c pid with
  | none =>
      rw [hterm, hrun] at hkill
      exact (Outcome.exit.inj hkill).2
  | some t =>
      rw [hterm] at hkill
      obtain ⟨ks, k₀, -, -, -, hkilled⟩ := hkill
      rcases hkilled with ⟨e, hfault, -⟩ | ⟨m', q, hok, -⟩
      · rw [hrun] at hfault
        cases hfault
      · rw [hrun] at hok
        cases hok

/-- The kernels that `P`, `V` and termination lead to from an initial one, each of them called on
tables that are in order, when other code leaves the user semaphores and their waiters alone. -/
inductive UnitsReach : Kernel → Prop where
  | init {k : Kernel} (hint : ∀ a, isDeviceSem a = false → 0 ≤ k.ints a)
      (hq : ∀ a, isDeviceSem a = false → waiting k.toLinks a = []) : UnitsReach k
  | passeren {k k' : Kernel} {c : Pcb} {a : ℕ} {w : ℤ} (h : UnitsReach k) (hk : k.Sound)
      (hc : k.currentProcess = some c) (ha : a ≠ 0) (hw : w < 0)
      (hrun : (semaphoreOperation a w).run k = .ok () k') : UnitsReach k'
  | verhogen {k k' : Kernel} {a : ℕ} {w : ℤ} (h : UnitsReach k) (hk : k.Sound) (ha : a ≠ 0)
      (hw : 0 < w) (hrun : (semaphoreOperation a w).run k = .ok () k') : UnitsReach k'
  | terminate {k k' : Kernel} {c : Pcb} {pid : Word} (h : UnitsReach k) (hk : k.Sound)
      (hc : k.currentProcess = some c) (hrun : (terminateProcess pid).run k = .ok () k') :
      UnitsReach k'
  | other {k k' : Kernel} (h : UnitsReach k)
      (hkept : ∀ a, isDeviceSem a = false → k'.ints a = k.ints a ∧
        waiting k'.toLinks a = waiting k.toLinks a ∧
        ∀ p ∈ waiting k.toLinks a, k'.resWait p = k.resWait p) : UnitsReach k'

omit [Platform] in
theorem avail_congr {b : ℕ} (hkept : k'.ints b = k.ints b ∧
    waiting k'.toLinks b = waiting k.toLinks b ∧
      ∀ p ∈ waiting k.toLinks b, k'.resWait p = k.resWait p) : k'.avail b = k.avail b := by
  obtain ⟨hint, hq, hreq⟩ := hkept
  rw [Kernel.avail, Kernel.avail, hint, hq, demand_congr hreq]

/-- A request that passes finds its units. -/
theorem passeren_nonneg (hexact : ∀ x, Platform.wrap x = x) (h : WellFormed k.core v)
    (hc : k.currentProcess = some c) (ha : a ≠ 0) (hw : w < 0) (h0 : 0 ≤ k.avail a)
    (hrun : (semaphoreOperation a w).run k = .ok () k') : 0 ≤ k'.avail a := by
  have hl : Lists k.toLinks v := h.lists
  have hself := h.withLists
  obtain ⟨hoff, -⟩ := h.current c hc
  rw [semaphoreOperation_neg ha hw] at hrun
  by_cases hi : 0 ≤ v.credit a w
  · have hpass := passeren_pass (k := k) (m := k.toLinks) hi
    rw [hself, hrun] at hpass
    obtain ⟨-, rfl⟩ := Outcome.ok.inj hpass
    have hu := hl.setValue (a := a) (v.credit a w)
    rw [hu.avail_eq]
    have hvalue : (v.setValue a (v.credit a w)).value a = v.credit a w := Function.update_self ..
    have hdemand := demand_nonneg (hu.requests_neg a)
    rw [View.avail, hvalue]
    omega
  · obtain ⟨m', hblock, hu, -⟩ := passeren_block hl hc hoff ha hw (not_le.mp hi)
    rw [hself, hrun] at hblock
    obtain ⟨-, rfl⟩ := Outcome.ok.inj hblock
    have hcq : c ∉ v.queue a := fun hm => by
      have hplace := (hl.mem_queue c a).mp hm
      rw [hoff] at hplace
      cases hplace
    rw [hu.avail_eq, block_avail hcq (hexact _), ← h.avail_eq]
    exact h0

theorem UnitsReach.nonneg (hexact : ∀ x, Platform.wrap x = x) (h : UnitsReach k)
    (ha : isDeviceSem a = false) : 0 ≤ k.avail a := by
  induction h with
  | init hint hq =>
      rw [Kernel.avail, hq a ha]
      simpa using hint a ha
  | @passeren k k' c b w _ hk hc hb hw hrun ih =>
      obtain ⟨v, hv⟩ := hk
      by_cases hab : a = b
      · subst hab
        exact passeren_nonneg hexact hv hc hb hw ih hrun
      · obtain ⟨k₁, hrun₁, -, hkept⟩ := passeren_conserves hexact hv hc hb hw
        rw [hrun] at hrun₁
        obtain ⟨-, rfl⟩ := Outcome.ok.inj hrun₁
        rw [avail_congr (hkept a hab)]
        exact ih
  | @verhogen k k' b w _ hk hb hw hrun ih =>
      obtain ⟨v, hv⟩ := hk
      obtain ⟨k₁, _, _, hrun₁, -, -, -, -, hkept, hpos⟩ := verhogen_conserves hexact hv hb hw
      rw [hrun] at hrun₁
      obtain ⟨-, rfl⟩ := Outcome.ok.inj hrun₁
      by_cases hab : a = b
      · subst hab
        exact hpos ih
      · rw [avail_congr (hkept a hab)]
        exact ih
  | terminate _ hk hc hrun ih =>
      obtain ⟨v, hv⟩ := hk
      rw [terminateProcess_conserves hexact hv hc ha hrun]
      exact ih
  | other _ hkept ih =>
      rw [avail_congr (hkept a ha)]
      exact ih

end Operations

/-- With exact arithmetic no unit is lost or made: what `P`, `V` and termination do to the units of
their semaphore and of the others, and the units that are left after any sequence of them. -/
theorem units_conserved [Platform] (hexact : ∀ x, Platform.wrap x = x) :
    (∀ k c a w, Kernel.Sound k → k.currentProcess = some c → a ≠ 0 → w < 0 →
      ∃ k', (semaphoreOperation a w).run k = .ok () k' ∧ PassedOrBlocked k k' c a w ∧
        OthersKept k k' a) ∧
    (∀ k a w, Kernel.Sound k → a ≠ 0 → 0 < w →
      ∃ k' woken rest, (semaphoreOperation a w).run k = .ok () k' ∧
        waiting k.toLinks a = woken ++ rest ∧ waiting k'.toLinks a = rest ∧
        readyList k' = readyList k ++ woken ∧
        k'.avail a = k.avail a + w - demand k.resWait woken ∧ OthersKept k k' a) ∧
    (∀ k c pid, Kernel.Sound k → k.currentProcess = some c →
      (∀ k', (terminateProcess pid).run k = .ok () k' →
        ∀ a, isDeviceSem a = false → k'.avail a = k.avail a) ∧
      ∀ ctl k', (terminateProcess pid).run k = .exit ctl k' → k' = k) ∧
    ∀ k, UnitsReach k → ∀ a, isDeviceSem a = false → 0 ≤ k.avail a := by
  refine ⟨?_, ?_, ?_, ?_⟩
  · rintro k c a w ⟨v, hv⟩ hc ha hw
    exact passeren_conserves hexact hv hc ha hw
  · rintro k a w ⟨v, hv⟩ ha hw
    obtain ⟨k', woken, rest, hrun, hq, hq', hready, havail, hkept, -⟩ :=
      verhogen_conserves hexact hv ha hw
    exact ⟨k', woken, rest, hrun, hq, hq', hready, havail, hkept⟩
  · rintro k c pid ⟨v, hv⟩ hc
    exact ⟨fun k' hrun a ha => terminateProcess_conserves hexact hv hc ha hrun,
      fun ctl k' hrun => terminateProcess_panic hv hc hrun⟩
  · intro k hk a ha
    exact hk.nonneg hexact ha

section Board

attribute [local instance] exactBoard

/-- The first process asks for a unit. -/
theorem units_conserved_first :
    ∃ k k' : Kernel, k.Sound ∧ (semaphoreOperation 0x5000 (-1)).run k = .ok () k' ∧
      PassedOrBlocked k k' 0 0x5000 (-1) := by
  obtain ⟨s, hs, hcur⟩ := nucleus_run (B := fun _ => True) (C := SparesReady) trivial atBoot_zero
    [.dispatch] (fun s => s.kernel.currentProcess = some 0) (by decide +kernel)
  obtain ⟨v, hrep⟩ := nucleus_rep hs
  have hsound : s.kernel.Sound := ⟨v, hrep.toWellFormed⟩
  obtain ⟨k', hrun, hpassed, -⟩ := (units_conserved fun _ => rfl).1 s.kernel 0 0x5000 (-1) hsound
    (of_decide_eq_true hcur) (by decide) (by decide)
  exact ⟨s.kernel, k', hsound, hrun, hpassed⟩

end Board

end JaeOS
