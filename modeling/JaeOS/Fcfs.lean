import JaeOS.RoundRobin
import JaeOS.Wakeups

/-!
# First come, first served

Who gets the units of a semaphore, over whole runs. The waiters of any semaphore are woken in the
order of their queue. Outside `device_sem`, where nobody waits for units that are free, no caller
passes a waiter either, and a waiter is served as soon as `V` has supplied what it and those before
it have asked for.
-/

open LinkRing LinkForest Transition Fifo

namespace JaeOS

def Sys.waiters (a : ℕ) (s : Sys) : List Pcb := waiting s.kernel.toLinks a

def wokenFrom (a : ℕ) (x : Sys × Event × Sys) : List Pcb := (x.1.waiters a).filter (· ∈ x.2.2.ready)

/-- The caller of a `P` on `a` that is not made to wait. -/
def admitted [Platform] (a : ℕ) (x : Sys × Event × Sys) : List Pcb :=
  match x.2.1.act x.1.kernel with
  | some (.passeren b _) =>
    if b = a then x.1.kernel.currentProcess.toList.filter (· ∉ x.2.2.waiters a) else []
  | _ => []

def Act.supply (a : ℕ) : Act → ℤ
  | .verhogen b w => if b = a then w else 0
  | _ => 0

def Event.supplies [Platform] (a : ℕ) (k : Kernel) (e : Event) : ℤ :=
  ((e.act k).map (·.supply a)).getD 0

def supplied [Platform] (a : ℕ) (x : Sys × Event × Sys) : ℤ := x.2.1.supplies a x.1.kernel

/-- The units that are missing until `p` has what it asks for, and those before it too. -/
def Sys.lacks (a : ℕ) (p : Pcb) (s : Sys) : ℤ :=
  demand s.kernel.resWait (ahead p (s.waiters a) ++ [p]) - s.kernel.avail a

def View.lacks (v : View) (a : ℕ) (p : Pcb) : ℤ :=
  demand v.request (ahead p (v.queue a) ++ [p]) - v.avail a

section Views

variable [Platform] {v v' : View} {act : Act} {acts : List Act} {κ : Core} {flag : Flag}
    {a : ℕ} {p : Pcb}
  {l : List Pcb}

structure Rouses (a : ℕ) (l : List Pcb) (v v' : View) : Prop where
  queue : v.queue a = l ++ v'.queue a
  ready : ∀ x ∈ l, x ∈ v'.ready

omit [Platform] in
theorem Rouses.of_queue (h : v'.queue a = v.queue a) : Rouses a [] v v' := ⟨h.symm, nofun⟩

/-- `V` wakes the first waiters. -/
theorem verhogen_rouses_self (a : ℕ) (w : ℤ) : Rouses a (v.woken a w) v (v.verhogen a w) := by
  obtain ⟨rest, hrest⟩ := woken_initial v a w
  refine ⟨?_, fun x hx => ?_⟩
  · rw [verhogen_queue hrest.symm, hrest]
  · rw [verhogen_ready]
    exact List.mem_append_right _ hx

theorem verhogen_rouses (b : ℕ) (w : ℤ) : ∃ l, Rouses a l v (v.verhogen b w) := by
  by_cases hab : a = b
  · subst hab
    exact ⟨_, verhogen_rouses_self a w⟩
  · exact ⟨[], .of_queue (verhogen_queue_of_ne hab)⟩

/-- The moves of the nucleus itself only wake the first waiters. -/
theorem Move.internal_rouses (hm : Move act v v') (hact : act.internal) : ∃ l, Rouses a l v v' := by
  cases hm with
  | full => exact ⟨[], .of_queue rfl⟩
  | create => cases hact
  | terminate => cases hact
  | pass => exact ⟨[], .of_queue rfl⟩
  | block => cases hact
  | verhogen => exact verhogen_rouses _ _
  | noSignal => exact ⟨[], .of_queue rfl⟩
  | signal => exact verhogen_rouses _ _
  | requeue => exact ⟨[], .of_queue rfl⟩
  | load => exact ⟨[], .of_queue rfl⟩

theorem internal_rouses (hsteps : Steps Move acts v v') (hacts : ∀ act ∈ acts, act.internal)
    (hload : .load ∉ acts) : ∃ l, Rouses a l v v' := by
  refine hsteps.invariant (I := fun u => ∃ l, Rouses a l v u) (fun act hact t u ht hm => ?_)
    ⟨[], .of_queue rfl⟩
  obtain ⟨l, hl⟩ := ht
  obtain ⟨l', hl'⟩ := hm.internal_rouses (a := a) (hacts act hact)
  obtain ⟨new, hnew⟩ := hm.ready_grows (hacts act hact) fun he => hload (he ▸ hact)
  refine ⟨l ++ l', ?_, fun x hx => ?_⟩
  · rw [hl.queue, hl'.queue, List.append_assoc]
  · rcases List.mem_append.mp hx with hx | hx
    · rw [hnew]
      exact List.mem_append_left new (hl.ready x hx)
    · exact hl'.ready x hx

theorem dispatch_queue (hsteps : Steps Move (dispatchActs κ flag) v v') : v'.queue = v.queue := by
  refine hsteps.invariant (I := fun u => u.queue = v.queue) (fun act hact t u ht hm => ?_) rfl
  have hkind : act = .requeue ∨ act = .load := by
    unfold dispatchActs at hact
    split at hact
    · cases hact
    · split at hact
      · simpa using hact
      · split at hact
        · exact Or.inr (List.mem_singleton.mp hact)
        · cases hact
  rcases hkind with rfl | rfl
  · cases hm with
    | requeue => exact ht
  · cases hm with
    | load => exact ht

omit [Platform] in
theorem Orderly.not_ready (hv : Orderly v) (hp : p ∈ v.queue a) : p ∉ v.ready := by
  rw [hv.mem_ready, (hv.mem_queue p a).mp hp]
  simp

omit [Platform] in
/-- Those who are woken are those who are found ready. -/
theorem Rouses.filter_eq (h : Rouses a l v v') (hv' : Orderly v') :
    (v.queue a).filter (· ∈ v'.ready) = l := by
  rw [h.queue, List.filter_append, List.filter_eq_self.mpr fun x hx => decide_eq_true
    (h.ready x hx),
    List.filter_eq_nil_iff.mpr fun x hx => by simpa using hv'.not_ready hx, List.append_nil]

omit [Platform] in
theorem Rouses.keepsTurn (h : Rouses a l v v') (hv : Orderly v) (hv' : Orderly v')
    (hp : p ∈ v'.queue a) :
    KeepsTurn p ((v.queue a).filter (· ∈ v'.ready)) (v.queue a) (v'.queue a) := by
  have hnodup := hv.queue_nodup a
  rw [h.filter_eq hv']
  rw [h.queue] at hnodup ⊢
  exact .serve hnodup hp

/-- A move lets no waiter overtake another. -/
theorem OrderlyMove.queue_keepsTurn (hm : OrderlyMove act v v') (hv' : Orderly v')
    (hp : p ∈ v.queue a)
    (hp' : p ∈ v'.queue a) : KeepsTurn p ((v.queue a).filter (· ∈ v'.ready)) (v.queue a)
      (v'.queue a) := by
  obtain ⟨hv, hmove⟩ := hm
  have hnone (h : ∀ x ∈ v.queue a, x ∉ v'.ready) : (v.queue a).filter (· ∈ v'.ready) = [] :=
    List.filter_eq_nil_iff.mpr fun x hx => by simpa using h x hx
  have hsame (h : v'.queue a = v.queue a) :
      KeepsTurn p ((v.queue a).filter (· ∈ v'.ready)) (v.queue a) (v'.queue a) :=
    (Rouses.of_queue h).keepsTurn hv hv' hp'
  cases hmove with
  | full => exact hsame rfl
  | create => exact hsame rfl
  | @terminate _ t ks =>
      have hqueues : v.Queues := ⟨hv.mem_queue, hv.queue_nodup⟩
      have hqueue : (v.terminate t ks).queue a = (v.queue a).filter (· ∉ ks.postorder ++ [t]) :=
        killAll_queue hqueues
      have hready : (v.terminate t ks).ready = v.ready.filter (· ∉ ks.postorder ++ [t]) :=
        killAll_ready_eq hv.ready_nodup
      rw [hnone fun x hx hxr => hv.not_ready hx (List.mem_of_mem_filter (hready ▸ hxr))]
      refine .leave ?_ (hv.queue_nodup a) hp'
      rw [hqueue]
      exact List.filter_sublist
  | pass => exact hsame rfl
  | @block _ b w c =>
      rw [hnone fun x hx hxr => hv.not_ready hx hxr]
      by_cases hab : a = b
      · subst hab
        have hqueue : ((v.setValue a (v.credit a w)).block c a w).queue a = v.queue a ++ [c] :=
          Function.update_self ..
        rw [hqueue]
        exact .join hp
      · have hqueue : ((v.setValue b (v.credit b w)).block c b w).queue a = v.queue a :=
          Function.update_of_ne hab ..
        rw [hqueue]
        exact .refl hp
  | verhogen =>
      obtain ⟨l, hl⟩ := verhogen_rouses (v := v) (a := a) _ _
      exact hl.keepsTurn hv hv' hp'
  | noSignal => exact hsame rfl
  | signal =>
      obtain ⟨l, hl⟩ := verhogen_rouses (v := v) (a := a) _ _
      exact hl.keepsTurn hv hv' hp'
  | requeue => exact hsame rfl
  | load => exact hsame rfl

/-! ### What a waiter lacks -/

omit [Platform] in
/-- Fewer processes ask for fewer units. -/
theorem demand_mono {r : Pcb → ℤ} {l l' : List Pcb} (h : l.Sublist l') (hneg : ∀ x ∈ l', r x < 0) :
    demand r l ≤ demand r l' := by
  refine (h.map fun x => -r x).sum_le_sum fun y hy => ?_
  obtain ⟨x, hx, rfl⟩ := List.mem_map.mp hy
  have hx' := hneg x hx
  omega

omit [Platform] in
theorem ahead_snoc_subset (hp : p ∈ v.queue a) : ahead p (v.queue a) ++ [p] ⊆ v.queue a := by
  refine List.append_subset.mpr ⟨ahead_subset, ?_⟩
  simpa using hp

omit [Platform] in
/-- A waiter lacks something as long as the first one does. -/
theorem Settled.lacks_pos (h : Settled v a) (hv : Orderly v) (hp : p ∈ v.queue a) :
    0 < v.lacks a p := by
  have hneg : ∀ x ∈ v.queue a, v.request x < 0 := hv.requests_neg a
  cases hq : v.queue a with
  | nil =>
      rw [hq] at hp
      cases hp
  | cons x l =>
      have hfirst := h.starved x l hq
      have hsub : List.Sublist [x] (ahead p (v.queue a) ++ [p]) := by
        rw [hq]
        by_cases hx : x = p
        · subst hx
          rw [ahead_cons_self, List.nil_append]
        · rw [ahead_cons_of_ne hx, List.cons_append]
          exact (List.nil_sublist _).cons_cons x
      have hle := demand_mono hsub fun y hy => hneg y (ahead_snoc_subset hp hy)
      rw [demand_cons, demand_nil] at hle
      rw [View.lacks]
      omega

/-- Nobody passes a waiter. -/
theorem Settled.credit_neg (h : Settled v a) (hv : Orderly v) (hp : p ∈ v.queue a) {w : ℤ}
    (hw : w < 0)
    (hexact : Platform.wrap (v.value a + w) = v.value a + w) : v.credit a w < 0 := by
  have hlacks := h.lacks_pos hv hp
  have hle : demand v.request (ahead p (v.queue a) ++ [p]) ≤ demand v.request (v.queue a) := by
    obtain ⟨rest, hrest⟩ := ahead_append_self hp
    refine demand_mono ?_ (hv.requests_neg a)
    conv_rhs => rw [hrest]
    exact (List.Sublist.refl _).append ((List.nil_sublist rest).cons_cons p)
  rw [View.lacks, View.avail] at hlacks
  rw [View.credit, hexact]
  omega

omit [Platform] in
theorem SameSemaphore.lacks_eq (h : SameSemaphore v v' a) (hp : p ∈ v.queue a) :
    v'.lacks a p = v.lacks a p := by
  rw [View.lacks, View.lacks, h.avail_eq, h.queue,
    demand_congr fun x hx => h.request x (ahead_snoc_subset hp hx)]

/-- While `p` waits every `V` brings it nearer, by all the units that it supplies. -/
theorem OrderlyMove.lacks_le (hm : OrderlyMove act v v') (ha : isDeviceSem a = false)
    (hset : Settled v a)
    (hcare : Careful act v) (hp : p ∈ v.queue a) (hp' : p ∈ v'.queue a) :
    v'.lacks a p + act.supply a ≤ v.lacks a p := by
  have hother (htarget : act.target ≠ some a) (hkill : ∀ t, act ≠ .terminate t) :
      v'.lacks a p + act.supply a ≤ v.lacks a p := by
    have hnone : act.supply a = 0 := by
      cases act with
      | verhogen b w => exact if_neg fun hb => htarget (congrArg some hb)
      | _ => rfl
    rw [(semaphore_frame hm htarget hkill).lacks_eq hp, hnone, add_zero]
  obtain ⟨hv, hmove⟩ := hm
  have hneg : ∀ x ∈ v.queue a, v.request x < 0 := hv.requests_neg a
  cases hmove with
  | full => exact hother (fun he => by cases he) (fun _ he => by cases he)
  | create => exact hother (fun he => by cases he) (fun _ he => by cases he)
  | @terminate _ t ks hks =>
      have hqueues : v.Queues := ⟨hv.mem_queue, hv.queue_nodup⟩
      have hqueue : (v.terminate t ks).queue a = (v.queue a).filter (· ∉ ks.postorder ++ [t]) :=
        killAll_queue hqueues
      have havail : (v.terminate t ks).avail a = v.avail a :=
        killAll_avail hqueues ha hneg (hcare ks hks a ha).1
      have hreq : (v.terminate t ks).request = v.request := killAll_request
      have hsub : (ahead p ((v.terminate t ks).queue a)).Sublist (ahead p (v.queue a)) := by
        rw [hqueue] at hp' ⊢
        exact ahead_sublist List.filter_sublist (hv.queue_nodup a) hp'
      have hle := demand_mono (hsub.append (.refl [p])) fun y hy => hneg y (ahead_snoc_subset hp hy)
      change View.lacks _ a p + 0 ≤ _
      rw [View.lacks, View.lacks, havail, hreq]
      omega
  | @pass _ b w hw hi =>
      by_cases hb : b = a
      · subst hb
        exact absurd hi (not_le.mpr (hset.credit_neg hv hp hw (hcare ha)))
      · exact hother (fun he => hb (Option.some.inj he)) (fun _ he => by cases he)
  | @block _ b w c hw hi hb0 hc =>
      by_cases hb : b = a
      · subst hb
        have hcq : c ∉ v.queue b := by simp [hv.mem_queue, hc]
        have hqueue : ((v.setValue b (v.credit b w)).block c b w).queue b = v.queue b ++ [c] :=
          Function.update_self ..
        have hreq : demand ((v.setValue b (v.credit b w)).block c b w).request
            (ahead p (v.queue b) ++ [p]) =
            demand v.request (ahead p (v.queue b) ++ [p]) :=
          demand_congr fun x hx =>
            Function.update_of_ne (ne_of_mem_of_not_mem (ahead_snoc_subset hp hx) hcq) ..
        change View.lacks _ b p + 0 ≤ _
        rw [View.lacks, View.lacks, hqueue, ahead_append_of_mem hp, hreq,
          block_avail hcq (hcare ha)]
        omega
      · exact hother (fun he => hb (Option.some.inj he)) (fun _ he => by cases he)
  | @verhogen _ b w hw =>
      by_cases hb : b = a
      · subst hb
        obtain ⟨rest, hrest⟩ := woken_initial v b w
        rw [verhogen_queue hrest.symm] at hp'
        have hnodup := hv.queue_nodup b
        have hpw : p ∉ v.woken b w := by
          rw [← hrest] at hnodup
          exact fun hm => (List.nodup_append'.mp hnodup).2.2 hm hp'
        have hreq : demand (v.verhogen b w).request (ahead p rest ++ [p]) =
            demand v.request (ahead p rest ++ [p]) := by
          refine demand_congr fun x hx => verhogen_request fun hm => ?_
          have hxr : x ∈ rest := by
            rcases List.mem_append.mp hx with hx | hx
            · exact ahead_subset hx
            · exact List.mem_singleton.mp hx ▸ hp'
          rw [← hrest] at hnodup
          exact (List.nodup_append'.mp hnodup).2.2 hm hxr
        have havail := verhogen_avail hrest.symm hnodup (hcare ha).value
        have hahead : ahead p (v.queue b) = v.woken b w ++ ahead p rest := by
          rw [← hrest, ahead_append_of_notMem hpw]
        rw [View.lacks, View.lacks, verhogen_queue hrest.symm, hreq, havail, hahead,
          List.append_assoc,
          demand_append (l := v.woken b w)]
        simp only [Act.supply, if_true]
        omega
      · exact hother (fun he => hb (Option.some.inj he)) (fun _ he => by cases he)
  | noSignal => exact (add_zero _).le
  | @signal _ b =>
      refine hother (fun he => ?_) (fun _ he => by cases he)
      obtain rfl := Option.some.inj he
      rw [show isDeviceSem b = true from hcare] at ha
      cases ha
  | requeue => exact hother (fun he => by cases he) (fun _ he => by cases he)
  | load => exact hother (fun he => by cases he) (fun _ he => by cases he)

end Views

section Steps

variable [Platform] {s s' : Sys} {e : Event} {v : View} {a : ℕ} {p : Pcb}

theorem Event.load_dispatch {acts : List Act} (h : e.acts s.kernel acts) (hm : .load ∈ acts) :
    acts = dispatchActs s.kernel.core s.kernel.flag := by
  have hsw : switches (s, e, s) = true := Event.load_switches h hm
  cases e with
  | dispatch => exact h
  | syscall hw => cases hsw
  | pgmtrap hw => cases hsw
  | tlb hw => cases hsw
  | interrupt hw => cases hsw

/-- No step lets a waiter overtake another. -/
theorem Sys.step_wakes (h : Rep s.kernel.core v) (hs : SparesReady s e) (hstep : s.step e = some s')
    (hp : p ∈ s.waiters a) (hp' : p ∈ s'.waiters a) :
    KeepsTurn p (wokenFrom a (s, e, s')) (s.waiters a) (s'.waiters a) := by
  obtain ⟨acts, v', hacts, hsteps, hrep'⟩ := nucleus_simulation (B := fun _ => True).step h hs hstep
  have hmoves : Steps Move acts v v' := hsteps.imp fun _ _ _ hm => hm.2
  unfold wokenFrom Sys.waiters Sys.ready at *
  rw [h.waiting_eq] at hp ⊢
  rw [hrep'.waiting_eq] at hp' ⊢
  rw [hrep'.readyList_eq]
  rcases Event.acts_cases hacts with rfl | hinternal
  · cases hact : e.act s.kernel with
    | none =>
        rw [hact] at hmoves
        obtain rfl := steps_nil.mp hmoves
        exact (Rouses.of_queue rfl).keepsTurn h.orderly h.orderly hp
    | some act =>
        rw [hact] at hsteps
        exact (steps_single.mp hsteps).queue_keepsTurn hrep'.orderly hp hp'
  · by_cases hload : .load ∈ acts
    · rw [Event.load_dispatch hacts hload] at hmoves
      have hqueue : v'.queue a = v.queue a := congrFun (dispatch_queue hmoves) a
      exact (Rouses.of_queue hqueue).keepsTurn h.orderly hrep'.orderly hp'
    · obtain ⟨l, hl⟩ := internal_rouses (a := a) hmoves hinternal hload
      exact hl.keepsTurn h.orderly hrep'.orderly hp'

/-- The nucleus itself operates on `device_sem` only. -/
theorem Act.internal.target_ne {act : Act} (h : act.internal) (ha : isDeviceSem a = false) :
    act.target ≠ some a := by
  intro htarget
  cases act with
  | signal b =>
      obtain rfl := Option.some.inj htarget
      obtain ⟨i, hi, rfl⟩ := h
      rw [isDeviceSem_semAddr hi] at ha
      cases ha
  | verhogen b w =>
      obtain rfl := Option.some.inj htarget
      rw [h.1, isDeviceSem_semAddr (by decide)] at ha
      cases ha
  | requeue => cases htarget
  | load => cases htarget
  | create => cases h
  | terminate => cases h
  | passeren => cases h

theorem Act.internal.ne_terminate {act : Act} (h : act.internal) (t : Pcb) :
    act ≠ .terminate t := by
  rintro rfl
  cases h

omit [Platform] in
theorem Rep.lacks_eq (h : Rep s.kernel.core v) : s.lacks a p = v.lacks a p := by
  have hreq : s.kernel.resWait = v.request := h.request
  rw [Sys.lacks, Sys.waiters, h.waiting_eq, h.toWellFormed.avail_eq, hreq]
  rfl

theorem nucleus_settled (h : Reach (nucleus UserUnits) KeepsWaiters s) :
    ∃ v, Rep s.kernel.core v ∧ ∀ a, isDeviceSem a = false → Settled v a := by
  refine nucleus_view_of (fun _ _ hk => hk.ready) (fun _ _ _ _ hrep hk hact => hk.careful hrep hact)
    (fun _ _ hact => hact.careful) (fun k hk a ha => settled_of_empty rfl ?_)
    (fun _ _ _ hI hcare hm => settled_move hI hcare hm) h
  change 0 ≤ bootInts k.ints a
  rw [bootInts_user k.ints ha]
  exact hk a ha

/-- No step lets a caller pass the waiter, and `V` brings it nearer. -/
theorem Sys.step_supplies (h : Rep s.kernel.core v) (hset : Settled v a)
    (ha : isDeviceSem a = false)
    (hk : KeepsWaiters s e) (hstep : s.step e = some s') (hp : p ∈ s.waiters a)
    (hp' : p ∈ s'.waiters a) :
    admitted a (s, e, s') = [] ∧ s'.lacks a p + supplied a (s, e, s') ≤ s.lacks a p := by
  obtain ⟨acts, v', hacts, hsteps, hrep'⟩ :=
    nucleus_simulation (B := fun _ => True).step h hk.ready hstep
  rw [h.lacks_eq, hrep'.lacks_eq]
  unfold supplied Event.supplies admitted Sys.waiters at *
  rw [h.waiting_eq] at hp
  rw [hrep'.waiting_eq] at hp' ⊢
  rcases Event.acts_split hacts with rfl | ⟨hnone, hinternal⟩
  · cases hact : e.act s.kernel with
    | none =>
        rw [hact] at hsteps
        obtain rfl := steps_nil.mp hsteps
        exact ⟨rfl, (add_zero _).le⟩
    | some act =>
        rw [hact] at hsteps
        have hm := steps_single.mp hsteps
        have hcare : Careful act v := hk.careful h hact
        refine ⟨?_, hm.lacks_le ha hset hcare hp hp'⟩
        cases act with
        | passeren b w =>
            refine ite_eq_right_iff.mpr ?_
            rintro rfl
            obtain ⟨hv, hmove⟩ := hm
            cases hmove with
            | pass hw hi => exact absurd hi (not_le.mpr (hset.credit_neg hv hp hw (hcare ha)))
            | @block _ _ _ c hw hi hb hc =>
                have hqueue : ((v.setValue b (v.credit b w)).block c b w).queue b = v.queue b ++
                    [c] :=
                  Function.update_self ..
                have hcur : s.kernel.currentProcess = some c := (h.off c).mp hc
                simp [hqueue, hcur]
        | _ => rfl
  · rw [hnone]
    refine ⟨rfl, ?_⟩
    have hkept := hsteps.invariant
      (I := fun u => u.queue a = v.queue a ∧ u.lacks a p = v.lacks a p)
        (fun act hact t u ht hm => by
        have hsame :=
          semaphore_frame hm ((hinternal act hact).target_ne ha) (hinternal act hact).ne_terminate
        exact ⟨hsame.queue.trans ht.1, (hsame.lacks_eq (ht.1.symm ▸ hp)).trans ht.2⟩) ⟨rfl, rfl⟩
    rw [hkept.2]
    exact (add_zero _).le

end Steps

section Runs

variable [Platform] {B : Kernel → Prop} {s t : Sys} {a : ℕ} {p : Pcb}
    {tr : List (Sys × Event × Sys)}

/-- The processes that a semaphore, a device's or any other, makes ready while `p` waits are those
who were before `p` in its queue, in their order. -/
theorem woken_in_order (h : Reach (nucleus B) SparesReady s)
    (hrun : Stays (nucleus B) SparesReady (Sys.waiters a) p s tr t) :
    (tr.flatMap (wokenFrom a) ++ ahead p (t.waiters a)).Sublist (ahead p (s.waiters a)) :=
  (hrun.keepsTurn h fun t e u ht hs hstep hp hp' => by
    obtain ⟨v, hrep⟩ := nucleus_rep ht
    exact Sys.step_wakes hrep hs hstep hp hp').order

/-- While `p` waits for a semaphore outside `device_sem` no `P` on it is granted at once, and `V`
supplies less than `p` and those before it lacked, in all: it is served before. -/
theorem served_when_supplied (h : Reach (nucleus UserUnits) KeepsWaiters s)
    (ha : isDeviceSem a = false)
    (hrun : Stays (nucleus UserUnits) KeepsWaiters (Sys.waiters a) p s tr t) :
    (∀ x ∈ tr, admitted a x = []) ∧ 0 < t.lacks a p ∧ t.lacks a p + (tr.map (supplied a)).sum ≤
    s.lacks a p := by
  have hone : ∀ t e u, Reach (nucleus UserUnits) KeepsWaiters t → KeepsWaiters t e →
      t.step e = some u →
      p ∈ t.waiters a → p ∈ u.waiters a →
      admitted a (t, e, u) = [] ∧ u.lacks a p + supplied a (t, e, u) ≤ t.lacks a p := by
    intro t e u ht hk hstep hp hp'
    obtain ⟨v, hrep, hset⟩ := nucleus_settled ht
    exact Sys.step_supplies hrep (hset a ha) ha hk hstep hp hp'
  refine ⟨hrun.forall_mem h fun t e u ht hk hstep hp hp' => (hone t e u ht hk hstep hp hp').1, ?_,
    hrun.sum_le (r := Sys.lacks a p) (c := supplied a) h fun t e u ht hk hstep hp hp' =>
    (hone t e u ht hk hstep hp hp').2⟩
  obtain ⟨v, hrep, hset⟩ := nucleus_settled (hrun.reach h)
  have hp := hrun.mem
  unfold Sys.waiters at hp
  rw [hrep.waiting_eq] at hp
  rw [hrep.lacks_eq]
  exact (hset a ha).lacks_pos hrep.orderly hp

end Runs

section Board

attribute [local instance] uarm

def Act.mild (k : Kernel) : Act → Prop
  | .passeren a w => FitsInt (k.ints a + w)
  | .verhogen a w => FitsInt (k.ints a + w) ∧ FitsInt (k.avail a + w) ∧
      FitsInt (demand k.resWait (waiting k.toLinks a))
  | .create => True
  | _ => False

instance {k : Kernel} {act : Act} : Decidable (act.mild k) := by
  cases act <;> unfold Act.mild <;> infer_instance

def Mild (s : Sys) (e : Event) : Prop := ∀ act ∈ e.act s.kernel, act.mild s.kernel

instance {s : Sys} {e : Event} : Decidable (Mild s e) :=
  inferInstanceAs (Decidable (∀ act ∈ e.act s.kernel, act.mild s.kernel))

theorem Mild.keepsWaiters {s : Sys} {e : Event} (h : Mild s e) : KeepsWaiters s e := by
  have hvictim : e.victim s.kernel = none := by
    unfold Event.victim
    split
    · next t hact => exact (h _ hact).elim
    · rfl
  refine ⟨fun t ht => ?_, ?_, fun t ht => ?_⟩
  · rw [hvictim] at ht
    cases ht
  · unfold NoOverflow
    split
    · next a w hact => exact fun _ => h _ hact
    · next a w hact => exact fun _ => h _ hact
    · next t hact => exact (h _ hact).elim
    · trivial
  · rw [hvictim] at ht
    cases ht

/-- One process waits for two units, another one behind it for one; the first process supplies two,
one by one. -/
theorem waiting_run : ∃ s tr t, Reach (nucleus UserUnits) Mild s ∧
    Stays (nucleus UserUnits) Mild (Sys.waiters 0x5000) 2 s tr t ∧ s.waiters 0x5000 = [1, 2] ∧
      tr.flatMap (wokenFrom 0x5000) = [1] ∧ s.lacks 0x5000 2 = 3 ∧
      (tr.map (supplied 0x5000)).sum = 2 := by
  obtain ⟨s, tr, t, hs, hrun, hQ⟩ := stays_run (B := UserUnits) (C := Mild) (Sys.waiters 0x5000) 2
    (fun _ _ => le_rfl) atBoot_zero [.dispatch, call 1, .dispatch, call 1, .dispatch,
      completion intTimer 0,
      .dispatch, call 3 0x5000 (-2), .dispatch, call 3 0x5000 (-1), .dispatch]
    [call 3 0x5000 1, .dispatch, call 3 0x5000 1]
    (fun s tr _ => s.waiters 0x5000 = [1, 2] ∧ tr.flatMap (wokenFrom 0x5000) = [1] ∧
      s.lacks 0x5000 2 = 3 ∧
      (tr.map (supplied 0x5000)).sum = 2) (by decide +kernel)
  exact ⟨s, tr, t, hs, hrun, of_decide_eq_true hQ⟩

theorem woken_in_order_two : ∃ (s t : Sys) (tr : List (Sys × Event × Sys)),
    s.waiters 0x5000 = [1, 2] ∧
    tr.flatMap (wokenFrom 0x5000) = [1] ∧
    (tr.flatMap (wokenFrom 0x5000) ++ ahead 2 (t.waiters 0x5000)).Sublist
      (ahead 2 (s.waiters 0x5000)) := by
  obtain ⟨s, tr, t, hs, hrun, hq, hwoken, -⟩ := waiting_run
  have hready : ∀ s e, Mild s e → SparesReady s e := fun _ _ hm => hm.keepsWaiters.ready
  exact ⟨s, t, tr, hq, hwoken, woken_in_order (hs.mono hready) (hrun.mono hready)⟩

theorem served_when_supplied_two : ∃ (s t : Sys) (tr : List (Sys × Event × Sys)),
    s.waiters 0x5000 = [1, 2] ∧
    s.lacks 0x5000 2 = 3 ∧ (tr.map (supplied 0x5000)).sum = 2 ∧ 0 < t.lacks 0x5000 2 ∧
    t.lacks 0x5000 2 + (tr.map (supplied 0x5000)).sum ≤ s.lacks 0x5000 2 := by
  obtain ⟨s, tr, t, hs, hrun, hq, -, hlacks, hsum⟩ := waiting_run
  have hkeeps : ∀ s e, Mild s e → KeepsWaiters s e := fun _ _ hm => hm.keepsWaiters
  exact ⟨s, t, tr, hq, hlacks, hsum,
    (served_when_supplied (hs.mono hkeeps) (by decide) (hrun.mono hkeeps)).2⟩

end Board

end JaeOS
