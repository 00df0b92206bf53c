import JaeOS.Board
import JaeOS.Supply

/-!
# The semaphores of the sub-devices

The value of such a semaphore counts the commands that are not completed. An interrupt concludes
from a value below 1 that a process waits, and wakes it. Termination removes waiters but leaves the
value as it is: the two agree as long as no queue is emptied by it.
-/

open LinkRing LinkForest Transition

namespace JaeOS

/-- The commands of `l` are not completed. Waiters are missing where they have been killed; if
`whole`, none is. -/
structure Metered (whole : Prop) (v : View) (a : ℕ) (l : List Pcb) : Prop where
  value : v.value a = -l.length
  request : ∀ p ∈ v.queue a, v.request p = -1
  length_le : (v.queue a).length ≤ l.length
  waiter : l ≠ [] → v.queue a ≠ []
  queue : whole → v.queue a = l
  fits : l.length ≤ 2 ^ 31

section Views

variable [Platform] {v v' u : View} {a : ℕ} {c p : Pcb} {l ks : List Pcb} {whole : Prop}

omit [Platform] in
theorem Metered.congr (h : Metered whole v a l) (hs : SameSemaphore v u a) :
    Metered whole u a l := by
  obtain ⟨hvalue, hqueue, hrequest⟩ := hs
  refine ⟨hvalue.trans h.value, fun p hp => ?_, ?_, ?_, ?_, h.fits⟩
  · rw [hqueue] at hp
    rw [hrequest p hp]
    exact h.request p hp
  · rw [hqueue]
    exact h.length_le
  · rw [hqueue]
    exact h.waiter
  · rw [hqueue]
    exact h.queue

omit [Platform] in
theorem Orderly.queue_length_le (h : Orderly v) (a : ℕ) : (v.queue a).length ≤ maxproc := by
  have hle := (h.queue_nodup a).length_le_card
  rwa [Fintype.card_fin] at hle

/-- A process that asks for the device has to wait. -/
theorem Metered.passeren (h : Metered whole v a l) (hfits : l.length < 2 ^ 31)
    (hm : Move (.passeren a (-1)) v v') :
    ∃ c, v.place c = .off ∧ Metered whole v' a (l ++ [c]) := by
  have hcredit : v.credit a (-1) = -l.length - 1 := by
    have hwrap := Platform.wrap_eq (-(l.length : ℤ) - 1) (by omega) (by omega)
    rwa [View.credit, h.value]
  cases hm with
  | pass hw hi => omega
  | @block _ _ _ c hw hi ha hc =>
      have hqueue : ((v.setValue a (v.credit a (-1))).block c a (-1)).queue a = v.queue a ++ [c] :=
        Function.update_self ..
      have hvalue : ((v.setValue a (v.credit a (-1))).block c a (-1)).value a = v.credit a (-1) :=
        Function.update_self ..
      refine ⟨c, hc, ?_, fun p hp => ?_, ?_, fun _ => ?_, fun hwhole => ?_, ?_⟩
      · rw [hvalue, hcredit, List.length_append, List.length_singleton]
        omega
      · by_cases hpc : p = c
        · rw [hpc]
          exact Function.update_self ..
        · rw [hqueue, List.mem_append, List.mem_singleton, or_iff_left hpc] at hp
          exact (Function.update_of_ne hpc ..).trans (h.request p hp)
      · rw [hqueue, List.length_append, List.length_append]
        exact Nat.add_le_add_right h.length_le _
      · rw [hqueue]
        exact List.append_ne_nil_of_right_ne_nil _ (List.cons_ne_nil c [])
      · rw [hqueue, h.queue hwhole]
      · rw [List.length_append, List.length_singleton]
        omega

/-- What `V` has at hand for the queue: one unit if no waiter is missing, and none otherwise. -/
theorem Metered.supply_eq (h : Metered whole v a l) (hv : Orderly v) (hl : l ≠ []) :
    v.supply a 1 = (v.queue a).length - l.length + 1 := by
  have hpos := List.length_pos_iff.mpr hl
  have hfits := h.fits
  have hle : (v.queue a).length ≤ 20 := hv.queue_length_le a
  have hdemand := demand_units h.request
  have havail : v.avail a + 1 = (v.queue a).length - l.length + 1 := by
    rw [View.avail, hdemand, h.value]
    omega
  rw [← havail]
  apply JaeOS.supply_eq (hv.requests_neg a)
  · rw [h.value]
    exact Platform.wrap_eq _ (by omega) (by omega)
  · rw [hdemand]
    exact exactOn_of_range (by omega) (by omega)
  · rw [havail]
    exact Platform.wrap_eq _ (by omega) (by omega)

theorem wakeups_one {r : Pcb → ℤ} (hp : r p = -1) : wakeups r 1 (p :: l) = [p] := by
  have hminus : Platform.wrap (-1) = -1 := Platform.wrap_eq _ (by omega) (by omega)
  have hzero : Platform.wrap (1 + -1) = 0 := Platform.wrap_eq 0 (by omega) (by omega)
  rw [wakeups, hp, hminus, hzero]
  cases l <;> simp [wakeups]

theorem wakeups_nonpos {r : Pcb → ℤ} {s : ℤ} (hneg : ∀ p ∈ l, r p < 0) (hs : s ≤ 0)
    (hfits : -s < 2 ^ 31) : wakeups r s l = [] := by
  have hminus : Platform.wrap (-s) = -s := Platform.wrap_eq _ (by omega) hfits
  cases l with
  | nil => rfl
  | cons p l =>
      have hp := hneg p List.mem_cons_self
      rw [wakeups, hminus, if_neg]
      omega

/-- A completed command: the first waiter is woken if no waiter is missing, and nobody otherwise. -/
theorem Metered.signal (h : Metered whole v a l) (hv : Orderly v) (hm : Move (.signal a) v v') :
    l ≠ [] ∧ Metered whole v' a l.tail ∧
      (whole → ∃ p, v.queue a = p :: v'.queue a ∧ v'.ready = v.ready ++ [p]) := by
  have hvalue := h.value
  have hfits := h.fits
  have hlen := h.length_le
  have hle : (v.queue a).length ≤ 20 := hv.queue_length_le a
  cases hm with
  | noSignal hi => omega
  | signal hi hq =>
      have hqpos := List.length_pos_iff.mpr hq
      have hl : l ≠ [] := List.length_pos_iff.mp (by omega)
      have hsupply := h.supply_eq hv hl
      have hcredit : v.credit a 1 = -l.length + 1 := by
        rw [View.credit, hvalue]
        exact Platform.wrap_eq _ (by omega) (by omega)
      have htail := List.length_tail (l := l)
      have hnewvalue : (v.verhogen a 1).value a = -l.tail.length := by
        rw [verhogen_value, hcredit]
        omega
      have hnewfits : l.tail.length ≤ 2 ^ 31 := by omega
      have htailpos : l.tail ≠ [] → 2 ≤ l.length := by
        intro ht
        have := List.length_pos_iff.mpr ht
        omega
      by_cases hall : (v.queue a).length = l.length
      · obtain ⟨p, r, hpr⟩ := List.exists_cons_of_ne_nil hq
        have hp : v.request p = -1 := h.request p (hpr ▸ List.mem_cons_self)
        have hwoken : v.woken a 1 = [p] := by
          rw [View.woken, hsupply, hall, sub_self, zero_add, hpr]
          exact wakeups_one hp
        have hqueue : (v.verhogen a 1).queue a = r :=
          verhogen_queue (by rw [hwoken, hpr, List.singleton_append])
        have hready : (v.verhogen a 1).ready = v.ready ++ [p] := by rw [verhogen_ready, hwoken]
        have hnd := hv.queue_nodup a
        rw [hpr] at hnd hall
        rw [List.length_cons] at hall
        refine ⟨hl, ⟨hnewvalue, fun q hqr => ?_, ?_, fun ht => ?_, fun hwhole => ?_, hnewfits⟩,
          fun _ => ⟨p, by rw [hqueue, hpr], hready⟩⟩
        · rw [hqueue] at hqr
          have hqp : q ∉ v.woken a 1 := by
            rw [hwoken, List.mem_singleton]
            rintro rfl
            exact (List.nodup_cons.mp hnd).1 hqr
          rw [verhogen_request hqp]
          exact h.request q (hpr ▸ List.mem_cons_of_mem p hqr)
        · rw [hqueue]
          omega
        · have hlong := htailpos ht
          rw [hqueue]
          exact List.length_pos_iff.mp (by omega)
        · rw [hqueue, ← h.queue hwhole, hpr, List.tail_cons]
      · have hwoken : v.woken a 1 = [] := by
          rw [View.woken, hsupply]
          exact wakeups_nonpos (hv.requests_neg a) (by omega) (by omega)
        have hqueue : (v.verhogen a 1).queue a = v.queue a :=
          verhogen_queue (by rw [hwoken, List.nil_append])
        refine ⟨hl, ⟨hnewvalue, fun q hqr => ?_, ?_, fun _ => ?_, fun hwhole => ?_, hnewfits⟩,
          fun hwhole => ?_⟩
        · rw [hqueue] at hqr
          rw [verhogen_request (by rw [hwoken]; exact List.not_mem_nil)]
          exact h.request q hqr
        · rw [hqueue]
          omega
        · rw [hqueue]
          exact hq
        · rw [h.queue hwhole] at hall
          exact absurd rfl hall
        · rw [h.queue hwhole] at hall
          exact absurd rfl hall

theorem Metered.terminate {t : Pcb} {ks : Forest Pcb} (h : Metered whole v a l) (hv : Orderly v)
    (ha : isDeviceSem a) (hsurvivor : v.queue a ≠ [] → ∃ p ∈ v.queue a, p ∉ ks.postorder ++ [t])
    (hwhole : whole → ∀ p ∈ v.queue a, p ∉ ks.postorder ++ [t]) :
    Metered whole (v.terminate t ks) a l := by
  have hqueue : (v.terminate t ks).queue a = (v.queue a).filter (· ∉ ks.postorder ++ [t]) :=
    killAll_queue hv.queues
  have hrequest : (v.terminate t ks).request = v.request := killAll_request
  refine ⟨(killAll_value_device ha).trans h.value, fun p hp => ?_, ?_, fun hl => ?_, fun hw => ?_,
    h.fits⟩
  · rw [hqueue] at hp
    rw [hrequest]
    exact h.request p (List.mem_of_mem_filter hp)
  · rw [hqueue]
    exact (List.length_filter_le _ _).trans h.length_le
  · obtain ⟨p, hp, hpk⟩ := hsurvivor (h.waiter hl)
    rw [hqueue]
    exact List.ne_nil_of_mem (List.mem_filter.mpr ⟨hp, by simpa using hpk⟩)
  · rw [hqueue, List.filter_eq_self.mpr fun p hp => by simpa using hwhole hw p hp]
    exact h.queue hw

end Views

/-! ### Runs -/

section Runs

variable [Platform] {B : Kernel → Prop} {C : Sys → Event → Prop} {s s' : Sys} {e : Event}
  {v v' u : View} {c p : Pcb} {a i : ℕ} {act : Act} {acts : List Act} {whole : Prop}
  {issued : ℕ → List Pcb} {hw : Hw}

def UserSem : Event → Prop
  | .syscall hw => (hw.oldArea .sysbk).a1 = 3 → isDeviceSem (hw.oldArea .sysbk).a2.toNat = false
  | _ => True

instance : Decidable (UserSem e) := by
  unfold UserSem
  split <;> infer_instance

def CommandFits (s : Sys) : Event → Prop
  | .syscall hw => ∀ i ∈ ioRequest (hw.oldArea .sysbk), -2 ^ 31 < s.kernel.ints (semAddr i)
  | _ => True

instance : Decidable (CommandFits s e) := by
  unfold CommandFits
  split <;> infer_instance

/-- The entry kills no process with a ready descendant, and not all the processes that wait for a
sub-device. -/
structure SparesDevices (s : Sys) (e : Event) : Prop where
  ready : SparesReady s e
  user : UserSem e
  fits : CommandFits s e
  survivor : ∀ t ∈ e.victim s.kernel, ∀ i < clockSem, waiting s.kernel.toLinks (semAddr i) ≠ [] →
    ∃ p ∈ waiting s.kernel.toLinks (semAddr i), p ∉ killed s.kernel t

instance : Decidable (SparesDevices s e) :=
  decidable_of_iff (SparesReady s e ∧ UserSem e ∧ CommandFits s e ∧
      ∀ t ∈ e.victim s.kernel, ∀ i < clockSem, waiting s.kernel.toLinks (semAddr i) ≠ [] →
        ∃ p ∈ waiting s.kernel.toLinks (semAddr i), p ∉ killed s.kernel t)
    ⟨fun h => ⟨h.1, h.2.1, h.2.2.1, h.2.2.2⟩, fun h => ⟨h.ready, h.user, h.fits, h.survivor⟩⟩

/-- The entry kills no process that waits for a sub-device. -/
def SparesWaiters (s : Sys) (e : Event) : Prop :=
  ∀ t ∈ e.victim s.kernel, ∀ i < clockSem, ∀ p ∈ waiting s.kernel.toLinks (semAddr i),
    p ∉ killed s.kernel t

instance : Decidable (SparesWaiters s e) :=
  inferInstanceAs (Decidable (∀ t ∈ e.victim s.kernel, ∀ i < clockSem,
    ∀ p ∈ waiting s.kernel.toLinks (semAddr i), p ∉ killed s.kernel t))

def AllMetered (whole : Prop) (v : View) (issued : ℕ → List Pcb) : Prop :=
  ∀ i < clockSem, Metered whole v (semAddr i) (issued i)

theorem AllMetered.congr (h : AllMetered whole v issued)
    (hs : ∀ i < clockSem, SameSemaphore v u (semAddr i)) : AllMetered whole u issued :=
  fun i hi => (h i hi).congr (hs i hi)

theorem semAddr_ne_clock (hi : i < clockSem) : semAddr i ≠ semAddr clockSem :=
  fun he => absurd (semAddr_injective he) (Nat.ne_of_lt hi)

theorem clockSem_target {w : ℤ} (hi : i < clockSem) :
    (Act.verhogen (semAddr clockSem) w).target ≠ some (semAddr i) :=
  fun he => semAddr_ne_clock hi (Option.some.inj he).symm

theorem signals_metered {l : List ℕ} (hl : l.Nodup) (h : AllMetered whole v issued)
    (hsteps : Steps OrderlyMove (l.map fun i => .signal (semAddr i)) v u) :
    AllMetered whole u fun i => if i ∈ l then (issued i).tail else issued i := by
  induction l generalizing v issued with
  | nil =>
      rw [steps_nil.mp hsteps]
      simpa using h
  | cons j l ih =>
      obtain ⟨hjl, hl⟩ := List.nodup_cons.mp hl
      obtain ⟨t, hmove, hrest⟩ := steps_cons.mp hsteps
      have hone : AllMetered whole t (Function.update issued j (issued j).tail) := by
        intro i hi
        by_cases hij : i = j
        · subst hij
          rw [Function.update_self]
          exact ((h i hi).signal hmove.1 hmove.2).2.1
        · rw [Function.update_of_ne hij]
          apply (h i hi).congr
          apply semaphore_frame hmove
          · exact fun he => hij (semAddr_injective (Option.some.inj he)).symm
          · exact nofun
      intro i hi
      have hall := ih hl hone hrest i hi
      by_cases hij : i = j
      · subst hij
        simpa [hjl] using hall
      · simpa [Function.update_of_ne hij, hij] using hall

theorem completions_nodup (hw : Hw) : (completions hw).Nodup := by
  unfold completions
  split
  · exact List.nodup_nil
  · unfold lineCompletions
    split
    · exact List.nodup_nil
    · split
      · dsimp only
        split
        · split
          · apply List.nodup_cons.mpr ⟨?_, List.nodup_singleton _⟩
            exact fun hm => semIndex_term_ne _ _ (List.mem_singleton.mp hm).symm
          · exact List.nodup_singleton _
        · split
          · exact List.nodup_singleton _
          · exact List.nodup_nil
      · exact List.nodup_singleton _

theorem interrupt_metered (h : AllMetered whole v issued) (hacts : interruptActs hw acts)
    (hsteps : Steps OrderlyMove acts v v') :
    AllMetered whole v' fun i => if i ∈ completions hw then (issued i).tail else issued i := by
  obtain ⟨n, rfl⟩ := hacts
  obtain ⟨u, hsignals, hticks⟩ := steps_append.mp hsteps
  have hdone := signals_metered (completions_nodup hw) h hsignals
  refine hticks.invariant (I := fun v => AllMetered whole v _) (fun act hact t w ht hm => ?_) hdone
  obtain rfl := List.eq_of_mem_replicate hact
  exact ht.congr fun i hi => semaphore_frame hm (clockSem_target hi) nofun

theorem dispatch_metered {k : Kernel} (h : AllMetered whole v issued)
    (hacts : Event.dispatch.acts k acts) (hsteps : Steps OrderlyMove acts v v') :
    AllMetered whole v' issued := by
  refine hsteps.invariant (I := fun v => AllMetered whole v issued) (fun act hact t w ht hm => ?_) h
  obtain rfl := hacts
  have hcases : act = .requeue ∨ act = .load := by
    unfold dispatchActs at hact
    split at hact
    · cases hact
    · split at hact
      · simpa using hact
      · split at hact
        · exact Or.inr (List.mem_singleton.mp hact)
        · cases hact
  rcases hcases with rfl | rfl
  · exact ht.congr fun i _ => semaphore_frame hm nofun nofun
  · exact ht.congr fun i _ => semaphore_frame hm nofun nofun

theorem terminate_metered {t : Pcb} (h : AllMetered whole v s.issued) (hrep : Rep s.kernel.core v)
    (hc : SparesDevices s e) (hwhole : whole → SparesWaiters s e)
    (hact : e.act s.kernel = some (.terminate t)) (hm : OrderlyMove (.terminate t) v v') :
    AllMetered whole v' s.issued := by
  have hvictim : e.victim s.kernel = some t := by rw [Event.victim, hact]
  have hwait := hrep.waiting_eq
  obtain ⟨hv, hmove⟩ := hm
  cases hmove with
  | @terminate _ _ ks hp =>
      intro i hi
      have hsurvivor := hc.survivor t hvictim i hi
      rw [hwait] at hsurvivor
      apply (h i hi).terminate hv (isDeviceSem_semAddr (Nat.lt_succ_of_lt hi))
      · intro hq
        obtain ⟨p, hpq, hpk⟩ := hsurvivor hq
        exact ⟨p, hpq, fun hm => hpk ((mem_killed hrep.toWellFormed hp).mpr hm)⟩
      · intro hw p hpq hm
        have hspared := hwhole hw t hvictim i hi
        rw [hwait] at hspared
        exact hspared p hpq ((mem_killed hrep.toWellFormed hp).mpr hm)

omit [Platform] in
theorem ioRequest_act [Platform] {κ : Core} {st : State} (hi : ioRequest st = some i) :
    syscallAct κ c st = some (.passeren (semAddr i) (-1)) := by
  unfold ioRequest at hi
  split at hi
  · next hio =>
    obtain ⟨hserv, huser, hsys⟩ := hio
    obtain rfl := Option.some.inj hi
    rw [syscallAct, if_pos hserv, if_neg huser, hsys]
    rfl
  · cases hi

/-- A process that asks for no sub-device does not touch its semaphore, unless by killing. -/
theorem asked_target {st : State} (hasked : Asked st act) (hio : ioRequest st = none)
    (huser : st.a1 = 3 → isDeviceSem st.a2.toNat = false) (hi : i < clockSem) :
    act.target ≠ some (semAddr i) := by
  have hdev := isDeviceSem_semAddr (Nat.lt_succ_of_lt hi)
  cases hasked with
  | create => exact nofun
  | terminate => exact nofun
  | passeren hsys =>
      intro he
      rw [Option.some.inj he, hdev] at huser
      cases huser hsys
  | verhogen hsys =>
      intro he
      rw [Option.some.inj he, hdev] at huser
      cases huser hsys
  | clock => exact fun he => semAddr_ne_clock hi (Option.some.inj he).symm
  | device hj =>
      rw [hio] at hj
      cases hj

theorem syscall_metered (h : AllMetered whole v s.issued) (hrep : Rep s.kernel.core v)
    (hc : SparesDevices s (.syscall hw)) (hwhole : whole → SparesWaiters s (.syscall hw))
    (hsteps : Steps OrderlyMove ((Event.syscall hw).act s.kernel).toList v v') :
    AllMetered whole v' ((Event.syscall hw).issue s.kernel s.issued) := by
  cases hcur : s.kernel.currentProcess with
  | none =>
      have hact : (Event.syscall hw).act s.kernel = none := by
        rw [Event.act, hcur, Option.bind_none]
      rw [hact] at hsteps
      rw [steps_nil.mp hsteps, Event.issue, hcur]
      exact h
  | some c =>
      have hact : (Event.syscall hw).act s.kernel = syscallAct s.kernel.core c
          (hw.oldArea .sysbk) := by
        rw [Event.act, hcur, Option.bind_some]
      cases hio : ioRequest (hw.oldArea .sysbk) with
      | some i =>
          rw [hact, ioRequest_act hio] at hsteps
          rw [Event.issue, hcur, hio]
          have hm := steps_single.mp hsteps
          have hfits := hc.fits i hio
          rw [show s.kernel.ints = v.value from hrep.value] at hfits
          intro j hj
          by_cases hji : j = i
          · subst hji
            have hvalue := (h j hj).value
            obtain ⟨d, hd, hmetered⟩ := (h j hj).passeren (by omega) hm.2
            have hcd := (hrep.off d).mp hd
            rw [core_currentProcess, hcur] at hcd
            obtain rfl := Option.some.inj hcd
            simpa using hmetered
          · dsimp only
            rw [Function.update_of_ne hji]
            apply (h j hj).congr
            apply semaphore_frame hm
            · exact fun he => hji (semAddr_injective (Option.some.inj he)).symm
            · exact nofun
      | none =>
          rw [Event.issue, hcur, hio]
          rw [hact] at hsteps
          cases hsys : syscallAct s.kernel.core c (hw.oldArea .sysbk) with
          | none =>
              rw [hsys] at hsteps
              rw [steps_nil.mp hsteps]
              exact h
          | some act =>
              rw [hsys] at hsteps
              have hm := steps_single.mp hsteps
              by_cases hkill : ∃ t, act = .terminate t
              · obtain ⟨t, rfl⟩ := hkill
                exact terminate_metered h hrep hc hwhole (hact.trans hsys) hm
              · have hasked := syscallAct_asked hsys
                exact h.congr fun i hi => semaphore_frame hm (asked_target hasked hio hc.user hi)
                  fun t ht => hkill ⟨t, ht⟩

theorem trap_metered (h : AllMetered whole v s.issued) (hrep : Rep s.kernel.core v)
    (hc : SparesDevices s e) (hwhole : whole → SparesWaiters s e)
    (htrap : ∀ act, e.act s.kernel = some act → ∃ t, act = .terminate t)
    (hsteps : Steps OrderlyMove (e.act s.kernel).toList v v') : AllMetered whole v' s.issued := by
  cases hact : e.act s.kernel with
  | none =>
      rw [hact] at hsteps
      rw [steps_nil.mp hsteps]
      exact h
  | some act =>
      obtain ⟨t, rfl⟩ := htrap act hact
      rw [hact] at hsteps
      exact terminate_metered h hrep hc hwhole hact (steps_single.mp hsteps)

theorem step_metered (h : AllMetered whole v s.issued) (hrep : Rep s.kernel.core v)
    (hc : SparesDevices s e) (hwhole : whole → SparesWaiters s e) (hstep : s.step e = some s')
    (hacts : e.acts s.kernel acts) (hsteps : Steps OrderlyMove acts v v') :
    AllMetered whole v' s'.issued := by
  obtain ⟨-, -, hissued⟩ := Sys.step_eq hstep
  rw [hissued]
  cases e with
  | dispatch => exact dispatch_metered h hacts hsteps
  | syscall hw =>
      obtain rfl := hacts
      exact syscall_metered h hrep hc hwhole hsteps
  | pgmtrap hw =>
      obtain rfl := hacts
      refine trap_metered h hrep hc hwhole (fun act hact => ?_) hsteps
      obtain ⟨c, -, hc⟩ := Option.bind_eq_some_iff.mp hact
      exact ⟨c, trapAct_eq hc⟩
  | tlb hw =>
      obtain rfl := hacts
      refine trap_metered h hrep hc hwhole (fun act hact => ?_) hsteps
      obtain ⟨c, -, hc⟩ := Option.bind_eq_some_iff.mp hact
      exact ⟨c, trapAct_eq hc⟩
  | interrupt hw => exact interrupt_metered h hacts hsteps

theorem boot_metered {k : Kernel} :
    AllMetered whole (View.boot (bootInts k.ints) k.resWait) fun _ => [] := by
  intro i hi
  have hvalue : bootInts k.ints (semAddr i) = 0 := by
    unfold bootInts
    rw [foldl_update_semAddr, if_pos]
    exact List.mem_map.mpr ⟨i, List.mem_range.mpr (Nat.lt_succ_of_lt hi), rfl⟩
  exact ⟨hvalue, fun p hp => (nomatch hp), le_rfl, fun hl => absurd rfl hl, fun _ => rfl,
    Nat.zero_le _⟩

/-- After every run that spares the devices their semaphores follow the commands. -/
theorem nucleus_metered (whole : Prop) (hC : ∀ s e, C s e → SparesDevices s e)
    (hwhole : whole → ∀ s e, C s e → SparesWaiters s e) (h : Reach (nucleus B) C s) :
    ∃ v, Rep s.kernel.core v ∧ AllMetered whole v s.issued := by
  have hsim := nucleus_simulation (B := B).restrict fun s e hc => (hC s e hc).ready
  have hinit : ∀ s, (nucleus B).init s → ∃ v, Rep s.kernel.core v ∧
      AllMetered whole v s.issued := by
    rintro s ⟨k, -, hk, hstart⟩
    obtain ⟨-, hrep, hissued⟩ := main_run hk hstart
    refine ⟨_, hrep, ?_⟩
    rw [hissued]
    exact boot_metered
  have hview := h.simulated hsim hinit fun s e s' acts v v' hrep hm hc hstep hacts hsteps _ =>
    step_metered hm hrep (hC s e hc) (fun hw => hwhole hw s e hc) hstep hacts hsteps
  exact hview

/-- The interrupt reports commands that have been issued. -/
def Solicited (s : Sys) (hw : Hw) : Prop := ∀ i ∈ completions hw, i < clockSem ∧ s.issued i ≠ []

/-- A sub-device with a command that is not completed has a waiter, and interrupts of such devices
find it. -/
theorem device_waiter_found (h : Reach (nucleus B) SparesDevices s) :
    (∀ i < clockSem, s.issued i ≠ [] → s.kernel.ints (semAddr i) < 1 →
      ∃ p, (onLinks (headBlocked (semAddr i))).run s.kernel = .ok (some p) s.kernel) ∧
    ∀ hw, Solicited s hw → interruptHandler.run (s.kernel.enter (.interrupt hw)) ≠
    .fault .null := by
  obtain ⟨v, hrep, hm⟩ := nucleus_metered False (fun _ _ hc => hc) (fun hf => hf.elim) h
  constructor
  · intro i hi hissued _
    obtain ⟨p, l, hq⟩ := List.exists_cons_of_ne_nil ((hm i hi).waiter hissued)
    refine ⟨p, ?_⟩
    rw [headBlocked_ok hrep, hq, List.head?_cons]
  · intro hw hsol hfault
    have hserved : ∀ il, pendingLine hw.cause = some il → ServedLine (· ≠ .null) v hw il := by
      intro il hil
      refine ⟨fun _ => Fault.noConfusion, fun _ => Or.inr Fault.noConfusion,
        fun _ _ => Or.inr Fault.noConfusion, fun i hi _ hq => ?_⟩
      have hmem : i ∈ completions hw := by rwa [completions, hil]
      obtain ⟨hlt, hissued⟩ := hsol i hmem
      exact absurd hq ((hm i hlt).waiter hissued)
    have hrun := interruptHandler_run (s := s.kernel.enter (.interrupt hw)) hrep hserved
    exact absurd rfl (hrun.not_fault rfl hfault)

end Runs

section Board

attribute [local instance] uarm

/-- A process waits for the disk, and the interrupt of the disk finds it. -/
theorem device_waiter_found_disk :
    ∃ s : Sys, s.issued 0 = [0] ∧
      (∃ p, (onLinks (headBlocked (semAddr 0))).run s.kernel = .ok (some p) s.kernel) := by
  obtain ⟨s, hs, hQ⟩ := nucleus_run (B := fun _ => True) (C := SparesDevices) trivial atBoot_zero
    [.dispatch, call 10 1 intDisk 0]
    (fun s => s.issued 0 = [0] ∧ s.kernel.ints (semAddr 0) < 1) (by decide +kernel)
  obtain ⟨hissued, hlow⟩ := of_decide_eq_true hQ
  have hwaiter :=
    (device_waiter_found hs).1 0 (by decide) (by rw [hissued]; exact List.cons_ne_nil _ _)
  exact ⟨s, hissued, hwaiter hlow⟩

/-- A process starts a disk operation and is killed; the interrupt of the disk then writes through
`NULL`. -/
theorem device_waiter_lost :
    ¬ ∀ s, Reach (nucleus fun _ => True) (fun _ e => UserSem e) s → ∀ hw, Solicited s hw →
      interruptHandler.run (s.kernel.enter (.interrupt hw)) ≠ .fault .null := by
  intro hall
  let hw : Hw := { Hw.rest with
    cause := 1 <<< (24 + 3), bitmap := fun _ => 1, devreg := fun _ => ⟨0, 0, 5, 0⟩ }
  obtain ⟨s, hs, hQ⟩ := nucleus_run (B := fun _ => True) (C := fun _ e => UserSem e) trivial
    atBoot_zero [.dispatch, call 1, .dispatch, completion intTimer 0, .dispatch,
      call 10 1 intDisk 0, .dispatch, call 2 611841]
    (fun s => (completions hw).all (fun i => i < clockSem && s.issued i ≠ []) &&
      match interruptHandler.run (s.kernel.enter (.interrupt hw)) with
      | .fault .null => true
      | _ => false) (by decide +kernel)
  obtain ⟨hsol, hfault⟩ := Bool.and_eq_true_iff.mp hQ
  refine hall s hs hw (fun i hi => ?_) ?_
  · simpa using List.all_eq_true.mp hsol i hi
  · split at hfault
    · assumption
    · cases hfault

end Board

end JaeOS
