import JaeOS.Accounting
import JaeOS.Commands
import JaeOS.Fate
import JaeOS.Holdings
import JaeOS.Turns

/-!
# Messages on the terminal

`print` of `p2test.c` gives the transmitter of terminal 0 one command for each character of its
message, between a `P` and a `V` on a mutex. Over every run in which the processes use the mutex and
the transmitter by `print` only, the transmitter is given the messages one after the other, in the
order in which they were to be printed, however the calls of the processes interleave and whoever is
killed.
-/

open LinkRing LinkForest Transition Turns

namespace JaeOS

structure Request where
  a1 : Word
  a2 : Word
  a3 : Word
  a4 : Word
  deriving DecidableEq

def State.request (st : State) : Request := ⟨st.a1, st.a2, st.a3, st.a4⟩

/-- `PRINTCHR | (c << BYTELEN)`. -/
def printCommand (c : Word) : Word := 2 ||| c <<< 8

def commands (msg : List Word) : List Word := msg.map printCommand

def lockRequest (mutex : Word) : Request := ⟨3, mutex, -1, 0⟩

def unlockRequest (mutex : Word) : Request := ⟨3, mutex, 1, 0⟩

def print (mutex : Word) (msg : List Word) : List Request :=
  lockRequest mutex :: (commands msg).map (fun w => ⟨10, w, intTerminal, 0⟩) ++
    [unlockRequest mutex]

def Request.transmits (r : Request) : Bool :=
  r.a1 = 10 && JaeOS.transmits r.a3 r.a4 && regIndex r.a3 r.a4 = 32

def Request.touches (mutex : Word) (r : Request) : Bool := r.a1 = 3 && r.a2 = mutex || r.transmits

/-- The printing so far: the calls of `print`, the number of the last one of each process and how
many system calls of it have been made, the numbers of the messages whose printers have got the
mutex, and the commands the transmitter has been given. -/
structure Printer where
  calls : ℕ
  number : Pcb → ℕ
  made : Pcb → ℕ
  begun : List ℕ
  printed : List Word

section Requests

variable [Platform]

def Event.request (k : Kernel) : Event → Option (Pcb × Request)
  | .syscall hw =>
    let st := hw.oldArea .sysbk
    if isService st ∧ ¬ isUserMode st then k.currentProcess.map fun c => (c, st.request) else none
  | _ => none

/-- The commands that the nucleus gives on request to the transmitter of terminal 0, as found in its
register. -/
def Event.transmitted (k k' : Kernel) (e : Event) : List Word :=
  match e.request k with
  | some (_, r) => if r.transmits then [(k'.hw.devreg 32).transmCommand] else []
  | none => []

def Printer.call (say : ℕ → List Word) (mutex : Word) (g : Printer) (c : Pcb) (r : Request) :
    Printer :=
  if g.made c = 0 then
    if r = lockRequest mutex then
      { g with
        calls := g.calls + 1
        number := Function.update g.number c g.calls
        made := Function.update g.made c 1 }
    else g
  else
    { g with
      made :=
        Function.update g.made c (if g.made c = (say (g.number c)).length + 1 then 0
        else g.made c + 1) }

def Printer.hear (say : ℕ → List Word) (mutex : Word) (k : Kernel) (e : Event) (g : Printer) :
    Printer :=
  match e.request k with
  | some (c, r) => g.call say mutex c r
  | none => g

/-- The printing, kept up in every step; `say n` is the message of the call number `n`. -/
def notePrinter (say : ℕ → List Word) (mutex : Word) (x : Sys × Holdings) (e : Event)
    (y : Sys × Holdings)
    (g : Printer) : Printer :=
  let g' := g.hear say mutex x.1.kernel e
  { g' with
    made := fun p => if p ∈ freeList y.1.kernel then 0 else g'.made p
    begun :=
      g.begun ++ (wokenFrom mutex.toNat (x.1, e, y.1) ++ admitted mutex.toNat (x.1, e, y.1)).map
        g'.number
    printed := g.printed ++ e.transmitted x.1.kernel y.1.kernel }

/-- Processes use the mutex and the transmitter by `print` only. -/
def Prints (say : ℕ → List Word) (mutex : Word) (x : (Sys × Holdings) × Printer) (e : Event) :
    Prop :=
  ∀ y ∈ e.request x.1.1.kernel,
    if x.2.made y.1 = 0 then y.2 = lockRequest mutex ∨ y.2.touches mutex = false
    else (print mutex (say (x.2.number y.1)))[x.2.made y.1]? = some y.2

instance {say : ℕ → List Word} {mutex : Word} {x : (Sys × Holdings) × Printer} {e : Event} :
    Decidable (Prints say mutex x e) :=
  inferInstanceAs (Decidable (∀ y ∈ e.request x.1.1.kernel, _))

def printers (say : ℕ → List Word) (mutex : Word) : System ((Sys × Holdings) × Printer) Event :=
  (holders mutex.toNat 1).ghost (fun _ => ⟨0, fun _ => 0, fun _ => 0, [], []⟩)
    (notePrinter say mutex)

end Requests

/-! ### What a step does to the mutex -/

section Steps

variable [Platform] {v v' : View} {act : Act} {s s' : Sys} {e : Event} {a : ℕ} {p c : Pcb}

inductive Touches (a : ℕ) (s : Sys) (e : Event) (s' : Sys) : Prop where
  | quiet (hact : ∀ act ∈ e.act s.kernel, act.target ≠ some a ∧ ∀ t, act ≠ .terminate t)
      (hqueue : s'.waiters a = s.waiters a) (hfree : freeList s'.kernel ⊆ freeList s.kernel)
  | kill (t : Pcb) (dead : List Pcb) (hact : e.act s.kernel = some (.terminate t))
      (hqueue : s'.waiters a = (s.waiters a).filter (· ∉ dead))
      (hfree : freeList s'.kernel = freeList s.kernel ++ dead)
  | pass (c : Pcb) (w : ℤ) (hact : e.act s.kernel = some (.passeren a w))
      (hc : s.kernel.currentProcess = some c) (hempty : s.waiters a = [])
      (hempty' : s'.waiters a = [])
      (hfree : freeList s'.kernel = freeList s.kernel)
  | block (c : Pcb) (w : ℤ) (hact : e.act s.kernel = some (.passeren a w))
      (hc : s.kernel.currentProcess = some c) (hqueue : s'.waiters a = s.waiters a ++ [c])
      (hfree : freeList s'.kernel = freeList s.kernel) (hrequest : s'.kernel.resWait c = w)
  | serve (c : Pcb) (w : ℤ) (hact : e.act s.kernel = some (.verhogen a w))
      (hc : s.kernel.currentProcess = some c)
      (hqueue : s.waiters a = wokenFrom a (s, e, s') ++ s'.waiters a)
      (hfree : freeList s'.kernel = freeList s.kernel)

theorem verhogen_free (b : ℕ) (w : ℤ) : (v.verhogen b w).free = v.free := wakeAll_free

/-- Only termination adds to the free list. -/
theorem Move.free_subset (hm : Move act v v') (hkill : ∀ t, act ≠ .terminate t) :
    v'.free ⊆ v.free := by
  cases hm with
  | full => exact List.Subset.refl _
  | @create _ c p l hc hf =>
      have hfree : (v.create c p l).free = l := rfl
      rw [hfree, hf]
      exact List.subset_cons_self p l
  | @terminate _ t => exact absurd rfl (hkill t)
  | pass => exact List.Subset.refl _
  | block => exact List.Subset.refl _
  | verhogen =>
      rw [verhogen_free]
      exact List.Subset.refl _
  | noSignal => exact List.Subset.refl _
  | signal =>
      rw [verhogen_free]
      exact List.Subset.refl _
  | requeue => exact List.Subset.refl _
  | load => exact List.Subset.refl _

/-- Who goes on waiting for `a` goes on asking for the same. -/
theorem OrderlyMove.request_eq (hm : OrderlyMove act v v') (hp : p ∈ v.queue a)
    (hp' : p ∈ v'.queue a) :
    v'.request p = v.request p := by
  obtain ⟨hv, hmove⟩ := hm
  have hplace := (hv.mem_queue p a).mp hp
  have hwake (b : ℕ) (w : ℤ) (h : p ∈ (v.verhogen b w).queue a) :
      (v.verhogen b w).request p = v.request p := by
    refine verhogen_request fun hw => ?_
    obtain rfl : a = b := Place.blocked.inj (hplace.symm.trans (hv.woken_blocked hw))
    have hnd := hv.queue_nodup a
    obtain ⟨rest, hrest⟩ := woken_initial v a w
    rw [verhogen_queue hrest.symm] at h
    rw [← hrest] at hnd
    exact (List.disjoint_of_nodup_append hnd) hw h
  cases hmove with
  | full => rfl
  | @create _ c q l hc hf =>
      refine Function.update_of_ne ?_ ..
      rintro rfl
      have hfree := (hv.mem_free p).mp (by rw [hf]; exact List.mem_cons_self)
      rw [hplace] at hfree
      cases hfree
  | terminate => exact congrFun killAll_request p
  | pass => rfl
  | @block _ b w c hw hi hb hc =>
      refine Function.update_of_ne ?_ ..
      rintro rfl
      rw [hplace] at hc
      cases hc
  | verhogen => exact hwake _ _ hp'
  | noSignal => rfl
  | signal => exact hwake _ _ hp'
  | requeue => rfl
  | load => rfl

theorem Sys.step_touches (h : Rep s.kernel.core v) (ha : isDeviceSem a = false)
    (htaken : v.queue a ≠ [] → v.value a ≤ 0) (hk : KeepsUnits s e) (hstep : s.step e = some s') :
    Touches a s e s' := by
  obtain ⟨acts, v', hacts, hsteps, hrep'⟩ :=
    nucleus_simulation (B := fun _ => True).step h hk.ready hstep
  have hwaiters : s.waiters a = v.queue a := congrFun h.waiting_eq a
  have hwaiters' : s'.waiters a = v'.queue a := congrFun hrep'.waiting_eq a
  have hfree : freeList s.kernel = v.free := h.freeList_eq
  have hfree' : freeList s'.kernel = v'.free := hrep'.freeList_eq
  rcases Event.acts_split hacts with rfl | ⟨hnone, hinternal⟩
  · cases hact : e.act s.kernel with
    | none =>
        rw [hact] at hsteps
        obtain rfl := steps_nil.mp hsteps
        refine .quiet (fun act hact' => ?_) (by rw [hwaiters, hwaiters']) ?_
        · rw [hact] at hact'
          cases hact'
        · rw [hfree, hfree']
          exact List.Subset.refl _
    | some act =>
        rw [hact] at hsteps
        have hm := steps_single.mp hsteps
        have hcomp : Computes act v := hk.computes h hact
        obtain ⟨c, hc⟩ := Event.act_current hact
        by_cases hkill : ∃ t, act = .terminate t
        · obtain ⟨t, rfl⟩ := hkill
          obtain ⟨hv, hmove⟩ := hm
          cases hmove with
          | @terminate _ _ ks =>
              refine .kill t (ks.postorder ++ [t]) hact ?_ ?_
              · rw [hwaiters, hwaiters']
                exact killAll_queue hv.queues
              · rw [hfree, hfree']
                exact killAll_free
        · by_cases htarget : act.target = some a
          · obtain ⟨hv, hmove⟩ := hm
            cases hmove with
            | full => cases htarget
            | create => cases htarget
            | @terminate _ t => exact absurd ⟨t, rfl⟩ hkill
            | @pass _ b w hw hi =>
                obtain rfl := Option.some.inj htarget
                have hempty : v.queue b = [] := by
                  by_contra hne
                  have hcredit : v.credit b w = v.value b + w := hcomp ha
                  have hvalue := htaken hne
                  omega
                exact .pass c w hact hc (hwaiters.trans hempty) (hwaiters'.trans hempty)
                  (by rw [hfree, hfree']; rfl)
            | @block _ b w d hw hi hb hd =>
                obtain rfl := Option.some.inj htarget
                obtain rfl : d = c := Option.some.inj (((h.off d).mp hd).symm.trans hc)
                refine .block d w hact hc ?_ (by rw [hfree, hfree']; rfl) ?_
                · rw [hwaiters, hwaiters']
                  exact Function.update_self ..
                · rw [show s'.kernel.resWait = _ from hrep'.request]
                  exact Function.update_self ..
            | @verhogen _ b w =>
                obtain rfl := Option.some.inj htarget
                refine .serve c w hact hc ?_ (by rw [hfree, hfree']; exact verhogen_free _ _)
                have hrouses := verhogen_rouses_self (v := v) b w
                have hwoken : wokenFrom b (s, e, s') = v.woken b w := by
                  rw [← hrouses.filter_eq hrep'.orderly, wokenFrom, hwaiters, Sys.ready,
                    hrep'.readyList_eq]
                rw [hwoken, hwaiters, hwaiters']
                exact hrouses.queue
            | noSignal => exact absurd hact Event.act_ne_signal
            | signal => exact absurd hact Event.act_ne_signal
            | requeue => cases htarget
            | load => cases htarget
          · refine .quiet (fun act' hact' => ?_) ?_ ?_
            · rw [hact] at hact'
              obtain rfl := Option.some.inj hact'
              exact ⟨htarget, fun t ht => hkill ⟨t, ht⟩⟩
            · rw [hwaiters, hwaiters']
              exact (semaphore_frame hm htarget fun t ht => hkill ⟨t, ht⟩).queue
            · rw [hfree, hfree']
              exact hm.2.free_subset fun t ht => hkill ⟨t, ht⟩
  · refine .quiet (fun act hact => ?_) ?_ ?_
    · rw [hnone] at hact
      cases hact
    · rw [hwaiters, hwaiters']
      exact hsteps.invariant (I := fun u => u.queue a = v.queue a) (fun act hact t u ht hm =>
        (semaphore_frame hm ((hinternal act hact).target_ne ha)
          (hinternal act hact).ne_terminate).queue.trans ht)
        rfl
    · rw [hfree, hfree']
      exact hsteps.invariant (I := fun u => u.free ⊆ v.free) (fun act hact t u ht hm =>
        List.Subset.trans (hm.2.free_subset (hinternal act hact).ne_terminate) ht)
          (List.Subset.refl _)

omit [Platform] in
/-- Nobody is woken if all who waited still wait, or are dead. -/
theorem wokenFrom_nil (h' : Rep s'.kernel.core v')
    (hstay : ∀ x ∈ s.waiters a, x ∈ s'.waiters a ∨ x ∈ freeList s'.kernel) :
    wokenFrom a (s, e, s') = [] := by
  refine List.filter_eq_nil_iff.mpr fun x hx hready => ?_
  have hr : x ∈ v'.ready := by
    have hmem := of_decide_eq_true hready
    unfold Sys.ready at hmem
    rwa [h'.readyList_eq] at hmem
  rcases hstay x hx with hw | hf
  · unfold Sys.waiters at hw
    rw [h'.waiting_eq] at hw
    exact h'.orderly.not_ready hw hr
  · rw [h'.freeList_eq, h'.lists.mem_free, (h'.orderly.mem_ready x).mp hr] at hf
    cases hf

theorem granted_none (hw : wokenFrom a (s, e, s') = []) (hadm : admitted a (s, e, s') = []) :
    granted a (s, e, s') p = 0 := by
  simp [granted, hw, hadm]

/-- Who asks for `a` without being admitted has to wait. -/
theorem admitted_nil (hact : ∀ act ∈ e.act s.kernel, ∀ w, act = .passeren a w →
    ∀ c ∈ s.kernel.currentProcess, c ∈ s'.waiters a) : admitted a (s, e, s') = [] := by
  unfold admitted
  split
  · next b w hb =>
    split
    · next hba =>
      refine List.filter_eq_nil_iff.mpr fun c hc => ?_
      have hmem := hact _ hb w (by rw [hba]) c (Option.mem_toList.mp hc)
      simpa using hmem
    · rfl
  · rfl

theorem supplied_none (hact : ∀ act ∈ e.act s.kernel, ∀ w, act ≠ .verhogen a w) :
    supplied a (s, e, s') = 0 := by
  unfold supplied Event.supplies
  cases h : e.act s.kernel with
  | none => rfl
  | some act =>
      have hne := hact act h
      cases act with
      | verhogen b w => exact if_neg fun hb => hne w (by rw [hb])
      | _ => rfl

variable {h : Holdings}

theorem balance_same (hw : wokenFrom a (s, e, s') = []) (hadm : admitted a (s, e, s') = [])
    (hsup : supplied a (s, e, s') = 0) : h.balance a (s, e, s') p = h.held p := by
  rw [Holdings.balance, granted_none hw hadm, returned, hsup, ite_self, add_zero, sub_zero]

/-- Nothing is lost if the dead hold nothing. -/
theorem noteUnits_alive (hdead : ∀ p ∈ freeList s'.kernel, h.balance a (s, e, s') p = 0) :
    (noteUnits a s e s' h).held = h.balance a (s, e, s') ∧
    (noteUnits a s e s' h).lost = h.lost := by
  constructor
  · funext p
    change (if p ∈ freeList s'.kernel then 0 else h.balance a (s, e, s') p) = _
    split
    · next hp => exact (hdead p hp).symm
    · rfl
  · change h.lost + ∑ p, (if p ∈ freeList s'.kernel then h.balance a (s, e, s') p else 0) = h.lost
    rw [Finset.sum_eq_zero, add_zero]
    intro p _
    split
    · next hp => exact hdead p hp
    · rfl

/-- Who goes on waiting goes on asking for the same. -/
theorem Sys.step_request (hrep : Rep s.kernel.core v) (ha : isDeviceSem a = false)
    (hs : SparesReady s e)
    (hstep : s.step e = some s') (hp : p ∈ s.waiters a) (hp' : p ∈ s'.waiters a) :
    s'.kernel.resWait p = s.kernel.resWait p := by
  obtain ⟨acts, v', hacts, hsteps, hrep'⟩ :=
    nucleus_simulation (B := fun _ => True).step hrep hs hstep
  have hwaiters : s.waiters a = v.queue a := congrFun hrep.waiting_eq a
  have hwaiters' : s'.waiters a = v'.queue a := congrFun hrep'.waiting_eq a
  have hreq : s.kernel.resWait = v.request := hrep.request
  have hreq' : s'.kernel.resWait = v'.request := hrep'.request
  rw [hwaiters] at hp
  rw [hwaiters'] at hp'
  rw [hreq, hreq']
  rcases Event.acts_split hacts with rfl | ⟨-, hinternal⟩
  · cases hact : e.act s.kernel with
    | none =>
        rw [hact] at hsteps
        rw [steps_nil.mp hsteps]
    | some act =>
        rw [hact] at hsteps
        exact (steps_single.mp hsteps).request_eq hp hp'
  · have hsame : SameSemaphore v v' a :=
      hsteps.invariant (I := fun u => SameSemaphore v u a) (fun act hact t u ht hm =>
        ht.trans
          (semaphore_frame hm ((hinternal act hact).target_ne ha)
            (hinternal act hact).ne_terminate))
        (.refl v a)
    exact hsame.request p hp

omit [Platform] in
/-- Who runs does not wait. -/
theorem Rep.current_apart (hrep : Rep s.kernel.core v) (hc : s.kernel.currentProcess = some c) :
    c ∉ s.waiters a := by
  have hwaiters : s.waiters a = v.queue a := congrFun hrep.waiting_eq a
  rw [hwaiters, hrep.orderly.mem_queue, (hrep.off c).mpr hc]
  exact Place.noConfusion

end Steps

/-! ### Requests as moves -/

section Served

variable [Platform] {v v' : View} {s s' : Sys} {e : Event} {c : Pcb} {r : Request} {mutex : Word}
    {act : Act}
  {w : Word}

/-- A request that is served is a service of the running process. -/
theorem Event.request_eq (h : e.request s.kernel = some (c, r)) :
    ∃ hw, e = .syscall hw ∧ s.kernel.currentProcess = some c ∧ r = (hw.oldArea .sysbk).request ∧
      isService (hw.oldArea .sysbk) = true ∧ isUserMode (hw.oldArea .sysbk) = false := by
  cases e with
  | syscall hw =>
      unfold Event.request at h
      dsimp only at h
      split at h
      · next hserved =>
        obtain ⟨d, hd, heq⟩ := Option.map_eq_some_iff.mp h
        obtain ⟨rfl, rfl⟩ := Prod.mk.inj heq
        exact ⟨hw, rfl, hd, rfl, hserved.1, Bool.eq_false_iff.mpr hserved.2⟩
      · cases h
  | dispatch => cases h
  | pgmtrap hw => cases h
  | tlb hw => cases h
  | interrupt hw => cases h

theorem Event.request_act (h : e.request s.kernel = some (c, r)) :
    e.act s.kernel = serviceAct s.kernel.core c r.a1 r.a2 r.a3 r.a4 := by
  obtain ⟨hw, rfl, hc, rfl, hserv, huser⟩ := Event.request_eq h
  rw [Event.act, hc, Option.bind_some, syscallAct, if_pos hserv, huser]
  rfl

/-- A `P` or `V` on the mutex is one that a process requests. -/
theorem Event.request_of_act (h : Rep s.kernel.core v) (hs : SparesReady s e)
    (hstep : s.step e = some s')
    (ha : isDeviceSem mutex.toNat = false) (hact : e.act s.kernel = some act)
    (htarget : act.target = some mutex.toNat) :
    ∃ c r, e.request s.kernel = some (c, r) ∧ s.kernel.currentProcess = some c ∧
    r.touches mutex = true ∧
      r.a1 = 3 := by
  have hdevice : ∀ i < maxDevices, semAddr i ≠ mutex.toNat := by
    intro i hi he
    rw [← he, isDeviceSem_semAddr hi] at ha
    cases ha
  have hplace (c : Pcb) (hw : Hw) (hc : s.kernel.currentProcess = some c)
      (hserv : isService (hw.oldArea .sysbk)) (huser : ¬ isUserMode (hw.oldArea .sysbk))
      (hthree : (hw.oldArea .sysbk).a1 = 3) (hmutex : (hw.oldArea .sysbk).a2.toNat = mutex.toNat) :
      ∃ c r, (Event.syscall hw).request s.kernel = some (c, r) ∧ s.kernel.currentProcess = some c ∧
        r.touches mutex = true ∧ r.a1 = 3 := by
    refine ⟨c, (hw.oldArea .sysbk).request, ?_, hc, ?_, hthree⟩
    · unfold Event.request
      dsimp only
      rw [if_pos ⟨hserv, huser⟩, hc]
      rfl
    · have hword : (hw.oldArea .sysbk).request.a2 = mutex := BitVec.eq_of_toNat_eq hmutex
      have hthree' : (hw.oldArea .sysbk).request.a1 = 3 := hthree
      simp [Request.touches, hword, hthree']
  rcases Event.act_asked hact with ⟨t, rfl⟩ | ⟨hw, c, rfl, hc, hsys⟩
  · cases htarget
  · have hasked := syscallAct_asked hsys
    have hserved : isService (hw.oldArea .sysbk) ∧ ¬ isUserMode (hw.oldArea .sysbk) := by
      unfold syscallAct at hsys
      split at hsys
      · next hserv =>
        split at hsys
        · rw [trapAct_eq hsys] at htarget
          cases htarget
        · next huser => exact ⟨hserv, huser⟩
      · rw [trapAct_eq hsys] at htarget
        cases htarget
    cases hasked with
    | create => cases htarget
    | terminate => cases htarget
    | passeren hthree => exact hplace c hw hc hserved.1 hserved.2 hthree (Option.some.inj htarget)
    | verhogen hthree => exact hplace c hw hc hserved.1 hserved.2 hthree (Option.some.inj htarget)
    | clock => exact absurd (Option.some.inj htarget) (hdevice clockSem (by decide))
    | device hi =>
        have hlt := (ioRequest_goes h hs hc hi hstep).1
        exact absurd (Option.some.inj htarget) (hdevice _ (hlt.trans (by decide)))

theorem lock_act (hm : mutex ≠ 0) (h : e.request s.kernel = some (c, lockRequest mutex)) :
    e.act s.kernel = some (.passeren mutex.toNat (-1)) := by
  have hzero : mutex.toNat ≠ 0 := fun hz => hm (BitVec.eq_of_toNat_eq hz)
  rw [Event.request_act h]
  exact if_neg hzero

theorem unlock_act (hm : mutex ≠ 0) (h : e.request s.kernel = some (c, unlockRequest mutex)) :
    e.act s.kernel = some (.verhogen mutex.toNat 1) := by
  have hzero : mutex.toNat ≠ 0 := fun hz => hm (BitVec.eq_of_toNat_eq hz)
  rw [Event.request_act h]
  exact if_neg hzero

theorem command_act (h : e.request s.kernel = some (c, ⟨10, w, intTerminal, 0⟩)) :
    e.act s.kernel = some (.passeren (semAddr 32) (-1)) := by
  have hindex : semIndex intTerminal (termRead intTerminal 0) 0 = 32 := by decide
  rw [Event.request_act h]
  exact congrArg (fun i => some (Act.passeren (semAddr i) (-1))) hindex

omit [Platform] in
theorem command_transmits : (⟨10, w, intTerminal, 0⟩ : Request).transmits = true := by
  have hterm : transmits intTerminal 0 = true := by decide
  have hreg : regIndex intTerminal 0 = 32 := by decide
  rw [Request.transmits, hterm, hreg]
  rfl

omit [Platform] in
theorem command_transmitter (m : Face) {cmd intlNo dnum : Word}
    (hterm : transmits intlNo dnum = true)
    (hreg : regIndex intlNo dnum = 32) :
    (m.command cmd intlNo dnum).hw.devreg 32 = { m.hw.devreg 32 with transmCommand := cmd } := by
  simp only [Face.command, hterm, hreg, Function.update_self, if_true]

/-- The register of the transmitter holds the command that was requested. -/
theorem transmitted_eq (h : Rep s.kernel.core v) (hs : SparesReady s e) (hstep : s.step e = some s')
    (hr : e.request s.kernel = some (c, r)) :
    e.transmitted s.kernel s'.kernel = if r.transmits then [r.a2] else [] := by
  unfold Event.transmitted
  rw [hr]
  dsimp only
  split
  · next htr =>
    obtain ⟨hw, rfl, hc, rfl, hserv, huser⟩ := Event.request_eq hr
    simp only [Request.transmits, Bool.and_eq_true, decide_eq_true_eq] at htr
    obtain ⟨⟨hten, hterm⟩, hreg⟩ := htr
    have hten' : (hw.oldArea .sysbk).a1 = 10 := hten
    obtain ⟨d, hd, hcalls⟩ := Sys.step_ends h hstep
    have hpanic : s'.ctl ≠ .panic :=
      (ioRequest_goes h hs hc (if_pos ⟨hserv, by rw [huser]; exact Bool.false_ne_true, hten'⟩)
        hstep).2
    have hface : s'.kernel.hw = s'.kernel.face.hw := rfl
    rw [hface]
    generalize s'.ctl = ctl at hcalls hpanic
    generalize s'.kernel.face = g at hcalls
    cases hcalls with
    | panic hserv' => rw [hserv] at hserv'; cases hserv'
    | served hserv' huser' hserves =>
        rcases hserves.command hten' with hp | ⟨-, u, m, -, rfl⟩
        · cases hp
        · rw [finish_devreg]
          exact congrArg (fun d : DevReg => [d.transmCommand]) (command_transmitter m hterm hreg)
    | ended hserv' huser' hserves =>
        rcases hserves.command hten' with hp | ⟨hnone, -⟩
        · exact absurd (Option.some.inj hp) hpanic
        · cases hnone
    | reflect hserv' huser' => rw [huser] at huser'; cases huser'
    | die hserv' => rw [hserv] at hserv'; cases hserv'
    | pass hserv' => rw [hserv] at hserv'; cases hserv'
  · rfl

end Served

/-! ### What a process that prints asks for -/

section Says

variable [Platform] {v : View} {s s' : Sys} {e : Event} {c : Pcb} {r : Request} {mutex : Word}
    {msg : List Word}
  {say : ℕ → List Word} {h : Holdings} {g : Printer} {n : ℕ}

omit [Platform] in
/-- The requests of `print` in their order. -/
theorem print_request (hr : (print mutex msg)[n + 1]? = some r) :
    (∃ x, (commands msg)[n]? = some x ∧ r = ⟨10, x, intTerminal, 0⟩) ∨
      n = msg.length ∧ r = unlockRequest mutex := by
  have hlen : (commands msg).length = msg.length := List.length_map ..
  rw [print, List.cons_append, List.getElem?_cons_succ, List.getElem?_append, List.length_map,
    hlen] at hr
  split at hr
  · rw [List.getElem?_map] at hr
    obtain ⟨x, hx, rfl⟩ := Option.map_eq_some_iff.mp hr
    exact Or.inl ⟨x, hx, rfl⟩
  · next hn =>
    obtain ⟨hlt, hget⟩ := List.getElem?_eq_some_iff.mp hr
    rw [List.length_singleton] at hlt
    refine Or.inr ⟨by omega, ?_⟩
    rw [← hget, List.getElem_singleton]

inductive Says (say : ℕ → List Word) (mutex : Word) (s : Sys) (e : Event) (s' : Sys) (g : Printer) :
    Prop where
  | other (hhear : g.hear say mutex s.kernel e = g) (hout : e.transmitted s.kernel s'.kernel = [])
      (hact : ∀ act ∈ e.act s.kernel, act.target ≠ some mutex.toNat)
  | lock (c : Pcb) (hc : s.kernel.currentProcess = some c) (hmade : g.made c = 0)
      (hact : e.act s.kernel = some (.passeren mutex.toNat (-1)))
      (hhear : g.hear say mutex s.kernel e = { g with
        calls := g.calls + 1
        number := Function.update g.number c g.calls
        made := Function.update g.made c 1 })
      (hout : e.transmitted s.kernel s'.kernel = [])
  | command (c : Pcb) (n : ℕ) (x : Word) (hc : s.kernel.currentProcess = some c)
      (hmade : g.made c = n + 1)
      (hx : (commands (say (g.number c)))[n]? = some x)
      (hact : e.act s.kernel = some (.passeren (semAddr 32) (-1)))
      (hhear : g.hear say mutex s.kernel e = { g with made := Function.update g.made c (n + 2) })
      (hout : e.transmitted s.kernel s'.kernel = [x])
  | unlock (c : Pcb) (hc : s.kernel.currentProcess = some c)
      (hmade : g.made c = (say (g.number c)).length + 1)
      (hact : e.act s.kernel = some (.verhogen mutex.toNat 1))
      (hhear : g.hear say mutex s.kernel e = { g with made := Function.update g.made c 0 })
      (hout : e.transmitted s.kernel s'.kernel = [])

theorem Prints.inversion (hp : Prints say mutex ((s, h), g) e) (hm : mutex ≠ 0)
    (ha : isDeviceSem mutex.toNat = false) (hrep : Rep s.kernel.core v) (hs : SparesReady s e)
    (hstep : s.step e = some s') : Says say mutex s e s' g := by
  cases hr : e.request s.kernel with
  | none =>
      refine .other (by rw [Printer.hear, hr])
        (by rw [Event.transmitted, hr]) fun act hact htarget => ?_
      obtain ⟨c, r, hsome, -⟩ := Event.request_of_act hrep hs hstep ha hact htarget
      rw [hr] at hsome
      cases hsome
  | some y =>
      obtain ⟨c, r⟩ := y
      obtain ⟨hw, -, hc, -⟩ := Event.request_eq hr
      have hout := transmitted_eq hrep hs hstep hr
      have hhear : g.hear say mutex s.kernel e = g.call say mutex c r := by rw [Printer.hear, hr]
      have hprint := hp (c, r) hr
      dsimp only at hprint
      split at hprint
      · next hmade =>
        rcases hprint with rfl | htouch
        · refine .lock c hc hmade (lock_act hm hr) ?_ hout
          rw [hhear, Printer.call, if_pos hmade, if_pos rfl]
        · have hne : r ≠ lockRequest mutex := by
            rintro rfl
            simp [Request.touches, lockRequest] at htouch
          have htrans : r.transmits = false := by
            rw [Request.touches, Bool.or_eq_false_iff] at htouch
            exact htouch.2
          refine .other ?_ (hout.trans (if_neg (by rw [htrans]; exact Bool.false_ne_true)))
            fun act hact htarget => ?_
          · rw [hhear, Printer.call, if_pos hmade, if_neg hne]
          · obtain ⟨d, r', hsome, -, htouch', -⟩ :=
              Event.request_of_act hrep hs hstep ha hact htarget
            obtain ⟨-, rfl⟩ := Prod.mk.inj (Option.some.inj (hr.symm.trans hsome))
            rw [htouch] at htouch'
            cases htouch'
      · next hmade =>
        obtain ⟨n, hn⟩ := Nat.exists_eq_succ_of_ne_zero hmade
        rw [hn] at hprint
        rcases print_request hprint with ⟨x, hx, rfl⟩ | ⟨hlen, rfl⟩
        · obtain ⟨hlt, -⟩ := List.getElem?_eq_some_iff.mp hx
          rw [commands, List.length_map] at hlt
          refine .command c n x hc hn hx (command_act hr) ?_ (hout.trans (if_pos command_transmits))
          rw [hhear, Printer.call, if_neg hmade, if_neg (by omega), hn]
        · refine .unlock c hc (by omega) (unlock_act hm hr) ?_ hout
          rw [hhear, Printer.call, if_neg hmade, if_pos (by omega)]

end Says

/-! ### Who is printing -/

/-- What the processes have sent of their messages and what is left, if those in `l` wait for the
mutex. -/
def Printer.sending (say : ℕ → List Word) (g : Printer) (l : List Pcb) : Sending Pcb Word :=
  fun p =>
  if g.made p = 0 ∨ p ∈ l then none
  else some ((commands (say (g.number p))).take (g.made p - 1),
    (commands (say (g.number p))).drop (g.made p - 1))

/-- The processes in `l` wait for the mutex, each asking for `r`, and those in `free` are dead: who
is printing waits for the unit or holds it, and what has been sent are the messages begun. -/
structure Printed (say : ℕ → List Word) (l free : List Pcb) (r : Pcb → ℤ) (h : Holdings)
    (g : Printer) :
    Prop where
  idle : ∀ p, g.made p = 0 → h.held p = 0 ∧ p ∉ l
  waits : ∀ p ∈ l, g.made p = 1 ∧ h.held p = 0 ∧ r p = -1
  holds : ∀ p ∉ l, g.made p ≠ 0 → h.held p = 1 ∧ g.made p ≤ (say (g.number p)).length + 1
  dead : ∀ p ∈ free, g.made p = 0
  order : (g.begun ++ l.map g.number).Pairwise (· < ·)
  below : ∀ n ∈ g.begun ++ l.map g.number, n < g.calls
  lost : 0 ≤ h.lost
  whole : ∃ b, Whole (g.sending say l) b (g.begun.map fun n => commands (say n)) g.printed ∧
    (b = true → 1 ≤ h.lost)

section Printed

variable {say : ℕ → List Word} {l l' free free' dead : List Pcb} {r r' : Pcb → ℤ} {h h' : Holdings}
  {g g' : Printer} {c p q : Pcb} {n : ℕ} {x : Word}

theorem sending_none : g.sending say l p = none ↔ g.made p = 0 ∨ p ∈ l := by
  unfold Printer.sending
  split
  · next hp => exact iff_of_true rfl hp
  · next hp => exact iff_of_false (Option.some_ne_none _) hp

theorem sending_some (hp : g.made p ≠ 0) (hl : p ∉ l) :
    g.sending say l p = some ((commands (say (g.number p))).take (g.made p - 1),
      (commands (say (g.number p))).drop (g.made p - 1)) := if_neg (not_or.mpr ⟨hp, hl⟩)

theorem Printed.held_nonneg (hg : Printed say l free r h g) (p : Pcb) : 0 ≤ h.held p := by
  by_cases hp : g.made p = 0
  · rw [(hg.idle p hp).1]
  · by_cases hl : p ∈ l
    · rw [(hg.waits p hl).2.1]
    · rw [(hg.holds p hl hp).1]
      exact zero_le_one

/-- Who was not sending and has made no call since is not sending. -/
theorem sending_congr (hnone : g.sending say l p = none) (hmade : g'.made p = g.made p)
    (hl : p ∈ l → p ∈ l' ∨ g'.made p = 0) : g'.sending say l' p = none := by
  rw [sending_none] at hnone ⊢
  rcases hnone with hp | hp
  · exact Or.inl (hmade.trans hp)
  · exact (hl hp).symm

/-- The process whose turn it is sends one more command. -/
theorem Printed.emit (hg : Printed say l free r h g) (hl : c ∉ l) (hmade : g.made c = n + 1)
    (hx : (commands (say (g.number c)))[n]? = some x) (hfree : free' ⊆ free)
    (hr : ∀ p ∈ l, r' p = r p)
    (hheld : h'.held = h.held) (hlost : h'.lost = h.lost) (hcalls : g'.calls = g.calls)
    (hnumber : g'.number = g.number) (hown : g'.made c = n + 2)
    (hothers : ∀ p, p ≠ c → g'.made p = g.made p)
    (hbegun : g'.begun = g.begun) (hprinted : g'.printed = g.printed ++ [x]) :
    Printed say l free' r' h' g' := by
  obtain ⟨hlt, hget⟩ := List.getElem?_eq_some_iff.mp hx
  have hne : g.made c ≠ 0 := by omega
  obtain ⟨b, hwhole, hb⟩ := hg.whole
  have hsend : g.sending say l c =
      some ((commands (say (g.number c))).take n, x :: (commands (say (g.number c))).drop
        (n + 1)) := by
    rw [sending_some hne hl, hmade, Nat.add_sub_cancel, ← hget, ← List.drop_eq_getElem_cons hlt]
  constructor
  · intro p hp
    have hpc : p ≠ c := by
      rintro rfl
      omega
    rw [hheld]
    exact hg.idle p ((hothers p hpc).symm.trans hp)
  · intro p hp
    have hpc : p ≠ c := fun he => hl (he ▸ hp)
    rw [hheld, hr p hp, hothers p hpc]
    exact hg.waits p hp
  · intro p hp hmp
    rw [hheld, hnumber]
    by_cases hpc : p = c
    · subst hpc
      rw [commands, List.length_map] at hlt
      exact ⟨(hg.holds p hp hne).1, by omega⟩
    · rw [hothers p hpc] at hmp ⊢
      exact hg.holds p hp hmp
  · intro p hp
    have hpc : p ≠ c := by
      rintro rfl
      exact hne (hg.dead p (hfree hp))
    rw [hothers p hpc]
    exact hg.dead p (hfree hp)
  · rw [hbegun, hnumber]
    exact hg.order
  · rw [hbegun, hnumber, hcalls]
    exact hg.below
  · rw [hlost]
    exact hg.lost
  · refine ⟨b, ?_, by rw [hlost]; exact hb⟩
    rw [hbegun, hprinted]
    have hidle := (hwhole.of_sending hsend).1
    convert hwhole.emit hsend using 1
    funext p
    by_cases hpc : p = c
    · subst hpc
      rw [sending_some (by omega) hl, Function.update_self, hnumber, hown,
        show n + 2 - 1 = n + 1 from rfl,
        List.take_add_one, hx]
      rfl
    · have hnone := congrFun hidle p
      rw [Function.update_of_ne hpc] at hnone ⊢
      exact sending_congr hnone (hothers p hpc) Or.inl

theorem Printed.still (hg : Printed say l free r h g) (hfree : free' ⊆ free)
    (hr : ∀ p ∈ l, r' p = r p)
    (hheld : h'.held = h.held) (hlost : h'.lost = h.lost) : Printed say l free' r' h' g := by
  refine ⟨fun p hp => ?_, fun p hp => ?_, fun p hp hmp => ?_, fun p hp => hg.dead p (hfree hp),
    hg.order, hg.below, hlost ▸ hg.lost, hlost ▸ hg.whole⟩
  · rw [hheld]
    exact hg.idle p hp
  · rw [hheld, hr p hp]
    exact hg.waits p hp
  · rw [hheld]
    exact hg.holds p hp hmp

/-- The processes in `dead` die: they wait no more, and the unit of who was printing is lost. -/
theorem Printed.kill (hg : Printed say l free r h g) (hr : ∀ p ∈ l, p ∉ dead → r' p = r p)
    (hheld : ∀ p, h'.held p = if p ∈ free ++ dead then 0 else h.held p)
    (hlost : h'.lost = h.lost + ∑ p, if p ∈ free ++ dead then h.held p else 0)
    (hcalls : g'.calls = g.calls)
    (hnumber : g'.number = g.number)
    (hmade : ∀ p, g'.made p = if p ∈ free ++ dead then 0 else g.made p)
    (hbegun : g'.begun = g.begun) (hprinted : g'.printed = g.printed) :
    Printed say (l.filter (· ∉ dead)) (free ++ dead) r' h' g' := by
  obtain ⟨b, hwhole, hb⟩ := hg.whole
  have hle : ∀ p, p ∈ free ++ dead → h.held p ≤ h'.lost - h.lost := by
    intro p hp
    have hsingle := Finset.single_le_sum (f := fun p => if p ∈ free ++ dead then h.held p else 0)
      (fun q _ => by split <;> [exact hg.held_nonneg q; exact le_rfl]) (Finset.mem_univ p)
    rw [if_pos hp] at hsingle
    omega
  have hmore : h.lost ≤ h'.lost := by
    have hsum : 0 ≤ ∑ p, if p ∈ free ++ dead then h.held p else 0 :=
      Finset.sum_nonneg fun q _ => by split <;> [exact hg.held_nonneg q; exact le_rfl]
    omega
  have hnone : ∀ p, g.sending say l p = none → g'.sending say (l.filter (· ∉ dead)) p = none := by
    intro p hp
    rw [sending_none, hmade]
    split
    · exact Or.inl rfl
    · next hf =>
      refine (sending_none.mp hp).imp_right fun hpl => List.mem_filter.mpr ⟨hpl, ?_⟩
      simpa using fun hd => hf (List.mem_append_right _ hd)
  have hsub : (l.filter (· ∉ dead)).Sublist l := List.filter_sublist
  constructor
  · intro p hp
    rw [hmade] at hp
    rw [hheld]
    split at hp
    · next hf =>
      rw [if_pos hf]
      refine ⟨rfl, fun hpl => ?_⟩
      obtain ⟨hpl, hpd⟩ := List.mem_filter.mp hpl
      rcases List.mem_append.mp hf with hpf | hpf
      · have hzero := hg.dead p hpf
        have hone := (hg.waits p hpl).1
        omega
      · exact absurd hpf (of_decide_eq_true hpd)
    · next hf =>
      rw [if_neg hf]
      exact ⟨(hg.idle p hp).1, fun hpl => (hg.idle p hp).2 (hsub.subset hpl)⟩
  · intro p hp
    obtain ⟨hpl, hpd⟩ := List.mem_filter.mp hp
    have hpd := of_decide_eq_true hpd
    have hf : p ∉ free ++ dead := by
      rw [List.mem_append, or_iff_left hpd]
      intro hpf
      have hzero := hg.dead p hpf
      have hone := (hg.waits p hpl).1
      omega
    rw [hmade, if_neg hf, hheld, if_neg hf, hr p hpl hpd]
    exact hg.waits p hpl
  · intro p hp hmp
    rw [hmade] at hmp
    have hf : p ∉ free ++ dead := fun hf => hmp (if_pos hf)
    rw [if_neg hf] at hmp
    rw [hheld, if_neg hf, hmade, if_neg hf, hnumber]
    refine hg.holds p (fun hpl => hp (List.mem_filter.mpr ⟨hpl, ?_⟩)) hmp
    simpa using fun hd => hf (List.mem_append_right _ hd)
  · intro p hp
    rw [hmade, if_pos hp]
  · rw [hbegun, hnumber]
    exact hg.order.sublist ((hsub.map _).append_left _)
  · rw [hbegun, hnumber, hcalls]
    exact fun n hn => hg.below n (((hsub.map _).append_left _).subset hn)
  · exact hg.lost.trans hmore
  · rw [hbegun, hprinted]
    by_cases hbusy : ∃ p ∈ dead, g.sending say l p ≠ none
    · obtain ⟨p, hpd, hp⟩ := hbusy
      obtain ⟨⟨d, rest⟩, hsend⟩ := Option.ne_none_iff_exists'.mp hp
      have hmp : g.made p ≠ 0 ∧ p ∉ l := not_or.mp fun hor => hp (sending_none.mpr hor)
      have hone := (hg.holds p hmp.2 hmp.1).1
      have hloss := hle p (List.mem_append_right _ hpd)
      have hlost' := hg.lost
      refine ⟨true, ?_, fun _ => by omega⟩
      have hidle : g'.sending say (l.filter (· ∉ dead)) = Turns.idle := by
        funext q
        by_cases hq : g.sending say l q = none
        · exact hnone q hq
        · obtain rfl := hwhole.unique hq hp
          exact sending_none.mpr (Or.inl ((hmade q).trans (if_pos (List.mem_append_right _ hpd))))
      rw [hidle]
      exact hwhole.leave hsend
    · have hsame : g'.sending say (l.filter (· ∉ dead)) = g.sending say l := by
        funext p
        by_cases hp : g.sending say l p = none
        · rw [hp]
          exact hnone p hp
        · have hmp : g.made p ≠ 0 ∧ p ∉ l := not_or.mp fun hor => hp (sending_none.mpr hor)
          have hf : p ∉ free ++ dead := by
            rw [List.mem_append]
            rintro (hpf | hpd)
            · exact hmp.1 (hg.dead p hpf)
            · exact hbusy ⟨p, hpd, hp⟩
          have hmade' : g'.made p = g.made p := (hmade p).trans (if_neg hf)
          rw [sending_some hmp.1 hmp.2, sending_some (by rw [hmade']; exact hmp.1)
            fun hpl => hmp.2 (hsub.subset hpl), hmade', hnumber]
      rw [hsame]
      exact ⟨b, hwhole, fun hbt => (hb hbt).trans hmore⟩

/-- One unit has one holder. -/
theorem sole_holder (hheld : ∀ p, 0 ≤ h'.held p) (hlost : 0 ≤ h'.lost)
    (hone : ∑ p, h'.held p + h'.lost ≤ 1)
    (hc : h'.held c = 1) : h'.lost = 0 ∧ ∀ q, q ≠ c → h'.held q = 0 := by
  have hle : h'.held c ≤ ∑ p, h'.held p :=
    Finset.single_le_sum (fun q _ => hheld q) (Finset.mem_univ c)
  refine ⟨by omega, fun q hqc => ?_⟩
  have htwo : h'.held q + h'.held c ≤ ∑ p, h'.held p := by
    rw [← Finset.sum_pair hqc]
    exact Finset.sum_le_univ_sum_of_nonneg hheld
  have hq := hheld q
  omega

/-- A process asks for the mutex to print its message, and has to wait. -/
theorem Printed.ask (hg : Printed say l free r h g) (hmade : g.made c = 0) (hcf : c ∉ free)
    (hr : ∀ p ∈ l, r' p = r p) (hrc : r' c = -1) (hheld : h'.held = h.held)
    (hlost : h'.lost = h.lost)
    (hcalls : g'.calls = g.calls + 1) (hnumber : g'.number = Function.update g.number c g.calls)
    (hown : g'.made c = 1) (hothers : ∀ p, p ≠ c → g'.made p = g.made p)
    (hbegun : g'.begun = g.begun)
    (hprinted : g'.printed = g.printed) : Printed say (l ++ [c]) free r' h' g' := by
  obtain ⟨b, hwhole, hb⟩ := hg.whole
  obtain ⟨hzero, hcl⟩ := hg.idle c hmade
  have hnumber' : ∀ p, p ≠ c → g'.number p = g.number p := fun p hp => by
    rw [hnumber, Function.update_of_ne hp]
  have hne : ∀ p ∈ l, p ≠ c := fun p hp he => hcl (he ▸ hp)
  have hmap : (l ++ [c]).map g'.number = l.map g.number ++ [g.calls] := by
    rw [List.map_append, List.map_congr_left fun p hp => hnumber' p (hne p hp), List.map_singleton,
      hnumber, Function.update_self]
  constructor
  · intro p hp
    have hpc : p ≠ c := by
      rintro rfl
      omega
    rw [hheld, List.mem_append, List.mem_singleton, or_iff_left hpc]
    exact hg.idle p ((hothers p hpc).symm.trans hp)
  · intro p hp
    rw [hheld]
    rcases List.mem_append.mp hp with hp | hp
    · rw [hr p hp, hothers p (hne p hp)]
      exact hg.waits p hp
    · obtain rfl := List.mem_singleton.mp hp
      exact ⟨hown, hzero, hrc⟩
  · intro p hp hmp
    rw [List.mem_append, List.mem_singleton, not_or] at hp
    rw [hothers p hp.2] at hmp ⊢
    rw [hheld, hnumber' p hp.2]
    exact hg.holds p hp.1 hmp
  · intro p hp
    rw [hothers p fun he => hcf (he ▸ hp)]
    exact hg.dead p hp
  · rw [hbegun, hmap, ← List.append_assoc, List.pairwise_append]
    refine ⟨hg.order, List.pairwise_singleton _ _, fun n hn m hm => ?_⟩
    rw [List.mem_singleton.mp hm]
    exact hg.below n hn
  · rw [hbegun, hmap, ← List.append_assoc, hcalls]
    intro n hn
    rcases List.mem_append.mp hn with hn | hn
    · exact (hg.below n hn).trans (Nat.lt_succ_self _)
    · rw [List.mem_singleton.mp hn]
      exact Nat.lt_succ_self _
  · rw [hlost]
    exact hg.lost
  · refine ⟨b, ?_, by rw [hlost]; exact hb⟩
    rw [hbegun, hprinted]
    convert hwhole using 1
    funext p
    by_cases hpc : p = c
    · rw [hpc, sending_none.mpr (Or.inl hmade),
        sending_none.mpr (Or.inr (List.mem_append_right _ List.mem_cons_self))]
    · unfold Printer.sending
      rw [hothers p hpc, hnumber' p hpc]
      simp only [List.mem_append, List.mem_singleton, hpc, or_false]

/-- A process gets the mutex at once. -/
theorem Printed.enter (hg : Printed say [] free r h g) (hmade : g.made c = 0) (hcf : c ∉ free)
    (hheld : ∀ p, h'.held p = if p = c then 1 else h.held p) (hlost : h'.lost = h.lost)
    (hone : ∑ p, h'.held p + h'.lost ≤ 1) (hcalls : g'.calls = g.calls + 1)
    (hnumber : g'.number = Function.update g.number c g.calls) (hown : g'.made c = 1)
    (hothers : ∀ p, p ≠ c → g'.made p = g.made p) (hbegun : g'.begun = g.begun ++ [g.calls])
    (hprinted : g'.printed = g.printed) : Printed say [] free r' h' g' := by
  have hcc : h'.held c = 1 := (hheld c).trans (if_pos rfl)
  have hnonneg : ∀ p, 0 ≤ h'.held p := fun p => by
    rw [hheld]
    split
    · exact zero_le_one
    · exact hg.held_nonneg p
  obtain ⟨hlost', hsole⟩ := sole_holder hnonneg (hlost ▸ hg.lost) hone hcc
  have hquiet : ∀ p, p ≠ c → g.made p = 0 := fun p hpc => by
    by_contra hmp
    have hholds := (hg.holds p List.not_mem_nil hmp).1
    have hnot := (hheld p).symm.trans (hsole p hpc)
    rw [if_neg hpc] at hnot
    omega
  have hidle : g.sending say [] = Turns.idle := by
    funext p
    refine sending_none.mpr (Or.inl ?_)
    by_cases hpc : p = c
    · rw [hpc, hmade]
    · exact hquiet p hpc
  obtain ⟨b, hwhole, hb⟩ := hg.whole
  obtain rfl : b = false := by
    cases b with
    | false => rfl
    | true =>
        have htorn := hb rfl
        omega
  have horder := hg.order
  have hbelow := hg.below
  rw [List.map_nil, List.append_nil] at horder hbelow
  constructor
  · intro p hp
    have hpc : p ≠ c := by
      rintro rfl
      omega
    exact ⟨hsole p hpc, List.not_mem_nil⟩
  · exact fun p hp => absurd hp List.not_mem_nil
  · intro p _ hmp
    by_cases hpc : p = c
    · subst hpc
      exact ⟨hcc, by omega⟩
    · exact absurd ((hothers p hpc).trans (hquiet p hpc)) hmp
  · intro p hp
    have hpc : p ≠ c := fun he => hcf (he ▸ hp)
    exact (hothers p hpc).trans (hquiet p hpc)
  · rw [List.map_nil, List.append_nil, hbegun, List.pairwise_append]
    refine ⟨horder, List.pairwise_singleton _ _, fun n hn m hm => ?_⟩
    rw [List.mem_singleton.mp hm]
    exact hbelow n hn
  · rw [List.map_nil, List.append_nil, hbegun, hcalls]
    intro n hn
    rcases List.mem_append.mp hn with hn | hn
    · exact (hbelow n hn).trans (Nat.lt_succ_self _)
    · rw [List.mem_singleton.mp hn]
      exact Nat.lt_succ_self _
  · rw [hlost']
  · refine ⟨false, ?_, fun hf => absurd hf Bool.false_ne_true⟩
    rw [hbegun, hprinted, List.map_append, List.map_singleton]
    convert hwhole.begin hidle c (commands (say g.calls)) using 1
    funext p
    by_cases hpc : p = c
    · subst hpc
      rw [Function.update_self, sending_some (by omega) List.not_mem_nil, hown, hnumber,
        Function.update_self]
      rfl
    · rw [Function.update_of_ne hpc]
      exact sending_none.mpr (Or.inl ((hothers p hpc).trans (hquiet p hpc)))

/-- A process has sent its message and returns the unit, which goes to the first one that waits. -/
theorem Printed.leave {woken : List Pcb} (hg : Printed say (woken ++ l) free r h g)
    (hmade : g.made c = (say (g.number c)).length + 1) (hcl : c ∉ woken ++ l)
    (hnd : (woken ++ l).Nodup)
    (hr : ∀ p ∈ l, r' p = r p)
    (hheld : ∀ p, h'.held p = if p ∈ woken then 1 else if p = c then 0 else h.held p)
    (hlost : h'.lost = h.lost) (hone : ∑ p, h'.held p + h'.lost ≤ 1) (hcalls : g'.calls = g.calls)
    (hnumber : g'.number = g.number) (hown : g'.made c = 0)
    (hothers : ∀ p, p ≠ c → g'.made p = g.made p)
    (hbegun : g'.begun = g.begun ++ woken.map g.number) (hprinted : g'.printed = g.printed) :
    Printed say l free r' h' g' := by
  have hne : g.made c ≠ 0 := by omega
  have hcf : c ∉ free := fun hf => hne (hg.dead c hf)
  have hsub : ∀ p ∈ l, p ≠ c := fun p hp he => hcl (he ▸ List.mem_append_right _ hp)
  have hwl : ∀ p ∈ l, p ∉ woken := fun p hp hw => List.disjoint_of_nodup_append hnd hw hp
  have hnonneg : ∀ p, 0 ≤ h'.held p := fun p => by
    rw [hheld]
    split
    · exact zero_le_one
    · split
      · exact le_rfl
      · exact hg.held_nonneg p
  constructor
  · intro p hp
    rw [hheld]
    by_cases hpc : p = c
    · rw [if_neg (hpc ▸ fun hw => hcl (List.mem_append_left _ hw)), if_pos hpc]
      exact ⟨rfl, fun hl => hsub p hl hpc⟩
    · obtain ⟨hzero, hout⟩ := hg.idle p ((hothers p hpc).symm.trans hp)
      rw [if_neg fun hw => hout (List.mem_append_left _ hw), if_neg hpc]
      exact ⟨hzero, fun hl => hout (List.mem_append_right _ hl)⟩
  · intro p hp
    rw [hheld, if_neg (hwl p hp), if_neg (hsub p hp), hothers p (hsub p hp), hr p hp]
    exact hg.waits p (List.mem_append_right _ hp)
  · intro p hp hmp
    have hpc : p ≠ c := fun he => hmp (he ▸ hown)
    rw [hothers p hpc] at hmp ⊢
    rw [hheld, hnumber]
    by_cases hw : p ∈ woken
    · have hmade := (hg.waits p (List.mem_append_left _ hw)).1
      rw [if_pos hw]
      exact ⟨rfl, by omega⟩
    · rw [if_neg hw, if_neg hpc]
      exact hg.holds p (fun hl => (List.mem_append.mp hl).elim hw hp) hmp
  · intro p hp
    rw [hothers p fun he => hcf (he ▸ hp)]
    exact hg.dead p hp
  · rw [hbegun, hnumber, List.append_assoc, ← List.map_append]
    exact hg.order
  · rw [hbegun, hnumber, hcalls, List.append_assoc, ← List.map_append]
    exact hg.below
  · rw [hlost]
    exact hg.lost
  · obtain ⟨b, hwhole, hb⟩ := hg.whole
    have hlen : (commands (say (g.number c))).length = g.made c - 1 := by
      rw [commands, List.length_map]
      omega
    have hsend : g.sending say (woken ++ l) c = some (commands (say (g.number c)), []) := by
      rw [sending_some hne hcl, ← hlen, List.take_length, List.drop_length]
    obtain ⟨honly, rfl, -⟩ := hwhole.of_sending hsend
    have hdone := hwhole.finish hsend
    -- whoever is not woken has nothing to send
    have hrest : ∀ p ∉ woken, g'.sending say l p = none := by
      intro p hp
      rw [sending_none]
      by_cases hpc : p = c
      · exact Or.inl (hpc ▸ hown)
      · have hnone := congrFun honly p
        rw [Function.update_of_ne hpc] at hnone
        rcases sending_none.mp hnone with hz | hl
        · exact Or.inl ((hothers p hpc).trans hz)
        · exact Or.inr ((List.mem_append.mp hl).resolve_left hp)
    refine ⟨false, ?_, fun hf => absurd hf Bool.false_ne_true⟩
    rw [hbegun, hprinted, List.map_append]
    cases woken with
    | nil =>
        have hidle : g'.sending say l = Turns.idle := funext fun p => hrest p List.not_mem_nil
        rw [hidle]
        simpa using hdone
    | cons q rest =>
        have hq : h'.held q = 1 := by rw [hheld, if_pos List.mem_cons_self]
        obtain rfl : rest = [] := by
          cases rest with
          | nil => rfl
          | cons t rest =>
              have hqt : t ≠ q := by
                rintro rfl
                simp at hnd
              have ht := (sole_holder hnonneg (hlost ▸ hg.lost) hone hq).2 t hqt
              rw [hheld, if_pos (List.mem_cons_of_mem _ List.mem_cons_self)] at ht
              cases ht
        rw [List.map_singleton, List.map_singleton]
        convert hdone.begin rfl q (commands (say (g.number q))) using 1
        funext p
        by_cases hpq : p = q
        · subst hpq
          have hmade := (hg.waits p (List.mem_append_left _ List.mem_cons_self)).1
          have hpc : p ≠ c := fun he => hcl (he ▸ List.mem_append_left _ List.mem_cons_self)
          have hown' := hothers p hpc
          have hpl : p ∉ l := fun hl => hwl p hl List.mem_cons_self
          rw [Function.update_self, sending_some (by omega) hpl, hown', hmade, hnumber]
          rfl
        · rw [Function.update_of_ne hpq]
          exact hrest p fun hp => hpq (List.mem_singleton.mp hp)

end Printed

section Turns

variable [Platform] {say : ℕ → List Word} {mutex : Word} {v v' : View} {s s' : Sys} {e : Event}
    {h h₁ : Holdings}
  {g : Printer} {c t : Pcb} {dead : List Pcb} {w : ℤ}

def InTurns (say : ℕ → List Word) (mutex : Word) (s : Sys) (h : Holdings) (g : Printer) : Prop :=
  Printed say (s.waiters mutex.toNat) (freeList s.kernel) s.kernel.resWait h g

theorem made_self {n : ℕ} (hc : c ∉ freeList s'.kernel)
    (hhear : (g.hear say mutex s.kernel e).made = Function.update g.made c n) :
    (notePrinter say mutex (s, h) e (s', h₁) g).made c = n := by
  simp only [notePrinter, hhear, if_neg hc, Function.update_self]

theorem made_others {n : ℕ} (hdead : ∀ p ∈ freeList s'.kernel, g.made p = 0)
    (hhear : (g.hear say mutex s.kernel e).made = Function.update g.made c n) (p : Pcb)
    (hp : p ≠ c) :
    (notePrinter say mutex (s, h) e (s', h₁) g).made p = g.made p := by
  simp only [notePrinter, hhear, Function.update_of_ne hp]
  split
  · next hf => exact (hdead p hf).symm
  · rfl

theorem mutex_device (ha : isDeviceSem mutex.toNat = false) : semAddr 32 ≠ mutex.toNat := by
  intro he
  rw [← he, isDeviceSem_semAddr (by decide)] at ha
  cases ha

/-- A step that leaves the mutex alone: a command is given, or nothing that matters. -/
theorem InTurns.quiet (hg : InTurns say mutex s h g) (hentry : Says say mutex s e s' g)
    (hrep : Rep s.kernel.core v) (hrep' : Rep s'.kernel.core v')
    (hact : ∀ act ∈ e.act s.kernel, act.target ≠ some mutex.toNat)
    (hqueue : s'.waiters mutex.toNat = s.waiters mutex.toNat)
    (hfree : freeList s'.kernel ⊆ freeList s.kernel)
    (hr : ∀ p ∈ s.waiters mutex.toNat, s'.kernel.resWait p = s.kernel.resWait p) :
    InTurns say mutex s' (noteUnits mutex.toNat s e s' h)
      (notePrinter say mutex (s, h) e (s', h₁) g) := by
  have hwoken : wokenFrom mutex.toNat (s, e, s') = [] :=
    wokenFrom_nil hrep' fun x hx => Or.inl (hqueue ▸ hx)
  have hadm : admitted mutex.toNat (s, e, s') = [] :=
    admitted_nil fun act ha w hw => absurd (by rw [hw]; rfl) (hact act ha)
  have hsup : supplied mutex.toNat (s, e, s') = 0 :=
    supplied_none fun act ha w hw => absurd (by rw [hw]; rfl) (hact act ha)
  have hsame : ∀ p, h.balance mutex.toNat (s, e, s') p = h.held p :=
    fun p => balance_same hwoken hadm hsup
  obtain ⟨hheld, hlost⟩ := noteUnits_alive (h := h) fun p hp =>
    (hsame p).trans (hg.idle p (hg.dead p (hfree hp))).1
  have hheld' := hheld.trans (funext hsame)
  unfold InTurns
  rw [hqueue]
  cases hentry with
  | other hhear hout =>
      have hmade : (fun p => if p ∈ freeList s'.kernel then 0 else g.made p) = g.made := by
        funext p
        split
        · next hp => exact (hg.dead p (hfree hp)).symm
        · rfl
      have hnote : notePrinter say mutex (s, h) e (s', h₁) g = g := by
        simp only [notePrinter, hhear, hwoken, hadm, hout, hmade, List.append_nil, List.map_nil]
      rw [hnote]
      exact hg.still hfree hr hheld' hlost
  | lock c hc hmade hlock => exact absurd rfl (hact _ hlock)
  | command c n x hc hmade hx hcmd hhear hout =>
      have hcf : c ∉ freeList s'.kernel := fun hf => hrep.running_alive hc (hfree hf)
      refine hg.emit (hrep.current_apart hc) hmade hx hfree hr hheld' hlost ?_ ?_ ?_ ?_ ?_ ?_
      · simp only [notePrinter, hhear]
      · simp only [notePrinter, hhear]
      · exact made_self hcf (congrArg Printer.made hhear)
      · exact made_others (fun p hf => hg.dead p (hfree hf)) (congrArg Printer.made hhear)
      · simp only [notePrinter, hwoken, hadm, List.append_nil, List.map_nil]
      · simp only [notePrinter, hout]
  | unlock c hc hmade hunlock => exact absurd rfl (hact _ hunlock)

/-- Processes die. -/
theorem InTurns.kill (hg : InTurns say mutex s h g) (hentry : Says say mutex s e s' g)
    (hrep' : Rep s'.kernel.core v') (hact : e.act s.kernel = some (.terminate t))
    (hqueue : s'.waiters mutex.toNat = (s.waiters mutex.toNat).filter (· ∉ dead))
    (hfree : freeList s'.kernel = freeList s.kernel ++ dead)
    (hr : ∀ p ∈ s.waiters mutex.toNat, p ∉ dead → s'.kernel.resWait p = s.kernel.resWait p) :
    InTurns say mutex s' (noteUnits mutex.toNat s e s' h)
      (notePrinter say mutex (s, h) e (s', h₁) g) := by
  have hwoken : wokenFrom mutex.toNat (s, e, s') = [] := by
    refine wokenFrom_nil hrep' fun x hx => ?_
    by_cases hd : x ∈ dead
    · exact Or.inr (hfree ▸ List.mem_append_right _ hd)
    · exact Or.inl (hqueue ▸ List.mem_filter.mpr ⟨hx, decide_eq_true hd⟩)
  have hadm : admitted mutex.toNat (s, e, s') = [] := by
    refine admitted_nil fun act ha w hw => ?_
    rw [hw, hact] at ha
    cases ha
  have hsup : supplied mutex.toNat (s, e, s') = 0 := by
    refine supplied_none fun act ha w hw => ?_
    rw [hw, hact] at ha
    cases ha
  have hsame : ∀ p, h.balance mutex.toNat (s, e, s') p = h.held p :=
    fun p => balance_same hwoken hadm hsup
  unfold InTurns
  rw [hqueue, hfree]
  cases hentry with
  | other hhear hout =>
      refine Printed.kill hg hr ?_ ?_ ?_ ?_ ?_ ?_ ?_
      · intro p
        rw [← hfree, ← hsame]
        rfl
      · rw [← hfree]
        simp only [← hsame]
        rfl
      · simp only [notePrinter, hhear]
      · simp only [notePrinter, hhear]
      · intro p
        simp only [notePrinter, hhear, hfree]
      · simp only [notePrinter, hwoken, hadm, List.append_nil, List.map_nil]
      · simp only [notePrinter, hout, List.append_nil]
  | lock c hc hmade hlock =>
      rw [hact] at hlock
      cases hlock
  | command c n x hc hmade hx hcmd =>
      rw [hact] at hcmd
      cases hcmd
  | unlock c hc hmade hunlock =>
      rw [hact] at hunlock
      cases hunlock

/-- The only `P` on the mutex is the first request of `print`. -/
theorem Says.lock_of_act (hentry : Says say mutex s e s' g) (ha : isDeviceSem mutex.toNat = false)
    (hc : s.kernel.currentProcess = some c)
    (hact : e.act s.kernel = some (.passeren mutex.toNat w)) :
    w = -1 ∧ g.made c = 0 ∧ e.transmitted s.kernel s'.kernel = [] ∧
      g.hear say mutex s.kernel e = { g with
        calls := g.calls + 1
        number := Function.update g.number c g.calls
        made := Function.update g.made c 1 } := by
  cases hentry with
  | other _ _ hother => exact absurd rfl (hother _ hact)
  | lock d hd hmade hlock hhear hout =>
      obtain rfl := Option.some.inj (hd.symm.trans hc)
      rw [hact] at hlock
      exact ⟨(Act.passeren.inj (Option.some.inj hlock)).2, hmade, hout, hhear⟩
  | command d n x _ _ _ hcmd =>
      rw [hact] at hcmd
      exact absurd (Act.passeren.inj (Option.some.inj hcmd)).1.symm (mutex_device ha)
  | unlock d _ _ hunlock =>
      rw [hact] at hunlock
      cases hunlock

/-- A process gets the mutex at once. -/
theorem InTurns.pass (hg : InTurns say mutex s h g) (hentry : Says say mutex s e s' g)
    (hrep : Rep s.kernel.core v) (ha : isDeviceSem mutex.toNat = false)
    (hact : e.act s.kernel = some (.passeren mutex.toNat w)) (hc : s.kernel.currentProcess = some c)
    (hempty : s.waiters mutex.toNat = []) (hempty' : s'.waiters mutex.toNat = [])
    (hfree : freeList s'.kernel = freeList s.kernel)
    (hone : ∑ p, (noteUnits mutex.toNat s e s' h).held p + (noteUnits mutex.toNat s e s' h).lost ≤
      1) :
    InTurns say mutex s' (noteUnits mutex.toNat s e s' h)
      (notePrinter say mutex (s, h) e (s', h₁) g) := by
  obtain ⟨rfl, hmade, hout, hhear⟩ := hentry.lock_of_act ha hc hact
  have hcf : c ∉ freeList s.kernel := hrep.running_alive hc
  have hwoken : wokenFrom mutex.toNat (s, e, s') = [] := by
    rw [wokenFrom, hempty]
    rfl
  have hadm : admitted mutex.toNat (s, e, s') = [c] := by
    simp [admitted, hact, hc, hempty']
  have hsup : supplied mutex.toNat (s, e, s') = 0 := by
    refine supplied_none fun act hact' w hw => ?_
    rw [hw, hact] at hact'
    cases hact'
  have hbalance : ∀ p, h.balance mutex.toNat (s, e, s') p = if p = c then 1 else h.held p := by
    intro p
    have hasks : e.asks mutex.toNat s.kernel = 1 := by simp [Event.asks, hact]
    rw [Holdings.balance, granted, returned, hsup, ite_self, sub_zero, hwoken,
      if_neg List.not_mem_nil, zero_add,
      hadm, hasks]
    by_cases hpc : p = c
    · rw [if_pos (List.mem_singleton.mpr hpc), if_pos hpc, hpc, (hg.idle c hmade).1, zero_add]
    · rw [if_neg (fun hp => hpc (List.mem_singleton.mp hp)), if_neg hpc, add_zero]
  obtain ⟨hheld, hlost⟩ := noteUnits_alive (h := h) (a := mutex.toNat) (s := s) (e := e) fun p hp =>
    by
    rw [hfree] at hp
    have hpc : p ≠ c := fun he => hcf (he ▸ hp)
    rw [hbalance, if_neg hpc]
    exact (hg.idle p (hg.dead p hp)).1
  unfold InTurns at hg ⊢
  rw [hempty] at hg
  rw [hempty', hfree]
  refine hg.enter hmade hcf (fun p => ?_) hlost hone ?_ ?_ ?_ ?_ ?_ ?_
  · rw [hheld, hbalance]
  · simp only [notePrinter, hhear]
  · simp only [notePrinter, hhear]
  · exact made_self (hfree ▸ hcf) (congrArg Printer.made hhear)
  · exact made_others (fun p hf => hg.dead p (hfree ▸ hf)) (congrArg Printer.made hhear)
  · simp only [notePrinter, hhear, hwoken, hadm, List.nil_append, List.map_singleton,
      Function.update_self]
  · simp only [notePrinter, hout, List.append_nil]

/-- A process has to wait for the mutex. -/
theorem InTurns.block (hg : InTurns say mutex s h g) (hentry : Says say mutex s e s' g)
    (hrep : Rep s.kernel.core v) (hrep' : Rep s'.kernel.core v')
    (ha : isDeviceSem mutex.toNat = false)
    (hact : e.act s.kernel = some (.passeren mutex.toNat w)) (hc : s.kernel.currentProcess = some c)
    (hqueue : s'.waiters mutex.toNat = s.waiters mutex.toNat ++ [c])
    (hfree : freeList s'.kernel = freeList s.kernel) (hrequest : s'.kernel.resWait c = w)
    (hr : ∀ p ∈ s.waiters mutex.toNat, s'.kernel.resWait p = s.kernel.resWait p) :
    InTurns say mutex s' (noteUnits mutex.toNat s e s' h)
      (notePrinter say mutex (s, h) e (s', h₁) g) := by
  obtain ⟨rfl, hmade, hout, hhear⟩ := hentry.lock_of_act ha hc hact
  have hcf : c ∉ freeList s.kernel := hrep.running_alive hc
  have hwoken : wokenFrom mutex.toNat (s, e, s') = [] :=
    wokenFrom_nil hrep' fun x hx => Or.inl (hqueue ▸ List.mem_append_left _ hx)
  have hadm : admitted mutex.toNat (s, e, s') = [] := by
    refine admitted_nil fun act _ w _ d hd => ?_
    obtain rfl := Option.some.inj (hc.symm.trans hd)
    exact hqueue ▸ List.mem_append_right _ List.mem_cons_self
  have hsup : supplied mutex.toNat (s, e, s') = 0 := by
    refine supplied_none fun act hact' w hw => ?_
    rw [hw, hact] at hact'
    cases hact'
  have hsame : ∀ p, h.balance mutex.toNat (s, e, s') p = h.held p :=
    fun p => balance_same hwoken hadm hsup
  obtain ⟨hheld, hlost⟩ := noteUnits_alive (h := h) fun p hp =>
    (hsame p).trans (hg.idle p (hg.dead p (hfree ▸ hp))).1
  unfold InTurns
  rw [hqueue, hfree]
  refine Printed.ask hg hmade hcf hr hrequest (hheld.trans (funext hsame)) hlost ?_ ?_ ?_ ?_ ?_ ?_
  · simp only [notePrinter, hhear]
  · simp only [notePrinter, hhear]
  · exact made_self (hfree ▸ hcf) (congrArg Printer.made hhear)
  · exact made_others (fun p hf => hg.dead p (hfree ▸ hf)) (congrArg Printer.made hhear)
  · simp only [notePrinter, hwoken, hadm, List.append_nil, List.map_nil]
  · simp only [notePrinter, hout, List.append_nil]

/-- A process returns the mutex. -/
theorem InTurns.serve (hg : InTurns say mutex s h g) (hentry : Says say mutex s e s' g)
    (hrep : Rep s.kernel.core v) (hact : e.act s.kernel = some (.verhogen mutex.toNat w))
    (hc : s.kernel.currentProcess = some c)
    (hqueue : s.waiters mutex.toNat = wokenFrom mutex.toNat (s, e, s') ++ s'.waiters mutex.toNat)
    (hfree : freeList s'.kernel = freeList s.kernel)
    (hr : ∀ p ∈ s'.waiters mutex.toNat, s'.kernel.resWait p = s.kernel.resWait p)
    (hone : ∑ p, (noteUnits mutex.toNat s e s' h).held p + (noteUnits mutex.toNat s e s' h).lost ≤
      1) :
    InTurns say mutex s' (noteUnits mutex.toNat s e s' h)
      (notePrinter say mutex (s, h) e (s', h₁) g) := by
  have hcf : c ∉ freeList s.kernel := hrep.running_alive hc
  have hcw : c ∉ s.waiters mutex.toNat := hrep.current_apart hc
  have hnd : (s.waiters mutex.toNat).Nodup := by
    rw [show s.waiters mutex.toNat = v.queue mutex.toNat from congrFun hrep.waiting_eq _]
    exact hrep.orderly.queue_nodup _
  have hadm : admitted mutex.toNat (s, e, s') = [] := by
    refine admitted_nil fun act hact' w hw => ?_
    rw [hw, hact] at hact'
    cases hact'
  cases hentry with
  | other _ _ hother => exact absurd rfl (hother _ hact)
  | lock d _ _ hlock =>
      rw [hact] at hlock
      cases hlock
  | command d n x _ _ _ hcmd =>
      rw [hact] at hcmd
      cases hcmd
  | unlock d hd hmade hunlock hhear hout =>
      obtain rfl := Option.some.inj (hd.symm.trans hc)
      rw [hact] at hunlock
      obtain ⟨-, rfl⟩ := Act.verhogen.inj (Option.some.inj hunlock)
      have hsup : supplied mutex.toNat (s, e, s') = 1 := by
        simp [supplied, Event.supplies, hact, Act.supply]
      have hholds : h.held d = 1 := (hg.holds d hcw (by omega)).1
      have hbalance : ∀ p, h.balance mutex.toNat (s, e, s') p =
          if p ∈ wokenFrom mutex.toNat (s, e, s') then 1 else if p = d then 0 else h.held p := by
        intro p
        rw [Holdings.balance, granted, returned, hsup, hadm, if_neg List.not_mem_nil, add_zero, hc]
        by_cases hw : p ∈ wokenFrom mutex.toNat (s, e, s')
        · have hp : p ∈ s.waiters mutex.toNat := hqueue ▸ List.mem_append_left _ hw
          obtain ⟨-, hzero, hminus⟩ := hg.waits p hp
          have hne : some d ≠ some p := fun he => hcw (Option.some.inj he ▸ hp)
          change h.held p + (if _ then -s.kernel.resWait p else 0) - _ = _
          rw [if_pos hw, if_neg hne, if_pos hw, hzero, hminus]
          rfl
        · rw [if_neg hw, if_neg hw]
          by_cases hpd : p = d
          · rw [if_pos hpd, if_pos (congrArg some hpd.symm), hpd, hholds]
            rfl
          · rw [if_neg hpd, if_neg fun he => hpd (Option.some.inj he).symm, add_zero, sub_zero]
      obtain ⟨hheld, hlost⟩ :=
        noteUnits_alive (h := h) (a := mutex.toNat) (s := s) (e := e) fun p hp => by
        rw [hfree] at hp
        have hzero := hg.dead p hp
        have hw : p ∉ wokenFrom mutex.toNat (s, e, s') := by
          intro hw
          have hwaits := (hg.waits p (hqueue ▸ List.mem_append_left _ hw)).1
          omega
        have hpd : p ≠ d := fun he => hcf (he ▸ hp)
        rw [hbalance, if_neg hw, if_neg hpd]
        exact (hg.idle p hzero).1
      unfold InTurns at hg ⊢
      rw [hqueue] at hg hcw hnd
      rw [hfree]
      refine hg.leave hmade hcw hnd hr (fun p => ?_) hlost hone ?_ ?_ ?_ ?_ ?_ ?_
      · rw [hheld, hbalance]
      · simp only [notePrinter, hhear]
      · simp only [notePrinter, hhear]
      · exact made_self (hfree ▸ hcf) (congrArg Printer.made hhear)
      · exact made_others (fun p hf => hg.dead p (hfree ▸ hf)) (congrArg Printer.made hhear)
      · simp only [notePrinter, hhear, hadm, List.append_nil]
      · simp only [notePrinter, hout, List.append_nil]

omit [Platform] in
/-- Somebody who waits for the mutex finds that it has been taken. -/
theorem InTurns.taken (hg : InTurns say mutex s h g) (hrep : Rep s.kernel.core v)
    (hunit : s.kernel.avail mutex.toNat ≤ 1) (hne : v.queue mutex.toNat ≠ []) :
    v.value mutex.toNat ≤ 0 := by
  obtain ⟨p, l, hq⟩ := List.exists_cons_of_ne_nil hne
  have hneg : ∀ x ∈ v.queue mutex.toNat, v.request x < 0 := hrep.orderly.requests_neg _
  have hwaits : p ∈ s.waiters mutex.toNat := by
    rw [Sys.waiters, hrep.waiting_eq, hq]
    exact List.mem_cons_self
  have hone : v.request p = -1 := (congrFun hrep.request p).symm.trans (hg.waits p hwaits).2.2
  rw [hrep.toWellFormed.avail_eq, View.avail, hq, demand_cons, hone] at hunit
  rw [hq] at hneg
  have hrest : 0 ≤ demand v.request l :=
    demand_nonneg fun x hx => hneg x (List.mem_cons_of_mem _ hx)
  omega

/-- A step keeps the messages apart. -/
theorem InTurns.step (hg : InTurns say mutex s h g) (hrep : Rep s.kernel.core v)
    (hunit : s.kernel.avail mutex.toNat ≤ 1) (hm : mutex ≠ 0) (ha : isDeviceSem mutex.toNat = false)
    (hk : KeepsUnits s e) (hp : Prints say mutex ((s, h), g) e) (hstep : s.step e = some s')
    (hone : ∑ p, (noteUnits mutex.toNat s e s' h).held p + (noteUnits mutex.toNat s e s' h).lost ≤
      1) :
    InTurns say mutex s' (noteUnits mutex.toNat s e s' h)
      (notePrinter say mutex (s, h) e (s', h₁) g) := by
  have hentry := hp.inversion hm ha hrep hk.ready hstep
  obtain ⟨acts, v', -, -, hrep'⟩ := nucleus_simulation (B := fun _ => True).step hrep hk.ready hstep
  have hr : ∀ p ∈ s.waiters mutex.toNat, p ∈ s'.waiters mutex.toNat →
      s'.kernel.resWait p = s.kernel.resWait p := fun p => Sys.step_request hrep ha hk.ready hstep
  cases Sys.step_touches hrep ha (hg.taken hrep hunit) hk hstep with
  | quiet hact hqueue hfree =>
      exact hg.quiet hentry hrep hrep' (fun act hsome => (hact act hsome).1) hqueue hfree
        fun p hp => hr p hp (hqueue ▸ hp)
  | kill t dead hact hqueue hfree =>
      refine hg.kill hentry hrep' hact hqueue hfree fun p hp hd => hr p hp ?_
      rw [hqueue]
      exact List.mem_filter.mpr ⟨hp, decide_eq_true hd⟩
  | pass c w hact hc hempty hempty' hfree =>
      exact hg.pass hentry hrep ha hact hc hempty hempty' hfree hone
  | block c w hact hc hqueue hfree hrequest =>
      refine hg.block hentry hrep hrep' ha hact hc hqueue hfree hrequest fun p hp => hr p hp ?_
      exact hqueue ▸ List.mem_append_left _ hp
  | serve c w hact hc hqueue hfree =>
      refine hg.serve hentry hrep hact hc hqueue hfree (fun p hp => hr p ?_ hp) hone
      exact hqueue ▸ List.mem_append_right _ hp

end Turns

section Runs

variable [Platform] {say : ℕ → List Word} {mutex : Word} {x : (Sys × Holdings) × Printer}

theorem printers_turns (hm : mutex ≠ 0) (ha : isDeviceSem mutex.toNat = false)
    (h : Reach (printers say mutex) (fun x e => KeepsUnits x.1.1 e ∧ Prints say mutex x e) x) :
    InTurns say mutex x.1.1 x.1.2 x.2 := by
  have hholders {y} (hy : Reach (printers say mutex)
      (fun x e => KeepsUnits x.1.1 e ∧ Prints say mutex x e) y) :
      Reach (holders mutex.toNat 1) (fun x e => KeepsUnits x.1 e) y.1 :=
    Reach.of_ghost (hy.mono fun _ _ hc => hc.1)
  induction h with
  | @init x hinit =>
      obtain ⟨⟨⟨k, -, hk, hboot⟩, hholdings⟩, hprinter⟩ := hinit
      have hrep : Rep x.1.1.kernel.core (View.boot (bootInts k.ints) k.resWait) :=
        (main_run hk hboot).2.1
      have hempty : x.1.1.waiters mutex.toNat = [] := congrFun hrep.waiting_eq _
      unfold InTurns
      rw [hempty, hholdings, hprinter]
      have hidle : Printer.sending say ⟨0, fun _ => 0, fun _ => 0, [], []⟩ [] = Turns.idle :=
        funext fun p => sending_none.mpr (Or.inl rfl)
      refine ⟨fun p _ => ⟨rfl, List.not_mem_nil⟩, fun p hp => absurd hp List.not_mem_nil,
        fun p _ hp => absurd rfl hp, fun p _ => rfl, .nil, fun n hn => absurd hn List.not_mem_nil,
        le_rfl, false, ?_, fun hf => absurd hf Bool.false_ne_true⟩
      rw [hidle]
      exact .quiet []
  | @step x y e h hc hs ih =>
      obtain ⟨v, hrep⟩ := holders_rep (hholders h)
      have hbefore := holders_sum ha (hholders h)
      have hheld : 0 ≤ ∑ p, x.1.2.held p := Finset.sum_nonneg fun p _ => ih.held_nonneg p
      have hlost := ih.lost
      have hy := hholders (.step h hc hs)
      have hafter := holders_sum ha hy
      have havail := holders_avail ha zero_le_one hy
      obtain ⟨⟨hstep, hnote⟩, hprinter⟩ := hs
      rw [hnote] at hafter
      rw [hprinter, hnote]
      exact ih.step hrep (by omega) hm ha hc.1 hc.2 hstep (by omega)

/-- The transmitter is given the messages in the order in which their printers asked for the mutex,
each in one piece and complete, but for the last one; that one is complete too if nobody is printing
and nobody was killed while printing. -/
theorem messages_whole (hm : mutex ≠ 0) (ha : isDeviceSem mutex.toNat = false)
    (h : Reach (printers say mutex) (fun x e => KeepsUnits x.1.1 e ∧ Prints say mutex x e) x) :
    x.2.begun.Pairwise (· < ·) ∧
      (x.2.begun.dropLast.map fun n => commands (say n)).flatten <+: x.2.printed ∧
      x.2.printed <+: (x.2.begun.map fun n => commands (say n)).flatten ∧
      ((∀ p, x.2.made p = 0) → x.1.2.lost = 0 →
        x.2.printed = (x.2.begun.map fun n => commands (say n)).flatten) := by
  have hg := printers_turns hm ha h
  obtain ⟨b, hwhole, hb⟩ := hg.whole
  refine ⟨(List.pairwise_append.mp hg.order).1, ?_, hwhole.out_prefix, fun hidle hlost => ?_⟩
  · rw [List.map_dropLast]
    exact hwhole.complete
  · obtain rfl : b = false := by
      cases b with
      | false => rfl
      | true =>
          have htorn := hb rfl
          omega
    exact hwhole.sent (funext fun p => sending_none.mpr (Or.inl (hidle p)))

end Runs

section Board

attribute [local instance] uarm

def letters (n : ℕ) : List Word := if n = 0 then [0x41] else [0x42, 0x43]

/-- The second process wants to print while the first one does; it prints when the first one is
done. -/
theorem messages_whole_two : ∃ x : (Sys × Holdings) × Printer, x.2.begun = [0, 1] ∧
    x.2.printed = (x.2.begun.map fun n => commands (letters n)).flatten := by
  have hrun : ((Sys.boot oneUnit).bind fun s =>
      follow (stepGhost (stepGhost Sys.step (noteUnits 0x5000)) (notePrinter letters 0x5000))
        (fun x e => Mild x.1.1 e ∧ Prints letters 0x5000 x e)
        [.dispatch, call 1, .dispatch, call 3 0x5000 (-1), .dispatch,
          call 10 (printCommand 0x41) intTerminal, .dispatch, call 3 0x5000 (-1), .dispatch,
          completion intTerminal 0, .dispatch, call 3 0x5000 1, .dispatch, completion intTimer 0,
          .dispatch,
          call 10 (printCommand 0x42) intTerminal, .dispatch, completion intTerminal 0, .dispatch,
          call 10 (printCommand 0x43) intTerminal, .dispatch, completion intTerminal 0, .dispatch,
          call 3 0x5000 1]
        ((s, ⟨fun _ => 0, 0⟩), ⟨0, fun _ => 0, fun _ => 0, [], []⟩)).any
      (fun x => x.2.begun = [0, 1] ∧ (∀ p, x.2.made p = 0) ∧ x.1.2.lost = 0) = true := by
        decide +kernel
  obtain ⟨x, hrun, hQ⟩ := (Option.any_eq_true _ _).mp hrun
  obtain ⟨s, hboot, hes⟩ := Option.bind_eq_some_iff.mp hrun
  obtain ⟨hbegun, hidle, hlost⟩ := of_decide_eq_true hQ
  have hreach : Reach (printers letters 0x5000) (fun x e => Mild x.1.1 e ∧
      Prints letters 0x5000 x e) x := by
    refine Reach.follow_ghost (f := stepGhost Sys.step (noteUnits 0x5000)) (fun y e z hs => ?_)
      ⟨⟨_, rfl, ⟨rfl, fun _ => rfl⟩, hboot⟩, rfl⟩ hes
    obtain ⟨s', hs', rfl⟩ := Option.map_eq_some_iff.mp hs
    exact ⟨hs', rfl⟩
  have hkeeps : Reach (printers letters 0x5000)
      (fun x e => KeepsUnits x.1.1 e ∧ Prints letters 0x5000 x e) x :=
    hreach.mono fun _ _ hc => ⟨hc.1.keepsWaiters.units, hc.2⟩
  exact ⟨x, hbegun, (messages_whole (by decide) (by decide) hkeeps).2.2.2 hidle hlost⟩

end Board

end JaeOS
