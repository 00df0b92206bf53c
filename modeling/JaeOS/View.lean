import JaeOS.AslRep
import JaeOS.Handlers
import JaeOS.PcbRep

/-!
# The nucleus as lists of processes

`View` is the abstract state: the free PCBs, the ready queue, the queue of every semaphore, the
integers that go with them and the tree of the processes alive. `Lists m v` says that the pointers
represent the free list and the semaphore queues of the view, `ReadyRing` that the ready queue is
represented too; the two are apart because killing a ready process leaves the first intact and may
break the second. The primitive moves of a PCB between lists are described once, on the view and on
the pointers.
-/

open LinkRing LinkForest

namespace JaeOS

/-- Where a PCB is linked. A PCB is `gone` when it has left a semaphore queue with its `p_cursem`
still set. -/
inductive Place where
  | free
  | ready
  | blocked (a : ℕ)
  | off
  | gone
  deriving Repr, DecidableEq

def Place.isBlocked : Place → Bool
  | .blocked _ => true
  | _ => false

theorem Place.isBlocked_iff {pl : Place} : pl.isBlocked ↔ ∃ a, pl = .blocked a := by
  cases pl <;> simp [Place.isBlocked]

structure View where
  free : List Pcb
  ready : List Pcb
  queue : ℕ → List Pcb
  place : Pcb → Place
  value : ℕ → ℤ
  request : Pcb → ℤ
  alive : ℤ
  soft : ℤ
  tree : Forest Pcb

namespace View

variable (v : View) (p : Pcb) (a : ℕ)

def setValue (i : ℤ) : View := { v with value := Function.update v.value a i }

def unblock : View :=
  { v with
    queue := Function.update v.queue a ((v.queue a).erase p)
    place := Function.update v.place p .gone
    soft := v.soft - 1 }

def settle : View :=
  { v with
    request := Function.update v.request p 0
    place := Function.update v.place p .off }

def take (l : List Pcb) : View :=
  { v with
    free := l
    place := Function.update v.place p .off
    request := Function.update v.request p 0 }

def toReady : View :=
  { v with ready := v.ready ++ [p], place := Function.update v.place p .ready }

def toFree : View :=
  { v with free := v.free ++ [p], place := Function.update v.place p .free }

def block (w : ℤ) : View :=
  { v with
    queue := Function.update v.queue a (v.queue a ++ [p])
    place := Function.update v.place p (.blocked a)
    request := Function.update v.request p w
    soft := v.soft + 1 }

def wake : View := ((v.unblock p a).settle p).toReady p

variable [Platform]

/-- A process that dies gives back its request, unless it waits on a device. -/
def refund : View :=
  if isDeviceSem a then v else v.setValue a (Platform.wrap (v.value a - v.request p))

def leave : View :=
  match v.place p with
  | .blocked a => (v.refund p a).unblock p a
  | _ => v

def bury : View := { v with alive := v.alive - 1, ready := v.ready.erase p }.toFree p

def kill : View := (v.leave p).bury p

def killAll (l : List Pcb) : View := l.foldl (fun v p => v.kill p) v

end View

structure Lists (m : Links maxproc) (v : View) : Prop where
  free_ring : Ring m.pList m.pcbFree v.free
  asl : AslRep m v.queue
  mem_free : ∀ p, p ∈ v.free ↔ v.place p = .free
  mem_queue : ∀ p a, p ∈ v.queue a ↔ v.place p = .blocked a
  null : v.queue 0 = []
  cursem : ∀ p, v.place p = .ready ∨ v.place p = .off → m.pCursem p = none
  request_neg : ∀ p a, v.place p = .blocked a → v.request p < 0

structure ReadyRing (m : Links maxproc) (t : Option Pcb) (v : View) : Prop where
  ring : Ring m.pList t v.ready
  mem : ∀ p, p ∈ v.ready ↔ v.place p = .ready

def Kernel.withLists (k : Kernel) (m : Links maxproc) (v : View) : Kernel :=
  { k with
    toLinks := m
    resWait := v.request
    ints := v.value
    processCount := v.alive
    softBlockCount := v.soft }

def Kernel.setReady (k : Kernel) (t : Option Pcb) : Kernel := { k with readyqueue := t }

section WithLists

variable {k : Kernel} {m m' : Links maxproc} {v v' : View} {α β : Type}

@[simp] theorem withLists_toLinks : (k.withLists m v).toLinks = m := rfl

@[simp] theorem withLists_resWait : (k.withLists m v).resWait = v.request := rfl

@[simp] theorem withLists_ints : (k.withLists m v).ints = v.value := rfl

@[simp] theorem withLists_currentProcess :
    (k.withLists m v).currentProcess = k.currentProcess := rfl

@[simp] theorem withLists_readyqueue : (k.withLists m v).readyqueue = k.readyqueue := rfl

@[simp] theorem withLists_pid : (k.withLists m v).pid = k.pid := rfl

@[simp] theorem withLists_withLists : (k.withLists m v).withLists m' v' = k.withLists m' v' := rfl

@[simp] theorem setReady_readyqueue (t : Option Pcb) : (k.setReady t).readyqueue = t := rfl

@[simp] theorem setReady_setReady (t u : Option Pcb) : (k.setReady t).setReady u = k.setReady u :=
  rfl

theorem withLists_self (hv : k.ints = v.value) (hr : k.resWait = v.request)
    (ha : k.processCount = v.alive) (hs : k.softBlockCount = v.soft) :
    k.withLists k.toLinks v = k := by
  rw [Kernel.withLists, ← hv, ← hr, ← ha, ← hs]

theorem onLinks_run {x : Program (Links maxproc) Ctl Fault α} {r : α} (h : x.run m = .ok r m') :
    (onLinks x).run (k.withLists m v) = .ok r (k.withLists m' v) :=
  onLinks_ok h

@[simp] theorem run_setInt_bind (a : ℕ) (i : ℤ) (f : Unit → KM β) :
    (setInt a i >>= f).run (k.withLists m v) = (f ()).run (k.withLists m (v.setValue a i)) := rfl

@[simp] theorem run_addSoftBlockCount (d : ℤ) :
    (addSoftBlockCount d).run (k.withLists m v) =
      .ok () (k.withLists m { v with soft := v.soft + d }) := rfl

@[simp] theorem run_addSoftBlockCount_bind (d : ℤ) (f : Unit → KM β) :
    (addSoftBlockCount d >>= f).run (k.withLists m v) =
      (f ()).run (k.withLists m { v with soft := v.soft + d }) := rfl

@[simp] theorem run_addProcessCount_bind (d : ℤ) (f : Unit → KM β) :
    (addProcessCount d >>= f).run (k.withLists m v) =
      (f ()).run (k.withLists m { v with alive := v.alive + d }) := rfl

end WithLists

/-! ### Moving one PCB -/

section Moves

variable {m m' : Links maxproc} {v : View} {p x : Pcb} {a : ℕ} {t : Option Pcb}

theorem Lists.not_mem_queue (h : Lists m v) (hp : ∀ a, v.place p ≠ .blocked a) (a : ℕ) :
    p ∉ v.queue a := fun hm => hp a ((h.mem_queue p a).mp hm)

/-- Code that leaves free and blocked PCBs alone. -/
theorem Lists.congr (h : Lists m v) (hadd : m'.sSemAdd = m.sSemAdd) (hlink : m'.sLink = m.sLink)
    (hprocq : m'.sProcq = m.sProcq) (haslh : m'.aslh = m.aslh) (hsemd : m'.semdFree = m.semdFree)
    (hfree : m'.pcbFree = m.pcbFree) (hcur : m'.pCursem = m.pCursem)
    (hlist : ∀ x, v.place x ≠ .ready → v.place x ≠ .off → m'.pList x = m.pList x) :
    Lists m' v := by
  obtain ⟨ds, fs, hl⟩ := h.asl
  refine { h with free_ring := ?_, asl := ⟨ds, fs, ?_⟩, cursem := by rw [hcur]; exact h.cursem }
  · rw [hfree]
    refine h.free_ring.congr fun x hx => ?_
    have hplace := (h.mem_free x).mp hx
    exact hlist x (by simp [hplace]) (by simp [hplace])
  · refine hl.congr hadd hlink hprocq haslh hsemd fun a x hx => ?_
    have hplace := (h.mem_queue x a).mp hx
    exact ⟨hlist x (by simp [hplace]) (by simp [hplace]), congrFun hcur x⟩

theorem ReadyRing.congr {v' : View} (h : ReadyRing m t v) (hr : v'.ready = v.ready)
    (hlist : ∀ x ∈ v.ready, m'.pList x = m.pList x)
    (hplace : ∀ x, v'.place x = .ready ↔ v.place x = .ready) : ReadyRing m' t v' := by
  refine ⟨?_, fun x => ?_⟩
  · rw [hr]
    exact h.ring.congr hlist
  · rw [hr, hplace]
    exact h.mem x

theorem Lists.setValue (h : Lists m v) (i : ℤ) : Lists m (v.setValue a i) :=
  ⟨h.free_ring, h.asl, h.mem_free, h.mem_queue, h.null, h.cursem, h.request_neg⟩

theorem ReadyRing.setValue (h : ReadyRing m t v) (i : ℤ) :
    ReadyRing m t (v.setValue a i) := ⟨h.ring, h.mem⟩

/-- The processes of `woken` have left their semaphore; apart from the descriptors, only their
`p_cursem` and `p_list` links among `near` have been written. -/
structure Released (m m' : Links maxproc) (woken near : List Pcb) : Prop where
  family : m'.family = m.family
  sSemAdd : m'.sSemAdd = m.sSemAdd
  pcbFree : m'.pcbFree = m.pcbFree
  pCursem : ∀ x, m'.pCursem x = if x ∈ woken then none else m.pCursem x
  pList : ∀ x ∉ near, m'.pList x = m.pList x

theorem Released.refl (m : Links maxproc) (near : List Pcb) : Released m m [] near :=
  ⟨rfl, rfl, rfl, fun _ => rfl, fun _ _ => rfl⟩

theorem Released.trans {m₁ m₂ : Links maxproc} {l l' near near' : List Pcb}
    (h : Released m m₁ l near)
    (h' : Released m₁ m₂ l' near') (hnear : ∀ x ∈ near', x ∈ near) :
    Released m m₂ (l ++ l') near where
  family := h'.family.trans h.family
  sSemAdd := h'.sSemAdd.trans h.sSemAdd
  pcbFree := h'.pcbFree.trans h.pcbFree
  pCursem x := by
    rw [h'.pCursem, h.pCursem]
    by_cases hx : x ∈ l' <;> simp [hx]
  pList x hx := (h'.pList x fun hm => hx (hnear x hm)).trans (h.pList x hx)

/-- A waiter leaves its queue. -/
theorem Lists.unblock (h : Lists m v) (hp : v.place p = .blocked a) :
    ∃ m', (outBlocked p : Program (Links maxproc) Ctl Fault _).run m = .ok (some p) m' ∧
      Lists m' (v.unblock p a) ∧ Released m m' [] (v.queue a) := by
  have hpa : p ∈ v.queue a := (h.mem_queue p a).mpr hp
  obtain ⟨ds, fs, hl⟩ := h.asl
  have hnodup := hl.queue_nodup a
  obtain ⟨m', hrun, ⟨ds', fs', hl'⟩, hframe, hlist, hcur, hadd⟩ := hl.outBlocked_run (χ := Ctl) hpa
  have hlist' : ∀ x, (∀ b, v.place x ≠ .blocked b) → m'.pList x = m.pList x := fun x hx =>
    hlist x (h.not_mem_queue hx a)
  have hfam : m'.family = m.family := by
    simp only [Links.family, hframe.pParent, hframe.pChildren, hframe.pSiblings]
  refine ⟨m', hrun, ?_, hfam, hadd, hframe.pcbFree, fun x => congrFun hcur x, hlist⟩
  have hmem : ∀ x b, x ∈ Function.update v.queue a ((v.queue a).erase p) b ↔
      Function.update v.place p .gone x = .blocked b := by
    intro x b
    by_cases hxp : x = p
    · subst hxp
      rw [Function.update_self]
      refine ⟨fun hx => ?_, fun hx => nomatch hx⟩
      by_cases hba : b = a
      · rw [hba, Function.update_self] at hx
        exact absurd hx (List.Nodup.not_mem_erase hnodup)
      · rw [Function.update_of_ne hba] at hx
        exact absurd (hl.queue_unique hx hpa) hba
    · rw [Function.update_of_ne hxp]
      by_cases hba : b = a
      · rw [hba, Function.update_self, List.mem_erase_of_ne hxp]
        exact h.mem_queue x a
      · rw [Function.update_of_ne hba]
        exact h.mem_queue x b
  refine ⟨?_, ⟨ds', fs', hl'⟩, ?_, hmem, ?_, ?_, ?_⟩
  · rw [hframe.pcbFree]
    refine h.free_ring.congr fun x hx => hlist' x fun b => ?_
    simp [(h.mem_free x).mp hx]
  · intro x
    by_cases hxp : x = p
    · subst hxp
      simp [View.unblock, h.mem_free, hp]
    · simp only [View.unblock, Function.update_of_ne hxp]
      exact h.mem_free x
  · by_cases ha : a = 0
    · subst ha
      simp [View.unblock, h.null]
    · simp only [View.unblock, Function.update_of_ne (Ne.symm ha)]
      exact h.null
  · intro x hx
    by_cases hxp : x = p
    · subst hxp
      simp [View.unblock] at hx
    · simp only [View.unblock, Function.update_of_ne hxp] at hx
      rw [hcur]
      exact h.cursem x hx
  · intro x b hx
    by_cases hxp : x = p
    · subst hxp
      simp only [View.unblock, Function.update_self] at hx
      cases hx
    · simp only [View.unblock, Function.update_of_ne hxp] at hx
      exact h.request_neg x b hx

theorem Lists.settle (h : Lists m v) (hp : v.place p = .gone) :
    Lists { m with pCursem := Function.update m.pCursem p none } (v.settle p) := by
  obtain ⟨ds, fs, hl⟩ := h.asl
  have hplace : ∀ x, (v.settle p).place x = if x = p then .off else v.place x := fun x =>
    Function.update_apply ..
  refine ⟨h.free_ring, ⟨ds, fs, ?_⟩, fun x => ?_, fun x b => ?_, h.null, fun x hx => ?_,
    fun x b hx => ?_⟩
  · refine hl.congr rfl rfl rfl rfl rfl fun b x hx => ⟨rfl, Function.update_of_ne ?_ ..⟩
    rintro rfl
    simp [h.mem_queue, hp] at hx
  · rw [hplace]
    split
    · next hxp => simp [View.settle, h.mem_free, hxp, hp]
    · exact h.mem_free x
  · rw [hplace]
    split
    · next hxp => simp [View.settle, h.mem_queue, hxp, hp]
    · exact h.mem_queue x b
  · rw [hplace] at hx
    simp only [Function.update_apply]
    split
    · rfl
    · next hxp => rw [if_neg hxp] at hx; exact h.cursem x hx
  · rw [hplace] at hx
    split at hx
    · cases hx
    · next hxp =>
      simp only [View.settle, Function.update_of_ne hxp]
      exact h.request_neg x b hx

/-- A PCB that is in no list, or whose place in the ready queue is forgotten, becomes free. -/
theorem Lists.toFree (h : Lists m v) (hpf : v.place p ≠ .free) (hpb : ∀ b, v.place p ≠ .blocked b) :
    Lists (freePcb p m) (v.toFree p) := by
  have hpf : p ∉ v.free := fun hm => hpf ((h.mem_free p).mp hm)
  obtain ⟨ds, fs, hl⟩ := h.asl
  refine ⟨freePcb_ring h.free_ring hpf, ⟨ds, fs, ?_⟩, ?_, ?_, h.null, ?_, ?_⟩
  · refine hl.congr rfl rfl rfl rfl rfl fun b x hx => ⟨?_, rfl⟩
    have hplace := (h.mem_queue x b).mp hx
    refine freePcb_pList h.free_ring ?_ fun he => hpb b (he ▸ hplace)
    rw [h.mem_free x, hplace]
    exact Place.noConfusion
  · intro x
    simp only [View.toFree, List.mem_append, List.mem_singleton]
    by_cases hxp : x = p
    · simp [hxp]
    · simp [hxp, h.mem_free]
  · intro x b
    by_cases hxp : x = p
    · subst hxp
      simpa [View.toFree] using h.not_mem_queue hpb b
    · simpa [View.toFree, Function.update_of_ne hxp] using h.mem_queue x b
  · intro x hx
    by_cases hxp : x = p
    · subst hxp
      simp [View.toFree] at hx
    · simp only [View.toFree, Function.update_of_ne hxp] at hx
      exact h.cursem x hx
  · intro x b hx
    by_cases hxp : x = p
    · subst hxp
      simp [View.toFree] at hx
    · simp only [View.toFree, Function.update_of_ne hxp] at hx
      exact h.request_neg x b hx

/-- A PCB that is in no list joins the ready queue. -/
theorem Lists.toReady (h : Lists m v) (hr : ReadyRing m t v) (hp : v.place p = .off) :
    Lists (insertProcQ t p m).2 (v.toReady p) ∧
      ReadyRing (insertProcQ t p m).2 (insertProcQ t p m).1 (v.toReady p) := by
  have hpr : p ∉ v.ready := fun hm => by simp [(hr.mem p).mp hm] at hp
  have hlist : ∀ x, v.place x ≠ .ready → v.place x ≠ .off →
      (insertProcQ t p m).2.pList x = m.pList x := by
    intro x hx hxo
    refine insertProcQ_pList hr.ring (fun hm => hx ((hr.mem x).mp hm)) ?_
    rintro rfl
    exact hxo hp
  have hbase : Lists (insertProcQ t p m).2 v := h.congr rfl rfl rfl rfl rfl rfl rfl hlist
  have hplace : ∀ x, (v.toReady p).place x = if x = p then .ready else v.place x := fun x =>
    Function.update_apply ..
  constructor
  · refine ⟨hbase.free_ring, hbase.asl, fun x => ?_, fun x b => ?_, h.null, fun x hx => ?_,
      fun x b hx => ?_⟩
    · rw [hplace]
      split
      · next hxp => simp [View.toReady, h.mem_free, hxp, hp]
      · exact h.mem_free x
    · rw [hplace]
      split
      · next hxp => simp [View.toReady, h.mem_queue, hxp, hp]
      · exact h.mem_queue x b
    · rw [hplace] at hx
      split at hx
      · next hxp => exact h.cursem x (Or.inr (hxp ▸ hp))
      · exact h.cursem x hx
    · rw [hplace] at hx
      split at hx
      · cases hx
      · exact h.request_neg x b hx
  · refine ⟨insertProcQ_ring hr.ring hpr, fun x => ?_⟩
    rw [hplace]
    simp only [View.toReady, List.mem_append, List.mem_singleton]
    split
    · next hxp => simp [hxp]
    · next hxp => simp [hxp, hr.mem]

/-- A PCB that is in no list joins the queue of a semaphore. -/
theorem Lists.block (h : Lists m v) (hp : v.place p = .off) (ha : a ≠ 0) {w : ℤ} (hw : w < 0) :
    ∃ m', (insertBlocked a p : Program (Links maxproc) Ctl Fault _).run m = .ok false m' ∧
      Lists m' (v.block p a w) ∧ m'.family = m.family ∧
      ∀ x, v.place x = .ready → m'.pList x = m.pList x := by
  have hpq : ∀ b, p ∉ v.queue b := h.not_mem_queue fun b => by simp [hp]
  have hroom := h.asl.ncard_lt hpq
  obtain ⟨m', hrun, hasl, hframe⟩ := h.asl.insertBlocked_run (χ := Ctl) ha hpq
    fun _ he => absurd he (Nat.ne_of_lt hroom)
  have hlist : ∀ x, (∀ b, v.place x ≠ .blocked b) → x ≠ p → m'.pList x = m.pList x := fun x hx =>
    hframe.pList x (h.not_mem_queue hx a)
  have hfam : m'.family = m.family := by
    simp only [Links.family, hframe.pParent, hframe.pChildren, hframe.pSiblings]
  have hplace : ∀ x, (v.block p a w).place x = if x = p then .blocked a else v.place x := fun x =>
    Function.update_apply ..
  refine ⟨m', hrun, ⟨?_, hasl, fun x => ?_, fun x b => ?_, ?_, fun x hx => ?_, fun x b hx => ?_⟩,
    hfam, fun x hx => ?_⟩
  · rw [hframe.pcbFree]
    refine h.free_ring.congr fun x hx => hlist x (fun b => ?_) ?_
    · simp [(h.mem_free x).mp hx]
    · rintro rfl
      simp [hp, h.mem_free] at hx
  · rw [hplace]
    split
    · next hxp => simp [View.block, h.mem_free, hxp, hp]
    · exact h.mem_free x
  · rw [hplace]
    simp only [View.block]
    by_cases hba : b = a
    · rw [hba, Function.update_self, List.mem_append, List.mem_singleton]
      split
      · next hxp => simp [hxp]
      · next hxp => simp [hxp, h.mem_queue]
    · rw [Function.update_of_ne hba]
      split
      · next hxp => simp [hxp, hpq b, Ne.symm hba]
      · exact h.mem_queue x b
  · simp only [View.block, Function.update_of_ne (Ne.symm ha)]
    exact h.null
  · rw [hplace] at hx
    split at hx
    · simp at hx
    · next hxp => rw [hframe.pCursem x hxp]; exact h.cursem x hx
  · rw [hplace] at hx
    simp only [View.block, Function.update_apply]
    split
    · exact hw
    · next hxp => rw [if_neg hxp] at hx; exact h.request_neg x b hx
  · refine hlist x (fun b => by simp [hx]) ?_
    rintro rfl
    simp [hp] at hx

/-- `allocPcb` takes the oldest free PCB from its list. -/
theorem Lists.allocate {μ : Mem maxproc} {l : List Pcb} (tmp : Word) (h : Lists μ.toLinks v)
    (hf : v.free = p :: l) :
    ∃ link tail, (allocPcb tmp : Program (Mem maxproc) Ctl Fault _).run μ =
        .ok (some p) (resetPcb tmp p { μ with pList := link, pcbFree := tail }) ∧
      Lists (resetPcb tmp p { μ with pList := link, pcbFree := tail }).toLinks (v.take p l) ∧
      ∀ x, v.place x ≠ .free → Function.update link p none x = μ.pList x := by
  have hring : Ring μ.pList μ.pcbFree (p :: l) := hf ▸ h.free_ring
  obtain ⟨link, tail, hrun, hring', hframe⟩ := allocPcb_run (χ := Ctl) hring tmp
  have hpl : p ∉ l := (List.nodup_cons.mp hring.nodup).1
  have hpf : v.place p = .free := (h.mem_free p).mp (by simp [hf])
  have hlist : ∀ x, v.place x ≠ .free → Function.update link p none x = μ.pList x := by
    intro x hx
    have hxf : x ∉ p :: l := fun hm => hx ((h.mem_free x).mp (hf ▸ hm))
    rw [Function.update_of_ne (ne_of_mem_of_not_mem List.mem_cons_self hxf).symm]
    exact hframe x hxf
  have hplace : ∀ x, (v.take p l).place x = if x = p then .off else v.place x := fun x =>
    Function.update_apply ..
  obtain ⟨ds, fs, hasl⟩ := id h.asl
  refine ⟨link, tail, hrun, ⟨hring', ⟨ds, fs, ?_⟩, fun x => ?_, fun x b => ?_, h.null,
    fun x hx => ?_, fun x b hx => ?_⟩, hlist⟩
  · refine hasl.congr rfl rfl rfl rfl rfl fun b x hx => ?_
    have hxb := (h.mem_queue x b).mp hx
    refine ⟨hlist x (by simp [hxb]), Function.update_of_ne ?_ ..⟩
    rintro rfl
    rw [hpf] at hxb
    cases hxb
  · rw [hplace]
    split
    · next hxp => simp [View.take, hxp, hpl]
    · next hxp => rw [← h.mem_free x, hf, List.mem_cons, or_iff_right hxp]; rfl
  · rw [hplace]
    split
    · next hxp => simp [View.take, h.mem_queue, hxp, hpf]
    · exact h.mem_queue x b
  · rw [hplace] at hx
    change Function.update μ.pCursem p none x = none
    by_cases hxp : x = p
    · rw [hxp, Function.update_self]
    · rw [if_neg hxp] at hx
      rw [Function.update_of_ne hxp]
      exact h.cursem x hx
  · rw [hplace] at hx
    by_cases hxp : x = p
    · rw [if_pos hxp] at hx
      cases hx
    · rw [if_neg hxp] at hx
      simp only [View.take, Function.update_of_ne hxp]
      exact h.request_neg x b hx

end Moves
end JaeOS
