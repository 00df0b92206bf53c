import JaeOS.Handlers

/-!
# What the lists do not show

The face of a kernel is all of it but the lists, the semaphores and the two counters: the running
process, the saved states and areas, the times and the machine. The functions that walk the lists
keep the face, so that what a handler does to it can be said in a few lines of its own, and only
`insertBlocked` makes a process wait.
-/

namespace JaeOS

@[ext] structure Face where
  currentProcess : Option Pcb
  flag : Flag
  pS : Pcb → State
  pid : Pcb → Word
  kernelTime : Pcb → Word
  globalTime : Pcb → Word
  oldnewAreas : Pcb → Area → State
  tags : Pcb → Excp → Bool
  pseudoclockflag : Bool
  kernelStart : Word
  counter : Word
  startTOD : Word
  pseudoStart : Word
  hw : Hw

def Kernel.face (k : Kernel) : Face where
  currentProcess := k.currentProcess
  flag := k.flag
  pS := k.pS
  pid := k.pid
  kernelTime := k.kernelTime
  globalTime := k.globalTime
  oldnewAreas := k.oldnewAreas
  tags := k.tags
  pseudoclockflag := k.pseudoclockflag
  kernelStart := k.kernelStart
  counter := k.counter
  startTOD := k.startTOD
  pseudoStart := k.pseudoStart
  hw := k.hw

def Keeps {α β : Type} (f : Kernel → β) (x : KM α) : Prop :=
  Program.Maintains (fun q s => f s = q) (fun _ => True) x

section Rules

variable {α β γ : Type} {f : Kernel → γ}

theorem keeps_gets (g : Kernel → α) : Keeps f (Program.gets g) := .gets g

theorem keeps_pure (r : α) : Keeps f (pure r) := .pure r

theorem keeps_leave (ctl : Ctl) : Keeps f (Program.leave ctl : KM α) := .leave ctl

theorem keeps_fail (e : Fault) : Keeps f (Program.fail e : KM α) := .fail trivial

theorem keeps_need (e : Fault) (o : Option α) : Keeps f (Program.need e o) := .need o trivial

theorem keeps_modify {g : Kernel → Kernel} (h : ∀ s, f (g s) = f s) : Keeps f (Program.modify g) :=
  .modify fun _ s hs => (h s).trans hs

theorem Keeps.bind {x : KM α} {g : α → KM β} (hx : Keeps f x) (hg : ∀ r, Keeps f (g r)) :
    Keeps f (x >>= g) := Program.Maintains.bind hx hg

theorem Keeps.ite {b : Prop} [Decidable b] {x y : KM α} (hx : Keeps f x) (hy : Keeps f y) :
    Keeps f (if b then x else y) := Program.Maintains.ite hx hy

theorem Keeps.weaken {δ : Type} {x : KM α} (h : Keeps f x) (g : γ → δ) :
    Keeps (fun s => g (f s)) x :=
  Program.Maintains.of_component (fun d c => g c = d) h

theorem keeps_onLinks (h : ∀ s m, f (s.setLinks m) = f s)
    (x : Program (Links maxproc) Ctl Fault α) :
    Keeps f (onLinks x) := by
  unfold onLinks
  apply Program.Maintains.zoom
  · exact fun _ s t ht => (h t s).trans ht
  · exact fun _ => trivial

theorem keeps_current : Keeps f current := (keeps_gets _).bind fun _ => keeps_need _ _

theorem Keeps.ok {x : KM α} {s t : Kernel} {r : α} (h : Keeps f x) (hrun : x.run s = .ok r t) :
    f t = f s := (h (f s)).of_run rfl hrun

theorem Keeps.exit {x : KM α} {s t : Kernel} {c : Ctl} (h : Keeps f x)
    (hrun : x.run s = .exit c t) :
    f t = f s := (h (f s)).of_exit rfl hrun

end Rules

/-! ### The lists -/

section Lists

variable {α : Type} {n : ℕ} {χ : Type}

def KeepsCursem (x : Program (Links n) χ Fault α) : Prop :=
  Program.Maintains (fun c (m : Links n) => m.pCursem = c) (fun _ => True) x

theorem keepsCursem_modify {f : Links n → Links n} (h : ∀ m, (f m).pCursem = m.pCursem) :
    KeepsCursem (Program.modify f : Program (Links n) χ Fault Unit) :=
    .modify fun _ m hm => (h m).trans hm

theorem keepsCursem_write {f : Links n → Links n} {g : Unit → Program (Links n) χ Fault α}
    (h : ∀ m, (f m).pCursem = m.pCursem) (hg : KeepsCursem (g ())) :
    KeepsCursem (Program.modify f >>= g) :=
  (keepsCursem_modify h).bind fun _ => hg

theorem cursem_write {q : Fin n} {f : Links n → Links n} {g : Unit → Program (Links n) χ Fault α}
    (h : ∀ m, (f m).pCursem q = m.pCursem q)
    (hg : Program.Maintains (fun c (m : Links n) => m.pCursem q = c) (fun _ => True) (g ())) :
    Program.Maintains (fun c (m : Links n) => m.pCursem q = c) (fun _ => True)
      (Program.modify f >>= g) := by
  apply Program.Maintains.bind
  · exact .modify fun c m hm => (h m).trans hm
  · exact fun _ => hg

theorem KeepsCursem.at {x : Program (Links n) χ Fault α} (h : KeepsCursem x) (q : Fin n) :
    Program.Maintains (fun c (m : Links n) => m.pCursem q = c) (fun _ => True) x :=
  Program.Maintains.of_component (fun c (f : Fin n → Option Semd) => f q = c) h

theorem findSemd_cursem (a : ℕ) (h : Option Semd) :
    KeepsCursem (findSemd a h : Program (Links n) χ Fault _) := by
  apply Program.Maintains.bind _ fun _ => .pure _
  apply clistForeach_maintains
  · exact fun _ => .pure _
  · exact fun _ _ _ => (Program.Maintains.gets _).bind fun _ =>
      .ite (.pure _) (.ite (.pure _) (.pure _))
  · exact fun _ => trivial

theorem headProcQ_cursem (q : Option (Fin n)) :
    KeepsCursem (headProcQ q : Program (Links n) χ Fault _) := by
  apply (Program.Maintains.gets _).bind
  intro c
  apply Program.Maintains.ite (.pure _)
  exact (clistHead_maintains fun _ => trivial).bind fun _ => .pure _

theorem headBlocked_cursem (a : ℕ) : KeepsCursem (headBlocked a : Program (Links n) χ Fault _) := by
  apply (Program.Maintains.gets _).bind
  intro h
  apply (findSemd_cursem a h).bind
  intro r
  cases r with
  | none => exact .pure _
  | some scan => exact (Program.Maintains.gets _).bind fun _ => headProcQ_cursem _

theorem retireIfEmpty_cursem (d : Semd) :
    KeepsCursem (retireIfEmpty d : Program (Links n) χ Fault _) := by
  apply (Program.Maintains.gets _).bind
  intro b
  apply Program.Maintains.ite _ (.pure _)
  apply (Program.Maintains.gets _).bind
  intro c
  apply (clistDelete_maintains fun _ => trivial).bind
  intro r
  apply keepsCursem_write
  · exact fun _ => rfl
  · exact keepsCursem_modify fun _ => rfl

theorem outBlocked_cursem (p : Fin n) :
    KeepsCursem (outBlocked p : Program (Links n) χ Fault _) := by
  apply (Program.Maintains.gets _).bind
  intro d
  apply (Program.Maintains.need _ trivial).bind
  intro s
  apply Program.Maintains.bind _ fun _ => .pure _
  apply clistForeach_maintains
  · exact fun _ => .gets _
  · intro ret scan tmp
    apply Program.Maintains.ite _ (.pure _)
    apply (Program.Maintains.gets _).bind
    intro c
    apply (clistForeachDelete_maintains fun _ => trivial).bind
    intro c
    apply keepsCursem_write
    · exact fun _ => rfl
    · exact (retireIfEmpty_cursem s).bind fun _ => .pure _
  · exact fun _ => trivial

theorem outProcQ_cursem (q : Option (Fin n)) (p : Fin n) :
    KeepsCursem (outProcQ q p : Program (Links n) χ Fault _) := by
  apply Program.Maintains.bind _ fun _ => .pure _
  apply clistForeach_maintains
  · exact fun _ => .pure _
  · intro vars scan tmp
    apply Program.Maintains.ite _ (.pure _)
    apply (Program.Maintains.gets _).bind
    intro c
    apply (clistForeachDelete_maintains fun _ => trivial).bind
    intro c
    apply keepsCursem_write
    · exact fun _ => rfl
    · exact .pure _
  · exact fun _ => trivial

theorem removeProcQ_cursem (q : Option (Fin n)) :
    KeepsCursem (removeProcQ q : Program (Links n) χ Fault _) := by
  apply (Program.Maintains.gets _).bind
  intro c
  apply Program.Maintains.ite (.pure _)
  apply (clistHead_maintains fun _ => trivial).bind
  intro p
  apply (clistDequeue_maintains fun _ => trivial).bind
  intro c
  apply keepsCursem_write
  · exact fun _ => rfl
  · exact .pure _

theorem removeChild_cursem (p : Fin n) :
    KeepsCursem (removeChild p : Program (Links n) χ Fault _) := by
  apply (Program.Maintains.gets _).bind
  intro b
  apply Program.Maintains.ite (.pure _)
  apply (Program.Maintains.gets _).bind
  intro c
  apply (clistHead_maintains fun _ => trivial).bind
  intro child
  apply keepsCursem_write
  · exact fun _ => rfl
  apply (clistDequeue_maintains fun _ => trivial).bind
  intro c
  apply keepsCursem_write
  · exact fun _ => rfl
  · exact .pure _

theorem outChild_cursem (p : Fin n) : KeepsCursem (outChild p : Program (Links n) χ Fault _) := by
  apply (Program.Maintains.gets _).bind
  intro d
  cases d with
  | none => exact .pure _
  | some dad =>
      apply keepsCursem_write
      · exact fun _ => rfl
      apply (Program.Maintains.gets _).bind
      intro c
      apply (clistDelete_maintains fun _ => trivial).bind
      intro r
      apply keepsCursem_write
      · exact fun _ => rfl
      · exact .pure _

theorem linkSemd_cursem (d : Semd) : KeepsCursem (linkSemd d : Program (Links n) χ Fault _) := by
  apply Program.Maintains.bind
  · apply clistForeach_maintains
    · exact fun _ => .gets _
    · intro added scan tmp
      apply (Program.Maintains.gets _).bind
      intro a
      apply (Program.Maintains.gets _).bind
      intro b
      apply Program.Maintains.ite _ (.pure _)
      apply (Program.Maintains.gets _).bind
      intro c
      apply keepsCursem_write
      · exact fun _ => rfl
      · exact .pure _
    · exact fun _ => trivial
  · intro r
    apply Program.Maintains.ite (.pure _)
    apply (Program.Maintains.gets _).bind
    intro c
    apply Program.Maintains.ite _ (.pure _)
    exact keepsCursem_modify fun _ => rfl

/-- A `p_cursem` other than that of `p` survives. -/
theorem insertBlocked_others {p q : Fin n} (a : ℕ) (hq : q ≠ p) :
    Program.Maintains (fun c (m : Links n) => m.pCursem q = c) (fun _ => True)
      (insertBlocked a p : Program (Links n) χ Fault _) := by
  apply Program.Maintains.ite (.fail trivial)
  apply (Program.Maintains.gets _).bind
  intro h
  apply ((findSemd_cursem a h).at q).bind
  intro r
  cases r with
  | some scan =>
      apply cursem_write
      · exact fun m => Function.update_of_ne hq ..
      apply cursem_write
      · exact fun _ => rfl
      · exact .pure _
  | none =>
      apply (Program.Maintains.gets _).bind
      intro c
      apply Program.Maintains.ite (.pure _)
      apply (clistHead_maintains fun _ => trivial).bind
      intro s
      apply (clistDequeue_maintains fun _ => trivial).bind
      intro c'
      apply cursem_write
      · exact fun _ => rfl
      apply cursem_write
      · exact fun m => Function.update_of_ne hq ..
      apply cursem_write
      · exact fun _ => rfl
      · exact ((linkSemd_cursem s).at q).bind fun _ => .pure _

end Lists

/-! ### Calm -/

/-- The face is kept, and all that is done to a `p_cursem` is to clear it. -/
def Kernel.Calmer (s t : Kernel) : Prop :=
  t.face = s.face ∧ ∀ q, t.pCursem q = s.pCursem q ∨ t.pCursem q = none

theorem Kernel.Calmer.trans {s t u : Kernel} (h : s.Calmer t) (h' : t.Calmer u) : s.Calmer u := by
  constructor
  · exact h'.1.trans h.1
  · intro q
    rcases h'.2 q with hq | hq
    · rw [hq]
      exact h.2 q
    · exact Or.inr hq

def Calm {α : Type} (x : KM α) : Prop := Program.Maintains Kernel.Calmer (fun _ => True) x

section Calm

variable {α β : Type} {x : KM α}

theorem Calm.bind {g : α → KM β} (hx : Calm x) (hg : ∀ r, Calm (g r)) : Calm (x >>= g) :=
  Program.Maintains.bind hx hg

theorem Calm.ite {b : Prop} [Decidable b] {y : KM α} (hx : Calm x) (hy : Calm y) :
    Calm (if b then x else y) := Program.Maintains.ite hx hy

theorem calm_gets (f : Kernel → α) : Calm (Program.gets f) := .gets f

theorem calm_pure (r : α) : Calm (pure r : KM α) := .pure r

theorem calm_fail (e : Fault) : Calm (Program.fail e : KM α) := .fail trivial

theorem calm_need (e : Fault) (o : Option α) : Calm (Program.need e o) := .need o trivial

theorem calm_modify {f : Kernel → Kernel} (h : ∀ s : Kernel, s.Calmer (f s)) :
    Calm (Program.modify f) :=
  .modify fun _ s hs => hs.trans (h s)

/-- Neither the face nor a `p_cursem` is written. -/
theorem calm_write {f : Kernel → Kernel} (hface : ∀ s, (f s).face = s.face)
    (hcur : ∀ s, (f s).pCursem = s.pCursem) : Calm (Program.modify f) :=
  calm_modify fun s => ⟨hface s, fun q => Or.inl (congrFun (hcur s) q)⟩

theorem Calm.face (h : Calm x) : Keeps Kernel.face x :=
  Program.Maintains.of_rel h (fun _ => ⟨rfl, fun _ => Or.inl rfl⟩) fun _ _ _ hs hst =>
    hst.1.trans hs

theorem onLinks_face (x : Program (Links maxproc) Ctl Fault α) : Keeps Kernel.face (onLinks x) :=
  keeps_onLinks (fun _ _ => rfl) x

theorem KeepsCursem.calm {x : Program (Links maxproc) Ctl Fault α} (h : KeepsCursem x) :
    Calm (onLinks x) := by
  have hcur : Keeps (fun k => k.pCursem) (onLinks x) :=
    Program.Maintains.zoom_get (fun _ _ => rfl) h
  exact (Program.Maintains.of_component (fun (k : Kernel) f => f = k.face) (onLinks_face x)).and
    (Program.Maintains.of_component (fun (k : Kernel) c => ∀ q, c q = k.pCursem q ∨
      c q = none) hcur)

end Calm

/-! ### Termination -/

section Termination

variable {p c : Pcb} {n a : ℕ} {i : ℤ} {w : Word}

theorem setInt_calm : Calm (setInt a i) :=
  calm_write (fun _ => rfl) fun _ => rfl

theorem addProcessCount_calm : Calm (addProcessCount i) :=
  calm_write (fun _ => rfl) fun _ => rfl

theorem addSoftBlockCount_calm : Calm (addSoftBlockCount i) :=
  calm_write (fun _ => rfl) fun _ => rfl

theorem insertReady_calm : Calm (insertReady p) :=
  calm_write (fun _ => rfl) fun _ => rfl

/-- A woken process waits no more. -/
theorem calm_release (tmp : Pcb) :
    Calm (Program.modify fun k => { k with pCursem := Function.update k.pCursem tmp none }) := by
  apply calm_modify
  intro s
  refine ⟨rfl, fun q => ?_⟩
  by_cases hq : q = tmp
  · right
    rw [hq]
    exact Function.update_self ..
  · left
    exact Function.update_of_ne hq ..

variable [Platform]

theorem leaveSemaphore_calm : Calm (leaveSemaphore p) := by
  unfold leaveSemaphore
  apply (calm_gets _).bind
  intro o
  cases o with
  | none => exact calm_pure ()
  | some d =>
      apply (calm_gets _).bind
      intro weight
      apply (calm_gets _).bind
      intro s
      have hrest : Calm (do
          let _ ← onLinks (outBlocked p)
          addSoftBlockCount (-1) : KM Unit) :=
        (outBlocked_cursem p).calm.bind fun _ => addSoftBlockCount_calm
      dsimp only
      split
      · exact (calm_gets _).bind fun _ => setInt_calm.bind fun _ => hrest
      · exact hrest

theorem terminateLeaf_calm : Calm (terminateLeaf p) :=
  leaveSemaphore_calm.bind fun _ => addProcessCount_calm.bind fun _ =>
    calm_write (fun _ => rfl) fun _ => rfl

theorem terminateChildrenLoop_calm : Calm (terminateChildrenLoop n p c) := by
  induction n generalizing p with
  | zero => exact calm_fail _
  | succ n ih =>
      unfold terminateChildrenLoop
      apply (calm_gets _).bind
      intro b
      apply Calm.ite
      · exact Calm.ite terminateLeaf_calm (calm_pure ())
      · exact (removeChild_cursem p).calm.bind fun _ => (calm_need _ _).bind fun _ =>
          ih.bind fun _ => ih

omit [Platform] in
theorem discard_calm : Calm (discard p) := by
  apply addProcessCount_calm.bind
  intro _
  apply (outChild_cursem p).calm.bind
  intro _
  apply (calm_gets _).bind
  intro q
  apply (outProcQ_cursem q p).calm.bind
  intro _
  apply Calm.bind
  · exact calm_write (fun _ => rfl) fun _ => rfl
  · exact fun _ => calm_write (fun _ => rfl) fun _ => rfl

theorem terminateTree_calm : Calm (terminateTree p) :=
  terminateChildrenLoop_calm.bind fun _ => leaveSemaphore_calm.bind fun _ => discard_calm

omit [Platform] in
theorem searchChildren_calm {search : Pcb → Bool → KM Bool}
    (h : ∀ q b, Calm (search q b)) (found : Bool) :
    Calm (searchChildren search p found) := by
  unfold searchChildren
  apply Calm.bind _ fun _ => calm_pure _
  apply clistForeach_maintains
  · exact fun _ => calm_gets _
  · exact fun b q _ => Calm.ite ((h q b).bind fun _ => calm_pure _) (calm_pure _)
  · exact fun _ => trivial

theorem lookforProgenyLoop_calm {found : Bool} :
    Calm (lookforProgenyLoop n p w found) := by
  induction n generalizing p found with
  | zero => exact calm_fail _
  | succ n ih =>
      unfold lookforProgenyLoop
      apply (calm_gets _).bind
      intro pid
      apply Calm.ite
      · exact terminateTree_calm.bind fun _ => calm_pure _
      · exact searchChildren_calm (fun _ _ => ih) found

/-! ### Semaphores -/

omit [Platform] in
theorem wake_calm : Calm (wake p) := by
  apply (outBlocked_cursem p).calm.bind
  intro r
  apply (calm_need _ r).bind
  intro tmp
  apply (calm_release tmp).bind
  intro _
  apply addSoftBlockCount_calm.bind
  intro _
  apply Calm.bind
  · exact calm_write (fun _ => rfl) fun _ => rfl
  · exact fun _ => insertReady_calm

theorem wakeLoop_calm : Calm (wakeLoop n a i) := by
  induction n generalizing i with
  | zero => exact calm_fail _
  | succ n ih =>
      unfold wakeLoop
      apply (headBlocked_cursem a).calm.bind
      intro o
      cases o with
      | none => exact calm_pure ()
      | some tmp =>
          exact (calm_gets _).bind fun _ => Calm.ite (wake_calm.bind fun _ => ih) (calm_pure ())

theorem sumRequests_calm : Calm (sumRequests p) := by
  unfold sumRequests
  apply Calm.bind _ fun _ => calm_pure _
  apply clistForeach_maintains
  · exact fun _ => (calm_need _ _).bind fun _ => (calm_gets _).bind fun _ =>
      (calm_need _ _).bind fun _ => calm_gets _
  · exact fun _ _ _ => (calm_gets _).bind fun _ => calm_pure _
  · exact fun _ => trivial

theorem verhogen_calm : Calm (verhogen a i) := by
  unfold verhogen
  apply (calm_gets _).bind
  intro v
  apply setInt_calm.bind
  intro _
  apply (headBlocked_cursem a).calm.bind
  intro o
  have hrest : ∀ sum, Calm (do
      let v ← Program.gets fun k => k.ints a
      wakeLoop (maxproc + 1) a (Platform.wrap (sum + v)) : KM Unit) :=
    fun _ => (calm_gets _).bind fun _ => wakeLoop_calm
  cases o with
  | none => exact (calm_pure _).bind hrest
  | some scan => exact sumRequests_calm.bind hrest

end Termination

end JaeOS
