import JaeOS.AslRefinement
import JaeOS.Entries
import JaeOS.Orderly

/-!
# Runs of the nucleus

From `main` on, the machine enters the nucleus by system calls, traps and interrupts; a handler
gives control to a process, to the scheduler, to `WAIT`, or stops the machine. At every entry the
environment supplies the machine as the handler finds it. Every step of a run is matched by moves of
the view, as long as no process with a ready descendant is killed.
-/

open LinkRing LinkForest Transition

namespace JaeOS

variable [Platform]

inductive Event where
  | dispatch
  | syscall (hw : Hw)
  | pgmtrap (hw : Hw)
  | tlb (hw : Hw)
  | interrupt (hw : Hw)

/-- The kernel and who has control. `issued i` is kept for the statements: the processes whose
`IODEVOP` commands for the sub-device of `device_sem[i]` are not completed, oldest first. -/
structure Sys where
  kernel : Kernel
  ctl : Ctl
  issued : ℕ → List Pcb

/-- The scheduler runs when it is called, a process enters by a system call, a trap or an interrupt,
and a waiting machine by an interrupt. -/
def Event.enabled : Event → Ctl → Bool
  | .dispatch, .scheduler => true
  | .syscall _, .ldst _ => true
  | .pgmtrap _, .ldst _ => true
  | .tlb _, .ldst _ => true
  | .interrupt _, .ldst _ => true
  | .interrupt _, .wait => true
  | _, _ => false

def Event.program : Event → KM Unit
  | .dispatch => scheduler
  | .syscall _ => syscallHandler
  | .pgmtrap _ => pgmtrapHandler
  | .tlb _ => tlbHandler
  | .interrupt _ => interruptHandler

def Kernel.enter (k : Kernel) : Event → Kernel
  | .dispatch => k
  | .syscall hw => { k with hw := hw }
  | .pgmtrap hw => { k with hw := hw }
  | .tlb hw => { k with hw := hw }
  | .interrupt hw => { k with hw := hw }

def ioRequest (st : State) : Option ℕ :=
  if isService st ∧ ¬ isUserMode st ∧ st.a1 = 10 then
    some (semIndex st.a3 (termRead st.a3 st.a4) st.a4)
  else none

def Event.issue (k : Kernel) (issued : ℕ → List Pcb) : Event → ℕ → List Pcb
  | .syscall hw =>
    match k.currentProcess, ioRequest (hw.oldArea .sysbk) with
    | some c, some i => Function.update issued i (issued i ++ [c])
    | _, _ => issued
  | .interrupt hw => fun i => if i ∈ completions hw then (issued i).tail else issued i
  | _ => issued

def Sys.step (s : Sys) (e : Event) : Option Sys :=
  if e.enabled s.ctl then
    match e.program.run (s.kernel.enter e) with
    | .exit c k => some ⟨k, c, e.issue s.kernel s.issued⟩
    | _ => none
  else none

/-- Static storage at boot: the list headers are empty. -/
structure AtBoot (k : Kernel) : Prop where
  readyqueue : k.readyqueue = none
  sProcq : ∀ d, k.sProcq d = none

def Sys.boot (k : Kernel) : Option Sys :=
  match main.run k with
  | .exit c k => some ⟨k, c, fun _ => []⟩
  | _ => none

/-- The runs that start with static storage in `B`. -/
def nucleus (B : Kernel → Prop) : Transition.System Sys Event where
  init s := ∃ k, B k ∧ AtBoot k ∧ Sys.boot k = some s
  step s e s' := s.step e = some s'

/-! ### What the code can see of the lists -/

def freeList (k : Kernel) : List Pcb := members k.pList maxproc k.pcbFree

def readyList (k : Kernel) : List Pcb := members k.pList maxproc k.readyqueue

def progeny (k : Kernel) (p : Pcb) : List Pcb := descend k.toLinks.family maxproc maxproc p

def killed (k : Kernel) (t : Pcb) : List Pcb := t :: progeny k t

variable {k : Kernel} {s s' : Sys} {v v' : View} {e : Event} {p t : Pcb} {ks : Forest Pcb}
  {B : Kernel → Prop} {κ : Core} {c : Pcb} {st : State} {x : Excp} {a : ℕ}

omit [Platform] in
theorem WellFormed.freeList_eq (h : WellFormed k.core v) : freeList k = v.free :=
  Ring.members_eq h.lists.free_ring (queue_length_le (m := k.toLinks) h.lists.free_ring)

omit [Platform] in
theorem Rep.mem_freeList (h : Rep k.core v) : p ∈ freeList k ↔ v.place p = .free := by
  rw [h.freeList_eq]
  exact h.lists.mem_free p

omit [Platform] in
theorem WellFormed.readyList_eq (h : WellFormed k.core v) : readyList k = v.ready :=
  Ring.members_eq h.ready.ring (queue_length_le (m := k.toLinks) h.ready.ring)

omit [Platform] in
theorem WellFormed.waiting_eq (h : WellFormed k.core v) : waiting k.toLinks = v.queue :=
  h.lists.asl.waiting_eq

omit [Platform] in
theorem WellFormed.progeny_eq (h : WellFormed k.core v) (hp : Forest.Has p ks v.tree) :
    progeny k p = ks.nodes := by
  have hlen := hp.kids_length
  have hle := h.tree.length_le
  exact descend_eq (h.tree.rep.kids hp) (by omega) (by omega)

omit [Platform] in
theorem mem_killed {q : Pcb} (h : WellFormed k.core v) (ht : Forest.Has t ks v.tree) :
    q ∈ killed k t ↔ q ∈ ks.postorder ++ [t] := by
  rw [killed, h.progeny_eq ht, List.mem_cons, List.mem_append, List.mem_singleton,
    Forest.mem_postorder, or_comm]

/-! ### Entries as moves -/

def Event.act (k : Kernel) : Event → Option Act
  | .syscall hw => k.currentProcess.bind fun c => syscallAct k.core c (hw.oldArea .sysbk)
  | .pgmtrap _ => k.currentProcess.bind fun c => trapAct k.core c .pgmtp
  | .tlb _ => k.currentProcess.bind fun c => trapAct k.core c .tlb
  | _ => none

def Event.acts (k : Kernel) : Event → List Act → Prop
  | .dispatch, acts => acts = dispatchActs k.core k.flag
  | .syscall hw, acts => acts = (Event.act k (.syscall hw)).toList
  | .pgmtrap hw, acts => acts = (Event.act k (.pgmtrap hw)).toList
  | .tlb hw, acts => acts = (Event.act k (.tlb hw)).toList
  | .interrupt hw, acts => interruptActs hw acts

/-- The process a system call or a trap kills, together with its progeny. -/
def Event.victim (k : Kernel) (e : Event) : Option Pcb :=
  match e.act k with
  | some (.terminate t) => some t
  | _ => none

/-- No descendant of the process that the entry kills is in the ready queue. -/
def SparesReady (s : Sys) (e : Event) : Prop :=
  ∀ t ∈ e.victim s.kernel, ∀ q ∈ progeny s.kernel t, q ∉ readyList s.kernel

instance : Decidable (SparesReady s e) :=
  inferInstanceAs (Decidable (∀ t ∈ e.victim s.kernel, ∀ q ∈ progeny s.kernel t,
    q ∉ readyList s.kernel))

theorem SparesReady.tame (hs : SparesReady s e) (h : Rep s.kernel.core v) :
    Tame v (e.act s.kernel) := by
  intro t ht ks hks x hx hready
  have hvictim : e.victim s.kernel = some t := by rw [Event.victim, ht]
  refine hs t hvictim x ?_ ?_
  · rw [h.progeny_eq hks]
    exact hx
  · rw [h.readyList_eq]
    exact (h.ready.mem x).mpr hready

theorem Sys.step_eq (h : s.step e = some s') :
    e.enabled s.ctl = true ∧ e.program.run (s.kernel.enter e) = .exit s'.ctl s'.kernel ∧
      s'.issued = e.issue s.kernel s.issued := by
  unfold Sys.step at h
  split at h
  · next henabled =>
    split at h
    · next c k hrun =>
      obtain rfl := Option.some.inj h
      exact ⟨henabled, hrun, rfl⟩
    · cases h
  · cases h

/-- A process must be running when a system call or a trap comes in. -/
theorem syscallHandler_idle (hc : k.currentProcess = none) :
    syscallHandler.run k = .fault .null := by
  unfold syscallHandler syscallEnter
  simp only [disableInterrupts, getSTATUS, setSTATUS, setFlag, current, Program.run_bind_bind,
    Program.run_gets_bind, Program.run_modify_bind, hc, Program.need_none, Program.run_fail_bind]

theorem trapHandler_idle {x : Excp} {ve : Vec} (hc : k.currentProcess = none) :
    (trapHandler x ve).run k = .fault .null := by
  unfold trapHandler
  simp only [disableInterrupts, getSTATUS, setSTATUS, startKernel, getTODLO, current,
    Program.run_bind_bind, Program.run_gets_bind, Program.run_modify_bind, Program.run_pure_bind,
    hc, Program.need_none, Program.run_fail_bind]

theorem trap_step {x : Excp} {ve : Vec} {k' : Kernel} {c : Ctl} (h : Rep k.core v)
    (ht : Tame v (k.currentProcess.bind fun c => trapAct k.core c x))
    (hrun : (trapHandler x ve).run k = .exit c k') :
    ∃ v', Steps Move (k.currentProcess.bind fun c => trapAct k.core c x).toList v v' ∧
      Rep k'.core v' := by
  cases hc : k.currentProcess with
  | none =>
      rw [trapHandler_idle hc] at hrun
      cases hrun
  | some c =>
      rw [hc] at ht
      exact (trapHandler_performs (F := fun _ => True) h hc ht).of_exit rfl hrun

theorem syscall_step {k' : Kernel} {c : Ctl} (h : Rep k.core v)
    (ht : Tame v (k.currentProcess.bind fun c => syscallAct k.core c (k.hw.oldArea .sysbk)))
    (hrun : syscallHandler.run k = .exit c k') :
    ∃ v', Steps Move (k.currentProcess.bind fun c =>
      syscallAct k.core c (k.hw.oldArea .sysbk)).toList v v' ∧ Rep k'.core v' := by
  cases hc : k.currentProcess with
  | none =>
      rw [syscallHandler_idle hc] at hrun
      cases hrun
  | some c =>
      rw [hc] at ht
      exact (syscallHandler_performs (F := fun _ => True) h hc rfl ht fun _ => trivial).of_exit
        rfl hrun

/-- Every step of a run is a sequence of moves. -/
theorem Sys.step_refines (h : Rep s.kernel.core v) (hs : SparesReady s e)
    (hstep : s.step e = some s') :
    ∃ acts v', e.acts s.kernel acts ∧ Steps Move acts v v' ∧ Rep s'.kernel.core v' := by
  obtain ⟨-, hrun, -⟩ := Sys.step_eq hstep
  have htame := hs.tame h
  cases e with
  | dispatch =>
      obtain ⟨v', hsteps, hrep⟩ := (scheduler_run (F := fun _ => True) h trivial).of_exit rfl hrun
      exact ⟨_, v', rfl, hsteps, hrep⟩
  | syscall hw =>
      obtain ⟨v', hsteps, hrep⟩ := syscall_step (k := s.kernel.enter (.syscall hw)) h htame hrun
      exact ⟨_, v', rfl, hsteps, hrep⟩
  | pgmtrap hw =>
      obtain ⟨v', hsteps, hrep⟩ := trap_step (k := s.kernel.enter (.pgmtrap hw)) h htame hrun
      exact ⟨_, v', rfl, hsteps, hrep⟩
  | tlb hw =>
      obtain ⟨v', hsteps, hrep⟩ := trap_step (k := s.kernel.enter (.tlb hw)) h htame hrun
      exact ⟨_, v', rfl, hsteps, hrep⟩
  | interrupt hw =>
      have hline := interruptHandler_run (F := fun _ => True)
        (s := s.kernel.enter (.interrupt hw)) h fun il _ =>
          ⟨fun _ => trivial, fun _ => Or.inr trivial, fun _ _ => Or.inr trivial,
            fun _ _ _ _ => trivial⟩
      obtain ⟨-, acts, v', hacts, hsteps, hrep⟩ := hline.of_exit rfl hrun
      exact ⟨acts, v', hacts, hsteps, hrep⟩

inductive Asked (st : State) : Act → Prop where
  | create (hsys : st.a1 = 1) : Asked st .create
  | terminate (t : Pcb) : Asked st (.terminate t)
  | passeren (hsys : st.a1 = 3) : Asked st (.passeren st.a2.toNat st.a3.toInt)
  | verhogen (hsys : st.a1 = 3) : Asked st (.verhogen st.a2.toNat st.a3.toInt)
  | clock (hsys : st.a1 = 9) : Asked st (.passeren (semAddr clockSem) (-1))
  | device {i : ℕ} (hi : ioRequest st = some i) : Asked st (.passeren (semAddr i) (-1))

variable {act : Act}

omit [Platform] in
theorem trapAct_eq (h : trapAct κ c x = some act) : act = .terminate c := by
  unfold trapAct at h
  split at h
  · cases h
  · exact (Option.some.inj h).symm

omit [Platform] in
theorem specifyAct_eq (h : specifyAct κ c x = some act) : act = .terminate c := by
  unfold specifyAct at h
  split at h
  · exact (Option.some.inj h).symm
  · cases h

theorem serviceAct_asked (hserv : isService st) (huser : ¬ isUserMode st)
    (h : serviceAct κ c st.a1 st.a2 st.a3 st.a4 = some act) : Asked st act := by
  unfold serviceAct at h
  split at h
  · next hsys =>
    obtain rfl := Option.some.inj h
    exact .create hsys
  split at h
  · obtain ⟨t, -, rfl⟩ := Option.map_eq_some_iff.mp h
    exact .terminate t
  split at h
  · next hsys =>
    unfold semAct at h
    split at h
    · cases h
    split at h
    · obtain rfl := Option.some.inj h
      exact .terminate c
    split at h
    · obtain rfl := Option.some.inj h
      exact .passeren hsys
    · obtain rfl := Option.some.inj h
      exact .verhogen hsys
  split at h
  · exact specifyAct_eq h ▸ .terminate c
  split at h
  · exact specifyAct_eq h ▸ .terminate c
  split at h
  · exact specifyAct_eq h ▸ .terminate c
  split at h
  · next hsys =>
    obtain rfl := Option.some.inj h
    exact .clock hsys
  split at h
  · next hsys =>
    obtain rfl := Option.some.inj h
    exact .device (if_pos ⟨hserv, huser, hsys⟩)
  · cases h

theorem syscallAct_asked (h : syscallAct κ c st = some act) : Asked st act := by
  unfold syscallAct at h
  split at h
  · next hserv =>
    split at h
    · exact trapAct_eq h ▸ .terminate c
    · next huser => exact serviceAct_asked hserv huser h
  · exact trapAct_eq h ▸ .terminate c

/-- Only processes, by system calls and traps, ask for moves of their own. -/
theorem Event.act_asked (h : e.act k = some act) :
    (∃ t, act = .terminate t) ∨ ∃ hw c, e = .syscall hw ∧ k.currentProcess = some c ∧
      syscallAct k.core c (hw.oldArea .sysbk) = some act := by
  cases e with
  | dispatch => cases h
  | interrupt hw => cases h
  | syscall hw =>
      obtain ⟨c, hc, hact⟩ := Option.bind_eq_some_iff.mp h
      exact Or.inr ⟨hw, c, rfl, hc, hact⟩
  | pgmtrap hw =>
      obtain ⟨c, -, hact⟩ := Option.bind_eq_some_iff.mp h
      exact Or.inl ⟨c, trapAct_eq hact⟩
  | tlb hw =>
      obtain ⟨c, -, hact⟩ := Option.bind_eq_some_iff.mp h
      exact Or.inl ⟨c, trapAct_eq hact⟩

theorem Event.act_ne_signal : e.act k ≠ some (.signal a) := by
  intro h
  rcases Event.act_asked h with ⟨t, ht⟩ | ⟨hw, c, -, -, hact⟩
  · cases ht
  · cases syscallAct_asked hact

def Act.internal : Act → Prop
  | .signal a => ∃ i < maxDevices, a = semAddr i
  | .verhogen a w => a = semAddr clockSem ∧ w = 1
  | .requeue => True
  | .load => True
  | _ => False

theorem Act.internal.light {act : Act} (h : act.internal) : act.light := by
  cases act with
  | signal => rfl
  | verhogen => rfl
  | requeue => rfl
  | load => rfl
  | create => cases h
  | terminate => cases h
  | passeren => cases h

/-- An entry makes the move of its process, or moves of the nucleus itself. -/
theorem Event.acts_cases {acts : List Act} (h : e.acts k acts) :
    acts = (e.act k).toList ∨ ∀ act ∈ acts, act.internal := by
  cases e with
  | dispatch =>
      obtain rfl := h
      right
      unfold dispatchActs
      split
      · simp
      · split
        · simp [Act.internal]
        · split <;> simp [Act.internal]
  | syscall hw => exact Or.inl h
  | pgmtrap hw => exact Or.inl h
  | tlb hw => exact Or.inl h
  | interrupt hw =>
      obtain ⟨n, rfl⟩ := h
      right
      intro act hact
      rcases List.mem_append.mp hact with hact | hact
      · obtain ⟨i, hi, rfl⟩ := List.mem_map.mp hact
        exact ⟨i, completions_lt hi, rfl⟩
      · rw [List.eq_of_mem_replicate hact]
        exact ⟨rfl, rfl⟩

/-- An entry makes the move of its process, or it has none and makes moves of the nucleus itself. -/
theorem Event.acts_split {acts : List Act} (h : e.acts k acts) :
    acts = (e.act k).toList ∨ e.act k = none ∧ ∀ act ∈ acts, act.internal := by
  rcases Event.acts_cases h with hown | hinternal
  · exact Or.inl hown
  · cases e with
    | dispatch => exact Or.inr ⟨rfl, hinternal⟩
    | syscall hw => exact Or.inl h
    | pgmtrap hw => exact Or.inl h
    | tlb hw => exact Or.inl h
    | interrupt hw => exact Or.inr ⟨rfl, hinternal⟩

/-- Only the running process has a move of its own. -/
theorem Event.act_current {act : Act} (h : e.act k = some act) :
    ∃ c, k.currentProcess = some c := by
  cases e with
  | dispatch => cases h
  | interrupt hw => cases h
  | syscall hw => exact (Option.bind_eq_some_iff.mp h).imp fun _ hc => hc.1
  | pgmtrap hw => exact (Option.bind_eq_some_iff.mp h).imp fun _ hc => hc.1
  | tlb hw => exact (Option.bind_eq_some_iff.mp h).imp fun _ hc => hc.1

theorem Event.acts_light {acts : List Act} (h : e.acts k acts) :
    acts.length ≤ 1 ∨ ∀ act ∈ acts, act.light := by
  rcases Event.acts_cases h with rfl | h
  · left
    cases e.act k <;> simp
  · exact Or.inr fun act hact => (h act hact).light

theorem nucleus_simulation : Simulation (nucleus B) SparesReady OrderlyMove
    (fun s e acts => e.acts s.kernel acts) (fun s v => Rep s.kernel.core v) where
  step hrep hc hs := by
    obtain ⟨acts, v', hacts, hsteps, hrep'⟩ := Sys.step_refines hrep hc hs
    exact ⟨acts, v', hacts, steps_orderly hsteps (Event.acts_light hacts) hrep.orderly, hrep'⟩

/-! ### Boot -/

def bootInts (ints : ℕ → ℤ) : ℕ → ℤ :=
  (List.range maxDevices).foldl (fun m i => Function.update m (semAddr i) 0) ints

theorem foldl_update_semAddr (l : List ℕ) (ints : ℕ → ℤ) (a : ℕ) :
    l.foldl (fun m i => Function.update m (semAddr i) 0) ints a =
      if a ∈ l.map semAddr then 0 else ints a := by
  induction l generalizing ints with
  | nil => simp
  | cons i l ih =>
      simp only [List.foldl_cons, ih, Function.update_apply, List.map_cons, List.mem_cons]
      by_cases hl : a ∈ l.map semAddr
      · simp [hl]
      · simp [hl]

def View.empty (value : ℕ → ℤ) (request : Pcb → ℤ) : View where
  free := List.finRange maxproc
  ready := []
  queue _ := []
  place _ := .free
  value := value
  request := request
  alive := 0
  soft := 0
  tree := .nil

def View.boot (value : ℕ → ℤ) (request : Pcb → ℤ) : View :=
  { ((View.empty value request).take 0 (List.finRange maxproc).tail).toReady 0 with
    alive := 1
    tree := .node 0 .nil .nil }

omit [Platform] in
theorem boot_place {value : ℕ → ℤ} {request : Pcb → ℤ} :
    (View.boot value request).place p = if p = 0 then .ready else .free := by
  change (((View.empty value request).take 0 (List.finRange maxproc).tail).toReady 0).place p = _
  rw [toReady_place, take_place]
  split <;> rfl

omit [Platform] in
theorem lists_empty (hk : AtBoot k) (value : ℕ → ℤ) :
    Lists (initASL (initPcbs k.toLinks)) (View.empty value k.resWait) where
  free_ring := tableLink_ring
  asl := initASL_rep hk.sProcq
  mem_free p := by simp [View.empty]
  mem_queue p a := by simp [View.empty]
  null := rfl
  cursem p hp := by rcases hp with hp | hp <;> cases hp
  request_neg p a hp := nomatch hp

structure Booted (ints : ℕ → ℤ) (resWait : Pcb → ℤ) (κ : Core) (m : Links maxproc) : Prop where
  links : κ.links = (insertProcQ none 0 m).2
  resWait_eq : κ.resWait = Function.update resWait 0 0
  ints_eq : κ.ints = bootInts ints
  processCount : κ.processCount = 1
  softBlockCount : κ.softBlockCount = 0
  readyqueue : κ.readyqueue = (insertProcQ none 0 m).1
  currentProcess : κ.currentProcess = none

theorem Rep.boot {κ : Core} {m : Links maxproc} {ints : ℕ → ℤ} {request : Pcb → ℤ}
    (hl : Lists m ((View.empty (bootInts ints) request).take 0 (List.finRange maxproc).tail))
    (hparent : m.pParent 0 = none) (hchild : m.pChildren 0 = none)
    (hκ : Booted ints request κ m) : Rep κ (View.boot (bootInts ints) request) := by
  have hr : ReadyRing m none
      ((View.empty (bootInts ints) request).take 0 (List.finRange maxproc).tail) := by
    refine ⟨ring_nil, fun x => ?_⟩
    rw [take_place]
    split
    · exact iff_of_false List.not_mem_nil Place.noConfusion
    · exact iff_of_false List.not_mem_nil Place.noConfusion
  obtain ⟨hl', hr'⟩ := hl.toReady hr (Function.update_self ..)
  have hplace : ∀ x, (View.boot (bootInts ints) request).place x = if x = 0 then .ready
      else .free :=
    fun _ => boot_place
  have hmem : ∀ x, x ∈ (View.boot (bootInts ints) request).tree.nodes ↔
      (View.boot (bootInts ints) request).place x ≠ .free := by
    intro x
    rw [hplace]
    simp [View.boot, Forest.nodes]
  have hgone : ∀ x, (View.boot (bootInts ints) request).place x ≠ .gone := by
    intro x
    rw [hplace]
    split <;> exact Place.noConfusion
  have hlinks := hκ.links.symm
  exact
    { lists := hlinks ▸ ⟨hl'.free_ring, hl'.asl, hl'.mem_free, hl'.mem_queue, hl'.null, hl'.cursem,
        hl'.request_neg⟩
      ready := hlinks ▸ hκ.readyqueue ▸ ⟨hr'.ring, hr'.mem⟩
      tree := by
        rw [hκ.links]
        refine ⟨⟨hparent, ⟨?_, trivial⟩, trivial⟩, List.nodup_singleton _⟩
        simp only [Links.family, insertProcQ, hchild]
        exact ring_nil
      value := hκ.ints_eq
      request := hκ.resWait_eq
      alive := hκ.processCount
      soft := hκ.softBlockCount
      alive_tree := fun x hx => ⟨(hmem x).mp hx, hgone x⟩
      current := fun c hc => by
        rw [hκ.currentProcess] at hc
        cases hc
      mem_tree := hmem
      not_gone := hgone
      off := fun x => by
        rw [hplace, hκ.currentProcess]
        split
        · exact iff_of_false Place.noConfusion (Option.some_ne_none x).symm
        · exact iff_of_false Place.noConfusion (Option.some_ne_none x).symm }

def Kernel.cleared (k : Kernel) : Kernel :=
  { k with
    toLinks := initASL (initPcbs k.toLinks)
    processCount := 0
    softBlockCount := 0
    currentProcess := none
    ints := bootInts k.ints
    hw := { k.hw with newArea := fun v => bootArea v (k.hw.newArea v) } }

/-- `main` up to the first process. -/
theorem main_eq (hk : AtBoot k) : ∃ link tail,
    main.run k = (startFirst 0).run (k.cleared.setMem
      (resetPcb Platform.tmpAddrMain 0 { k.cleared.toMem with pList := link, pcbFree := tail })) ∧
    Lists (resetPcb Platform.tmpAddrMain 0
        { k.cleared.toMem with pList := link, pcbFree := tail }).toLinks
      ((View.empty (bootInts k.ints) k.resWait).take 0 (List.finRange maxproc).tail) := by
  have hlists : Lists k.cleared.toLinks (View.empty (bootInts k.ints) k.resWait) := lists_empty hk _
  have hcons : (View.empty (bootInts k.ints) k.resWait).free = 0 :: (List.finRange maxproc).tail :=
    rfl
  obtain ⟨link, tail, halloc, hl, -⟩ :=
    Lists.allocate (μ := k.cleared.toMem) Platform.tmpAddrMain hlists hcons
  have hmain : ∃ f : Option Pcb → KM Unit,
      main.run k = (onMem (allocPcb Platform.tmpAddrMain) >>= f).run k.cleared ∧
      ∀ p, f (some p) = startFirst p := by
    unfold main
    simp only [Program.run_modify_bind]
    exact ⟨_, rfl, fun _ => rfl⟩
  obtain ⟨f, hmain, hf⟩ := hmain
  refine ⟨link, tail, ?_, hl⟩
  rw [hmain, Program.run_bind_ok (onMem_run halloc), hf]

/-- `main` leaves the first process ready and calls the scheduler. -/
theorem main_run (hk : AtBoot k) (hboot : Sys.boot k = some s) :
    s.ctl = .scheduler ∧ Rep s.kernel.core (View.boot (bootInts k.ints) k.resWait) ∧
      s.issued = fun _ => [] := by
  obtain ⟨link, tail, hmain, hl⟩ := main_eq hk
  rw [Sys.boot, hmain] at hboot
  simp only [startFirst, addProcessCount, assignPid, pidGenerator, setPs, insertReady, setFlag,
    callScheduler, Kernel.setMem, Kernel.setLinks, Program.run_bind_bind, Program.run_modify_bind,
    Program.run_gets_bind] at hboot
  cases hpow : pidPow k.counter 33 10 with
  | none =>
      rw [show k.cleared.counter = k.counter from rfl, hpow] at hboot
      cases hboot
  | some pow =>
      rw [show k.cleared.counter = k.counter from rfl, hpow] at hboot
      simp only [Program.need_some, Program.run_pure_bind, Program.run_modify_bind,
        Program.run_leave] at hboot
      obtain rfl := Option.some.inj hboot
      have hready : k.cleared.readyqueue = none := hk.readyqueue
      refine ⟨rfl, Rep.boot hl (resetPcb_pParent ..) (resetPcb_pChildren ..)
        ⟨?_, rfl, rfl, rfl, rfl, ?_, rfl⟩, rfl⟩
      · exact congrArg (fun q => (insertProcQ q 0 _).2) hready
      · exact congrArg (fun q => (insertProcQ q 0 _).1) hready

/-- A property of views holds, after any run whose steps meet `D`, of a view that represents the
kernel, if it holds at boot and is preserved by the moves that meet `P`: those of processes because
of `D`, and those of the nucleus itself. -/
theorem nucleus_view_of {D : Sys → Event → Prop} {P : Act → View → Prop} {I : View → Prop}
    (hD : ∀ s e, D s e → SparesReady s e)
    (hP : ∀ s e v act, Rep s.kernel.core v → D s e → e.act s.kernel = some act → P act v)
    (hinternal : ∀ act v, act.internal → P act v)
    (hboot : ∀ k, B k → I (View.boot (bootInts k.ints) k.resWait))
    (hmove : ∀ act v v', I v → P act v → OrderlyMove act v v' → I v')
    (h : Reach (nucleus B) D s) : ∃ v, Rep s.kernel.core v ∧ I v := by
  have hinit : ∀ s, (nucleus B).init s → ∃ v, Rep s.kernel.core v ∧ I v := by
    rintro s ⟨k, hB, hk, hstart⟩
    exact ⟨_, (main_run hk hstart).2.1, hboot k hB⟩
  have hview := h.simulated (nucleus_simulation.restrict hD) hinit
    fun s e _ acts v v' hrep hI hc _ hacts hsteps _ => ?_
  · exact hview
  · rcases Event.acts_cases hacts with rfl | hacts
    · cases hact : e.act s.kernel with
      | none =>
          rw [hact] at hsteps
          rw [steps_nil.mp hsteps]
          exact hI
      | some act =>
          rw [hact] at hsteps
          exact hmove act v v' hI (hP s e v act hrep hc hact) (steps_single.mp hsteps)
    · exact hsteps.invariant (fun act hm t u ht hmv =>
        hmove act t u ht (hinternal act t (hacts act hm)) hmv) hI

/-- The rule for what every move preserves. -/
theorem nucleus_view {I : View → Prop}
    (hboot : ∀ k, B k → I (View.boot (bootInts k.ints) k.resWait))
    (hmove : ∀ act v v', I v → OrderlyMove act v v' → I v')
    (h : Reach (nucleus B) SparesReady s) : ∃ v, Rep s.kernel.core v ∧ I v :=
  nucleus_view_of (P := fun _ _ => True) (fun _ _ hc => hc) (fun _ _ _ _ _ _ _ => trivial)
    (fun _ _ _ => trivial) hboot (fun act v v' hI _ hm => hmove act v v' hI hm) h

/-- Every state of a run that kills no process with a ready descendant is represented by a view. -/
theorem nucleus_rep (h : Reach (nucleus B) SparesReady s) : ∃ v, Rep s.kernel.core v := by
  obtain ⟨v, hrep, -⟩ := nucleus_view (I := fun _ => True) (fun _ _ => trivial)
    (fun _ _ _ _ _ => trivial) h
  exact ⟨v, hrep⟩

end JaeOS
