import JaeOS.Fate
import JaeOS.Bystanders
import JaeOS.Fcfs
import JaeOS.Tick

/-!
# Who waits for the tick

The processes that wait for the pseudo-clock, over whole runs: those that have called `WAITCLOCK`
since the last tick and are alive, in the order of their calls. Each tick moves all of them to the
ready queue. Termination takes waiters away but not the units they have asked for, so the semaphore
may be lower than its waiters account for; the loop of `timer_handler` first makes up for the dead.
-/

open LinkRing LinkForest Transition

namespace JaeOS

section Sleeping

variable [Platform]

def Event.sleeper (k : Kernel) : Event → Option Pcb
  | .syscall hw =>
    let st := hw.oldArea .sysbk
    if isService st ∧ ¬ isUserMode st ∧ st.a1 = 9 then k.currentProcess else none
  | _ => none

def Event.ticks (k : Kernel) : Event → Bool
  | .interrupt hw => pendingLine hw.cause = some intTimer && k.pseudoclockflag
  | _ => false

def noteSleepers (s : Sys) (e : Event) (s' : Sys) (l : List Pcb) : List Pcb :=
  if e.ticks s.kernel then [] else (l ++ (e.sleeper s.kernel).toList).filter
    (· ∉ freeList s'.kernel)

/-- The entry kills no process with a ready descendant, operates on no semaphore in `device_sem` by
itself, and does not bring the semaphore of the clock below the least number. -/
structure SparesClock (s : Sys) (e : Event) : Prop where
  ready : SparesReady s e
  user : UserSem e
  fits : e.sleeper s.kernel ≠ none → -2 ^ 31 < s.kernel.ints (semAddr clockSem)

instance {s : Sys} {e : Event} : Decidable (SparesClock s e) :=
  decidable_of_iff (SparesReady s e ∧ UserSem e ∧
      (e.sleeper s.kernel ≠ none → -2 ^ 31 < s.kernel.ints (semAddr clockSem)))
    ⟨fun h => ⟨h.1, h.2.1, h.2.2⟩, fun h => ⟨h.ready, h.user, h.fits⟩⟩

/-- The processes of `l` wait for the tick, and the semaphore accounts for them and maybe for some
who are dead. -/
structure Asleep (v : View) (l : List Pcb) : Prop where
  queue : v.queue (semAddr clockSem) = l
  request : ∀ p ∈ l, v.request p = -1
  value : v.value (semAddr clockSem) ≤ -l.length
  low : -2 ^ 31 ≤ v.value (semAddr clockSem)

section Views

variable {v v' u : View} {l : List Pcb} {c t : Pcb} {ks : Forest Pcb}

theorem Asleep.congr (h : Asleep v l) (hs : SameSemaphore v u (semAddr clockSem)) : Asleep u l := by
  obtain ⟨hvalue, hqueue, hrequest⟩ := hs
  refine ⟨hqueue.trans h.queue, fun p hp => ?_, by rw [hvalue]; exact h.value,
    by rw [hvalue]; exact h.low⟩
  rw [hrequest p (h.queue ▸ hp)]
  exact h.request p hp

/-- Whoever asks for the tick has to wait. -/
theorem Asleep.passeren (h : Asleep v l) (hlow : -2 ^ 31 < v.value (semAddr clockSem))
    (hm : Move (.passeren (semAddr clockSem) (-1)) v v') : ∃ c, v.place c = .off ∧
    Asleep v' (l ++ [c]) := by
  have hvalue := h.value
  have hcredit : v.credit (semAddr clockSem) (-1) = v.value (semAddr clockSem) - 1 :=
    Platform.wrap_eq _ (by omega) (by omega)
  cases hm with
  | pass hw hi => omega
  | @block _ _ _ c hw hi ha hc =>
      have hqueue : ((v.setValue (semAddr clockSem) (v.credit (semAddr clockSem) (-1))).block c
          (semAddr clockSem) (-1)).queue (semAddr clockSem) = v.queue (semAddr clockSem) ++ [c] :=
        Function.update_self ..
      have hnew : ((v.setValue (semAddr clockSem) (v.credit (semAddr clockSem) (-1))).block c
          (semAddr clockSem) (-1)).value (semAddr clockSem) = v.credit (semAddr clockSem) (-1) :=
        Function.update_self ..
      refine ⟨c, hc, hqueue.trans (by rw [h.queue]), fun p hp => ?_, ?_, ?_⟩
      · by_cases hpc : p = c
        · rw [hpc]
          exact Function.update_self ..
        · rw [List.mem_append, List.mem_singleton, or_iff_left hpc] at hp
          exact (Function.update_of_ne hpc ..).trans (h.request p hp)
      · rw [hnew, hcredit, List.length_append, List.length_singleton]
        omega
      · rw [hnew, hcredit]
        omega

/-- The dead leave the queue; the semaphore goes on accounting for them. -/
theorem Asleep.terminate (h : Asleep v l) (hv : Orderly v) :
    Asleep (v.terminate t ks) (l.filter (· ∉ ks.postorder ++ [t])) := by
  have hqueue : (v.terminate t ks).queue (semAddr clockSem) =
      (v.queue (semAddr clockSem)).filter (· ∉ ks.postorder ++ [t]) := killAll_queue hv.queues
  have hrequest : (v.terminate t ks).request = v.request := killAll_request
  have hvalue : (v.terminate t ks).value (semAddr clockSem) = v.value (semAddr clockSem) :=
    killAll_value_device (isDeviceSem_semAddr (by decide))
  refine ⟨by rw [hqueue, h.queue], fun p hp => ?_, ?_, hvalue ▸ h.low⟩
  · rw [hrequest]
    exact h.request p (List.mem_of_mem_filter hp)
  · have hle : (l.filter (· ∉ ks.postorder ++ [t])).length ≤ l.length := List.length_filter_le _ _
    have hold := h.value
    rw [hvalue]
    omega

end Views

/-! ### Interrupts -/

section Interrupts

variable {k : Kernel} {v : View} {l : List Pcb}

/-- The tick makes everybody who sleeps ready. -/
theorem interruptHandler_ticks (h : Rep k.core v) (ha : Asleep v l)
    (hline : pendingLine k.hw.cause = some intTimer) (hflag : k.pseudoclockflag = true) :
    ∃ k', interruptHandler.run k = .exit .scheduler k' ∧ k'.ints (semAddr clockSem) = 0 ∧
      waiting k'.toLinks (semAddr clockSem) = [] ∧ readyList k' = readyList k ++ l := by
  obtain ⟨u, henter, hface, hcore⟩ := interruptEnter_face k
  have hrep : Rep u.core v := h.congr hcore
  have hpending : u.pseudoclockflag = true := by
    rw [show u.pseudoclockflag = k.face.interrupt.pseudoclockflag from congrArg Face.pseudoclockflag
      hface,
      ← hflag, Face.interrupt]
    split <;> rfl
  have hwaiting : waiting u.toLinks (semAddr clockSem) = l :=
    (congrFun hrep.waiting_eq _).trans ha.queue
  have hints : u.ints (semAddr clockSem) = v.value (semAddr clockSem) := congrFun hrep.value _
  have hvalue := ha.value
  have hlow := ha.low
  obtain ⟨n, hn⟩ : ∃ n : ℕ, u.ints (semAddr clockSem) = -n :=
    ⟨(-u.ints (semAddr clockSem)).toNat, by omega⟩
  have hrequest : ∀ p ∈ waiting u.toLinks (semAddr clockSem), u.resWait p = -1 := by
    rw [hwaiting]
    intro p hp
    rw [show u.resWait p = v.request p from congrFun hrep.request p]
    exact ha.request p hp
  obtain ⟨k₁, v₁, hloop, -, hgrants⟩ :=
    tickLoop_serves hrep.toWellFormed.shows hn (by omega) hrequest
    (by rw [hwaiting]; omega)
  rw [hwaiting] at hgrants
  obtain ⟨k₂, htimer, hcore₂⟩ : ∃ k₂, timerHandler.run u = .ok () k₂ ∧ k₂.core = k₁.core := by
    refine ⟨{ k₁ with flag := .reset, hw := { k₁.hw with timer := schedBogusSlice } }, ?_, rfl⟩
    rw [timerHandler, Program.run_gets_bind, if_pos hpending, Program.run_gets_bind,
      show (-u.ints (semAddr clockSem)).toNat + 1 = n + 1 by omega, Program.run_bind_ok hloop]
    rfl
  have hserve : (serveLine k.hw.cause).run u = .ok () k₂ := by
    rw [serveLine_eq, hline]
    exact htimer
  obtain ⟨k', hrun, hcore'⟩ : ∃ k', interruptHandler.run k = .exit .scheduler k' ∧
    k'.core = k₂.core := by
    rw [interruptHandler, interruptBody, Program.run_bind_bind, Program.run_bind_ok henter,
      Program.run_bind_bind, Program.run_bind_ok hserve, Program.run_bind_bind,
      Program.run_gets_bind]
    cases k₂.currentProcess with
    | none => exact ⟨_, rfl, rfl⟩
    | some p => exact ⟨_, rfl, rfl⟩
  have hsame : k'.core = k₁.core := hcore'.trans hcore₂
  have hlinks : k'.toLinks = k₁.toLinks := congrArg Core.links hsame
  refine ⟨k', hrun, ?_, ?_, ?_⟩
  · rw [show k'.ints = k₁.ints from congrArg Core.ints hsame, show k₁.ints = _ from
      congrArg (fun k : Kernel => k.ints) hgrants.kernel]
    dsimp only
    rw [Function.update_self, hn, neg_add_cancel]
  · rw [hlinks, hgrants.queues, Function.update_self]
  · have hready : readyList k' = readyList k₁ := by
      unfold readyList
      rw [hlinks, show k'.readyqueue = k₁.readyqueue from congrArg Core.readyqueue hsame]
    have hready₀ : readyList u = readyList k := by
      unfold readyList
      rw [show u.toLinks = k.toLinks from congrArg Core.links hcore,
        show u.readyqueue = k.readyqueue from congrArg Core.readyqueue hcore]
    rw [hready, hgrants.ready, hready₀]

/-- Without the tick there are only the signals of the device. -/
theorem serveLine_signals (h : Rep k.core v)
    (hquiet : ¬ (pendingLine k.hw.cause = some intTimer ∧ k.pseudoclockflag = true)) :
    Program.Triple (fun t => t = k) (serveLine k.hw.cause)
      (fun _ t => ∃ v', Steps Move ((completions k.hw).map fun i => .signal (semAddr i)) v v' ∧
        Rep t.core v')
      (fun _ _ => False) (fun _ => True) := by
  rintro t rfl
  have hserved : ∀ il term dnum, Served (fun _ => True) v il term dnum := fun _ _ _ =>
    ⟨Or.inr trivial, Or.inr trivial, fun _ _ => trivial⟩
  rw [serveLine_eq, completions]
  cases hline : pendingLine t.hw.cause with
  | none => exact ⟨v, .nil v, h⟩
  | some il =>
      dsimp only
      by_cases htimer : il = intTimer
      · subst htimer
        rw [if_pos rfl, timerHandler, Program.run_gets_bind, if_neg fun hflag =>
          hquiet ⟨hline, hflag⟩]
        exact ⟨v, .nil v, h⟩
      · rw [if_neg htimer]
        by_cases hterm : il = intTerminal
        · subst hterm
          rw [if_pos rfl]
          exact terminalHandler_run h (Or.inr trivial) (fun _ => hserved _ _ _)
            (fun _ => hserved _ _ _) t rfl
        · have hone : lineCompletions t.hw il = [semIndex il 0 (pendingDevice t.hw il)] := by
            rw [lineCompletions, if_neg htimer, if_neg hterm]
          rw [if_neg hterm, hone]
          refine (devHandler_run h (hserved _ _ _)).conseq (fun _ hu => hu) (fun _ u hu => ?_)
            (fun _ _ hf => hf) t rfl
          obtain ⟨v', hmove, hrep⟩ := hu
          exact ⟨v', .single hmove, hrep⟩

theorem interruptHandler_signals {ctl : Ctl} {k' : Kernel} (h : Rep k.core v)
    (hquiet : ¬ (pendingLine k.hw.cause = some intTimer ∧ k.pseudoclockflag = true))
    (hrun : interruptHandler.run k = .exit ctl k') :
    ∃ v', Steps Move ((completions k.hw).map fun i => .signal (semAddr i)) v v' ∧
    Rep k'.core v' := by
  obtain ⟨u, henter, hface, hcore⟩ := interruptEnter_face k
  have hhw : u.hw = k.face.start.hw := (congrArg Face.hw hface).trans (interrupt_hw k.face)
  have hcause : u.hw.cause = k.hw.cause := by
    rw [hhw]
    rfl
  have hcompletions : completions u.hw = completions k.hw := by
    unfold completions lineCompletions pendingDevice
    rw [hhw]
    rfl
  have hflag : u.pseudoclockflag = k.pseudoclockflag := by
    rw [show u.pseudoclockflag = k.face.interrupt.pseudoclockflag from congrArg Face.pseudoclockflag
      hface,
      Face.interrupt]
    split <;> rfl
  rw [← hcause, ← hflag] at hquiet
  have hserve := serveLine_signals (h.congr hcore) hquiet
  rw [interruptHandler, interruptBody, Program.run_bind_bind, Program.run_bind_ok henter,
    Program.run_bind_bind, ← hcause] at hrun
  rcases Program.exit_of_bind hrun with hexit | ⟨r, m, hok, hrest⟩
  · exact (hserve.of_exit rfl hexit).elim
  · obtain ⟨v', hsteps, hrep⟩ := hserve.of_run rfl hok
    rw [hcompletions] at hsteps
    refine ⟨v', hsteps, ?_⟩
    rw [Program.run_bind_bind, Program.run_gets_bind] at hrest
    cases hc : m.currentProcess with
    | none =>
        rw [hc] at hrest
        cases hrest
        exact hrep
    | some p =>
        rw [hc] at hrest
        cases hrest
        exact hrep

end Interrupts

/-! ### Steps -/

section Steps

variable {s s' : Sys} {e : Event} {v v' : View} {l : List Pcb} {c : Pcb} {hw : Hw} {acts : List Act}
  {act : Act}

omit [Platform] in
/-- Sleepers are alive. -/
theorem Asleep.filter_eq [Platform] (h : Asleep v l) (hrep : Rep s.kernel.core v) :
    l.filter (· ∉ freeList s.kernel) = l := by
  refine List.filter_eq_self.mpr fun p hp => ?_
  rw [← h.queue, hrep.orderly.mem_queue] at hp
  rw [decide_eq_true_iff, hrep.freeList_eq, hrep.lists.mem_free, hp]
  exact Place.noConfusion

theorem Asleep.steps (h : Asleep v l) (hsteps : Steps OrderlyMove acts v v')
    (hacts : ∀ act ∈ acts, act.target ≠ some (semAddr clockSem) ∧ ∀ t, act ≠ .terminate t) :
    Asleep v' l :=
  hsteps.invariant (I := fun u => Asleep u l)
    (fun act hact _ _ hu hm => hu.congr (semaphore_frame hm (hacts act hact).1 (hacts act hact).2))
      h

/-- The device that an interrupt reports exists, if the handler ends. -/
theorem completions_lt_clock_of_step (h : Rep s.kernel.core v) (ha : Asleep v l)
    (hstep : s.step (.interrupt hw) = some s') : ∀ i ∈ completions hw, i < clockSem := by
  obtain ⟨-, hrun, -⟩ := Sys.step_eq hstep
  have hlow : -2 ^ 31 ≤ s.kernel.ints (semAddr clockSem) := by
    rw [show s.kernel.ints = v.value from h.value]
    exact ha.low
  have hfate := interruptHandler_fate (s := s.kernel.enter (.interrupt hw)) h hlow
  rw [fate_exit (x := interruptHandler) hrun] at hfate
  intro i hi
  have hmax := completions_lt hi
  unfold completions at hi
  unfold interruptFate at hfate
  rw [show (s.kernel.enter (.interrupt hw)).hw = hw from rfl] at hfate
  cases hline : pendingLine hw.cause with
  | none =>
      rw [hline] at hi
      cases hi
  | some il =>
      rw [hline] at hi hfate
      dsimp only at hi hfate
      by_cases htimer : il = intTimer
      · rw [lineCompletions, if_pos htimer] at hi
        cases hi
      · rw [if_neg htimer] at hfate
        have hreg : regIndex il (pendingDevice hw il) < 40 := by
          by_contra hbeyond
          rw [if_neg fun hok => hbeyond hok.1] at hfate
          cases hctl : s'.ctl <;> rw [hctl] at hfate <;> cases hfate
        obtain ⟨term, hterm, rfl⟩ : ∃ term, (term = 0 ∨ term = devPerInt) ∧
            i = semIndex il term (pendingDevice hw il) := by
          unfold lineCompletions at hi
          rw [if_neg htimer] at hi
          split at hi
          · next hterminal =>
            subst hterminal
            rcases List.mem_append.mp hi with hi | hi
            · split at hi
              · exact ⟨devPerInt, Or.inr rfl, List.mem_singleton.mp hi⟩
              · cases hi
            · split at hi
              · exact ⟨0, Or.inl rfl, List.mem_singleton.mp hi⟩
              · cases hi
          · exact ⟨0, Or.inl rfl, List.mem_singleton.mp hi⟩
        exact semIndex_lt_clock hterm hreg hmax

theorem sleeper_act (h : e.sleeper s.kernel = some c) :
    s.kernel.currentProcess = some c ∧
    e.act s.kernel = some (.passeren (semAddr clockSem) (-1)) := by
  cases e with
  | syscall hw =>
      unfold Event.sleeper at h
      dsimp only at h
      split at h
      · next hreq =>
        obtain ⟨hserv, huser, hsys⟩ := hreq
        refine ⟨h, ?_⟩
        rw [Event.act, h, Option.bind_some, syscallAct, if_pos hserv, if_neg huser, hsys]
        rfl
      · cases h
  | dispatch => cases h
  | pgmtrap hw => cases h
  | tlb hw => cases h
  | interrupt hw => cases h

/-- Only a request for the tick touches the semaphore of the clock. -/
theorem act_clock (h : Rep s.kernel.core v) (hc : SparesClock s e) (hstep : s.step e = some s')
    (hact : e.act s.kernel = some act) (htarget : act.target = some (semAddr clockSem)) :
    e.sleeper s.kernel = s.kernel.currentProcess := by
  have hdevice : isDeviceSem (semAddr clockSem) = true := isDeviceSem_semAddr (by decide)
  rcases Event.act_asked hact with ⟨t, rfl⟩ | ⟨hw, c, rfl, hcur, hsys⟩
  · cases htarget
  · have hasked := syscallAct_asked hsys
    have huser : (hw.oldArea .sysbk).a1 = 3 → isDeviceSem (hw.oldArea .sysbk).a2.toNat = false :=
      hc.user
    cases hasked with
    | create => cases htarget
    | terminate => cases htarget
    | passeren hthree =>
        rw [Option.some.inj htarget, hdevice] at huser
        cases huser hthree
    | verhogen hthree =>
        rw [Option.some.inj htarget, hdevice] at huser
        cases huser hthree
    | clock hnine =>
        unfold syscallAct at hsys
        split at hsys
        · next hserv =>
          split at hsys
          · cases trapAct_eq hsys
          · next hmode => exact if_pos ⟨hserv, hmode, hnine⟩
        · cases trapAct_eq hsys
    | device hi =>
        have hlt := (ioRequest_goes h hc.ready hcur hi hstep).1
        exact absurd (Option.some.inj htarget) (semAddr_ne_clock hlt)

theorem noteSleepers_quiet (htick : e.ticks s.kernel = false) (hsl : e.sleeper s.kernel = none) :
    noteSleepers s e s' l = l.filter (· ∉ freeList s'.kernel) := by
  rw [noteSleepers, htick, hsl, Option.toList_none, List.append_nil]
  rfl

/-- A step of a process. -/
theorem own_asleep (ha : Asleep v l) (h : Rep s.kernel.core v) (hc : SparesClock s e)
    (hstep : s.step e = some s') (hrep' : Rep s'.kernel.core v')
    (hsteps : Steps OrderlyMove (e.act s.kernel).toList v v') :
    Asleep v' ((l ++ (e.sleeper s.kernel).toList).filter (· ∉ freeList s'.kernel)) := by
  have hsame (hnone : e.sleeper s.kernel = none) (h' : Asleep v' l) :
      Asleep v' ((l ++ (e.sleeper s.kernel).toList).filter (· ∉ freeList s'.kernel)) := by
    rw [hnone, Option.toList_none, List.append_nil, h'.filter_eq hrep']
    exact h'
  cases hact : e.act s.kernel with
  | none =>
      rw [hact] at hsteps
      obtain rfl := steps_nil.mp hsteps
      refine hsame ?_ ha
      cases hsl : e.sleeper s.kernel with
      | none => rfl
      | some c =>
          rw [(sleeper_act hsl).2] at hact
          cases hact
  | some act =>
      rw [hact] at hsteps
      obtain ⟨hv, hmove⟩ := steps_single.mp hsteps
      by_cases htarget : act.target = some (semAddr clockSem)
      · have hsl := act_clock h hc hstep hact htarget
        obtain ⟨c, hcur⟩ := Event.act_current hact
        rw [hcur] at hsl
        obtain rfl : act = .passeren (semAddr clockSem) (-1) :=
          Option.some.inj (hact.symm.trans (sleeper_act hsl).2)
        have hfits := hc.fits (by rw [hsl]; exact Option.some_ne_none c)
        rw [show s.kernel.ints = v.value from h.value] at hfits
        obtain ⟨d, hoff, hasleep⟩ := ha.passeren hfits hmove
        have hdc := (h.off d).mp hoff
        rw [core_currentProcess, hcur] at hdc
        obtain rfl := Option.some.inj hdc
        rw [hsl, Option.toList_some, hasleep.filter_eq hrep']
        exact hasleep
      · have hnone : e.sleeper s.kernel = none := by
          cases hsl : e.sleeper s.kernel with
          | none => rfl
          | some c =>
              rw [(sleeper_act hsl).2] at hact
              rw [← Option.some.inj hact] at htarget
              exact absurd rfl htarget
        by_cases hkill : ∃ t, act = .terminate t
        · obtain ⟨t, rfl⟩ := hkill
          cases hmove with
          | @terminate _ _ ks hp =>
              have hfree : (v.terminate t ks).free = v.free ++ (ks.postorder ++ [t]) := killAll_free
              have hdead : l.filter (· ∉ freeList s'.kernel) = l.filter
                  (· ∉ ks.postorder ++ [t]) := by
                refine List.filter_congr fun p hp => ?_
                have hold : p ∉ v.free := by
                  rw [← ha.queue, hv.mem_queue] at hp
                  rw [h.lists.mem_free, hp]
                  exact Place.noConfusion
                rw [hrep'.freeList_eq, hfree, decide_eq_decide, List.mem_append, or_iff_right hold]
              rw [hnone, Option.toList_none, List.append_nil, hdead]
              exact ha.terminate hv
        · refine hsame hnone
            (ha.congr (semaphore_frame ⟨hv, hmove⟩ htarget fun t ht => hkill ⟨t, ht⟩))

theorem step_asleep (ha : Asleep v l) (h : Rep s.kernel.core v) (hc : SparesClock s e)
    (hstep : s.step e = some s') : ∃ v', Rep s'.kernel.core v' ∧
    Asleep v' (noteSleepers s e s' l) := by
  obtain ⟨acts, v', hacts, hsteps, hrep'⟩ :=
    nucleus_simulation (B := fun _ => True).step h hc.ready hstep
  cases e with
  | syscall hw =>
      obtain rfl := hacts
      exact ⟨v', hrep', own_asleep ha h hc hstep hrep' hsteps⟩
  | pgmtrap hw =>
      obtain rfl := hacts
      exact ⟨v', hrep', own_asleep ha h hc hstep hrep' hsteps⟩
  | tlb hw =>
      obtain rfl := hacts
      exact ⟨v', hrep', own_asleep ha h hc hstep hrep' hsteps⟩
  | dispatch =>
      obtain rfl := hacts
      refine ⟨v', hrep', ?_⟩
      have hasleep : Asleep v' l := ha.steps hsteps fun act hact => by
        unfold dispatchActs at hact
        split at hact
        · cases hact
        · split at hact
          · rcases List.mem_pair.mp hact with rfl | rfl <;> exact ⟨nofun, nofun⟩
          · split at hact
            · rw [List.mem_singleton.mp hact]
              exact ⟨nofun, nofun⟩
            · cases hact
      rw [noteSleepers_quiet rfl rfl, hasleep.filter_eq hrep']
      exact hasleep
  | interrupt hw =>
      obtain ⟨-, hrun, -⟩ := Sys.step_eq hstep
      by_cases htick : (Event.interrupt hw).ticks s.kernel = true
      · obtain ⟨hline, hflag⟩ := Bool.and_eq_true_iff.mp htick
        obtain ⟨k', hrun', hzero, hempty, -⟩ := interruptHandler_ticks
          (k := s.kernel.enter (.interrupt hw)) h ha (of_decide_eq_true hline) hflag
        have hk : s'.kernel = k' := by
          have hexit := hrun.symm.trans hrun'
          injection hexit
        rw [noteSleepers, if_pos htick]
        refine ⟨v', hrep', ?_, fun p hp => absurd hp List.not_mem_nil, ?_, ?_⟩
        · rw [← hrep'.waiting_eq, hk]
          exact hempty
        · rw [← show s'.kernel.ints = v'.value from hrep'.value, hk, hzero]
          rfl
        · rw [← show s'.kernel.ints = v'.value from hrep'.value, hk, hzero]
          omega
      · have hquiet : ¬ (pendingLine hw.cause = some intTimer ∧ s.kernel.pseudoclockflag = true) :=
          fun hq =>
          htick (Bool.and_eq_true_iff.mpr ⟨decide_eq_true hq.1, hq.2⟩)
        obtain ⟨u, hsignals, hrepu⟩ := interruptHandler_signals
          (k := s.kernel.enter (.interrupt hw)) h hquiet hrun
        have hlt := completions_lt_clock_of_step h ha hstep
        have horderly := steps_orderly hsignals (Or.inr fun act hact => by
          obtain ⟨i, hi, rfl⟩ := List.mem_map.mp hact
          rfl) h.orderly
        have hasleep : Asleep u l := ha.steps horderly fun act hact => by
          obtain ⟨i, hi, rfl⟩ := List.mem_map.mp hact
          exact ⟨fun he => semAddr_ne_clock (hlt i hi) (Option.some.inj he), nofun⟩
        refine ⟨u, hrepu, ?_⟩
        rw [noteSleepers_quiet (Bool.not_eq_true _ ▸ htick) rfl, hasleep.filter_eq hrepu]
        exact hasleep

end Steps

/-! ### Runs -/

section Runs

variable {B : Kernel → Prop} {x : Sys × List Pcb}

theorem boot_asleep {k : Kernel} : Asleep (View.boot (bootInts k.ints) k.resWait) [] := by
  have hvalue : bootInts k.ints (semAddr clockSem) = 0 := by
    unfold bootInts
    rw [foldl_update_semAddr, if_pos]
    exact List.mem_map.mpr ⟨clockSem, List.mem_range.mpr (by decide), rfl⟩
  refine ⟨rfl, fun p hp => absurd hp List.not_mem_nil, ?_, ?_⟩
  · change bootInts k.ints (semAddr clockSem) ≤ 0
    rw [hvalue]
  · change -2 ^ 31 ≤ bootInts k.ints (semAddr clockSem)
    rw [hvalue]
    omega

theorem nucleus_asleep
    (h : Reach ((nucleus B).ghost (fun _ => []) noteSleepers) (fun x e => SparesClock x.1 e) x) :
    ∃ v, Rep x.1.kernel.core v ∧ Asleep v x.2 := by
  refine h.invariant (I := fun x => ∃ v, Rep x.1.kernel.core v ∧ Asleep v x.2) ?_ ?_
  · rintro y ⟨⟨k, -, hk, hboot⟩, hstart⟩
    rw [hstart]
    exact ⟨_, (main_run hk hboot).2.1, boot_asleep⟩
  · rintro y e z ⟨v, hrep, ha⟩ hc ⟨hstep, hnext⟩
    rw [hnext]
    exact step_asleep ha hrep hc hstep

/-- Who waits for the tick has called `WAITCLOCK` since the last one, and the next one makes all of
them ready, in the order of their calls. -/
theorem sleepers_woken
    (h : Reach ((nucleus B).ghost (fun _ => []) noteSleepers) (fun x e => SparesClock x.1 e) x) :
    x.1.waiters (semAddr clockSem) = x.2 ∧
      ∀ hw, (Event.interrupt hw).enabled x.1.ctl = true →
      (Event.interrupt hw).ticks x.1.kernel = true →
        ∃ s', x.1.step (.interrupt hw) = some s' ∧ s'.ready = x.1.ready ++ x.2 ∧
          s'.waiters (semAddr clockSem) = [] := by
  obtain ⟨v, hrep, ha⟩ := nucleus_asleep h
  refine ⟨(congrFun hrep.waiting_eq _).trans ha.queue, fun hw henabled htick => ?_⟩
  obtain ⟨hline, hflag⟩ := Bool.and_eq_true_iff.mp htick
  obtain ⟨k', hrun, -, hempty, hready⟩ := interruptHandler_ticks
    (k := x.1.kernel.enter (.interrupt hw)) hrep ha (of_decide_eq_true hline) hflag
  refine ⟨⟨k', .scheduler, (Event.interrupt hw).issue x.1.kernel x.1.issued⟩, ?_, hready, hempty⟩
  rw [Sys.step, if_pos henabled, show (Event.interrupt hw).program.run
    (x.1.kernel.enter (.interrupt hw)) =
    .exit .scheduler k' from hrun]

end Runs

end Sleeping

section Board

attribute [local instance] uarm

def lateSleep : Event :=
  .syscall { Hw.rest with
    tod := fun i => BitVec.ofNat 32 (96000 + i)
    oldArea := fun _ => { State.zero with a1 := 9, cpsr := 0x1F, cp15Cause := 8 } }

/-- Two processes go to sleep, the second one shortly before the tick is due. -/
theorem sleepers_woken_two : ∃ s s' : Sys, s.waiters (semAddr clockSem) = [1, 0] ∧
    s.step (completion intTimer 0) = some s' ∧ s'.ready = s.ready ++ [1, 0] := by
  obtain ⟨x, hx, hQ⟩ := ghost_run (B := fun _ => True) (fun _ => []) noteSleepers
    (D := fun x e => SparesClock x.1 e) trivial atBoot_zero
    [.dispatch, call 1, .dispatch, completion intTimer 0, .dispatch, call 9, .dispatch, lateSleep,
      .dispatch]
    (fun x => x.2 = [1, 0] && (completion intTimer 0).enabled x.1.ctl &&
      (completion intTimer 0).ticks x.1.kernel) (by decide +kernel)
  obtain ⟨hQ, htick⟩ := Bool.and_eq_true_iff.mp hQ
  obtain ⟨htwo, henabled⟩ := Bool.and_eq_true_iff.mp hQ
  obtain ⟨hwaiting, hwoken⟩ := sleepers_woken hx
  obtain ⟨s', hstep, hready, -⟩ := hwoken _ henabled htick
  rw [of_decide_eq_true htwo] at hwaiting hready
  exact ⟨x.1, s', hwaiting, hstep, hready⟩

end Board

end JaeOS
