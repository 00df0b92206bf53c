import JaeOS.Exclusion
import JaeOS.Tick

/-!
# The interrupts of terminals

A terminal is two sub-devices. `terminal_handler` serves the receiver first and the transmitter
after it, each with its own register words, semaphore and queue, and each only if its status is that
of an operation that succeeded; `dev_handler` serves every status.
-/

open LinkRing Transition

namespace JaeOS

inductive SubDevice where
  | receiver
  | transmitter
  deriving Repr, DecidableEq

namespace SubDevice

def term : SubDevice → Word
  | receiver => devPerInt
  | transmitter => 0

def status : SubDevice → DevReg → Word
  | receiver, r => r.recvStatus
  | transmitter, r => r.transmStatus

def command : SubDevice → DevReg → Word
  | receiver, r => r.recvCommand
  | transmitter, r => r.transmCommand

variable [Platform] (x : SubDevice)

def Succeeded (u : Word) : Prop :=
  u &&& 0x000000FF = match x with
    | receiver => Platform.devTrcvSCharrecv
    | transmitter => Platform.devTtrsSChartrsm

instance {u : Word} : Decidable (x.Succeeded u) := inferInstanceAs (Decidable (_ = _))

def acknowledge : DevReg → DevReg :=
  match x with
  | receiver => fun r => { r with recvCommand := Platform.devCAck }
  | transmitter => fun r => { r with transmCommand := Platform.devCAck }

def branch (devreg : ℕ) (dnum : Word) : KM Unit :=
  match x with
  | receiver => terminalReceive devreg dnum
  | transmitter => terminalTransmit devreg dnum

def sem (dnum : Word) : ℕ := semAddr (semIndex intTerminal x.term dnum)

end SubDevice

section Handler

variable [Platform] {k k' k₁ : Kernel} {v : View} {a : ℕ} {u dnum : Word} {c : Pcb} {l : List Pcb}
  {x y : SubDevice}

/-! ### One waiter -/

/-- The oldest waiter of `a` has been given the status `u` and is ready. -/
structure Signals (k k' : Kernel) (a : ℕ) (u : Word) (c : Pcb) (l : List Pcb) : Prop where
  states : k'.pS = Function.update k.pS c { k.pS c with a1 := u }
  queues : waiting k'.toLinks = Function.update (waiting k.toLinks) a l
  ready : readyList k' = readyList k ++ [c]
  ints : ∀ b ≠ a, k'.ints b = k.ints b
  requests : ∀ p ≠ c, k'.resWait p = k.resWait p
  hw : k'.hw = k.hw

/-- The integer counts the waiters, who wait for one unit each. -/
structure Counts (k : Kernel) (a : ℕ) : Prop where
  value : k.ints a = -((waiting k.toLinks a).length : ℤ)
  units : ∀ p ∈ waiting k.toLinks a, k.resWait p = -1

omit [Platform] in
theorem Kernel.Shows.headBlocked_run (h : k.Shows v) (a : ℕ) :
    (onLinks (headBlocked a)).run k = .ok (waiting k.toLinks a).head? k := by
  obtain ⟨ds, fs, hl⟩ := h.lists.asl
  have hrun := onLinks_run (k := k) (v := v) (hl.headBlocked_run (χ := Ctl) a)
  have hself : k.withLists k.toLinks v = k := h.numbers
  rw [hself] at hrun
  rw [h.waiting_eq]
  exact hrun

omit [Platform] in
theorem Counts.fits (h : k.Shows v) (hc : Counts k a) (hne : waiting k.toLinks a ≠ []) :
    v.Fits a 1 := by
  have hlen := h.length_waiting a
  have hpos := List.length_pos_iff.mpr hne
  have hvalue : v.value a = -((waiting k.toLinks a).length : ℤ) := by rw [← h.value, hc.value]
  have hdemand : demand v.request (v.queue a) = (waiting k.toLinks a).length := by
    rw [← h.request, ← h.waiting_eq, demand_units hc.units]
  have havail : v.avail a = v.value a + demand v.request (v.queue a) := rfl
  have hmax : maxproc = 20 := rfl
  constructor
  · constructor <;> omega
  · omega
  · constructor
    · intro _
      omega
    · omega

/-- A completed operation wakes the oldest waiter only. -/
theorem signalDevice_signals (h : k.Shows v) (ha : a ≠ 0) (hc : Counts k a)
    (hq : waiting k.toLinks a = c :: l) :
    ∃ k' v', (signalDevice a u).run k = .ok () k' ∧ k'.Shows v' ∧ Signals k k' a u c l := by
  have hne : waiting k.toLinks a ≠ [] := by
    rw [hq]
    exact List.cons_ne_nil c l
  have hlow : k.ints a < 1 := by
    have hvalue := hc.value
    omega
  have hfits := hc.fits h hne
  obtain ⟨k₁, hk₁⟩ : ∃ k₁ :
    Kernel, k₁ = { k with pS := Function.update k.pS c { k.pS c with a1 := u } } :=
    ⟨_, rfl⟩
  have hshows : k₁.Shows v := by
    rw [hk₁]
    refine ⟨h.lists, h.ready, ?_⟩
    exact withLists_self h.value h.request h.alive h.soft
  obtain ⟨k', rest, hrun, hgrants, hshows'⟩ := verhogen_grants hshows ha Int.one_pos hfits
  have hafford := hshows.woken_affordable hfits
  generalize v.woken a 1 = woken at hafford hgrants
  have hlinks : k₁.toLinks = k.toLinks := by rw [hk₁]
  have hreq : k₁.resWait = k.resWait := by rw [hk₁]
  have hints : k₁.ints = k.ints := by rw [hk₁]
  have hready : readyList k₁ = readyList k := by rw [hk₁]; rfl
  have havail : k₁.avail a + 1 = 1 := by
    rw [Kernel.avail, hlinks, hreq, hints, hc.value, demand_units hc.units]
    omega
  have hunits : ∀ p ∈ waiting k₁.toLinks a, k₁.resWait p = -1 := by
    rw [hlinks, hreq]
    exact hc.units
  have hone := (affordable_unit hunits hafford).2 havail (by rw [hlinks]; exact hne)
  have hsplit := hgrants.split
  rw [hlinks, hq] at hsplit
  have hwoken : woken = [c] ∧ rest = l := by
    obtain ⟨p, rfl⟩ := List.length_eq_one_iff.mp hone
    obtain ⟨rfl, rfl⟩ := List.cons.inj hsplit
    exact ⟨rfl, rfl⟩
  obtain ⟨rfl, rfl⟩ := hwoken
  have hfields := hgrants.kernel
  refine ⟨k', _, ?_, hshows', ?_, ?_, ?_, ?_, ?_, ?_⟩
  · rw [signalDevice, Program.run_gets_bind, if_pos hlow, Program.run_bind_ok (h.headBlocked_run a),
      hq]
    simp only [List.head?_cons, Program.need_some, Program.run_pure_bind, setPs,
      Program.run_modify_bind]
    rw [← hk₁]
    exact hrun
  · rw [hfields, hk₁]
  · rw [hgrants.queues, hlinks]
  · rw [hgrants.ready, hready]
  · intro b hb
    rw [hfields]
    exact (Function.update_of_ne hb ..).trans (congrFun hints b)
  · intro p hp
    rw [hfields]
    exact (if_neg (by simpa using hp)).trans (congrFun hreq p)
  · rw [hfields, hk₁]

/-- The handlers take it for granted that somebody waits. -/
theorem signalDevice_nobody (h : k.Shows v) (hc : Counts k a) (hq : waiting k.toLinks a = []) :
    (signalDevice a u).run k = .fault .null := by
  have hlow : k.ints a < 1 := by
    have hvalue := hc.value
    omega
  rw [signalDevice, Program.run_gets_bind, if_pos hlow, Program.run_bind_ok (h.headBlocked_run a),
    hq]
  rfl

/-! ### The two branches -/

def terminalReg (k : Kernel) (dnum : Word) : DevReg := k.hw.devreg (regIndex intTerminal dnum)

def SubDevice.served (x : SubDevice) (k : Kernel) (dnum : Word) : List Pcb :=
  if x.Succeeded (x.status (terminalReg k dnum)) then (waiting k.toLinks (x.sem dnum)).head?.toList
    else []

structure Attends (x : SubDevice) (dnum : Word) (k k' : Kernel) : Prop where
  ready : readyList k' = readyList k ++ x.served k dnum
  queue : waiting k.toLinks (x.sem dnum) = x.served k dnum ++ waiting k'.toLinks (x.sem dnum)
  elsewhere : ∀ b ≠ x.sem dnum, waiting k'.toLinks b = waiting k.toLinks b ∧ k'.ints b = k.ints b
  answered : ∀ p ∈ x.served k dnum, (k'.pS p).a1 = x.status (terminalReg k dnum)
  states : ∀ p ∉ x.served k dnum, k'.pS p = k.pS p
  requests : ∀ p ∉ x.served k dnum, k'.resWait p = k.resWait p
  register : terminalReg k' dnum =
    if x.Succeeded (x.status (terminalReg k dnum)) then x.acknowledge (terminalReg k dnum)
    else terminalReg k dnum
  idle : ¬ x.Succeeded (x.status (terminalReg k dnum)) → k' = k

theorem sem_ne_zero : x.sem dnum ≠ 0 := semAddr_ne_zero _

omit [Platform] in
theorem sem_index (hd : dnum.toNat < 8) : semIndex intTerminal x.term dnum < maxDevices := by
  obtain ⟨-, htransm, hrecv⟩ := terminal_register hd
  cases x with
  | receiver =>
      rw [SubDevice.term, hrecv, maxDevices]
      omega
  | transmitter =>
      rw [SubDevice.term, htransm, maxDevices]
      omega

theorem deviceSemAt_run (hd : dnum.toNat < 8) :
    (deviceSemAt intTerminal x.term dnum).run k = .ok (x.sem dnum) k := by
  have hindex := sem_index (x := x) hd
  unfold deviceSemAt
  dsimp only
  rw [if_pos hindex]
  rfl

theorem sem_ne (hd : dnum.toNat < 8) (hxy : x ≠ y) : x.sem dnum ≠ y.sem dnum := by
  obtain ⟨-, htransm, hrecv⟩ := terminal_register hd
  intro hsame
  have hindex : semIndex intTerminal x.term dnum = semIndex intTerminal y.term dnum :=
    semAddr_injective hsame
  cases x <;> cases y
  · exact hxy rfl
  · rw [SubDevice.term, SubDevice.term, hrecv, htransm] at hindex
    omega
  · rw [SubDevice.term, SubDevice.term, hrecv, htransm] at hindex
    omega
  · exact hxy rfl

/-- A branch whose status is another one does nothing. -/
theorem branch_idle (hs : ¬ x.Succeeded (x.status (terminalReg k dnum))) :
    (x.branch (regIndex intTerminal dnum) dnum).run k = .ok () k := by
  cases x with
  | receiver =>
      have hcode : ¬ (k.hw.devreg (regIndex intTerminal dnum)).recvStatus &&& 0x000000FF =
          Platform.devTrcvSCharrecv := hs
      rw [SubDevice.branch, terminalReceive, Program.run_gets_bind, if_neg hcode]
      rfl
  | transmitter =>
      have hcode : ¬ (k.hw.devreg (regIndex intTerminal dnum)).transmStatus &&& 0x000000FF =
          Platform.devTtrsSChartrsm := hs
      rw [SubDevice.branch, terminalTransmit, Program.run_gets_bind, if_neg hcode]
      rfl

theorem branch_eq (hd : dnum.toNat < 8) (hs : x.Succeeded (x.status (terminalReg k dnum))) :
    (x.branch (regIndex intTerminal dnum) dnum).run k =
      (signalDevice (x.sem dnum) (x.status (terminalReg k dnum)) >>= fun _ =>
        setDevreg (regIndex intTerminal dnum) x.acknowledge).run k := by
  cases x with
  | receiver =>
      have hcode : (k.hw.devreg (regIndex intTerminal dnum)).recvStatus &&& 0x000000FF =
          Platform.devTrcvSCharrecv := hs
      have hsem : (deviceSemAt intTerminal devPerInt dnum).run k =
          .ok (SubDevice.receiver.sem dnum) k :=
        deviceSemAt_run (x := .receiver) hd
      rw [SubDevice.branch, terminalReceive, Program.run_gets_bind, if_pos hcode,
        Program.run_bind_ok hsem]
      rfl
  | transmitter =>
      have hcode : (k.hw.devreg (regIndex intTerminal dnum)).transmStatus &&& 0x000000FF =
          Platform.devTtrsSChartrsm := hs
      have hsem : (deviceSemAt intTerminal 0 dnum).run k = .ok (SubDevice.transmitter.sem dnum) k :=
        deviceSemAt_run (x := .transmitter) hd
      rw [SubDevice.branch, terminalTransmit, Program.run_gets_bind, if_pos hcode,
        Program.run_bind_ok hsem]
      rfl

theorem Attends.of_idle (hs : ¬ x.Succeeded (x.status (terminalReg k dnum))) :
    Attends x dnum k k := by
  have hnone : x.served k dnum = [] := if_neg hs
  constructor
  · rw [hnone, List.append_nil]
  · rw [hnone, List.nil_append]
  · exact fun b _ => ⟨rfl, rfl⟩
  · intro p hp
    rw [hnone] at hp
    cases hp
  · exact fun p _ => rfl
  · exact fun p _ => rfl
  · rw [if_neg hs]
  · exact fun _ => rfl

theorem branch_attends (h : k.Shows v) (hd : dnum.toNat < 8) (hc : Counts k (x.sem dnum))
    (hwait : x.Succeeded (x.status (terminalReg k dnum)) → waiting k.toLinks (x.sem dnum) ≠ []) :
    ∃ k' v', (x.branch (regIndex intTerminal dnum) dnum).run k = .ok () k' ∧ k'.Shows v' ∧
      Attends x dnum k k' := by
  by_cases hs : x.Succeeded (x.status (terminalReg k dnum))
  · obtain ⟨c, l, hq⟩ := List.exists_cons_of_ne_nil (hwait hs)
    obtain ⟨k₁, v₁, hrun, hshows, hsig⟩ :=
      signalDevice_signals (u := x.status (terminalReg k dnum)) h sem_ne_zero hc hq
    have hserved : x.served k dnum = [c] := by
      rw [SubDevice.served, if_pos hs, hq]
      rfl
    have hfinal := Program.run_bind_ok hrun fun _ =>
      setDevreg (regIndex intTerminal dnum) x.acknowledge
    refine ⟨_, v₁, (branch_eq hd hs).trans hfinal, ⟨hshows.lists, hshows.ready, ?_⟩, ?_⟩
    · exact withLists_self hshows.value hshows.request hshows.alive hshows.soft
    constructor
    · rw [hserved]
      exact hsig.ready
    · have hrest := congrFun hsig.queues (x.sem dnum)
      rw [Function.update_self] at hrest
      rw [hserved, hq]
      exact congrArg (c :: ·) hrest.symm
    · intro b hb
      have hother := congrFun hsig.queues b
      rw [Function.update_of_ne hb] at hother
      exact ⟨hother, hsig.ints b hb⟩
    · intro p hp
      rw [hserved, List.mem_singleton] at hp
      have hstate := congrFun hsig.states p
      rw [hp, Function.update_self] at hstate
      rw [hp]
      exact congrArg State.a1 hstate
    · intro p hp
      rw [hserved, List.mem_singleton] at hp
      have hstate := congrFun hsig.states p
      rwa [Function.update_of_ne hp] at hstate
    · intro p hp
      rw [hserved, List.mem_singleton] at hp
      exact hsig.requests p hp
    · rw [if_pos hs]
      have hreg : terminalReg k₁ dnum = terminalReg k dnum := by rw [terminalReg, hsig.hw]; rfl
      rw [← hreg]
      exact Function.update_self ..
    · exact fun hno => absurd hs hno
  · exact ⟨k, v, branch_idle hs, h, .of_idle hs⟩

theorem branch_nobody (h : k.Shows v) (hd : dnum.toNat < 8) (hc : Counts k (x.sem dnum))
    (hs : x.Succeeded (x.status (terminalReg k dnum))) (hq : waiting k.toLinks (x.sem dnum) = []) :
    (x.branch (regIndex intTerminal dnum) dnum).run k = .fault .null := by
  rw [branch_eq hd hs, Program.run_bind_fault (signalDevice_nobody h hc hq)]

/-! ### Both -/

/-- What an interrupt of the terminal `dnum` is to do, where `done` tells which status words report
a completed operation: the oldest waiter of each completed sub-device is given its status and made
ready, and a sub-device that is not completed keeps what it has. -/
structure TerminalServed (done : SubDevice → Word → Bool) (dnum : Word) (k k' : Kernel) : Prop where
  answered : ∀ x : SubDevice, done x (x.status (terminalReg k dnum)) →
    ∀ c l, waiting k.toLinks (x.sem dnum) = c :: l →
      (k'.pS c).a1 = x.status (terminalReg k dnum) ∧ waiting k'.toLinks (x.sem dnum) = l ∧
        x.command (terminalReg k' dnum) = Platform.devCAck
  ready : readyList k' = readyList k ++ [SubDevice.receiver, SubDevice.transmitter].flatMap fun x =>
    if done x (x.status (terminalReg k dnum)) then (waiting k.toLinks (x.sem dnum)).head?.toList
      else []
  untouched : ∀ x : SubDevice, ¬ done x (x.status (terminalReg k dnum)) →
    k'.ints (x.sem dnum) = k.ints (x.sem dnum) ∧
      waiting k'.toLinks (x.sem dnum) = waiting k.toLinks (x.sem dnum) ∧
        x.command (terminalReg k' dnum) = x.command (terminalReg k dnum)

/-- The waiters of completed sub-devices are those whose status the handler looks for. -/
def Understood (done : SubDevice → Word → Bool) (dnum : Word) (k : Kernel) : Prop :=
  ∀ x : SubDevice,
    (done x (x.status (terminalReg k dnum)) → waiting k.toLinks (x.sem dnum) ≠ [] →
      x.Succeeded (x.status (terminalReg k dnum))) ∧
    (x.Succeeded (x.status (terminalReg k dnum)) → waiting k.toLinks (x.sem dnum) ≠ [])

theorem status_acknowledge (r : DevReg) : y.status (x.acknowledge r) = y.status r := by
  cases x <;> cases y <;> rfl

theorem command_acknowledge (r : DevReg) (hxy : x ≠ y) :
    y.command (x.acknowledge r) = y.command r := by
  cases x <;> cases y
  · exact absurd rfl hxy
  · rfl
  · rfl
  · exact absurd rfl hxy

theorem command_acknowledged (r : DevReg) : x.command (x.acknowledge r) = Platform.devCAck := by
  cases x <;> rfl

namespace Attends

theorem status_eq (h : Attends x dnum k k') (y : SubDevice) :
    y.status (terminalReg k' dnum) = y.status (terminalReg k dnum) := by
  rw [h.register]
  split
  · exact status_acknowledge _
  · rfl

theorem command_eq (h : Attends x dnum k k') (hxy : x ≠ y) :
    y.command (terminalReg k' dnum) = y.command (terminalReg k dnum) := by
  rw [h.register]
  split
  · exact command_acknowledge _ hxy
  · rfl

theorem served_eq (h : Attends x dnum k k') (hd : dnum.toNat < 8) (hxy : x ≠ y) :
    y.served k' dnum = y.served k dnum := by
  unfold SubDevice.served
  rw [h.status_eq, (h.elsewhere _ (sem_ne hd hxy).symm).1]

/-- The other sub-device still counts its waiters. -/
theorem counts (h : Attends x dnum k k') (hd : dnum.toNat < 8) (hxy : x ≠ y) (hv : k.Shows v)
    (hc : Counts k (y.sem dnum)) : Counts k' (y.sem dnum) := by
  obtain ⟨hqueue, hvalue⟩ := h.elsewhere _ (sem_ne hd hxy).symm
  constructor
  · rw [hvalue, hqueue]
    exact hc.value
  · intro p hp
    rw [hqueue] at hp
    rw [h.requests, hc.units p hp]
    intro hserved
    have hpx : p ∈ waiting k.toLinks (x.sem dnum) := by
      rw [h.queue]
      exact List.mem_append_left _ hserved
    rw [hv.waiting_eq] at hp hpx
    have hplace := (hv.lists.mem_queue _ _).mp hp
    rw [(hv.lists.mem_queue _ _).mp hpx] at hplace
    exact sem_ne hd hxy (Place.blocked.inj hplace)

end Attends

theorem terminalHandler_eq (hd : dnum.toNat < 8) (hdnum : pendingDevice k.hw intTerminal = dnum) :
    terminalHandler.run k = (SubDevice.receiver.branch (regIndex intTerminal dnum) dnum >>= fun _ =>
      SubDevice.transmitter.branch (regIndex intTerminal dnum) dnum).run k := by
  obtain ⟨hreg, -⟩ := terminal_register hd
  have hlt : regIndex intTerminal dnum < 40 := by
    rw [hreg]
    omega
  have hfind : findDnum (k.hw.bitmap intTerminal) = dnum := hdnum
  have haddr : (devRegAddr intTerminal dnum).run k = .ok (regIndex intTerminal dnum) k := by
    unfold devRegAddr
    dsimp only
    rw [if_pos hlt]
    rfl
  rw [terminalHandler, Program.run_gets_bind, hfind, Program.run_bind_ok haddr]
  rfl

structure Attended (dnum : Word) (k k' : Kernel) : Prop where
  ready : readyList k' =
    readyList k ++ (SubDevice.receiver.served k dnum ++ SubDevice.transmitter.served k dnum)
  queue : ∀ x : SubDevice,
    waiting k.toLinks (x.sem dnum) = x.served k dnum ++ waiting k'.toLinks (x.sem dnum)
  answered : ∀ x : SubDevice, ∀ p ∈ x.served k dnum, (k'.pS p).a1 = x.status (terminalReg k dnum)
  command : ∀ x : SubDevice, x.command (terminalReg k' dnum) =
    if x.Succeeded (x.status (terminalReg k dnum)) then Platform.devCAck
    else x.command (terminalReg k dnum)
  idle : ∀ x : SubDevice, ¬ x.Succeeded (x.status (terminalReg k dnum)) →
    k'.ints (x.sem dnum) = k.ints (x.sem dnum)

theorem Attends.command_self (h : Attends x dnum k k') : x.command (terminalReg k' dnum) =
    if x.Succeeded (x.status (terminalReg k dnum)) then Platform.devCAck
    else x.command (terminalReg k dnum) := by
  rw [h.register]
  by_cases hs : x.Succeeded (x.status (terminalReg k dnum))
  · rw [if_pos hs, if_pos hs, command_acknowledged]
  · rw [if_neg hs, if_neg hs]

/-- The waiter that the first branch has served does not wait for the second sub-device. -/
theorem Attends.apart (hd : dnum.toNat < 8) (hv : k.Shows v) (h : Attends .receiver dnum k k₁)
    (h' : Attends .transmitter dnum k₁ k') :
    ∀ p ∈ SubDevice.receiver.served k dnum, p ∉ SubDevice.transmitter.served k₁ dnum := by
  have hne : SubDevice.receiver.sem dnum ≠ SubDevice.transmitter.sem dnum := sem_ne hd (by decide)
  intro p hp hp'
  have hqueue : waiting k₁.toLinks (SubDevice.transmitter.sem dnum) =
      waiting k.toLinks (SubDevice.transmitter.sem dnum) := (h.elsewhere _ hne.symm).1
  have hpr : p ∈ v.queue (SubDevice.receiver.sem dnum) := by
    rw [← hv.waiting_eq, h.queue]
    exact List.mem_append_left _ hp
  have hpt : p ∈ v.queue (SubDevice.transmitter.sem dnum) := by
    rw [← hv.waiting_eq, ← hqueue, h'.queue]
    exact List.mem_append_left _ hp'
  have hplace := (hv.lists.mem_queue _ _).mp hpr
  rw [(hv.lists.mem_queue _ _).mp hpt] at hplace
  exact hne (Place.blocked.inj hplace).symm

theorem Attends.both (hd : dnum.toNat < 8) (hv : k.Shows v) (h : Attends .receiver dnum k k₁)
    (h' : Attends .transmitter dnum k₁ k') : Attended dnum k k' := by
  have hne : SubDevice.receiver.sem dnum ≠ SubDevice.transmitter.sem dnum := sem_ne hd (by decide)
  have hapart := h.apart hd hv h'
  have hserved : SubDevice.transmitter.served k₁ dnum = SubDevice.transmitter.served k dnum :=
    h.served_eq hd (by decide)
  obtain ⟨hqueue, hvalue⟩ := h.elsewhere _ hne.symm
  obtain ⟨hqueue', hvalue'⟩ := h'.elsewhere _ hne
  have hstatus : ∀ y : SubDevice, y.status (terminalReg k₁ dnum) = y.status (terminalReg k dnum) :=
    h.status_eq
  constructor
  · rw [h'.ready, h.ready, hserved, List.append_assoc]
  · intro x
    cases x with
    | receiver => rw [hqueue', ← h.queue]
    | transmitter => rw [← hqueue, h'.queue, hserved]
  · intro x p hp
    cases x with
    | receiver => rw [h'.states p (hapart p hp), h.answered p hp]
    | transmitter => rw [h'.answered p (hserved ▸ hp), hstatus]
  · intro x
    cases x with
    | receiver => rw [h'.command_eq (by decide), h.command_self]
    | transmitter => rw [h'.command_self, hstatus, h.command_eq (by decide)]
  · intro x hs
    cases x with
    | receiver => rw [hvalue', h.idle hs]
    | transmitter =>
        have hidle : ¬ SubDevice.transmitter.Succeeded
            (SubDevice.transmitter.status (terminalReg k₁ dnum)) := by rwa [hstatus]
        rw [h'.idle hidle, hvalue]

/-- If everybody who is looked for waits, the handler returns. -/
theorem terminalHandler_attends (h : k.Shows v) (hd : dnum.toNat < 8)
    (hdnum : pendingDevice k.hw intTerminal = dnum) (hc : ∀ x : SubDevice, Counts k (x.sem dnum))
    (hwait : ∀ x : SubDevice, x.Succeeded (x.status (terminalReg k dnum)) →
      waiting k.toLinks (x.sem dnum) ≠ []) :
    ∃ k', terminalHandler.run k = .ok () k' ∧ Attended dnum k k' := by
  obtain ⟨k₁, v₁, hrun, hshows, hattends⟩ := branch_attends h hd (hc .receiver) (hwait .receiver)
  have hne : SubDevice.receiver.sem dnum ≠ SubDevice.transmitter.sem dnum := sem_ne hd (by decide)
  have hcounts : Counts k₁ (SubDevice.transmitter.sem dnum) :=
    hattends.counts hd (by decide) h (hc .transmitter)
  obtain ⟨k', v', hrun', -, hattends'⟩ := branch_attends hshows hd hcounts (by
    rw [hattends.status_eq, (hattends.elsewhere _ hne.symm).1]
    exact hwait .transmitter)
  refine ⟨k', ?_, hattends.both hd h hattends'⟩
  rw [terminalHandler_eq hd hdnum, Program.run_bind_ok hrun]
  exact hrun'

/-- The handler does not return if nobody waits for an operation that succeeded. -/
theorem terminalHandler_returns (h : k.Shows v) (hd : dnum.toNat < 8)
    (hdnum : pendingDevice k.hw intTerminal = dnum) (hc : ∀ x : SubDevice, Counts k (x.sem dnum))
    (hrun : terminalHandler.run k = .ok () k') (x : SubDevice)
    (hs : x.Succeeded (x.status (terminalReg k dnum))) : waiting k.toLinks (x.sem dnum) ≠ [] := by
  rw [terminalHandler_eq hd hdnum] at hrun
  obtain ⟨_, k₁, hrecv, htransm⟩ := Program.ok_of_bind hrun
  have hreceiver : SubDevice.receiver.Succeeded (SubDevice.receiver.status (terminalReg k dnum)) →
      waiting k.toLinks (SubDevice.receiver.sem dnum) ≠ [] := by
    intro hs hq
    rw [branch_nobody h hd (hc .receiver) hs hq] at hrecv
    cases hrecv
  cases x with
  | receiver => exact hreceiver hs
  | transmitter =>
      obtain ⟨k₂, v₂, hrun₂, hshows, hattends⟩ := branch_attends h hd (hc .receiver) hreceiver
      rw [hrun₂] at hrecv
      obtain ⟨-, rfl⟩ := Outcome.ok.inj hrecv
      have hne : SubDevice.receiver.sem dnum ≠ SubDevice.transmitter.sem dnum :=
        sem_ne hd (by decide)
      have hcounts : Counts k₂ (SubDevice.transmitter.sem dnum) :=
        hattends.counts hd (by decide) h (hc .transmitter)
      intro hq
      rw [← (hattends.elsewhere _ hne.symm).1] at hq
      rw [← hattends.status_eq] at hs
      rw [branch_nobody hshows hd hcounts hs hq] at htransm
      cases htransm

section Condition

variable {done : SubDevice → Word → Bool}

theorem Attended.served (h : Attended dnum k k')
    (hdone : ∀ (x : SubDevice) u, x.Succeeded u → done x u)
    (hu : Understood done dnum k) : TerminalServed done dnum k k' := by
  have hserved : ∀ x : SubDevice, x.served k dnum =
      if done x (x.status (terminalReg k dnum)) then (waiting k.toLinks (x.sem dnum)).head?.toList
      else [] := by
    intro x
    rw [SubDevice.served]
    by_cases hx : done x (x.status (terminalReg k dnum)) = true
    · rw [if_pos hx]
      by_cases hq : waiting k.toLinks (x.sem dnum) = []
      · rw [hq]
        exact ite_self _
      · rw [if_pos ((hu x).1 hx hq)]
    · rw [if_neg hx, if_neg fun hs => hx (hdone x _ hs)]
  constructor
  · intro x hx c l hq
    have hs : x.Succeeded (x.status (terminalReg k dnum)) := by
      apply (hu x).1 hx
      rw [hq]
      exact List.cons_ne_nil c l
    have hone : x.served k dnum = [c] := by
      rw [SubDevice.served, if_pos hs, hq]
      rfl
    refine ⟨?_, ?_, ?_⟩
    · apply h.answered x
      rw [hone]
      exact List.mem_singleton_self c
    · have hqueue := h.queue x
      rw [hone, hq] at hqueue
      exact (List.cons.inj hqueue).2.symm
    · rw [h.command, if_pos hs]
  · rw [h.ready, hserved, hserved]
    simp
  · intro x hx
    have hs : ¬ x.Succeeded (x.status (terminalReg k dnum)) := fun hs => hx (hdone x _ hs)
    have hnone : x.served k dnum = [] := if_neg hs
    have hqueue := h.queue x
    rw [hnone, List.nil_append] at hqueue
    refine ⟨h.idle x hs, hqueue.symm, ?_⟩
    rw [h.command, if_neg hs]

/-- A waiter whose status is another one stays where it is. -/
theorem understood_of_served (h : k.Shows v) (hd : dnum.toNat < 8)
    (hdnum : pendingDevice k.hw intTerminal = dnum) (hc : ∀ x : SubDevice, Counts k (x.sem dnum))
    (hrun : terminalHandler.run k = .ok () k') (hserved : TerminalServed done dnum k k') :
    Understood done dnum k := by
  have hwait := terminalHandler_returns h hd hdnum hc hrun
  intro x
  refine ⟨fun hx hq => ?_, hwait x⟩
  obtain ⟨k₁, hrun₁, hattended⟩ := terminalHandler_attends h hd hdnum hc hwait
  rw [hrun] at hrun₁
  obtain ⟨-, rfl⟩ := Outcome.ok.inj hrun₁
  by_contra hs
  obtain ⟨c, l, hcl⟩ := List.exists_cons_of_ne_nil hq
  obtain ⟨-, hrest, -⟩ := hserved.answered x hx c l hcl
  have hnone : x.served k dnum = [] := if_neg hs
  have hqueue := congrArg List.length (hattended.queue x)
  rw [hnone, hrest, hcl, List.nil_append, List.length_cons] at hqueue
  omega

/-- Where the semaphores of a terminal count their waiters, its interrupt is served exactly if the
status of every completed sub-device with a waiter is the one the handler looks for, and nobody is
looked for in vain. -/
theorem terminal_served_iff (hk : k.Sound) (hd : dnum.toNat < 8)
    (hdnum : pendingDevice k.hw intTerminal = dnum) (hc : ∀ x : SubDevice, Counts k (x.sem dnum))
    (hdone : ∀ (x : SubDevice) u, x.Succeeded u → done x u) :
    (∃ k', terminalHandler.run k = .ok () k' ∧ TerminalServed done dnum k k') ↔
      Understood done dnum k := by
  obtain ⟨v, hv⟩ := hk
  constructor
  · intro hserved
    obtain ⟨k', hrun, hserved⟩ := hserved
    exact understood_of_served hv.shows hd hdnum hc hrun hserved
  · intro hu
    obtain ⟨k', hrun, hattended⟩ := terminalHandler_attends hv.shows hd hdnum hc fun x => (hu x).2
    exact ⟨k', hrun, hattended.served hdone hu⟩

end Condition

end Handler

section Board

attribute [local instance] uarm

def transmission (u : Word) : Hw :=
  { Hw.rest with
    cause := 1 <<< 31
    bitmap := fun _ => 1
    devreg := fun _ => ⟨0, 0, u, 0⟩ }

def completed (_ : SubDevice) (u : Word) : Bool := u &&& 0xFF = 5 || u &&& 0xFF = 4

/-- The first process waits for the transmitter of the terminal 0, which reports the status `u`. -/
theorem transmission_awaited (u : Word) : ∃ k : Kernel, k.Sound ∧
    pendingDevice k.hw intTerminal = 0 ∧ terminalReg k 0 = ⟨0, 0, u, 0⟩ ∧
    (∀ x : SubDevice, Counts k (x.sem 0)) ∧ waiting k.toLinks (SubDevice.transmitter.sem 0) = [0] ∧
    waiting k.toLinks (SubDevice.receiver.sem 0) = [] := by
  obtain ⟨s, hs, hQ⟩ := nucleus_run (B := fun _ => True) (C := SparesReady) trivial atBoot_zero
    [.dispatch, call 10 2 7 0]
    (fun s => s.kernel.ints (SubDevice.transmitter.sem 0) = -1 ∧
      waiting s.kernel.toLinks (SubDevice.transmitter.sem 0) = [0] ∧ s.kernel.resWait 0 = -1 ∧
      s.kernel.ints (SubDevice.receiver.sem 0) = 0 ∧
      waiting s.kernel.toLinks (SubDevice.receiver.sem 0) = []) (by decide +kernel)
  obtain ⟨hvalue, hqueue, hunit, hvalue', hqueue'⟩ := of_decide_eq_true hQ
  obtain ⟨v, hrep⟩ := nucleus_rep hs
  have hc : ∀ x : SubDevice, Counts s.kernel (x.sem 0) := by
    intro x
    cases x with
    | receiver =>
        constructor
        · rw [hvalue', hqueue']
          rfl
        · rw [hqueue']
          intro p hp
          cases hp
    | transmitter =>
        constructor
        · rw [hvalue, hqueue]
          rfl
        · rw [hqueue]
          intro p hp
          rw [List.mem_singleton.mp hp, hunit]
  have hpending : pendingDevice (transmission u) intTerminal = 0 :=
    (by decide : findDnum 1 = 0)
  exact ⟨{ s.kernel with hw := transmission u }, ⟨v, hrep.toWellFormed⟩, hpending, rfl,
    fun x => ⟨(hc x).value, (hc x).units⟩, hqueue, hqueue'⟩

/-- The character has been sent. -/
theorem terminal_served_sent : ∃ k k' :
    Kernel, waiting k.toLinks (SubDevice.transmitter.sem 0) = [0] ∧
    terminalHandler.run k = .ok () k' ∧ TerminalServed completed 0 k k' := by
  obtain ⟨k, hk, hpending, hreg, hc, hqueue, hqueue'⟩ := transmission_awaited 5
  have hsuccess : ∀ (x : SubDevice) (u : Word), x.Succeeded u → completed x u = true := by
    intro x u hu
    have hcode : u &&& 0xFF = 5 := by
      cases x with
      | receiver => exact hu
      | transmitter => exact hu
    rw [completed, hcode]
    rfl
  have hunderstood : Understood completed 0 k := by
    intro x
    rw [hreg]
    cases x with
    | receiver =>
        rw [hqueue']
        exact ⟨fun _ hq => absurd rfl hq, fun hs => absurd hs (by decide)⟩
    | transmitter =>
        rw [hqueue]
        exact ⟨fun _ _ => by decide, fun _ => List.cons_ne_nil 0 []⟩
  obtain ⟨k', hrun, hserved⟩ :=
    (terminal_served_iff hk (by decide) hpending hc hsuccess).mpr hunderstood
  exact ⟨k, k', hqueue, hrun, hserved⟩

/-- The character could not be sent: the process that has asked for it waits on. -/
theorem failure_not_served : ¬ ∀ (k : Kernel) (dnum : Word), k.Sound → dnum.toNat < 8 →
    pendingDevice k.hw intTerminal = dnum → (∀ x : SubDevice, Counts k (x.sem dnum)) →
      ∃ k', terminalHandler.run k = .ok () k' ∧ TerminalServed completed dnum k k' := by
  intro hall
  obtain ⟨k, hk, hpending, hreg, hc, hqueue, -⟩ := transmission_awaited 4
  obtain ⟨k', hrun, hserved⟩ := hall k 0 hk (by decide) hpending hc
  obtain ⟨v, hv⟩ := hk
  have hunderstood :=
    (understood_of_served hv.shows (by decide) hpending hc hrun hserved .transmitter).1
  rw [hreg, hqueue] at hunderstood
  exact absurd (hunderstood (by decide) (List.cons_ne_nil 0 [])) (by decide)

end Board

end JaeOS
