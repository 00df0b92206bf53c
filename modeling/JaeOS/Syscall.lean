import JaeOS.Scheduler

/-!
# The system services (`syscall.c`)

`while` and recursion are bounded: the bounds are never reached on well-formed tables.
-/

namespace JaeOS

variable [Platform]

/-! ### Creation -/

/-- The loop of `pid_generator`. After 32 rounds `pow` is 0 and the loop goes on for ever. -/
def pidPow (y : Word) : ℕ → Word → Option Word
  | 0, _ => none
  | n + 1, pow => if y ≥ pow then pidPow y n (pow * 10) else some pow

def pidGenerator (x y : Word) : KM Word := do
  let pow ← Program.need .loop (pidPow y 33 10)
  pure (x * pow + y)

/-- `pid_generator` applied to the provisional `pid` of a fresh PCB. -/
def assignPid (p : Pcb) : KM Unit := do
  let pid ← pidGenerator (← Program.gets fun k => k.pid p) (← Program.gets fun k => k.counter)
  Program.modify fun k =>
    { k with pid := Function.update k.pid p pid, counter := k.counter + 1 }

def createProcess (statep : Word) : KM Word := do
  match ← onMem (allocPcb Platform.tmpAddr) with
  | some child =>
    Program.modify fun k =>
      { k with
        kernelTime := Function.update k.kernelTime child 0
        globalTime := Function.update k.globalTime child 0 }
    let state ← Program.gets fun k => k.hw.stateAt statep
    setPs child fun s => copyState s state
    let parent ← current
    Program.modify fun k => k.setLinks (insertChild parent child k.toLinks)
    assignPid child
    insertReady child
    addProcessCount 1
    Program.gets fun k => k.pid child
  | none => pure (-1)

/-! ### Termination -/

/-- A process that waits on a semaphore leaves its queue; unless it is a device semaphore the
request is taken back. -/
def leaveSemaphore (p : Pcb) : KM Unit := do
  match ← Program.gets fun k => k.pCursem p with
  | none => pure ()
  | some d =>
    let weight ← Program.gets fun k => k.resWait p
    let s ← Program.gets fun k => k.sSemAdd d
    if !isDeviceSem s then
      setInt s (Platform.wrap ((← Program.gets fun k => k.ints s) - weight))
    let _ ← onLinks (outBlocked p)
    addSoftBlockCount (-1)

/-- What `terminate_children` does to a process whose children are gone. -/
def terminateLeaf (p : Pcb) : KM Unit := do
  leaveSemaphore p
  addProcessCount (-1)
  Program.modify fun k => k.setLinks (freePcb p k.toLinks)

/-- The `while` loop of `terminate_children` goes round by calling the function again; the rest of
its body runs when no child is left. -/
def terminateChildrenLoop : ℕ → Pcb → Pcb → KM Unit
  | 0, _, _ => Program.fail .loop
  | n + 1, p, pConst => do
    if ← Program.gets fun k => emptyChild p k.toLinks then
      if p ≠ pConst then
        terminateLeaf p
    else
      let child ← Program.need .null (← onLinks (removeChild p))
      terminateChildrenLoop n child pConst
      terminateChildrenLoop n p pConst

def terminateChildren (p pConst : Pcb) : KM Unit := terminateChildrenLoop (maxproc + 1) p pConst

/-- How a killed process, with its progeny gone, leaves the tree and the ready queue. -/
def discard (p : Pcb) : KM Unit := do
  addProcessCount (-1)
  let _ ← onLinks (outChild p)
  let (_, q) ← onLinks (outProcQ (← Program.gets fun k => k.readyqueue) p)
  Program.modify fun k => { k with readyqueue := q }
  Program.modify fun k => k.setLinks (freePcb p k.toLinks)

def terminateTree (p : Pcb) : KM Unit := do
  terminateChildren p p
  leaveSemaphore p
  discard p

/-- The loop of `lookfor_progeny` over the children; `search` is the recursive call. `found` is
passed by reference in the source. -/
def searchChildren (search : Pcb → Bool → KM Bool) (parent : Pcb) (found : Bool) : KM Bool := do
  let (found, _, _) ← clistForeach maxproc (fun k : Kernel => k.pSiblings)
    (fun _ => Program.gets fun k => k.pChildren parent)
    (fun found child _ => do
      if found = false then
        pure (.yield (← search child found))
      else
        pure (.done found))
    found none none
  pure found

def lookforProgenyLoop : ℕ → Pcb → Word → Bool → KM Bool
  | 0, _, _, _ => Program.fail .loop
  | n + 1, parent, pid, found => do
    if (← Program.gets fun k => k.pid parent) = pid then
      terminateTree parent
      pure true
    else
      searchChildren (fun child found => lookforProgenyLoop n child pid found) parent found

def lookforProgeny (parent : Pcb) (pid : Word) (found : Bool) : KM Bool :=
  lookforProgenyLoop (maxproc + 1) parent pid found

def terminateProcess (pid : Word) : KM Unit := do
  let p ← current
  if pid = 0 ∨ pid = (← Program.gets fun k => k.pid p) then
    terminateChildren p p
    discard p
    setCurrent none
    setFlag .loadnext
  else
    if (← lookforProgeny p pid false) = false then
      PANIC

/-! ### Semaphores -/

def queueOf (scan : Option Pcb) : KM (Option Pcb) := do
  let p ← Program.need .null scan
  let d ← Program.need .null (← Program.gets fun k => k.pCursem p)
  Program.gets fun k => k.sProcq d

def sumRequestsBody (sum : ℤ) (scan : Pcb) (_tmp : Option Pcb) : KM (ForInStep ℤ) := do
  let r ← Program.gets fun k => k.resWait scan
  pure (.yield (Platform.wrap (sum - r)))

def sumRequests (scan : Pcb) : KM ℤ := do
  let (sum, _, _) ← clistForeach maxproc (fun k : Kernel => k.pList) queueOf sumRequestsBody
    0 (some scan) none
  pure sum

/-- One round of the loop of `semaphore_operation`: the head of the queue becomes ready. -/
def wake (p : Pcb) : KM Unit := do
  let tmp ← Program.need .null (← onLinks (outBlocked p))
  Program.modify fun k => { k with pCursem := Function.update k.pCursem tmp none }
  addSoftBlockCount (-1)
  Program.modify fun k => { k with resWait := Function.update k.resWait tmp 0 }
  insertReady tmp

def wakeLoop : ℕ → ℕ → ℤ → KM Unit
  | 0, _, _ => Program.fail .loop
  | n + 1, semaddr, sum => do
    match ← onLinks (headBlocked semaddr) with
    | none => pure ()
    | some tmp =>
      let r ← Program.gets fun k => k.resWait tmp
      if r ≥ Platform.wrap (-sum) ∧ sum ≠ 0 then
        wake tmp
        wakeLoop n semaddr (Platform.wrap (sum + r))

def passeren (semaddr : ℕ) (weight : ℤ) : KM Unit := do
  setInt semaddr (Platform.wrap ((← Program.gets fun k => k.ints semaddr) + weight))
  if (← Program.gets fun k => k.ints semaddr) < 0 then
    let p ← current
    Program.modify fun k => { k with resWait := Function.update k.resWait p weight }
    let now ← getTODLO
    addKernelTime p (now - (← Program.gets fun k => k.kernelStart))
    let now ← getTODLO
    addGlobalTime p (now - (← Program.gets fun k => k.startTOD))
    if ← onLinks (insertBlocked semaddr p) then
      PANIC
    addSoftBlockCount 1
    setFlag .loadnext
    setCurrent none

def verhogen (semaddr : ℕ) (weight : ℤ) : KM Unit := do
  setInt semaddr (Platform.wrap ((← Program.gets fun k => k.ints semaddr) + weight))
  let sum ← match ← onLinks (headBlocked semaddr) with
    | none => pure 0
    | some scan => sumRequests scan
  let v ← Program.gets fun k => k.ints semaddr
  wakeLoop (maxproc + 1) semaddr (Platform.wrap (sum + v))

def semaphoreOperation (semaddr : ℕ) (weight : ℤ) : KM Unit := do
  if semaddr = 0 then
    PANIC
  if weight = 0 then
    let p ← current
    terminateProcess (← Program.gets fun k => k.pid p)
  else if weight < 0 then
    passeren semaddr weight
  else
    verhogen semaddr weight

/-! ### Exception handlers of processes -/

def terminateCurrent : KM Unit := do
  let p ← current
  terminateProcess (← Program.gets fun k => k.pid p)
  callScheduler

/-- What `specify_sysbp`, `specify_tlb` and `specify_pgmtrap` do for their kind of exception. -/
def specify (e : Excp) (pc sp flags : Word) : KM Unit := do
  let p ← current
  if ← Program.gets fun k => k.tags p e then
    terminateCurrent
  Program.modify fun k =>
    { k with tags := Function.update k.tags p (Function.update (k.tags p) e true) }
  let processor ← Program.gets fun k => k.hw.processor
  setArea p (.old e) fun _ => processor
  let state ← Program.gets fun k => k.pS p
  setArea p (.new e) fun s => copyState s state
  setArea p (.new e) fun s => { s with pc := pc, sp := sp }
  let flags := flags &&& 0x80000007
  setArea p (.new e) fun s => { s with cpsr := s.cpsr &&& 0x7FFFFFF8 ||| flags }
  let asid ← Program.gets fun k => k.hw.entryHi
  setArea p (.new e) fun s => { s with cp15EntryHi := Platform.setEntryHi asid }

def specifySysbp (pc sp flags : Word) : KM Unit := specify .sys pc sp flags

def specifyTlb (pc sp flags : Word) : KM Unit := specify .tlb pc sp flags

def specifyPgmtrap (pc sp flags : Word) : KM Unit := specify .pgmtp pc sp flags

def exitVia (e : Excp) (retval : Word) : KM Unit := do
  let p ← current
  setArea p (.old e) fun s => { s with a1 := retval }
  LDST (← Program.gets fun k => k.oldnewAreas p (.old e))

def exitTrap (excptype retval : Word) : KM Unit :=
  if excptype = 0 then exitVia .sys retval
  else if excptype = 1 then exitVia .tlb retval
  else if excptype = 2 then exitVia .pgmtp retval
  else pure ()

/-! ### Times, the pseudo-clock and devices -/

def getCputime (global user : Word) : KM Unit := do
  let p ← current
  Program.modify fun k =>
    { k with hw := { k.hw with words := Function.update k.hw.words global (k.globalTime p) } }
  Program.modify fun k =>
    { k with
      hw := { k.hw with
        words := Function.update k.hw.words user (k.globalTime p - k.kernelTime p) } }

def waitClock : KM Unit := semaphoreOperation (semAddr (maxDevices - 1)) (-1)

/-- `term_read` of `io_devop`: a terminal is read when the top bit of `dnum` is set. -/
def termRead (intlNo dnum : Word) : Word :=
  if intlNo = intTerminal ∧ dnum >>> 31 ≠ 0 then devPerInt else 0

def ioEnable : KM Unit := do
  setSTATUS (Platform.statusAllIntEnable (← getSTATUS))

def ioWait (intlNo dnum : Word) : KM Unit := do
  semaphoreOperation (← deviceSemAt intlNo (termRead intlNo dnum) dnum) (-1)

def ioCommand (command intlNo dnum : Word) : KM Word := do
  let devreg ← devRegAddr intlNo dnum
  if intlNo = intTerminal then
    if termRead intlNo dnum ≠ 0 then
      setDevreg devreg fun r => { r with recvCommand := command }
      Program.gets fun k => (k.hw.devreg devreg).recvStatus
    else
      setDevreg devreg fun r => { r with transmCommand := command }
      Program.gets fun k => (k.hw.devreg devreg).transmStatus
  else
    setDevreg devreg fun r => { r with recvCommand := command }
    Program.gets fun k => (k.hw.devreg devreg).recvStatus

def ioDevop (command intlNo dnum : Word) : KM Word := do
  ioEnable
  ioWait intlNo dnum
  ioCommand command intlNo dnum

def getpid : KM Word := do
  let p ← current
  Program.gets fun k => k.pid p

end JaeOS
