import JaeOS.Syscall

/-!
# Exception handlers, interrupt handlers and `main`

The handlers of `exceptions.c` and `interrupts.c`, entered with the old areas, the cause register
and the device registers as the machine left them, and the boot code of `initial.c`.
-/

namespace JaeOS

variable [Platform]

/-! ### Exceptions -/

def disableInterrupts : KM Unit := do
  setSTATUS (Platform.statusAllIntDisable (← getSTATUS))

def chargeKernel (p : Pcb) : KM Unit := do
  let kernelEnd ← getTODLO
  addKernelTime p (kernelEnd - (← Program.gets fun k => k.kernelStart))

def passUp (p : Pcb) (e : Excp) : KM Unit := do
  chargeKernel p
  setArea p (.new e) fun s => { s with cpsr := Platform.statusAllIntEnable s.cpsr }
  LDST (← Program.gets fun k => k.oldnewAreas p (.new e))

def startKernel : KM Unit := do
  let now ← getTODLO
  Program.modify fun k => { k with kernelStart := now }

/-- `pgmtrap_handler` and `tlb_handler` for their kind of exception. -/
def trapHandler (e : Excp) (v : Vec) : KM Unit := do
  disableInterrupts
  startKernel
  let p ← current
  if (← Program.gets fun k => k.tags p e) = false then
    terminateCurrent
  let state ← Program.gets fun k => k.hw.oldArea v
  setArea p (.old e) fun s => copyState s state
  setArea p (.new e) fun s => { s with a1 := state.cp15Cause }
  passUp p e

def pgmtrapHandler : KM Unit := trapHandler .pgmtp .pgmtrap

def tlbHandler : KM Unit := trapHandler .tlb .tlb

/-- `current_process->p_s.a1 = f()`, with the operands evaluated in the compiler's order. -/
def assignA1 (x : KM Word) : KM Unit := do
  if Platform.leftFirst then
    let p ← current
    let v ← x
    setPs p fun s => { s with a1 := v }
  else
    let v ← x
    let p ← current
    setPs p fun s => { s with a1 := v }

/-- The `switch` of `syscall_handler`. -/
def service (sys a2 a3 a4 : Word) : KM Unit :=
  if sys = 1 then assignA1 (createProcess a2)
  else if sys = 2 then terminateProcess a2
  else if sys = 3 then semaphoreOperation a2.toNat a3.toInt
  else if sys = 4 then specifySysbp a2 a3 a4
  else if sys = 5 then specifyTlb a2 a3 a4
  else if sys = 6 then specifyPgmtrap a2 a3 a4
  else if sys = 7 then exitTrap a2 a3
  else if sys = 8 then getCputime a2 a3
  else if sys = 9 then waitClock
  else if sys = 10 then assignA1 (ioDevop a2 a3 a4)
  else if sys = 11 then assignA1 getpid
  else PANIC

/-- What follows the `switch`. -/
def serviceEnd : KM Unit := do
  match ← Program.gets fun k => k.currentProcess with
  | some p => chargeKernel p
  | none => pure ()
  callScheduler

/-- `syscall_handler` up to the tests on the system call number. -/
def syscallEnter : KM Pcb := do
  disableInterrupts
  setFlag .loadcurrent
  let p ← current
  let state ← Program.gets fun k => k.hw.oldArea .sysbk
  setPs p fun s => copyState s state
  startKernel
  pure p

def isService (s : State) : Bool :=
  Platform.causeExccodeGet s.cp15Cause = Platform.excSyscall && 1 ≤ s.a1 && s.a1 ≤ 11

def isUserMode (s : State) : Bool := s.cpsr &&& Platform.statusSysMode = Platform.statusUserMode

def reflectSyscall (p : Pcb) : KM Unit := do
  let state ← Program.gets fun k => k.pS p
  setOldArea .pgmtrap fun s => copyState s state
  setOldArea .pgmtrap fun s =>
    { s with cp15Cause := Platform.causeExccodeSet s.cp15Cause Platform.excReservedinstr }
  chargeKernel p
  pgmtrapHandler

def passUpSyscall (p : Pcb) (state : State) : KM Unit := do
  if (← Program.gets fun k => k.tags p .sys) = false then
    terminateCurrent
  setArea p (.old .sys) fun s => copyState s state
  setArea p (.new .sys) fun s =>
    { s with a1 := state.a1, a2 := state.a2, a3 := state.a3, a4 := state.a4 }
  let tmp := (state.cpsr &&& 0x0000000F) <<< 28
  setArea p (.new .sys) fun s => { s with a1 := s.a1 &&& 0x0FFFFFFF ||| tmp }
  passUp p .sys

def syscallHandler : KM Unit := do
  let p ← syscallEnter
  let state ← Program.gets fun k => k.hw.oldArea .sysbk
  if isService state then
    if isUserMode (← Program.gets fun k => k.pS p) then
      reflectSyscall p
    else
      service state.a1 state.a2 state.a3 state.a4
      serviceEnd
  else
    passUpSyscall p state

/-! ### Interrupts -/

def findDnumLoop (devBitmap : Word) : ℕ → Word → Word → Word
  | 0, _, i => i
  | n + 1, mask, i =>
    if mask &&& devBitmap ≠ mask then findDnumLoop devBitmap n (mask <<< 1) (i + 1) else i

/-- The lowest device with a pending interrupt, 8 if there is none. -/
def findDnum (devBitmap : Word) : Word := findDnumLoop devBitmap 8 1 0

/-- The three handlers of a completed operation: a waiter, which there must be when the semaphore is
below 1, is given the status and woken. -/
def signalDevice (semaddr : ℕ) (status : Word) : KM Unit := do
  let semVal ← Program.gets fun k => k.ints semaddr
  if semVal < 1 then
    let tmp ← Program.need .null (← onLinks (headBlocked semaddr))
    setPs tmp fun s => { s with a1 := status }
    semaphoreOperation semaddr 1

def devHandler (intType : Word) : KM Unit := do
  let dnum := findDnum (← Program.gets fun k => k.hw.bitmap intType)
  let devreg ← devRegAddr intType dnum
  signalDevice (← deviceSemAt intType 0 dnum)
    (← Program.gets fun k => (k.hw.devreg devreg).recvStatus)
  setDevreg devreg fun r => { r with recvCommand := Platform.devCAck }

def tickLoop : ℕ → KM Unit
  | 0 => Program.fail .loop
  | n + 1 => do
    if (← Program.gets fun k => k.ints (semAddr clockSem)) < 0 then
      semaphoreOperation (semAddr clockSem) 1
      tickLoop n

def timerHandler : KM Unit := do
  if ← Program.gets fun k => k.pseudoclockflag then
    let v ← Program.gets fun k => k.ints (semAddr clockSem)
    tickLoop ((-v).toNat + 1)
    setFlag .reset
  setTIMER schedBogusSlice

/-- The first branch of `terminal_handler`. -/
def terminalReceive (devreg : ℕ) (dnum : Word) : KM Unit := do
  let recvStatus ← Program.gets fun k => (k.hw.devreg devreg).recvStatus
  if recvStatus &&& 0x000000FF = Platform.devTrcvSCharrecv then
    signalDevice (← deviceSemAt intTerminal devPerInt dnum) recvStatus
    setDevreg devreg fun r => { r with recvCommand := Platform.devCAck }

/-- The second branch. -/
def terminalTransmit (devreg : ℕ) (dnum : Word) : KM Unit := do
  let transmStatus ← Program.gets fun k => (k.hw.devreg devreg).transmStatus
  if transmStatus &&& 0x000000FF = Platform.devTtrsSChartrsm then
    signalDevice (← deviceSemAt intTerminal 0 dnum) transmStatus
    setDevreg devreg fun r => { r with transmCommand := Platform.devCAck }

def terminalHandler : KM Unit := do
  let dnum := findDnum (← Program.gets fun k => k.hw.bitmap intTerminal)
  let devreg ← devRegAddr intTerminal dnum
  terminalReceive devreg dnum
  terminalTransmit devreg dnum

def serveLine (cause : Word) : KM Unit :=
  if Platform.causeIpGet cause intTimer then timerHandler
  else if Platform.causeIpGet cause intDisk then devHandler intDisk
  else if Platform.causeIpGet cause intTape then devHandler intTape
  else if Platform.causeIpGet cause intUnused then devHandler intUnused
  else if Platform.causeIpGet cause intPrinter then devHandler intPrinter
  else if Platform.causeIpGet cause intTerminal then terminalHandler
  else pure ()

def saveInterrupted : KM Unit := do
  match ← Program.gets fun k => k.currentProcess with
  | none => pure ()
  | some p =>
    let state ← Program.gets fun k => k.hw.oldArea .int
    setPs p fun s => copyState s state
    setPs p fun s => { s with pc := s.pc - 4 }

/-- `interrupt_handler` up to the tests on the cause. -/
def interruptEnter : KM Word := do
  disableInterrupts
  startKernel
  let cause ← Program.gets fun k => k.hw.cause
  setFlag .loadnext
  saveInterrupted
  pure cause

/-- `interrupt_handler` before it turns interrupts on again. -/
def interruptBody : KM Unit := do
  serveLine (← interruptEnter)
  match ← Program.gets fun k => k.currentProcess with
  | some p => chargeKernel p
  | none => pure ()

def interruptHandler : KM Unit := do
  interruptBody
  setSTATUS (Platform.statusAllIntEnable (← getSTATUS))
  callScheduler

/-! ### Boot -/

/-- The new area of a vector as `main` fills it in. -/
def bootArea (v : Vec) (s : State) : State :=
  { s with
    pc := Platform.handler v
    sp := Platform.ramTop
    cpsr := Platform.statusAllIntDisable (Platform.statusNull ||| Platform.statusSysMode) }

def firstState (s : State) : State :=
  { s with
    cp15Control := Platform.cp15DisableVm s.cp15Control
    cpsr := Platform.statusEnableTimer (Platform.statusAllIntEnable Platform.statusNull) |||
      Platform.statusSysMode
    sp := Platform.ramTop - Platform.framesize
    pc := Platform.test }

/-- What `main` does with the first PCB. -/
def startFirst (firstProc : Pcb) : KM Unit := do
  addProcessCount 1
  assignPid firstProc
  setPs firstProc firstState
  insertReady firstProc
  setFlag .start
  Program.modify fun k => { k with pseudoclockflag := false, kernelStart := 0 }
  callScheduler

def main : KM Unit := do
  Program.modify fun k =>
    { k with hw := { k.hw with newArea := fun v => bootArea v (k.hw.newArea v) } }
  Program.modify fun k => k.setLinks (initPcbs k.toLinks)
  Program.modify fun k => k.setLinks (initASL k.toLinks)
  Program.modify fun k =>
    { k with processCount := 0, softBlockCount := 0, currentProcess := none }
  Program.modify fun k =>
    { k with
      ints := (List.range maxDevices).foldl (fun m i => Function.update m (semAddr i) 0) k.ints }
  match ← onMem (allocPcb Platform.tmpAddrMain) with
  | some firstProc => startFirst firstProc
  | none => PANIC

end JaeOS
