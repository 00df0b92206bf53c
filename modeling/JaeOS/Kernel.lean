import JaeOS.Asl

/-!
# The state of the nucleus

`Kernel` holds the variables of `initial.c` and `scheduler.c` on top of the tables of phase 1,
together with the machine as the nucleus sees it. `Platform` collects what the sources take from
the uARM headers and from the compiler. A handler gives up control for good by loading a state, by
`WAIT`, `HALT` and `PANIC`, or by calling `scheduler()`, which never returns.

`int` objects are found by their address. Their arithmetic goes through `wrap`, which is the
identity on 32-bit values.
-/

namespace JaeOS

abbrev Pcb := Fin maxproc

inductive Vec where
  | int
  | tlb
  | pgmtrap
  | sysbk
  deriving Repr, DecidableEq

class Platform where
  statusNull : Word
  statusSysMode : Word
  statusUserMode : Word
  statusAllIntEnable : Word → Word
  statusAllIntDisable : Word → Word
  statusEnableTimer : Word → Word
  causeExccodeGet : Word → Word
  causeExccodeSet : Word → Word → Word
  causeIpGet : Word → Word → Bool
  excSyscall : Word
  excReservedinstr : Word
  cp15DisableVm : Word → Word
  /-- The value `setEntryHi` returns. -/
  setEntryHi : Word → Word
  devCAck : Word
  devTrcvSCharrecv : Word
  devTtrsSChartrsm : Word
  ramTop : Word
  framesize : Word
  test : Word
  /-- The entry points of the handlers. -/
  handler : Vec → Word
  /-- The address of `allocPcb`'s local variable, called from `create_process` and from `main`. -/
  tmpAddr : Word
  tmpAddrMain : Word
  /-- The address of `device_sem`. -/
  deviceSem : ℕ
  deviceSem_pos : 0 < deviceSem
  /-- Whether `current_process->p_s.a1 = f()` reads `current_process` before the call. -/
  leftFirst : Bool
  wrap : ℤ → ℤ
  wrap_eq : ∀ x, -2 ^ 31 ≤ x → x < 2 ^ 31 → wrap x = x

/-- The device register block: `dtp` and `term` are views of the same four words. -/
structure DevReg where
  recvStatus : Word
  recvCommand : Word
  transmStatus : Word
  transmCommand : Word
  deriving Repr, DecidableEq

/-- What the machine supplies: `tod i` is the `i`-th reading of the clock, `stateAt` the processor
state stored at an address, `processor` the state `STST` stores. -/
structure Hw where
  oldArea : Vec → State
  newArea : Vec → State
  cause : Word
  bitmap : Word → Word
  devreg : ℕ → DevReg
  tod : ℕ → Word
  reads : ℕ
  status : Word
  timer : Word
  processor : State
  entryHi : Word
  stateAt : Word → State
  words : Word → Word

inductive Flag where
  | start
  | reset
  | loadnext
  | loadcurrent
  deriving Repr, DecidableEq

structure Kernel extends Mem maxproc where
  processCount : ℤ
  softBlockCount : ℤ
  readyqueue : Option Pcb
  currentProcess : Option Pcb
  ints : ℕ → ℤ
  flag : Flag
  pseudoclockflag : Bool
  kernelStart : Word
  counter : Word
  startTOD : Word
  pseudoStart : Word
  hw : Hw

inductive Ctl where
  | ldst (s : State)
  | wait
  | halt
  | panic
  | scheduler
  deriving Repr, DecidableEq

abbrev KM := Program Kernel Ctl Fault

variable {α : Type}

def Kernel.setLinks (k : Kernel) (m : Links maxproc) : Kernel := { k with toLinks := m }

def Kernel.setMem (k : Kernel) (m : Mem maxproc) : Kernel := { k with toMem := m }

def onLinks (x : Program (Links maxproc) Ctl Fault α) : KM α :=
  Program.zoom (fun k => k.toLinks) (fun m k => k.setLinks m) x

def onMem (x : Program (Mem maxproc) Ctl Fault α) : KM α :=
  Program.zoom (fun k => k.toMem) (fun m k => k.setMem m) x

theorem onLinks_ok {x : Program (Links maxproc) Ctl Fault α} {k : Kernel} {r : α}
    {m : Links maxproc} (h : x.run k.toLinks = .ok r m) :
    (onLinks x).run k = .ok r (k.setLinks m) :=
  Program.run_zoom_ok h

theorem onMem_run {x : Program (Mem maxproc) Ctl Fault α} {k : Kernel} {r : α} {m : Mem maxproc}
    (h : x.run k.toMem = .ok r m) : (onMem x).run k = .ok r (k.setMem m) :=
  Program.run_zoom_ok h

/-! ### The machine -/

def LDST (s : State) : KM α := Program.leave (.ldst s)

def WAIT : KM α := Program.leave .wait

def HALT : KM α := Program.leave .halt

def PANIC : KM α := Program.leave .panic

def callScheduler : KM α := Program.leave .scheduler

def getTODLO : KM Word := do
  let t ← Program.gets fun k => k.hw.tod k.hw.reads
  Program.modify fun k => { k with hw := { k.hw with reads := k.hw.reads + 1 } }
  pure t

def getSTATUS : KM Word := Program.gets fun k => k.hw.status

def setSTATUS (w : Word) : KM Unit :=
  Program.modify fun k => { k with hw := { k.hw with status := w } }

def setTIMER (w : Word) : KM Unit :=
  Program.modify fun k => { k with hw := { k.hw with timer := w } }

/-- The process `current_process` points to, where the source dereferences it. -/
def current : KM Pcb := do
  Program.need .null (← Program.gets fun k => k.currentProcess)

/-! ### Fields -/

def setPs (p : Pcb) (f : State → State) : KM Unit :=
  Program.modify fun k => { k with pS := Function.update k.pS p (f (k.pS p)) }

def setArea (p : Pcb) (a : Area) (f : State → State) : KM Unit :=
  Program.modify fun k =>
    { k with
      oldnewAreas := Function.update k.oldnewAreas p
        (Function.update (k.oldnewAreas p) a (f (k.oldnewAreas p a))) }

def setOldArea (v : Vec) (f : State → State) : KM Unit :=
  Program.modify fun k =>
    { k with hw := { k.hw with oldArea := Function.update k.hw.oldArea v (f (k.hw.oldArea v)) } }

def setDevreg (slot : ℕ) (f : DevReg → DevReg) : KM Unit :=
  Program.modify fun k =>
    { k with hw := { k.hw with devreg := Function.update k.hw.devreg slot (f (k.hw.devreg slot)) } }

def addKernelTime (p : Pcb) (t : Word) : KM Unit :=
  Program.modify fun k =>
    { k with kernelTime := Function.update k.kernelTime p (k.kernelTime p + t) }

def addGlobalTime (p : Pcb) (t : Word) : KM Unit :=
  Program.modify fun k =>
    { k with globalTime := Function.update k.globalTime p (k.globalTime p + t) }

def setInt (a : ℕ) (v : ℤ) : KM Unit :=
  Program.modify fun k => { k with ints := Function.update k.ints a v }

def setFlag (f : Flag) : KM Unit := Program.modify fun k => { k with flag := f }

def setCurrent (p : Option Pcb) : KM Unit := Program.modify fun k => { k with currentProcess := p }

def addProcessCount (d : ℤ) : KM Unit :=
  Program.modify fun k => { k with processCount := k.processCount + d }

def addSoftBlockCount (d : ℤ) : KM Unit :=
  Program.modify fun k => { k with softBlockCount := k.softBlockCount + d }

def insertReady (p : Pcb) : KM Unit :=
  Program.modify fun k =>
    let (q, m) := insertProcQ k.readyqueue p k.toLinks
    { k.setLinks m with readyqueue := q }

def copyState (dest src : State) : State :=
  { dest with
    a1 := src.a1, a2 := src.a2, a3 := src.a3, a4 := src.a4
    v1 := src.v1, v2 := src.v2, v3 := src.v3, v4 := src.v4, v5 := src.v5, v6 := src.v6
    sl := src.sl, fp := src.fp, ip := src.ip, sp := src.sp, lr := src.lr, pc := src.pc
    cpsr := src.cpsr, cp15Control := src.cp15Control, cp15EntryHi := src.cp15EntryHi
    cp15Cause := src.cp15Cause, todHi := src.todHi, todLow := src.todLow }

@[simp] theorem copyState_eq (dest src : State) : copyState dest src = src := rfl

/-! ### Devices -/

abbrev maxDevices : ℕ := 49

abbrev devPerInt : Word := 8

abbrev clockSem : ℕ := 48

abbrev intTimer : Word := 2

abbrev intDisk : Word := 3

abbrev intTape : Word := 4

abbrev intUnused : Word := 5

abbrev intPrinter : Word := 6

abbrev intTerminal : Word := 7

def extIlIndex (il : Word) : Word := il - 3

variable [Platform]

def semAddr (i : ℕ) : ℕ := Platform.deviceSem + 4 * i

/-- The test for a semaphore of `device_sem` in `lookfor_progeny` and `terminate_children`. -/
def isDeviceSem (a : ℕ) : Bool := semAddr 0 ≤ a && a ≤ semAddr (maxDevices - 1)

/-- The element `EXT_IL_INDEX(il) * DEV_PER_INT + term + dnum` of `device_sem`; the address
arithmetic is modulo 2³², so the two upper bits of the index are lost. -/
def semIndex (il term dnum : Word) : ℕ :=
  (extIlIndex il * devPerInt + term + dnum).toNat % 2 ^ 30

/-- The register block at `DEV_REG_ADDR(il, dnum)`, sixteen bytes each. -/
def regIndex (il dnum : Word) : ℕ := (extIlIndex il * devPerInt + dnum).toNat % 2 ^ 28

def deviceSemAt (il term dnum : Word) : KM ℕ :=
  let i := semIndex il term dnum
  if i < maxDevices then pure (semAddr i) else Program.fail .bounds

def devRegAddr (il dnum : Word) : KM ℕ :=
  let i := regIndex il dnum
  if i < 40 then pure i else Program.fail .bounds

end JaeOS
