import JaeOS.Kernel

/-!
# The scheduler (`scheduler.c`)
-/

namespace JaeOS

variable [Platform]

abbrev schedTimeSlice : Word := 5000

abbrev schedPseudoClock : Word := 100000

abbrev schedBogusSlice : Word := 500000

def loadCurrent : KM Unit := do
  let p ← current
  setPs p fun s => { s with cpsr := Platform.statusAllIntEnable s.cpsr }
  LDST (← Program.gets fun k => k.pS p)

def deadlockDetection : KM Unit := do
  let processCount ← Program.gets fun k => k.processCount
  let softBlockCount ← Program.gets fun k => k.softBlockCount
  if processCount = 0 then
    HALT
  else if softBlockCount = 0 ∧ processCount > 0 then
    PANIC
  else if softBlockCount > 0 ∧ processCount > 0 then
    setTIMER schedTimeSlice
    setSTATUS (Platform.statusAllIntEnable (← getSTATUS))
    WAIT

/-- The first lines of `loadnext`: the interrupted process goes back to the ready queue. -/
def requeueCurrent : KM Unit := do
  match ← Program.gets fun k => k.currentProcess with
  | none => pure ()
  | some p =>
    let now ← getTODLO
    addGlobalTime p (now - (← Program.gets fun k => k.startTOD))
    insertReady p
    setCurrent none

/-- The timer for the next process; close to the end of the 100 ms it is set to the tick. -/
def armTimer : KM Unit := do
  let pseudoStart ← Program.gets fun k => k.pseudoStart
  if (← getTODLO) - pseudoStart > schedPseudoClock - schedTimeSlice then
    setTIMER (schedPseudoClock - ((← getTODLO) - pseudoStart))
    Program.modify fun k => { k with pseudoclockflag := true }
    let now ← getTODLO
    Program.modify fun k => { k with pseudoStart := now }
  else
    setTIMER schedTimeSlice

def loadnext : KM Unit := do
  requeueCurrent
  armTimer
  let (p, q) ← onLinks (removeProcQ (← Program.gets fun k => k.readyqueue))
  Program.modify fun k => { k with readyqueue := q, currentProcess := p }
  if p = none then
    deadlockDetection
  let now ← getTODLO
  Program.modify fun k => { k with startTOD := now }
  loadCurrent

def scheduler : KM Unit := do
  setSTATUS (Platform.statusAllIntDisable (← getSTATUS))
  match ← Program.gets fun k => k.flag with
  | .start =>
    setTIMER schedTimeSlice
    let now ← getTODLO
    Program.modify fun k => { k with pseudoclockflag := false, pseudoStart := now }
    loadnext
  | .reset =>
    let now ← getTODLO
    Program.modify fun k => { k with pseudoclockflag := false, pseudoStart := now }
    loadnext
  | .loadnext => loadnext
  | .loadcurrent => loadCurrent

end JaeOS
