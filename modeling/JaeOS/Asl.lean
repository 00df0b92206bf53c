import JaeOS.Pcb

/-!
# The active semaphore list (`asl.c`)

The descriptors in use form the list behind `aslh`, the others the list behind `semdFree`; the
processes blocked on a semaphore form the list behind the `s_procq` of its descriptor, threaded
through the `p_list` field that the ready queue and the free list use too.
-/

namespace JaeOS

variable {n : ℕ} {χ : Type}

def freeSemd (s : Semd) (m : Links n) : Links n :=
  let c := clistEnqueue s ⟨m.sLink, m.semdFree⟩
  { m with sLink := c.link, semdFree := c.tail }

def emptyProcQ (s : Semd) (m : Links n) : Bool := clistEmpty ⟨m.pList, m.sProcq s⟩

def findSemdBody (semAdd : ℕ) (found : Option Semd) (scan : Semd) (_tmp : Option Semd) :
    Program (Links n) χ Fault (ForInStep (Option Semd)) := do
  let a ← Program.gets fun m => m.sSemAdd scan
  if semAdd = a then pure (.done (some scan))
  else if semAdd < a then pure (.done none)
  else pure (.yield found)

/-- Search the list whose header holds `semh`. The search gives up at the first address beyond
`semAdd`. -/
def findSemd (semAdd : ℕ) (semh : Option Semd) : Program (Links n) χ Fault (Option Semd) := do
  let (found, _, _) ← clistForeach maxproc Links.sLink (fun _ => pure semh) (findSemdBody semAdd)
    none none none
  pure found

def retireSemd (s : Semd) : Program (Links n) χ Fault Unit := do
  let c ← Program.gets fun m => (⟨m.sLink, m.aslh⟩ : Clist Semd)
  let (_, c) ← clistDelete maxproc s c
  Program.modify fun m => { m with sLink := c.link, aslh := c.tail }
  Program.modify (freeSemd s)

/-- What `removeBlocked` and `outBlocked` do after a process has left the queue of `s`. -/
def retireIfEmpty (s : Semd) : Program (Links n) χ Fault Unit := do
  if ← Program.gets (emptyProcQ s) then
    retireSemd s

def linkSemdBody (s : Semd) (added : Bool) (scan : Semd) (tmp : Option Semd) :
    Program (Links n) χ Fault (ForInStep Bool) := do
  let a ← Program.gets fun m => m.sSemAdd s
  let b ← Program.gets fun m => m.sSemAdd scan
  if a < b then
    let c ← Program.gets fun m => (⟨m.sLink, m.aslh⟩ : Clist Semd)
    let c := clistForeachAdd s scan tmp c
    Program.modify fun m => { m with sLink := c.link, aslh := c.tail }
    pure (.done true)
  else pure (.yield added)

/-- Put a fresh descriptor at its place in the ASL: before the first larger address, or last. -/
def linkSemd (s : Semd) : Program (Links n) χ Fault Unit := do
  let (added, _, tmp) ← clistForeach maxproc Links.sLink (fun _ => Program.gets Links.aslh)
    (linkSemdBody s) false none none
  if added then
    pure ()
  else
    let c ← Program.gets fun m => (⟨m.sLink, m.aslh⟩ : Clist Semd)
    if clistForeachAll c tmp then
      let c := clistEnqueue s c
      Program.modify fun m => { m with sLink := c.link, aslh := c.tail }

/-- The value is TRUE when a descriptor is needed and none is left. With a `NULL` semaphore the
source falls off its end without a value. -/
def insertBlocked (semAdd : ℕ) (p : Fin n) : Program (Links n) χ Fault Bool := do
  if semAdd = 0 then
    Program.fail .null
  else
    match ← findSemd semAdd (← Program.gets Links.aslh) with
    | some scan =>
      Program.modify fun m =>
        { m with
          pCursem := Function.update m.pCursem p (some scan)
          sSemAdd := Function.update m.sSemAdd scan semAdd }
      Program.modify fun m =>
        let (q, m) := insertProcQ (m.sProcq scan) p m
        { m with sProcq := Function.update m.sProcq scan q }
      pure false
    | none =>
      let c ← Program.gets fun m => (⟨m.sLink, m.semdFree⟩ : Clist Semd)
      if clistEmpty c then
        pure true
      else
        let s ← clistHead c
        let c ← clistDequeue c
        Program.modify fun m => { m with sLink := c.link, semdFree := c.tail }
        Program.modify fun m =>
          { m with
            sSemAdd := Function.update m.sSemAdd s semAdd
            pCursem := Function.update m.pCursem p (some s)
            sProcq := Function.update m.sProcq s none }
        Program.modify fun m =>
          let (q, m) := insertProcQ (m.sProcq s) p m
          { m with sProcq := Function.update m.sProcq s q }
        linkSemd s
        pure false

def removeBlocked (semAdd : ℕ) : Program (Links n) χ Fault (Option (Fin n)) := do
  if semAdd = 0 then
    pure none
  else
    match ← findSemd semAdd (← Program.gets Links.aslh) with
    | none => pure none
    | some scan =>
      let q ← Program.gets fun m => m.sProcq scan
      let p ← Program.need .null (← headProcQ q)
      Program.modify fun m => { m with pCursem := Function.update m.pCursem p none }
      let c ← clistDequeue (← Program.gets fun m => (⟨m.pList, m.sProcq scan⟩ : Clist (Fin n)))
      Program.modify fun m =>
        { m with pList := c.link, sProcq := Function.update m.sProcq scan c.tail }
      retireIfEmpty scan
      pure (some p)

def outBlockedBody (s : Semd) (p : Fin n) (ret : Option (Fin n)) (scan : Fin n)
    (tmp : Option (Fin n)) : Program (Links n) χ Fault (ForInStep (Option (Fin n))) :=
  if scan = p then do
    let c ← Program.gets fun m => (⟨m.pList, m.sProcq s⟩ : Clist (Fin n))
    let c ← clistForeachDelete scan tmp c
    Program.modify fun m => { m with pList := c.link, sProcq := Function.update m.sProcq s c.tail }
    retireIfEmpty s
    pure (.done (some p))
  else pure (.yield ret)

def outBlocked (p : Fin n) : Program (Links n) χ Fault (Option (Fin n)) := do
  let s ← Program.need .null (← Program.gets fun m => m.pCursem p)
  let (ret, _, _) ← clistForeach n Links.pList (fun _ => Program.gets fun m => m.sProcq s)
    (outBlockedBody s p) none none none
  pure ret

def headBlocked (semAdd : ℕ) : Program (Links n) χ Fault (Option (Fin n)) := do
  match ← findSemd semAdd (← Program.gets Links.aslh) with
  | some scan => headProcQ (← Program.gets fun m => m.sProcq scan)
  | none => pure none

def initASL (m : Links n) : Links n :=
  { m with aslh := none, semdFree := some (Fin.last 19), sLink := tableLink }

end JaeOS
