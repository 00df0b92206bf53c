import JaeOS.Types

/-!
# Allocation, process queues and the process tree (`pcb.c`)

A `struct clist *q` argument is the pointer the header holds on entry; the functions that change
the header return its new value.
-/

open LinkRing

namespace JaeOS

variable {n : ℕ} {χ : Type}

/-! ### Allocation and deallocation -/

def freePcb (p : Fin n) (m : Links n) : Links n :=
  let c := clistEnqueue p ⟨m.pList, m.pcbFree⟩
  { m with pList := c.link, pcbFree := c.tail }

/-- The PCB as `allocPcb` hands it out. `tmpAddr` is the address of its local variable `tmp`, which
it stores as the provisional `pid`. -/
def resetPcb (tmpAddr : Word) (p : Fin n) (m : Mem n) : Mem n :=
  { m with
    pParent := Function.update m.pParent p none
    pCursem := Function.update m.pCursem p none
    pList := Function.update m.pList p none
    pChildren := Function.update m.pChildren p none
    pSiblings := Function.update m.pSiblings p none
    pS := Function.update m.pS p .zero
    pid := Function.update m.pid p tmpAddr
    resWait := Function.update m.resWait p 0
    kernelTime := Function.update m.kernelTime p 0
    globalTime := Function.update m.globalTime p 0
    tags := Function.update m.tags p fun _ => false }

@[simp] theorem resetPcb_pParent (tmpAddr : Word) (p : Fin n) (m : Mem n) :
    (resetPcb tmpAddr p m).pParent p = none := by
  simp only [resetPcb, Function.update_self]

@[simp] theorem resetPcb_pChildren (tmpAddr : Word) (p : Fin n) (m : Mem n) :
    (resetPcb tmpAddr p m).pChildren p = none := by
  simp only [resetPcb, Function.update_self]

def allocPcb (tmpAddr : Word) : Program (Mem n) χ Fault (Option (Fin n)) := do
  let c ← Program.gets fun m => (⟨m.pList, m.pcbFree⟩ : Clist (Fin n))
  if c.tail = none then
    pure none
  else
    let tmp ← clistHead c
    let c ← clistDequeue c
    Program.modify fun m => { m with pList := c.link, pcbFree := c.tail }
    Program.modify (resetPcb tmpAddr tmp)
    pure (some tmp)

def initPcbs (m : Links maxproc) : Links maxproc :=
  { m with pcbFree := some (Fin.last 19), pList := tableLink }

/-! ### Process queues -/

def insertProcQ (q : Option (Fin n)) (p : Fin n) (m : Links n) : Option (Fin n) × Links n :=
  let c := clistEnqueue p ⟨m.pList, q⟩
  (c.tail, { m with pList := c.link })

def removeProcQ (q : Option (Fin n)) :
    Program (Links n) χ Fault (Option (Fin n) × Option (Fin n)) := do
  let c ← Program.gets fun m => (⟨m.pList, q⟩ : Clist (Fin n))
  if clistEmpty c then
    pure (none, q)
  else
    let tmp ← clistHead c
    let c ← clistDequeue c
    Program.modify fun m => { m with pList := c.link }
    pure (some tmp, c.tail)

/-- One round of the loop of `outProcQ`; `ret` and `q` are the value to return and the header. -/
def outProcQBody (p : Fin n) : Option (Fin n) × Option (Fin n) → Fin n → Option (Fin n) →
    Program (Links n) χ Fault (ForInStep (Option (Fin n) × Option (Fin n)))
  | (ret, q), scan, tmp =>
    if scan = p then do
      let c ← Program.gets fun m => (⟨m.pList, q⟩ : Clist (Fin n))
      let c ← clistForeachDelete scan tmp c
      Program.modify fun m => { m with pList := c.link }
      pure (.done (some p, c.tail))
    else pure (.yield (ret, q))

def outProcQ (q : Option (Fin n)) (p : Fin n) :
    Program (Links n) χ Fault (Option (Fin n) × Option (Fin n)) := do
  let (vars, _, _) ← clistForeach n Links.pList (fun _ => pure q) (outProcQBody p)
    (none, q) none none
  pure vars

def headProcQ (q : Option (Fin n)) : Program (Links n) χ Fault (Option (Fin n)) := do
  let c ← Program.gets fun m => (⟨m.pList, q⟩ : Clist (Fin n))
  if clistEmpty c then
    pure none
  else
    let tmp ← clistHead c
    pure (some tmp)

/-! ### The process tree -/

def emptyChild (p : Fin n) (m : Links n) : Bool := clistEmpty ⟨m.pSiblings, m.pChildren p⟩

def insertChild (parent p : Fin n) (m : Links n) : Links n :=
  let c := clistEnqueue p ⟨m.pSiblings, m.pChildren parent⟩
  { m with
    pSiblings := c.link
    pChildren := Function.update m.pChildren parent c.tail
    pParent := Function.update m.pParent p (some parent) }

def removeChild (p : Fin n) : Program (Links n) χ Fault (Option (Fin n)) := do
  if ← Program.gets (emptyChild p) then
    pure none
  else
    let c ← Program.gets fun m => (⟨m.pSiblings, m.pChildren p⟩ : Clist (Fin n))
    let child ← clistHead c
    Program.modify fun m => { m with pParent := Function.update m.pParent child none }
    let c ← clistDequeue c
    Program.modify fun m =>
      { m with pSiblings := c.link, pChildren := Function.update m.pChildren p c.tail }
    pure (some child)

def outChild (p : Fin n) : Program (Links n) χ Fault (Option (Fin n)) := do
  match ← Program.gets fun m => m.pParent p with
  | none => pure none
  | some dad =>
    Program.modify fun m => { m with pParent := Function.update m.pParent p none }
    let c ← Program.gets fun m => (⟨m.pSiblings, m.pChildren dad⟩ : Clist (Fin n))
    let (_, c) ← clistDelete n p c
    Program.modify fun m =>
      { m with pSiblings := c.link, pChildren := Function.update m.pChildren dad c.tail }
    pure (some p)

end JaeOS
