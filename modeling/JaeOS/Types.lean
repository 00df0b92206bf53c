import JaeOS.Clist

/-!
# The tables of phase 1

The PCB table, the semaphore descriptor table and the static list heads of `pcb.c` and `asl.c`,
one map for each field of `struct pcb_t` and `struct semd_t`. A pointer to a PCB or a descriptor
is an index into its table, `none` is `NULL`; the address of an `int` object is a natural number,
0 is `NULL`. Both tables hold `maxproc` entries in the kernel;
the functions of phase 1 are written for any number `n` of PCBs.
-/

namespace JaeOS

abbrev maxproc : ℕ := 20

abbrev Word := BitVec 32

instance : NeZero maxproc := ⟨by decide⟩

instance : LawfulBEq (Fin maxproc) := inferInstance

/-- A pointer into `semdTable`. -/
abbrev Semd := Fin maxproc

/-- `state_t` of the uARM headers, the fields `copy_state` copies. -/
structure State where
  a1 : Word
  a2 : Word
  a3 : Word
  a4 : Word
  v1 : Word
  v2 : Word
  v3 : Word
  v4 : Word
  v5 : Word
  v6 : Word
  sl : Word
  fp : Word
  ip : Word
  sp : Word
  lr : Word
  pc : Word
  cpsr : Word
  cp15Control : Word
  cp15EntryHi : Word
  cp15Cause : Word
  todHi : Word
  todLow : Word
  deriving Repr, DecidableEq

def State.zero : State :=
  ⟨0, 0, 0, 0, 0, 0, 0, 0, 0, 0, 0, 0, 0, 0, 0, 0, 0, 0, 0, 0, 0, 0⟩

inductive Excp where
  | sys
  | tlb
  | pgmtp
  deriving Repr, DecidableEq

/-- `oldnew_areas`: an old and a new area for each kind. -/
inductive Area where
  | old (e : Excp)
  | new (e : Excp)
  deriving Repr, DecidableEq

/-- The pointer fields of the PCBs and of the semaphore descriptors, with the list heads. -/
structure Links (n : ℕ) where
  pParent : Fin n → Option (Fin n)
  pCursem : Fin n → Option Semd
  pList : Fin n → Option (Fin n)
  pChildren : Fin n → Option (Fin n)
  pSiblings : Fin n → Option (Fin n)
  sSemAdd : Semd → ℕ
  sLink : Semd → Option Semd
  sProcq : Semd → Option (Fin n)
  pcbFree : Option (Fin n)
  aslh : Option Semd
  semdFree : Option Semd

structure Mem (n : ℕ) extends Links n where
  pS : Fin n → State
  pid : Fin n → Word
  resWait : Fin n → ℤ
  kernelTime : Fin n → Word
  globalTime : Fin n → Word
  oldnewAreas : Fin n → Area → State
  tags : Fin n → Excp → Bool

/-- How `initPcbs` and `initASL` link a table: each entry to the next, the last to the first. -/
def tableLink (i : Fin maxproc) : Option (Fin maxproc) :=
  if i = Fin.last 19 then some 0 else some (i + 1)

theorem tableLink_ring : LinkRing.Ring tableLink (some (Fin.last 19)) (List.finRange maxproc) :=
  ⟨List.nodup_finRange maxproc, by decide, by decide⟩

def Mem.zero (n : ℕ) : Mem n where
  pParent _ := none
  pCursem _ := none
  pList _ := none
  pChildren _ := none
  pSiblings _ := none
  sSemAdd _ := 0
  sLink _ := none
  sProcq _ := none
  pcbFree := none
  aslh := none
  semdFree := none
  pS _ := .zero
  pid _ := 0
  resWait _ := 0
  kernelTime _ := 0
  globalTime _ := 0
  oldnewAreas _ _ := .zero
  tags _ _ := false

end JaeOS
