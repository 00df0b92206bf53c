import JaeOS.Fifo
import JaeOS.System

/-!
# A board

The constants of the machine the nucleus was written for, a machine at rest, and the entries that
runs are made of. Runs on it can be computed.
-/

open Transition

namespace JaeOS

theorem bmod_fits (x : ℤ) (h₁ : -2 ^ 31 ≤ x) (h₂ : x < 2 ^ 31) : Int.bmod x (2 ^ 32) = x :=
  Int.bmod_eq_of_le (by omega) (by omega)

theorem deviceSem_address : 0 < 0x7000 := by decide

@[reducible] def uarm : Platform where
  statusNull := 0
  statusSysMode := 0x1F
  statusUserMode := 0x10
  statusAllIntEnable w := w &&& 0xFFFFFF3F
  statusAllIntDisable w := w ||| 0xC0
  statusEnableTimer w := w &&& 0xFFFFFFBF
  causeExccodeGet w := w &&& 0xFFFFFF
  causeExccodeSet w code := w &&& 0xFF000000 ||| code
  causeIpGet w line := (w >>> (24 + line.toNat)) &&& 1 = 1
  excSyscall := 8
  excReservedinstr := 20
  cp15DisableVm w := w &&& 0xFFFFFFFE
  setEntryHi w := w
  devCAck := 1
  devTrcvSCharrecv := 5
  devTtrsSChartrsm := 5
  ramTop := 0x10000
  framesize := 0x1000
  test := 0x8000
  handler
    | .int => 0x9000
    | .tlb => 0x9100
    | .pgmtrap => 0x9200
    | .sysbk => 0x9300
  tmpAddr := 0xEF00
  tmpAddrMain := 0xFF00
  deviceSem := 0x7000
  deviceSem_pos := deviceSem_address
  leftFirst := true
  wrap x := Int.bmod x (2 ^ 32)
  wrap_eq := bmod_fits

@[reducible] def exactBoard : Platform := { uarm with wrap := id, wrap_eq := fun _ _ _ => rfl }

def Hw.rest : Hw where
  oldArea _ := .zero
  newArea _ := .zero
  cause := 0
  bitmap _ := 0
  devreg _ := ⟨0, 0, 0, 0⟩
  tod i := BitVec.ofNat 32 i
  reads := 0
  status := 0
  timer := 0
  processor := .zero
  entryHi := 0
  stateAt _ := .zero
  words _ := 0

def Kernel.zero : Kernel where
  toMem := Mem.zero maxproc
  processCount := 0
  softBlockCount := 0
  readyqueue := none
  currentProcess := none
  ints _ := 0
  flag := .start
  pseudoclockflag := false
  kernelStart := 0
  counter := 0
  startTOD := 0
  pseudoStart := 0
  hw := Hw.rest

theorem atBoot_zero : AtBoot Kernel.zero where
  readyqueue := rfl
  sProcq _ := rfl

def call (a1 : Word) (a2 a3 a4 : Word := 0) : Event :=
  .syscall { Hw.rest with
    oldArea := fun _ => { State.zero with
      a1 := a1, a2 := a2, a3 := a3, a4 := a4, cpsr := 0x1F, cp15Cause := 8 } }

/-- An interrupt of the device `dnum` on the line `il`; the status is that of a completed
operation. -/
def completion (il dnum : Word) : Event :=
  .interrupt { Hw.rest with
    cause := 1 <<< (24 + il.toNat)
    bitmap := fun _ => 1 <<< dnum.toNat
    devreg := fun _ => ⟨0, 0, 5, 0⟩ }

section Runs

variable [Platform] {B : Kernel → Prop} {C : Sys → Event → Prop} [∀ s e, Decidable (C s e)]

/-- A computed run that ends in a state with the property `Q`. -/
theorem nucleus_run {k : Kernel} (hB : B k) (hk : AtBoot k) (es : List Event) (Q : Sys → Bool)
    (h : ((Sys.boot k).bind (follow Sys.step C es)).any Q = true) :
    ∃ s, Reach (nucleus B) C s ∧ Q s = true := by
  obtain ⟨s', hrun, hQ⟩ := (Option.any_eq_true _ _).mp h
  obtain ⟨s, hboot, hes⟩ := Option.bind_eq_some_iff.mp hrun
  exact ⟨s', Reach.follow (fun _ _ _ hs => hs) (.init ⟨k, hB, hk, hboot⟩) hes, hQ⟩

/-- A computed run with a ghost. -/
theorem ghost_run {γ : Type} (start : Sys → γ) (next : Sys → Event → Sys → γ → γ)
    {D : Sys × γ → Event → Prop} [∀ x e, Decidable (D x e)] {k : Kernel} (hB : B k) (hk : AtBoot k)
    (es : List Event) (Q : Sys × γ → Bool)
    (h : ((Sys.boot k).bind fun s => follow (stepGhost Sys.step next) D es (s, start s)).any Q =
      true) :
    ∃ x, Reach ((nucleus B).ghost start next) D x ∧ Q x = true := by
  obtain ⟨x, hrun, hQ⟩ := (Option.any_eq_true _ _).mp h
  obtain ⟨s, hboot, hes⟩ := Option.bind_eq_some_iff.mp hrun
  exact ⟨x, Reach.follow_ghost (fun _ _ _ hs => hs) ⟨k, hB, hk, hboot⟩ hes, hQ⟩

/-- A computed run that goes on to one in which `p` stays in a queue. -/
theorem stays_run {k : Kernel} (queue : Sys → List Pcb) (p : Pcb) (hB : B k)
    (hk : AtBoot k) (es es' : List Event) (Q : Sys → List (Sys × Event × Sys) → Sys → Bool)
    (h : ((Sys.boot k).bind (follow Sys.step C es)).any (fun s =>
      p ∈ queue s && (Fifo.stay Sys.step C queue p es' s []).any fun x => Q s x.1 x.2) = true) :
    ∃ s tr t, Reach (nucleus B) C s ∧ Fifo.Stays (nucleus B) C queue p s tr t ∧
    Q s tr t = true := by
  obtain ⟨s, hs, hQ⟩ := nucleus_run (B := B) (C := C) hB hk es _ h
  obtain ⟨hp, hrest⟩ := Bool.and_eq_true_iff.mp hQ
  obtain ⟨x, hx, hQx⟩ := (Option.any_eq_true _ _).mp hrest
  exact ⟨s, x.1, x.2, hs, Fifo.Stays.follow (fun _ _ _ h => h) (.start (of_decide_eq_true hp)) hx,
    hQx⟩

end Runs

end JaeOS
