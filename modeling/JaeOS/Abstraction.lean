import JaeOS.Progeny
import JaeOS.Transition

/-!
# What the nucleus does to its processes

`Core` is the part of the kernel that the lists, the tree and the counters live in; everything else
can change without disturbing them. `Rep` says that a core represents a view. `Move` is the abstract
machine: the few things that ever happen to a view.
-/

open LinkRing LinkForest Transition

namespace JaeOS

structure Core where
  links : Links maxproc
  resWait : Pcb → ℤ
  ints : ℕ → ℤ
  processCount : ℤ
  softBlockCount : ℤ
  readyqueue : Option Pcb
  currentProcess : Option Pcb
  pid : Pcb → Word
  tags : Pcb → Excp → Bool

def Kernel.core (k : Kernel) : Core where
  links := k.toLinks
  resWait := k.resWait
  ints := k.ints
  processCount := k.processCount
  softBlockCount := k.softBlockCount
  readyqueue := k.readyqueue
  currentProcess := k.currentProcess
  pid := k.pid
  tags := k.tags

/-- The tables are in order: the lists are what the view says, every process in the tree is alive,
the running process is in the tree and in no list. -/
structure WellFormed (κ : Core) (v : View) : Prop where
  lists : Lists κ.links v
  ready : ReadyRing κ.links κ.readyqueue v
  tree : Tree κ.links v.tree
  value : κ.ints = v.value
  request : κ.resWait = v.request
  alive : κ.processCount = v.alive
  soft : κ.softBlockCount = v.soft
  alive_tree : ∀ p ∈ v.tree.nodes, Alive v p
  current : ∀ c, κ.currentProcess = some c → v.place c = .off ∧ c ∈ v.tree.nodes

/-- Every PCB is free, ready, blocked or running, and the processes alive make up the tree. -/
structure Rep (κ : Core) (v : View) : Prop extends WellFormed κ v where
  mem_tree : ∀ p, p ∈ v.tree.nodes ↔ v.place p ≠ .free
  not_gone : ∀ p, v.place p ≠ .gone
  off : ∀ p, v.place p = .off ↔ κ.currentProcess = some p

namespace View

variable (v : View)

def create (c p : Pcb) (l : List Pcb) : View :=
  { (v.take p l).toReady p with alive := v.alive + 1, tree := v.tree.addChild c p }

def terminate [Platform] (p : Pcb) (ks : Forest Pcb) : View :=
  { v.killAll (ks.postorder ++ [p]) with tree := v.tree.remove p }

def load (p : Pcb) (l : List Pcb) : View :=
  { v with ready := l, place := Function.update v.place p .off }

end View

inductive Act where
  | create
  | terminate (p : Pcb)
  | passeren (a : ℕ) (w : ℤ)
  | verhogen (a : ℕ) (w : ℤ)
  | signal (a : ℕ)
  | requeue
  | load
  deriving Repr, DecidableEq

variable [Platform]

inductive Move : Act → View → View → Prop where
  | full {v : View} (hf : v.free = []) : Move .create v v
  | create {v : View} {c p : Pcb} {l : List Pcb} (hc : v.place c = .off) (hf : v.free = p :: l) :
      Move .create v (v.create c p l)
  | terminate {v : View} {p : Pcb} {ks : Forest Pcb} (hp : Forest.Has p ks v.tree)
      (hready : ∀ x ∈ ks.nodes, v.place x ≠ .ready) : Move (.terminate p) v (v.terminate p ks)
  | pass {v : View} {a : ℕ} {w : ℤ} (hw : w < 0) (hi : 0 ≤ v.credit a w) :
      Move (.passeren a w) v (v.setValue a (v.credit a w))
  | block {v : View} {a : ℕ} {w : ℤ} {c : Pcb} (hw : w < 0) (hi : v.credit a w < 0) (ha : a ≠ 0)
      (hc : v.place c = .off) : Move (.passeren a w) v ((v.setValue a (v.credit a w)).block c a w)
  | verhogen {v : View} {a : ℕ} {w : ℤ} (hw : 0 < w) : Move (.verhogen a w) v (v.verhogen a w)
  | noSignal {v : View} {a : ℕ} (hi : 1 ≤ v.value a) : Move (.signal a) v v
  | signal {v : View} {a : ℕ} (hi : v.value a < 1) (hq : v.queue a ≠ []) :
      Move (.signal a) v (v.verhogen a 1)
  | requeue {v : View} {c : Pcb} (hc : v.place c = .off) : Move .requeue v (v.toReady c)
  | load {v : View} {p : Pcb} {l : List Pcb} (hr : v.ready = p :: l) : Move .load v (v.load p l)

/-! ### Kernels as lists and a rest -/

variable {k k' s : Kernel} {κ : Core} {m : Links maxproc} {v v' : View} {t : Option Pcb}

omit [Platform] in
@[simp] theorem core_currentProcess : k.core.currentProcess = k.currentProcess := rfl

omit [Platform] in
@[simp] theorem core_pid : k.core.pid = k.pid := rfl

omit [Platform] in
@[simp] theorem core_tags : k.core.tags = k.tags := rfl

omit [Platform] in
@[simp] theorem core_links : k.core.links = k.toLinks := rfl

omit [Platform] in
@[simp] theorem core_readyqueue : k.core.readyqueue = k.readyqueue := rfl

omit [Platform] in
/-- A kernel whose tables are in order is made of these tables. -/
theorem WellFormed.withLists (h : WellFormed k.core v) : k.withLists k.toLinks v = k :=
  withLists_self h.value h.request h.alive h.soft

omit [Platform] in
theorem Rep.withLists (h : Rep k.core v) : k.withLists k.toLinks v = k :=
  h.toWellFormed.withLists

omit [Platform] in
theorem Rep.congr (h : Rep κ v) (hs : s.core = κ) : Rep s.core v := hs ▸ h

omit [Platform] in
theorem Rep.of_lists (hl : Lists m v) (hr : ReadyRing m t v) (ht : Tree m v.tree)
    (hmem : ∀ p, p ∈ v.tree.nodes ↔ v.place p ≠ .free) (hgone : ∀ p, v.place p ≠ .gone)
    (hoff : ∀ p, v.place p = .off ↔ k.currentProcess = some p) :
    Rep ((k.setReady t).withLists m v).core v where
  lists := hl
  ready := hr
  tree := ht
  value := rfl
  request := rfl
  alive := rfl
  soft := rfl
  alive_tree := fun p hp => ⟨(hmem p).mp hp, hgone p⟩
  current := fun c hc => by
    have hplace := (hoff c).mpr hc
    exact ⟨hplace, (hmem c).mpr (by simp [hplace])⟩
  mem_tree := hmem
  not_gone := hgone
  off := hoff

omit [Platform] in
theorem Rep.current_off {c : Pcb} (h : Rep κ v) (hc : κ.currentProcess = some c) :
    v.place c = .off := (h.off c).mpr hc

omit [Platform] in
theorem Rep.no_current (h : Rep κ v) (hc : κ.currentProcess = none) (p : Pcb) :
    v.place p ≠ .off := fun hp => by
  have hsome := (h.off p).mp hp
  rw [hc] at hsome
  cases hsome

end JaeOS
