import JaeOS.AslRep

/-!
# The active semaphore list refines a map of queues

The reference keeps a FIFO list of processes for every semaphore address. Any sequence of calls
gives the results of the reference and leaves its queues behind the pointers, however often the
descriptors are recycled and whatever stale `p_cursem` pointers are passed to `outBlocked`.
-/

open LinkRing

namespace JaeOS

variable {n : ℕ}

inductive AslOp (n : ℕ) where
  | insertBlocked (a : ℕ) (p : Fin n)
  | removeBlocked (a : ℕ)
  | outBlocked (p : Fin n)
  | headBlocked (a : ℕ)
  deriving Repr, DecidableEq

inductive AslResult (n : ℕ) where
  | flag (b : Bool)
  | proc (p : Option (Fin n))
  deriving Repr, DecidableEq

namespace AslOp

def run : AslOp n → Program (Links n) Empty Fault (AslResult n)
  | insertBlocked a p => do pure (.flag (← JaeOS.insertBlocked a p))
  | removeBlocked a => do pure (.proc (← JaeOS.removeBlocked a))
  | outBlocked p => do pure (.proc (← JaeOS.outBlocked p))
  | headBlocked a => do pure (.proc (← JaeOS.headBlocked a))

/-- How callers use the operations: an inserted process waits nowhere, and `outBlocked` is given a
process whose `p_cursem` is set, though it may be stale. -/
def allowed (m : Links n) : AslOp n → Bool
  | insertBlocked a p => a ≠ 0 && (descriptors m).all fun d => p ∉ procs m d
  | outBlocked p => (m.pCursem p).isSome
  | removeBlocked _ => true
  | headBlocked _ => true

open Classical in
noncomputable def spec : AslOp n → (ℕ → List (Fin n)) → AslResult n × (ℕ → List (Fin n))
  | insertBlocked a p, q =>
    if q a = [] ∧ {b | q b ≠ []}.ncard = maxproc then (.flag true, q)
    else (.flag false, Function.update q a (q a ++ [p]))
  | removeBlocked a, q => (.proc (q a).head?, Function.update q a (q a).tail)
  | outBlocked p, q =>
    if ∃ a, p ∈ q a then (.proc (some p), fun a => (q a).erase p) else (.proc none, q)
  | headBlocked a, q => (.proc (q a).head?, q)

/-- A refusal, a `NULL` and the value of `headBlocked` come without a change. -/
def unchanging : AslOp n → AslResult n → Prop
  | headBlocked _, _ => True
  | _, r => r = .flag true ∨ r = .proc none

end AslOp

def runAsl : List (AslOp n) → Program (Links n) Empty Fault (List (AslResult n))
  | [] => pure []
  | op :: ops => do
    let r ← op.run
    let rs ← runAsl ops
    pure (r :: rs)

noncomputable def specAsl : List (AslOp n) → (ℕ → List (Fin n)) →
    List (AslResult n) × (ℕ → List (Fin n))
  | [], q => ([], q)
  | op :: ops, q =>
    let (r, q) := op.spec q
    let (rs, q) := specAsl ops q
    (r :: rs, q)

def legalAsl : List (AslOp n) → Links n → Bool
  | [], _ => true
  | op :: ops, m => op.allowed m && match op.run.run m with
    | .ok _ m' => legalAsl ops m'
    | _ => true

/-- The states reached from `initASL` when other code leaves the descriptors and the processes
blocked on them alone. -/
inductive AslReach : Links n → Prop where
  | init {m : Links n} (h : ∀ d, m.sProcq d = none) : AslReach (initASL m)
  | op {m m' : Links n} {op : AslOp n} {r : AslResult n} (h : AslReach m)
      (ha : op.allowed m = true) (hr : op.run.run m = .ok r m') : AslReach m'
  | other {m m' : Links n} (h : AslReach m) (hadd : m'.sSemAdd = m.sSemAdd)
      (hlink : m'.sLink = m.sLink) (hprocq : m'.sProcq = m.sProcq) (haslh : m'.aslh = m.aslh)
      (hfree : m'.semdFree = m.semdFree)
      (hq : ∀ d ∈ descriptors m, ∀ p ∈ procs m d,
        m'.pList p = m.pList p ∧ m'.pCursem p = m.pCursem p) : AslReach m'

/-! ### One operation -/

theorem initASL_rep {m : Links n} (h : ∀ d, m.sProcq d = none) :
    AslRep (initASL m) fun _ => [] := by
  refine ⟨[], List.finRange maxproc, ?_⟩
  exact { asl_ring := ring_nil
          free_ring := tableLink_ring
          disjoint := List.disjoint_nil_left _
          all := by simp
          sorted := List.Pairwise.nil
          procq := by simp
          nonempty := by simp
          cursem := by simp
          unused := fun d _ => h d
          covered := by simp }

namespace AslRep

variable {m : Links n} {q : ℕ → List (Fin n)} {a : ℕ} {p : Fin n}

theorem allowed_insertBlocked (h : AslRep m q) :
    (AslOp.insertBlocked a p).allowed m = true ↔ a ≠ 0 ∧ ∀ b, p ∉ q b := by
  obtain ⟨ds, fs, h⟩ := h
  simp only [AslOp.allowed, h.descriptors_eq, Bool.and_eq_true, List.all_eq_true,
    decide_eq_true_eq]
  refine and_congr_right fun _ => ⟨fun hp b hb => ?_, fun hp d hd => ?_⟩
  · obtain ⟨d, hd, rfl, -⟩ := h.mem_of_nonempty hb
    have hpd := hp d hd
    rw [h.procs_eq hd] at hpd
    exact hpd hb
  · rw [h.procs_eq hd]
    exact hp _

/-- A process waits exactly if it is in the queue of the descriptor its `p_cursem` names. -/
theorem waits_iff (h : AslRep m q) {d : Semd} (hd : m.pCursem p = some d) :
    (∃ b, p ∈ q b) ↔ p ∈ procs m d := by
  obtain ⟨ds, fs, h⟩ := h
  constructor
  · rintro ⟨b, hb⟩
    obtain ⟨e, he, rfl, hpe⟩ := h.mem_of_nonempty hb
    obtain rfl : d = e := Option.some.inj (hd.symm.trans hpe)
    rwa [h.procs_eq he]
  · intro hp
    rcases h.all d with hds | hfs
    · rw [h.procs_eq hds] at hp
      exact ⟨_, hp⟩
    · rw [procs, h.unused d hfs] at hp
      cases hp

/-- Taking a waiter out of its queue is erasing it everywhere. -/
theorem update_erase (h : AslRep m q) (hp : p ∈ q a) :
    Function.update q a ((q a).erase p) = fun b => (q b).erase p := by
  obtain ⟨ds, fs, h⟩ := h
  funext b
  by_cases hb : b = a
  · rw [hb, Function.update_self]
  · rw [Function.update_of_ne hb, List.erase_of_not_mem]
    exact fun hpb => hb (h.queue_unique hpb hp)

theorem outBlocked_run (h : AslRep m q) (hp : p ∈ q a) :
    ∃ m', (outBlocked p : Program (Links n) Empty Fault (Option (Fin n))).run m =
        .ok (some p) m' ∧ AslRep m' fun b => (q b).erase p := by
  have herase := h.update_erase hp
  obtain ⟨ds, fs, hl⟩ := h
  obtain ⟨m', hrun, hrep, -⟩ := hl.outBlocked_run (χ := Empty) hp
  exact ⟨m', hrun, herase ▸ hrep⟩

end AslRep

/-- One operation refines the reference and keeps `NULL` without waiters. -/
theorem AslOp.run_refines {m : Links n} {q : ℕ → List (Fin n)} (h : AslRep m q) (h0 : q 0 = [])
    {op : AslOp n} (ha : op.allowed m = true) :
    ∃ m', op.run.run m = .ok (op.spec q).1 m' ∧ AslRep m' (op.spec q).2 ∧ (op.spec q).2 0 = [] ∧
      (op.unchanging (op.spec q).1 → m' = m) := by
  cases op with
  | insertBlocked a p =>
      obtain ⟨ha0, hp⟩ := h.allowed_insertBlocked.mp ha
      by_cases hfull : q a = [] ∧ {b | q b ≠ []}.ncard = maxproc
      · refine ⟨m, ?_, ?_, ?_, fun _ => rfl⟩
        · simp only [AslOp.run, AslOp.spec, if_pos hfull]
          rw [Program.run_bind_ok (h.insertBlocked_refused ha0 hfull.1 hfull.2)]
          rfl
        · simpa only [AslOp.spec, if_pos hfull] using h
        · simpa only [AslOp.spec, if_pos hfull] using h0
      · obtain ⟨m', hrun, hrep, -⟩ := h.insertBlocked_run (χ := Empty) ha0 hp
          fun hq hn => hfull ⟨hq, hn⟩
        refine ⟨m', ?_, ?_, ?_, ?_⟩
        · simp only [AslOp.run, AslOp.spec, if_neg hfull]
          rw [Program.run_bind_ok hrun]
          rfl
        · simpa only [AslOp.spec, if_neg hfull] using hrep
        · simpa only [AslOp.spec, if_neg hfull, Function.update_of_ne ha0.symm] using h0
        · intro hu
          simp [AslOp.unchanging, AslOp.spec, if_neg hfull] at hu
  | removeBlocked a =>
      obtain ⟨ds, fs, hl⟩ := h
      cases hq : q a with
      | nil =>
          have hnil : Function.update q a [] = q := by rw [← hq, Function.update_eq_self]
          refine ⟨m, ?_, ?_, ?_, fun _ => rfl⟩
          · simp only [AslOp.run, AslOp.spec, hq]
            rw [Program.run_bind_ok (hl.removeBlocked_empty hq)]
            rfl
          · simp only [AslOp.spec, hq, List.tail_nil, hnil]
            exact ⟨ds, fs, hl⟩
          · simpa only [AslOp.spec, hq, List.tail_nil, hnil] using h0
      | cons p l =>
          have ha0 : a ≠ 0 := by
            rintro rfl
            rw [h0] at hq
            cases hq
          obtain ⟨m', hrun, hrep, -⟩ := hl.removeBlocked_run (χ := Empty) ha0 hq
          refine ⟨m', ?_, ?_, ?_, ?_⟩
          · simp only [AslOp.run, AslOp.spec, hq]
            rw [Program.run_bind_ok hrun]
            rfl
          · simpa only [AslOp.spec, hq, List.tail_cons] using hrep
          · simpa only [AslOp.spec, Function.update_of_ne ha0.symm] using h0
          · intro hu
            simp [AslOp.unchanging, AslOp.spec, hq] at hu
  | outBlocked p =>
      obtain ⟨d, hd⟩ := Option.isSome_iff_exists.mp ha
      by_cases hp : ∃ b, p ∈ q b
      · obtain ⟨b, hb⟩ := id hp
        obtain ⟨m', hrun, hrep⟩ := h.outBlocked_run hb
        refine ⟨m', ?_, ?_, ?_, ?_⟩
        · simp only [AslOp.run, AslOp.spec, if_pos hp]
          rw [Program.run_bind_ok hrun]
          rfl
        · simpa only [AslOp.spec, if_pos hp] using hrep
        · simp only [AslOp.spec, if_pos hp, h0, List.erase_nil]
        · intro hu
          simp [AslOp.unchanging, AslOp.spec, if_pos hp] at hu
      · obtain ⟨ds, fs, hl⟩ := id h
        refine ⟨m, ?_, ?_, ?_, fun _ => rfl⟩
        · simp only [AslOp.run, AslOp.spec, if_neg hp]
          rw [Program.run_bind_ok (hl.outBlocked_absent hd (not_exists.mp hp))]
          rfl
        · simpa only [AslOp.spec, if_neg hp] using h
        · simpa only [AslOp.spec, if_neg hp] using h0
  | headBlocked a =>
      obtain ⟨ds, fs, hl⟩ := id h
      refine ⟨m, ?_, h, h0, fun _ => rfl⟩
      simp only [AslOp.run]
      rw [Program.run_bind_ok (hl.headBlocked_run a)]
      rfl

/-! ### Sequences of operations -/

theorem runAsl_spec (ops : List (AslOp n)) {m : Links n} {q : ℕ → List (Fin n)} (h : AslRep m q)
    (h0 : q 0 = []) (hlegal : legalAsl ops m = true) :
    ∃ m', (runAsl ops).run m = .ok (specAsl ops q).1 m' ∧ AslRep m' (specAsl ops q).2 ∧
      (specAsl ops q).2 0 = [] := by
  induction ops generalizing m q with
  | nil => exact ⟨m, rfl, h, h0⟩
  | cons op ops ih =>
      simp only [legalAsl, Bool.and_eq_true] at hlegal
      obtain ⟨m₁, hrun, hrep, h0₁, -⟩ := AslOp.run_refines h h0 hlegal.1
      have hnext : legalAsl ops m₁ = true := by
        have hl := hlegal.2
        rwa [hrun] at hl
      obtain ⟨m₂, hrun₂, hrep₂, h0₂⟩ := ih hrep h0₁ hnext
      refine ⟨m₂, ?_, hrep₂, h0₂⟩
      rw [runAsl, Program.run_bind_ok hrun, Program.run_bind_ok hrun₂]
      rfl

/-- After `initASL` every sequence of calls behaves as the reference map does, and so does every
further call. -/
theorem asl_refines (m₀ : Links n) (hstatic : ∀ d, m₀.sProcq d = none) (ops : List (AslOp n))
    (hlegal : legalAsl ops (initASL m₀) = true) :
    ∃ m, (runAsl ops).run (initASL m₀) = .ok (specAsl ops fun _ => []).1 m ∧
      waiting m = (specAsl ops fun _ => []).2 ∧
      (∀ p d, m.pCursem p = some d → ((∃ a, p ∈ waiting m a) ↔ p ∈ procs m d)) ∧
      ∀ op : AslOp n, op.allowed m = true →
        ∃ m', op.run.run m = .ok (op.spec (waiting m)).1 m' ∧ waiting m' = (op.spec (waiting m)).2 ∧
          (op.unchanging (op.spec (waiting m)).1 → m' = m) := by
  obtain ⟨m, hrun, hrep, h0⟩ := runAsl_spec ops (initASL_rep hstatic) rfl hlegal
  have hw := hrep.waiting_eq
  refine ⟨m, hrun, hw, fun p d hd => ?_, fun op hop => ?_⟩
  · rw [hw]
    exact hrep.waits_iff hd
  · obtain ⟨m', hrun', hrep', -, hu⟩ := AslOp.run_refines hrep h0 hop
    rw [hw]
    exact ⟨m', hrun', hrep'.waiting_eq, hu⟩

/-- Two semaphores and three processes; the last call finds a stale `p_cursem`. -/
theorem asl_refines_three :
    let ops : List (AslOp 3) := [.insertBlocked 8 0, .insertBlocked 4 1, .insertBlocked 8 2,
      .outBlocked 0, .removeBlocked 4, .headBlocked 8, .outBlocked 0]
    ∃ m, (runAsl ops).run (initASL (Mem.zero 3).toLinks) = .ok (specAsl ops fun _ => []).1 m ∧
      waiting m = (specAsl ops fun _ => []).2 := by
  intro ops
  obtain ⟨m, hrun, hw, -⟩ := asl_refines (Mem.zero 3).toLinks (fun _ => rfl) ops (by decide)
  exact ⟨m, hrun, hw⟩

/-- Every reachable state represents some map of queues. -/
theorem AslReach.rep {m : Links n} (h : AslReach m) : ∃ q, AslRep m q ∧ q 0 = [] := by
  induction h with
  | init h => exact ⟨_, initASL_rep h, rfl⟩
  | op _ ha hr ih =>
      obtain ⟨q, hrep, h0⟩ := ih
      obtain ⟨m₁, hrun, hrep₁, h0₁, -⟩ := AslOp.run_refines hrep h0 ha
      obtain ⟨-, rfl⟩ := Outcome.ok.inj (hrun.symm.trans hr)
      exact ⟨_, hrep₁, h0₁⟩
  | other _ hadd hlink hprocq haslh hfree hq ih =>
      obtain ⟨q, ⟨ds, fs, hl⟩, h0⟩ := ih
      refine ⟨q, ⟨ds, fs, hl.congr hadd hlink hprocq haslh hfree fun a x hx => ?_⟩, h0⟩
      obtain ⟨d, hd, rfl, -⟩ := hl.mem_of_nonempty hx
      refine hq d (by rwa [hl.descriptors_eq]) x ?_
      rwa [hl.procs_eq hd]

end JaeOS
