import JaeOS.AslRefinement
import JaeOS.Board

/-!
# The descriptors never run out

The active semaphore list is sorted, none of its descriptors is idle and none is lost. As there are
as many descriptors as PCBs, a caller that waits nowhere finds one, so `insertBlocked` succeeds
whenever `semaphore_operation` calls it.
-/

open LinkRing

namespace JaeOS

def freeDescriptors {n : ℕ} (m : Links n) : List Semd := members m.sLink maxproc m.semdFree

section Invariant

variable {n : ℕ}

structure AslOrdered (m : Links n) : Prop where
  asl_ring : Ring m.sLink m.aslh (descriptors m)
  sorted : (descriptors m).Pairwise fun d e => m.sSemAdd d < m.sSemAdd e
  procq_ring : ∀ d ∈ descriptors m, Ring m.pList (m.sProcq d) (procs m d)
  nonempty : ∀ d ∈ descriptors m, procs m d ≠ []
  cursem : ∀ d ∈ descriptors m, ∀ p ∈ procs m d, m.pCursem p = some d
  free_ring : Ring m.sLink m.semdFree (freeDescriptors m)
  once : (descriptors m ++ freeDescriptors m).Perm (List.finRange maxproc)

variable {m : Links n} {q : ℕ → List (Fin n)} {ds fs : List Semd}

theorem AslLists.freeDescriptors_eq (h : AslLists m q ds fs) : freeDescriptors m = fs := by
  have hlen := h.length_add
  exact h.free_ring.members_eq (by omega)

theorem AslLists.ordered (h : AslLists m q ds fs) : AslOrdered m := by
  have hds := h.descriptors_eq
  have hfs := h.freeDescriptors_eq
  exact
    { asl_ring := hds.symm ▸ h.asl_ring
      sorted := hds.symm ▸ h.sorted
      procq_ring := fun d hd => by
        rw [hds] at hd
        rw [h.procs_eq hd]
        exact h.procq d hd
      nonempty := fun d hd => by
        rw [hds] at hd
        rw [h.procs_eq hd]
        exact h.nonempty d hd
      cursem := fun d hd p hp => by
        rw [hds] at hd
        rw [h.procs_eq hd] at hp
        exact h.cursem d hd p hp
      free_ring := hfs.symm ▸ h.free_ring
      once := by
        rw [hds, hfs]
        exact h.perm }

theorem AslReach.ordered (h : AslReach m) : AslOrdered m := by
  obtain ⟨q, ⟨ds, fs, hl⟩, -⟩ := h.rep
  exact hl.ordered

end Invariant

section Panic

variable [Platform] {k : Kernel} {c : Pcb} {a : ℕ} {w : ℤ}

/-- `P` returns if `insertBlocked` finds a descriptor. -/
theorem passeren_returns {m : Links maxproc} (hc : k.currentProcess = some c)
    (hrun : (insertBlocked a c : Program (Links maxproc) Ctl Fault Bool).run k.toLinks =
      .ok false m) : ∃ k', (passeren a w).run k = .ok () k' := by
  unfold passeren
  simp only [setInt, Program.run_gets_bind, Program.run_modify_bind, Function.update_self]
  by_cases hi : Platform.wrap (k.ints a + w) < 0
  · rw [if_pos hi]
    simp only [current, getTODLO, addKernelTime, addGlobalTime, Program.run_bind_bind,
      Program.run_gets_bind, Program.run_modify_bind, Program.run_pure_bind, hc, Program.need_some]
    have hins : ∀ s : Kernel, s.toLinks = k.toLinks →
        (onLinks (insertBlocked a c)).run s = .ok false (s.setLinks m) := fun s hs =>
      onLinks_ok (hs ▸ hrun)
    rw [Program.run_bind, hins]
    · exact ⟨_, rfl⟩
    · rfl
  · rw [if_neg hi]
    exact ⟨_, rfl⟩

end Panic

/-- On the tables that the operations of the list lead to, the list is in order, and a process that
waits nowhere can be blocked: `P` does not panic. -/
theorem asl_capacity :
    (∀ (n : ℕ) (m : Links n), AslReach m → AslOrdered m) ∧
      ∀ [Platform] (k : Kernel) (c : Pcb) (a : ℕ) (w : ℤ), AslReach k.toLinks →
        k.currentProcess = some c → (∀ d ∈ descriptors k.toLinks, c ∉ procs k.toLinks d) →
        a ≠ 0 → w < 0 →
        (∃ m, (insertBlocked a c : Program (Links maxproc) Ctl Fault Bool).run k.toLinks =
          .ok false m) ∧ ∃ k', (semaphoreOperation a w).run k = .ok () k' := by
  refine ⟨fun n m h => h.ordered, fun k c a w h hc hwaits ha hw => ?_⟩
  obtain ⟨q, hrep, -⟩ := h.rep
  have hcq : ∀ b, c ∉ q b := by
    intro b hb
    obtain ⟨ds, fs, hl⟩ := hrep
    obtain ⟨d, hd, hdb, -⟩ := hl.mem_of_nonempty hb
    refine hwaits d (hl.descriptors_eq.symm ▸ hd) ?_
    rw [hl.procs_eq hd, hdb]
    exact hb
  have hroom := hrep.ncard_lt hcq
  obtain ⟨m, hrun, -⟩ := hrep.insertBlocked_run (χ := Ctl) ha hcq
    fun _ hfull => absurd hfull (Nat.ne_of_lt hroom)
  refine ⟨⟨m, hrun⟩, ?_⟩
  rw [semaphoreOperation_neg ha hw]
  exact passeren_returns hc hrun

/-- One process waits on a semaphore, another is about to. -/
theorem asl_capacity_waiter :
    ∃ k : Kernel, AslOrdered k.toLinks ∧ procs k.toLinks 0 = [1] ∧
      ∃ k', (@semaphoreOperation uarm 4 (-1)).run k = .ok () k' := by
  have hinit := AslReach.init (m := (Mem.zero maxproc).toLinks) fun _ => rfl
  have hallowed : (AslOp.insertBlocked 8 1).allowed (initASL (Mem.zero maxproc).toLinks) =
      true := by
    decide
  have hreach := hinit.op hallowed rfl
  refine ⟨{ Kernel.zero with toLinks := _, currentProcess := some 0 }, asl_capacity.1 _ _ hreach,
    by decide, ?_⟩
  exact (@asl_capacity.2 uarm { Kernel.zero with toLinks := _, currentProcess := some 0 } 0 4 (-1)
    hreach rfl (by decide) (by decide) (by decide)).2

end JaeOS
