import JaeOS.Board

/-!
# Where the PCBs are

`p_list` links the free PCBs, the ready queue and the queues of the semaphores. A PCB is in one of
these lists, once, or it is the running process, as long as no process is killed with a descendant
in the ready queue: `terminate_children` frees such a descendant where it is.
-/

open LinkRing Transition

namespace JaeOS

def placeCount (k : Kernel) (p : Pcb) : ℕ :=
  (freeList k).count p + (if k.currentProcess = some p then 1 else 0) + (readyList k).count p +
    ∑ d : Semd, (procs k.toLinks d).count p

/-- Every PCB is in one place, and the lists are complete rings. -/
structure Placed (k : Kernel) : Prop where
  once : ∀ p, placeCount k p = 1
  free_ring : Ring k.pList k.pcbFree (freeList k)
  ready_ring : Ring k.pList k.readyqueue (readyList k)
  queue_ring : ∀ d, Ring k.pList (k.sProcq d) (procs k.toLinks d)

section Rep

variable {k : Kernel} {v : View} {p : Pcb} {d : Semd}

theorem count_of_nodup {α : Type} [DecidableEq α] {l : List α} {x : α} {c : Prop} [Decidable c]
    (hl : l.Nodup) (hx : x ∈ l ↔ c) : l.count x = if c then 1 else 0 := by
  by_cases hc : c
  · rw [if_pos hc, List.count_eq_one_of_mem hl (hx.mpr hc)]
  · rw [if_neg hc, List.count_eq_zero.mpr fun hm => hc (hx.mp hm)]

theorem Rep.count_free (h : Rep k.core v) :
    (freeList k).count p = if v.place p = .free then 1 else 0 := by
  rw [h.freeList_eq]
  exact count_of_nodup h.lists.free_ring.nodup (h.lists.mem_free p)

theorem Rep.count_ready (h : Rep k.core v) :
    (readyList k).count p = if v.place p = .ready then 1 else 0 := by
  rw [h.readyList_eq]
  exact count_of_nodup h.ready.ring.nodup (h.ready.mem p)

theorem AslLists.procs_ring {m : Links maxproc} {q : ℕ → List Pcb} {ds fs : List Semd}
    (h : AslLists m q ds fs) : Ring m.pList (m.sProcq d) (procs m d) := by
  rcases h.all d with hd | hd
  · rw [h.procs_eq hd]
    exact h.procq d hd
  · rw [procs, h.unused d hd]
    exact ring_nil

/-- A blocked process is in the queue of one descriptor. -/
theorem Rep.count_blocked (h : Rep k.core v) :
    ∑ d : Semd, (procs k.toLinks d).count p = if (v.place p).isBlocked then 1 else 0 := by
  obtain ⟨ds, fs, hl⟩ := h.lists.asl
  have hmem : ∀ d, p ∈ procs k.toLinks d ↔ d ∈ ds ∧ v.place p = .blocked (k.sSemAdd d) := by
    intro d
    rcases hl.all d with hd | hd
    · have hprocs : procs k.toLinks d = v.queue (k.sSemAdd d) := hl.procs_eq hd
      rw [hprocs, h.lists.mem_queue]
      exact ⟨fun hp => ⟨hd, hp⟩, fun hp => hp.2⟩
    · have hnone : k.sProcq d = none := hl.unused d hd
      have hds : d ∉ ds := fun hm => hl.disjoint hm hd
      simp [procs, hnone, members, hds]
  by_cases ha : (v.place p).isBlocked
  · obtain ⟨a, hpa⟩ := Place.isBlocked_iff.mp ha
    rw [if_pos ha]
    obtain ⟨d, hd, hda, -⟩ := hl.mem_of_nonempty ((h.lists.mem_queue p a).mpr hpa)
    have hda : k.sSemAdd d = a := hda
    rw [Finset.sum_eq_single d]
    · exact List.count_eq_one_of_mem hl.procs_ring.nodup ((hmem d).mpr ⟨hd, by rw [hda]; exact hpa⟩)
    · intro e _ hed
      refine List.count_eq_zero.mpr fun hm => hed ?_
      obtain ⟨he, hpe⟩ := (hmem e).mp hm
      rw [hpa] at hpe
      exact hl.semAdd_inj he hd ((Place.blocked.inj hpe).symm.trans hda.symm)
    · exact fun hn => absurd (Finset.mem_univ d) hn
  · rw [if_neg ha]
    refine Finset.sum_eq_zero fun d _ => List.count_eq_zero.mpr fun hm => ha ?_
    exact Place.isBlocked_iff.mpr ⟨_, ((hmem d).mp hm).2⟩

theorem Rep.placed (h : Rep k.core v) : Placed k where
  once p := by
    have hoff : k.currentProcess = some p ↔ v.place p = .off := (h.off p).symm
    have hgone := h.not_gone p
    simp only [placeCount, h.count_free, h.count_ready, h.count_blocked, hoff]
    cases hp : v.place p with
    | gone => exact absurd hp hgone
    | free => simp [Place.isBlocked]
    | ready => simp [Place.isBlocked]
    | blocked a => simp [Place.isBlocked]
    | off => simp [Place.isBlocked]
  free_ring := by
    rw [h.freeList_eq]
    exact h.lists.free_ring
  ready_ring := by
    rw [h.readyList_eq]
    exact h.ready.ring
  queue_ring d := by
    obtain ⟨ds, fs, hl⟩ := h.lists.asl
    exact hl.procs_ring

end Rep

/-- In a run that kills no process with a ready descendant every PCB is always in one place. -/
theorem nucleus_placed [Platform] {B : Kernel → Prop} {s : Sys}
    (h : Reach (nucleus B) SparesReady s) : Placed s.kernel := by
  obtain ⟨v, hrep⟩ := nucleus_rep h
  exact hrep.placed

section Board

attribute [local instance] uarm

/-- The first process has a child and waits on a semaphore. -/
theorem nucleus_placed_waiting : ∃ s : Sys, Placed s.kernel ∧ s.kernel.currentProcess = none := by
  obtain ⟨s, hs, hidle⟩ := nucleus_run (B := fun _ => True) (C := SparesReady) trivial atBoot_zero
    [.dispatch, call 1, .dispatch, call 3 0x5000 (-1)]
    (fun s => s.kernel.currentProcess = none) (by decide +kernel)
  exact ⟨s, nucleus_placed hs, of_decide_eq_true hidle⟩

/-- A process that has a ready child and kills itself leaves the child in two places. -/
theorem nucleus_not_placed :
    ¬ ∀ s, Reach (nucleus fun _ => True) (fun _ _ => True) s → Placed s.kernel := by
  intro hall
  obtain ⟨s, hs, htwice⟩ := nucleus_run (B := fun _ => True) (C := fun _ _ => True) trivial
    atBoot_zero [.dispatch, call 1, .dispatch, call 2] (fun s => placeCount s.kernel 1 = 2)
    (by decide +kernel)
  have honce := (hall s hs).once 1
  rw [of_decide_eq_true htwice] at honce
  cases honce

end Board

end JaeOS
