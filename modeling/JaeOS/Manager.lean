import JaeOS.Board

/-!
# What the nucleus implements

The nucleus without its tables: a manager of processes and semaphores whose state is a view and
whose steps are moves. Every run of the nucleus that kills no process with a ready descendant is a
run of the manager, in which each entry makes the moves that can be read off its arguments.
-/

open LinkRing LinkForest Transition

namespace JaeOS

section Runs

variable [Platform] {B : Kernel → Prop} {s s' : Sys} {es : List Event}

/-- The manager starts with the first process and cleared semaphores in `device_sem`. -/
def manager (B : Kernel → Prop) : System View Act where
  init v := ∃ k, B k ∧ v = View.boot (bootInts k.ints) k.resWait
  step v act v' := Move act v v'

/-- Every run of the nucleus is one of the manager. -/
theorem nucleus_refines (hinit : (nucleus B).init s)
    (hrun : Steps (fun e s s' => SparesReady s e ∧ s.step e = some s') es s s') :
    ∃ v, (manager B).init v ∧ Rep s.kernel.core v ∧
      ∃ (xs : List (Event × List Act)) (v' : View), xs.map Prod.fst = es ∧
        Steps (fun x s s' => s.step x.1 = some s' ∧ x.1.acts s.kernel x.2) xs s s' ∧
        Steps (fun act v v' => (manager B).step v act v') (xs.flatMap Prod.snd) v v' ∧
        Rep s'.kernel.core v' := by
  obtain ⟨k, hB, hk, hboot⟩ := hinit
  have hrep : Rep s.kernel.core (View.boot (bootInts k.ints) k.resWait) := (main_run hk hboot).2.1
  obtain ⟨xs, v', hfst, hxs, hmoves, hrep'⟩ := (nucleus_simulation (B := B)).trace hrep hrun
  exact ⟨_, ⟨k, hB, rfl⟩, hrep, xs, v', hfst, hxs, hmoves.imp fun _ _ _ hm => hm.2, hrep'⟩

end Runs

section Board

attribute [local instance] uarm

/-- The first process makes a second one and waits for it: in the manager it is in the queue of
`0x5000`. -/
theorem nucleus_refines_wait : ∃ v v' acts, (manager fun _ => True).init v ∧
    Steps (fun act v v' => (manager fun _ => True).step v act v') acts v v' ∧
    v'.queue 0x5000 = [0] := by
  have hrun : ((Sys.boot Kernel.zero).bind (follow Sys.step SparesReady
      [.dispatch, call 1, .dispatch, call 3 0x5000 (-1), .dispatch])).any
        (fun s' => waiting s'.kernel.toLinks 0x5000 = [0]) = true := by decide +kernel
  obtain ⟨s', hes, hwaiting⟩ := (Option.any_eq_true _ _).mp hrun
  obtain ⟨s, hboot, hes⟩ := Option.bind_eq_some_iff.mp hes
  obtain ⟨v, hv, -, xs, v', -, -, hmoves, hrep'⟩ :=
    nucleus_refines (B := fun _ => True) ⟨_, trivial, atBoot_zero, hboot⟩ (steps_follow.mpr hes)
  refine ⟨v, v', _, hv, hmoves, ?_⟩
  rw [← hrep'.waiting_eq]
  exact of_decide_eq_true hwaiting

end Board

end JaeOS
