import JaeOS.Clist

/-!
# How a loop has ended

A loop body looks at one element after the other and, at some element or never, adds a node before
it, deletes it or lets it be, and breaks. `clist_foreach_all` has only the trailing cursor and the
list to tell whether the loop was broken. Behind a deletion the cursor may be the new tail.
-/

open LinkRing

namespace JaeOS

variable {α γ χ : Type} [DecidableEq α]

inductive Ending (α : Type) where
  | leave
  | add (elem : α)
  | delete
  deriving Repr, DecidableEq

def Ending.run (scan : α) (tmp : Option α) : Ending α → Program (Clist α) χ Fault Unit
  | .leave => pure ()
  | .add elem => Program.modify (clistForeachAdd elem scan tmp)
  | .delete => do
    let c ← clistForeachDelete scan tmp (← Program.gets id)
    Program.modify fun _ => c

/-- The body that breaks where `choose` names an ending; the flag tells that it did. -/
def endingBody (choose : γ → α → γ × Option (Ending α)) (vars : γ × Bool) (scan : α)
    (tmp : Option α) : Program (Clist α) χ Fault (ForInStep (γ × Bool)) :=
  match (choose vars.1 scan).2 with
  | none => pure (.yield ((choose vars.1 scan).1, vars.2))
  | some e => do
    e.run scan tmp
    pure (.done ((choose vars.1 scan).1, true))

/-- The loop and the `clist_foreach_all` after it: whether the loop was broken and what the macro
tells. -/
def foreachEnding (bound : ℕ) (choose : γ → α → γ × Option (Ending α)) (vars : γ)
    (scan tmp : Option α) : Program (Clist α) χ Fault (Bool × Bool) := do
  let (vars, _, tmp) ← clistForeach bound Clist.link (fun _ => Program.gets Clist.tail)
    (endingBody choose) (vars, false) scan tmp
  let c ← Program.gets id
  pure (vars.2, clistForeachAll c tmp)

def firstEnding (choose : γ → α → γ × Option (Ending α)) : γ → List α → Option (Ending α × Bool)
  | _, [] => none
  | vars, x :: l =>
    match (choose vars x).2 with
    | none => firstEnding choose (choose vars x).1 l
    | some e => some (e, l.isEmpty)

def passOver (choose : γ → α → γ × Option (Ending α)) (vars : γ × Bool) (x : α) : γ × Bool :=
  ((choose vars.1 x).1, vars.2)

section Endings

variable {c : Clist α} {l pre post : List α} {x : α} {bound : ℕ} {scan tmp : Option α}
  {choose : γ → α → γ × Option (Ending α)} {vars : γ} {e : Ending α}

theorem endingBody_pass {vars : γ × Bool} (h : (choose vars.1 x).2 = none) (tmp : Option α) :
    (endingBody choose vars x tmp : Program (Clist α) χ Fault _).run c =
      .ok (.yield (passOver choose vars x)) c := by
  rw [endingBody, h]
  rfl

theorem endingBody_end {vars : γ × Bool} {c' : Clist α} (h : (choose vars.1 x).2 = some e)
    (hrun : (e.run x tmp : Program (Clist α) χ Fault Unit).run c = .ok () c') :
    (endingBody choose vars x tmp : Program (Clist α) χ Fault _).run c =
      .ok (.done ((choose vars.1 x).1, true)) c' := by
  rw [endingBody, h]
  exact Program.run_bind_ok hrun _

omit [DecidableEq α] in
theorem passOver_flag {vars : γ × Bool} : (l.foldl (passOver choose) vars).2 = vars.2 := by
  induction l generalizing vars with
  | nil => rfl
  | cons x l ih => exact ih

/-- Without an ending the body yields at every element. -/
theorem firstEnding_none (vars : γ × Bool) (h : firstEnding choose vars.1 l = none) :
    Yields (endingBody choose : γ × Bool → α → Option α → Program (Clist α) χ Fault _) c
      (passOver choose) vars l := by
  induction l generalizing vars with
  | nil => trivial
  | cons x l ih =>
      rw [firstEnding] at h
      cases hx : (choose vars.1 x).2 with
      | none =>
          rw [hx] at h
          exact ⟨endingBody_pass hx, ih _ h⟩
      | some e =>
          rw [hx] at h
          cases h

/-- The first ending splits the list at its element. -/
theorem firstEnding_some (vars : γ × Bool) {last : Bool}
    (h : firstEnding choose vars.1 l = some (e, last)) :
    ∃ pre x post, l = pre ++ x :: post ∧ post.isEmpty = last ∧
      Yields (endingBody choose : γ × Bool → α → Option α → Program (Clist α) χ Fault _) c
        (passOver choose) vars pre ∧
      (choose (pre.foldl (passOver choose) vars).1 x).2 = some e := by
  induction l generalizing vars with
  | nil => cases h
  | cons x l ih =>
      rw [firstEnding] at h
      cases hx : (choose vars.1 x).2 with
      | none =>
          rw [hx] at h
          obtain ⟨pre, y, post, rfl, hlast, hpre, hy⟩ := ih (passOver choose vars x) h
          exact ⟨x :: pre, y, post, rfl, hlast, ⟨endingBody_pass hx, hpre⟩, hy⟩
      | some e' =>
          rw [hx] at h
          obtain ⟨rfl, rfl⟩ : e' = e ∧ l.isEmpty = last := by simpa using h
          exact ⟨[], x, l, rfl, rfl, trivial, hx⟩

/-- Every ending comes to its end, and `clist_foreach_all` takes it for a full loop if it deletes
the last element. -/
theorem Ending.run_tells (h : c.Repr (pre ++ x :: post)) :
    ∃ c', (e.run x pre.getLast? : Program (Clist α) χ Fault Unit).run c = .ok () c' ∧
      (clistForeachAll c' pre.getLast? = true ↔ e = .delete ∧ post = []) := by
  cases e with
  | leave =>
      refine ⟨c, rfl, ?_⟩
      simp [clistForeachAll_iff h]
  | add y =>
      refine ⟨clistForeachAdd y x pre.getLast? c, rfl, ?_⟩
      simp [clistForeachAdd_all h]
  | delete =>
      obtain ⟨c', hrun, hmoves⟩ := clistForeachDelete_repr (σ := Clist α) (χ := χ) h
      refine ⟨c', ?_, ?_⟩
      · rw [Ending.run, Program.run_gets_bind, id, Program.run_bind_ok (hrun c)]
        rfl
      · rw [clistForeachAll_iff hmoves.repr]
        exact (and_iff_right rfl).symm

/-- After the loop `clist_foreach_all` is false if and only if the loop was broken, unless its body
has broken it by deleting the last element. -/
theorem foreachAll_tells (bound : ℕ) (h : c.Repr l) (hb : l.length ≤ bound)
    (choose : γ → α → γ × Option (Ending α)) (vars : γ) (scan tmp : Option α) :
    ∃ broke all c', (foreachEnding bound choose vars scan tmp :
        Program (Clist α) χ Fault (Bool × Bool)).run c = .ok (broke, all) c' ∧
      broke = (firstEnding choose vars l).isSome ∧
      ((all = false ↔ broke = true) ↔ firstEnding choose vars l ≠ some (.delete, true)) := by
  unfold foreachEnding
  cases hfirst : firstEnding choose vars l with
  | none =>
      obtain ⟨a, b, hloop, hall⟩ := clistForeach_end (χ := χ) Clist.link
        (fun _ => Program.gets Clist.tail) (endingBody choose) (vars, false) scan tmp
          (passOver choose) h.ring hb (by simp)
        (firstEnding_none (vars, false) hfirst)
      refine ⟨false, true, c, ?_, rfl, by simp⟩
      have hall : clistForeachAll c b = true := hall
      have hflag : (l.foldl (passOver choose) (vars, false)).2 = false := passOver_flag
      rw [Program.run_bind_ok hloop]
      simp [hall, hflag]
  | some ending =>
      obtain ⟨e, last⟩ := ending
      obtain ⟨pre, x, post, rfl, rfl, hpass, hx⟩ :=
        firstEnding_some (c := c) (χ := χ) (vars, false) hfirst
      obtain ⟨c', hrun, htells⟩ := Ending.run_tells (χ := χ) (e := e) h
      refine ⟨true, clistForeachAll c' pre.getLast?, c', ?_, rfl, ?_⟩
      · rw [Program.run_bind_ok (clistForeach_break (passOver choose) h.ring hb rfl
          (fun _ _ => rfl) hpass (endingBody_end hx hrun))]
        rfl
      · rw [← Bool.not_eq_true, htells]
        simp

end Endings

theorem foreachAll_tells_two : ∃ broke all c', (foreachEnding 2
      (fun _ x => ((), if x = 1 then some (.add 2) else none)) () none none :
        Program (Clist (Fin 3)) Empty Fault (Bool × Bool)).run ⟨![some 1, some 0, none], some 1⟩ =
        .ok (broke, all) c' ∧
      (all = false ↔ broke = true) := by
  obtain ⟨broke, all, c', hrun, -, htells⟩ := foreachAll_tells (χ := Empty)
    (c := (⟨![some 1, some 0, none], some 1⟩ : Clist (Fin 3))) (l := [0, 1]) 2
    ⟨by decide, rfl, rfl, rfl, rfl⟩ (by decide)
    (fun _ x => ((), if x = 1 then some (.add 2) else none)) () none none
  exact ⟨broke, all, c', hrun, htells.mpr (by decide)⟩

/-- A loop over two elements that deletes the second one and breaks passes for a full one. -/
theorem foreachAll_misses : Clist.Repr (⟨![some 1, some 0], some 1⟩ : Clist (Fin 2)) [0, 1] ∧
    ∃ c', (foreachEnding 2 (fun _ x => ((), if x = 1 then some .delete else none)) () none none :
      Program (Clist (Fin 2)) Empty Fault (Bool × Bool)).run ⟨![some 1, some 0], some 1⟩ =
        .ok (true, true) c' :=
  ⟨⟨by decide, rfl, rfl, rfl, rfl⟩, _, rfl⟩

end JaeOS
