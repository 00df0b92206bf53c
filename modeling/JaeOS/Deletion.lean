import JaeOS.AslRep

/-!
# Two ways to delete

`clist_delete` looks ahead for the element; `outProcQ` and `outBlocked` scan for it with
`clist_foreach` and delete it under the cursor.
-/

open LinkRing

namespace JaeOS

variable {α σ χ : Type} [DecidableEq α]

def clistScanDeleteBody (e : α) (found : Bool) (scan : α) (tmp : Option α) :
    Program (Clist α) χ Fault (ForInStep Bool) :=
  if scan = e then do
    let c ← clistForeachDelete scan tmp (← Program.gets id)
    Program.modify fun _ => c
    pure (.done true)
  else pure (.yield found)

/-- The loop of `outProcQ` and `outBlocked` on a list of its own; the value tells whether it has met
`e`. -/
def clistScanDelete (bound : ℕ) (e : α) : Program (Clist α) χ Fault Bool := do
  let (found, _, _) ← clistForeach bound Clist.link (fun _ => Program.gets Clist.tail)
    (clistScanDeleteBody e) false none none
  pure found

theorem clistScanDelete_delete {c : Clist α} {l : List α} {bound : ℕ} (h : c.Repr l)
    (hb : l.length ≤ bound) (e : α) :
    ∃ c', (clistScanDelete bound e : Program (Clist α) χ Fault Bool).run c =
        .ok (decide (e ∈ l)) c' ∧
      (∀ s : Clist α, (clistDelete bound e c : Program (Clist α) χ Fault (ℕ × Clist α)).run s =
        .ok (if e ∈ l then 0 else 1, c') s) ∧
      (e ∉ l → c' = c) := by
  obtain ⟨c', o, hdel, -, habsent, hpresent⟩ := clistForeach_scanDelete (s := c) (χ := χ)
    Clist.link (fun _ => Program.gets Clist.tail) (clistScanDeleteBody e) false none none h hb rfl
    (fun _ => rfl) (fun v y o (hy : y ≠ e) => by simp [clistScanDeleteBody, hy])
  refine ⟨c', ?_, hdel, fun he => (habsent he).1⟩
  unfold clistScanDelete
  by_cases he : e ∈ l
  · obtain ⟨hrun, hloop⟩ := hpresent he
    have hbody : (clistScanDeleteBody e false e o : Program (Clist α) χ Fault _).run c =
        .ok (.done true) c' := by
      simp only [clistScanDeleteBody, if_true, Program.run_gets_bind, id]
      rw [Program.run_bind_ok (hrun c)]
      rfl
    rw [Program.run_bind_ok (hloop _ _ hbody), decide_eq_true he]
    rfl
  · obtain ⟨rfl, a, b, hloop⟩ := habsent he
    rw [Program.run_bind_ok hloop, decide_eq_false he]
    rfl

/-- Both ways leave the same links and the same tail pointer and agree on whether the element was
there, in a loop of its own, in `outProcQ` and in `outBlocked`. -/
theorem deletions_agree :
    (∀ (c : Clist α) l bound e, c.Repr l → l.length ≤ bound →
      ∃ c', (clistScanDelete bound e : Program (Clist α) χ Fault Bool).run c =
          .ok (decide (e ∈ l)) c' ∧
        (∀ s : Clist α, (clistDelete bound e c : Program (Clist α) χ Fault (ℕ × Clist α)).run s =
          .ok (if e ∈ l then 0 else 1, c') s) ∧
        (e ∉ l → c' = c)) ∧
    (∀ n (m : Links n) q l p, Ring m.pList q l →
      ∃ c', (outProcQ q p : Program (Links n) χ Fault _).run m =
          .ok (if p ∈ l then some p else none, c'.tail) { m with pList := c'.link } ∧
        (∀ s : Links n, (clistDelete n p ⟨m.pList, q⟩ : Program (Links n) χ Fault _).run s =
          .ok (if p ∈ l then 0 else 1, c') s) ∧
        (p ∉ l → c' = ⟨m.pList, q⟩)) ∧
    ∀ n (m : Links n) q ds fs d p, AslLists m q ds fs → d ∈ ds → m.pCursem p = some d →
      ∃ c' m', (outBlocked p : Program (Links n) χ Fault _).run m =
          .ok (if p ∈ q (m.sSemAdd d) then some p else none) m' ∧
        m'.pList = c'.link ∧ m'.sProcq = Function.update m.sProcq d c'.tail ∧
        (∀ s : Links n, (clistDelete n p ⟨m.pList, m.sProcq d⟩ : Program (Links n) χ Fault _).run
          s =
          .ok (if p ∈ q (m.sSemAdd d) then 0 else 1, c') s) ∧
        (p ∉ q (m.sSemAdd d) → m' = m) := by
  refine ⟨fun c l bound e h hb => clistScanDelete_delete h hb e, fun n m q l p h => ?_,
    fun n m q ds fs d p h hd hpd => ?_⟩
  · obtain ⟨c', hdel, -, habsent, hrun⟩ := outProcQ_delete (χ := χ) h p
    exact ⟨c', hrun, hdel, habsent⟩
  · obtain ⟨c', m', hdel, hrun, hlist, hprocq, habsent, -⟩ := h.outBlocked_delete (χ := χ) hd hpd
    exact ⟨c', m', hrun, hlist, hprocq, hdel, habsent⟩

theorem deletions_agree_last : ∃ c' : Clist (Fin 2),
    (clistScanDelete 2 1 : Program (Clist (Fin 2)) Empty Fault Bool).run
      ⟨![some 1, some 0], some 1⟩ =
      .ok true c' ∧
    ∀ s, (clistDelete 2 1 ⟨![some 1, some 0], some 1⟩ : Program (Clist (Fin 2)) Empty Fault _).run
      s =
      .ok (0, c') s := by
  obtain ⟨c', hscan, hdel, -⟩ :=
    deletions_agree.1 (⟨![some 1, some 0], some 1⟩ : Clist (Fin 2)) [0, 1] 2
    1 ⟨by decide, rfl, rfl, rfl, rfl⟩ (by decide)
  exact ⟨c', hscan, hdel⟩

end JaeOS
