import JaeOS.AslRep

/-!
# Inserting in order

The loop of `p0test` adds the node in front of the first greater key and breaks; what
`clist_foreach_all` answers afterwards decides whether the node is still to be enqueued. In
`insertBlocked` the loop returns where the other one breaks.
-/

open LinkRing

namespace JaeOS

variable {α κ χ : Type} [DecidableEq α] [LinearOrder κ]

def clistSortedInsertBody (key : α → κ) (elem : α) (_ : Unit) (scan : α) (tmp : Option α) :
    Program (Clist α) χ Fault (ForInStep Unit) :=
  if key elem < key scan then do
    Program.modify (clistForeachAdd elem scan tmp)
    pure (.done ())
  else pure (.yield ())

/-- The `<` command of `p0test`, with the cursors as they stand before it. -/
def clistSortedInsert (bound : ℕ) (key : α → κ) (elem : α) (scan tmp : Option α) :
    Program (Clist α) χ Fault Unit := do
  let (_, _, tmp) ← clistForeach bound Clist.link (fun _ => Program.gets Clist.tail)
    (clistSortedInsertBody key elem) () scan tmp
  if clistForeachAll (← Program.gets id) tmp then
    Program.modify (clistEnqueue elem)

section Run

variable {c : Clist α} {l pre post : List α} {e : α} {key : α → κ} {bound : ℕ} {scan tmp : Option α}

/-- The mechanism depends on where the place is; the outcome is the same `clistPlace`. -/
theorem clistSortedInsert_run (h : c.Repr (pre ++ post)) (hb : (pre ++ post).length ≤ bound)
    (hpre : ∀ x ∈ pre, key x ≤ key e) (hpost : ∀ x ∈ post, key e < key x) :
    (clistSortedInsert bound key e scan tmp : Program (Clist α) χ Fault Unit).run c =
      .ok () (clistPlace e pre post c) := by
  have hbody : ∀ v, ∀ x ∈ pre, ∀ o, (clistSortedInsertBody key e v x o :
      Program (Clist α) χ Fault _).run c = .ok (.yield v) c := by
    intro v x hx o
    rw [clistSortedInsertBody, if_neg (not_lt.mpr (hpre x hx))]
    rfl
  unfold clistSortedInsert
  cases post with
  | nil =>
      rw [List.append_nil] at h hb
      obtain ⟨a, b, hloop, hall⟩ := clistForeach_end (χ := χ) Clist.link
        (fun _ => Program.gets Clist.tail) (clistSortedInsertBody key e) () scan tmp
          (fun v _ => v) h.ring hb (by simp)
        (.of_forall hbody)
      have hall : clistForeachAll c b = true := hall
      rw [Program.run_bind_ok hloop]
      simp [hall, clistPlace]
  | cons x post =>
      have hdone : (clistSortedInsertBody key e () x pre.getLast? :
          Program (Clist α) χ Fault _).run c =
            .ok (.done ()) (clistForeachAdd e x pre.getLast? c) := by
        rw [clistSortedInsertBody, if_pos (hpost x List.mem_cons_self)]
        rfl
      have hall : clistForeachAll (clistForeachAdd e x pre.getLast? c) pre.getLast? = false :=
        clistForeachAdd_all h
      rw [Program.run_bind_ok (clistForeach_break (fun v _ => v) h.ring hb rfl (fun _ _ => rfl)
        (.of_forall hbody) hdone)]
      simp [hall, clistPlace]

omit [DecidableEq α] in
/-- A list in order splits at the place of a key. -/
theorem sorted_split (hl : l.Pairwise fun x y => key x ≤ key y) (a : κ) :
    ∃ pre post, l = pre ++ post ∧ (∀ x ∈ pre, key x ≤ a) ∧ ∀ x ∈ post, a < key x := by
  obtain ⟨pre, post, hsplit, hpre, hpost⟩ := exists_split (P := fun x => key x ≤ a)
    (hl.imp fun hxy hy => hxy.trans hy)
  exact ⟨pre, post, hsplit, hpre, fun x hx => not_le.mp (hpost x hx)⟩

end Run

/-- A node is linked once, behind every key that is not greater and before every greater one, the
others staying as they are, and the loop of `insertBlocked` leaves the same links and the same tail
pointer as that of `p0test`. -/
theorem sorted_insertion :
    (∀ (c : Clist α) l bound (key : α → κ) e scan tmp, c.Repr l → l.length ≤ bound →
      l.Pairwise (fun x y => key x ≤ key y) → e ∉ l →
      ∃ pre post c', l = pre ++ post ∧ (∀ x ∈ pre, key x ≤ key e) ∧ (∀ x ∈ post, key e < key x) ∧
        (clistSortedInsert bound key e scan tmp : Program (Clist α) χ Fault Unit).run c =
        .ok () c' ∧
        c'.Repr (pre ++ e :: post) ∧ ∀ x ∉ l, x ≠ e → c'.link x = c.link x) ∧
    ∀ n (m : Links n) l s scan tmp, Ring m.sLink m.aslh l →
      l.Pairwise (fun d e => m.sSemAdd d ≤ m.sSemAdd e) → s ∉ l →
      ∃ c', (clistSortedInsert maxproc m.sSemAdd s scan tmp :
          Program (Clist Semd) χ Fault Unit).run ⟨m.sLink, m.aslh⟩ = .ok () c' ∧
        (linkSemd s : Program (Links n) χ Fault Unit).run m =
          .ok () { m with sLink := c'.link, aslh := c'.tail } := by
  refine ⟨fun c l bound key e scan tmp h hb hl he => ?_, fun n m l s scan tmp h hl hs => ?_⟩
  · obtain ⟨pre, post, rfl, hpre, hpost⟩ := sorted_split hl (key e)
    refine ⟨pre, post, clistPlace e pre post c, rfl, hpre, hpost,
      clistSortedInsert_run h hb hpre hpost, clistPlace_repr h he, ?_⟩
    exact fun x hx hxe => clistPlace_link h hx hxe
  · have hb : l.length ≤ maxproc := by simpa using List.Nodup.length_le_card h.nodup
    obtain ⟨pre, post, rfl, hpre, hpost⟩ := sorted_split hl (m.sSemAdd s)
    refine ⟨clistPlace s pre post ⟨m.sLink, m.aslh⟩, ?_, linkSemd_run h hb hpre hpost⟩
    exact clistSortedInsert_run (c := ⟨m.sLink, m.aslh⟩) h hb hpre hpost

/-- A node with a key that is there already. -/
theorem sorted_insertion_three : ∃ pre post, ∃ c' : Clist (Fin 4), [0, 1, 2] = pre ++ post ∧
    (∀ x ∈ pre, (![1, 2, 3, 2] : Fin 4 → ℕ) x ≤ 2) ∧
    (∀ x ∈ post, 2 < (![1, 2, 3, 2] : Fin 4 → ℕ) x) ∧
    (clistSortedInsert 3 ![1, 2, 3, 2] 3 none none : Program (Clist (Fin 4)) Empty Fault Unit).run
      ⟨![some 1, some 2, some 0, none], some 2⟩ = .ok () c' ∧
    c'.Repr (pre ++ 3 :: post) := by
  obtain ⟨pre, post, c', hsplit, hpre, hpost, hrun, hrepr, -⟩ := (sorted_insertion (χ := Empty)).1
    (⟨![some 1, some 2, some 0, none], some 2⟩ : Clist (Fin 4)) [0, 1, 2] 3
    (![1, 2, 3, 2] : Fin 4 → ℕ) 3 none none ⟨by decide, rfl, rfl, rfl, rfl, rfl⟩ (by decide)
    (by decide) (by decide)
  exact ⟨pre, post, c', hsplit, hpre, hpost, hrun, hrepr⟩

end JaeOS
