import JaeOS.LinkForest
import JaeOS.Pcb

/-!
# What the functions of `pcb.c` do to queues and to the process tree

Each function is described on a ring of `p_list` or `p_siblings` links, or on the forest that the
pointers spell out, together with the pointers it leaves alone.
-/

open LinkRing LinkForest

namespace JaeOS

variable {n : ℕ} {χ : Type} {m : Links n} {p x : Fin n} {q : Option (Fin n)} {l : List (Fin n)}

def Links.family (m : Links n) : Family (Fin n) := ⟨m.pChildren, m.pSiblings, m.pParent⟩

/-! ### Allocation -/

theorem freePcb_ring (h : Ring m.pList m.pcbFree l) (hp : p ∉ l) :
    Ring (freePcb p m).pList (freePcb p m).pcbFree (l ++ [p]) :=
  clistEnqueue_repr (c := ⟨m.pList, m.pcbFree⟩) h hp

theorem freePcb_pList (h : Ring m.pList m.pcbFree l) (hx : x ∉ l) (hxp : x ≠ p) :
    (freePcb p m).pList x = m.pList x :=
  clistEnqueue_link (c := ⟨m.pList, m.pcbFree⟩) h hx hxp

theorem allocPcb_nil {m : Mem n} (h : Ring m.pList m.pcbFree []) (tmpAddr : Word) :
    (allocPcb tmpAddr : Program (Mem n) χ Fault _).run m = .ok none m := by
  have hnil : m.pcbFree = none := h.tail_none_iff.mpr rfl
  simp [allocPcb, hnil]

/-- The oldest free PCB is handed out, reset. -/
theorem allocPcb_run {m : Mem n} (h : Ring m.pList m.pcbFree (p :: l)) (tmpAddr : Word) :
    ∃ link tail, (allocPcb tmpAddr : Program (Mem n) χ Fault _).run m =
        .ok (some p) (resetPcb tmpAddr p { m with pList := link, pcbFree := tail }) ∧
      Ring (Function.update link p none) tail l ∧ ∀ x ∉ p :: l, link x = m.pList x := by
  have hrepr : Clist.Repr ⟨m.pList, m.pcbFree⟩ (p :: l) := h
  obtain ⟨c, hdeq, hmoves⟩ := clistDequeue_cons (σ := Mem n) (χ := χ) hrepr
  have hne : ¬ m.pcbFree = none := fun he => by cases h.tail_none_iff.mp he
  refine ⟨c.link, c.tail, ?_, ?_, hmoves.frame⟩
  · unfold allocPcb
    simp only [Program.run_gets_bind, if_neg hne]
    rw [Program.run_bind_ok (clistHead_cons hrepr), Program.run_bind_ok (hdeq m)]
    rfl
  · exact Ring.update hmoves.repr (List.nodup_cons.mp h.nodup).1

/-! ### Process queues -/

theorem insertProcQ_ring (h : Ring m.pList q l) (hp : p ∉ l) :
    Ring (insertProcQ q p m).2.pList (insertProcQ q p m).1 (l ++ [p]) :=
  clistEnqueue_repr (c := ⟨m.pList, q⟩) h hp

theorem insertProcQ_pList (h : Ring m.pList q l) (hx : x ∉ l) (hxp : x ≠ p) :
    (insertProcQ q p m).2.pList x = m.pList x :=
  clistEnqueue_link (c := ⟨m.pList, q⟩) h hx hxp

theorem removeProcQ_nil (h : Ring m.pList q []) :
    (removeProcQ q : Program (Links n) χ Fault _).run m = .ok (none, q) m := by
  have hemp := (clistEmpty_iff (c := ⟨m.pList, q⟩) h).mpr rfl
  simp [removeProcQ, hemp]

theorem removeProcQ_run (h : Ring m.pList q (p :: l)) :
    ∃ link tail, (removeProcQ q : Program (Links n) χ Fault _).run m =
        .ok (some p, tail) { m with pList := link } ∧
      Ring link tail l ∧ ∀ x ∉ p :: l, link x = m.pList x := by
  have hrepr : Clist.Repr ⟨m.pList, q⟩ (p :: l) := h
  obtain ⟨c, hdeq, hmoves⟩ := clistDequeue_cons (σ := Links n) (χ := χ) hrepr
  have hemp : ¬ clistEmpty (⟨m.pList, q⟩ : Clist (Fin n)) = true := fun he =>
    nomatch (clistEmpty_iff hrepr).mp he
  refine ⟨c.link, c.tail, ?_, hmoves.repr, hmoves.frame⟩
  unfold removeProcQ
  simp only [Program.run_gets_bind, if_neg hemp]
  rw [Program.run_bind_ok (clistHead_cons hrepr), Program.run_bind_ok (hdeq m)]
  rfl

theorem headProcQ_run (h : Ring m.pList q l) :
    (headProcQ q : Program (Links n) χ Fault _).run m = .ok l.head? m := by
  have hrepr : Clist.Repr ⟨m.pList, q⟩ l := h
  simp only [headProcQ, Program.run_gets_bind]
  cases l with
  | nil =>
      rw [if_pos ((clistEmpty_iff hrepr).mpr rfl)]
      rfl
  | cons p l =>
      have hemp : ¬ clistEmpty (⟨m.pList, q⟩ : Clist (Fin n)) = true :=
        fun he => List.cons_ne_nil p l ((clistEmpty_iff hrepr).mp he)
      rw [if_neg hemp, Program.run_bind_ok (clistHead_cons hrepr)]
      rfl

theorem queue_length_le (h : Ring m.pList q l) : l.length ≤ n := by
  have hcard := List.Nodup.length_le_card h.nodup
  simpa using hcard

theorem outProcQBody_skip {y : Fin n} (hy : y ≠ p) (vars : Option (Fin n) × Option (Fin n))
    (tmp : Option (Fin n)) :
    (outProcQBody p vars y tmp : Program (Links n) χ Fault _).run m = .ok (.yield vars) m := by
  simp [outProcQBody, hy]

/-- `outProcQ` deletes as `clist_delete` does. -/
theorem outProcQ_delete (h : Ring m.pList q l) (p : Fin n) :
    ∃ c, (∀ s : Links n, (clistDelete n p ⟨m.pList, q⟩ : Program (Links n) χ Fault _).run s =
        .ok (if p ∈ l then 0 else 1, c) s) ∧
      Clist.Moves ⟨m.pList, q⟩ c l (l.erase p) ∧ (p ∉ l → c = ⟨m.pList, q⟩) ∧
      (outProcQ q p : Program (Links n) χ Fault _).run m =
        .ok (if p ∈ l then some p else none, c.tail) { m with pList := c.link } := by
  have hrepr : Clist.Repr ⟨m.pList, q⟩ l := h
  obtain ⟨c, o, hdel, hmoves, habsent, hpresent⟩ := clistForeach_scanDelete (s := m) (χ := χ)
    Links.pList (fun _ => pure q) (outProcQBody p) (none, q) none none hrepr (queue_length_le h) rfl
    (fun _ => rfl) (fun v y o hy => outProcQBody_skip hy v o)
  refine ⟨c, hdel, hmoves, fun hp => (habsent hp).1, ?_⟩
  unfold outProcQ
  by_cases hp : p ∈ l
  · obtain ⟨hrun, hloop⟩ := hpresent hp
    have hbody : (outProcQBody p (none, q) p o : Program (Links n) χ Fault _).run m =
        .ok (.done (some p, c.tail)) { m with pList := c.link } := by
      simp only [outProcQBody, if_true, Program.run_gets_bind]
      rw [Program.run_bind_ok (hrun m)]
      rfl
    rw [Program.run_bind_ok (hloop _ _ hbody), if_pos hp]
    rfl
  · obtain ⟨rfl, a, b, hloop⟩ := habsent hp
    rw [Program.run_bind_ok hloop, if_neg hp]
    rfl

theorem outProcQ_absent (h : Ring m.pList q l) (hp : p ∉ l) :
    (outProcQ q p : Program (Links n) χ Fault _).run m = .ok (none, q) m := by
  obtain ⟨c, -, -, hc, hrun⟩ := outProcQ_delete (χ := χ) h p
  rw [hrun, hc hp, if_neg hp]

theorem outProcQ_run (h : Ring m.pList q l) (hp : p ∈ l) :
    ∃ link tail, (outProcQ q p : Program (Links n) χ Fault _).run m =
        .ok (some p, tail) { m with pList := link } ∧
      Ring link tail (l.erase p) ∧ ∀ x ∉ l, link x = m.pList x := by
  obtain ⟨c, -, hmoves, -, hrun⟩ := outProcQ_delete (χ := χ) h p
  rw [if_pos hp] at hrun
  exact ⟨c.link, c.tail, hrun, hmoves.repr, hmoves.frame⟩

def RelinksOnly (p : Fin n) (m m' : Links n) : Prop :=
  ∃ link, m' = { m with pList := link } ∧ ∀ x, m.pList x ≠ some p → link x = m.pList x

/-- On any heap the deletion writes the link of the tail or of the trailing cursor, provided that
this cursor is the node the scan came from. -/
theorem clistForeachDelete_relinks {link : Fin n → Option (Fin n)} {tmp : Option (Fin n)}
    (htmp : some p = (match tmp with | none => q.bind link | some z => link z)) :
    Program.Triple (fun s => s = m)
      (clistForeachDelete p tmp ⟨link, q⟩ : Program (Links n) χ Fault _)
      (fun c s => s = m ∧ ∀ x, link x ≠ some p → c.link x = link x) (fun _ _ => False)
      (fun _ => True) := by
  have hwrite : ∀ z (o : Option (Fin n)), link z = some p →
      ∀ x, link x ≠ some p → Function.update link z o x = link x := by
    intro z o hz x hx
    refine Function.update_of_ne ?_ ..
    rintro rfl
    exact hx hz
  rintro s rfl
  unfold clistForeachDelete clistHead
  cases q with
  | none => trivial
  | some t =>
      cases hh : link t with
      | none => simp [hh]
      | some h =>
          simp only [Program.need_some, Program.run_bind_bind, Program.run_pure_bind, hh]
          by_cases hhp : h = p
          · rw [if_pos hhp, clistDequeue]
            by_cases hth : t = h
            · subst hth
              simp [hh]
            · simp only [Program.need_some, Program.run_pure_bind, hh, Option.some.injEq,
                if_neg hth]
              exact ⟨rfl, hwrite t _ (hhp ▸ hh)⟩
          · rw [if_neg hhp]
            cases tmp with
            | none => exact absurd (Option.some.inj (htmp.trans hh)).symm hhp
            | some z =>
                simp only [Program.need_some, Program.run_pure_bind, Program.run_ite]
                by_cases htp : t = p
                · rw [if_pos (congrArg some htp)]
                  exact ⟨rfl, hwrite z _ htmp.symm⟩
                · rw [if_neg fun he => htp (Option.some.inj he)]
                  exact ⟨rfl, hwrite z _ htmp.symm⟩

theorem outProcQBody_relinks (vars : Option (Fin n) × Option (Fin n)) {tmp : Option (Fin n)}
    (htmp : some p = (match tmp with | none => vars.2.bind m.pList | some z => m.pList z)) :
    Program.Triple (fun s => s = m) (outProcQBody p vars p tmp : Program (Links n) χ Fault _)
      (fun r m' => RelinksOnly p m m' ∧ ∃ v, r = .done v) (fun _ _ => False) (fun _ => True) := by
  simp only [outProcQBody, if_true]
  refine Program.Triple.bind (Q := fun c s => s = m ∧ c = ⟨m.pList, vars.2⟩)
    (Program.Triple.gets fun s hs => ⟨hs, by rw [hs]⟩) fun c => ?_
  rintro s ⟨rfl, rfl⟩
  refine Program.Triple.bind (clistForeachDelete_relinks htmp) (fun c' => ?_) s rfl
  rintro s' ⟨rfl, hc⟩
  exact ⟨⟨c'.link, rfl, hc⟩, _, rfl⟩

theorem outProcQLoop_relinks (k : ℕ) (scan tmp : Option (Fin n))
    (hscan : scan = (match tmp with | none => q.bind m.pList | some z => m.pList z)) :
    Program.Triple (fun s => s = m)
      (clistForeachLoop Links.pList (fun _ => pure q) (outProcQBody p) k (none, q) scan tmp :
        Program (Links n) χ Fault _)
      (fun _ m' => RelinksOnly p m m') (fun _ _ => False) (fun _ => True) := by
  induction k generalizing scan tmp with
  | zero => exact Program.Triple.fail trivial
  | succ k ih =>
      rintro s rfl
      simp only [clistForeachLoop, Program.run_pure_bind, Program.run_ite, Program.run_pure]
      by_cases htail : tmp = q
      · rw [if_pos htail]
        exact ⟨s.pList, rfl, fun _ _ => rfl⟩
      rw [if_neg htail]
      cases scan with
      | none => trivial
      | some y =>
          simp only [Program.need_some, Program.run_pure_bind]
          by_cases hy : y = p
          · subst hy
            refine Program.Triple.bind (outProcQBody_relinks (none, q) hscan) ?_ s rfl
            rintro r m' ⟨hr, v, rfl⟩
            exact hr
          · rw [Program.run_bind_ok (outProcQBody_skip hy _ _)]
            exact ih (s.pList y) (some y) rfl s rfl

/-- `outProcQ` on any heap, also on a queue that is no ring any more. -/
theorem outProcQ_relinks (m : Links n) (q : Option (Fin n)) (p : Fin n) :
    Program.Triple (fun s => s = m) (outProcQ q p : Program (Links n) χ Fault _)
      (fun _ m' => RelinksOnly p m m') (fun _ _ => False) (fun _ => True) := by
  unfold outProcQ clistForeach
  refine Program.Triple.bind (Q := fun _ m' => RelinksOnly p m m') ?_ fun _ =>
    Program.Triple.pure fun _ h => h
  rintro s rfl
  simp only [Program.run_pure_bind]
  cases q with
  | none => exact ⟨s.pList, rfl, fun _ _ => rfl⟩
  | some t => exact outProcQLoop_relinks (q := some t) (n + 1) (s.pList t) none rfl s rfl

/-! ### The process tree -/

variable {ks sibs : Forest (Fin n)} {c d : Fin n}

theorem emptyChild_iff (h : Kids m.family p ks) : emptyChild p m = true ↔ ks = .nil := by
  have hrepr : Clist.Repr ⟨m.pSiblings, m.pChildren p⟩ ks.roots := h.1
  rw [emptyChild, clistEmpty_iff hrepr]
  cases ks <;> simp [Forest.roots]

theorem removeChild_nil (h : Ring m.pSiblings (m.pChildren p) []) :
    (removeChild p : Program (Links n) χ Fault _).run m = .ok none m := by
  have hemp : emptyChild p m = true :=
    (clistEmpty_iff (c := ⟨m.pSiblings, m.pChildren p⟩) h).mpr rfl
  simp [removeChild, hemp]

theorem removeChild_run (h : Ring m.pSiblings (m.pChildren p) (c :: l)) :
    ∃ link tail, (removeChild p : Program (Links n) χ Fault _).run m =
        .ok (some c) { m with
          pParent := Function.update m.pParent c none
          pSiblings := link
          pChildren := Function.update m.pChildren p tail } ∧
      Ring link tail l ∧ (∀ x ∉ c :: l, link x = m.pSiblings x) ∧
      ∀ x, m.pSiblings x ≠ none → link x ≠ none := by
  have hrepr : Clist.Repr ⟨m.pSiblings, m.pChildren p⟩ (c :: l) := h
  obtain ⟨d, hdeq, hmoves⟩ := clistDequeue_cons (σ := Links n) (χ := χ) hrepr
  have hemp : ¬ emptyChild p m = true :=
    fun he => List.cons_ne_nil c l ((clistEmpty_iff hrepr).mp he)
  refine ⟨d.link, d.tail, ?_, hmoves.repr, hmoves.frame, hmoves.linked⟩
  unfold removeChild
  simp only [Program.run_gets_bind, if_neg hemp]
  rw [Program.run_bind_ok (clistHead_cons hrepr)]
  simp only [Program.run_modify_bind]
  rw [Program.run_bind_ok (hdeq _)]
  rfl

theorem outChild_root (h : m.pParent p = none) :
    (outChild p : Program (Links n) χ Fault _).run m = .ok none m := by
  simp [outChild, h]

theorem outChild_run (h : m.pParent p = some d) (hring : Ring m.pSiblings (m.pChildren d) l) :
    ∃ link tail, (outChild p : Program (Links n) χ Fault _).run m =
        .ok (some p) { m with
          pParent := Function.update m.pParent p none
          pSiblings := link
          pChildren := Function.update m.pChildren d tail } ∧
      Ring link tail (l.erase p) ∧ (∀ x ∉ l, link x = m.pSiblings x) ∧
      ∀ x, m.pSiblings x ≠ none → link x ≠ none := by
  have hrepr : Clist.Repr ⟨m.pSiblings, m.pChildren d⟩ l := hring
  have hlen : l.length ≤ n := by
    have hcard := List.Nodup.length_le_card hring.nodup
    simpa using hcard
  obtain ⟨c, hdel, hmoves, -⟩ := clistDelete_repr (σ := Links n) (χ := χ) (e := p) hrepr hlen
  refine ⟨c.link, c.tail, ?_, hmoves.repr, hmoves.frame, hmoves.linked⟩
  unfold outChild
  simp only [Program.run_gets_bind, h, Program.run_modify_bind]
  rw [Program.run_bind_ok (hdel _)]
  rfl

theorem insertChild_ring (h : Ring m.pSiblings (m.pChildren d) l) (hp : p ∉ l) :
    Ring (insertChild d p m).pSiblings ((insertChild d p m).pChildren d) (l ++ [p]) := by
  simp only [insertChild, Function.update_self]
  exact clistEnqueue_repr (c := ⟨m.pSiblings, m.pChildren d⟩) h hp

theorem insertChild_pSiblings (h : Ring m.pSiblings (m.pChildren d) l) (hx : x ∉ l) (hxp : x ≠ p) :
    (insertChild d p m).pSiblings x = m.pSiblings x :=
  clistEnqueue_link (c := ⟨m.pSiblings, m.pChildren d⟩) h hx hxp

end JaeOS
