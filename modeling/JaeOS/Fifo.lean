import JaeOS.Transition

/-!
# Queues served in order

What it means for an element that waits in a queue that nobody overtakes it: those served while it
waits are, in their order, among those who were ahead of it. The relation is closed under joining,
leaving and serving the first, and so, step by step, under the runs of a system in which the element
stays.
-/

open Transition

namespace Fifo

variable {α : Type*} [DecidableEq α] {p x : α} {l l' q q' q'' : List α}

def ahead (p : α) (q : List α) : List α := q.takeWhile (· ≠ p)

/-- `p` is still there in `q'`, and between `q` and `q'` those of `l` have been served: they, and
those who are ahead of `p` now, were ahead of it, in this order. -/
structure KeepsTurn (p : α) (l q q' : List α) : Prop where
  mem : p ∈ q'
  order : (l ++ ahead p q').Sublist (ahead p q)

@[simp] theorem ahead_nil : ahead p [] = [] := rfl

@[simp] theorem ahead_cons_self : ahead p (p :: q) = [] := by
  simp [ahead]

theorem ahead_cons_of_ne (h : x ≠ p) : ahead p (x :: q) = x :: ahead p q := by
  simp [ahead, h]

theorem ahead_append_of_notMem (h : p ∉ l) : ahead p (l ++ q) = l ++ ahead p q := by
  induction l with
  | nil => rfl
  | cons x l ih =>
      have hx : x ≠ p := fun he => h (he ▸ List.mem_cons_self)
      rw [List.cons_append, ahead_cons_of_ne hx, ih fun hm => h (List.mem_cons_of_mem x hm),
        List.cons_append]

theorem ahead_append_of_mem (h : p ∈ q) : ahead p (q ++ l) = ahead p q := by
  induction q with
  | nil => cases h
  | cons x q ih =>
      by_cases hx : x = p
      · subst hx
        rw [List.cons_append, ahead_cons_self, ahead_cons_self]
      · have hq : p ∈ q := (List.mem_cons.mp h).resolve_left (Ne.symm hx)
        rw [List.cons_append, ahead_cons_of_ne hx, ahead_cons_of_ne hx, ih hq]

theorem ahead_append_self (h : p ∈ q) : ∃ rest, q = ahead p q ++ p :: rest := by
  induction q with
  | nil => cases h
  | cons x q ih =>
      by_cases hx : x = p
      · subst hx
        exact ⟨q, by rw [ahead_cons_self, List.nil_append]⟩
      · obtain ⟨rest, hrest⟩ := ih ((List.mem_cons.mp h).resolve_left (Ne.symm hx))
        refine ⟨rest, ?_⟩
        rw [ahead_cons_of_ne hx, List.cons_append, ← hrest]

theorem ahead_subset : ahead p q ⊆ q := (List.takeWhile_sublist _).subset

theorem length_ahead : (ahead p q).length = q.idxOf p := by
  induction q with
  | nil => rfl
  | cons x q ih =>
      by_cases hx : x = p
      · subst hx
        rw [ahead_cons_self, List.idxOf_cons_self, List.length_nil]
      · rw [ahead_cons_of_ne hx, List.length_cons, ih, List.idxOf_cons_ne _ hx]

/-- Those ahead of `p` who leave leave the others in their order. -/
theorem ahead_sublist (h : q'.Sublist q) (hq : q.Nodup) (hp : p ∈ q') :
    (ahead p q').Sublist (ahead p q) := by
  induction h with
  | slnil => cases hp
  | @cons q' q x h ih =>
      obtain ⟨hx, hnodup⟩ := List.nodup_cons.mp hq
      have hxp : x ≠ p := fun he => hx (he ▸ h.subset hp)
      rw [ahead_cons_of_ne hxp]
      exact (ih hnodup hp).cons x
  | @cons_cons q' q x h ih =>
      by_cases hxp : x = p
      · subst hxp
        rw [ahead_cons_self]
        exact List.nil_sublist _
      · obtain ⟨-, hnodup⟩ := List.nodup_cons.mp hq
        rw [ahead_cons_of_ne hxp, ahead_cons_of_ne hxp]
        exact (ih hnodup ((List.mem_cons.mp hp).resolve_left (Ne.symm hxp))).cons_cons x

/-! ### What a queue does -/

theorem KeepsTurn.refl (h : p ∈ q) : KeepsTurn p [] q q := ⟨h, List.Sublist.refl _⟩

theorem KeepsTurn.trans (h : KeepsTurn p l q q') (h' : KeepsTurn p l' q' q'') :
    KeepsTurn p (l ++ l') q q'' := by
  refine ⟨h'.mem, ?_⟩
  rw [List.append_assoc]
  exact ((List.Sublist.refl l).append h'.order).trans h.order

theorem KeepsTurn.join (h : p ∈ q) : KeepsTurn p [] q (q ++ l) := by
  refine ⟨List.mem_append_left l h, ?_⟩
  rw [List.nil_append, ahead_append_of_mem h]

theorem KeepsTurn.leave (h : q'.Sublist q) (hq : q.Nodup) (hp : p ∈ q') : KeepsTurn p [] q q' :=
  ⟨hp, ahead_sublist h hq hp⟩

theorem KeepsTurn.serve (hq : (l ++ q').Nodup) (hp : p ∈ q') : KeepsTurn p l (l ++ q') q' := by
  have hl : p ∉ l := fun hm => (List.nodup_append'.mp hq).2.2 hm hp
  refine ⟨hp, ?_⟩
  rw [ahead_append_of_notMem hl]

/-- As many are served while `p` waits as it comes nearer to the front, or fewer. -/
theorem KeepsTurn.length_le (h : KeepsTurn p l q q') : q'.idxOf p + l.length ≤ q.idxOf p := by
  have hle := h.order.length_le
  rw [List.length_append, length_ahead, length_ahead] at hle
  omega

/-! ### Runs -/

variable {σ ε : Type*} {S : System σ ε} {C : σ → ε → Prop} {queue : σ → List α} {s t : σ}
  {tr : List (σ × ε × σ)}

/-- A run from `s` in which `p` is in the queue all the time, with its steps. -/
inductive Stays (S : System σ ε) (C : σ → ε → Prop) (queue : σ → List α) (p : α) (s : σ) :
    List (σ × ε × σ) → σ → Prop where
  | start (h : p ∈ queue s) : Stays S C queue p s [] s
  | step {tr : List (σ × ε × σ)} {t u : σ} {e : ε} (h : Stays S C queue p s tr t) (hc : C t e)
      (hs : S.step t e u) (hp : p ∈ queue u) : Stays S C queue p s (tr ++ [(t, e, u)]) u

omit [DecidableEq α] in
theorem Stays.mem (h : Stays S C queue p s tr t) : p ∈ queue t := by
  cases h with
  | start h => exact h
  | step _ _ _ hp => exact hp

omit [DecidableEq α] in
theorem Stays.reach (h : Stays S C queue p s tr t) (hs : Reach S C s) : Reach S C t := by
  induction h with
  | start => exact hs
  | step _ hc hstep _ ih => exact .step ih hc hstep

omit [DecidableEq α] in
theorem Stays.mono {C' : σ → ε → Prop} (hC : ∀ s e, C s e → C' s e) (h : Stays S C queue p s tr t) :
    Stays S C' queue p s tr t := by
  induction h with
  | start h => exact .start h
  | step _ hc hstep hp ih => exact .step ih (hC _ _ hc) hstep hp

/-- If no step lets anybody overtake, no run does. -/
theorem Stays.keepsTurn {served : σ × ε × σ → List α} (hs : Reach S C s)
    (hstep : ∀ t e u, Reach S C t → C t e → S.step t e u → p ∈ queue t → p ∈ queue u →
      KeepsTurn p (served (t, e, u)) (queue t) (queue u))
    (h : Stays S C queue p s tr t) : KeepsTurn p (tr.flatMap served) (queue s) (queue t) := by
  induction h with
  | start h => exact .refl h
  | step h hc hst hp ih =>
      rw [List.flatMap_append, List.flatMap_singleton]
      exact ih.trans (hstep _ _ _ (h.reach hs) hc hst h.mem hp)

omit [DecidableEq α] in
theorem Stays.forall_mem {P : σ × ε × σ → Prop} (hs : Reach S C s)
    (hstep : ∀ t e u, Reach S C t → C t e → S.step t e u → p ∈ queue t → p ∈ queue u → P (t, e, u))
    (h : Stays S C queue p s tr t) : ∀ x ∈ tr, P x := by
  induction h with
  | start => exact fun x hx => nomatch hx
  | step h hc hst hp ih =>
      intro x hx
      rcases List.mem_append.mp hx with hx | hx
      · exact ih x hx
      · obtain rfl := List.mem_singleton.mp hx
        exact hstep _ _ _ (h.reach hs) hc hst h.mem hp

omit [DecidableEq α] in
/-- A number that every step lowers by what it adds is lowered by the run by all that is added. -/
theorem Stays.sum_le {r : σ → ℤ} {c : σ × ε × σ → ℤ} (hs : Reach S C s)
    (hstep : ∀ t e u, Reach S C t → C t e → S.step t e u → p ∈ queue t → p ∈ queue u →
      r u + c (t, e, u) ≤ r t)
    (h : Stays S C queue p s tr t) : r t + (tr.map c).sum ≤ r s := by
  induction h with
  | start => simp
  | @step tr t u e h hc hst hp ih =>
      have hone := hstep _ _ _ (h.reach hs) hc hst h.mem hp
      rw [List.map_append, List.sum_append, List.map_singleton, List.sum_singleton]
      omega

omit [DecidableEq α] in
/-- As many are served as there are steps that serve somebody. -/
theorem Stays.length_served {served : σ × ε × σ → List α} {serves : σ × ε × σ → Bool}
    (hs : Reach S C s)
    (hstep : ∀ t e u, Reach S C t → C t e → S.step t e u → p ∈ queue t →
      (served (t, e, u)).length = (serves (t, e, u)).toNat)
    (h : Stays S C queue p s tr t) : (tr.flatMap served).length = tr.countP serves := by
  induction h with
  | start => rfl
  | step h hc hst hp ih =>
      rw [List.flatMap_append, List.flatMap_singleton, List.length_append, List.countP_append, ih,
        hstep _ _ _ (h.reach hs) hc hst h.mem, List.countP_singleton]
      cases serves _ <;> rfl

def stay (f : σ → ε → Option σ) (C : σ → ε → Prop) [∀ s e, Decidable (C s e)] (queue : σ → List α)
    (p : α) :
    List ε → σ → List (σ × ε × σ) → Option (List (σ × ε × σ) × σ)
  | [], s, tr => some (tr, s)
  | e :: es, s, tr =>
    if C s e then (f s e).bind fun u =>
      if p ∈ queue u then stay f C queue p es u (tr ++ [(s, e, u)]) else none
    else none

theorem Stays.follow {f : σ → ε → Option σ} [∀ s e, Decidable (C s e)] {es : List ε}
    {x : List (σ × ε × σ) × σ}
    (hf : ∀ s e s', f s e = some s' → S.step s e s') (h : Stays S C queue p s tr t)
    (hrun : stay f C queue p es t tr = some x) : Stays S C queue p s x.1 x.2 := by
  induction es generalizing t tr with
  | nil =>
      obtain rfl := Option.some.inj hrun
      exact h
  | cons e es ih =>
      rw [stay] at hrun
      split at hrun
      · next hc =>
        obtain ⟨u, hu, hrest⟩ := Option.bind_eq_some_iff.mp hrun
        split at hrest
        · next hp => exact ih (.step h hc (hf t e u hu) hp) hrest
        · cases hrest
      · cases hrun

end Fifo
