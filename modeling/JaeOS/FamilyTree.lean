import Mathlib

/-!
# Family trees

A family tree says who the parent of each member is and lists everybody's children in an order. It
is grown by one child at the end of a list and cut by taking a child out of its list; that it stays
a forest is part of its type.
-/

theorem Relation.TransGen.of_insert {α : Type*} {r s : α → α → Prop} {p q a b : α}
    (hs : ∀ x y, s x y → r x y ∨ x = p ∧ y = q) (hqp : ¬ Relation.ReflTransGen r q p)
    (h : Relation.TransGen s a b) :
    Relation.TransGen r a b ∨ Relation.ReflTransGen r a p ∧ Relation.ReflTransGen r q b := by
  induction h with
  | single hab =>
      rcases hs _ _ hab with hab | ⟨rfl, rfl⟩
      · exact Or.inl (.single hab)
      · exact Or.inr ⟨.refl, .refl⟩
  | tail _ hbc ih =>
      rcases hs _ _ hbc with hbc | ⟨rfl, rfl⟩
      · rcases ih with hab | ⟨hap, hqb⟩
        · exact Or.inl (hab.tail hbc)
        · exact Or.inr ⟨hap, hqb.tail hbc⟩
      · rcases ih with hab | ⟨-, hqb⟩
        · exact Or.inr ⟨hab.to_reflTransGen, .refl⟩
        · exact absurd hqb hqp

/-- One more pair closes no cycle unless it leads back. -/
theorem Relation.acyclic_insert {α : Type*} {r s : α → α → Prop} {p q : α}
    (hr : ∀ x, ¬ Relation.TransGen r x x) (hs : ∀ x y, s x y → r x y ∨ x = p ∧ y = q)
    (hqp : ¬ Relation.ReflTransGen r q p) (x : α) : ¬ Relation.TransGen s x x := by
  intro h
  rcases h.of_insert hs hqp with h | ⟨hxp, hqx⟩
  · exact hr x h
  · exact hqp (hqx.trans hxp)

/-- Parents, and the children of everybody in order. -/
structure FamilyTree (α : Type*) where
  parent : α → Option α
  children : α → List α
  mem_children : ∀ c q, c ∈ children q ↔ parent c = some q
  nodup : ∀ q, (children q).Nodup
  acyclic : ∀ x, ¬ Relation.TransGen (fun c q => parent c = some q) x x

namespace FamilyTree

variable {α : Type*} {t : FamilyTree α} {c p q : α}

def Under (t : FamilyTree α) : α → α → Prop :=
  Relation.ReflTransGen fun c q => t.parent c = some q

def orphans : FamilyTree α where
  parent _ := none
  children _ := []
  mem_children := by simp
  nodup _ := List.nodup_nil
  acyclic x h := by
    obtain ⟨y, hy, -⟩ := (Relation.TransGen.head'_iff).mp h
    cases hy

theorem eq_of_mem_children {q' : α} (h : c ∈ t.children q) (h' : c ∈ t.children q') : q = q' := by
  have hq := (t.mem_children c q).mp h
  have hq' := (t.mem_children c q').mp h'
  exact Option.some.inj (hq.symm.trans hq')

theorem not_mem_children (h : t.parent c = none) (q : α) : c ∉ t.children q := by
  intro hc
  rw [t.mem_children, h] at hc
  cases hc

variable [DecidableEq α]

def adopt (t : FamilyTree α) (q p : α) (hp : t.parent p = none) (hq : ¬ t.Under q p) :
    FamilyTree α where
  parent := Function.update t.parent p (some q)
  children := Function.update t.children q (t.children q ++ [p])
  mem_children c q' := by
    have hnot := not_mem_children hp
    by_cases hcp : c = p
    · subst hcp
      by_cases hqq : q' = q
      · simp [hqq]
      · simp [Function.update_of_ne hqq, hnot q', Ne.symm hqq]
    · rw [Function.update_of_ne hcp, ← t.mem_children]
      by_cases hqq : q' = q
      · simp [hqq, hcp]
      · rw [Function.update_of_ne hqq]
  nodup q' := by
    by_cases hqq : q' = q
    · rw [hqq, Function.update_self]
      simpa using List.Nodup.concat (not_mem_children hp q) (t.nodup q)
    · rw [Function.update_of_ne hqq]
      exact t.nodup q'
  acyclic := by
    apply Relation.acyclic_insert (p := p) (q := q) t.acyclic
    · intro x y hxy
      by_cases hxp : x = p
      · rw [hxp, Function.update_self] at hxy
        exact Or.inr ⟨hxp, (Option.some.inj hxy).symm⟩
      · rw [Function.update_of_ne hxp] at hxy
        exact Or.inl hxy
    · exact hq

def detach (t : FamilyTree α) (c : α) : FamilyTree α where
  parent := Function.update t.parent c none
  children q := (t.children q).erase c
  mem_children x q := by
    by_cases hxc : x = c
    · subst hxc
      simp [(t.nodup q).not_mem_erase]
    · rw [Function.update_of_ne hxc, List.mem_erase_of_ne hxc, t.mem_children]
  nodup q := (t.nodup q).erase c
  acyclic x h := by
    have hsub : ∀ a b, Function.update t.parent c none a = some b → t.parent a = some b := by
      intro a b hab
      by_cases hac : a = c
      · rw [hac, Function.update_self] at hab
        cases hab
      · rwa [Function.update_of_ne hac] at hab
    exact t.acyclic x (Relation.TransGen.mono hsub x x h)

theorem detach_children (h : t.parent c = some q) :
    (t.detach c).children = Function.update t.children q ((t.children q).erase c) := by
  funext q'
  by_cases hqq : q' = q
  · rw [hqq, Function.update_self]
    rfl
  · rw [Function.update_of_ne hqq]
    apply List.erase_of_not_mem
    intro hc
    exact hqq (eq_of_mem_children hc ((t.mem_children c q).mpr h))

end FamilyTree
