import Mathlib.Data.List.Basic
import Mathlib.Data.List.Infix
import Mathlib.Logic.Function.Basic

/-!
# Messages sent in turns

Parties send messages item by item over one channel. If nobody begins while another one has items
left, and nobody begins any more once a party has gone away in the middle of its message, then the
channel carries the messages one after the other, in the order in which they were begun; the last
one may be incomplete.
-/

namespace Turns

variable {P α : Type*} [DecidableEq P]

abbrev Sending (P α : Type*) := P → Option (List α × List α)

def idle : Sending P α := fun _ => none

/-- The messages begun and the items sent agree: everything has been sent, or all but what `p` has
left, or the last message is torn for good. -/
inductive Whole : Sending P α → Bool → List (List α) → List α → Prop where
  | quiet (ms : List (List α)) : Whole idle false ms ms.flatten
  | busy (ms : List (List α)) (p : P) (d r : List α) :
      Whole (Function.update idle p (some (d, r))) false (ms ++ [d ++ r]) (ms.flatten ++ d)
  | torn (ms : List (List α)) (d r : List α) : Whole idle true (ms ++ [d ++ r]) (ms.flatten ++ d)

variable {f : Sending P α} {b : Bool} {ms : List (List α)} {out d r : List α} {p q : P} {x : α}

/-- All messages but the last one are complete. -/
theorem Whole.complete (h : Whole f b ms out) : ms.dropLast.flatten <+: out := by
  cases h with
  | quiet =>
      refine ⟨ms.getLast?.getD [], ?_⟩
      cases hlast : ms.getLast? with
      | none =>
          obtain rfl := List.getLast?_eq_none_iff.mp hlast
          rfl
      | some m =>
          obtain ⟨l, rfl⟩ := List.getLast?_eq_some_iff.mp hlast
          simp
  | busy =>
      rw [List.dropLast_concat]
      exact List.prefix_append _ _
  | torn =>
      rw [List.dropLast_concat]
      exact List.prefix_append _ _

/-- Nothing else is sent. -/
theorem Whole.out_prefix (h : Whole f b ms out) : out <+: ms.flatten := by
  cases h with
  | quiet => exact List.prefix_rfl
  | busy ms p d r => exact ⟨r, by simp⟩
  | torn ms d r => exact ⟨r, by simp⟩

/-- If nobody is sending and nothing is torn, everything has been sent. -/
theorem Whole.sent (h : Whole f false ms out) (hidle : f = idle) : out = ms.flatten := by
  cases h with
  | quiet => rfl
  | busy ms t d r =>
      have hself := congrFun hidle t
      rw [Function.update_self] at hself
      cases hself

/-- Only one party at a time is sending. -/
theorem Whole.unique (h : Whole f b ms out) (hp : f p ≠ none) (hq : f q ≠ none) : p = q := by
  cases h with
  | quiet => exact absurd rfl hp
  | busy ms t d r =>
      have hone : ∀ {u : P}, Function.update (idle : Sending P α) t (some (d, r)) u ≠ none →
          u = t := by
        intro u hu
        by_contra hut
        exact hu (Function.update_of_ne hut ..)
      rw [hone hp, hone hq]
  | torn => exact absurd rfl hp

/-- A party that is sending has begun the last message. -/
theorem Whole.of_sending (h : Whole f b ms out) (hp : f p = some (d, r)) :
    f = Function.update idle p (some (d, r)) ∧ b = false ∧
      ∃ ms', ms = ms' ++ [d ++ r] ∧ out = ms'.flatten ++ d := by
  cases h with
  | quiet => cases hp
  | busy ms t d' r' =>
      obtain rfl : p = t := by
        by_contra hpt
        rw [Function.update_of_ne hpt] at hp
        cases hp
      rw [Function.update_self] at hp
      obtain ⟨rfl, rfl⟩ := Prod.mk.inj (Option.some.inj hp)
      exact ⟨rfl, rfl, ms, rfl, rfl⟩
  | torn => cases hp

theorem Whole.begin (h : Whole f false ms out) (hnone : f = idle) (p : P) (m : List α) :
    Whole (Function.update idle p (some ([], m))) false (ms ++ [m]) out := by
  cases h with
  | quiet =>
      have hbusy := Whole.busy ms p [] m
      rwa [List.append_nil] at hbusy
  | busy ms t d r =>
      have hself := congrFun hnone t
      rw [Function.update_self] at hself
      cases hself

theorem Whole.emit (h : Whole f b ms out) (hp : f p = some (d, x :: r)) :
    Whole (Function.update idle p (some (d ++ [x], r))) b ms (out ++ [x]) := by
  obtain ⟨-, rfl, ms', rfl, rfl⟩ := h.of_sending hp
  have hbusy := Whole.busy ms' p (d ++ [x]) r
  rwa [List.append_assoc, List.singleton_append, ← List.append_assoc] at hbusy

theorem Whole.finish (h : Whole f b ms out) (hp : f p = some (d, [])) :
    Whole (P := P) idle b ms out := by
  obtain ⟨-, rfl, ms', rfl, rfl⟩ := h.of_sending hp
  have hquiet := Whole.quiet (P := P) (ms' ++ [d])
  rw [List.append_nil]
  rwa [List.flatten_concat] at hquiet

/-- Who goes away in the middle leaves a torn message behind. -/
theorem Whole.leave (h : Whole f b ms out) (hp : f p = some (d, r)) :
    Whole (P := P) idle true ms out := by
  obtain ⟨-, -, ms', rfl, rfl⟩ := h.of_sending hp
  exact .torn ms' d r

end Turns
