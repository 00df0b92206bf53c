import Mathlib

/-!
# Timelines

A resource is used by one owner at a time. The spans of its use are listed newest first; they do not
overlap, so that all the owners together have had no more than the time that has gone by.
-/

structure Span (α : Type*) where
  owner : α
  start : ℕ
  stop : ℕ

namespace Span

variable {α : Type*}

def length (s : Span α) : ℕ := s.stop - s.start

def total (l : List (Span α)) : ℕ := (l.map length).sum

/-- The spans of `l` lie between `lo` and `hi` and do not overlap. -/
inductive Within (lo : ℕ) : ℕ → List (Span α) → Prop where
  | nil {hi : ℕ} (h : lo ≤ hi) : Within lo hi []
  | cons {hi : ℕ} {s : Span α} {l : List (Span α)} (hs : s.start ≤ s.stop) (hstop : s.stop ≤ hi)
      (h : Within lo s.start l) : Within lo hi (s :: l)

variable {lo hi hi' : ℕ} {l : List (Span α)} {s : Span α}

theorem Within.mono (h : Within lo hi l) (hle : hi ≤ hi') : Within lo hi' l := by
  cases h with
  | nil h => exact .nil (h.trans hle)
  | cons hs hstop h => exact .cons hs (hstop.trans hle) h

theorem Within.filter (h : Within lo hi l) (P : Span α → Bool) : Within lo hi (l.filter P) := by
  induction h with
  | nil h => exact .nil h
  | @cons hi s l hs hstop h ih =>
      rw [List.filter_cons]
      split
      · exact .cons hs hstop ih
      · exact ih.mono (hs.trans hstop)

theorem Within.total_le (h : Within lo hi l) : total l + lo ≤ hi := by
  induction h with
  | nil h => simpa [total] using h
  | @cons hi s l hs hstop h ih =>
      have hcons : total (s :: l) = s.length + total l := rfl
      rw [hcons, length]
      omega

theorem Within.start_le (h : Within lo hi l) (hs : s ∈ l) : s.start ≤ s.stop ∧ s.stop ≤ hi := by
  induction h with
  | nil h => cases hs
  | @cons hi t l ht hstop h ih =>
      rcases List.mem_cons.mp hs with rfl | hs
      · exact ⟨ht, hstop⟩
      · exact ⟨(ih hs).1, (ih hs).2.trans (ht.trans hstop)⟩

/-- An older span ends before a newer one starts. -/
theorem Within.pairwise (h : Within lo hi l) : l.Pairwise fun s t => t.stop ≤ s.start := by
  induction h with
  | nil h => exact .nil
  | @cons hi s l hs hstop h ih => exact .cons (fun t ht => (h.start_le ht).2) ih

variable [DecidableEq α] {p : α} {P : Span α → Bool}

def used (l : List (Span α)) (p : α) : ℕ := total (l.filter fun s => s.owner = p)

theorem used_cons_self (l : List (Span α)) (s : Span α) :
    used (s :: l) s.owner = s.length + used l s.owner := by
  rw [used, List.filter_cons_of_pos (by simp)]
  rfl

theorem used_cons_of_ne (l : List (Span α)) (h : p ≠ s.owner) : used (s :: l) p = used l p := by
  rw [used, List.filter_cons_of_neg (by simpa using h.symm)]
  rfl

/-- Nothing is dropped of what `p` has had. -/
theorem used_filter (h : ∀ s ∈ l, s.owner = p → P s) : used (l.filter P) p = used l p := by
  rw [used, used, List.filter_filter]
  congr 1
  apply List.filter_congr
  intro s hs
  by_cases hp : s.owner = p
  · simp [hp, h s hs hp]
  · simp [hp]

theorem used_eq_zero (h : ∀ s ∈ l, s.owner ≠ p) : used l p = 0 := by
  rw [used, List.filter_eq_nil_iff.mpr fun s hs => by simpa using h s hs]
  rfl

/-- No time is counted twice. -/
theorem sum_used [Fintype α] (l : List (Span α)) : ∑ p, used l p = total l := by
  induction l with
  | nil => exact Finset.sum_eq_zero fun p _ => rfl
  | cons s l ih =>
      have hcons : ∀ p, used (s :: l) p = (if p = s.owner then s.length else 0) + used l p := by
        intro p
        by_cases hp : p = s.owner
        · rw [hp, used_cons_self, if_pos rfl]
        · rw [used_cons_of_ne l hp, if_neg hp, Nat.zero_add]
      calc ∑ p, used (s :: l) p = ∑ p, ((if p = s.owner then s.length else 0) + used l p) :=
            Finset.sum_congr rfl fun p _ => hcons p
        _ = s.length + ∑ p, used l p := by
            rw [Finset.sum_add_distrib, Finset.sum_ite_eq' Finset.univ s.owner]
            simp
        _ = total (s :: l) := by
            rw [ih]
            rfl

theorem used_le_total [Fintype α] (l : List (Span α)) (p : α) : used l p ≤ total l := by
  rw [← sum_used l]
  exact Finset.single_le_sum (fun _ _ => Nat.zero_le _) (Finset.mem_univ p)

end Span
