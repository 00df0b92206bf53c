import Mathlib

/-!
# Rings of nodes threaded through a link field

A link field is a map from nodes to the node their pointer names. `Path next a l b` follows it
from the pointer `a` through the nodes `l` to the pointer `b`. A ring is given by a pointer to its
last node: `Ring next tail l` says that the nodes of `l`, head to tail, form a cycle. The rules
below say what one or two pointer writes make of a ring and which writes leave it alone.
-/

namespace LinkRing

variable {α : Type*} {next next' : α → Option α} {a b c : Option α} {x y : α} {l l₁ l₂ : List α}

def Path (next : α → Option α) : Option α → List α → Option α → Prop
  | a, [], b => a = b
  | a, x :: l, b => a = some x ∧ Path next (next x) l b

@[simp] theorem path_nil : Path next a [] b ↔ a = b := Iff.rfl

@[simp] theorem path_cons : Path next a (x :: l) b ↔ a = some x ∧ Path next (next x) l b := Iff.rfl

theorem path_append : Path next a (l₁ ++ l₂) b ↔ ∃ m, Path next a l₁ m ∧ Path next m l₂ b := by
  induction l₁ generalizing a with
  | nil => simp
  | cons x l ih => simp [ih, and_assoc]

theorem path_concat : Path next a (l ++ [x]) b ↔ Path next a l (some x) ∧ next x = b := by
  rw [path_append]
  constructor
  · rintro ⟨m, hl, rfl, hx⟩
    exact ⟨hl, hx⟩
  · rintro ⟨hl, hx⟩
    exact ⟨some x, hl, rfl, hx⟩

/-- A path only depends on the links of its own nodes. -/
theorem path_congr (h : ∀ x ∈ l, next' x = next x) : Path next' a l b ↔ Path next a l b := by
  induction l generalizing a with
  | nil => rfl
  | cons x l ih =>
      have hx : next' x = next x := h x List.mem_cons_self
      have hl : ∀ y ∈ l, next' y = next y := fun y hy => h y (List.mem_cons_of_mem x hy)
      rw [path_cons, path_cons, hx, ih hl]

/-- A link of a path stays on it or leads to its end. -/
theorem path_next_mem (h : Path next a l b) (hx : x ∈ l) :
    next x = b ∨ ∃ y ∈ l, next x = some y := by
  induction l generalizing a with
  | nil => cases hx
  | cons z l ih =>
      obtain ⟨-, hp⟩ := h
      rcases List.mem_cons.mp hx with rfl | hx
      · cases l with
        | nil => exact Or.inl hp
        | cons y l => exact Or.inr ⟨y, by simp, hp.1⟩
      · rcases ih hp hx with hb | ⟨y, hy, hn⟩
        · exact Or.inl hb
        · exact Or.inr ⟨y, List.mem_cons_of_mem z hy, hn⟩

instance Path.instDecidable [DecidableEq α] : ∀ a l b, Decidable (Path next a l b)
  | a, [], b => inferInstanceAs (Decidable (a = b))
  | a, x :: l, b =>
    have := Path.instDecidable (next x) l b
    inferInstanceAs (Decidable (a = some x ∧ Path next (next x) l b))

/-- The nodes of `l` form a cycle in this order, and `tail` points to the last of them. -/
structure Ring (next : α → Option α) (tail : Option α) (l : List α) : Prop where
  nodup : l.Nodup
  tail_eq : tail = l.getLast?
  path : Path next l.head? l l.head?

variable {tail : Option α} {t : α}

theorem ring_nil : Ring next none ([] : List α) :=
  ⟨List.nodup_nil, rfl, rfl⟩

theorem Ring.congr (h : Ring next tail l) (he : ∀ x ∈ l, next' x = next x) :
    Ring next' tail l :=
  ⟨h.nodup, h.tail_eq, (path_congr he).mpr h.path⟩

theorem Ring.eq_nil (h : Ring next none l) : l = [] := by
  have ht := h.tail_eq
  cases hl : l.getLast? with
  | none => exact List.getLast?_eq_none_iff.mp hl
  | some x => rw [hl] at ht; cases ht

theorem Ring.tail_none_iff (h : Ring next tail l) : tail = none ↔ l = [] := by
  rw [h.tail_eq, List.getLast?_eq_none_iff]

/-- A nonempty ring ends in the node its tail pointer names, whose link is the head. -/
theorem Ring.of_tail (h : Ring next (some t) l) :
    ∃ init, l = init ++ [t] ∧ t ∉ init ∧ next t = l.head? := by
  have ht : l.getLast? = some t := h.tail_eq.symm
  obtain ⟨init, rfl⟩ : ∃ init, l = init ++ [t] :=
    ⟨l.dropLast, (List.dropLast_append_getLast? t ht).symm⟩
  refine ⟨init, rfl, ?_, (path_concat.mp h.path).2⟩
  intro hmem
  exact (List.disjoint_of_nodup_append h.nodup) hmem List.mem_cons_self

theorem Ring.tail_mem (h : Ring next (some t) l) : t ∈ l := by
  obtain ⟨init, rfl, -, -⟩ := h.of_tail
  simp

theorem Ring.next_tail (h : Ring next (some t) l) : next t = l.head? := by
  obtain ⟨_, _, _, hn⟩ := h.of_tail
  exact hn

/-- Every link of a ring stays inside it. -/
theorem Ring.next_mem (h : Ring next tail l) (hx : x ∈ l) : ∃ y ∈ l, next x = some y := by
  rcases path_next_mem h.path hx with hn | hn
  · cases l with
    | nil => cases hx
    | cons y l => exact ⟨y, List.mem_cons_self, hn⟩
  · exact hn

theorem ring_singleton (h : next x = some x) : Ring next (some x) [x] :=
  ⟨List.nodup_singleton x, rfl, rfl, h⟩

theorem Ring.single_next (h : Ring next (some t) [x]) : t = x ∧ next x = some x := by
  have ht : x = t := Option.some.inj h.tail_eq.symm
  exact ⟨ht.symm, h.path.2⟩

/-! ### Pointer writes -/

variable [DecidableEq α]

theorem path_update (hx : x ∉ l) : Path (Function.update next x c) a l b ↔ Path next a l b := by
  apply path_congr
  intro y hy
  have hne : y ≠ x := fun h => hx (h ▸ hy)
  exact Function.update_of_ne hne c next

/-- Writing the link of the last node turns the end of the path. -/
theorem path_redirect (h : Path next a (l ++ [x]) b) (hx : x ∉ l) :
    Path (Function.update next x c) a (l ++ [x]) c := by
  obtain ⟨hl, -⟩ := path_concat.mp h
  exact path_concat.mpr ⟨(path_update hx).mpr hl, Function.update_self x c next⟩

theorem Ring.update (h : Ring next tail l) (hx : x ∉ l) :
    Ring (Function.update next x c) tail l :=
  ⟨h.nodup, h.tail_eq, (path_update hx).mpr h.path⟩

/-- Two writes append a node: its link to the head, the old tail's link to it. -/
theorem Ring.append (h : Ring next (some t) l) (hx : x ∉ l) :
    Ring (Function.update (Function.update next x (next t)) t (some x)) (some x) (l ++ [x]) := by
  obtain ⟨init, rfl, hti, hnt⟩ := h.of_tail
  have hxt : x ≠ t := fun he => hx (by simp [he])
  have hxi : x ∉ init := fun he => hx (by simp [he])
  have hhead : (init ++ [t] ++ [x]).head? = (init ++ [t]).head? := by cases init <;> rfl
  refine ⟨?_, by simp, ?_⟩
  · exact List.nodup_append.mpr ⟨h.nodup, List.nodup_singleton x, by
      rintro y hy z hz rfl
      exact hx (List.mem_singleton.mp hz ▸ hy)⟩
  · rw [hhead]
    apply path_concat.mpr
    constructor
    · exact path_redirect ((path_update hx).mpr h.path) hti
    · rw [Function.update_of_ne hxt, Function.update_self]
      exact hnt

/-- The same two writes prepend the node when the tail pointer is left alone. -/
theorem Ring.prepend (h : Ring next (some t) l) (hx : x ∉ l) :
    Ring (Function.update (Function.update next x (next t)) t (some x)) (some t) (x :: l) := by
  obtain ⟨init, rfl, hti, hnt⟩ := h.of_tail
  have hxt : x ≠ t := fun he => hx (by simp [he])
  refine ⟨List.nodup_cons.mpr ⟨hx, h.nodup⟩, ?_, rfl, ?_⟩
  · rw [← List.cons_append, List.getLast?_concat]
  · rw [Function.update_of_ne hxt, Function.update_self, hnt]
    exact path_redirect ((path_update hx).mpr h.path) hti

/-- Linking a node between two neighbours. -/
theorem Ring.insert {pre post : List α} {p s : α} (h : Ring next tail (pre ++ p :: s :: post))
    (hx : x ∉ pre ++ p :: s :: post) :
    Ring (Function.update (Function.update next x (some s)) p (some x)) tail
      (pre ++ p :: x :: s :: post) := by
  have hsplit : pre ++ p :: s :: post = (pre ++ [p]) ++ (s :: post) := by simp
  have hnd := h.nodup
  rw [hsplit] at hnd
  have hpd := List.disjoint_of_nodup_append hnd
  have hp1 : p ∉ pre := fun he =>
    (List.disjoint_of_nodup_append (List.nodup_append.mp hnd).1) he List.mem_cons_self
  have hp2 : p ∉ s :: post := hpd (by simp)
  have hxp : x ≠ p := fun he => hx (by simp [he])
  have hx1 : x ∉ pre ++ [p] := fun he => hx (by rw [hsplit]; exact List.mem_append_left _ he)
  have hx2 : x ∉ s :: post := fun he => hx (by rw [hsplit]; exact List.mem_append_right _ he)
  have hpath := h.path
  have hhead : (pre ++ p :: x :: s :: post).head? = (pre ++ p :: s :: post).head? := by
    cases pre <;> rfl
  rw [hsplit, path_append] at hpath
  obtain ⟨m, hleft, hright⟩ := hpath
  obtain ⟨rfl, -⟩ := id hright
  have heq : pre ++ p :: x :: s :: post = (pre ++ [p]) ++ ([x] ++ (s :: post)) := by simp
  refine ⟨?_, ?_, ?_⟩
  · rw [heq]
    refine List.nodup_append.mpr ⟨(List.nodup_append.mp hnd).1, ?_, ?_⟩
    · exact List.nodup_cons.mpr ⟨hx2, (List.nodup_append.mp hnd).2.1⟩
    · intro y hy z hz he
      subst he
      rcases List.mem_append.mp hz with hz | hz
      · exact hx1 (List.mem_singleton.mp hz ▸ hy)
      · exact hpd hy hz
  · rw [h.tail_eq, heq, hsplit]
    simp [List.getLast?_append, List.getLast?_cons]
  · rw [hhead, heq, hsplit, path_append]
    refine ⟨some x, path_redirect ((path_update hx1).mpr hleft) hp1, ?_⟩
    refine ⟨rfl, ?_⟩
    rw [Function.update_of_ne hxp, Function.update_self]
    exact (path_update hp2).mpr ((path_update hx2).mpr hright)

/-- Dropping the head of a longer ring is one write to the tail's link. -/
theorem Ring.dropHead {h' : α} (h : Ring next (some t) (x :: h' :: l)) :
    Ring (Function.update next t (next x)) (some t) (h' :: l) := by
  obtain ⟨init, hinit, hti, -⟩ := h.of_tail
  have hx : next x = some h' := h.path.2.1
  cases init with
  | nil => simp at hinit
  | cons y init =>
      obtain rfl : x = y := (List.cons.inj (hinit.trans (List.cons_append ..))).1
      have htail := h.tail_eq
      refine ⟨(List.nodup_cons.mp h.nodup).2, by simpa using htail, ?_⟩
      have hpath : Path next (some h') (h' :: l) (some x) := by
        have := h.path.2
        rwa [hx] at this
      have hti' : t ∉ init := fun he => hti (List.mem_cons_of_mem _ he)
      have hl' : h' :: l = init ++ [t] := (List.cons.inj (hinit.trans (List.cons_append ..))).2
      rw [hl'] at hpath ⊢
      have hhead : (init ++ [t]).head? = some h' := by rw [← hl']; rfl
      rw [hhead, hx]
      exact path_redirect hpath hti'

/-- Unlinking a node that is neither first nor last is one write to its predecessor. -/
theorem Ring.unlink {pre post : List α} {p s : α}
    (h : Ring next tail (pre ++ p :: x :: s :: post)) :
    Ring (Function.update next p (next x)) tail (pre ++ p :: s :: post) := by
  have hsplit : pre ++ p :: x :: s :: post = (pre ++ [p]) ++ (x :: (s :: post)) := by simp
  have hnd := h.nodup
  rw [hsplit] at hnd
  have hpd := List.disjoint_of_nodup_append hnd
  have hp1 : p ∉ pre := fun he =>
    (List.disjoint_of_nodup_append (List.nodup_append.mp hnd).1) he List.mem_cons_self
  have hp2 : p ∉ s :: post := fun he => hpd (by simp) (List.mem_cons_of_mem x he)
  have hpath := h.path
  rw [hsplit, path_append] at hpath
  obtain ⟨m, hleft, rfl, hright⟩ := hpath
  have hhead : (pre ++ p :: x :: s :: post).head? = (pre ++ p :: s :: post).head? := by
    cases pre <;> rfl
  have heq : pre ++ p :: s :: post = (pre ++ [p]) ++ (s :: post) := by simp
  refine ⟨?_, ?_, ?_⟩
  · exact h.nodup.sublist (by simp)
  · rw [h.tail_eq]
    simp [List.getLast?_append, List.getLast?_cons]
  · rw [← hhead, heq, hsplit, path_append]
    exact ⟨next x, path_redirect hleft hp1, (path_update hp2).mpr hright⟩

/-- Unlinking the last node also moves the tail pointer to its predecessor. -/
theorem Ring.unlinkLast {pre : List α} {p : α} (h : Ring next tail (pre ++ [p, x])) :
    Ring (Function.update next p (next x)) (some p) (pre ++ [p]) := by
  have hsplit : pre ++ [p, x] = (pre ++ [p]) ++ [x] := by simp
  have hnd := h.nodup
  rw [hsplit] at hnd
  have hp1 : p ∉ pre := fun he =>
    (List.disjoint_of_nodup_append (List.nodup_append.mp hnd).1) he List.mem_cons_self
  have hpath := h.path
  rw [hsplit] at hpath
  obtain ⟨hleft, hright⟩ := path_concat.mp hpath
  have hhead : (pre ++ [p, x]).head? = (pre ++ [p]).head? := by cases pre <;> rfl
  refine ⟨(List.nodup_append.mp hnd).1, by simp, ?_⟩
  rw [← hhead]
  have hgoal := path_redirect (c := next x) hleft hp1
  rw [hsplit, hright] at *
  exact hgoal

/-! ### Walking a ring -/

/-- The nodes met from a pointer up to and including `stop`, at most `fuel` of them. -/
def walk (next : α → Option α) (stop : α) : ℕ → Option α → List α
  | 0, _ => []
  | _ + 1, none => []
  | n + 1, some x => x :: if x = stop then [] else walk next stop n (next x)

def members (next : α → Option α) (fuel : ℕ) : Option α → List α
  | none => []
  | some t => walk next t fuel (next t)

theorem walk_path (h : Path next a (l ++ [t]) b) (ht : t ∉ l) {n : ℕ} (hn : l.length < n) :
    walk next t n a = l ++ [t] := by
  induction l generalizing a n with
  | nil =>
      obtain ⟨n, rfl⟩ := Nat.exists_eq_add_one_of_ne_zero (Nat.ne_of_gt hn)
      obtain ⟨rfl, -⟩ := h
      simp [walk]
  | cons x l ih =>
      obtain ⟨n, rfl⟩ := Nat.exists_eq_add_one_of_ne_zero (Nat.ne_of_gt (Nat.zero_lt_of_lt hn))
      obtain ⟨rfl, hp⟩ := h
      have hxt : x ≠ t := fun he => ht (by simp [he])
      have hl : t ∉ l := fun he => ht (List.mem_cons_of_mem x he)
      have hlen : l.length < n := by simpa using hn
      rw [walk, if_neg hxt, ih hp hl hlen]
      rfl

/-- On a ring the walk gives exactly its nodes. -/
theorem Ring.members_eq (h : Ring next tail l) {n : ℕ} (hn : l.length ≤ n) :
    members next n tail = l := by
  cases tail with
  | none => exact h.eq_nil ▸ rfl
  | some t =>
      obtain ⟨init, rfl, hti, hnt⟩ := h.of_tail
      have hlen : init.length < n := by simp at hn; omega
      rw [members, hnt]
      exact walk_path h.path hti hlen

end LinkRing
