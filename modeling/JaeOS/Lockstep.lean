import JaeOS.Program

/-!
# Two runs at once

Relational triples: two programs are started in related states, and both return, both leave for the
same reason, or both fail with the same fault. They are proved along the programs by the rules for
`pure`, `bind` and the state operations. `Agrees` is the case of one program that is run from two
states and reads the same values from both.
-/

variable {σ τ χ φ α β γ : Type}

inductive Outcome.Matches (Q : α → α → σ → σ → Prop) (E : σ → σ → Prop) :
    Outcome σ χ φ α → Outcome σ χ φ α → Prop where
  | ok {a b : α} {s t : σ} (h : Q a b s t) : Matches Q E (.ok a s) (.ok b t)
  | exit {s t : σ} (c : χ) (h : E s t) : Matches Q E (.exit c s) (.exit c t)
  | fault (e : φ) : Matches Q E (.fault e) (.fault e)

theorem Outcome.Matches.imp {Q Q' : α → α → σ → σ → Prop} {E E' : σ → σ → Prop}
    {o o' : Outcome σ χ φ α}
    (h : o.Matches Q E o') (hQ : ∀ a b s t, Q a b s t → Q' a b s t) (hE : ∀ s t, E s t → E' s t) :
    o.Matches Q' E' o' := by
  rcases h with hq | ⟨c, he⟩ | e
  · exact .ok (hQ _ _ _ _ hq)
  · exact .exit c (hE _ _ he)
  · exact .fault e

namespace Program

def Lockstep (P : σ → σ → Prop) (x y : Program σ χ φ α) (Q : α → α → σ → σ → Prop)
    (E : σ → σ → Prop) : Prop :=
  ∀ s t, P s t → (x.run s).Matches Q E (y.run t)

section Rules

variable {P P' : σ → σ → Prop} {Q Q' : α → α → σ → σ → Prop} {R : β → β → σ → σ → Prop}
    {E E' : σ → σ → Prop}
  {x y : Program σ χ φ α}

namespace Lockstep

theorem conseq (h : Lockstep P x y Q E) (hP : ∀ s t, P' s t → P s t)
    (hQ : ∀ a b s t, Q a b s t → Q' a b s t)
    (hE : ∀ s t, E s t → E' s t) : Lockstep P' x y Q' E' :=
  fun s t hst => (h s t (hP s t hst)).imp hQ hE

theorem pre (h : Lockstep P x y Q E) (hP : ∀ s t, P' s t → P s t) : Lockstep P' x y Q E :=
  h.conseq hP (fun _ _ _ _ hq => hq) fun _ _ he => he

theorem bind {f g : α → Program σ χ φ β} (hx : Lockstep P x y Q E)
    (hf : ∀ a b, Lockstep (Q a b) (f a) (g b) R E) : Lockstep P (x >>= f) (y >>= g) R E := by
  intro s t hst
  have h := hx s t hst
  rw [run_bind, run_bind]
  generalize x.run s = o at h ⊢
  generalize y.run t = o' at h ⊢
  rcases h with hq | ⟨c, he⟩ | e
  · exact hf _ _ _ _ hq
  · exact .exit c he
  · exact .fault e

theorem pure {a b : α} (h : ∀ s t, P s t → Q a b s t) :
    Lockstep P (Pure.pure a : Program σ χ φ α) (Pure.pure b) Q E := fun s t hst => .ok (h s t hst)

theorem gets {f g : σ → α} (h : ∀ s t, P s t → Q (f s) (g t) s t) :
    Lockstep P (Program.gets f : Program σ χ φ α) (Program.gets g) Q E :=
    fun s t hst => .ok (h s t hst)

theorem modify {f g : σ → σ} {S : Unit → Unit → σ → σ → Prop}
    (h : ∀ s t, P s t → S () () (f s) (g t)) :
    Lockstep P (Program.modify f : Program σ χ φ Unit) (Program.modify g) S E :=
    fun s t hst => .ok (h s t hst)

theorem leave {c : χ} (h : ∀ s t, P s t → E s t) :
    Lockstep P (Program.leave c : Program σ χ φ α) (Program.leave c) Q E :=
    fun s t hst => .exit c (h s t hst)

theorem fail {e : φ} : Lockstep P (Program.fail e : Program σ χ φ α) (Program.fail e) Q E :=
  fun _ _ _ => .fault e

/-- The same pointer is followed on both sides. -/
theorem need {e : φ} {o : Option α} {f g : α → Program σ χ φ β}
    (h : ∀ a ∈ o, Lockstep P (f a) (g a) R E) :
    Lockstep P (Program.need e o >>= f) (Program.need e o >>= g) R E := by
  cases o with
  | none => exact fun _ _ _ => .fault e
  | some a => exact h a rfl

theorem ite {c d : Prop} [Decidable c] [Decidable d] {x' y' : Program σ χ φ α} (hcd : c ↔ d)
    (hx : c → Lockstep P x y Q E) (hy : ¬ c → Lockstep P x' y' Q E) :
    Lockstep P (if c then x else x') (if d then y else y') Q E := by
  by_cases hc : c
  · rw [if_pos hc, if_pos (hcd.mp hc)]
    exact hx hc
  · rw [if_neg hc, if_neg fun hd => hc (hcd.mpr hd)]
    exact hy hc

/-- A part of the precondition that is not about the states. -/
theorem known {A : Prop} (h : A → Lockstep P x y Q E) : Lockstep (fun s t => A ∧ P s t) x y Q E :=
  fun s t hst => h hst.1 s t hst.2

/-- What is known about the first run by itself. -/
theorem left {A : σ → Prop} {B : α → σ → Prop} (h : Lockstep P x y Q E)
    (hx : Triple A x B (fun _ _ => True) fun _ => True) :
    Lockstep (fun s t => P s t ∧ A s) x y (fun a b s t => Q a b s t ∧ B a s) E := by
  rintro s t ⟨hst, ha⟩
  have hm := h s t hst
  have hb := hx s ha
  generalize x.run s = o at hm hb ⊢
  generalize y.run t = o' at hm ⊢
  rcases hm with hq | ⟨c, he⟩ | e
  · exact .ok ⟨hq, hb⟩
  · exact .exit c he
  · exact .fault e

/-- The two programs on one component of the state. -/
theorem zoom {S : τ → τ → Prop} {D : τ → τ → Prop} {get : τ → σ} {put : σ → τ → τ}
    (h : Lockstep P x y Q E) (hget : ∀ s t, S s t → P (get s) (get t)) (T : α → α → τ → τ → Prop)
    (hput : ∀ a b m m' s t, Q a b m m' → S s t → T a b (put m s) (put m' t))
    (hexit : ∀ m m' s t, E m m' → S s t → D (put m s) (put m' t)) :
    Lockstep S (Program.zoom get put x) (Program.zoom get put y) T D := by
  intro s t hst
  have hm := h _ _ (hget s t hst)
  unfold Program.zoom
  dsimp only
  generalize x.run (get s) = o at hm ⊢
  generalize y.run (get t) = o' at hm ⊢
  rcases hm with hq | ⟨c, he⟩ | e
  · exact .ok (hput _ _ _ _ s t hq hst)
  · exact .exit c (hexit _ _ s t he hst)
  · exact .fault e

end Lockstep

end Rules

/-! ### One program, two states -/

section Agrees

variable {R : σ → σ → Prop} {V V' : α → Prop} {W : β → Prop} {E : σ → σ → Prop}
    {Q : β → β → σ → σ → Prop}

/-- From two states related by `R`, the program returns the same value, of which `V` holds, and the
states stay related. -/
def Agrees (R : σ → σ → Prop) (E : σ → σ → Prop) (V : α → Prop) (x : Program σ χ φ α) : Prop :=
  Lockstep R x x (fun a b s t => a = b ∧ V a ∧ R s t) E

namespace Agrees

theorem bind {x : Program σ χ φ α} {f g : α → Program σ χ φ β} (hx : Agrees R E V x)
    (hf : ∀ a, V a → Lockstep R (f a) (g a) Q E) : Lockstep R (x >>= f) (x >>= g) Q E := by
  refine Lockstep.bind hx fun a b => ?_
  refine .known fun hab => .known fun ha => ?_
  exact hab ▸ hf a ha

theorem pure {a : α} (h : V a) : Agrees R E V (Pure.pure a : Program σ χ φ α) :=
  Lockstep.pure fun _ _ hst => ⟨rfl, h, hst⟩

theorem gets {f : σ → α} (h : ∀ s t, R s t → f s = f t ∧ V (f s)) :
    Agrees R E V (Program.gets f : Program σ χ φ α) :=
  Lockstep.gets fun s t hst => ⟨(h s t hst).1, (h s t hst).2, hst⟩

theorem modify {f : σ → σ} (h : ∀ s t, R s t → R (f s) (f t)) :
    Agrees R E (fun _ => True) (Program.modify f : Program σ χ φ Unit) :=
  Lockstep.modify fun s t hst => ⟨rfl, trivial, h s t hst⟩

theorem leave {c : χ} (h : ∀ s t, R s t → E s t) :
    Agrees R E V (Program.leave c : Program σ χ φ α) := Lockstep.leave h

theorem fail {e : φ} : Agrees R E V (Program.fail e : Program σ χ φ α) := Lockstep.fail

theorem need {e : φ} {o : Option α} (h : ∀ a ∈ o, V a) :
    Agrees R E V (Program.need e o : Program σ χ φ α) := by
  cases o with
  | none => exact fail
  | some a => exact pure (h a rfl)

theorem ite {c : Prop} [Decidable c] {x y : Program σ χ φ α} (hx : c → Agrees R E V x)
    (hy : ¬ c → Agrees R E V y) :
    Agrees R E V (if c then x else y) := Lockstep.ite Iff.rfl hx hy

theorem weaken {x : Program σ χ φ α} (h : Agrees R E V x) (hV : ∀ a, V a → V' a) :
    Agrees R E V' x :=
  h.conseq (fun _ _ hst => hst) (fun _ _ _ _ ha => ⟨ha.1, hV _ ha.2.1, ha.2.2⟩) fun _ _ he => he

/-- What the first run keeps by itself. -/
theorem keep {x : Program σ χ φ α} {A : σ → Prop} {B : α → Prop} (h : Agrees R E V x)
    (hx : Triple A x (fun a s => A s ∧ B a) (fun _ _ => True) fun _ => True) :
    Agrees (fun s t => R s t ∧ A s) E (fun a => V a ∧ B a) x :=
  (h.left hx).conseq (fun _ _ hst => hst)
    (fun _ _ _ _ ha => ⟨ha.1.1, ⟨ha.1.2.1, ha.2.2⟩, ha.1.2.2, ha.2.1⟩) fun _ _ he => he

theorem zoom {P : τ → τ → Prop} {D : τ → τ → Prop} {get : τ → σ} {put : σ → τ → τ}
    {x : Program σ χ φ α}
    (h : Agrees R (fun _ _ => False) V x) (hget : ∀ s t, P s t → R (get s) (get t))
    (hput : ∀ m m' s t, R m m' → P s t → P (put m s) (put m' t)) :
    Agrees P D V (Program.zoom get put x) :=
  Lockstep.zoom h hget _ (fun _ _ m m' s t ha hst => ⟨ha.1, ha.2.1, hput m m' s t ha.2.2 hst⟩)
    fun _ _ _ _ he => he.elim

end Agrees

end Agrees

end Program
