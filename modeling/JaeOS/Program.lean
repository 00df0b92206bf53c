import Mathlib

/-!
# Programs over a state that may leave early or fail

A program maps a state to an outcome: it returns a value, it gives up control for good (`exit`),
or it does something the language leaves undefined (`fault`). The triples below are about what
holds afterwards on each of the three ways out; loops and calls are reasoned about through the
rules for `pure`, `bind` and the state operations.
-/

inductive Outcome (σ χ φ α : Type) where
  | ok (a : α) (s : σ)
  | exit (c : χ) (s : σ)
  | fault (f : φ)
  deriving Repr, DecidableEq

structure Program (σ χ φ α : Type) where
  run : σ → Outcome σ χ φ α

namespace Program

variable {σ τ χ φ α β : Type}

instance : Monad (Program σ χ φ) where
  pure a := ⟨fun s => .ok a s⟩
  bind x f := ⟨fun s => match x.run s with
    | .ok a s' => (f a).run s'
    | .exit c s' => .exit c s'
    | .fault e => .fault e⟩

def gets (f : σ → α) : Program σ χ φ α := ⟨fun s => .ok (f s) s⟩

def modify (f : σ → σ) : Program σ χ φ Unit := ⟨fun s => .ok () (f s)⟩

def leave (c : χ) : Program σ χ φ α := ⟨fun s => .exit c s⟩

def fail (f : φ) : Program σ χ φ α := ⟨fun _ => .fault f⟩

/-- The value behind a pointer-like `Option`, or the given fault. -/
def need (f : φ) : Option α → Program σ χ φ α
  | some a => pure a
  | none => fail f

def zoom (get : τ → σ) (put : σ → τ → τ) (x : Program σ χ φ α) : Program τ χ φ α :=
  ⟨fun t => match x.run (get t) with
    | .ok a s => .ok a (put s t)
    | .exit c s => .exit c (put s t)
    | .fault e => .fault e⟩

@[simp] theorem run_pure (a : α) (s : σ) : (pure a : Program σ χ φ α).run s = .ok a s := rfl

theorem run_bind (x : Program σ χ φ α) (f : α → Program σ χ φ β) (s : σ) :
    (x >>= f).run s = match x.run s with
      | .ok a s' => (f a).run s'
      | .exit c s' => .exit c s'
      | .fault e => .fault e := rfl

theorem run_bind_ok {x : Program σ χ φ α} {s s' : σ} {a : α} (h : x.run s = .ok a s')
    (f : α → Program σ χ φ β) : (x >>= f).run s = (f a).run s' := by
  rw [run_bind, h]

theorem run_bind_exit {x : Program σ χ φ α} {s s' : σ} {c : χ} (h : x.run s = .exit c s')
    (f : α → Program σ χ φ β) : (x >>= f).run s = .exit c s' := by
  rw [run_bind, h]

theorem run_bind_fault {x : Program σ χ φ α} {s : σ} {e : φ} (h : x.run s = .fault e)
    (f : α → Program σ χ φ β) : (x >>= f).run s = .fault e := by
  rw [run_bind, h]

@[simp] theorem run_gets (f : σ → α) (s : σ) :
    (gets f : Program σ χ φ α).run s = .ok (f s) s := rfl

@[simp] theorem run_modify (f : σ → σ) (s : σ) :
    (modify f : Program σ χ φ Unit).run s = .ok () (f s) := rfl

@[simp] theorem run_leave (c : χ) (s : σ) : (leave c : Program σ χ φ α).run s = .exit c s := rfl

@[simp] theorem run_fail (f : φ) (s : σ) : (fail f : Program σ χ φ α).run s = .fault f := rfl

@[simp] theorem need_some (f : φ) (a : α) : (need f (some a) : Program σ χ φ α) = pure a := rfl

@[simp] theorem need_none (f : φ) : (need f none : Program σ χ φ α) = fail f := rfl

@[simp] theorem run_pure_bind (a : α) (g : α → Program σ χ φ β) (s : σ) :
    ((pure a : Program σ χ φ α) >>= g).run s = (g a).run s := rfl

@[simp] theorem run_gets_bind (f : σ → α) (g : α → Program σ χ φ β) (s : σ) :
    (gets f >>= g).run s = (g (f s)).run s := rfl

@[simp] theorem run_modify_bind (f : σ → σ) (g : Unit → Program σ χ φ β) (s : σ) :
    (modify f >>= g).run s = (g ()).run (f s) := rfl

@[simp] theorem run_leave_bind (c : χ) (g : α → Program σ χ φ β) (s : σ) :
    (leave c >>= g).run s = .exit c s := rfl

@[simp] theorem run_fail_bind (f : φ) (g : α → Program σ χ φ β) (s : σ) :
    (fail f >>= g).run s = .fault f := rfl

theorem run_zoom_ok {get : τ → σ} {put : σ → τ → τ} {x : Program σ χ φ α} {t : τ} {a : α} {s : σ}
    (h : x.run (get t) = .ok a s) : (zoom get put x).run t = .ok a (put s t) := by
  simp only [zoom, h]

theorem ok_of_bind {x : Program σ χ φ α} {f : α → Program σ χ φ β} {s t : σ} {b : β}
    (h : (x >>= f).run s = .ok b t) : ∃ a u, x.run s = .ok a u ∧ (f a).run u = .ok b t := by
  rw [run_bind] at h
  cases hx : x.run s with
  | ok a u =>
      rw [hx] at h
      exact ⟨a, u, rfl, h⟩
  | exit c u =>
      rw [hx] at h
      cases h
  | fault e =>
      rw [hx] at h
      cases h

theorem exit_of_bind {x : Program σ χ φ α} {f : α → Program σ χ φ β} {s t : σ} {c : χ}
    (h : (x >>= f).run s = .exit c t) :
    x.run s = .exit c t ∨ ∃ a u, x.run s = .ok a u ∧ (f a).run u = .exit c t := by
  rw [run_bind] at h
  cases hx : x.run s with
  | ok a u =>
      rw [hx] at h
      exact Or.inr ⟨a, u, rfl, h⟩
  | exit d u =>
      rw [hx] at h
      cases h
      exact Or.inl rfl
  | fault e =>
      rw [hx] at h
      cases h

@[simp] theorem run_ite {c : Prop} [Decidable c] (x y : Program σ χ φ α) (s : σ) :
    (if c then x else y).run s = if c then x.run s else y.run s := by
  split <;> rfl

@[simp] theorem run_bind_bind {γ : Type} (x : Program σ χ φ α) (f : α → Program σ χ φ β)
    (g : β → Program σ χ φ γ) (s : σ) :
    ((x >>= f) >>= g).run s = (x >>= fun a => f a >>= g).run s := by
  simp only [run_bind]
  cases x.run s <;> rfl

/-! ### Triples -/

/-- From every state in `P`, a return satisfies `Q`, an exit satisfies `E`, and only faults in `F`
occur. With `F` everywhere true this is partial correctness, with `F` everywhere false it also
excludes undefined behaviour. -/
def Triple (P : σ → Prop) (x : Program σ χ φ α) (Q : α → σ → Prop) (E : χ → σ → Prop)
    (F : φ → Prop) : Prop :=
  ∀ s, P s → match x.run s with
    | .ok a s' => Q a s'
    | .exit c s' => E c s'
    | .fault e => F e

section Rules

variable {P P' : σ → Prop} {Q Q' : α → σ → Prop} {R : β → σ → Prop} {E E' : χ → σ → Prop}
  {F : φ → Prop}

theorem Triple.conseq {x : Program σ χ φ α} (h : Triple P x Q E F) (hP : ∀ s, P' s → P s)
    (hQ : ∀ a s, Q a s → Q' a s) (hE : ∀ c s, E c s → E' c s) : Triple P' x Q' E' F := by
  intro s hs
  have hx := h s (hP s hs)
  cases hr : x.run s with
  | ok a s' => rw [hr] at hx; exact hQ a s' hx
  | exit c s' => rw [hr] at hx; exact hE c s' hx
  | fault e => rw [hr] at hx; exact hx

theorem Triple.bind {x : Program σ χ φ α} {f : α → Program σ χ φ β} (hx : Triple P x Q E F)
    (hf : ∀ a, Triple (Q a) (f a) R E F) : Triple P (x >>= f) R E F := by
  intro s hs
  have h := hx s hs
  cases hr : x.run s with
  | ok a s' =>
      rw [hr] at h
      rw [run_bind_ok hr]
      exact hf a s' h
  | exit c s' =>
      rw [hr] at h
      rw [run_bind_exit hr]
      exact h
  | fault e =>
      rw [hr] at h
      rw [run_bind_fault hr]
      exact h

theorem Triple.pure {a : α} (h : ∀ s, P s → Q a s) :
    Triple P (Pure.pure a : Program σ χ φ α) Q E F :=
  fun s hs => h s hs

theorem Triple.gets {f : σ → α} (h : ∀ s, P s → Q (f s) s) :
    Triple P (gets f : Program σ χ φ α) Q E F :=
  fun s hs => h s hs

theorem Triple.modify {f : σ → σ} {R : Unit → σ → Prop} (h : ∀ s, P s → R () (f s)) :
    Triple P (modify f : Program σ χ φ Unit) R E F :=
  fun s hs => h s hs

theorem Triple.leave {c : χ} (h : ∀ s, P s → E c s) :
    Triple P (leave c : Program σ χ φ α) Q E F :=
  fun s hs => h s hs

theorem Triple.fail {e : φ} (h : F e) : Triple P (fail e : Program σ χ φ α) Q E F :=
  fun _ _ => h

theorem Triple.need {e : φ} {o : Option α} (hs : ∀ a, o = some a → ∀ s, P s → Q a s)
    (hn : o = none → F e) : Triple P (need e o : Program σ χ φ α) Q E F := by
  intro s h
  cases o with
  | none => exact hn rfl
  | some a => exact hs a rfl s h

theorem Triple.ite {c : Prop} [Decidable c] {x y : Program σ χ φ α}
    (hx : c → Triple P x Q E F) (hy : ¬ c → Triple P y Q E F) :
    Triple P (if c then x else y) Q E F := by
  by_cases hc : c
  · rw [if_pos hc]
    exact hx hc
  · rw [if_neg hc]
    exact hy hc

theorem Triple.of_run {x : Program σ χ φ α} {s s' : σ} {a : α} (h : Triple P x Q E F) (hs : P s)
    (hr : x.run s = .ok a s') : Q a s' := by
  have hx := h s hs
  rw [hr] at hx
  exact hx

theorem Triple.of_exit {x : Program σ χ φ α} {s s' : σ} {c : χ} (h : Triple P x Q E F) (hs : P s)
    (hr : x.run s = .exit c s') : E c s' := by
  have hx := h s hs
  rw [hr] at hx
  exact hx

theorem Triple.not_fault {x : Program σ χ φ α} {s : σ} {e : φ} (h : Triple P x Q E F) (hs : P s)
    (hr : x.run s = .fault e) : F e := by
  have hx := h s hs
  rw [hr] at hx
  exact hx

end Rules

/-! ### Results -/

section Results

variable {Q : α → Prop} {R : β → Prop} {E : Prop}

/-- Whatever the state, what `x` returns satisfies `Q`, and it leaves only if `E`. -/
def Returns (Q : α → Prop) (E : Prop) (x : Program σ χ φ α) : Prop :=
  Triple (fun _ => True) x (fun a _ => Q a) (fun _ _ => E) (fun _ => True)

namespace Returns

theorem pure {a : α} (h : Q a) : Returns Q E (Pure.pure a : Program σ χ φ α) :=
  Triple.pure fun _ _ => h

theorem gets {f : σ → α} : Returns (fun _ => True) E (Program.gets f : Program σ χ φ α) :=
  Triple.gets fun _ _ => trivial

theorem modify {f : σ → σ} : Returns (fun _ => True) E (Program.modify f : Program σ χ φ Unit) :=
  Triple.modify fun _ _ => trivial

theorem leave {c : χ} (h : E) : Returns Q E (Program.leave c : Program σ χ φ α) :=
  Triple.leave fun _ _ => h

theorem fail {e : φ} : Returns Q E (Program.fail e : Program σ χ φ α) := Triple.fail trivial

theorem need {e : φ} {o : Option α} :
    Returns (fun _ => True) E (Program.need e o : Program σ χ φ α) :=
  Triple.need (fun _ _ _ _ => trivial) fun _ => trivial

theorem bind {x : Program σ χ φ α} {f : α → Program σ χ φ β} (hx : Returns (fun _ => True) E x)
    (hf : ∀ a, Returns R E (f a)) : Returns R E (x >>= f) := Triple.bind hx fun a => hf a

theorem ite {c : Prop} [Decidable c] {x y : Program σ χ φ α} (hx : Returns Q E x)
    (hy : Returns Q E y) :
    Returns Q E (if c then x else y) := Triple.ite (fun _ => hx) fun _ => hy

end Returns

end Results

/-! ### Frames -/

section Frames

variable {ι : Type} {I : ι → σ → Prop} {F : φ → Prop}

/-- Every assertion of the family `I` that holds before `x` holds after it, however `x` ends. -/
def Maintains (I : ι → σ → Prop) (F : φ → Prop) (x : Program σ χ φ α) : Prop :=
  ∀ i, Triple (I i) x (fun _ => I i) (fun _ => I i) F

namespace Maintains

theorem pure (a : α) : Maintains I F (Pure.pure a : Program σ χ φ α) :=
  fun _ => Triple.pure fun _ h => h

theorem gets (f : σ → α) : Maintains I F (Program.gets f : Program σ χ φ α) :=
  fun _ => Triple.gets fun _ h => h

theorem modify {f : σ → σ} (h : ∀ i s, I i s → I i (f s)) :
    Maintains I F (Program.modify f : Program σ χ φ Unit) :=
  fun i => Triple.modify (h i)

theorem leave (c : χ) : Maintains I F (Program.leave c : Program σ χ φ α) :=
  fun _ => Triple.leave fun _ h => h

theorem fail {e : φ} (h : F e) : Maintains I F (Program.fail e : Program σ χ φ α) :=
  fun _ => Triple.fail h

theorem need {e : φ} (o : Option α) (h : F e) :
    Maintains I F (Program.need e o : Program σ χ φ α) :=
  fun _ => Triple.need (fun _ _ _ hs => hs) fun _ => h

theorem bind {x : Program σ χ φ α} {f : α → Program σ χ φ β} (hx : Maintains I F x)
    (hf : ∀ a, Maintains I F (f a)) : Maintains I F (x >>= f) :=
  fun i => Triple.bind (hx i) fun a => hf a i

theorem ite {c : Prop} [Decidable c] {x y : Program σ χ φ α} (hx : Maintains I F x)
    (hy : Maintains I F y) : Maintains I F (if c then x else y) :=
  fun i => Triple.ite (fun _ => hx i) fun _ => hy i

theorem zoom {τ : Type} {get : τ → σ} {put : σ → τ → τ} {J : ι → τ → Prop}
    (hput : ∀ i s t, J i t → J i (put s t)) (x : Program σ χ φ α) (hF : ∀ e, F e) :
    Maintains J F (Program.zoom get put x) := by
  intro i t ht
  unfold Program.zoom
  dsimp only
  cases x.run (get t) with
  | ok a s => exact hput i s t ht
  | exit c s => exact hput i s t ht
  | fault e => exact hF e

/-- What `x` keeps of its own state it keeps as a component. -/
theorem zoom_get {τ : Type} {get : τ → σ} {put : σ → τ → τ} {x : Program σ χ φ α}
    (hget : ∀ s t, get (put s t) = s) (hx : Maintains I F x) :
    Maintains (fun i t => I i (get t)) F (Program.zoom get put x) := by
  intro i t ht
  have h := hx i (get t) ht
  unfold Program.zoom
  dsimp only
  cases hr : x.run (get t) with
  | ok a s =>
      rw [hr] at h
      dsimp only at h ⊢
      rwa [hget]
  | exit c s =>
      rw [hr] at h
      dsimp only at h ⊢
      rwa [hget]
  | fault e =>
      rw [hr] at h
      exact h

theorem and {J : ι → σ → Prop} {x : Program σ χ φ α} (hx : Maintains I F x) (hy : Maintains J F x) :
    Maintains (fun i s => I i s ∧ J i s) F x := by
  intro i s hs
  have h := hx i s hs.1
  have h' := hy i s hs.2
  cases hr : x.run s with
  | ok a t =>
      rw [hr] at h h'
      exact ⟨h, h'⟩
  | exit c t =>
      rw [hr] at h h'
      exact ⟨h, h'⟩
  | fault e =>
      rw [hr] at h
      exact h

theorem all {κ : Type} {J : κ → ι → σ → Prop} {x : Program σ χ φ α} (h : ∀ k, Maintains (J k) F x)
    (hF : ∀ e, F e) : Maintains (fun i s => ∀ k, J k i s) F x := by
  intro i s hs
  have hx := fun k => h k i s (hs k)
  cases hr : x.run s with
  | ok a t =>
      rw [hr] at hx
      exact hx
  | exit c t =>
      rw [hr] at hx
      exact hx
  | fault e => exact hF e

/-- What survives every change that `R` allows. -/
theorem of_rel {R : σ → σ → Prop} {x : Program σ χ φ α} (h : Maintains R F x) (hR : ∀ s, R s s)
    (hI : ∀ i s t, I i s → R s t → I i t) : Maintains I F x := by
  intro i s hs
  have hx := h s s (hR s)
  cases hr : x.run s with
  | ok a t =>
      rw [hr] at hx
      exact hI i s t hs hx
  | exit c t =>
      rw [hr] at hx
      exact hI i s t hs hx
  | fault e =>
      rw [hr] at hx
      exact hx

/-- What is said about a component that `x` leaves as it is. -/
theorem of_component {τ κ : Type} {g : σ → τ} {x : Program σ χ φ α} (J : κ → τ → Prop)
    (h : Maintains (fun c s => g s = c) F x) : Maintains (fun k s => J k (g s)) F x := by
  intro k s hs
  have hx := h (g s) s rfl
  cases hr : x.run s with
  | ok a t =>
      rw [hr] at hx
      dsimp only at hx ⊢
      rwa [hx]
  | exit c t =>
      rw [hr] at hx
      dsimp only at hx ⊢
      rwa [hx]
  | fault e =>
      rw [hr] at hx
      exact hx

end Maintains

end Frames

end Program
