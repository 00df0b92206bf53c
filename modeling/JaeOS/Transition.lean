import Mathlib

/-!
# Transition systems

Runs of a system whose steps are labelled with events, and the two rules the development uses: an
invariant of the initial states that every step preserves holds of every reachable state, and so
does the invariant of a second system that matches every step with a sequence of its own. A run may
be restricted to steps that meet a condition on the state before the step and the event, and
followed by a ghost, a value computed from the run that the steps do not look at.
-/

namespace Transition

variable {σ τ ε δ : Type*}

structure System (σ ε : Type*) where
  init : σ → Prop
  step : σ → ε → σ → Prop

/-- The states that runs reach whose every step meets `C`. -/
inductive Reach (S : System σ ε) (C : σ → ε → Prop) : σ → Prop where
  | init {s : σ} (h : S.init s) : Reach S C s
  | step {s s' : σ} {e : ε} (h : Reach S C s) (hc : C s e) (hs : S.step s e s') : Reach S C s'

inductive Steps (R : δ → τ → τ → Prop) : List δ → τ → τ → Prop where
  | nil (t : τ) : Steps R [] t t
  | cons {d : δ} {ds : List δ} {t u w : τ} (h : R d t u) (hs : Steps R ds u w) :
      Steps R (d :: ds) t w

variable {S : System σ ε} {C C' : σ → ε → Prop} {R : δ → τ → τ → Prop} {s : σ} {t u w : τ} {d : δ}
  {ds es : List δ}

theorem Reach.mono (hC : ∀ s e, C s e → C' s e) (h : Reach S C s) : Reach S C' s := by
  induction h with
  | init h => exact .init h
  | step _ hc hs ih => exact .step ih (hC _ _ hc) hs

theorem Reach.invariant {I : σ → Prop} (hinit : ∀ s, S.init s → I s)
    (hstep : ∀ s e s', I s → C s e → S.step s e s' → I s') (h : Reach S C s) : I s := by
  induction h with
  | init h => exact hinit _ h
  | step _ hc hs ih => exact hstep _ _ _ ih hc hs

/-- The reachable states of `S` are, seen through `π` and `φ`, reachable states of `T`. -/
theorem Reach.map {T : System τ δ} {D : τ → δ → Prop} (π : σ → τ) (φ : ε → δ)
    (hinit : ∀ s, S.init s → T.init (π s))
    (hstep : ∀ s e s', S.step s e s' → T.step (π s) (φ e) (π s'))
    (hC : ∀ s e, C s e → D (π s) (φ e)) (h : Reach S C s) : Reach T D (π s) := by
  induction h with
  | init h => exact .init (hinit _ h)
  | step _ hc hs ih => exact .step ih (hC _ _ hc) (hstep _ _ _ hs)

def System.ghost {γ : Type*} (S : System σ ε) (start : σ → γ) (next : σ → ε → σ → γ → γ) :
    System (σ × γ) ε where
  init x := S.init x.1 ∧ x.2 = start x.1
  step x e y := S.step x.1 e y.1 ∧ y.2 = next x.1 e y.1 x.2

theorem Reach.of_ghost {γ : Type*} {start : σ → γ} {next : σ → ε → σ → γ → γ} {x : σ × γ}
    (h : Reach (S.ghost start next) (fun y e => C y.1 e) x) : Reach S C x.1 := by
  apply Reach.map (S := S.ghost start next) Prod.fst id _ _ _ h
  · exact fun _ hs => hs.1
  · exact fun _ _ _ hs => hs.1
  · exact fun _ _ hc => hc

theorem Steps.single (h : R d t u) : Steps R [d] t u := .cons h (.nil u)

@[simp] theorem steps_nil : Steps R [] t u ↔ u = t := by
  constructor
  · rintro ⟨⟩
    rfl
  · rintro rfl
    exact .nil _

theorem steps_cons : Steps R (d :: ds) t w ↔ ∃ u, R d t u ∧ Steps R ds u w := by
  constructor
  · rintro (_ | ⟨h, hs⟩)
    exact ⟨_, h, hs⟩
  · rintro ⟨u, h, hs⟩
    exact .cons h hs

theorem steps_single : Steps R [d] t w ↔ R d t w := by
  rw [steps_cons]
  constructor
  · rintro ⟨u, h, hs⟩
    rw [steps_nil] at hs
    exact hs ▸ h
  · intro h
    exact ⟨w, h, .nil w⟩

theorem Steps.imp {R' : δ → τ → τ → Prop} (hR : ∀ d t u, R d t u → R' d t u) (h : Steps R ds t u) :
    Steps R' ds t u := by
  induction h with
  | nil => exact .nil _
  | cons h _ ih => exact .cons (hR _ _ _ h) ih

theorem Steps.append (h : Steps R ds t u) (hs : Steps R es u w) : Steps R (ds ++ es) t w := by
  induction h with
  | nil => exact hs
  | cons h _ ih => exact .cons h (ih hs)

theorem steps_append : Steps R (ds ++ es) t w ↔ ∃ u, Steps R ds t u ∧ Steps R es u w := by
  constructor
  · intro h
    induction ds generalizing t with
    | nil => exact ⟨t, .nil t, h⟩
    | cons d ds ih =>
        obtain ⟨u, hd, hrest⟩ := steps_cons.mp h
        obtain ⟨r, hds, hes⟩ := ih hrest
        exact ⟨r, .cons hd hds, hes⟩
  · rintro ⟨u, hds, hes⟩
    exact hds.append hes

theorem Steps.invariant {I : τ → Prop} (hstep : ∀ d ∈ ds, ∀ t u, I t → R d t u → I u)
    (h : Steps R ds t u) (ht : I t) : I u := by
  induction h with
  | nil => exact ht
  | cons h _ ih =>
      exact ih (fun d hd => hstep d (List.mem_cons_of_mem _ hd))
        (hstep _ List.mem_cons_self _ _ ht h)

/-- The run of a step function over a list of events, as long as every step meets `C`. -/
def follow (f : σ → ε → Option σ) (C : σ → ε → Prop) [∀ s e, Decidable (C s e)] :
    List ε → σ → Option σ
  | [], s => some s
  | e :: es, s => if C s e then (f s e).bind (follow f C es) else none

theorem Reach.follow {f : σ → ε → Option σ} [∀ s e, Decidable (C s e)] {es : List ε} {s' : σ}
    (hf : ∀ s e s', f s e = some s' → S.step s e s') (h : Reach S C s)
    (hrun : Transition.follow f C es s = some s') : Reach S C s' := by
  induction es generalizing s with
  | nil =>
      obtain rfl := Option.some.inj hrun
      exact h
  | cons e es ih =>
      rw [Transition.follow] at hrun
      split at hrun
      · next hc =>
        obtain ⟨u, hu, hrest⟩ := Option.bind_eq_some_iff.mp hrun
        exact ih (.step h hc (hf s e u hu)) hrest
      · cases hrun

/-- The runs of a step function as sequences of steps. -/
theorem steps_follow {f : σ → ε → Option σ} [∀ s e, Decidable (C s e)] {es : List ε} {s s' : σ} :
    Steps (fun e s s' => C s e ∧ f s e = some s') es s s' ↔
    Transition.follow f C es s = some s' := by
  induction es generalizing s with
  | nil => rw [steps_nil, Transition.follow, Option.some.injEq, eq_comm]
  | cons e es ih =>
      rw [steps_cons, Transition.follow]
      by_cases hc : C s e
      · simp [hc, ih, Option.bind_eq_some_iff]
      · simp [hc]

def stepGhost {γ : Type*} (f : σ → ε → Option σ) (next : σ → ε → σ → γ → γ) (x : σ × γ) (e : ε) :
    Option (σ × γ) := (f x.1 e).map fun s' => (s', next x.1 e s' x.2)

theorem Reach.follow_ghost {γ : Type*} {start : σ → γ} {next : σ → ε → σ → γ → γ}
    {f : σ → ε → Option σ}
    {C : σ × γ → ε → Prop} [∀ x e, Decidable (C x e)] {es : List ε} {x : σ × γ}
    (hf : ∀ s e s', f s e = some s' → S.step s e s') (h : S.init s)
    (hrun : Transition.follow (stepGhost f next) C es (s, start s) = some x) :
    Reach (S.ghost start next) C x := by
  refine Reach.follow (fun y e z hs => ?_) (.init ⟨h, rfl⟩) hrun
  obtain ⟨s', hs', rfl⟩ := Option.map_eq_some_iff.mp hs
  exact ⟨hf _ _ _ hs', rfl⟩

/-- The steps of `S` that meet `C` are matched by sequences of steps of `R` that keep to `L`. -/
structure Simulation (S : System σ ε) (C : σ → ε → Prop) (R : δ → τ → τ → Prop)
    (L : σ → ε → List δ → Prop) (Rel : σ → τ → Prop) : Prop where
  step : ∀ {s e s' t}, Rel s t → C s e → S.step s e s' →
    ∃ ds t', L s e ds ∧ Steps R ds t t' ∧ Rel s' t'

theorem Simulation.restrict {L : σ → ε → List δ → Prop} {Rel : σ → τ → Prop}
    (h : Simulation S C R L Rel) (hC : ∀ s e, C' s e → C s e) : Simulation S C' R L Rel where
  step hrel hc hs := h.step hrel (hC _ _ hc) hs

/-- A run of `S` is matched by a run of `R` that takes its sequences one after the other. -/
theorem Simulation.trace {L : σ → ε → List δ → Prop} {Rel : σ → τ → Prop} {es : List ε}
    {s s' : σ} {t : τ}
    (hsim : Simulation S C R L Rel) (hrel : Rel s t)
    (hrun : Steps (fun e s s' => C s e ∧ S.step s e s') es s s') :
    ∃ (xs : List (ε × List δ)) (t' : τ), xs.map Prod.fst = es ∧
      Steps (fun x s s' => S.step s x.1 s' ∧ L s x.1 x.2) xs s s' ∧
      Steps R (xs.flatMap Prod.snd) t t' ∧ Rel s' t' := by
  induction hrun generalizing t with
  | nil => exact ⟨[], t, rfl, .nil _, .nil _, hrel⟩
  | cons h _ ih =>
      obtain ⟨ds, u, hl, hds, hrel'⟩ := hsim.step hrel h.1 h.2
      obtain ⟨xs, t', hfst, hxs, hsnd, hend⟩ := ih hrel'
      refine ⟨(_, ds) :: xs, t', by rw [List.map_cons, hfst], .cons ⟨h.2, hl⟩ hxs, ?_, hend⟩
      rw [List.flatMap_cons]
      exact hds.append hsnd

/-- An invariant `J` of related pairs: it holds at the start, and the sequences that match a step
preserve it. -/
theorem Reach.simulated {L : σ → ε → List δ → Prop} {Rel : σ → τ → Prop} {J : σ → τ → Prop}
    (hsim : Simulation S C R L Rel) (hinit : ∀ s, S.init s → ∃ t, Rel s t ∧ J s t)
    (hstep : ∀ s e s' ds t t', Rel s t → J s t → C s e → S.step s e s' → L s e ds →
      Steps R ds t t' → Rel s' t' → J s' t') (h : Reach S C s) : ∃ t, Rel s t ∧ J s t := by
  induction h with
  | init h => exact hinit _ h
  | step _ hc hs ih =>
      obtain ⟨t, hrel, hj⟩ := ih
      obtain ⟨ds, t', hl, hsteps, hrel'⟩ := hsim.step hrel hc hs
      exact ⟨t', hrel', hstep _ _ _ _ _ _ hrel hj hc hs hl hsteps hrel'⟩

end Transition
