import JaeOS.Handlers
import JaeOS.Lockstep

/-!
# Tables that differ in contents

`graft` replaces the contents of the PCBs and leaves the lists and the descriptors as they are. Two
tables are twins on a set `L` of PCBs if they differ in contents only, and not in those of `L`; the
pointers of the process tree do not lead out of `L`, so that the code of phase 1, started in `L`,
does the same with both. The set `K` holds the PCBs that are children.
-/

open Program

namespace JaeOS

variable {n : ℕ} {α β χ : Type}

theorem eqOn_update [DecidableEq α] {f g : α → β} {L : Set α} (h : Set.EqOn f g L) (p : α) (v : β) :
    Set.EqOn (Function.update f p v) (Function.update g p v) L := by
  intro q hq
  simp only [Function.update_apply, h hq]

/-! ### Circular lists -/

/-- The headers are the same, the links are the same in `L`, and the pointers do not lead out of
`K`. -/
structure Clist.Twin (L K : Set α) (c c' : Clist α) : Prop where
  tail : c.tail = c'.tail
  link : Set.EqOn c.link c'.link L
  sub : K ⊆ L
  tail_mem : ∀ q ∈ c.tail, q ∈ K
  link_mem : ∀ p ∈ K, ∀ q ∈ c.link p, q ∈ K

section Lists

variable [DecidableEq α] {σ : Type} {L K : Set α} {c c' : Clist α} {p e : α} {v : Option α}
    {R E : σ → σ → Prop}

omit [DecidableEq α] in
theorem Clist.Twin.link_eq (h : c.Twin L K c') (hp : p ∈ K) : c.link p = c'.link p :=
  h.link (h.sub hp)

omit [DecidableEq α] in
theorem Clist.Twin.setTail (h : c.Twin L K c') (hv : ∀ q ∈ v, q ∈ K) :
    Clist.Twin L K ⟨c.link, v⟩ ⟨c'.link, v⟩ := ⟨rfl, h.link, h.sub, hv, h.link_mem⟩

theorem Clist.Twin.relink (h : c.Twin L K c') (p : α) (hv : ∀ q ∈ v, q ∈ K) :
    Clist.Twin L K ⟨Function.update c.link p v, c.tail⟩ ⟨Function.update c'.link p v, c'.tail⟩ where
  tail := h.tail
  link := eqOn_update h.link p v
  sub := h.sub
  tail_mem := h.tail_mem
  link_mem q hq r hr := by
    simp only [Function.update_apply] at hr
    split at hr
    · exact hv r hr
    · exact h.link_mem q hq r hr

omit [DecidableEq α] in
/-- Twins have the same head. -/
theorem clistHead_agrees (h : c.Twin L K c') :
    Lockstep R (clistHead c : Program σ χ Fault α) (clistHead c') (fun a b s t => a = b ∧ a ∈ K ∧
      R s t) E := by
  unfold clistHead
  rw [← h.tail]
  refine .need fun t ht => ?_
  have htK : t ∈ K := h.tail_mem t ht
  rw [← h.link_eq htK]
  exact (Agrees.need fun x hx => h.link_mem t htK x hx : Agrees R E (· ∈ K)
    (Program.need Fault.null (c.link t)))

theorem clistEnqueue_twin (h : c.Twin L K c') (he : e ∈ K) :
    (clistEnqueue e c).Twin L K (clistEnqueue e c') := by
  have hsome : ∀ q ∈ some e, q ∈ K := fun q hq => Option.some.inj hq ▸ he
  unfold clistEnqueue
  rw [← h.tail]
  cases ht : c.tail with
  | none => exact (h.relink e hsome).setTail hsome
  | some t =>
      have htK : t ∈ K := h.tail_mem t ht
      dsimp only
      rw [← h.link_eq htK]
      exact ((h.relink e (h.link_mem t htK)).relink t hsome).setTail hsome

theorem clistDequeue_agrees (h : c.Twin L K c') :
    Lockstep R (clistDequeue c : Program σ χ Fault (Clist α)) (clistDequeue c')
      (fun a b s t => a.Twin L K b ∧ R s t) E := by
  unfold clistDequeue
  rw [← h.tail]
  refine .need fun t ht => ?_
  have htK : t ∈ K := h.tail_mem t ht
  rw [← h.link_eq htK]
  refine .ite Iff.rfl (fun _ => ?_) fun _ => .need fun x hx => ?_
  · exact .pure fun _ _ hst => ⟨h.setTail nofun, hst⟩
  · have hxK : x ∈ K := h.link_mem t htK x hx
    rw [← h.link_eq hxK]
    exact .pure fun _ _ hst => ⟨(h.relink t (h.link_mem x hxK)).setTail h.tail_mem, hst⟩

theorem clistDeleteLoop_agrees {m r : ℕ} {scan tmp : Option α} (h : c.Twin L K c')
    (hs : ∀ q ∈ scan, q ∈ K) :
    Lockstep R (clistDeleteLoop e m scan tmp c r : Program σ χ Fault (ℕ × Clist α))
      (clistDeleteLoop e m scan tmp c' r) (fun a b s t => a.1 = b.1 ∧ a.2.Twin L K b.2 ∧
        R s t) E := by
  induction m generalizing c c' scan tmp r with
  | zero => exact .fail
  | succ m ih =>
      unfold clistDeleteLoop
      refine .need fun s hscan => ?_
      have hsK : s ∈ K := hs s hscan
      refine .ite Iff.rfl (fun _ => .pure fun _ _ hst => ⟨rfl, h, hst⟩) fun _ => ?_
      dsimp only
      rw [← h.link_eq hsK, ← h.tail]
      have htwin : Clist.Twin L K
          (if c.link s = some e then
            ⟨Function.update c.link s (c.link e), if c.tail = some e then some s else c.tail⟩
              else c)
          (if c.link s = some e then
            ⟨Function.update c'.link s (c'.link e), if c.tail = some e then some s else c.tail⟩
              else c') := by
        by_cases hf : c.link s = some e
        · have heK : e ∈ K := h.link_mem s hsK e hf
          rw [if_pos hf, if_pos hf, ← h.link_eq heK]
          refine (h.relink s (h.link_mem e heK)).setTail fun q hq => ?_
          split at hq
          · exact Option.some.inj hq ▸ hsK
          · exact h.tail_mem q hq
        · rw [if_neg hf, if_neg hf]
          exact h
      generalize (if c.link s = some e then
        ⟨Function.update c.link s (c.link e), if c.tail = some e then some s else c.tail⟩ else c :
          Clist α) = d
        at htwin ⊢
      generalize (if c.link s = some e then
        ⟨Function.update c'.link s (c'.link e), if c.tail = some e then some s else c.tail⟩
          else c' : Clist α) = d'
        at htwin ⊢
      rw [← htwin.tail]
      refine .need fun t ht => ?_
      rw [← htwin.link_eq hsK, ← htwin.link_eq (htwin.tail_mem t ht)]
      exact ih htwin (htwin.link_mem s hsK)

theorem clistDelete_agrees {bound : ℕ} (h : c.Twin L K c') :
    Lockstep R (clistDelete bound e c : Program σ χ Fault (ℕ × Clist α)) (clistDelete bound e c')
      (fun a b s t => a.1 = b.1 ∧ a.2.Twin L K b.2 ∧ R s t) E := by
  have hempty : clistEmpty c' = clistEmpty c := by rw [clistEmpty, clistEmpty, h.tail]
  unfold clistDelete
  rw [hempty]
  refine .ite Iff.rfl (fun _ => .pure fun _ _ hst => ⟨rfl, h, hst⟩) fun _ => ?_
  refine .bind (clistHead_agrees h) fun x y => ?_
  refine .known fun hxy => .known fun hx => ?_
  subst hxy
  refine .ite Iff.rfl (fun _ => ?_) fun _ => ?_
  · refine .bind (clistDequeue_agrees h) fun d d' => ?_
    exact .pure fun _ _ hst => ⟨rfl, hst.1, hst.2⟩
  · exact clistDeleteLoop_agrees h fun q hq => Option.some.inj hq ▸ hx

/-! The same list on both sides. -/

omit [DecidableEq α] in
theorem twin_self (c : Clist α) : c.Twin Set.univ Set.univ c :=
  ⟨rfl, fun _ _ => rfl, Set.Subset.rfl, fun _ _ => Set.mem_univ _, fun _ _ _ _ => Set.mem_univ _⟩

omit [DecidableEq α] in
theorem Clist.Twin.eq (h : c.Twin Set.univ Set.univ c') : c = c' := by
  obtain ⟨link, tail⟩ := c
  obtain ⟨link', tail'⟩ := c'
  have htail : tail = tail' := h.tail
  have hlink : link = link' := funext fun x => h.link (Set.mem_univ x)
  rw [htail, hlink]

omit [DecidableEq α] in
theorem clistHead_self (c : Clist α) : Agrees R E (fun _ => True)
    (clistHead c : Program σ χ Fault α) :=
  Agrees.weaken (clistHead_agrees (twin_self c)) fun _ _ => trivial

theorem clistDequeue_self (c : Clist α) :
    Agrees R E (fun _ => True) (clistDequeue c : Program σ χ Fault (Clist α)) :=
  (clistDequeue_agrees (twin_self c)).conseq (fun _ _ hst => hst)
    (fun _ _ _ _ h => ⟨h.1.eq, trivial, h.2⟩)
    fun _ _ he => he

theorem clistDelete_self {bound : ℕ} (c : Clist α) :
    Agrees R E (fun _ => True) (clistDelete bound e c : Program σ χ Fault (ℕ × Clist α)) :=
  (clistDelete_agrees (twin_self c)).conseq (fun _ _ hst => hst)
    (fun _ _ _ _ h => ⟨Prod.ext h.1 h.2.1.eq, trivial, h.2.2⟩) fun _ _ he => he

theorem clistForeachDelete_self (scan : α) (tmp : Option α) (c : Clist α) :
    Agrees R E (fun _ => True) (clistForeachDelete scan tmp c : Program σ χ Fault (Clist α)) := by
  unfold clistForeachDelete
  refine (clistHead_self c).bind fun x _ => ?_
  refine Agrees.ite (fun _ => clistDequeue_self c) fun _ => ?_
  refine Lockstep.need fun p _ => ?_
  exact Agrees.ite (fun _ => .pure trivial) fun _ => .pure trivial

end Lists

section Loops

variable {σ γ : Type} [DecidableEq α] {R E : σ → σ → Prop} {link : σ → α → Option α}
  {header : Option α → Program σ χ Fault (Option α)}
  {body : γ → α → Option α → Program σ χ Fault (ForInStep γ)} {G : Set α}

theorem clistForeachLoop_agrees
    (hlink : ∀ s t, R s t → ∀ x ∈ G, link s x = link t x ∧ ∀ y ∈ link s x, y ∈ G)
    (hheader : ∀ o : Option α, (∀ x ∈ o, x ∈ G) → Agrees R E (fun _ => True) (header o))
    (hbody : ∀ vars, ∀ x ∈ G, ∀ tmp, Agrees R E (fun _ => True) (body vars x tmp)) {m : ℕ}
      {vars : γ}
    {scan tmp : Option α} (hscan : ∀ x ∈ scan, x ∈ G) :
    Agrees R E (fun _ => True) (clistForeachLoop link header body m vars scan tmp) := by
  induction m generalizing vars scan tmp with
  | zero => exact .fail
  | succ m ih =>
      unfold clistForeachLoop
      refine (hheader scan hscan).bind fun tail _ => ?_
      refine .ite Iff.rfl (fun _ => .pure fun _ _ hst => ⟨rfl, trivial, hst⟩) fun _ => ?_
      refine .need fun x hx => ?_
      have hxG : x ∈ G := hscan x hx
      refine (hbody vars x hxG tmp).bind fun step _ => ?_
      cases step with
      | done vars' => exact .pure fun _ _ hst => ⟨rfl, trivial, hst⟩
      | yield vars' =>
          refine Agrees.bind (V := fun o => ∀ y ∈ o, y ∈ G)
            (.gets fun s t hst => hlink s t hst x hxG) fun o ho => ?_
          exact ih ho

/-- A loop whose cursor stays in `G`. -/
theorem clistForeach_agrees
    (hlink : ∀ s t, R s t → ∀ x ∈ G, link s x = link t x ∧ ∀ y ∈ link s x, y ∈ G)
    (hheader : ∀ o : Option α, (∀ x ∈ o, x ∈ G) → Agrees R E (fun t => ∀ x ∈ t, x ∈ G) (header o))
    (hbody : ∀ vars, ∀ x ∈ G, ∀ tmp, Agrees R E (fun _ => True) (body vars x tmp)) {bound : ℕ}
      {vars : γ}
    {scan tmp : Option α} (hscan : ∀ x ∈ scan, x ∈ G) :
    Agrees R E (fun _ => True) (clistForeach bound link header body vars scan tmp) := by
  unfold clistForeach
  refine (hheader scan hscan).bind fun tail htail => ?_
  cases tail with
  | none => exact .pure fun _ _ hst => ⟨rfl, trivial, hst⟩
  | some t =>
      refine Agrees.bind (V := fun o => ∀ y ∈ o, y ∈ G)
        (.gets fun s s' hst => hlink s s' hst t (htail t rfl))
        fun o ho => ?_
      exact clistForeachLoop_agrees hlink (fun o ho => (hheader o ho).weaken fun _ _ => trivial)
        hbody ho

end Loops

/-! ### The tables of phase 1 -/

def Links.graft (m c : Links n) : Links n :=
  { m with
    pParent := c.pParent
    pCursem := c.pCursem
    pChildren := c.pChildren
    pSiblings := c.pSiblings }

structure Links.Agree (L K : Set (Fin n)) (m c : Links n) : Prop where
  pParent : Set.EqOn m.pParent c.pParent L
  pCursem : Set.EqOn m.pCursem c.pCursem L
  pChildren : Set.EqOn m.pChildren c.pChildren L
  pSiblings : Set.EqOn m.pSiblings c.pSiblings L
  sub : K ⊆ L
  parent_mem : ∀ p ∈ L, ∀ q ∈ m.pParent p, q ∈ L
  children_mem : ∀ p ∈ L, ∀ q ∈ m.pChildren p, q ∈ K
  siblings_mem : ∀ p ∈ K, ∀ q ∈ m.pSiblings p, q ∈ K

def Links.Twin (L K : Set (Fin n)) (m m' : Links n) : Prop := ∃ c, m' = m.graft c ∧ m.Agree L K c

section Tables

variable {L K : Set (Fin n)} {m c : Links n} {p q parent : Fin n} {E : Links n → Links n → Prop}
    {V : α → Prop}

theorem mem_update {f : Fin n → Option (Fin n)} {A B : Set (Fin n)} (h : ∀ p ∈ A, ∀ q ∈ f p, q ∈ B)
    {v : Option (Fin n)} (hv : ∀ q ∈ v, q ∈ B) : ∀ r ∈ A, ∀ q ∈ Function.update f p v r, q ∈ B := by
  intro r hr q hq
  simp only [Function.update_apply] at hq
  split at hq
  · exact hv q hq
  · exact h r hr q hq

theorem Links.Agree.family (h : m.Agree L K c) (hp : p ∈ L) :
    Clist.Twin L K ⟨m.pSiblings, m.pChildren p⟩ ⟨c.pSiblings, c.pChildren p⟩ :=
  ⟨h.pChildren hp, h.pSiblings, h.sub, h.children_mem p hp, h.siblings_mem⟩

/-- The pointers of a family are rewritten. -/
theorem Links.Agree.setFamily {d d' : Clist (Fin n)} (h : m.Agree L K c) (hd : d.Twin L K d') :
    Links.Agree L K
      { m with pSiblings := d.link, pChildren := Function.update m.pChildren p d.tail }
      { c with pSiblings := d'.link, pChildren := Function.update c.pChildren p d'.tail } :=
  { h with
    pChildren := hd.tail ▸ eqOn_update h.pChildren p d.tail
    pSiblings := hd.link
    children_mem := mem_update h.children_mem hd.tail_mem
    siblings_mem := hd.link_mem }

theorem Links.Agree.setParent (h : m.Agree L K c) {v : Option (Fin n)} (hv : ∀ q ∈ v, q ∈ L) :
    Links.Agree L K { m with pParent := Function.update m.pParent p v }
      { c with pParent := Function.update c.pParent p v } :=
  { h with
    pParent := eqOn_update h.pParent p v
    parent_mem := mem_update h.parent_mem hv }

theorem Links.Agree.setCursem (h : m.Agree L K c) (v : Option Semd) :
    Links.Agree L K { m with pCursem := Function.update m.pCursem p v }
      { c with pCursem := Function.update c.pCursem p v } :=
  { h with pCursem := eqOn_update h.pCursem p v }

/-- Code that only looks at the lists and the descriptors. -/
theorem twin_gets {f : Links n → α} (h : ∀ m c : Links n, f (m.graft c) = f m) (hV : ∀ m, V (f m)) :
    Agrees (Links.Twin L K) E V (Program.gets f : Program (Links n) χ Fault α) := by
  refine .gets fun s t hst => ?_
  obtain ⟨c, rfl, -⟩ := hst
  exact ⟨(h s c).symm, hV s⟩

/-- Code that only writes the lists and the descriptors. -/
theorem twin_modify {f : Links n → Links n} (h : ∀ m c : Links n, f (m.graft c) = (f m).graft c) :
    Agrees (Links.Twin L K) E (fun _ => True)
      (Program.modify f : Program (Links n) χ Fault Unit) := by
  refine .modify fun s t hst => ?_
  obtain ⟨c, rfl, ha⟩ := hst
  refine ⟨c, h s c, ?_⟩
  have hkeep : f s = (f s).graft s := h s s
  rw [hkeep]
  exact { ha with }

theorem insertChild_twin (h : m.Agree L K c) (hparent : parent ∈ L) (hp : p ∈ K) :
    (insertChild parent p m).Agree L K (insertChild parent p c) :=
  (h.setFamily (clistEnqueue_twin (h.family hparent) hp)).setParent fun _ hq =>
    Option.some.inj hq ▸ hparent

/-- The list of the children of `p`, with its links. -/
theorem family_agrees (hp : p ∈ L) {f : Clist (Fin n) → Program (Links n) χ Fault α}
    {Q : α → α → Links n → Links n → Prop}
    (hf : ∀ d d' : Clist (Fin n), d.Twin L K d' → Lockstep (Links.Twin L K) (f d) (f d') Q E) :
    Lockstep (Links.Twin L K)
      (Program.gets (fun m => (⟨m.pSiblings, m.pChildren p⟩ : Clist (Fin n))) >>= f)
      (Program.gets (fun m => (⟨m.pSiblings, m.pChildren p⟩ : Clist (Fin n))) >>= f) Q E := by
  rintro m m' ⟨c, rfl, h⟩
  exact hf _ _ (h.family hp) m (m.graft c) ⟨c, rfl, h⟩

theorem setFamily_agrees {d d' : Clist (Fin n)} (hd : d.Twin L K d') :
    Lockstep (Links.Twin L K)
      (Program.modify fun m : Links n =>
        { m with pSiblings := d.link, pChildren := Function.update m.pChildren p d.tail } :
          Program (Links n) χ Fault Unit)
      (Program.modify fun m : Links n =>
        { m with pSiblings := d'.link, pChildren := Function.update m.pChildren p d'.tail })
      (fun _ _ m m' => Links.Twin L K m m') E := by
  refine .modify fun m m' hm => ?_
  obtain ⟨c, rfl, h⟩ := hm
  exact ⟨{ c with pSiblings := d'.link, pChildren := Function.update c.pChildren p d'.tail }, rfl,
    h.setFamily hd⟩

theorem clearParent_agrees : Agrees (Links.Twin L K) E (fun _ => True)
    (Program.modify fun m => { m with pParent := Function.update m.pParent p none } :
      Program (Links n) χ Fault Unit) := by
  refine .modify fun m m' hm => ?_
  obtain ⟨c, rfl, h⟩ := hm
  exact ⟨{ c with pParent := Function.update c.pParent p none }, rfl, h.setParent nofun⟩

theorem removeChild_agrees (hp : p ∈ L) :
    Agrees (Links.Twin L K) E (fun r => ∀ q ∈ r, q ∈ L)
      (removeChild p : Program (Links n) χ Fault _) := by
  unfold removeChild
  refine Agrees.bind (V := fun _ => True) (.gets fun m m' hm => ?_) fun b _ => ?_
  · obtain ⟨c, rfl, h⟩ := hm
    exact ⟨congrArg Option.isNone (h.pChildren hp), trivial⟩
  refine .ite Iff.rfl (fun _ => .pure fun _ _ hm => ⟨rfl, nofun, hm⟩) fun _ => ?_
  refine family_agrees hp fun d d' hd => ?_
  refine .bind (clistHead_agrees hd) fun x y => ?_
  refine .known fun hxy => .known fun hx => ?_
  subst hxy
  refine clearParent_agrees.bind fun _ _ => ?_
  refine .bind (clistDequeue_agrees hd) fun u u' => .known fun hu => ?_
  refine .bind (setFamily_agrees hu) fun _ _ => ?_
  exact .pure fun _ _ hm => ⟨rfl, fun q hq => Option.some.inj hq ▸ hd.sub hx, hm⟩

theorem outChild_agrees (hp : p ∈ L) :
    Agrees (Links.Twin L K) E (fun _ => True) (outChild p : Program (Links n) χ Fault _) := by
  unfold outChild
  refine Agrees.bind (V := fun o => ∀ q ∈ o, q ∈ L) (.gets fun m m' hm => ?_) fun o ho => ?_
  · obtain ⟨c, rfl, h⟩ := hm
    exact ⟨h.pParent hp, h.parent_mem p hp⟩
  cases o with
  | none => exact .pure fun _ _ hm => ⟨rfl, trivial, hm⟩
  | some dad =>
      refine clearParent_agrees.bind fun _ _ => ?_
      refine family_agrees (ho dad rfl) fun d d' hd => ?_
      refine .bind (clistDelete_agrees hd) fun u u' => .known fun _ => .known fun hu => ?_
      refine .bind (setFamily_agrees hu) fun _ _ => ?_
      exact .pure fun _ _ hm => ⟨rfl, trivial, hm⟩

/-! ### Code that sees the lists only -/

theorem twin_read {f : Links n → α} (h : ∀ m c : Links n, f (m.graft c) = f m) :
    Agrees (Links.Twin L K) E (fun _ => True) (Program.gets f : Program (Links n) χ Fault α) :=
  twin_gets h fun _ => trivial

theorem headProcQ_agrees (q : Option (Fin n)) :
    Agrees (Links.Twin L K) E (fun _ => True) (headProcQ q : Program (Links n) χ Fault _) := by
  unfold headProcQ
  refine (twin_read fun _ _ => rfl).bind fun c _ => ?_
  refine Agrees.ite (fun _ => .pure trivial) fun _ => ?_
  exact (clistHead_self c).bind fun x _ => Agrees.pure trivial

theorem removeProcQ_agrees (q : Option (Fin n)) :
    Agrees (Links.Twin L K) E (fun _ => True) (removeProcQ q : Program (Links n) χ Fault _) := by
  unfold removeProcQ
  refine (twin_read fun _ _ => rfl).bind fun c _ => ?_
  refine Agrees.ite (fun _ => .pure trivial) fun _ => ?_
  refine (clistHead_self c).bind fun x _ => ?_
  refine (clistDequeue_self c).bind fun c' _ => ?_
  exact (twin_modify fun _ _ => rfl).bind fun _ _ => Agrees.pure trivial

/-- A loop over one of the lists. -/
theorem listForeach_agrees {γ : Type} {link : Links n → β → Option β}
    {header : Option β → Program (Links n) χ Fault (Option β)}
    {body : γ → β → Option β → Program (Links n) χ Fault (ForInStep γ)}
    [DecidableEq β] (hlink : ∀ m c : Links n, link (m.graft c) = link m)
    (hheader : ∀ o, Agrees (Links.Twin L K) E (fun _ => True) (header o))
    (hbody : ∀ vars x tmp, Agrees (Links.Twin L K) E (fun _ => True) (body vars x tmp)) {bound : ℕ}
      {vars : γ}
    {scan tmp : Option β} :
    Agrees (Links.Twin L K) E (fun _ => True)
      (clistForeach bound link header body vars scan tmp) := by
  refine clistForeach_agrees (G := Set.univ) (fun m m' hm x _ => ?_)
    (fun o _ => (hheader o).weaken fun _ _ _ _ => Set.mem_univ _)
      (fun vars x _ tmp => hbody vars x tmp)
    fun _ _ => Set.mem_univ _
  obtain ⟨c, rfl, -⟩ := hm
  exact ⟨(congrFun (hlink m c) x).symm, fun _ _ => Set.mem_univ _⟩

theorem outProcQ_agrees (q : Option (Fin n)) (p : Fin n) :
    Agrees (Links.Twin L K) E (fun _ => True) (outProcQ q p : Program (Links n) χ Fault _) := by
  unfold outProcQ
  refine Agrees.bind (V := fun _ => True) ?_ fun r _ => Agrees.pure trivial
  refine listForeach_agrees (fun _ _ => rfl) (fun _ => .pure trivial) fun vars x tmp => ?_
  unfold outProcQBody
  refine Agrees.ite (fun _ => ?_) fun _ => .pure trivial
  refine (twin_read fun _ _ => rfl).bind fun c _ => ?_
  refine (clistForeachDelete_self x tmp c).bind fun c' _ => ?_
  exact (twin_modify fun _ _ => rfl).bind fun _ _ => Agrees.pure trivial

theorem findSemd_agrees (a : ℕ) (semh : Option Semd) :
    Agrees (Links.Twin L K) E (fun _ => True) (findSemd a semh : Program (Links n) χ Fault _) := by
  unfold findSemd
  refine Agrees.bind (V := fun _ => True) ?_ fun r _ => Agrees.pure trivial
  refine listForeach_agrees (fun _ _ => rfl) (fun _ => .pure trivial) fun found x tmp => ?_
  unfold findSemdBody
  refine (twin_read fun _ _ => rfl).bind fun b _ => ?_
  exact Agrees.ite (fun _ => .pure trivial) fun _ => Agrees.ite (fun _ => .pure trivial) fun _ =>
    .pure trivial

theorem headBlocked_agrees (a : ℕ) :
    Agrees (Links.Twin L K) E (fun _ => True) (headBlocked a : Program (Links n) χ Fault _) := by
  unfold headBlocked
  refine (twin_read fun _ _ => rfl).bind fun h _ => ?_
  refine (findSemd_agrees a h).bind fun o _ => ?_
  cases o with
  | none => exact Agrees.pure trivial
  | some d => exact (twin_read fun _ _ => rfl).bind fun q _ => headProcQ_agrees q

theorem retireIfEmpty_agrees (d : Semd) :
    Agrees (Links.Twin L K) E (fun _ => True)
      (retireIfEmpty d : Program (Links n) χ Fault Unit) := by
  unfold retireIfEmpty retireSemd
  refine (twin_read fun _ _ => rfl).bind fun b _ => ?_
  refine Agrees.ite (fun _ => ?_) fun _ => .pure trivial
  refine (twin_read fun _ _ => rfl).bind fun c _ => ?_
  refine (clistDelete_self c).bind fun r _ => ?_
  exact (twin_modify fun _ _ => rfl).bind fun _ _ => twin_modify fun _ _ => rfl

theorem linkSemd_agrees (d : Semd) :
    Agrees (Links.Twin L K) E (fun _ => True) (linkSemd d : Program (Links n) χ Fault Unit) := by
  unfold linkSemd
  refine Agrees.bind (V := fun _ => True) ?_ fun r _ => ?_
  · refine listForeach_agrees (fun _ _ => rfl)
      (fun _ => twin_read fun _ _ => rfl) fun added x tmp => ?_
    unfold linkSemdBody
    refine (twin_read fun _ _ => rfl).bind fun a _ => ?_
    refine (twin_read fun _ _ => rfl).bind fun b _ => ?_
    refine Agrees.ite (fun _ => ?_) fun _ => .pure trivial
    refine (twin_read fun _ _ => rfl).bind fun c _ => ?_
    exact (twin_modify fun _ _ => rfl).bind fun _ _ => Agrees.pure trivial
  · refine Agrees.ite (fun _ => .pure trivial) fun _ => ?_
    refine (twin_read fun _ _ => rfl).bind fun c _ => ?_
    exact Agrees.ite (fun _ => twin_modify fun _ _ => rfl) fun _ => .pure trivial

theorem outBlocked_agrees (hp : p ∈ L) :
    Agrees (Links.Twin L K) E (fun _ => True) (outBlocked p : Program (Links n) χ Fault _) := by
  unfold outBlocked
  refine Agrees.bind (V := fun _ => True) (.gets fun m m' hm => ?_) fun o _ => .need fun d _ => ?_
  · obtain ⟨c, rfl, h⟩ := hm
    exact ⟨h.pCursem hp, trivial⟩
  refine Agrees.bind (V := fun _ => True) ?_ fun r _ => Agrees.pure trivial
  refine listForeach_agrees (fun _ _ => rfl) (fun _ => twin_read fun _ _ => rfl) fun ret x tmp => ?_
  unfold outBlockedBody
  refine Agrees.ite (fun _ => ?_) fun _ => .pure trivial
  refine (twin_read fun _ _ => rfl).bind fun c _ => ?_
  refine (clistForeachDelete_self x tmp c).bind fun c' _ => ?_
  refine (twin_modify fun _ _ => rfl).bind fun _ _ => ?_
  exact (retireIfEmpty_agrees d).bind fun _ _ => Agrees.pure trivial

/-- Writing the descriptor and the pointer to it. -/
theorem setCursem_agrees {f : Links n → Links n} (v : Option Semd)
    (hf : ∀ m, f m = { m with
      pCursem := Function.update m.pCursem p v
      sSemAdd := (f m).sSemAdd
      sProcq := (f m).sProcq })
    (h : ∀ m c : Links n, (f (m.graft c)).sSemAdd = (f m).sSemAdd ∧
      (f (m.graft c)).sProcq = (f m).sProcq) :
    Agrees (Links.Twin L K) E (fun _ => True)
      (Program.modify f : Program (Links n) χ Fault Unit) := by
  refine .modify fun m m' hm => ?_
  obtain ⟨c, rfl, ha⟩ := hm
  refine ⟨{ c with pCursem := Function.update c.pCursem p v }, ?_, ?_⟩
  · rw [hf (m.graft c), hf m, (h m c).1, (h m c).2]
    rfl
  · rw [hf m]
    exact { ha.setCursem (p := p) v with }

theorem insertBlocked_agrees (a : ℕ) (p : Fin n) :
    Agrees (Links.Twin L K) E (fun _ => True)
      (insertBlocked a p : Program (Links n) χ Fault _) := by
  unfold insertBlocked
  refine Agrees.ite (fun _ => .fail) fun _ => ?_
  refine (twin_read fun _ _ => rfl).bind fun h _ => ?_
  refine (findSemd_agrees a h).bind fun o _ => ?_
  cases o with
  | some d =>
      refine (setCursem_agrees (p := p) (some d) (fun _ => rfl) fun _ _ =>
        ⟨rfl, rfl⟩).bind fun _ _ => ?_
      exact (twin_modify fun _ _ => rfl).bind fun _ _ => Agrees.pure trivial
  | none =>
      refine (twin_read fun _ _ => rfl).bind fun c _ => ?_
      refine Agrees.ite (fun _ => .pure trivial) fun _ => ?_
      refine (clistHead_self c).bind fun d _ => ?_
      refine (clistDequeue_self c).bind fun c' _ => ?_
      refine (twin_modify fun _ _ => rfl).bind fun _ _ => ?_
      refine (setCursem_agrees (p := p) (some d) (fun _ => rfl) fun _ _ =>
        ⟨rfl, rfl⟩).bind fun _ _ => ?_
      refine (twin_modify fun _ _ => rfl).bind fun _ _ => ?_
      exact (linkSemd_agrees d).bind fun _ _ => Agrees.pure trivial

end Tables

end JaeOS
