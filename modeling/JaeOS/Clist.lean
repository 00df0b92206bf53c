import JaeOS.LinkRing
import JaeOS.Program

/-!
# The circular lists of `clist.h`

A list is a header holding a pointer to the last element, threaded through one `struct clist`
field of the elements. `Clist` pairs the header with that link field. The macros are translated
one for one; a macro that dereferences a `NULL` pointer, or makes an element pointer from one,
faults, and so does a loop that goes round more often than its bound.

The loop bounds are never reached on a well-formed list that fits the bound.
-/

open LinkRing

namespace JaeOS

/-- Undefined behaviour: a `NULL` (or `NULL`-made) pointer is used, an array or register bank is
indexed out of range, or a loop does not end. -/
inductive Fault where
  | null
  | bounds
  | loop
  deriving Repr, DecidableEq

structure Clist (α : Type) where
  link : α → Option α
  tail : Option α

variable {α γ σ χ : Type} [DecidableEq α]

def clistEmpty (c : Clist α) : Bool := c.tail.isNone

def clistHead (c : Clist α) : Program σ χ Fault α := do
  let t ← Program.need .null c.tail
  Program.need .null (c.link t)

def clistEnqueue (elem : α) (c : Clist α) : Clist α :=
  match c.tail with
  | none => ⟨Function.update c.link elem (some elem), some elem⟩
  | some t => ⟨Function.update (Function.update c.link elem (c.link t)) t (some elem), some elem⟩

def clistPush (elem : α) (c : Clist α) : Clist α :=
  match c.tail with
  | none => ⟨Function.update c.link elem (some elem), some elem⟩
  | some t => ⟨Function.update (Function.update c.link elem (c.link t)) t (some elem), some t⟩

def clistDequeue (c : Clist α) : Program σ χ Fault (Clist α) := do
  let t ← Program.need .null c.tail
  if c.tail = c.link t then
    pure ⟨c.link, none⟩
  else
    let h ← Program.need .null (c.link t)
    pure ⟨Function.update c.link t (c.link h), c.tail⟩

/-- The `for` loop of `clist_delete`. It does not break: after unlinking `elem` it goes on to the
new end, which it recognises by the head, read again on every round. -/
def clistDeleteLoop (elem : α) : ℕ → Option α → Option α → Clist α → ℕ →
    Program σ χ Fault (ℕ × Clist α)
  | 0, _, _, _, _ => Program.fail .loop
  | n + 1, scan, tmp, c, retval => do
    let s ← Program.need .null scan
    if some s = tmp then
      pure (retval, c)
    else
      let found := c.link s = some elem
      let c' : Clist α :=
        if found then
          ⟨Function.update c.link s (c.link elem), if c.tail = some elem then some s else c.tail⟩
        else c
      let t ← Program.need .null c'.tail
      clistDeleteLoop elem n (c'.link s) (c'.link t) c' (if found then 0 else retval)

/-- The value is 0 if `elem` was unlinked and 1 otherwise. -/
def clistDelete (bound : ℕ) (elem : α) (c : Clist α) : Program σ χ Fault (ℕ × Clist α) :=
  if clistEmpty c then
    pure (1, c)
  else do
    let h ← clistHead c
    if h = elem then
      let c' ← clistDequeue c
      pure (0, c')
    else
      clistDeleteLoop elem (bound + 1) (some h) none c 1

/-- The `for` of `clist_foreach`: `header scan` evaluates `(clistp)->next`, which may depend on the
cursor, `link` reads the link field, and the body carries the loop's other variables along. A body
that breaks answers `done`. The result holds these variables and the cursors `scan` and `tmp`. -/
def clistForeachLoop (link : σ → α → Option α) (header : Option α → Program σ χ Fault (Option α))
    (body : γ → α → Option α → Program σ χ Fault (ForInStep γ)) :
    ℕ → γ → Option α → Option α → Program σ χ Fault (γ × Option α × Option α)
  | 0, _, _, _ => Program.fail .loop
  | n + 1, vars, scan, tmp => do
    let tail ← header scan
    if tmp = tail then
      pure (vars, scan, tmp)
    else
      let s ← Program.need .null scan
      match ← body vars s tmp with
      | .done vars' => pure (vars', scan, tmp)
      | .yield vars' =>
        let scan' ← Program.gets (fun st => link st s)
        clistForeachLoop link header body n vars' scan' (some s)

def clistForeach (bound : ℕ) (link : σ → α → Option α)
    (header : Option α → Program σ χ Fault (Option α))
    (body : γ → α → Option α → Program σ χ Fault (ForInStep γ)) (vars : γ)
    (scan tmp : Option α) : Program σ χ Fault (γ × Option α × Option α) := do
  match ← header scan with
  | none => pure (vars, scan, tmp)
  | some t =>
    let h ← Program.gets (fun st => link st t)
    clistForeachLoop link header body (bound + 1) vars h none

def clistForeachAll (c : Clist α) (tmp : Option α) : Bool :=
  clistEmpty c || tmp = c.tail

def clistForeachAdd (elem scan : α) (tmp : Option α) (c : Clist α) : Clist α :=
  match tmp with
  | some p => ⟨Function.update (Function.update c.link elem (some scan)) p (some elem), c.tail⟩
  | none => clistPush elem c

def clistForeachDelete (scan : α) (tmp : Option α) (c : Clist α) :
    Program σ χ Fault (Clist α) := do
  let h ← clistHead c
  if h = scan then
    clistDequeue c
  else
    let todelete ← Program.need .null tmp
    if c.tail = some scan then
      pure ⟨Function.update c.link todelete (c.link scan), some todelete⟩
    else
      pure ⟨Function.update c.link todelete (c.link scan), c.tail⟩

/-! ### What the macros do to a ring -/

def Clist.Repr (c : Clist α) (l : List α) : Prop := Ring c.link c.tail l

/-- `c'` represents `l`, differs from `c` only in links of the nodes `m`, and no link of a node has
become `NULL`. -/
structure Clist.Moves (c c' : Clist α) (m l : List α) : Prop where
  repr : c'.Repr l
  frame : ∀ x ∉ m, c'.link x = c.link x
  linked : ∀ x, c.link x ≠ none → c'.link x ≠ none

variable {c : Clist α} {e x : α} {l : List α} {s : σ}

omit [DecidableEq α] in
theorem Clist.Repr.ring (h : c.Repr l) : Ring c.link c.tail l := h

omit [DecidableEq α] in
theorem clistEmpty_iff (h : c.Repr l) : clistEmpty c = true ↔ l = [] := by
  rw [clistEmpty, Option.isNone_iff_eq_none]
  exact Ring.tail_none_iff h

omit [DecidableEq α] in
theorem Clist.Repr.tail_cons (h : c.Repr (x :: l)) : ∃ t, c.tail = some t ∧ c.link t = some x := by
  obtain ⟨link, tail⟩ := c
  cases tail with
  | none => cases Ring.eq_nil h
  | some t => exact ⟨t, rfl, Ring.next_tail h⟩

omit [DecidableEq α] in
theorem clistHead_cons (h : c.Repr (x :: l)) :
    (clistHead c : Program σ χ Fault α).run s = .ok x s := by
  obtain ⟨t, ht, hn⟩ := h.tail_cons
  simp [clistHead, ht, hn]

theorem Clist.Repr.update_linked {y : α} (h : c.Repr l) (he : e ∈ l) (hx : c.link x ≠ none) :
    Function.update c.link y (c.link e) x ≠ none := by
  obtain ⟨z, -, hz⟩ := Ring.next_mem h he
  rw [Function.update_apply]
  split
  · rw [hz]
    exact Option.some_ne_none z
  · exact hx

theorem clistEnqueue_repr (h : c.Repr l) (he : e ∉ l) : (clistEnqueue e c).Repr (l ++ [e]) := by
  obtain ⟨link, tail⟩ := c
  cases tail with
  | none =>
      obtain rfl := Ring.eq_nil h
      exact ring_singleton (Function.update_self ..)
  | some t => exact Ring.append h he

theorem clistPush_repr (h : c.Repr l) (he : e ∉ l) : (clistPush e c).Repr (e :: l) := by
  obtain ⟨link, tail⟩ := c
  cases tail with
  | none =>
      obtain rfl := Ring.eq_nil h
      exact ring_singleton (Function.update_self ..)
  | some t => exact Ring.prepend h he

/-- Enqueueing writes the links of the new element and of the old last one only. -/
theorem clistEnqueue_link (h : c.Repr l) (hx : x ∉ l) (hxe : x ≠ e) :
    (clistEnqueue e c).link x = c.link x := by
  obtain ⟨link, tail⟩ := c
  cases tail with
  | none => exact Function.update_of_ne hxe ..
  | some t =>
      have hxt : x ≠ t := fun he => hx (he ▸ Ring.tail_mem h)
      simp [clistEnqueue, Function.update_of_ne hxt, Function.update_of_ne hxe]

theorem clistPush_link (h : c.Repr l) (hx : x ∉ l) (hxe : x ≠ e) :
    (clistPush e c).link x = c.link x := by
  obtain ⟨link, tail⟩ := c
  cases tail with
  | none => exact Function.update_of_ne hxe ..
  | some t =>
      have hxt : x ≠ t := fun he => hx (he ▸ Ring.tail_mem h)
      simp [clistPush, Function.update_of_ne hxt, Function.update_of_ne hxe]

theorem clistDequeue_cons (h : c.Repr (x :: l)) :
    ∃ c', (∀ s : σ, (clistDequeue c : Program σ χ Fault (Clist α)).run s = .ok c' s) ∧
      c.Moves c' (x :: l) l := by
  obtain ⟨t, ht, hn⟩ := h.tail_cons
  obtain ⟨link, tail⟩ := c
  obtain rfl : tail = some t := ht
  cases l with
  | nil =>
      obtain ⟨rfl, -⟩ := Ring.single_next h
      refine ⟨⟨link, none⟩, fun s => ?_, ring_nil, fun _ _ => rfl, fun _ hx => hx⟩
      have hlink : link t = some t := hn
      simp [clistDequeue, hlink]
  | cons y l =>
      have hmem : t ∈ y :: l := Ring.tail_mem (Ring.dropHead h)
      have hne : ¬ t = x := fun he => (List.nodup_cons.mp h.nodup).1 (he ▸ hmem)
      have hlink : link t = some x := hn
      refine ⟨⟨Function.update link t (link x), some t⟩, fun s => ?_, Ring.dropHead h, ?_,
        fun _ hz => h.update_linked List.mem_cons_self hz⟩
      · simp [clistDequeue, hlink, hne]
      · intro z hz
        have hzt : z ≠ t := fun he => hz (List.mem_cons_of_mem x (he ▸ hmem))
        exact Function.update_of_ne hzt ..

/-- `clist_foreach_add` puts the node in front of the cursor. -/
theorem clistForeachAdd_repr {pre post : List α} (h : c.Repr (pre ++ x :: post))
    (he : e ∉ pre ++ x :: post) :
    (clistForeachAdd e x pre.getLast? c).Repr (pre ++ e :: x :: post) := by
  rcases List.eq_nil_or_concat' pre with rfl | ⟨pre, p, rfl⟩
  · exact clistPush_repr h he
  · have h' : Ring c.link c.tail (pre ++ p :: x :: post) := by simpa using h.ring
    have he' : e ∉ pre ++ p :: x :: post := by simpa using he
    simpa [clistForeachAdd, Clist.Repr] using Ring.insert h' he'

theorem clistForeachAdd_link {pre post : List α} {y : α} (h : c.Repr (pre ++ x :: post))
    (hy : y ∉ pre ++ x :: post) (hye : y ≠ e) :
    (clistForeachAdd e x pre.getLast? c).link y = c.link y := by
  rcases List.eq_nil_or_concat' pre with rfl | ⟨pre, p, rfl⟩
  · exact clistPush_link h hy hye
  · have hyp : y ≠ p := fun he => hy (by simp [he])
    simp [clistForeachAdd, Function.update_of_ne hyp, Function.update_of_ne hye]

/-- Behind `pre`, `clist_foreach_all` tells whether nothing is left. -/
theorem clistForeachAll_iff {pre post : List α} (h : c.Repr (pre ++ post)) :
    clistForeachAll c pre.getLast? = true ↔ post = [] := by
  rw [clistForeachAll, Bool.or_eq_true, clistEmpty_iff h, decide_eq_true_eq, h.ring.tail_eq]
  cases post with
  | nil => simp
  | cons x post =>
      obtain ⟨t, ht⟩ : ∃ t, (x :: post).getLast? = some t := ⟨_, List.getLast?_cons ..⟩
      have hne : pre.getLast? ≠ some t := fun he =>
        (List.disjoint_of_nodup_append h.ring.nodup) (List.mem_of_getLast? he)
          (List.mem_of_getLast? ht)
      simp [List.getLast?_append, ht, hne]

/-- An addition leaves the tail pointer of a list that is not empty. -/
theorem clistForeachAdd_tail {pre post : List α} (h : c.Repr (pre ++ x :: post)) (tmp : Option α) :
    (clistForeachAdd e x tmp c).tail = c.tail := by
  obtain ⟨y, l, hl⟩ : ∃ y l, pre ++ x :: post = y :: l := List.exists_cons_of_ne_nil (by simp)
  obtain ⟨t, ht, -⟩ := (hl ▸ h).tail_cons
  cases tmp with
  | none => simp [clistForeachAdd, clistPush, ht]
  | some p => rfl

/-- After an addition `clist_foreach_all` tells that the loop was broken. -/
theorem clistForeachAdd_all {pre post : List α} (h : c.Repr (pre ++ x :: post)) :
    clistForeachAll (clistForeachAdd e x pre.getLast? c) pre.getLast? = false := by
  have hall : ¬ clistForeachAll c pre.getLast? = true := by simp [clistForeachAll_iff h]
  rw [Bool.not_eq_true] at hall
  rw [← hall, clistForeachAll, clistForeachAll, clistEmpty, clistEmpty, clistForeachAdd_tail h]

/-- `e` put between `pre` and `post`: enqueued if nothing comes after it, else added under the
cursor. -/
def clistPlace (e : α) (pre post : List α) (c : Clist α) : Clist α :=
  match post with
  | [] => clistEnqueue e c
  | x :: _ => clistForeachAdd e x pre.getLast? c

theorem clistPlace_repr {pre post : List α} (h : c.Repr (pre ++ post)) (he : e ∉ pre ++ post) :
    (clistPlace e pre post c).Repr (pre ++ e :: post) := by
  cases post with
  | nil =>
      rw [List.append_nil] at h he
      exact clistEnqueue_repr h he
  | cons x post => exact clistForeachAdd_repr h he

theorem clistPlace_link {pre post : List α} (h : c.Repr (pre ++ post)) (hx : x ∉ pre ++ post)
    (hxe : x ≠ e) : (clistPlace e pre post c).link x = c.link x := by
  cases post with
  | nil => exact clistEnqueue_link h hx hxe
  | cons y post => exact clistForeachAdd_link h hx hxe

/-! ### Deletion -/

def clistUnlink (p e : α) (c : Clist α) : Clist α :=
  ⟨Function.update c.link p (c.link e), if c.tail = some e then some p else c.tail⟩

theorem clistUnlink_moves {pre post : List α} {p : α} (h : c.Repr (pre ++ p :: e :: post)) :
    c.Moves (clistUnlink p e c) (pre ++ p :: e :: post) (pre ++ p :: post) := by
  have hr := h.ring
  constructor
  · cases post with
    | nil =>
        have ht : c.tail = some e := by simpa using hr.tail_eq
        rw [clistUnlink, if_pos ht]
        exact Ring.unlinkLast hr
    | cons z post =>
        have ht : ¬ c.tail = some e := by
          intro ht
          have hlast : (z :: post).getLast? = some e := by
            rw [← ht, hr.tail_eq]
            simp [List.getLast?_append, List.getLast?_cons]
          have hnd := (List.nodup_cons.mp (List.nodup_append.mp hr.nodup).2.1).2
          exact (List.nodup_cons.mp hnd).1 (List.mem_of_getLast? hlast)
        rw [clistUnlink, if_neg ht]
        exact Ring.unlink hr
  · intro x hx
    have hxp : x ≠ p := fun he => hx (by simp [he])
    exact Function.update_of_ne hxp ..
  · intro x hx
    exact h.update_linked (by simp) hx

omit [DecidableEq α] in
theorem head_ne_behind {pre post : List α} {p y : α} (hnd : (pre ++ p :: e :: post).Nodup)
    (hl : pre ++ p :: e :: post = y :: l) : y ≠ e := by
  have hsplit : pre ++ p :: e :: post = (pre ++ [p]) ++ (e :: post) := by simp
  have hy : y ∈ pre ++ [p] := by
    cases pre with
    | nil => simp [← (List.cons.inj hl).1]
    | cons z pre => simp [← (List.cons.inj hl).1]
  rw [hsplit] at hnd
  intro he
  exact (List.disjoint_of_nodup_append hnd) hy (he ▸ List.mem_cons_self)

/-- With the trailing cursor on its predecessor, `clist_foreach_delete` unlinks the element. -/
theorem clistForeachDelete_behind {pre post : List α} {p : α} (h : c.Repr (pre ++ p :: e :: post)) :
    (clistForeachDelete e (some p) c : Program σ χ Fault (Clist α)).run s =
      .ok (clistUnlink p e c) s := by
  obtain ⟨y, l, hl⟩ : ∃ y l, pre ++ p :: e :: post = y :: l := List.exists_cons_of_ne_nil (by simp)
  rw [clistForeachDelete, Program.run_bind_ok (clistHead_cons (hl ▸ h)),
    if_neg (head_ne_behind h.ring.nodup hl)]
  by_cases ht : c.tail = some e
  · simp [ht, clistUnlink]
  · simp [ht, clistUnlink]

theorem clistForeachDelete_head (h : c.Repr (x :: l)) (tmp : Option α) :
    (clistForeachDelete x tmp c : Program σ χ Fault (Clist α)).run s = (clistDequeue c).run s := by
  rw [clistForeachDelete, Program.run_bind_ok (clistHead_cons h), if_pos rfl]

/-- At its place in a ring, with the cursor on its predecessor, `clist_foreach_delete` unlinks. -/
theorem clistForeachDelete_repr {pre post : List α} (h : c.Repr (pre ++ x :: post)) :
    ∃ c', (∀ s : σ, (clistForeachDelete x pre.getLast? c : Program σ χ Fault (Clist α)).run s =
      .ok c' s) ∧ c.Moves c' (pre ++ x :: post) (pre ++ post) := by
  rcases List.eq_nil_or_concat' pre with rfl | ⟨pre, p, rfl⟩
  · obtain ⟨c', hr, hm⟩ := clistDequeue_cons (σ := σ) (χ := χ) h
    exact ⟨c', fun s => (clistForeachDelete_head h _).trans (hr s), hm⟩
  · rw [List.append_assoc, List.singleton_append] at h
    refine ⟨clistUnlink p x c, fun s => ?_, by simpa using clistUnlink_moves h⟩
    rw [List.getLast?_concat]
    exact clistForeachDelete_behind h

/-- The loop of `clist_delete` passes nodes whose successor is not `e`. -/
theorem clistDeleteLoop_skip {t y : α} {pre : List α} {a b tmp : Option α} {n r : ℕ}
    (hp : Path c.link a pre b) (ht : c.tail = some t) (hh : c.link t = some y)
    (hne : ∀ z ∈ pre, c.link z ≠ some e) (htmp : ∀ z ∈ pre, some z ≠ tmp)
    (hhd : ∀ z ∈ pre.tail, z ≠ y) :
    (clistDeleteLoop e (n + pre.length) a tmp c r : Program σ χ Fault (ℕ × Clist α)).run s =
      (clistDeleteLoop e n b (if pre = [] then tmp else some y) c r :
        Program σ χ Fault (ℕ × Clist α)).run s := by
  induction pre generalizing a tmp with
  | nil => obtain rfl := hp; rfl
  | cons z pre ih =>
      obtain ⟨rfl, hp⟩ := hp
      have hz : c.link z ≠ some e := hne z List.mem_cons_self
      have hzt : some z ≠ tmp := htmp z List.mem_cons_self
      have htmp' : ∀ w ∈ pre, some w ≠ some y := fun w hw he => hhd w hw (Option.some.inj he)
      have hstep := ih hp (fun w hw => hne w (List.mem_cons_of_mem z hw)) htmp'
        (fun w hw => hhd w (List.mem_of_mem_tail hw))
      rw [List.length_cons, ← Nat.add_assoc, clistDeleteLoop]
      simp only [Program.need_some, Program.run_pure_bind, if_neg hzt, if_neg hz, ht, hh]
      rw [hstep]
      cases pre <;> simp

theorem clistDeleteLoop_stop {n r : ℕ} :
    (clistDeleteLoop e (n + 1) (some x) (some x) c r : Program σ χ Fault (ℕ × Clist α)).run s =
      .ok (r, c) s := by
  simp [clistDeleteLoop]

theorem clistDeleteLoop_found {t : α} {tmp : Option α} {n r : ℕ} (hx : some x ≠ tmp)
    (he : c.link x = some e)
    (ht : (if c.tail = some e then some x else c.tail) = some t) :
    (clistDeleteLoop e (n + 1) (some x) tmp c r : Program σ χ Fault (ℕ × Clist α)).run s =
      (clistDeleteLoop e n (c.link e) (Function.update c.link x (c.link e) t)
        ⟨Function.update c.link x (c.link e), some t⟩ 0 :
          Program σ χ Fault (ℕ × Clist α)).run s := by
  rw [clistDeleteLoop]
  simp only [Program.need_some, Program.run_pure_bind, if_neg hx, if_pos he, ht,
    Function.update_self]

/-- The walk of `clist_delete` from the head over the whole of a ring that does not hold `e`. -/
theorem clistDeleteLoop_absent {y : α} {n r : ℕ} (h : c.Repr (y :: l)) (he : e ∉ y :: l) :
    (clistDeleteLoop e (n + (y :: l).length + 1) (some y) none c r :
      Program σ χ Fault (ℕ × Clist α)).run s = .ok (r, c) s := by
  obtain ⟨t, ht, hn⟩ := h.tail_cons
  have hne : ∀ z ∈ y :: l, c.link z ≠ some e := by
    intro z hz hze
    obtain ⟨w, hw, hzw⟩ := Ring.next_mem h hz
    exact he (Option.some.inj (hze.symm.trans hzw) ▸ hw)
  have hyl : ∀ z ∈ l, z ≠ y := fun z hz hzy => (List.nodup_cons.mp h.nodup).1 (hzy ▸ hz)
  have hpath : Path c.link (some y) (y :: l) (some y) := h.path
  rw [Nat.add_right_comm, clistDeleteLoop_skip hpath ht hn hne (by simp) hyl]
  exact clistDeleteLoop_stop

/-- The walk of `clist_delete` when `e` stands behind `p`: past `pre`, over `e`, to the head. -/
theorem clistDeleteLoop_present {y p : α} {pre post : List α} {n r : ℕ}
    (h : c.Repr (pre ++ p :: e :: post)) (hy : (pre ++ [p]).head? = some y) :
    (clistDeleteLoop e (n + (pre ++ p :: e :: post).length + 1) (some y) none c r :
      Program σ χ Fault (ℕ × Clist α)).run s =
        .ok (0, clistUnlink p e c) s := by
  have hnd : ((pre ++ [p]) ++ (e :: post)).Nodup := by simpa using h.ring.nodup
  have hdisj := List.disjoint_of_nodup_append hnd
  have hprep : (pre ++ [p]).Nodup := (List.nodup_append.mp hnd).1
  obtain ⟨k, hk⟩ : ∃ k, pre ++ [p] = y :: k := List.head?_eq_some_iff.mp hy
  have hymem : y ∈ pre ++ [p] := by simp [hk]
  have hhead : (pre ++ p :: e :: post).head? = some y := by rw [← hy]; cases pre <;> rfl
  obtain ⟨l, hl⟩ : ∃ l, pre ++ p :: e :: post = y :: l := List.head?_eq_some_iff.mp hhead
  obtain ⟨t, ht, hn⟩ := (hl ▸ h : c.Repr (y :: l)).tail_cons
  have hpath := h.ring.path
  rw [hhead, path_append] at hpath
  obtain ⟨m, hpre, rfl, hlink, hpost⟩ := hpath
  have hne : ∀ z ∈ pre, c.link z ≠ some e := by
    intro z hz hze
    rcases path_next_mem hpre hz with hzp | ⟨w, hw, hzw⟩
    · have hep : e = p := Option.some.inj (hze.symm.trans hzp)
      exact hdisj (by simp [hep]) List.mem_cons_self
    · have hew : e = w := Option.some.inj (hze.symm.trans hzw)
      exact hdisj (List.mem_append_left _ (hew ▸ hw)) List.mem_cons_self
  have hhd : ∀ z ∈ pre.tail, z ≠ y := by
    rintro z hz rfl
    cases pre with
    | nil => cases hz
    | cons w pre =>
        obtain ⟨rfl, -⟩ := List.cons.inj (hk.symm.trans (List.cons_append ..))
        rw [List.cons_append] at hprep
        exact (List.nodup_cons.mp hprep).1 (List.mem_append_left _ hz)
  -- past `pre`, the cursor is on `p`
  have hlen : n + (pre ++ p :: e :: post).length + 1 = (n + 1 + 1 + post.length + 1) +
      pre.length := by
    simp only [List.length_append, List.length_cons]
    omega
  rw [hlen, clistDeleteLoop_skip hpre ht hn hne (by simp) hhd]
  have hptmp : some p ≠ if pre = [] then none else some y := by
    cases pre with
    | nil => simp
    | cons w pre =>
        obtain ⟨rfl, -⟩ := List.cons.inj (hk.symm.trans (List.cons_append ..))
        rw [List.cons_append] at hprep
        have hpy : p ≠ y := fun hpy => (List.nodup_cons.mp hprep).1 (by simp [hpy])
        simpa using hpy
  -- over `e`; what is left of the ring holds `e` no more
  have hring := (clistUnlink_moves h).repr.ring
  simp only [clistUnlink] at hring ⊢
  obtain ⟨t', ht'⟩ : ∃ t', (if c.tail = some e then some p else c.tail) = some t' := by
    split
    · exact ⟨p, rfl⟩
    · exact ⟨t, ht⟩
  rw [clistDeleteLoop_found hptmp hlink ht', ht']
  rw [ht'] at hring
  have hhead' : (pre ++ p :: post).head? = some y := by rw [← hy]; cases pre <;> rfl
  have hnext : Function.update c.link p (c.link e) t' = some y := by
    rw [← hhead']
    exact Ring.next_tail hring
  have hep : e ∉ pre ++ p :: post := by
    intro he
    rcases List.mem_append.mp he with he | he
    · exact hdisj (List.mem_append_left _ he) List.mem_cons_self
    · rcases List.mem_cons.mp he with rfl | he
      · exact hdisj (by simp) List.mem_cons_self
      · exact (List.nodup_cons.mp (List.nodup_append.mp hnd).2.1).1 he
  have hne' : ∀ z ∈ post, Function.update c.link p (c.link e) z ≠ some e := by
    intro z hz hze
    obtain ⟨w, hw, hzw⟩ := Ring.next_mem hring (x := z) (by simp [hz])
    exact hep (Option.some.inj (hze.symm.trans hzw) ▸ hw)
  have hypost : ∀ z ∈ post, z ≠ y := fun z hz hzy =>
    hdisj hymem (List.mem_cons_of_mem e (hzy ▸ hz))
  have hppost : p ∉ post := fun hp => hdisj (by simp) (List.mem_cons_of_mem e hp)
  have hpost' := (path_update (c := c.link e) hppost).mpr hpost
  rw [hnext, clistDeleteLoop_skip hpost' rfl hnext hne'
    (fun z hz he => hypost z hz (Option.some.inj he))
    (fun z hz => hypost z (List.mem_of_mem_tail hz))]
  simp only [ite_self]
  exact clistDeleteLoop_stop

theorem clistDelete_head {bound : ℕ} {c' : Clist α} (h : c.Repr (x :: l))
    (hr : (clistDequeue c : Program σ χ Fault (Clist α)).run s = .ok c' s) :
    (clistDelete bound x c : Program σ χ Fault (ℕ × Clist α)).run s = .ok (0, c') s := by
  have hemp : ¬ clistEmpty c = true := fun he => List.cons_ne_nil x l ((clistEmpty_iff h).mp he)
  rw [clistDelete, if_neg hemp, Program.run_bind_ok (clistHead_cons h), if_pos rfl,
    Program.run_bind_ok hr]
  rfl

theorem clistDelete_behind {bound : ℕ} {pre post : List α} {p : α}
    (h : c.Repr (pre ++ p :: e :: post)) (hb : (pre ++ p :: e :: post).length ≤ bound) :
    (clistDelete bound e c : Program σ χ Fault (ℕ × Clist α)).run s =
      .ok (0, clistUnlink p e c) s := by
  obtain ⟨y, hy⟩ : ∃ y, (pre ++ [p]).head? = some y := by cases pre <;> simp
  obtain ⟨l, hl⟩ : ∃ l, pre ++ p :: e :: post = y :: l := by
    apply List.head?_eq_some_iff.mp
    rw [← hy]
    cases pre <;> rfl
  have hye : ¬ y = e := head_ne_behind h.ring.nodup hl
  have hrepr : c.Repr (y :: l) := hl ▸ h
  have hemp : ¬ clistEmpty c = true := fun he => List.cons_ne_nil y l ((clistEmpty_iff hrepr).mp he)
  obtain ⟨n, rfl⟩ : ∃ n, bound = n + (pre ++ p :: e :: post).length :=
    ⟨_, (Nat.sub_add_cancel hb).symm⟩
  rw [clistDelete, if_neg hemp, Program.run_bind_ok (clistHead_cons hrepr), if_neg hye]
  exact clistDeleteLoop_present h hy

theorem clistDelete_absent {bound : ℕ} (h : c.Repr l) (hb : l.length ≤ bound) (he : e ∉ l) :
    (clistDelete bound e c : Program σ χ Fault (ℕ × Clist α)).run s = .ok (1, c) s := by
  cases l with
  | nil =>
      rw [clistDelete, if_pos ((clistEmpty_iff h).mpr rfl)]
      rfl
  | cons y l =>
      have hemp : ¬ clistEmpty c = true := fun he => List.cons_ne_nil y l ((clistEmpty_iff h).mp he)
      have hye : ¬ y = e := fun hye => he (hye ▸ List.mem_cons_self)
      obtain ⟨n, rfl⟩ : ∃ n, bound = n + (y :: l).length := ⟨_, (Nat.sub_add_cancel hb).symm⟩
      rw [clistDelete, if_neg hemp, Program.run_bind_ok (clistHead_cons h), if_neg hye]
      exact clistDeleteLoop_absent h he

/-- At its place in a ring an element is deleted alike under the cursor of a loop and by
`clist_delete`. -/
theorem clistDelete_present {bound : ℕ} {pre post : List α} (h : c.Repr (pre ++ e :: post))
    (hb : (pre ++ e :: post).length ≤ bound) :
    ∃ c', (∀ s : σ, (clistForeachDelete e pre.getLast? c : Program σ χ Fault (Clist α)).run s =
        .ok c' s) ∧
      (∀ s : σ, (clistDelete bound e c : Program σ χ Fault (ℕ × Clist α)).run s = .ok (0, c') s) ∧
      c.Moves c' (pre ++ e :: post) (pre ++ post) := by
  rcases List.eq_nil_or_concat' pre with rfl | ⟨pre, p, rfl⟩
  · obtain ⟨c', hr, hm⟩ := clistDequeue_cons (σ := σ) (χ := χ) h
    refine ⟨c', fun s => ?_, fun s => clistDelete_head h (hr s), hm⟩
    exact (clistForeachDelete_head h _).trans (hr s)
  · rw [List.append_assoc, List.singleton_append] at h hb
    refine ⟨clistUnlink p e c, fun s => ?_, fun s => clistDelete_behind h hb,
      by simpa using clistUnlink_moves h⟩
    rw [List.getLast?_concat]
    exact clistForeachDelete_behind h

theorem erase_present {pre post : List α} (hnd : (pre ++ e :: post).Nodup) :
    e ∉ pre ∧ (pre ++ e :: post).erase e = pre ++ post := by
  have hpre : e ∉ pre := fun hm => (List.disjoint_of_nodup_append hnd) hm List.mem_cons_self
  rw [List.erase_append_right _ hpre, List.erase_cons_head]
  exact ⟨hpre, rfl⟩

/-- `clist_delete` unlinks a present element, wherever it stands, and leaves the list alone when
the element is absent. -/
theorem clistDelete_repr {bound : ℕ} (h : c.Repr l) (hb : l.length ≤ bound) :
    ∃ c', (∀ s : σ, (clistDelete bound e c : Program σ χ Fault (ℕ × Clist α)).run s =
        .ok (if e ∈ l then 0 else 1, c') s) ∧ c.Moves c' l (l.erase e) ∧ (e ∉ l → c' = c) := by
  by_cases he : e ∈ l
  · obtain ⟨pre, post, rfl⟩ := List.append_of_mem he
    obtain ⟨c', -, hr, hm⟩ := clistDelete_present (σ := σ) (χ := χ) h hb
    refine ⟨c', fun s => ?_, ?_, fun hn => absurd he hn⟩
    · rw [if_pos he]
      exact hr s
    · rw [(erase_present h.nodup).2]
      exact hm
  · refine ⟨c, fun s => ?_, ⟨?_, fun _ _ => rfl, fun _ hx => hx⟩, fun _ => rfl⟩
    · rw [if_neg he]
      exact clistDelete_absent h hb he
    · rwa [List.erase_of_not_mem he]

/-! ### Iteration -/

section Foreach

variable {link : σ → α → Option α} {header : Option α → Program σ χ Fault (Option α)}
  {body : γ → α → Option α → Program σ χ Fault (ForInStep γ)} {tail : Option α} {bound : ℕ}

/-- From `vars` on, the body lets the nodes of the list by one after the other, and only the loop's
variables change, along `f`. -/
def Yields (body : γ → α → Option α → Program σ χ Fault (ForInStep γ)) (s : σ) (f : γ → α → γ) :
    γ → List α → Prop
  | _, [] => True
  | vars, x :: l =>
      (∀ tmp, (body vars x tmp).run s = .ok (.yield (f vars x)) s) ∧ Yields body s f (f vars x) l

omit [DecidableEq α] in
theorem Yields.of_forall {f : γ → α → γ} {vars : γ}
    (h : ∀ vars, ∀ x ∈ l, ∀ tmp, (body vars x tmp).run s = .ok (.yield (f vars x)) s) :
    Yields body s f vars l := by
  induction l generalizing vars with
  | nil => trivial
  | cons x l ih =>
      exact ⟨h vars x List.mem_cons_self, ih fun v y hy => h v y (List.mem_cons_of_mem x hy)⟩

omit [DecidableEq α] in
theorem yields_append {f : γ → α → γ} {vars : γ} {l₁ l₂ : List α} :
    Yields body s f vars (l₁ ++ l₂) ↔
      Yields body s f vars l₁ ∧ Yields body s f (l₁.foldl f vars) l₂ := by
  induction l₁ generalizing vars with
  | nil => exact (and_iff_right trivial).symm
  | cons x l₁ ih =>
      simp only [List.cons_append, Yields, ih, List.foldl_cons, and_assoc]

/-- A body that only looks at the nodes `pre` takes the cursors past them. -/
theorem clistForeachLoop_skip {pre : List α} {a b tmp : Option α} {vars : γ} {n : ℕ}
    (f : γ → α → γ) (hp : Path (link s) a pre b)
    (hheader : ∀ x ∈ pre, (header (some x)).run s = .ok tail s) (hbody : Yields body s f vars pre)
    (hpre : ∀ x ∈ pre, some x ≠ tail) (htmp : tmp ≠ tail) :
    (clistForeachLoop link header body (n + pre.length) vars a tmp).run s =
      (clistForeachLoop link header body n (pre.foldl f vars) b (pre.getLast?.or tmp)).run s := by
  induction pre generalizing a tmp vars with
  | nil => obtain rfl := hp; rfl
  | cons x pre ih =>
      obtain ⟨rfl, hp⟩ := hp
      have hx : (header (some x)).run s = .ok tail s := hheader x List.mem_cons_self
      obtain ⟨hb, hbody⟩ := hbody
      rw [List.length_cons, ← Nat.add_assoc, clistForeachLoop, Program.run_bind_ok hx,
        if_neg htmp]
      simp only [Program.need_some, Program.run_pure_bind]
      rw [Program.run_bind_ok (hb tmp)]
      simp only [Program.run_gets_bind]
      rw [ih hp (fun y hy => hheader y (List.mem_cons_of_mem x hy)) hbody
        (fun y hy => hpre y (List.mem_cons_of_mem x hy)) (hpre x List.mem_cons_self),
        List.foldl_cons]
      cases pre <;> simp [List.getLast?_cons]

/-- A loop whose body breaks at `x`, having only looked at the nodes before it. -/
theorem clistForeach_break {pre post : List α} {x : α} {vars vars' : γ} {scan tmp : Option α}
    {s' : σ} (f : γ → α → γ) (h : Ring (link s) tail (pre ++ x :: post))
    (hb : (pre ++ x :: post).length ≤ bound) (hheader₀ : (header scan).run s = .ok tail s)
    (hheader : ∀ y ∈ pre ++ [x], (header (some y)).run s = .ok tail s)
    (hbody : Yields body s f vars pre)
    (hdone : (body (pre.foldl f vars) x pre.getLast?).run s = .ok (.done vars') s') :
    (clistForeach bound link header body vars scan tmp).run s =
      .ok (vars', some x, pre.getLast?) s' := by
  obtain ⟨t, rfl⟩ : ∃ t, tail = some t := by
    cases tail with
    | none => have := h.eq_nil; simp at this
    | some t => exact ⟨t, rfl⟩
  have hlen : pre.length + (1 + post.length) ≤ bound := by simpa [Nat.add_comm] using hb
  obtain ⟨n, rfl⟩ : ∃ n, bound = n + pre.length := ⟨bound - pre.length, by omega⟩
  obtain ⟨init, hinit, hti, hnt⟩ := h.of_tail
  have hpre : ∀ y ∈ pre, some y ≠ some t := by
    rintro y hy he
    obtain rfl : y = t := Option.some.inj he
    have hlast : (x :: post).getLast? = some y := by
      have ht := h.tail_eq
      rw [ht]
      simp [List.getLast?_append, List.getLast?_cons]
    exact (List.disjoint_of_nodup_append h.nodup) hy (List.mem_of_getLast? hlast)
  have hpath := h.path
  rw [path_append] at hpath
  obtain ⟨m, hleft, rfl, -⟩ := hpath
  have htmp : pre.getLast? ≠ some t := by
    intro he
    exact hpre t (List.mem_of_getLast? he) rfl
  rw [clistForeach, Program.run_bind_ok hheader₀]
  simp only [Program.run_gets_bind, hnt]
  rw [Nat.add_right_comm, clistForeachLoop_skip f hleft
    (fun y hy => hheader y (List.mem_append_left _ hy)) hbody hpre (by simp), Option.or_none,
    clistForeachLoop, Program.run_bind_ok (hheader x (by simp)), if_neg htmp]
  simp only [Program.need_some, Program.run_pure_bind]
  rw [Program.run_bind_ok hdone]
  rfl

/-- A loop whose body never breaks visits every node once, head to tail, and leaves the trailing
cursor on the tail. -/
theorem clistForeach_all {x : α} {vars : γ} {scan tmp : Option α}
    (f : γ → α → γ) (h : Ring (link s) tail (x :: l))
    (hb : (x :: l).length ≤ bound) (hheader₀ : (header scan).run s = .ok tail s)
    (hheader : ∀ y ∈ x :: l, (header (some y)).run s = .ok tail s)
    (hbody : Yields body s f vars (x :: l)) :
    (clistForeach bound link header body vars scan tmp).run s =
      .ok ((x :: l).foldl f vars, some x, tail) s := by
  obtain ⟨t, rfl⟩ : ∃ t, tail = some t := by
    cases tail with
    | none => cases h.eq_nil
    | some t => exact ⟨t, rfl⟩
  obtain ⟨init, hinit, hti, hnt⟩ := h.of_tail
  have hlen : init.length + 1 ≤ bound := by
    have := congrArg List.length hinit
    simp at this hb
    omega
  obtain ⟨n, rfl⟩ : ∃ n, bound = n + 1 + init.length := ⟨bound - (init.length + 1), by omega⟩
  have hpath := h.path
  rw [hinit] at hpath hheader hbody
  obtain ⟨hleft, hlast⟩ := path_concat.mp hpath
  rw [← hinit] at hlast
  have hpre : ∀ y ∈ init, some y ≠ some t := fun y hy he => hti (Option.some.inj he ▸ hy)
  rw [clistForeach, Program.run_bind_ok hheader₀]
  simp only [Program.run_gets_bind, hnt]
  have htmp : (init.getLast?).or none ≠ some t := by
    rw [Option.or_none]
    exact fun he => hti (List.mem_of_getLast? he)
  obtain ⟨hbody, hb₁, -⟩ := yields_append.mp hbody
  rw [hinit, Nat.add_right_comm, clistForeachLoop_skip f hleft
    (fun y hy => hheader y (List.mem_append_left _ hy)) hbody hpre (by simp), clistForeachLoop,
    Program.run_bind_ok (hheader t (by simp)), if_neg htmp]
  simp only [Program.need_some, Program.run_pure_bind]
  rw [Program.run_bind_ok (hb₁ _)]
  simp only [Program.run_gets_bind, hlast, List.head?_cons]
  rw [clistForeachLoop, Program.run_bind_ok (hheader x (by rw [← hinit]; simp)), if_pos rfl]
  simp

theorem clistForeach_nil {vars : γ} {scan tmp : Option α}
    (hheader₀ : (header scan).run s = .ok none s) :
    (clistForeach bound link header body vars scan tmp).run s = .ok (vars, scan, tmp) s := by
  rw [clistForeach, Program.run_bind_ok hheader₀]
  rfl

variable (link header body) in
/-- A loop that is not broken visits every node, and `clist_foreach_all` tells so. -/
theorem clistForeach_end (vars : γ) (scan tmp : Option α) (f : γ → α → γ)
    (h : Ring (link s) tail l) (hb : l.length ≤ bound)
    (hheader : ∀ o, (header o).run s = .ok tail s)
    (hbody : Yields body s f vars l) :
    ∃ a b, (clistForeach bound link header body vars scan tmp).run s =
    .ok (l.foldl f vars, a, b) s ∧
      clistForeachAll ⟨link s, tail⟩ b = true := by
  cases l with
  | nil =>
      obtain rfl := h.tail_none_iff.mpr rfl
      exact ⟨scan, tmp, clistForeach_nil (hheader scan), rfl⟩
  | cons x l =>
      refine ⟨some x, tail, clistForeach_all f h hb (hheader scan) (fun y _ => hheader _) hbody, ?_⟩
      simp [clistForeachAll]

variable (link header body) in
/-- A loop that looks for `e`, deletes it under the cursor and breaks deletes as `clist_delete`
does. -/
theorem clistForeach_scanDelete {c : Clist α} (vars : γ) (scan tmp : Option α) (h : c.Repr l)
    (hb : l.length ≤ bound) (hlink : link s = c.link)
    (hheader : ∀ o, (header o).run s = .ok c.tail s)
    (hskip : ∀ v y o, y ≠ e → (body v y o).run s = .ok (.yield v) s) :
    ∃ c' o, (∀ s' : σ, (clistDelete bound e c : Program σ χ Fault (ℕ × Clist α)).run s' =
        .ok (if e ∈ l then 0 else 1, c') s') ∧
      c.Moves c' l (l.erase e) ∧
      (e ∉ l → c' = c ∧
        ∃ a b, (clistForeach bound link header body vars scan tmp).run s = .ok (vars, a, b) s) ∧
      (e ∈ l →
        (∀ s' : σ, (clistForeachDelete e o c : Program σ χ Fault (Clist α)).run s' = .ok c' s') ∧
        ∀ v s', (body vars e o).run s = .ok (.done v) s' →
          (clistForeach bound link header body vars scan tmp).run s = .ok (v, some e, o) s') := by
  have hring : Ring (link s) c.tail l := hlink ▸ h.ring
  by_cases he : e ∈ l
  · obtain ⟨pre, post, rfl⟩ := List.append_of_mem he
    obtain ⟨hpre, herase⟩ := erase_present h.nodup
    obtain ⟨c', hdel, hr, hm⟩ := clistDelete_present (σ := σ) (χ := χ) h hb
    refine ⟨c', pre.getLast?, fun s' => ?_, ?_, fun hn => absurd he hn, fun _ => ⟨hdel, ?_⟩⟩
    · rw [if_pos he]
      exact hr s'
    · rw [herase]
      exact hm
    · intro v s' hdone
      apply clistForeach_break (fun v _ => v) hring hb (hheader _) (fun y _ => hheader _)
        (.of_forall fun v y hy o => hskip v y o (ne_of_mem_of_not_mem hy hpre))
      rw [List.foldl_fixed]
      exact hdone
  · refine ⟨c, none, fun s' => ?_, ⟨?_, fun _ _ => rfl, fun _ hx => hx⟩, fun _ => ⟨rfl, ?_⟩,
      fun hn => absurd hn he⟩
    · rw [if_neg he]
      exact clistDelete_absent h hb he
    · rwa [List.erase_of_not_mem he]
    · obtain ⟨a, b, hloop, -⟩ := clistForeach_end link header body vars scan tmp
        (fun v _ => v) hring hb hheader
        (.of_forall fun v y hy o => hskip v y o (ne_of_mem_of_not_mem hy he))
      rw [List.foldl_fixed] at hloop
      exact ⟨a, b, hloop⟩

/-- From a node of the ring on, a loop that never breaks and lets the ring be runs its body at the
nodes in order. -/
theorem clistForeachLoop_visits {P : σ → Prop} {next : α → Option α}
    {step : γ → α → Program σ χ Fault γ}
    {init : List α} {t : α} {a b tmp : Option α} {vars : γ} {n : ℕ}
    (hp : Path next a (init ++ [t]) b) (ht : t ∉ init) (htmp : tmp ≠ some t) (hs : P s)
    (hlink : ∀ s, P s → link s = next)
    (hheader : ∀ s, P s → ∀ o, (header o).run s = .ok (some t) s)
    (hbody : ∀ s, P s → ∀ v x o,
      (body v x o).run s = (step v x >>= fun v' => pure (ForInStep.yield v')).run s)
    (hstep : ∀ s, P s → ∀ v x v' s', (step v x).run s = .ok v' s' → P s') :
    (clistForeachLoop link header body (n + init.length + 2) vars a tmp).run s =
      ((init ++ [t]).foldlM step vars >>= fun v => pure (v, b, some t)).run s := by
  have hround : ∀ {x : α} {l : List α} {k : ℕ} {o : Option α} {v : γ} {s : σ}, P s → o ≠ some t →
      (∀ v' s', P s' → (clistForeachLoop link header body k v' (next x) (some x)).run s' =
        (l.foldlM step v' >>= fun v => pure (v, b, some t)).run s') →
      (clistForeachLoop link header body (k + 1) v (some x) o).run s =
        ((x :: l).foldlM step v >>= fun v => pure (v, b, some t)).run s := by
    intro x l k o v s hs ho hrest
    rw [clistForeachLoop, Program.run_bind_ok (hheader s hs _), if_neg ho, Program.need_some,
      Program.run_pure_bind, Program.run_bind, hbody s hs, List.foldlM_cons, Program.run_bind_bind,
      Program.run_bind, Program.run_bind]
    cases hx : (step v x).run s with
    | ok v' s' =>
        have hs' := hstep s hs _ _ _ _ hx
        simp only [Program.run_pure, Program.run_gets_bind, hlink s' hs']
        exact hrest v' s' hs'
    | exit e s' => rfl
    | fault f => rfl
  induction init generalizing a tmp vars s with
  | nil =>
      obtain ⟨rfl, hb⟩ := hp
      apply hround hs htmp
      intro v' s' hs'
      rw [clistForeachLoop, Program.run_bind_ok (hheader s' hs' _), if_pos rfl, hb]
      rfl
  | cons x init ih =>
      obtain ⟨rfl, hp⟩ := hp
      have hxt : some x ≠ some t := fun he => ht (Option.some.inj he ▸ List.mem_cons_self)
      have hk : n + (init.length + 1) + 2 = n + init.length + 2 + 1 := by omega
      rw [List.length_cons, List.cons_append, hk]
      apply hround hs htmp
      intro v' s' hs'
      exact ih hp (fun hm => ht (List.mem_cons_of_mem x hm)) hxt hs'

/-- A full loop runs its body once at each node of the list, head to tail, whatever the body does
elsewhere. -/
theorem clistForeach_visits {P : σ → Prop} {next : α → Option α}
    {step : γ → α → Program σ χ Fault γ}
    {vars : γ} {scan tmp : Option α} (h : Ring next tail l) (hb : l.length ≤ bound) (hs : P s)
    (hlink : ∀ s, P s → link s = next)
    (hheader : ∀ s, P s → ∀ o, (header o).run s = .ok tail s)
    (hbody : ∀ s, P s → ∀ v x o,
      (body v x o).run s = (step v x >>= fun v' => pure (ForInStep.yield v')).run s)
    (hstep : ∀ s, P s → ∀ v x v' s', (step v x).run s = .ok v' s' → P s') :
    (clistForeach bound link header body vars scan tmp).run s =
      (l.foldlM step vars >>= fun v =>
        pure (v, if l = [] then scan else l.head?, if l = [] then tmp else tail)).run s := by
  rw [clistForeach, Program.run_bind_ok (hheader s hs scan)]
  cases tail with
  | none =>
      obtain rfl := h.eq_nil
      rfl
  | some t =>
      obtain ⟨init, rfl, hti, hnt⟩ := h.of_tail
      have hne : ¬ init ++ [t] = [] := by simp
      obtain ⟨n, hn⟩ : ∃ n, bound + 1 = n + init.length + 2 := by
        rw [List.length_append, List.length_singleton] at hb
        exact ⟨bound - (init.length + 1), by omega⟩
      simp only [Program.run_gets_bind, hlink s hs, hnt, if_neg hne, hn]
      exact clistForeachLoop_visits h.path hti (by simp) hs hlink hheader hbody hstep

/-- The loop keeps what its body keeps. -/
theorem clistForeach_maintains {ι : Type} {I : ι → σ → Prop} {F : Fault → Prop}
    (hheader : ∀ o, Program.Maintains I F (header o))
    (hbody : ∀ v x o, Program.Maintains I F (body v x o)) (hF : ∀ e, F e) (vars : γ)
    (scan tmp : Option α) :
    Program.Maintains I F (clistForeach bound link header body vars scan tmp) := by
  have hloop : ∀ n vars scan tmp,
      Program.Maintains I F (clistForeachLoop link header body n vars scan tmp) := by
    intro n
    induction n with
    | zero => exact fun _ _ _ => .fail (hF _)
    | succ n ih =>
        intro vars scan tmp
        rw [clistForeachLoop]
        apply (hheader scan).bind
        intro tail
        apply Program.Maintains.ite (.pure _)
        apply (Program.Maintains.need scan (hF _)).bind
        intro x
        apply (hbody vars x tmp).bind
        intro r
        cases r with
        | done vars' => exact .pure _
        | yield vars' => exact (Program.Maintains.gets _).bind fun _ => ih _ _ _
  rw [clistForeach]
  apply (hheader scan).bind
  intro o
  cases o with
  | none => exact .pure _
  | some t => exact (Program.Maintains.gets _).bind fun _ => hloop _ _ _ _

/-! ### The macros that only read the state -/

section Reading

variable {ι : Type} {I : ι → σ → Prop} {F : Fault → Prop} {c : Clist α} {elem : α}

omit [DecidableEq α] in
theorem clistHead_maintains (hF : ∀ e, F e) :
    Program.Maintains I F (clistHead c : Program σ χ Fault α) :=
  (Program.Maintains.need _ (hF _)).bind fun _ => .need _ (hF _)

theorem clistDequeue_maintains (hF : ∀ e, F e) :
    Program.Maintains I F (clistDequeue c : Program σ χ Fault (Clist α)) := by
  apply (Program.Maintains.need _ (hF _)).bind
  intro t
  exact .ite (.pure _) ((Program.Maintains.need _ (hF _)).bind fun _ => .pure _)

theorem clistDelete_maintains (hF : ∀ e, F e) :
    Program.Maintains I F (clistDelete bound elem c : Program σ χ Fault (ℕ × Clist α)) := by
  have hloop : ∀ n scan tmp (c : Clist α) r,
      Program.Maintains I F (clistDeleteLoop elem n scan tmp c r : Program σ χ Fault _) := by
    intro n
    induction n with
    | zero => exact fun _ _ _ _ => .fail (hF _)
    | succ n ih =>
        intro scan tmp c r
        rw [clistDeleteLoop]
        apply (Program.Maintains.need _ (hF _)).bind
        intro s
        apply Program.Maintains.ite (.pure _)
        exact (Program.Maintains.need _ (hF _)).bind fun _ => ih _ _ _ _
  apply Program.Maintains.ite (.pure _)
  apply (clistHead_maintains hF).bind
  intro h
  exact .ite ((clistDequeue_maintains hF).bind fun _ => .pure _) (hloop _ _ _ _ _)

theorem clistForeachDelete_maintains {scan : α} {tmp : Option α} (hF : ∀ e, F e) :
    Program.Maintains I F (clistForeachDelete scan tmp c : Program σ χ Fault (Clist α)) := by
  apply (clistHead_maintains hF).bind
  intro h
  apply Program.Maintains.ite (clistDequeue_maintains hF)
  exact (Program.Maintains.need _ (hF _)).bind fun _ => .ite (.pure _) (.pure _)

end Reading

end Foreach
end JaeOS
