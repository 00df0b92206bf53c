import JaeOS.Asl
import JaeOS.PcbRep

/-!
# What the active semaphore list represents

`AslLists m q ds fs` relates the pointers to the map `q` from semaphore addresses to the processes
waiting there: `ds` are the descriptors in use, in ascending order of address, `fs` the free ones.
Each function of `asl.c` is described once by what it does to `q`, together with the pointers it
leaves alone.
-/

open LinkRing

namespace JaeOS

variable {n : ℕ} {χ : Type}

def descriptors (m : Links n) : List Semd := members m.sLink maxproc m.aslh

def procs (m : Links n) (d : Semd) : List (Fin n) := members m.pList n (m.sProcq d)

def waiting (m : Links n) (a : ℕ) : List (Fin n) :=
  match (descriptors m).find? fun d => m.sSemAdd d = a with
  | some d => procs m d
  | none => []

structure AslLists (m : Links n) (q : ℕ → List (Fin n)) (ds fs : List Semd) : Prop where
  asl_ring : Ring m.sLink m.aslh ds
  free_ring : Ring m.sLink m.semdFree fs
  disjoint : ds.Disjoint fs
  all : ∀ d, d ∈ ds ∨ d ∈ fs
  sorted : ds.Pairwise fun d e => m.sSemAdd d < m.sSemAdd e
  procq : ∀ d ∈ ds, Ring m.pList (m.sProcq d) (q (m.sSemAdd d))
  nonempty : ∀ d ∈ ds, q (m.sSemAdd d) ≠ []
  cursem : ∀ d ∈ ds, ∀ p ∈ q (m.sSemAdd d), m.pCursem p = some d
  unused : ∀ d ∈ fs, m.sProcq d = none
  covered : ∀ a, q a ≠ [] → ∃ d ∈ ds, m.sSemAdd d = a

def AslRep (m : Links n) (q : ℕ → List (Fin n)) : Prop := ∃ ds fs, AslLists m q ds fs

/-- `m'` agrees with `m` outside the descriptors, but for `p` and the `p_list` links of `l`. -/
structure AslFrame (m m' : Links n) (p : Fin n) (l : List (Fin n)) : Prop where
  pParent : m'.pParent = m.pParent
  pChildren : m'.pChildren = m.pChildren
  pSiblings : m'.pSiblings = m.pSiblings
  pcbFree : m'.pcbFree = m.pcbFree
  pList : ∀ x ∉ l, x ≠ p → m'.pList x = m.pList x
  pCursem : ∀ x, x ≠ p → m'.pCursem x = m.pCursem x

/-! ### Descriptors moving between the two lists -/

/-- A list along which `P` is never regained splits where it is lost. -/
theorem exists_split {α : Type} {P : α → Prop} {l : List α} (h : l.Pairwise fun x y => P y → P x) :
    ∃ pre post, l = pre ++ post ∧ (∀ x ∈ pre, P x) ∧ ∀ x ∈ post, ¬ P x := by
  induction l with
  | nil => exact ⟨[], [], rfl, by simp, by simp⟩
  | cons x l ih =>
      obtain ⟨hx, hl⟩ := List.pairwise_cons.mp h
      by_cases hP : P x
      · obtain ⟨pre, post, rfl, hpre, hpost⟩ := ih hl
        exact ⟨x :: pre, post, rfl, List.forall_mem_cons.mpr ⟨hP, hpre⟩, hpost⟩
      · refine ⟨[], x :: l, rfl, by simp, List.forall_mem_cons.mpr ⟨hP, ?_⟩⟩
        exact fun y hy h => hP (hx y hy h)

section Descriptors

variable {m : Links n} {s : Semd} {ds fs pre post : List Semd}

theorem linkSemd_run (hring : Ring m.sLink m.aslh (pre ++ post))
    (hlen : (pre ++ post).length ≤ maxproc) (hpre : ∀ d ∈ pre, m.sSemAdd d ≤ m.sSemAdd s)
    (hpost : ∀ d ∈ post, m.sSemAdd s < m.sSemAdd d) :
    (linkSemd s : Program (Links n) χ Fault Unit).run m =
      .ok () { m with
        sLink := (clistPlace s pre post ⟨m.sLink, m.aslh⟩).link
        aslh := (clistPlace s pre post ⟨m.sLink, m.aslh⟩).tail } := by
  have hbody : ∀ added, ∀ d ∈ pre, ∀ tmp,
      (linkSemdBody s added d tmp : Program (Links n) χ Fault _).run m = .ok (.yield added) m := by
    intro added d hd tmp
    simp [linkSemdBody, Nat.not_lt.mpr (hpre d hd)]
  unfold linkSemd
  cases post with
  | nil =>
      rw [List.append_nil] at hring hlen
      obtain ⟨a, b, hloop, hall⟩ := clistForeach_end (χ := χ) Links.sLink
        (fun _ => Program.gets Links.aslh) (linkSemdBody s) false none none
          (fun added _ => added) hring hlen (by simp)
        (.of_forall hbody)
      rw [Program.run_bind_ok hloop, List.foldl_fixed]
      simp [hall, clistPlace]
  | cons d post =>
      have hlt := hpost d List.mem_cons_self
      have hdone : (linkSemdBody s (pre.foldl (fun added _ => added) false) d pre.getLast? :
          Program (Links n) χ Fault _).run m = .ok (.done true)
            { m with
              sLink := (clistPlace s pre (d :: post) ⟨m.sLink, m.aslh⟩).link
              aslh := (clistPlace s pre (d :: post) ⟨m.sLink, m.aslh⟩).tail } := by
        simp [linkSemdBody, hlt, clistPlace]
      rw [Program.run_bind_ok (clistForeach_break (fun added _ => added) hring hlen (by simp)
        (by simp) (.of_forall hbody) hdone)]
      rfl

theorem retireSemd_run (hasl : Ring m.sLink m.aslh ds) (hfree : Ring m.sLink m.semdFree fs)
    (hdisj : ds.Disjoint fs) (hs : s ∈ ds) :
    ∃ link aslh semdFree, (retireSemd s : Program (Links n) χ Fault Unit).run m =
        .ok () { m with sLink := link, aslh := aslh, semdFree := semdFree } ∧
      Ring link aslh (ds.erase s) ∧ Ring link semdFree (fs ++ [s]) := by
  have hlen : ds.length ≤ maxproc := by simpa using List.Nodup.length_le_card hasl.nodup
  obtain ⟨c, hrun, hmoves, -⟩ := clistDelete_repr (σ := Links n) (χ := χ) (c := ⟨m.sLink, m.aslh⟩)
    (e := s) hasl hlen
  have hsfs : s ∉ fs := hdisj hs
  have hfs : ∀ x ∈ fs, c.link x = m.sLink x := fun x hx =>
    hmoves.frame x fun hd => hdisj hd hx
  have hfree' : Clist.Repr ⟨c.link, m.semdFree⟩ fs := hfree.congr hfs
  refine ⟨(clistEnqueue s ⟨c.link, m.semdFree⟩).link, c.tail,
    (clistEnqueue s ⟨c.link, m.semdFree⟩).tail, ?_, ?_, clistEnqueue_repr hfree' hsfs⟩
  · unfold retireSemd
    simp only [Program.run_gets_bind]
    rw [Program.run_bind_ok (hrun m)]
    rfl
  · refine hmoves.repr.ring.congr fun x hx => ?_
    have hxds : x ∈ ds := List.mem_of_mem_erase hx
    have hxs : x ≠ s := fun he => by
      subst he
      exact (List.Nodup.not_mem_erase hasl.nodup) hx
    exact clistEnqueue_link hfree' (hdisj hxds) hxs

end Descriptors

namespace AslLists

variable {m m' : Links n} {q : ℕ → List (Fin n)} {ds fs : List Semd} {d : Semd} {a : ℕ}
  {p : Fin n}

/-- What other code does to processes that are not blocked does not concern the ASL. -/
theorem congr (h : AslLists m q ds fs) (hadd : m'.sSemAdd = m.sSemAdd)
    (hlink : m'.sLink = m.sLink) (hprocq : m'.sProcq = m.sProcq) (haslh : m'.aslh = m.aslh)
    (hfree : m'.semdFree = m.semdFree)
    (hq : ∀ a, ∀ x ∈ q a, m'.pList x = m.pList x ∧ m'.pCursem x = m.pCursem x) :
    AslLists m' q ds fs where
  asl_ring := by rw [hlink, haslh]; exact h.asl_ring
  free_ring := by rw [hlink, hfree]; exact h.free_ring
  disjoint := h.disjoint
  all := h.all
  sorted := by rw [hadd]; exact h.sorted
  procq d hd := by
    rw [hadd, hprocq]
    exact (h.procq d hd).congr fun x hx => (hq _ x hx).1
  nonempty := by rw [hadd]; exact h.nonempty
  cursem d hd p hp := by
    rw [hadd] at hp
    rw [(hq _ p hp).2]
    exact h.cursem d hd p hp
  unused := by rw [hprocq]; exact h.unused
  covered := by rw [hadd]; exact h.covered

/-- Distinct descriptors in use have distinct addresses. -/
theorem semAdd_inj (h : AslLists m q ds fs) {e : Semd} (hd : d ∈ ds) (he : e ∈ ds)
    (heq : m.sSemAdd d = m.sSemAdd e) : d = e := by
  by_contra hne
  have hsymm : Std.Symm fun d e => m.sSemAdd d ≠ m.sSemAdd e := ⟨fun _ _ h => h.symm⟩
  have hp := h.sorted.imp (S := fun d e => m.sSemAdd d ≠ m.sSemAdd e) fun hlt => Nat.ne_of_lt hlt
  exact hp.forall hd he hne heq

theorem mem_of_nonempty (h : AslLists m q ds fs) (hp : p ∈ q a) :
    ∃ d ∈ ds, m.sSemAdd d = a ∧ m.pCursem p = some d := by
  obtain ⟨d, hd, rfl⟩ := h.covered a (List.ne_nil_of_mem hp)
  exact ⟨d, hd, rfl, h.cursem d hd p hp⟩

/-- No process waits in two queues. -/
theorem queue_unique (h : AslLists m q ds fs) {b : ℕ} (ha : p ∈ q a) (hb : p ∈ q b) : a = b := by
  obtain ⟨d, -, rfl, hd⟩ := h.mem_of_nonempty ha
  obtain ⟨e, -, rfl, he⟩ := h.mem_of_nonempty hb
  rw [Option.some.inj (hd.symm.trans he)]

theorem queue_nodup (h : AslLists m q ds fs) (a : ℕ) : (q a).Nodup := by
  by_cases ha : q a = []
  · rw [ha]
    exact List.nodup_nil
  · obtain ⟨d, hd, rfl⟩ := h.covered a ha
    exact (h.procq d hd).nodup

theorem length_le (h : AslLists m q ds fs) : ds.length ≤ maxproc := by
  have hcard := List.Nodup.length_le_card h.asl_ring.nodup
  simpa using hcard

theorem queue_length_le (h : AslLists m q ds fs) (a : ℕ) : (q a).length ≤ n := by
  have hcard := List.Nodup.length_le_card (h.queue_nodup a)
  simpa using hcard

/-! ### Searching -/

/-- The addresses below `a` come first. -/
theorem split_at (h : AslLists m q ds fs) (a : ℕ) :
    ∃ pre post, ds = pre ++ post ∧ (∀ d ∈ pre, m.sSemAdd d < a) ∧ ∀ d ∈ post, a ≤ m.sSemAdd d := by
  obtain ⟨pre, post, hds, hpre, hpost⟩ := exists_split (P := fun d => m.sSemAdd d < a)
    (h.sorted.imp fun hlt ha => hlt.trans ha)
  exact ⟨pre, post, hds, hpre, fun d hd => Nat.le_of_not_lt (hpost d hd)⟩

/-- `findSemd` finds the descriptor in use at `a`, if there is one. -/
theorem findSemd_run (h : AslLists m q ds fs) (a : ℕ) :
    (findSemd a m.aslh : Program (Links n) χ Fault (Option Semd)).run m =
      .ok (ds.find? fun d => m.sSemAdd d = a) m := by
  obtain ⟨pre, post, hds, hpre, hpost⟩ := h.split_at a
  have hring := h.asl_ring
  have hlen := h.length_le
  rw [hds] at hring hlen
  have hbody : ∀ found, ∀ d ∈ pre, ∀ tmp,
      (findSemdBody a found d tmp : Program (Links n) χ Fault _).run m = .ok (.yield found) m := by
    intro found d hd tmp
    have hlt := hpre d hd
    simp [findSemdBody, show ¬ a = m.sSemAdd d by omega, show ¬ a < m.sSemAdd d by omega]
  have hnone : pre.find? (fun d => m.sSemAdd d = a) = none := by
    rw [List.find?_eq_none]
    intro d hd
    simp [(hpre d hd).ne]
  rw [hds, List.find?_append, hnone, Option.none_or]
  unfold findSemd
  cases post with
  | nil =>
      rw [List.append_nil] at hring hlen
      obtain ⟨x, y, hloop, -⟩ := clistForeach_end (χ := χ) Links.sLink (fun _ => pure m.aslh)
        (findSemdBody a) none none none (fun found _ => found) hring hlen (by simp)
          (.of_forall hbody)
      rw [Program.run_bind_ok hloop, List.foldl_fixed]
      rfl
  | cons d post =>
      have hd := hpost d List.mem_cons_self
      have hdone : (findSemdBody a (pre.foldl (fun found _ => found) none) d pre.getLast? :
          Program (Links n) χ Fault _).run m =
          .ok (.done (if a = m.sSemAdd d then some d else none)) m := by
        by_cases had : a = m.sSemAdd d
        · simp [findSemdBody, had]
        · have hlt : a < m.sSemAdd d := by omega
          simp [findSemdBody, had, hlt]
      rw [Program.run_bind_ok (clistForeach_break (fun found _ => found) hring hlen (by simp)
        (by simp) (.of_forall hbody) hdone)]
      simp only [Program.run_pure]
      by_cases had : a = m.sSemAdd d
      · simp [had]
      · have hrest : (d :: post).find? (fun e => m.sSemAdd e = a) = none := by
          have hsort := h.sorted
          rw [hds] at hsort
          have hsort := (List.pairwise_append.mp hsort).2.1
          rw [List.find?_eq_none]
          intro e he
          rcases List.mem_cons.mp he with rfl | he
          · simp [Ne.symm had]
          · have hlt := (List.pairwise_cons.mp hsort).1 e he
            simp
            omega
        rw [if_neg had, hrest]

theorem findSemd_mem (h : AslLists m q ds fs) (hd : d ∈ ds) :
    (findSemd (m.sSemAdd d) m.aslh : Program (Links n) χ Fault (Option Semd)).run m =
      .ok (some d) m := by
  rw [h.findSemd_run]
  congr 1
  cases hf : ds.find? fun e => m.sSemAdd e = m.sSemAdd d with
  | none =>
      have hnone := List.find?_eq_none.mp hf d hd
      simp at hnone
  | some e =>
      have he := List.find?_some hf
      rw [h.semAdd_inj (List.mem_of_find?_eq_some hf) hd (by simpa using he)]

theorem findSemd_empty (h : AslLists m q ds fs) (ha : q a = []) :
    (findSemd a m.aslh : Program (Links n) χ Fault (Option Semd)).run m = .ok none m := by
  rw [h.findSemd_run]
  congr 1
  rw [List.find?_eq_none]
  intro d hd hda
  have heq : m.sSemAdd d = a := by simpa using hda
  exact h.nonempty d hd (heq ▸ ha)

/-- `headBlocked` is the oldest waiter. -/
theorem headBlocked_run (h : AslLists m q ds fs) (a : ℕ) :
    (headBlocked a : Program (Links n) χ Fault (Option (Fin n))).run m = .ok (q a).head? m := by
  unfold headBlocked
  simp only [Program.run_gets_bind]
  by_cases ha : q a = []
  · rw [Program.run_bind_ok (h.findSemd_empty ha), ha]
    rfl
  · obtain ⟨d, hd, rfl⟩ := h.covered a ha
    rw [Program.run_bind_ok (h.findSemd_mem hd)]
    simp only [Program.run_gets_bind]
    exact headProcQ_run (h.procq d hd)

/-! ### Changing one queue -/

/-- The queue of a descriptor in use becomes another nonempty queue. -/
theorem setQueue (h : AslLists m q ds fs) (hd : d ∈ ds) {l : List (Fin n)} {t : Option (Fin n)}
    (hadd : m'.sSemAdd = m.sSemAdd) (hlink : m'.sLink = m.sLink) (haslh : m'.aslh = m.aslh)
    (hfree : m'.semdFree = m.semdFree) (hprocq : m'.sProcq = Function.update m.sProcq d t)
    (hring : Ring m'.pList t l) (hne : l ≠ []) (hcur : ∀ x ∈ l, m'.pCursem x = some d)
    (hothers : ∀ b ≠ m.sSemAdd d, ∀ x ∈ q b,
      m'.pList x = m.pList x ∧ m'.pCursem x = m.pCursem x) :
    AslLists m' (Function.update q (m.sSemAdd d) l) ds fs := by
  have hcases : ∀ e ∈ ds, e = d ∨ e ≠ d ∧ m.sSemAdd e ≠ m.sSemAdd d := by
    intro e he
    by_cases hed : e = d
    · exact Or.inl hed
    · exact Or.inr ⟨hed, fun heq => hed (h.semAdd_inj he hd heq)⟩
  refine { asl_ring := ?_, free_ring := ?_, disjoint := h.disjoint, all := h.all, sorted := ?_,
           procq := ?_, nonempty := ?_, cursem := ?_, unused := ?_, covered := ?_ }
  · rw [hlink, haslh]; exact h.asl_ring
  · rw [hlink, hfree]; exact h.free_ring
  · rw [hadd]; exact h.sorted
  · intro e he
    rw [hadd, hprocq]
    rcases hcases e he with rfl | ⟨hed, hne'⟩
    · rw [Function.update_self, Function.update_self]
      exact hring
    · rw [Function.update_of_ne hed, Function.update_of_ne hne']
      exact (h.procq e he).congr fun x hx => (hothers _ hne' x hx).1
  · intro e he
    rw [hadd]
    rcases hcases e he with rfl | ⟨-, hne'⟩
    · rwa [Function.update_self]
    · rw [Function.update_of_ne hne']
      exact h.nonempty e he
  · intro e he x hx
    rw [hadd] at hx
    rcases hcases e he with rfl | ⟨-, hne'⟩
    · rw [Function.update_self] at hx
      exact hcur x hx
    · rw [Function.update_of_ne hne'] at hx
      rw [(hothers _ hne' x hx).2]
      exact h.cursem e he x hx
  · intro e he
    have hed : e ≠ d := fun heq => h.disjoint hd (heq ▸ he)
    rw [hprocq, Function.update_of_ne hed]
    exact h.unused e he
  · intro b hb
    rw [hadd]
    by_cases hbd : b = m.sSemAdd d
    · exact ⟨d, hd, hbd.symm⟩
    · rw [Function.update_of_ne hbd] at hb
      exact h.covered b hb

/-- The last waiter of a descriptor has left, and the descriptor has moved to the free list. -/
theorem dropQueue (h : AslLists m q ds fs) (hd : d ∈ ds)
    (hadd : m'.sSemAdd = m.sSemAdd) (hasl : Ring m'.sLink m'.aslh (ds.erase d))
    (hfree : Ring m'.sLink m'.semdFree (fs ++ [d]))
    (hprocq : m'.sProcq = Function.update m.sProcq d none)
    (hothers : ∀ b ≠ m.sSemAdd d, ∀ x ∈ q b,
      m'.pList x = m.pList x ∧ m'.pCursem x = m.pCursem x) :
    AslLists m' (Function.update q (m.sSemAdd d) []) (ds.erase d) (fs ++ [d]) := by
  have hnd := h.asl_ring.nodup
  have hcases : ∀ e ∈ ds.erase d, e ∈ ds ∧ e ≠ d ∧ m.sSemAdd e ≠ m.sSemAdd d := by
    intro e he
    have hed : e ≠ d ∧ e ∈ ds := (List.Nodup.mem_erase_iff hnd).mp he
    exact ⟨hed.2, hed.1, fun heq => hed.1 (h.semAdd_inj hed.2 hd heq)⟩
  refine { asl_ring := hasl, free_ring := hfree, disjoint := ?_, all := ?_, sorted := ?_,
           procq := ?_, nonempty := ?_, cursem := ?_, unused := ?_, covered := ?_ }
  · intro e he he'
    obtain ⟨heds, hed, -⟩ := hcases e he
    rcases List.mem_append.mp he' with he' | he'
    · exact h.disjoint heds he'
    · exact hed (List.mem_singleton.mp he')
  · intro e
    by_cases hed : e = d
    · exact Or.inr (by simp [hed])
    · rcases h.all e with he | he
      · exact Or.inl ((List.Nodup.mem_erase_iff hnd).mpr ⟨hed, he⟩)
      · exact Or.inr (List.mem_append_left _ he)
  · rw [hadd]
    exact h.sorted.sublist List.erase_sublist
  · intro e he
    obtain ⟨heds, hed, hne⟩ := hcases e he
    rw [hadd, hprocq, Function.update_of_ne hed, Function.update_of_ne hne]
    exact (h.procq e heds).congr fun x hx => (hothers _ hne x hx).1
  · intro e he
    obtain ⟨heds, -, hne⟩ := hcases e he
    rw [hadd, Function.update_of_ne hne]
    exact h.nonempty e heds
  · intro e he x hx
    obtain ⟨heds, -, hne⟩ := hcases e he
    rw [hadd, Function.update_of_ne hne] at hx
    rw [(hothers _ hne x hx).2]
    exact h.cursem e heds x hx
  · intro e he
    rw [hprocq]
    rcases List.mem_append.mp he with he | he
    · have hed : e ≠ d := fun heq => h.disjoint hd (heq ▸ he)
      rw [Function.update_of_ne hed]
      exact h.unused e he
    · rw [List.mem_singleton.mp he, Function.update_self]
  · intro b hb
    have hbd : b ≠ m.sSemAdd d := fun heq => hb (by rw [heq, Function.update_self])
    rw [Function.update_of_ne hbd] at hb
    obtain ⟨e, he, heb⟩ := h.covered b hb
    have hed : e ≠ d := fun heq => hbd (by rw [← heb, heq])
    exact ⟨e, (List.Nodup.mem_erase_iff hnd).mpr ⟨hed, he⟩, by rw [hadd, heb]⟩

/-- A free descriptor `s` has been linked at its place and holds the first waiter `p` of `a`. -/
theorem addQueue {s : Semd} {pre post : List Semd} (h : AslLists m q (pre ++ post) (s :: fs))
    (hpre : ∀ d ∈ pre, m.sSemAdd d < a) (hpost : ∀ d ∈ post, a < m.sSemAdd d)
    (hadd : m'.sSemAdd = Function.update m.sSemAdd s a)
    (hasl : Ring m'.sLink m'.aslh (pre ++ s :: post)) (hfree : Ring m'.sLink m'.semdFree fs)
    (hprocq : m'.sProcq = Function.update m.sProcq s (some p)) (hring : m'.pList p = some p)
    (hcur : m'.pCursem p = some s)
    (hothers : ∀ b, ∀ x ∈ q b, m'.pList x = m.pList x ∧ m'.pCursem x = m.pCursem x) :
    AslLists m' (Function.update q a [p]) (pre ++ s :: post) fs := by
  have hsfs : s ∉ fs := (List.nodup_cons.mp h.free_ring.nodup).1
  have hsds : s ∉ pre ++ post := fun hs => h.disjoint hs List.mem_cons_self
  have hmem : ∀ e, e ∈ pre ++ s :: post ↔ e = s ∨ e ∈ pre ++ post := by
    intro e
    simp only [List.mem_append, List.mem_cons]
    tauto
  have hold : ∀ e ∈ pre ++ post, e ≠ s ∧ m.sSemAdd e ≠ a := by
    intro e he
    refine ⟨fun heq => hsds (heq ▸ he), ?_⟩
    rcases List.mem_append.mp he with he | he
    · exact (hpre e he).ne
    · exact (hpost e he).ne'
  refine { asl_ring := hasl, free_ring := hfree, disjoint := ?_, all := ?_, sorted := ?_,
           procq := ?_, nonempty := ?_, cursem := ?_, unused := ?_, covered := ?_ }
  · intro e he he'
    rcases (hmem e).mp he with rfl | he
    · exact hsfs he'
    · exact h.disjoint he (List.mem_cons_of_mem s he')
  · intro e
    rw [hmem]
    rcases h.all e with he | he
    · exact Or.inl (Or.inr he)
    · rcases List.mem_cons.mp he with rfl | he
      · exact Or.inl (Or.inl rfl)
      · exact Or.inr he
  · rw [hadd]
    obtain ⟨hs₁, hs₂, hs₁₂⟩ := List.pairwise_append.mp h.sorted
    have hleft : ∀ e ∈ pre, Function.update m.sSemAdd s a e = m.sSemAdd e := fun e he =>
      Function.update_of_ne (hold e (List.mem_append_left _ he)).1 ..
    have hright : ∀ e ∈ post, Function.update m.sSemAdd s a e = m.sSemAdd e := fun e he =>
      Function.update_of_ne (hold e (List.mem_append_right _ he)).1 ..
    refine List.pairwise_append.mpr ⟨hs₁.imp_of_mem ?_, List.pairwise_cons.mpr ⟨?_,
      hs₂.imp_of_mem ?_⟩, ?_⟩
    · intro e f he hf hlt
      rwa [hleft e he, hleft f hf]
    · intro e he
      rw [Function.update_self, hright e he]
      exact hpost e he
    · intro e f he hf hlt
      rwa [hright e he, hright f hf]
    · intro e he f hf
      rw [hleft e he]
      rcases List.mem_cons.mp hf with rfl | hf
      · rw [Function.update_self]
        exact hpre e he
      · rw [hright f hf]
        exact hs₁₂ e he f hf
  · intro e he
    rw [hadd, hprocq]
    rcases (hmem e).mp he with rfl | he
    · rw [Function.update_self, Function.update_self, Function.update_self]
      exact ring_singleton hring
    · obtain ⟨hes, hea⟩ := hold e he
      rw [Function.update_of_ne hes, Function.update_of_ne hes, Function.update_of_ne hea]
      exact (h.procq e he).congr fun x hx => (hothers _ x hx).1
  · intro e he
    rw [hadd]
    rcases (hmem e).mp he with rfl | he
    · rw [Function.update_self, Function.update_self]
      exact List.cons_ne_nil p []
    · obtain ⟨hes, hea⟩ := hold e he
      rw [Function.update_of_ne hes, Function.update_of_ne hea]
      exact h.nonempty e he
  · intro e he x hx
    rw [hadd] at hx
    rcases (hmem e).mp he with rfl | he
    · rw [Function.update_self, Function.update_self] at hx
      rw [List.mem_singleton.mp hx]
      exact hcur
    · obtain ⟨hes, hea⟩ := hold e he
      rw [Function.update_of_ne hes, Function.update_of_ne hea] at hx
      rw [(hothers _ x hx).2]
      exact h.cursem e he x hx
  · intro e he
    have hes : e ≠ s := fun heq => hsfs (heq ▸ he)
    rw [hprocq, Function.update_of_ne hes]
    exact h.unused e (List.mem_cons_of_mem s he)
  · intro b hb
    rw [hadd]
    by_cases hba : b = a
    · exact ⟨s, (hmem s).mpr (Or.inl rfl), by rw [Function.update_self, hba]⟩
    · rw [Function.update_of_ne hba] at hb
      obtain ⟨e, he, heb⟩ := h.covered b hb
      exact ⟨e, (hmem e).mpr (Or.inr he), by rw [Function.update_of_ne (hold e he).1, heb]⟩

/-! ### The operations -/

/-- `insertBlocked` refuses exactly when it needs a descriptor and none is left. -/
theorem insertBlocked_full (h : AslLists m q ds []) (ha : a ≠ 0) (hq : q a = []) :
    (insertBlocked a p : Program (Links n) χ Fault Bool).run m = .ok true m := by
  have hrepr : Clist.Repr ⟨m.sLink, m.semdFree⟩ [] := h.free_ring
  have hemp := (clistEmpty_iff hrepr).mpr rfl
  unfold insertBlocked
  simp only [if_neg ha, Program.run_gets_bind]
  rw [Program.run_bind_ok (h.findSemd_empty hq)]
  simp [hemp]

theorem insertBlocked_active (h : AslLists m q ds fs) (hd : d ∈ ds) (h0 : m.sSemAdd d ≠ 0)
    (hp : ∀ b, p ∉ q b) :
    ∃ m', (insertBlocked (m.sSemAdd d) p : Program (Links n) χ Fault Bool).run m = .ok false m' ∧
      AslLists m' (Function.update q (m.sSemAdd d) (q (m.sSemAdd d) ++ [p])) ds fs ∧
      AslFrame m m' p (q (m.sSemAdd d)) := by
  have hrepr : Clist.Repr ⟨m.pList, m.sProcq d⟩ (q (m.sSemAdd d)) := h.procq d hd
  let c := clistEnqueue p ⟨m.pList, m.sProcq d⟩
  have hlink : ∀ x ∉ q (m.sSemAdd d), x ≠ p → c.link x = m.pList x := fun x hx hxp =>
    clistEnqueue_link hrepr hx hxp
  refine ⟨{ m with pCursem := Function.update m.pCursem p (some d), pList := c.link,
                   sProcq := Function.update m.sProcq d c.tail }, ?_, ?_, ?_⟩
  · unfold insertBlocked
    simp only [if_neg h0, Program.run_gets_bind]
    rw [Program.run_bind_ok (h.findSemd_mem hd)]
    simp [insertProcQ, Function.update_eq_self, c]
  · refine h.setQueue hd rfl rfl rfl rfl rfl (clistEnqueue_repr hrepr (hp _)) (by simp) ?_ ?_
    · intro x hx
      rcases List.mem_append.mp hx with hx | hx
      · have hxp : x ≠ p := fun he => hp _ (he ▸ hx)
        exact (Function.update_of_ne hxp ..).trans (h.cursem d hd x hx)
      · rw [List.mem_singleton.mp hx]
        exact Function.update_self ..
    · intro b hb x hx
      have hxp : x ≠ p := fun he => hp _ (he ▸ hx)
      exact ⟨hlink x (fun hx' => hb (h.queue_unique hx hx')) hxp, Function.update_of_ne hxp ..⟩
  · exact ⟨rfl, rfl, rfl, rfl, hlink, fun x hxp => Function.update_of_ne hxp ..⟩

theorem insertBlocked_fresh {s : Semd} (h : AslLists m q ds (s :: fs)) (ha : a ≠ 0) (hq : q a = [])
    (hp : ∀ b, p ∉ q b) :
    ∃ m', (insertBlocked a p : Program (Links n) χ Fault Bool).run m = .ok false m' ∧
      (∃ pre post, ds = pre ++ post ∧
        AslLists m' (Function.update q a [p]) (pre ++ s :: post) fs) ∧
      AslFrame m m' p [] := by
  have hrepr : Clist.Repr ⟨m.sLink, m.semdFree⟩ (s :: fs) := h.free_ring
  obtain ⟨c, hdeq, hmoves⟩ := clistDequeue_cons (σ := Links n) (χ := χ) hrepr
  have hsds : s ∉ ds := fun hs => h.disjoint hs List.mem_cons_self
  -- the descriptor is off the free list, holds `p`, and is not linked yet
  let m₁ : Links n :=
    { m with
      sLink := c.link, semdFree := c.tail
      sSemAdd := Function.update m.sSemAdd s a
      pCursem := Function.update m.pCursem p (some s)
      pList := Function.update m.pList p (some p)
      sProcq := Function.update m.sProcq s (some p) }
  have hadd : ∀ d ∈ ds, m₁.sSemAdd d = m.sSemAdd d := by
    intro d hd
    have hds : d ≠ s := fun he => hsds (he ▸ hd)
    exact Function.update_of_ne hds ..
  have hadds : m₁.sSemAdd s = a := Function.update_self ..
  obtain ⟨pre, post, rfl, hpre, hpost⟩ := h.split_at a
  have hpost' : ∀ d ∈ post, a < m.sSemAdd d := by
    intro d hd
    refine Nat.lt_of_le_of_ne (hpost d hd) fun he => ?_
    exact h.nonempty d (List.mem_append_right _ hd) (he ▸ hq)
  have hasl : Ring m₁.sLink m₁.aslh (pre ++ post) :=
    h.asl_ring.congr fun d hd => hmoves.frame d fun hd' => h.disjoint hd hd'
  have hlinkrun := linkSemd_run (χ := χ) hasl h.length_le
    (fun d hd => by rw [hadds, hadd d (List.mem_append_left _ hd)]; exact (hpre d hd).le)
    (fun d hd => by rw [hadds, hadd d (List.mem_append_right _ hd)]; exact hpost' d hd)
  have hrepr' := clistPlace_repr (c := ⟨m₁.sLink, m₁.aslh⟩) hasl hsds
  have hframe' : ∀ x ∉ pre ++ post, x ≠ s → _ := fun x hx hxs =>
    clistPlace_link (c := ⟨m₁.sLink, m₁.aslh⟩) hasl hx hxs
  generalize clistPlace s pre post ⟨m₁.sLink, m₁.aslh⟩ = c' at hlinkrun hrepr' hframe'
  have hfree : Ring c'.link c.tail fs := by
    refine hmoves.repr.ring.congr fun d hd => hframe' d ?_ ?_
    · exact fun hd' => h.disjoint hd' (List.mem_cons_of_mem s hd)
    · exact fun he => (List.nodup_cons.mp h.free_ring.nodup).1 (he ▸ hd)
  refine ⟨{ m₁ with sLink := c'.link, aslh := c'.tail }, ?_, ⟨pre, post, rfl, ?_⟩, ?_⟩
  · have hemp : ¬ clistEmpty (⟨m.sLink, m.semdFree⟩ : Clist Semd) = true := fun he =>
      nomatch (clistEmpty_iff hrepr).mp he
    unfold insertBlocked
    simp only [if_neg ha, Program.run_gets_bind]
    rw [Program.run_bind_ok (h.findSemd_empty hq)]
    simp only [Program.run_gets_bind, if_neg hemp]
    rw [Program.run_bind_ok (clistHead_cons hrepr), Program.run_bind_ok (hdeq m)]
    simp only [Program.run_modify_bind, insertProcQ, clistEnqueue, Function.update_self]
    have hm₁ : ({ m with
        sLink := c.link, semdFree := c.tail
        sSemAdd := Function.update m.sSemAdd s a
        pCursem := Function.update m.pCursem p (some s)
        pList := Function.update m.pList p (some p)
        sProcq := Function.update (Function.update m.sProcq s none) s (some p) } : Links n) =
          m₁ := by
      simp only [Function.update_idem, m₁]
    rw [hm₁, Program.run_bind_ok hlinkrun]
    rfl
  · refine h.addQueue hpre hpost' rfl hrepr' hfree rfl (Function.update_self ..)
      (Function.update_self ..) ?_
    intro b x hx
    have hxp : x ≠ p := fun he => hp _ (he ▸ hx)
    exact ⟨Function.update_of_ne hxp .., Function.update_of_ne hxp ..⟩
  · exact ⟨rfl, rfl, rfl, rfl, fun x _ hxp => Function.update_of_ne hxp ..,
      fun x hxp => Function.update_of_ne hxp ..⟩

/-- With the waiters of `d` cut down to `l` and its header to match, an empty queue sends the
descriptor back to the free list. -/
theorem shrink_run (h : AslLists m q ds fs) (hd : d ∈ ds) {l : List (Fin n)} {c : Clist (Fin n)}
    {cur : Fin n → Option Semd} (hmoves : Clist.Moves ⟨m.pList, m.sProcq d⟩ c (q (m.sSemAdd d)) l)
    (hl : ∀ x ∈ l, x ∈ q (m.sSemAdd d)) (hcur : ∀ b, ∀ x ∈ Function.update q (m.sSemAdd d) l b,
      cur x = m.pCursem x) :
    ∃ m', (retireIfEmpty d : Program (Links n) χ Fault Unit).run
          { m with pCursem := cur, pList := c.link, sProcq := Function.update m.sProcq d c.tail } =
        .ok () m' ∧
      AslRep m' (Function.update q (m.sSemAdd d) l) ∧
      m'.pParent = m.pParent ∧ m'.pChildren = m.pChildren ∧ m'.pSiblings = m.pSiblings ∧
      m'.pcbFree = m.pcbFree ∧ m'.pList = c.link ∧ m'.pCursem = cur ∧
      m'.sProcq = Function.update m.sProcq d c.tail ∧ m'.sSemAdd = m.sSemAdd := by
  have hothers : ∀ b ≠ m.sSemAdd d, ∀ x ∈ q b, c.link x = m.pList x ∧ cur x = m.pCursem x := by
    intro b hb x hx
    refine ⟨hmoves.frame x fun hx' => hb (h.queue_unique hx hx'), hcur b x ?_⟩
    rwa [Function.update_of_ne hb]
  let m₁ : Links n :=
    { m with pCursem := cur, pList := c.link, sProcq := Function.update m.sProcq d c.tail }
  have hemp : emptyProcQ d m₁ = true ↔ l = [] := by
    have hr : Clist.Repr ⟨m₁.pList, m₁.sProcq d⟩ l := by
      have ht : m₁.sProcq d = c.tail := Function.update_self ..
      rw [ht]
      exact hmoves.repr
    exact clistEmpty_iff hr
  unfold retireIfEmpty
  simp only [Program.run_gets_bind, Program.run_ite]
  by_cases hl0 : l = []
  · subst hl0
    obtain ⟨link, aslh, semdFree, hrun, hasl, hfree⟩ :=
      retireSemd_run (χ := χ) (m := m₁) h.asl_ring h.free_ring h.disjoint hd
    refine ⟨{ m₁ with sLink := link, aslh := aslh, semdFree := semdFree }, ?_, ?_,
      rfl, rfl, rfl, rfl, rfl, rfl, rfl, rfl⟩
    · rw [if_pos (hemp.mpr rfl)]
      exact hrun
    · have htail : c.tail = none := (Ring.tail_none_iff hmoves.repr).mpr rfl
      refine ⟨_, _, h.dropQueue hd rfl hasl hfree ?_ hothers⟩
      rw [← htail]
  · refine ⟨m₁, ?_, ⟨ds, fs, ?_⟩, rfl, rfl, rfl, rfl, rfl, rfl, rfl, rfl⟩
    · rw [if_neg (fun he => hl0 (hemp.mp he))]
      rfl
    · refine h.setQueue hd rfl rfl rfl rfl rfl hmoves.repr hl0 ?_ hothers
      intro x hx
      have hxc := hcur (m.sSemAdd d) x (by rwa [Function.update_self])
      exact hxc.trans (h.cursem d hd x (hl x hx))

theorem outBlockedBody_skip {x : Fin n} (hx : x ≠ p) (ret : Option (Fin n)) (tmp : Option (Fin n)) :
    (outBlockedBody d p ret x tmp : Program (Links n) χ Fault _).run m = .ok (.yield ret) m := by
  simp [outBlockedBody, hx]

/-- `outBlocked` deletes as `clist_delete` does from the queue of a semaphore that is in use. -/
theorem outBlocked_delete (h : AslLists m q ds fs) (hd : d ∈ ds) (hpd : m.pCursem p = some d) :
    ∃ c m',
    (∀ s : Links n, (clistDelete n p ⟨m.pList, m.sProcq d⟩ : Program (Links n) χ Fault _).run s =
        .ok (if p ∈ q (m.sSemAdd d) then 0 else 1, c) s) ∧
      (outBlocked p : Program (Links n) χ Fault (Option (Fin n))).run m =
        .ok (if p ∈ q (m.sSemAdd d) then some p else none) m' ∧
      m'.pList = c.link ∧ m'.sProcq = Function.update m.sProcq d c.tail ∧
      (p ∉ q (m.sSemAdd d) → m' = m) ∧
      AslRep m' (Function.update q (m.sSemAdd d) ((q (m.sSemAdd d)).erase p)) ∧
      AslFrame m m' p (q (m.sSemAdd d)) ∧
      (∀ x ∉ q (m.sSemAdd d), m'.pList x = m.pList x) ∧ m'.pCursem = m.pCursem ∧
      m'.sSemAdd = m.sSemAdd := by
  have hrepr : Clist.Repr ⟨m.pList, m.sProcq d⟩ (q (m.sSemAdd d)) := h.procq d hd
  obtain ⟨c, o, hdel, hmoves, habsent, hpresent⟩ := clistForeach_scanDelete (s := m) (χ := χ)
    Links.pList (fun _ => Program.gets fun m => m.sProcq d)
      (outBlockedBody d p) none none none hrepr
    (h.queue_length_le _) rfl (fun _ => rfl) (fun v y o hy => outBlockedBody_skip hy v o)
  have hbegin : (outBlocked p : Program (Links n) χ Fault (Option (Fin n))).run m =
      (clistForeach n Links.pList (fun _ => Program.gets fun m => m.sProcq d) (outBlockedBody d p)
        none none none >>= fun r => pure r.1 : Program (Links n) χ Fault (Option (Fin n))).run
          m := by
    unfold outBlocked
    simp only [Program.run_gets_bind, hpd, Program.need_some, Program.run_pure_bind]
  by_cases hp : p ∈ q (m.sSemAdd d)
  · obtain ⟨hrun, hloop⟩ := hpresent hp
    obtain ⟨m', hret, hrep, h₁, h₂, h₃, h₄, hlist, hcur, hproc, hadd⟩ :=
      h.shrink_run (χ := χ) hd hmoves
      (fun x hx => List.mem_of_mem_erase hx) (fun _ _ _ => rfl)
    have hbody : (outBlockedBody d p none p o : Program (Links n) χ Fault _).run m =
        .ok (.done (some p)) m' := by
      unfold outBlockedBody
      simp only [if_true, Program.run_gets_bind]
      rw [Program.run_bind_ok (hrun m)]
      simp only [Program.run_modify_bind]
      rw [Program.run_bind_ok hret]
      rfl
    refine ⟨c, m', hdel, ?_, hlist, hproc, fun hn => absurd hp hn, hrep, ⟨h₁, h₂, h₃, h₄, ?_, ?_⟩,
      ?_, hcur, hadd⟩
    · rw [hbegin, Program.run_bind_ok (hloop _ _ hbody), if_pos hp]
      rfl
    · intro x hx _
      rw [hlist]
      exact hmoves.frame x hx
    · intro x _
      rw [hcur]
    · intro x hx
      rw [hlist]
      exact hmoves.frame x hx
  · obtain ⟨rfl, a, b, hloop⟩ := habsent hp
    refine ⟨_, m, hdel, ?_, rfl, by rw [Function.update_eq_self], fun _ => rfl, ?_,
      ⟨rfl, rfl, rfl, rfl, fun _ _ _ => rfl, fun _ _ => rfl⟩, fun _ _ => rfl, rfl, rfl⟩
    · rw [hbegin, Program.run_bind_ok hloop, if_neg hp]
      rfl
    · rw [List.erase_of_not_mem hp, Function.update_eq_self]
      exact ⟨ds, fs, h⟩

/-- `outBlocked` takes a blocked process out of its queue, at any position. -/
theorem outBlocked_run (h : AslLists m q ds fs) (hp : p ∈ q a) :
    ∃ m', (outBlocked p : Program (Links n) χ Fault (Option (Fin n))).run m = .ok (some p) m' ∧
      AslRep m' (Function.update q a ((q a).erase p)) ∧ AslFrame m m' p (q a) ∧
      (∀ x ∉ q a, m'.pList x = m.pList x) ∧ m'.pCursem = m.pCursem ∧ m'.sSemAdd = m.sSemAdd := by
  obtain ⟨d, hd, rfl, hpd⟩ := h.mem_of_nonempty hp
  obtain ⟨c, m', -, hrun, -, -, -, hrep, hframe⟩ := h.outBlocked_delete (χ := χ) hd hpd
  rw [if_pos hp] at hrun
  exact ⟨m', hrun, hrep, hframe⟩

/-- A process that waits nowhere is not found, whatever descriptor its `p_cursem` still names. -/
theorem outBlocked_absent (h : AslLists m q ds fs) (hd : m.pCursem p = some d)
    (hp : ∀ a, p ∉ q a) :
    (outBlocked p : Program (Links n) χ Fault (Option (Fin n))).run m = .ok none m := by
  rcases h.all d with hds | hfs
  · obtain ⟨c, m', -, hrun, -, -, hsame, -⟩ := h.outBlocked_delete (χ := χ) hds hd
    rw [if_neg (hp _), hsame (hp _)] at hrun
    exact hrun
  · unfold outBlocked
    simp only [Program.run_gets_bind, hd, Program.need_some, Program.run_pure_bind]
    rw [Program.run_bind_ok (clistForeach_nil (by simp [h.unused d hfs]))]
    rfl

/-- `removeBlocked` dequeues the oldest waiter. -/
theorem removeBlocked_run (h : AslLists m q ds fs) (ha : a ≠ 0) {l : List (Fin n)}
    (hq : q a = p :: l) :
    ∃ m', (removeBlocked a : Program (Links n) χ Fault (Option (Fin n))).run m = .ok (some p) m' ∧
      AslRep m' (Function.update q a l) ∧ AslFrame m m' p (q a) := by
  obtain ⟨d, hd, rfl, hpd⟩ := h.mem_of_nonempty (show p ∈ q a by simp [hq])
  have hring : Ring m.pList (m.sProcq d) (p :: l) := hq ▸ h.procq d hd
  have hrepr : Clist.Repr ⟨m.pList, m.sProcq d⟩ (p :: l) := hring
  obtain ⟨c, hdeq, hmoves⟩ := clistDequeue_cons (σ := Links n) (χ := χ) hrepr
  have hpl : p ∉ l := (List.nodup_cons.mp hring.nodup).1
  have hemp : ¬ clistEmpty (⟨m.pList, m.sProcq d⟩ : Clist (Fin n)) = true := fun he =>
    nomatch (clistEmpty_iff hrepr).mp he
  rw [← hq] at hmoves
  have hcur : ∀ b, ∀ x ∈ Function.update q (m.sSemAdd d) l b,
      Function.update m.pCursem p none x = m.pCursem x := by
    intro b x hx
    have hxp : x ≠ p := by
      rintro rfl
      by_cases hb : b = m.sSemAdd d
      · rw [hb, Function.update_self] at hx
        exact hpl hx
      · rw [Function.update_of_ne hb] at hx
        exact hb (h.queue_unique hx (by simp [hq]))
    exact Function.update_of_ne hxp ..
  obtain ⟨m', hrun, hrep, h₁, h₂, h₃, h₄, hlist, hcur', -⟩ := h.shrink_run (χ := χ) hd hmoves
    (fun x hx => by rw [hq]; exact List.mem_cons_of_mem p hx) hcur
  refine ⟨m', ?_, hrep, ⟨h₁, h₂, h₃, h₄, ?_, ?_⟩⟩
  · unfold removeBlocked headProcQ
    simp only [if_neg ha, Program.run_gets_bind]
    rw [Program.run_bind_ok (h.findSemd_mem hd)]
    simp only [Program.run_gets_bind, if_neg hemp, Program.run_bind_bind]
    rw [Program.run_bind_ok (clistHead_cons hrepr)]
    simp only [Program.run_pure_bind, Program.need_some, Program.run_modify_bind,
      Program.run_gets_bind]
    rw [Program.run_bind_ok (hdeq _)]
    simp only [Program.run_modify_bind]
    rw [Program.run_bind_ok hrun]
    rfl
  · intro x hx _
    rw [hlist]
    exact hmoves.frame x hx
  · intro x hxp
    rw [hcur']
    exact Function.update_of_ne hxp ..

theorem removeBlocked_empty (h : AslLists m q ds fs) (hq : q a = []) :
    (removeBlocked a : Program (Links n) χ Fault (Option (Fin n))).run m = .ok none m := by
  unfold removeBlocked
  by_cases ha : a = 0
  · simp [ha]
  · simp only [if_neg ha, Program.run_gets_bind]
    rw [Program.run_bind_ok (h.findSemd_empty hq)]
    rfl

/-- Every descriptor is in exactly one of the two lists. -/
theorem perm (h : AslLists m q ds fs) : (ds ++ fs).Perm (List.finRange maxproc) := by
  have hnd : (ds ++ fs).Nodup :=
    List.nodup_append'.mpr ⟨h.asl_ring.nodup, h.free_ring.nodup, h.disjoint⟩
  rw [List.perm_ext_iff_of_nodup hnd (List.nodup_finRange maxproc)]
  intro d
  simpa using h.all d

theorem length_add (h : AslLists m q ds fs) : ds.length + fs.length = maxproc := by
  have hlen := h.perm.length_eq
  simpa using hlen

/-- There are as many descriptors in use as addresses with waiters. -/
theorem ncard_addresses (h : AslLists m q ds fs) : {b | q b ≠ []}.ncard = ds.length := by
  have hset : {b | q b ≠ []} = ((ds.map m.sSemAdd).toFinset : Set ℕ) := by
    ext b
    simp only [Set.mem_ofPred_eq, List.coe_toFinset, List.mem_map]
    constructor
    · intro hb
      exact h.covered b hb
    · rintro ⟨d, hd, rfl⟩
      exact h.nonempty d hd
  have hnd : (ds.map m.sSemAdd).Nodup := by
    rw [List.nodup_map_iff_inj_on h.asl_ring.nodup]
    exact fun d hd e he heq => h.semAdd_inj hd he heq
  rw [hset, Set.ncard_coe_finset, List.toFinset_card_of_nodup hnd, List.length_map]

/-! ### Reading the lists off the pointers -/

theorem descriptors_eq (h : AslLists m q ds fs) : descriptors m = ds :=
  h.asl_ring.members_eq h.length_le

theorem procs_eq (h : AslLists m q ds fs) (hd : d ∈ ds) : procs m d = q (m.sSemAdd d) :=
  (h.procq d hd).members_eq (h.queue_length_le _)

theorem waiting_eq (h : AslLists m q ds fs) (a : ℕ) : waiting m a = q a := by
  unfold waiting
  rw [h.descriptors_eq]
  cases hf : ds.find? fun d => m.sSemAdd d = a with
  | none =>
      by_contra hq
      obtain ⟨d, hd, hda⟩ := h.covered a (Ne.symm hq)
      have hnone := List.find?_eq_none.mp hf d hd
      simp [hda] at hnone
  | some d =>
      have hda : m.sSemAdd d = a := by simpa using List.find?_some hf
      rw [← hda]
      exact h.procs_eq (List.mem_of_find?_eq_some hf)

end AslLists

namespace AslRep

variable {m : Links n} {q : ℕ → List (Fin n)} {a : ℕ} {p : Fin n}

theorem waiting_eq (h : AslRep m q) : waiting m = q := by
  obtain ⟨ds, fs, h⟩ := h
  exact funext h.waiting_eq

theorem insertBlocked_refused (h : AslRep m q) (ha : a ≠ 0) (hq : q a = [])
    (hfull : {b | q b ≠ []}.ncard = maxproc) :
    (insertBlocked a p : Program (Links n) χ Fault Bool).run m = .ok true m := by
  obtain ⟨ds, fs, h⟩ := h
  have hlen := h.length_add
  rw [h.ncard_addresses] at hfull
  obtain rfl : fs = [] := List.eq_nil_of_length_eq_zero (by omega)
  exact h.insertBlocked_full ha hq

theorem insertBlocked_run (h : AslRep m q) (ha : a ≠ 0) (hp : ∀ b, p ∉ q b)
    (hroom : q a = [] → {b | q b ≠ []}.ncard ≠ maxproc) :
    ∃ m', (insertBlocked a p : Program (Links n) χ Fault Bool).run m = .ok false m' ∧
      AslRep m' (Function.update q a (q a ++ [p])) ∧ AslFrame m m' p (q a) := by
  obtain ⟨ds, fs, h⟩ := h
  by_cases hq : q a = []
  · have hlen := h.length_add
    have hroom := hroom hq
    rw [h.ncard_addresses] at hroom
    cases fs with
    | nil => simp only [List.length_nil, Nat.add_zero] at hlen; exact absurd hlen hroom
    | cons s fs =>
        obtain ⟨m', hrun, ⟨pre, post, -, hl⟩, hf⟩ := h.insertBlocked_fresh (χ := χ) ha hq hp
        rw [hq]
        exact ⟨m', hrun, ⟨_, _, hl⟩, hf⟩
  · obtain ⟨d, hd, rfl⟩ := h.covered a hq
    obtain ⟨m', hrun, hl, hf⟩ := h.insertBlocked_active (χ := χ) hd ha hp
    exact ⟨m', hrun, ⟨_, _, hl⟩, hf⟩

/-- With a process that waits nowhere there are fewer addresses with waiters than processes. -/
theorem ncard_lt (h : AslRep m q) (hp : ∀ b, p ∉ q b) : {b | q b ≠ []}.ncard < n := by
  classical
  obtain ⟨ds, fs, h⟩ := h
  let address : Fin n → ℕ := fun x => if hx : ∃ b, x ∈ q b then hx.choose else 0
  have haddress : ∀ b, ∀ x ∈ q b, address x = b := by
    intro b x hx
    have hex : ∃ b, x ∈ q b := ⟨b, hx⟩
    simp only [address, dif_pos hex]
    exact h.queue_unique hex.choose_spec hx
  have hsub : {b | q b ≠ []} ⊆ ((Finset.univ.erase p).image address : Finset ℕ) := by
    intro b hb
    obtain ⟨x, hx⟩ := List.exists_mem_of_ne_nil _ hb
    have hxp : x ≠ p := fun he => hp b (he ▸ hx)
    simp only [Finset.coe_image, Set.mem_image, Finset.mem_coe, Finset.mem_erase]
    exact ⟨x, ⟨hxp, Finset.mem_univ x⟩, haddress b x hx⟩
  calc {b | q b ≠ []}.ncard
      ≤ ((Finset.univ.erase p).image address).card := by
        rw [← Set.ncard_coe_finset]
        exact Set.ncard_le_ncard hsub
    _ ≤ (Finset.univ.erase p).card := Finset.card_image_le
    _ < n := by
        rw [Finset.card_erase_of_mem (Finset.mem_univ p), Finset.card_univ, Fintype.card_fin]
        have := p.isLt
        omega

end AslRep
end JaeOS
