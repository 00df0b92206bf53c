import JaeOS.Termination

/-!
# The search for the process to terminate

`lookfor_progeny` walks the children lists depth first and terminates the first process that has
the wanted `pid`. Only then does the state change; the loops it returns through stop on the links
of the process that is gone, which are still there.
-/

open LinkRing LinkForest

namespace JaeOS

variable [Platform] {k s : Kernel} {m : Links maxproc} {v : View} {p c t x : Pcb}
  {f ks : Forest Pcb} {pid : Word} {l : List Pcb} {n : ℕ}

def terminateFirst (pid : Word) (l : List Pcb) : KM Bool := do
  let pids ← Program.gets fun k => k.pid
  match l.find? fun x => pids x = pid with
  | none => pure false
  | some t =>
    terminateTree t
    pure true

/-- Terminating a process of `l` returns, if at all, with the sibling links still in place. -/
structure Terminable (s : Kernel) (l : List Pcb) : Prop where
  no_exit : ∀ t ∈ l, ∀ c s', (terminateTree t).run s ≠ .exit c s'
  linked : ∀ t ∈ l, ∀ s', (terminateTree t).run s = .ok () s' →
    ∀ x, s.pSiblings x ≠ none → s'.pSiblings x ≠ none

theorem Terminable.mono {l' : List Pcb} (h : Terminable s l) (hl : ∀ x ∈ l', x ∈ l) :
    Terminable s l' :=
  ⟨fun t ht => h.no_exit t (hl t ht), fun t ht => h.linked t (hl t ht)⟩

theorem terminateFirst_none (h : l.find? (fun x => s.pid x = pid) = none) :
    (terminateFirst pid l).run s = .ok false s := by
  simp only [terminateFirst, Program.run_gets_bind, h, Program.run_pure]

theorem terminateFirst_some (h : l.find? (fun x => s.pid x = pid) = some t) :
    (terminateFirst pid l).run s = (do terminateTree t; pure true : KM Bool).run s := by
  simp only [terminateFirst, Program.run_gets_bind, h]

theorem terminateFirst_append_left {l' : List Pcb}
    (h : l.find? (fun x => s.pid x = pid) = some t) :
    (terminateFirst pid (l ++ l')).run s = (do terminateTree t; pure true : KM Bool).run s := by
  refine terminateFirst_some ?_
  rw [List.find?_append, h, Option.some_or]

theorem terminateFirst_append_right {l' : List Pcb}
    (h : l.find? (fun x => s.pid x = pid) = none) :
    (terminateFirst pid (l ++ l')).run s = (terminateFirst pid l').run s := by
  have hfind : (l ++ l').find? (fun x => s.pid x = pid) = l'.find? (fun x => s.pid x = pid) := by
    rw [List.find?_append, h, Option.none_or]
  simp only [terminateFirst, Program.run_gets_bind, hfind]

section Loop

variable {search : Pcb → Bool → KM Bool} {scan tmp tail back : Option Pcb}

/-- The loop of `lookfor_progeny` over the children of `p`, its cursors dropped. -/
def progenyLoop (search : Pcb → Bool → KM Bool) (p : Pcb) (n : ℕ) (found : Bool)
    (scan tmp : Option Pcb) : KM Bool := do
  let (found, _, _) ← clistForeachLoop (fun k : Kernel => k.pSiblings)
    (fun _ => Program.gets fun k => k.pChildren p)
    (fun found child _ => do
      if found = false then
        pure (.yield (← search child found))
      else
        pure (.done found))
    n found scan tmp
  pure found

omit [Platform] in
theorem searchChildren_nil (h : s.pChildren p = none) {found : Bool} :
    (searchChildren search p found).run s = .ok found s := by
  simp only [searchChildren, clistForeach, Program.run_bind_bind, Program.run_gets_bind, h,
    Program.run_pure_bind, Program.run_pure]

omit [Platform] in
theorem searchChildren_some {h : Pcb} (hp : s.pChildren p = some h) {found : Bool} :
    (searchChildren search p found).run s =
      (progenyLoop search p (maxproc + 1) found (s.pSiblings h) none).run s := by
  simp only [searchChildren, clistForeach, progenyLoop, Program.run_bind_bind,
    Program.run_gets_bind, hp]

omit [Platform] in
/-- Once the process is found, the loop ends on its next round. -/
theorem progenyLoop_found (hscan : scan ≠ none) :
    (progenyLoop search p (n + 1) true scan tmp).run s = .ok true s := by
  obtain ⟨x, rfl⟩ := Option.ne_none_iff_exists'.mp hscan
  rw [progenyLoop, clistForeachLoop]
  simp only [Program.run_bind_bind, Program.run_gets_bind]
  by_cases htmp : tmp = s.pChildren p
  · simp only [if_pos htmp, Program.run_pure_bind, Program.run_pure]
  · simp only [if_neg htmp, Program.need_some, Bool.true_eq_false, if_false,
      Program.run_bind_bind, Program.run_pure_bind, Program.run_pure]

/-- The loop searches the subtrees of the remaining children one after the other. -/
theorem progenyLoop_run {rest : Forest Pcb} (hpath : Path s.pSiblings scan rest.roots back)
    (hnd : rest.roots.Nodup) (hchildren : s.pChildren p = tail)
    (htail : rest.roots.getLast?.or tmp = tail) (htmp : rest ≠ .nil → tmp ≠ tail)
    (hsib : ∀ x ∈ rest.roots, s.pSiblings x ≠ none)
    (hsearch : ∀ c cs, Forest.Has c cs rest → c ∈ rest.roots →
      (search c false).run s = (terminateFirst pid (c :: cs.nodes)).run s)
    (hterm : Terminable s rest.nodes) (hn : rest.roots.length < n) :
    (progenyLoop search p n false scan tmp).run s = (terminateFirst pid rest.nodes).run s := by
  induction rest generalizing scan tmp n with
  | nil =>
      obtain ⟨n, rfl⟩ := Nat.exists_eq_add_one_of_ne_zero (Nat.ne_of_gt hn)
      have hstop : tmp = s.pChildren p := htail.trans hchildren.symm
      rw [progenyLoop, clistForeachLoop]
      simp only [Program.run_bind_bind, Program.run_gets_bind, if_pos hstop, Program.run_pure_bind]
      exact (terminateFirst_none rfl).symm
  | node c cs sibs _ ih =>
      obtain ⟨n, rfl⟩ := Nat.exists_eq_add_one_of_ne_zero (Nat.ne_of_gt (Nat.zero_lt_of_lt hn))
      have hn' : sibs.roots.length < n := Nat.lt_of_succ_lt_succ hn
      obtain ⟨rfl, hpath'⟩ := hpath
      obtain ⟨hc, hnd'⟩ := List.nodup_cons.mp hnd
      have hgo : ¬ tmp = s.pChildren p := by
        rw [hchildren]
        apply htmp
        rintro ⟨⟩
      have hnodes : (Forest.node c cs sibs).nodes = (c :: cs.nodes) ++ sibs.nodes := rfl
      have hfirst := hsearch c cs (.here sibs) List.mem_cons_self
      rw [progenyLoop, clistForeachLoop]
      simp only [Program.run_bind_bind, Program.run_gets_bind, if_neg hgo, Program.need_some,
        if_true, Program.run_pure_bind]
      rw [hnodes]
      cases hfind : (c :: cs.nodes).find? (fun x => s.pid x = pid) with
      | none =>
          rw [terminateFirst_none hfind] at hfirst
          rw [Program.run_bind_ok hfirst, terminateFirst_append_right hfind]
          have hlast : (c :: sibs.roots).getLast?.or tmp = sibs.roots.getLast?.or (some c) := by
            rw [List.getLast?_cons]
            cases sibs.roots.getLast? <;> rfl
          refine ih hpath' hnd' (hlast.symm.trans htail) (fun hne he => ?_)
            (fun x hx => hsib x (List.mem_cons_of_mem c hx))
            (fun d ds hd hr => hsearch d ds (.inSibs hd) (List.mem_cons_of_mem c hr))
            (hterm.mono fun x hx => List.mem_cons_of_mem c (List.mem_append_right _ hx)) hn'
          have hmem : c ∈ sibs.roots := by
            cases sibs with
            | nil => exact absurd rfl hne
            | node d ds sibs =>
                have hl := hlast.symm.trans htail
                rw [← he, Forest.roots, List.getLast?_cons, Option.some_or] at hl
                exact List.mem_of_getLast? (by rw [Forest.roots, List.getLast?_cons, hl])
          exact hc hmem
      | some t =>
          rw [terminateFirst_some hfind] at hfirst
          rw [terminateFirst_append_left hfind]
          have ht : t ∈ (Forest.node c cs sibs).nodes :=
            List.mem_append_left _ (List.mem_of_find?_eq_some hfind)
          cases hkill : (terminateTree t).run s with
          | exit e s' => exact absurd hkill (hterm.no_exit t ht e s')
          | fault e =>
              rw [Program.run_bind_fault hkill] at hfirst
              rw [Program.run_bind_fault hfirst, Program.run_bind_fault hkill]
          | ok u s' =>
              rw [Program.run_bind_ok hkill] at hfirst
              rw [Program.run_bind_ok hfirst, Program.run_bind_ok hkill]
              have hlink := hterm.linked t ht s' hkill c (hsib c List.mem_cons_self)
              obtain ⟨n, rfl⟩ := Nat.exists_eq_add_one_of_ne_zero
                (Nat.ne_of_gt (Nat.zero_lt_of_lt hn'))
              exact progenyLoop_found hlink

end Loop

/-- `lookfor_progeny` terminates the first process in preorder that has the `pid`. -/
theorem lookforProgenyLoop_run (pid : Word) (hk : Kids s.toLinks.family p ks) (hnd : ks.nodes.Nodup)
    (hterm : Terminable s (p :: ks.nodes)) (hlen : ks.nodes.length ≤ maxproc)
    (hn : ks.nodes.length < n) :
    (lookforProgenyLoop n p pid false).run s = (terminateFirst pid (p :: ks.nodes)).run s := by
  induction n generalizing p ks with
  | zero => omega
  | succ n ih =>
      rw [lookforProgenyLoop, Program.run_gets_bind]
      by_cases hp : s.pid p = pid
      · rw [if_pos hp]
        exact (terminateFirst_some (by simp [hp])).symm
      · have hfind : ([p]).find? (fun x => s.pid x = pid) = none := by simp [hp]
        have hrest : (terminateFirst pid (p :: ks.nodes)).run s =
            (terminateFirst pid ks.nodes).run s := terminateFirst_append_right hfind
        rw [if_neg hp, hrest]
        obtain ⟨hring, hrep⟩ := hk
        cases htail : s.pChildren p with
        | none =>
            have hroots : ks.roots = [] := hring.tail_none_iff.mp htail
            cases ks with
            | nil =>
                rw [searchChildren_nil htail]
                exact (terminateFirst_none rfl).symm
            | node c cs sibs => cases hroots
        | some tl =>
            have hring' : Ring s.pSiblings (some tl) ks.roots := by
              rw [← htail]
              exact hring
            have hpath : Path s.pSiblings (s.pSiblings tl) ks.roots ks.roots.head? := by
              rw [hring'.next_tail]
              exact hring'.path
            have hlast : ks.roots.getLast?.or none = some tl := by
              rw [Option.or_none]
              exact hring'.tail_eq.symm
            rw [searchChildren_some htail]
            refine progenyLoop_run hpath hring'.nodup htail hlast
              (fun _ => Option.some_ne_none tl ∘ Eq.symm) (fun x hx => ?_)
              (fun c cs hc hr => ?_) (hterm.mono fun x hx => List.mem_cons_of_mem p hx) ?_
            · obtain ⟨y, -, hy⟩ := hring'.next_mem hx
              rw [hy]
              exact Option.some_ne_none y
            · have hcs := hc.kids_length
              refine ih (hrep.kids hc) (hc.nodup hnd).2 (hterm.mono fun x hx => ?_) (by omega)
                (by omega)
              refine List.mem_cons_of_mem p ?_
              rcases List.mem_cons.mp hx with rfl | hx
              · exact hc.mem
              · exact hc.kids_mem hx
            · have := ks.roots_length_le
              omega

/-! ### `terminate_process` -/

theorem terminateTree_run (h : Lists m v) (hr : ReadyRing m k.readyqueue v) (ht : Tree m f)
    (ha : ∀ x ∈ f.nodes, Alive v x) (hp : Forest.Has p ks f) :
    TreeKilled ((terminateTree p).run (k.withLists m v)) k m v f ks p := by
  obtain ⟨m', hrun, ho⟩ := terminateTree_orphaned (k := k) h ht ha hp
  rw [hrun]
  exact ho.discard hr hp ht.nodup

theorem terminable (h : Lists m v) (hr : ReadyRing m k.readyqueue v) (ht : Tree m f)
    (ha : ∀ x ∈ f.nodes, Alive v x) : Terminable (k.withLists m v) f.nodes := by
  constructor
  · intro t htf e s' hrun
    obtain ⟨ks, hks⟩ := Forest.exists_has htf
    rcases terminateTree_run (k := k) h hr ht ha hks with ⟨e', he, -⟩ | ⟨m', t', hok, -⟩
    · rw [hrun] at he
      cases he
    · rw [hrun] at hok
      cases hok
  · intro t htf s' hrun
    obtain ⟨ks, hks⟩ := Forest.exists_has htf
    rcases terminateTree_run (k := k) h hr ht ha hks with ⟨e', he, -⟩ | ⟨m', t', hok, hrem, -⟩
    · rw [hrun] at he
      cases he
    · rw [hrun] at hok
      obtain ⟨-, rfl⟩ := Outcome.ok.inj hok
      exact hrem.linked

/-- A process that terminates itself. -/
theorem terminateProcess_own (h : Lists m v) (hr : ReadyRing m k.readyqueue v) (ht : Tree m f)
    (ha : ∀ x ∈ f.nodes, Alive v x) (hc : k.currentProcess = some c) (hoff : v.place c = .off)
    (hcs : Forest.Has c ks f) (hpid : pid = 0 ∨ pid = k.pid c) :
    TreeKilled ((terminateProcess pid).run (k.withLists m v))
      { k with currentProcess := none, flag := .loadnext } m v f ks c := by
  obtain ⟨m', hrun, ho⟩ := terminateChildren_orphaned (k := k) h ht ha hcs fun a => by
    rw [hoff]
    exact Place.noConfusion
  have hstart : (terminateProcess pid).run (k.withLists m v) =
      (do discard c; setCurrent none; setFlag .loadnext : KM Unit).run
        (k.withLists m' ((v.killAll ks.postorder).leave c)) := by
    have hpid' : pid = 0 ∨ pid = (k.withLists m v).pid c := hpid
    simp only [terminateProcess, current, Program.run_bind_bind, Program.run_gets_bind,
      withLists_currentProcess, hc, Program.need_some, Program.run_pure_bind, if_pos hpid']
    rw [Program.run_bind_ok hrun]
  rw [hstart]
  rcases ho.discard hr hcs ht.nodup with ⟨e, he, hx⟩ | ⟨m'', t', hok, hrem, hready⟩
  · exact Or.inl ⟨e, Program.run_bind_fault he _, hx⟩
  · exact Or.inr ⟨m'', t', Program.run_bind_ok hok _, hrem, hready⟩

/-- A process that terminates one of its progeny: the first with the `pid`. -/
theorem terminateProcess_other (h : Lists m v) (hr : ReadyRing m k.readyqueue v) (ht : Tree m f)
    (ha : ∀ x ∈ f.nodes, Alive v x) (hc : k.currentProcess = some c)
    (hcs : Forest.Has c ks f) (hpid : ¬ (pid = 0 ∨ pid = k.pid c)) :
    match ks.nodes.find? fun x => k.pid x = pid with
    | none => (terminateProcess pid).run (k.withLists m v) = .exit .panic (k.withLists m v)
    | some t => ∀ ts, Forest.Has t ts f →
        TreeKilled ((terminateProcess pid).run (k.withLists m v)) k m v f ts t := by
  have hterm : Terminable (k.withLists m v) (c :: ks.nodes) := by
    refine (terminable h hr ht ha).mono fun x hx => ?_
    rcases List.mem_cons.mp hx with rfl | hx
    · exact hcs.mem
    · exact hcs.kids_mem hx
  have hlen := hcs.kids_length
  have hle := ht.length_le
  have hsearch := lookforProgenyLoop_run (n := maxproc + 1) pid (ht.rep.kids hcs)
    (hcs.nodup ht.nodup).2 hterm (by omega) (by omega)
  have hself : ([c]).find? (fun x => (k.withLists m v).pid x = pid) = none := by
    have hne : ¬ k.pid c = pid := fun he => hpid (Or.inr he.symm)
    simp [hne]
  have hfirst : (terminateFirst pid (c :: ks.nodes)).run (k.withLists m v) =
      (terminateFirst pid ks.nodes).run (k.withLists m v) := terminateFirst_append_right hself
  rw [hfirst] at hsearch
  have hstart : (terminateProcess pid).run (k.withLists m v) =
      (do if (← lookforProgeny c pid false) = false then PANIC : KM Unit).run
        (k.withLists m v) := by
    have hpid' : ¬ (pid = 0 ∨ pid = (k.withLists m v).pid c) := hpid
    simp only [terminateProcess, current, Program.run_bind_bind, Program.run_gets_bind,
      withLists_currentProcess, hc, Program.need_some, Program.run_pure_bind, if_neg hpid']
  rw [hstart, lookforProgeny]
  cases hfind : ks.nodes.find? (fun x => k.pid x = pid) with
  | none =>
      rw [terminateFirst_none (by exact hfind)] at hsearch
      rw [Program.run_bind_ok hsearch]
      rfl
  | some t =>
      intro ts hts
      rw [terminateFirst_some (by exact hfind)] at hsearch
      rcases terminateTree_run (k := k) h hr ht ha hts with ⟨e, he, hx⟩ | ⟨m', t', hok, hrem,
        hready⟩
      · rw [Program.run_bind_fault he] at hsearch
        exact Or.inl ⟨e, Program.run_bind_fault hsearch _, hx⟩
      · rw [Program.run_bind_ok hok] at hsearch
        exact Or.inr ⟨m', t', Program.run_bind_ok hsearch _, hrem, hready⟩

end JaeOS
