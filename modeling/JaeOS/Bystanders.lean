import JaeOS.Conservation
import JaeOS.Steady
import JaeOS.Exclusion
import JaeOS.Killing

/-!
# The processes an entry is not about

An entry into the nucleus is a handler with the scheduler after it, if the handler calls it. What it
does to a process that is neither running nor killed is little: a `V` may wake it, an interrupt may
leave it the status of its device, and the scheduler may load it.
-/

open LinkRing LinkForest Transition

namespace JaeOS

/-! ### Order -/

/-- The members of `l'` that have been in `l` are in the order of `l`. -/
def Ordered {α : Type} [DecidableEq α] (l l' : List α) : Prop := (l'.filter (· ∈ l)).Sublist l

section Ordered

variable {α : Type} [DecidableEq α] {l l' m : List α}

theorem Ordered.of_sublist (h : l'.Sublist l) : Ordered l l' := List.filter_sublist.trans h

theorem Ordered.sublist (h : Ordered l l') (hm : m.Sublist l') : Ordered l m :=
  (hm.filter _).trans h

/-- Newcomers do not matter. -/
theorem Ordered.append (h : Ordered l l') (hm : ∀ x ∈ m, x ∉ l) : Ordered l (l' ++ m) := by
  have hnone : m.filter (· ∈ l) = [] := by
    rw [List.filter_eq_nil_iff]
    intro x hx
    simpa using hm x hx
  rw [Ordered, List.filter_append, hnone, List.append_nil]
  exact h

/-- Those that have stayed are in the same order before and after. -/
theorem Ordered.eq (h : Ordered l l') (hl : l.Nodup) (hl' : l'.Nodup) :
    l'.filter (· ∈ l) = l.filter (· ∈ l') := by
  have hsub : (l'.filter (· ∈ l)).Sublist (l.filter (· ∈ l')) := by
    have hfilter := h.filter (· ∈ l')
    rw [List.filter_filter] at hfilter
    have hself : l'.filter (fun x => decide (x ∈ l') && decide (x ∈ l)) = l'.filter (· ∈ l) := by
      apply List.filter_congr
      intro x hx
      rw [decide_eq_true hx, Bool.true_and]
    rwa [hself] at hfilter
  have hperm : (l'.filter (· ∈ l)).Perm (l.filter (· ∈ l')) := by
    rw [List.perm_ext_iff_of_nodup (hl'.filter _) (hl.filter _)]
    intro x
    simp only [List.mem_filter, decide_eq_true_eq]
    exact and_comm
  exact hsub.eq_of_length hperm.length_eq

end Ordered

/-! ### Saved states and times -/

/-- What belongs to one process and is in no list. -/
structure Record where
  state : State
  pid : Word
  kernelTime : Word
  globalTime : Word
  areas : Area → State
  tags : Excp → Bool

def Face.record (f : Face) (q : Pcb) : Record where
  state := f.pS q
  pid := f.pid q
  kernelTime := f.kernelTime q
  globalTime := f.globalTime q
  areas := f.oldnewAreas q
  tags := f.tags q

section Records

variable {f g : Face} {v : View} {q c : Pcb} {e : Excp} {st : State} {a : ℕ} {w : ℤ} {u : Word}
  {o : Option Ctl} {ctl : Ctl}

theorem record_congr (hs : g.pS q = f.pS q) (hp : g.pid q = f.pid q)
    (hk : g.kernelTime q = f.kernelTime q) (hg : g.globalTime q = f.globalTime q)
    (ha : g.oldnewAreas q = f.oldnewAreas q) (ht : g.tags q = f.tags q) :
    g.record q = f.record q := by
  simp only [Face.record, hs, hp, hk, hg, ha, ht]

theorem record_setPs (hq : q ≠ c) (x : State → State) : (f.setPs c x).record q = f.record q := by
  exact record_congr (Function.update_of_ne hq ..) rfl rfl rfl rfl rfl

theorem record_setArea (hq : q ≠ c) (b : Area) (x : State → State) :
    (f.setArea c b x).record q = f.record q := by
  exact record_congr rfl rfl rfl rfl (Function.update_of_ne hq ..) rfl

theorem record_charge (hq : q ≠ c) : (f.charge c).record q = f.record q := by
  exact record_congr rfl rfl (Function.update_of_ne hq ..) rfl rfl rfl

theorem record_suspend (hq : q ≠ c) : (f.suspend c).record q = f.record q := by
  exact record_congr rfl rfl (Function.update_of_ne hq ..) (Function.update_of_ne hq ..) rfl rfl

theorem record_create (hq : q ≠ c) (s : State) (pid : Word) :
    (f.create c s pid).record q = f.record q := by
  apply record_congr
  · exact Function.update_of_ne hq ..
  · exact Function.update_of_ne hq ..
  · exact Function.update_of_ne hq ..
  · exact Function.update_of_ne hq ..
  · rfl
  · exact Function.update_of_ne hq ..

theorem record_finish (hq : f.currentProcess ≠ some q) : f.finish.record q = f.record q := by
  unfold Face.finish
  cases hc : f.currentProcess with
  | none => rfl
  | some c =>
      apply record_charge
      rintro rfl
      exact hq hc

variable [Platform]

theorem record_trap (hq : q ≠ c) : (f.trap c).record q = f.record q := by
  exact record_congr (Function.update_of_ne hq ..) rfl rfl rfl rfl rfl

theorem record_specify (hq : q ≠ c) (pc sp flags : Word) :
    (f.specify c e pc sp flags).record q = f.record q := by
  apply record_congr
  · rfl
  · rfl
  · rfl
  · rfl
  · exact (Function.update_of_ne hq ..).trans (Function.update_of_ne hq ..)
  · exact Function.update_of_ne hq ..

theorem record_leave (hq : q ≠ c) : (f.leave c e).record q = f.record q :=
  (record_setArea hq ..).trans (record_charge hq)

theorem record_passUp (hq : q ≠ c) : (f.passUp c e st).record q = f.record q :=
  (record_leave hq).trans ((record_setArea hq ..).trans (record_setArea hq ..))

theorem record_passUpSyscall (hq : q ≠ c) : (f.passUpSyscall c st).record q = f.record q :=
  (record_leave hq).trans ((record_setArea hq ..).trans (record_setArea hq ..))

theorem record_reflect (hq : q ≠ c) : (f.reflect c st).record q = f.record q :=
  (record_charge hq).trans (record_trap (f := f) hq)

theorem Operates.record (h : Operates v f c a w o g) (hq : q ≠ c) : g.record q = f.record q := by
  cases h with
  | panic => rfl
  | die => rfl
  | pass => rfl
  | block => exact record_suspend hq
  | verhogen => rfl

theorem Creates.record (h : Creates v f u w' g) (hq : q ∉ v.free) : g.record q = f.record q := by
  cases h with
  | full => rfl
  | create hf =>
      apply record_create
      rintro rfl
      rw [hf] at hq
      exact hq List.mem_cons_self

theorem Requests.record {cmd intlNo dnum : Word} (h : Requests v f c cmd intlNo dnum u g)
    (hq : q ≠ c) :
    g.record q = f.record q := by
  obtain ⟨-, -, hop⟩ := h
  have hkept := hop.record hq
  exact hkept

theorem Serves.record (h : Serves v f c st o g) (hq : q ≠ c) (hf : q ∉ v.free) :
    g.record q = f.record q := by
  cases h with
  | panic => rfl
  | ioPanic => rfl
  | create hsys h => exact (record_setPs hq _).trans (h.record hf)
  | terminate =>
      split
      · rfl
      · rfl
  | operate hsys h => exact h.record hq
  | specify e hsys ht => exact record_specify hq ..
  | respecify => rfl
  | exitTrap => exact record_setArea hq ..
  | noTrap => rfl
  | cputime => rfl
  | clock hsys h => exact h.record hq
  | io hsys h => exact (record_setPs hq _).trans (h.record hq)
  | getpid => exact record_setPs hq _

/-- After a service the same process is running, or nobody. -/
theorem Serves.current (h : Serves v f c st none g) (hc : f.currentProcess = some c) :
    g.currentProcess = some c ∨ g.currentProcess = none := by
  cases h with
  | create hsys h => cases h <;> exact Or.inl hc
  | terminate =>
      split
      · exact Or.inr rfl
      · exact Or.inl hc
  | operate hsys h => exact h.current hc
  | specify => exact Or.inl hc
  | noTrap => exact Or.inl hc
  | cputime => exact Or.inl hc
  | clock hsys h => exact h.current hc
  | io hsys h =>
      obtain ⟨-, -, hop⟩ := h
      exact hop.current hc
  | getpid => exact Or.inl hc

theorem Traps.record (h : Traps f c e st ctl g) (hq : q ≠ c) : g.record q = f.record q := by
  cases h with
  | panic => rfl
  | die => rfl
  | pass => exact record_passUp (f := f.start) hq

theorem Calls.record (h : Calls v f c st ctl g) (hc : f.currentProcess = some c) (hq : q ≠ c)
    (hf : q ∉ v.free) : g.record q = f.record q := by
  have htrap : (f.trap c).record q = f.record q := record_trap hq
  cases h with
  | panic => exact htrap
  | served hserv huser h =>
      apply (record_finish _).trans ((h.record hq hf).trans htrap)
      rcases h.current hc with hg | hg
      · rw [hg]
        exact fun he => hq (Option.some.inj he).symm
      · rw [hg]
        exact (Option.some_ne_none q).symm
  | ended hserv huser h => exact (h.record hq hf).trans htrap
  | reflect hserv huser h => exact (h.record hq).trans (record_reflect hq)
  | die => exact htrap
  | pass => exact (record_passUpSyscall hq).trans htrap

/-! ### The scheduler -/

def Record.resume (r : Record) : Record :=
  { r with state := { r.state with cpsr := Platform.statusAllIntEnable r.state.cpsr } }

omit [Platform] in
theorem record_prepare (hq : f.currentProcess ≠ some q) : f.prepare.record q = f.record q := by
  have hrequeue : f.requeue.record q = f.record q := by
    unfold Face.requeue
    cases hc : f.currentProcess with
    | none => rfl
    | some c =>
        have hqc : q ≠ c := by
          rintro rfl
          exact hq hc
        exact record_congr rfl rfl rfl (Function.update_of_ne hqc ..) rfl rfl
  rw [← hrequeue]
  unfold Face.prepare Face.arm
  split <;> rfl

theorem record_schedule : f.schedule.record q = f.record q := by
  unfold Face.schedule
  split <;> rfl

theorem schedule_currentProcess : f.schedule.currentProcess = f.currentProcess := by
  unfold Face.schedule
  split <;> rfl

theorem record_load (p : Pcb) :
    (f.load p).record q = if p = q then (f.record q).resume else f.record q := by
  by_cases hp : p = q
  · subst hp
    rw [if_pos rfl]
    have hstate : (f.load p).pS p =
        { f.pS p with cpsr := Platform.statusAllIntEnable (f.pS p).cpsr } := Function.update_self ..
    unfold Face.record
    rw [hstate]
    rfl
  · rw [if_neg hp]
    exact record_congr (Function.update_of_ne (Ne.symm hp) ..) rfl rfl rfl rfl rfl

theorem Loads.record (h : Loads v f ctl g) (hq : f.currentProcess ≠ some q) :
    g.record q = if g.currentProcess = some q then (f.record q).resume else f.record q := by
  cases h with
  | @load p l hr =>
      have hcur : (f.prepare.load p).currentProcess = some p := rfl
      rw [record_load, hcur, record_prepare hq]
      simp only [Option.some.injEq]
  | wait hr =>
      have hcur : f.prepare.idle.currentProcess = none := prepare_currentProcess f
      rw [hcur, if_neg (Option.some_ne_none q).symm]
      exact record_prepare hq
  | halt hr =>
      rw [prepare_currentProcess, if_neg (Option.some_ne_none q).symm]
      exact record_prepare hq
  | panic hr =>
      rw [prepare_currentProcess, if_neg (Option.some_ne_none q).symm]
      exact record_prepare hq

theorem Dispatches.record (h : Dispatches v f ctl g) (hq : f.currentProcess ≠ some q) :
    g.record q = if g.currentProcess = some q then (f.record q).resume else f.record q := by
  cases h with
  | @resume c hflag hc =>
      have hqc : q ≠ c := by
        rintro rfl
        exact hq hc
      have hcur : (f.disable.resume c).currentProcess = some c := hc
      rw [hcur, if_neg fun he => hqc (Option.some.inj he).symm]
      exact record_setPs (f := f.disable) hqc _
  | next hflag h =>
      rw [← schedule_currentProcess] at hq
      rw [h.record hq, record_schedule]

end Records

/-! ### Places -/

/-- What `V`s on the semaphores in `V` leave: their waiters may be ready. -/
structure Wakes (V : ℕ → Prop) (v v' : View) : Prop where
  ready : ∃ new, v'.ready = v.ready ++ new ∧ ∀ x ∈ new, ∃ a, V a ∧ v.place x = .blocked a
  queue : ∀ a, (v'.queue a).Sublist (v.queue a)
  moved : ∀ x, v'.place x = v.place x ∧ v'.request x = v.request x ∨
    v'.place x = .ready ∧ ∃ a, V a ∧ v.place x = .blocked a
  tree : v'.tree = v.tree

section Places

variable {V W : ℕ → Prop} {v v' v₁ : View} {q : Pcb} {a : ℕ} {w : ℤ} {act : Act} {κ κ' : Core}

theorem Wakes.refl (V : ℕ → Prop) (v : View) : Wakes V v v where
  ready := ⟨[], (List.append_nil _).symm, fun _ hx => absurd hx List.not_mem_nil⟩
  queue _ := List.Sublist.refl _
  moved _ := Or.inl ⟨rfl, rfl⟩
  tree := rfl

theorem Wakes.mono (h : Wakes V v v') (hV : ∀ a, V a → W a) : Wakes W v v' := by
  obtain ⟨new, hready, hnew⟩ := h.ready
  refine ⟨⟨new, hready, fun x hx => ?_⟩, h.queue, fun x => ?_, h.tree⟩
  · obtain ⟨a, ha, hblocked⟩ := hnew x hx
    exact ⟨a, hV a ha, hblocked⟩
  · rcases h.moved x with hsame | ⟨hx, a, ha, hblocked⟩
    · exact Or.inl hsame
    · exact Or.inr ⟨hx, a, hV a ha, hblocked⟩

/-- Who is blocked afterwards has been all the time. -/
theorem Wakes.blocked (h : Wakes V v v') (hq : v'.place q = .blocked a) :
    v.place q = .blocked a := by
  rcases h.moved q with ⟨hplace, -⟩ | ⟨hready, -⟩
  · rw [← hplace, hq]
  · rw [hready] at hq
    cases hq

theorem Wakes.trans (h : Wakes V v v₁) (h' : Wakes V v₁ v') : Wakes V v v' := by
  obtain ⟨new, hready, hnew⟩ := h.ready
  obtain ⟨new', hready', hnew'⟩ := h'.ready
  refine ⟨⟨new ++ new', ?_, fun x hx => ?_⟩, fun a => (h'.queue a).trans (h.queue a), fun x => ?_,
    h'.tree.trans h.tree⟩
  · rw [hready', hready, List.append_assoc]
  · rcases List.mem_append.mp hx with hx | hx
    · exact hnew x hx
    · obtain ⟨a, ha, hblocked⟩ := hnew' x hx
      exact ⟨a, ha, h.blocked hblocked⟩
  · rcases h'.moved x with ⟨hplace, hrequest⟩ | ⟨hx, a, ha, hblocked⟩
    · rcases h.moved x with ⟨hplace₁, hrequest₁⟩ | ⟨hx, a, ha, hblocked⟩
      · exact Or.inl ⟨hplace.trans hplace₁, hrequest.trans hrequest₁⟩
      · exact Or.inr ⟨hplace.trans hx, a, ha, hblocked⟩
    · exact Or.inr ⟨hx, a, ha, h.blocked hblocked⟩

variable [Platform]

theorem verhogen_wakes (hv : Orderly v) (a : ℕ) (w : ℤ) : Wakes (· = a) v (v.verhogen a w) where
  ready := ⟨v.woken a w, verhogen_ready, fun x hx => ⟨a, rfl, hv.woken_blocked hx⟩⟩
  queue b := by
    by_cases hb : b = a
    · obtain ⟨rest, hrest⟩ := woken_initial v a w
      rw [hb, verhogen_queue hrest.symm, ← hrest]
      exact List.sublist_append_right _ _
    · rw [verhogen_queue_of_ne hb]
  moved x := by
    rw [verhogen_place]
    by_cases hx : x ∈ v.woken a w
    · rw [if_pos hx]
      exact Or.inr ⟨rfl, a, rfl, hv.woken_blocked hx⟩
    · rw [if_neg hx, verhogen_request hx]
      exact Or.inl ⟨rfl, rfl⟩
  tree := wakeAll_tree

structure Passes (V : ℕ → Prop) (q : Pcb) (v v' : View) : Prop where
  ready : Ordered v.ready v'.ready
  queue : ∀ a, Ordered (v.queue a) (v'.queue a)
  moved : v'.place q = v.place q ∧ v'.request q = v.request q ∨
    v'.place q = .ready ∧ ∃ a, V a ∧ v.place q = .blocked a
  off : ∀ x, v'.place x = .off → v.place x = .off

omit [Platform] in
theorem Wakes.passes (h : Wakes V v v') (hv : Orderly v) (q : Pcb) : Passes V q v v' where
  ready := by
    obtain ⟨new, hready, hnew⟩ := h.ready
    rw [hready]
    apply (Ordered.of_sublist (List.Sublist.refl _)).append
    intro x hx hmem
    obtain ⟨a, -, hblocked⟩ := hnew x hx
    rw [(hv.mem_ready x).mp hmem] at hblocked
    cases hblocked
  queue a := .of_sublist (h.queue a)
  moved := h.moved q
  off x hx := by
    rcases h.moved x with ⟨hplace, -⟩ | ⟨hready, -⟩
    · rw [← hplace, hx]
    · rw [hready] at hx
      cases hx

def Act.own : Act → Bool
  | .create => true
  | .terminate _ => true
  | .passeren _ _ => true
  | .verhogen _ _ => true
  | _ => false

theorem Event.act_own {k : Kernel} {e : Event} (h : e.act k = some act) : act.own = true := by
  rcases Event.act_asked h with ⟨t, rfl⟩ | ⟨hw, c, -, -, hact⟩
  · rfl
  · cases syscallAct_asked hact <;> rfl

theorem Move.passes (h : Move act v v') (hown : act.own = true) (hv : Orderly v)
    (hfree : v.place q ≠ .free) (hoff : v.place q ≠ .off)
    (hkilled : ∀ t ks, act = .terminate t → Forest.Has t ks v.tree → q ∉ ks.postorder ++ [t]) :
    Passes (fun a => ∃ w, act = .verhogen a w) q v v' := by
  cases h with
  | full => exact ((Wakes.refl _ v).passes hv q)
  | @create _ c p l hc hf =>
      have hp : v.place p = .free := (hv.mem_free p).mp (by rw [hf]; exact List.mem_cons_self)
      have hqp : q ≠ p := by
        rintro rfl
        exact hfree hp
      constructor
      · change Ordered v.ready (v.ready ++ [p])
        apply (Ordered.of_sublist (List.Sublist.refl _)).append
        intro x hx hmem
        rw [List.mem_singleton.mp hx, hv.mem_ready, hp] at hmem
        cases hmem
      · exact fun a => .of_sublist (List.Sublist.refl _)
      · left
        rw [create_place, if_neg hqp]
        exact ⟨rfl, Function.update_of_ne hqp ..⟩
      · intro x hx
        rw [create_place] at hx
        split at hx
        · cases hx
        · exact hx
  | @terminate _ t ks ht hready =>
      have hq := hkilled t ks rfl ht
      constructor
      · change Ordered v.ready (v.killAll (ks.postorder ++ [t])).ready
        rw [killAll_ready_eq hv.ready_nodup]
        exact .of_sublist List.filter_sublist
      · intro a
        change Ordered (v.queue a) ((v.killAll (ks.postorder ++ [t])).queue a)
        rw [killAll_queue hv.queues]
        exact .of_sublist List.filter_sublist
      · left
        change (v.killAll (ks.postorder ++ [t])).place q = _ ∧
          (v.killAll (ks.postorder ++ [t])).request q = _
        rw [killAll_place, if_neg hq, killAll_request]
        exact ⟨rfl, rfl⟩
      · intro x hx
        change (v.killAll (ks.postorder ++ [t])).place x = _ at hx
        rw [killAll_place] at hx
        split at hx
        · cases hx
        · exact hx
  | @pass _ a w hw hi =>
      constructor
      · exact .of_sublist (List.Sublist.refl _)
      · exact fun a => .of_sublist (List.Sublist.refl _)
      · exact Or.inl ⟨rfl, rfl⟩
      · exact fun x hx => hx
  | @block _ a w c hw hi ha hc =>
      have hqc : q ≠ c := by
        rintro rfl
        exact hoff hc
      constructor
      · exact .of_sublist (List.Sublist.refl _)
      · intro b
        change Ordered (v.queue b) (Function.update v.queue a (v.queue a ++ [c]) b)
        by_cases hb : b = a
        · rw [hb, Function.update_self]
          apply (Ordered.of_sublist (List.Sublist.refl _)).append
          intro x hx hmem
          rw [List.mem_singleton.mp hx, hv.mem_queue, hc] at hmem
          cases hmem
        · rw [Function.update_of_ne hb]
          exact .of_sublist (List.Sublist.refl _)
      · exact Or.inl ⟨Function.update_of_ne hqc .., Function.update_of_ne hqc ..⟩
      · intro x hx
        change Function.update v.place c (.blocked a) x = .off at hx
        rw [Function.update_apply] at hx
        split at hx
        · cases hx
        · exact hx
  | @verhogen _ a w hw =>
      apply ((verhogen_wakes hv a w).mono _).passes hv q
      rintro b rfl
      exact ⟨w, rfl⟩
  | noSignal => cases hown
  | signal => cases hown
  | requeue => cases hown
  | load => cases hown

/-! ### The tree -/

/-- A process that is alive before and after a move keeps its parent. -/
theorem Move.parent (h : Move act v v') (hrep : Rep κ v) (hrep' : Rep κ' v')
    (hq : v.place q ≠ .free)
    (hq' : v'.place q ≠ .free) : κ'.links.pParent q = κ.links.pParent q := by
  have hmem : q ∈ v.tree.nodes := (hrep.mem_tree q).mpr hq
  have hmem' : q ∈ v'.tree.nodes := (hrep'.mem_tree q).mpr hq'
  have hsame : v'.tree = v.tree → κ'.links.pParent q = κ.links.pParent q := by
    intro htree
    have htree' := hrep'.tree.rep
    rw [htree] at htree'
    exact hrep.tree.rep.parent_unique htree' hmem
  cases h with
  | full => exact hsame rfl
  | create => exact hrep.tree.rep.parent_addChild hrep'.tree.rep hmem
  | terminate => exact hrep.tree.rep.parent_remove hrep'.tree.rep hmem'
  | pass => exact hsame rfl
  | block => exact hsame rfl
  | verhogen => exact hsame wakeAll_tree
  | noSignal => exact hsame rfl
  | signal => exact hsame wakeAll_tree
  | requeue => exact hsame rfl
  | load => exact hsame rfl

end Places

/-! ### Interrupts -/

section Interrupts

variable [Platform] {s t t₁ : Kernel} {v v₁ v' : View} {hw : Hw} {q : Pcb} {i : ℕ} {u il : Word}
  {l l' : List (ℕ × Word)}

/-- The sub-devices whose operation an interrupt on the line `il` reports, each with the status that
its handler reads. -/
def lineReports (hw : Hw) (il : Word) : List (ℕ × Word) :=
  let dnum := pendingDevice hw il
  let r := hw.devreg (regIndex il dnum)
  if il = intTimer then []
  else if il = intTerminal then
    (if receptionDone r then [(semIndex il devPerInt dnum, r.recvStatus)] else []) ++
      (if transmissionDone r then [(semIndex il 0 dnum, r.transmStatus)] else [])
  else [(semIndex il 0 dnum, r.recvStatus)]

def reports (hw : Hw) : List (ℕ × Word) :=
  match pendingLine hw.cause with
  | none => []
  | some il => lineReports hw il

theorem lineReports_fst (hw : Hw) (il : Word) :
    (lineReports hw il).map Prod.fst = lineCompletions hw il := by
  unfold lineReports lineCompletions
  dsimp only
  split
  · rfl
  split
  · rw [List.map_append]
    congr 1
    · split <;> rfl
    · split <;> rfl
  · rfl

theorem reports_fst (hw : Hw) : (reports hw).map Prod.fst = completions hw := by
  unfold reports completions
  cases pendingLine hw.cause with
  | none => rfl
  | some il => exact lineReports_fst hw il

/-- The status that the reports `l` have for `q`, as the oldest waiter of a semaphore that is
signalled. -/
def statusFor (value : ℕ → ℤ) (queue : ℕ → List Pcb) (l : List (ℕ × Word)) (q : Pcb) :
    Option Word :=
  (l.find? fun x => value (semAddr x.1) < 1 ∧ (queue (semAddr x.1)).head? = some q).map Prod.snd

def State.answered (st : State) : Option Word → State
  | some u => { st with a1 := u }
  | none => st

structure Heard (l : List (ℕ × Word)) (s t : Kernel) (v v' : View) : Prop where
  rep : Rep t.core v'
  wakes : Wakes (fun a => ∃ i ∈ l.map Prod.fst, a = semAddr i ∧ v.value a < 1) v v'
  state : ∀ q, t.pS q = (s.pS q).answered (statusFor v.value v.queue l q)
  same : ∀ j ∉ l.map Prod.fst, v'.value (semAddr j) = v.value (semAddr j) ∧
    v'.queue (semAddr j) = v.queue (semAddr j)

theorem Heard.nil (h : Rep s.core v) (ht : t.core = s.core) (hpS : t.pS = s.pS) :
    Heard [] s t v v where
  rep := h.congr ht
  wakes := .refl _ v
  state q := congrFun hpS q
  same _ _ := ⟨rfl, rfl⟩

/-- The registers of the devices do not matter. -/
theorem Heard.congr (h : Heard l s t₁ v v') (ht : t.core = t₁.core) (hpS : t.pS = t₁.pS) :
    Heard l s t v v' where
  rep := h.rep.congr ht
  wakes := h.wakes
  state q := (congrFun hpS q).trans (h.state q)
  same := h.same

theorem Heard.append (h : Heard l s t₁ v v₁) (h' : Heard l' t₁ t v₁ v') (hv : Orderly v)
    (hne : ∀ i ∈ l.map Prod.fst, i ∉ l'.map Prod.fst) : Heard (l ++ l') s t v v' := by
  have hother : ∀ j ∈ l'.map Prod.fst, v₁.value (semAddr j) = v.value (semAddr j) ∧
      v₁.queue (semAddr j) = v.queue (semAddr j) := fun j hj => h.same j fun hjl => hne j hjl hj
  have hsame : ∀ q, statusFor v₁.value v₁.queue l' q = statusFor v.value v.queue l' q := by
    intro q
    unfold statusFor
    congr 1
    apply List.find?_congr
    intro x hx
    obtain ⟨hvalue, hqueue⟩ := hother x.1 (List.mem_map_of_mem hx)
    rw [hvalue, hqueue]
  constructor
  · exact h'.rep
  · apply (h.wakes.mono _).trans (h'.wakes.mono _)
    · intro a hi
      obtain ⟨i, hi, ha⟩ := hi
      refine ⟨i, ?_, ha⟩
      rw [List.map_append]
      exact List.mem_append_left _ hi
    · intro a hi
      obtain ⟨i, hi, rfl, hlow⟩ := hi
      refine ⟨i, ?_, rfl, ?_⟩
      · rw [List.map_append]
        exact List.mem_append_right _ hi
      · rwa [(hother i hi).1] at hlow
  · intro q
    rw [h'.state, h.state, hsame]
    unfold statusFor
    rw [List.find?_append]
    cases hx : l.find? fun x => decide (v.value (semAddr x.1) < 1 ∧
        (v.queue (semAddr x.1)).head? = some q) with
    | none => rfl
    | some x =>
        have hxq : q ∈ v.queue (semAddr x.1) := by
          have hfound := List.find?_some hx
          exact List.mem_of_mem_head? (of_decide_eq_true hfound).2
        -- nobody waits on two semaphores
        have hnone : l'.find? (fun y => decide (v.value (semAddr y.1) < 1 ∧
            (v.queue (semAddr y.1)).head? = some q)) = none := by
          rw [List.find?_eq_none]
          intro y hy hfound
          have hyq : q ∈ v.queue (semAddr y.1) := List.mem_of_mem_head? (of_decide_eq_true hfound).2
          have hplace := (hv.mem_queue q _).mp hxq
          rw [(hv.mem_queue q _).mp hyq] at hplace
          apply hne x.1 (List.mem_map_of_mem (List.mem_of_find?_eq_some hx))
          rw [← semAddr_injective (Place.blocked.inj hplace)]
          exact List.mem_map_of_mem hy
        rw [hnone]
        rfl
  · intro j hj
    rw [List.map_append, List.mem_append, not_or] at hj
    obtain ⟨hvalue, hqueue⟩ := h.same j hj.1
    obtain ⟨hvalue', hqueue'⟩ := h'.same j hj.2
    exact ⟨hvalue'.trans hvalue, hqueue'.trans hqueue⟩

/-- One signal. -/
theorem signalDevice_heard (h : Rep s.core v) :
    Program.Triple (fun t => t = s) (signalDevice (semAddr i) u)
      (fun _ t => t.hw = s.hw ∧ ∃ v', Heard [(i, u)] s t v v') (fun _ _ => False)
        (fun _ => True) := by
  by_cases hlow : v.value (semAddr i) < 1
  · apply (signalDevice_answers h (semAddr_ne_zero i) hlow).conseq (fun _ ht => ht) _ fun _ _ hf =>
      hf
    intro _ t ht
    obtain ⟨c, l, hq, hpS, hrep, hhw⟩ := ht
    refine ⟨hhw, _, hrep, ?_, ?_, ?_⟩
    · apply (verhogen_wakes h.orderly (semAddr i) 1).mono
      rintro a rfl
      exact ⟨i, List.mem_singleton_self i, rfl, hlow⟩
    · intro q
      rw [hpS]
      change Function.update s.pS c { s.pS c with a1 := u } q = _
      unfold statusFor
      rw [List.find?_cons, List.find?_nil, hq, List.head?_cons]
      by_cases hqc : q = c
      · subst hqc
        rw [Function.update_self, decide_eq_true ⟨hlow, rfl⟩]
        rfl
      · have hother : ¬ (v.value (semAddr i) < 1 ∧ some c = some q) :=
          fun hf => hqc (Option.some.inj hf.2).symm
        rw [Function.update_of_ne hqc, decide_eq_false hother]
        rfl
    · intro j hj
      have hji : semAddr j ≠ semAddr i := fun he => hj (by
        rw [semAddr_injective he]
        exact List.mem_singleton_self i)
      exact ⟨verhogen_value_of_ne hji, verhogen_queue_of_ne hji⟩
  · rintro s rfl
    have hvalue : s.ints (semAddr i) = v.value (semAddr i) := congrFun h.value _
    rw [signalDevice, Program.run_gets_bind, hvalue, if_neg hlow]
    refine ⟨rfl, v, h, .refl _ v, fun q => ?_, fun _ _ => ⟨rfl, rfl⟩⟩
    unfold statusFor
    rw [List.find?_cons, List.find?_nil, decide_eq_false fun hf => hlow hf.1]
    rfl

/-- A signal, and the acknowledgement of its device. -/
theorem signalDevice_acknowledged (h : Rep s.core v) (slot : ℕ) (ack : DevReg → DevReg) :
    Program.Triple (fun t => t = s)
      (signalDevice (semAddr i) u >>= fun _ => setDevreg slot ack)
      (fun _ t => (∃ v', Heard [(i, u)] s t v v') ∧
        t.hw.devreg = Function.update s.hw.devreg slot (ack (s.hw.devreg slot)))
      (fun _ _ => False) (fun _ => True) := by
  apply Program.Triple.bind (signalDevice_heard h)
  intro _
  apply Program.Triple.modify
  intro t ht
  obtain ⟨hhw, v', hheard⟩ := ht
  refine ⟨⟨v', hheard.congr rfl rfl⟩, ?_⟩
  dsimp only
  rw [hhw]

theorem devHandler_heard (h : Rep s.core v) (htimer : il ≠ intTimer) (hterm : il ≠ intTerminal) :
    Program.Triple (fun t => t = s) (devHandler il)
      (fun _ t => ∃ v', Heard (lineReports s.hw il) s t v v') (fun _ _ => False)
        (fun _ => True) := by
  rintro s rfl
  have hone : lineReports s.hw il = [(semIndex il 0 (pendingDevice s.hw il),
      (s.hw.devreg (regIndex il (pendingDevice s.hw il))).recvStatus)] := by
    rw [lineReports, if_neg htimer, if_neg hterm]
  unfold devHandler
  rw [Program.run_gets_bind]
  refine devRegAddr_bind (P := fun u => u = s) (Or.inr trivial)
    (deviceSemAt_bind (Or.inr trivial) ?_) s rfl
  rintro s rfl
  rw [Program.run_gets_bind, hone]
  apply (signalDevice_acknowledged h _ _).conseq (fun _ ht => ht) _ (fun _ _ hf => hf) s rfl
  exact fun _ t ht => ht.1

theorem terminalReceive_heard {dnum : Word} (h : Rep s.core v) :
    Program.Triple (fun t => t = s) (terminalReceive (regIndex intTerminal dnum) dnum)
      (fun _ t => (∃ v', Heard
          (if receptionDone (s.hw.devreg (regIndex intTerminal dnum)) then
            [(semIndex intTerminal devPerInt dnum,
              (s.hw.devreg (regIndex intTerminal dnum)).recvStatus)]
          else []) s t v v') ∧
        (t.hw.devreg (regIndex intTerminal dnum)).transmStatus =
          (s.hw.devreg (regIndex intTerminal dnum)).transmStatus)
      (fun _ _ => False) (fun _ => True) := by
  rintro s rfl
  unfold terminalReceive
  rw [Program.run_gets_bind]
  by_cases hdone : receptionDone (s.hw.devreg (regIndex intTerminal dnum)) = true
  · rw [if_pos (of_decide_eq_true hdone), if_pos hdone]
    refine deviceSemAt_bind (P := fun u => u = s) (Or.inr trivial) ?_ s rfl
    apply (signalDevice_acknowledged h _ _).conseq (fun _ ht => ht) _ fun _ _ hf => hf
    intro _ t ht
    refine ⟨ht.1, ?_⟩
    rw [ht.2, Function.update_self]
  · rw [if_neg fun hcode => hdone (decide_eq_true hcode), if_neg hdone]
    exact ⟨⟨v, .nil h rfl rfl⟩, rfl⟩

theorem terminalTransmit_heard {dnum : Word} (h : Rep s.core v) :
    Program.Triple (fun t => t = s) (terminalTransmit (regIndex intTerminal dnum) dnum)
      (fun _ t => ∃ v', Heard
          (if transmissionDone (s.hw.devreg (regIndex intTerminal dnum)) then
            [(semIndex intTerminal 0 dnum, (s.hw.devreg (regIndex intTerminal dnum)).transmStatus)]
          else []) s t v v')
      (fun _ _ => False) (fun _ => True) := by
  rintro s rfl
  unfold terminalTransmit
  rw [Program.run_gets_bind]
  by_cases hdone : transmissionDone (s.hw.devreg (regIndex intTerminal dnum)) = true
  · rw [if_pos (of_decide_eq_true hdone), if_pos hdone]
    refine deviceSemAt_bind (P := fun u => u = s) (Or.inr trivial) ?_ s rfl
    apply (signalDevice_acknowledged h _ _).conseq (fun _ ht => ht) _ fun _ _ hf => hf
    exact fun _ t ht => ht.1
  · rw [if_neg fun hcode => hdone (decide_eq_true hcode), if_neg hdone]
    exact ⟨v, .nil h rfl rfl⟩

theorem terminalHandler_heard (h : Rep s.core v) :
    Program.Triple (fun t => t = s) terminalHandler
      (fun _ t => ∃ v', Heard (lineReports s.hw intTerminal) s t v v') (fun _ _ => False)
      (fun _ => True) := by
  rintro s rfl
  unfold terminalHandler
  rw [Program.run_gets_bind]
  refine devRegAddr_bind (P := fun u => u = s) (Or.inr trivial)
    (Program.Triple.bind (terminalReceive_heard h) fun _ => ?_) s rfl
  intro t ht
  obtain ⟨⟨v₁, hheard⟩, hstatus⟩ := ht
  have hdone :
      transmissionDone (t.hw.devreg (regIndex intTerminal (findDnum (s.hw.bitmap intTerminal)))) =
      transmissionDone
        (s.hw.devreg (regIndex intTerminal (findDnum (s.hw.bitmap intTerminal)))) := by
    unfold transmissionDone
    rw [hstatus]
  apply (terminalTransmit_heard hheard.rep).conseq (fun _ hu => hu) _ (fun _ _ hf => hf) t rfl
  intro _ t' ht'
  obtain ⟨v', hheard'⟩ := ht'
  rw [hdone, hstatus] at hheard'
  refine ⟨v', hheard.append hheard' h.orderly ?_⟩
  intro i hi hi'
  split at hi
  · split at hi'
    · rw [List.map_singleton, List.mem_singleton] at hi hi'
      exact semIndex_term_ne intTerminal _ (hi'.symm.trans hi)
    · cases hi'
  · cases hi

theorem timerHandler_states : Keeps (fun k => k.pS) timerHandler := by
  have htimer : Keeps (fun k => k.pS) (setTIMER schedBogusSlice) := by
    apply keeps_modify
    exact fun _ => rfl
  have hreset : Keeps (fun k => k.pS) (setFlag .reset) := by
    apply keeps_modify
    exact fun _ => rfl
  apply (keeps_gets _).bind
  intro armed
  apply Keeps.ite _ htimer
  exact (keeps_gets _).bind fun _ => ((tickLoop_face _).weaken Face.pS).bind fun _ =>
    hreset.bind fun _ => htimer

theorem ticks_wake {n : ℕ} (hv : Orderly v)
    (h : Steps Move (List.replicate n (.verhogen (semAddr clockSem) 1)) v v') :
    Wakes (· = semAddr clockSem) v v' := by
  induction n generalizing v with
  | zero =>
      rw [steps_nil.mp h]
      exact .refl _ v
  | succ n ih =>
      obtain ⟨v₁, hmove, hsteps⟩ := steps_cons.mp h
      cases hmove with
      | verhogen =>
          exact (verhogen_wakes hv (semAddr clockSem) 1).trans
            (ih (hv.verhogen (semAddr clockSem) 1) hsteps)

def interruptSignals (k : Kernel) (hw : Hw) (a : ℕ) : Prop :=
  (∃ i ∈ completions hw, a = semAddr i ∧ k.ints a < 1) ∨
    pendingLine hw.cause = some intTimer ∧ k.pseudoclockflag = true ∧ a = semAddr clockSem

theorem serveLine_wakes (h : Rep s.core v) :
    Program.Triple (fun t => t = s) (serveLine s.hw.cause)
      (fun _ t => ∃ v', Rep t.core v' ∧ Wakes (interruptSignals s s.hw) v v' ∧
        ∀ q, t.pS q = (s.pS q).answered (statusFor v.value v.queue (reports s.hw) q))
      (fun _ _ => False) (fun _ => True) := by
  rintro s rfl
  have hvalue : s.ints = v.value := h.value
  have hheard : ∀ t v', Heard (reports s.hw) s t v v' → ∃ v', Rep t.core v' ∧
      Wakes (interruptSignals s s.hw) v v' ∧
        ∀ q, t.pS q = (s.pS q).answered (statusFor v.value v.queue (reports s.hw) q) := by
    intro t v' hheard
    refine ⟨v', hheard.rep, ?_, hheard.state⟩
    apply hheard.wakes.mono
    intro a ha
    rw [reports_fst, ← hvalue] at ha
    exact Or.inl ha
  rw [serveLine_eq]
  cases hline : pendingLine s.hw.cause with
  | none =>
      have hnone : reports s.hw = [] := by
        unfold reports
        rw [hline]
      apply hheard s v
      rw [hnone]
      exact .nil h rfl rfl
  | some il =>
      have hreports : reports s.hw = lineReports s.hw il := by
        unfold reports
        rw [hline]
      dsimp only
      by_cases htimer : il = intTimer
      · subst htimer
        rw [if_pos rfl]
        have hnone : reports s.hw = [] := hreports
        cases hrun : timerHandler.run s with
        | ok r t =>
            have hstates : t.pS = s.pS := timerHandler_states.ok hrun
            have hanswered : ∀ q, t.pS q =
                (s.pS q).answered (statusFor v.value v.queue (reports s.hw) q) := by
              intro q
              rw [hnone, hstates]
              rfl
            by_cases hflag : s.pseudoclockflag = true
            · obtain ⟨acts, v', ⟨n, rfl⟩, hsteps, hrep⟩ :=
                (timerHandler_run (F := fun _ => True) h trivial).of_run rfl hrun
              refine ⟨v', hrep, (ticks_wake h.orderly hsteps).mono fun a ha => ?_, hanswered⟩
              exact Or.inr ⟨hline, hflag, ha⟩
            · rw [timerHandler, Program.run_gets_bind, if_neg hflag] at hrun
              cases hrun
              exact ⟨v, h, .refl _ v, hanswered⟩
        | exit ctl t => exact (timerHandler_run (F := fun _ => True) h trivial).of_exit rfl hrun
        | fault e => trivial
      · rw [if_neg htimer]
        rw [hreports] at hheard ⊢
        by_cases hterm : il = intTerminal
        · subst hterm
          rw [if_pos rfl]
          apply (terminalHandler_heard h).conseq (fun _ ht => ht) _ (fun _ _ hf => hf) s rfl
          intro _ t ht
          obtain ⟨v', ht⟩ := ht
          exact hheard t v' ht
        · rw [if_neg hterm]
          apply (devHandler_heard h htimer hterm).conseq (fun _ ht => ht) _ (fun _ _ hf => hf) s rfl
          intro _ t ht
          obtain ⟨v', ht⟩ := ht
          exact hheard t v' ht

omit [Platform] in
/-- Of a record, serving a line changes the state at most. -/
theorem record_still {f g : Face} (h : g.still = f.still) (q : Pcb) :
    g.record q = { f.record q with state := g.pS q } := by
  have hpid : g.pid q = f.pid q := (congrArg (fun f => f.pid q) h :)
  have hkernel : g.kernelTime q = f.kernelTime q := (congrArg (fun f => f.kernelTime q) h :)
  have hglobal : g.globalTime q = f.globalTime q := (congrArg (fun f => f.globalTime q) h :)
  have hareas : g.oldnewAreas q = f.oldnewAreas q := (congrArg (fun f => f.oldnewAreas q) h :)
  have htags : g.tags q = f.tags q := (congrArg (fun f => f.tags q) h :)
  unfold Face.record
  rw [hpid, hkernel, hglobal, hareas, htags]

theorem record_interrupt {f : Face} (hq : f.currentProcess ≠ some q) :
    f.interrupt.record q = f.record q := by
  unfold Face.interrupt
  split
  · next c hc =>
    have hqc : q ≠ c := by
      rintro rfl
      exact hq hc
    exact record_setPs (f := { f.start with flag := .loadnext }) hqc _
  · rfl

theorem interrupt_hw (f : Face) : f.interrupt.hw = f.start.hw := by
  unfold Face.interrupt
  split <;> rfl

/-- The handler of interrupts stores the state of the running process, wakes waiters and gives them
the status of their device. -/
theorem interruptHandler_states {ctl : Ctl} (h : Rep s.core v)
    (hrun : interruptHandler.run s = .exit ctl t) :
    ∃ v', Rep t.core v' ∧ Wakes (interruptSignals s s.hw) v v' ∧
      (∀ q, t.pS q = (s.face.interrupt.pS q).answered
        (statusFor v.value v.queue (reports s.hw) q)) ∧
      ∀ q, s.currentProcess ≠ some q →
      t.face.record q = { s.face.record q with state := t.pS q } := by
  obtain ⟨u, henter, hface, hcore⟩ := interruptEnter_face s
  have hhw : u.hw = s.face.start.hw := (congrArg Face.hw hface).trans (interrupt_hw s.face)
  have hcause : u.hw.cause = s.hw.cause := by
    rw [hhw]
    rfl
  have hreports : reports u.hw = reports s.hw := by
    unfold reports lineReports pendingDevice
    rw [hhw]
    rfl
  have hsignals : interruptSignals u u.hw = interruptSignals s s.hw := by
    funext a
    unfold interruptSignals
    have hints : u.ints = s.ints := congrArg Core.ints hcore
    have hflag : u.pseudoclockflag = s.pseudoclockflag := by
      rw [show u.pseudoclockflag = s.face.interrupt.pseudoclockflag from
        congrArg Face.pseudoclockflag hface]
      unfold Face.interrupt
      split <;> rfl
    rw [← reports_fst, ← reports_fst, hreports, hints, hflag, hcause]
  have hrep : Rep u.core v := h.congr hcore
  have hcur : u.currentProcess = s.currentProcess := congrArg Core.currentProcess hcore
  have hflag : u.flag = .loadnext := by
    rw [show u.flag = s.face.interrupt.flag from congrArg Face.flag hface, Face.interrupt]
    split <;> rfl
  rw [interruptHandler, interruptBody, Program.run_bind_bind, Program.run_bind_ok henter,
    Program.run_bind_bind, ← hcause] at hrun
  rcases Program.exit_of_bind hrun with hexit | ⟨r, m, hok, hrest⟩
  · exact ((serveLine_wakes hrep).of_exit rfl hexit).elim
  · obtain ⟨v', hrep', hwakes, hanswered⟩ := (serveLine_wakes hrep).of_run rfl hok
    have hstill := (serveLine_servesLine u.hw.cause u.face.still).of_run ⟨rfl, Or.inl hflag⟩ hok
    have hstates : ∀ q, m.pS q =
        (s.face.interrupt.pS q).answered (statusFor v.value v.queue (reports s.hw) q) := by
      intro q
      rw [← hreports, ← hface]
      exact hanswered q
    have hm : ∀ q, s.currentProcess ≠ some q →
        m.face.record q = { s.face.record q with state := m.pS q } := by
      intro q hq
      rw [record_still hstill.1 q, hface, record_interrupt hq]
      rfl
    have hmcur : m.currentProcess = s.currentProcess := by
      rw [← hcur]
      exact (congrArg Face.currentProcess hstill.1 :)
    rw [hsignals] at hwakes
    rw [Program.run_bind_bind, Program.run_gets_bind] at hrest
    cases hc : m.currentProcess with
    | none =>
        rw [hc] at hrest
        cases hrest
        exact ⟨v', hrep', hwakes, hstates, hm⟩
    | some c =>
        rw [hc] at hrest
        cases hrest
        refine ⟨v', hrep'.congr rfl, hwakes, hstates, ?_⟩
        intro q hq
        have hqc : q ≠ c := by
          rintro rfl
          exact hq (hmcur.symm.trans hc)
        exact (record_charge (f := m.face) hqc).trans (hm q hq)

/-- What the handler of interrupts does to a process that is not running. -/
theorem interruptHandler_spares {ctl : Ctl} (h : Rep s.core v)
    (hrun : interruptHandler.run s = .exit ctl t) (hq : s.currentProcess ≠ some q) :
    ∃ v', Rep t.core v' ∧ Wakes (interruptSignals s s.hw) v v' ∧
      t.face.record q = { s.face.record q with
        state := (s.pS q).answered (statusFor v.value v.queue (reports s.hw) q) } := by
  obtain ⟨v', hrep', hwakes, hstates, hrecord⟩ := interruptHandler_states h hrun
  have hstate : s.face.interrupt.pS q = s.pS q :=
    congrArg Record.state (record_interrupt (f := s.face) hq)
  refine ⟨v', hrep', hwakes, ?_⟩
  rw [hrecord q hq, hstates q, hstate]

end Interrupts

/-! ### Entries -/

section Entries

variable [Platform] {s s' m : Sys} {k k' : Kernel} {e : Event} {v v' v₁ : View} {q : Pcb} {a : ℕ}

/-- An entry into the nucleus: a handler, and the scheduler after it if the handler has called
it. -/
inductive Enters (s : Sys) (e : Event) (s' : Sys) : Prop where
  | direct (he : e ≠ .dispatch) (hstep : s.step e = some s') (hctl : s'.ctl ≠ .scheduler)
  | scheduled {m : Sys} (he : e ≠ .dispatch) (hstep : s.step e = some m) (hctl : m.ctl = .scheduler)
      (hnext : m.step .dispatch = some s')

/-- The entry does a `V` on the semaphore `a`: a system call with a positive weight, a device that
reports the end of its operation, or the tick. -/
def Event.signals (k : Kernel) (e : Event) (a : ℕ) : Prop :=
  match e with
  | .syscall hw =>
    isService (hw.oldArea .sysbk) ∧ ¬ isUserMode (hw.oldArea .sysbk) ∧ (hw.oldArea .sysbk).a1 = 3 ∧
      a = (hw.oldArea .sysbk).a2.toNat ∧ 0 < (hw.oldArea .sysbk).a3.toInt
  | .interrupt hw => interruptSignals k hw a
  | _ => False

def Event.status (k : Kernel) (q : Pcb) : Event → Option Word
  | .interrupt hw => statusFor k.ints (waiting k.toLinks) (reports hw) q
  | _ => none

/-- The saved state of `q` after an entry that takes the kernel from `k` to `k'`. -/
def Event.leaves (k k' : Kernel) (e : Event) (q : Pcb) : State :=
  let st := (k.pS q).answered (e.status k q)
  if k'.currentProcess = some q then { st with cpsr := Platform.statusAllIntEnable st.cpsr } else st

def Event.wakes (k k' : Kernel) (e : Event) (q : Pcb) (a : ℕ) : Prop :=
  e.signals k a ∧ q ∈ waiting k.toLinks a ∧ (q ∈ readyList k' ∨ k'.currentProcess = some q)

/-- What an entry leaves of a process that it is not about. -/
structure Spared (k k' : Kernel) (e : Event) (q : Pcb) : Prop where
  record : k'.face.record q = { k.face.record q with state := e.leaves k k' q }
  parent : k'.pParent q = k.pParent q
  ready_order : (readyList k').filter (· ∈ readyList k) = (readyList k).filter (· ∈ readyList k')
  queue_order : ∀ a, (waiting k'.toLinks a).filter (· ∈ waiting k.toLinks a) =
    (waiting k.toLinks a).filter (· ∈ waiting k'.toLinks a)
  ready : q ∈ readyList k → q ∈ readyList k' ∨ k'.currentProcess = some q
  queue : ∀ a, q ∈ waiting k.toLinks a → q ∈ waiting k'.toLinks a ∨ e.wakes k k' q a
  request : k'.resWait q = k.resWait q ∨ ∃ a, e.wakes k k' q a
  cursem : k'.pCursem q = k.pCursem q ∨ ∃ a, e.wakes k k' q a

theorem Event.act_signals {w : ℤ} (h : e.act k = some (.verhogen a w)) (hw : 0 < w) :
    e.signals k a := by
  rcases Event.act_asked h with ⟨t, ht⟩ | ⟨hw', c, rfl, -, hact⟩
  · cases ht
  · have hserv : isService (hw'.oldArea .sysbk) ∧ ¬ isUserMode (hw'.oldArea .sysbk) := by
      unfold syscallAct at hact
      split at hact
      · next hserv =>
        split at hact
        · cases trapAct_eq hact
        · next huser => exact ⟨hserv, huser⟩
      · cases trapAct_eq hact
    cases syscallAct_asked hact with
    | verhogen hsys => exact ⟨hserv.1, hserv.2, hsys, rfl, hw⟩

/-- What the handler of a system call or a trap does to the lists. -/
theorem own_passes (h : Rep s.kernel.core v) (hs : SparesReady s e) (hstep : s.step e = some s')
    (hact : ∀ acts, e.acts s.kernel acts → acts = (e.act s.kernel).toList)
    (hfree : v.place q ≠ .free) (hoff : v.place q ≠ .off)
    (hkilled : ∀ t ∈ e.victim s.kernel, q ∉ killed s.kernel t) :
    ∃ v', Rep s'.kernel.core v' ∧ Passes (e.signals s.kernel) q v v' ∧
      s'.kernel.pParent q = s.kernel.pParent q := by
  obtain ⟨acts, v', hacts, hsteps, hrep'⟩ := Sys.step_refines h hs hstep
  obtain rfl := hact acts hacts
  refine ⟨v', hrep', ?_⟩
  cases hmove : e.act s.kernel with
  | none =>
      rw [hmove] at hsteps
      obtain rfl := steps_nil.mp hsteps
      exact ⟨(Wakes.refl _ v').passes h.orderly q, h.tree.rep.parent_unique hrep'.tree.rep
        ((h.mem_tree q).mpr hfree)⟩
  | some act =>
      rw [hmove] at hsteps
      have hm : Move act v v' := steps_single.mp hsteps
      have hpasses := hm.passes (Event.act_own hmove) h.orderly hfree hoff (by
        rintro t ks rfl ht
        have hvictim : e.victim s.kernel = some t := by rw [Event.victim, hmove]
        rw [← mem_killed h.toWellFormed ht]
        exact hkilled t hvictim)
      have halive : v'.place q ≠ .free := by
        rcases hpasses.moved with ⟨hplace, -⟩ | ⟨hready, -⟩
        · rwa [hplace]
        · rw [hready]
          exact Place.noConfusion
      refine ⟨⟨hpasses.ready, hpasses.queue, ?_, hpasses.off⟩, hm.parent h hrep' hfree halive⟩
      rcases hpasses.moved with hsame | ⟨hready, a, ⟨w, rfl⟩, hblocked⟩
      · exact Or.inl hsame
      · refine Or.inr ⟨hready, a, Event.act_signals hmove ?_, hblocked⟩
        cases hm with
        | verhogen hw => exact hw

/-- What a handler does to a process that it is not about. -/
theorem Sys.step_spares (h : Rep s.kernel.core v) (hs : SparesReady s e) (he : e ≠ .dispatch)
    (hstep : s.step e = some s') (hfree : v.place q ≠ .free)
    (hcur : s.kernel.currentProcess ≠ some q)
    (hkilled : ∀ t ∈ e.victim s.kernel, q ∉ killed s.kernel t) :
    ∃ v', Rep s'.kernel.core v' ∧ Passes (e.signals s.kernel) q v v' ∧
      s'.kernel.pParent q = s.kernel.pParent q ∧ s'.kernel.face.record q =
        { s.kernel.face.record q with
          state := (s.kernel.pS q).answered (e.status s.kernel q) } := by
  have hoff : v.place q ≠ .off := fun hq => hcur ((h.off q).mp hq)
  have hmem : q ∉ v.free := fun hq => hfree ((h.lists.mem_free q).mp hq)
  have hends := Sys.step_ends h hstep
  have hne : ∀ {c}, s.kernel.currentProcess = some c → q ≠ c := by
    rintro c hc rfl
    exact hcur hc
  cases e with
  | dispatch => exact absurd rfl he
  | syscall hw =>
      obtain ⟨v', hrep', hpasses, hparent⟩ :=
        own_passes h hs hstep (fun _ ha => ha) hfree hoff hkilled
      obtain ⟨c, hc, hcalls⟩ := hends
      exact ⟨v', hrep', hpasses, hparent, hcalls.record hc (hne hc) hmem⟩
  | pgmtrap hw =>
      obtain ⟨v', hrep', hpasses, hparent⟩ :=
        own_passes h hs hstep (fun _ ha => ha) hfree hoff hkilled
      obtain ⟨c, hc, htraps⟩ := hends
      exact ⟨v', hrep', hpasses, hparent, htraps.record (hne hc)⟩
  | tlb hw =>
      obtain ⟨v', hrep', hpasses, hparent⟩ :=
        own_passes h hs hstep (fun _ ha => ha) hfree hoff hkilled
      obtain ⟨c, hc, htraps⟩ := hends
      exact ⟨v', hrep', hpasses, hparent, htraps.record (hne hc)⟩
  | interrupt hw =>
      obtain ⟨-, hrun, -⟩ := Sys.step_eq hstep
      obtain ⟨v', hrep', hwakes, hrecord⟩ :=
        interruptHandler_spares (s := s.kernel.enter (.interrupt hw)) h hrun hcur
      refine ⟨v', hrep', hwakes.passes h.orderly q, ?_, ?_⟩
      · have htree := hrep'.tree.rep
        rw [hwakes.tree] at htree
        exact h.tree.rep.parent_unique htree ((h.mem_tree q).mpr hfree)
      · rw [hrecord, Event.status, h.waiting_eq, ← h.value]
        rfl

structure Scheduled (q : Pcb) (v v' : View) : Prop where
  ready : ∃ new, v'.ready.Sublist (v.ready ++ new) ∧ ∀ x ∈ new, v.place x = .off
  queue : v'.queue = v.queue
  request : v'.request = v.request
  tree : v'.tree = v.tree
  moved : v'.place q = v.place q ∨ v.place q = .ready ∧ v'.place q = .off

theorem scheduled_load (hv : Orderly v) (h : Move .load v v') : Scheduled q v v' := by
  cases h with
  | @load _ p l hr =>
      refine ⟨⟨[], ?_, fun _ hx => absurd hx List.not_mem_nil⟩, rfl, rfl, rfl, ?_⟩
      · rw [List.append_nil, hr]
        exact List.sublist_cons_self p l
      · change Function.update v.place p .off q = v.place q ∨
          v.place q = .ready ∧ Function.update v.place p .off q = .off
        by_cases hq : q = p
        · right
          rw [hq, Function.update_self]
          exact ⟨(hv.mem_ready p).mp (by rw [hr]; exact List.mem_cons_self), rfl⟩
        · left
          exact Function.update_of_ne hq ..

theorem dispatch_scheduled (h : Rep s.kernel.core v) (hstep : s.step .dispatch = some s')
    (hcur : s.kernel.currentProcess ≠ some q) :
    ∃ v', Rep s'.kernel.core v' ∧ Scheduled q v v' := by
  obtain ⟨-, hrun, -⟩ := Sys.step_eq hstep
  obtain ⟨v', hsteps, hrep'⟩ := (scheduler_run (F := fun _ => True) h trivial).of_exit rfl hrun
  have hself : Scheduled q v v :=
    ⟨⟨[], List.sublist_append_left _ _, fun _ hx => absurd hx List.not_mem_nil⟩,
    rfl, rfl, rfl, Or.inl rfl⟩
  refine ⟨v', hrep', ?_⟩
  unfold dispatchActs at hsteps
  split at hsteps
  · rw [steps_nil.mp hsteps]
    exact hself
  split at hsteps
  · obtain ⟨v₁, hrequeue, hload⟩ := steps_cons.mp hsteps
    have hmove : Move .load v₁ v' := steps_single.mp hload
    cases hrequeue with
    | @requeue _ c hc =>
        have hqc : q ≠ c := by
          rintro rfl
          exact hcur ((h.off q).mp hc)
        have hplace : (v.toReady c).place q = v.place q := Function.update_of_ne hqc ..
        obtain ⟨⟨new, hready, hnew⟩, hqueue, hrequest, htree, hmoved⟩ :=
          scheduled_load (q := q) (h.orderly.toReady hc) hmove
        refine ⟨⟨[c], ?_, fun x hx => ?_⟩, hqueue, hrequest, htree, ?_⟩
        · cases hmove with
          | @load _ p l hr =>
              have hr' : v.ready ++ [c] = p :: l := hr
              rw [hr']
              exact List.sublist_cons_self p l
        · rw [List.mem_singleton.mp hx]
          exact hc
        · rwa [hplace] at hmoved
  split at hsteps
  · exact scheduled_load h.orderly (steps_single.mp hsteps)
  · rw [steps_nil.mp hsteps]
    exact hself

structure Remains (V : ℕ → Prop) (q : Pcb) (v v' : View) : Prop where
  ready : Ordered v.ready v'.ready
  queue : ∀ a, Ordered (v.queue a) (v'.queue a)
  moved : (v'.place q = v.place q ∨ v.place q = .ready ∧ v'.place q = .off) ∧
      v'.request q = v.request q ∨
    (v'.place q = .ready ∨ v'.place q = .off) ∧ ∃ a, V a ∧ v.place q = .blocked a

omit [Platform] in
theorem Passes.remains {V : ℕ → Prop} (h : Passes V q v v') : Remains V q v v' where
  ready := h.ready
  queue := h.queue
  moved := by
    rcases h.moved with ⟨hplace, hrequest⟩ | ⟨hready, hblocked⟩
    · exact Or.inl ⟨Or.inl hplace, hrequest⟩
    · exact Or.inr ⟨Or.inl hready, hblocked⟩

omit [Platform] in
theorem Passes.scheduled {V : ℕ → Prop} (h : Passes V q v v₁) (hnext : Scheduled q v₁ v')
    (hv : Orderly v) : Remains V q v v' where
  ready := by
    obtain ⟨new, hready, hnew⟩ := hnext.ready
    apply (h.ready.append _).sublist hready
    intro x hx hmem
    have hplace := (hv.mem_ready x).mp hmem
    rw [h.off x (hnew x hx)] at hplace
    cases hplace
  queue a := by
    rw [hnext.queue]
    exact h.queue a
  moved := by
    rw [hnext.request]
    rcases h.moved with ⟨hplace, hrequest⟩ | ⟨hready, hblocked⟩
    · left
      rw [← hplace]
      exact ⟨hnext.moved, hrequest⟩
    · right
      refine ⟨?_, hblocked⟩
      rcases hnext.moved with hsame | ⟨-, hoff⟩
      · exact Or.inl (hsame.trans hready)
      · exact Or.inr hoff

omit [Platform] in
/-- A process that waits before and after is in the same descriptor. -/
theorem Rep.cursem_eq {κ κ' : Core} (h : Rep κ v) (h' : Rep κ' v') (hfree : v.place q ≠ .free)
    (hplace : v'.place q = v.place q ∨ v.place q = .ready ∧ v'.place q = .off)
    (hcur : κ'.links.pCursem q = κ.links.pCursem q ∨ κ'.links.pCursem q = none) :
    κ'.links.pCursem q = κ.links.pCursem q := by
  rcases hcur with hcur | hcur
  · exact hcur
  rcases hplace with hplace | ⟨hready, -⟩
  · cases hp : v.place q with
    | free => exact absurd hp hfree
    | gone => exact absurd hp (h.not_gone q)
    | ready => rw [hcur, h.lists.cursem q (Or.inl hp)]
    | off => rw [hcur, h.lists.cursem q (Or.inr hp)]
    | blocked a =>
        obtain ⟨ds, fs, hasl⟩ := h'.lists.asl
        obtain ⟨d, -, -, hd⟩ :=
          hasl.mem_of_nonempty ((h'.lists.mem_queue q a).mpr (hplace.trans hp))
        rw [hcur] at hd
        cases hd
  · rw [hcur, h.lists.cursem q (Or.inl hready)]

theorem Remains.spared (h : Rep k.core v) (h' : Rep k'.core v')
    (hlists : Remains (e.signals k) q v v') (hfree : v.place q ≠ .free)
    (hrecord : k'.face.record q = { k.face.record q with state := e.leaves k k' q })
    (hparent : k'.pParent q = k.pParent q)
    (hcur : k'.pCursem q = k.pCursem q ∨ k'.pCursem q = none) : Spared k k' e q := by
  have hv := h.orderly
  have hv' := h'.orderly
  have hreadies : ∀ p, p ∈ readyList k' ↔ v'.place p = .ready := by
    intro p
    rw [h'.readyList_eq]
    exact hv'.mem_ready p
  have hqueues : ∀ a, q ∈ waiting k.toLinks a ↔ v.place q = .blocked a := by
    intro a
    rw [h.waiting_eq]
    exact hv.mem_queue q a
  -- A process that a `V` has woken is ready, or has been loaded since.
  have hwakes : (v'.place q = .ready ∨ v'.place q = .off) → ∀ a, e.signals k a →
      v.place q = .blocked a →
      e.wakes k k' q a := by
    intro hq a ha hblocked
    refine ⟨ha, (hqueues a).mpr hblocked, ?_⟩
    rcases hq with hq | hq
    · exact Or.inl ((hreadies q).mpr hq)
    · exact Or.inr ((h'.off q).mp hq)
  constructor
  · exact hrecord
  · exact hparent
  · rw [h.readyList_eq, h'.readyList_eq]
    exact hlists.ready.eq hv.ready_nodup hv'.ready_nodup
  · intro a
    rw [h.waiting_eq, h'.waiting_eq]
    exact (hlists.queue a).eq (hv.queue_nodup a) (hv'.queue_nodup a)
  · intro hq
    rw [h.readyList_eq, hv.mem_ready] at hq
    rw [hreadies]
    rcases hlists.moved with ⟨hsame | ⟨-, hoff⟩, -⟩ | ⟨-, a, -, hblocked⟩
    · exact Or.inl (hsame.trans hq)
    · exact Or.inr ((h'.off q).mp hoff)
    · rw [hq] at hblocked
      cases hblocked
  · intro a hq
    rw [hqueues] at hq
    rcases hlists.moved with ⟨hsame | ⟨hready, -⟩, -⟩ | ⟨hwoken, b, hb, hblocked⟩
    · left
      rw [h'.waiting_eq, hv'.mem_queue]
      exact hsame.trans hq
    · rw [hready] at hq
      cases hq
    · right
      rw [hq] at hblocked
      cases hblocked
      exact hwakes hwoken a hb hq
  · rcases hlists.moved with ⟨-, hrequest⟩ | ⟨hwoken, a, ha, hblocked⟩
    · left
      rw [show k'.resWait = v'.request from h'.request, show k.resWait = v.request from h.request]
      exact hrequest
    · exact Or.inr ⟨a, hwakes hwoken a ha hblocked⟩
  · rcases hlists.moved with ⟨hplace, -⟩ | ⟨hwoken, a, ha, hblocked⟩
    · exact Or.inl (h.cursem_eq h' hfree hplace hcur)
    · exact Or.inr ⟨a, hwakes hwoken a ha hblocked⟩

/-- An entry touches no process but the running one, those it kills and those that its `V`s wake. -/
theorem entry_spares (hk : ∃ v, Rep s.kernel.core v) (hs : SparesReady s e) (henter : Enters s e s')
    (hlive : q ∉ freeList s.kernel) (hcur : s.kernel.currentProcess ≠ some q)
    (hkilled : ∀ t ∈ e.victim s.kernel, q ∉ killed s.kernel t) :
    Spared s.kernel s'.kernel e q := by
  obtain ⟨v, h⟩ := hk
  have hfree : v.place q ≠ .free := by
    rw [h.freeList_eq, h.lists.mem_free] at hlive
    exact hlive
  have hidle : ∀ {m : Sys} {v₁ : View}, Rep m.kernel.core v₁ → Passes (e.signals s.kernel) q v v₁ →
      m.kernel.currentProcess ≠ some q := by
    intro m v₁ h₁ hpasses hq
    exact hcur ((h.off q).mp (hpasses.off q ((h₁.off q).mpr hq)))
  have hcursem : ∀ {m : Sys}, e ≠ .dispatch → s.step e = some m →
      m.kernel.pCursem q = s.kernel.pCursem q ∨ m.kernel.pCursem q = none := by
    intro m he hstep
    obtain ⟨-, hrun, -⟩ := Sys.step_eq hstep
    have henterCore : (s.kernel.enter e).core = s.kernel.core := by cases e <;> rfl
    have hsteady : (s.kernel.enter e).start.Onward False none m.kernel :=
      Event.steady he False.elim hrun
    have hcursem := hsteady.waits q (Option.some_ne_none q)
      (show (s.kernel.enter e).currentProcess ≠ some q by
        rw [show (s.kernel.enter e).currentProcess = s.kernel.currentProcess from
          congrArg Core.currentProcess henterCore]
        exact hcur)
    rwa [show (s.kernel.enter e).start.pCursem = (s.kernel.enter e).pCursem from rfl,
      show (s.kernel.enter e).pCursem = s.kernel.pCursem from
      congrArg (fun κ : Core => κ.links.pCursem) henterCore] at hcursem
  cases henter with
  | direct he hstep hctl =>
      obtain ⟨v', h', hpasses, hparent, hrecord⟩ := Sys.step_spares h hs he hstep hfree hcur hkilled
      apply hpasses.remains.spared h h' hfree _ hparent (hcursem he hstep)
      rw [hrecord, Event.leaves, if_neg (hidle h' hpasses)]
  | @scheduled m he hstep hctl hnext =>
      obtain ⟨v₁, h₁, hpasses, hparent, hrecord⟩ := Sys.step_spares h hs he hstep hfree hcur hkilled
      obtain ⟨v', h', hscheduled⟩ := dispatch_scheduled h₁ hnext (hidle h₁ hpasses)
      have hrecord' := Dispatches.record (Sys.step_ends h₁ hnext) (hidle h₁ hpasses)
      have hcursem' : s'.kernel.pCursem = m.kernel.pCursem :=
        congrArg Prod.fst (scheduler_unscheduled.exit (Sys.step_eq hnext).2.1)
      have halive : v₁.place q ≠ .free := by
        rcases hpasses.moved with ⟨hplace, -⟩ | ⟨hready, -⟩
        · rwa [hplace]
        · rw [hready]
          exact Place.noConfusion
      have hparent' : s'.kernel.pParent q = m.kernel.pParent q := by
        have htree := h'.tree.rep
        rw [hscheduled.tree] at htree
        exact h₁.tree.rep.parent_unique htree ((h₁.mem_tree q).mpr halive)
      apply (hpasses.scheduled hscheduled h.orderly).spared h h' hfree _ (hparent'.trans hparent)
      · rw [hcursem']
        exact hcursem he hstep
      · rw [hrecord', hrecord, Event.leaves]
        by_cases hq : s'.kernel.currentProcess = some q
        · have hq' : s'.kernel.face.currentProcess = some q := hq
          rw [if_pos hq, if_pos hq']
          rfl
        · have hq' : s'.kernel.face.currentProcess ≠ some q := hq
          rw [if_neg hq, if_neg hq']

end Entries

section Board

attribute [local instance] uarm

/-- While the second process runs the disk finishes what the first one waits for. -/
theorem entry_spares_disk : ∃ s s' : Sys, ∃ e, waiting s.kernel.toLinks (semAddr 0) = [0] ∧
    s.kernel.currentProcess = some 1 ∧ Enters s e s' ∧ Spared s.kernel s'.kernel e 0 := by
  obtain ⟨s, hs, hQ⟩ := nucleus_run (B := fun _ => True) (C := SparesReady) trivial atBoot_zero
    [.dispatch, call 1, .dispatch, call 10 1 intDisk 0, .dispatch]
    (fun s => decide (waiting s.kernel.toLinks (semAddr 0) = [0] ∧
      s.kernel.currentProcess = some 1 ∧
        0 ∉ freeList s.kernel) &&
      (s.step (completion intDisk 0)).any fun m : Sys =>
        decide (m.ctl = .scheduler) && (m.step .dispatch).isSome)
    (by decide +kernel)
  obtain ⟨hstate, hentry⟩ := Bool.and_eq_true_iff.mp hQ
  obtain ⟨hwaiting, hcur, hlive⟩ := of_decide_eq_true hstate
  obtain ⟨m, hstep, hm⟩ := (Option.any_eq_true _ _).mp hentry
  obtain ⟨hctl, hnext⟩ := Bool.and_eq_true_iff.mp hm
  obtain ⟨s', hnext⟩ := Option.isSome_iff_exists.mp hnext
  have henter : Enters s (completion intDisk 0) s' :=
    .scheduled Event.noConfusion hstep (of_decide_eq_true hctl) hnext
  refine ⟨s, s', _, hwaiting, hcur, henter, ?_⟩
  apply entry_spares (nucleus_rep hs) _ henter hlive
  · rw [hcur]
    decide
  · intro t ht
    cases ht
  · intro t ht
    cases ht

end Board

end JaeOS
