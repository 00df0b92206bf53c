import JaeOS.Fate
import JaeOS.Lineage
import JaeOS.Pids
import JaeOS.SavedStates

/-!
# The handlers of processes

What `SPECSYSHDL`, `SPECTLBHDL` and `SPECPGMTHDL` promise, over whole runs. An exception reaches the
handler that the process itself has registered since it was made, in the processor state asked for
then, whatever it and the others have done meanwhile; a process that has registered none dies, and
the PCB's next owner starts with none.
-/

open LinkRing LinkForest Transition

namespace JaeOS

abbrev Registry := Pcb → Excp → Option State

section Handlers

variable [Platform]

def State.specified (st : State) (entryHi : Word) : State :=
  { st with
    pc := st.a2
    sp := st.a3
    cpsr := st.cpsr &&& 0x7FFFFFF8 ||| st.a4 &&& 0x80000007
    cp15EntryHi := Platform.setEntryHi entryHi }

/-- The handler for `x` that `p` asks for when it is the running process `cur`. -/
def Event.specifies (cur : Option Pcb) (e : Event) (p : Pcb) (x : Excp) : Option State :=
  match e with
  | .syscall hw =>
    if cur = some p ∧ isService (hw.oldArea .sysbk) ∧ ¬ isUserMode (hw.oldArea .sysbk) ∧
        (hw.oldArea .sysbk).a1 = 4 + x.code then some ((hw.oldArea .sysbk).specified hw.entryHi)
    else none
  | _ => none

/-- The registry, kept up in every step: a new process has no handlers, and a call that returns
registers one where there is none. -/
def noteHandlers (s : Sys) (e : Event) (s' : Sys) (reg : Registry) : Registry := fun p x =>
  if p ∈ freeList s.kernel ∧ p ∉ freeList s'.kernel then none
  else if s'.ctl = .scheduler then reg p x <|> e.specifies s.kernel.currentProcess p x
  else reg p x

/-- The state in which the handler `h` is called for an exception of the kind `x` in the state `st`,
when the interrupts have been enabled `n` times in its `cpsr`. -/
def State.called (h : State) (x : Excp) (st : State) (n : ℕ) : State :=
  match x with
  | .sys =>
    { h with
      cpsr := Platform.statusAllIntEnable^[n] h.cpsr
      a1 := st.a1 &&& 0x0FFFFFFF ||| (st.cpsr &&& 0x0000000F) <<< 28
      a2 := st.a2
      a3 := st.a3
      a4 := st.a4 }
  | _ => { h with cpsr := Platform.statusAllIntEnable^[n] h.cpsr, a1 := st.cp15Cause }

/-- The state `s` is that of the handler `h` for `x`, but for the registers with the arguments of
its calls. -/
structure Resembles (x : Excp) (h s : State) : Prop where
  cpsr : ∃ n, s.cpsr = Platform.statusAllIntEnable^[n] h.cpsr
  rest : { s with cpsr := 0, a1 := 0, a2 := 0, a3 := 0, a4 := 0 } =
    { h with cpsr := 0, a1 := 0, a2 := 0, a3 := 0, a4 := 0 }
  args : x ≠ .sys → s.a2 = h.a2 ∧ s.a3 = h.a3 ∧ s.a4 = h.a4

def Face.Shows (f : Face) (p : Pcb) (x : Excp) : Option State → Prop
  | none => f.tags p x = false
  | some h => f.tags p x = true ∧ Resembles x h (f.oldnewAreas p (.new x))

variable {f g : Face} {v : View} {p c : Pcb} {x e : Excp} {st s h : State} {o : Option State}
    {a : ℕ} {w : ℤ}
  {ctl : Ctl} {u r : Word}

omit [Platform] in
theorem Resembles.refl [Platform] : Resembles x h h := ⟨⟨0, rfl⟩, rfl, fun _ => ⟨rfl, rfl, rfl⟩⟩

theorem Face.Shows.congr (hf : f.Shows p x o)
    (ha : g.oldnewAreas p (.new x) = f.oldnewAreas p (.new x))
    (ht : g.tags p x = f.tags p x) : g.Shows p x o := by
  cases o with
  | none => exact ht.trans hf
  | some h =>
      obtain ⟨htag, hres⟩ := hf
      refine ⟨ht.trans htag, ?_⟩
      rw [ha]
      exact hres

theorem Face.Shows.of_files (hf : f.Shows p x o) (hg : g.files = f.files) : g.Shows p x o := by
  have ha : g.oldnewAreas = f.oldnewAreas := congrArg (fun q => q.2.2.2) hg
  have ht : g.tags = f.tags := congrArg (fun q => q.2.2.1) hg
  exact hf.congr (by rw [ha]) (by rw [ht])

omit [Platform] in
theorem setArea_new {b : Area} {m : State → State} (hb : c = p → b ≠ .new x) :
    (f.setArea c b m).oldnewAreas p (.new x) = f.oldnewAreas p (.new x) := by
  change Function.update f.oldnewAreas c _ p (.new x) = _
  by_cases hc : p = c
  · subst hc
    rw [Function.update_self, Function.update_of_ne (hb rfl).symm]
  · rw [Function.update_of_ne hc]

/-- Another area is written. -/
theorem Face.Shows.setArea {b : Area} {m : State → State} (hf : f.Shows p x o)
    (hb : c = p → b ≠ .new x) :
    (f.setArea c b m).Shows p x o := hf.congr (setArea_new hb) rfl

/-- Arguments are put into the handler's state. -/
theorem Face.Shows.setNew {m : State → State} (hf : f.Shows p x o)
    (hm : ∀ h s, Resembles x h s → Resembles x h (m s)) : (f.setArea p (.new x) m).Shows p x o := by
  cases o with
  | none => exact hf
  | some h =>
      obtain ⟨htag, hres⟩ := hf
      refine ⟨htag, ?_⟩
      change Resembles x h (Function.update f.oldnewAreas p _ p (.new x))
      rw [Function.update_self, Function.update_self]
      exact hm h _ hres

theorem Resembles.enable (hs : Resembles x h s) :
    Resembles x h { s with cpsr := Platform.statusAllIntEnable s.cpsr } := by
  obtain ⟨n, hn⟩ := hs.cpsr
  refine ⟨⟨n + 1, ?_⟩, hs.rest, hs.args⟩
  rw [Function.iterate_succ_apply', ← hn]

theorem Face.Shows.leave (hf : f.Shows p x o) : (f.leave c e).Shows p x o := by
  have hcharge : (f.charge c).Shows p x o := hf.congr rfl rfl
  by_cases hce : c = p ∧ e = x
  · obtain ⟨rfl, rfl⟩ := hce
    exact hcharge.setNew fun _ _ hs => hs.enable
  · exact hcharge.setArea fun hc he => hce ⟨hc, Area.new.inj he⟩

theorem Face.Shows.passUp (hf : f.Shows p x o) : (f.passUp c e st).Shows p x o := by
  apply Face.Shows.leave
  have hold : (f.setArea c (.old e) fun _ => st).Shows p x o := hf.setArea fun _ => Area.noConfusion
  by_cases hce : c = p ∧ e = x
  · obtain ⟨rfl, rfl⟩ := hce
    exact hold.setNew fun _ _ hs => ⟨hs.cpsr, hs.rest, hs.args⟩
  · exact hold.setArea fun hc he => hce ⟨hc, Area.new.inj he⟩

theorem Face.Shows.passUpSyscall (hf : f.Shows p x o) : (f.passUpSyscall c st).Shows p x o := by
  apply Face.Shows.leave
  have hold : (f.setArea c (.old .sys) fun _ => st).Shows p x o :=
    hf.setArea fun _ => Area.noConfusion
  by_cases hce : c = p ∧ Excp.sys = x
  · obtain ⟨rfl, rfl⟩ := hce
    exact hold.setNew fun _ _ hs => ⟨hs.cpsr, hs.rest, fun hx => absurd rfl hx⟩
  · exact hold.setArea fun hc he => hce ⟨hc, Area.new.inj he⟩

/-- A new process has a PCB of its own. -/
theorem Creates.shows (h : Creates v f u r g) (hf : f.Shows p x o) (hp : p ∉ v.free) :
    g.Shows p x o := by
  cases h with
  | full => exact hf
  | create hfree =>
      refine hf.congr rfl ?_
      rw [hfree] at hp
      have hne : p ≠ _ := fun he => hp (he ▸ List.mem_cons_self)
      exact congrFun (Function.update_of_ne hne ..) x

/-- Another handler is registered. -/
theorem Face.Shows.specify {pc sp flags : Word} (hf : f.Shows p x o) (hne : ¬ (c = p ∧ e = x)) :
    (f.specify c e pc sp flags).Shows p x o := by
  have hareas :=
    (hf.setArea (c := c) (b := .old e) (m := fun _ => f.hw.processor) fun _ =>
      Area.noConfusion).setArea
    (c := c) (b := .new e) (m := fun _ => { f.pS c with
      pc := pc
      sp := sp
      cpsr := (f.pS c).cpsr &&& 0x7FFFFFF8 ||| flags &&& 0x80000007
      cp15EntryHi := Platform.setEntryHi f.hw.entryHi }) fun hc he => hne ⟨hc, Area.new.inj he⟩
  refine hareas.congr rfl ?_
  change Function.update f.tags c (Function.update (f.tags c) e true) p x = f.tags p x
  by_cases hc : p = c
  · subst hc
    rw [Function.update_self, Function.update_of_ne fun he => hne ⟨rfl, he.symm⟩]
  · rw [Function.update_of_ne hc]

/-- The handler that has been registered. -/
theorem specify_shows (hst : f.pS c = st) :
    (f.specify c e st.a2 st.a3 st.a4).Shows c e (some (st.specified f.hw.entryHi)) := by
  have htag : Function.update f.tags c (Function.update (f.tags c) e true) c e = true := by
    rw [Function.update_self, Function.update_self]
  refine ⟨htag, ?_⟩
  have harea : (f.specify c e st.a2 st.a3 st.a4).oldnewAreas c (.new e) =
      st.specified f.hw.entryHi := by
    change Function.update (Function.update f.oldnewAreas c _) c _ c (.new e) = _
    rw [Function.update_self, Function.update_self, hst]
    rfl
  rw [harea]
  exact .refl

theorem Traps.shows (h : Traps f c e st ctl g) (hf : f.Shows p x o) : g.Shows p x o := by
  cases h with
  | panic => exact hf.congr rfl rfl
  | die => exact hf.congr rfl rfl
  | pass => exact Face.Shows.passUp (f := f.start) (hf.congr rfl rfl)

omit [Platform] in
theorem code_inj (h : (4 + e.code : Word) = 4 + x.code) : e = x := by
  revert h
  cases e <;> cases x <;> decide

omit [Platform] in
theorem code_other (h : st.a1 = 4 + x.code) {n : Word} (hn : n ∈ [1, 2, 3, 7, 8, 9, 10, 11]) :
    st.a1 ≠ n := by
  rw [h]
  rintro rfl
  revert hn
  cases x <;> decide

/-- A service that does not return registers nothing. -/
theorem Serves.shows_exit (h : Serves v f c st (some ctl) g) (hf : f.Shows p x o) :
    g.Shows p x o := by
  cases h with
  | panic => exact hf
  | ioPanic => exact hf.congr rfl rfl
  | operate hsys h => exact hf.of_files h.files
  | respecify e hsys ht => exact hf.congr rfl rfl
  | exitTrap e hsys he => exact hf.setArea fun _ => Area.noConfusion
  | clock hsys h => exact hf.of_files h.files

/-- A service that returns registers what it has been asked to. -/
theorem Serves.shows (h : Serves v f c st none g) (hst : f.pS c = st) (hf : f.Shows p x o)
    (hp : p ∉ v.free) :
    g.Shows p x (o <|> if c = p ∧ st.a1 = 4 + x.code then some (st.specified f.hw.entryHi)
      else none) := by
  have hother {g : Face} (hg : g.Shows p x o) {n : Word} (hsys : st.a1 = n)
      (hn : n ∈ [1, 2, 3, 7, 8, 9, 10, 11]) :
      g.Shows p x (o <|> if c = p ∧ st.a1 = 4 + x.code then some (st.specified f.hw.entryHi)
        else none) := by
    rw [if_neg fun hc => code_other hc.2 hn hsys]
    cases o <;> exact hg
  cases h with
  | create hsys h => exact hother ((h.shows hf hp).congr rfl rfl) hsys (by decide)
  | terminate hsys =>
      refine hother ?_ hsys (by decide)
      split
      · exact hf.congr rfl rfl
      · exact hf
  | operate hsys h => exact hother (hf.of_files h.files) hsys (by decide)
  | specify e hsys ht =>
      by_cases hce : c = p ∧ e = x
      · obtain ⟨rfl, rfl⟩ := hce
        have hnone : o = none := by
          cases o with
          | none => rfl
          | some h => exact absurd (ht.symm.trans hf.1) (by decide)
        rw [hnone, if_pos ⟨rfl, hsys⟩]
        exact specify_shows hst
      · rw [if_neg fun hc => hce ⟨hc.1, code_inj (hsys.symm.trans hc.2)⟩]
        cases o <;> exact Face.Shows.specify hf hce
  | noTrap hsys => exact hother hf hsys (by decide)
  | cputime hsys => exact hother (hf.congr rfl rfl) hsys (by decide)
  | clock hsys h => exact hother (hf.of_files h.files) hsys (by decide)
  | io hsys h =>
      obtain ⟨hi, hr, h⟩ := h
      exact hother ((hf.of_files (f := f) h.files).congr rfl rfl) hsys (by decide)
  | getpid hsys => exact hother (hf.congr rfl rfl) hsys (by decide)

/-- A process that registers a second handler of a kind has one already. -/
theorem Serves.shows_scheduler (h : Serves v f c st (some .scheduler) g) (hf : f.Shows p x o) :
    g.Shows p x (o <|> if c = p ∧ st.a1 = 4 + x.code then some s else none) := by
  have hexit := h.shows_exit hf
  cases o with
  | some h => exact hexit
  | none =>
      cases h with
      | respecify e hsys ht =>
          rw [if_neg]
          · exact hexit
          · rintro ⟨rfl, hx⟩
            obtain rfl := code_inj (hsys.symm.trans hx)
            exact absurd (ht.symm.trans hf) (by decide)
      | operate hsys h => cases h
      | clock hsys h => cases h

/-- What the ways out of `syscall_handler` do to the registrations. -/
theorem Calls.shows {hw : Hw} (h : Calls v (f.enter hw) c (hw.oldArea .sysbk) ctl g)
    (hf : f.Shows p x o)
    (hp : p ∉ v.free) :
    g.Shows p x (if ctl = .scheduler then o <|> (Event.syscall hw).specifies (some c) p x
      else o) := by
  have htrap : ((f.enter hw).trap c).Shows p x o := hf.congr rfl rfl
  have hst : ((f.enter hw).trap c).pS c = hw.oldArea .sysbk := Function.update_self ..
  have hnone (hcall : ¬ (isService (hw.oldArea .sysbk) ∧ ¬ isUserMode (hw.oldArea .sysbk)))
      {g : Face}
      (hg : g.Shows p x o) :
      g.Shows p x (if ctl = .scheduler then o <|> (Event.syscall hw).specifies (some c) p x
        else o) := by
    have hspec : (Event.syscall hw).specifies (some c) p x = none :=
      if_neg fun hc => hcall ⟨hc.2.1, hc.2.2.1⟩
    rw [hspec]
    split
    · cases o <;> exact hg
    · exact hg
  have hsome (hserv : isService (hw.oldArea .sysbk) = true)
      (huser : isUserMode (hw.oldArea .sysbk) = false) :
      (Event.syscall hw).specifies (some c) p x =
        if c = p ∧ (hw.oldArea .sysbk).a1 = 4 + x.code
        then some ((hw.oldArea .sysbk).specified hw.entryHi)
        else none := by
    simp [Event.specifies, hserv, huser]
  cases h with
  | panic hserv ht => exact hnone (fun hc => by simp [hserv] at hc) htrap
  | served hserv huser h =>
      rw [if_pos rfl, hsome hserv huser]
      exact (h.shows hst htrap hp).of_files (finish_files _)
  | ended hserv huser h =>
      split
      · next hctl =>
        subst hctl
        rw [hsome hserv huser]
        exact h.shows_scheduler htrap
      · exact h.shows_exit htrap
  | reflect hserv huser h =>
      exact hnone (fun hc => by simp [huser] at hc) (h.shows (hf.congr rfl rfl))
  | die hserv ht => exact hnone (fun hc => by simp [hserv] at hc) (htrap.congr rfl rfl)
  | pass hserv ht => exact hnone (fun hc => by simp [hserv] at hc) htrap.passUpSyscall

/-- What an entry does to the registrations of a process that is alive. -/
theorem Event.Ends.shows {e : Event} (h : e.Ends v f ctl g) (hf : f.Shows p x o) (hp : p ∉ v.free) :
    g.Shows p x (if ctl = .scheduler then o <|> e.specifies f.currentProcess p x else o) := by
  have hnone (hspec : e.specifies f.currentProcess p x = none) (hg : g.Shows p x o) :
      g.Shows p x (if ctl = .scheduler then o <|> e.specifies f.currentProcess p x else o) := by
    rw [hspec]
    split
    · cases o <;> exact hg
    · exact hg
  cases e with
  | dispatch => exact hnone rfl (hf.of_files (h.files (Or.inl rfl)))
  | syscall hw =>
      obtain ⟨c, hc, h⟩ := h
      rw [hc]
      exact h.shows hf hp
  | pgmtrap hw =>
      obtain ⟨c, hc, h⟩ := h
      exact hnone rfl (h.shows (hf.congr rfl rfl))
  | tlb hw =>
      obtain ⟨c, hc, h⟩ := h
      exact hnone rfl (h.shows (hf.congr rfl rfl))
  | interrupt hw => exact hnone rfl (hf.of_files (h.files (Or.inr ⟨hw, rfl⟩)))

/-- A new process has registered nothing. -/
theorem Serves.newborn {k : Option Ctl} {l : List Pcb} (h : Serves v f c st k g) (hsys : st.a1 = 1)
    (hfree : v.free = p :: l) : g.tags p x = false := by
  have hother {n : Word} (hs : st.a1 = n) (hn : n ≠ 1) : g.tags p x = false :=
    absurd (hs.symm.trans hsys) hn
  cases h with
  | panic hs => exact absurd hsys hs
  | ioPanic hs => exact hother hs (by decide)
  | create hs h =>
      cases h with
      | full hf =>
          rw [hf] at hfree
          cases hfree
      | @create q l' pow hf hpow =>
          rw [hf] at hfree
          obtain ⟨rfl, -⟩ := List.cons.inj hfree
          change Function.update f.tags q (fun _ => false) q x = false
          rw [Function.update_self]
  | terminate hs => exact hother hs (by decide)
  | operate hs => exact hother hs (by decide)
  | specify e hs => exact hother hs Excp.code_ne
  | respecify e hs => exact hother hs Excp.code_ne
  | exitTrap e hs => exact hother hs (by decide)
  | noTrap hs => exact hother hs (by decide)
  | cputime hs => exact hother hs (by decide)
  | clock hs => exact hother hs (by decide)
  | io hs => exact hother hs (by decide)
  | getpid hs => exact hother hs (by decide)

theorem Calls.newborn {l : List Pcb} (h : Calls v f c st ctl g) (hcall : createCall st)
    (hfree : v.free = p :: l) :
    g.Shows p x none := by
  obtain ⟨hserv, huser, hsys⟩ := hcall
  cases h with
  | panic hs => exact absurd hserv (Bool.eq_false_iff.mp hs)
  | @served g _ _ h =>
      have hnone : g.Shows p x none := h.newborn hsys hfree
      exact hnone.of_files (finish_files g)
  | ended _ _ h => exact h.newborn hsys hfree
  | reflect _ hu => exact absurd hu huser
  | die hs => exact absurd hserv (Bool.eq_false_iff.mp hs)
  | pass hs => exact absurd hserv (Bool.eq_false_iff.mp hs)

theorem Event.Ends.newborn {ev : Event} {l : List Pcb} (h : ev.Ends v f ctl g) (hev : ev.creates)
    (hfree : v.free = p :: l) : g.Shows p x none := by
  cases ev with
  | syscall hw =>
      obtain ⟨c, -, h⟩ := h
      exact h.newborn hev hfree
  | dispatch => cases hev
  | pgmtrap hw => cases hev
  | tlb hw => cases hev
  | interrupt hw => cases hev

end Handlers

section Runs

variable [Platform] {B : Kernel → Prop} {s s' : Sys} {e : Event} {y : Sys × Registry} {p c : Pcb}
    {x : Excp}
  {st : State} {v : View}

def Enrolled (s : Sys) (reg : Registry) : Prop :=
  ∃ v, Rep s.kernel.core v ∧ ∀ p x, s.kernel.Lives p → s.kernel.face.Shows p x (reg p x)

theorem Enrolled.step {reg : Registry} (h : Enrolled s reg) (hs : SparesReady s e)
    (hstep : s.step e = some s') : Enrolled s' (noteHandlers s e s' reg) := by
  obtain ⟨v, hrep, hshows⟩ := h
  obtain ⟨v', hrep', halive⟩ := Sys.step_alive hrep hs hstep
  have hends := Sys.step_ends hrep hstep
  refine ⟨v', hrep', fun p x hp => ?_⟩
  have hplace : v'.place p ≠ .free := (hrep'.mem_tree p).mp (hrep'.lives_iff.mp hp)
  unfold noteHandlers
  by_cases hnew : p ∈ freeList s.kernel
  · rw [if_pos ⟨hnew, hp⟩]
    rw [hrep.freeList_eq, hrep.lists.mem_free] at hnew
    rcases halive p hplace with hold | ⟨hact, l, hfree⟩
    · exact absurd hnew hold
    · exact hends.newborn (Event.act_create hact) hfree
  · rw [if_neg fun hn => hnew hn.1]
    have hpf : p ∉ v.free := by rwa [hrep.freeList_eq] at hnew
    have hkept := hends.shows (hshows p x hnew) hpf
    split
    · next hctl =>
      rw [if_pos hctl] at hkept
      exact hkept
    · next hctl =>
      rw [if_neg hctl] at hkept
      exact hkept

def registrations (B : Kernel → Prop) : System (Sys × Registry) Event :=
  (nucleus B).ghost (fun _ _ _ => none) noteHandlers

theorem nucleus_enrolled (h : Reach (registrations B) (fun y e => SparesReady y.1 e) y) :
    Enrolled y.1 y.2 := by
  induction h with
  | @init y hinit =>
      obtain ⟨⟨k, -, hk, hboot⟩, hghost⟩ := hinit
      have hrep := (main_run hk hboot).2.1
      refine ⟨_, hrep, fun p x hp => ?_⟩
      have hplace := (hrep.mem_tree p).mp (hrep.lives_iff.mp hp)
      rw [boot_place] at hplace
      have hp0 : p = 0 := by
        by_contra hne
        exact hplace (if_neg hne)
      obtain ⟨pow, -, hface⟩ := main_face hk hboot
      rw [hghost, hface, hp0]
      change Function.update k.tags 0 (fun _ => false) 0 x = false
      rw [Function.update_self]
  | step h hc hs ih =>
      obtain ⟨hstep, hghost⟩ := hs
      rw [hghost]
      exact ih.step hc hstep

/-- The state in which an exception is passed up to the handler that has been registered. -/
theorem Resembles.eq_called {h s : State} {n : ℕ} (hs : Resembles x h s) (hx : x ≠ .sys)
    (hn : s.cpsr = Platform.statusAllIntEnable^[n] h.cpsr) :
    { s with a1 := st.cp15Cause, cpsr := Platform.statusAllIntEnable s.cpsr } = h.called x st
      (n + 1) := by
  obtain ⟨h2, h3, h4⟩ := hs.args hx
  have hrest := hs.rest
  have hcalled : h.called x st (n + 1) =
      { h with cpsr := Platform.statusAllIntEnable^[n + 1] h.cpsr, a1 := st.cp15Cause } := by
    cases x with
    | sys => exact absurd rfl hx
    | tlb => rfl
    | pgmtp => rfl
  rw [hcalled, hn, ← Function.iterate_succ_apply' Platform.statusAllIntEnable]
  cases s
  cases h
  simp_all

theorem passUp_called {f : Face} {h s : State} (hf : f.Shows c x (some h)) (hx : x ≠ .sys) :
    ∃ n, (f.passUp c x s).handler c x = h.called x s (n + 1) := by
  obtain ⟨-, hres⟩ := hf
  obtain ⟨n, hn⟩ := hres.cpsr
  refine ⟨n, ?_⟩
  rw [← hres.eq_called hx hn]
  have hne : Area.new x ≠ .old x := Area.noConfusion
  simp only [Face.handler, Face.passUp, Face.leave, Face.charge, Face.setArea, Function.update_self,
    Function.update_of_ne hne]

theorem passUpSyscall_called {f : Face} {h s : State} (hf : f.Shows c .sys (some h)) :
    ∃ n, (f.passUpSyscall c s).handler c .sys = h.called .sys s (n + 1) := by
  obtain ⟨-, hres⟩ := hf
  obtain ⟨n, hn⟩ := hres.cpsr
  refine ⟨n, ?_⟩
  have hne : Area.new .sys ≠ .old .sys := Area.noConfusion
  simp only [Face.handler, Face.passUpSyscall, Face.leave, Face.charge, Face.setArea,
    Function.update_self,
    Function.update_of_ne hne, State.called, hn,
    ← Function.iterate_succ_apply' Platform.statusAllIntEnable]
  have hrest := hres.rest
  generalize f.oldnewAreas c (.new .sys) = s at hrest
  cases s
  cases h
  simp_all

theorem Traps.called {f g : Face} {ctl : Ctl} {h : State} (ht : Traps f c x st ctl g)
    (hf : f.Shows c x (some h))
    (hx : x ≠ .sys) : ∃ n, ctl = .ldst (h.called x st (n + 1)) := by
  cases ht with
  | panic hfalse => exact absurd (hf.1.symm.trans hfalse) (by decide)
  | die hfalse => exact absurd (hf.1.symm.trans hfalse) (by decide)
  | pass =>
      obtain ⟨n, hn⟩ := passUp_called (f := f.start) (s := st) (hf.congr rfl rfl) hx
      exact ⟨n, congrArg Ctl.ldst hn⟩

/-- An exception of a process that has registered a handler for it. -/
theorem Event.Ends.called {f g : Face} {ctl : Ctl} {h : State} (hends : e.Ends v f ctl g)
    (he : e.excp = some (x, st)) (hc : f.currentProcess = some c) (hf : f.Shows c x (some h)) :
    ∃ n, ctl = .ldst (h.called x st (n + 1)) := by
  cases e with
  | dispatch => cases he
  | interrupt hw => cases he
  | pgmtrap hw =>
      obtain ⟨d, hd, htraps⟩ := hends
      obtain rfl : c = d := Option.some.inj (hc.symm.trans hd)
      cases he
      exact htraps.called (hf.congr rfl rfl) (by decide)
  | tlb hw =>
      obtain ⟨d, hd, htraps⟩ := hends
      obtain rfl : c = d := Option.some.inj (hc.symm.trans hd)
      cases he
      exact htraps.called (hf.congr rfl rfl) (by decide)
  | syscall hw =>
      obtain ⟨d, hd, hcalls⟩ := hends
      obtain rfl : c = d := Option.some.inj (hc.symm.trans hd)
      rw [Event.excp] at he
      cases hcalls with
      | panic hserv ht =>
          rw [hserv] at he
          cases he
          exact absurd (hf.1.symm.trans ht) (by decide)
      | served hserv huser =>
          rw [hserv, huser] at he
          cases he
      | ended hserv huser =>
          rw [hserv, huser] at he
          cases he
      | reflect hserv huser htraps =>
          rw [hserv, huser] at he
          cases he
          exact htraps.called (hf.congr rfl rfl) (by decide)
      | die hserv ht =>
          rw [hserv] at he
          cases he
          exact absurd (hf.1.symm.trans ht) (by decide)
      | pass hserv ht =>
          rw [hserv] at he
          cases he
          obtain ⟨n, hn⟩ := passUpSyscall_called (f := (f.enter hw).trap c) (s := hw.oldArea .sysbk)
            (hf.congr rfl rfl)
          exact ⟨n, congrArg Ctl.ldst hn⟩

/-- An exception of a process that has registered no handler for it kills the process. -/
theorem Event.act_unhandled {k : Kernel} (he : e.excp = some (x, st))
    (hc : k.currentProcess = some c)
    (ht : k.tags c x = false) : e.act k = some (.terminate c) := by
  have htrap : trapAct k.core c x = some (.terminate c) := if_neg (by simp [ht])
  cases e with
  | dispatch => cases he
  | interrupt hw => cases he
  | syscall hw =>
      rw [Event.act, hc, Option.bind_some, syscallAct]
      rw [Event.excp] at he
      by_cases hserv : isService (hw.oldArea .sysbk) = true
      · rw [if_pos hserv] at he ⊢
        by_cases huser : isUserMode (hw.oldArea .sysbk) = true
        · rw [if_pos huser] at he ⊢
          cases he
          exact htrap
        · rw [if_neg huser] at he
          cases he
      · rw [if_neg hserv] at he ⊢
        cases he
        exact htrap
  | pgmtrap hw =>
      cases he
      rw [Event.act, hc, Option.bind_some]
      exact htrap
  | tlb hw =>
      cases he
      rw [Event.act, hc, Option.bind_some]
      exact htrap

/-- The victim of an entry and its descendants are dead after it. -/
theorem Sys.step_kills {t q : Pcb} (h : Rep s.kernel.core v) (hs : SparesReady s e)
    (hstep : s.step e = some s')
    (hact : e.act s.kernel = some (.terminate t)) (hq : q ∈ killed s.kernel t) :
    ¬ s'.kernel.Lives q := by
  obtain ⟨acts, v', hacts, hsteps, hrep'⟩ := Sys.step_refines h hs hstep
  rcases Event.acts_split hacts with rfl | ⟨hnone, -⟩
  · rw [hact] at hsteps
    cases steps_single.mp hsteps with
    | @terminate _ _ ks hks =>
        have hplace : (v.terminate t ks).place q = .free := by
          change (v.killAll (ks.postorder ++ [t])).place q = .free
          rw [killAll_place, if_pos ((mem_killed h.toWellFormed hks).mp hq)]
        rw [hrep'.lives_iff, hrep'.mem_tree, hplace]
        exact fun hne => hne rfl
  · rw [hact] at hnone
    cases hnone

/-- An exception of the running process does nothing undefined. -/
theorem excp_step (h : Reach (nucleus B) SparesReady s) (henabled : e.enabled s.ctl = true)
    (hs : SparesReady s e) (he : e.excp = some (x, st)) :
    ∃ s' c, s.step e = some s' ∧ s.kernel.currentProcess = some c := by
  obtain ⟨v, hrep⟩ := nucleus_rep h
  have htame := hs.tame hrep
  obtain ⟨c, hc⟩ : ∃ c, s.kernel.currentProcess = some c := by
    obtain ⟨state, hctl⟩ :=
      enabled_ldst henabled (by rintro rfl; cases he) (by rintro hw rfl; cases he)
    exact Option.ne_none_iff_exists'.mp ((nucleus_manned h).1 state hctl)
  have hgoes : fate e.program (s.kernel.enter e) = .goes := by
    cases e with
    | dispatch => cases he
    | interrupt hw => cases he
    | pgmtrap hw =>
        rw [Event.act, hc, Option.bind_some] at htame
        exact trapHandler_fate (s := s.kernel.enter (.pgmtrap hw)) hrep hc htame
    | tlb hw =>
        rw [Event.act, hc, Option.bind_some] at htame
        exact trapHandler_fate (s := s.kernel.enter (.tlb hw)) hrep hc htame
    | syscall hw =>
        rw [Event.act, hc, Option.bind_some] at htame
        have hserved : ¬ (isService (hw.oldArea .sysbk) ∧ ¬ isUserMode (hw.oldArea .sysbk)) := by
          rintro ⟨hserv, huser⟩
          rw [Event.excp, if_pos hserv, if_neg huser] at he
          cases he
        have harea : (s.kernel.enter (.syscall hw)).hw.oldArea .sysbk = hw.oldArea .sysbk := rfl
        have hfate := syscallHandler_fate (s := s.kernel.enter (.syscall hw)) hrep hc
          harea (fun hserv huser => absurd ⟨hserv, by rw [huser]; exact Bool.false_ne_true⟩ hserved)
            htame
        rw [callFate, if_neg hserved] at hfate
        exact hfate
  obtain ⟨s', hstep⟩ := Sys.step_exists hrep henabled (by rw [hgoes]; exact Fate.noConfusion)
  exact ⟨s', c, hstep, hc⟩

/-- An exception of a process that has registered a handler for its kind since the process was made
is passed up to just that handler, in the state that was asked for; any other process dies of it. -/
theorem exceptions_handled (h : Reach (registrations B) (fun y e => SparesReady y.1 e) y)
    (henabled : e.enabled y.1.ctl = true) (hs : SparesReady y.1 e) (he : e.excp = some (x, st)) :
    ∃ s' c, y.1.step e = some s' ∧ y.1.kernel.currentProcess = some c ∧
      (y.2 c x = none → ¬ s'.kernel.Lives c) ∧
      ∀ h, y.2 c x = some h → ∃ n, s'.ctl = .ldst (h.called x st (n + 1)) := by
  obtain ⟨s', c, hstep, hc⟩ := excp_step h.of_ghost henabled hs he
  obtain ⟨v, hrep, hshows⟩ := nucleus_enrolled h
  have hlives : y.1.kernel.Lives c := hrep.lives_iff.mpr (hrep.current c hc).2
  have hshow := hshows c x hlives
  refine ⟨s', c, hstep, hc, fun hnone => ?_, fun h hsome => ?_⟩
  · rw [hnone] at hshow
    exact Sys.step_kills hrep hs hstep (Event.act_unhandled he hc hshow) List.mem_cons_self
  · rw [hsome] at hshow
    exact (Sys.step_ends hrep hstep).called he hc hshow

end Runs

section Board

attribute [local instance] uarm

/-- A process registers a handler for its breakpoints, makes a child and comes to a breakpoint. -/
theorem exceptions_handled_breakpoint : ∃ (y : Sys × Registry) (s' : Sys) (h : State) (n : ℕ),
    y.1.kernel.currentProcess = some 0 ∧ y.2 0 .sys = some h ∧ h.pc = 0x8100 ∧ h.sp = 0x9000 ∧
      y.1.step (.syscall { Hw.rest with oldArea := fun _ => breakpointState }) = some s' ∧
      s'.ctl = .ldst (h.called .sys breakpointState (n + 1)) := by
  obtain ⟨y, hy, hQ⟩ := ghost_run (fun _ _ _ => none) noteHandlers (B := fun _ => True)
    (D := fun y e => SparesReady y.1 e) trivial atBoot_zero
    [.dispatch, call 4 0x8100 0x9000, .dispatch, call 1, .dispatch]
    (fun y => y.1.kernel.currentProcess = some 0 ∧
      (y.2 0 .sys).any (fun h => h.pc = 0x8100 ∧ h.sp = 0x9000) ∧
      SparesReady y.1 (.syscall { Hw.rest with oldArea := fun _ => breakpointState }) ∧
      (Event.syscall { Hw.rest with oldArea := fun _ => breakpointState }).enabled y.1.ctl = true)
    (by decide +kernel)
  obtain ⟨hcur, hreg, hs, henabled⟩ := of_decide_eq_true hQ
  obtain ⟨h, hh, hentry⟩ := (Option.any_eq_true _ _).mp hreg
  obtain ⟨hpc, hsp⟩ := of_decide_eq_true hentry
  have hexcp : Event.excp (.syscall { Hw.rest with oldArea := fun _ => breakpointState }) =
      some (.sys, breakpointState) := rfl
  obtain ⟨s', c, hstep, hc, -, hcalled⟩ := exceptions_handled hy henabled hs hexcp
  obtain rfl : 0 = c := Option.some.inj (hcur.symm.trans hc)
  obtain ⟨n, hn⟩ := hcalled h hh
  exact ⟨y, s', h, n, hcur, hh, hpc, hsp, hstep, hn⟩

end Board

end JaeOS
