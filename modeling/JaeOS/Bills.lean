import JaeOS.Pids
import JaeOS.Timed

/-!
# What an entry charges

Every handler reads the clock when it starts and before it ends, and adds the difference to the
`kernel_time` of the process that made the entry; a process that blocks is given its `global_time`
as well. Nothing else happens to the accounts.
-/

namespace JaeOS

/-! ### Pairs of readings -/

/-- The readings of a handler come in pairs, at the start and at the end of what is charged. -/
def charged (q : Clock) (r n : ℕ) : ℕ :=
  ∑ j ∈ Finset.range (n / 2), (q.time (r + 2 * j + 1) - q.time (r + 2 * j))

/-- What is charged has gone by between the first reading and the last. -/
theorem charged_le (q : Clock) (r n : ℕ) : charged q r n + q.time r ≤ q.time (r + (n - 1)) := by
  have hpairs : ∀ m, (∑ j ∈ Finset.range m, (q.time (r + 2 * j + 1) - q.time (r + 2 * j))) +
      q.time r ≤
      q.time (r + (2 * m - 1)) := by
    intro m
    induction m with
    | zero => simp
    | succ m ih =>
        have hpair : q.time (r + 2 * m) ≤ q.time (r + 2 * m + 1) := q.mono (Nat.le_succ _)
        have hnext : q.time (r + (2 * m - 1)) ≤ q.time (r + 2 * m) := q.mono (by omega)
        rw [Finset.sum_range_succ, show r + (2 * (m + 1) - 1) = r + 2 * m + 1 by omega]
        omega
  exact (hpairs (n / 2)).trans (q.mono (by omega))

theorem charged_one (q : Clock) (r : ℕ) : charged q r 1 = 0 := rfl

theorem charged_two (q : Clock) (r : ℕ) : charged q r 2 = q.time (r + 1) - q.time r := by
  simp [charged]

theorem charged_three (q : Clock) (r : ℕ) : charged q r 3 = q.time (r + 1) - q.time r := by
  simp [charged]

theorem charged_add_two (q : Clock) (r n : ℕ) :
    charged q r (n + 2) = q.time (r + 1) - q.time r + charged q (r + 2) n := by
  have hhalf : (n + 2) / 2 = n / 2 + 1 := by omega
  rw [charged, hhalf, Finset.sum_range_succ', add_comm]
  congr 1
  apply Finset.sum_congr rfl
  intro j _
  rw [show r + 2 * (j + 1) = r + 2 + 2 * j by omega]

section Entries

variable [Platform] {v : View} {f g m : Face} {c p : Pcb} {κ : Core} {st : State} {a : ℕ} {w : ℤ}
  {o : Option Ctl} {ctl : Ctl} {e : Excp} {u r : Word} {q : Clock} {k k' : Kernel}
  {act : Option Act}

def Face.bill (f : Face) :
    Option Pcb × (Pcb → Word) × (Pcb → Word) × Word × Word × (ℕ → Word) × ℕ :=
  (f.currentProcess, f.kernelTime, f.globalTime, f.kernelStart, f.startTOD, f.hw.tod, f.hw.reads)

/-- What a service whose move is `act` does to the accounts before the time is charged. -/
inductive Bills (v : View) (f : Face) (c : Pcb) (act : Option Act) (g : Face) : Prop where
  | goes (h : g.bill = f.bill) (hact : act = some .create → v.free = [])
  | makes {p : Pcb} {l : List Pcb} (hf : v.free = p :: l) (h : g.bill = (f.create p .zero 0).bill)
  | suspends (h : g.bill = (f.suspend c).bill) (hact : act ≠ some .create)
  | drops (h : g.bill = f.drop.bill) (hact : act = some (.terminate c))

theorem Operates.bills (h : Operates v f c a w o g) : Bills v f c (semAct c a w) g := by
  have hcreate : semAct c a w ≠ some .create := by
    unfold semAct
    split_ifs <;> exact fun h => by cases h
  cases h with
  | panic => exact .goes rfl fun h => absurd h hcreate
  | die ha hw => exact .drops rfl (by rw [semAct, if_neg ha, if_pos hw])
  | pass => exact .goes rfl fun h => absurd h hcreate
  | block => exact .suspends rfl hcreate
  | verhogen => exact .goes rfl fun h => absurd h hcreate

/-- A `P` does not terminate the process. -/
theorem Operates.wait_bills (h : Operates v f c a (-1) o g) (hact : act ≠ some .create) :
    Bills v f c act g := by
  cases h with
  | panic => exact .goes rfl fun h => absurd h hact
  | die ha hw => exact absurd hw (by decide)
  | pass => exact .goes rfl fun h => absurd h hact
  | block => exact .suspends rfl hact
  | verhogen => exact .goes rfl fun h => absurd h hact

theorem Serves.bills (h : Serves v f c st o g) (hserv : isService st) (huser : ¬ isUserMode st)
    (hpid : κ.pid = f.pid) (htags : κ.tags = f.tags) :
    Bills v f c (serviceAct κ c st.a1 st.a2 st.a3 st.a4) g := by
  have hother : st.a1 ≠ 1 → serviceAct κ c st.a1 st.a2 st.a3 st.a4 = some .create →
      v.free = [] := by
    intro hne hact
    cases serviceAct_asked hserv huser hact with
    | create hsys => exact absurd hsys hne
  have hne : ∀ n : Word, n ≠ 1 → st.a1 = n → st.a1 ≠ 1 := fun n hn hs => hs ▸ hn
  cases h with
  | panic hs => exact .goes rfl (hother hs)
  | ioPanic hs => exact .goes rfl (hother (hne 10 (by decide) hs))
  | create hs h =>
      cases h with
      | full hf => exact .goes rfl fun _ => hf
      | create hf hpow => exact .makes hf rfl
  | terminate hs =>
      have hkill : serviceAct κ c st.a1 st.a2 st.a3 st.a4 =
          (terminated κ c st.a2).map .terminate := by
        rw [hs]
        rfl
      split
      · next hown =>
        apply Bills.drops rfl
        rw [hkill, terminated, hpid, if_pos hown]
        rfl
      · exact .goes rfl (hother (hne 2 (by decide) hs))
  | operate hs h =>
      have hsem : serviceAct κ c st.a1 st.a2 st.a3 st.a4 = semAct c st.a2.toNat st.a3.toInt := by
        rw [hs]
        rfl
      rw [hsem]
      exact h.bills
  | specify e hs => exact .goes rfl (hother (hne _ Excp.code_ne hs))
  | respecify e hs ht =>
      have hspec : serviceAct κ c st.a1 st.a2 st.a3 st.a4 = specifyAct κ c e := by
        rw [hs]
        cases e <;> rfl
      apply Bills.drops rfl
      rw [hspec, specifyAct, htags, if_pos ht]
  | exitTrap e hs => exact .goes rfl (hother (hne 7 (by decide) hs))
  | noTrap hs => exact .goes rfl (hother (hne 7 (by decide) hs))
  | cputime hs => exact .goes rfl (hother (hne 8 (by decide) hs))
  | clock hs h =>
      apply h.wait_bills
      rw [hs]
      exact fun h => by cases h
  | io hs h =>
      obtain ⟨hi, hr, h⟩ := h
      have hact : serviceAct κ c st.a1 st.a2 st.a3 st.a4 ≠ some .create := by
        rw [hs]
        exact fun h => by cases h
      cases h with
      | die ha hw => exact absurd hw (by decide)
      | pass => exact .goes rfl fun h => absurd h hact
      | block => exact .suspends rfl hact
      | verhogen => exact .goes rfl fun h => absurd h hact
  | getpid hs => exact .goes rfl (hother (hne 11 (by decide) hs))

omit [Platform] in
theorem bill_eq : g.bill = f.bill ↔ g.currentProcess = f.currentProcess ∧
    g.kernelTime = f.kernelTime ∧ g.globalTime = f.globalTime ∧ g.kernelStart = f.kernelStart ∧
    g.startTOD = f.startTOD ∧ g.hw.tod = f.hw.tod ∧ g.hw.reads = f.hw.reads := by
  simp only [Face.bill, Prod.mk.injEq]

inductive Pays (q : Clock) (f : Face) (c : Pcb) (act : Option Act) (g : Face) : Prop where
  | runs (hc : g.currentProcess = some c)
      (hk : g.kernelTime c = f.kernelTime c +
        BitVec.ofNat 32 (charged q f.hw.reads (g.hw.reads - f.hw.reads)))
      (hg : g.globalTime c = f.globalTime c)
  | suspends (hc : g.currentProcess = none) (hr : f.hw.reads + 3 ≤ g.hw.reads)
      (hk : g.kernelTime c = f.kernelTime c +
        BitVec.ofNat 32 (charged q f.hw.reads (g.hw.reads - f.hw.reads)))
      (hg : g.globalTime c = f.globalTime c +
        (BitVec.ofNat 32 (q.time (g.hw.reads - 1)) - f.startTOD))
  | drops (hc : g.currentProcess = none) (hact : act = some (.terminate c))

omit [Platform] in
/-- The time between two readings. -/
theorem reading_sub (hq : f.hw.tod = tod q) (i : ℕ) :
    f.hw.tod (i + 1) - f.hw.tod i = BitVec.ofNat 32 (q.time (i + 1) - q.time i) := by
  rw [hq]
  exact Clock.ofNat_sub (q.mono (Nat.le_succ i))

structure Uncharged (f : Face) (c : Pcb) (g : Face) : Prop where
  current : g.currentProcess = some c
  kernel : g.kernelTime c = f.kernelTime c
  global : g.globalTime c = f.globalTime c
  start : g.kernelStart = f.hw.tod f.hw.reads
  tod : g.hw.tod = f.hw.tod
  reads : g.hw.reads = f.hw.reads + 1

omit [Platform] in
theorem Uncharged.pays (h : Uncharged f c g) : Pays q f c act g := by
  have hone : g.hw.reads - f.hw.reads = 1 := by
    rw [h.reads]
    exact Nat.add_sub_cancel_left ..
  apply Pays.runs h.current _ h.global
  rw [hone, charged_one, h.kernel]
  exact (add_zero _).symm

omit [Platform] in
theorem Uncharged.charge (h : Uncharged f c g) (hq : f.hw.tod = JaeOS.tod q) :
    Pays q f c act (g.charge c) := by
  have htwo : (g.charge c).hw.reads - f.hw.reads = 2 := by
    change g.hw.reads + 1 - f.hw.reads = 2
    rw [h.reads]
    omega
  apply Pays.runs (g := g.charge c) h.current _ h.global
  rw [htwo, charged_two, ← reading_sub hq, ← h.kernel, ← h.start]
  refine (Function.update_self ..).trans ?_
  rw [Face.now, h.tod, h.reads]

theorem start_uncharged (hm : m.bill = f.start.bill) (hc : f.currentProcess = some c) :
    Uncharged f c m := by
  obtain ⟨hcur, hkernel, hglobal, hstart, -, htod, hreads⟩ := bill_eq.mp hm
  exact ⟨hcur.trans hc, congrFun hkernel c, congrFun hglobal c, hstart, htod, hreads⟩

theorem Bills.pays (h : Bills v m c act g) (hm : m.bill = f.start.bill) (hq : f.hw.tod = tod q)
    (hc : f.currentProcess = some c) (hfree : c ∉ v.free) :
    Uncharged f c g ∨ g.currentProcess = none ∧ Pays q f c act g := by
  have hstart := start_uncharged hm hc
  cases h with
  | goes h hact => exact Or.inl (start_uncharged (h.trans hm) hc)
  | @makes p l hf h =>
      left
      obtain ⟨hcur, hkernel, hglobal, hks, -, htod, hreads⟩ := bill_eq.mp h
      have hne : c ≠ p := by
        rintro rfl
        exact hfree (hf ▸ List.mem_cons_self)
      constructor
      · exact hcur.trans hstart.current
      · rw [hkernel]
        exact (Function.update_of_ne hne ..).trans hstart.kernel
      · rw [hglobal]
        exact (Function.update_of_ne hne ..).trans hstart.global
      · exact hks.trans hstart.start
      · exact htod.trans hstart.tod
      · exact hreads.trans hstart.reads
  | suspends h hact =>
      right
      obtain ⟨hcur, hkernel, hglobal, -, -, -, hreads⟩ := bill_eq.mp h
      obtain ⟨-, -, -, -, hTOD, -, -⟩ := bill_eq.mp hm
      have hreads' : g.hw.reads = f.hw.reads + 3 := by
        rw [hreads]
        exact congrArg (· + 2) hstart.reads
      have hthree : g.hw.reads - f.hw.reads = 3 := by
        rw [hreads']
        exact Nat.add_sub_cancel_left ..
      have hnow : m.now = f.hw.tod (f.hw.reads + 1) := by
        rw [Face.now, hstart.tod, hstart.reads]
      have hlast : BitVec.ofNat 32 (q.time (g.hw.reads - 1)) = m.hw.tod (m.hw.reads + 1) := by
        rw [hreads', hstart.tod, hstart.reads, hq]
        rfl
      refine ⟨hcur, .suspends hcur hreads'.ge ?_ ?_⟩
      · rw [hthree, charged_three, ← reading_sub hq, ← hstart.kernel, ← hstart.start, ← hnow,
          hkernel]
        exact Function.update_self ..
      · rw [hlast, ← hstart.global, hglobal, ← show m.startTOD = f.startTOD from hTOD]
        exact Function.update_self ..
  | drops h hact =>
      obtain ⟨hcur, -⟩ := bill_eq.mp h
      exact Or.inr ⟨hcur, .drops hcur hact⟩

omit [Platform] in
theorem Pays.of_bill {g' : Face} (h : Pays q f c act g) (hb : g'.bill = g.bill) :
    Pays q f c act g' := by
  obtain ⟨hcur, hkernel, hglobal, -, -, -, hreads⟩ := bill_eq.mp hb
  cases h with
  | runs hc hk hg =>
      apply Pays.runs (hcur.trans hc)
      · rw [hkernel, hreads]
        exact hk
      · rw [hglobal]
        exact hg
  | suspends hc hr hk hg =>
      apply Pays.suspends (hcur.trans hc)
      · rw [hreads]
        exact hr
      · rw [hkernel, hreads]
        exact hk
      · rw [hglobal, hreads]
        exact hg
  | drops hc hact => exact .drops (hcur.trans hc) hact

omit [Platform] in
/-- An entry made of a charge and a second entry. -/
theorem Pays.after_charge (hq : f.hw.tod = tod q) (hm : m.bill = ((g.charge c).bill))
    (hg : Uncharged f c g) (hTOD : g.startTOD = f.startTOD) {g' : Face} (h : Pays q m c act g')
    (hle : m.hw.reads ≤ g'.hw.reads) : Pays q f c act g' := by
  obtain ⟨hcur, hkernel, hglobal, -, hstart, -, hreads⟩ := bill_eq.mp hm
  have hreads' : m.hw.reads = f.hw.reads + 2 := by
    rw [hreads]
    exact congrArg (· + 1) hg.reads
  have hkernel' : m.kernelTime c = f.kernelTime c +
      BitVec.ofNat 32 (q.time (f.hw.reads + 1) - q.time f.hw.reads) := by
    rw [hkernel, ← reading_sub hq, ← hg.kernel, ← hg.start]
    refine (Function.update_self ..).trans ?_
    rw [Face.now, hg.tod, hg.reads]
  have hglobal' : m.globalTime c = f.globalTime c := (congrFun hglobal c).trans hg.global
  have hn : g'.hw.reads - f.hw.reads = g'.hw.reads - m.hw.reads + 2 := by omega
  have hsum : m.kernelTime c + BitVec.ofNat 32 (charged q m.hw.reads (g'.hw.reads - m.hw.reads)) =
      f.kernelTime c + BitVec.ofNat 32 (charged q f.hw.reads (g'.hw.reads - f.hw.reads)) := by
    rw [hn, charged_add_two, BitVec.ofNat_add, ← hreads', hkernel', add_assoc]
  cases h with
  | runs hc hk hg => exact .runs hc (hk.trans hsum) (hg.trans hglobal')
  | suspends hc hr hk hgl =>
      apply Pays.suspends hc _ (hk.trans hsum)
      · rw [hgl, hglobal', hstart, show (g.charge c).startTOD = f.startTOD from hTOD]
      · omega
  | drops hc hact => exact .drops hc hact

theorem Traps.pays (h : Traps f c e st ctl g) (hq : f.hw.tod = tod q)
    (hc : f.currentProcess = some c)
    (htags : κ.tags = f.tags) : Pays q f c (trapAct κ c e) g := by
  cases h with
  | panic ht => exact (start_uncharged rfl hc).pays
  | die ht =>
      apply Pays.drops rfl
      rw [trapAct, htags, ht]
      rfl
  | pass ht => exact ((start_uncharged (f := f) rfl hc).charge hq).of_bill rfl

theorem Calls.pays (h : Calls v f c st ctl g) (hq : f.hw.tod = tod q)
    (hc : f.currentProcess = some c)
    (hfree : c ∉ v.free) (hpid : κ.pid = f.pid) (htags : κ.tags = f.tags) :
    Pays q f c (syscallAct κ c st) g := by
  have hstart : (f.trap c).bill = f.start.bill := rfl
  cases h with
  | panic => exact (start_uncharged hstart hc).pays
  | @served g hserv huser h =>
      have hact : syscallAct κ c st = serviceAct κ c st.a1 st.a2 st.a3 st.a4 := by
        rw [syscallAct, if_pos hserv, if_neg (Bool.eq_false_iff.mp huser)]
      rw [hact]
      rcases (h.bills hserv (Bool.eq_false_iff.mp huser) hpid htags).pays hstart hq hc hfree with
        hgoes | ⟨hnone, hpays⟩
      · rw [Face.finish_some hgoes.current]
        exact hgoes.charge hq
      · rw [Face.finish_none hnone]
        exact hpays
  | ended hserv huser h =>
      have hact : syscallAct κ c st = serviceAct κ c st.a1 st.a2 st.a3 st.a4 := by
        rw [syscallAct, if_pos hserv, if_neg (Bool.eq_false_iff.mp huser)]
      rw [hact]
      rcases (h.bills hserv (Bool.eq_false_iff.mp huser) hpid htags).pays hstart hq hc hfree with
        hgoes | ⟨hnone, hpays⟩
      · exact hgoes.pays
      · exact hpays
  | reflect hserv huser h =>
      have hact : syscallAct κ c st = trapAct κ c .pgmtp := by
        rw [syscallAct, if_pos hserv, if_pos huser]
      rw [hact]
      have hreads : (f.reflect c (reservedState st)).hw.reads ≤ g.hw.reads := by
        cases h
        · exact Nat.le_succ _
        · exact Nat.le_succ _
        · exact Nat.le_add_right _ 2
      have hcharge : (f.reflect c (reservedState st)).bill = ((f.trap c).charge c).bill := rfl
      exact Pays.after_charge hq hcharge (start_uncharged hstart hc) rfl (h.pays hq hc htags) hreads
  | die hserv ht =>
      apply Pays.drops rfl
      rw [syscallAct, if_neg (Bool.eq_false_iff.mp hserv), trapAct, htags,
        show f.tags c .sys = false from ht]
      rfl
  | pass => exact ((start_uncharged hstart hc).charge hq).of_bill rfl

omit [Platform] in
/-- The accounts of the other processes stay. -/
theorem Bills.others (h : Bills v m c act g) (hp : p ≠ c) (halive : p ∉ v.free) :
    g.kernelTime p = m.kernelTime p ∧ g.globalTime p = m.globalTime p := by
  cases h with
  | goes h hact =>
      obtain ⟨-, hkernel, hglobal, -⟩ := bill_eq.mp h
      exact ⟨congrFun hkernel p, congrFun hglobal p⟩
  | @makes p' l hf h =>
      obtain ⟨-, hkernel, hglobal, -⟩ := bill_eq.mp h
      have hne : p ≠ p' := by
        rintro rfl
        exact halive (hf ▸ List.mem_cons_self)
      rw [hkernel, hglobal]
      exact ⟨Function.update_of_ne hne .., Function.update_of_ne hne ..⟩
  | suspends h hact =>
      obtain ⟨-, hkernel, hglobal, -⟩ := bill_eq.mp h
      rw [hkernel, hglobal]
      exact ⟨Function.update_of_ne hp .., Function.update_of_ne hp ..⟩
  | drops h hact =>
      obtain ⟨-, hkernel, hglobal, -⟩ := bill_eq.mp h
      exact ⟨congrFun hkernel p, congrFun hglobal p⟩

omit [Platform] in
/-- A new process has had no time. -/
theorem Bills.newborn (h : Bills v m c (some .create) g) {l : List Pcb} (hf : v.free = p :: l) :
    g.kernelTime p = 0 ∧ g.globalTime p = 0 := by
  cases h with
  | goes h hact =>
      rw [hact rfl] at hf
      cases hf
  | @makes p' l' hf' h =>
      obtain ⟨-, hkernel, hglobal, -⟩ := bill_eq.mp h
      rw [hf'] at hf
      obtain rfl := (List.cons.inj hf).1
      rw [hkernel, hglobal]
      exact ⟨Function.update_self .., Function.update_self ..⟩
  | suspends h hact => exact absurd rfl hact
  | drops h hact => cases hact

omit [Platform] in
theorem charge_others (hp : p ≠ c) :
    (f.charge c).kernelTime p = f.kernelTime p ∧ (f.charge c).globalTime p = f.globalTime p :=
  ⟨Function.update_of_ne hp .., rfl⟩

theorem Traps.others (h : Traps f c e st ctl g) (hp : p ≠ c) :
    g.kernelTime p = f.kernelTime p ∧ g.globalTime p = f.globalTime p := by
  cases h with
  | panic => exact ⟨rfl, rfl⟩
  | die => exact ⟨rfl, rfl⟩
  | pass => exact charge_others (f := f.start) hp

omit [Platform] in
theorem finish_others (hc : f.currentProcess = some c ∨ f.currentProcess = none) (hp : p ≠ c) :
    f.finish.kernelTime p = f.kernelTime p ∧ f.finish.globalTime p = f.globalTime p := by
  rcases hc with hc | hc
  · rw [Face.finish_some hc]
    exact charge_others hp
  · rw [Face.finish_none hc]
    exact ⟨rfl, rfl⟩

omit [Platform] in
theorem Bills.current (h : Bills v m c act g) (hc : m.currentProcess = some c) :
    g.currentProcess = some c ∨ g.currentProcess = none := by
  cases h with
  | goes h hact => exact Or.inl ((bill_eq.mp h).1.trans hc)
  | makes hf h => exact Or.inl ((bill_eq.mp h).1.trans hc)
  | suspends h hact => exact Or.inr (bill_eq.mp h).1
  | drops h hact => exact Or.inr (bill_eq.mp h).1

/-- What a system call does to the accounts of the other processes. -/
theorem Calls.others (h : Calls v f c st ctl g) (hc : f.currentProcess = some c)
    (hpid : κ.pid = f.pid) (htags : κ.tags = f.tags) (hp : p ≠ c) :
    (p ∉ v.free → g.kernelTime p = f.kernelTime p ∧ g.globalTime p = f.globalTime p) ∧
      (syscallAct κ c st = some .create → ∀ l, v.free = p :: l →
        g.kernelTime p = 0 ∧ g.globalTime p = 0) := by
  have htrap : ∀ x, trapAct κ c x ≠ some .create := fun x hx => by cases trapAct_eq hx
  have hserve : ∀ {o : Option Ctl} {m : Face}, isService st = true → isUserMode st = false →
      Serves v (f.trap c) c st o m → (p ∉ v.free → m.kernelTime p = f.kernelTime p ∧
        m.globalTime p = f.globalTime p) ∧
        (syscallAct κ c st = some .create → ∀ l, v.free = p :: l →
          m.kernelTime p = 0 ∧ m.globalTime p = 0) := by
    intro o m hserv huser h
    have hbills := h.bills hserv (Bool.eq_false_iff.mp huser) hpid htags
    refine ⟨fun halive => hbills.others hp halive, fun hact l hl => ?_⟩
    rw [syscallAct, if_pos hserv, if_neg (Bool.eq_false_iff.mp huser)] at hact
    rw [hact] at hbills
    exact hbills.newborn hl
  have hpass : isService st = false → syscallAct κ c st ≠ some .create := by
    intro hserv
    rw [syscallAct, if_neg (Bool.eq_false_iff.mp hserv)]
    exact htrap .sys
  cases h with
  | panic hserv ht => exact ⟨fun _ => ⟨rfl, rfl⟩, fun hact => absurd hact (hpass hserv)⟩
  | @served m hserv huser h =>
      have hbills := h.bills (κ := κ) hserv (Bool.eq_false_iff.mp huser) hpid htags
      obtain ⟨hkernel, hglobal⟩ := finish_others (hbills.current hc) hp
      rw [hkernel, hglobal]
      exact hserve hserv huser h
  | ended hserv huser h => exact hserve hserv huser h
  | reflect hserv huser h =>
      constructor
      · intro _
        obtain ⟨hkernel, hglobal⟩ := h.others hp
        rw [hkernel, hglobal]
        exact charge_others (f := f.trap c) hp
      · rw [syscallAct, if_pos hserv, if_pos huser]
        exact fun hact => absurd hact (htrap .pgmtp)
  | die hserv ht => exact ⟨fun _ => ⟨rfl, rfl⟩, fun hact => absurd hact (hpass hserv)⟩
  | pass hserv ht =>
      exact ⟨fun _ => charge_others (f := f.trap c) hp, fun hact => absurd hact (hpass hserv)⟩

/-- While an interrupt line is served the accounts stay as they are. -/
theorem still_bill (hm : m.still = f.interrupt.still) : m.bill = f.start.bill := by
  have hinterrupt : f.interrupt.bill = f.start.bill := by
    unfold Face.interrupt
    split <;> rfl
  calc m.bill = m.still.bill := rfl
    _ = f.interrupt.still.bill := by rw [hm]
    _ = f.interrupt.bill := rfl
    _ = f.start.bill := hinterrupt

variable {hw : Hw} {ev : Event}

theorem Event.Ends.pays (h : ev.Ends v k.face ctl g) (he : ev.hw = some hw) (hq : hw.tod = tod q)
    (hc : k.currentProcess = some c) (hfree : c ∉ v.free) :
    Pays q (k.face.enter hw) c (ev.act k) g := by
  have hrun : k.face.currentProcess = some c := hc
  cases ev with
  | dispatch => cases he
  | syscall hw =>
      cases he
      obtain ⟨c', hc', h⟩ := h
      obtain rfl := Option.some.inj (hrun.symm.trans hc')
      have hact : (Event.syscall hw).act k = syscallAct k.core c (hw.oldArea .sysbk) := by
        rw [Event.act, hc]
        rfl
      rw [hact]
      exact h.pays hq hc hfree rfl rfl
  | pgmtrap hw =>
      cases he
      obtain ⟨c', hc', h⟩ := h
      obtain rfl := Option.some.inj (hrun.symm.trans hc')
      have hact : (Event.pgmtrap hw).act k = trapAct k.core c .pgmtp := by
        rw [Event.act, hc]
        rfl
      rw [hact]
      exact h.pays hq hc rfl
  | tlb hw =>
      cases he
      obtain ⟨c', hc', h⟩ := h
      obtain rfl := Option.some.inj (hrun.symm.trans hc')
      have hact : (Event.tlb hw).act k = trapAct k.core c .tlb := by
        rw [Event.act, hc]
        rfl
      rw [hact]
      exact h.pays hq hc rfl
  | interrupt hw =>
      cases he
      obtain ⟨-, m, hm, -, rfl⟩ := h
      have hgoes : Uncharged (k.face.enter hw) c m := start_uncharged (still_bill hm) hc
      rw [Face.finish_some hgoes.current]
      exact (hgoes.charge hq).of_bill rfl

/-- What an entry of `c` does to the account of another process. -/
theorem Event.Ends.others (h : ev.Ends v k.face ctl g) (he : ev.hw = some hw)
    (hc : k.currentProcess = some c) (hp : p ≠ c) :
    (p ∉ v.free → g.kernelTime p = k.kernelTime p ∧ g.globalTime p = k.globalTime p) ∧
      (ev.act k = some .create → ∀ l, v.free = p :: l → g.kernelTime p = 0 ∧
        g.globalTime p = 0) := by
  have hrun : k.face.currentProcess = some c := hc
  have htrap : ∀ x, (k.currentProcess.bind fun c => trapAct k.core c x) ≠ some .create := by
    intro x hx
    obtain ⟨d, -, hd⟩ := Option.bind_eq_some_iff.mp hx
    cases trapAct_eq hd
  cases ev with
  | dispatch => cases he
  | syscall hw =>
      cases he
      obtain ⟨c', hc', h⟩ := h
      obtain rfl := Option.some.inj (hrun.symm.trans hc')
      have hact : (Event.syscall hw).act k = syscallAct k.core c (hw.oldArea .sysbk) := by
        rw [Event.act, hc]
        rfl
      rw [hact]
      exact h.others hc rfl rfl hp
  | pgmtrap hw =>
      obtain ⟨c', hc', h⟩ := h
      obtain rfl := Option.some.inj (hrun.symm.trans hc')
      exact ⟨fun _ => h.others hp, fun hact => absurd hact (htrap .pgmtp)⟩
  | tlb hw =>
      obtain ⟨c', hc', h⟩ := h
      obtain rfl := Option.some.inj (hrun.symm.trans hc')
      exact ⟨fun _ => h.others hp, fun hact => absurd hact (htrap .tlb)⟩
  | interrupt hw =>
      obtain ⟨-, m, hm, -, rfl⟩ := h
      obtain ⟨hcur, hkernel, hglobal, -⟩ := bill_eq.mp (still_bill hm)
      refine ⟨fun _ => ?_, fun hact => by cases hact⟩
      obtain ⟨hk, hg⟩ := finish_others (f := m) (Or.inl (hcur.trans hc)) hp
      exact ⟨hk.trans (congrFun hkernel p), hg.trans (congrFun hglobal p)⟩

/-- When nobody runs, only interrupts come in, and nobody is charged. -/
theorem Event.Ends.idle (h : ev.Ends v k.face ctl g) (he : ev.hw = some hw)
    (hc : k.currentProcess = none) :
    g.currentProcess = none ∧ g.kernelTime = k.kernelTime ∧ g.globalTime = k.globalTime := by
  have hrun : k.face.currentProcess = none := hc
  have hno : ∀ {P : Pcb → Prop}, ¬ ∃ c, k.face.currentProcess = some c ∧ P c := by
    rintro P ⟨c, hc', -⟩
    rw [hrun] at hc'
    cases hc'
  cases ev with
  | dispatch => cases he
  | syscall hw => exact absurd h hno
  | pgmtrap hw => exact absurd h hno
  | tlb hw => exact absurd h hno
  | interrupt hw =>
      obtain ⟨-, m, hm, -, rfl⟩ := h
      obtain ⟨hcur, hkernel, hglobal, -⟩ := bill_eq.mp (still_bill hm)
      have hnone : m.currentProcess = none := hcur.trans hc
      rw [Face.finish_none hnone]
      exact ⟨hnone, hkernel, hglobal⟩

end Entries

end JaeOS
