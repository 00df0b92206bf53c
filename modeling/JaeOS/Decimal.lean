import JaeOS.Pids
import JaeOS.Steady

/-!
# The loop of `pid_generator`

The loop looks for the least power of ten above `y`. From ten digits on that power is no `unsigned
int`: `pow` runs through the residues of the powers of ten modulo 2³² instead and is 0 in the end.
The counter that is passed as `y` has no bound and is never set back.
-/

namespace JaeOS

/-! ### The rounds -/

section Rounds

variable {x y pow : Word} {n d e : ℕ}

/-- After 32 rounds `pow` is 0. -/
theorem tenPow_zero (h : 32 ≤ d) : tenPow d = 0 := by
  have hdvd : 2 ^ 32 ∣ 10 ^ d := (by norm_num : (2 ^ 32 : ℕ) ∣ 10 ^ 32).trans (pow_dvd_pow 10 h)
  apply BitVec.eq_of_toNat_eq
  rw [tenPow, BitVec.toNat_ofNat, Nat.mod_eq_zero_of_dvd hdvd]
  rfl

/-- The greatest residue is that of the 23rd power. -/
theorem tenPow_le (hd : 0 < d) : tenPow d ≤ tenPow 23 := by
  rcases Nat.lt_or_ge d 32 with hlt | hge
  · have hall : ∀ i < 32, 0 < i → tenPow i ≤ tenPow 23 := by decide
    exact hall d hlt hd
  · rw [tenPow_zero hge]
    exact BitVec.le_def.mpr (Nat.zero_le _)

/-- A loop that ends has met a residue above `y`. -/
theorem pidPow_ends (h : pidPow y n (tenPow d) = some pow) : ∃ e, d ≤ e ∧ y < tenPow e := by
  induction n generalizing d with
  | zero => cases h
  | succ n ih =>
      rw [pidPow] at h
      by_cases hge : y ≥ tenPow d
      · rw [if_pos hge, tenPow_succ] at h
        obtain ⟨e, hde, he⟩ := ih h
        exact ⟨e, by omega, he⟩
      · exact ⟨d, le_rfl, BitVec.not_le.mp hge⟩

theorem pidPow_meets (hy : y < tenPow e) (hd : d ≤ e) (hn : e < d + n) :
    ∃ pow, pidPow y n (tenPow d) = some pow := by
  induction n generalizing d with
  | zero => omega
  | succ n ih =>
      rw [pidPow, tenPow_succ]
      by_cases hge : y ≥ tenPow d
      · have hne : d ≠ e := by
          intro he
          rw [he] at hge
          exact BitVec.not_lt.mpr hge hy
        rw [if_pos hge]
        exact ih (by omega) (by omega)
      · exact ⟨tenPow d, if_neg hge⟩

/-- The loop ends if and only if `y` is below the greatest residue. -/
theorem pidPow_ends_iff : (∃ n pow, pidPow y n 10 = some pow) ↔ y.toNat < 4135583744 := by
  constructor
  · rintro ⟨n, pow, h⟩
    obtain ⟨e, he, hlt⟩ := pidPow_ends (d := 1) h
    exact (BitVec.lt_def.mp hlt).trans_le (BitVec.le_def.mp (tenPow_le he))
  · intro h
    obtain ⟨pow, hpow⟩ := pidPow_meets (d := 1) (n := 33) (e := 23) (BitVec.lt_def.mpr h) (by omega)
      (by omega)
    exact ⟨33, pow, hpow⟩

end Rounds

/-! ### The decimal concatenation -/

/-- The decimal digits of a number, the last one first; 0 has one. -/
def decimal (n : ℕ) : List ℕ := if n = 0 then [0] else Nat.digits 10 n

theorem ofDigits_decimal (n : ℕ) : Nat.ofDigits 10 (decimal n) = n := by
  by_cases hn : n = 0
  · subst hn
    rfl
  · rw [decimal, if_neg hn, Nat.ofDigits_digits]

theorem length_decimal (n : ℕ) : (decimal n).length = decade n := by
  by_cases hn : n = 0
  · subst hn
    rfl
  · rw [decimal, if_neg hn, Nat.length_digits 10 n (by decide) hn]
    rfl

theorem decade_le_of_lt {n d : ℕ} (hd : 0 < d) (h : n < 10 ^ d) : decade n ≤ d :=
  Nat.log_lt_of_lt_pow' (by omega) h

def powersAbove (y : ℕ) : Set ℕ := {m | ∃ d, 0 < d ∧ m = 10 ^ d ∧ y < m}

theorem decade_isLeast (y : ℕ) : IsLeast (powersAbove y) (10 ^ decade y) := by
  refine ⟨⟨decade y, Nat.succ_pos _, rfl, lt_pow_decade y⟩, ?_⟩
  rintro m ⟨d, hd, rfl, hlt⟩
  exact Nat.pow_le_pow_right (by decide) (decade_le_of_lt hd hlt)

theorem concat_eq (x y : Word) :
    x * tenPow (decade y.toNat) + y =
      BitVec.ofNat 32 (Nat.ofDigits 10 (decimal y.toNat ++ decimal x.toNat)) := by
  rw [Nat.ofDigits_append, ofDigits_decimal, ofDigits_decimal, length_decimal, BitVec.ofNat_add,
    BitVec.ofNat_mul, BitVec.ofNat_toNat, BitVec.ofNat_toNat, BitVec.setWidth_eq,
    BitVec.setWidth_eq,
    tenPow, mul_comm, add_comm]

/-- The loop ends with the least power of ten above `y`, and the number is `x` with `y` behind
it. -/
def Concatenates (x y : Word) : Prop :=
  ∃ n pow, pidPow y n 10 = some pow ∧ IsLeast (powersAbove y.toNat) pow.toNat ∧
    (∀ k : Kernel, (pidGenerator x y).run k = .ok (x * pow + y) k) ∧
    x * pow + y = BitVec.ofNat 32 (Nat.ofDigits 10 (decimal y.toNat ++ decimal x.toNat))

theorem concatenates_of_lt {x y : Word} (h : y.toNat < 10 ^ 9) : Concatenates x y := by
  have hpow := pidPow_counter h
  refine ⟨33, tenPow (decade y.toNat), hpow, ?_, fun k => ?_, concat_eq x y⟩
  · rw [tenPow_toNat (decade_le_nine h)]
    exact decade_isLeast y.toNat
  · rw [pidGenerator, hpow]
    rfl

/-- A power of ten above a number of ten digits does not fit. -/
theorem Concatenates.lt {x y : Word} (h : Concatenates x y) : y.toNat < 10 ^ 9 := by
  obtain ⟨n, pow, -, ⟨⟨d, -, hd, hlt⟩, -⟩, -⟩ := h
  by_contra hge
  have hnine : 9 < d := by
    have hpow : 10 ^ 9 < 10 ^ d := lt_of_le_of_lt (not_lt.mp hge) (hd ▸ hlt)
    exact (Nat.pow_lt_pow_iff_right (by decide)).mp hpow
  have hten : 10 ^ 10 ≤ 10 ^ d := Nat.pow_le_pow_right (by decide) hnine
  have hfits := pow.isLt
  omega

/-! ### Who writes the counter -/

section Counter

variable {α β : Type} {x : KM α} {p c : Pcb} {n a : ℕ} {i : ℤ} {u : Word} {e : Excp}

abbrev KeepsCounter (x : KM α) : Prop := Keeps Kernel.counter x

variable [Platform]

def CountsFrom (w : Word) (k : Kernel) : Prop := k.counter = w ∨ k.counter = w + 1

def AddsOne (x : KM α) : Prop :=
  ∀ w, Program.Triple (fun s => s.counter = w) x (fun _ => CountsFrom w) (fun _ => CountsFrom w)
    (fun _ => True)

omit [Platform] in
theorem Keeps.addsOne (h : KeepsCounter x) : AddsOne x := fun w =>
  (h w).conseq (fun _ hs => hs) (fun _ _ hs => Or.inl hs) (fun _ _ hs => Or.inl hs)

omit [Platform] in
theorem Keeps.bind_addsOne {f : α → KM β} (hx : KeepsCounter x) (hf : ∀ r, AddsOne (f r)) :
    AddsOne (x >>= f) := fun w =>
  ((hx w).conseq (fun _ hs => hs) (fun _ _ hs => hs) (fun _ _ hs => Or.inl hs)).bind fun r => hf r w

omit [Platform] in
theorem AddsOne.bind_keeps {f : α → KM β} (hx : AddsOne x) (hf : ∀ r, KeepsCounter (f r)) :
    AddsOne (x >>= f) := by
  intro w
  apply (hx w).bind
  intro r s hs
  have hrun := hf r s.counter s rfl
  cases h : (f r).run s with
  | ok b t =>
      rw [h] at hrun
      rw [CountsFrom, ← show t.counter = s.counter from hrun] at hs
      exact hs
  | exit c t =>
      rw [h] at hrun
      rw [CountsFrom, ← show t.counter = s.counter from hrun] at hs
      exact hs
  | fault e => trivial

omit [Platform] in
theorem AddsOne.ite {b : Prop} [Decidable b] {x y : KM α} (hx : AddsOne x) (hy : AddsOne y) :
    AddsOne (if b then x else y) := by
  split
  · exact hx
  · exact hy

omit [Platform] in
theorem assignPid_addsOne : AddsOne (assignPid p) := by
  apply (keeps_gets _).bind_addsOne
  intro x
  apply (keeps_gets _).bind_addsOne
  intro y
  apply Keeps.bind_addsOne ((keeps_need _ _).bind fun _ => keeps_pure _)
  intro pid w s hs
  exact Or.inr (congrArg (· + 1) hs)

theorem createProcess_addsOne : AddsOne (createProcess u) := by
  have halloc : KeepsCounter (onMem (allocPcb Platform.tmpAddr)) := by
    apply Program.Maintains.zoom
    · exact fun _ _ _ h => h
    · exact fun _ => trivial
  apply halloc.bind_addsOne
  intro o
  cases o with
  | none => exact (keeps_pure _).addsOne
  | some child =>
      apply Keeps.bind_addsOne
      · apply keeps_modify
        exact fun _ => rfl
      intro _
      apply (keeps_gets _).bind_addsOne
      intro state
      apply Keeps.bind_addsOne
      · apply keeps_modify
        exact fun _ => rfl
      intro _
      apply keeps_current.bind_addsOne
      intro parent
      apply Keeps.bind_addsOne
      · apply keeps_modify
        exact fun _ => rfl
      intro _
      apply assignPid_addsOne.bind_keeps
      intro _
      exact insertReady_calm.steady.counter.bind fun _ =>
        addProcessCount_calm.steady.counter.bind fun _ =>
        keeps_gets _

theorem assignA1_addsOne {x : KM Word} (hx : AddsOne x) : AddsOne (assignA1 x) := by
  apply AddsOne.ite
  · exact keeps_current.bind_addsOne fun _ => hx.bind_keeps fun _ => (setPs_steady _).counter
  · exact hx.bind_keeps fun _ => keeps_current.bind fun _ => (setPs_steady _).counter

theorem service_addsOne (sys a2 a3 a4 : Word) : AddsOne (service sys a2 a3 a4) := by
  by_cases hsys : sys = 1
  · rw [service, if_pos hsys]
    exact assignA1_addsOne createProcess_addsOne
  · exact (service_steady sys a2 a3 a4 fun _ => hsys).counter.addsOne

theorem syscallHandler_addsOne : AddsOne syscallHandler := by
  have henter : KeepsCounter syscallEnter := by
    apply disableInterrupts_steady.counter.bind
    intro _
    apply (setFlag_steady _).counter.bind
    intro _
    exact keeps_current.bind fun _ => fun _ _ h => h
  apply henter.bind_addsOne
  intro p
  apply (keeps_gets _).bind_addsOne
  intro state
  apply AddsOne.ite _ passUpSyscall_steady.counter.addsOne
  apply (keeps_gets _).bind_addsOne
  intro own
  exact AddsOne.ite reflectSyscall_steady.counter.addsOne
    ((service_addsOne _ _ _ _).bind_keeps fun _ => serviceEnd_steady.counter)

omit [Platform] in
/-- A number made, the counter goes on, however great it is. -/
theorem assignPid_next {k : Kernel} {pow : Word} (h : pidPow k.counter 33 10 = some pow) :
    ∃ t, (assignPid p).run k = .ok () t ∧ t.counter = k.counter + 1 := by
  rw [assignPid, Program.run_gets_bind, Program.run_gets_bind, pidGenerator, h]
  exact ⟨_, rfl, rfl⟩

/-- No step sets the counter back. -/
theorem Sys.step_counter {s s' : Sys} {e : Event} (h : s.step e = some s') :
    CountsFrom s.kernel.counter s'.kernel := by
  have hrun := (Sys.step_eq h).2.1
  have hsteady : ∀ {e : Event}, e ≠ .dispatch → (∀ hw, e ≠ .syscall hw) →
      e.program.run (s.kernel.enter e) = .exit s'.ctl s'.kernel →
      s'.kernel.counter = (s.kernel.enter e).counter := fun hne hcall hrun =>
    (Event.steady (o := none) hne (fun _ => hcall) hrun).counter trivial
  cases e with
  | dispatch => exact Or.inl (congrArg Prod.snd (scheduler_unscheduled.exit hrun))
  | syscall hw =>
      have henter : (s.kernel.enter (.syscall hw)).counter = s.kernel.counter := rfl
      exact (syscallHandler_addsOne s.kernel.counter).of_exit henter hrun
  | pgmtrap hw => exact Or.inl (hsteady Event.noConfusion (fun _ => Event.noConfusion) hrun)
  | tlb hw => exact Or.inl (hsteady Event.noConfusion (fun _ => Event.noConfusion) hrun)
  | interrupt hw => exact Or.inl (hsteady Event.noConfusion (fun _ => Event.noConfusion) hrun)

end Counter

/-- The loop of `pid_generator` ends with the least power of ten above `y`, and the number is the
decimal concatenation, if and only if `y` has at most nine digits. It ends at all if and only if `y`
is below the greatest residue. The counter goes on with every number that is made and is never
reset. -/
theorem pidGenerator_concatenates [Platform] :
    (∀ x y : Word, Concatenates x y ↔ y.toNat < 10 ^ 9) ∧
    (∀ y : Word, (∃ n pow, pidPow y n 10 = some pow) ↔ y.toNat < 4135583744) ∧
    (∀ (p : Pcb) (k : Kernel) pow, pidPow k.counter 33 10 = some pow →
      ∃ t, (assignPid p).run k = .ok () t ∧ t.counter = k.counter + 1) ∧
    ∀ (s s' : Sys) (e : Event), s.step e = some s' → CountsFrom s.kernel.counter s'.kernel :=
  ⟨fun _ _ => ⟨Concatenates.lt, concatenates_of_lt⟩, fun _ => pidPow_ends_iff,
    fun _ _ _ h => assignPid_next h, fun _ _ _ h => Sys.step_counter h⟩

/-- The first number of ten digits is passed over, and with the greatest numbers the loop never
ends. -/
theorem pidGenerator_overflows : ¬ Concatenates 0 1000000000 ∧
    ∀ n, pidPow 0xFFFFFFFF n 10 = none := by
  refine ⟨fun h => absurd h.lt (by decide), fun n => ?_⟩
  rw [Option.eq_none_iff_forall_ne_some]
  intro pow h
  exact absurd (pidPow_ends_iff.mp ⟨n, pow, h⟩) (by decide)

end JaeOS
