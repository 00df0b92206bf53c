import JaeOS.Census

/-!
# Process identifiers

`pid_generator` writes the counter behind the address of a local variable of `allocPcb`, in decimal.
The product is taken modulo 2³², so counters of different lengths may give the same number. Whether
they do depends on the address alone.
-/

open LinkRing LinkForest Transition

namespace JaeOS

/-! ### Decades of the counter -/

def decade (n : ℕ) : ℕ := Nat.log 10 n + 1

def tenPow (d : ℕ) : Word := BitVec.ofNat 32 (10 ^ d)

theorem lt_pow_decade (n : ℕ) : n < 10 ^ decade n := Nat.lt_pow_succ_log_self (by decide) n

theorem pow_decade_le {n : ℕ} (hn : n ≠ 0) : 10 ^ (decade n - 1) ≤ n := Nat.pow_log_le_self 10 hn

theorem decade_le {n m : ℕ} (h : n ≤ m) : decade n ≤ decade m :=
  Nat.succ_le_succ (Nat.log_mono_right h)

theorem decade_le_nine {n : ℕ} (h : n < 10 ^ 9) : decade n ≤ 9 := by
  by_cases hn : n = 0
  · subst hn
    decide
  · exact Nat.log_lt_of_lt_pow hn h

theorem pow_fits {d : ℕ} (h : d ≤ 9) : 10 ^ d ≤ 10 ^ 9 := Nat.pow_le_pow_right (by decide) h

theorem tenPow_toNat {d : ℕ} (h : d ≤ 9) : (tenPow d).toNat = 10 ^ d := by
  have hfits := pow_fits h
  rw [tenPow, BitVec.toNat_ofNat]
  exact Nat.mod_eq_of_lt (lt_of_le_of_lt hfits (by decide))

theorem tenPow_succ (d : ℕ) : tenPow d * 10 = tenPow (d + 1) := by
  unfold tenPow
  rw [show (10 : Word) = BitVec.ofNat 32 10 from rfl, ← BitVec.ofNat_mul, ← Nat.pow_succ]

/-- The loop stops at the power of ten above the counter. -/
theorem pidPow_eq {y : Word} (hy : y.toNat < 10 ^ 9) {n d : ℕ} (hd : d ≤ decade y.toNat)
    (hd₁ : 1 ≤ d) (hn : decade y.toNat < d + n) :
    pidPow y n (tenPow d) = some (tenPow (decade y.toNat)) := by
  have hnine := decade_le_nine hy
  induction n generalizing d with
  | zero => omega
  | succ n ih =>
      have hpow : (tenPow d).toNat = 10 ^ d := tenPow_toNat (by omega)
      have hge : y ≥ tenPow d ↔ 10 ^ d ≤ y.toNat := by
        rw [ge_iff_le, BitVec.le_def, hpow]
      rw [pidPow]
      by_cases hlast : d = decade y.toNat
      · have hlt := lt_pow_decade y.toNat
        rw [← hlast] at hlt
        rw [if_neg (hge.not.mpr (by omega)), hlast]
      · have hlog : d ≤ Nat.log 10 y.toNat := by
          unfold decade at hlast hd
          omega
        have hne : y.toNat ≠ 0 := by
          intro h0
          rw [h0, Nat.log_zero_right] at hlog
          omega
        have hle := (Nat.le_log_iff_pow_le (by decide) hne).mp hlog
        rw [if_pos (hge.mpr hle), tenPow_succ]
        exact ih (by omega) (by omega) (by omega)

theorem pidPow_counter {y : Word} (hy : y.toNat < 10 ^ 9) :
    pidPow y 33 10 = some (tenPow (decade y.toNat)) := by
  have hnine := decade_le_nine hy
  exact pidPow_eq (d := 1) hy (Nat.succ_le_succ (Nat.zero_le _)) le_rfl (by omega)

/-! ### Collisions -/

/-- The `pid` made of the address `x` and the counter `n`; `x₀` is the address that `main` sees. -/
def pidOf (x x₀ : Word) (n : ℕ) : Word :=
  if n = 0 then x₀ * 10 else x * tenPow (decade n) + BitVec.ofNat 32 n

def Between (w : Word) (lo hi : ℕ) : Prop := lo ≤ w.toNat ∧ w.toNat ≤ hi

instance (w : Word) (lo hi : ℕ) : Decidable (Between w lo hi) := inferInstanceAs (Decidable (_ ∧ _))

/-- What must hold of the addresses for the counter `n`: its wrapped concatenation is not 0 or 2³² -
1, nor that of the first process, nor that of any counter with fewer digits. -/
structure Clear (x x₀ : Word) (n : ℕ) : Prop where
  ends : ¬ Between (-(x * tenPow (decade n))) n (n + 1)
  first : ¬ Between (x₀ * 10 - x * tenPow (decade n)) n n
  shorter : ∀ d < decade n, 0 < d →
    ¬ Between (x * tenPow d - x * tenPow (decade n)) (n - (10 ^ d - 1)) (n - 10 ^ (d - 1))

instance (x x₀ : Word) (n : ℕ) : Decidable (Clear x x₀ n) :=
  decidable_of_iff (¬ Between (-(x * tenPow (decade n))) n (n + 1) ∧
      ¬ Between (x₀ * 10 - x * tenPow (decade n)) n n ∧
      ∀ d < decade n, 0 < d → ¬ Between (x * tenPow d - x * tenPow (decade n))
        (n - (10 ^ d - 1)) (n - 10 ^ (d - 1)))
    ⟨fun h => ⟨h.1, h.2.1, h.2.2⟩, fun h => ⟨h.1, h.2, h.3⟩⟩

section Collisions

variable {x x₀ : Word} {n m : ℕ}

theorem ofNat_sub {a b : ℕ} (h : a ≤ b) :
    BitVec.ofNat 32 b - BitVec.ofNat 32 a = BitVec.ofNat 32 (b - a) := by
  have hb : BitVec.ofNat 32 b = BitVec.ofNat 32 (b - a) + BitVec.ofNat 32 a := by
    rw [← BitVec.ofNat_add, Nat.sub_add_cancel h]
  rw [hb, BitVec.add_sub_cancel]

theorem ofNat_toNat {a : ℕ} (h : a ≤ 10 ^ 9) : (BitVec.ofNat 32 a).toNat = a := by
  rw [BitVec.toNat_ofNat]
  omega

theorem pidOf_pos (hn : n ≠ 0) : pidOf x x₀ n = x * tenPow (decade n) + BitVec.ofNat 32 n :=
  if_neg hn

theorem pidOf_ne_zero (h : Clear x x₀ n) (hn : n ≠ 0) (hlt : n < 10 ^ 9) :
    pidOf x x₀ n ≠ 0 := by
  intro hp
  rw [pidOf_pos hn] at hp
  apply h.ends
  have hneg : -(x * tenPow (decade n)) = BitVec.ofNat 32 n := by grind
  rw [Between, hneg, ofNat_toNat hlt.le]
  exact ⟨le_rfl, Nat.le_succ n⟩

theorem pidOf_ne_fail (h : Clear x x₀ n) (hn : n ≠ 0) (hlt : n < 10 ^ 9) :
    pidOf x x₀ n ≠ -1 := by
  intro hp
  rw [pidOf_pos hn] at hp
  apply h.ends
  have hneg : -(x * tenPow (decade n)) = BitVec.ofNat 32 (n + 1) := by
    rw [BitVec.ofNat_add]
    grind
  rw [Between, hneg, ofNat_toNat hlt]
  exact ⟨Nat.le_succ n, le_rfl⟩

theorem pidOf_ne_first (h : Clear x x₀ n) (hn : n ≠ 0) (hlt : n < 10 ^ 9) :
    pidOf x x₀ 0 ≠ pidOf x x₀ n := by
  intro hp
  rw [pidOf_pos hn, pidOf, if_pos rfl] at hp
  apply h.first
  have hdiff : x₀ * 10 - x * tenPow (decade n) = BitVec.ofNat 32 n := by grind
  rw [Between, hdiff, ofNat_toNat hlt.le]
  exact ⟨le_rfl, le_rfl⟩

theorem pidOf_ne_later (h : Clear x x₀ m) (hn : n ≠ 0) (hnm : n < m) (hlt : m < 10 ^ 9) :
    pidOf x x₀ n ≠ pidOf x x₀ m := by
  intro hp
  have hm : m ≠ 0 := by omega
  rw [pidOf_pos hn, pidOf_pos hm] at hp
  rcases Nat.lt_or_eq_of_le (decade_le hnm.le) with hd | hd
  · apply h.shorter _ hd (Nat.succ_pos _)
    have hdiff : x * tenPow (decade n) - x * tenPow (decade m) = BitVec.ofNat 32 (m - n) := by
      rw [← ofNat_sub hnm.le]
      grind
    have hn₁ := pow_decade_le hn
    have hn₂ := lt_pow_decade n
    rw [Between, hdiff, ofNat_toNat (by omega)]
    omega
  · rw [hd] at hp
    have heq := congrArg BitVec.toNat (add_left_cancel hp)
    rw [ofNat_toNat (by omega), ofNat_toNat hlt.le] at heq
    omega

/-- Different counters give different numbers. -/
theorem pidOf_injective (h : ∀ i, 0 < i → i < n → Clear x x₀ i) (hlt : n ≤ 10 ^ 9)
    {a b : ℕ} (ha : a < n) (hb : b < n) (hp : pidOf x x₀ a = pidOf x x₀ b) : a = b := by
  have hne : ∀ a b, a < b → b < n → pidOf x x₀ a ≠ pidOf x x₀ b := by
    intro a b hab hb
    by_cases ha : a = 0
    · subst ha
      exact pidOf_ne_first (h b hab hb) (by omega) (by omega)
    · exact pidOf_ne_later (h b (by omega) hb) ha hab (by omega)
  rcases Nat.lt_trichotomy a b with hab | hab | hab
  · exact absurd hp (hne a b hab hb)
  · exact hab
  · exact absurd hp.symm (hne b a hab ha)

end Collisions

/-! ### Who gets a `pid` -/

section Effects

variable [Platform] {f g : Face} {v : View} {c p : Pcb} {st : State} {o : Option Ctl} {ctl : Ctl}
  {a : ℕ} {w : ℤ} {u r : Word} {x : Excp}

def SamePids (f g : Face) : Prop := g.pid = f.pid ∧ g.counter = f.counter

omit [Platform] in
theorem SamePids.of_files (h : g.files = f.files) : SamePids f g :=
  ⟨congrArg Prod.fst h, congrArg (fun q => q.2.1) h⟩

def Made (v : View) (f g : Face) : Prop :=
  ∃ p l pow, v.free = p :: l ∧ pidPow f.counter 33 10 = some pow ∧
    g.pid = Function.update f.pid p (Platform.tmpAddr * pow + f.counter) ∧
    g.counter = f.counter + 1

theorem Creates.made (h : Creates v f u r g) : SamePids f g ∧ v.free = [] ∨ Made v f g := by
  cases h with
  | full hf => exact Or.inl ⟨⟨rfl, rfl⟩, hf⟩
  | create hf hpow => exact Or.inr ⟨_, _, _, hf, hpow, rfl, rfl⟩

omit [Platform] in
theorem Excp.code_ne : (4 + x.code : Word) ≠ 1 := by
  cases x <;> decide

theorem Serves.made (h : Serves v f c st o g) (hsys : st.a1 = 1) :
    SamePids f g ∧ v.free = [] ∨ Made v f g := by
  have hother : ∀ n : Word, st.a1 = n → n = 1 := fun n hn => hn.symm.trans hsys
  cases h with
  | panic hs => exact absurd hsys hs
  | ioPanic hs => exact absurd (hother 10 hs) (by decide)
  | create hs h => exact h.made
  | terminate hs => exact absurd (hother 2 hs) (by decide)
  | operate hs => exact absurd (hother 3 hs) (by decide)
  | specify e hs => exact absurd (hother _ hs) Excp.code_ne
  | respecify e hs => exact absurd (hother _ hs) Excp.code_ne
  | exitTrap e hs => exact absurd (hother 7 hs) (by decide)
  | noTrap hs => exact absurd (hother 7 hs) (by decide)
  | cputime hs => exact absurd (hother 8 hs) (by decide)
  | clock hs => exact absurd (hother 9 hs) (by decide)
  | io hs => exact absurd (hother 10 hs) (by decide)
  | getpid hs => exact absurd (hother 11 hs) (by decide)

theorem Serves.samePids (h : Serves v f c st o g) (hsys : st.a1 ≠ 1) : SamePids f g := by
  cases h with
  | create hs => exact absurd hs hsys
  | terminate hs => split <;> exact ⟨rfl, rfl⟩
  | operate hs h => exact .of_files h.files
  | clock hs h => exact .of_files h.files
  | io hs h =>
      obtain ⟨hi, hr, h⟩ := h
      exact SamePids.of_files (f := f) h.files
  | panic => exact ⟨rfl, rfl⟩
  | ioPanic => exact ⟨rfl, rfl⟩
  | specify => exact ⟨rfl, rfl⟩
  | respecify => exact ⟨rfl, rfl⟩
  | exitTrap => exact ⟨rfl, rfl⟩
  | noTrap => exact ⟨rfl, rfl⟩
  | cputime => exact ⟨rfl, rfl⟩
  | getpid => exact ⟨rfl, rfl⟩

omit [Platform] in
theorem SamePids.trans {m : Face} (h : SamePids f m) (hg : SamePids m g) : SamePids f g :=
  ⟨hg.1.trans h.1, hg.2.trans h.2⟩

omit [Platform] in
theorem SamePids.finish (h : SamePids f g) : SamePids f g.finish :=
  h.trans (.of_files (finish_files g))

theorem Traps.samePids (h : Traps f c x st ctl g) : SamePids f g := by
  cases h <;> exact ⟨rfl, rfl⟩

theorem Calls.samePids (h : Calls v f c st ctl g) (hcall : ¬ createCall st) : SamePids f g := by
  cases h with
  | panic => exact ⟨rfl, rfl⟩
  | served hserv huser h =>
      exact (h.samePids fun hsys => hcall ⟨hserv, Bool.eq_false_iff.mp huser, hsys⟩).finish
  | ended hserv huser h =>
      exact h.samePids fun hsys => hcall ⟨hserv, Bool.eq_false_iff.mp huser, hsys⟩
  | reflect hserv huser h => exact h.samePids
  | die => exact ⟨rfl, rfl⟩
  | pass => exact ⟨rfl, rfl⟩

theorem Calls.made (h : Calls v f c st ctl g) (hcall : createCall st) :
    SamePids f g ∧ v.free = [] ∨ Made v f g := by
  obtain ⟨hserv, huser, hsys⟩ := hcall
  cases h with
  | panic hs => exact absurd hserv (Bool.eq_false_iff.mp hs)
  | @served g _ _ h =>
      rcases h.made hsys with ⟨hsame, hf⟩ | ⟨p, l, pow, hf, hpow, hpid, hcounter⟩
      · exact Or.inl ⟨SamePids.finish hsame, hf⟩
      · right
        refine ⟨p, l, pow, hf, hpow, ?_, ?_⟩
        · exact (SamePids.of_files (finish_files g)).1.trans hpid
        · exact (SamePids.of_files (finish_files g)).2.trans hcounter
  | ended _ _ h => exact h.made hsys
  | reflect _ hu => exact absurd hu huser
  | die hs => exact absurd hserv (Bool.eq_false_iff.mp hs)
  | pass hs => exact absurd hserv (Bool.eq_false_iff.mp hs)

def Event.creates : Event → Prop
  | .syscall hw => createCall (hw.oldArea .sysbk)
  | _ => False

instance {e : Event} : Decidable e.creates :=
  match e with
  | .dispatch => isFalse id
  | .syscall _ => inferInstanceAs (Decidable (_ ∧ _))
  | .pgmtrap _ => isFalse id
  | .tlb _ => isFalse id
  | .interrupt _ => isFalse id

theorem Event.Ends.made {e : Event} (h : e.Ends v f ctl g) :
    SamePids f g ∧ (e.creates → v.free = []) ∨ e.creates ∧ Made v f g := by
  cases e with
  | dispatch => exact Or.inl ⟨.of_files (h.files (Or.inl rfl)), False.elim⟩
  | syscall hw =>
      obtain ⟨c, -, h⟩ := h
      by_cases hcall : createCall (hw.oldArea .sysbk)
      · rcases h.made hcall with ⟨hsame, hf⟩ | hmade
        · exact Or.inl ⟨hsame, fun _ => hf⟩
        · exact Or.inr ⟨hcall, hmade⟩
      · exact Or.inl ⟨h.samePids hcall, fun hc => absurd hc hcall⟩
  | pgmtrap hw =>
      obtain ⟨c, -, h⟩ := h
      exact Or.inl ⟨h.samePids, False.elim⟩
  | tlb hw =>
      obtain ⟨c, -, h⟩ := h
      exact Or.inl ⟨h.samePids, False.elim⟩
  | interrupt hw => exact Or.inl ⟨.of_files (h.files (Or.inr ⟨hw, rfl⟩)), False.elim⟩

end Effects

/-! ### Runs -/

/-- The processes alive have different `pid`s, none of which is 0 or what `create_process` returns
when it fails. -/
structure PidsDistinct (k : Kernel) : Prop where
  injective : ∀ p q, p ∉ freeList k → q ∉ freeList k → k.pid p = k.pid q → p = q
  ne_zero : ∀ p, p ∉ freeList k → k.pid p ≠ 0
  ne_fail : ∀ p, p ∉ freeList k → k.pid p ≠ -1

section Runs

variable [Platform] {k : Kernel} {v : View} {f : Face} {born : Pcb → ℕ} {s s' : Sys} {e : Event}
  {p : Pcb}

/-- When a process is made, the counter has at most nine digits, and the addresses do no harm to
it. -/
def CounterClear (s : Sys) (e : Event) : Prop :=
  e.creates → freeList s.kernel ≠ [] → s.kernel.counter.toNat < 10 ^ 9 ∧
    Clear Platform.tmpAddr Platform.tmpAddrMain s.kernel.counter.toNat

instance : Decidable (CounterClear s e) := inferInstanceAs (Decidable (_ → _))

structure Numbered (f : Face) (v : View) (born : Pcb → ℕ) : Prop where
  pid : ∀ p, v.place p ≠ .free → f.pid p = pidOf Platform.tmpAddr Platform.tmpAddrMain (born p)
  injective : ∀ p q, v.place p ≠ .free → v.place q ≠ .free → born p = born q → p = q
  lt : ∀ p, v.place p ≠ .free → born p < f.counter.toNat
  pos : 0 < f.counter.toNat
  le : f.counter.toNat ≤ 10 ^ 9
  clear : ∀ n, 0 < n → n < f.counter.toNat →
    Clear Platform.tmpAddr Platform.tmpAddrMain n

theorem Numbered.distinct (h : Numbered k.face v born) (hrep : Rep k.core v)
    (h₀ : Platform.tmpAddrMain * 10 ≠ 0) : PidsDistinct k := by
  have halive : ∀ p, p ∉ freeList k → v.place p ≠ .free := by
    intro p hp
    rw [hrep.freeList_eq, hrep.lists.mem_free] at hp
    exact hp
  have heven : Platform.tmpAddrMain * 10 ≠ (-1 : Word) := by
    intro hneg
    have hten : (10 : Word).toNat = 10 := rfl
    have hfail : (-1 : Word).toNat = 4294967295 := rfl
    have hnat := congrArg BitVec.toNat hneg
    rw [BitVec.toNat_mul, hten, hfail] at hnat
    omega
  constructor
  · intro p q hp hq hpq
    have hp := halive p hp
    have hq := halive q hq
    apply h.injective p q hp hq
    apply pidOf_injective h.clear h.le (h.lt p hp) (h.lt q hq)
    rw [← h.pid p hp, ← h.pid q hq]
    exact hpq
  · intro p hp
    have hp := halive p hp
    have hlt := h.lt p hp
    have hle := h.le
    rw [show k.pid p = _ from h.pid p hp]
    by_cases hb : born p = 0
    · rw [hb]
      exact h₀
    · exact pidOf_ne_zero (h.clear _ (Nat.pos_of_ne_zero hb) hlt) hb (by omega)
  · intro p hp
    have hp := halive p hp
    have hlt := h.lt p hp
    have hle := h.le
    rw [show k.pid p = _ from h.pid p hp]
    by_cases hb : born p = 0
    · rw [hb]
      exact heven
    · exact pidOf_ne_fail (h.clear _ (Nat.pos_of_ne_zero hb) hlt) hb (by omega)

/-- Processes die, or nothing happens to them. -/
theorem Numbered.mono {v' : View} {g : Face} (h : Numbered f v born) (hsame : SamePids f g)
    (halive : ∀ p, v'.place p ≠ .free → v.place p ≠ .free) : Numbered g v' born := by
  obtain ⟨hpid, hcounter⟩ := hsame
  constructor
  · intro p hp
    rw [hpid]
    exact h.pid p (halive p hp)
  · exact fun p q hp hq => h.injective p q (halive p hp) (halive q hq)
  · intro p hp
    rw [hcounter]
    exact h.lt p (halive p hp)
  · rw [hcounter]
    exact h.pos
  · rw [hcounter]
    exact h.le
  · rw [hcounter]
    exact h.clear

/-- A process is made with the next number. -/
theorem Numbered.made {v' : View} {g : Face} {l : List Pcb} (h : Numbered f v born)
    (hv : Orderly v) (hfree : v.free = p :: l) (hlt : f.counter.toNat < 10 ^ 9)
    (hclear : Clear Platform.tmpAddr Platform.tmpAddrMain f.counter.toNat)
    (hpid : g.pid = Function.update f.pid p
      (Platform.tmpAddr * tenPow (decade f.counter.toNat) + f.counter))
    (hcounter : g.counter = f.counter + 1)
    (halive : ∀ q, v'.place q ≠ .free → v.place q ≠ .free ∨ q = p) :
    Numbered g v' (Function.update born p f.counter.toNat) := by
  have hnext : g.counter.toNat = f.counter.toNat + 1 := by
    have hone : (1 : Word).toNat = 1 := rfl
    rw [hcounter, BitVec.toNat_add, hone]
    omega
  have hpos := h.pos
  have hp : v.place p = .free := (hv.mem_free p).mp (by simp [hfree])
  have hold : ∀ q, v'.place q ≠ .free → q ≠ p → v.place q ≠ .free := fun q hq hne =>
    (halive q hq).resolve_right hne
  constructor
  · intro q hq
    rw [hpid]
    by_cases hqp : q = p
    · subst hqp
      rw [Function.update_self, Function.update_self, pidOf_pos (by omega), BitVec.ofNat_toNat,
        BitVec.setWidth_eq]
    · rw [Function.update_of_ne hqp, Function.update_of_ne hqp]
      exact h.pid q (hold q hq hqp)
  · intro q r hq hr hqr
    by_cases hqp : q = p
    · by_cases hrp : r = p
      · rw [hqp, hrp]
      · rw [hqp, Function.update_self, Function.update_of_ne hrp] at hqr
        have hborn := h.lt r (hold r hr hrp)
        omega
    · by_cases hrp : r = p
      · rw [hrp, Function.update_self, Function.update_of_ne hqp] at hqr
        have hborn := h.lt q (hold q hq hqp)
        omega
      · rw [Function.update_of_ne hqp, Function.update_of_ne hrp] at hqr
        exact h.injective q r (hold q hq hqp) (hold r hr hrp) hqr
  · intro q hq
    rw [hnext]
    by_cases hqp : q = p
    · rw [hqp, Function.update_self]
      exact Nat.lt_succ_self _
    · rw [Function.update_of_ne hqp]
      exact (h.lt q (hold q hq hqp)).trans (Nat.lt_succ_self _)
  · omega
  · omega
  · intro n hn hlt'
    rw [hnext] at hlt'
    rcases Nat.lt_or_eq_of_le (Nat.le_of_lt_succ hlt') with hn' | rfl
    · exact h.clear n hn hn'
    · exact hclear

/-- Only `CREATEPROCESS` asks for a new process. -/
theorem Event.act_create (h : e.act k = some .create) : e.creates := by
  rcases Event.act_asked h with ⟨t, ht⟩ | ⟨hw, c, rfl, -, hact⟩
  · cases ht
  · unfold syscallAct at hact
    split at hact
    · next hserv =>
      split at hact
      · cases trapAct_eq hact
      · next huser =>
        refine ⟨hserv, huser, ?_⟩
        cases serviceAct_asked hserv huser hact with
        | create hsys => exact hsys
    · cases trapAct_eq hact

theorem Numbered.step (hc : SparesReady s e ∧ CounterClear s e) (hstep : s.step e = some s')
    (h : ∃ v born, Rep s.kernel.core v ∧ Numbered s.kernel.face v born) :
    ∃ v born, Rep s'.kernel.core v ∧ Numbered s'.kernel.face v born := by
  obtain ⟨v, born, hrep, hn⟩ := h
  obtain ⟨v', hrep', halive⟩ := Sys.step_alive hrep hc.1 hstep
  rcases (Sys.step_ends hrep hstep).made with ⟨hsame, hfull⟩ | ⟨hcreates, p, l, pow, hf, hpow,
    hpid, hcounter⟩
  · refine ⟨v', born, hrep', hn.mono hsame fun p hp => ?_⟩
    rcases halive p hp with hp | ⟨hact, l, hl⟩
    · exact hp
    · rw [hfull (Event.act_create hact)] at hl
      cases hl
  · have hne : freeList s.kernel ≠ [] := by
      rw [hrep.freeList_eq, hf]
      exact List.cons_ne_nil p l
    obtain ⟨hlt, hclear⟩ := hc.2 hcreates hne
    have hten := pidPow_counter hlt
    rw [show s.kernel.counter = s.kernel.face.counter from rfl, hpow] at hten
    obtain rfl := Option.some.inj hten
    refine ⟨v', _, hrep', hn.made hrep.orderly hf hlt hclear hpid hcounter fun q hq => ?_⟩
    rcases halive q hq with hq | ⟨-, l', hl'⟩
    · exact Or.inl hq
    · rw [hf] at hl'
      exact Or.inr (List.cons.inj hl').1.symm

theorem numbered_boot {value : ℕ → ℤ} {request : Pcb → ℤ} {pow : Word} (hzero : f.counter = 0)
    (hpow : pidPow f.counter 33 10 = some pow) :
    Numbered (f.boot pow) (View.boot value request) fun _ => 0 := by
  have hten := pidPow_counter (y := f.counter) (by rw [hzero]; decide)
  rw [hpow, hzero] at hten
  obtain rfl := Option.some.inj hten
  have hfirst : ∀ p, (View.boot value request).place p ≠ .free → p = 0 := by
    intro p hp
    rw [boot_place] at hp
    by_contra hne
    exact hp (if_neg hne)
  have hone : (f.boot (tenPow (decade (0 : Word).toNat))).counter.toNat = 1 := by
    change (f.counter + 1).toNat = 1
    rw [hzero]
    rfl
  constructor
  · intro p hp
    have hpid : ∀ u, Function.update f.pid 0 u 0 = u := fun u => Function.update_self 0 u f.pid
    rw [hfirst p hp]
    refine (hpid (Platform.tmpAddrMain * tenPow (decade (0 : Word).toNat) + f.counter)).trans ?_
    rw [hzero, add_zero]
    rfl
  · intro p q hp hq _
    rw [hfirst p hp, hfirst q hq]
  · intro p _
    omega
  · omega
  · omega
  · intro n hn hlt
    omega

/-- In a run that kills no process with a ready descendant and makes processes only while the
counter is clear, the `pid`s of the processes alive are distinct, and neither 0 nor `-1`. -/
theorem pids_distinct (h₀ : Platform.tmpAddrMain * 10 ≠ 0)
    (h : Reach (nucleus fun k => k.counter = 0) (fun s e => SparesReady s e ∧ CounterClear s e) s) :
    PidsDistinct s.kernel := by
  have hinit : ∀ s, (nucleus fun k => k.counter = 0).init s →
      ∃ v born, Rep s.kernel.core v ∧ Numbered s.kernel.face v born := by
    rintro s ⟨k, hzero, hk, hboot⟩
    obtain ⟨pow, hpow, hface⟩ := main_face hk hboot
    exact ⟨_, _, (main_run hk hboot).2.1, hface ▸ numbered_boot hzero hpow⟩
  obtain ⟨v, born, hrep, hn⟩ := h.invariant hinit fun _ _ _ hI hC hs => Numbered.step hC hs hI
  exact hn.distinct hrep h₀

end Runs

section Board

@[reducible] def unluckyBoard : Platform := { uarm with tmpAddr := 0x6c16c16c }

section Unlucky

attribute [local instance] unluckyBoard

/-- The processes made with the counters 2 and 10 are alive at the same time and have the same
`pid`. -/
theorem pids_collide :
    Platform.tmpAddr ≠ 0 ∧ Platform.tmpAddr % 4 = 0 ∧ Platform.tmpAddrMain ≠ 0 ∧
      Platform.tmpAddrMain % 4 = 0 ∧
      ¬ ∀ s, Reach (nucleus fun k => k.counter = 0) (fun _ _ => True) s →
      PidsDistinct s.kernel := by
  refine ⟨by decide, by decide, by decide, by decide, fun hall => ?_⟩
  obtain ⟨s, hs, hQ⟩ := nucleus_run (B := fun k => k.counter = 0) (C := fun _ _ => True)
    (k := Kernel.zero) rfl atBoot_zero
    (.dispatch :: (List.replicate 10 [call 1, .dispatch]).flatten)
    (fun s => (2 : Pcb) ∉ freeList s.kernel ∧ (10 : Pcb) ∉ freeList s.kernel ∧
      s.kernel.pid 2 = s.kernel.pid 10)
    (by decide +kernel)
  obtain ⟨h₂, h₁₀, hpid⟩ := of_decide_eq_true hQ
  have hsame := (hall s hs).injective 2 10 h₂ h₁₀ hpid
  cases hsame

end Unlucky

attribute [local instance] uarm

/-- Ten processes are made one after the other. -/
theorem pids_distinct_ten : ∃ s : Sys, s.kernel.processCount = 11 ∧ PidsDistinct s.kernel := by
  obtain ⟨s, hs, hQ⟩ := nucleus_run (B := fun k => k.counter = 0)
    (C := fun s e => SparesReady s e ∧ CounterClear s e) (k := Kernel.zero) rfl atBoot_zero
    (.dispatch :: (List.replicate 10 [call 1, .dispatch]).flatten)
    (fun s => s.kernel.processCount = 11) (by decide +kernel)
  exact ⟨s, of_decide_eq_true hQ, pids_distinct (by decide) hs⟩

end Board

end JaeOS
