import ModernArch.X86.CDivision

/-!
# Division by a loaded operand

`IDIV_M` loads the divisor over the upper half of the negated dividend, and the upper half of a
dividend that is not negative over the divisor. The loop and the last sign then read the wrong one.
-/

namespace ModernArch.X86

def IDIV_M (env : EmulEnv) (mem : BitVec 64) : List RegOp := idivcode env [.ld (t 2) mem] (t 2)

/-- The divisor. -/
def loaded (env : EmulEnv) (mem : BitVec 64) : Nat := mem.toNat % 2 ^ (env.dataSize * 8)

def signedLoaded (env : EmulEnv) (mem : BitVec 64) : Int :=
  (loaded env mem : Int).bmod (2 ^ (env.dataSize * 8))

/-- What the loop divides by the absolute value of the divisor. -/
def mixedDividend (env : EmulEnv) (mem : BitVec 64) (dividend : Int) : Nat :=
  if dividend < 0 then
    loaded env mem * 2 ^ (env.dataSize * 8) + dividend.natAbs % 2 ^ (env.dataSize * 8)
  else dividend.natAbs

def mixedQuotient (env : EmulEnv) (mem : BitVec 64) (dividend : Int) : Int :=
  if dividend < 0 ∧ 0 < signedLoaded env mem then
    -((mixedDividend env mem dividend / (signedLoaded env mem).natAbs : Nat) : Int)
  else (mixedDividend env mem dividend / (signedLoaded env mem).natAbs : Nat)

def mixedRemainder (env : EmulEnv) (mem : BitVec 64) (dividend : Int) : Int :=
  if dividend < 0 then
    -((mixedDividend env mem dividend % (signedLoaded env mem).natAbs : Nat) : Int)
  else (mixedDividend env mem dividend % (signedLoaded env mem).natAbs : Nat)

section Memory

variable {env : EmulEnv} (h : env.Sized) {c : Context} {mem : BitVec 64}

include h

omit h in
private theorem loaded_lt (env : EmulEnv) (mem : BitVec 64) :
    loaded env mem < 2 ^ (env.dataSize * 8) :=
  Nat.mod_lt _ (Nat.two_pow_pos _)

private theorem signedLoaded_eq (mem : BitVec 64) :
    signedLoaded env mem = if 2 ^ (env.dataSize * 8 - 1) ≤ loaded env mem then
      -((2 ^ (env.dataSize * 8) - loaded env mem : Nat) : Int) else loaded env mem :=
  bmod_width h (loaded_lt env mem)

private theorem step_ld {ops : List RegOp} {upc dest : Nat} (hdest : dest < 64)
    (hop : ops[upc]? = some (.ld dest mem)) (c : Context) :
    step env ops upc c = some (.ok (upc + 1, (c.setInt ZeroReg 0).setInt dest
      (written env.dataSize ((c.setInt ZeroReg 0).intReg dest) mem))) := by
  rw [step, hop]
  simp only [Option.bind_eq_bind, Option.bind_some, RegOp.exec, setDest_eq h _ hdest]
  rfl

omit h in
private theorem operand_lo (env : EmulEnv) (c : Context) (hi lo : Nat) :
    operand env c lo = dividend env c hi lo % 2 ^ (env.dataSize * 8) := by
  rw [dividend, Nat.mul_add_mod_self_right, Nat.mod_eq_of_lt (operand_lt env c lo)]

variable (mem) in
/-- Before the loop. The divisor's temporary has kept it only where the dividend is negative. -/
theorem load_reaches (htidy : c.Tidy) :
    ∃ c', Reaches env (IDIV_M env mem) (0, c) (11, c') ∧ Scratch c c' ∧
      operand env c' (t 3) = (signedLoaded env mem).natAbs ∧
      dividend env c' (t 2) (t 1) =
        mixedDividend env mem (signedDividend env c INTREG_RDX INTREG_RAX) ∧
      operand env c' (t 2) = (if 2 ^ (env.dataSize * 8 - 1) ≤ operand env c INTREG_RDX then
        loaded env mem else operand env c INTREG_RDX) ∧
      (c'.ccReg .ecf).getLsbD 3 =
        decide (2 ^ (env.dataSize * 8 - 1) ≤ operand env c INTREG_RDX) := by
  obtain ⟨hp₀, hp₅, -⟩ := idivcode_pieces env [.ld (t 2) mem] (t 2)
  obtain ⟨c₁, hrun₁, hc₁, hneg⟩ := negate_reaches h htidy hp₀
  have hs₂ := step_ld h (by decide)
    (show (IDIV_M env mem)[4]? = some (.ld (t 2) mem) from rfl) c₁
  have h₂ := Effect.of_setInt (by decide : t 2 < 64) hc₁.tidy
    (written env.dataSize ((c₁.setInt ZeroReg 0).intReg (t 2)) mem)
  generalize (c₁.setInt ZeroReg 0).setInt (t 2) _ = c₂ at hs₂ h₂
  have hc₂ : Scratch c₁ c₂ := h₂.scratch
  obtain ⟨c₃, hrun₃, hc₃, hdv, hlo, hhi, hsign⟩ :=
    absolute_reaches h hc₂.tidy (by decide) (by decide) (by decide) hp₅
  have hload : operand env c₂ (t 2) = loaded env mem := by
    rw [operand, h₂.out (by decide), toNat_written h]
    rfl
  have hkept {r : Nat} (hr : r < numIntRegs) : operand env c₂ r = operand env c r :=
    (hc₁.trans hc₂).operand hr
  have hlow : operand env c₂ (t 1) = operand env c₁ (t 1) := h₂.other (by decide) (by decide)
  rw [hload] at hdv hhi
  rw [hkept (by decide)] at hhi hsign
  rw [hlow, hkept (by decide), hkept (by decide), operand_lo env c₁ (t 2), hneg] at hlo
  have hpow := h.half
  have hhalf := Nat.two_pow_pos (env.dataSize * 8 - 1)
  have hmlt := loaded_lt env mem
  have hsquare := dividend_lt env c INTREG_RDX INTREG_RAX
  refine ⟨c₃, (hrun₁.tail hs₂).trans hrun₃, (hc₁.trans hc₂).trans hc₃, ?_, ?_, ?_, ?_⟩
  · rw [hdv, signedLoaded_eq h]
    split_ifs with hle
    · rw [Nat.mod_eq_of_lt (by omega), Int.natAbs_neg, Int.natAbs_natCast]
    · rw [Int.natAbs_natCast]
  · rw [signedDividend_eq h, dividend, hlo, hhi, mixedDividend]
    by_cases hle : 2 ^ (env.dataSize * 8 - 1) ≤ operand env c INTREG_RDX
    · have hpos : 0 < dividend env c INTREG_RDX INTREG_RAX :=
        dividend_pos (hhalf.trans_le hle)
      rw [if_pos hle, if_pos hle, if_pos hle, if_pos (by omega), Int.natAbs_neg,
        Int.natAbs_natCast, Nat.mod_eq_of_lt (a := _ - _) (by omega)]
    · rw [if_neg hle, if_neg hle, if_neg hle, if_neg (by omega), Int.natAbs_natCast]
      rfl
  · exact hhi
  · exact hsign

private theorem idivM_reaches (htidy : c.Tidy) (hne : loaded env mem ≠ 0) :
    ∃ c', Reaches env (IDIV_M env mem) (0, c) (30, c') ∧ DivisionResult env c c'
      (mixedQuotient env mem (signedDividend env c INTREG_RDX INTREG_RAX))
      (mixedRemainder env mem (signedDividend env c INTREG_RDX INTREG_RAX)) := by
  obtain ⟨-, -, hp₁₁, hp₁₉⟩ := idivcode_pieces env [.ld (t 2) mem] (t 2)
  obtain ⟨c₁, hrun₁, hc₁, hdv, hdividend, hop1, hsign⟩ := load_reaches h mem htidy
  have hmlt := loaded_lt env mem
  have hd := signedLoaded_eq h mem
  have hdv₀ : (signedLoaded env mem).natAbs ≠ 0 := by
    rw [hd]
    split_ifs <;> omega
  have hN := signedDividend_neg_iff (c := c) h INTREG_RDX INTREG_RAX
  have hsquare := dividend_lt env c INTREG_RDX INTREG_RAX
  obtain ⟨c₂, hrun₂, hc₂⟩ := (divLoop_reaches h idiv_loopRegs (by decide) (by decide) (by decide)
    (by decide) hp₁₁ hc₁.tidy).2 (by rw [hdv]; exact hdv₀)
  rw [hdividend, hdv] at hc₂
  change Reaches env (IDIV_M env mem) (11, c₁) (19, c₂) at hrun₂
  obtain ⟨c₃, x, y, hrun₃, hx, hy, hxval, hyval, hregs₃, hflags₃, htidy₃⟩ :=
    signs_reaches h hc₂.tidy (by decide) (by decide) (by decide) (by decide) (by decide) hp₁₉
  have hkept {r : Nat} (hr : r < numIntRegs) : c₂.intReg r = c.intReg r := by
    rw [hc₂.kept hr (by decide), hc₁.regs r hr]
  have hsign₂ : (c₂.ccReg .ecf).getLsbD 3 =
      decide (2 ^ (env.dataSize * 8 - 1) ≤ operand env c INTREG_RDX) := by
    rw [hc₂.flags .ecf (by decide), hsign]
  have hop1₂ : operand env c₂ (t 2) = operand env c₁ (t 2) := by
    rw [operand, hc₂.regs (t 2) (by decide) (by decide) (by decide) (by decide) (by decide)]
    rfl
  rw [operand, hc₂.remainder, hsign₂] at hxval
  rw [operand.eq_def env c₂ Quotient, hc₂.quotient, hsign₂, if_neg (by decide), hop1₂, hop1,
    Nat.mod_mod_of_dvd _ (Nat.pow_dvd_pow 2 h.width.2)] at hyval
  refine ⟨c₃, (hrun₁.trans hrun₂).trans hrun₃, ?_, ?_, ?_, ?_, htidy₃⟩
  · rw [hy, hkept (by decide)]
    apply written_ofInt h
    rw [hyval, signedBy_signedBy, mixedQuotient]
    congr 1
    by_cases hle : 2 ^ (env.dataSize * 8 - 1) ≤ operand env c INTREG_RDX
    · by_cases hdle : 2 ^ (env.dataSize * 8 - 1) ≤ loaded env mem
      · have hless : ¬ 0 < signedLoaded env mem := by
          rw [hd, if_pos hdle]
          omega
        simp [hle, hdle, hless]
      · have hless : 0 < signedLoaded env mem := by
          rw [hd, if_neg hdle]
          omega
        simp [hle, hdle, hless, hN]
    · simp [hle, hN]
  · rw [hx, hkept (by decide)]
    apply written_ofInt h
    rw [hxval, signedBy_mod, mixedRemainder]
    simp only [hN, decide_eq_true_eq]
  · intro r hr hrax hrdx
    rw [hregs₃ r hr hrax hrdx, hkept hr]
  · intro f hf hf'
    rw [hflags₃ f hf hf', hc₂.flags f hf', hc₁.flags f hf hf']

/-- `IDIV` by a loaded divisor, whatever the operands. The sign of the divisor counts only where
the dividend is negative, and there the divisor counts as the upper half of the dividend. -/
theorem idiv_memory (htidy : c.Tidy) :
    (loaded env mem = 0 →
      ∃ n, ∀ m ≥ n, execute env (IDIV_M env mem) m 0 c = some (.error .DivideError)) ∧
    (loaded env mem ≠ 0 → ∃ c',
      (∃ n, ∀ m ≥ n, execute env (IDIV_M env mem) m 0 c = some (.ok c')) ∧
        DivisionResult env c c'
          (mixedQuotient env mem (signedDividend env c INTREG_RDX INTREG_RAX))
          (mixedRemainder env mem (signedDividend env c INTREG_RDX INTREG_RAX))) := by
  constructor
  · intro hzero
    obtain ⟨-, -, hp₁₁, -⟩ := idivcode_pieces env [.ld (t 2) mem] (t 2)
    obtain ⟨c₁, hrun₁, hc₁, hdv, -⟩ := load_reaches h mem htidy
    have hhalf := Nat.two_pow_pos (env.dataSize * 8 - 1)
    rw [signedLoaded_eq h, hzero, if_neg (by omega)] at hdv
    have hfault := (divLoop_reaches h idiv_loopRegs (by decide) (by decide) (by decide) (by decide)
      hp₁₁ hc₁.tidy).1 hdv
    exact execute_of_fault (s := (0, c)) hrun₁ hfault
  · intro hne
    obtain ⟨c', hrun, hresult⟩ := idivM_reaches h htidy hne
    exact ⟨c', execute_of_reaches hrun, hresult⟩

end Memory

/-- Minus seven by minus three leaves minus two. -/
theorem idiv_memory_seven :
    let env : EmulEnv := { reg := 1, regm := 0, dataSize := 8 }
    let c : Context := ⟨fun r => if r = 2 then -1 else -7, fun _ => 0⟩
    signedDividend env c INTREG_RDX INTREG_RAX = -7 ∧ signedLoaded env (-3) = -3 ∧
      ∃ n c', execute env (IDIV_M env (-3)) n 0 c = some (.ok c') ∧
        signedOperand env c' INTREG_RDX = -2 := by
  intro env c
  have htidy : c.Tidy := fun f => by cases f <;> decide
  have hsized : env.Sized := Or.inr (Or.inr rfl)
  have hne : loaded env (-3) ≠ 0 := by decide
  obtain ⟨c', ⟨n, hn⟩, hresult⟩ := (idiv_memory hsized htidy).2 hne
  refine ⟨by decide, by decide, n, c', hn n le_rfl, ?_⟩
  rw [signedOperand, operand, hresult.rdx]
  decide

section Conversion

variable {env : EmulEnv} (h : env.Sized) {c : Context} {mem : BitVec 64}

include h

omit h in
/-- With a positive divisor the quotient has at most left the operand. -/
theorem mixed_of_pos (hm : signedLoaded env mem = loaded env mem) (hpos : 0 < loaded env mem)
    {a : Int} (ha : a.natAbs < 2 ^ (env.dataSize * 8)) :
    mixedQuotient env mem a = a.tdiv (signedLoaded env mem) -
        (if a < 0 then ((2 ^ (env.dataSize * 8) : Nat) : Int) else 0) ∧
      mixedRemainder env mem a = a.tmod (signedLoaded env mem) := by
  rw [mixedQuotient, mixedRemainder, mixedDividend, hm, Int.natAbs_natCast]
  have hquot := tdiv_signs (decide (a < 0)) false a.natAbs (loaded env mem)
  have hrem := tmod_signs (decide (a < 0)) false a.natAbs (loaded env mem)
  by_cases hneg : a < 0
  · have habs : -(a.natAbs : Int) = a := by omega
    simp only [hneg, decide_true, if_true, habs, Bool.false_eq_true, if_false] at hquot hrem
    rw [if_pos ⟨hneg, by omega⟩, if_pos hneg, if_pos hneg, if_pos hneg, hquot, hrem,
      Nat.mod_eq_of_lt ha, Nat.mul_add_div hpos, Nat.mul_add_mod]
    exact ⟨by omega, rfl⟩
  · have habs : (a.natAbs : Int) = a := by omega
    simp only [hneg, decide_false, habs, Bool.false_eq_true, if_false] at hquot hrem
    rw [if_neg (fun hboth => hneg hboth.1), if_neg hneg, if_neg hneg, if_neg hneg, hquot, hrem]
    exact ⟨by omega, rfl⟩

omit h in
/-- The sign of a negative divisor is lost. -/
theorem mixed_of_neg (hm : signedLoaded env mem < 0) {a : Int} (ha : 0 ≤ a) :
    mixedQuotient env mem a = a.tdiv (-signedLoaded env mem) ∧
      mixedRemainder env mem a = a.tmod (signedLoaded env mem) := by
  have habs : (a.natAbs : Int) = a := by omega
  have hdabs : -((signedLoaded env mem).natAbs : Int) = signedLoaded env mem := by omega
  have hquot := tdiv_signs false false a.natAbs (signedLoaded env mem).natAbs
  have hrem := tmod_signs false true a.natAbs (signedLoaded env mem).natAbs
  simp only [habs, hdabs, Bool.false_eq_true, if_true, if_false] at hquot hrem
  have hneg : -signedLoaded env mem = ((signedLoaded env mem).natAbs : Int) := by omega
  rw [mixedQuotient, mixedRemainder, mixedDividend, if_neg (by omega), if_neg (by omega),
    if_neg (by omega), hrem, hneg, hquot]
  exact ⟨rfl, rfl⟩

/-- The division of a compiler with a divisor in memory is right for positive divisors; with a
negative one and a dividend that is not, the quotient's sign is wrong. -/
theorem cqo_idiv_memory (htidy : c.Tidy) (hne : loaded env mem ≠ 0) :
    ∃ c₁ c', run (cqoEnv env) (CQO_R_R (cqoEnv env)) c = some c₁ ∧
      (∃ n, ∀ m ≥ n, execute env (IDIV_M env mem) m 0 c₁ = some (.ok c')) ∧
      (0 < signedLoaded env mem → signedOperand env c' INTREG_RAX =
        (signedOperand env c INTREG_RAX).tdiv (signedLoaded env mem)) ∧
      (signedLoaded env mem < 0 → 0 ≤ signedOperand env c INTREG_RAX →
        signedOperand env c' INTREG_RAX =
          -(signedOperand env c INTREG_RAX).tdiv (signedLoaded env mem)) ∧
      (0 < signedLoaded env mem ∨ 0 ≤ signedOperand env c INTREG_RAX →
        signedOperand env c' INTREG_RDX =
          (signedOperand env c INTREG_RAX).tmod (signedLoaded env mem)) := by
  have hcqo : (cqoEnv env).Sized := h
  obtain ⟨-, c₁, hrun, hext⟩ := cqo_eq hcqo c
  have htidy₁ : c₁.Tidy := by
    intro f
    rw [hext.flags]
    exact htidy f
  obtain ⟨c', hexec, hresult⟩ := (idiv_memory h htidy₁).2 hne
  rw [signedDividend_signExtended h hext] at hresult
  have hpow := h.half
  have hhalf := Nat.two_pow_pos (env.dataSize * 8 - 1)
  obtain ⟨hale, halt⟩ := signedOperand_bounds (c := c) h INTREG_RAX
  have hd := signedLoaded_eq h mem
  have hmlt := loaded_lt env mem
  have hd₀ : signedLoaded env mem ≠ 0 := by
    rw [hd]
    split_ifs <;> omega
  have hdabs : (signedLoaded env mem).natAbs ≤ 2 ^ (env.dataSize * 8 - 1) := by
    rw [hd]
    split_ifs <;> omega
  have hpositive (hpos : 0 < signedLoaded env mem) :
      mixedQuotient env mem (signedOperand env c INTREG_RAX) =
          (signedOperand env c INTREG_RAX).tdiv (signedLoaded env mem) -
            (if signedOperand env c INTREG_RAX < 0 then ((2 ^ (env.dataSize * 8) : Nat) : Int)
            else 0) ∧
        mixedRemainder env mem (signedOperand env c INTREG_RAX) =
          (signedOperand env c INTREG_RAX).tmod (signedLoaded env mem) := by
    apply mixed_of_pos _ (Nat.pos_of_ne_zero hne) (by omega)
    rw [hd] at hpos ⊢
    split_ifs at * <;> omega
  refine ⟨c₁, c', hrun, hexec, fun hpos => ?_, fun hneg ha => ?_, fun hcase => ?_⟩
  · have hfits := (tdiv_bmod hhalf hale halt hd₀).mpr (by omega)
    rw [← hpow] at hfits
    rw [signedOperand_written h hresult.rax, (hpositive hpos).1]
    split_ifs
    · rw [Int.sub_bmod_right, hfits]
    · rw [Int.sub_zero, hfits]
  · have hfits := (tdiv_bmod hhalf hale halt (neg_ne_zero.mpr hd₀)).mpr (by omega)
    rw [← hpow] at hfits
    rw [signedOperand_written h hresult.rax, (mixed_of_neg hneg ha).1, hfits, Int.tdiv_neg]
  · have hrem : mixedRemainder env mem (signedOperand env c INTREG_RAX) =
        (signedOperand env c INTREG_RAX).tmod (signedLoaded env mem) := by
      by_cases hpos : 0 < signedLoaded env mem
      · exact (hpositive hpos).2
      · exact (mixed_of_neg (by omega) (hcase.resolve_left hpos)).2
    rw [signedOperand_written h hresult.rdx, hpow, hrem]
    exact tmod_bmod hd₀ hdabs

end Conversion

/-- Seven by minus two. -/
theorem cqo_idiv_memory_seven :
    let env : EmulEnv := { reg := 1, regm := 0, dataSize := 4 }
    let c : Context := ⟨fun _ => 7, fun _ => 0⟩
    ∃ c₁ c' n, run (cqoEnv env) (CQO_R_R (cqoEnv env)) c = some c₁ ∧
      execute env (IDIV_M env (-2)) n 0 c₁ = some (.ok c') ∧
      signedOperand env c' INTREG_RAX = 3 ∧ signedOperand env c' INTREG_RDX = 1 := by
  intro env c
  have htidy : c.Tidy := fun f => by cases f <;> decide
  have hsized : env.Sized := Or.inr (Or.inl rfl)
  have hne : loaded env (-2) ≠ 0 := by decide
  obtain ⟨c₁, c', hrun, ⟨n, hn⟩, -, hquot, hrem⟩ := cqo_idiv_memory hsized htidy hne
  refine ⟨c₁, c', n, hrun, hn n le_rfl, ?_, ?_⟩
  · rw [hquot (by decide) (by decide)]
    decide
  · rw [hrem (Or.inr (by decide))]
    decide

end ModernArch.X86
