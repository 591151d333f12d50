import ModernArch.X86.SignedDivision

/-!
# Division after a sign extension

A compiler divides signed integers by extending `rax` into `rdx` and dividing the pair. With the
rewritten sign extension this is division rounded towards nought.
-/

namespace ModernArch.X86

section Conversion

variable {env : EmulEnv} (h : env.Sized) {c : Context}

include h

/-- The environment of the `CQO` in front of a division. -/
def cqoEnv (env : EmulEnv) : EmulEnv := { env with reg := 0, regm := 2 }

private theorem operand_signExtended {c' : Context} (hext : SignExtended (cqoEnv env) c c') :
    operand env c' INTREG_RDX =
      if 2 ^ (env.dataSize * 8 - 1) ≤ operand env c INTREG_RAX then 2 ^ (env.dataSize * 8) - 1
      else 0 := by
  have hwidth := h.width
  have htop : (c.intReg INTREG_RAX).getLsbD (env.dataSize * 8 - 1) =
      decide (2 ^ (env.dataSize * 8 - 1) ≤ operand env c INTREG_RAX) :=
    getLsbD_top (by omega) (c.intReg INTREG_RAX)
  apply Nat.eq_of_testBit_eq
  intro i
  rw [operand, Nat.testBit_mod_two_pow]
  by_cases hi : i < env.dataSize * 8
  · have hbit : (c'.intReg INTREG_RDX).toNat.testBit i =
        (c.intReg INTREG_RAX).getLsbD (env.dataSize * 8 - 1) := hext.sign i hi
    rw [hbit, htop]
    by_cases hneg : 2 ^ (env.dataSize * 8 - 1) ≤ operand env c INTREG_RAX
    · rw [if_pos hneg, Nat.testBit_two_pow_sub_one, decide_eq_true hneg, Bool.and_true]
    · rw [if_neg hneg, Nat.zero_testBit, decide_eq_false hneg, Bool.and_false]
  · have hout : (if 2 ^ (env.dataSize * 8 - 1) ≤ operand env c INTREG_RAX then
        2 ^ (env.dataSize * 8) - 1 else 0).testBit i = false := by
      split_ifs
      · rw [Nat.testBit_two_pow_sub_one, decide_eq_false hi]
      · exact Nat.zero_testBit i
    rw [hout, decide_eq_false hi, Bool.false_and]

theorem signedDividend_signExtended {c' : Context} (hext : SignExtended (cqoEnv env) c c') :
    signedDividend env c' INTREG_RDX INTREG_RAX = signedOperand env c INTREG_RAX := by
  have hlo : operand env c' INTREG_RAX = operand env c INTREG_RAX := by
    rw [operand, hext.others INTREG_RAX (show INTREG_RAX ≠ 2 by decide)]
    rfl
  have hlt := operand_lt env c INTREG_RAX
  have hpow := h.half
  have hhalf := Nat.two_pow_pos (env.dataSize * 8 - 1)
  rw [signedDividend_eq h, signedOperand_eq h, dividend, operand_signExtended h hext, hlo]
  generalize operand env c INTREG_RAX = x at *
  by_cases hneg : 2 ^ (env.dataSize * 8 - 1) ≤ x
  · have hsub : 2 ^ (env.dataSize * 8) * 2 ^ (env.dataSize * 8) -
        ((2 ^ (env.dataSize * 8) - 1) * 2 ^ (env.dataSize * 8) + x) =
        2 ^ (env.dataSize * 8) - x := by
      rw [Nat.sub_mul, Nat.one_mul]
      have hle : 2 ^ (env.dataSize * 8) ≤ 2 ^ (env.dataSize * 8) * 2 ^ (env.dataSize * 8) :=
        Nat.le_mul_of_pos_left _ (Nat.two_pow_pos _)
      omega
    rw [if_pos hneg, if_pos (by omega), if_pos hneg, hsub]
  · rw [if_neg hneg, if_neg (by omega), if_neg hneg, Nat.zero_mul, Nat.zero_add]

theorem signedOperand_written {c' : Context} {r : Nat} {into : BitVec 64} {z : Int}
    (hr : c'.intReg r = written env.dataSize into (BitVec.ofInt 64 z)) :
    signedOperand env c' r = z.bmod (2 ^ (env.dataSize * 8)) := by
  have hmod := Int.emod_bmod z (2 ^ (env.dataSize * 8))
  push_cast at hmod
  rw [signedOperand, operand, hr, toNat_written h, toNat_ofInt_mod h.width.2, hmod]

theorem signedOperand_bounds (r : Nat) :
    -((2 ^ (env.dataSize * 8 - 1) : Nat) : Int) ≤ signedOperand env c r ∧
      signedOperand env c r < (2 ^ (env.dataSize * 8 - 1) : Nat) := by
  have hlt := operand_lt env c r
  have hpow := h.half
  rw [signedOperand_eq h]
  split_ifs <;> omega

omit h in
/-- Only the quotient of the least number by minus one does not fit. -/
theorem tdiv_bmod {m : Nat} (hm : 0 < m) {a b : Int} (hle : -(m : Int) ≤ a) (hlt : a < m)
    (hb : b ≠ 0) : (a.tdiv b).bmod (2 * m) = a.tdiv b ↔ ¬ (a = -m ∧ b = -1) := by
  have habs : (a.tdiv b).natAbs = a.natAbs / b.natAbs := Int.natAbs_tdiv a b
  have hdiv : a.natAbs / b.natAbs ≤ a.natAbs := Nat.div_le_self _ _
  constructor
  · rintro heq ⟨rfl, rfl⟩
    rw [Int.neg_tdiv_neg, Int.tdiv_one] at heq
    have hbound := Int.bmod_lt (x := (m : Int)) (m := 2 * m) (by omega)
    omega
  · intro hnot
    apply Int.bmod_eq_of_le_mul_two
    · omega
    · by_contra hbig
      apply hnot
      have hquot : m ≤ a.natAbs / b.natAbs := by omega
      have hbpos : 0 < b.natAbs := Int.natAbs_pos.mpr hb
      have hmul := (Nat.le_div_iff_mul_le hbpos).mp hquot
      have hone : b.natAbs = 1 := by
        by_contra hne
        have hge : m * 2 ≤ m * b.natAbs := Nat.mul_le_mul_left _ (by omega)
        omega
      have ha : a = -m := by
        rw [hone] at hmul
        omega
      refine ⟨ha, ?_⟩
      rcases Int.natAbs_eq b with hpos | hneg
      · rw [hone] at hpos
        rw [ha, hpos] at hbig
        simp at hbig
        omega
      · rw [hone] at hneg
        exact hneg

omit h in
theorem tmod_bmod {m : Nat} {a b : Int} (hb : b ≠ 0) (hle : b.natAbs ≤ m) :
    (a.tmod b).bmod (2 * m) = a.tmod b := by
  have hless : (a.tmod b).natAbs < b.natAbs := by
    rw [Int.natAbs_tmod]
    exact Nat.mod_lt _ (Int.natAbs_pos.mpr hb)
  apply Int.bmod_eq_of_le_mul_two <;> omega

/-- The extension and the division together: quotient and remainder of `rax` by the divisor, with
the quotient wrapping around in the one case in which it does not fit. -/
theorem cqo_idiv (htidy : c.Tidy) (hreg : (env.reg : Nat) ≠ INTREG_RDX)
    (hne : operand env c env.reg ≠ 0) :
    ∃ c₁ c', run (cqoEnv env) (CQO_R_R (cqoEnv env)) c = some c₁ ∧
      (∃ n, ∀ m ≥ n, execute env (IDIV_R env) m 0 c₁ = some (.ok c')) ∧
      (signedOperand env c' INTREG_RAX =
          (signedOperand env c INTREG_RAX).tdiv (signedOperand env c env.reg) ↔
        ¬ (signedOperand env c INTREG_RAX = -2 ^ (env.dataSize * 8 - 1) ∧
          signedOperand env c env.reg = -1)) ∧
      signedOperand env c' INTREG_RDX =
        (signedOperand env c INTREG_RAX).tmod (signedOperand env c env.reg) ∧
      (∀ r < numIntRegs, r ≠ INTREG_RAX → r ≠ INTREG_RDX → c'.intReg r = c.intReg r) ∧
      ∀ f, f ≠ .ecf → f ≠ .ezf → c'.ccReg f = c.ccReg f := by
  have hcqo : (cqoEnv env).Sized := h
  obtain ⟨-, c₁, hrun, hext⟩ := cqo_eq hcqo c
  have hkept : operand env c₁ env.reg = operand env c env.reg := by
    rw [operand, hext.others env.reg hreg]
    rfl
  have hdivisor : signedOperand env c₁ env.reg = signedOperand env c env.reg := by
    rw [signedOperand, hkept]
    rfl
  have htidy₁ : c₁.Tidy := by
    intro f
    rw [hext.flags]
    exact htidy f
  obtain ⟨c', hexec, hresult⟩ := (idiv_divides h htidy₁).2 (hkept ▸ hne)
  rw [idivQuotient, if_neg (fun hrdx => hreg hrdx.1), signedDividend_signExtended h hext,
    hdivisor] at hresult
  have hpow := h.half
  have hhalf := Nat.two_pow_pos (env.dataSize * 8 - 1)
  obtain ⟨hale, halt⟩ := signedOperand_bounds (c := c) h INTREG_RAX
  obtain ⟨hble, hblt⟩ := signedOperand_bounds (c := c) h env.reg
  have hb₀ : signedOperand env c env.reg ≠ 0 := by
    rw [signedOperand_eq h]
    have hlt := operand_lt env c env.reg
    split_ifs <;> omega
  have hcast : ((2 : Int) ^ (env.dataSize * 8 - 1)) =
      ((2 ^ (env.dataSize * 8 - 1) : Nat) : Int) := by
    push_cast
    rfl
  refine ⟨c₁, c', hrun, hexec, ?_, ?_, ?_, ?_⟩
  · rw [signedOperand_written h hresult.rax, hpow, tdiv_bmod hhalf hale halt hb₀, hcast]
  · rw [signedOperand_written h hresult.rdx, hpow]
    exact tmod_bmod hb₀ (by omega)
  · intro r hr hrax hrdx
    rw [hresult.regs r hr hrax hrdx, hext.others r hrdx]
  · intro f hf hf'
    rw [hresult.flags f hf hf', hext.flags]

end Conversion

/-- Minus seven by two. -/
theorem cqo_idiv_seven :
    let env : EmulEnv := { reg := 1, regm := 0, dataSize := 8 }
    let c : Context := ⟨fun r => if r = 1 then 2 else -7, fun _ => 0⟩
    ∃ c₁ c' n, run (cqoEnv env) (CQO_R_R (cqoEnv env)) c = some c₁ ∧
      execute env (IDIV_R env) n 0 c₁ = some (.ok c') ∧
      signedOperand env c' INTREG_RAX = -3 ∧ signedOperand env c' INTREG_RDX = -1 := by
  intro env c
  have htidy : c.Tidy := fun f => by cases f <;> decide
  have hsized : env.Sized := Or.inr (Or.inr rfl)
  obtain ⟨c₁, c', hrun, ⟨n, hn⟩, hquot, hrem, -⟩ := cqo_idiv hsized htidy (by decide) (by decide)
  refine ⟨c₁, c', n, hrun, hn n le_rfl, ?_, ?_⟩
  · rw [hquot.mpr (by decide)]
    decide
  · rw [hrem]
    decide

end ModernArch.X86
