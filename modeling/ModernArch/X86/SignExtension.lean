import ModernArch.X86.Microops
import Mathlib.Tactic.NormNum
import Mathlib.Tactic.SplitIfs

/-!
# The microcode of `CQO`

The rewritten sequence copies with an addition of zero where the original one moves. Both leave
the sign of the source in every bit of the destination operand.
-/

namespace ModernArch.X86
open Sim (mask bits)

/-- `regm` is shifted by `env.dataSize * 8 - 1`. -/
def signShift (env : EmulEnv) : Microop :=
  .srai env.regm env.regm (BitVec.ofNat 8 (env.dataSize * 8 - 1))

def CQO_R_R (env : EmulEnv) : List Microop := [.addi env.regm env.reg 0, signShift env]

namespace Original

def CQO_R_R (env : EmulEnv) : List Microop := [.mov env.regm env.regm env.reg, signShift env]

end Original

theorem getLsbD_mask {n : Nat} (hn : n ≤ 64) (i : Nat) :
    (mask n).getLsbD i = decide (i < n) := by
  unfold mask
  split_ifs with h
  · subst h
    exact BitVec.getLsbD_allOnes
  · have hlt : 2 ^ n < 2 ^ 64 := Nat.pow_lt_pow_right (by decide) (by omega)
    have hpos : 0 < 2 ^ n := Nat.two_pow_pos n
    have hones : ((1 <<< n : Nat) : BitVec 64) - 1 = BitVec.ofNat 64 (2 ^ n - 1) := by
      have hone : (1 : BitVec 64).toNat = 1 := rfl
      apply BitVec.eq_of_toNat_eq
      simp only [BitVec.natCast_eq_ofNat, Nat.one_shiftLeft, BitVec.toNat_sub, BitVec.toNat_ofNat,
        hone]
      omega
    rw [hones, BitVec.getLsbD_ofNat, Nat.testBit_two_pow_sub_one]
    by_cases hi : i < n <;> simp [hi]
    omega

private theorem getLsbD_bits {v : BitVec 64} {first last : Nat} (h : first - last + 1 ≤ 64)
    (i : Nat) :
    (bits v first last).getLsbD i = (v.getLsbD (last + i) && decide (i < first - last + 1)) := by
  rw [bits, BitVec.getLsbD_and, BitVec.getLsbD_ushiftRight, getLsbD_mask h]

private theorem getLsbD_insertBits {v b : BitVec 64} {first last : Nat} (hle : last ≤ first)
    (hlt : first < 64) {i : Nat} (hi : i < 64) :
    (insertBits v first last b).getLsbD i =
      if last ≤ i ∧ i ≤ first then b.getLsbD (i - last) else v.getLsbD i := by
  have hmask : (mask (first - last + 1) <<< last).getLsbD i = decide (last ≤ i ∧ i ≤ first) := by
    rw [BitVec.getLsbD_shiftLeft, getLsbD_mask (by omega), Bool.eq_iff_iff]
    simp only [Bool.and_eq_true, Bool.not_eq_true', decide_eq_true_eq, decide_eq_false_iff_not]
    omega
  simp only [insertBits, BitVec.getLsbD_or, BitVec.getLsbD_and, BitVec.getLsbD_not, hmask,
    BitVec.getLsbD_shiftLeft]
  split_ifs with h
  · have hlast := Nat.not_lt.mpr h.1
    simp [h, hi, hlast]
  · simp [h, hi]

private theorem getLsbD_set (f : Field) (v b : BitVec 64) {i : Nat} (hi : i < 64) :
    (f.set v b).getLsbD i =
      if f.last ≤ i ∧ i ≤ f.first then b.getLsbD (i - f.last) else v.getLsbD i := by
  cases f <;> exact getLsbD_insertBits (by decide) (by decide) hi

private theorem getLsbD_get (f : Field) (v : BitVec 64) (i : Nat) :
    (f.get v).getLsbD i = (v.getLsbD (f.last + i) && decide (i < f.first - f.last + 1)) := by
  cases f <;> exact getLsbD_bits (by decide) i

private theorem folded_fin (r : Fin numIntRegs) : intRegFolded r 0 = r := by
  simp [intRegFolded]

private theorem unfolded_fin (r : Fin numIntRegs) : (r : Nat) &&& intFoldBit = 0 := by
  revert r
  decide

private theorem flatten_fin (r : Fin numIntRegs) : flattenIntIndex r = r := by
  rw [flattenIntIndex, unfolded_fin, Nat.xor_zero]

/-- The operand sizes of the instruction. -/
def EmulEnv.Sized (env : EmulEnv) : Prop :=
  env.dataSize = 2 ∨ env.dataSize = 4 ∨ env.dataSize = 8

theorem EmulEnv.Sized.foldOBit {env : EmulEnv} (h : env.Sized) : env.foldOBit = 0 := by
  have hne : env.dataSize ≠ 1 := by
    rcases h with h | h | h <;> simp [h]
  simp [EmulEnv.foldOBit, hne]

def fieldOf (size : Nat) : Field := if size = 2 then .X else if size = 4 then .E else .R

/-- What a register holds after a write of an operand; four bytes clear the upper half. -/
def written (size : Nat) (into val : BitVec 64) : BitVec 64 :=
  (fieldOf size).set (if size = 4 then 0 else into) val

section Sized

variable {env : EmulEnv} (h : env.Sized)

include h

private theorem pick_eq (r : Fin numIntRegs) (v : BitVec 64) :
    pick r v env.dataSize = some ((fieldOf env.dataSize).get v) := by
  unfold pick
  rw [if_neg (not_not.mpr (unfolded_fin r))]
  rcases h with h | h | h <;> simp [h, fieldOf]

private theorem merge_eq (r : Fin numIntRegs) (into val : BitVec 64) :
    merge r into val env.dataSize = some (written env.dataSize into val) := by
  unfold merge
  rw [if_neg (not_not.mpr (unfolded_fin r))]
  rcases h with h | h | h <;> simp [h, fieldOf, written]

theorem getLsbD_written (into val : BitVec 64) {i : Nat} (hi : i < 64) :
    (written env.dataSize into val).getLsbD i =
      if i < env.dataSize * 8 then val.getLsbD i
      else if env.dataSize = 4 then false else into.getLsbD i := by
  have hlast : (fieldOf env.dataSize).last = 0 := by
    rcases h with h | h | h <;> rw [h] <;> rfl
  have hfirst : (fieldOf env.dataSize).first = env.dataSize * 8 - 1 := by
    rcases h with h | h | h <;> rw [h] <;> rfl
  have hrange : 0 ≤ i ∧ i ≤ env.dataSize * 8 - 1 ↔ i < env.dataSize * 8 := by
    rcases h with h | h | h <;> omega
  rw [written, getLsbD_set _ _ _ hi, hlast, hfirst, Nat.sub_zero]
  simp only [hrange]
  split_ifs <;> simp

theorem getLsbD_pick (v : BitVec 64) (i : Nat) :
    ((fieldOf env.dataSize).get v).getLsbD i = (v.getLsbD i && decide (i < env.dataSize * 8)) := by
  rw [getLsbD_get]
  rcases h with h | h | h <;> simp [h, fieldOf, Field.first, Field.last]

/-- The `Big` classes mask where the others merge. -/
theorem masked_eq (hbig : env.dataSize ≥ 4) (into val : BitVec 64) :
    val &&& mask (env.dataSize * 8) = written env.dataSize into val := by
  apply BitVec.eq_of_getLsbD_eq
  intro i hi
  rw [getLsbD_written h into val hi, BitVec.getLsbD_and, getLsbD_mask]
  · rcases h with h | h | h
    · omega
    · simp [h, Bool.and_comm]
    · simp [h, hi]
  · rcases h with h | h | h <;> omega

private theorem exec_mov (dest src1 src2 : Fin numIntRegs) (c : Context) :
    (Microop.mov dest src1 src2).exec env c = some (c.setInt dest
      (written env.dataSize (c.intReg src1) ((fieldOf env.dataSize).get (c.intReg src2)))) := by
  simp [Microop.exec, Microop.execMov, h.foldOBit, folded_fin, Context.readInt, flatten_fin,
    pick_eq h, merge_eq h]

private theorem exec_addi (dest src1 : Fin numIntRegs) (imm8 : BitVec 8) (c : Context) :
    (Microop.addi dest src1 imm8).exec env c = some (c.setInt dest
      (written env.dataSize (c.intReg dest)
        ((fieldOf env.dataSize).get (c.intReg src1) + imm8.setWidth 64))) := by
  by_cases hbig : env.dataSize ≥ 4
  · simp [Microop.exec, hbig, Microop.execAddImmBig, h.foldOBit, folded_fin, Context.readInt,
      flatten_fin, pick_eq h, masked_eq h hbig (c.intReg dest)]
  · simp [Microop.exec, hbig, Microop.execAddImm, h.foldOBit, folded_fin, Context.readInt,
      flatten_fin, pick_eq h, merge_eq h]

private theorem exec_srai (dest src1 : Fin numIntRegs) (imm8 : BitVec 8) (c : Context) :
    (Microop.srai dest src1 imm8).exec env c =
      let psrc1 := (fieldOf env.dataSize).get (c.intReg src1)
      let shiftAmt := Microop.shiftAmt env imm8
      some (c.setInt dest (written env.dataSize (c.intReg dest)
        ((psrc1 >>> shiftAmt) ||| Microop.arithMask env psrc1 shiftAmt))) := by
  by_cases hbig : env.dataSize ≥ 4
  · simp [Microop.exec, hbig, Microop.execSraImmBig, h.foldOBit, folded_fin, Context.readInt,
      flatten_fin, pick_eq h, masked_eq h hbig (c.intReg dest)]
  · simp [Microop.exec, hbig, Microop.execSraImm, h.foldOBit, folded_fin, Context.readInt,
      flatten_fin, pick_eq h, merge_eq h]

/-- An addition of zero is a move. -/
theorem exec_addi_zero (dest src : Fin numIntRegs) (c : Context) :
    (Microop.addi dest src 0).exec env c = (Microop.mov dest dest src).exec env c := by
  rw [exec_addi h, exec_mov h]
  simp

omit h in
private theorem run_pair {op op' : Microop} {c c₁ : Context} (hop : op.exec env c = some c₁) :
    run env [op, op'] c = op'.exec env c₁ := by
  simp [run, hop]

private theorem shiftAmt_sign :
    Microop.shiftAmt env (BitVec.ofNat 8 (env.dataSize * 8 - 1)) = env.dataSize * 8 - 1 := by
  rcases h with h | h | h <;> simp only [Microop.shiftAmt, h] <;> decide

omit h in
private theorem getLsbD_neg_bit (v : BitVec 64) (n : Nat) {i : Nat} (hi : i < 64) :
    (-bits v n n).getLsbD i = v.getLsbD n := by
  have hbit : bits v n n = if v.getLsbD n then 1#64 else 0#64 := by
    apply BitVec.eq_of_getLsbD_eq
    intro j hj
    rw [getLsbD_bits (by omega)]
    cases j with
    | zero => cases v.getLsbD n <;> simp
    | succ j => cases hv : v.getLsbD n <;> simp [BitVec.getLsbD_one]
  rw [hbit]
  cases hv : v.getLsbD n with
  | false => simp
  | true =>
      have hones : -1#64 = BitVec.allOnes 64 := by decide
      rw [if_pos rfl, hones, BitVec.getLsbD_allOnes, decide_eq_true hi]

/-- The sign of the operand in every bit of the shifted operand. -/
theorem getLsbD_shifted (v : BitVec 64) {i : Nat} (hi : i < env.dataSize * 8) :
    let p := (fieldOf env.dataSize).get v
    ((p >>> (env.dataSize * 8 - 1)) ||| Microop.arithMask env p (env.dataSize * 8 - 1)).getLsbD i =
      v.getLsbD (env.dataSize * 8 - 1) := by
  intro p
  have hsize : 16 ≤ env.dataSize * 8 ∧ env.dataSize * 8 ≤ 64 := by
    rcases h with h | h | h <;> omega
  have hsign : p.getLsbD (env.dataSize * 8 - 1) = v.getLsbD (env.dataSize * 8 - 1) := by
    have hlast : env.dataSize * 8 - 1 < env.dataSize * 8 := by omega
    rw [getLsbD_pick h]
    simp [hlast]
  have hone : env.dataSize * 8 - (env.dataSize * 8 - 1) = 1 := by omega
  rw [Microop.arithMask, if_neg (by omega), hone, BitVec.getLsbD_or, BitVec.getLsbD_ushiftRight,
    BitVec.getLsbD_shiftLeft]
  cases i with
  | zero => simp [hsign]
  | succ i =>
      have hout : ¬ env.dataSize * 8 - 1 + (i + 1) < env.dataSize * 8 := by omega
      have hlt : i + 1 < 64 := by omega
      rw [getLsbD_pick h, getLsbD_neg_bit p _ (by omega), hsign]
      simp [hout, hlt]

end Sized

/-- The sign of the source in every bit of the destination operand, its other bits as a write of
that size leaves them, and nothing else changed. -/
structure SignExtended (env : EmulEnv) (c c' : Context) : Prop where
  flags : c'.ccReg = c.ccReg
  others : ∀ r : Nat, r ≠ env.regm → c'.intReg r = c.intReg r
  sign : ∀ i < env.dataSize * 8,
    (c'.intReg env.regm).getLsbD i = (c.intReg env.reg).getLsbD (env.dataSize * 8 - 1)
  kept : env.dataSize = 2 → ∀ i, 16 ≤ i →
    (c'.intReg env.regm).getLsbD i = (c.intReg env.regm).getLsbD i
  zeroed : env.dataSize = 4 → ∀ i, 32 ≤ i → (c'.intReg env.regm).getLsbD i = false

/-- Both sequences do the same to every context, also when the source is the destination, and
extend the sign. -/
theorem cqo_eq {env : EmulEnv} (h : env.Sized) (c : Context) :
    run env (CQO_R_R env) c = run env (Original.CQO_R_R env) c ∧
      ∃ c', run env (CQO_R_R env) c = some c' ∧ SignExtended env c c' := by
  let v := c.intReg env.reg
  let copy := written env.dataSize (c.intReg env.regm) ((fieldOf env.dataSize).get v)
  let c₁ := c.setInt env.regm copy
  have hcopy : (Microop.mov env.regm env.regm env.reg).exec env c = some c₁ :=
    exec_mov h env.regm env.regm env.reg c
  have hadd : (Microop.addi env.regm env.reg 0).exec env c = some c₁ :=
    (exec_addi_zero h env.regm env.reg c).trans hcopy
  have hold : run env (Original.CQO_R_R env) c = (signShift env).exec env c₁ := run_pair hcopy
  have hnew : run env (CQO_R_R env) c = (signShift env).exec env c₁ := run_pair hadd
  have hc₁ : c₁.intReg env.regm = copy := by
    simp [c₁, Context.setInt, flatten_fin]
  refine ⟨hnew.trans hold.symm, _, hnew.trans (exec_srai h _ _ _ c₁), ?_⟩
  have hsize : env.dataSize * 8 ≤ 64 := by
    rcases h with h | h | h <;> omega
  rw [shiftAmt_sign h, hc₁]
  constructor
  · rfl
  · intro r hr
    simp [c₁, Context.setInt, flatten_fin, hr]
  · intro i hi
    have hlast : env.dataSize * 8 - 1 < env.dataSize * 8 := by omega
    have hval : copy.getLsbD (env.dataSize * 8 - 1) = v.getLsbD (env.dataSize * 8 - 1) := by
      rw [getLsbD_written h _ _ (by omega), if_pos hlast, getLsbD_pick h]
      simp [hlast]
    simp only [Context.setInt, flatten_fin, Function.update_self]
    rw [getLsbD_written h _ _ (by omega), if_pos hi, getLsbD_shifted h copy hi, hval]
  · intro h2 i hi
    by_cases hlt : i < 64
    · have hout : ¬ i < env.dataSize * 8 := by omega
      have hne : env.dataSize ≠ 4 := by omega
      simp only [Context.setInt, flatten_fin, Function.update_self]
      rw [getLsbD_written h _ _ hlt, if_neg hout, if_neg hne, getLsbD_written h _ _ hlt,
        if_neg hout, if_neg hne]
    · rw [BitVec.getLsbD_of_ge _ _ (by omega), BitVec.getLsbD_of_ge _ _ (by omega)]
  · intro h4 i hi
    by_cases hlt : i < 64
    · have hout : ¬ i < env.dataSize * 8 := by omega
      simp only [Context.setInt, flatten_fin, Function.update_self]
      rw [getLsbD_written h _ _ hlt, if_neg hout, if_pos h4]
    · exact BitVec.getLsbD_of_ge _ _ (by omega)

/-- `CDQ` on a negative `EAX`. -/
theorem cqo_eq_cdq :
    let env : EmulEnv := { reg := 0, regm := 2, dataSize := 4 }
    let c : Context := ⟨fun r => if r = 0 then 0x80000000 else 0x123456789, fun _ => 0⟩
    ∃ c', run env (CQO_R_R env) c = some c' ∧ SignExtended env c c' := by
  intro env c
  exact (cqo_eq (Or.inr (Or.inl rfl)) c).2

end ModernArch.X86
