import ModernArch.X86.Division

/-!
# Signed division

`IDIV` divides absolute values, with the signs kept in the microcode's carry flag, and puts the
signs back afterwards.
-/

namespace ModernArch.X86
open Sim (mask bits)

private theorem findCarry_eq (w : Nat) (d a b : BitVec 64) :
    findCarry w d a b =
      if d.getLsbD (w - 1) then a.getLsbD (w - 1) && b.getLsbD (w - 1)
      else a.getLsbD (w - 1) || b.getLsbD (w - 1) := by
  have hbit (v : BitVec 64) :
      (v >>> (w - 1)) &&& 1#64 = (BitVec.ofBool (v.getLsbD (w - 1))).setWidth 64 := by
    rw [BitVec.and_one_eq_setWidth_ofBool_getLsbD, BitVec.getLsbD_ushiftRight, Nat.add_zero]
  have hnot : ~~~(d >>> (w - 1)) &&& 1#64 =
      (BitVec.ofBool (!d.getLsbD (w - 1))).setWidth 64 := by
    rw [BitVec.and_one_eq_setWidth_ofBool_getLsbD, BitVec.getLsbD_not, BitVec.getLsbD_ushiftRight,
      Nat.add_zero]
    rfl
  rw [findCarry]
  change (((~~~(d >>> (w - 1)) &&& 1#64) + ((a >>> (w - 1)) &&& 1#64) +
    ((b >>> (w - 1)) &&& 1#64)) &&& 2#64 != 0#64) = _
  rw [hnot, hbit, hbit]
  cases d.getLsbD (w - 1) <;> cases a.getLsbD (w - 1) <;> cases b.getLsbD (w - 1) <;> rfl

theorem getLsbD_top {w : Nat} (hw : 0 < w) (v : BitVec 64) :
    v.getLsbD (w - 1) = decide (2 ^ (w - 1) ≤ v.toNat % 2 ^ w) := by
  obtain ⟨k, rfl⟩ := Nat.exists_eq_add_of_le' hw
  rw [Nat.add_sub_cancel, BitVec.getLsbD, Nat.testBit_eq_decide_div_mod_eq]
  have h1 : v.toNat % 2 ^ (k + 1) / 2 ^ k = v.toNat / 2 ^ k % 2 := by
    rw [Nat.pow_succ, Nat.mod_mul_right_div_self]
  rw [← h1]
  have hlt : v.toNat % 2 ^ (k + 1) < 2 ^ k * 2 := by
    rw [← Nat.pow_succ]
    exact Nat.mod_lt _ (Nat.two_pow_pos _)
  generalize v.toNat % 2 ^ (k + 1) = x at *
  have hpos := Nat.two_pow_pos k
  congr 1
  rw [eq_iff_iff]
  constructor
  · intro h
    by_contra hx
    rw [Nat.div_eq_of_lt (by omega)] at h
    omega
  · intro h
    exact Nat.div_eq_of_lt_le (by omega) (by omega)

/-- The carry of a subtraction is the absence of a borrow. -/
theorem findCarry_sub {w : Nat} (hw : 0 < w) (hw64 : w ≤ 64) {a b r : BitVec 64} {x y : Nat}
    (hx : a.toNat % 2 ^ w = x) (hy : b.toNat % 2 ^ w = y)
    (hr : r.toNat % 2 ^ w = (x + 2 ^ w - y) % 2 ^ w) :
    findCarry w r a (~~~b) = decide (y ≤ x) := by
  have htop : w - 1 < 64 := by omega
  have hxlt : x < 2 ^ w := hx ▸ Nat.mod_lt _ (Nat.two_pow_pos w)
  have hylt : y < 2 ^ w := hy ▸ Nat.mod_lt _ (Nat.two_pow_pos w)
  have hhalf : 2 ^ w = 2 ^ (w - 1) * 2 := by
    rw [← Nat.pow_succ]
    congr 1
    omega
  have hdiff : r.toNat % 2 ^ w = if y ≤ x then x - y else x + 2 ^ w - y := by
    rw [hr]
    split_ifs with hle
    · rw [show x + 2 ^ w - y = x - y + 2 ^ w by omega, Nat.add_mod_right,
        Nat.mod_eq_of_lt (by omega)]
    · exact Nat.mod_eq_of_lt (by omega)
  rw [findCarry_eq, BitVec.getLsbD_not, decide_eq_true htop, Bool.true_and, getLsbD_top hw,
    getLsbD_top hw, getLsbD_top hw, hx, hy, hdiff]
  generalize 2 ^ w = W at *
  generalize 2 ^ (w - 1) = H at *
  by_cases hle : y ≤ x
  · by_cases h1 : H ≤ x <;> by_cases h2 : H ≤ y <;> by_cases h3 : H ≤ x - y <;>
      simp [hle, h1, h2, h3] <;> omega
  · by_cases h1 : H ≤ x <;> by_cases h2 : H ≤ y <;> by_cases h3 : H ≤ x + W - y <;>
      simp [hle, h1, h2, h3] <;> omega

/-- The microcode's carry flag shares no bit with what the other registers are for. -/
theorem ecf_alone : ECFBit &&& cfofMask = 0 ∧ ECFBit &&& ECFBit = ECFBit ∧ ECFBit &&& EZFBit = 0 ∧
    ECFBit &&& DFBit = 0 ∧ ECFBit &&& ccFlagMask = 0 ∧ ¬ ECFBit = 0 ∧
    ECFBit &&& (ECFBit ||| CFBit) = ECFBit ∧ ECFBit &&& (CFBit ||| ECFBit) = ECFBit ∧
    ECFBit &&& PFBit = 0 ∧ ECFBit &&& AFBit = 0 ∧ ECFBit &&& (EZFBit ||| ZFBit) = 0 ∧
    ECFBit &&& SFBit = 0 ∧ ECFBit &&& OFBit = 0 := by
  decide

private theorem subFlags_zero (c : Context) (dataSize : Nat) (result psrc1 op2 : BitVec 64) :
    c.subFlags dataSize 0 result psrc1 op2 = c := by
  simp [Context.subFlags, Context.setPred]

private theorem subFlags_ecf (c : Context) (dataSize : Nat) (result psrc1 op2 : BitVec 64) :
    c.subFlags dataSize ECFBit result psrc1 op2 =
      c.setCC .ecf (if findCarry (dataSize * 8) result psrc1 (~~~op2) then 0 else ECFBit) := by
  simp only [Context.subFlags, Context.setPred, Context.PredccFlagBits, Context.PredcfofBits,
    Context.readPred, genFlags, ecf_alone]
  by_cases h : findCarry (dataSize * 8) result psrc1 (~~~op2) <;> simp [h]

private theorem sllFlags_ecf (c : Context) {dataSize : Nat} (hsize : 0 < dataSize)
    (srcReg1 val psrc1 op2 : BitVec 64) :
    c.sllFlags dataSize ECFBit srcReg1 val psrc1 op2 1 =
      c.setCC .ecf (if srcReg1.getLsbD (dataSize * 8 - 1) then ECFBit else 0) := by
  have hle : 1 ≤ dataSize * 8 := by omega
  have hne : (ECFBit != 0) = true := by decide
  simp only [Context.sllFlags, Context.setPred, bit_ne_zero, ecf_alone, hle, hne]
  simp

/-- What a microop that writes `val` to `dest` leaves, with the microcode's carry flag. -/
structure Effect (c c' : Context) (dest : Nat) (val : BitVec 64) (carry : Bool) : Prop where
  out : dest ≠ ZeroReg → c'.intReg dest = val
  regs : ∀ r, r ≠ ZeroReg → r ≠ dest → c'.intReg r = c.intReg r
  ecf : (c'.ccReg .ecf).getLsbD 3 = carry
  flags : ∀ f, f ≠ .ecf → f ≠ .ezf → c'.ccReg f = c.ccReg f
  tidy : c'.Tidy

/-- What a microop reads; the zero register has been cleared. -/
def source (env : EmulEnv) (c : Context) (r : Nat) : Nat := operand env (c.setInt ZeroReg 0) r

private theorem source_zero (env : EmulEnv) (c : Context) : source env c ZeroReg = 0 := by
  rw [source, operand, Context.intReg_setInt _ (by decide), if_pos rfl]
  exact Nat.zero_mod _

private theorem source_eq {env : EmulEnv} {c : Context} {r : Nat} (hr : r ≠ ZeroReg) :
    source env c r = operand env c r :=
  operand_cleared hr

theorem intReg_cleared (c : Context) {r : Nat} (hr : r ≠ ZeroReg) :
    (c.setInt ZeroReg 0).intReg r = c.intReg r := by
  rw [Context.intReg_setInt _ (by decide), if_neg hr]

private theorem toNat_sub_mod {w : Nat} (hw : w ≤ 64) {a b : BitVec 64} (hb : b.toNat < 2 ^ w) :
    (a - b).toNat % 2 ^ w = (a.toNat + 2 ^ w - b.toNat) % 2 ^ w := by
  obtain ⟨k, hk⟩ : 2 ^ w ∣ 2 ^ 64 := Nat.pow_dvd_pow 2 hw
  obtain ⟨k, rfl⟩ : ∃ j, k = j + 1 := by
    cases k with
    | zero => simp at hk
    | succ k => exact ⟨k, rfl⟩
  rw [BitVec.toNat_sub, Nat.mod_mod_of_dvd _ ⟨_, hk⟩, hk, Nat.mul_succ]
  have hsum : 2 ^ w * k + 2 ^ w - b.toNat + a.toNat = a.toNat + 2 ^ w - b.toNat + 2 ^ w * k := by
    omega
  rw [hsum, Nat.add_mul_mod_self_left]

section Steps

variable {env : EmulEnv} (h : env.Sized) {ops : List RegOp} {upc dest src1 src2 : Nat} {c : Context}

theorem Effect.of_setInt (hdest : dest < 64) (htidy : c.Tidy) (val : BitVec 64) :
    Effect c ((c.setInt ZeroReg 0).setInt dest val) dest val ((c.ccReg .ecf).getLsbD 3) := by
  refine ⟨fun _ => ?_, fun r hr₀ hr => ?_, rfl, fun _ _ _ => rfl, htidy⟩
  · rw [Context.intReg_setInt _ hdest, if_pos rfl]
  · rw [Context.intReg_setInt _ hdest, if_neg hr, intReg_cleared c hr₀]

theorem Effect.setCC {c' : Context} {val : BitVec 64} {carry : Bool}
    (he : Effect c c' dest val carry) (b : Bool) :
    Effect c (c'.setCC .ecf (if b then ECFBit else 0)) dest val b := by
  refine ⟨he.out, he.regs, ?_, fun f hf hf' => ?_, he.tidy.setCC ?_⟩
  · rw [Context.ccReg_setCC, if_pos rfl]
    cases b <;> decide
  · rw [Context.ccReg_setCC, if_neg hf]
    exact he.flags f hf hf'
  · cases b <;> decide

include h

private theorem step_sub (hdest : dest < 64) (hd₀ : dest ≠ ZeroReg) (h1 : src1 < 64)
    (h2 : src2 < 64) (htidy : c.Tidy) {ext : BitVec 64} (hext : ext = 0 ∨ ext = ECFBit)
    (hop : ops[upc]? = some (.sub dest src1 src2 ext)) :
    ∃ c' val, step env ops upc c = some (.ok (upc + 1, c')) ∧
      Effect c c' dest (written env.dataSize (c.intReg dest) val)
        (if ext = 0 then (c.ccReg .ecf).getLsbD 3
          else decide (source env c src1 < source env c src2)) ∧
      val.toNat % 2 ^ (env.dataSize * 8) =
        (source env c src1 + 2 ^ (env.dataSize * 8) - source env c src2) %
          2 ^ (env.dataSize * 8) := by
  have hwidth := h.width
  have h1' : ((fieldOf env.dataSize).get ((c.setInt ZeroReg 0).intReg src1)).toNat =
      source env c src1 := toNat_pick h _
  have h2' : ((fieldOf env.dataSize).get ((c.setInt ZeroReg 0).intReg src2)).toNat =
      source env c src2 := toNat_pick h _
  have hx : source env c src1 < 2 ^ (env.dataSize * 8) := operand_lt _ _ _
  have hy : source env c src2 < 2 ^ (env.dataSize * 8) := operand_lt _ _ _
  let psrc1 := (fieldOf env.dataSize).get ((c.setInt ZeroReg 0).intReg src1)
  let psrc2 := (fieldOf env.dataSize).get ((c.setInt ZeroReg 0).intReg src2)
  let result :=
    if env.dataSize ≥ 4 then (psrc1 - psrc2) &&& mask (env.dataSize * 8) else psrc1 - psrc2
  have hresult : result.toNat % 2 ^ (env.dataSize * 8) =
      (source env c src1 + 2 ^ (env.dataSize * 8) - source env c src2) %
        2 ^ (env.dataSize * 8) := by
    have hmasked : result.toNat % 2 ^ (env.dataSize * 8) =
        (psrc1 - psrc2).toNat % 2 ^ (env.dataSize * 8) := by
      simp only [result]
      split_ifs
      · rw [toNat_and_mask _ hwidth.2, Nat.mod_mod]
      · rfl
    rw [hmasked, toNat_sub_mod hwidth.2 (h2'.trans_lt hy), h1', h2']
  let c₁ := (c.setInt ZeroReg 0).setInt dest (written env.dataSize (c.intReg dest) result)
  have hstep : step env ops upc c =
      some (.ok (upc + 1, c₁.subFlags env.dataSize ext result psrc1 psrc2)) := by
    rw [step, hop]
    simp only [Option.bind_eq_bind, Option.bind_some, RegOp.exec, RegOp.execSub, psrc_eq h _ h1,
      psrc_eq h _ h2, setDest_eq h _ hdest, intReg_cleared c hd₀]
    rfl
  have heffect : Effect c c₁ dest _ _ := Effect.of_setInt hdest htidy _
  rcases hext with rfl | rfl
  · rw [subFlags_zero] at hstep
    exact ⟨_, _, hstep, heffect, hresult⟩
  · have hne : ¬ ECFBit = 0 := by decide
    rw [subFlags_ecf, findCarry_sub (by omega) hwidth.2 (x := source env c src1)
      (y := source env c src2) (by rw [h1', Nat.mod_eq_of_lt hx])
      (by rw [h2', Nat.mod_eq_of_lt hy]) hresult] at hstep
    refine ⟨_, _, hstep, ?_, hresult⟩
    have hflip : (if decide (source env c src2 ≤ source env c src1) = true then 0 else ECFBit) =
        if decide (source env c src1 < source env c src2) then ECFBit else 0 := by
      by_cases hle : source env c src2 ≤ source env c src1
      · simp [hle, Nat.not_lt.mpr hle]
      · simp [hle, Nat.not_le.mp hle]
    rw [hflip, if_neg hne]
    exact heffect.setCC _

private theorem step_mov (hdest : dest < 64) (h1 : src1 < 64) (h2 : src2 < 64) (htidy : c.Tidy)
    {cond : CondTest} (hop : ops[upc]? = some (.mov dest src1 src2 cond)) (hd₀ : dest ≠ ZeroReg)
    (h1₀ : src1 ≠ ZeroReg) (h2₀ : src2 ≠ ZeroReg) :
    ∃ c', step env ops upc c = some (.ok (upc + 1, c')) ∧
      Effect c c' dest
        (if checkCondition c.flags cond then
          written env.dataSize (c.intReg src1) ((fieldOf env.dataSize).get (c.intReg src2))
        else c.intReg dest) ((c.ccReg .ecf).getLsbD 3) := by
  have hflags : (c.setInt ZeroReg 0).flags = c.flags := rfl
  by_cases hcond : checkCondition c.flags cond
  · rw [if_pos hcond]
    refine ⟨_, ?_, Effect.of_setInt hdest htidy _⟩
    rw [step, hop]
    simp only [Option.bind_eq_bind, Option.bind_some, RegOp.exec, RegOp.execMov, psrc_eq h _ h2,
      srcReg_eq h _ h1, folded_sized h, merge_lt h hdest, intReg_cleared c h1₀,
      intReg_cleared c h2₀, hflags, hcond, if_true]
    rfl
  · rw [if_neg hcond]
    refine ⟨c.setInt ZeroReg 0, ?_, fun _ => intReg_cleared c hd₀, fun r hr₀ _ =>
      intReg_cleared c hr₀, rfl, fun _ _ _ => rfl, htidy⟩
    rw [step, hop]
    simp only [Option.bind_eq_bind, Option.bind_some, RegOp.exec, RegOp.execMov, psrc_eq h _ h2,
      hflags, hcond]
    rfl

private theorem step_sign (h1 : src1 < 64) (h1₀ : src1 ≠ ZeroReg) (htidy : c.Tidy)
    (hop : ops[upc]? = some (.slli ZeroReg src1 1 ECFBit)) :
    ∃ c' val, step env ops upc c = some (.ok (upc + 1, c')) ∧
      Effect c c' ZeroReg val
        (decide (2 ^ (env.dataSize * 8 - 1) ≤ operand env c src1)) := by
  have hwidth := h.width
  have hshift : Microop.shiftAmt env 1 = 1 := by
    rcases h with h | h | h <;> simp only [Microop.shiftAmt, h] <;> decide
  let c₁ := (c.setInt ZeroReg 0).setInt ZeroReg (written env.dataSize 0
    ((fieldOf env.dataSize).get (c.intReg src1) <<< 1))
  have hstep : step env ops upc c = some (.ok (upc + 1, c₁.setCC .ecf
      (if decide (2 ^ (env.dataSize * 8 - 1) ≤ operand env c src1) then ECFBit else 0))) := by
    rw [step, hop]
    simp only [Option.bind_eq_bind, Option.bind_some, RegOp.exec, RegOp.execSlli, psrc_eq h _ h1,
      srcReg_eq h _ h1, setDest_eq h _ (by decide : ZeroReg < 64), hshift,
      sllFlags_ecf _ (by omega : 0 < env.dataSize), intReg_cleared c h1₀,
      getLsbD_top (by omega : 0 < env.dataSize * 8)]
    rw [Context.intReg_setInt _ (by decide), if_pos rfl]
    rfl
  exact ⟨_, _, hstep, (Effect.of_setInt (by decide) htidy _).setCC _⟩

private theorem step_ruflag (hdest : dest < 64) (hd₀ : dest ≠ ZeroReg) (htidy : c.Tidy)
    (hop : ops[upc]? = some (.ruflag dest 3)) :
    ∃ c' val, step env ops upc c = some (.ok (upc + 1, c')) ∧
      Effect c c' dest (written env.dataSize (c.intReg dest) val) ((c.ccReg .ecf).getLsbD 3) ∧
      val.toNat = ((c.ccReg .ecf).getLsbD 3).toNat := by
  have hflags : (c.setInt ZeroReg 0).flags = c.flags := rfl
  let c₁ := (c.setInt ZeroReg 0).setInt dest
    (written env.dataSize (c.intReg dest) (bits c.flags 3 3))
  have hstep : step env ops upc c = some (.ok (upc + 1,
      c₁.setCC .ezf (if bits c.flags 3 3 = 0 then EZFBit else 0))) := by
    rw [step, hop]
    simp only [Option.bind_eq_bind, Option.bind_some, RegOp.exec, RegOp.execRuflag,
      setDest_eq h _ hdest, intReg_cleared c hd₀, hflags]
    rfl
  have heffect : Effect c c₁ dest _ _ := Effect.of_setInt hdest htidy _
  refine ⟨_, _, hstep, ⟨heffect.out, heffect.regs, ?_, fun f hf hf' => ?_, ?_⟩, ?_⟩
  · rw [Context.ccReg_setCC, if_neg (by decide)]
    exact heffect.ecf
  · rw [Context.ccReg_setCC, if_neg hf']
    exact heffect.flags f hf hf'
  · apply heffect.tidy.setCC
    split_ifs <;> decide
  · rw [toNat_bit, htidy.ecf]

end Steps

/-- An effect on the operand of `dest`, which becomes `x`. -/
structure Computes (env : EmulEnv) (c c' : Context) (dest x : Nat) (carry : Bool) : Prop where
  out : operand env c' dest = x
  regs : ∀ r, r ≠ ZeroReg → r ≠ dest → c'.intReg r = c.intReg r
  ecf : (c'.ccReg .ecf).getLsbD 3 = carry
  flags : ∀ f, f ≠ .ecf → f ≠ .ezf → c'.ccReg f = c.ccReg f
  tidy : c'.Tidy

section Computes

variable {env : EmulEnv} {ops : List RegOp} {upc dest src1 src2 x : Nat} {c c' : Context}
  {carry : Bool}

theorem Computes.other (he : Computes env c c' dest x carry) {r : Nat} (hr₀ : r ≠ ZeroReg)
    (hr : r ≠ dest) : operand env c' r = operand env c r := by
  rw [operand, he.regs r hr₀ hr]
  rfl

theorem Effect.other {val : BitVec 64} (he : Effect c c' dest val carry) {r : Nat}
    (hr₀ : r ≠ ZeroReg) (hr : r ≠ dest) : operand env c' r = operand env c r := by
  rw [operand, he.regs r hr₀ hr]
  rfl

/-- Condition of a move in terms of the carry. -/
theorem checkCondition_ecf (htidy : c.Tidy) :
    checkCondition c.flags .ECF = (c.ccReg .ecf).getLsbD 3 ∧
      checkCondition c.flags .NotECF = !(c.ccReg .ecf).getLsbD 3 := by
  rw [checkCondition, checkCondition, htidy.ecf]
  exact ⟨rfl, rfl⟩

private theorem computes_sub (h : env.Sized) (hdest : dest < 64) (hd₀ : dest ≠ ZeroReg)
    (h1 : src1 < 64)
    (h2 : src2 < 64) (htidy : c.Tidy) {ext : BitVec 64} (hext : ext = 0 ∨ ext = ECFBit)
    (hop : ops[upc]? = some (.sub dest src1 src2 ext)) :
    ∃ c', step env ops upc c = some (.ok (upc + 1, c')) ∧
      Computes env c c' dest ((source env c src1 + 2 ^ (env.dataSize * 8) - source env c src2) %
          2 ^ (env.dataSize * 8))
        (if ext = 0 then (c.ccReg .ecf).getLsbD 3
          else decide (source env c src1 < source env c src2)) := by
  obtain ⟨c', val, hstep, he, hval⟩ := step_sub h hdest hd₀ h1 h2 htidy hext hop
  refine ⟨c', hstep, ?_, he.regs, he.ecf, he.flags, he.tidy⟩
  rw [operand, he.out hd₀, toNat_written h, hval]

private theorem computes_mov (h : env.Sized) (hdest : dest < 64) (h2 : src2 < 64) (htidy : c.Tidy)
    (hop : ops[upc]? = some (.mov dest dest src2 .NotECF)) (hd₀ : dest ≠ ZeroReg)
    (h2₀ : src2 ≠ ZeroReg) :
    ∃ c', step env ops upc c = some (.ok (upc + 1, c')) ∧
      Computes env c c' dest
        (if (c.ccReg .ecf).getLsbD 3 then operand env c dest else operand env c src2)
        ((c.ccReg .ecf).getLsbD 3) := by
  obtain ⟨c', hstep, he⟩ := step_mov h hdest hdest h2 htidy hop hd₀ hd₀ h2₀
  refine ⟨c', hstep, ?_, he.regs, he.ecf, he.flags, he.tidy⟩
  rw [operand, he.out hd₀, (checkCondition_ecf htidy).2]
  cases (c.ccReg .ecf).getLsbD 3 with
  | true => rfl
  | false =>
      rw [if_pos (by rfl), toNat_written h, toNat_pick h, Nat.mod_mod]
      rfl

private theorem computes_ruflag (h : env.Sized) (hdest : dest < 64) (hd₀ : dest ≠ ZeroReg)
    (htidy : c.Tidy) (hop : ops[upc]? = some (.ruflag dest 3)) :
    ∃ c', step env ops upc c = some (.ok (upc + 1, c')) ∧
      Computes env c c' dest ((c.ccReg .ecf).getLsbD 3).toNat ((c.ccReg .ecf).getLsbD 3) := by
  obtain ⟨c', val, hstep, he, hval⟩ := step_ruflag h hdest hd₀ htidy hop
  refine ⟨c', hstep, ?_, he.regs, he.ecf, he.flags, he.tidy⟩
  have hlt : ((c.ccReg .ecf).getLsbD 3).toNat < 2 := Bool.toNat_lt _
  have hpow : 2 ^ 1 ≤ 2 ^ (env.dataSize * 8) :=
    Nat.pow_le_pow_right (by decide) (by have := h.width.1; omega)
  rw [operand, he.out hd₀, toNat_written h, hval, Nat.mod_eq_of_lt (by omega)]

end Computes

/-! ## The microcode -/

/-- Microcode temporaries. -/
abbrev t (i : Nat) : Nat := INTREG_MICRO i

def idivNegate : List RegOp :=
  [.sub (t 1) (t 0) INTREG_RAX ECFBit,
    .ruflag (t 4) 3,
    .sub (t 2) (t 0) INTREG_RDX 0,
    .sub (t 2) (t 2) (t 4) 0]

def idivAbsolute (op1 : Nat) : List RegOp :=
  [.slli (t 0) op1 1 ECFBit,
    .sub (t 3) (t 0) op1 0,
    .mov (t 3) (t 3) op1 .NotECF,
    .slli (t 0) INTREG_RDX 1 ECFBit,
    .mov (t 1) (t 1) INTREG_RAX .NotECF,
    .mov (t 2) (t 2) INTREG_RDX .NotECF]

def idivSigns (op1 : Nat) : List RegOp :=
  [.divq (t 5),
    .divr (t 6),
    .sub (t 4) (t 0) (t 6) 0,
    .mov INTREG_RDX INTREG_RDX (t 4) .ECF,
    .mov INTREG_RDX INTREG_RDX (t 6) .NotECF,
    .sub (t 4) (t 0) (t 5) 0,
    .mov (t 5) (t 5) (t 4) .ECF,
    .slli (t 0) op1 1 ECFBit,
    .sub (t 4) (t 0) (t 5) 0,
    .mov INTREG_RAX INTREG_RAX (t 4) .ECF,
    .mov INTREG_RAX INTREG_RAX (t 5) .NotECF]

/-- `IDIV_%(suffix)s`; `readOp1` is what reads the divisor into `op1`. -/
def idivcode (env : EmulEnv) (readOp1 : List RegOp) (op1 : Nat) : List RegOp :=
  idivNegate ++ readOp1 ++ idivAbsolute op1 ++
    divLoop env (10 + readOp1.length) (t 2) (t 3) (t 1) (t 4) ++ idivSigns op1

def IDIV_R (env : EmulEnv) : List RegOp := idivcode env [] env.reg

/-- Nothing changed that the program can see. -/
structure Scratch (c c' : Context) : Prop where
  regs : ∀ r < numIntRegs, c'.intReg r = c.intReg r
  flags : ∀ f, f ≠ .ecf → f ≠ .ezf → c'.ccReg f = c.ccReg f
  tidy : c'.Tidy

section Microcode

variable {env : EmulEnv} {c c' c'' : Context} {i x : Nat} {carry : Bool}

theorem Scratch.trans (h : Scratch c c') (h' : Scratch c' c'') : Scratch c c'' where
  regs r hr := (h'.regs r hr).trans (h.regs r hr)
  flags f hf hf' := (h'.flags f hf hf').trans (h.flags f hf hf')
  tidy := h'.tidy

theorem Scratch.operand (h : Scratch c c') {r : Nat} (hr : r < numIntRegs) :
    X86.operand env c' r = X86.operand env c r := by
  rw [X86.operand, h.regs r hr]
  rfl

theorem Computes.scratch (he : Computes env c c' (t i) x carry) : Scratch c c' where
  regs r hr := he.regs r (Nat.ne_of_lt hr) (by
    have hle : numIntRegs ≤ t i := Nat.le_add_right _ _
    omega)
  flags := he.flags
  tidy := he.tidy

theorem Effect.scratch {val : BitVec 64} (he : Effect c c' (t i) val carry) : Scratch c c' where
  regs r hr := he.regs r (Nat.ne_of_lt hr) (by
    have hle : numIntRegs ≤ t i := Nat.le_add_right _ _
    omega)
  flags := he.flags
  tidy := he.tidy

private theorem source_t0 (env : EmulEnv) (c : Context) :
    source env c (t 0) = 0 := source_zero env c

/-- The first four microops negate the dividend, across its halves. -/
theorem negate_reaches (h : env.Sized) (htidy : c.Tidy) {ops : List RegOp}
    (hp : Piece ops 0 idivNegate) :
    ∃ c', Reaches env ops (0, c) (4, c') ∧ Scratch c c' ∧
      dividend env c' (t 2) (t 1) =
        (2 ^ (env.dataSize * 8) * 2 ^ (env.dataSize * 8) - dividend env c INTREG_RDX INTREG_RAX) %
          (2 ^ (env.dataSize * 8) * 2 ^ (env.dataSize * 8)) := by
  obtain ⟨c₁, hs₁, h₁⟩ := computes_sub h (by decide) (by decide)
    (by decide) (by decide) htidy (Or.inr rfl) (hp.get (i := 0) rfl)
  obtain ⟨c₂, hs₂, h₂⟩ := computes_ruflag h (by decide) (by decide)
    h₁.tidy (hp.get (i := 1) rfl)
  obtain ⟨c₃, hs₃, h₃⟩ := computes_sub h (by decide) (by decide)
    (by decide) (by decide) h₂.tidy (Or.inl rfl) (hp.get (i := 2) rfl)
  obtain ⟨c₄, hs₄, h₄⟩ := computes_sub h (by decide) (by decide)
    (by decide) (by decide) h₃.tidy (Or.inl rfl) (hp.get (i := 3) rfl)
  refine ⟨c₄, .tail (.tail (.tail (.single hs₁) hs₂) hs₃) hs₄,
    ((h₁.scratch.trans h₂.scratch).trans h₃.scratch).trans h₄.scratch, ?_⟩
  have hcarry : ((c₁.ccReg .ecf).getLsbD 3).toNat =
      if operand env c INTREG_RAX = 0 then 0 else 1 := by
    rw [h₁.ecf, if_neg (by decide), source_t0, source_eq (by decide)]
    by_cases hzero : operand env c INTREG_RAX = 0
    · simp [hzero]
    · simp [hzero, Nat.pos_of_ne_zero hzero]
  have ht₁ : operand env c₄ (t 1) =
      (2 ^ (env.dataSize * 8) - operand env c INTREG_RAX) % 2 ^ (env.dataSize * 8) := by
    rw [h₄.other (by decide) (by decide), h₃.other (by decide) (by decide),
      h₂.other (by decide) (by decide), h₁.out, source_t0, source_eq (by decide), Nat.zero_add]
  have ht₂ : operand env c₃ (t 2) =
      (2 ^ (env.dataSize * 8) - operand env c INTREG_RDX) % 2 ^ (env.dataSize * 8) := by
    rw [h₃.out, source_t0, source_eq (by decide), Nat.zero_add, h₂.other (by decide) (by decide),
      h₁.other (by decide) (by decide)]
  have hhigh := h₄.out
  rw [source_eq (by decide), source_eq (by decide), ht₂,
    h₃.other (r := t 4) (by decide) (by decide), h₂.out, hcarry] at hhigh
  have ha := operand_lt env c INTREG_RAX
  have hd := operand_lt env c INTREG_RDX
  rw [dividend, dividend, hhigh, ht₁]
  generalize operand env c INTREG_RAX = a at *
  generalize operand env c INTREG_RDX = d at *
  generalize 2 ^ (env.dataSize * 8) = w at *
  obtain ⟨k, hk⟩ := Nat.exists_eq_add_of_lt hd
  have hsquare : w * w = d * w + k * w + w := by
    rw [← Nat.add_mul, ← Nat.succ_mul, Nat.succ_eq_add_one, ← hk]
  by_cases hzero : a = 0
  · rw [if_pos hzero, Nat.sub_zero, Nat.add_mod_right, Nat.mod_mod, hzero, Nat.sub_zero,
      Nat.mod_self]
    by_cases hd₀ : d = 0
    · rw [hd₀, Nat.sub_zero, Nat.mod_self, Nat.zero_mul, Nat.sub_zero, Nat.mod_self]
    · have hdw : 0 < d * w := Nat.mul_pos (Nat.pos_of_ne_zero hd₀) (by omega)
      have hsub : w - d = k + 1 := by omega
      rw [hsub, Nat.mod_eq_of_lt (by omega), Nat.succ_mul, Nat.mod_eq_of_lt (by omega)]
      omega
  · have hlow : ((w - d) % w + w - 1) % w = k := by
      by_cases hd₀ : d = 0
      · rw [hd₀, Nat.sub_zero, Nat.mod_self, Nat.mod_eq_of_lt (by omega)]
        omega
      · rw [Nat.mod_eq_of_lt (by omega : w - d < w), show w - d + w - 1 = k + w by omega,
          Nat.add_mod_right, Nat.mod_eq_of_lt (by omega)]
    rw [if_neg hzero, hlow, Nat.mod_eq_of_lt (by omega : w - a < w), Nat.mod_eq_of_lt (by omega)]
    omega

/-- The next six put absolute values into the temporaries, and the sign of the dividend into the
carry. -/
theorem absolute_reaches (h : env.Sized) (htidy : c.Tidy) {ops : List RegOp} {upc op1 : Nat}
    (hop1 : op1 < 64) (hop1₀ : op1 ≠ ZeroReg) (hop1₃ : op1 ≠ t 3)
    (hp : Piece ops upc (idivAbsolute op1)) :
    ∃ c', Reaches env ops (upc, c) (upc + 6, c') ∧ Scratch c c' ∧
      operand env c' (t 3) = (if 2 ^ (env.dataSize * 8 - 1) ≤ operand env c op1 then
        (2 ^ (env.dataSize * 8) - operand env c op1) % 2 ^ (env.dataSize * 8)
        else operand env c op1) ∧
      operand env c' (t 1) = (if 2 ^ (env.dataSize * 8 - 1) ≤ operand env c INTREG_RDX then
        operand env c (t 1) else operand env c INTREG_RAX) ∧
      operand env c' (t 2) = (if 2 ^ (env.dataSize * 8 - 1) ≤ operand env c INTREG_RDX then
        operand env c (t 2) else operand env c INTREG_RDX) ∧
      (c'.ccReg .ecf).getLsbD 3 =
        decide (2 ^ (env.dataSize * 8 - 1) ≤ operand env c INTREG_RDX) := by
  obtain ⟨c₁, v₁, hs₁, h₁⟩ := step_sign h hop1 hop1₀ htidy (hp.get (i := 0) rfl)
  obtain ⟨c₂, hs₂, h₂⟩ := computes_sub h (by decide) (by decide)
    (by decide) (by omega) h₁.tidy (Or.inl rfl) (hp.get (i := 1) rfl)
  obtain ⟨c₃, hs₃, h₃⟩ := computes_mov h (by decide) (by omega)
    h₂.tidy (hp.get (i := 2) rfl) (by decide) hop1₀
  obtain ⟨c₄, v₄, hs₄, h₄⟩ := step_sign h (by decide) (by decide)
    h₃.tidy (hp.get (i := 3) rfl)
  obtain ⟨c₅, hs₅, h₅⟩ := computes_mov h (by decide) (by decide)
    h₄.tidy (hp.get (i := 4) rfl) (by decide) (by decide)
  obtain ⟨c₆, hs₆, h₆⟩ := computes_mov h (by decide) (by decide)
    h₅.tidy (hp.get (i := 5) rfl) (by decide) (by decide)
  have hrdx : operand env c₃ INTREG_RDX = operand env c INTREG_RDX := by
    rw [h₃.other (by decide) (by decide), h₂.other (by decide) (by decide),
      h₁.other (by decide) (by decide)]
  have hsign₁ : (c₂.ccReg .ecf).getLsbD 3 =
      decide (2 ^ (env.dataSize * 8 - 1) ≤ operand env c op1) := by
    rw [h₂.ecf, if_pos rfl, h₁.ecf]
  have hsign₂ : (c₄.ccReg .ecf).getLsbD 3 =
      decide (2 ^ (env.dataSize * 8 - 1) ≤ operand env c INTREG_RDX) := by
    rw [h₄.ecf, hrdx]
  refine ⟨c₆, .tail (.tail (.tail (.tail (.tail (.single hs₁) hs₂) hs₃) hs₄) hs₅) hs₆,
    (((((Effect.scratch (i := 0) h₁).trans h₂.scratch).trans h₃.scratch).trans
      (Effect.scratch (i := 0) h₄)).trans h₅.scratch).trans h₆.scratch, ?_, ?_, ?_, ?_⟩
  · rw [h₆.other (by decide) (by decide), h₅.other (by decide) (by decide),
      h₄.other (by decide) (by decide), h₃.out, hsign₁, h₂.out, source_t0, source_eq hop1₀,
      h₂.other hop1₀ hop1₃, h₁.other hop1₀ hop1₀, Nat.zero_add]
    simp only [decide_eq_true_eq]
  · rw [h₆.other (by decide) (by decide), h₅.out, hsign₂]
    simp only [decide_eq_true_eq]
    rw [h₄.other (r := t 1) (by decide) (by decide), h₃.other (r := t 1) (by decide) (by decide),
      h₂.other (r := t 1) (by decide) (by decide), h₁.other (r := t 1) (by decide) (by decide),
      h₄.other (by decide) (by decide), h₃.other (by decide) (by decide),
      h₂.other (by decide) (by decide), h₁.other (by decide) (by decide)]
  · rw [h₆.out, h₅.ecf, hsign₂]
    simp only [decide_eq_true_eq]
    rw [h₅.other (r := t 2) (by decide) (by decide), h₄.other (r := t 2) (by decide) (by decide),
      h₃.other (r := t 2) (by decide) (by decide), h₂.other (r := t 2) (by decide) (by decide),
      h₁.other (r := t 2) (by decide) (by decide), h₅.other (by decide) (by decide),
      h₄.other (by decide) (by decide), hrdx]
  · rw [h₆.ecf, h₅.ecf, hsign₂]

/-- A pair of moves on opposite conditions takes one of the two sources. -/
theorem choose_reaches (h : env.Sized) {ops : List RegOp} {upc dest a b : Nat} (htidy : c.Tidy)
    (hdest : dest < 64) (hd₀ : dest ≠ ZeroReg) (ha : a < 64) (ha₀ : a ≠ ZeroReg) (hb : b < 64)
    (hb₀ : b ≠ ZeroReg) (hbd : b ≠ dest) (h₀ : ops[upc]? = some (.mov dest dest a .ECF))
    (h₁ : ops[upc + 1]? = some (.mov dest dest b .NotECF)) :
    ∃ c', Reaches env ops (upc, c) (upc + 2, c') ∧
      Effect c c' dest (written env.dataSize (c.intReg dest) ((fieldOf env.dataSize).get
        (c.intReg (if (c.ccReg .ecf).getLsbD 3 then a else b)))) ((c.ccReg .ecf).getLsbD 3) := by
  obtain ⟨c₁, hs₁, he₁⟩ := step_mov h hdest hdest ha htidy h₀ hd₀ hd₀ ha₀
  obtain ⟨c₂, hs₂, he₂⟩ := step_mov h hdest hdest hb he₁.tidy h₁ hd₀ hd₀ hb₀
  refine ⟨c₂, .tail (.single hs₁) hs₂, fun _ => ?_, fun r hr₀ hr => ?_, ?_, fun f hf hf' => ?_,
    he₂.tidy⟩
  · have hout₁ := he₁.out hd₀
    have hout₂ := he₂.out hd₀
    rw [(checkCondition_ecf htidy).1] at hout₁
    rw [(checkCondition_ecf he₁.tidy).2, he₁.ecf] at hout₂
    rw [hout₂, hout₁, he₁.regs b hb₀ hbd]
    cases (c.ccReg .ecf).getLsbD 3 <;> rfl
  · rw [he₂.regs r hr₀ hr, he₁.regs r hr₀ hr]
  · rw [he₂.ecf, he₁.ecf]
  · rw [he₂.flags f hf hf', he₁.flags f hf hf']

/-- The value with its sign changed, or not. -/
def signedBy (w : Nat) (negative : Bool) (x : Nat) : Nat :=
  if negative then (2 ^ w - x) % 2 ^ w else x

/-- The end of the microcode unloads the results and puts the signs on. The divisor is read once
more, which may be the remainder by then. -/
theorem signs_reaches (h : env.Sized) (htidy : c.Tidy) {ops : List RegOp} {upc op1 : Nat}
    (hop1 : op1 < 64) (hop1₀ : op1 ≠ ZeroReg) (hop1₄ : op1 ≠ t 4) (hop1₅ : op1 ≠ t 5)
    (hop1₆ : op1 ≠ t 6) (hp : Piece ops upc (idivSigns op1)) :
    ∃ c' x y, Reaches env ops (upc, c) (upc + 11, c') ∧
      c'.intReg INTREG_RDX = written env.dataSize (c.intReg INTREG_RDX) x ∧
      c'.intReg INTREG_RAX = written env.dataSize (c.intReg INTREG_RAX) y ∧
      x.toNat % 2 ^ (env.dataSize * 8) = signedBy (env.dataSize * 8) ((c.ccReg .ecf).getLsbD 3)
        (operand env c Remainder) ∧
      y.toNat % 2 ^ (env.dataSize * 8) = signedBy (env.dataSize * 8)
        (decide (2 ^ (env.dataSize * 8 - 1) ≤
          if op1 = INTREG_RDX then x.toNat % 2 ^ (env.dataSize * 8)
          else operand env c op1))
        (signedBy (env.dataSize * 8) ((c.ccReg .ecf).getLsbD 3) (operand env c Quotient)) ∧
      (∀ r < numIntRegs, r ≠ INTREG_RAX → r ≠ INTREG_RDX → c'.intReg r = c.intReg r) ∧
      (∀ f, f ≠ .ecf → f ≠ .ezf → c'.ccReg f = c.ccReg f) ∧ c'.Tidy := by
  have hs₁ := step_divq h (by decide) (hp.get (i := 0) rfl) c
  have h₁ := Effect.of_setInt (by decide : t 5 < 64) htidy
    (written env.dataSize ((c.setInt ZeroReg 0).intReg (t 5)) (c.intReg Quotient))
  generalize (c.setInt ZeroReg 0).setInt (t 5) _ = c₁ at hs₁ h₁
  have hs₂ := step_divr h (by decide) (hp.get (i := 1) rfl) c₁
  have h₂ := Effect.of_setInt (by decide : t 6 < 64) h₁.tidy
    (written env.dataSize ((c₁.setInt ZeroReg 0).intReg (t 6)) (c₁.intReg Remainder))
  generalize (c₁.setInt ZeroReg 0).setInt (t 6) _ = c₂ at hs₂ h₂
  obtain ⟨c₃, hs₃, h₃⟩ := computes_sub h (by decide) (by decide)
    (by decide) (by decide) h₂.tidy (Or.inl rfl) (hp.get (i := 2) rfl)
  obtain ⟨c₅, hs₅, h₅⟩ := choose_reaches h
    h₃.tidy (by decide) (by decide) (by decide) (by decide) (by decide) (by decide) (by decide)
    (hp.get (i := 3) rfl) (hp.get (i := 4) rfl)
  obtain ⟨c₆, hs₆, h₆⟩ := computes_sub h (by decide) (by decide)
    (by decide) (by decide) h₅.tidy (Or.inl rfl) (hp.get (i := 5) rfl)
  obtain ⟨c₇, hs₇, h₇⟩ := step_mov h (by decide) (by decide)
    (by decide) h₆.tidy (hp.get (i := 6) rfl) (by decide) (by decide) (by decide)
  obtain ⟨c₈, v₈, hs₈, h₈⟩ := step_sign h hop1 hop1₀ h₇.tidy
    (hp.get (i := 7) rfl)
  obtain ⟨c₉, hs₉, h₉⟩ := computes_sub h (by decide) (by decide)
    (by decide) (by decide) h₈.tidy (Or.inl rfl) (hp.get (i := 8) rfl)
  obtain ⟨c₁₁, hs₁₁, h₁₁⟩ := choose_reaches h
    h₉.tidy (by decide) (by decide) (by decide) (by decide) (by decide) (by decide) (by decide)
    (hp.get (i := 9) rfl) (hp.get (i := 10) rfl)
  have hq : operand env c₁ (t 5) = operand env c Quotient := by
    rw [operand, h₁.out (by decide), toNat_written h]
    rfl
  have hr : operand env c₂ (t 6) = operand env c Remainder := by
    rw [operand, h₂.out (by decide), toNat_written h, h₁.regs _ (by decide) (by decide)]
    rfl
  have hs₃' : (c₃.ccReg .ecf).getLsbD 3 = (c.ccReg .ecf).getLsbD 3 := by
    rw [h₃.ecf, if_pos rfl, h₂.ecf, h₁.ecf]
  rw [hs₃'] at h₅
  generalize hx : (fieldOf env.dataSize).get
    (c₃.intReg (if (c.ccReg .ecf).getLsbD 3 then t 4 else t 6)) = x at h₅
  have hxval : x.toNat % 2 ^ (env.dataSize * 8) = signedBy (env.dataSize * 8)
      ((c.ccReg .ecf).getLsbD 3) (operand env c Remainder) := by
    rw [← hx, toNat_pick h, Nat.mod_mod, signedBy]
    cases (c.ccReg .ecf).getLsbD 3 with
    | true =>
        change operand env c₃ (t 4) = _
        rw [h₃.out, source_t0, source_eq (by decide), hr, Nat.zero_add, if_pos rfl]
    | false =>
        change operand env c₃ (t 6) = _
        rw [h₃.other (by decide) (by decide), hr, if_neg (by decide)]
  have hrdx : c₅.intReg INTREG_RDX = written env.dataSize (c.intReg INTREG_RDX) x := by
    rw [h₅.out (by decide), h₃.regs _ (by decide) (by decide), h₂.regs _ (by decide) (by decide),
      h₁.regs _ (by decide) (by decide)]
  have hs₆' : (c₆.ccReg .ecf).getLsbD 3 = (c.ccReg .ecf).getLsbD 3 := by
    rw [h₆.ecf, if_pos rfl, h₅.ecf]
  have hq₅ : operand env c₅ (t 5) = operand env c Quotient := by
    rw [h₅.other (by decide) (by decide), h₃.other (by decide) (by decide),
      h₂.other (by decide) (by decide), hq]
  have hq₇ : operand env c₇ (t 5) = signedBy (env.dataSize * 8) ((c.ccReg .ecf).getLsbD 3)
      (operand env c Quotient) := by
    rw [operand, h₇.out (by decide), (checkCondition_ecf h₆.tidy).1, hs₆', signedBy]
    cases (c.ccReg .ecf).getLsbD 3 with
    | true =>
        rw [if_pos rfl, if_pos rfl, toNat_written h, toNat_pick h, Nat.mod_mod]
        change operand env c₆ (t 4) = _
        rw [h₆.out, source_t0, source_eq (by decide), hq₅, Nat.zero_add]
    | false =>
        rw [if_neg (by decide), if_neg (by decide)]
        change operand env c₆ (t 5) = _
        rw [h₆.other (by decide) (by decide), hq₅]
  have hdv : operand env c₇ op1 = if op1 = INTREG_RDX then
      x.toNat % 2 ^ (env.dataSize * 8) else operand env c op1 := by
    rw [h₇.other hop1₀ hop1₅, h₆.other hop1₀ hop1₄]
    split_ifs with hrd
    · rw [hrd, operand, hrdx, toNat_written h]
    · rw [h₅.other hop1₀ hrd, h₃.other hop1₀ hop1₄, h₂.other hop1₀ hop1₆,
        h₁.other hop1₀ hop1₅]
  have hs₉' : (c₉.ccReg .ecf).getLsbD 3 = decide (2 ^ (env.dataSize * 8 - 1) ≤
      if op1 = INTREG_RDX then x.toNat % 2 ^ (env.dataSize * 8)
      else operand env c op1) := by
    rw [h₉.ecf, if_pos rfl, h₈.ecf, hdv]
  generalize (c₉.ccReg .ecf).getLsbD 3 = negative at hs₉' h₁₁
  generalize hy : (fieldOf env.dataSize).get (c₉.intReg (if negative then t 4 else t 5)) = y at h₁₁
  have hyval : y.toNat % 2 ^ (env.dataSize * 8) = signedBy (env.dataSize * 8) negative
      (operand env c₇ (t 5)) := by
    rw [← hy, toNat_pick h, Nat.mod_mod, signedBy]
    cases negative with
    | true =>
        change operand env c₉ (t 4) = _
        rw [h₉.out, source_t0, source_eq (by decide), h₈.other (by decide) (by decide),
          Nat.zero_add, if_pos rfl]
    | false =>
        change operand env c₉ (t 5) = _
        rw [h₉.other (by decide) (by decide), h₈.other (by decide) (by decide),
          if_neg (by decide)]
  have hkept {r : Nat} (hr : r < numIntRegs) (hrdx : r ≠ INTREG_RDX) :
      c₉.intReg r = c.intReg r := by
    have hr₀ : r ≠ ZeroReg := Nat.ne_of_lt hr
    have hrt (i : Nat) : r ≠ t i := Nat.ne_of_lt (hr.trans_le (Nat.le_add_right _ _))
    rw [h₉.regs r hr₀ (hrt 4), h₈.regs r hr₀ hr₀, h₇.regs r hr₀ (hrt 5), h₆.regs r hr₀ (hrt 4),
      h₅.regs r hr₀ hrdx, h₃.regs r hr₀ (hrt 4), h₂.regs r hr₀ (hrt 6), h₁.regs r hr₀ (hrt 5)]
  have hstart : Reaches env ops (upc, c) (upc + 3, c₃) := .tail (.tail (.single hs₁) hs₂) hs₃
  have hmid : Reaches env ops (upc + 5, c₅) (upc + 9, c₉) :=
    .tail (.tail (.tail (.single hs₆) hs₇) hs₈) hs₉
  refine ⟨c₁₁, x, y, ((hstart.trans hs₅).trans hmid).trans hs₁₁, ?_, ?_, hxval, ?_, ?_, ?_,
    h₁₁.tidy⟩
  · rw [h₁₁.regs _ (by decide) (by decide), h₉.regs _ (by decide) (by decide),
      h₈.regs _ (by decide) (by decide), h₇.regs _ (by decide) (by decide),
      h₆.regs _ (by decide) (by decide), hrdx]
  · rw [h₁₁.out (by decide), hkept (by decide) (by decide)]
  · rw [hyval, hq₇, hs₉']
  · intro r hr hrax hrdx
    rw [h₁₁.regs r (Nat.ne_of_lt hr) hrax, hkept hr hrdx]
  · intro f hf hf'
    rw [h₁₁.flags f hf hf', h₉.flags f hf hf', h₈.flags f hf hf', h₇.flags f hf hf',
      h₆.flags f hf hf', h₅.flags f hf hf', h₃.flags f hf hf', h₂.flags f hf hf',
      h₁.flags f hf hf']

end Microcode

/-- The value of the register's operand, with its sign. -/
def signedOperand (env : EmulEnv) (c : Context) (r : Nat) : Int :=
  (operand env c r : Int).bmod (2 ^ (env.dataSize * 8))

/-- The value of a dividend in two registers, with its sign. -/
def signedDividend (env : EmulEnv) (c : Context) (hi lo : Nat) : Int :=
  (dividend env c hi lo : Int).bmod (2 ^ (env.dataSize * 8) * 2 ^ (env.dataSize * 8))

private theorem bmod_eq {x m : Nat} (hx : x < 2 * m) :
    (x : Int).bmod (2 * m) = if m ≤ x then -((2 * m - x : Nat) : Int) else (x : Int) := by
  have hmod : (x : Int) % ((2 * m : Nat) : Int) = x := by
    rw [← Int.natCast_emod, Nat.mod_eq_of_lt hx]
  rw [Int.bmod_def, hmod]
  split_ifs <;> omega

private theorem signedBy_emod (w : Nat) (negative : Bool) (z : Int) :
    (signedBy w negative (z % 2 ^ w).toNat : Int) = (if negative then -z else z) % 2 ^ w := by
  have hpos : (0 : Int) < 2 ^ w := by positivity
  have hnonneg := Int.emod_nonneg z hpos.ne'
  have hlt := Int.emod_lt_of_pos z hpos
  cases negative with
  | false =>
      rw [signedBy, if_neg (by decide), if_neg (by decide), Int.toNat_of_nonneg hnonneg]
  | true =>
      rw [signedBy, if_pos rfl, if_pos rfl, Int.natCast_emod, Nat.cast_sub (by zify; omega)]
      push_cast
      rw [Int.toNat_of_nonneg hnonneg]
      rw [Int.sub_emod_emod, Int.sub_eq_add_neg, Int.add_emod_left]

theorem signedBy_mod (w : Nat) (negative : Bool) (n : Nat) :
    (signedBy w negative (n % 2 ^ w) : Int) = (if negative then -(n : Int) else n) % 2 ^ w := by
  have hn : n % 2 ^ w = ((n : Int) % 2 ^ w).toNat := by
    have hcast : ((n : Int) % 2 ^ w) = ((n % 2 ^ w : Nat) : Int) := by
      push_cast
      rfl
    rw [hcast, Int.toNat_natCast]
  rw [hn, signedBy_emod]

theorem signedBy_signedBy (w : Nat) (negative negative' : Bool) (n : Nat) :
    (signedBy w negative' (signedBy w negative (n % 2 ^ w)) : Int) =
      (if negative' then -(if negative then -(n : Int) else n)
        else if negative then -(n : Int) else n) % 2 ^ w := by
  have hinner : signedBy w negative (n % 2 ^ w) =
      ((if negative then -(n : Int) else n) % 2 ^ w).toNat := by
    rw [← signedBy_mod, Int.toNat_natCast]
  rw [hinner, signedBy_emod]

theorem toNat_ofInt_mod {w : Nat} (hw : w ≤ 64) (z : Int) :
    (((BitVec.ofInt 64 z).toNat % 2 ^ w : Nat) : Int) = z % 2 ^ w := by
  have hdvd : (2 : Int) ^ w ∣ 2 ^ 64 := pow_dvd_pow 2 hw
  rw [BitVec.toNat_ofInt, Int.natCast_emod, Int.toNat_of_nonneg (Int.emod_nonneg _ (by decide))]
  simp only [Nat.cast_pow, Nat.cast_ofNat]
  exact Int.emod_emod_of_dvd _ hdvd

section Result

variable {env : EmulEnv} (h : env.Sized) {c : Context}

include h

/-- A value whose operand is that of an integer is written as that integer. -/
theorem written_ofInt (into : BitVec 64) {val : BitVec 64} {z : Int}
    (hval : ((val.toNat % 2 ^ (env.dataSize * 8) : Nat) : Int) = z % 2 ^ (env.dataSize * 8)) :
    written env.dataSize into val = written env.dataSize into (BitVec.ofInt 64 z) := by
  apply written_congr h
  have heq := hval.trans (toNat_ofInt_mod h.width.2 z).symm
  exact_mod_cast heq

omit h in
theorem half_pow {w : Nat} (hw : 0 < w) : 2 ^ w = 2 * 2 ^ (w - 1) := by
  rw [← Nat.pow_succ']
  congr 1
  omega

theorem EmulEnv.Sized.half :
    2 ^ (env.dataSize * 8) = 2 * 2 ^ (env.dataSize * 8 - 1) :=
  half_pow (by have := h.width; omega)

theorem bmod_width {x : Nat} (hx : x < 2 ^ (env.dataSize * 8)) :
    (x : Int).bmod (2 ^ (env.dataSize * 8)) = if 2 ^ (env.dataSize * 8 - 1) ≤ x then
      -((2 ^ (env.dataSize * 8) - x : Nat) : Int) else x := by
  rw [h.half] at hx
  have heq := bmod_eq hx
  rw [← h.half] at heq
  exact heq

theorem signedOperand_eq (r : Nat) :
    signedOperand env c r = if 2 ^ (env.dataSize * 8 - 1) ≤ operand env c r then
      -((2 ^ (env.dataSize * 8) - operand env c r : Nat) : Int) else operand env c r :=
  bmod_width h (operand_lt env c r)

theorem signedDividend_eq (hi lo : Nat) :
    signedDividend env c hi lo = if 2 ^ (env.dataSize * 8 - 1) ≤ operand env c hi then
      -((2 ^ (env.dataSize * 8) * 2 ^ (env.dataSize * 8) - dividend env c hi lo : Nat) : Int)
      else dividend env c hi lo := by
  have hhi := operand_lt env c hi
  have hlo := operand_lt env c lo
  have hpow := h.half
  rw [signedDividend]
  change Int.bmod _ (2 ^ (env.dataSize * 8) * 2 ^ (env.dataSize * 8) : Nat) = _
  rw [dividend]
  generalize operand env c hi = x at *
  generalize operand env c lo = y at *
  generalize hhalf : 2 ^ (env.dataSize * 8 - 1) = m at *
  generalize 2 ^ (env.dataSize * 8) = w at *
  have hstep {k : Nat} (hk : x < k) : x * w + y < k * w := by
    have hle : (x + 1) * w ≤ k * w := Nat.mul_le_mul_right _ hk
    rw [Nat.succ_mul] at hle
    omega
  have hdouble : w * w = 2 * (m * w) := by
    rw [← Nat.mul_assoc, ← hpow]
  have hlt : x * w + y < 2 * (m * w) := hdouble ▸ hstep hhi
  have hiff : m * w ≤ x * w + y ↔ m ≤ x := by
    constructor
    · intro hle
      by_contra hx
      have := hstep (Nat.not_le.mp hx)
      omega
    · intro hle
      have := Nat.mul_le_mul_right w hle
      omega
  have heq := bmod_eq hlt
  rw [← hdouble] at heq
  rw [heq]
  simp only [hiff]

omit h in
theorem dividend_lt (env : EmulEnv) (c : Context) (hi lo : Nat) :
    dividend env c hi lo < 2 ^ (env.dataSize * 8) * 2 ^ (env.dataSize * 8) := by
  have hhi := Nat.mul_le_mul_right (2 ^ (env.dataSize * 8)) (operand_lt env c hi)
  have hlo := operand_lt env c lo
  rw [Nat.succ_mul] at hhi
  rw [dividend]
  omega

omit h in
theorem dividend_pos {hi lo : Nat} (hhi : 0 < operand env c hi) : 0 < dividend env c hi lo :=
  Nat.add_pos_left (Nat.mul_pos hhi (Nat.two_pow_pos _)) _

theorem signedDividend_neg_iff (hi lo : Nat) :
    signedDividend env c hi lo < 0 ↔ 2 ^ (env.dataSize * 8 - 1) ≤ operand env c hi := by
  have hlt := dividend_lt env c hi lo
  rw [signedDividend_eq h]
  split_ifs with hle
  · exact iff_of_true (by omega) hle
  · exact iff_of_false (by omega) hle

omit h in
/-- The operand of the remainder's register is negative unless the remainder is nought. -/
theorem signedBy_neg_le {w r d : Nat} (hw : 0 < w) (hr : r < d) (hd : d ≤ 2 ^ (w - 1)) :
    2 ^ (w - 1) ≤ signedBy w true r ↔ r ≠ 0 := by
  have hpow := half_pow hw
  rw [signedBy, if_pos rfl]
  constructor
  · rintro hle rfl
    rw [Nat.sub_zero, Nat.mod_self] at hle
    have := Nat.two_pow_pos (w - 1)
    omega
  · intro hne
    rw [Nat.mod_eq_of_lt (by omega)]
    omega

omit h in
theorem tdiv_signs (negative negative' : Bool) (a b : Nat) :
    (if negative then -(a : Int) else a).tdiv (if negative' then -(b : Int) else b) =
      if negative' then -(if negative then -((a / b : Nat) : Int) else (a / b : Nat))
      else if negative then -((a / b : Nat) : Int) else (a / b : Nat) := by
  cases negative <;> cases negative' <;> simp

omit h in
theorem tmod_signs (negative negative' : Bool) (a b : Nat) :
    (if negative then -(a : Int) else a).tmod (if negative' then -(b : Int) else b) =
      if negative then -((a % b : Nat) : Int) else (a % b : Nat) := by
  rw [Int.ofNat_tmod]
  cases negative <;> cases negative' <;> simp

/-- Where the divisor is `rdx`, it has the sign of the dividend; its sign is read again from the
remainder. -/
def idivQuotient (env : EmulEnv) (dividend divisor : Int) : Int :=
  if (env.reg : Nat) = INTREG_RDX ∧ dividend < 0 ∧ dividend.tmod divisor = 0 then
    -dividend.tdiv divisor
  else dividend.tdiv divisor

omit h in
theorem idivcode_pieces (env : EmulEnv) (readOp1 : List RegOp) (op1 : Nat) :
    Piece (idivcode env readOp1 op1) 0 idivNegate ∧
      Piece (idivcode env readOp1 op1) (4 + readOp1.length) (idivAbsolute op1) ∧
      Piece (idivcode env readOp1 op1) (10 + readOp1.length)
        (divLoop env (10 + readOp1.length) (t 2) (t 3) (t 1) (t 4)) ∧
      Piece (idivcode env readOp1 op1) (18 + readOp1.length) (idivSigns op1) := by
  have hlen : (idivNegate ++ readOp1).length = 4 + readOp1.length := by
    rw [List.length_append]
    rfl
  have hlen' : (idivNegate ++ readOp1 ++ idivAbsolute op1).length = 10 + readOp1.length := by
    rw [List.length_append, hlen]
    change 4 + readOp1.length + 6 = _
    omega
  rw [idivcode]
  generalize hloop : divLoop env (10 + readOp1.length) (t 2) (t 3) (t 1) (t 4) = loop
  refine ⟨⟨[], readOp1 ++ (idivAbsolute op1 ++ (loop ++ idivSigns op1)), ?_, rfl⟩,
    ⟨idivNegate ++ readOp1, loop ++ idivSigns op1, ?_, hlen⟩, ⟨_, _, rfl, hlen'⟩,
    ⟨idivNegate ++ readOp1 ++ idivAbsolute op1 ++ loop, [], (List.append_nil _).symm, ?_⟩⟩
  · simp only [List.nil_append, List.append_assoc]
  · simp only [List.append_assoc]
  · rw [List.length_append, hlen', ← hloop]
    change 10 + readOp1.length + 8 = _
    omega

omit h in
theorem idiv_loopRegs : LoopRegs (t 1) (t 4) := by
  constructor <;> decide

omit h in
private theorem reg_free (env : EmulEnv) :
    (env.reg : Nat) < 64 ∧ (env.reg : Nat) ≠ ZeroReg ∧ ∀ i, (env.reg : Nat) ≠ t i := by
  have hreg : (env.reg : Nat) < 16 := env.reg.isLt
  exact ⟨by omega, Nat.ne_of_lt hreg, fun i => Nat.ne_of_lt (hreg.trans_le (Nat.le_add_right _ _))⟩

private theorem idiv_reaches (htidy : c.Tidy) (hne : operand env c env.reg ≠ 0) :
    ∃ c', Reaches env (IDIV_R env) (0, c) (29, c') ∧ DivisionResult env c c'
      (idivQuotient env (signedDividend env c INTREG_RDX INTREG_RAX)
        (signedOperand env c env.reg))
      ((signedDividend env c INTREG_RDX INTREG_RAX).tmod (signedOperand env c env.reg)) := by
  obtain ⟨hreg64, hreg₀, hregt⟩ := reg_free env
  obtain ⟨hp₀, hp₄, hp₁₀, hp₁₈⟩ := idivcode_pieces env [] env.reg
  obtain ⟨c₁, hrun₁, hc₁, hneg⟩ := negate_reaches h htidy hp₀
  obtain ⟨c₂, hrun₂, hc₂, hdv, hlo, hhi, hsign⟩ :=
    absolute_reaches h hc₁.tidy hreg64 hreg₀ (hregt 3) hp₄
  have hdividend : dividend env c₂ (t 2) (t 1) =
      if 2 ^ (env.dataSize * 8 - 1) ≤ operand env c₁ INTREG_RDX then dividend env c₁ (t 2) (t 1)
      else dividend env c₁ INTREG_RDX INTREG_RAX := by
    rw [dividend, hlo, hhi]
    split_ifs <;> rfl
  have hrdx : operand env c₁ INTREG_RDX = operand env c INTREG_RDX := hc₁.operand (by decide)
  have hrax : operand env c₁ INTREG_RAX = operand env c INTREG_RAX := hc₁.operand (by decide)
  have hreg : operand env c₁ env.reg = operand env c env.reg := hc₁.operand env.reg.isLt
  have hsame : dividend env c₁ INTREG_RDX INTREG_RAX = dividend env c INTREG_RDX INTREG_RAX := by
    rw [dividend, hrdx, hrax]
    rfl
  rw [hreg] at hdv
  rw [hrdx, hsame, hneg] at hdividend
  rw [hrdx] at hsign
  have hpow := h.half
  have hhalf := Nat.two_pow_pos (env.dataSize * 8 - 1)
  have hD := signedDividend_eq (c := c) h INTREG_RDX INTREG_RAX
  have hB := signedOperand_eq (c := c) h env.reg
  have hblt := operand_lt env c env.reg
  have hdlt := operand_lt env c INTREG_RDX
  generalize hA : dividend env c₂ (t 2) (t 1) = A at *
  generalize hb : operand env c₂ (t 3) = b at *
  have hN (hle : 2 ^ (env.dataSize * 8 - 1) ≤ operand env c INTREG_RDX) :
      0 < dividend env c INTREG_RDX INTREG_RAX :=
    dividend_pos (hhalf.trans_le hle)
  have hsquare := dividend_lt env c INTREG_RDX INTREG_RAX
  have hDA : signedDividend env c INTREG_RDX INTREG_RAX =
      if decide (2 ^ (env.dataSize * 8 - 1) ≤ operand env c INTREG_RDX) then -(A : Int) else A := by
    rw [hD, hdividend]
    simp only [decide_eq_true_eq]
    split_ifs with hle
    · have hpos := hN hle
      rw [Nat.mod_eq_of_lt (by omega)]
    · rfl
  have hApos (hle : 2 ^ (env.dataSize * 8 - 1) ≤ operand env c INTREG_RDX) : 0 < A := by
    have hpos := hN hle
    rw [hdividend, if_pos hle, Nat.mod_eq_of_lt (by omega)]
    omega
  have hBb : signedOperand env c env.reg =
      if decide (2 ^ (env.dataSize * 8 - 1) ≤ operand env c env.reg) then -(b : Int) else b := by
    rw [hB, hdv]
    simp only [decide_eq_true_eq]
    split_ifs with hle
    · rw [Nat.mod_eq_of_lt (by omega)]
    · rfl
  have hb₀ : b ≠ 0 ∧ b ≤ 2 ^ (env.dataSize * 8 - 1) := by
    rw [hdv]
    split_ifs with hle
    · rw [Nat.mod_eq_of_lt (by omega)]
      omega
    · omega
  obtain ⟨c₃, hrun₃, hc₃⟩ := (divLoop_reaches h idiv_loopRegs (by decide) (by decide) (by decide)
    (by decide) hp₁₀ hc₂.tidy).2 (by rw [hb]; exact hb₀.1)
  rw [hA, hb] at hc₃
  change Reaches env (IDIV_R env) (10, c₂) (18, c₃) at hrun₃
  obtain ⟨c₄, x, y, hrun₄, hx, hy, hxval, hyval, hregs₄, hflags₄, htidy₄⟩ :=
    signs_reaches h hc₃.tidy hreg64 hreg₀ (hregt 4) (hregt 5) (hregt 6) hp₁₈
  have hsign₃ : (c₃.ccReg .ecf).getLsbD 3 =
      decide (2 ^ (env.dataSize * 8 - 1) ≤ operand env c INTREG_RDX) := by
    rw [hc₃.flags .ecf (by decide), hsign]
  have hkept {r : Nat} (hr : r < numIntRegs) : c₃.intReg r = c.intReg r := by
    rw [hc₃.kept hr (by decide), hc₂.regs r hr, hc₁.regs r hr]
  have hreg₃ : operand env c₃ env.reg = operand env c env.reg := by
    rw [operand, hkept env.reg.isLt]
    rfl
  have hrem : operand env c₃ Remainder = A % b % 2 ^ (env.dataSize * 8) := by
    rw [operand, hc₃.remainder]
  have hquot : operand env c₃ Quotient = A / b % 2 ^ (env.dataSize * 8) := by
    rw [operand, hc₃.quotient, Nat.mod_mod_of_dvd _ (Nat.pow_dvd_pow 2 h.width.2)]
  have hremlt : A % b < b := Nat.mod_lt _ (Nat.pos_of_ne_zero hb₀.1)
  rw [hsign₃, hrem] at hxval
  rw [hsign₃, hquot, hreg₃] at hyval
  refine ⟨c₄, ((hrun₁.trans hrun₂).trans hrun₃).trans hrun₄, ?_, ?_, ?_, ?_, htidy₄⟩
  · rw [hy, hkept (by decide)]
    apply written_ofInt h
    rw [hyval, signedBy_signedBy]
    congr 1
    rw [idivQuotient, hDA, hBb, tdiv_signs, tmod_signs]
    by_cases hrd : (env.reg : Nat) = INTREG_RDX
    · rw [if_pos hrd, hxval, Nat.mod_eq_of_lt (by omega : A % b < 2 ^ (env.dataSize * 8)), hrd]
      by_cases hS : 2 ^ (env.dataSize * 8 - 1) ≤ operand env c INTREG_RDX
      · have hneg := signedBy_neg_le (by have := h.width; omega) hremlt hb₀.2
        have hpos := hApos hS
        simp only [hS, decide_true, if_true, hneg, true_and]
        by_cases hzero : A % b = 0
        · simp [hzero, hpos]
        · have hne' : ((A % b : Nat) : Int) ≠ 0 := by exact_mod_cast hzero
          simp only [hzero, not_false_eq_true, decide_true, if_true, ne_eq, neg_eq_zero, hne',
            and_false, if_false]
      · have hnot : ¬ 2 ^ (env.dataSize * 8 - 1) ≤ A % b := by omega
        have hnonneg : ¬ (A : Int) < 0 := by omega
        simp [hS, signedBy, hnot, hnonneg]
    · simp only [hrd, if_false, false_and]
  · rw [hx, hkept (by decide)]
    apply written_ofInt h
    rw [hxval, signedBy_mod, hDA, hBb, tmod_signs]
  · intro r hr hrax hrdx
    rw [hregs₄ r hr hrax hrdx, hkept hr]
  · intro f hf hf'
    rw [hflags₄ f hf hf', hc₃.flags f hf', hc₂.flags f hf hf', hc₁.flags f hf hf']

/-- `IDIV`, whatever the operands: a fault when the divisor is nought, and otherwise the quotient
rounded towards nought and the remainder with the sign of the dividend, both cut. Only with the
divisor in `rdx` and a negative dividend that it divides is the quotient's sign wrong. -/
theorem idiv_divides (htidy : c.Tidy) :
    (operand env c env.reg = 0 →
      ∃ n, ∀ m ≥ n, execute env (IDIV_R env) m 0 c = some (.error .DivideError)) ∧
    (operand env c env.reg ≠ 0 → ∃ c',
      (∃ n, ∀ m ≥ n, execute env (IDIV_R env) m 0 c = some (.ok c')) ∧
        DivisionResult env c c'
          (idivQuotient env (signedDividend env c INTREG_RDX INTREG_RAX)
            (signedOperand env c env.reg))
          ((signedDividend env c INTREG_RDX INTREG_RAX).tmod (signedOperand env c env.reg))) := by
  constructor
  · intro hzero
    obtain ⟨hreg, hreg₀, hregt⟩ := reg_free env
    obtain ⟨hp₀, hp₄, hp₁₀, -⟩ := idivcode_pieces env [] env.reg
    obtain ⟨c₁, hrun₁, hc₁, -⟩ := negate_reaches h htidy hp₀
    obtain ⟨c₂, hrun₂, hc₂, hdv, -⟩ := absolute_reaches h hc₁.tidy hreg hreg₀ (hregt 3) hp₄
    have hhalf := Nat.two_pow_pos (env.dataSize * 8 - 1)
    rw [hc₁.operand env.reg.isLt, hzero, if_neg (by omega)] at hdv
    have hfault := (divLoop_reaches h idiv_loopRegs (by decide) (by decide) (by decide) (by decide)
      hp₁₀ hc₂.tidy).1 hdv
    exact execute_of_fault (s := (0, c)) (hrun₁.trans hrun₂) hfault
  · intro hne
    obtain ⟨c', hrun, hresult⟩ := idiv_reaches h htidy hne
    exact ⟨c', execute_of_reaches hrun, hresult⟩

end Result

/-- Minus five by minus one, with the divisor in `rdx`. -/
theorem idiv_divides_rdx :
    let env : EmulEnv := { reg := 2, regm := 0, dataSize := 4 }
    let c : Context := ⟨fun r => if r = 2 then 0xffffffff else 0xfffffffb, fun _ => 0⟩
    signedDividend env c INTREG_RDX INTREG_RAX = -5 ∧ signedOperand env c env.reg = -1 ∧
      ∃ n c', execute env (IDIV_R env) n 0 c = some (.ok c') ∧
        signedOperand env c' INTREG_RAX = -5 ∧ signedOperand env c' INTREG_RDX = 0 := by
  intro env c
  have htidy : c.Tidy := fun f => by cases f <;> decide
  have hsized : env.Sized := Or.inr (Or.inl rfl)
  obtain ⟨c', ⟨n, hn⟩, hresult⟩ := (idiv_divides hsized htidy).2 (by decide)
  refine ⟨by decide, by decide, n, c', hn n le_rfl, ?_, ?_⟩
  · rw [signedOperand, operand, hresult.rax]
    decide
  · rw [signedOperand, operand, hresult.rdx]
    decide

end ModernArch.X86
