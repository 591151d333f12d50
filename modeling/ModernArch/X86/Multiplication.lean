import ModernArch.X86.SignedDivision
import ModernArch.Framework.HalfProducts

/-!
# Multiplication

`Mul1u` and `Mul1s` put the upper half of a product together from products of halves. At eight
bytes the sum of the middle ones can leave the word, and the upper half is then short by `2 ^ 32`.
-/

namespace ModernArch.X86
open Framework
open Sim (mask bits)

/-- What the upper half of the product lacks. -/
def shortBy (env : EmulEnv) (a b : Nat) : Nat :=
  if 2 ^ 64 ≤ middle (2 ^ (env.dataSize * 8 / 2)) a b then 2 ^ 32 else 0

section Halves

variable {env : EmulEnv} (h : env.Sized) {a b : Nat}

include h

private theorem half_square : 2 ^ (env.dataSize * 8 / 2) * 2 ^ (env.dataSize * 8 / 2) =
    2 ^ (env.dataSize * 8) := by
  rw [← Nat.pow_add]
  congr 1
  rcases h with h | h | h <;> omega

/-- Only eight bytes have room for a middle sum that is too large. -/
theorem half_of_wide (ha : a < 2 ^ (env.dataSize * 8)) (hb : b < 2 ^ (env.dataSize * 8))
    (hwide : 2 ^ 64 ≤ middle (2 ^ (env.dataSize * 8 / 2)) a b) : env.dataSize = 8 := by
  have hlt := middle_lt (s := 2 ^ (env.dataSize * 8 / 2)) (Nat.two_pow_pos _)
    (half_square h ▸ ha) (half_square h ▸ hb)
  rw [half_square h] at hlt
  rcases h with h | h | h
  · rw [h] at hlt hwide
    omega
  · rw [h] at hlt hwide
    omega
  · exact h

private theorem toNat_mulHigh {psrc1 op2 : BitVec 64} (ha : psrc1.toNat = a) (hb : op2.toNat = b)
    (halt : a < 2 ^ (env.dataSize * 8)) (hblt : b < 2 ^ (env.dataSize * 8)) :
    (mulHigh env.dataSize psrc1 op2).toNat = a * b / 2 ^ (env.dataSize * 8) - shortBy env a b := by
  have hsquare := half_square h
  have hwidth := h.width
  have hpow : 2 ^ (env.dataSize * 8) ≤ 2 ^ 64 := Nat.pow_le_pow_right (by decide) hwidth.2
  have hshifter : (1#64 <<< (env.dataSize * 8 / 2)).toNat = 2 ^ (env.dataSize * 8 / 2) := by
    have hone : (1#64).toNat = 1 := rfl
    rw [BitVec.toNat_shiftLeft, hone, Nat.one_shiftLeft,
      Nat.mod_eq_of_lt (Nat.pow_lt_pow_right (by decide) (by omega))]
  have hwide := half_of_wide h halt hblt
  have hmiddle := middle_lt (s := 2 ^ (env.dataSize * 8 / 2)) (Nat.two_pow_pos _)
    (hsquare ▸ halt) (hsquare ▸ hblt)
  have hupper := upper_half (a := a) (b := b) (Nat.two_pow_pos (env.dataSize * 8 / 2))
  have hresult : a * b / 2 ^ (env.dataSize * 8) < 2 ^ (env.dataSize * 8) :=
    Nat.div_lt_of_lt_mul (Nat.mul_lt_mul'' halt hblt)
  have hbh : b / 2 ^ (env.dataSize * 8 / 2) < 2 ^ (env.dataSize * 8 / 2) := by
    rw [Nat.div_lt_iff_lt_mul (Nat.two_pow_pos _), hsquare]
    exact hblt
  have hah : a / 2 ^ (env.dataSize * 8 / 2) < 2 ^ (env.dataSize * 8 / 2) := by
    rw [Nat.div_lt_iff_lt_mul (Nat.two_pow_pos _), hsquare]
    exact halt
  have hal := Nat.mod_lt a (Nat.two_pow_pos (env.dataSize * 8 / 2))
  have hbl := Nat.mod_lt b (Nat.two_pow_pos (env.dataSize * 8 / 2))
  have hlow {x y : Nat} (hx : x < 2 ^ (env.dataSize * 8 / 2))
      (hy : y < 2 ^ (env.dataSize * 8 / 2)) : x * y % 2 ^ 64 = x * y := by
    apply Nat.mod_eq_of_lt
    have := Nat.mul_lt_mul'' hx hy
    omega
  simp only [mulHigh, BitVec.toNat_add, BitVec.toNat_mul, BitVec.toNat_udiv, hshifter, ha, hb,
    toNat_and_mask _ (by omega : env.dataSize * 8 / 2 ≤ 64), Nat.mod_eq_of_lt hbh, hlow hal hbh,
    hlow hah hbl, hlow hal hbl, hlow hah hbh, Nat.mod_add_mod]
  rw [← hsquare, hupper, shortBy]
  change (middle (2 ^ (env.dataSize * 8 / 2)) a b % 2 ^ 64 / _ + _) % _ = _
  rw [← hsquare, hupper] at hresult
  split_ifs with hbig
  · have hsize := hwide hbig
    have hs : 2 ^ (env.dataSize * 8 / 2) = 2 ^ 32 := by rw [hsize]
    generalize 2 ^ (env.dataSize * 8 / 2) = s at *
    subst hs
    omega
  · rw [Nat.mod_eq_of_lt (Nat.not_le.mp hbig), Nat.sub_zero, Nat.mod_eq_of_lt (by omega)]

/-- The lack is a part of what there is, and not a multiple of the operand's range. -/
theorem shortBy_le (ha : a < 2 ^ (env.dataSize * 8)) (hb : b < 2 ^ (env.dataSize * 8)) :
    shortBy env a b ≤ a * b / 2 ^ (env.dataSize * 8) ∧
      shortBy env a b < 2 ^ (env.dataSize * 8) := by
  rw [shortBy]
  split_ifs with hbig
  · have hsize := half_of_wide h ha hb hbig
    have hupper := upper_half (a := a) (b := b) (Nat.two_pow_pos (env.dataSize * 8 / 2))
    rw [half_square h] at hupper
    rw [hupper]
    have hs : 2 ^ (env.dataSize * 8 / 2) = 2 ^ 32 := by rw [hsize]
    have hw : 2 ^ (env.dataSize * 8) = 2 ^ 64 := by rw [hsize]
    generalize 2 ^ (env.dataSize * 8 / 2) = s at *
    subst hs
    omega
  · exact ⟨Nat.zero_le _, Nat.two_pow_pos _⟩

private theorem mulHigh_eq_zero (ha : a < 2 ^ (env.dataSize * 8))
    (hb : b < 2 ^ (env.dataSize * 8)) :
    a * b / 2 ^ (env.dataSize * 8) - shortBy env a b = 0 ↔ a * b < 2 ^ (env.dataSize * 8) := by
  have hpos := Nat.two_pow_pos (env.dataSize * 8)
  rw [← Nat.div_eq_zero_iff_lt hpos, shortBy]
  split_ifs with hbig
  · have hsize := half_of_wide h ha hb hbig
    have hhalves : 0 < (a / 2 ^ (env.dataSize * 8 / 2)) * (b / 2 ^ (env.dataSize * 8 / 2)) := by
      apply Nat.pos_of_ne_zero
      intro hzero
      have hlt := middle_lt_of_zero (Nat.two_pow_pos (env.dataSize * 8 / 2)) (half_square h ▸ ha)
        (half_square h ▸ hb) hzero
      rw [half_square h, hsize] at hlt
      rw [hsize] at hbig
      omega
    have hupper := upper_half (a := a) (b := b) (Nat.two_pow_pos (env.dataSize * 8 / 2))
    rw [half_square h] at hupper
    rw [hupper]
    have hs : 2 ^ (env.dataSize * 8 / 2) = 2 ^ 32 := by rw [hsize]
    generalize 2 ^ (env.dataSize * 8 / 2) = s at *
    subst hs
    omega
  · rw [Nat.sub_zero]

end Halves

private theorem signed_upper {m : Int} (hm : 0 < m) (a b : Int) (negative negative' : Bool) :
    ((if negative then a - m else a) * (if negative' then b - m else b)) / m % m =
      (a * b / m - (if negative then b else 0) - (if negative' then a else 0)) % m := by
  have hsplit : (if negative then a - m else a) * (if negative' then b - m else b) = a * b +
      m * (-(if negative then b else 0) - (if negative' then a else 0) +
        m * (if negative ∧ negative' then 1 else 0)) := by
    cases negative <;> cases negative' <;> simp <;> ring
  have hsum (x y z : Int) : (x + (-y - z + m * (if negative ∧ negative' then 1 else 0))) % m =
      (x - y - z) % m := by
    rw [show x + (-y - z + m * (if negative ∧ negative' then 1 else 0)) =
      x - y - z + m * (if negative ∧ negative' then 1 else 0) by ring, Int.add_mul_emod_self_left]
  rw [hsplit, Int.add_mul_ediv_left _ _ hm.ne', hsum]

private theorem sub_emod {w : Nat} (hw : w ≤ 64) (a b : BitVec 64) :
    (((a - b).toNat : Nat) : Int) % 2 ^ w = ((a.toNat : Int) - b.toNat) % 2 ^ w := by
  have hdvd : (2 : Int) ^ w ∣ 2 ^ 64 := pow_dvd_pow 2 hw
  have hb := b.isLt
  rw [BitVec.toNat_sub, Int.natCast_emod, Nat.cast_add, Nat.cast_sub hb.le]
  simp only [Nat.cast_pow, Nat.cast_ofNat]
  rw [Int.emod_emod_of_dvd _ hdvd]
  obtain ⟨k, hk⟩ := hdvd
  rw [hk, show (2 : Int) ^ w * k - b.toNat + a.toNat = a.toNat - b.toNat + 2 ^ w * k by ring,
    Int.add_mul_emod_self_left]

section Signed

variable {env : EmulEnv} (h : env.Sized) {c : Context}

include h

private theorem signedOperand_sub (r : Nat) :
    signedOperand env c r = if decide (2 ^ (env.dataSize * 8 - 1) ≤ operand env c r) then
      (operand env c r : Int) - 2 ^ (env.dataSize * 8) else operand env c r := by
  have hlt := operand_lt env c r
  rw [signedOperand_eq h]
  simp only [decide_eq_true_eq]
  split_ifs with hneg
  · rw [Nat.cast_sub hlt.le]
    push_cast
    ring
  · rfl

private theorem toNat_signedMulHigh {psrc1 op2 : BitVec 64} {r r' : Nat}
    (ha : psrc1.toNat = operand env c r) (hb : op2.toNat = operand env c r') :
    (((signedMulHigh env.dataSize psrc1 op2).toNat : Nat) : Int) % 2 ^ (env.dataSize * 8) =
      (signedOperand env c r * signedOperand env c r' / 2 ^ (env.dataSize * 8) -
        shortBy env (operand env c r) (operand env c r')) % 2 ^ (env.dataSize * 8) := by
  have hwidth := h.width
  have halt := operand_lt env c r
  have hblt := operand_lt env c r'
  have hsign {v : BitVec 64} {x : Nat} (hv : v.toNat = x) (hx : x < 2 ^ (env.dataSize * 8)) :
      (bits v (env.dataSize * 8 - 1) (env.dataSize * 8 - 1) != 0) =
        decide (2 ^ (env.dataSize * 8 - 1) ≤ x) := by
    rw [bit_ne_zero, getLsbD_top (by omega), hv, Nat.mod_eq_of_lt hx]
  have hhigh := toNat_mulHigh h ha hb halt hblt
  have hshort := (shortBy_le h halt hblt).1
  have hpos : (0 : Int) < 2 ^ (env.dataSize * 8) := by positivity
  have hupper := signed_upper hpos (operand env c r) (operand env c r')
    (decide (2 ^ (env.dataSize * 8 - 1) ≤ operand env c r))
    (decide (2 ^ (env.dataSize * 8 - 1) ≤ operand env c r'))
  rw [Int.sub_emod, signedOperand_sub h r, signedOperand_sub h r', hupper, ← Int.sub_emod]
  have hcast : ((mulHigh env.dataSize psrc1 op2).toNat : Int) =
      (operand env c r : Int) * operand env c r' / 2 ^ (env.dataSize * 8) -
        shortBy env (operand env c r) (operand env c r') := by
    rw [hhigh, Nat.cast_sub hshort]
    push_cast
    rfl
  simp only [signedMulHigh, hsign ha halt, hsign hb hblt]
  generalize decide (2 ^ (env.dataSize * 8 - 1) ≤ operand env c r) = negative
  generalize decide (2 ^ (env.dataSize * 8 - 1) ≤ operand env c r') = negative'
  cases negative <;> cases negative' <;>
    simp only [Bool.false_eq_true, if_true, if_false, sub_zero]
  · rw [hcast]
  · rw [sub_emod hwidth.2, hcast, ha]
    congr 1
    ring
  · rw [sub_emod hwidth.2, hcast, hb]
    congr 1
    ring
  · rw [sub_emod hwidth.2, Int.sub_emod, sub_emod hwidth.2, ← Int.sub_emod, hcast, ha, hb]
    congr 1
    ring

end Signed

/-! ## The microcode -/

def MUL_R (env : EmulEnv) : List RegOp :=
  [.mul1u INTREG_RAX env.reg (OFBit ||| CFBit), .mulel INTREG_RAX, .muleh INTREG_RDX]

def IMUL_R (env : EmulEnv) : List RegOp :=
  [.mul1s INTREG_RAX env.reg (OFBit ||| CFBit), .mulel INTREG_RAX, .muleh INTREG_RDX]

/-- What a multiplication leaves, whose upper half is short by `lack`. -/
structure ProductResult (env : EmulEnv) (c c' : Context) (product lack : Int) : Prop where
  rax : c'.intReg INTREG_RAX =
    written env.dataSize (c.intReg INTREG_RAX) (BitVec.ofInt 64 product)
  rdx : c'.intReg INTREG_RDX = written env.dataSize (c.intReg INTREG_RDX)
    (BitVec.ofInt 64 (product / 2 ^ (env.dataSize * 8) - lack))
  regs : ∀ r < numIntRegs, r ≠ INTREG_RAX → r ≠ INTREG_RDX → c'.intReg r = c.intReg r
  flags : ∀ f, f ≠ .cfof → c'.ccReg f = c.ccReg f

private theorem mulFlags_eq (c : Context) (carries : Bool) :
    c.mulFlags (OFBit ||| CFBit) carries =
      c.setCC .cfof (if carries then CFBit ||| OFBit else 0) := by
  have hmasks : (OFBit ||| CFBit) &&& cfofMask = cfofMask ∧
      (OFBit ||| CFBit) &&& (CFBit ||| OFBit) = CFBit ||| OFBit ∧
      (OFBit ||| CFBit) &&& ECFBit = 0 ∧ ¬ cfofMask = 0 := by
    decide
  simp only [Context.mulFlags, Context.setPred, Context.PredcfofBits, Context.readPred, hmasks]
  cases carries <;> simp

section Microcode

variable {env : EmulEnv} (h : env.Sized) {c : Context}

include h

private theorem psrc_cleared (c : Context) {r : Nat} (hr : r < 64) (hr₀ : r ≠ ZeroReg) :
    RegOp.psrc env (c.setInt ZeroReg 0) r = some ((fieldOf env.dataSize).get (c.intReg r)) := by
  rw [psrc_eq h _ hr, intReg_cleared c hr₀]

omit h in
private theorem step_mul1u {ops : List RegOp} {upc src1 src2 : Nat} {ext psrc1 psrc2 : BitVec 64}
    (h1 : RegOp.psrc env (c.setInt ZeroReg 0) src1 = some psrc1)
    (h2 : RegOp.psrc env (c.setInt ZeroReg 0) src2 = some psrc2)
    (hop : ops[upc]? = some (.mul1u src1 src2 ext)) :
    step env ops upc c = some (.ok (upc + 1, (((c.setInt ZeroReg 0).setInt ProdLow
      (psrc1 * psrc2)).setInt ProdHi (mulHigh env.dataSize psrc1 psrc2)).mulFlags ext
        (mulHigh env.dataSize psrc1 psrc2 != 0))) := by
  rw [step, hop]
  simp only [Option.bind_eq_bind, Option.bind_some, RegOp.exec, RegOp.execMul1u, h1, h2]
  rfl

omit h in
private theorem step_mul1s {ops : List RegOp} {upc src1 src2 : Nat} {ext psrc1 psrc2 : BitVec 64}
    (h1 : RegOp.psrc env (c.setInt ZeroReg 0) src1 = some psrc1)
    (h2 : RegOp.psrc env (c.setInt ZeroReg 0) src2 = some psrc2)
    (hop : ops[upc]? = some (.mul1s src1 src2 ext)) :
    step env ops upc c = some (.ok (upc + 1, (((c.setInt ZeroReg 0).setInt ProdLow
      (psrc1 * psrc2)).setInt ProdHi (signedMulHigh env.dataSize psrc1 psrc2)).mulFlags ext
        (-signedMulHigh env.dataSize psrc1 psrc2 &&& mask (env.dataSize * 8) !=
          bits (psrc1 * psrc2) (env.dataSize * 8 - 1) (env.dataSize * 8 - 1)))) := by
  rw [step, hop]
  simp only [Option.bind_eq_bind, Option.bind_some, RegOp.exec, RegOp.execMul1s, h1, h2]
  rfl

private theorem halves_reaches {ops : List RegOp} {low high : BitVec 64} {carries : Bool}
    (hlen : ops.length = 3)
    (hmul : step env ops 0 c = some (.ok (1, (((c.setInt ZeroReg 0).setInt ProdLow low).setInt
      ProdHi high).mulFlags (OFBit ||| CFBit) carries)))
    (h1 : ops[1]? = some (.mulel INTREG_RAX)) (h2 : ops[2]? = some (.muleh INTREG_RDX)) :
    ∃ c', (∃ n, ∀ m ≥ n, execute env ops m 0 c = some (.ok c')) ∧
      c'.intReg INTREG_RAX = written env.dataSize (c.intReg INTREG_RAX) low ∧
      c'.intReg INTREG_RDX = written env.dataSize (c.intReg INTREG_RDX) high ∧
      (∀ r < numIntRegs, r ≠ INTREG_RAX → r ≠ INTREG_RDX → c'.intReg r = c.intReg r) ∧
      c'.ccReg .cfof = (if carries then CFBit ||| OFBit else 0) ∧
      ∀ f, f ≠ .cfof → c'.ccReg f = c.ccReg f := by
  rw [mulFlags_eq] at hmul
  generalize hc₁ : (((c.setInt ZeroReg 0).setInt ProdLow low).setInt ProdHi high).setCC .cfof
    (if carries then CFBit ||| OFBit else 0) = c₁ at hmul
  have hint₁ (r : Nat) : c₁.intReg r = if r = ProdHi then high else if r = ProdLow then low
      else if r = ZeroReg then 0 else c.intReg r := by
    rw [← hc₁, Context.intReg_setCC, Context.intReg_setInt _ (by decide),
      Context.intReg_setInt _ (by decide), Context.intReg_setInt _ (by decide)]
  have hcc₁ (f : CCReg) : c₁.ccReg f = if f = .cfof then if carries then CFBit ||| OFBit else 0
      else c.ccReg f := by
    rw [← hc₁, Context.ccReg_setCC]
    rfl
  let c₂ := (c₁.setInt ZeroReg 0).setInt INTREG_RAX
    (written env.dataSize (c.intReg INTREG_RAX) low)
  have hs₂ : step env ops 1 c₁ = some (.ok (2, c₂)) := by
    rw [step, h1]
    simp only [Option.bind_eq_bind, Option.bind_some, RegOp.exec,
      setDest_eq h _ (by decide : INTREG_RAX < 64)]
    rw [intReg_cleared c₁ (by decide), intReg_cleared c₁ (by decide), hint₁ INTREG_RAX,
      hint₁ ProdLow]
    rfl
  have hint₂ (r : Nat) (hr : r ≠ ZeroReg) : c₂.intReg r = if r = INTREG_RAX then
      written env.dataSize (c.intReg INTREG_RAX) low else c₁.intReg r := by
    rw [Context.intReg_setInt _ (by decide), intReg_cleared c₁ hr]
  let c₃ := (c₂.setInt ZeroReg 0).setInt INTREG_RDX
    (written env.dataSize (c.intReg INTREG_RDX) high)
  have hs₃ : step env ops 2 c₂ = some (.ok (3, c₃)) := by
    rw [step, h2]
    simp only [Option.bind_eq_bind, Option.bind_some, RegOp.exec,
      setDest_eq h _ (by decide : INTREG_RDX < 64)]
    rw [intReg_cleared c₂ (by decide), intReg_cleared c₂ (by decide),
      hint₂ INTREG_RDX (by decide), hint₂ ProdHi (by decide), hint₁ INTREG_RDX, hint₁ ProdHi]
    rfl
  have hrun : Reaches env ops (0, c) (ops.length, c₃) := by
    rw [hlen]
    exact .tail (.tail (.single hmul) hs₂) hs₃
  have hint₃ (r : Nat) (hr : r ≠ ZeroReg) : c₃.intReg r = if r = INTREG_RDX then
      written env.dataSize (c.intReg INTREG_RDX) high else c₂.intReg r := by
    rw [Context.intReg_setInt _ (by decide), intReg_cleared c₂ hr]
  refine ⟨c₃, execute_of_reaches hrun, ?_, ?_, ?_, ?_, ?_⟩
  · rw [hint₃ _ (by decide), if_neg (by decide), hint₂ _ (by decide), if_pos rfl]
  · rw [hint₃ _ (by decide), if_pos rfl]
  · intro r hr hrax hrdx
    have hhigh : numIntRegs = 16 ∧ ZeroReg = 16 ∧ ProdLow = 32 ∧ ProdHi = 33 := by decide
    have hr₀ : r ≠ ZeroReg := Nat.ne_of_lt hr
    rw [hint₃ r hr₀, if_neg hrdx, hint₂ r hr₀, if_neg hrax, hint₁, if_neg (by omega),
      if_neg (by omega), if_neg hr₀]
  · exact (hcc₁ .cfof).trans (if_pos rfl)
  · intro f hf
    exact (hcc₁ f).trans (if_neg hf)

/-- The pair of registers holds the product without what its upper half lacks. -/
theorem pair_emod {c' : Context} {product lack : Int}
    (hres : ProductResult env c c' product lack) :
    (dividend env c' INTREG_RDX INTREG_RAX : Int) %
        (2 ^ (env.dataSize * 8) * 2 ^ (env.dataSize * 8)) =
      (product - 2 ^ (env.dataSize * 8) * lack) %
        (2 ^ (env.dataSize * 8) * 2 ^ (env.dataSize * 8)) := by
  have hlow : (operand env c' INTREG_RAX : Int) = product % 2 ^ (env.dataSize * 8) := by
    rw [operand, hres.rax, toNat_written h, toNat_ofInt_mod h.width.2]
  have hhigh : (operand env c' INTREG_RDX : Int) =
      (product / 2 ^ (env.dataSize * 8) - lack) % 2 ^ (env.dataSize * 8) := by
    rw [operand, hres.rdx, toNat_written h, toNat_ofInt_mod h.width.2]
  rw [dividend]
  push_cast
  rw [hlow, hhigh]
  generalize (2 : Int) ^ (env.dataSize * 8) = m
  have hp := Int.mul_ediv_add_emod product m
  have hq := Int.mul_ediv_add_emod (product / m - lack) m
  have hsum : (product / m - lack) % m * m + product % m =
      product - m * lack + m * m * (-((product / m - lack) / m)) := by
    linear_combination hp + m * hq
  rw [hsum, Int.add_mul_emod_self_left]

omit h in
private theorem lack_iff {m : Int} (product : Int) {lack : Nat} (hm : 0 < m)
    (hlack : (lack : Int) < m) : (product - m * lack) % (m * m) = product % (m * m) ↔ lack = 0 := by
  constructor
  · intro heq
    rw [Int.emod_eq_emod_iff_emod_sub_eq_zero, ← Int.dvd_iff_emod_eq_zero] at heq
    have hdvd : m * m ∣ m * lack := by
      rw [← Int.dvd_neg]
      convert heq using 1
      ring
    have hsmall := Int.emod_eq_zero_of_dvd (Int.dvd_of_mul_dvd_mul_left hm.ne' hdvd)
    rw [Int.emod_eq_of_lt (by omega) hlack] at hsmall
    exact_mod_cast hsmall
  · rintro rfl
    simp

omit h in
private theorem shortBy_eq_zero {a b : Nat} :
    shortBy env a b = 0 ↔ middle (2 ^ (env.dataSize * 8 / 2)) a b < 2 ^ 64 := by
  rw [shortBy]
  split_ifs with hbig
  · exact iff_of_false (by decide) (Nat.not_lt.mpr hbig)
  · exact iff_of_true rfl (Nat.not_le.mp hbig)

/-- The pair of registers holds the product when the middle sum has stayed in the word. -/
theorem pair_iff {c' : Context} {product : Int} {a b : Nat} (ha : a < 2 ^ (env.dataSize * 8))
    (hb : b < 2 ^ (env.dataSize * 8)) (hres : ProductResult env c c' product (shortBy env a b)) :
    (dividend env c' INTREG_RDX INTREG_RAX : Int) %
          (2 ^ (env.dataSize * 8) * 2 ^ (env.dataSize * 8)) =
        product % (2 ^ (env.dataSize * 8) * 2 ^ (env.dataSize * 8)) ↔
      middle (2 ^ (env.dataSize * 8 / 2)) a b < 2 ^ 64 := by
  have hpos : (0 : Int) < 2 ^ (env.dataSize * 8) := by positivity
  have hlt : ((shortBy env a b : Nat) : Int) < 2 ^ (env.dataSize * 8) := by
    exact_mod_cast (shortBy_le h ha hb).2
  rw [pair_emod h hres, lack_iff product hpos hlt, shortBy_eq_zero]

/-- `MUL`, whatever the operands: the upper half is short by `2 ^ 32` when the middle sum leaves the
word, and right otherwise; the flags are always right. -/
theorem mul_multiplies (c : Context) :
    ∃ c', (∃ n, ∀ m ≥ n, execute env (MUL_R env) m 0 c = some (.ok c')) ∧
      ProductResult env c c' ((operand env c INTREG_RAX * operand env c env.reg : Nat) : Int)
        (shortBy env (operand env c INTREG_RAX) (operand env c env.reg)) ∧
      c'.ccReg .cfof = (if operand env c INTREG_RAX * operand env c env.reg <
        2 ^ (env.dataSize * 8) then 0 else CFBit ||| OFBit) ∧
      (dividend env c' INTREG_RDX INTREG_RAX = operand env c INTREG_RAX * operand env c env.reg ↔
        middle (2 ^ (env.dataSize * 8 / 2)) (operand env c INTREG_RAX) (operand env c env.reg) <
          2 ^ 64) := by
  have hreg : (env.reg : Nat) < 64 := env.reg.isLt.trans (by decide)
  have hreg₀ : (env.reg : Nat) ≠ ZeroReg := Nat.ne_of_lt env.reg.isLt
  have halt := operand_lt env c INTREG_RAX
  have hblt := operand_lt env c env.reg
  have ha : ((fieldOf env.dataSize).get (c.intReg INTREG_RAX)).toNat = operand env c INTREG_RAX :=
    toNat_pick h _
  have hb : ((fieldOf env.dataSize).get (c.intReg env.reg)).toNat = operand env c env.reg :=
    toNat_pick h _
  obtain ⟨hshort, -⟩ := shortBy_le h halt hblt
  have hhigh := toNat_mulHigh h ha hb halt hblt
  have hzero := mulHigh_eq_zero h halt hblt
  have h1 := psrc_cleared h c (by decide : INTREG_RAX < 64) (by decide)
  have h2 := psrc_cleared h c hreg hreg₀
  generalize (fieldOf env.dataSize).get (c.intReg INTREG_RAX) = psrc1 at *
  generalize (fieldOf env.dataSize).get (c.intReg env.reg) = psrc2 at *
  obtain ⟨c', hexec, hrax, hrdx, hregs, hcfof, hflags⟩ :=
    halves_reaches h (show (MUL_R env).length = 3 from rfl) (step_mul1u h1 h2 rfl) rfl rfl
  have hres : ProductResult env c c'
      ((operand env c INTREG_RAX * operand env c env.reg : Nat) : Int)
      (shortBy env (operand env c INTREG_RAX) (operand env c env.reg)) := by
    refine ⟨?_, ?_, hregs, hflags⟩
    · rw [hrax]
      apply written_ofInt h
      rw [BitVec.toNat_mul, ha, hb, Nat.mod_mod_of_dvd _ (Nat.pow_dvd_pow 2 h.width.2)]
      push_cast
      rfl
    · rw [hrdx]
      apply written_ofInt h
      rw [hhigh, Int.natCast_emod, Nat.cast_sub hshort]
      push_cast
      rfl
  refine ⟨c', hexec, hres, ?_, ?_⟩
  · rw [hcfof]
    by_cases hfits : operand env c INTREG_RAX * operand env c env.reg < 2 ^ (env.dataSize * 8)
    · have hnone : mulHigh env.dataSize psrc1 psrc2 = 0 := by
        apply BitVec.eq_of_toNat_eq
        rw [hhigh, hzero.mpr hfits]
        rfl
      rw [if_pos hfits, hnone]
      rfl
    · have hsome : (mulHigh env.dataSize psrc1 psrc2 != 0) = true := by
        rw [bne_iff_ne]
        intro hnone
        rw [hnone] at hhigh
        exact hfits (hzero.mp hhigh.symm)
      rw [if_neg hfits, if_pos hsome]
  · have hsquare := dividend_lt env c' INTREG_RDX INTREG_RAX
    have hproduct := Nat.mul_lt_mul'' halt hblt
    rw [← pair_iff h halt hblt hres]
    have hmod {x : Nat} (hx : x < 2 ^ (env.dataSize * 8) * 2 ^ (env.dataSize * 8)) :
        (x : Int) % (2 ^ (env.dataSize * 8) * 2 ^ (env.dataSize * 8)) = x :=
      Int.emod_eq_of_lt (Int.natCast_nonneg x) (by exact_mod_cast hx)
    rw [hmod hsquare, hmod hproduct]
    exact Int.natCast_inj.symm

end Microcode

/-- All ones by all ones: the upper half should be all ones but the lowest. -/
theorem mul_multiplies_wide :
    let env : EmulEnv := { reg := 1, regm := 0, dataSize := 8 }
    let c : Context := ⟨fun _ => -1, fun _ => 0⟩
    ∃ n c', execute env (MUL_R env) n 0 c = some (.ok c') ∧
      c'.intReg INTREG_RAX = 1 ∧ c'.intReg INTREG_RDX = 0xfffffffefffffffe := by
  intro env c
  have hsized : env.Sized := Or.inr (Or.inr rfl)
  obtain ⟨c', ⟨n, hn⟩, hresult, -⟩ := mul_multiplies hsized c
  refine ⟨n, c', hn n le_rfl, ?_, ?_⟩
  · rw [hresult.rax]
    decide
  · rw [hresult.rdx]
    decide

private theorem bmod_eq_bmod_iff (x y : Int) (n : Nat) : x.bmod n = y.bmod n ↔ x % n = y % n := by
  constructor
  · intro heq
    rw [← Int.bmod_emod, heq, Int.bmod_emod]
  · intro heq
    rw [← Int.emod_bmod, heq, Int.emod_bmod]

section SignedMicrocode

variable {env : EmulEnv} (h : env.Sized) {c : Context}

include h

/-- The pair of registers is the sign extension of the lower one when the upper one is its sign. -/
theorem signedDividend_eq_iff (hi lo : Nat) :
    signedDividend env c hi lo = signedOperand env c lo ↔
      operand env c hi = if 2 ^ (env.dataSize * 8 - 1) ≤ operand env c lo then
        2 ^ (env.dataSize * 8) - 1 else 0 := by
  have hhi := operand_lt env c hi
  have hlo := operand_lt env c lo
  have hpow := h.half
  have hlt := dividend_lt env c hi lo
  rw [signedDividend_eq h, signedOperand_eq h, dividend] at *
  generalize 2 ^ (env.dataSize * 8 - 1) = k at *
  generalize 2 ^ (env.dataSize * 8) = m at *
  generalize operand env c hi = x at *
  generalize operand env c lo = y at *
  have hsmall : x * m = 0 ↔ x = 0 := by
    rw [Nat.mul_eq_zero]
    omega
  have hlarge : x * m + m = m * m ↔ x = m - 1 := by
    rw [← Nat.succ_mul, Nat.mul_left_inj (by omega)]
    omega
  split_ifs with hx hy hy <;> omega

/-- The flags' condition: whether the upper half is anything else than the sign of the lower. -/
theorem carries_eq {c' : Context} {low high : BitVec 64}
    (hlow : low.toNat % 2 ^ (env.dataSize * 8) = operand env c' INTREG_RAX)
    (hhigh : high.toNat % 2 ^ (env.dataSize * 8) = operand env c' INTREG_RDX) :
    (-high &&& mask (env.dataSize * 8) !=
        bits low (env.dataSize * 8 - 1) (env.dataSize * 8 - 1)) =
      !decide (signedDividend env c' INTREG_RDX INTREG_RAX = signedOperand env c' INTREG_RAX) := by
  have hwidth := h.width
  have hpow := half_pow (w := env.dataSize * 8) (by omega)
  have hhalf := Nat.two_pow_pos (env.dataSize * 8 - 1)
  have hlt := operand_lt env c' INTREG_RDX
  have hneg : (-high &&& mask (env.dataSize * 8)).toNat =
      (2 ^ (env.dataSize * 8) - operand env c' INTREG_RDX) % 2 ^ (env.dataSize * 8) := by
    obtain ⟨k, hk⟩ := Nat.pow_dvd_pow 2 hwidth.2
    have hword : high.toNat < 2 ^ 64 := high.isLt
    have hsplit := Nat.div_add_mod high.toNat (2 ^ (env.dataSize * 8))
    have hquot : high.toNat / 2 ^ (env.dataSize * 8) < k := Nat.div_lt_of_lt_mul (hk ▸ hword)
    obtain ⟨j, hj⟩ := Nat.exists_eq_add_of_lt hquot
    have hrest : 2 ^ 64 - high.toNat =
        2 ^ (env.dataSize * 8) - operand env c' INTREG_RDX + 2 ^ (env.dataSize * 8) * j := by
      rw [hk, hj, Nat.mul_add, Nat.mul_add, Nat.mul_one]
      omega
    rw [toNat_and_mask _ hwidth.2, BitVec.toNat_neg,
      Nat.mod_mod_of_dvd _ (Nat.pow_dvd_pow 2 hwidth.2), hrest, Nat.add_mul_mod_self_left]
  have hbit : (bits low (env.dataSize * 8 - 1) (env.dataSize * 8 - 1)).toNat =
      if 2 ^ (env.dataSize * 8 - 1) ≤ operand env c' INTREG_RAX then 1 else 0 := by
    rw [toNat_bit, getLsbD_top (by omega), hlow]
    split_ifs with hle <;> simp [hle]
  have hiff : -high &&& mask (env.dataSize * 8) =
      bits low (env.dataSize * 8 - 1) (env.dataSize * 8 - 1) ↔
        signedDividend env c' INTREG_RDX INTREG_RAX = signedOperand env c' INTREG_RAX := by
    rw [← BitVec.toNat_inj, hneg, hbit, signedDividend_eq_iff h]
    by_cases hzero : operand env c' INTREG_RDX = 0
    · rw [hzero, Nat.sub_zero, Nat.mod_self]
      split_ifs
      · exact iff_of_false (by decide) (by omega)
      · exact Iff.rfl
    · rw [Nat.mod_eq_of_lt (by omega)]
      split_ifs <;> omega
  simp only [bne, beq_eq_decide, hiff]

private theorem signedProduct_bmod (r r' : Nat) :
    (signedOperand env c r * signedOperand env c r').bmod
        (2 ^ (env.dataSize * 8) * 2 ^ (env.dataSize * 8)) =
      signedOperand env c r * signedOperand env c r' := by
  have hpow := h.half
  have hhalf := Nat.two_pow_pos (env.dataSize * 8 - 1)
  have hbound (r : Nat) : (signedOperand env c r).natAbs ≤ 2 ^ (env.dataSize * 8 - 1) := by
    have hlt := operand_lt env c r
    rw [signedOperand_eq h]
    split_ifs <;> omega
  have hprod := Nat.mul_le_mul (hbound r) (hbound r')
  rw [← Int.natAbs_mul] at hprod
  generalize signedOperand env c r * signedOperand env c r' = z at *
  have hsquare := Nat.mul_pos hhalf hhalf
  rw [hpow]
  generalize 2 ^ (env.dataSize * 8 - 1) = k at *
  have hfour : 2 * k * (2 * k) = 4 * (k * k) := by ring
  rw [hfour]
  apply Int.bmod_eq_of_le_mul_two <;> push_cast <;> omega

/-- `IMUL`, whatever the operands: what the unsigned product lacks, the signed one lacks too. The
flags say of the registers as they are left whether the lower half is the whole. -/
theorem imul_multiplies (c : Context) :
    ∃ c', (∃ n, ∀ m ≥ n, execute env (IMUL_R env) m 0 c = some (.ok c')) ∧
      ProductResult env c c' (signedOperand env c INTREG_RAX * signedOperand env c env.reg)
        (shortBy env (operand env c INTREG_RAX) (operand env c env.reg)) ∧
      c'.ccReg .cfof = (if signedDividend env c' INTREG_RDX INTREG_RAX =
        signedOperand env c' INTREG_RAX then 0 else CFBit ||| OFBit) ∧
      (signedDividend env c' INTREG_RDX INTREG_RAX =
          signedOperand env c INTREG_RAX * signedOperand env c env.reg ↔
        middle (2 ^ (env.dataSize * 8 / 2)) (operand env c INTREG_RAX) (operand env c env.reg) <
          2 ^ 64) := by
  have hreg : (env.reg : Nat) < 64 := env.reg.isLt.trans (by decide)
  have hreg₀ : (env.reg : Nat) ≠ ZeroReg := Nat.ne_of_lt env.reg.isLt
  have halt := operand_lt env c INTREG_RAX
  have hblt := operand_lt env c env.reg
  have ha : ((fieldOf env.dataSize).get (c.intReg INTREG_RAX)).toNat = operand env c INTREG_RAX :=
    toNat_pick h _
  have hb : ((fieldOf env.dataSize).get (c.intReg env.reg)).toNat = operand env c env.reg :=
    toNat_pick h _
  have hupper := toNat_signedMulHigh h ha hb
  have h1 := psrc_cleared h c (by decide : INTREG_RAX < 64) (by decide)
  have h2 := psrc_cleared h c hreg hreg₀
  generalize (fieldOf env.dataSize).get (c.intReg INTREG_RAX) = psrc1 at *
  generalize (fieldOf env.dataSize).get (c.intReg env.reg) = psrc2 at *
  obtain ⟨c', hexec, hrax, hrdx, hregs, hcfof, hflags⟩ :=
    halves_reaches h (show (IMUL_R env).length = 3 from rfl) (step_mul1s h1 h2 rfl) rfl rfl
  have hlower : (((psrc1 * psrc2).toNat % 2 ^ (env.dataSize * 8) : Nat) : Int) =
      signedOperand env c INTREG_RAX * signedOperand env c env.reg % 2 ^ (env.dataSize * 8) := by
    have hmod (r : Nat) : signedOperand env c r % 2 ^ (env.dataSize * 8) =
        (operand env c r : Int) % 2 ^ (env.dataSize * 8) := by
      have heq := Int.bmod_emod (x := (operand env c r : Int)) (m := 2 ^ (env.dataSize * 8))
      push_cast at heq
      exact heq
    rw [BitVec.toNat_mul, ha, hb, Nat.mod_mod_of_dvd _ (Nat.pow_dvd_pow 2 h.width.2), Int.mul_emod,
      hmod, hmod, ← Int.mul_emod]
    push_cast
    rfl
  have hres : ProductResult env c c'
      (signedOperand env c INTREG_RAX * signedOperand env c env.reg)
      (shortBy env (operand env c INTREG_RAX) (operand env c env.reg)) := by
    refine ⟨?_, ?_, hregs, hflags⟩
    · rw [hrax]
      exact written_ofInt h _ hlower
    · rw [hrdx]
      apply written_ofInt h
      rw [← hupper]
      push_cast
      rfl
  refine ⟨c', hexec, hres, ?_, ?_⟩
  · have hlow : (psrc1 * psrc2).toNat % 2 ^ (env.dataSize * 8) = operand env c' INTREG_RAX := by
      rw [operand, hrax, toNat_written h]
    have hhigh : (signedMulHigh env.dataSize psrc1 psrc2).toNat % 2 ^ (env.dataSize * 8) =
        operand env c' INTREG_RDX := by
      rw [operand, hrdx, toNat_written h]
    rw [hcfof, carries_eq h hlow hhigh]
    by_cases heq : signedDividend env c' INTREG_RDX INTREG_RAX = signedOperand env c' INTREG_RAX
    · simp [heq]
    · simp [heq]
  · have hfit := signedProduct_bmod (c := c) h INTREG_RAX env.reg
    have hiff := bmod_eq_bmod_iff (dividend env c' INTREG_RDX INTREG_RAX)
      (signedOperand env c INTREG_RAX * signedOperand env c env.reg)
      (2 ^ (env.dataSize * 8) * 2 ^ (env.dataSize * 8))
    push_cast at hiff
    rw [hfit] at hiff
    rw [← pair_iff h halt hblt hres, ← hiff]
    rfl

end SignedMicrocode

/-- Minus one by minus one: the upper half should be nought. -/
theorem imul_multiplies_minus :
    let env : EmulEnv := { reg := 1, regm := 0, dataSize := 8 }
    let c : Context := ⟨fun _ => -1, fun _ => 0⟩
    ∃ n c', execute env (IMUL_R env) n 0 c = some (.ok c') ∧
      c'.intReg INTREG_RAX = 1 ∧ c'.intReg INTREG_RDX = 0xffffffff00000000 := by
  intro env c
  have hsized : env.Sized := Or.inr (Or.inr rfl)
  obtain ⟨c', ⟨n, hn⟩, hresult, -⟩ := imul_multiplies hsized c
  refine ⟨n, c', hn n le_rfl, ?_, ?_⟩
  · rw [hresult.rax]
    decide
  · rw [hresult.rdx]
    decide

end ModernArch.X86
