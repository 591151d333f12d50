import ModernArch.X86.RegOps
import Mathlib.Logic.Relation

/-!
# Running microcode

Operands as numbers, what the microops read and write at the operand sizes of two bytes and more,
and the runs of a macroop.
-/

namespace ModernArch.X86
open Sim (mask bits)

private theorem toNat_mask {n : Nat} (hn : n ≤ 64) : (mask n).toNat = 2 ^ n - 1 := by
  apply Nat.eq_of_testBit_eq
  intro i
  rw [← BitVec.getLsbD, getLsbD_mask hn, Nat.testBit_two_pow_sub_one]

theorem toNat_and_mask (v : BitVec 64) {n : Nat} (hn : n ≤ 64) :
    (v &&& mask n).toNat = v.toNat % 2 ^ n := by
  rw [BitVec.toNat_and, toNat_mask hn, Nat.and_two_pow_sub_one_eq_mod]

theorem toNat_bits (v : BitVec 64) {first last : Nat} (h : first - last + 1 ≤ 64) :
    (bits v first last).toNat = v.toNat / 2 ^ last % 2 ^ (first - last + 1) := by
  rw [bits, toNat_and_mask _ h, BitVec.toNat_ushiftRight, Nat.shiftRight_eq_div_pow]

theorem toNat_bit (v : BitVec 64) (i : Nat) : (bits v i i).toNat = (v.getLsbD i).toNat := by
  rw [toNat_bits v (by omega), Nat.sub_self, Nat.zero_add, Nat.pow_one, BitVec.getLsbD,
    Nat.toNat_testBit]

theorem bit_ne_zero (v : BitVec 64) (i : Nat) : (bits v i i != 0) = v.getLsbD i := by
  have hzero : bits v i i = 0#64 ↔ v.getLsbD i = false := by
    rw [← BitVec.toNat_inj, toNat_bit]
    cases v.getLsbD i <;> simp
  cases hv : v.getLsbD i <;> simp [bne, hzero, hv]

/-- The value of the register's operand. -/
def operand (env : EmulEnv) (c : Context) (r : Nat) : Nat :=
  (c.intReg r).toNat % 2 ^ (env.dataSize * 8)

theorem operand_lt (env : EmulEnv) (c : Context) (r : Nat) :
    operand env c r < 2 ^ (env.dataSize * 8) :=
  Nat.mod_lt _ (Nat.two_pow_pos _)

section Sized

variable {env : EmulEnv} (h : env.Sized)

include h

theorem EmulEnv.Sized.width : 16 ≤ env.dataSize * 8 ∧ env.dataSize * 8 ≤ 64 := by
  rcases h with h | h | h <;> omega

theorem toNat_pick (v : BitVec 64) :
    ((fieldOf env.dataSize).get v).toNat = v.toNat % 2 ^ (env.dataSize * 8) := by
  apply Nat.eq_of_testBit_eq
  intro i
  rw [← BitVec.getLsbD, getLsbD_pick h, Nat.testBit_mod_two_pow, Bool.and_comm]
  rfl

theorem toNat_written (into val : BitVec 64) :
    (written env.dataSize into val).toNat % 2 ^ (env.dataSize * 8) =
      val.toNat % 2 ^ (env.dataSize * 8) := by
  have hwidth := h.width
  apply Nat.eq_of_testBit_eq
  intro i
  rw [Nat.testBit_mod_two_pow, Nat.testBit_mod_two_pow]
  by_cases hi : i < env.dataSize * 8
  · have hbit := getLsbD_written h into val (by omega : i < 64)
    rw [if_pos hi] at hbit
    simp only [hi, decide_true, Bool.true_and]
    exact hbit
  · simp [hi]

/-- A write takes the operand of the value only. -/
theorem written_congr (into : BitVec 64) {val val' : BitVec 64}
    (heq : val.toNat % 2 ^ (env.dataSize * 8) = val'.toNat % 2 ^ (env.dataSize * 8)) :
    written env.dataSize into val = written env.dataSize into val' := by
  apply BitVec.eq_of_getLsbD_eq
  intro i hi
  rw [getLsbD_written h into val hi, getLsbD_written h into val' hi]
  by_cases hlow : i < env.dataSize * 8
  · have hbit := congrArg (Nat.testBit · i) heq
    simp only [Nat.testBit_mod_two_pow, hlow, decide_true, Bool.true_and] at hbit
    rw [if_pos hlow, if_pos hlow]
    exact hbit
  · rw [if_neg hlow, if_neg hlow]

omit h in
private theorem unfolded_lt {r : Nat} (hr : r < 64) : r &&& intFoldBit = 0 := by
  have hall : ∀ r : Fin 64, (r : Nat) &&& intFoldBit = 0 := by decide
  exact hall ⟨r, hr⟩

omit h in
private theorem flatten_lt {r : Nat} (hr : r < 64) : flattenIntIndex r = r := by
  rw [flattenIntIndex, unfolded_lt hr, Nat.xor_zero]

omit h in
private theorem Context.setInt_lt (c : Context) {r : Nat} (hr : r < 64) (val : BitVec 64) :
    c.setInt r val = { c with intReg := Function.update c.intReg r val } := by
  rw [Context.setInt, flatten_lt hr]

theorem folded_sized (r : Nat) : intRegFolded r env.foldOBit = r := by
  simp [intRegFolded, h.foldOBit]

theorem srcReg_eq (c : Context) {r : Nat} (hr : r < 64) : RegOp.srcReg env c r = c.intReg r := by
  rw [RegOp.srcReg, folded_sized h, Context.readInt, flatten_lt hr]

theorem psrc_eq (c : Context) {r : Nat} (hr : r < 64) :
    RegOp.psrc env c r = some ((fieldOf env.dataSize).get (c.intReg r)) := by
  rw [RegOp.psrc, folded_sized h, Context.readInt, flatten_lt hr]
  unfold pick
  rw [if_neg (not_not.mpr (unfolded_lt hr))]
  rcases h with h | h | h <;> simp [h, fieldOf]

theorem merge_lt {r : Nat} (hr : r < 64) (into val : BitVec 64) :
    merge r into val env.dataSize = some (written env.dataSize into val) := by
  unfold merge
  rw [if_neg (not_not.mpr (unfolded_lt hr))]
  rcases h with h | h | h <;> simp [h, fieldOf, written]

theorem setDest_eq (c : Context) {r : Nat} (hr : r < 64) (val : BitVec 64) :
    RegOp.setDest env c r val = some (c.setInt r (written env.dataSize (c.intReg r) val)) := by
  rw [RegOp.setDest, folded_sized h]
  by_cases hbig : env.dataSize ≥ 4
  · rw [if_pos hbig, masked_eq h hbig (c.intReg r)]
    rfl
  · rw [if_neg hbig, Context.readInt, flatten_lt hr, merge_lt h hr]
    rfl

end Sized

namespace Context

theorem intReg_setInt (c : Context) {r : Nat} (hr : r < 64) (val : BitVec 64) (s : Nat) :
    (c.setInt r val).intReg s = if s = r then val else c.intReg s := by
  rw [c.setInt_lt hr]
  exact Function.update_apply _ _ _ _

@[simp] theorem ccReg_setInt (c : Context) (r : Nat) (val : BitVec 64) :
    (c.setInt r val).ccReg = c.ccReg := rfl

@[simp] theorem intReg_setCC (c : Context) (r : CCReg) (val : BitVec 64) :
    (c.setCC r val).intReg = c.intReg := rfl

@[simp] theorem intReg_setPred (c : Context) (ext : BitVec 64) (r : CCReg) (own val : BitVec 64) :
    (c.setPred ext r own val).intReg = c.intReg := by
  unfold setPred
  split_ifs <;> rfl

theorem ccReg_setCC (c : Context) (r : CCReg) (val : BitVec 64) (s : CCReg) :
    (c.setCC r val).ccReg s = if s = r then val else c.ccReg s :=
  Function.update_apply _ _ _ _

/-- The bits that a condition code register is for. -/
def own : CCReg → BitVec 64
  | .zaps => ccFlagMask
  | .cfof => cfofMask
  | .df => DFBit
  | .ecf => ECFBit
  | .ezf => EZFBit

/-- No condition code register holds a bit of another one. -/
def Tidy (c : Context) : Prop := ∀ r, c.ccReg r &&& ~~~own r = 0

theorem Tidy.setCC {c : Context} (h : c.Tidy) {r : CCReg} {val : BitVec 64}
    (hval : val &&& ~~~own r = 0) : (c.setCC r val).Tidy := by
  intro s
  rw [ccReg_setCC]
  split_ifs with hs
  · rw [hs]
    exact hval
  · exact h s

private theorem Tidy.getLsbD_eq_false {c : Context} (h : c.Tidy) (r : CCReg) {i : Nat} (hi : i < 64)
    (hown : (own r).getLsbD i = false) : (c.ccReg r).getLsbD i = false := by
  have hbit : (c.ccReg r &&& ~~~own r).getLsbD i = false := by
    rw [h r]
    exact BitVec.getLsbD_zero
  rwa [BitVec.getLsbD_and, BitVec.getLsbD_not, hown, decide_eq_true hi, Bool.not_false,
    Bool.true_and, Bool.and_true] at hbit

theorem Tidy.ezf {c : Context} (h : c.Tidy) : c.flags.getLsbD 5 = (c.ccReg .ezf).getLsbD 5 := by
  have hother (r : CCReg) (hr : r ≠ .ezf) : (c.ccReg r).getLsbD 5 = false :=
    h.getLsbD_eq_false r (by decide) (by cases r <;> first | rfl | exact absurd rfl hr)
  simp only [flags, BitVec.getLsbD_or, hother .zaps (by decide), hother .cfof (by decide),
    hother .df (by decide), hother .ecf (by decide), Bool.false_or]

theorem Tidy.ecf {c : Context} (h : c.Tidy) : c.flags.getLsbD 3 = (c.ccReg .ecf).getLsbD 3 := by
  have hother (r : CCReg) (hr : r ≠ .ecf) : (c.ccReg r).getLsbD 3 = false :=
    h.getLsbD_eq_false r (by decide) (by cases r <;> first | rfl | exact absurd rfl hr)
  simp only [flags, BitVec.getLsbD_or, hother .zaps (by decide), hother .cfof (by decide),
    hother .df (by decide), hother .ezf (by decide), Bool.false_or, Bool.or_false]

end Context

/-- A part of the microcode, from `upc` on. -/
def Piece (ops : List RegOp) (upc : Nat) (code : List RegOp) : Prop :=
  ∃ pre post, ops = pre ++ code ++ post ∧ pre.length = upc

theorem Piece.get {ops code : List RegOp} {upc i : Nat} {op : RegOp} (hp : Piece ops upc code)
    (hi : code[i]? = some op) : ops[upc + i]? = some op := by
  obtain ⟨pre, post, rfl, rfl⟩ := hp
  obtain ⟨hlt, -⟩ := List.getElem?_eq_some_iff.mp hi
  rw [List.append_assoc, List.getElem?_append_right (Nat.le_add_right _ _),
    Nat.add_sub_cancel_left, List.getElem?_append_left hlt, hi]

/-- Some microops lead from the one state to the other. -/
def Reaches (env : EmulEnv) (ops : List RegOp) : Nat × Context → Nat × Context → Prop :=
  Relation.ReflTransGen fun s s' => step env ops s.1 s.2 = some (.ok s')

variable {env : EmulEnv} {ops : List RegOp}

private theorem execute_step {upc : Nat} {c : Context} {s : Nat × Context}
    (hstep : step env ops upc c = some (.ok s)) (n : Nat) :
    execute env ops (n + 1) upc c = execute env ops n s.1 s.2 := by
  have hne : upc ≠ ops.length := by
    rintro rfl
    simp [step] at hstep
  rw [execute, if_neg hne, hstep]
  rfl

/-- A macroop whose run reaches its end gives that result, whatever more of a bound there is. -/
theorem execute_of_reaches {s : Nat × Context} {c' : Context}
    (hrun : Reaches env ops s (ops.length, c')) :
    ∃ n, ∀ m ≥ n, execute env ops m s.1 s.2 = some (.ok c') := by
  induction hrun using Relation.ReflTransGen.head_induction_on with
  | refl =>
      refine ⟨1, fun m hm => ?_⟩
      obtain ⟨m, rfl⟩ := Nat.exists_eq_add_of_le' hm
      rw [execute, if_pos rfl]
  | head hstep _ ih =>
      obtain ⟨n, hn⟩ := ih
      refine ⟨n + 1, fun m hm => ?_⟩
      obtain ⟨m, rfl⟩ := Nat.exists_eq_add_of_le' (Nat.one_le_of_lt hm)
      rw [execute_step hstep]
      exact hn m (by omega)

theorem execute_of_fault {s t : Nat × Context} {fault : Fault} (hrun : Reaches env ops s t)
    (hfault : step env ops t.1 t.2 = some (.error fault)) :
    ∃ n, ∀ m ≥ n, execute env ops m s.1 s.2 = some (.error fault) := by
  induction hrun using Relation.ReflTransGen.head_induction_on with
  | refl =>
      refine ⟨1, fun m hm => ?_⟩
      obtain ⟨m, rfl⟩ := Nat.exists_eq_add_of_le' hm
      have hne : t.1 ≠ ops.length := by
        intro heq
        simp [step, heq] at hfault
      rw [execute, if_neg hne, hfault]
      rfl
  | head hstep _ ih =>
      obtain ⟨n, hn⟩ := ih
      refine ⟨n + 1, fun m hm => ?_⟩
      obtain ⟨m, rfl⟩ := Nat.exists_eq_add_of_le' (Nat.one_le_of_lt hm)
      rw [execute_step hstep]
      exact hn m (by omega)

end ModernArch.X86
