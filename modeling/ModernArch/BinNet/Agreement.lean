import ModernArch.BinNet.Loading
import ModernArch.Framework.Binary32
import Mathlib

/-!
# The two arrays side by side

Rows of the original array from 256 on keep the parameters they had before `load_weight`, which
copies 1024 bytes of each vector. The two arrays agree exactly when that does not show.
-/

namespace ModernArch.BinNet
open Framework

variable {F : Type} [Field F] [FloatModel F]

/-- The local arrays of the original `main`. -/
inductive Local where
  | tempInt8 | tempFloat
deriving DecidableEq, Repr

def tempInt8 : Ptr Local := ⟨.tempInt8, 0⟩
def tempFloat : Ptr Local := ⟨.tempFloat, 0⟩

def signSum (weight : Grid Int8) (input : Nat → Int8) (i : Nat) : F :=
  ∑ j ∈ Finset.range 1024, ((input j).toInt : F) * weightSign (weight i j)

/-- A batch normalisation is an affine map: its factor. -/
def bnScale (var bnWeight : F) : F := bnWeight / FloatModel.sqrt (var + bnEpsilon)

/-- And its constant. -/
def bnShift (mean var bnWeight bias : F) : F := bias - mean * bnScale var bnWeight

private theorem normalize_eq (value mean var bnWeight bias : F) :
    normalize value mean var bnWeight bias =
      value * bnScale var bnWeight + bnShift mean var bnWeight bias := by
  unfold normalize bnShift bnScale
  ring

section Rows

variable (weight : Grid Int8) (mean var bnWeight bias : Nat → F) (input : Nat → Int8) {i : Nat}

private theorem RramArray.rowOutput_loadWeight (a : RramArray F) (h : a.Noiseless) (hi : i < 1024) :
    (a.loadWeight weight mean var bnWeight bias).rowOutput input i =
      normalize (signSum weight input i) (mean i) (var i) (bnWeight i) (bias i) := by
  obtain ⟨hm, hv, hw, hb⟩ := a.loadWeight_params weight mean var bnWeight bias hi
  have hsum : (a.loadWeight weight mean var bnWeight bias).rowValue input i =
      signSum weight input i := by
    rw [rowValue_eq]
    unfold signSum
    apply Finset.sum_congr rfl
    intro j hj
    rw [loadWeight_sign weight mean var bnWeight bias a h hi (Finset.mem_range.mp hj)]
  rw [rowOutput, hm, hv, hw, hb, hsum]

theorem Original.RramArray.rowOutput_copied (a : Original.RramArray F) (hi : i < 256) :
    (a.loadWeight weight mean var bnWeight bias).rowOutput input i =
      normalize (signSum weight input i) (mean i) (var i) (bnWeight i) (bias i) := by
  have hvalue : (a.loadWeight weight mean var bnWeight bias).rowValue input i =
      signSum weight input i := rowValue_loadCells weight a input (by omega)
  rw [rowOutput, hvalue]
  simp only [loadWeight, copyFloats_of_lt (show i < 1024 / 4 by omega)]

private theorem Original.RramArray.rowOutput_stale (a : Original.RramArray F) (hlo : 256 ≤ i)
    (hi : i < 1024) :
    (a.loadWeight weight mean var bnWeight bias).rowOutput input i =
      normalize (signSum weight input i) (a.batchnormMean i) (a.batchnormVar i)
        (a.batchnormWeight i) (a.batchnormBias i) := by
  have hvalue : (a.loadWeight weight mean var bnWeight bias).rowValue input i =
      signSum weight input i := rowValue_loadCells weight a input hi
  obtain ⟨hm, hv, hw, hb⟩ := loadCells_params weight a
  rw [rowOutput, hvalue]
  simp only [loadWeight, copyFloats_of_le (show 1024 / 4 ≤ i by omega), hm, hv, hw, hb]

end Rows

/-- The output of `load_weight` and `calculate` on the local arrays, original and modified, and
the value both should have. -/
def ArraysAgree (weight : Grid Int8) (mean var bnWeight bias : Nat → F) (a : Original.RramArray F)
    (b : RramArray F) (h : Heap Local F) : Prop :=
  ∀ i : Nat, i < 1024 →
    (a.loadWeight weight mean var bnWeight bias).calculate tempInt8 tempFloat h (tempFloat.add i) =
      (({ b with dist := fun _ => 1 }).loadWeight weight mean var bnWeight bias).calculate tempInt8
        tempFloat h (tempFloat.add i) ∧
    (({ b with dist := fun _ => 1 }).loadWeight weight mean var bnWeight bias).calculate tempInt8
        tempFloat h (tempFloat.add i) =
      .float (normalize (signSum weight (int8At h tempInt8) i) (mean i) (var i) (bnWeight i)
        (bias i))

private theorem arraysAgree_iff (weight : Grid Int8) (mean var bnWeight bias : Nat → F)
    (a : Original.RramArray F) (b : RramArray F) (h : Heap Local F) :
    ArraysAgree weight mean var bnWeight bias a b h ↔ ∀ i, 256 ≤ i → i < 1024 →
      signSum weight (int8At h tempInt8) i *
          (bnScale (a.batchnormVar i) (a.batchnormWeight i) - bnScale (var i) (bnWeight i)) =
        bnShift (mean i) (var i) (bnWeight i) (bias i) -
          bnShift (a.batchnormMean i) (a.batchnormVar i) (a.batchnormWeight i)
            (a.batchnormBias i) := by
  have hbuf : tempInt8.buf ≠ tempFloat.buf := by decide
  have hmod (i : Nat) (hi : i < 1024) :
      (({ b with dist := fun _ => 1 } : RramArray F).loadWeight weight mean var bnWeight
        bias).calculate tempInt8 tempFloat h (tempFloat.add i) =
      .float (normalize (signSum weight (int8At h tempInt8) i) (mean i) (var i) (bnWeight i)
        (bias i)) := by
    rw [RramArray.calculate, (calculateRows_spec _ hbuf h).1 i hi,
      RramArray.rowOutput_loadWeight _ _ _ _ _ _ _ (fun _ => rfl) hi]
  have horig (i : Nat) (hi : i < 1024) :
      (a.loadWeight weight mean var bnWeight bias).calculate tempInt8 tempFloat h
        (tempFloat.add i) =
      .float ((a.loadWeight weight mean var bnWeight bias).rowOutput (int8At h tempInt8) i) :=
    (calculateRows_spec _ hbuf h).1 i hi
  constructor
  · intro hagree i hlo hi
    have heq := (hagree i hi).1
    rw [horig i hi, hmod i hi, Original.RramArray.rowOutput_stale _ _ _ _ _ _ _ hlo hi,
      Word.float.injEq, normalize_eq, normalize_eq] at heq
    linear_combination heq
  · intro hrows i hi
    refine ⟨?_, hmod i hi⟩
    rw [horig i hi, hmod i hi]
    by_cases hlo : i < 256
    · rw [Original.RramArray.rowOutput_copied _ _ _ _ _ _ _ hlo]
    · have heq := hrows i (not_lt.mp hlo) hi
      rw [Original.RramArray.rowOutput_stale _ _ _ _ _ _ _ (not_lt.mp hlo) hi,
        Word.float.injEq, normalize_eq, normalize_eq]
      linear_combination heq

/-- The arrays agree on one input exactly when no row from 256 on tells its stale parameters
from the given ones, and on all weights and inputs exactly when those rows held an equal factor
and constant before. -/
theorem arrays_agree (mean var bnWeight bias : Nat → F) (a : Original.RramArray F)
    (b : RramArray F) :
    (∀ weight h, ArraysAgree weight mean var bnWeight bias a b h ↔ ∀ i, 256 ≤ i → i < 1024 →
      signSum weight (int8At h tempInt8) i *
          (bnScale (a.batchnormVar i) (a.batchnormWeight i) - bnScale (var i) (bnWeight i)) =
        bnShift (mean i) (var i) (bnWeight i) (bias i) -
          bnShift (a.batchnormMean i) (a.batchnormVar i) (a.batchnormWeight i)
            (a.batchnormBias i)) ∧
    ((∀ weight h, ArraysAgree weight mean var bnWeight bias a b h) ↔ ∀ i, 256 ≤ i → i < 1024 →
      bnScale (a.batchnormVar i) (a.batchnormWeight i) = bnScale (var i) (bnWeight i) ∧
      bnShift (a.batchnormMean i) (a.batchnormVar i) (a.batchnormWeight i) (a.batchnormBias i) =
        bnShift (mean i) (var i) (bnWeight i) (bias i)) := by
  have hiff := fun weight h => arraysAgree_iff weight mean var bnWeight bias a b h
  refine ⟨hiff, ?_⟩
  constructor
  · intro hall i hlo hi
    have hzero := (hiff (fun _ _ => 0) fun _ => .float 0).mp (hall _ _) i hlo hi
    have hone := (hiff (fun _ j => if j = 0 then 1 else 0) fun _ => .bytes fun _ => 1).mp
      (hall _ _) i hlo hi
    have hsum₀ (input : Nat → Int8) : (signSum (fun _ _ => 0) input i : F) = 0 := by
      simp [signSum, weightSign]
    have hsum₁ : (signSum (fun _ j => if j = 0 then 1 else 0)
        (int8At (fun _ : Ptr Local => (.bytes fun _ => 1 : Word F)) tempInt8) i : F) = 1 := by
      have hterm (j : Nat) : (weightSign (if j = 0 then 1 else 0) : F) =
          if j = 0 then 1 else 0 := by
        by_cases hj : j = 0 <;> simp [weightSign, hj]
      simp [signSum, hterm, int8At, readByte, Word.toBytes]
    rw [hsum₀, zero_mul] at hzero
    rw [hsum₁, one_mul] at hone
    have hshift := (sub_eq_zero.mp hzero.symm).symm
    rw [hshift, sub_self] at hone
    exact ⟨sub_eq_zero.mp hone, hshift⟩
  · intro hrows weight h
    rw [hiff]
    intro i hlo hi
    rw [(hrows i hlo hi).1, (hrows i hlo hi).2, sub_self, sub_self, mul_zero]

/-- An array whose memory is zero. -/
def zeroOriginal : Original.RramArray ℚ :=
  ⟨fun _ _ => false, fun _ _ => false, fun _ => 0, fun _ => 0, fun _ => 0, fun _ => 0⟩

def zeroArray : RramArray ℚ :=
  ⟨fun _ => 1, 0, fun _ _ => 0, fun _ _ => 0, fun _ => 0, fun _ => 0, fun _ => 0, fun _ => 0⟩

/-- With batch-norm weights zero and biases one, row 256 is zero in the original and one in the
modified array. -/
theorem arrays_disagree :
    (zeroOriginal.loadWeight (fun _ _ => 0) (fun _ => 0) (fun _ => 0) (fun _ => 0)
        fun _ => 1).calculate tempInt8 tempFloat (fun _ => .float 0) (tempFloat.add 256) =
      .float 0 ∧
    (zeroArray.loadWeight (fun _ _ => 0) (fun _ => 0) (fun _ => 0) (fun _ => 0)
        fun _ => 1).calculate tempInt8 tempFloat (fun _ => .float 0) (tempFloat.add 256) =
      .float 1 ∧
    ¬ ArraysAgree (fun _ _ => 0) (fun _ => 0) (fun _ => 0) (fun _ => 0) (fun _ => 1) zeroOriginal
      zeroArray fun _ => .float 0 := by
  have hbuf : tempInt8.buf ≠ tempFloat.buf := by decide
  have horig := (calculateRows_spec (zeroOriginal.loadWeight (fun _ _ => 0) (fun _ => 0)
    (fun _ => 0) (fun _ => 0) fun _ => 1).rowOutput hbuf fun _ => .float 0).1 256 (by decide)
  have hmod := (calculateRows_spec (zeroArray.loadWeight (fun _ _ => 0) (fun _ => 0)
    (fun _ => 0) (fun _ => 0) fun _ => 1).rowOutput hbuf fun _ => .float 0).1 256 (by decide)
  rw [Original.RramArray.rowOutput_stale _ _ _ _ _ _ _ (by decide) (by decide)] at horig
  rw [RramArray.rowOutput_loadWeight _ _ _ _ _ _ _ (fun _ => rfl) (by decide)] at hmod
  have horig₀ : normalize (signSum (fun _ _ => 0)
      (int8At (fun _ : Ptr Local => (.float 0 : Word ℚ)) tempInt8) 256)
      (zeroOriginal.batchnormMean 256) (zeroOriginal.batchnormVar 256)
      (zeroOriginal.batchnormWeight 256) (zeroOriginal.batchnormBias 256) = 0 := by
    simp [normalize, bnEpsilon, zeroOriginal]
  have hmod₁ : normalize (signSum (fun _ _ => 0)
      (int8At (fun _ : Ptr Local => (.float 0 : Word ℚ)) tempInt8) 256) (0 : ℚ) 0 0 1 = 1 := by
    simp [normalize, bnEpsilon]
  rw [horig₀] at horig
  rw [hmod₁] at hmod
  refine ⟨horig, hmod, ?_⟩
  intro hagree
  have heq := (hagree 256 (by decide)).1
  have hsame := horig.symm.trans (heq.trans hmod)
  rw [Word.float.injEq] at hsame
  exact zero_ne_one hsame

end ModernArch.BinNet
