import ModernArch.BinNet.Layer

/-!
# What loading leaves in an array

A loaded cell holds a sample of the noise on the side of the sign of its weight and zero on the
other; with every sample one the difference of the two sides is the sign.
-/

namespace ModernArch.BinNet
open Framework
set_option linter.unusedSectionVars false

variable {F : Type} [Field F] [FloatModel F]

/-- The sign of a weight. -/
def weightSign (w : Int8) : F := if 0 < w then 1 else if w < 0 then -1 else 0

private theorem not_neg_of_pos {w : Int8} (h : 0 < w) : ¬ w < 0 := by
  rw [Int8.lt_iff_toInt_lt] at h ⊢
  omega

theorem copyFloats_of_lt {target source : Nat → F} {size i : Nat} (h : i < size / 4) :
    copyFloats target source size i = source i := if_pos h

theorem copyFloats_of_le {target source : Nat → F} {size i : Nat} (h : size / 4 ≤ i) :
    copyFloats target source size i = target i := if_neg (by omega)

namespace RramArray

private theorem loadCell_positive (w : Int8) (i j i' j' : Nat) (a : RramArray F) :
    (a.loadCell w i j).weightPositive i' j' = if i' = i ∧ j' = j then
      (if 0 < w then a.dist a.drawn else 0) else a.weightPositive i' j' := by
  unfold loadCell
  by_cases hp : 0 < w
  · have hn := not_neg_of_pos hp
    simp only [hp, hn, if_true, if_false, Grid.set_apply]
    split <;> rfl
  · by_cases hn : w < 0
    · simp only [hp, hn, if_true, if_false, Grid.set_apply]
    · simp only [hp, hn, if_false, Grid.set_apply]

private theorem loadCell_negative (w : Int8) (i j i' j' : Nat) (a : RramArray F) :
    (a.loadCell w i j).weightNegative i' j' = if i' = i ∧ j' = j then
      (if w < 0 then a.dist a.drawn else 0) else a.weightNegative i' j' := by
  unfold loadCell
  by_cases hp : 0 < w
  · have hn := not_neg_of_pos hp
    simp only [hp, hn, if_true, if_false, Grid.set_apply]
  · by_cases hn : w < 0
    · simp only [hp, hn, if_true, if_false, Grid.set_apply]
      split <;> rfl
    · simp only [hp, hn, if_false, Grid.set_apply]

/-- A cell draws a sample when its weight is not zero. -/
theorem loadCell_drawn (w : Int8) (i j : Nat) (a : RramArray F) :
    (a.loadCell w i j).dist = a.dist ∧
      (a.loadCell w i j).drawn = a.drawn + if 0 < w ∨ w < 0 then 1 else 0 := by
  unfold loadCell
  by_cases hp : 0 < w
  · have hn := not_neg_of_pos hp
    simp [hp, hn]
  · by_cases hn : w < 0 <;> simp [hp, hn]

private theorem loadCells_spec (weight : Grid Int8) (a : RramArray F) :
    (a.loadCells weight).dist = a.dist ∧ ∀ i < 1024, ∀ j < 1024, ∃ k,
      (a.loadCells weight).weightPositive i j = (if 0 < weight i j then a.dist k else 0) ∧
      (a.loadCells weight).weightNegative i j = (if weight i j < 0 then a.dist k else 0) := by
  apply forRange_grid (fun (b : RramArray F) (_ : Unit) => b.dist = a.dist)
    (fun i j b _ => ∃ k,
      b.weightPositive i j = (if 0 < weight i j then a.dist k else 0) ∧
      b.weightNegative i j = (if weight i j < 0 then a.dist k else 0)) 1024 1024
    (fun i j b => b.loadCell (weight i j) i j) (fun _ _ _ => ()) _ _ a () rfl
  · intro i _ j _ b _ hb
    refine ⟨(loadCell_drawn _ i j b).1.trans hb, b.drawn, ?_, ?_⟩
    · rw [loadCell_positive, if_pos ⟨rfl, rfl⟩, hb]
    · rw [loadCell_negative, if_pos ⟨rfl, rfl⟩, hb]
  · intro i j i' j' b _ hne hP
    obtain ⟨k, hp, hn⟩ := hP
    refine ⟨k, ?_, ?_⟩
    · rw [loadCell_positive, if_neg hne, hp]
    · rw [loadCell_negative, if_neg hne, hn]

/-- Arrays that will draw the same samples. -/
def SameNoise (a b : RramArray F) : Prop := ∀ k, a.dist (a.drawn + k) = b.dist (b.drawn + k)

/-- Equal weights and equal noise make equal cells, whatever was there. -/
theorem loadCells_same {weight weight' : Grid Int8} {a b : RramArray F}
    (hw : ∀ i < 1024, ∀ j < 1024, weight i j = weight' i j) (h : SameNoise a b) :
    SameNoise (a.loadCells weight) (b.loadCells weight') ∧ ∀ i < 1024, ∀ j < 1024,
      (a.loadCells weight).weightPositive i j = (b.loadCells weight').weightPositive i j ∧
      (a.loadCells weight).weightNegative i j = (b.loadCells weight').weightNegative i j := by
  apply forRange_grid SameNoise
    (fun i j (a b : RramArray F) => a.weightPositive i j = b.weightPositive i j ∧
      a.weightNegative i j = b.weightNegative i j) 1024 1024
    (fun i j a => a.loadCell (weight i j) i j) (fun i j b => b.loadCell (weight' i j) i j)
    _ _ a b h
  · intro i hi j hj a b hab
    have hdraw : a.dist a.drawn = b.dist b.drawn := hab 0
    simp only [loadCell_positive, loadCell_negative, hw i hi j hj, hdraw, and_self, if_true,
      and_true]
    intro k
    obtain ⟨hda, hna⟩ := loadCell_drawn (weight' i j) i j a
    obtain ⟨hdb, hnb⟩ := loadCell_drawn (weight' i j) i j b
    rw [hda, hna, hdb, hnb, Nat.add_assoc, Nat.add_assoc]
    exact hab _
  · intro i j i' j' a b hne hP
    simp only [loadCell_positive, loadCell_negative, if_neg hne]
    exact hP

section LoadWeight

variable (weight : Grid Int8) (mean var bnWeight bias : Nat → F) (a : RramArray F)

private theorem loadWeight_cells : (a.loadWeight weight mean var bnWeight bias).weightPositive =
      (a.loadCells weight).weightPositive ∧
    (a.loadWeight weight mean var bnWeight bias).weightNegative =
      (a.loadCells weight).weightNegative := ⟨rfl, rfl⟩

theorem loadWeight_params {i : Nat} (hi : i < 1024) :
    (a.loadWeight weight mean var bnWeight bias).batchnormMean i = mean i ∧
    (a.loadWeight weight mean var bnWeight bias).batchnormVar i = var i ∧
    (a.loadWeight weight mean var bnWeight bias).batchnormWeight i = bnWeight i ∧
    (a.loadWeight weight mean var bnWeight bias).batchnormBias i = bias i :=
  ⟨copyFloats_of_lt hi, copyFloats_of_lt hi, copyFloats_of_lt hi, copyFloats_of_lt hi⟩

/-- Every sample is one. -/
def Noiseless (a : RramArray F) : Prop := ∀ k, a.dist k = 1

theorem loadWeight_noiseless (h : Noiseless a) :
    Noiseless (a.loadWeight weight mean var bnWeight bias) := by
  intro k
  exact (congrFun (loadCells_spec weight a).1 k).trans (h k)

theorem loadWeight_sign (h : Noiseless a) {i j : Nat} (hi : i < 1024) (hj : j < 1024) :
    (a.loadWeight weight mean var bnWeight bias).weightPositive i j -
      (a.loadWeight weight mean var bnWeight bias).weightNegative i j =
      weightSign (weight i j) := by
  obtain ⟨k, hp, hn⟩ := (loadCells_spec weight a).2 i hi j hj
  rw [(loadWeight_cells weight mean var bnWeight bias a).1,
    (loadWeight_cells weight mean var bnWeight bias a).2, hp, hn, h k]
  unfold weightSign
  by_cases hpos : 0 < weight i j
  · simp [hpos, not_neg_of_pos hpos]
  · by_cases hneg : weight i j < 0 <;> simp [hpos, hneg]

/-- A block of zero weights outside its columns is placed, whatever the noise. -/
theorem loadWeight_placed {row n col m : Nat} (hrow : row + n ≤ 1024) (hcol : col + m ≤ 1024)
    (hzero : ∀ i < n, ∀ j < 1024, j < col ∨ col + m ≤ j → weight (row + i) j = 0) :
    (a.loadWeight weight mean var bnWeight bias).Placed row n col m := by
  refine ⟨hcol, ?_⟩
  intro i hi j hj hout
  obtain ⟨k, hp, hn⟩ := (loadCells_spec weight a).2 (row + i) (by omega) j hj
  rw [(loadWeight_cells weight mean var bnWeight bias a).1,
    (loadWeight_cells weight mean var bnWeight bias a).2, hp, hn, hzero i hi j hj hout]
  simp

end LoadWeight

end RramArray

namespace Original.RramArray

private theorem loadCell_apply (w : Int8) (i j i' j' : Nat) (a : RramArray F) :
    (a.loadCell w i j).weightPositive i' j' =
      (if i' = i ∧ j' = j then decide (0 < w) else a.weightPositive i' j') ∧
    (a.loadCell w i j).weightNegtive i' j' =
      (if i' = i ∧ j' = j then decide (w < 0) else a.weightNegtive i' j') := by
  unfold loadCell
  by_cases hp : 0 < w
  · have hn := not_neg_of_pos hp
    simp only [hp, hn, if_true, if_false, Grid.set_apply, decide_true, decide_false]
    constructor
    · split <;> rfl
    · trivial
  · by_cases hn : w < 0
    · simp only [hp, hn, if_true, if_false, Grid.set_apply, decide_true, decide_false]
      constructor
      · trivial
      · split <;> rfl
    · simp only [hp, hn, if_false, Grid.set_apply, decide_false, and_self]

private theorem loadCells_spec (weight : Grid Int8) (a : RramArray F) :
    ∀ i < 1024, ∀ j < 1024,
      (a.loadCells weight).weightPositive i j = decide (0 < weight i j) ∧
      (a.loadCells weight).weightNegtive i j = decide (weight i j < 0) := by
  have hgrid := forRange_grid (fun (_ : RramArray F) (_ : Unit) => True)
    (fun i j b _ => b.weightPositive i j = decide (0 < weight i j) ∧
      b.weightNegtive i j = decide (weight i j < 0)) 1024 1024
    (fun i j b => b.loadCell (weight i j) i j) (fun _ _ _ => ())
    (fun i _ j _ b _ _ => by
      have h := loadCell_apply (weight i j) i j i j b
      simp only [and_self, if_true] at h
      exact ⟨trivial, h⟩)
    (fun i j i' j' b _ hne hP => by
      have h := loadCell_apply (weight i j) i j i' j' b
      simp only [if_neg hne] at h
      exact ⟨h.1.trans hP.1, h.2.trans hP.2⟩)
    a () trivial
  exact hgrid.2

private theorem loadCell_params (w : Int8) (i j : Nat) (a : RramArray F) :
    (a.loadCell w i j).batchnormMean = a.batchnormMean ∧
    (a.loadCell w i j).batchnormVar = a.batchnormVar ∧
    (a.loadCell w i j).batchnormWeight = a.batchnormWeight ∧
    (a.loadCell w i j).batchnormBias = a.batchnormBias := by
  unfold loadCell
  by_cases hp : 0 < w
  · simp [hp, not_neg_of_pos hp]
  · by_cases hn : w < 0 <;> simp [hp, hn]

theorem loadCells_params (weight : Grid Int8) (a : RramArray F) :
    (a.loadCells weight).batchnormMean = a.batchnormMean ∧
    (a.loadCells weight).batchnormVar = a.batchnormVar ∧
    (a.loadCells weight).batchnormWeight = a.batchnormWeight ∧
    (a.loadCells weight).batchnormBias = a.batchnormBias := by
  have hgrid := forRange_grid
    (fun (b : RramArray F) (_ : Unit) => b.batchnormMean = a.batchnormMean ∧
      b.batchnormVar = a.batchnormVar ∧ b.batchnormWeight = a.batchnormWeight ∧
      b.batchnormBias = a.batchnormBias) (fun _ _ _ _ => True) 1024 1024
    (fun i j b => b.loadCell (weight i j) i j) (fun _ _ _ => ())
    (fun i _ j _ b _ hb => by
      obtain ⟨hm, hv, hw, hs⟩ := loadCell_params (weight i j) i j b
      exact ⟨⟨hm.trans hb.1, hv.trans hb.2.1, hw.trans hb.2.2.1, hs.trans hb.2.2.2⟩, trivial⟩)
    (fun _ _ _ _ _ _ _ _ => trivial) a () ⟨rfl, rfl, rfl, rfl⟩
  exact hgrid.1

theorem rowValue_loadCells (weight : Grid Int8) (a : RramArray F) (input : Nat → Int8) {i : Nat}
    (hi : i < 1024) : (a.loadCells weight).rowValue input i =
      ∑ j ∈ Finset.range 1024, ((input j).toInt : F) * weightSign (weight i j) := by
  have hneg (v : F) (f : Nat → F) : forRange 1024 v (fun j value => value - f j) =
      v + ∑ j ∈ Finset.range 1024, -f j := by
    simp only [sub_eq_add_neg]
    exact forRange_add 1024 v _
  rw [rowValue, hneg, forRange_add, zero_add, ← Finset.sum_add_distrib]
  apply Finset.sum_congr rfl
  intro j hj
  obtain ⟨hp, hn⟩ := loadCells_spec weight a i hi j (Finset.mem_range.mp hj)
  rw [hp, hn]
  unfold weightSign
  by_cases hpos : 0 < weight i j
  · simp [hpos, not_neg_of_pos hpos]
  · by_cases hneg : weight i j < 0 <;> simp [hpos, hneg]

end Original.RramArray

end ModernArch.BinNet
