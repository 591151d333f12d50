import ModernArch.BinNet.Core
import ModernArch.Framework.Packing

/-!
# The driver's arrays

`load_weights` reads the layers from text files into blocks of `1024 × 1024` arrays and merges
the blocks into one array. What is sent to the chip are these arrays, one after another.
-/

namespace ModernArch.BinNet
open Framework

/-- The bytes of a float. -/
abbrev Bits := Fin 4 → UInt8

/-- The numbers in the files of one layer, in the order they stand. -/
structure LayerFile where
  weight : Nat → Int8
  bnBias : Nat → Bits
  bnWeight : Nat → Bits
  bnVar : Nat → Bits
  bnMean : Nat → Bits

/-- The global arrays of one layer. -/
structure LayerArrays where
  fcW : Grid Int8
  bnB : Nat → Bits
  bnW : Nat → Bits
  bnVar : Nat → Bits
  bnMean : Nat → Bits

namespace FcName

def rows : FcName → Nat
  | fc1 => 64
  | fc2 => 256
  | fc3 => 10

def cols : FcName → Nat
  | fc1 => 784
  | fc2 => 64
  | fc3 => 256

def rowBias : FcName → Nat
  | fc1 => 10
  | fc2 => 768
  | fc3 => 0

def colBias : FcName → Nat
  | fc1 => 0
  | fc2 => rowBias fc1
  | fc3 => rowBias fc2

end FcName

/-- Nested `fscanf` loops; the second component counts the numbers read. -/
def scanGrid (row rows col cols : Nat) (file : Nat → Int8) (a : Grid Int8) : Grid Int8 × Nat :=
  forRange rows (a, 0) fun i s => forRange cols s fun j s =>
    (s.1.set (row + i) (col + j) (file s.2), s.2 + 1)

def scanRow (row rows : Nat) (file : Nat → Bits) (a : Nat → Bits) : (Nat → Bits) × Nat :=
  forRange rows (a, 0) fun i s => (Function.update s.1 (row + i) (file s.2), s.2 + 1)

def LayerArrays.zero : LayerArrays :=
  ⟨fun _ _ => 0, fun _ _ => 0, fun _ _ => 0, fun _ _ => 0, fun _ _ => 0⟩

def loadLayer (row col : Nat) (fc : FcName) (file : LayerFile) : LayerArrays :=
  let a := LayerArrays.zero
  { fcW := (scanGrid row fc.rows col fc.cols file.weight a.fcW).1
    bnB := (scanRow row fc.rows file.bnBias a.bnB).1
    bnW := (scanRow row fc.rows file.bnWeight a.bnW).1
    bnVar := (scanRow row fc.rows file.bnVar a.bnVar).1
    bnMean := (scanRow row fc.rows file.bnMean a.bnMean).1 }

def copyGrid (row rows col cols : Nat) (source a : Grid Int8) : Grid Int8 :=
  forRange rows a fun i a => forRange cols a fun j a =>
    a.set (row + i) (col + j) (source (row + i) (col + j))

def copyRows (row rows : Nat) (source a : LayerArrays) : LayerArrays :=
  forRange rows a fun i a => { a with
    bnB := Function.update a.bnB (row + i) (source.bnB (row + i))
    bnW := Function.update a.bnW (row + i) (source.bnW (row + i))
    bnVar := Function.update a.bnVar (row + i) (source.bnVar (row + i))
    bnMean := Function.update a.bnMean (row + i) (source.bnMean (row + i)) }

abbrev ModelFiles := FcName → LayerFile

/-- The separate arrays of the accelerator's driver. -/
def separateArrays (files : ModelFiles) (fc : FcName) : LayerArrays :=
  loadLayer fc.rowBias fc.colBias fc (files fc)

/-- The arrays of all layers put together. -/
def mergedArrays (files : ModelFiles) : LayerArrays :=
  let mergeGrid fc a := copyGrid fc.rowBias fc.rows fc.colBias fc.cols (separateArrays files fc).fcW a
  let mergeRows fc a := copyRows fc.rowBias fc.rows (separateArrays files fc) a
  let a := LayerArrays.zero
  let a := { a with fcW := mergeGrid .fc3 (mergeGrid .fc2 (mergeGrid .fc1 a.fcW)) }
  mergeRows .fc3 (mergeRows .fc2 (mergeRows .fc1 a))

def gridBlock (a : Grid Int8) : Block where
  size := 1024 * 1024
  byte k := (a (k / 1024) (k % 1024)).toUInt8

def rowBlock (a : Nat → Bits) : Block where
  size := 1024 * 4
  byte k := a (k / 4) (lane k)

def LayerArrays.blocks (a : LayerArrays) : List Block :=
  [gridBlock a.fcW, rowBlock a.bnB, rowBlock a.bnW, rowBlock a.bnVar, rowBlock a.bnMean]

/-- What `main` sends after `periInit(data, 0)`. -/
def payload (loadOnce : Bool) (files : ModelFiles) : List Block :=
  if loadOnce then (mergedArrays files).blocks
  else (separateArrays files .fc1).blocks ++ (separateArrays files .fc2).blocks ++
    (separateArrays files .fc3).blocks

section Fill

variable {α : Type}

private theorem forRange_update (row n : Nat) (f a : Nat → α) (i : Nat) :
    forRange n a (fun i a => Function.update a (row + i) (f i)) i =
      if row ≤ i ∧ i < row + n then f (i - row) else a i := by
  induction n with
  | zero => rw [forRange_zero, if_neg (by omega)]
  | succ n ih =>
      rw [forRange_succ, Function.update_apply, ih]
      by_cases hi : i = row + n
      · rw [if_pos hi, if_pos (by omega), hi, Nat.add_sub_cancel_left]
      · rw [if_neg hi]
        congr 1
        simp only [eq_iff_iff]
        omega

private theorem forRange_set (row col m : Nat) (f : Nat → α) (a : Grid α) (i j : Nat) :
    forRange m a (fun j a => a.set row (col + j) (f j)) i j =
      if i = row ∧ col ≤ j ∧ j < col + m then f (j - col) else a i j := by
  induction m with
  | zero => rw [forRange_zero, if_neg (by omega)]
  | succ m ih =>
      rw [forRange_succ, Grid.set_apply, ih]
      by_cases hij : i = row ∧ j = col + m
      · rw [if_pos hij, if_pos (by omega), hij.2, Nat.add_sub_cancel_left]
      · rw [if_neg hij]
        congr 1
        simp only [eq_iff_iff]
        omega

private theorem forRange_fill (row n col m : Nat) (f : Nat → Nat → α) (a : Grid α) (i j : Nat) :
    forRange n a (fun i a => forRange m a fun j a => a.set (row + i) (col + j) (f i j)) i j =
      if (row ≤ i ∧ i < row + n) ∧ col ≤ j ∧ j < col + m then f (i - row) (j - col)
      else a i j := by
  induction n with
  | zero => rw [forRange_zero, if_neg (by omega)]
  | succ n ih =>
      rw [forRange_succ, forRange_set, ih]
      by_cases hi : i = row + n
      · subst hi
        by_cases hj : col ≤ j ∧ j < col + m
        · rw [if_pos ⟨rfl, hj⟩, if_pos ⟨by omega, hj⟩, Nat.add_sub_cancel_left]
        · rw [if_neg (fun h => hj h.2), if_neg (by omega), if_neg (fun h => hj h.2)]
      · rw [if_neg (fun h => hi h.1)]
        congr 1
        simp only [eq_iff_iff]
        omega

end Fill

private theorem scanRow_apply (row n : Nat) (file a : Nat → Bits) (i : Nat) :
    (scanRow row n file a).1 i = if row ≤ i ∧ i < row + n then file (i - row) else a i := by
  have hscan : scanRow row n file a =
      (forRange n a (fun i a => Function.update a (row + i) (file i)), n) := by
    unfold scanRow
    induction n with
    | zero => simp
    | succ n ih => rw [forRange_succ, forRange_succ, ih]
  rw [hscan]
  exact forRange_update row n file a i

private theorem scanGrid_apply (row n col m : Nat) (file : Nat → Int8) (a : Grid Int8) (i j : Nat) :
    (scanGrid row n col m file a).1 i j =
      if (row ≤ i ∧ i < row + n) ∧ col ≤ j ∧ j < col + m then file ((i - row) * m + (j - col))
      else a i j := by
  have hrow (i k m : Nat) (a : Grid Int8) :
      forRange m (a, k) (fun j s => (s.1.set (row + i) (col + j) (file s.2), s.2 + 1)) =
        (forRange m a (fun j a => a.set (row + i) (col + j) (file (k + j))), k + m) := by
    induction m with
    | zero => simp
    | succ m ih => rw [forRange_succ, forRange_succ, ih, Nat.add_assoc]
  have hscan : scanGrid row n col m file a =
      (forRange n a (fun i a => forRange m a fun j a =>
        a.set (row + i) (col + j) (file (i * m + j))), n * m) := by
    unfold scanGrid
    induction n with
    | zero => simp
    | succ n ih => rw [forRange_succ, forRange_succ, ih, hrow, Nat.succ_mul]
  rw [hscan]
  exact forRange_fill row n col m (fun i j => file (i * m + j)) a i j

private theorem copyGrid_apply (row n col m : Nat) (source a : Grid Int8) (i j : Nat) :
    copyGrid row n col m source a i j =
      if (row ≤ i ∧ i < row + n) ∧ col ≤ j ∧ j < col + m then source i j else a i j := by
  unfold copyGrid
  rw [forRange_fill row n col m fun i j => source (row + i) (col + j)]
  split
  · rw [Nat.add_sub_cancel' (by omega), Nat.add_sub_cancel' (by omega)]
  · rfl

private theorem copyRows_apply (row n : Nat) (source a : LayerArrays) (i : Nat) :
    let r := copyRows row n source a
    let src := if row ≤ i ∧ i < row + n then source else a
    (r.fcW = a.fcW) ∧ r.bnB i = src.bnB i ∧ r.bnW i = src.bnW i ∧ r.bnVar i = src.bnVar i ∧
      r.bnMean i = src.bnMean i := by
  unfold copyRows
  induction n with
  | zero => simp [show ¬ (row ≤ i ∧ i < row) by omega]
  | succ n ih =>
      simp only [forRange_succ]
      obtain ⟨hw, hb, hs, hv, hm⟩ := ih
      refine ⟨hw, ?_⟩
      simp only [Function.update_apply, hb, hs, hv, hm]
      by_cases hi : i = row + n
      · simp [hi]
      · have hiff : (row ≤ i ∧ i < row + n) ↔ (row ≤ i ∧ i < row + (n + 1)) := by omega
        simp only [hi, if_false, hiff, and_self]

/-- A layer stands in arrays at a row and a column; the rest of its rows is zero. -/
structure LayerArrays.Hosts (a : LayerArrays) (row col : Nat) (fc : FcName) (file : LayerFile) :
    Prop where
  weight : ∀ i < fc.rows, ∀ j < fc.cols, a.fcW (row + i) (col + j) = file.weight (i * fc.cols + j)
  zero : ∀ i < fc.rows, ∀ j, j < col ∨ col + fc.cols ≤ j → a.fcW (row + i) j = 0
  bnB : ∀ i < fc.rows, a.bnB (row + i) = file.bnBias i
  bnW : ∀ i < fc.rows, a.bnW (row + i) = file.bnWeight i
  bnVar : ∀ i < fc.rows, a.bnVar (row + i) = file.bnVar i
  bnMean : ∀ i < fc.rows, a.bnMean (row + i) = file.bnMean i

theorem loadLayer_hosts (row col : Nat) (fc : FcName) (file : LayerFile) :
    (loadLayer row col fc file).Hosts row col fc file := by
  have hrow (f a : Nat → Bits) (i : Nat) (hi : i < fc.rows) :
      (scanRow row fc.rows f a).1 (row + i) = f i := by
    rw [scanRow_apply, if_pos (by omega), Nat.add_sub_cancel_left]
  constructor
  · intro i hi j hj
    simp only [loadLayer, scanGrid_apply]
    rw [if_pos (by omega), Nat.add_sub_cancel_left, Nat.add_sub_cancel_left]
  · intro i hi j hj
    simp only [loadLayer, scanGrid_apply]
    rw [if_neg (by omega)]
    rfl
  · exact hrow _ _
  · exact hrow _ _
  · exact hrow _ _
  · exact hrow _ _

def FcName.InRows (fc : FcName) (i : Nat) : Prop := fc.rowBias ≤ i ∧ i < fc.rowBias + fc.rows

instance (fc : FcName) (i : Nat) : Decidable (fc.InRows i) := by
  unfold FcName.InRows; infer_instance

/-- The layers are in different rows. -/
theorem FcName.InRows.unique {fc fc' : FcName} {i : Nat} (h : fc.InRows i) (h' : fc'.InRows i) :
    fc = fc' := by
  cases fc <;> cases fc' <;> simp [InRows, rowBias, rows] at h h' ⊢ <;> omega

private theorem mergedArrays_rows (files : ModelFiles) {fc : FcName} {i : Nat} (hi : fc.InRows i) :
    let a := separateArrays files fc
    let m := mergedArrays files
    (∀ j, m.fcW i j = if fc.colBias ≤ j ∧ j < fc.colBias + fc.cols then a.fcW i j else 0) ∧
      m.bnB i = a.bnB i ∧ m.bnW i = a.bnW i ∧ m.bnVar i = a.bnVar i ∧ m.bnMean i = a.bnMean i := by
  have hrow (fc' : FcName) : (fc'.rowBias ≤ i ∧ i < fc'.rowBias + fc'.rows) ↔ fc = fc' := by
    constructor
    · exact hi.unique
    · intro he
      exact he ▸ hi
  have hcopy := fun (fc' : FcName) source b => copyRows_apply fc'.rowBias fc'.rows source b i
  simp only [hrow] at hcopy
  constructor
  · intro j
    simp only [mergedArrays, (hcopy _ _ _).1, copyGrid_apply, hrow]
    cases fc <;> simp [LayerArrays.zero]
  · simp only [mergedArrays, (hcopy _ _ _).2]
    cases fc <;> simp [(hcopy _ _ _).2]

theorem mergedArrays_hosts (files : ModelFiles) (fc : FcName) :
    (mergedArrays files).Hosts fc.rowBias fc.colBias fc (files fc) := by
  have hsep := loadLayer_hosts fc.rowBias fc.colBias fc (files fc)
  have hrows (i : Nat) (hi : i < fc.rows) : fc.InRows (fc.rowBias + i) :=
    ⟨Nat.le_add_right _ _, Nat.add_lt_add_left hi _⟩
  have hmerged := fun i hi => mergedArrays_rows files (hrows i hi)
  constructor
  · intro i hi j hj
    rw [(hmerged i hi).1, if_pos (by omega)]
    exact hsep.weight i hi j hj
  · intro i hi j hj
    rw [(hmerged i hi).1, if_neg (by omega)]
  · exact fun i hi => (hmerged i hi).2.1.trans (hsep.bnB i hi)
  · exact fun i hi => (hmerged i hi).2.2.1.trans (hsep.bnW i hi)
  · exact fun i hi => (hmerged i hi).2.2.2.1.trans (hsep.bnVar i hi)
  · exact fun i hi => (hmerged i hi).2.2.2.2.trans (hsep.bnMean i hi)

end ModernArch.BinNet
