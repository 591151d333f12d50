import ModernArch.BinNet.RramArray
import ModernArch.Framework.Argmax

/-!
# Layers in an array

A layer occupies a block of rows and columns. Rows of the block compute the layer as soon as
their weights vanish outside its columns, whatever the input holds there.
-/

namespace ModernArch.BinNet
open Framework
set_option linter.unusedSectionVars false

variable {F N : Type} [Field F] [FloatModel F]

/-- A binarised dense layer with its batch normalisation. -/
structure Layer (F : Type) where
  weight : Grid F
  mean : Nat → F
  var : Nat → F
  scale : Nat → F
  bias : Nat → F

/-- Output `i` for the first `m` entries of the input. -/
def Layer.output (l : Layer F) (m : Nat) (x : Nat → F) (i : Nat) : F :=
  normalize (∑ j ∈ Finset.range m, x j * l.weight i j) (l.mean i) (l.var i) (l.scale i) (l.bias i)

/-- Agreement on `n` rows and `m` columns. -/
structure Layer.Agree (l l' : Layer F) (n m : Nat) : Prop where
  weight : ∀ i < n, ∀ j < m, l.weight i j = l'.weight i j
  mean : ∀ i < n, l.mean i = l'.mean i
  var : ∀ i < n, l.var i = l'.var i
  scale : ∀ i < n, l.scale i = l'.scale i
  bias : ∀ i < n, l.bias i = l'.bias i

private theorem Layer.Agree.output_eq {l l' : Layer F} {n m : Nat} (h : l.Agree l' n m)
    {x x' : Nat → F}
    (hx : ∀ j < m, x j = x' j) {i : Nat} (hi : i < n) : l.output m x i = l'.output m x' i := by
  have hsum : ∑ j ∈ Finset.range m, x j * l.weight i j =
      ∑ j ∈ Finset.range m, x' j * l'.weight i j := by
    apply Finset.sum_congr rfl
    intro j hj
    rw [Finset.mem_range] at hj
    rw [hx j hj, h.weight i hi j hj]
  rw [output, output, hsum, h.mean i hi, h.var i hi, h.scale i hi, h.bias i hi]

section Network

variable [LinearOrder F]

def signValue (x : F) : F := if 0 < x then 1 else if x < 0 then -1 else 0

theorem signInt8_toInt (x : F) : (((signInt8 x).toInt : Int) : F) = signValue x := by
  unfold signInt8 signValue
  split
  · simp
  · split <;> simp

/-- The three layers of the digit classifier: `784 → 64 → 256 → 10`. -/
structure Classifier (F : Type) where
  fc1 : Layer F
  fc2 : Layer F
  fc3 : Layer F

def pixel (image : Nat → UInt8) (j : Nat) : F := if 0 < image j then 1 else 0

def Classifier.hidden1 (c : Classifier F) (image : Nat → UInt8) (i : Nat) : F :=
  signValue (c.fc1.output 784 (pixel image) i)

def Classifier.hidden2 (c : Classifier F) (image : Nat → UInt8) (i : Nat) : F :=
  signValue (c.fc2.output 64 (c.hidden1 image) i)

def Classifier.predict (c : Classifier F) (image : Nat → UInt8) : Int :=
  maxElement (fun i => c.fc3.output 256 (c.hidden2 image) i.toNat) 10

structure Classifier.Agree (c c' : Classifier F) : Prop where
  fc1 : c.fc1.Agree c'.fc1 64 784
  fc2 : c.fc2.Agree c'.fc2 256 64
  fc3 : c.fc3.Agree c'.fc3 10 256

theorem Classifier.Agree.predict_eq {c c' : Classifier F} (h : c.Agree c') {image image' : Nat → UInt8}
    (himage : ∀ j < 784, image j = image' j) : c.predict image = c'.predict image' := by
  have h₁ (i : Nat) (hi : i < 64) : c.hidden1 image i = c'.hidden1 image' i := by
    have hpixel (j : Nat) (hj : j < 784) : (pixel image j : F) = pixel image' j := by
      rw [pixel, pixel, himage j hj]
    rw [hidden1, hidden1, h.fc1.output_eq hpixel hi]
  have h₂ (i : Nat) (hi : i < 256) : c.hidden2 image i = c'.hidden2 image' i := by
    rw [hidden2, hidden2, h.fc2.output_eq h₁ hi]
  apply maxElement_congr (by decide)
  intro i h0 hi
  exact h.fc3.output_eq h₂ (by omega)

end Network

theorem sum_block {n col m : Nat} (f : Nat → F) (hcol : col + m ≤ n)
    (hf : ∀ j < n, j < col ∨ col + m ≤ j → f j = 0) :
    ∑ j ∈ Finset.range n, f j = ∑ j ∈ Finset.range m, f (col + j) := by
  have hsub : Finset.Ico col (col + m) ⊆ Finset.range n := by
    intro j hj
    rw [Finset.mem_Ico] at hj
    exact Finset.mem_range.mpr (by omega)
  rw [← Finset.sum_subset hsub, Finset.sum_Ico_eq_sum_range, Nat.add_sub_cancel_left]
  intro j hj hout
  rw [Finset.mem_range] at hj
  rw [Finset.mem_Ico] at hout
  exact hf j hj (by omega)

namespace RramArray

/-- The block of the array at a row and a column. -/
def layer (a : RramArray F) (row col : Nat) : Layer F where
  weight i j := a.weightPositive (row + i) (col + j) - a.weightNegative (row + i) (col + j)
  mean i := a.batchnormMean (row + i)
  var i := a.batchnormVar (row + i)
  scale i := a.batchnormWeight (row + i)
  bias i := a.batchnormBias (row + i)

/-- Rows `row` to `row + n` have weights in columns `col` to `col + m` only. -/
structure Placed (a : RramArray F) (row n col m : Nat) : Prop where
  cols : col + m ≤ 1024
  zero : ∀ i < n, ∀ j < 1024, j < col ∨ col + m ≤ j →
    a.weightPositive (row + i) j = 0 ∧ a.weightNegative (row + i) j = 0

theorem rowValue_eq (a : RramArray F) (input : Nat → Int8) (i : Nat) :
    a.rowValue input i = ∑ j ∈ Finset.range 1024,
      ((input j).toInt : F) * (a.weightPositive i j - a.weightNegative i j) := by
  have hneg (v : F) : forRange 1024 v (fun j value =>
      value - ((input j).toInt : F) * a.weightNegative i j) =
      v + ∑ j ∈ Finset.range 1024, -(((input j).toInt : F) * a.weightNegative i j) := by
    simp only [sub_eq_add_neg]
    exact forRange_add 1024 v _
  rw [rowValue, hneg, forRange_add, zero_add, ← Finset.sum_add_distrib]
  apply Finset.sum_congr rfl
  intro j _
  ring

/-- A row of a placed block sees its own columns only. -/
theorem rowOutput_placed {a : RramArray F} {row n col m : Nat} (h : a.Placed row n col m)
    {input : Nat → Int8} {x : Nat → F} (hx : ∀ j < m, ((input (col + j)).toInt : F) = x j)
    {i : Nat} (hi : i < n) :
    a.rowOutput input (row + i) = (a.layer row col).output m x i := by
  have hsum : a.rowValue input (row + i) =
      ∑ j ∈ Finset.range m, x j * (a.layer row col).weight i j := by
    rw [rowValue_eq, sum_block _ h.cols]
    · apply Finset.sum_congr rfl
      intro j hj
      rw [hx j (Finset.mem_range.mp hj)]
      rfl
    · intro j hj hout
      obtain ⟨hp, hn⟩ := h.zero i hi j hj hout
      rw [hp, hn, sub_zero, mul_zero]
  rw [rowOutput, hsum]
  rfl

end RramArray

/-- `calculate` into another buffer. -/
theorem calculateRows_spec [DecidableEq N] (rowOutput : (Nat → Int8) → Nat → F)
    {input output : Ptr N} (hbuf : input.buf ≠ output.buf) (h : Heap N F) :
    (∀ i : Nat, i < 1024 → calculateRows rowOutput input output h (output.add i) =
      .float (rowOutput (int8At h input) i)) ∧
    ∀ q : Ptr N, q.buf ≠ output.buf → calculateRows rowOutput input output h q = h q := by
  have hloop := forRange_inv (fun n (h' : Heap N F) =>
    (∀ i : Nat, i < n → h' (output.add i) = .float (rowOutput (int8At h input) i)) ∧
      ∀ q : Ptr N, q.buf ≠ output.buf → h' q = h q) 1024
    (fun i h => Function.update h (output.add i) (.float (rowOutput (int8At h input) i)))
    (fun i _ h' hI => by
      obtain ⟨hdone, hkeep⟩ := hI
      have hinput : int8At h' input = int8At h input := by
        funext k
        have hk := hkeep (input.wordOf k) hbuf
        simp only [int8At, readByte, hk]
      constructor
      · intro i' hi'
        by_cases heq : i' = i
        · subst heq
          rw [Function.update_self, hinput]
        · have hne : output.add i' ≠ output.add i := by
            intro he
            exact heq (by exact_mod_cast Ptr.add_inj.mp he)
          rw [Function.update_of_ne hne]
          exact hdone i' (by omega)
      · intro q hq
        have hne : q ≠ output.add i := fun he => hq (he ▸ rfl)
        rw [Function.update_of_ne hne]
        exact hkeep q hq)
    h ⟨fun i hi => absurd hi (Nat.not_lt_zero i), fun _ _ => rfl⟩
  exact hloop

/-- `sign` into another buffer. -/
theorem sign_eq [LinearOrder F] [DecidableEq N] {input output : Ptr N}
    (hbuf : input.buf ≠ output.buf) (h : Heap N F) :
    sign input output h =
      memcpy h output 0 (fun i => (signInt8 (h (input.add i)).toFloat).toUInt8) 1024 := by
  apply forRange_writeByte
  intro i h' hkeep
  rw [hkeep (input.add i) hbuf]

end ModernArch.BinNet
