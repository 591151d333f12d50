import ModernArch.BinNet.Agreement
import ModernArch.BinNet.Pipeline

/-!
# The original program

`main` of the program the accelerator was made from. Its layers stand at the corner of their
arrays, its local buffers are not initialised, and one array object serves all layers and images.
-/

namespace ModernArch.BinNet.Original
open Framework
set_option linter.unusedSectionVars false

variable {F : Type} [Field F] [FloatModel F] [LinearOrder F]

/-- The arrays that the original `load_weights` fills. -/
def arrays (files : ModelFiles) (fc : FcName) : LayerArrays := loadLayer 0 0 fc (files fc)

def floats (v : Nat → Bits) : Nat → F := fun i => FloatModel.ofBytes (v i)

def RramArray.loadLayer (l : LayerArrays) (a : RramArray F) : RramArray F :=
  a.loadWeight l.fcW (floats l.bnMean) (floats l.bnVar) (floats l.bnW) (floats l.bnB)

def readInput (image : Nat → UInt8) (h : Heap Local F) : Heap Local F :=
  forRange 784 h fun i h => writeByte h tempInt8 i (if 0 < image i then 1 else 0)

/-- One pass of the image loop; `junk` is what the local buffers hold before it. -/
def classify (l : FcName → LayerArrays) (junk : Heap Local F) (image : Nat → UInt8)
    (a : RramArray F) : Int × RramArray F :=
  let h := readInput image junk
  let a := a.loadLayer (l .fc1)
  let h := a.calculate tempInt8 tempFloat h
  let h := sign tempFloat tempInt8 h
  let a := a.loadLayer (l .fc2)
  let h := a.calculate tempInt8 tempFloat h
  let h := sign tempFloat tempInt8 h
  let a := a.loadLayer (l .fc3)
  let h := a.calculate tempInt8 tempFloat h
  (maxElement (fun i => (h (tempFloat.add i)).toFloat) 10, a)

def mainLoop (l : FcName → LayerArrays) :
    RramArray F → List (Heap Local F × (Nat → UInt8)) → List Int
  | _, [] => []
  | a, job :: jobs =>
      let r := classify l job.1 job.2 a
      r.1 :: mainLoop l r.2 jobs

private theorem tempInt8_ne : tempInt8.buf ≠ tempFloat.buf := by decide

private theorem readInput_live (image : Nat → UInt8) (junk : Heap Local F) {j : Nat}
    (hj : j < 784) : ((int8At (readInput image junk) tempInt8 j).toInt : F) = pixel image j := by
  have hcopy : readInput image junk =
      memcpy junk tempInt8 0 (fun i => if 0 < image i then 1 else 0) 784 :=
    forRange_writeByte junk tempInt8 784 (fun i _ => if 0 < image i then 1 else 0)
      fun _ _ _ => rfl
  rw [hcopy, int8At, readByte_memcpy, if_pos ⟨Nat.zero_le j, by omega⟩, Nat.sub_zero]
  unfold pixel
  split <;> simp

/-- Rows of a layer are among those whose parameters are copied. -/
theorem rows_le (fc : FcName) : fc.rows ≤ 256 := by
  cases fc <;> decide

/-- A layer at the corner, whatever the object and the columns after it hold. -/
theorem product_live {l : LayerArrays} {fc : FcName} {file : LayerFile} (hosts : l.Hosts 0 0 fc file)
    (a : RramArray F) {x : Nat → F} {h : Heap Local F}
    (hx : ∀ j < fc.cols, ((int8At h tempInt8 j).toInt : F) = x j) {i : Nat} (hi : i < fc.rows) :
    ((a.loadLayer l).calculate tempInt8 tempFloat h (tempFloat.add i)).toFloat =
      (file.layer fc).output fc.cols x i := by
  have hrow : i < 256 := hi.trans_le (rows_le fc)
  have hcell := (calculateRows_spec (a.loadLayer l).rowOutput tempInt8_ne h).1 i (by omega)
  have hsum : (signSum l.fcW (int8At h tempInt8) i : F) =
      ∑ j ∈ Finset.range fc.cols, x j * ((file.layer fc : Layer F).weight i j) := by
    have hweight := hosts.weight i hi
    have hzero := hosts.zero i hi
    simp only [Nat.zero_add] at hweight hzero
    have hcols : 0 + fc.cols ≤ 1024 := (Nat.add_le_add_right (Nat.zero_le _) _).trans fc.fits.2
    unfold signSum
    rw [sum_block _ hcols]
    · apply Finset.sum_congr rfl
      intro j hj
      rw [Finset.mem_range] at hj
      rw [Nat.zero_add, hx j hj, hweight j hj]
      rfl
    · intro j _ hout
      rw [hzero j (by omega)]
      simp [weightSign]
  have hbnB := hosts.bnB i hi
  have hbnW := hosts.bnW i hi
  have hbnVar := hosts.bnVar i hi
  have hbnMean := hosts.bnMean i hi
  rw [Nat.zero_add] at hbnB hbnW hbnVar hbnMean
  rw [RramArray.calculate, hcell, Word.toFloat_float, RramArray.loadLayer,
    RramArray.rowOutput_copied _ _ _ _ _ _ _ hrow, hsum]
  simp only [floats, hbnB, hbnW, hbnVar, hbnMean]
  rfl

/-- The class depends on the files and the image only. -/
theorem classify_eq (files : ModelFiles) (junk : Heap Local F) (image : Nat → UInt8)
    (a : RramArray F) :
    (classify (arrays files) junk image a).1 = (files.classifier : Classifier F).predict image := by
  let c : Classifier F := files.classifier
  let h₁ := readInput image junk
  let a₁ := a.loadLayer (arrays files .fc1)
  let h₂ := a₁.calculate tempInt8 tempFloat h₁
  let h₃ := sign tempFloat tempInt8 h₂
  let a₂ := a₁.loadLayer (arrays files .fc2)
  let h₄ := a₂.calculate tempInt8 tempFloat h₃
  let h₅ := sign tempFloat tempInt8 h₄
  let a₃ := a₂.loadLayer (arrays files .fc3)
  have hosts (fc : FcName) : (arrays files fc).Hosts 0 0 fc (files fc) := loadLayer_hosts 0 0 fc _
  have hsign (fc : FcName) {x : Nat → F} {h : Heap Local F}
      (hx : ∀ i < fc.rows, (h (tempFloat.add i)).toFloat = x i) (i : Nat) (hi : i < fc.rows) :
      ((int8At (sign tempFloat tempInt8 h) tempInt8 i).toInt : F) = signValue (x i) := by
    have hrow : 0 + fc.rows ≤ 1024 := (Nat.zero_add fc.rows).le.trans ((rows_le fc).trans (by decide))
    have hlive := sign_live tempInt8_ne h hrow (by simpa only [Nat.zero_add] using hx) hi
    rwa [Nat.zero_add] at hlive
  have hlive₁ (j : Nat) (hj : j < 784) : ((int8At h₁ tempInt8 j).toInt : F) = pixel image j :=
    readInput_live image junk hj
  have hlive₂ (i : Nat) (hi : i < 64) : (h₂ (tempFloat.add i)).toFloat =
      c.fc1.output 784 (pixel image) i :=
    product_live (hosts .fc1) a hlive₁ hi
  have hlive₃ (j : Nat) (hj : j < 64) : ((int8At h₃ tempInt8 j).toInt : F) = c.hidden1 image j :=
    hsign .fc1 hlive₂ j hj
  have hlive₄ (i : Nat) (hi : i < 256) : (h₄ (tempFloat.add i)).toFloat =
      c.fc2.output 64 (c.hidden1 image) i :=
    product_live (hosts .fc2) a₁ hlive₃ hi
  have hlive₅ (j : Nat) (hj : j < 256) : ((int8At h₅ tempInt8 j).toInt : F) = c.hidden2 image j :=
    hsign .fc2 hlive₄ j hj
  have hlive₆ (i : Nat) (hi : i < 10) :
      (a₃.calculate tempInt8 tempFloat h₅ (tempFloat.add i)).toFloat =
      c.fc3.output 256 (c.hidden2 image) i :=
    product_live (hosts .fc3) a₂ hlive₅ hi
  change maxElement (fun i => (a₃.calculate tempInt8 tempFloat h₅ (tempFloat.add i)).toFloat) 10 = _
  apply maxElement_congr (by decide)
  intro i h0 hi
  have hlast := hlive₆ i.toNat (by omega)
  rwa [Int.toNat_of_nonneg h0] at hlast

theorem mainLoop_eq (files : ModelFiles) (a : RramArray F)
    (jobs : List (Heap Local F × (Nat → UInt8))) :
    mainLoop (arrays files) a jobs =
      jobs.map fun job => (files.classifier : Classifier F).predict job.2 := by
  induction jobs generalizing a with
  | nil => rfl
  | cons job jobs ih =>
      rw [mainLoop, List.map_cons, ih, classify_eq]

end ModernArch.BinNet.Original
